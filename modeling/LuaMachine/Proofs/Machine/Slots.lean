import LuaMachine.Proofs.Machine.Sound
/-! # Slots of the stack

What the operations on the stack and on the innermost frame ensure, each as an equivalence, and
which stacks keep a machine sound.

* `Machine.grown`, `fillNil`, `putSlots`, `moveSlots`: the stacks after the operations.
* `Machine.StackSound.write`: a write above a slot, of values that the heap has.
* `Machine.Sound.withStack`, `Machine.Follows.withStack`: a new stack and a new top.
-/
set_option autoImplicit false

namespace LuaMachine
namespace Machine

/-! ## Stacks after operations -/

/-- The stack with room for `size` values. -/
def grown (size : Nat) (stack : Array Value) : Array Value :=
  stack ++ Array.replicate (size - stack.size) .nil

def putSlots : Nat → List Value → Array Value → Array Value
  | _, [], stack => stack
  | i, v :: rest, stack => putSlots (i + 1) rest (stack.setIfInBounds i v)

def moveSlots : Nat → Nat → Nat → Array Value → Array Value
  | 0, _, _, stack => stack
  | n + 1, source, target, stack =>
    moveSlots n (source + 1) (target + 1) (stack.setIfInBounds target (stack.getD source .nil))

section rules

variable {m : Machine} {E : Fault → Machine → Prop} {Q : Unit → Machine → Prop}

@[simp]
theorem ensures_slot (i : Nat) (Q : Value → Machine → Prop) :
    m.Ensures (slot i) Q E ↔ Q (m.stack.getD i .nil) m := Iff.rfl

@[simp]
theorem ensures_setSlot (i : Nat) (v : Value) :
    m.Ensures (setSlot i v) Q E ↔ Q () { m with stack := m.stack.setIfInBounds i v } := Iff.rfl

@[simp]
theorem ensures_slots (start count : Nat) (Q : Array Value → Machine → Prop) :
    m.Ensures (slots start count) Q E ↔ Q (m.stack.extract start (start + count)) m := Iff.rfl

@[simp]
theorem ensures_setTop (top : Nat) :
    m.Ensures (setTop top) Q E ↔ Q () { m with top := top } := Iff.rfl

@[simp]
theorem ensures_raiseTop (top : Nat) :
    m.Ensures (raiseTop top) Q E ↔ Q () { m with top := max m.top top } := Iff.rfl

@[simp]
theorem ensures_clearStack (start stop : Nat) :
    m.Ensures (clearStack start stop) Q E ↔
      Q () { m with stack := fillNil (min stop m.stack.size - start) start m.stack } := Iff.rfl

@[simp]
theorem ensures_setSlots (i : Nat) (vs : List Value) :
    m.Ensures (setSlots i vs) Q E ↔ Q () { m with stack := putSlots i vs m.stack } := by
  induction vs generalizing i m with
  | nil => exact Iff.rfl
  | cons v rest ih =>
    rw [setSlots, ensures_bind, ensures_setSlot, ih]
    exact Iff.rfl

@[simp]
theorem ensures_copySlots (n source target : Nat) :
    m.Ensures (copySlots n source target) Q E ↔
      Q () { m with stack := moveSlots n source target m.stack } := by
  induction n generalizing source target m with
  | zero => exact Iff.rfl
  | succ n ih =>
    rw [copySlots, ensures_bind, ensures_slot, ensures_bind, ensures_setSlot, ih]
    exact Iff.rfl

@[simp]
theorem ensures_ensureStack (size : Nat) :
    m.Ensures (ensureStack size) Q E ↔
      (m.options.maxSlots < size → E (.runtime .stackOverflow) m) ∧
        (size ≤ m.options.maxSlots → Q () { m with stack := grown size m.stack }) := by
  have hgrown : ∀ m : Machine, (if m.stack.size < size then
      { m with stack := m.stack ++ Array.replicate (size - m.stack.size) .nil } else m) =
      { m with stack := grown size m.stack } := by
    intro m
    split
    next => rfl
    next hlt =>
      unfold grown
      rw [Nat.sub_eq_zero_of_le (Nat.le_of_not_lt hlt), Array.replicate_zero, Array.append_empty]
  simp only [ensureStack, ensures_bind, ensures_get, ensures_ite, ensures_raise, ensures_modify,
    hgrown, Nat.not_lt]

@[simp]
theorem ensures_frame (Q : Frame → Machine → Prop) :
    m.Ensures frame Q E ↔
      (∀ f, m.frames.back? = some f → Q f m) ∧
        (m.frames.back? = none → E (.defect "no frame") m) := by
  simp only [frame, ensures_bind, ensures_get]
  cases m.frames.back? with
  | none => simp
  | some f => simp

@[simp]
theorem ensures_modifyFrame (f : Frame → Frame) :
    m.Ensures (modifyFrame f) Q E ↔
      Q () { m with frames := m.frames.modify (m.frames.size - 1) f } := Iff.rfl

@[simp]
theorem ensures_register (f : Frame) (i : Nat) (Q : Value → Machine → Prop) :
    m.Ensures (register f i) Q E ↔ Q (m.stack.getD (f.base + i) .nil) m := Iff.rfl

@[simp]
theorem ensures_setRegister (f : Frame) (i : Nat) (v : Value) :
    m.Ensures (setRegister f i v) Q E ↔
      Q () { m with stack := m.stack.setIfInBounds (f.base + i) v } := Iff.rfl

@[simp]
theorem ensures_constant (f : Frame) (i : Nat) (Q : Value → Machine → Prop) :
    m.Ensures (constant f i) Q E ↔
      (∀ v, f.constants[i]? = some v → Q v m) ∧ (f.constants[i]? = none → E .outOfRange m) := by
  unfold constant
  cases f.constants[i]? with
  | none => simp
  | some v => simp

end rules

/-! ## What is on them -/

/-- A stack that differs from another one only from a slot on, by values of a kind. -/
structure Writes (P : Value → Prop) (i : Nat) (s s' : Array Value) : Prop where
  size : s'.size = s.size
  mem : ∀ v ∈ s', v ∈ s ∨ P v
  below : ∀ j < i, s'[j]? = s[j]?

variable {P : Value → Prop} {i j : Nat} {s s' s'' : Array Value}

theorem Writes.refl (P : Value → Prop) (i : Nat) (s : Array Value) : Writes P i s s :=
  ⟨rfl, fun _ hv => .inl hv, fun _ _ => rfl⟩

theorem Writes.trans (h : Writes P i s s') (h' : Writes P i s' s'') : Writes P i s s'' where
  size := h'.size.trans h.size
  mem v hv := by
    rcases h'.mem v hv with hv | hv
    · exact h.mem v hv
    · exact .inr hv
  below j hj := (h'.below j hj).trans (h.below j hj)

theorem Writes.weaken (h : Writes P i s s') (hij : j ≤ i) : Writes P j s s' :=
  ⟨h.size, h.mem, fun k hk => h.below k (Nat.lt_of_lt_of_le hk hij)⟩

theorem writes_setIfInBounds {v : Value} (hv : P v) (i : Nat) (s : Array Value) :
    Writes P i s (s.setIfInBounds i v) where
  size := Array.size_setIfInBounds
  mem w hw := by
    rcases Array.mem_or_eq_of_mem_setIfInBounds hw with hw | rfl
    · exact .inl hw
    · exact .inr hv
  below j hj := Array.getElem?_setIfInBounds_ne (Nat.ne_of_gt hj)

theorem writes_putSlots (i : Nat) (vs : List Value) (s : Array Value) (hvs : ∀ v ∈ vs, P v) :
    Writes P i s (putSlots i vs s) := by
  induction vs generalizing i s with
  | nil => exact .refl P i s
  | cons v rest ih =>
    have hhead := writes_setIfInBounds (hvs v List.mem_cons_self) i s
    have hrest := ih (i + 1) (s.setIfInBounds i v) fun w hw => hvs w (List.mem_cons_of_mem v hw)
    exact hhead.trans (hrest.weaken (Nat.le_succ i))

theorem writes_fillNil (hnil : P .nil) (n i : Nat) (s : Array Value) :
    Writes P i s (fillNil n i s) := by
  induction n generalizing i s with
  | zero => exact .refl P i s
  | succ n ih =>
    exact (writes_setIfInBounds hnil i s).trans ((ih (i + 1) _).weaken (Nat.le_succ i))

theorem writes_moveSlots (n source target : Nat) (s : Array Value) (hs : ∀ v ∈ s, P v)
    (hnil : P .nil) : Writes P target s (moveSlots n source target s) := by
  induction n generalizing source target s with
  | zero => exact .refl P target s
  | succ n ih =>
    have hread : P (s.getD source .nil) := Table.holds_getD hs hnil source
    have hhead := writes_setIfInBounds hread target s
    have hrest := ih (source + 1) (target + 1) (s.setIfInBounds target (s.getD source .nil))
      fun v hv => (hhead.mem v hv).elim (hs v) id
    exact hhead.trans (hrest.weaken (Nat.le_succ target))

theorem Writes.getD (h : Writes P i s s') (hj : j < i) : s'.getD j .nil = s.getD j .nil := by
  rw [Array.getD_eq_getD_getElem?, Array.getD_eq_getD_getElem?, h.below j hj]

/-- Nothing is written behind the values that are put down. -/
theorem putSlots_above (i : Nat) (vs : List Value) (s : Array Value) (hj : i + vs.length ≤ j) :
    (putSlots i vs s)[j]? = s[j]? := by
  induction vs generalizing i s with
  | nil => rfl
  | cons v rest ih =>
    rw [List.length_cons] at hj
    rw [putSlots, ih (i + 1) _ (by omega), Array.getElem?_setIfInBounds_ne (by omega)]

theorem putSlots_getElem? (i : Nat) (vs : List Value) (s : Array Value) (j : Nat)
    (hfit : i + vs.length ≤ s.size) :
    (putSlots i vs s)[j]? = if i ≤ j ∧ j < i + vs.length then vs[j - i]? else s[j]? := by
  induction vs generalizing i s with
  | nil => rw [putSlots, if_neg (by simp only [List.length_nil]; omega)]
  | cons v vs ih =>
    simp only [List.length_cons] at hfit ⊢
    rw [putSlots, ih (i + 1) _ (by rw [Array.size_setIfInBounds]; omega)]
    by_cases hij : j = i
    · subst hij
      rw [if_neg (by omega), if_pos (by omega), Array.getElem?_setIfInBounds_self_of_lt (by omega)]
      simp
    · rw [Array.getElem?_setIfInBounds_ne (Ne.symm hij)]
      by_cases hin : i + 1 ≤ j ∧ j < i + 1 + vs.length
      · rw [if_pos hin, if_pos (by omega), show j - i = j - (i + 1) + 1 by omega,
          List.getElem?_cons_succ]
      · rw [if_neg hin, if_neg (by omega)]

theorem fillNil_getElem? (n i : Nat) (s : Array Value) (j : Nat) :
    (fillNil n i s)[j]? = if i ≤ j ∧ j < i + n ∧ j < s.size then some .nil else s[j]? := by
  induction n generalizing i s with
  | zero =>
    rw [fillNil, if_neg (by omega)]
  | succ n ih =>
    rw [fillNil, ih, Array.size_setIfInBounds, Array.getElem?_setIfInBounds]
    by_cases hij : i = j
    · subst hij
      by_cases hlt : i < s.size
      · rw [if_neg (by omega), if_pos rfl, if_pos hlt, if_pos (by omega)]
      · rw [if_neg (by omega), if_pos rfl, if_neg hlt, if_neg (by omega)]
        exact (Array.getElem?_eq_none (Nat.le_of_not_lt hlt)).symm
    · by_cases hin : i ≤ j ∧ j < i + (n + 1) ∧ j < s.size
      · rw [if_pos (by omega), if_pos hin]
      · rw [if_neg (by omega), if_neg hij, if_neg hin]

/-- All slots of a cleared range are nil. -/
theorem fillNil_clears {start stop : Nat} {v : Value} (hstart : start ≤ j) (hstop : j < stop)
    (hv : (fillNil (min stop s.size - start) start s)[j]? = some v) : v = .nil := by
  rw [fillNil_getElem?] at hv
  split at hv
  next => exact (Option.some.inj hv).symm
  next hout =>
    obtain ⟨hlt, -⟩ := Array.getElem?_eq_some_iff.mp hv
    omega

theorem moveSlots_above (n source target : Nat) (s : Array Value) (hj : target + n ≤ j) :
    (moveSlots n source target s)[j]? = s[j]? := by
  induction n generalizing source target s with
  | zero => rfl
  | succ n ih => rw [moveSlots, ih _ _ _ (by omega), Array.getElem?_setIfInBounds_ne (by omega)]

/-- Values that are moved down, or wholly past themselves, are read before they are overwritten. -/
theorem moveSlots_getElem? (n source target : Nat) (s : Array Value)
    (hapart : target ≤ source ∨ source + n ≤ target) (hj : j < n) (hfit : target + n ≤ s.size) :
    (moveSlots n source target s)[target + j]? = some (s.getD (source + j) .nil) := by
  induction n generalizing source target s j with
  | zero => omega
  | succ n ih =>
    have hsize : (s.setIfInBounds target (s.getD source .nil)).size = s.size :=
      Array.size_setIfInBounds
    rw [moveSlots]
    cases j with
    | zero =>
      have hwrites := writes_moveSlots (P := fun _ => True) n (source + 1) (target + 1)
        (s.setIfInBounds target (s.getD source .nil)) (fun _ _ => trivial) trivial
      show (moveSlots n (source + 1) (target + 1) _)[target]? = some (s.getD source .nil)
      rw [hwrites.below _ (Nat.lt_succ_self target), Array.getElem?_setIfInBounds_self_of_lt
        (by omega)]
    | succ j =>
      rw [show target + (j + 1) = target + 1 + j by omega, ih _ _ _ (by omega) (by omega) (by omega),
        Array.getD_eq_getD_getElem?, Array.getElem?_setIfInBounds_ne (by omega),
        ← Array.getD_eq_getD_getElem?, show source + 1 + j = source + (j + 1) by omega]

theorem grown_size (size : Nat) (s : Array Value) : (grown size s).size = max size s.size := by
  rw [grown, Array.size_append, Array.size_replicate]
  omega

theorem grown_getElem? (size : Nat) (s : Array Value) (j : Nat) :
    (grown size s)[j]? =
      if j < s.size then s[j]? else if j < size then some .nil else none := by
  rw [grown, Array.getElem?_append]
  split
  next => rfl
  next hlt =>
    rw [Array.getElem?_replicate]
    by_cases hj : j < size
    · rw [if_pos (by omega), if_pos hj]
    · rw [if_neg (by omega), if_neg hj]

theorem grown_getD (size : Nat) (s : Array Value) (j : Nat) :
    (grown size s).getD j .nil = s.getD j .nil := by
  rw [Array.getD_eq_getD_getElem?, Array.getD_eq_getD_getElem?, grown_getElem?]
  split
  next => rfl
  next hlt =>
    rw [Array.getElem?_eq_none (Nat.le_of_not_lt hlt)]
    split
    next => rfl
    next => rfl

/-- The values of `n` slots from one on. -/
def valuesFrom (stack : Array Value) (start n : Nat) : List Value :=
  (List.range n).map fun j => stack.getD (start + j) .nil

@[simp]
theorem valuesFrom_length (s : Array Value) (start n : Nat) : (valuesFrom s start n).length = n := by
  rw [valuesFrom, List.length_map, List.length_range]

theorem valuesFrom_getD (s : Array Value) (start n : Nat) (j : Nat) :
    (valuesFrom s start n).getD j .nil = if j < n then s.getD (start + j) .nil else .nil := by
  rw [List.getD_eq_getElem?_getD, valuesFrom, List.getElem?_map]
  split
  next hlt => rw [List.getElem?_range hlt, Option.map_some, Option.getD_some]
  next hlt =>
    rw [List.getElem?_eq_none (by rw [List.length_range]; omega)]
    rfl

/-- Slots that are on the stack are copied as they are. -/
theorem extract_toList {s : Array Value} {start n : Nat} (hfit : start + n ≤ s.size) :
    (s.extract start (start + n)).toList = valuesFrom s start n := by
  refine List.ext_getElem? fun j => ?_
  rw [Array.getElem?_toList, Array.getElem?_extract, valuesFrom, List.getElem?_map]
  split
  next hlt =>
    rw [List.getElem?_range (by omega), Option.map_some, Array.getD_eq_getD_getElem?,
      Array.getElem?_eq_getElem (by omega), Option.getD_some]
  next hlt =>
    rw [List.getElem?_eq_none (by rw [List.length_range]; omega)]
    rfl

theorem mem_grown {size : Nat} {v : Value} (hv : v ∈ grown size s) : v ∈ s ∨ v = .nil := by
  rcases Array.mem_append.mp hv with hv | hv
  · exact .inl hv
  · exact .inr (Array.eq_of_mem_replicate hv)

/-! ## Sound stacks -/

variable {h : Heap} {slots top : Nat}

theorem StackSound.getD (hs : StackSound h slots top s) (i : Nat) : h.Has (s.getD i .nil) :=
  Table.holds_getD hs.has h.has_nil i

theorem StackSound.extract (hs : StackSound h slots top s) (start stop : Nat) :
    ∀ v ∈ s.extract start stop, h.Has v := by
  intro v hv
  obtain ⟨i, hi⟩ := Array.mem_iff_getElem?.mp hv
  rw [Array.getElem?_extract] at hi
  split at hi
  · exact hs.has v (Array.mem_of_getElem? hi)
  · cases hi

theorem StackSound.mono {h' : Heap} (hs : StackSound h slots top s)
    (hg : ∀ v, h.Has v → h'.Has v) : StackSound h' slots top s :=
  ⟨fun v hv => hg v (hs.has v hv), hs.top_le, hs.size_le, hs.clear⟩

/-- Slots are written, and the top moves. -/
theorem StackSound.write (hs : StackSound h slots top s) (hw : Writes h.Has i s s') {top' : Nat}
    (htop : top' ≤ s.size) (hclear : ∀ j v, top' ≤ j → s'[j]? = some v → v = .nil) :
    StackSound h slots top' s' where
  has v hv := (hw.mem v hv).elim (hs.has v) id
  top_le := by rw [hw.size]; exact htop
  size_le := by rw [hw.size]; exact hs.size_le
  clear := hclear

theorem StackSound.set (hs : StackSound h slots top s) {v : Value} (hi : i < top) (hv : h.Has v) :
    StackSound h slots top (s.setIfInBounds i v) := by
  refine hs.write (writes_setIfInBounds hv i s) hs.top_le fun j w hj hw => ?_
  rw [Array.getElem?_setIfInBounds_ne (by omega)] at hw
  exact hs.clear j w hj hw

theorem StackSound.put (hs : StackSound h slots top s) {vs : List Value}
    (hi : ∀ n < vs.length, i + n < top) (hvs : ∀ v ∈ vs, h.Has v) :
    StackSound h slots top (putSlots i vs s) := by
  refine hs.write (writes_putSlots i vs s hvs) hs.top_le fun j w hj hw => ?_
  cases vs with
  | nil => exact hs.clear j w hj hw
  | cons v rest =>
    have hlast := hi rest.length (Nat.lt_succ_self _)
    rw [putSlots_above i _ s (by rw [List.length_cons]; omega)] at hw
    exact hs.clear j w hj hw

theorem StackSound.move (hs : StackSound h slots top s) {n source target : Nat}
    (hn : target + n ≤ top) : StackSound h slots top (moveSlots n source target s) := by
  refine hs.write (writes_moveSlots n source target s hs.has h.has_nil) hs.top_le
    fun j w hj hw => ?_
  rw [moveSlots_above n source target s (by omega)] at hw
  exact hs.clear j w hj hw

theorem StackSound.fill (hs : StackSound h slots top s) (n start : Nat) :
    StackSound h slots top (fillNil n start s) := by
  refine hs.write (writes_fillNil h.has_nil n start s) hs.top_le fun j w hj hw => ?_
  rw [fillNil_getElem?] at hw
  split at hw
  · exact (Option.some.inj hw).symm
  · exact hs.clear j w hj hw

theorem StackSound.grown (hs : StackSound h slots top s) {size : Nat} (hsize : size ≤ slots) :
    StackSound h slots top (grown size s) where
  has v hv := by
    rcases mem_grown hv with hv | rfl
    · exact hs.has v hv
    · exact h.has_nil
  top_le := by
    rw [grown_size]
    exact Nat.le_trans hs.top_le (Nat.le_max_right _ _)
  size_le := by
    rw [grown_size]
    exact Nat.max_le.mpr ⟨hsize, hs.size_le⟩
  clear j v hj hv := by
    rw [grown_getElem?] at hv
    split at hv
    · exact hs.clear j v hj hv
    · split at hv
      · exact (Option.some.inj hv).symm
      · cases hv

/-- More slots come into use. -/
theorem StackSound.raise (hs : StackSound h slots top s) (top' : Nat) (htop : top ≤ top')
    (hsize : top' ≤ s.size) : StackSound h slots top' s :=
  ⟨hs.has, hsize, hs.size_le, fun j v hj hv => hs.clear j v (Nat.le_trans htop hj) hv⟩

/-! ## Sound machines -/

variable {code : Nat → Prototype} {m m₀ : Machine} {k limit : Nat}

theorem FramesSound.slots_le {pools : Pools} {frames : Array Frame} {slots' : Nat}
    (hf : FramesSound h pools slots top frames) (hslots : slots ≤ slots') {top' : Nat}
    (hwindow : ∀ f, frames.back? = some f → f.window ≤ top') :
    FramesSound h pools slots' top' frames where
  each f hmem :=
    have hold := hf.each f hmem
    { hold with
      stop := Nat.le_trans hold.stop hslots
      fits := Nat.le_trans hold.fits hslots }
  calls := hf.calls
  window := hwindow

theorem OpenSound.withTop {frames : Array Frame} {opened : List (Nat × Ref)}
    (ho : OpenSound h top frames opened) {top' : Nat} (hbelow : ∀ u ∈ opened, u.1 < top') :
    OpenSound h top' frames opened :=
  ⟨ho.sorted, ho.cell, hbelow, ho.window, ho.native⟩

/-- A new stack with a new top, above which nothing is in use. -/
theorem Sound.withStack (hm : Sound code m) {top' : Nat}
    (hs : StackSound m.heap m.options.maxSlots top' s') (hsize : m.stack.size ≤ s'.size)
    (hwindow : ∀ f, m.frames.back? = some f → f.window ≤ top')
    (hbelow : ∀ u ∈ m.openUpvalues, u.1 < top') :
    Sound code { m with stack := s', top := top' } :=
  { hm with
    stack := hs
    frames := hm.frames.slots_le hsize hwindow
    opened := hm.opened.withTop hbelow }

theorem Sound.withSlots (hm : Sound code m) (hs : StackSound m.heap m.options.maxSlots m.top s')
    (hsize : m.stack.size ≤ s'.size) : Sound code { m with stack := s' } :=
  hm.withStack hs hsize hm.frames.window hm.opened.below

theorem Follows.withStack (hf : m₀.Follows k limit m) {top' : Nat}
    (hsize : m.stack.size ≤ s'.size)
    (hslots : ∀ i < limit,
      s'.getD i .nil = m.stack.getD i .nil ∨ ∃ r, (i, r) ∈ m.openUpvalues) :
    m₀.Follows k limit { m with stack := s', top := top' } := by
  refine { hf with stack := Nat.le_trans hf.stack hsize, slots := fun i hi => ?_ }
  rcases hslots i hi with hs | ⟨r, hr⟩
  · exact (hf.slots i hi).imp_left hs.trans
  · exact .inr ⟨r, (hf.opened (i, r) hi).mp hr⟩

/-- Slots are written that are not below the limit. -/
theorem Follows.write (hf : m₀.Follows k limit m) {top' : Nat} (hw : Writes P i m.stack s')
    (hi : limit ≤ i) : m₀.Follows k limit { m with stack := s', top := top' } :=
  hf.withStack (Nat.le_of_eq hw.size.symm) fun _ hj => .inl (hw.getD (Nat.lt_of_lt_of_le hj hi))

end Machine
end LuaMachine
