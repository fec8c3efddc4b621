import LuaMachine.Proofs.Structured.Counting
import LuaMachine.Proofs.Structured.Folding
import LuaMachine.Proofs.Structured.Running
/-! # The words of structured programs

What each word does that a structured program is compiled to, in terms of registers and tables: a
word puts the value of an operator into a register, stores into a table, or jumps; or it fails where
the operator has no value.

* `Machine.Yields`: a word that puts a value into a register if there is one.
* `Machine.Stores`: a word that changes the tables if it can.
* `Machine.At.move`, `Machine.At.arithmetic` and the like: one lemma for each kind of word.
-/
set_option autoImplicit false

namespace LuaMachine
namespace Machine

open Structured

/-- The next word puts the value into register `a` and goes on at `pc`, or fails if there is no
value. -/
def Yields (code : Nat → Prototype) (outer : Surroundings) (f : Frame) (pc a : Nat)
    (x : Option Value) (m : Machine) : Prop :=
  Tries x m fun v m' => At code outer f pc m' ∧ Sets f a [v] m m'

/-- The next word leaves these tables and goes on at `pc`, or fails if there are none. -/
def Stores (code : Nat → Prototype) (outer : Surroundings) (f : Frame) (pc : Nat) (w : Value)
    (x : Option Tables) (m : Machine) : Prop :=
  Tries x m fun tables m' => At code outer f pc m' ∧ m'.stack = m.stack ∧ Shows f w tables m'

variable {code : Nat → Prototype} {outer : Surroundings} {f : Frame} {pc a b c n : Nat}
  {m m' : Machine} {v : Value} {i : Instruction} {op : Opcode}

/-! ## Values -/

theorem ensures_result {α : Type} {r : Except RuntimeError α} {R : α → Machine → Prop}
    {E : Fault → Machine → Prop} (hR : ∀ a, r.toOption = some a → R a m)
    (hE : r.toOption = none → ∀ e, E (.runtime e) m) : m.Ensures (ofExcept r) R E :=
  ensures_ofExcept r (fun a ha => hR a (by rw [ha]; rfl)) fun e he => hE (by rw [he]; rfl) e

theorem ensures_element {object key : Value} {R : Value → Machine → Prop}
    {E : Fault → Machine → Prop} (hR : ∀ v, element m.heap.table object key = some v → R v m)
    (hE : element m.heap.table object key = none → ∀ e, E (.runtime e) m) :
    m.Ensures (index object key) R E := by
  unfold index
  split
  next r => exact hR _ rfl
  next hobject =>
    refine hE ?_ _
    unfold element
    split
    · exact absurd rfl (hobject _)
    · rfl

theorem ensures_length {v : Value} {R : Value → Machine → Prop} {E : Fault → Machine → Prop}
    (hR : ∀ w, unaryValue m.heap.table .length v = some w → R w m)
    (hE : unaryValue m.heap.table .length v = none → ∀ e, E (.runtime e) m) :
    m.Ensures (length v) R E := by
  cases v with
  | str s => exact hR _ rfl
  | table r => exact hR _ rfl
  | _ => exact hE rfl _

theorem plain_of_apply {o : Operator} {x y : Value} (h : (o.apply x y).toOption = some v) :
    v.Plain := by
  cases hv : o.apply x y with
  | error e =>
    rw [hv] at h
    cases h
  | ok v' =>
    rw [hv] at h
    cases h
    have hnumber := Operator.isNumber_of_apply hv
    cases v with
    | int i => trivial
    | float d => trivial
    | _ => cases hnumber

theorem ensures_store {object key v : Value} {tables : Tables} {R : Unit → Machine → Prop}
    {E : Fault → Machine → Prop}
    (htables : ∀ r, object = .table r → m.heap.table r = tables r)
    (hR : ∀ r k tables', object = .table r → key.key? = some k →
      tables' = (fun r' => if r' = r then (m.heap.table r).setKey k v else tables r') →
      setElement tables object key v = some tables' →
      R () { m with heap := m.heap.modifyTable r fun t => t.setKey k v })
    (hE : setElement tables object key v = none → ∀ e, E (.runtime e) m) :
    m.Ensures (setIndex object key v) R E := by
  unfold setIndex
  split
  next r =>
    have htable := htables r rfl
    simp only [setElement, Table.set] at hR hE
    unfold setKey
    cases hk : Table.assignable key with
    | error e =>
      rw [hk] at hE
      exact hE rfl e
    | ok k =>
      rw [hk] at hR
      refine hR r k _ rfl ?_ rfl (by rw [htable]; rfl)
      unfold Table.assignable at hk
      split at hk
      next k' hk' =>
        cases hk
        exact hk'
      next => cases hk
  next hobject =>
    refine hE ?_ _
    unfold setElement
    split
    · exact absurd rfl (hobject _)
    · rfl

/-! ## Texts -/

/-- The text of pieces one after the other. -/
def joined : List Value → Option String
  | [] => some ""
  | v :: vs => do return (← piece v) ++ (← joined vs)

theorem toOption_concatenation (vs : List Value) (text : String) :
    (concatenation vs text).toOption = (joined vs).map (text ++ ·) := by
  induction vs generalizing text with
  | nil => simp [concatenation, joined, Except.toOption]
  | cons v vs ih =>
    have hpiece : ∀ t, piece v = some t → (joined (v :: vs)).map (text ++ ·) =
        (joined vs).map (text ++ t ++ ·) := by
      intro t ht
      rw [joined, ht]
      cases joined vs with
      | none => rfl
      | some u => simp [String.append_assoc]
    have hnone : piece v = none → (joined (v :: vs)).map (text ++ ·) = none := by
      intro hv
      rw [joined, hv]
      rfl
    cases v with
    | str s => rw [concatenation, ih, hpiece s rfl]
    | int i => rw [concatenation, ih, hpiece _ rfl]
    | float d => rw [concatenation, ih, hpiece _ rfl]
    | _ => exact (hnone rfl).symm

/-- A text is made; something may be gone from the heap then. -/
theorem ensures_text {s : String} {R : Value → Machine → Prop} {E : Fault → Machine → Prop}
    (hm : Sound code m) (hR : ∀ p, Sound code (m.withMemory p) → m.heap.Thins p.heap →
      p.heap.Has (.str s) → R (.str s) (m.withMemory p)) : m.Ensures (newText s) R E := by
  have hsize : m.Ensures (newText s) (fun _ m' => m'.heap.cells.size = m.heap.cells.size)
      fun _ _ => False := by
    simp only [newText, ensures_bind, ensures_get, ensures_ite, ensures_modify, ensures_pure]
    exact ⟨fun _ => collectIfDue_size m Heap.textHead, fun _ => trivial⟩
  have htext : m.Ensures (newText s) (fun v m' => v = .str s ∧ ∃ p, m' = m.withMemory p ∧
      Sound code m' ∧ m.heap.Retains p.heap ∧ p.heap.Has (.str s)) fun _ _ => False :=
    ensures_newText hm fun p hp hretains hs => ⟨rfl, p, rfl, hp, hretains, hs⟩
  refine (htext.and hsize).mono ?_ fun _ _ hfalse => hfalse.1.elim
  rintro v m' ⟨⟨rfl, p, rfl, hp, hretains, hs⟩, hcells⟩
  refine hR p hp (fun r o ho hne => hretains.cell r o ?_ ho hne) hs
  have hlt : r < p.heap.cells.size := (Array.getElem?_eq_some_iff.mp ho).1
  exact Nat.lt_of_lt_of_eq hlt hcells

theorem toList_extract (s : Array Value) {start count : Nat} (hfit : start + count ≤ s.size) :
    (s.extract start (start + count)).toList =
      (List.range count).map fun j => s.getD (start + j) .nil := by
  apply List.ext_getElem?
  intro j
  rw [Array.getElem?_toList, Array.getElem?_extract, List.getElem?_map]
  by_cases hj : j < count
  · have hlt : start + j < s.size := by omega
    rw [if_pos (by omega), List.getElem?_range hj, Array.getElem?_eq_getElem hlt,
      Option.map_some, Array.getD_eq_getD_getElem?, Array.getElem?_eq_getElem hlt]
    rfl
  · rw [if_neg (by omega), List.getElem?_eq_none (by simpa using hj)]
    rfl

/-- Values that are moved down to where a call began, when the slots above them are cleared. -/
theorem toList_moved {s : Array Value} {source target k k' : Nat} (hle : target ≤ source) :
    ((fillNil k (target + n) (fillNil k' (target + n)
      (moveSlots n source target (grown (target + n) s)))).extract target (target + n)).toList =
      (List.range n).map fun j => s.getD (source + j) .nil := by
  have hgrown := grown_size (target + n) s
  have hmoved := writes_moveSlots (P := fun _ => True) n source target (grown (target + n) s)
    (fun _ _ => trivial) trivial
  have hcleared := (writes_fillNil (P := fun _ => True) trivial k' (target + n)
    (moveSlots n source target (grown (target + n) s))).trans
      (writes_fillNil trivial k (target + n) _)
  rw [toList_extract _ (by rw [hcleared.size, hmoved.size]; omega)]
  refine List.map_congr_left fun j hj => ?_
  have hj := List.mem_range.mp hj
  rw [hcleared.getD (by omega), Array.getD_eq_getD_getElem?,
    moveSlots_getElem? n source target _ (.inl hle) hj (by omega), Option.getD_some, grown_getD]

/-! ## The upvalues of the function -/

section Environment

variable {g : Frame} {tables : Tables} {E : Fault → Machine → Prop} {u : Ref} {x : Upvalue}
  {w : Value}

theorem Own.ensures {R : Option Ref → Machine → Prop} (h : Own f n x m)
    (hg : g.closure = f.closure)
    (hR : ∀ u, m.heap.cells[u]? = some (.upvalue x) → R (some u) m) :
    m.Ensures (ownUpvalue g n) R E := by
  obtain ⟨c, u, hc, hu, hx⟩ := h
  simp only [ownUpvalue, ensures_bind, ensures_get, hg, closure?_eq_some_iff.mpr hc, ensures_pure, hu]
  exact hR u hx

theorem ensures_read {R : Value → Machine → Prop} (hu : m.heap.cells[u]? = some (.upvalue x))
    (hR : R (x.get m.stack) m) : m.Ensures (readUpvalue (some u)) R E := by
  simp only [readUpvalue, upvalue, ensures_bind, ensures_get,
    Heap.upvalue?_eq_some_iff.mpr hu, ensures_pure]
  exact hR

theorem ensures_write {R : Unit → Machine → Prop}
    (hu : m.heap.cells[u]? = some (.upvalue (.closed v)))
    (hR : R () { m with heap := m.heap.setUpvalue u (.closed w) }) :
    m.Ensures (writeUpvalue (some u) w) R E := by
  simp only [writeUpvalue, upvalue, ensures_bind, ensures_get,
    Heap.upvalue?_eq_some_iff.mpr hu, ensures_pure]
  exact hR

end Environment

namespace At

/-! ## Words that put a value into a register -/

theorem assigns (h : At code outer f pc m) (hword : f.prototype.chunk.code[pc]? = some i)
    (ha : a < f.prototype.registers) {x : Option Value} (hv : ∀ v, x = some v → m.heap.Has v)
    (hperform : ∀ m₁, At code outer f (pc + 1) m₁ → m₁.stack = m.stack → m₁.heap = m.heap →
      ∀ (R : Outcome → Machine → Prop) (E : Fault → Machine → Prop),
        (∀ v, x = some v → R .next { m₁ with stack := m₁.stack.setIfInBounds (f.base + a) v }) →
        (x = none → ∀ e, E (.runtime e) m₁) →
        m₁.Ensures (perform { f with next := pc + 1 } i) R E) :
    Yields code outer f (pc + 1) a x m := by
  cases x with
  | some v =>
    refine Leads.weaken (h.goes hword fun m₁ h₁ hstack hheap =>
      hperform m₁ h₁ hstack hheap _ _ ?_ (by simp)) (Nat.zero_le 1)
    rintro v' ⟨⟩
    obtain ⟨hat, hset⟩ := h₁.withSlots a [v] ha (by
      simpa [hheap] using hv v rfl)
    exact ⟨rfl, hat, hset.of_eq hstack hheap⟩
  | none =>
    exact h.fails hword fun m₁ h₁ hstack hheap => hperform m₁ h₁ hstack hheap _ _ (by simp)
      fun _ e => ⟨e, rfl⟩

theorem reg_eq {m₁ : Machine} (hstack : m₁.stack = m.stack) (j : Nat) :
    m₁.stack.getD (f.base + j) .nil = m.reg f j := by
  rw [hstack]
  rfl

theorem move (h : At code outer f pc m) (hword : f.prototype.chunk.code[pc]? = some i)
    (hop : i.opcode? = some .move) (ha : i.a < f.prototype.registers) :
    Yields code outer f (pc + 1) i.a (some (m.reg f i.b)) m := by
  refine h.assigns hword ha (fun v hv => by cases hv; exact h.reg_has _)
    fun m₁ _ hstack _ R E hR _ => ?_
  simp only [perform, hop, ensures_bind, ensures_register, ensures_setRegister, ensures_pure,
    reg_eq hstack]
  exact hR _ rfl

theorem loadConstant (h : At code outer f pc m) (hword : f.prototype.chunk.code[pc]? = some i)
    (hop : i.opcode? = some .loadConstant) (ha : i.a < f.prototype.registers) {k : Constant}
    (hk : f.prototype.chunk.constants[i.bx]? = some k) :
    Yields code outer f (pc + 1) i.a (some k.value) m := by
  obtain ⟨hconstant, hhas⟩ := h.constant hk
  refine h.assigns hword ha (fun v hv => by cases hv; exact hhas) fun m₁ _ _ _ R E hR _ => ?_
  simp only [perform, hop, ensures_bind, ensures_constant, ensures_setRegister, ensures_pure]
  exact ⟨fun v hv => by cases hconstant.symm.trans hv; exact hR _ rfl, fun hnone => by
    cases hconstant.symm.trans hnone⟩

theorem loadBool (h : At code outer f pc m) (hword : f.prototype.chunk.code[pc]? = some i)
    (hop : i.opcode? = some .loadBool) (ha : i.a < f.prototype.registers) :
    Yields code outer f (pc + 1) i.a (some (.bool (i.b != 0))) m := by
  refine h.assigns hword ha (fun v hv => by cases hv; exact m.heap.has_plain trivial)
    fun m₁ _ _ _ R E hR _ => ?_
  simp only [perform, hop, ensures_bind, ensures_setRegister, ensures_pure]
  exact hR _ rfl

theorem loadNil (h : At code outer f pc m) (hword : f.prototype.chunk.code[pc]? = some i)
    (hop : i.opcode? = some .loadNil) (ha : i.a + i.b ≤ f.prototype.registers) :
    Leads 0 m fun m' =>
      At code outer f (pc + 1) m' ∧ Sets f i.a (List.replicate i.b .nil) m m' := by
  refine Leads.weaken (n := 1) ?_ (Nat.zero_le 1)
  refine h.goes hword fun m₁ h₁ hstack hheap => ?_
  simp only [perform, hop, ensures_bind, ensures_setSlots, ensures_pure, true_and]
  obtain ⟨hat, hset⟩ := h₁.withSlots i.a (List.replicate i.b .nil) (by simpa using ha)
    fun v hv => by rw [(List.mem_replicate.mp hv).2]; exact m₁.heap.has_nil
  exact ⟨hat, hset.of_eq hstack hheap⟩

theorem not (h : At code outer f pc m) (hword : f.prototype.chunk.code[pc]? = some i)
    (hop : i.opcode? = some .not) (ha : i.a < f.prototype.registers) :
    Yields code outer f (pc + 1) i.a (some (.bool (m.reg f i.b).isFalsey)) m := by
  refine h.assigns hword ha (fun v hv => by cases hv; exact m.heap.has_plain trivial)
    fun m₁ _ hstack _ R E hR _ => ?_
  simp only [perform, hop, ensures_bind, ensures_register, ensures_setRegister, ensures_pure,
    reg_eq hstack]
  exact hR _ rfl

/-! ## Operators -/

theorem arithmetic {o : Operator} (h : At code outer f pc m)
    (hword : f.prototype.chunk.code[pc]? = some i) (ha : i.a < f.prototype.registers)
    (hperform : ∀ g, perform g i = Machine.arithmetic o g i) :
    Yields code outer f (pc + 1) i.a (o.apply (m.reg f i.b) (m.reg f i.c)).toOption m := by
  refine h.assigns hword ha (fun v hv => m.heap.has_plain (plain_of_apply hv))
    fun m₁ _ hstack _ R E hR hE => ?_
  simp only [hperform, Machine.arithmetic, ensures_bind, ensures_register, ensures_setRegister,
    ensures_pure, reg_eq hstack]
  exact ensures_result hR hE

theorem unary {o : Operator} (h : At code outer f pc m)
    (hword : f.prototype.chunk.code[pc]? = some i) (ha : i.a < f.prototype.registers)
    (hperform : ∀ g, perform g i = Machine.unary o g i) :
    Yields code outer f (pc + 1) i.a (o.apply (m.reg f i.b) (m.reg f i.b)).toOption m := by
  refine h.assigns hword ha (fun v hv => m.heap.has_plain (plain_of_apply hv))
    fun m₁ _ hstack _ R E hR hE => ?_
  simp only [hperform, Machine.unary, ensures_bind, ensures_register, ensures_setRegister,
    ensures_pure, reg_eq hstack]
  exact ensures_result hR hE

theorem compare {o : Value → Value → Except RuntimeError Bool} (h : At code outer f pc m)
    (hword : f.prototype.chunk.code[pc]? = some i) (ha : i.a < f.prototype.registers)
    (hperform : ∀ g, perform g i = Machine.compare o g i) :
    Yields code outer f (pc + 1) i.a
      ((o (m.reg f i.b) (m.reg f i.c)).toOption.map .bool) m := by
  refine h.assigns hword ha (fun v hv => ?_) fun m₁ _ hstack _ R E hR hE => ?_
  · obtain ⟨b, -, rfl⟩ := Option.map_eq_some_iff.mp hv
    exact m.heap.has_plain trivial
  · simp only [hperform, Machine.compare, ensures_bind, ensures_register, ensures_setRegister,
      ensures_pure, reg_eq hstack]
    refine ensures_result (fun b hb => hR _ ?_) fun hnone => hE ?_
    · rw [hb]
      rfl
    · rw [hnone]
      rfl

theorem length (h : At code outer f pc m) (hword : f.prototype.chunk.code[pc]? = some i)
    (hop : i.opcode? = some .length) (ha : i.a < f.prototype.registers) :
    Yields code outer f (pc + 1) i.a (unaryValue m.heap.table .length (m.reg f i.b)) m := by
  refine h.assigns hword ha (fun v hv => ?_) fun m₁ _ hstack hheap R E hR hE => ?_
  · cases hx : m.reg f i.b <;> simp only [hx, unaryValue, reduceCtorEq, Option.some.injEq] at hv <;>
      subst hv <;> exact m.heap.has_plain trivial
  · simp only [perform, hop, ensures_bind, ensures_register, ensures_setRegister, ensures_pure,
      reg_eq hstack]
    rw [← hheap] at hR hE
    exact ensures_length hR hE

/-! ## Tables -/

theorem has_element (h : At code outer f pc m) {object key : Value}
    (hv : element m.heap.table object key = some v) : m.heap.Has v := by
  unfold element at hv
  split at hv
  · cases hv
    exact (h.ready.heap.table _).get m.heap.has_nil key
  · cases hv

theorem getTable (h : At code outer f pc m) (hword : f.prototype.chunk.code[pc]? = some i)
    (hop : i.opcode? = some .getTable) (ha : i.a < f.prototype.registers) :
    Yields code outer f (pc + 1) i.a
      (element m.heap.table (m.reg f i.b) (m.reg f i.c)) m := by
  refine h.assigns hword ha (fun v hv => h.has_element hv) fun m₁ _ hstack hheap R E hR hE => ?_
  simp only [perform, hop, ensures_bind, ensures_register, ensures_setRegister, ensures_pure,
    reg_eq hstack]
  rw [← hheap] at hR hE
  exact ensures_element hR hE

theorem getField (h : At code outer f pc m) (hword : f.prototype.chunk.code[pc]? = some i)
    (hop : i.opcode? = some .getField) (ha : i.a < f.prototype.registers) {k : Constant}
    (hk : f.prototype.chunk.constants[i.c]? = some k) :
    Yields code outer f (pc + 1) i.a (element m.heap.table (m.reg f i.b) k.value) m := by
  refine h.assigns hword ha (fun v hv => h.has_element hv) fun m₁ _ hstack hheap R E hR hE => ?_
  simp only [perform, hop, ensures_bind, ensures_register, ensures_setRegister, ensures_pure,
    reg_eq hstack, ensures_constant]
  rw [← hheap] at hR hE
  refine ⟨fun v hv => ?_, fun hnone => ?_⟩
  · cases (h.constant hk).1.symm.trans hv
    exact ensures_element hR hE
  · cases (h.constant hk).1.symm.trans hnone

theorem concat (h : At code outer f pc m) (hword : f.prototype.chunk.code[pc]? = some i)
    (hop : i.opcode? = some .concat) (ha : i.a < f.prototype.registers)
    (hb : i.b + i.c ≤ f.prototype.registers) :
    Yields code outer f (pc + 1) i.a
      ((joined ((List.range i.c).map fun j => m.reg f (i.b + j))).map .str) m := by
  have hsize := h.window_le
  have hparts : (m.stack.extract (f.base + i.b) (f.base + i.b + i.c)).toList =
      (List.range i.c).map fun j => m.reg f (i.b + j) := by
    rw [toList_extract m.stack (by omega)]
    exact List.map_congr_left fun j _ => by rw [Nat.add_assoc]; rfl
  have hconcat := toOption_concatenation ((List.range i.c).map fun j => m.reg f (i.b + j)) ""
  cases hx : joined ((List.range i.c).map fun j => m.reg f (i.b + j)) with
  | none =>
    rw [hx] at hconcat
    refine h.fails hword fun m₁ _ hstack _ => ?_
    simp only [perform, hop, ensures_bind, ensures_slots, hstack, hparts]
    refine ensures_result (fun t ht => ?_) fun _ e => ⟨e, rfl⟩
    cases hconcat.symm.trans ht
  | some t =>
    rw [hx] at hconcat
    refine Leads.weaken (n := 1) ?_ (Nat.zero_le 1)
    refine h.goes hword fun m₁ h₁ hstack hheap => ?_
    simp only [perform, hop, ensures_bind, ensures_slots, hstack, hparts]
    refine ensures_result (fun t' ht' => ?_) fun hnone => by cases hconcat.symm.trans hnone
    obtain rfl : t' = t := by simpa [ht'] using hconcat
    refine ensures_text h₁.ready.toSound fun p hp hthins hhas => ?_
    simp only [ensures_setRegister, ensures_pure, true_and]
    have h₂ : At code outer f (pc + 1) (m₁.withMemory p) :=
      ⟨⟨hp, h₁.ready.idle⟩, h₁.frames, h₁.opened⟩
    obtain ⟨hat, hset⟩ := h₂.withSlots i.a [.str t'] ha
      fun v hv => by rw [List.mem_singleton.mp hv]; exact hhas
    exact ⟨hat, hset.after hstack (hheap ▸ hthins)⟩

/-! ## Upvalues -/

section Environment

variable {tables : Tables} {w : Value} {k : Constant} {x : Upvalue}

theorem has_own (h : At code outer f pc m) (hown : Own f n x m) : m.heap.Has (x.get m.stack) := by
  obtain ⟨c, u, -, -, hu⟩ := hown
  cases x with
  | opened s => exact h.ready.stack.getD s
  | closed v => exact h.ready.heap.objects u _ hu

theorem getUpvalue (h : At code outer f pc m) (hword : f.prototype.chunk.code[pc]? = some i)
    (hop : i.opcode? = some .getUpvalue) (hown : Own f i.b x m)
    (ha : i.a < f.prototype.registers) :
    Yields code outer f (pc + 1) i.a (some (x.get m.stack)) m := by
  refine h.assigns hword ha (fun v hv => by cases hv; exact h.has_own hown)
    fun m₁ _ hstack hheap R E hR _ => ?_
  have hown₁ : Own f i.b x m₁ := by rw [Own, hheap]; exact hown
  simp only [perform, hop, ensures_bind, ensures_setRegister, ensures_pure]
  exact hown₁.ensures rfl fun u hu => ensures_read hu (hR _ (by rw [hstack]))

theorem getGlobal (h : At code outer f pc m) (hword : f.prototype.chunk.code[pc]? = some i)
    (hop : i.opcode? = some .getGlobal) (hown : Own f i.b x m)
    (ha : i.a < f.prototype.registers) (hk : f.prototype.chunk.constants[i.c]? = some k) :
    Yields code outer f (pc + 1) i.a (element m.heap.table (x.get m.stack) k.value) m := by
  refine h.assigns hword ha (fun v hv => h.has_element hv) fun m₁ _ hstack hheap R E hR hE => ?_
  have hown₁ : Own f i.b x m₁ := by rw [Own, hheap]; exact hown
  simp only [perform, hop, ensures_bind, ensures_setRegister, ensures_pure, ensures_constant]
  refine hown₁.ensures rfl fun u hu => ensures_read hu ⟨fun v hv => ?_, fun hnone => ?_⟩
  · cases (h.constant hk).1.symm.trans hv
    rw [← hheap, ← hstack] at hR hE
    exact ensures_element hR hE
  · cases (h.constant hk).1.symm.trans hnone

theorem has_environment (h : At code outer f pc m) (hs : Shows f w tables m) : m.heap.Has w :=
  h.has_own hs.environment

/-- The variable `_ENV` itself is assigned. -/
theorem setUpvalue (h : At code outer f pc m) (hs : Shows f w tables m)
    (hword : f.prototype.chunk.code[pc]? = some i) (hop : i.opcode? = some .setUpvalue)
    (hb : i.b = 0) : Leads 0 m fun m' => At code outer f (pc + 1) m' ∧ m'.stack = m.stack ∧
      Shows f (m.reg f i.a) tables m' := by
  refine Leads.weaken (n := 1) ?_ (Nat.zero_le 1)
  refine h.goes hword fun m₁ h₁ hstack hheap => ?_
  have hs₁ := hs.thins h₁ (hheap ▸ .refl _)
  obtain ⟨c, u, hc, hu, hcell⟩ := hs₁.environment
  have hown : m₁.heap.closure? f.closure = some c := closure?_eq_some_iff.mpr hc
  simp only [perform, hop, hb, ownUpvalue, ensures_bind, ensures_get, ensures_pure, hown, hu,
    ensures_register, reg_eq hstack, true_and]
  refine ensures_write hcell ?_
  have hv : m₁.heap.Has (m.reg f i.a) := hheap ▸ h.reg_has _
  have hrep : m₁.heap.Replaces (m₁.heap.setUpvalue u (.closed (m.reg f i.a))) u
      (.upvalue (.closed w)) (.upvalue (.closed (m.reg f i.a))) := Heap.replaces_set _ hcell
  have hgrows := hrep.grows_upvalue
  refine ⟨h₁.withHeap (h₁.ready.toSound.grows hgrows ?_ { h₁.ready.opened with
    cell := fun u' hu' => ?_ }), hstack, ⟨c, u, ?_, hu, hrep.new⟩, fun r t ht => ?_⟩
  · exact hrep.sound hgrows h₁.ready.heap Object.noConfusion Object.noConfusion (hgrows.has hv)
  · rcases hrep.of_some (h₁.ready.opened.cell u' hu') with hc' | ⟨-, hc'⟩
    · exact hc'
    · cases hc'
  · rcases hrep.of_some hc with hc' | ⟨-, hc'⟩
    · exact hc'
    · cases hc'
  · by_cases hr : r = u
    · rw [hr] at ht
      cases hrep.new.symm.trans ht
    · exact hs₁.tables r t ((hrep.others r hr).symm.trans ht)

end Environment

/-! ## Assignment to tables -/

section Stores

variable {tables : Tables} {w object key v : Value} {k : Constant}

/-- A word that stores a value in a table. -/
theorem stores (h : At code outer f pc m) (hs : Shows f w tables m) (hobject : m.heap.Has object)
    (hkey : m.heap.Has key) (hv : m.heap.Has v) (hword : f.prototype.chunk.code[pc]? = some i)
    (hperform : ∀ m₁, At code outer f (pc + 1) m₁ → m₁.stack = m.stack → m₁.heap = m.heap →
      ∀ (R : Outcome → Machine → Prop) (E : Fault → Machine → Prop),
        m₁.Ensures (setIndex object key v) (fun _ m' => R .next m') E →
        m₁.Ensures (perform { f with next := pc + 1 } i) R E) :
    Stores code outer f (pc + 1) w (setElement tables object key v) m := by
  have htables : ∀ m₁, At code outer f (pc + 1) m₁ → m₁.heap = m.heap → ∀ r, object = .table r →
      m₁.heap.table r = tables r := fun m₁ _ hheap r hr => by
    rw [hheap]
    exact hs.table (hr ▸ hobject)
  cases hx : setElement tables object key v with
  | none =>
    refine h.fails hword fun m₁ h₁ hstack hheap => hperform m₁ h₁ hstack hheap _ _ ?_
    refine ensures_store (htables m₁ h₁ hheap) (fun r k tables' _ _ _ hsome => ?_)
      fun _ e => ⟨e, rfl⟩
    cases hx.symm.trans hsome
  | some tables' =>
    refine Leads.weaken (n := 1) ?_ (Nat.zero_le 1)
    refine h.goes hword fun m₁ h₁ hstack hheap => hperform m₁ h₁ hstack hheap _ _ ?_
    refine ensures_store (htables m₁ h₁ hheap) (fun r k tables'' hr hk htables'' hsome => ?_)
      fun hnone => by cases hx.symm.trans hnone
    cases hx.symm.trans hsome
    subst hr
    obtain ⟨t, ht⟩ : m₁.heap.Has (.table r) := hheap ▸ hobject
    have hassignable : Table.assignable key = .ok k := by
      rw [Table.assignable, hk]
    have hkvalue : m₁.heap.Has k.value :=
      Table.holds_assignable (fun v hv => m₁.heap.has_plain hv) (hheap ▸ hkey) hassignable
    have hrep := Heap.modifyTable_replaces (fun t => t.setKey k v) ht
    have hs₁ := hs.thins h₁ (hheap ▸ .refl _)
    obtain ⟨c, u, hc, hu, hcell⟩ := hs₁.environment
    refine ⟨rfl, h₁.withHeap (h₁.ready.toSound.setKey r hkvalue (hheap ▸ hv)), hstack,
      ⟨c, u, ?_, hu, ?_⟩, fun r' t' ht' => ?_⟩
    · rcases hrep.of_some hc with hc' | ⟨-, hc'⟩
      · exact hc'
      · cases hc'
    · rcases hrep.of_some hcell with hc' | ⟨-, hc'⟩
      · exact hc'
      · cases hc'
    · rw [htables'']
      dsimp only
      by_cases hr : r' = r
      · subst hr
        cases hrep.new.symm.trans ht'
        rw [if_pos rfl, Heap.table_eq ht]
      · rw [if_neg hr]
        exact hs₁.tables r' t' ((hrep.others r' hr).symm.trans ht')

theorem setTable (h : At code outer f pc m) (hs : Shows f w tables m)
    (hword : f.prototype.chunk.code[pc]? = some i) (hop : i.opcode? = some .setTable) :
    Stores code outer f (pc + 1) w
      (setElement tables (m.reg f i.a) (m.reg f i.b) (m.reg f i.c)) m := by
  refine h.stores hs (h.reg_has _) (h.reg_has _) (h.reg_has _) hword fun m₁ _ hstack _ R E hR => ?_
  simp only [perform, hop, ensures_bind, ensures_register, ensures_pure, reg_eq hstack]
  exact hR

theorem setField (h : At code outer f pc m) (hs : Shows f w tables m)
    (hword : f.prototype.chunk.code[pc]? = some i) (hop : i.opcode? = some .setField)
    (hk : f.prototype.chunk.constants[i.b]? = some k) :
    Stores code outer f (pc + 1) w (setElement tables (m.reg f i.a) k.value (m.reg f i.c)) m := by
  obtain ⟨hconstant, hhas⟩ := h.constant hk
  refine h.stores hs (h.reg_has _) hhas (h.reg_has _) hword fun m₁ _ hstack _ R E hR => ?_
  simp only [perform, hop, ensures_bind, ensures_register, ensures_pure, ensures_constant,
    reg_eq hstack]
  refine ⟨fun v hv => ?_, fun hnone => ?_⟩
  · cases hconstant.symm.trans hv
    exact hR
  · cases hconstant.symm.trans hnone

theorem setGlobal (h : At code outer f pc m) (hs : Shows f w tables m)
    (hword : f.prototype.chunk.code[pc]? = some i) (hop : i.opcode? = some .setGlobal)
    (ha : i.a = 0) (hk : f.prototype.chunk.constants[i.b]? = some k) :
    Stores code outer f (pc + 1) w (setElement tables w k.value (m.reg f i.c)) m := by
  obtain ⟨hconstant, hhas⟩ := h.constant hk
  refine h.stores hs (h.has_environment hs) hhas (h.reg_has _) hword
    fun m₁ h₁ hstack hheap R E hR => ?_
  have hs₁ := hs.thins h₁ (hheap ▸ .refl _)
  rw [← reg_eq hstack] at hR
  simp only [perform, hop, ha, ensures_bind, ensures_register, ensures_pure, ensures_constant]
  refine hs₁.environment.ensures rfl fun u hu => ensures_read hu ⟨fun v hv => ?_, fun hnone => ?_⟩
  · cases hconstant.symm.trans hv
    exact hR
  · cases hconstant.symm.trans hnone

end Stores

/-! ## Jumps -/

/-- The machine goes on at another word with the same registers and the same heap. -/
theorem ensures_jump (h : At code outer f pc m) {d : Int} {t : Nat} (ht : (pc : Int) + d = t)
    {R : Unit → Machine → Prop} {E : Fault → Machine → Prop}
    (hR : ∀ m', At code outer f t m' → m'.stack = m.stack → m'.heap = m.heap → R () m') :
    m.Ensures (Machine.jump d) R E := by
  refine hR { m with frames := m.frames.modify (m.frames.size - 1) _ } ⟨?_, ?_, h.opened⟩ rfl rfl
  · exact ⟨h.ready.toSound.modifyFrame (fun _ => rfl) fun g hg => (h.ready.frames.each g hg).stop,
      h.ready.idle⟩
  · rw [h.frames, modify_push]
    dsimp only
    rw [ht]

theorem jump (h : At code outer f pc m) (hword : f.prototype.chunk.code[pc]? = some i)
    (hop : i.opcode? = some .jump) {t : Nat} (ht : (pc : Int) + 1 + i.signedAx = t) :
    Leads 1 m fun m' => At code outer f t m' ∧ m'.stack = m.stack ∧ m'.heap = m.heap := by
  refine h.goes hword fun m₁ h₁ hstack hheap => ?_
  simp only [perform, hop, ensures_bind, ensures_pure, true_and]
  exact h₁.ensures_jump (t := t) (by omega) fun m' h' hs' hh' =>
    ⟨h', hs'.trans hstack, hh'.trans hheap⟩

/-- A test goes over the next word if the register is as it says. -/
theorem test (h : At code outer f pc m) (hword : f.prototype.chunk.code[pc]? = some i)
    (hop : i.opcode? = some .test) :
    Leads 1 m fun m' => At code outer f
        (if (m.reg f i.a).isTruthy != (i.b != 0) then pc + 2 else pc + 1) m' ∧
      m'.stack = m.stack ∧ m'.heap = m.heap := by
  refine h.goes hword fun m₁ h₁ hstack hheap => ?_
  simp only [perform, hop, ensures_bind, ensures_register, ensures_ite, ensures_pure,
    reg_eq hstack, true_and]
  refine ⟨fun hc => ?_, fun hc => ?_⟩
  · rw [if_pos hc]
    exact h₁.ensures_jump (t := pc + 2) (by omega) fun m' h' hs' hh' =>
      ⟨h', hs'.trans hstack, hh'.trans hheap⟩
  · rw [if_neg hc]
    exact ⟨h₁, hstack, hheap⟩

/-- Nothing is captured, so nothing is closed. -/
theorem ensures_close (h : At code outer f pc m) (hopened : ∀ u ∈ outer.opened, u.1 < f.base)
    (a : Nat) {R : Unit → Machine → Prop} {E : Fault → Machine → Prop} (hR : R () m) : m.Ensures (closeUpvalues (f.base + a)) R E := by
  have hnone : (m.openUpvalues.takeWhile fun u => f.base + a ≤ u.1) = [] := by
    cases hl : m.openUpvalues with
    | nil => rfl
    | cons u rest =>
      have hu := hopened u (h.opened ▸ hl ▸ List.mem_cons_self)
      rw [List.takeWhile_cons, if_neg]
      simp only [decide_eq_true_eq]
      omega
  simp only [closeUpvalues, ensures_bind, ensures_get, hnone, closeAll, ensures_pure]
  exact hR

theorem close (h : At code outer f pc m) (hopened : ∀ u ∈ outer.opened, u.1 < f.base)
    (hword : f.prototype.chunk.code[pc]? = some i) (hop : i.opcode? = some .close) :
    Leads 1 m fun m' => At code outer f (pc + 1) m' ∧ m'.stack = m.stack ∧ m'.heap = m.heap := by
  refine h.goes hword fun m₁ h₁ hstack hheap => ?_
  simp only [perform, hop, ensures_bind, ensures_pure, true_and]
  exact h₁.ensures_close hopened i.a ⟨h₁, hstack, hheap⟩

/-! ## Returning -/

/-- The loop ends with the values at the place where the caller of the function finds them. -/
theorem ret (h : At code outer f pc m) (hopened : ∀ u ∈ outer.opened, u.1 < f.base)
    (hword : f.prototype.chunk.code[pc]? = some i)
    (hop : i.opcode? = some .ret) (hb : i.b = n + 1) (hfit : i.a + n ≤ f.prototype.registers)
    (hhost : f.toHost = true) (hwanted : f.wanted = none) :
    ∃ m', Halts m (.ok n m') ∧ m'.heap = m.heap ∧ m'.globals = m.globals ∧
      (m'.stack.extract f.destination (f.destination + n)).toList =
        (List.range n).map fun j => m.reg f (i.a + j) := by
  have hsize := h.window_le
  have hslots := h.ready.stack.size_le
  have hbase : f.base = f.destination + 1 :=
    (h.ready.frames.each { f with next := pc } (mem_of_back? h.back)).base
  have hhalts := halts_of_step h.back hword (R := fun count m' => count = n ∧ m'.heap = m.heap ∧
    m'.globals = m.globals ∧ (m'.stack.extract f.destination (f.destination + n)).toList =
      (List.range n).map fun j => m.reg f (i.a + j)) fun shown => ?_
  · obtain ⟨count, m', hhalts, rfl, hm'⟩ := hhalts
    exact ⟨m', hhalts, hm'⟩
  have h₁ := h.fetched shown
  refine h₁.ensures_step i ?_
  simp only [perform, hop, leave, hb, hhost, ensures_bind, ensures_frame]
  refine ⟨fun f' hf' => ?_, fun hnone => by cases h₁.back.symm.trans hnone⟩
  cases h₁.back.symm.trans hf'
  refine h₁.ensures_close hopened 0 ?_
  simp only [hwanted, hhost, Nat.succ_ne_zero, if_false, if_true, Nat.add_sub_cancel, Option.or,
    Option.getD_some, ensures_bind, ensures_ensureStack, ensures_copySlots, ensures_clearStack,
    ensures_get, ensures_modify]
  refine ⟨fun hlt => absurd hlt (by show ¬m.options.maxSlots < _; omega), fun _ => ?_⟩
  split <;> exact ⟨n, rfl, rfl, rfl, rfl, by
    rw [Nat.min_self, toList_moved (by omega)]
    exact List.map_congr_left fun j _ => by rw [Nat.add_assoc]; rfl⟩

/-! ## Counting loops -/

/-- What the four registers of a loop hold in a round: its state and the variable that counts. -/
def loopValues (l : NumericLoop) : List Value := [l.control, l.limit, l.step, l.control]

/-- The state of the loop in the registers from `a` on. -/
def loopAt (f : Frame) (a : Nat) (m : Machine) : NumericLoop :=
  ⟨m.reg f a, m.reg f (a + 1), m.reg f (a + 2)⟩

theorem loopAt_sets {l : NumericLoop} (h : Sets f a (loopValues l) m m') :
    loopAt f a m' = l ∧ m'.reg f (a + 3) = l.control := by
  refine ⟨?_, h.get (j := 3) rfl⟩
  rw [loopAt, show m'.reg f a = l.control from h.get (j := 0) rfl, h.get (j := 1) rfl,
    h.get (j := 2) rfl]

/-- The state of a loop is put into its registers. -/
theorem ensures_setLoop (h : At code outer f pc m) {l : NumericLoop}
    (hfit : a + 4 ≤ f.prototype.registers) (hl : ∀ v ∈ loopValues l, m.heap.Has v)
    {R : Unit → Machine → Prop} {E : Fault → Machine → Prop}
    (hR : ∀ m', At code outer f pc m' → Sets f a (loopValues l) m m' → R () m') :
    m.Ensures (setLoop { f with next := pc } a l) R E := by
  obtain ⟨hat, hset⟩ := h.withSlots a (loopValues l) hfit hl
  simp only [setLoop, ensures_setSlots]
  exact hR _ hat hset

theorem forPrepare (h : At code outer f pc m) (hword : f.prototype.chunk.code[pc]? = some i)
    (hop : i.opcode? = some .forPrepare) (hfit : i.a + 4 ≤ f.prototype.registers) {t : Nat}
    (ht : (pc : Int) + 1 + i.signedBx + 1 = t) :
    match NumericLoop.start (m.reg f i.a) (m.reg f (i.a + 1)) (m.reg f (i.a + 2)) with
    | .ok (some l) =>
      Leads 1 m fun m' => At code outer f (pc + 1) m' ∧ Sets f i.a (loopValues l) m m'
    | .ok none => Leads 1 m fun m' => At code outer f t m' ∧ m'.stack = m.stack ∧ m'.heap = m.heap
    | .error _ => Fails m := by
  cases hstart : NumericLoop.start (m.reg f i.a) (m.reg f (i.a + 1)) (m.reg f (i.a + 2)) with
  | error e =>
    refine h.fails hword fun m₁ _ hstack _ => ?_
    simp only [perform, hop, Machine.forPrepare, ensures_bind, ensures_register, reg_eq hstack,
      hstart]
    exact ⟨e, rfl⟩
  | ok l =>
    cases l with
    | none =>
      refine h.goes hword fun m₁ h₁ hstack hheap => ?_
      simp only [perform, hop, Machine.forPrepare, ensures_bind, ensures_register, reg_eq hstack,
        hstart, ofExcept, ensures_pure, true_and]
      exact h₁.ensures_jump (t := t) (by omega) fun m' h' hs' hh' =>
        ⟨h', hs'.trans hstack, hh'.trans hheap⟩
    | some l =>
      have hplain := NumericLoop.plain_of_start hstart
      refine h.goes hword fun m₁ h₁ hstack hheap => ?_
      simp only [perform, hop, Machine.forPrepare, ensures_bind, ensures_register, reg_eq hstack,
        hstart, ofExcept, ensures_pure, true_and]
      refine h₁.ensures_setLoop hfit ?_ fun m' h' hset => ⟨h', hset.of_eq hstack hheap⟩
      simp only [loopValues, List.mem_cons, List.not_mem_nil, or_false]
      rintro v (rfl | rfl | rfl | rfl)
      · exact m₁.heap.has_plain hplain.control
      · exact m₁.heap.has_plain hplain.limit
      · exact m₁.heap.has_plain hplain.step
      · exact m₁.heap.has_plain hplain.control

theorem forLoop (h : At code outer f pc m) (hword : f.prototype.chunk.code[pc]? = some i)
    (hop : i.opcode? = some .forLoop) (hfit : i.a + 4 ≤ f.prototype.registers) {t : Nat}
    (ht : (pc : Int) + 1 + i.signedBx = t) :
    match (loopAt f i.a m).next with
    | some l => Leads 1 m fun m' => At code outer f t m' ∧ Sets f i.a (loopValues l) m m'
    | none =>
      Leads 1 m fun m' => At code outer f (pc + 1) m' ∧ m'.stack = m.stack ∧ m'.heap = m.heap := by
  cases hnext : (loopAt f i.a m).next with
  | none =>
    refine h.goes hword fun m₁ h₁ hstack hheap => ?_
    simp only [perform, hop, Machine.forLoop, ensures_bind, ensures_register, reg_eq hstack]
    rw [show (⟨m.reg f i.a, m.reg f (i.a + 1), m.reg f (i.a + 2)⟩ : NumericLoop).next = none from
      hnext]
    exact ⟨rfl, h₁, hstack, hheap⟩
  | some l =>
    obtain ⟨hcontrol, hlimit, hstep⟩ := NumericLoop.next_cases hnext
    refine h.goes hword fun m₁ h₁ hstack hheap => ?_
    simp only [perform, hop, Machine.forLoop, ensures_bind, ensures_register, reg_eq hstack]
    rw [show (⟨m.reg f i.a, m.reg f (i.a + 1), m.reg f (i.a + 2)⟩ : NumericLoop).next = some l from
      hnext]
    simp only [ensures_bind]
    refine h₁.ensures_setLoop hfit ?_ fun m' h' hset => ?_
    · simp only [loopValues, List.mem_cons, List.not_mem_nil, or_false]
      rintro v (rfl | rfl | rfl | rfl)
      · exact m₁.heap.has_plain hcontrol
      · rcases hlimit with hplain | hsame
        · exact m₁.heap.has_plain hplain
        · rw [hsame, hheap]
          exact h.reg_has _
      · rw [hstep, hheap]
        exact h.reg_has _
      · exact m₁.heap.has_plain hcontrol
    · refine h'.ensures_jump (t := t) (by omega) fun m'' h'' hs'' hh'' => ?_
      refine ⟨rfl, h'', ?_⟩
      have hset' := hset.of_eq hstack hheap
      exact ⟨hh'' ▸ hset'.heap, fun j => by rw [reg, hs'']; exact hset'.reg j,
        fun n hn => by rw [hs'']; exact hset'.under n hn⟩

end At
end Machine
end LuaMachine
