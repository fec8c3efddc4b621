import LuaMachine.Proofs.Flow.Notes
import LuaMachine.Proofs.Machine.Aging
import LuaMachine.Proofs.Machine.Working
/-! # What an instruction changes

An instruction that makes no call and does not return changes nothing of the frames but where the
innermost one goes on and the end of its open list. It writes the registers that its operation names,
or the slot of an open upvalue. Only a word that makes closures opens upvalues, and only one that
closes upvalues closes them.

* `Machine.Touches`: some slots change, but neither the frames nor the open upvalues.
* `Frame.Writes`: the slots that an instruction writes.
* `Machine.Effect`, `Machine.ensures_effect`: all that an instruction changes.
-/
set_option autoImplicit false

namespace LuaMachine

/-- The instruction writes the slot, as a register of the frame. -/
def Frame.Writes (f : Frame) (i : Instruction) (op : Opcode) (j : Nat) : Prop :=
  match op with
  | .move => j = f.base + i.a
  | .forPrepare | .forLoop => f.base + i.a ≤ j
  | .iterLoop => f.base + i.a + 2 ≤ j
  | .iterCall => f.base + i.a + 3 ≤ j
  | _ => ∃ r, op.lowest? i.a = some r ∧ f.base + r ≤ j

/-- The word closes the upvalue of the slot. -/
def Frame.Shuts (f : Frame) (n j : Nat) : Prop := f.base ≤ j ∧ f.prototype.ClosesAt n (j - f.base)

/-- The word makes a closure with an upvalue of the slot. -/
def Frame.Takes (f : Frame) (n j : Nat) : Prop := f.base ≤ j ∧ f.prototype.Captures n (j - f.base)

/-- Behind the instruction the open list of the frame ends at the slot. -/
def Frame.Lists (f : Frame) (i : Instruction) (op : Opcode) (stop : Nat) : Prop :=
  match op.opens? i.a i.c with
  | some s => f.base + s ≤ stop
  | none => stop = f.open'

/-- The operations that only compute: they write registers of the frame and tables. -/
def Opcode.computes : Opcode → Bool
  | .setUpvalue | .setList | .jump | .test | .call | .ret | .close | .closure | .vararg => false
  | .forPrepare | .forLoop | .iterCall | .iterLoop | .extra => false
  | _ => true

namespace Machine

/-! ## Slots that change -/

/-- The frames stay, and so do all slots but some; upvalues are opened for some slots only, and none
is closed. -/
structure Touches (P Q : Nat → Prop) (m m' : Machine) : Prop where
  frames : m'.frames = m.frames
  slots : ∀ j, ¬P j → m'.stack.getD j .nil = m.stack.getD j .nil
  opened : ∀ u ∈ m'.openUpvalues, u ∈ m.openUpvalues ∨ Q u.1
  kept : ∀ u ∈ m.openUpvalues, u ∈ m'.openUpvalues

variable {P Q : Nat → Prop} {m m' : Machine} {α : Type}

instance : Chain (Touches P Q) where
  refl _ := ⟨rfl, fun _ _ => rfl, fun _ hu => .inl hu, fun _ hu => hu⟩
  trans h h' := ⟨h'.frames.trans h.frames, fun j hj => (h'.slots j hj).trans (h.slots j hj),
    fun u hu => (h'.opened u hu).elim (h.opened u) .inr, fun u hu => h'.kept u (h.kept u hu)⟩

/-- Neither the frames nor the open upvalues are concerned. -/
theorem touches_stack {g : Machine → Machine} (hframes : ∀ m, (g m).frames = m.frames)
    (hopened : ∀ m, (g m).openUpvalues = m.openUpvalues)
    (hstack : ∀ (m : Machine) (j : Nat), ¬P j → (g m).stack.getD j .nil = m.stack.getD j .nil) :
    Endures (Touches P Q) (modify g : Exec Unit) :=
  fun m => ⟨hframes m, hstack m, fun _ hu => .inl ((hopened m).subst hu),
    fun _ hu => (hopened m).symm.subst hu⟩

theorem touches_fields {g : Machine → Machine} (hframes : ∀ m, (g m).frames = m.frames)
    (hopened : ∀ m, (g m).openUpvalues = m.openUpvalues) (hstack : ∀ m, (g m).stack = m.stack) :
    Endures (Touches P Q) (modify g : Exec Unit) :=
  touches_stack hframes hopened fun m j _ => by rw [hstack m]

theorem touches_collectIfDue (size : Nat) :
    Endures (Touches P Q) (modify fun m => m.collectIfDue size) := by
  refine touches_fields (fun m => ?_) (fun m => ?_) fun m => ?_ <;>
    · rw [collectIfDue_eq]
      rfl

theorem touches_modifyHeap (g : Heap → Heap) : Endures (Touches P Q) (modifyHeap g) :=
  touches_fields (fun _ => rfl) (fun _ => rfl) fun _ => rfl

theorem touches_allocate (o : Object) : Endures (Touches P Q) (allocate o) :=
  (touches_collectIfDue _).bind fun _ _ =>
    ⟨rfl, fun _ _ => rfl, fun _ hu => .inl hu, fun _ hu => hu⟩

theorem touches_newTable : Endures (Touches P Q) newTable := (touches_allocate _).map

theorem touches_newText (s : String) : Endures (Touches P Q) (newText s) := by
  refine lasts_get.bind fun m => ?_
  split
  · exact (touches_collectIfDue _).bind fun _ =>
      .bind (touches_fields (fun _ => rfl) (fun _ => rfl) fun _ => rfl) fun _ => lasts_pure _
  · exact lasts_pure _

theorem touches_setSlot {j : Nat} (hj : P j) (v : Value) : Endures (Touches P Q) (setSlot j v) := by
  refine touches_stack (fun _ => rfl) (fun _ => rfl) fun m k hk => ?_
  have hne : j ≠ k := fun heq => hk (heq ▸ hj)
  rw [Array.getD_eq_getD_getElem?, Array.getD_eq_getD_getElem?, Array.getElem?_setIfInBounds_ne hne]

theorem touches_setSlots {j : Nat} (hj : ∀ k, j ≤ k → P k) (vs : List Value) :
    Endures (Touches P Q) (setSlots j vs) := by
  induction vs generalizing j with
  | nil => exact lasts_pure ()
  | cons v rest ih =>
    exact (touches_setSlot (hj j (Nat.le_refl j)) v).bind fun _ =>
      ih fun k hk => hj k (Nat.le_of_succ_le hk)

theorem touches_setKey (r : Ref) (key value : Value) : Endures (Touches P Q) (setKey r key value) := by
  unfold setKey
  split
  · exact touches_modifyHeap _
  · exact lasts_raise _

theorem touches_setIndex (object key value : Value) :
    Endures (Touches P Q) (setIndex object key value) := by
  unfold setIndex
  split
  · exact touches_setKey _ _ _
  · exact lasts_raise _

theorem touches_length (v : Value) : Endures (Touches P Q) (length v) := by
  unfold length
  split
  · exact lasts_pure _
  · exact lasts_get.bind fun _ => lasts_pure _
  · exact lasts_raise _

theorem touches_setItems (r : Ref) (n source key : Nat) :
    Endures (Touches P Q) (setItems r n source key) := by
  induction n generalizing source key with
  | zero => exact lasts_pure ()
  | succ n ih => exact (lasts_slot _).bind fun _ => (touches_modifyHeap _).bind fun _ => ih _ _

theorem touches_ensureStack (size : Nat) : Endures (Touches P Q) (ensureStack size) := by
  intro m
  rw [ensures_ensureStack]
  exact ⟨fun _ => ⟨Chain.refl m, trivial⟩, fun _ =>
    ⟨rfl, fun j _ => grown_getD size m.stack j, fun _ hu => .inl hu, fun _ hu => hu⟩⟩

/-! ## Upvalues -/

/-- An upvalue is open for the slot afterwards. -/
theorem touches_capture {slot : Nat} (hslot : Q slot) : Endures (Touches P Q) (capture slot) := by
  unfold capture
  refine lasts_get.bind fun m => ?_
  split
  · exact lasts_pure _
  · refine (touches_allocate _).bind fun r => .bind (fun m => ?_) fun _ => lasts_pure r
    refine ⟨rfl, fun _ _ => rfl, fun u hu => ?_, fun u hu => mem_opening.mpr (.inr hu)⟩
    rcases mem_opening.mp hu with rfl | hu
    · exact .inr hslot
    · exact .inl hu

theorem touches_fillUpvalue (r : Ref) (i : Nat) (u : Option Ref) :
    Endures (Touches P Q) (fillUpvalue r i u) := by
  refine lasts_get.bind fun m => ?_
  split
  · exact lasts_missing (by decide)
  · split
    · exact touches_modifyHeap _
    · exact lasts_throw trivial

theorem touches_fillUpvalues {f : Frame} {sources : List UpvalueSource}
    (hsources : ∀ s ∈ sources, s.fromRegister = true → Q (f.base + s.index)) (r : Ref) (i : Nat) :
    Endures (Touches P Q) (fillUpvalues f r i sources) := by
  induction sources generalizing i with
  | nil => exact lasts_pure ()
  | cons source rest ih =>
    have hrest := ih (fun s hs => hsources s (List.mem_cons_of_mem _ hs)) (i + 1)
    unfold fillUpvalues
    split
    next hregister =>
      exact ((touches_capture (hsources source List.mem_cons_self hregister)).map).bind fun u =>
        (touches_fillUpvalue _ _ _).bind fun _ => hrest
    next =>
      exact (lasts_ownUpvalue _ _).bind fun u => (touches_fillUpvalue _ _ _).bind fun _ => hrest

theorem touches_makeClosure {f : Frame} {i : Instruction} (ha : P (f.base + i.a))
    (hsources : ∀ q, f.prototype.children[i.bx]? = some q → ∀ s ∈ q.upvalues,
      s.fromRegister = true → Q (f.base + s.index)) : Endures (Touches P Q) (makeClosure f i) := by
  unfold makeClosure
  split
  · exact lasts_throw trivial
  next child hchild =>
    exact (touches_allocate _).bind fun r => (touches_setSlot ha _).bind fun _ =>
      (touches_fillUpvalues (fun s hs => hsources child hchild s (Array.mem_toList_iff.mp hs)) _ _).bind
        fun _ => lasts_pure _

/-! ## Registers -/

section registers

variable {f : Frame} {i : Instruction} {op : Opcode}

/-- The value goes to the register that the instruction names first. -/
theorem touches_put {x : Exec Value} (hx : Endures (Touches P Q) x) {a : Nat} (ha : P (f.base + a)) :
    Endures (Touches P Q) (do
      setRegister f a (← x)
      return Outcome.next) :=
  hx.bind fun v => .bind (touches_setSlot ha v) fun _ => lasts_pure _

theorem touches_arithmetic (o : Operator) (ha : P (f.base + i.a)) :
    Endures (Touches P Q) (arithmetic o f i) :=
  (lasts_register _ _).bind fun _ => (lasts_register _ _).bind fun _ =>
    touches_put (lasts_ofExcept _) ha

theorem touches_unary (o : Operator) (ha : P (f.base + i.a)) :
    Endures (Touches P Q) (unary o f i) :=
  (lasts_register _ _).bind fun _ => touches_put (lasts_ofExcept _) ha

theorem touches_compare (order : Value → Value → Except RuntimeError Bool) (ha : P (f.base + i.a)) :
    Endures (Touches P Q) (compare order f i) :=
  (lasts_register _ _).bind fun _ => (lasts_register _ _).bind fun _ =>
    (lasts_ofExcept _).bind fun _ => .bind (touches_setSlot ha _) fun _ => lasts_pure _

/-- An operation that computes writes the registers that it names. -/
theorem touches_perform (hop : i.opcode? = some op) (hcomputes : op.computes = true) :
    Endures (Touches (f.Writes i op) Q) (perform f i) := by
  have hwrites : op.lowest? i.a = some i.a → ∀ j, f.base + i.a ≤ j →
      (∃ r, op.lowest? i.a = some r ∧ f.base + r ≤ j) := fun ha j hj => ⟨i.a, ha, hj⟩
  unfold perform
  rw [hop]
  cases op with
  | setUpvalue | setList | jump | test | call | ret | close | closure | vararg | forPrepare | forLoop
    | iterCall | iterLoop | extra => cases hcomputes
  | move => exact touches_put (lasts_register _ _) rfl
  | loadConstant => exact touches_put (lasts_constant _ _) (hwrites rfl _ (Nat.le_refl _))
  | loadBool => exact touches_put (lasts_pure _) (hwrites rfl _ (Nat.le_refl _))
  | loadNil => exact .bind (touches_setSlots (hwrites rfl) _) fun _ => lasts_pure _
  | getUpvalue =>
    exact (lasts_ownUpvalue _ _).bind fun _ =>
      touches_put (lasts_readUpvalue _) (hwrites rfl _ (Nat.le_refl _))
  | getGlobal =>
    exact (lasts_ownUpvalue _ _).bind fun _ => (lasts_readUpvalue _).bind fun _ =>
      (lasts_constant _ _).bind fun _ => touches_put (lasts_index _ _) (hwrites rfl _ (Nat.le_refl _))
  | setGlobal =>
    exact (lasts_ownUpvalue _ _).bind fun _ => (lasts_readUpvalue _).bind fun _ =>
      (lasts_constant _ _).bind fun _ => (lasts_register _ _).bind fun _ =>
        (touches_setIndex _ _ _).bind fun _ => lasts_pure _
  | getTable =>
    exact (lasts_register _ _).bind fun _ => (lasts_register _ _).bind fun _ =>
      touches_put (lasts_index _ _) (hwrites rfl _ (Nat.le_refl _))
  | setTable =>
    exact (lasts_register _ _).bind fun _ => (lasts_register _ _).bind fun _ =>
      (lasts_register _ _).bind fun _ => (touches_setIndex _ _ _).bind fun _ => lasts_pure _
  | getField =>
    exact (lasts_register _ _).bind fun _ => (lasts_constant _ _).bind fun _ =>
      touches_put (lasts_index _ _) (hwrites rfl _ (Nat.le_refl _))
  | setField =>
    exact (lasts_register _ _).bind fun _ => (lasts_constant _ _).bind fun _ =>
      (lasts_register _ _).bind fun _ => (touches_setIndex _ _ _).bind fun _ => lasts_pure _
  | newTable => exact touches_put touches_newTable (hwrites rfl _ (Nat.le_refl _))
  | self =>
    exact (lasts_register _ _).bind fun _ => (lasts_register _ _).bind fun _ =>
      (lasts_index _ _).bind fun _ => (touches_setSlot (hwrites rfl _ (Nat.le_add_right _ 1)) _).bind
        fun _ => (touches_setSlot (hwrites rfl _ (Nat.le_refl _)) _).bind fun _ => lasts_pure _
  | unm | bnot => exact touches_unary _ (hwrites rfl _ (Nat.le_refl _))
  | not =>
    exact (lasts_register _ _).bind fun _ =>
      .bind (touches_setSlot (hwrites rfl _ (Nat.le_refl _)) _) fun _ => lasts_pure _
  | length =>
    exact (lasts_register _ _).bind fun _ =>
      touches_put (touches_length _) (hwrites rfl _ (Nat.le_refl _))
  | concat =>
    exact (lasts_slots _ _).bind fun _ => (lasts_ofExcept _).bind fun _ =>
      touches_put (touches_newText _) (hwrites rfl _ (Nat.le_refl _))
  | equal | less | lessEqual => exact touches_compare _ (hwrites rfl _ (Nat.le_refl _))
  | add | sub | mul | div | idiv | mod | pow | band | bor | bxor | shl | shr =>
    exact touches_arithmetic _ (hwrites rfl _ (Nat.le_refl _))

end registers

/-! ## Every instruction -/

/-- What an instruction of the innermost frame changes, which stands at the position. -/
structure Effect (f : Frame) (n : Nat) (i : Instruction) (op : Opcode) (m m' : Machine) : Prop where
  moves : ∃ t stop, f.prototype.Goes n t ∧ f.Lists i op stop ∧ m'.frames =
    m.frames.modify (m.frames.size - 1) fun g => { g with next := t, open' := stop }
  slots : ∀ j, ¬f.Writes i op j → m'.stack.getD j .nil = m.stack.getD j .nil ∨
    op = .setUpvalue ∧ ∃ r, (j, r) ∈ m.openUpvalues
  opened : ∀ u ∈ m'.openUpvalues, u ∈ m.openUpvalues ∧ ¬f.Shuts n u.1 ∨ f.Takes n u.1
  kept : ∀ u ∈ m.openUpvalues, u ∈ m'.openUpvalues ∨ f.Shuts n u.1

section effects

variable {code : Nat → Prototype} {f : Frame} {n t : Nat} {i : Instruction} {op : Opcode}
  {E : Fault → Machine → Prop}

theorem modify_congr {α : Type} {xs : Array α} {k : Nat} {x : α} {g g' : α → α}
    (hx : xs[k]? = some x) (h : g x = g' x) : xs.modify k g = xs.modify k g' := by
  refine Array.ext_getElem? fun j => ?_
  rw [Array.getElem?_modify, Array.getElem?_modify]
  split
  next heq =>
    rw [← heq, hx, Option.map_some, Option.map_some, h]
  next => rfl

theorem modify_self {α : Type} {xs : Array α} {k : Nat} {x : α} {g : α → α}
    (hx : xs[k]? = some x) (h : g x = x) : xs.modify k g = xs := by
  refine Array.ext_getElem? fun j => ?_
  rw [Array.getElem?_modify]
  split
  next heq => rw [← heq, hx, Option.map_some, h]
  next => rfl

/-- The next word, for an operation that is no jump. -/
theorem goes_next (hi : f.prototype.chunk.code[n]? = some i) (hop : i.opcode? = some op)
    (hplain : op ≠ .jump ∧ op ≠ .ret ∧ op ≠ .setList) : f.prototype.Goes n (n + 1) :=
  .inr ⟨op, Prototype.opcodeAt?_eq_some_iff.mpr ⟨i, hi, hop⟩, hplain.1, hplain.2.1,
    (if_neg hplain.2.2).symm⟩

theorem goes_target (hi : f.prototype.chunk.code[n]? = some i) (hop : i.opcode? = some op)
    (ht : (t : Int) ∈ i.targets n op) : f.prototype.Goes n t := .inl ⟨i, op, hi, hop, ht⟩

theorem shuts_iff (hi : f.prototype.chunk.code[n]? = some i) (hop : i.opcode? = some op) (j : Nat) :
    f.Shuts n j ↔ op = .close ∧ f.base + i.a ≤ j := by
  constructor
  · rintro ⟨hle, i', hi', hop', ha⟩
    cases hi.symm.trans hi'
    exact ⟨Option.some.inj (hop.symm.trans hop'), by omega⟩
  · rintro ⟨rfl, hle⟩
    exact ⟨by omega, i, hi, hop, by omega⟩

/-- The frames are those of before, but for where the innermost one goes on. -/
theorem Active.frames_modify (ha : Active code f m) {t stop : Nat} (ht : f.next = t)
    (hstop : f.open' = stop) :
    m.frames = m.frames.modify (m.frames.size - 1) fun g => { g with next := t, open' := stop } := by
  subst ht hstop
  exact (modify_self ha.frame_get rfl).symm

/-- An instruction that goes on with the next word, and neither leaves a list nor closes upvalues. -/
theorem effect_of_touches {P : Nat → Prop} (ha : Active code f m) (hn : f.next = n + 1)
    (hi : f.prototype.chunk.code[n]? = some i) (hop : i.opcode? = some op)
    (hplain : op ≠ .jump ∧ op ≠ .ret ∧ op ≠ .setList) (hopens : op.opens? i.a i.c = none)
    (hclose : op ≠ .close) (h : Touches P (f.Takes n) m m')
    (hP : ∀ j, P j → f.Writes i op j ∨ op = .setUpvalue ∧ ∃ r, (j, r) ∈ m.openUpvalues) :
    Effect f n i op m m' where
  moves := by
    refine ⟨n + 1, f.open', goes_next hi hop hplain, ?_, h.frames.trans (ha.frames_modify hn rfl)⟩
    unfold Frame.Lists
    rw [hopens]
  slots j hj := by
    by_cases hp : P j
    · exact .inr ((hP j hp).resolve_left hj)
    · exact .inl (h.slots j hp)
  opened u hu := (h.opened u hu).imp_left fun hold =>
    ⟨hold, fun hshuts => hclose ((shuts_iff hi hop _).mp hshuts).1⟩
  kept u hu := .inl (h.kept u hu)

/-- The innermost frame goes on elsewhere. -/
theorem ensures_jump_to {d : Int} {Q : Unit → Machine → Prop} (hback : m.frames.back? = some f)
    (ht : (f.next : Int) + d = t)
    (hQ : Q () { m with
      frames := m.frames.modify (m.frames.size - 1) fun g => { g with next := t, open' := f.open' } }) :
    m.Ensures (jump d) Q E := by
  rw [jump, ensures_modifyFrame]
  refine (modify_congr (back?_eq_some_iff.mp hback) ?_) ▸ hQ
  rw [ht]

/-- An instruction that may go elsewhere, after it has written registers. -/
theorem effect_of_jump (hi : f.prototype.chunk.code[n]? = some i)
    (hop : i.opcode? = some op) (hopens : op.opens? i.a i.c = none) (hclose : op ≠ .close)
    (ht : (t : Int) ∈ i.targets n op) {s : Array Value}
    (hs : ∀ j, ¬f.Writes i op j → s.getD j .nil = m.stack.getD j .nil) :
    Effect f n i op m { m with
      stack := s
      frames := m.frames.modify (m.frames.size - 1) fun g => { g with next := t, open' := f.open' } } where
  moves := by
    refine ⟨t, f.open', goes_target hi hop ht, ?_, rfl⟩
    unfold Frame.Lists
    rw [hopens]
  slots j hj := .inl (hs j hj)
  opened u hu := .inl ⟨hu, fun hshuts => hclose ((shuts_iff hi hop _).mp hshuts).1⟩
  kept u hu := .inl hu

/-- The instruction goes on with the next one. -/
def Ongoing (x : Exec Outcome) : Prop := ∀ m : Machine, m.Ensures x (fun o _ => o = .next) fun _ _ => True

theorem ongoing_next : Ongoing (pure .next) := fun _ => rfl

theorem ongoing_bind {β : Type} {x : Exec β} {k : β → Exec Outcome} (hk : ∀ b, Ongoing (k b)) :
    Ongoing (x >>= k) := fun m => by
  rw [ensures_bind]
  exact .of_forall (fun b m' => hk b m') fun _ _ => trivial

theorem ongoing_throw (e : Fault) : Ongoing (throw e) := fun _ => trivial

/-- Only a call and a return are no steps to another instruction. -/
theorem ongoing_perform (hop : i.opcode? = some op)
    (hplain : op ≠ .call ∧ op ≠ .ret ∧ op ≠ .iterCall) : Ongoing (perform f i) := by
  unfold perform
  rw [hop]
  cases op with
  | call => exact absurd rfl hplain.1
  | ret => exact absurd rfl hplain.2.1
  | iterCall => exact absurd rfl hplain.2.2
  | extra => exact ongoing_throw _
  | setList =>
    refine ongoing_bind fun _ => ongoing_bind fun _ => ?_
    split
    · exact ongoing_bind fun _ => ongoing_next
    · exact ongoing_throw _
  | test =>
    refine ongoing_bind fun _ => ?_
    dsimp only
    split
    · exact ongoing_bind fun _ => ongoing_next
    · exact ongoing_next
  | closure =>
    show Ongoing (makeClosure f i)
    unfold makeClosure
    split
    · exact ongoing_throw _
    · exact ongoing_bind fun _ => ongoing_bind fun _ => ongoing_bind fun _ => ongoing_next
  | vararg =>
    show Ongoing (vararg f i)
    unfold vararg
    dsimp only
    split
    · exact ongoing_bind fun _ => ongoing_bind fun _ => ongoing_bind fun _ => ongoing_bind fun _ => ongoing_next
    · exact ongoing_bind fun _ => ongoing_next
  | forPrepare =>
    refine ongoing_bind fun _ => ongoing_bind fun _ => ongoing_bind fun _ => ongoing_bind fun _ => ?_
    split
    · exact ongoing_bind fun _ => ongoing_next
    · exact ongoing_bind fun _ => ongoing_next
  | forLoop =>
    refine ongoing_bind fun _ => ongoing_bind fun _ => ongoing_bind fun _ => ?_
    dsimp only
    split
    · exact ongoing_bind fun _ => ongoing_bind fun _ => ongoing_next
    · exact ongoing_next
  | iterLoop =>
    refine ongoing_bind fun _ => ?_
    dsimp only
    split
    · exact ongoing_bind fun _ => ongoing_bind fun _ => ongoing_next
    · exact ongoing_next
  | _ => repeat first | exact ongoing_next | refine ongoing_bind fun _ => ?_

/-- A distance leads to another word. -/
theorem exists_target (hn : f.next = n + 1) (hvalid : i.ValidAt f.prototype n op) {d : Int}
    (hd : (n : Int) + 1 + d ∈ i.targets n op) :
    ∃ t : Nat, (f.next : Int) + d = t ∧ (t : Int) ∈ i.targets n op := by
  obtain ⟨t, ht, -⟩ := hvalid.target _ hd
  exact ⟨t, by omega, ht ▸ hd⟩

/-- The registers of a loop are written. -/
theorem touches_setLoop (hloop : op = .forPrepare ∨ op = .forLoop) (l : NumericLoop) :
    Endures (Touches (f.Writes i op) Q) (setLoop f i.a l) :=
  touches_setSlots (fun j hj => by rcases hloop with rfl | rfl <;> exact hj) _

/-! ### Instructions that do more than compute -/

section words

variable (ha : Active code f m) (hn : f.next = n + 1) (hi : f.prototype.chunk.code[n]? = some i)
  (hop : i.opcode? = some op) (hvalid : i.ValidAt f.prototype n op)

include ha hn hi hop

theorem effect_refl (hplain : op ≠ .jump ∧ op ≠ .ret ∧ op ≠ .setList)
    (hopens : op.opens? i.a i.c = none) (hclose : op ≠ .close) : Effect f n i op m m :=
  effect_of_touches (P := fun _ => False) ha hn hi hop hplain hopens hclose (Chain.refl m) fun _ => False.elim

theorem effect_setUpvalue (hsets : op = .setUpvalue) :
    m.Ensures (perform f i) (fun _ m' => Effect f n i op m m') fun _ _ => True := by
  subst hsets
  have htouched : ∀ m', Touches (fun j => ∃ r, (j, r) ∈ m.openUpvalues) (f.Takes n) m m' →
      Effect f n i .setUpvalue m m' := fun m' h =>
    effect_of_touches ha hn hi hop (by simp) rfl (by simp) h fun j hj => .inr ⟨rfl, hj⟩
  simp only [perform, hop, ensures_bind]
  refine ensures_ownUpvalue ha.ready.toSound (fun u _ => ?_) trivial
  rw [ensures_register]
  refine ensures_writeUpvalue ha.ready.toSound (ha.register_has _) (fun s r hopen _ => ?_)
    (fun h _ => ?_) trivial
  · exact htouched _ (touches_setSlot (P := fun j => ∃ r, (j, r) ∈ m.openUpvalues) ⟨r, hopen⟩ _ m)
  · exact htouched _ (touches_modifyHeap (fun _ => h) m)

/-- The word behind this one is no instruction. -/
theorem effect_setList (hlist : op = .setList) :
    m.Ensures (perform f i) (fun _ m' => Effect f n i op m m') fun _ _ => True := by
  subst hlist
  have hgoes : f.prototype.Goes n (n + 2) :=
    .inr ⟨.setList, Prototype.opcodeAt?_eq_some_iff.mpr ⟨i, hi, hop⟩, by simp, by simp, (if_pos rfl).symm⟩
  simp only [perform, hop, setList, fetch, ensures_bind, ensures_frame]
  refine ⟨fun f' hf' => ?_, fun _ => trivial⟩
  cases ha.back.symm.trans hf'
  rw [ensures_modifyFrame]
  split
  next extra _ =>
    rw [ensures_pure, ensures_slot]
    split
    next r _ _ =>
      rw [ensures_bind]
      refine (touches_setItems (P := fun _ => False) (Q := fun _ => False) r _ _ _ _).mono
        (fun _ m' h => ?_) fun _ _ _ => trivial
      refine ⟨⟨n + 2, f.open', hgoes, rfl, ?_⟩, fun j _ => .inl (h.slots j id), fun u hu => ?_,
        fun u hu => .inl (h.kept u hu)⟩
      · rw [h.frames]
        dsimp only
        refine modify_congr ha.frame_get ?_
        rw [hn]
      · exact .inl ⟨(h.opened u hu).resolve_right id, fun hshuts =>
          Opcode.noConfusion ((shuts_iff hi hop _).mp hshuts).1⟩
    next => exact trivial
  next => exact trivial

include hvalid in
theorem effect_jump (hjump : op = .jump ∨ op = .test) :
    m.Ensures (perform f i) (fun _ m' => Effect f n i op m m') fun _ _ => True := by
  rcases hjump with rfl | rfl
  · obtain ⟨t, ht, htarget⟩ := exists_target hn hvalid (d := i.signedAx) (by simp [Instruction.targets])
    simp only [perform, hop, ensures_bind]
    exact ensures_jump_to ha.back ht (effect_of_jump hi hop rfl (by simp) htarget fun _ _ => rfl)
  · obtain ⟨t, ht, htarget⟩ := exists_target hn hvalid (d := 1) (by simp [Instruction.targets]; omega)
    simp only [perform, hop, ensures_bind, ensures_register]
    split
    · rw [ensures_bind]
      exact ensures_jump_to ha.back ht (effect_of_jump hi hop rfl (by simp) htarget fun _ _ => rfl)
    · exact effect_refl ha hn hi hop (by simp) rfl (by simp)

theorem effect_close (hclose : op = .close) :
    m.Ensures (perform f i) (fun _ m' => Effect f n i op m m') fun _ _ => True := by
  subst hclose
  simp only [perform, hop, ensures_bind]
  refine ensures_closeUpvalues ha.ready.toSound fun h opened _ _ hmem => ?_
  refine ⟨⟨n + 1, f.open', goes_next hi hop (by simp), rfl, ha.frames_modify hn rfl⟩,
    fun j _ => .inl rfl, fun u hu => ?_, fun u hu => ?_⟩
  · obtain ⟨hu, hlt⟩ := (hmem u).mp hu
    exact .inl ⟨hu, fun hshuts => Nat.not_le_of_lt hlt ((shuts_iff hi hop _).mp hshuts).2⟩
  · rw [shuts_iff hi hop, hmem]
    by_cases hlt : u.1 < f.base + i.a
    · exact .inl ⟨hu, hlt⟩
    · exact .inr ⟨rfl, Nat.le_of_not_lt hlt⟩

theorem effect_closure (hclosure : op = .closure) :
    m.Ensures (perform f i) (fun _ m' => Effect f n i op m m') fun _ _ => True := by
  subst hclosure
  have hperform : perform f i = makeClosure f i := by
    unfold perform
    rw [hop]
  rw [hperform]
  refine (touches_makeClosure (P := f.Writes i .closure) (Q := f.Takes n) ⟨i.a, rfl, Nat.le_refl _⟩
    (fun q hq s hs hregister => ?_) m).mono (fun o m' h => ?_) fun _ _ _ => trivial
  · exact ⟨Nat.le_add_right _ _, i, q, hi, hop, hq, s, hs, hregister, by omega⟩
  · exact effect_of_touches ha hn hi hop (by simp) rfl (by simp) h fun j hj => .inl hj

theorem effect_vararg (hvararg : op = .vararg) :
    m.Ensures (perform f i) (fun _ m' => Effect f n i op m m') fun _ _ => True := by
  subst hvararg
  have hperform : perform f i = vararg f i := by
    unfold perform
    rw [hop]
  have hslots : ∀ vs, Endures (Touches (f.Writes i .vararg) (f.Takes n)) (setSlots (f.base + i.a) vs) :=
    touches_setSlots fun j hj => ⟨i.a, rfl, hj⟩
  rw [hperform]
  unfold vararg
  dsimp only
  split
  next hc =>
    rw [← bind_assoc, ensures_bind]
    refine (((touches_ensureStack _).bind fun _ => hslots _) m).mono (fun _ m' h => ?_)
      fun _ _ _ => trivial
    simp only [ensures_bind, ensures_modifyFrame, ensures_raiseTop, ensures_pure]
    refine ⟨⟨n + 1, f.base + i.a + f.extra.size, goes_next hi hop (by simp), ?_, ?_⟩,
      fun j hj => .inl (h.slots j hj), fun u hu => ?_, fun u hu => .inl (h.kept u hu)⟩
    · unfold Frame.Lists Opcode.opens?
      rw [if_pos hc]
      exact Nat.le_add_right _ _
    · dsimp only
      rw [h.frames]
      refine modify_congr ha.frame_get ?_
      rw [hn]
    · exact (h.opened u hu).imp_left fun hold =>
        ⟨hold, fun hshuts => Opcode.noConfusion ((shuts_iff hi hop _).mp hshuts).1⟩
  next hc =>
    refine (((hslots _).bind fun _ => lasts_pure _) m).mono (fun _ m' h => ?_) fun _ _ _ => trivial
    exact effect_of_touches ha hn hi hop (by simp) (if_neg hc) (by simp) h fun j hj => .inl hj

include hvalid in
/-- Registers of a loop are written, and the loop goes on elsewhere. -/
theorem effect_again {x : Exec Unit} {d : Int} (hloop : op = .forLoop ∨ op = .iterLoop)
    (hx : Endures (Touches (f.Writes i op) (fun _ => False)) x)
    (hd : (n : Int) + 1 + d ∈ i.targets n op) :
    m.Ensures (do
      x
      jump d
      return Outcome.next) (fun _ m' => Effect f n i op m m') fun _ _ => True := by
  obtain ⟨t, ht, htarget⟩ := exists_target hn hvalid hd
  have hopens : op.opens? i.a i.c = none := by rcases hloop with rfl | rfl <;> rfl
  have hclose : op ≠ .close := by rcases hloop with rfl | rfl <;> simp
  rw [ensures_bind]
  refine (hx m).mono (fun _ m' h => ?_) fun _ _ _ => trivial
  rw [ensures_bind]
  refine ensures_jump_to (by rw [h.frames]; exact ha.back) ht ?_
  refine ⟨⟨t, f.open', goes_target hi hop htarget, ?_, by rw [h.frames]⟩,
    fun j hj => .inl (h.slots j hj), fun u hu => ?_, fun u hu => .inl (h.kept u hu)⟩
  · unfold Frame.Lists
    rw [hopens]
  · exact .inl ⟨(h.opened u hu).resolve_right id, fun hshuts =>
      hclose ((shuts_iff hi hop _).mp hshuts).1⟩

include hvalid in
theorem effect_forPrepare (hprepare : op = .forPrepare) :
    m.Ensures (perform f i) (fun _ m' => Effect f n i op m m') fun _ _ => True := by
  subst hprepare
  simp only [perform, hop, forPrepare, ensures_bind, ensures_register]
  refine ensures_ofExcept _ (fun l _ => ?_) fun _ _ => trivial
  cases l with
  | some l =>
    refine (((touches_setLoop (Q := f.Takes n) (.inl rfl) l).bind fun _ => lasts_pure _) m).mono (fun _ m' h => ?_)
      fun _ _ _ => trivial
    exact effect_of_touches ha hn hi hop (by simp) rfl (by simp) h fun j hj => .inl hj
  | none =>
    obtain ⟨t, ht, htarget⟩ := exists_target hn hvalid (d := i.signedBx + 1) (by
      simp only [Instruction.targets, List.mem_cons]
      omega)
    rw [ensures_bind]
    exact ensures_jump_to ha.back ht (effect_of_jump hi hop rfl (by simp) htarget fun _ _ => rfl)

include hvalid in
theorem effect_forLoop (hloop : op = .forLoop) :
    m.Ensures (perform f i) (fun _ m' => Effect f n i op m m') fun _ _ => True := by
  subst hloop
  simp only [perform, hop, forLoop, ensures_bind, ensures_register]
  split
  next l _ =>
    exact effect_again ha hn hi hop hvalid (.inl rfl) (touches_setLoop (.inr rfl) _)
      List.mem_cons_self
  next => exact effect_refl ha hn hi hop (by simp) rfl (by simp)

include hvalid in
theorem effect_iterLoop (hloop : op = .iterLoop) :
    m.Ensures (perform f i) (fun _ m' => Effect f n i op m m') fun _ _ => True := by
  subst hloop
  simp only [perform, hop, iterLoop, ensures_bind, ensures_register]
  split
  · exact effect_again ha hn hi hop hvalid (.inr rfl) (touches_setSlot (Nat.le_refl _) _)
      List.mem_cons_self
  · exact effect_refl ha hn hi hop (by simp) rfl (by simp)

end words

/-- What an instruction changes that makes no call and does not return. -/
theorem ensures_effect (ha : Active code f m) (hn : f.next = n + 1)
    (hi : f.prototype.chunk.code[n]? = some i) (hop : i.opcode? = some op)
    (hvalid : i.ValidAt f.prototype n op) (hplain : op ≠ .call ∧ op ≠ .ret ∧ op ≠ .iterCall) :
    m.Ensures (perform f i) (fun o m' => o = .next ∧ Effect f n i op m m') fun _ _ => True := by
  suffices heffect : m.Ensures (perform f i) (fun _ m' => Effect f n i op m m') fun _ _ => True from
    ((ongoing_perform hop hplain m).and heffect).mono (fun _ _ h => h) fun _ _ _ => trivial
  have hcompute : op.computes = true → op ≠ .close ∧ (op ≠ .jump ∧ op ≠ .ret ∧ op ≠ .setList) →
      op.opens? i.a i.c = none →
      m.Ensures (perform f i) (fun _ m' => Effect f n i op m m') fun _ _ => True :=
    fun hcomputes hplain hopens => (touches_perform (Q := f.Takes n) hop hcomputes m).mono
      (fun _ _ h => effect_of_touches ha hn hi hop hplain.2 hopens hplain.1 h fun j hj => .inl hj)
      fun _ _ _ => trivial
  cases op with
  | call => exact absurd rfl hplain.1
  | ret => exact absurd rfl hplain.2.1
  | iterCall => exact absurd rfl hplain.2.2
  | setUpvalue => exact effect_setUpvalue ha hn hi hop rfl
  | setList => exact effect_setList ha hn hi hop rfl
  | jump => exact effect_jump ha hn hi hop hvalid (.inl rfl)
  | test => exact effect_jump ha hn hi hop hvalid (.inr rfl)
  | close => exact effect_close ha hn hi hop rfl
  | closure => exact effect_closure ha hn hi hop rfl
  | vararg => exact effect_vararg ha hn hi hop rfl
  | forPrepare => exact effect_forPrepare ha hn hi hop hvalid rfl
  | forLoop => exact effect_forLoop ha hn hi hop hvalid rfl
  | iterLoop => exact effect_iterLoop ha hn hi hop hvalid rfl
  | extra =>
    simp only [perform, hop]
    trivial
  | _ => exact hcompute rfl (by simp) rfl

end effects

end Machine
end LuaMachine
