import LuaMachine.Proofs.Flow.Notes
import LuaMachine.Proofs.Scoping.Allocation
/-! # Scopes with their variables

While a function is compiled, the words that are written have their notes, and the next word has the
variables of the scope. A jump that waits for its target is known to leave with open upvalues of
variables that the target sees.

* `FunctionScope.Layered`: what is known of the open blocks.
* `FunctionScope.Recorded`: how long variables are in scope.
* `FunctionScope.Noted`: the invariant.
* `FunctionScope.Noted.word`, `settle`, `flat`, `repatched`: words that are written and finished.
-/
set_option autoImplicit false

namespace LuaMachine

namespace FunctionScope

/-! ## Blocks -/

/-- An open block; the next inner one, or else the next variable, is at this level. A captured
variable of the block is recorded as such. Where a label is, the variables in front of it may have
open upvalues. The jumps that leave a loop have none of its variables, and those to a label that is
still to come have only such that are in the scope or recorded. -/
structure Layer (p : Prototype) (ν : Nat → Note) (locals : Array Local) (bound : Nat)
    (b : ScopeBlock) : Prop where
  level : b.level ≤ bound
  captured : ∀ l ∈ locals, b.level ≤ l.register → l.register < bound → l.captured = true →
    b.hasCaptured = true
  labels : ∀ L ∈ b.labels, L.level ≤ bound ∧ L.position ≤ p.chunk.size ∧ p.Calm L.position ∧
    ∀ l ∈ locals, l.captured = true → l.register < L.level → p.Admits ν L.position l
  breaks : ∀ n ∈ b.breaks, b.isLoop = true ∧ p.opcodeAt? n = some .jump ∧
    (∀ l, (ν n).Live l → l ∈ locals ∧ l.register < b.level) ∧
    ∀ l, (ν n).Done l → b.level ≤ l.register
  gotos : ∀ g ∈ b.gotos, p.opcodeAt? g.position = some .jump ∧
    (∀ l, (ν g.position).Live l →
      Generator.reaches l.register g.highestCaptured = true ∧ (l.register < b.level → l ∈ locals)) ∧
    ∀ l, ¬(ν g.position).Done l

def Layered (p : Prototype) (ν : Nat → Note) (locals : Array Local) :
    Nat → List ScopeBlock → Prop
  | _, [] => True
  | bound, b :: bs => Layer p ν locals bound b ∧ Layered p ν locals b.level bs

/-- Where the word goes is not known: it is one of these, or a block waits for it. -/
def Free (s : FunctionScope) (es : List Nat) (m : Nat) : Prop :=
  m ∈ es ∨ ∃ b ∈ s.blocks, (∃ g ∈ b.gotos, g.position = m) ∨ m ∈ b.breaks

/-- A variable is seen by the words from its start to the end of its block. -/
structure Recorded (p : Prototype) (ν : Nat → Note) (locals : Array Local) : Prop where
  sees : ∀ m < p.chunk.size, ∀ l, (ν m).Sees l →
    l ∈ locals ∨ ∃ stop, m < stop ∧ l.range stop ∈ p.locals
  ranges : ∀ r ∈ p.locals, r.start < r.stop → r.stop ≤ p.chunk.size ∧ ∃ l, l.range r.stop = r ∧
    l ∉ locals ∧ ∀ m < p.chunk.size, (ν m).Sees l ↔ r.start ≤ m ∧ m < r.stop
  seen : ∀ l ∈ locals, l.start ≤ p.chunk.size ∧
    ∀ m, l.start ≤ m → m < p.chunk.size → (ν m).Sees l

/-- The words that are written have their notes, and the next one has the variables of the scope. Of
the words `es` it is not known yet where they go. -/
structure Noted (s : FunctionScope) (ν : Nat → Note) (es : List Nat) : Prop where
  code : s.proto.Noted ν (s.Free es)
  locals : (ν s.proto.chunk.size).locals = s.locals
  own : (ν s.proto.chunk.size).own = none
  shut : (ν s.proto.chunk.size).shut ≤ s.locals.size
  registers : ∀ (k : Nat) (l : Local), s.locals[k]? = some l → l.register = k
  layered : Layered s.proto ν s.locals s.locals.size s.blocks
  recorded : Recorded s.proto ν s.locals

/-- Words and notes are added; all of them see the first `k` variables. -/
structure Onward (k : Nat) (s : FunctionScope) (ν : Nat → Note) (s' : FunctionScope)
    (ν' : Nat → Note) : Prop extends s.proto.Onward ν s'.proto ν' where
  within : ∀ t, s.proto.chunk.size ≤ t → t ≤ s'.proto.chunk.size → ∀ (r : Nat) (l : Local), r < k →
    s.locals[r]? = some l → (ν' t).locals[r]? = some l

section

variable {s s' s'' : FunctionScope} {p p' : Prototype} {ν ν' ν'' : Nat → Note} {es : List Nat}
  {locals locals' : Array Local} {bound k k' n m t : Nat} {b : ScopeBlock} {bs : List ScopeBlock}
  {l : Local} {i : Instruction} {op : Opcode}

/-! ## Notes that are added -/

/-- The notes up to a position, and one note from there on. -/
def noteFrom (n : Nat) (c : Note) (ν : Nat → Note) (m : Nat) : Note := if m < n then ν m else c

theorem noteFrom_lt {c : Note} (h : m < n) : noteFrom n c ν m = ν m := if_pos h

theorem noteFrom_ge {c : Note} (h : n ≤ m) : noteFrom n c ν m = c := if_neg (Nat.not_lt.mpr h)

/-- The notes up to a position, that of the word there, and the one behind it. -/
def noteThen (n : Nat) (c d : Note) (ν : Nat → Note) : Nat → Note :=
  noteFrom (n + 1) d (noteFrom n c ν)

theorem noteThen_lt {c d : Note} (h : m < n) : noteThen n c d ν m = ν m := by
  rw [noteThen, noteFrom_lt (Nat.lt_succ_of_lt h), noteFrom_lt h]

theorem noteThen_self {c d : Note} : noteThen n c d ν n = c := by
  rw [noteThen, noteFrom_lt (Nat.lt_succ_self n), noteFrom_ge (Nat.le_refl n)]

theorem noteThen_succ {c d : Note} : noteThen n c d ν (n + 1) = d := by
  rw [noteThen, noteFrom_ge (Nat.le_refl _)]

/-! ## Blocks and records while words are added -/

theorem Layer.mono (h : Layer p ν locals bound b) (ho : p.Onward ν p' ν')
    (hkeep : ∀ l ∈ locals, l.register < bound → l ∈ locals')
    (hback : ∀ l ∈ locals', l.register < bound → l ∈ locals) : Layer p' ν' locals' bound b where
  level := h.level
  captured l hl hge hlt := h.captured l (hback l hl hlt) hge hlt
  labels L hL := by
    obtain ⟨hle, hposition, hcalm, hadmits⟩ := h.labels L hL
    exact ⟨hle, Nat.le_trans hposition ho.retains.size, ho.retains.calm hposition hcalm,
      fun l hl hcaptured hlt =>
        ho.admits (hadmits l (hback l hl (Nat.lt_of_lt_of_le hlt hle)) hcaptured hlt)⟩
  breaks n hn := by
    obtain ⟨hloop, hop, hlive, hdone⟩ := h.breaks n hn
    rw [ho.notes n (Prototype.lt_size_of_opcodeAt? hop)]
    refine ⟨hloop, ho.retains.opcodeAt? hop, fun l hl => ?_, hdone⟩
    obtain ⟨hmem, hlt⟩ := hlive l hl
    exact ⟨hkeep l hmem (Nat.lt_of_lt_of_le hlt h.level), hlt⟩
  gotos g hg := by
    obtain ⟨hop, hlive, hbusy⟩ := h.gotos g hg
    rw [ho.notes g.position (Prototype.lt_size_of_opcodeAt? hop)]
    refine ⟨ho.retains.opcodeAt? hop, fun l hl => ?_, hbusy⟩
    obtain ⟨hreaches, hmem⟩ := hlive l hl
    exact ⟨hreaches, fun hlt => hkeep l (hmem hlt) (Nat.lt_of_lt_of_le hlt h.level)⟩

theorem Layered.mono (h : Layered p ν locals bound bs) (ho : p.Onward ν p' ν')
    (hkeep : ∀ l ∈ locals, l.register < bound → l ∈ locals')
    (hback : ∀ l ∈ locals', l.register < bound → l ∈ locals) :
    Layered p' ν' locals' bound bs := by
  induction bs generalizing bound with
  | nil => trivial
  | cons b bs ih =>
    have hle := h.1.level
    exact ⟨h.1.mono ho hkeep hback,
      ih h.2 (fun l hl hlt => hkeep l hl (by omega)) fun l hl hlt => hback l hl (by omega)⟩

theorem Layered.onward (h : Layered p ν locals bound bs) (ho : p.Onward ν p' ν') :
    Layered p' ν' locals bound bs :=
  h.mono ho (fun _ hl _ => hl) fun _ hl _ => hl

theorem Recorded.extend (h : Recorded p ν locals) (hsize : p.chunk.size ≤ p'.chunk.size)
    (hranges : p'.locals = p.locals) (hν : ∀ m < p.chunk.size, ν' m = ν m)
    (hnew : ∀ m, p.chunk.size ≤ m → m < p'.chunk.size → ∀ l, (ν' m).Sees l ↔ l ∈ locals) :
    Recorded p' ν' locals where
  sees m hm l hl := by
    rcases Nat.lt_or_ge m p.chunk.size with hlt | hge
    · rw [hν m hlt] at hl
      rw [hranges]
      exact h.sees m hlt l hl
    · exact .inl ((hnew m hge hm l).mp hl)
  ranges r hr hlt := by
    rw [hranges] at hr
    obtain ⟨hle, l, hrange, hl, hsees⟩ := h.ranges r hr hlt
    refine ⟨Nat.le_trans hle hsize, l, hrange, hl, fun m hm => ?_⟩
    rcases Nat.lt_or_ge m p.chunk.size with hlt' | hge
    · rw [hν m hlt']
      exact hsees m hlt'
    · rw [hnew m hge hm]
      exact ⟨fun hmem => absurd hmem hl, fun hin => by omega⟩
  seen l hl := by
    obtain ⟨hstart, hsees⟩ := h.seen l hl
    refine ⟨Nat.le_trans hstart hsize, fun m hm hlt => ?_⟩
    rcases Nat.lt_or_ge m p.chunk.size with hlt' | hge
    · rw [hν m hlt']
      exact hsees m hm hlt'
    · exact (hnew m hge hlt l).mpr hl

theorem Recorded.push (h : Recorded p ν locals) (hstart : l.start = p.chunk.size) :
    Recorded p ν (locals.push l) where
  sees m hm l' hl' := (h.sees m hm l' hl').imp_left (Array.mem_push_of_mem l)
  ranges r hr hlt := by
    obtain ⟨hle, l', hrange, hl', hsees⟩ := h.ranges r hr hlt
    refine ⟨hle, l', hrange, fun hmem => ?_, hsees⟩
    rcases Array.mem_push.mp hmem with hmem | rfl
    · exact hl' hmem
    · have heq : l'.start = r.start := congrArg LocalRange.start hrange
      omega
  seen l' hl' := by
    rcases Array.mem_push.mp hl' with hl' | rfl
    · exact h.seen l' hl'
    · exact ⟨Nat.le_of_eq hstart, fun m hm hlt => by omega⟩

/-! ## The relation -/

namespace Onward

theorem refl (h : s.Noted ν es) (k : Nat) : Onward k s ν s ν where
  toOnward := .refl s.proto ν
  within t ht hle r l _ hl := by
    obtain rfl : t = s.proto.chunk.size := Nat.le_antisymm hle ht
    rw [h.locals]
    exact hl

theorem trans (h : Onward k s ν s' ν') (h' : Onward k' s' ν' s'' ν'') (hn : s'.Noted ν' es)
    (hk : k ≤ k') : Onward k s ν s'' ν'' where
  toOnward := h.toOnward.trans h'.toOnward
  within t ht hle r l hr hl := by
    have hsize := h.retains.size
    rcases Nat.lt_or_ge t s'.proto.chunk.size with hlt | hge
    · rw [h'.notes t hlt]
      exact h.within t ht (Nat.le_of_lt hlt) r l hr hl
    · refine h'.within t hge hle r l (Nat.lt_of_lt_of_le hr hk) ?_
      rw [← hn.locals]
      exact h.within _ hsize (Nat.le_refl _) r l hr hl

theorem mono (h : Onward k s ν s' ν') (hk : k' ≤ k) : Onward k' s ν s' ν' where
  toOnward := h.toOnward
  within t ht hle r l hr hl := h.within t ht hle r l (Nat.lt_of_lt_of_le hr hk) hl

/-- The variables of the scope are the first ones of the scope behind. -/
theorem keeps (h : Onward s.locals.size s ν s' ν') (hn : s'.Noted ν' es) :
    s'.locals.extract 0 s.locals.size = s.locals := by
  have hkeep : ∀ (r : Nat) (l : Local), s.locals[r]? = some l → s'.locals[r]? = some l := by
    intro r l hl
    rw [← hn.locals]
    exact h.within _ h.retains.size (Nat.le_refl _) r l (Array.getElem?_eq_some_iff.mp hl).1 hl
  refine Array.ext_getElem? fun r => ?_
  rw [Array.getElem?_extract, Nat.zero_add, Nat.sub_zero]
  rcases Nat.lt_or_ge r s.locals.size with hlt | hge
  · have hl := hkeep r _ (Array.getElem?_eq_getElem hlt)
    have hlt' := (Array.getElem?_eq_some_iff.mp hl).1
    rw [if_pos (by omega), hl, Array.getElem?_eq_getElem hlt]
  · rw [if_neg (by omega), Array.getElem?_eq_none hge]

end Onward

namespace Noted

/-- All variables of the scope are in use at the next word. -/
theorem note_eq (h : s.Noted ν es) (hfull : (ν s.proto.chunk.size).shut = s.locals.size) :
    ν s.proto.chunk.size = .full s.locals := by
  have hlocals := h.locals
  have hown := h.own
  generalize ν s.proto.chunk.size = c at hlocals hown hfull ⊢
  obtain ⟨locals, own, shut⟩ := c
  cases hlocals
  cases hown
  cases hfull
  rfl

theorem register_lt (h : s.Noted ν es) (hl : l ∈ s.locals) : l.register < s.locals.size := by
  obtain ⟨k, hk, rfl⟩ := Array.mem_iff_getElem.mp hl
  rw [h.registers k _ (Array.getElem?_eq_getElem hk)]
  exact hk

theorem start_le (h : s.Noted ν es) (hl : l ∈ s.locals) : l.start ≤ s.proto.chunk.size :=
  (h.recorded.seen l hl).1

theorem not_done_full (h : s.Noted ν es) (l : Local) : ¬(Note.full s.locals).Done l :=
  fun hdone => Nat.not_le_of_lt (h.register_lt hdone.1) hdone.2

/-! ## Words -/

/-- Words with notes are added; they see the variables of the scope. -/
theorem extend (new : List Nat) (ν' : Nat → Note) (h : s.Noted ν es) (ha : s.Adds s')
    (hnew : ∀ n ∈ new, s.proto.chunk.size ≤ n) (hν : ∀ m < s.proto.chunk.size, ν' m = ν m)
    (hnotes : ∀ m, s.proto.chunk.size ≤ m → m ≤ s'.proto.chunk.size →
      (ν' m).locals = s.locals ∧ (ν' m).own = none)
    (hshut : (ν' s'.proto.chunk.size).shut ≤ s.locals.size)
    (henters : ∀ l, (ν s.proto.chunk.size).Live l → s'.proto.Admits ν' s.proto.chunk.size l)
    (hfresh : ∀ l, (ν' s.proto.chunk.size).Live l → (ν s.proto.chunk.size).Live l)
    (hrests : (ν' s.proto.chunk.size).shut ≤ (ν s.proto.chunk.size).shut)
    (hwords : ∀ m, s.proto.chunk.size ≤ m → m < s'.proto.chunk.size → ∃ i op,
      s'.proto.chunk.code[m]? = some i ∧ i.opcode? = some op ∧ s'.proto.Minds (ν' m) m i op)
    (hsettled : ∀ m, s.proto.chunk.size ≤ m → m < s'.proto.chunk.size → m ∉ new →
      s'.proto.Settled ν' (s'.Free (new ++ es)) m)
    (hclosing : ∀ m, s.proto.chunk.size ≤ m → m < s'.proto.chunk.size → ∀ l,
      s'.proto.ClosesAt m l.register → (ν' m).Live l → ¬(ν' (m + 1)).Live l) :
    s'.Noted ν' (new ++ es) ∧ Onward s.locals.size s ν s' ν' := by
  have hsize := ha.grows.size
  have ho : s.proto.Onward ν s'.proto ν' := ⟨⟨hsize, ha.grows.children, fun n i hi =>
    ⟨i, (ha.code n (Prototype.lt_size_of_word hi)).trans hi, .inl rfl⟩⟩, hν, henters, fun l hl => by
      rw [(hnotes _ (Nat.le_refl _) hsize).1, ← h.locals] at hl
      refine .inr ⟨hl, fun hdone => ⟨?_, Nat.le_trans hrests hdone.2⟩⟩
      rw [(hnotes _ (Nat.le_refl _) hsize).1, ← h.locals]
      exact hl⟩
  have hfree : ∀ k < s.proto.chunk.size, s'.Free (new ++ es) k ↔ s.Free es k := by
    intro k hk
    unfold Free
    rw [ha.blocks, List.mem_append]
    have hnot : k ∉ new := fun hmem => Nat.not_lt_of_le (hnew k hmem) hk
    simp [hnot]
  refine ⟨⟨?_, ?_, (hnotes _ hsize (Nat.le_refl _)).2, ha.locals.symm ▸ hshut,
    ha.locals.symm ▸ h.registers, ?_, ?_⟩, ho, fun t ht hle r l _ hl => ?_⟩
  · exact h.code.extend ho (fun k hk _ => ha.code k hk) hfree (fun l hl => .inl (hfresh l hl)) hwords
      (fun m hm hlt hf => hsettled m hm hlt fun hmem => hf (.inl (List.mem_append_left _ hmem)))
      hclosing
  · rw [ha.locals]
    exact (hnotes _ hsize (Nat.le_refl _)).1
  · rw [ha.locals, ha.blocks]
    exact h.layered.onward ho
  · rw [ha.locals]
    refine h.recorded.extend hsize ha.ranges hν fun m hm hlt l => ?_
    obtain ⟨hlocals, hown⟩ := hnotes m hm (Nat.le_of_lt hlt)
    simp [Note.Sees, hlocals, hown]
  · rw [(hnotes t ht hle).1]
    exact hl

/-- Words that see all variables of the scope, close none and go to one another. -/
theorem flat (h : s.Noted ν es) (hfull : (ν s.proto.chunk.size).shut = s.locals.size)
    (ha : s.Adds s')
    (hwords : ∀ m, s.proto.chunk.size ≤ m → m < s'.proto.chunk.size → ∃ i op,
      s'.proto.chunk.code[m]? = some i ∧ i.opcode? = some op ∧
      s'.proto.Minds (.full s.locals) m i op ∧ op ≠ .close ∧ op ≠ .forPrepare ∧ op ≠ .iterCall)
    (hgoes : ∀ m t, s.proto.chunk.size ≤ m → m < s'.proto.chunk.size → s'.proto.Goes m t →
      s.proto.chunk.size ≤ t ∧ t ≤ s'.proto.chunk.size)
    (hturns : ∀ m t, s.proto.chunk.size ≤ m → m < s'.proto.chunk.size → s'.proto.Turns m t →
      s'.proto.Calm t) :
    ∃ ν', s'.Noted ν' es ∧ (ν' s'.proto.chunk.size).shut = s'.locals.size ∧
      Onward s.locals.size s ν s' ν' := by
  have hsize := ha.grows.size
  let ν' := noteFrom s.proto.chunk.size (.full s.locals) ν
  have hnote : ∀ m, s.proto.chunk.size ≤ m → ν' m = .full s.locals := fun m hm => noteFrom_ge hm
  have hhere := h.note_eq hfull
  have hadmits : ∀ t l, s.proto.chunk.size ≤ t → t ≤ s'.proto.chunk.size →
      (Note.full s.locals).Live l → s'.proto.Admits ν' t l := by
    intro t l ht hle hl
    unfold Prototype.Admits
    rw [hnote t ht]
    rcases Nat.lt_or_eq_of_le hle with hlt | rfl
    · exact .inl ⟨hlt, .inl hl⟩
    · exact .inr ⟨rfl, hl⟩
  have hcloses : ∀ m r, s.proto.chunk.size ≤ m → m < s'.proto.chunk.size →
      ¬s'.proto.ClosesAt m r := by
    rintro m r hm hlt ⟨i, hi, hop, -⟩
    obtain ⟨j, op, hj, hopcode, -, hclose, -⟩ := hwords m hm hlt
    cases hi.symm.trans hj
    exact hclose (Option.some.inj (hopcode.symm.trans hop))
  refine ⟨ν', ?_⟩
  obtain ⟨hnoted, honward⟩ := h.extend [] ν' ha (by simp)
    (fun m hm => noteFrom_lt hm) (fun m hm _ => by rw [hnote m hm]; exact ⟨rfl, rfl⟩)
    (by rw [hnote _ hsize]; exact Nat.le_refl _)
    (fun l hl => hadmits _ l (Nat.le_refl _) hsize (hhere ▸ hl))
    (fun l hl => by
      rw [hnote _ (Nat.le_refl _)] at hl
      rw [hhere]
      exact hl)
    (Nat.le_of_eq (by rw [hnote _ (Nat.le_refl _), hhere]))
    (fun m hm hlt => by
      obtain ⟨i, op, hi, hop, hminds, -⟩ := hwords m hm hlt
      rw [hnote m hm]
      exact ⟨i, op, hi, hop, hminds⟩)
    (fun m hm hlt _ => by
      obtain ⟨i, op, hi, hop, hminds, -, hprepare, hiterate⟩ := hwords m hm hlt
      refine ⟨fun t l hg hafter => ?_, fun t l _ hquits => ?_, fun t ht =>
        ⟨(hgoes m t hm hlt (.inl ht)).2, hturns m t hm hlt ht⟩, fun j hj hopcode => ?_,
        fun j hj hopcode => ?_⟩
      · obtain ⟨ht, hle⟩ := hgoes m t hm hlt hg
        rw [hnote m hm] at hafter
        refine hadmits t l ht hle ?_
        rcases hafter.1 with hl | ⟨hl | hl, hcaptured, -⟩
        · exact hl
        · exact ⟨hl, hcaptured, h.register_lt hl⟩
        · cases hl
      · rw [hnote m hm] at hquits
        rcases hquits with hdone | ⟨-, hclose⟩
        · exact absurd hdone (h.not_done_full l)
        · exact absurd hclose (hcloses m _ hm hlt)
      · cases hi.symm.trans hj
        exact absurd (Option.some.inj (hop.symm.trans hopcode)) hprepare
      · cases hi.symm.trans hj
        exact absurd (Option.some.inj (hop.symm.trans hopcode)) hiterate)
    (fun m hm hlt l hclose => absurd hclose (hcloses m _ hm hlt))
  refine ⟨hnoted, ?_, honward⟩
  rw [hnote _ hsize, ha.locals]
  rfl

/-- One more word with its note, and the note behind it. Where it goes is to be said. -/
theorem word {c d : Note} {line : Int} (h : s.Noted ν es) (hop : i.opcode? = some op)
    (hc : c.locals = s.locals ∧ c.own = none) (hd : d.locals = s.locals ∧ d.own = none)
    (hshut : d.shut ≤ s.locals.size)
    (hminds : (s.written i line).proto.Minds c s.proto.chunk.size i op)
    (henters : ∀ l, (ν s.proto.chunk.size).Live l →
      (s.written i line).proto.Meets c s.proto.chunk.size l)
    (hfresh : ∀ l, c.Live l → (ν s.proto.chunk.size).Live l)
    (hrests : c.shut ≤ (ν s.proto.chunk.size).shut)
    (hclosing : ∀ l, (s.written i line).proto.ClosesAt s.proto.chunk.size l.register → c.Live l →
      ¬d.Live l) :
    ∃ ν', (s.written i line).Noted ν' (s.proto.chunk.size :: es) ∧
      ν' s.proto.chunk.size = c ∧ ν' (s.proto.chunk.size + 1) = d ∧
      Onward s.locals.size s ν (s.written i line) ν' := by
  let ν' := noteThen s.proto.chunk.size c d ν
  have hlt : ∀ m < s.proto.chunk.size, ν' m = ν m := fun m hm => noteThen_lt hm
  have heq : ν' s.proto.chunk.size = c := noteThen_self
  have hnext : ν' (s.proto.chunk.size + 1) = d := noteThen_succ
  have hword : (s.written i line).proto.chunk.code[s.proto.chunk.size]? = some i :=
    code_written_size
  have hone : ∀ m, s.proto.chunk.size ≤ m → m < (s.written i line).proto.chunk.size →
      m = s.proto.chunk.size := fun m hm hlt => by
    rw [size_written] at hlt
    omega
  refine ⟨ν', ?_⟩
  obtain ⟨hnoted, honward⟩ := h.extend [s.proto.chunk.size] ν' (.written s i line) (by simp)
    hlt
    (fun m hm hle => by
      rw [size_written] at hle
      rcases Nat.lt_or_eq_of_le hle with hlt | rfl
      · obtain rfl : m = s.proto.chunk.size := by omega
        rw [heq]
        exact hc
      · rw [hnext]
        exact hd)
    (by rw [size_written, hnext]; exact hshut)
    (fun l hl => by
      refine .inl ⟨by rw [size_written]; omega, ?_⟩
      rw [heq]
      exact henters l hl)
    (fun l hl => hfresh l (heq ▸ hl))
    (heq.symm ▸ hrests)
    (fun m hm hlt => by
      obtain rfl := hone m hm hlt
      rw [heq]
      exact ⟨i, op, hword, hop, hminds⟩)
    (fun m hm hlt hmem => absurd (List.mem_singleton.mpr (hone m hm hlt)) hmem)
    (fun m hm hlt l hcloses hl => by
      obtain rfl := hone m hm hlt
      rw [heq] at hl
      rw [hnext]
      exact hclosing l hcloses hl)
  exact ⟨hnoted, heq, hnext, honward⟩

/-- It is known where a word goes. -/
theorem settle (h : s.Noted ν (n :: es))
    (hsettled : s.proto.Settled ν (s.Free es) n) : s.Noted ν es where
  code := h.code.settle (fun k _ hk => hk.imp_left (List.mem_cons_of_mem _)) fun m _ hm hnot => by
    rcases hm with hm | hm
    · rcases List.mem_cons.mp hm with rfl | hm
      · exact hsettled
      · exact absurd (.inl hm) hnot
    · exact absurd (.inr hm) hnot
  locals := h.locals
  own := h.own
  shut := h.shut
  registers := h.registers
  layered := h.layered
  recorded := h.recorded

/-- A target is filled in. -/
theorem repatched {f : Instruction → Instruction} (h : s.Noted ν es) (hn : s.Free es n)
    (hi : s.proto.chunk.code[n]? = some i) (hop : i.opcode? = some op) (hlink : op.isLink = true)
    (hf : (f i).opcode? = i.opcode? ∧ (op ≠ .jump → (f i).a = i.a)) :
    (s.patched n f).Noted ν es ∧ s.proto.Onward ν (s.patched n f).proto ν := by
  have hsize : (s.patched n f).proto.chunk.size = s.proto.chunk.size := size_patched
  have hretains : s.proto.Retains (s.patched n f).proto := by
    refine ⟨Nat.le_of_eq hsize.symm, fun _ _ h => h, fun m j hj => ?_⟩
    by_cases hm : m = n
    · subst hm
      cases hi.symm.trans hj
      exact ⟨f i, code_patched hi, .inr ⟨hf.1, op, hop, hlink, hf.2⟩⟩
    · exact ⟨j, (code_patched_ne hm).trans hj, .inl rfl⟩
  have ho : s.proto.Onward ν (s.patched n f).proto ν :=
    ⟨hretains, fun _ _ => rfl, fun l hl => .inr ⟨hsize.symm, hl⟩, fun _ hl => .inr ⟨hl, id⟩⟩
  refine ⟨⟨?_, ?_, ?_, ?_, h.registers, h.layered.onward ho, ?_⟩, ho⟩
  · refine h.code.extend ho (fun k _ hk => code_patched_ne fun heq => hk (heq ▸ hn))
      (fun _ _ => Iff.rfl) (fun _ hl => .inl hl) (fun m hm hlt => ?_) (fun m hm hlt => ?_)
      (fun m hm hlt => ?_)
    · omega
    · omega
    · omega
  · rw [hsize]
    exact h.locals
  · rw [hsize]
    exact h.own
  · rw [hsize]
    exact h.shut
  · exact h.recorded.extend (Nat.le_of_eq hsize.symm) rfl (fun _ _ => rfl) fun m hm hlt => by omega

end Noted

end

end FunctionScope
end LuaMachine
