import LuaMachine.Proofs.Flow.Scopes
/-! # Blocks with their variables

Variables are declared, and blocks begin and end. What waits in a block is recorded in it and goes
on waiting in the block around it.

* `FunctionScope.Noted.declare`, `makes`: variables.
* `FunctionScope.Noted.begin`, `finish`: blocks.
* `FunctionScope.Noted.label`, `waitGoto`, `waitBreak`: labels, and jumps that wait.
-/
set_option autoImplicit false

namespace LuaMachine
namespace FunctionScope

open Generator

variable {s s' : FunctionScope} {p : Prototype} {ν ν' : Nat → Note} {es es' : List Nat}
  {locals : Array Local} {n bound : Nat} {b : ScopeBlock} {bs outer : List ScopeBlock}
  {l : Local} {g : PendingJump} {i : Instruction}

/-! ## Variables -/

/-- A further variable, which may be a captured one of the innermost block. -/
def declaring (s : FunctionScope) (l : Local) : FunctionScope :=
  { s with
    locals := s.locals.push l
    blocks := s.blocks.modifyHead fun b => { b with hasCaptured := b.hasCaptured || l.captured } }

theorem free_declaring {k : Nat} : (s.declaring l).Free es k ↔ s.Free es k := by
  unfold Free declaring
  cases s.blocks with
  | nil => rfl
  | cons b bs => simp only [List.modifyHead_cons, List.exists_mem_cons_iff]

theorem layered_declaring (h : s.Noted ν es) (ho : s.proto.Onward ν p ν')
    (hregister : l.register = s.locals.size) :
    Layered p ν' (s.locals.push l) (s.locals.push l).size (s.declaring l).blocks := by
  have hback : ∀ l' ∈ s.locals.push l, l'.register < s.locals.size → l' ∈ s.locals := by
    intro l' hl' hlt
    rcases Array.mem_push.mp hl' with hl' | rfl
    · exact hl'
    · omega
  have hlayered := h.layered
  unfold declaring
  cases hblocks : s.blocks with
  | nil => trivial
  | cons b bs =>
    rw [hblocks] at hlayered
    obtain ⟨hhead, htail⟩ := hlayered
    have hkeep : ∀ l' ∈ s.locals, l'.register < s.locals.size → l' ∈ s.locals.push l :=
      fun l' hl' _ => Array.mem_push_of_mem l hl'
    have hmono := hhead.mono ho hkeep hback
    have hlevel := hhead.level
    rw [List.modifyHead_cons, Array.size_push]
    refine ⟨⟨Nat.le_succ_of_le hlevel, fun l' hl' hge hlt hcaptured => ?_, fun L hL => ?_,
      hmono.breaks, hmono.gotos⟩, htail.mono ho (fun l' hl' hlt => hkeep l' hl' (by omega))
        fun l' hl' hlt => hback l' hl' (by omega)⟩
    · rcases Array.mem_push.mp hl' with hmem | rfl
      · simp [hmono.captured l' hl' hge (h.register_lt hmem) hcaptured]
      · simp [hcaptured]
    · obtain ⟨hle, hrest⟩ := hmono.labels L hL
      exact ⟨Nat.le_succ_of_le hle, hrest⟩

theorem registers_push (h : s.Noted ν es) (hregister : l.register = s.locals.size) (k : Nat)
    (l' : Local) (hl' : (s.locals.push l)[k]? = some l') : l'.register = k := by
  rw [Array.getElem?_push] at hl'
  split at hl'
  next heq =>
    cases hl'
    rw [hregister, heq]
  next => exact h.registers k l' hl'

theorem getElem?_push_of_some {r : Nat} {l' : Local} (h : s.locals[r]? = some l') :
    (s.locals.push l)[r]? = some l' := by
  have hlt := (Array.getElem?_eq_some_iff.mp h).1
  rw [Array.getElem?_push, if_neg (by omega)]
  exact h

theorem live_push (h : s.Noted ν es) (hl : l.register = s.locals.size) {l' : Local}
    (hmem : l' ∈ s.locals.push l) (hcaptured : l'.captured = true) :
    (Note.full (s.locals.push l)).Live l' := by
  refine ⟨hmem, hcaptured, ?_⟩
  change l'.register < (s.locals.push l).size
  rw [Array.size_push]
  rcases Array.mem_push.mp hmem with hmem | rfl
  · exact Nat.lt_succ_of_lt (h.register_lt hmem)
  · omega

namespace Noted

theorem declare (h : s.Noted ν es) (hfull : (ν s.proto.chunk.size).shut = s.locals.size)
    (hregister : l.register = s.locals.size) (hstart : l.start = s.proto.chunk.size) :
    ∃ ν', (s.declaring l).Noted ν' es ∧
      (ν' (s.declaring l).proto.chunk.size).shut = (s.declaring l).locals.size ∧
      Onward s.locals.size s ν (s.declaring l) ν' := by
  let ν' := noteFrom s.proto.chunk.size (.full (s.locals.push l)) ν
  have hhere : ν' s.proto.chunk.size = .full (s.locals.push l) := noteFrom_ge (Nat.le_refl _)
  have hold := h.note_eq hfull
  have hlive : ∀ l' ∈ s.locals.push l, l'.captured = true →
      (Note.full (s.locals.push l)).Live l' := fun _ => live_push h hregister
  have ho : s.proto.Onward ν s.proto ν' :=
    ⟨.refl _, fun m hm => noteFrom_lt hm, fun l' hl' => .inr ⟨rfl, by
      rw [hold] at hl'
      rw [hhere]
      exact hlive l' (Array.mem_push_of_mem l hl'.1) hl'.2.1⟩, fun l' hl' => by
      rw [hhere] at hl'
      rw [hold]
      rcases Array.mem_push.mp hl' with hl' | rfl
      · exact .inr ⟨hl', fun hdone => absurd hdone (h.not_done_full l')⟩
      · exact .inl hstart⟩
  refine ⟨ν', ⟨?_, congrArg Note.locals hhere, congrArg Note.own hhere, ?_,
    registers_push h hregister, layered_declaring h ho hregister, ?_⟩, congrArg Note.shut hhere, ho,
    fun t ht hle r l' _ hl' => ?_⟩
  · refine h.code.extend ho (fun _ _ _ => rfl) (fun _ _ => free_declaring) (fun l' hl' => ?_)
      (fun m hm hlt => ?_) (fun m hm hlt => ?_) (fun m hm hlt => ?_)
    · rw [hhere] at hl'
      rw [hold]
      rcases Array.mem_push.mp hl'.1 with hmem | rfl
      · exact .inl ⟨hmem, hl'.2.1, h.register_lt hmem⟩
      · exact .inr hstart
    all_goals exact absurd hlt (Nat.not_lt.mpr hm)
  · exact Nat.le_of_eq (congrArg Note.shut hhere)
  · refine (h.recorded.extend (Nat.le_refl _) rfl (fun m hm => noteFrom_lt hm)
      fun m hm hlt => ?_).push hstart
    exact absurd hlt (Nat.not_lt.mpr hm)
  · obtain rfl : t = s.proto.chunk.size := Nat.le_antisymm hle ht
    rw [hhere]
    exact getElem?_push_of_some hl'

/-- A local function: its variable is in scope behind the word that makes it. -/
theorem makes (h : s.Noted ν es) (hfull : (ν s.proto.chunk.size).shut = s.locals.size)
    (hregister : l.register = s.locals.size) (hstart : l.start = s.proto.chunk.size)
    (ha : (s.declaring l).Adds s') (hsize : s'.proto.chunk.size = s.proto.chunk.size + 1)
    (hi : s'.proto.chunk.code[s.proto.chunk.size]? = some i) (hop : i.opcode? = some .closure)
    (hfield : i.a = s.locals.size)
    (hcaptures : ∃ q, s'.proto.children[i.bx]? = some q ∧ ∀ u ∈ q.upvalues,
      u.fromRegister = true → ∃ l' ∈ s.locals.push l, l'.captured = true ∧ l'.register = u.index) :
    ∃ ν', s'.Noted ν' es ∧ (ν' s'.proto.chunk.size).shut = s'.locals.size ∧
      Onward s.locals.size s ν s' ν' := by
  have hlocals : s'.locals = s.locals.push l := ha.locals
  have hblocks : s'.blocks = (s.declaring l).blocks := ha.blocks
  let c : Note := ⟨s.locals, some l, s.locals.size⟩
  let ν' := noteThen s.proto.chunk.size c (.full (s.locals.push l)) ν
  have hc : ν' s.proto.chunk.size = c := noteThen_self
  have hnext : ν' (s.proto.chunk.size + 1) = .full (s.locals.push l) := noteThen_succ
  have hold := h.note_eq hfull
  have hone : ∀ m, s.proto.chunk.size ≤ m → m < s'.proto.chunk.size → m = s.proto.chunk.size :=
    fun m hm hlt => by omega
  have hclose : ∀ r, ¬s'.proto.ClosesAt s.proto.chunk.size r := by
    rintro r ⟨j, hj, hclose, -⟩
    cases hi.symm.trans hj
    cases hop.symm.trans hclose
  have ho : s.proto.Onward ν s'.proto ν' := by
    refine ⟨⟨ha.grows.size, ha.grows.children, fun k j hj => ⟨j, ?_, .inl rfl⟩⟩,
      fun m hm => noteThen_lt hm, fun l' hl' => .inl ⟨by omega, .inl ?_⟩, fun l' hl' => .inr ?_⟩
    · exact (ha.code k (Prototype.lt_size_of_word hj)).trans hj
    · rw [hold] at hl'
      rw [hc]
      exact hl'
    · rw [hc] at hl'
      rw [hold]
      exact ⟨hl', fun hdone => absurd hdone (h.not_done_full l')⟩
  have hsees : ∀ l', c.Sees l' ↔ l' ∈ s.locals.push l := fun l' => by
    rw [Array.mem_push]
    exact or_congr Iff.rfl ⟨fun h => (Option.some.inj h).symm, fun h => h ▸ rfl⟩
  have hstarts : ∀ l' ∈ s.locals, l'.start ≤ s.proto.chunk.size := fun l' hl' => h.start_le hl'
  have hturns : ∀ t, ¬s'.proto.Turns s.proto.chunk.size t := by
    rintro t ⟨j, op, hj, hop', ht⟩
    cases hi.symm.trans hj
    cases hop.symm.trans hop'
    cases ht
  refine ⟨ν', ⟨?_, ?_, ?_, ?_, ?_, ?_, ?_⟩, ?_, ho, fun t ht hle r l' _ hl' => ?_⟩
  · refine h.code.extend ho (fun k hk _ => ha.code k hk) (fun k _ => ?_) (fun l' hl' => ?_)
      (fun m hm hlt => ?_) (fun m hm hlt _ => ?_) (fun m hm hlt l' hcloses => ?_)
    · have hfree : (s.declaring l).Free es k ↔ s.Free es k := free_declaring
      unfold Free at hfree ⊢
      rw [hblocks]
      exact hfree
    · rw [hc] at hl'
      rw [hold]
      exact .inl hl'
    · obtain rfl := hone m hm hlt
      rw [hc]
      refine ⟨i, .closure, hi, hop, h.registers, hstarts, fun r hr => .inl ?_, nofun, fun _ => ?_,
        fun l' hl' => ?_, by simp, fun hlt => absurd hlt (Nat.lt_irrefl _)⟩
      · obtain rfl : i.a = r := Option.some.inj hr
        exact Nat.le_of_eq hfield.symm
      · obtain ⟨q, hq, hsources⟩ := hcaptures
        refine ⟨q, hq, fun u hu hregister' => ?_⟩
        obtain ⟨l', hl', hcaptured, hindex⟩ := hsources u hu hregister'
        exact ⟨l', (hsees l').mpr hl', hcaptured, hindex⟩
      · obtain rfl : l = l' := Option.some.inj hl'
        exact ⟨rfl, hfield, hregister, hstart⟩
    · obtain rfl := hone m hm hlt
      refine ⟨fun t l' hgoes hafter => ?_, fun t l' _ hquits => ?_, fun t ht => absurd ht (hturns t),
        fun j hj hprepare => ?_, fun j hj hiterate => ?_⟩
      · rcases hgoes with hgoes | ⟨op, hop', -, -, rfl⟩
        · exact absurd hgoes (hturns t)
        · obtain ⟨j, hj, hopcode⟩ := Prototype.opcodeAt?_eq_some_iff.mp hop'
          cases hi.symm.trans hj
          cases hop.symm.trans hopcode
          rw [hc] at hafter
          refine .inr ⟨hsize.symm, ?_⟩
          rw [if_neg nofun, hnext]
          rcases hafter.1 with hl | ⟨hl, hcaptured, -⟩
          · exact live_push h hregister (Array.mem_push_of_mem l hl.1) hl.2.1
          · exact live_push h hregister ((hsees l').mp hl) hcaptured
      · rw [hc] at hquits
        rcases hquits with hdone | ⟨-, hcloses⟩
        · exact absurd hdone (h.not_done_full l')
        · exact absurd hcloses (hclose _)
      · cases hi.symm.trans hj
        cases hop.symm.trans hprepare
      · cases hi.symm.trans hj
        cases hop.symm.trans hiterate
    · obtain rfl := hone m hm hlt
      exact absurd hcloses (hclose _)
  · rw [hsize, hnext, hlocals]
    rfl
  · rw [hsize, hnext]
    rfl
  · rw [hsize, hnext, hlocals]
    exact Nat.le_refl _
  · rw [hlocals]
    exact registers_push h hregister
  · rw [hlocals, hblocks]
    exact layered_declaring h ho hregister
  · rw [hlocals]
    refine (h.recorded.push hstart).extend ha.grows.size ha.ranges (fun m hm => noteThen_lt hm)
      fun m hm hlt l' => ?_
    obtain rfl := hone m hm hlt
    rw [hc]
    exact hsees l'
  · rw [hsize, hnext, hlocals]
    rfl
  · rcases Nat.lt_or_eq_of_le hle with hlt | rfl
    · obtain rfl := hone t ht hlt
      rw [hc]
      exact hl'
    · rw [hsize, hnext]
      exact getElem?_push_of_some hl'

end Noted

/-! ## Blocks that begin and end -/

namespace Noted

theorem begin (h : s.Noted ν es) (isLoop : Bool) : (s.beginBlock isLoop).Noted ν es where
  code := by
    have hfree : (s.beginBlock isLoop).Free es = s.Free es := by
      funext k
      simp [Free, FunctionScope.beginBlock]
    rw [hfree]
    exact h.code
  locals := h.locals
  own := h.own
  shut := h.shut
  registers := h.registers
  layered := ⟨⟨Nat.le_refl _, fun l _ hge hlt => absurd hlt (Nat.not_lt.mpr hge), nofun, nofun,
    nofun⟩, h.layered⟩
  recorded := h.recorded

end Noted

/-- The scope behind a block, in which the jumps that wait in the block wait on. -/
def ended (s : FunctionScope) (b : ScopeBlock) (outer : List ScopeBlock) : FunctionScope :=
  { s with
    proto := s.recorded ((s.locals.extract b.level s.locals.size).map fun l => l.range s.position)
    locals := s.locals.extract 0 b.level
    blocks := outer.modifyHead fun o => { o with gotos := o.gotos ++ b.gotos }
    free := b.level }

theorem mem_ended : l ∈ (s.ended b outer).locals ↔ ∃ k, k < b.level ∧ s.locals[k]? = some l := by
  simp only [ended, Array.mem_iff_getElem?, Array.getElem?_extract]
  refine exists_congr fun k => ?_
  rw [Nat.zero_add, Nat.sub_zero]
  constructor
  · intro h
    split at h
    next hlt => exact ⟨by omega, h⟩
    next => cases h
  · rintro ⟨hlt, h⟩
    have hk := (Array.getElem?_eq_some_iff.mp h).1
    rw [if_pos (by omega)]
    exact h

theorem Noted.mem_ended (h : s.Noted ν es) :
    l ∈ (s.ended b outer).locals ↔ l ∈ s.locals ∧ l.register < b.level := by
  rw [FunctionScope.mem_ended]
  constructor
  · rintro ⟨k, hlt, hl⟩
    exact ⟨Array.mem_of_getElem? hl, (h.registers k l hl).symm ▸ hlt⟩
  · rintro ⟨hl, hlt⟩
    obtain ⟨k, hk⟩ := Array.mem_iff_getElem?.mp hl
    exact ⟨k, h.registers k l hk ▸ hlt, hk⟩

theorem free_ended (hb : s.blocks = b :: outer) (houter : outer = [] → b.gotos = []) {k : Nat} :
    (s.ended b outer).Free (b.breaks ++ es) k ↔ s.Free es k := by
  unfold Free ended
  rw [hb]
  cases outer with
  | nil =>
    simp [houter rfl, or_comm]
  | cons o rest =>
    simp only [List.modifyHead_cons, List.exists_mem_cons_iff, List.mem_append, or_and_right,
      exists_or]
    simp only [or_assoc, or_comm, or_left_comm]

/-- The variables that are not seen any longer are recorded. -/
theorem Recorded.finish {locals' : Array Local} {rs : Array LocalRange} (h : Recorded p ν locals)
    (hsub : ∀ l ∈ locals', l ∈ locals)
    (hgone : ∀ l ∈ locals, l ∉ locals' → l.range p.chunk.size ∈ rs)
    (hrs : ∀ r ∈ rs, ∃ l ∈ locals, l ∉ locals' ∧ l.range p.chunk.size = r)
    (hstarts : ∀ m < p.chunk.size, ∀ l, (ν m).Sees l → l.start ≤ m) :
    Recorded { p with locals := p.locals ++ rs } ν locals' where
  sees m hm l hl := by
    rcases h.sees m hm l hl with hmem | ⟨stop, hlt, hmem⟩
    · by_cases hkept : l ∈ locals'
      · exact .inl hkept
      · exact .inr ⟨p.chunk.size, hm, Array.mem_append_right _ (hgone l hmem hkept)⟩
    · exact .inr ⟨stop, hlt, Array.mem_append_left _ hmem⟩
  ranges r hr hlt := by
    rcases Array.mem_append.mp hr with hr | hr
    · obtain ⟨hle, l, hrange, hl, hsees⟩ := h.ranges r hr hlt
      exact ⟨hle, l, hrange, fun hmem => hl (hsub l hmem), hsees⟩
    · obtain ⟨l, hl, hgone', rfl⟩ := hrs r hr
      exact ⟨Nat.le_refl _, l, rfl, hgone', fun m hm =>
        ⟨fun hsees => ⟨hstarts m hm l hsees, hm⟩, fun hin => (h.seen l hl).2 m hin.1 hm⟩⟩
  seen l hl := h.seen l (hsub l hl)

/-- Jumps wait on in the block around the one that ends. -/
theorem Layer.hand (h : Layer p ν locals bound b) {gs : List PendingJump}
    (hgs : ∀ g ∈ gs, p.opcodeAt? g.position = some .jump ∧
      (∀ l, (ν g.position).Live l →
        reaches l.register g.highestCaptured = true ∧ (l.register < b.level → l ∈ locals)) ∧
      ∀ l, ¬(ν g.position).Done l) :
    Layer p ν locals bound { b with gotos := b.gotos ++ gs } where
  level := h.level
  captured := h.captured
  labels := h.labels
  breaks := h.breaks
  gotos g hg := (List.mem_append.mp hg).elim (h.gotos g) (hgs g)

theorem size_ended (hle : b.level ≤ s.locals.size) : (s.ended b outer).locals.size = b.level := by
  change (s.locals.extract 0 b.level).size = b.level
  rw [Array.size_extract]
  omega

theorem Noted.registers_ended (h : s.Noted ν es) (k : Nat) (l : Local)
    (hl : (s.ended b outer).locals[k]? = some l) : l.register = k := by
  simp only [ended, Array.getElem?_extract] at hl
  split at hl
  · rw [Nat.zero_add] at hl
    exact h.registers k l hl
  · cases hl

/-- The captured variables of the block are closed at its end, so that those in use there are those
in scope behind it. -/
theorem Noted.live_ended (h : s.Noted ν es) (hb : s.blocks = b :: outer)
    (hlevel : b.level ≤ (ν s.proto.chunk.size).shut)
    (hcaptured : b.hasCaptured = true → (ν s.proto.chunk.size).shut ≤ b.level) :
    (ν s.proto.chunk.size).Live l ↔ (Note.full (s.ended b outer).locals).Live l := by
  have hlayered := h.layered
  rw [hb] at hlayered
  obtain ⟨hhead, -⟩ := hlayered
  unfold Note.Live
  rw [h.locals]
  change _ ↔ l ∈ (s.ended b outer).locals ∧ _ ∧ l.register < (s.ended b outer).locals.size
  rw [h.mem_ended, size_ended hhead.level]
  constructor
  · rintro ⟨hl, hc, hlt⟩
    have hregister : l.register < b.level := by
      refine Nat.lt_of_not_le fun hge => ?_
      have hbound := hcaptured (hhead.captured l hl hge (h.register_lt hl) hc)
      omega
    exact ⟨⟨hl, hregister⟩, hc, hregister⟩
  · rintro ⟨⟨hl, -⟩, hc, hlt⟩
    exact ⟨hl, hc, by omega⟩

theorem Noted.onward_ended (h : s.Noted ν es) (hb : s.blocks = b :: outer)
    (hlevel : b.level ≤ (ν s.proto.chunk.size).shut)
    (hcaptured : b.hasCaptured = true → (ν s.proto.chunk.size).shut ≤ b.level)
    (hsame : ∀ m < s.proto.chunk.size, ν' m = ν m)
    (hhere : ν' s.proto.chunk.size = .full (s.ended b outer).locals) :
    s.proto.Onward ν (s.ended b outer).proto ν' where
  retains := ⟨Nat.le_refl _, fun _ _ h => h, fun _ i hi => ⟨i, hi, .inl rfl⟩⟩
  notes := hsame
  enters l hl := .inr ⟨rfl, hhere ▸ (h.live_ended hb hlevel hcaptured).mp hl⟩
  rests l hl := by
    rw [hhere] at hl
    have hl : l ∈ (s.ended b outer).locals := hl
    obtain ⟨hold, hlt⟩ := h.mem_ended.mp hl
    rw [h.locals]
    exact .inr ⟨hold, fun hdone => absurd hdone.2 (by omega)⟩

theorem Noted.layered_ended (h : s.Noted ν es) (hb : s.blocks = b :: outer)
    (ho : s.proto.Onward ν (s.ended b outer).proto ν') :
    Layered (s.ended b outer).proto ν' (s.ended b outer).locals b.level
      (s.ended b outer).blocks := by
  have hlayered := h.layered
  rw [hb] at hlayered
  obtain ⟨hhead, htail⟩ := hlayered
  have hkeep : ∀ l ∈ s.locals, l.register < b.level → l ∈ (s.ended b outer).locals :=
    fun l hl hlt => h.mem_ended.mpr ⟨hl, hlt⟩
  have hmono := htail.mono ho hkeep fun l hl _ => (h.mem_ended.mp hl).1
  change Layered _ _ _ _ (outer.modifyHead _)
  cases outer with
  | nil => trivial
  | cons o rest =>
    refine ⟨hmono.1.hand fun g hg => ?_, hmono.2⟩
    obtain ⟨hop, hgoto, hbusy⟩ := hhead.gotos g hg
    rw [ho.notes _ (Prototype.lt_size_of_opcodeAt? hop)]
    refine ⟨hop, fun l hl => ?_, hbusy⟩
    obtain ⟨hreaches, hin⟩ := hgoto l hl
    have hlevel' := hmono.1.level
    have hle := hhead.level
    exact ⟨hreaches, fun hlt => hkeep l (hin (by omega)) (by omega)⟩

/-- The variables of the block are recorded. -/
theorem Noted.recorded_ended (h : s.Noted ν es) (hsame : ∀ m < s.proto.chunk.size, ν' m = ν m) :
    Recorded (s.ended b outer).proto ν' (s.ended b outer).locals := by
  refine (h.recorded.extend (Nat.le_refl _) rfl hsame fun m hm hlt =>
    absurd hlt (Nat.not_lt.mpr hm)).finish (fun l hl => (h.mem_ended.mp hl).1) (fun l hl hgone => ?_)
    (fun r hr => ?_) fun m hm l hl => ?_
  · refine Array.mem_map.mpr ⟨l, ?_, rfl⟩
    obtain ⟨k, hk⟩ := Array.mem_iff_getElem?.mp hl
    have hregister := h.registers k l hk
    have hlt := (Array.getElem?_eq_some_iff.mp hk).1
    have hge : b.level ≤ k := Nat.le_of_not_lt fun hlt => hgone (h.mem_ended.mpr ⟨hl, by omega⟩)
    refine Array.mem_iff_getElem?.mpr ⟨k - b.level, ?_⟩
    rw [Array.getElem?_extract, if_pos (by omega), Nat.add_sub_cancel' hge]
    exact hk
  · obtain ⟨l, hl, rfl⟩ := Array.mem_map.mp hr
    obtain ⟨k, hk⟩ := Array.mem_iff_getElem?.mp hl
    rw [Array.getElem?_extract] at hk
    split at hk
    · have hregister := h.registers _ l hk
      exact ⟨l, Array.mem_of_getElem? hk,
        fun hin => by have hlt := (h.mem_ended.mp hin).2; omega, rfl⟩
    · cases hk
  · rw [hsame m hm] at hl
    obtain ⟨i, op, hi, hop, hminds⟩ := h.code.words m hm
    exact hminds.start_le hl

/-- The end of a block, behind the word that closes its captured variables. -/
theorem Noted.finish (h : s.Noted ν es) (hb : s.blocks = b :: outer)
    (houter : outer = [] → b.gotos = [])
    (hlevel : b.level ≤ (ν s.proto.chunk.size).shut)
    (hcaptured : b.hasCaptured = true → (ν s.proto.chunk.size).shut ≤ b.level) :
    ∃ ν', (s.ended b outer).Noted ν' (b.breaks ++ es) ∧
      (ν' (s.ended b outer).proto.chunk.size).shut = (s.ended b outer).locals.size ∧
      Onward b.level s ν (s.ended b outer) ν' ∧
      ∀ n ∈ b.breaks, b.isLoop = true ∧ s.proto.opcodeAt? n = some .jump ∧
        (∀ l, (ν n).Live l → l ∈ (s.ended b outer).locals) ∧
        ∀ l, (ν n).Done l → l ∉ (s.ended b outer).locals := by
  have hlayered := h.layered
  rw [hb] at hlayered
  obtain ⟨hhead, -⟩ := hlayered
  have hle := hhead.level
  let ν' := noteFrom s.proto.chunk.size (.full (s.ended b outer).locals) ν
  have hsame : ∀ m < s.proto.chunk.size, ν' m = ν m := fun m hm => noteFrom_lt hm
  have hhere : ν' s.proto.chunk.size = .full (s.ended b outer).locals := noteFrom_ge (Nat.le_refl _)
  have ho := h.onward_ended hb hlevel hcaptured hsame hhere
  refine ⟨ν', ⟨?_, congrArg Note.locals hhere, congrArg Note.own hhere,
    Nat.le_of_eq (congrArg Note.shut hhere), h.registers_ended, ?_, h.recorded_ended hsame⟩,
    congrArg Note.shut hhere, ⟨ho, fun t ht hle' r l hr hl => ?_⟩,
    fun n hn => ⟨(hhead.breaks n hn).1, (hhead.breaks n hn).2.1, fun l hl => ?_, fun l hl hin => ?_⟩⟩
  · refine h.code.extend ho (fun _ _ _ => rfl) (fun _ _ => free_ended hb houter)
      (fun l hl => .inl ((h.live_ended hb hlevel hcaptured).mpr (hhere ▸ hl))) (fun m hm hlt => ?_)
      (fun m hm hlt => ?_) (fun m hm hlt => ?_)
    all_goals exact absurd hlt (Nat.not_lt.mpr hm)
  · rw [size_ended hle]
    exact h.layered_ended hb ho
  · obtain rfl : t = s.proto.chunk.size := Nat.le_antisymm hle' ht
    rw [hhere]
    change (s.locals.extract 0 b.level)[r]? = some l
    rw [Array.getElem?_extract, if_pos (by have hlt := (Array.getElem?_eq_some_iff.mp hl).1; omega),
      Nat.zero_add]
    exact hl
  · obtain ⟨hl', hlt⟩ := (hhead.breaks n hn).2.2.1 l hl
    exact h.mem_ended.mpr ⟨hl', hlt⟩
  · have hge := (hhead.breaks n hn).2.2.2 l hl
    have hlt := (h.mem_ended.mp hin).2
    omega

/-! ## What waits in blocks -/

/-- The records of the blocks change. -/
theorem Noted.withBlocks (h : s.Noted ν es)
    (hfree : ∀ k, ({ s with blocks := bs } : FunctionScope).Free es' k ↔ s.Free es k)
    (hlayered : Layered s.proto ν s.locals s.locals.size bs) :
    ({ s with blocks := bs } : FunctionScope).Noted ν es' where
  code := by
    have heq : ({ s with blocks := bs } : FunctionScope).Free es' = s.Free es :=
      funext fun k => propext (hfree k)
    rw [heq]
    exact h.code
  locals := h.locals
  own := h.own
  shut := h.shut
  registers := h.registers
  layered := hlayered
  recorded := h.recorded

/-- A label, behind which the jumps to it do not wait any longer. -/
theorem Noted.label {L : PlacedLabel} (h : s.Noted ν es) (hb : s.blocks = b :: outer)
    (hlevel : L.level ≤ s.locals.size) (hposition : L.position ≤ s.proto.chunk.size)
    (hcalm : s.proto.Calm L.position)
    (hadmits : ∀ l ∈ s.locals, l.captured = true → l.register < L.level →
      s.proto.Admits ν L.position l) :
    ({ s with blocks := { b with
      labels := b.labels ++ [L]
      gotos := b.gotos.filter fun g => g.name != L.name } :: outer } : FunctionScope).Noted ν
      ((b.gotos.filter fun g => g.name == L.name).map PendingJump.position ++ es) := by
  have hlayered := h.layered
  rw [hb] at hlayered
  refine h.withBlocks (fun k => ?_) ⟨⟨hlayered.1.level, hlayered.1.captured, fun L' hL' => ?_,
    hlayered.1.breaks, fun g hg => hlayered.1.gotos g (List.mem_of_mem_filter hg)⟩, hlayered.2⟩
  · unfold Free
    rw [hb]
    simp only [List.mem_append, List.mem_map, List.exists_mem_cons_iff, List.mem_filter, and_assoc]
    have hsplit : (∃ g ∈ b.gotos, g.position = k) ↔
        (∃ g ∈ b.gotos, (g.name == L.name) = true ∧ g.position = k) ∨
          ∃ g ∈ b.gotos, (g.name != L.name) = true ∧ g.position = k := by
      constructor
      · rintro ⟨g, hg, rfl⟩
        cases hname : g.name == L.name with
        | true => exact .inl ⟨g, hg, hname, rfl⟩
        | false => exact .inr ⟨g, hg, by simp [bne, hname], rfl⟩
      · rintro (⟨g, hg, -, rfl⟩ | ⟨g, hg, -, rfl⟩) <;> exact ⟨g, hg, rfl⟩
    rw [hsplit]
    simp only [or_assoc, or_comm, or_left_comm]
  · rcases List.mem_append.mp hL' with hL' | hL'
    · exact hlayered.1.labels L' hL'
    · obtain rfl := List.mem_singleton.mp hL'
      exact ⟨hlevel, hposition, hcalm, hadmits⟩

/-- A jump waits for its label. -/
theorem Noted.waitGoto (h : s.Noted ν (g.position :: es)) (hb : s.blocks = b :: outer)
    (hop : s.proto.opcodeAt? g.position = some .jump)
    (hlive : ∀ l, (ν g.position).Live l → reaches l.register g.highestCaptured = true ∧ l ∈ s.locals)
    (hbusy : ∀ l, ¬(ν g.position).Done l) :
    ({ s with blocks := { b with gotos := b.gotos ++ [g] } :: outer } : FunctionScope).Noted ν
      es := by
  have hlayered := h.layered
  rw [hb] at hlayered
  refine h.withBlocks (fun k => ?_) ⟨hlayered.1.hand fun g' hg => ?_, hlayered.2⟩
  · unfold Free
    rw [hb]
    simp only [List.mem_append, List.mem_cons, List.not_mem_nil, or_false, or_and_right, exists_or,
      exists_eq_left]
    rw [eq_comm (a := k)]
    simp only [or_assoc, or_comm, or_left_comm]
  · obtain rfl := List.mem_singleton.mp hg
    exact ⟨hop, fun l hl => ⟨(hlive l hl).1, fun _ => (hlive l hl).2⟩, hbusy⟩

theorem free_withBreak {bs : List ScopeBlock} (hloop : ∃ b ∈ bs, b.isLoop = true) (n k : Nat) :
    (∃ b ∈ withBreak n bs, (∃ g ∈ b.gotos, g.position = k) ∨ k ∈ b.breaks) ↔
      k = n ∨ ∃ b ∈ bs, (∃ g ∈ b.gotos, g.position = k) ∨ k ∈ b.breaks := by
  induction bs with
  | nil => simp at hloop
  | cons b bs ih =>
    unfold withBreak at ih ⊢
    cases hb : b.isLoop with
    | true =>
      simp only [List.takeWhile_cons, hb, Bool.not_true, Bool.false_eq_true, if_false,
        List.nil_append, List.length_nil, List.drop_zero, List.modifyHead_cons,
        List.exists_mem_cons_iff, List.mem_append, List.mem_singleton]
      simp only [or_assoc, or_comm]
    | false =>
      have hrest : ∃ b ∈ bs, b.isLoop = true := by
        obtain ⟨b', hb', hl⟩ := hloop
        rcases List.mem_cons.mp hb' with rfl | hb'
        · cases hb.symm.trans hl
        · exact ⟨b', hb', hl⟩
      simp only [List.takeWhile_cons, hb, Bool.not_false, if_true, List.length_cons,
        List.drop_succ_cons, List.cons_append, List.exists_mem_cons_iff]
      rw [ih hrest]
      simp only [or_left_comm]

theorem layered_withBreak {loop : ScopeBlock} (h : Layered p ν locals bound bs)
    (hloop : bs.find? (·.isLoop) = some loop) (hop : p.opcodeAt? n = some .jump)
    (hlive : ∀ l, (ν n).Live l → l ∈ locals ∧ l.register < loop.level)
    (hdone : ∀ l, (ν n).Done l → loop.level ≤ l.register) :
    Layered p ν locals bound (withBreak n bs) := by
  induction bs generalizing bound with
  | nil => cases hloop
  | cons b bs ih =>
    obtain ⟨hhead, htail⟩ := h
    unfold withBreak at ih ⊢
    cases hb : b.isLoop with
    | true =>
      simp only [List.find?_cons, hb, Option.some.injEq] at hloop
      subst hloop
      simp only [List.takeWhile_cons, hb, Bool.not_true, Bool.false_eq_true, if_false,
        List.nil_append, List.length_nil, List.drop_zero, List.modifyHead_cons]
      refine ⟨⟨hhead.level, hhead.captured, hhead.labels, fun m hm => ?_, hhead.gotos⟩, htail⟩
      rcases List.mem_append.mp hm with hm | hm
      · exact ⟨rfl, (hhead.breaks m hm).2⟩
      · obtain rfl := List.mem_singleton.mp hm
        exact ⟨rfl, hop, hlive, hdone⟩
    | false =>
      simp only [List.find?_cons, hb] at hloop
      simp only [List.takeWhile_cons, hb, Bool.not_false, if_true, List.length_cons,
        List.drop_succ_cons, List.cons_append]
      exact ⟨hhead, ih htail hloop⟩

/-- A jump waits for the end of the innermost loop. -/
theorem Noted.waitBreak {loop : ScopeBlock} (h : s.Noted ν (n :: es))
    (hloop : s.innermostLoop = some loop) (hop : s.proto.opcodeAt? n = some .jump)
    (hlive : ∀ l, (ν n).Live l → l ∈ s.locals ∧ l.register < loop.level)
    (hdone : ∀ l, (ν n).Done l → loop.level ≤ l.register) :
    ({ s with blocks := withBreak n s.blocks } : FunctionScope).Noted ν es := by
  refine h.withBlocks (fun k => ?_) (layered_withBreak h.layered hloop hop hlive hdone)
  have hfind : s.blocks.find? (·.isLoop) = some loop := hloop
  unfold Free
  rw [free_withBreak ⟨loop, List.mem_of_find?_eq_some hfind, List.find?_some hfind⟩, List.mem_cons]
  simp only [or_assoc, or_left_comm]

end FunctionScope
end LuaMachine
