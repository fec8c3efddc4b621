import LuaMachine.Proofs.Flow.Actions
import LuaMachine.Proofs.Jumps.Judging
import LuaMachine.Proofs.Jumps.Waiting
/-! # Leaving blocks with their variables

Variables come into scope and blocks end. A jump out of a loop, to a label behind it or to a label
in front of it closes the captured variables that it leaves, or else the label does that.

* `State.gotos`, `State.waiting`: the jumps that wait in the blocks, and in the innermost one.
* `State.outline`: the blocks.
* `Generator.Strong`: a jump that leaves with no open upvalues of other variables than those of the
  scope.
* `Generator.addBinders_charted`, `closeBlock_charted`: variables and blocks.
* `Generator.compileBreak_charted`, `compileGoto_charted`, `compileLabel_charted`: jumps and labels.
-/
set_option autoImplicit false

namespace LuaMachine
namespace Generator

open Prototype FunctionScope

/-- The jumps that wait for a label, by the block that they wait in. -/
def State.gotos (st : State) : List (List PendingJump) := st.current.blocks.map ScopeBlock.gotos

/-- The jumps that wait in the innermost block. -/
def State.waiting (st : State) : List PendingJump := st.gotos.headD []

/-- The levels of the blocks, and which are loops. -/
def State.outline (st : State) : List (Nat × Bool) :=
  st.current.blocks.map fun b => (b.level, b.isLoop)

/-- Where the jump is, open upvalues of registers that are in scope are those of variables of the
scope. -/
def Strong (ν : Nat → Note) (st : State) (g : PendingJump) : Prop :=
  ∀ l, (ν g.position).Live l → l.register < st.level → l ∈ st.current.locals

variable {ps : List Nat} {st st' st₁ : State} {ν ν' : Nat → Note} {es : List Nat}
  {n line shut level : Nat} {u : Unit} {l : Local} {name : String} {captured constant : Bool}
  {b : ScopeBlock} {outer : List ScopeBlock} {g : PendingJump}

theorem Sound.level_lt (hs : Sound Prototype.WellFormed ps st) : st.level < 256 := by
  have hlevel := hs.level_le
  have htop := hs.top_le
  have hmax := hs.registers_le
  omega

/-! ## Variables -/

/-- What declaring variables does. -/
structure Declared (ν : Nat → Note) (es : List Nat) (st st' : State) (ν' : Nat → Note) :
    Prop where
  charted : Charted ν' es st'.level st'
  size : st'.size = st.size
  onward : st.current.Onward st.level ν st'.current ν'
  gotos : st'.gotos = st.gotos
  outline : st'.outline = st.outline

theorem Declared.trans {st'' : State} {ν'' : Nat → Note} (h : Declared ν es st st' ν')
    (h' : Declared ν' es st' st'' ν'') (hlevel : st.level ≤ st'.level) :
    Declared ν es st st'' ν'' where
  charted := h'.charted
  size := h'.size.trans h.size
  onward := h.onward.trans h'.onward h.charted.noted hlevel
  gotos := h'.gotos.trans h.gotos
  outline := h'.outline.trans h.outline

theorem addLocal_declaring (h : addLocal name captured constant st = .ok u st')
    (hne : st.scopes ≠ []) :
    st'.scopes ≠ [] ∧
      st'.current = st.current.declaring ⟨name, st.level, captured, constant, st.size⟩ := by
  obtain ⟨s, hadd, rfl⟩ := onScope'_ok h
  obtain ⟨-, rfl⟩ := addLocal_ok hadd
  exact ⟨State.scopes_mapCurrent_ne hne, State.current_mapCurrent hne⟩

theorem addLocal_charted (h : addLocal name captured constant st = .ok u st')
    (hc : Charted ν es st.level st) :
    st'.current.locals = st.current.locals.push ⟨name, st.level, captured, constant, st.size⟩ ∧
      ∃ ν', Declared ν es st st' ν' := by
  obtain ⟨halive, hcurrent⟩ := addLocal_declaring h hc.alive
  obtain ⟨ν', hnoted, hfull, honward⟩ := hc.noted.declare
    (l := ⟨name, st.level, captured, constant, st.size⟩) hc.shut rfl rfl
  have hsize : st'.size = st.size := by
    unfold State.size
    rw [hcurrent]
    rfl
  refine ⟨by rw [hcurrent]; rfl, ν', ⟨⟨halive, ?_, ?_⟩, ?_⟩, hsize, ?_, ?_, ?_⟩
  · rw [hcurrent]
    exact hnoted
  · unfold State.level
    rw [hsize, hcurrent]
    exact hfull
  · rw [hsize, hcurrent]
    exact hc.calm
  · rw [hcurrent]
    exact honward
  · unfold State.gotos
    rw [hcurrent]
    unfold declaring
    cases st.current.blocks <;> rfl
  · unfold State.outline
    rw [hcurrent]
    unfold declaring
    cases st.current.blocks <;> rfl

theorem addBinder_charted {b : Binder} (h : addBinder b st = .ok u st')
    (hc : Charted ν es st.level st) :
    (∃ l, l.start = st.size ∧ st'.current.locals = st.current.locals.push l) ∧
      ∃ ν', Declared ν es st st' ν' := by
  simp only [addBinder, bind_ok, get_ok, and_assoc, exists_and_left, exists_eq_left] at h
  obtain ⟨hlocals, hdeclared⟩ := addLocal_charted h hc
  exact ⟨⟨_, rfl, hlocals⟩, hdeclared⟩

theorem addBinders_charted {bs : List Binder} (h : bs.forM addBinder st = .ok u st')
    (hc : Charted ν es st.level st) :
    (bs ≠ [] → ∃ l, st'.current.locals[st.level]? = some l ∧ l.start = st.size) ∧
      st.level ≤ st'.level ∧ ∃ ν', Declared ν es st st' ν' := by
  induction bs generalizing st ν with
  | nil =>
    simp only [List.forM_eq_forM, List.forM_nil, pure_ok] at h
    obtain ⟨-, rfl⟩ := h
    exact ⟨fun hne => absurd rfl hne, Nat.le_refl _, ν, hc, rfl, .refl hc.noted _, rfl, rfl⟩
  | cons b bs ih =>
    obtain ⟨st₁, hb, h⟩ := forM_ok h
    obtain ⟨⟨l, hstart, hlocals₁⟩, ν₁, h₁⟩ := addBinder_charted hb hc
    have hlevel₁ : st₁.level = st.level + 1 := by
      unfold State.level
      rw [hlocals₁, Array.size_push]
    obtain ⟨-, hlevel, ν', h'⟩ := ih h h₁.charted
    refine ⟨fun _ => ⟨l, ?_, hstart⟩, by omega, ν', h₁.trans h' (by omega)⟩
    have hfirst : st₁.current.locals[st.level]? = some l := by
      rw [hlocals₁]
      exact Array.getElem?_push_size
    rw [← h'.charted.noted.locals]
    exact h'.onward.within _ h'.onward.retains.size (Nat.le_refl _) _ l (by omega) hfirst

/-- Three variables that are hidden. -/
theorem addLoopState_charted (h : addLoopState st = .ok u st') (hc : Charted ν es st.level st) :
    st'.level = st.level + 3 ∧ (Note.full st'.current.locals).Hides st.level ∧
      ∃ ν', Declared ν es st st' ν' := by
  simp only [addLoopState, bind_ok] at h
  obtain ⟨_, st₁, h₁, _, st₂, h₂, h₃⟩ := h
  obtain ⟨hlocals₁, ν₁, hd₁⟩ := addLocal_charted h₁ hc
  obtain ⟨hlocals₂, ν₂, hd₂⟩ := addLocal_charted h₂ hd₁.charted
  obtain ⟨hlocals₃, ν₃, hd₃⟩ := addLocal_charted h₃ hd₂.charted
  have hlevel₁ : st₁.level = st.level + 1 := by
    unfold State.level
    rw [hlocals₁, Array.size_push]
  have hlevel₂ : st₂.level = st.level + 2 := by
    rw [State.level, hlocals₂, Array.size_push]
    exact congrArg (· + 1) hlevel₁
  have hlevel₃ : st'.level = st.level + 3 := by
    rw [State.level, hlocals₃, Array.size_push]
    exact congrArg (· + 1) hlevel₂
  refine ⟨hlevel₃, ⟨st.size, fun r hge hlt => ?_⟩, ν₃,
    (hd₁.trans hd₂ (by omega)).trans hd₃ (by omega)⟩
  have hlast : ∀ (locals : Array Local) (l : Local), (locals.push l)[locals.size]? = some l :=
    fun locals l => by rw [Array.getElem?_push, if_pos rfl]
  have hkeep₂ : ∀ {r l}, st₁.current.locals[r]? = some l → st₂.current.locals[r]? = some l :=
    fun hl => hlocals₂ ▸ getElem?_push_of_some hl
  have hkeep₃ : ∀ {r l}, st₂.current.locals[r]? = some l → st'.current.locals[r]? = some l :=
    fun hl => hlocals₃ ▸ getElem?_push_of_some hl
  obtain rfl | rfl | rfl : r = st.level ∨ r = st₁.level ∨ r = st₂.level := by omega
  · exact ⟨_, hkeep₃ (hkeep₂ (hlocals₁ ▸ hlast _ _)), rfl, rfl, rfl⟩
  · exact ⟨_, hkeep₃ (hlocals₂ ▸ hlast _ _), rfl, rfl, hd₁.size⟩
  · exact ⟨_, hlocals₃ ▸ hlast _ _, rfl, rfl, hd₂.size.trans hd₁.size⟩

/-! ## Blocks -/

theorem beginBlock_charted {isLoop : Bool} (h : beginBlock isLoop st = .ok u st')
    (hc : Charted ν es shut st) : st'.size = st.size ∧ st'.current.locals = st.current.locals ∧
      st'.current.blocks = { level := st.level, isLoop := isLoop } :: st.current.blocks ∧
      Charted ν es shut st' ∧ st.current.Onward st.level ν st'.current ν := by
  obtain rfl := beginBlock_ok h
  have hcurrent : (st.mapCurrent fun s => s.beginBlock isLoop).current =
      st.current.beginBlock isLoop := State.current_mapCurrent hc.alive
  have hsize : (st.mapCurrent fun s => s.beginBlock isLoop).size = st.size := by
    unfold State.size
    rw [hcurrent]
    rfl
  refine ⟨hsize, by rw [hcurrent]; rfl, by rw [hcurrent]; rfl,
    ⟨⟨State.scopes_mapCurrent_ne hc.alive, hcurrent ▸ hc.noted.begin isLoop, hsize ▸ hc.shut⟩, ?_⟩, ?_⟩
  · rw [hsize, hcurrent]
    exact hc.calm
  · rw [hcurrent]
    have honward := FunctionScope.Onward.refl hc.noted st.level
    exact ⟨honward.toOnward, honward.within⟩

/-- What the end of a block does: the jumps that leave the loop are to be finished, and those that
wait go on waiting in the block around it. -/
structure Finished (b : ScopeBlock) (outer : List ScopeBlock) (ν : Nat → Note) (es : List Nat)
    (st st' : State) (ν' : Nat → Note) : Prop where
  charted : Charted ν' (b.breaks ++ es) st'.level st'
  level : st'.level = b.level
  locals : st'.current.locals = st.current.locals.extract 0 b.level
  onward : st.current.Onward b.level ν st'.current ν'
  gotos : st'.gotos = (outer.map ScopeBlock.gotos).modifyHead (· ++ b.gotos)
  outline : st'.outline = outer.map fun b => (b.level, b.isLoop)
  breaks : ∀ n ∈ b.breaks, b.isLoop = true ∧ st'.current.proto.opcodeAt? n = some .jump ∧
    (∀ l, (ν' n).Live l → l ∈ st'.current.locals) ∧ ∀ l, (ν' n).Done l → l ∉ st'.current.locals
  strong : ∀ g ∈ b.gotos, Strong ν' st' g
  within : ∀ t, st.size ≤ t → t < st'.size → ∀ (r : Nat) (l : Local),
    st.current.locals[r]? = some l → (ν' t).locals[r]? = some l

/-- The end of a block whose captured variables are closed. -/
theorem finish_charted (hc : Charted ν es shut st) (hb : st.current.blocks = b :: outer)
    (houter : outer = [] → b.gotos = []) (hlevel : b.level ≤ shut)
    (hcaptured : b.hasCaptured = true → shut ≤ b.level) {f : FunctionScope → FunctionScope}
    (hf : f st.current = st.current.ended b outer) :
    ∃ ν', Finished b outer ν es st (st.mapCurrent f) ν' := by
  have hcurrent : (st.mapCurrent f).current = st.current.ended b outer :=
    (State.current_mapCurrent hc.alive).trans hf
  have hsize : (st.mapCurrent f).size = st.size := by
    unfold State.size
    rw [hcurrent]
    rfl
  have hshut : (ν st.current.proto.chunk.size).shut = shut := hc.shut
  obtain ⟨ν', hnoted, hfull, honward, hbreaks⟩ := hc.noted.finish hb houter
    (hshut ▸ hlevel) (hshut ▸ hcaptured)
  have hle : b.level ≤ st.current.locals.size := Nat.le_trans hlevel (hshut ▸ hc.noted.shut)
  have hlayered := hc.noted.layered
  rw [hb] at hlayered
  have hlevel' : (st.mapCurrent f).level = b.level := by
    unfold State.level
    rw [hcurrent]
    change (st.current.locals.extract 0 b.level).size = b.level
    rw [Array.size_extract]
    omega
  refine ⟨ν', ⟨⟨State.scopes_mapCurrent_ne hc.alive, hcurrent ▸ hnoted, ?_⟩, ?_⟩, hlevel', ?_, ?_, ?_,
    ?_, fun n hn => ?_, fun g hg l hl hlt => ?_, fun t ht hlt => ?_⟩
  · unfold State.level
    rw [hsize, hcurrent]
    exact hfull
  · rw [hsize, hcurrent]
    exact hc.calm
  · rw [hcurrent]
    rfl
  · rw [hcurrent]
    exact honward
  · unfold State.gotos
    rw [hcurrent]
    unfold ended
    cases outer <;> rfl
  · unfold State.outline
    rw [hcurrent]
    unfold ended
    cases outer <;> rfl
  · obtain ⟨hloop, hop, hlive⟩ := hbreaks n hn
    rw [hcurrent, honward.notes n (lt_size_of_opcodeAt? hop)]
    exact ⟨hloop, hop, hlive⟩
  · obtain ⟨hop, hlive, -⟩ := hlayered.1.gotos g hg
    rw [honward.notes _ (lt_size_of_opcodeAt? hop)] at hl
    rw [hlevel'] at hlt
    rw [hcurrent]
    exact hc.noted.mem_ended.mpr ⟨(hlive l hl).2 hlt, hlt⟩
  · rw [hsize] at hlt
    exact absurd ht (Nat.not_le_of_lt hlt)

theorem closeBlock_charted {b' : ScopeBlock} (h : closeBlock st = .ok b' st')
    (hc : Charted ν es shut st) (hb : st.current.blocks = b :: outer) (hlevel : b.level ≤ shut)
    (hlt : st.level < 256) : b' = b ∧ ∃ ν', Finished b outer ν es st st' ν' := by
  simp only [closeBlock, bind_ok] at h
  obtain ⟨open', st₂, hblock, _, st₃, hclose, block, st₄, hend, h⟩ := h
  obtain rfl := currentBlock_eq hblock hb
  obtain ⟨rfl, -⟩ := currentBlock_ok hblock
  have hshut : (ν st₂.current.proto.chunk.size).shut = shut := hc.shut
  have hle : open'.level ≤ st₂.level := Nat.le_trans hlevel (hshut ▸ hc.noted.shut)
  obtain ⟨-, hlocals₃, hblocks₃, ν₃, hc₃, honward₃, -⟩ :=
    closeIf_charted hclose hc hle hlevel (Nat.lt_of_le_of_lt hle hlt)
  obtain ⟨rfl, hblock'⟩ := endBlock_ok hend
  have hb₃ := hblocks₃.trans hb
  have hended : st₃.current.endBlock = ({ st₃.current.ended open' outer with blocks := outer },
      some open') := by
    unfold FunctionScope.endBlock
    rw [hb₃]
    rfl
  have hcurrent := State.current_mapCurrent (f := fun _ => st₃.current.endBlock.1) hc₃.alive
  rw [hended] at hblock' hcurrent
  obtain rfl : block = open' := hblock'
  have hfinish : ∀ {f : FunctionScope → FunctionScope},
      f st₃.current = st₃.current.ended block outer → (outer = [] → block.gotos = []) →
      ∃ ν', Finished block outer ν es st₂ (st₃.mapCurrent f) ν' := by
    intro f hf houter
    obtain ⟨ν', hclosed⟩ := finish_charted hc₃ hb₃ houter (by split <;> omega)
      (fun hcaptured => Nat.le_of_eq (if_pos hcaptured)) hf
    refine ⟨ν', { hclosed with
      locals := hlocals₃ ▸ hclosed.locals
      onward := (honward₃.mono hle).trans hclosed.onward hc₃.noted (Nat.le_refl _)
      within := fun t ht hlt r l hl => ?_ }⟩
    rcases Nat.lt_or_ge t st₃.size with hlt' | hge
    · rw [hclosed.onward.notes t hlt']
      exact honward₃.within t ht (Nat.le_of_lt hlt') r l (Array.getElem?_eq_some_iff.mp hl).1 hl
    · exact hclosed.within t hge hlt r l (hlocals₃.symm ▸ hl)
  simp only [scope_ok, and_assoc, exists_and_left, exists_eq_left] at h
  rw [hended, hcurrent] at h
  split at h
  next hempty =>
    obtain rfl : outer = [] := List.isEmpty_iff.mp hempty
    cases hgotos : block.gotos with
    | nil =>
      simp only [hgotos, pure_ok] at h
      obtain ⟨rfl, rfl⟩ := h
      exact ⟨rfl, hfinish rfl fun _ => hgotos⟩
    | cons g gs => simp only [hgotos, defect_ok] at h
  next hempty =>
    simp only [bind_ok, pure_ok] at h
    obtain ⟨_, st₅, hmodify, rfl, rfl⟩ := h
    simp only [modifyBlock, modifyScope_ok] at hmodify
    subst hmodify
    refine ⟨rfl, ?_⟩
    have hmap : ∀ (st : State) (f g : FunctionScope → FunctionScope),
        (st.mapCurrent f).mapCurrent g = st.mapCurrent (g ∘ f) := fun st f g => by
      unfold State.mapCurrent
      cases st.scopes <;> rfl
    rw [hmap]
    exact hfinish rfl fun hnil => absurd (List.isEmpty_iff.mpr hnil) hempty

/-! ## Captured variables that are in scope -/

/-- A captured variable is reached by the highest one. -/
theorem reaches_highest (hc : Charting ν es shut st) (hl : l ∈ st.current.locals)
    (hcaptured : l.captured = true) : reaches l.register st.current.highestCaptured = true := by
  obtain ⟨k, hk, rfl⟩ := Array.mem_iff_getElem.mp hl
  have hregister := hc.noted.registers k _ (Array.getElem?_eq_getElem hk)
  have hsome : (st.current.locals.findRev? fun l => l.captured).isSome := by
    rw [Array.findRev?_eq_find?_reverse, Array.find?_isSome]
    exact ⟨_, by simp [hl], hcaptured⟩
  obtain ⟨m, hm⟩ := Option.isSome_iff_exists.mp hsome
  unfold FunctionScope.highestCaptured
  rw [hm]
  rw [Array.findRev?_eq_find?_reverse, Array.find?_eq_some_iff_getElem] at hm
  obtain ⟨-, i, hi, rfl, hbefore⟩ := hm
  rw [Array.size_reverse] at hi
  have hi' : st.current.locals.size - 1 - i < st.current.locals.size := by omega
  have hlast := hc.noted.registers _ _ (Array.getElem?_eq_getElem hi')
  have hle : k ≤ st.current.locals.size - 1 - i := by
    refine Nat.le_of_not_lt fun hlt => ?_
    have hnot := hbefore (st.current.locals.size - 1 - k) (by omega)
    rw [Array.getElem_reverse] at hnot
    simp only [show st.current.locals.size - 1 - (st.current.locals.size - 1 - k) = k by omega,
      hcaptured] at hnot
    cases hnot
  simp only [Option.map_some, reaches, Array.getElem_reverse, hlast, hregister, decide_eq_true_eq]
  exact hle

/-- If the highest captured variable is not reached, then all are below. -/
theorem register_lt_of_reaches (hc : Charting ν es shut st) (hl : l ∈ st.current.locals)
    (hcaptured : l.captured = true)
    (hreaches : reaches level st.current.highestCaptured ≠ true) : l.register < level := by
  have hhighest := reaches_highest hc hl hcaptured
  cases hr : st.current.highestCaptured with
  | none =>
    rw [hr] at hhighest
    cases hhighest
  | some r =>
    have hle : l.register ≤ r := by simpa [hr, reaches] using hhighest
    have hgt : ¬level ≤ r := by simpa [hr, reaches] using hreaches
    omega

/-- The captured variables from a level on are closed, if there are any. -/
theorem closeReached_charted (h : closeIf (reaches level st.current.highestCaptured) level st =
      .ok u st') (hc : Charted ν es st.level st) (hlevel : level ≤ st.level) (hlt : level < 256) :
    st.size ≤ st'.size ∧ st'.current.locals = st.current.locals ∧
      st'.current.blocks = st.current.blocks ∧ ∃ ν' shut, Charted ν' es shut st' ∧
        st.current.Onward st.level ν st'.current ν' ∧
        level ≤ shut ∧ ∀ l, (ν' st'.size).Live l →
          l ∈ st.current.locals ∧ l.captured = true ∧ l.register < level := by
  obtain ⟨hsize, hlocals, hblocks, ν', hc', honward, -⟩ := closeIf_charted h hc hlevel hlevel hlt
  refine ⟨hsize, hlocals, hblocks, ν', _, hc', honward, by split <;> omega, fun l hl => ?_⟩
  obtain ⟨hmem, hcaptured, hlt'⟩ := hc'.live_iff.mp hl
  rw [hlocals] at hmem
  refine ⟨hmem, hcaptured, ?_⟩
  by_cases hreaches : reaches level st.current.highestCaptured = true
  · rwa [if_pos hreaches] at hlt'
  · exact register_lt_of_reaches hc.toCharting hmem hcaptured hreaches

/-! ## Jumps and labels -/

/-- What is said of the words behind a statement: the jumps that still wait were there before, or
they are jumps of the statement to labels that are not in a block of it and not in front of it. -/
structure Passes (places : List Jumps.Place) (ν : Nat → Note) (es : List Nat) (st st' : State)
    (ν' : Nat → Note) : Prop where
  charted : Charted ν' es st'.level st'
  onward : st.current.Onward st.level ν st'.current ν'
  outer : st'.gotos.tail = st.gotos.tail
  waiting : ∀ g ∈ st'.waiting, g ∈ st.waiting ∨ Strong ν' st' g ∧
    (∃ p ∈ places, p.Leaves g.name) ∧
    ∀ L ∈ st.visible, L.name ≠ g.name

/-- At a label the variables from its level on are not in scope, unless their scope begins there. -/
def Clean (ν : Nat → Note) (st : State) : Prop :=
  ∀ L ∈ st.visible, ∀ l ∈ (ν L.position).locals, L.level ≤ l.register → l.start = L.position

/-- Setting the line changes no words. -/
theorem setLine_charted (h : setLine line st = .ok u st') (hc : Charted ν es shut st) :
    st'.current = st.current ∧ Charted ν es shut st' := by
  simp only [setLine, modify_ok] at h
  subst h
  exact ⟨rfl, ⟨hc.alive, hc.noted, hc.shut⟩, hc.calm⟩

theorem level_le_of_layered {p : Prototype} {locals : Array Local} {bound : Nat}
    {bs : List ScopeBlock} (h : Layered p ν locals bound bs) (hb : b ∈ bs) : b.level ≤ bound := by
  induction bs generalizing bound with
  | nil => cases hb
  | cons b' bs ih =>
    rcases List.mem_cons.mp hb with rfl | hb
    · exact h.1.level
    · exact Nat.le_trans (ih h.2 hb) h.1.level

/-- A label that can be found admits the captured variables in front of it. -/
theorem label_of_layered {p : Prototype} {locals : Array Local} {bound : Nat}
    {bs : List ScopeBlock} {L : PlacedLabel} (h : Layered p ν locals bound bs)
    (hL : L ∈ bs.flatMap fun b => b.labels) :
    L.level ≤ bound ∧ L.position ≤ p.chunk.size ∧ p.Calm L.position ∧
      ∀ l ∈ locals, l.captured = true → l.register < L.level → p.Admits ν L.position l := by
  induction bs generalizing bound with
  | nil => cases hL
  | cons b bs ih =>
    rw [List.flatMap_cons, List.mem_append] at hL
    rcases hL with hL | hL
    · exact h.1.labels L hL
    · obtain ⟨hle, hrest⟩ := ih h.2 hL
      exact ⟨Nat.le_trans hle h.1.level, hrest⟩

/-- Words and notes are added, and labels of the position behind the variables. -/
theorem Clean.onward {k : Nat} (h : Clean ν st) (hc : Charting ν es shut st)
    (hvisible : ∀ L ∈ st'.visible, L ∈ st.visible ∨ L.position = st.size ∧ L.level = st.level)
    (ho : st.current.Onward k ν st'.current ν') : Clean ν' st' := by
  intro L hL l hl hle
  rcases hvisible L hL with hL | ⟨hposition, hlevel⟩
  · have hposition := (label_of_layered hc.noted.layered hL).2.1
    exact (ho.known hposition hl).elim (fun hold => h L hL l hold hle) id
  · rw [hposition] at hl ⊢
    refine (ho.known (Nat.le_refl _) hl).resolve_left fun hold => ?_
    have hlt := hc.noted.register_lt (hc.noted.locals ▸ hold)
    rw [hlevel] at hle
    exact Nat.not_le_of_lt hlt hle

/-- Words and notes are added, and no labels. -/
theorem Clean.same {k : Nat} (h : Clean ν st) (hc : Charting ν es shut st)
    (hvisible : st'.visible = st.visible) (ho : st.current.Onward k ν st'.current ν') :
    Clean ν' st' :=
  h.onward hc (fun _ hL => .inl (hvisible ▸ hL)) ho

/-- The blocks of a state change. -/
theorem Charted.withBlocks {es' : List Nat} {f : FunctionScope → FunctionScope}
    (hc : Charted ν es shut st) {bs : List ScopeBlock}
    (hf : f st.current = { st.current with blocks := bs })
    (hnoted : ({ st.current with blocks := bs } : FunctionScope).Noted ν es') :
    (st.mapCurrent f).size = st.size ∧ (st.mapCurrent f).current.locals = st.current.locals ∧
      (st.mapCurrent f).current.blocks = bs ∧ Charted ν es' shut (st.mapCurrent f) ∧
      st.current.Onward st.level ν (st.mapCurrent f).current ν := by
  have hcurrent : (st.mapCurrent f).current = { st.current with blocks := bs } :=
    (State.current_mapCurrent hc.alive).trans hf
  have hsize : (st.mapCurrent f).size = st.size := by
    unfold State.size
    rw [hcurrent]
  have honward := FunctionScope.Onward.refl hc.noted st.level
  refine ⟨hsize, by rw [hcurrent], by rw [hcurrent],
    ⟨⟨State.scopes_mapCurrent_ne hc.alive, hcurrent ▸ hnoted, hsize ▸ hc.shut⟩, ?_⟩, ?_⟩
  · rw [hsize, hcurrent]
    exact hc.calm
  · rw [hcurrent]
    exact ⟨honward.toOnward, honward.within⟩

theorem Passes.of_current {places : List Jumps.Place} (h : Passes places ν es st₁ st' ν')
    (hcurrent : st₁.current = st.current) : Passes places ν es st st' ν' := by
  have hlevel : st₁.level = st.level := congrArg (fun s => s.locals.size) hcurrent
  have hgotos : st₁.gotos = st.gotos := by
    unfold State.gotos
    rw [hcurrent]
  have hwaiting : st₁.waiting = st.waiting := congrArg (List.headD · []) hgotos
  have hvisible : st₁.visible = st.visible := by
    unfold State.visible
    rw [hcurrent]
  exact ⟨h.charted, hlevel ▸ hcurrent ▸ h.onward, hgotos ▸ h.outer,
    hwaiting ▸ hvisible ▸ h.waiting⟩

theorem gotos_withBreak (n : Nat) (bs : List ScopeBlock) :
    (withBreak n bs).map ScopeBlock.gotos = bs.map ScopeBlock.gotos := by
  induction bs with
  | nil => rfl
  | cons b bs ih =>
    unfold withBreak at ih ⊢
    cases hb : b.isLoop with
    | true => simp [hb]
    | false =>
      simp only [List.takeWhile_cons, hb, Bool.not_false, if_true, List.length_cons,
        List.drop_succ_cons, List.cons_append, List.map_cons]
      rw [ih]

theorem compileBreak_charted (h : compileBreak line st = .ok u st') (hc : Charted ν es st.level st)
    (hlt : st.level < 256) : ∃ ν', Passes [] ν es st st' ν' := by
  simp only [compileBreak, bind_ok, scope_ok, and_assoc, exists_and_left, exists_eq_left] at h
  obtain ⟨_, st₁, hline, h⟩ := h
  obtain ⟨hcurrent₁, hc₁⟩ := setLine_charted hline hc
  have hlevel₁ : st₁.level = st.level := congrArg (fun s => s.locals.size) hcurrent₁
  cases hloop : st₁.current.innermostLoop with
  | none => simp only [hloop, defect_ok] at h
  | some loop =>
    simp only [hloop, bind_ok, scope_ok, and_assoc, exists_and_left, exists_eq_left,
      modifyScope_ok] at h
    obtain ⟨_, st₂, hclose, n, st₃, hjump, rfl⟩ := h
    have hle : loop.level ≤ st₁.level :=
      level_le_of_layered hc₁.noted.layered (List.mem_of_find?_eq_some hloop)
    obtain ⟨-, hlocals₂, hblocks₂, ν₂, shut, hc₂, honward₂, hshut, hlive⟩ :=
      closeReached_charted hclose (hlevel₁ ▸ hc₁) hle (by omega)
    obtain ⟨rfl, -, hlocals₃, hblocks₃, hop, ν₃, hc₃, hhere, honward₃⟩ := emitJump_charted hjump hc₂
    have hloop₃ : st₃.current.innermostLoop = some loop := by
      unfold innermostLoop
      rw [hblocks₃, hblocks₂]
      exact hloop
    have hnoted := hc₃.noted.waitBreak hloop₃ hop (fun l hl => by
      rw [hhere] at hl
      obtain ⟨hmem, -, hlt'⟩ := hlive l hl
      rw [hlocals₃, hlocals₂]
      exact ⟨hmem, hlt'⟩) fun l hdone => by
      rw [hhere] at hdone
      exact Nat.le_trans hshut (hc₂.shut ▸ hdone.2)
    obtain ⟨-, hlocals, hblocks, hc', honward⟩ := hc₃.withBlocks
      (f := fun s => { s with blocks := withBreak st₂.size s.blocks }) rfl hnoted
    have hlevel₂ : st₂.level = st₁.level := congrArg Array.size hlocals₂
    have hlevel₃ : st₃.level = st₂.level := congrArg Array.size hlocals₃
    have hgotos : (st₃.mapCurrent fun s => { s with blocks := withBreak st₂.size s.blocks }).gotos =
        st₁.gotos := by
      unfold State.gotos
      rw [hblocks, gotos_withBreak, hblocks₃, hblocks₂]
    refine ⟨ν₃, Passes.of_current ⟨?_, ?_, congrArg List.tail hgotos, fun g hg => .inl ?_⟩ hcurrent₁⟩
    · unfold State.level at hc' ⊢
      exact hlocals.symm ▸ hc'
    · exact (honward₂.trans honward₃ hc₂.noted (Nat.le_of_eq hlevel₂.symm)).trans honward hc₃.noted
        (by omega)
    · unfold State.waiting at hg ⊢
      rwa [hgotos] at hg

theorem compileGoto_charted (h : compileGoto name line st = .ok u st')
    (hc : Charted ν es st.level st) (hclean : Clean ν st) (hlt : st.level < 256) (hb : st.current.blocks = b :: outer) :
    ∃ ν', Passes [⟨.goto name, []⟩] ν es st st' ν' := by
  simp only [compileGoto, bind_ok, scope_ok, and_assoc, exists_and_left, exists_eq_left] at h
  obtain ⟨_, st₁, hline, h⟩ := h
  obtain ⟨hcurrent₁, hc₁⟩ := setLine_charted hline hc
  have hlevel₁ : st₁.level = st.level := congrArg (fun s => s.locals.size) hcurrent₁
  rw [← hlevel₁] at hc₁
  cases hfind : (st₁.current.blocks.flatMap fun b => b.labels).find? fun l => l.name == name with
  | some L =>
    simp only [hfind, bind_ok] at h
    obtain ⟨_, st₂, hclose, hback⟩ := h
    obtain ⟨hle, hposition, hcalm, hadmits⟩ :=
      label_of_layered hc₁.noted.layered (List.mem_of_find?_eq_some hfind)
    have hle' : L.level ≤ st₁.level := hle
    obtain ⟨hsize₂, hlocals₂, hblocks₂, ν₂, shut, hc₂, honward₂, hshut, hlive⟩ :=
      closeReached_charted hclose hc₁ hle (by omega)
    obtain ⟨-, hlocals, hblocks, ν', hc', honward⟩ :=
      jumpBack_charted hback hc₂ (Nat.le_trans hposition hsize₂)
        (honward₂.retains.calm hposition hcalm) (fun l hl => by
          obtain ⟨hmem, hcaptured, hlt'⟩ := hlive l hl
          exact honward₂.admits (hadmits l hmem hcaptured hlt')) fun l hdone =>
          honward₂.done hposition fun hl => .inr <| by
            refine hclean L ?_ l hl (Nat.le_trans hshut (hc₂.shut ▸ hdone.2))
            unfold State.visible
            rw [← hcurrent₁]
            exact List.mem_of_find?_eq_some hfind
    have hlevel₂ : st₂.level = st₁.level := congrArg Array.size hlocals₂
    have hgotos : st'.gotos = st₁.gotos := by
      unfold State.gotos
      rw [hblocks, hblocks₂]
    refine ⟨ν', Passes.of_current ⟨hc', honward₂.trans honward hc₂.noted (Nat.le_of_eq hlevel₂.symm),
      congrArg List.tail hgotos, fun g hg => .inl ?_⟩ hcurrent₁⟩
    unfold State.waiting at hg ⊢
    rwa [hgotos] at hg
  | none =>
    simp only [hfind, bind_ok, modifyBlock, modifyScope_ok] at h
    obtain ⟨n, st₂, hjump, rfl⟩ := h
    obtain ⟨rfl, -, hlocals₂, hblocks₂, hop, ν₂, hc₂, hhere, honward₂⟩ := emitJump_charted hjump hc₁
    have hb₁ : st₁.current.blocks = b :: outer := by rw [hcurrent₁, hb]
    have hb₂ : st₂.current.blocks = b :: outer := hblocks₂.trans hb₁
    have hlive : ∀ l, (ν₂ st₁.size).Live l →
        reaches l.register st₁.current.highestCaptured = true ∧ l ∈ st₂.current.locals := by
      intro l hl
      rw [hhere] at hl
      obtain ⟨hmem, hcaptured, -⟩ := hc₁.live_iff.mp hl
      exact ⟨reaches_highest hc₁.toCharting hmem hcaptured, hlocals₂.symm ▸ hmem⟩
    have hnoted := FunctionScope.Noted.waitGoto
      (g := ⟨name, st₁.size, st₁.current.highestCaptured⟩) hc₂.noted hb₂ hop hlive
      (hhere ▸ hc₁.not_done)
    obtain ⟨-, hlocals, hblocks, hc', honward⟩ := hc₂.withBlocks
      (f := fun s => { s with
        blocks := s.blocks.modifyHead fun b =>
          { b with gotos := b.gotos ++ [⟨name, st₁.size, st₁.current.highestCaptured⟩] } })
      (by rw [hb₂]; rfl) hnoted
    have hlevel₂ : st₂.level = st₁.level := congrArg Array.size hlocals₂
    refine ⟨ν₂, Passes.of_current ⟨?_, honward₂.trans honward hc₂.noted (Nat.le_of_eq hlevel₂.symm),
      ?_, fun g hg => ?_⟩ hcurrent₁⟩
    · unfold State.level at hc' ⊢
      exact hlocals.symm ▸ hc'
    · unfold State.gotos
      rw [hblocks, hb₁]
      rfl
    · unfold State.waiting State.gotos at hg ⊢
      rw [hblocks] at hg
      rw [hb₁]
      rcases List.mem_append.mp hg with hg | hg
      · exact .inl hg
      · obtain rfl := List.mem_singleton.mp hg
        refine .inr ⟨fun l hl _ => hlocals.symm ▸ (hlive l hl).2, ⟨_, List.mem_singleton_self _, rfl,
          by simp⟩, fun L hL hname => ?_⟩
        have hnot := List.find?_eq_none.mp hfind L hL
        simp [hname] at hnot

/-- The jumps that wait for a label go to it. The induction is on the jumps that are left. -/
theorem patchGotos_charted {gs : List PendingJump} {t : Nat}
    (h : (gs.forM fun g => patchJump g.position t) st = .ok u st')
    (hc : Charted ν (gs.map PendingJump.position ++ es) shut st) (ht : t ≤ st.size)
    (hcalm : st.current.proto.Calm t)
    (hgs : ∀ g ∈ gs, st.current.proto.opcodeAt? g.position = some .jump ∧
      (∀ l, (ν g.position).Live l → st.current.proto.Admits ν t l) ∧ ∀ l, ¬(ν g.position).Done l) :
    st'.size = st.size ∧ st'.current.locals = st.current.locals ∧
      st'.current.blocks = st.current.blocks ∧ Charted ν es shut st' ∧
      st.current.Onward st.level ν st'.current ν := by
  induction gs generalizing st with
  | nil =>
    simp only [List.forM_eq_forM, List.forM_nil, pure_ok] at h
    obtain ⟨-, rfl⟩ := h
    exact ⟨rfl, rfl, rfl, hc, .refl hc.noted _⟩
  | cons g gs ih =>
    obtain ⟨st₁, hpatch, h⟩ := forM_ok h
    obtain ⟨⟨hop, hadmits, hbusy⟩, hgs⟩ := List.forall_mem_cons.mp hgs
    obtain ⟨hsize₁, hlocals₁, hblocks₁, hc₁, honward₁, -⟩ :=
      patchJump_charted hpatch hc hop ht hcalm hadmits fun l hdone => absurd hdone (hbusy l)
    obtain ⟨hsize, hlocals, hblocks, hc', honward⟩ := ih h hc₁ (by omega)
      (honward₁.retains.calm ht hcalm) fun g hg => ⟨honward₁.retains.opcodeAt? (hgs g hg).1,
        fun l hl => honward₁.admits ((hgs g hg).2.1 l hl), (hgs g hg).2.2⟩
    have hlevel : st.level ≤ st₁.level := Nat.le_of_eq (congrArg Array.size hlocals₁).symm
    exact ⟨hsize.trans hsize₁, hlocals.trans hlocals₁, hblocks.trans hblocks₁, hc',
      honward₁.trans honward hc₁.noted hlevel⟩

/-- A label: what arrives there with captured variables that it leaves closes them. -/
theorem compileLabel_charted {atEnd : Bool} (h : compileLabel name line atEnd st = .ok u st')
    (hc : Charted ν es shut st) (hb : st.current.blocks = b :: outer) (hlt : st.level < 256)
    (hshut : if atEnd then b.level ≤ shut else shut = st.level)
    (hstrong : atEnd = false → ∀ g ∈ b.gotos, g.name = name → Strong ν st g) :
    ∃ ν' shut', Charted ν' es shut' st' ∧ (if atEnd then b.level ≤ shut' else shut' = st.level) ∧
      st.current.Onward st.level ν st'.current ν' ∧ st'.current.locals = st.current.locals ∧
      st'.gotos = st.gotos.modifyHead (List.filter fun g => g.name != name) ∧
      (atEnd = false → ∀ L ∈ st'.visible,
        L ∈ st.visible ∨ L.position = st.size ∧ L.level = st.level) := by
  simp only [compileLabel, bind_ok, scope_ok, here_ok, and_assoc, exists_and_left,
    exists_eq_left] at h
  obtain ⟨_, st₁, hline, block, st₂, hblock, _, st₃, hclose, _, st₄, hmodify, h⟩ := h
  obtain ⟨hcurrent₁, hc₁⟩ := setLine_charted hline hc
  have hlevel₁ : st₁.level = st.level := congrArg (fun s => s.locals.size) hcurrent₁
  have hsize₁ : st₁.size = st.size := congrArg (fun s => s.proto.chunk.size) hcurrent₁
  have hb₁ : st₁.current.blocks = b :: outer := by rw [hcurrent₁, hb]
  obtain rfl := currentBlock_eq hblock hb₁
  obtain ⟨rfl, -⟩ := currentBlock_ok hblock
  simp only [modifyBlock, modifyScope_ok] at hmodify
  subst hmodify
  have hlayered := hc₁.noted.layered
  rw [hb₁] at hlayered
  have hdeclared : st₂.current.localsLevel = st₂.level := rfl
  rw [hdeclared] at hclose h
  generalize hlabel : (if atEnd = true then block.level else st₂.level) = level at hclose h
  have hle : level ≤ st₂.level := by
    have hle := hlayered.1.level
    rw [← hlabel]
    split
    · exact hle
    · exact Nat.le_refl _
  have hopen : level ≤ shut := by
    rw [← hlabel]
    cases atEnd with
    | true => exact hshut
    | false => exact Nat.le_of_eq (hlevel₁.trans hshut.symm)
  obtain ⟨hsize₃, hlocals₃, hblocks₃, ν₃, hc₃, honward₃, harrive⟩ :=
    closeIf_charted hclose hc₁ hle hopen (by omega)
  have hb₃ := hblocks₃.trans hb₁
  have hlive : ∀ l ∈ st₂.current.locals, l.captured = true → l.register < level →
      (ν st₂.size).Live l := fun l hl hcaptured hlt' =>
    hc₁.live_iff.mpr ⟨hl, hcaptured, Nat.lt_of_lt_of_le hlt' hopen⟩
  have hcalm := honward₃.retains.calm (Nat.le_refl _) hc₁.calm
  have hnoted := hc₃.noted.label (L := ⟨name, st₂.size, level⟩) hb₃
    (Nat.le_trans hle (Nat.le_of_eq (congrArg Array.size hlocals₃).symm)) hsize₃ hcalm
    fun l hl hcaptured hlt' => harrive l (.inl (hlive l (hlocals₃ ▸ hl) hcaptured hlt'))
  obtain ⟨hsize₄, hlocals₄, hblocks₄, hc₄, honward₄⟩ := hc₃.withBlocks
    (f := fun s => { s with
      blocks := s.blocks.modifyHead fun b => { b with
        labels := b.labels ++ [⟨name, st₂.size, level⟩]
        gotos := b.gotos.filter fun g => g.name != name } })
    (by rw [hb₃]; rfl) hnoted
  obtain ⟨hsize, hlocals, hblocks, hc', honward⟩ := patchGotos_charted h hc₄
    (Nat.le_trans hsize₃ (Nat.le_of_eq hsize₄.symm)) (honward₄.retains.calm hsize₃ hcalm) fun g hg => by
      obtain ⟨hmem, hname⟩ := List.mem_filter.mp hg
      obtain ⟨hop, hgoto, hbusy⟩ := hlayered.1.gotos g hmem
      rw [honward₃.notes _ (lt_size_of_opcodeAt? hop)]
      refine ⟨(honward₃.retains.trans honward₄.retains).opcodeAt? hop, fun l hl => ?_, hbusy⟩
      obtain ⟨hreaches, hweak⟩ := hgoto l hl
      refine honward₄.admits (harrive l ?_)
      rcases Nat.lt_or_ge l.register level with hlt' | hge
      · refine .inl (hlive l ?_ hl.2.1 hlt')
        cases atEnd with
        | true =>
          rw [if_pos rfl] at hlabel
          exact hweak (hlabel ▸ hlt')
        | false =>
          rw [if_neg Bool.false_ne_true] at hlabel
          rw [hcurrent₁]
          exact hstrong rfl g hmem (by simpa using hname) l hl (by omega)
      · refine .inr ⟨List.any_eq_true.mpr ⟨g, hg, ?_⟩, hl.2.1, hge⟩
        unfold reaches at hreaches ⊢
        split at hreaches
        · simp only [decide_eq_true_eq] at hreaches ⊢
          omega
        · cases hreaches
  have hlevel₃ : st₂.level ≤ st₃.level := Nat.le_of_eq (congrArg Array.size hlocals₃).symm
  refine ⟨ν₃, _, hc', ?_, ?_, ?_, ?_, fun hend L hL => ?_⟩
  · rw [← hlevel₁]
    cases atEnd with
    | true =>
      rw [if_pos rfl] at hlabel hshut ⊢
      split <;> omega
    | false =>
      rw [if_neg Bool.false_ne_true] at hlabel hshut ⊢
      split <;> omega
  · rw [← hlevel₁, ← hcurrent₁]
    exact (honward₃.trans honward₄ hc₃.noted hlevel₃).trans honward hc₄.noted
      (Nat.le_trans hlevel₃ (Nat.le_of_eq (congrArg Array.size hlocals₄).symm))
  · rw [hlocals, hlocals₄, hlocals₃, hcurrent₁]
  · unfold State.gotos
    rw [hblocks, hblocks₄, hb]
    rfl
  · unfold State.visible at hL ⊢
    rw [hblocks, hblocks₄] at hL
    rw [hb]
    simp only [List.flatMap_cons, List.mem_append, List.mem_singleton] at hL ⊢
    rcases hL with (hL | rfl) | hL
    · exact .inl (.inl hL)
    · refine .inr ⟨hsize₁, ?_⟩
      rw [← hlabel, hend, ← hlevel₁]
      rfl
    · exact .inl (.inr hL)

end Generator
end LuaMachine
