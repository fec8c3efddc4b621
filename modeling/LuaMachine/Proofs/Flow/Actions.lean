import LuaMachine.Proofs.Flow.Expressions
/-! # Actions with their variables

What single actions of the compiler do to words with notes: each adds words and notes, and of some
words it is not known yet where they go.

* `Generator.Charting`, `Charted`: the words of a state have their notes.
* `Generator.straight_charting`, `straight_charted`: words of expressions and assignments.
* `Generator.emitJump_charted`, `closeIf_charted`, `patchJump_charted` and the like: single words.
-/
set_option autoImplicit false

namespace LuaMachine
namespace Generator

open Prototype

/-- The words of the innermost function have their notes, and variables from register `shut` on are
no longer in use at the next word. -/
structure Charting (ν : Nat → Note) (es : List Nat) (shut : Nat) (st : State) : Prop where
  alive : st.scopes ≠ []
  noted : st.current.Noted ν es
  shut : (ν st.size).shut = shut

/-- The same where no list of values is open. -/
structure Charted (ν : Nat → Note) (es : List Nat) (shut : Nat) (st : State) : Prop
    extends Charting ν es shut st where
  calm : st.current.proto.Calm st.size

variable {ps : List Nat} {st st' st₁ : State} {ν ν' : Nat → Note} {es : List Nat}
  {n t r a b c line shut level : Nat} {u : Unit} {op : Opcode} {list : Option Nat}
  {i : Instruction} {l : Local}

theorem Charting.live_iff (hc : Charting ν es shut st) :
    (ν st.size).Live l ↔ l ∈ st.current.locals ∧ l.captured = true ∧ l.register < shut := by
  have hlocals : (ν st.size).locals = st.current.locals := hc.noted.locals
  unfold Note.Live
  rw [hlocals, hc.shut]

/-- All variables of the scope are in use. -/
theorem Charting.not_done (hc : Charting ν es st.level st) (l : Local) : ¬(ν st.size).Done l := by
  rintro ⟨hl, hle⟩
  have hlocals : (ν st.size).locals = st.current.locals := hc.noted.locals
  rw [hlocals] at hl
  rw [hc.shut] at hle
  exact Nat.not_le_of_lt (hc.noted.register_lt hl) hle

/-! ## Words of expressions -/

/-- The words see the variables of the scope, and go to one another. -/
theorem straight_charting (h : Straight ps st st' t list) (hc : Charting ν es st.level st) :
    ∃ ν', Charting ν' es st'.level st' ∧ st.current.Onward st.level ν st'.current ν' := by
  have hnoted := hc.noted
  have hadds := h.step.keeps.current.toAdds
  have hwords := h.here.words
  have hplain : ∀ m i op, st.size ≤ m → st'.current.proto.chunk.code[m]? = some i →
      i.opcode? = some op → st'.current.PlainWord st.size st'.size m i op := by
    intro m i op hm hi hop
    obtain ⟨op', hop', hplain⟩ := h.step.keeps.current.words m i hm hi
    cases hop.symm.trans hop'
    exact hplain
  have hminds : ∀ m, st.current.proto.chunk.size ≤ m → m < st'.current.proto.chunk.size → ∃ i op,
      st'.current.proto.chunk.code[m]? = some i ∧ i.opcode? = some op ∧
        st'.current.proto.Minds (.full st.current.locals) m i op ∧
        op ≠ .close ∧ op ≠ .forPrepare ∧ op ≠ .iterCall := by
    intro m hm hlt
    obtain ⟨i, op, hi, hop, hw⟩ := hwords m hm hlt
    have hp := hplain m i op hm hi hop
    obtain ⟨hclose, -, hprepare, hloop, hcall, hiterate⟩ := hp.plain
    refine ⟨i, op, hi, hop, ⟨hnoted.registers, fun l hl => Nat.le_trans (hnoted.start_le hl) hm,
      hw.writes, hw.takes, fun hclosure => ?_, nofun, fun hloops => ?_,
      fun hlt => absurd hlt (Nat.lt_irrefl _)⟩, hclose, hprepare, hcall⟩
    · obtain ⟨q, hq, hsources⟩ := hp.closure hclosure
      refine ⟨q, hq, fun u hu hregister => ?_⟩
      obtain ⟨l, hl, hcaptured, heq⟩ := hsources u hu hregister
      exact ⟨l, .inl (hadds.locals ▸ hl), hcaptured, heq⟩
    · rcases hloops with rfl | rfl | rfl | rfl
      · exact absurd rfl hprepare
      · exact absurd rfl hloop
      · exact absurd rfl hcall
      · exact absurd rfl hiterate
  have hgoes : ∀ m t, st.current.proto.chunk.size ≤ m → m < st'.current.proto.chunk.size →
      st'.current.proto.Goes m t → st.current.proto.chunk.size ≤ t ∧
        t ≤ st'.current.proto.chunk.size := by
    rintro m t hm hlt (⟨i, op, hi, hop, ht⟩ | ⟨op, hop, -, -, rfl⟩)
    · have hbound := (hplain m i op hm hi hop).target _ ht
      exact ⟨Int.ofNat_le.mp hbound.1, Int.ofNat_le.mp hbound.2⟩
    · split
      next hlist =>
        have hlast : st'.current.proto.chunk.size ≠ m + 1 := fun heq =>
          h.sound.current.settled.apart m heq (hlist ▸ hop)
        omega
      next => exact ⟨Nat.le_succ_of_le hm, hlt⟩
  have hturns : ∀ m t, st.current.proto.chunk.size ≤ m → m < st'.current.proto.chunk.size →
      st'.current.proto.Turns m t → st'.current.proto.Calm t := by
    rintro m t hm hlt ⟨i, op, hi, hop, ht⟩
    obtain ⟨i', op', hi', hop', hw⟩ := hwords m hm hlt
    cases hi.symm.trans hi'
    cases hop.symm.trans hop'
    exact hw.turns t ht
  obtain ⟨ν', hnoted', hfull', honward⟩ := hnoted.flat hc.shut hadds hminds hgoes hturns
  exact ⟨ν', ⟨h.sound.exists_scope, hnoted', hfull'⟩, honward⟩

theorem straight_charted (h : Straight ps st st' t none) (hc : Charted ν es st.level st) :
    ∃ ν', Charted ν' es st'.level st' ∧ st.current.Onward st.level ν st'.current ν' := by
  obtain ⟨ν', hc', honward⟩ := straight_charting h hc.toCharting
  refine ⟨ν', ⟨hc', ?_⟩, honward⟩
  rcases Nat.lt_or_eq_of_le h.step.grows.size with hlt | heq
  · exact h.here.ending hlt
  · change st'.current.proto.Calm st'.current.proto.chunk.size
    rw [← heq]
    exact honward.retains.calm (Nat.le_refl _) hc.calm

/-! ## Single words -/

/-- One more word with the note that is there. Where it goes is to be said; behind it the variables
from register `level` on are no longer in use. -/
theorem emit_charted (h : emit i st = .ok n st') (hc : Charting ν es shut st)
    (hop : i.opcode? = some op) (hlevel : level ≤ st.level)
    (hminds : st'.current.proto.Minds (ν st.size) st.size i op)
    (hclose : op = .close → level ≤ i.a) (hopens : op.opens? i.a i.c = none) :
    n = st.size ∧ st'.size = st.size + 1 ∧ st'.current.locals = st.current.locals ∧
      st'.current.blocks = st.current.blocks ∧
      st'.current.proto.chunk.code[st.size]? = some i ∧
      ∃ ν', Charted ν' (st.size :: es) level st' ∧ ν' st.size = ν st.size ∧
        st.current.Onward st.level ν st'.current ν' := by
  obtain ⟨rfl, rfl⟩ := emit_ok h
  have hcurrent : (st.mapCurrent fun s => s.written i st.line).current =
      st.current.written i st.line := current_written hc.alive
  have hsize : (st.mapCurrent fun s => s.written i st.line).size = st.size + 1 := by
    unfold State.size
    rw [hcurrent]
    exact FunctionScope.size_written
  have hi : (st.current.written i st.line).proto.chunk.code[st.size]? = some i :=
    FunctionScope.code_written_size
  rw [hcurrent] at hminds
  let behind : Note := ⟨st.current.locals, none, level⟩
  have hbehind : behind.locals = st.current.locals ∧ behind.own = none := ⟨rfl, rfl⟩
  obtain ⟨ν', hnoted, hhere, hnext, honward⟩ := hc.noted.word hop
    ⟨hc.noted.locals, hc.noted.own⟩ hbehind hlevel hminds (fun l hl => .inl hl)
    (fun l hl => hl) (Nat.le_refl _) (by
      rintro l ⟨j, hj, hopcode, hle⟩ - ⟨-, -, hlt⟩
      cases hi.symm.trans hj
      have hge := hclose (Option.some.inj (hop.symm.trans hopcode))
      have hlt' : l.register < level := hlt
      omega)
  refine ⟨rfl, hsize, by rw [hcurrent]; rfl, by rw [hcurrent]; rfl, hcurrent ▸ hi, ν',
    ⟨⟨State.scopes_mapCurrent_ne hc.alive, hcurrent ▸ hnoted, ?_⟩, ?_⟩, hhere, hcurrent ▸ honward⟩
  · rw [hsize]
    exact congrArg Note.shut hnext
  · rw [hsize, hcurrent]
    exact calm_of_word hi hop hopens

/-- A word that writes no register and makes no closure. -/
theorem Charting.minds (hc : Charting ν es shut st) {p : Prototype}
    (hwrites : ∀ a, op.lowest? a = none)
    (htakes : ∀ s, op.takes? i.a i.b = some s → p.Opened s 0 st.size) (hclosure : op ≠ .closure)
    (hloops : op = .forPrepare ∨ op = .forLoop ∨ op = .iterCall ∨ op = .iterLoop →
      i.a + 3 = st.level ∧ (Note.full st.current.locals).Hides i.a)
    (hshut : shut < st.level → op = .jump ∨ op = .close ∨ op = .ret ∧ i.b = 1) :
    p.Minds (ν st.size) st.size i op := by
  have hlocals : (ν st.size).locals = st.current.locals := hc.noted.locals
  refine ⟨fun k l hl => ?_, fun l hl => ?_, fun r hr => ?_, htakes, fun h => absurd h hclosure,
    fun l hl => ?_, fun h => ?_, fun h => ?_⟩
  · rw [hlocals] at hl
    exact hc.noted.registers k l hl
  · rw [hlocals] at hl
    exact hc.noted.start_le hl
  · rw [hwrites] at hr
    cases hr
  · cases hc.noted.own.symm.trans hl
  · unfold Note.Hides
    rw [hlocals]
    exact hloops h
  · rw [hlocals, hc.shut] at h
    exact hshut h

/-- It is known where the word goes. -/
theorem Charted.settle (hc : Charted ν (n :: es) shut st)
    (h : st.current.proto.Settled ν (st.current.Free es) n) : Charted ν es shut st :=
  ⟨⟨hc.alive, hc.noted.settle h, hc.shut⟩, hc.calm⟩

/-- A jump that waits for its target. -/
theorem emitJump_charted (h : emitJump st = .ok n st') (hc : Charted ν es shut st) :
    n = st.size ∧ st'.size = st.size + 1 ∧ st'.current.locals = st.current.locals ∧
      st'.current.blocks = st.current.blocks ∧ st'.current.proto.opcodeAt? n = some .jump ∧
      ∃ ν', Charted ν' (n :: es) st'.level st' ∧ ν' n = ν n ∧
        st.current.Onward st.level ν st'.current ν' := by
  have hop : (Instruction.ofSignedAx .jump 0).opcode? = some .jump :=
    Instruction.opcode?_ofSignedAx _ _
  obtain ⟨rfl, hsize, hlocals, hblocks, hi, ν', hc', hhere, honward⟩ :=
    emit_charted h hc.toCharting hop (Nat.le_refl st.level)
      (hc.minds (fun _ => rfl) nofun (by simp) (by simp) fun _ => .inl rfl) nofun rfl
  have hlevel : st'.level = st.level := congrArg Array.size hlocals
  exact ⟨rfl, hsize, hlocals, hblocks, opcodeAt?_eq_some_iff.mpr ⟨_, hi, hop⟩, ν', hlevel ▸ hc',
    hhere, honward⟩

/-- Captured variables are closed. -/
theorem closeFrom_charted (h : closeFrom level st = .ok u st') (hc : Charted ν es shut st)
    (hlevel : level ≤ st.level) (hshut : level ≤ shut) (hlt : level < 256) :
    st'.size = st.size + 1 ∧ st'.current.locals = st.current.locals ∧
      st'.current.blocks = st.current.blocks ∧ ∃ ν', Charted ν' es level st' ∧
        ν' st.size = ν st.size ∧ (∀ r, level ≤ r → st'.current.proto.ClosesAt st.size r) ∧
        st.current.Onward st.level ν st'.current ν' := by
  obtain ⟨n, h⟩ := emitAbc_ok h
  have hop : (Instruction.abc .close level 0 0).opcode? = some .close := Instruction.opcode?_abc _
  have ha : (Instruction.abc .close level 0 0).a = level := Instruction.a_abc _ hlt
  obtain ⟨rfl, hsize, hlocals, hblocks, hi, ν', hc', hhere, honward⟩ :=
    emit_charted h hc.toCharting hop hlevel
      (hc.minds (fun _ => rfl) nofun (by simp) (by simp) fun _ => .inr (.inl rfl))
      (fun _ => Nat.le_of_eq ha.symm) rfl
  have hcloses : ∀ r, level ≤ r → st'.current.proto.ClosesAt st.size r :=
    fun r hr => ⟨_, hi, hop, Nat.le_trans (Nat.le_of_eq ha) hr⟩
  have hnext : ∀ t, st'.current.proto.Goes st.size t → t = st'.size := by
    rintro t (⟨j, op, hj, hop', ht⟩ | ⟨op, hop', -, -, rfl⟩)
    · cases hi.symm.trans hj
      cases hop.symm.trans hop'
      cases ht
    · cases hop'.symm.trans (opcodeAt?_eq_some_iff.mpr ⟨_, hi, hop⟩)
      exact hsize.symm
  refine ⟨hsize, hlocals, hblocks, ν', hc'.settle (settled_word hi hop (by simp) nofun
    (fun _ _ l hl hopen => ?_) (fun t l hgoes hquits hl => .inl ⟨hl, ?_⟩) nofun nofun), hhere, hcloses,
    honward⟩
  · have hlt : l.register < level := Nat.lt_of_not_le fun hge => hopen (hcloses _ hge)
    rw [hhere] at hl
    rw [← hsize]
    refine .inr ⟨rfl, hc'.live_iff.mpr ⟨?_, hl.2.1, hlt⟩⟩
    rw [hlocals]
    exact (hc.live_iff.mp hl).1
  · obtain rfl := hnext t hgoes
    rw [hc'.shut]
    rcases hquits with hdone | ⟨-, j, hj, -, hle⟩
    · rw [hhere] at hdone
      exact Nat.le_trans hshut (hc.shut ▸ hdone.2)
    · cases hi.symm.trans hj
      exact ha ▸ hle

/-- What may come to the position of the next word still may, and captured variables of registers
that are closed there as well. -/
theorem closeIf_charted {captured : Bool} (h : closeIf captured level st = .ok u st')
    (hc : Charted ν es shut st) (hlevel : level ≤ st.level) (hshut : level ≤ shut) (hlt : level < 256) :
    st.size ≤ st'.size ∧ st'.current.locals = st.current.locals ∧
      st'.current.blocks = st.current.blocks ∧
      ∃ ν', Charted ν' es (if captured then level else shut) st' ∧
        st.current.Onward st.level ν st'.current ν' ∧
        ∀ l, (ν st.size).Live l ∨ captured = true ∧ l.captured = true ∧ level ≤ l.register →
          st'.current.proto.Admits ν' st.size l := by
  unfold closeIf at h
  cases captured with
  | true =>
    obtain ⟨hsize, hlocals, hblocks, ν', hc', hhere, hcloses, honward⟩ :=
      closeFrom_charted h hc hlevel hshut hlt
    refine ⟨by omega, hlocals, hblocks, ν', hc', honward, fun l hl => ?_⟩
    rcases hl with hl | ⟨-, hcaptured, hle⟩
    · exact honward.enters l hl
    · have hword : st.size < st'.size := by omega
      exact .inl ⟨hword, .inr ⟨hcaptured, hcloses _ hle⟩⟩
  | false =>
    simp only [Bool.false_eq_true, if_false, pure_ok] at h
    obtain ⟨-, rfl⟩ := h
    have honward := FunctionScope.Onward.refl hc.noted st'.level
    exact ⟨Nat.le_refl _, rfl, rfl, ν, hc, honward,
      fun l hl => honward.enters l (hl.resolve_right (by simp))⟩

/-- Only which words are free is of interest. -/
theorem Charted.congr {es' : List Nat} (hc : Charted ν es shut st) (h : ∀ m, m ∈ es ↔ m ∈ es') :
    Charted ν es' shut st := by
  have hfree : st.current.Free es = st.current.Free es' := by
    funext m
    simp only [FunctionScope.Free, h]
  exact ⟨⟨hc.alive, ⟨hfree ▸ hc.noted.code, hc.noted.locals, hc.noted.own, hc.noted.shut,
    hc.noted.registers, hc.noted.layered, hc.noted.recorded⟩, hc.shut⟩, hc.calm⟩

/-- A test and the jump behind it, which waits for its target. -/
theorem emitTest_charted {value : Nat} (htest : emitAbc .test r value 0 st = .ok u st₁)
    (hjump : emitJump st₁ = .ok n st') (hc : Charted ν es st.level st) :
    st.size ≤ n ∧ st'.current.locals = st.current.locals ∧
      st'.current.blocks = st.current.blocks ∧ st'.current.proto.opcodeAt? n = some .jump ∧
      ∃ ν', Charted ν' (n :: es) st'.level st' ∧
        (∀ l, (ν' n).Live l → l ∈ st.current.locals ∧ l.captured = true) ∧ (∀ l, ¬(ν' n).Done l) ∧
        st.current.Onward st.level ν st'.current ν' := by
  obtain ⟨m, htest⟩ := emitAbc_ok htest
  have hop : (Instruction.abc .test r value 0).opcode? = some .test := Instruction.opcode?_abc _
  obtain ⟨rfl, hsize₁, hlocals₁, hblocks₁, hi, ν₁, hc₁, hhere, honward₁⟩ :=
    emit_charted htest hc.toCharting hop (Nat.le_refl st.level)
      (hc.minds (fun _ => rfl) nofun (by simp) (by simp) fun h => absurd h (Nat.lt_irrefl _)) nofun rfl
  obtain ⟨rfl, hsize, hlocals, hblocks, hjump', ν', hc', hhere', honward⟩ :=
    emitJump_charted hjump hc₁
  have hlevel₁ : st₁.level = st.level := congrArg Array.size hlocals₁
  have hlevel : st'.level = st.level := (congrArg Array.size hlocals).trans hlevel₁
  have hword : st'.current.proto.chunk.code[st.size]? = some (.abc .test r value 0) :=
    honward.retains.word hi hop rfl
  have hlt : st.size < st₁.size := by omega
  have hnote : ν' st.size = ν st.size := (honward.notes _ hlt).trans hhere
  have hbetween : ∀ l, (ν' st₁.size).Live l ↔ (ν st.size).Live l := by
    intro l
    rw [hhere', hc₁.live_iff, hc.live_iff, hlocals₁]
  have hbehind : ∀ l, (ν' st'.size).Live l ↔ (ν st.size).Live l := by
    intro l
    rw [hc'.live_iff, hc.live_iff, hlocals, hlocals₁, hlevel]
  have hsettled : st'.current.proto.Settled ν' (st'.current.Free (st₁.size :: es)) st.size := by
    refine settled_word hword hop (by simp) (fun t ht => ?_) (fun _ _ l hl _ => ?_)
      (leaves_of_busy hword hop (by simp) (hnote ▸ hc.not_done)) nofun nofun
    · simp only [Instruction.targets, List.mem_singleton] at ht
      obtain rfl : t = st'.size := by omega
      exact ⟨Nat.le_refl _, hc'.calm, fun l hl => .inr ⟨rfl, (hbehind l).mpr (hnote ▸ hl)⟩⟩
    · have hlt' : st₁.size < st'.size := by omega
      rw [← hsize₁]
      exact .inl ⟨hlt', .inl ((hbetween l).mpr (hnote ▸ hl))⟩
  have hswapped : Charted ν' (st.size :: st₁.size :: es) st'.level st' := hc'.congr fun m => by
    simp only [List.mem_cons, or_left_comm]
  refine ⟨by omega, hlocals.trans hlocals₁, hblocks.trans hblocks₁, hjump', ν',
    hswapped.settle hsettled, fun l hl => ?_, hhere' ▸ (hlevel₁ ▸ hc₁ : Charted _ _ st₁.level _).not_done,
    honward₁.trans honward hc₁.noted (Nat.le_of_eq hlevel₁.symm)⟩
  have hl' := hc.live_iff.mp ((hbetween l).mp hl)
  exact ⟨hl'.1, hl'.2.1⟩

/-! ## Targets that are filled in -/

/-- A target that is filled in changes one word. -/
theorem patchWithin_charted {limit : Nat} {f : Instruction → Int → Instruction}
    (h : patchWithin limit n t f st = .ok u st') (hc : Charted ν es shut st)
    (hn : st.current.Free es n) (hi : st.current.proto.chunk.code[n]? = some i)
    (hop : i.opcode? = some op) (hlink : op.isLink = true)
    (hf : ∀ d, (f i d).opcode? = i.opcode? ∧ (op ≠ .jump → (f i d).a = i.a)) :
    (distance n t).natAbs ≤ limit ∧
      st'.current.proto.chunk.code[n]? = some (f i (distance n t)) ∧
      (∀ m, m ≠ n → st'.current.proto.chunk.code[m]? = st.current.proto.chunk.code[m]?) ∧
      st'.size = st.size ∧ st'.current.locals = st.current.locals ∧
      st'.current.blocks = st.current.blocks ∧ Charted ν es shut st' ∧
      st.current.Onward st.level ν st'.current ν := by
  obtain ⟨hd, rfl⟩ := patchWithin_ok h
  have hcurrent : (st.mapCurrent fun s => s.patched n fun i => f i (distance n t)).current =
      st.current.patched n fun i => f i (distance n t) := State.current_mapCurrent hc.alive
  obtain ⟨hnoted, ho⟩ := hc.noted.repatched (f := fun i => f i (distance n t)) hn hi hop hlink (hf _)
  have hsize : (st.current.patched n fun i => f i (distance n t)).proto.chunk.size = st.size :=
    FunctionScope.size_patched
  refine ⟨hd, hcurrent ▸ FunctionScope.code_patched hi,
    fun m hm => hcurrent ▸ FunctionScope.code_patched_ne hm,
    by unfold State.size; rw [hcurrent]; exact hsize, by rw [hcurrent]; rfl,
    by rw [hcurrent]; rfl, ⟨⟨State.scopes_mapCurrent_ne hc.alive, hcurrent ▸ hnoted, ?_⟩, ?_⟩,
    hcurrent ▸ ho, fun m hm hle r l _ hl => ?_⟩
  · unfold State.size
    rw [hcurrent, hsize]
    exact hc.shut
  · unfold State.size
    rw [hcurrent, hsize]
    exact ho.retains.calm (Nat.le_refl _) hc.calm
  · rw [hcurrent, hsize] at hle
    obtain rfl : m = st.size := Nat.le_antisymm hle hm
    exact hc.noted.locals ▸ hl

theorem patchJump_charted (h : patchJump n t st = .ok u st') (hc : Charted ν (n :: es) shut st)
    (hop : st.current.proto.opcodeAt? n = some .jump) (ht : t ≤ st.size)
    (hcalm : st.current.proto.Calm t)
    (hadmits : ∀ l, (ν n).Live l → st.current.proto.Admits ν t l)
    (hdone : ∀ l, (ν n).Done l → l ∈ (ν t).locals → (ν t).Done l ∨ l.start = t) :
    st'.size = st.size ∧ st'.current.locals = st.current.locals ∧
      st'.current.blocks = st.current.blocks ∧ Charted ν es shut st' ∧
      st.current.Onward st.level ν st'.current ν ∧ st'.current.proto.HasJump n t := by
  obtain ⟨i, hi, hjump⟩ := opcodeAt?_eq_some_iff.mp hop
  obtain ⟨hd, hword, -, hsize, hlocals, hblocks, hc', honward⟩ :=
    patchWithin_charted h hc (.inl List.mem_cons_self) hi hjump rfl
      fun _ => ⟨Instruction.opcode?_withSignedAx i, fun hne => absurd rfl hne⟩
  have hjumps : st'.current.proto.HasJump n t := by
    refine ⟨_, hword, (Instruction.opcode?_withSignedAx i).trans hjump, ?_⟩
    rw [Instruction.signedAx_withSignedAx i hd, distance]
    omega
  refine ⟨hsize, hlocals, hblocks, hc'.settle (settled_jump hjumps ?_ ?_ (fun l hl => ?_) hdone),
    honward, hjumps⟩
  · exact Nat.le_trans ht honward.retains.size
  · exact honward.retains.calm ht hcalm
  · exact honward.admits (hadmits l hl)

/-- The jumps go on at the next word. -/
theorem patchHere_charted (h : patchJumpHere n st = .ok u st') (hc : Charted ν (n :: es) shut st)
    (hop : st.current.proto.opcodeAt? n = some .jump)
    (hlive : ∀ l, (ν n).Live l → l ∈ st.current.locals ∧ l.register < shut)
    (hdone : ∀ l, (ν n).Done l → l ∉ st.current.locals) :
    st'.size = st.size ∧ st'.current.locals = st.current.locals ∧
      st'.current.blocks = st.current.blocks ∧ Charted ν es shut st' ∧
      st.current.Onward st.level ν st'.current ν ∧ st'.current.proto.HasJump n st.size :=
  patchJump_charted (patchJumpHere_ok h) hc hop (Nat.le_refl _) hc.calm
    (fun l hl => .inr ⟨rfl, hc.live_iff.mpr ⟨(hlive l hl).1, hl.2.1, (hlive l hl).2⟩⟩)
    fun l hl hmem => absurd (hc.noted.locals ▸ hmem) (hdone l hl)

/-- The induction is on the jumps that are left. -/
theorem patchAllHere_charted {ns : List Nat} (h : ns.forM patchJumpHere st = .ok u st')
    (hc : Charted ν (ns ++ es) shut st)
    (hns : ∀ n ∈ ns, st.current.proto.opcodeAt? n = some .jump ∧
      (∀ l, (ν n).Live l → l ∈ st.current.locals ∧ l.register < shut) ∧
      ∀ l, (ν n).Done l → l ∉ st.current.locals) :
    st'.size = st.size ∧ st'.current.locals = st.current.locals ∧
      st'.current.blocks = st.current.blocks ∧ Charted ν es shut st' ∧
      st.current.Onward st.level ν st'.current ν := by
  induction ns generalizing st with
  | nil =>
    simp only [List.forM_eq_forM, List.forM_nil, pure_ok] at h
    obtain ⟨-, rfl⟩ := h
    exact ⟨rfl, rfl, rfl, hc, .refl hc.noted _⟩
  | cons n ns ih =>
    obtain ⟨st₁, hpatch, h⟩ := forM_ok h
    obtain ⟨⟨hop, hlive, hdone⟩, hns⟩ := List.forall_mem_cons.mp hns
    obtain ⟨hsize₁, hlocals₁, hblocks₁, hc₁, honward₁, -⟩ :=
      patchHere_charted hpatch hc hop hlive hdone
    obtain ⟨hsize, hlocals, hblocks, hc', honward⟩ := ih h hc₁ fun n hn =>
      ⟨honward₁.retains.opcodeAt? (hns n hn).1, hlocals₁.symm ▸ (hns n hn).2⟩
    have hlevel : st.level ≤ st₁.level := Nat.le_of_eq (congrArg Array.size hlocals₁).symm
    exact ⟨hsize.trans hsize₁, hlocals.trans hlocals₁, hblocks.trans hblocks₁, hc',
      honward₁.trans honward hc₁.noted hlevel⟩

theorem jumpBack_charted (h : jumpBack t st = .ok u st') (hc : Charted ν es shut st)
    (ht : t ≤ st.size) (hcalm : st.current.proto.Calm t)
    (hadmits : ∀ l, (ν st.size).Live l → st.current.proto.Admits ν t l)
    (hdone : ∀ l, (ν st.size).Done l → l ∈ (ν t).locals → (ν t).Done l ∨ l.start = t) :
    st'.size = st.size + 1 ∧ st'.current.locals = st.current.locals ∧
      st'.current.blocks = st.current.blocks ∧ ∃ ν', Charted ν' es st'.level st' ∧
        st.current.Onward st.level ν st'.current ν' := by
  simp only [jumpBack, bind_ok] at h
  obtain ⟨n, st₁, hjump, h⟩ := h
  obtain ⟨rfl, hsize₁, hlocals₁, hblocks₁, hop, ν', hc₁, hhere, honward₁⟩ :=
    emitJump_charted hjump hc
  obtain ⟨hsize, hlocals, hblocks, hc', honward, -⟩ := patchJump_charted h hc₁ hop (by omega)
    (honward₁.retains.calm ht hcalm) (fun l hl => honward₁.admits (hadmits l (hhere ▸ hl)))
    fun l hl => honward₁.done ht (hdone l (hhere ▸ hl))
  have hlevel : st'.level = st₁.level := congrArg Array.size hlocals
  have hlevel₁ : st.level ≤ st₁.level := Nat.le_of_eq (congrArg Array.size hlocals₁).symm
  exact ⟨hsize.trans hsize₁, hlocals.trans hlocals₁, hblocks.trans hblocks₁, ν', hlevel ▸ hc',
    honward₁.trans honward hc₁.noted hlevel₁⟩

/-- Leaving the function, with an open list of values if their number is zero. Execution does not go
on behind the word. -/
theorem emitReturn_charted (level : Nat) (h : emitAbc .ret a b 0 st = .ok u st') (hc : Charting ν es shut st)
    (ha : a < 256) (hb : b < 256) (hopen : b = 0 → st.current.proto.Opened a 0 st.size)
    (hshut : shut < st.level → b = 1) (hlevel : level ≤ st.level) :
    st'.size = st.size + 1 ∧ st'.current.locals = st.current.locals ∧
      st'.current.blocks = st.current.blocks ∧ ∃ ν', Charted ν' es level st' ∧
        st.current.Onward st.level ν st'.current ν' := by
  obtain ⟨n, h⟩ := emitAbc_ok h
  have hop : (Instruction.abc .ret a b 0).opcode? = some .ret := Instruction.opcode?_abc _
  have hfield : (Instruction.abc .ret a b 0).b = b := Instruction.b_abc _ hb
  have hopened : ∀ s, Opcode.ret.takes? (Instruction.abc .ret a b 0).a
      (Instruction.abc .ret a b 0).b = some s → st'.current.proto.Opened s 0 st.size := by
    intro s hs
    rw [Instruction.a_abc _ ha, hfield, Opcode.takes?] at hs
    split at hs
    next hzero =>
      cases hs
      obtain ⟨k, s, -, hk, hle, i, op, hi, hop, hopens⟩ := hopen hzero
      have hadds : st.current.Adds st'.current := by
        obtain ⟨-, rfl⟩ := emit_ok h
        rw [current_written hc.alive]
        exact .written _ _ _
      have hword := hadds.code k (lt_size_of_word hi)
      exact ⟨k, s, Nat.zero_le k, hk, hle, i, op, hword.trans hi, hop, hopens⟩
    next => cases hs
  obtain ⟨rfl, hsize, hlocals, hblocks, hi, ν', hc', hhere, honward⟩ :=
    emit_charted h hc hop hlevel
      (hc.minds (fun _ => rfl) hopened (by simp) (by simp) fun hlt =>
        .inr (.inr ⟨rfl, hfield.trans (hshut hlt)⟩)) (fun hclose => by cases hclose) rfl
  have hends : ∀ t, ¬st'.current.proto.Goes st.size t := by
    rintro t (⟨j, op, hj, hop', ht⟩ | ⟨op, hop', -, hret, -⟩)
    · cases hi.symm.trans hj
      cases hop.symm.trans hop'
      cases ht
    · cases hop'.symm.trans (opcodeAt?_eq_some_iff.mpr ⟨_, hi, hop⟩)
      exact hret rfl
  exact ⟨hsize, hlocals, hblocks, ν',
    hc'.settle (settled_word hi hop (by simp) (by simp [Instruction.targets])
      (fun _ hret => absurd rfl hret) (fun t l hgoes => absurd hgoes (hends t))
      (fun hprepare => by cases hprepare) fun hcall => by cases hcall), honward⟩

end Generator
end LuaMachine
