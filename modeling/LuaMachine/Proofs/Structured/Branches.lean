import LuaMachine.Proofs.Structured.Statements
/-! # Branches

Conditions and what they guard. A branch whose condition is always false is left out, and nothing
follows one whose condition is always true; all others jump over what follows.

* `Structured.test_tries`: a condition is tested, and the jump behind the test is taken or not.
* `Structured.Chooses`: a part of a chain of branches does what its branches say.
* `Structured.clause_chooses`, `Structured.Chooses.append`: one branch, and branches one after the
  other.
* `Structured.cond_performs`: the whole chain.
-/
set_option autoImplicit false

namespace LuaMachine
namespace Structured

open Generator
open Machine (Spares Sets Shows Leads Tries Fails)

variable {g : Activation} {brk stop n r b t : Nat} {js ps : List Nat} {st st' st₀ st₁ st₂ st₃ : State}
  {s : Store} {m m' : Machine} {u : Unit} {act : Evaluation} {body : Gen Unit}
  {sem : Nat → Store → Ending} {condition : Expr} {line : Nat} {more decided : Bool} {k : Constant}

/-! ## Tests -/

/-- The words of a test with the jump behind it. -/
theorem test_step (hvalue : toAnyRegister condition act st = .ok r st₁)
    (hline : setLine line st₁ = .ok u st₂) (htest : emitAbc .test r b 0 st₂ = .ok u st₃)
    (hjump : emitJump st₃ = .ok n st') (hs : Generator.Sound Prototype.WellFormed ps st)
    (hact : EvaluationSound Prototype.WellFormed act) (hb : b < 256) :
    ∃ t, Step Prototype.WellFormed ps st st' t ∧ st.top ≤ t ∧ n + 1 = st'.size ∧ st.size < n ∧
      st'.current.proto.opcodeAt? n = some .jump := by
  obtain ⟨t, hstep₁, hr, hle⟩ := toAnyRegister_step hvalue hs hact
  have hstep₂ := hstep₁.trans (setLine_step hline hstep₁.sound)
  have htop₁ := hstep₁.top_eq
  have htop₂ := hstep₂.top_eq
  have hregisters := hstep₂.sound.top_le
  obtain ⟨hsound, hkeeps, htop, hn, hop⟩ := emitTest_step htest hjump hstep₂.sound (by omega) hb
  have hsize : st.size ≤ st₂.current.proto.chunk.size := hstep₂.grows.size
  obtain ⟨k, htest'⟩ := emitAbc_ok htest
  have hopen := emit_sound_open htest' hstep₂.sound (by simp [Instruction.opcode?_abc])
  have hsize' : st'.size = n + 1 := (emit_word hjump hopen).2.2
  exact ⟨t, ⟨hsound, hstep₂.keeps.trans hkeeps, by omega⟩, hle, hsize'.symm, by omega, hop⟩

/-- A condition is tested: the machine goes over the jump behind the test, or takes it. -/
theorem test_tries (hvalue : toAnyRegister condition act st = .ok r st₁)
    (hline : setLine line st₁ = .ok u st₂) (htest : emitAbc .test r b 0 st₂ = .ok u st₃)
    (hjump : emitJump st₃ = .ok n st') (hbelongs : Belongs g brk [n] ps st st')
    (hact : Computes act fun s => value s condition) (he : isExpr condition = true) (hb : b < 256)
    (ht : IsJump g.frame n t) (hh : Here g st s m) :
    Tries (value s condition) m fun v m' => Leads 1 m' fun m' =>
      g.At (if v.isTruthy != (b != 0) then st'.size else t) m' ∧
        Holds g.frame st.current.locals s m' ∧ Spares g.frame st.top m m' := by
  obtain ⟨t', hstep₁, hr, hle⟩ := toAnyRegister_step hvalue hbelongs.sound hact.sound
  have hstep₂' := setLine_step hline hstep₁.sound
  have hstep₂ := hstep₁.trans hstep₂'
  have htop₁ := hstep₁.top_eq
  have htop₂ := hstep₂.top_eq
  have hregisters := hstep₂.sound.top_le
  have hmax := hstep₂.sound.registers_le
  obtain ⟨hsound, hkeeps, htop, -, -⟩ := emitTest_step htest hjump hstep₂.sound (by omega) hb
  have hstep₄ : Step Prototype.WellFormed ps st₂ st' t' := ⟨hsound, hkeeps, by omega⟩
  have hsize : st.size ≤ st₁.size := hstep₁.grows.size
  have hsize₂ : st₂.size = st₁.size := setLine_size hline
  obtain ⟨⟨i, hi⟩, hn, hsize₄⟩ := (hbelongs.placed.since hstep₂).test htest hjump hstep₂.sound
    (by omega) hb fun hmem => by
      rw [(hstep₂.trans hstep₄).breaks, List.mem_append, List.mem_singleton] at hmem
      have hlt := fun hmem => breaks_lt (n := st₂.size) hbelongs.sound hmem
      obtain ⟨-, -, -, hn, -⟩ := emitTest_step htest hjump hstep₂.sound (by omega) hb
      have hn' : n = st₂.size + 1 := hn
      rcases hmem with hmem | hmem
      · have hlt' := hlt hmem
        omega
      · omega
  have hc₁ := (hbelongs.upTo (.of_step (hstep₂'.trans hstep₄))).compiles hstep₁.breaks
    (by simp only [List.mem_singleton]; omega)
  refine (toAnyRegister_gives hvalue hc₁ hact he hh).mono fun v m₁ _ hm₁ => ?_
  have hat₂ := (hm₁.here.silent hstep₁.sound hstep₂' (setLine_size hline)).at'
  rw [hn] at ht
  refine Leads.mono (ht.tests hi hat₂) ?_
  rintro m₂ ⟨hat, hstack, hheap⟩
  rw [hm₁.reg, ← hsize₄] at hat
  refine ⟨hat, ?_, hm₁.spares.trans (.of_eq hstack hheap)⟩
  have hholds := hm₁.here.holds
  rw [hstep₁.keeps.current.locals] at hholds
  exact hholds.same hat hstack hheap

theorem jumpIfFalse_spec (h : jumpIfFalse condition act st = .ok n st')
    (hs : Generator.Sound Prototype.WellFormed ps st)
    (hact : EvaluationSound Prototype.WellFormed act) :
    Step Prototype.WellFormed ps st st' st.top ∧ n + 1 = st'.size ∧ st.size < n ∧
      st'.current.proto.opcodeAt? n = some .jump := by
  simp only [jumpIfFalse, bind_ok, free_ok, pure_ok, and_assoc, exists_and_left,
    exists_eq_left] at h
  obtain ⟨r, st₁, hvalue, _, st₂, hline, _, st₃, htest, jump, st₄, hjump, _, st₅, hrelease, rfl,
    rfl⟩ := h
  obtain ⟨t, hstep, -, hn, hlt, hop⟩ := test_step hvalue hline htest hjump hs hact (by omega)
  have hrelease' := (release_step hrelease hstep.sound).1
  have hsize := release_size hrelease hstep.sound
  exact ⟨hstep.trans hrelease', by omega, hlt, hrelease'.grows.opcodeAt? hop⟩

/-- The machine goes on behind the jump if the condition is true. -/
theorem jumpIfFalse_tries (h : jumpIfFalse condition act st = .ok n st')
    (hbelongs : Belongs g brk [n] ps st st') (hact : Computes act fun s => value s condition)
    (he : isExpr condition = true) (ht : IsJump g.frame n t) (hh : Here g st s m) :
    Tries (value s condition) m fun v m' =>
      g.At (if v.isFalsey then t else st'.size) m' ∧ Holds g.frame st.current.locals s m' ∧
        Spares g.frame st.top m m' := by
  simp only [jumpIfFalse, bind_ok, free_ok, pure_ok, and_assoc, exists_and_left,
    exists_eq_left] at h
  obtain ⟨r, st₁, hvalue, _, st₂, hline, _, st₃, htest, jump, st₄, hjump, _, st₅, hrelease, rfl,
    rfl⟩ := h
  obtain ⟨t', hstep, -⟩ :=
    test_step hvalue hline htest hjump hbelongs.sound hact.sound (by omega)
  have hrelease' := (release_step hrelease hstep.sound).1
  refine (test_tries hvalue hline htest hjump (hbelongs.upTo (.of_step hrelease')) hact he (by omega)
    ht hh).andThen fun v m' _ hleads => (hleads.weaken (Nat.zero_le 1)).mono ?_
  rintro m' ⟨hat, hrest⟩
  refine ⟨?_, hrest⟩
  rw [release_size hrelease hstep.sound]
  cases hfalsey : v.isFalsey <;> simpa [Value.isTruthy, hfalsey] using hat

/-! ## Parts of a chain -/

/-- A part of a chain of branches. The result says whether its last condition is always true, so that
nothing follows, and where the jumps over what follows are; `more` says that something may follow.
Whatever holds at the end of the chain and behind the loop around it, the part comes there if what
follows it does. -/
structure Chooses (more : Bool) (sem : Nat → Ending → Store → Ending) (ps : List Nat)
    (r : Bool × List Nat) (st st' : State) : Prop where
  lays : Lays st st'
  locals : st'.current.locals = st.current.locals
  jumps : ∀ n ∈ r.2, st.size ≤ n ∧ n < st'.size ∧ n ∉ st'.breaks
  opcodes : ∀ n ∈ r.2, st'.current.proto.opcodeAt? n = some .jump
  ends : ∀ ⦃g : Activation⦄ ⦃brk stop : Nat⦄ ⦃s : Store⦄ ⦃m : Machine⦄
    ⦃next leave : Store → Machine → Prop⦄ (n : Nat) (otherwise : Ending),
    Belongs g brk r.2 ps st st' → (∀ j ∈ r.2, IsJump g.frame j stop) →
    (r.1 = true ∨ more = false → stop = st'.size) → Here g st s m →
    (∀ s' m', g.At stop m' → Holds g.frame st.current.locals s' m' →
      Hides g.frame st.current.locals m m' → next s' m') →
    (∀ s' m', st.loops ≠ [] → Leaves g brk st m s' m' → leave s' m') →
    (r.1 = false → ∀ m', Here g st' s m' → Hides g.frame st.current.locals m m' →
      Ends g.frame next leave n m' otherwise) →
    Ends g.frame next leave n m (sem n otherwise s)

namespace Chooses

variable {more' : Bool} {sem sem' : Nat → Ending → Store → Ending} {js' : List Nat} {t : Nat}

/-- Nothing follows a condition that is always true, whatever the branches behind it would do. -/
theorem alone (h : Chooses more sem ps (true, js) st st') :
    Chooses more' (fun n otherwise s => sem n (sem' n otherwise s) s) ps (true, js) st st' where
  lays := h.lays
  locals := h.locals
  jumps := h.jumps
  opcodes := h.opcodes
  ends _ _ _ _ _ _ _ n otherwise hb hjs hstop hh hnext hleave _ :=
    h.ends n _ hb hjs (fun _ => hstop (.inl rfl)) hh hnext hleave fun hfalse => by cases hfalse

/-- A part of which the last condition may be false, and what follows it. -/
theorem append (h : Chooses more sem ps (false, js) st st₁)
    (hmove : Moves Prototype.WellFormed ps st st₁ t st.level)
    (h' : Chooses more' sem' ps (decided, js') st₁ st')
    (hmore : more = false → st₁ = st' ∧ more' = false) :
    Chooses more' (fun n otherwise s => sem n (sem' n otherwise s) s) ps (decided, js ++ js')
      st st' where
  lays := h.lays.trans h'.lays
  locals := h'.locals.trans h.locals
  jumps n hn := by
    have hle := h.lays.size_le
    have hle' := h'.lays.size_le
    rcases List.mem_append.mp hn with hn | hn
    · obtain ⟨hge, hlt, hbreak⟩ := h.jumps n hn
      refine ⟨hge, by omega, fun hmem => ?_⟩
      rcases h'.lays.breaks_cases hmem with hmem | hge'
      · exact hbreak hmem
      · omega
    · obtain ⟨hge, hlt, hbreak⟩ := h'.jumps n hn
      exact ⟨by omega, hlt, hbreak⟩
  opcodes n hn := by
    rcases List.mem_append.mp hn with hn | hn
    · exact h'.lays.grows.opcodeAt? (h.opcodes n hn)
    · exact h'.opcodes n hn
  ends g brk stop s m next leave n otherwise hb hjs hstop hh hnext hleave hno := by
    refine h.ends n _ ((hb.upTo h'.lays).only fun j hj _ hlt => ?_)
      (fun j hj => hjs j (List.mem_append_left _ hj)) (fun hor => ?_) hh hnext hleave
      fun _ m' hh' hhides => ?_
    · refine (List.mem_append.mp hj).resolve_right fun hmem => ?_
      have hge := (h'.jumps j hmem).1
      omega
    · obtain ⟨rfl, hmore'⟩ := hmore (hor.resolve_left Bool.false_ne_true)
      exact hstop (.inr hmore')
    · refine h'.ends n _ ((hb.after hmove).only fun j hj hge _ => ?_)
        (fun j hj => hjs j (List.mem_append_right _ hj)) hstop hh' (fun s' m'' hat hholds hhides' => ?_)
        (fun s' m'' hne hleaves => ?_) fun hdecided m'' hh'' hhides' => ?_
      · refine (List.mem_append.mp hj).resolve_left fun hmem => ?_
        have hlt := (h.jumps j hmem).2.1
        omega
      · rw [h.locals] at hholds hhides'
        exact hnext s' m'' hat hholds (hhides.trans hhides')
      · refine hleave s' m'' (h.lays.loops_ne_nil hne) ⟨hleaves.at', ?_, ?_⟩
        · exact h.locals ▸ hleaves.holds
        · exact hhides.trans (h.locals ▸ hleaves.hides)
      · rw [h.locals] at hhides'
        exact hno hdecided m'' hh'' (hhides.trans hhides')

end Chooses

/-! ## One branch -/

theorem locals_eq_of_moves {Good : Prototype → Prop} {t : Nat}
    (h : Moves Good ps st st' t st.level) : st'.current.locals = st.current.locals := by
  obtain ⟨more, hmore⟩ := h.extends'.current.locals
  have hlevel : st'.current.locals.size = st.current.locals.size := h.level_eq
  rw [hmore, Array.size_append] at hlevel
  rw [hmore, Array.eq_empty_of_size_eq_zero (by omega : more.size = 0), Array.append_empty]

theorem jumpOver_lays {ns : List Nat} (h : jumpOver more st = .ok ns st')
    (hs : Generator.Sound Prototype.WellFormed ps st) :
    st.current.Adds st'.current ∧
      (more = true ∧ ns = [st.size] ∧ st'.size = st.size + 1 ∨ more = false ∧ ns = [] ∧ st' = st) := by
  unfold jumpOver at h
  split at h
  next hmore =>
    simp only [bind_ok, pure_ok] at h
    obtain ⟨n, st₁, hjump, rfl, rfl⟩ := h
    obtain ⟨rfl, -, hsize⟩ := emit_word hjump hs
    exact ⟨emit_adds hjump hs, .inl ⟨hmore, rfl, hsize⟩⟩
  next hmore =>
    simp only [pure_ok] at h
    obtain ⟨rfl, rfl⟩ := h
    exact ⟨(FunctionScope.Keeps.refl _).toAdds, .inr ⟨by simpa using hmore, rfl, rfl⟩⟩

/-- A branch whose condition is tested, with the jump over what follows it. -/
theorem testedClause_chooses {skip : Nat} {u₁ u₂ : Unit}
    (hskip : jumpIfFalse condition act st = .ok skip st₁) (hinner : body st₁ = .ok u₁ st₂)
    (hover : jumpOver more st₂ = .ok js st₃) (hpatch : patchJumpHere skip st₃ = .ok u₂ st')
    (hs : Generator.Sound Prototype.WellFormed ps st) (htop : st.top = st.level)
    (hact : Computes act fun s => value s condition) (he : isExpr condition = true)
    (hbody : Performs body sem) (henclosed : EnclosedSound Prototype.WellFormed body) :
    Chooses more (fun n otherwise s => choose s condition (sem n s) otherwise) ps (false, js)
      st st' := by
  obtain ⟨hstep₁, hskip', hlt, hop⟩ := jumpIfFalse_spec hskip hs hact.sound
  have htop₁ := hstep₁.top_eq
  have hlevel₁ := hstep₁.level
  have hinner' := henclosed _ _ _ _ hstep₁.sound (by omega) hinner
  have hlocals₂ := locals_eq_of_moves hinner'
  obtain ⟨hlays₂, hends⟩ := hbody.spec hstep₁.sound (by omega) hinner
  obtain ⟨hover', hops⟩ := jumpOver_moves hover hinner'.sound
  obtain ⟨hadds, hcases⟩ := jumpOver_lays hover hinner'.sound
  have hop₃ := (hinner'.trans hover').grows.opcodeAt? hop
  have hpatched := patchWithin_patches (patchJumpHere_ok hpatch) hover'.sound
  have hjumps := patchJump_jumpsTo (patchJumpHere_ok hpatch) hover'.sound hop₃
  have hpatch' := patchJumpHere_moves hpatch hover'.sound hop₃
  have hsize : st'.size = st₃.size := hpatched.size
  have hlays₁ : Lays st st₁ := .of_step hstep₁
  have hlays₃ : Lays st₂ st₃ := .of_adds hadds
  have hle₂ := hlays₂.size_le
  have hover₃ : ∀ j ∈ js, j = st₂.size ∧ st₃.size = st₂.size + 1 := by
    rintro j hj
    rcases hcases with ⟨-, rfl, hsize₃⟩ | ⟨-, rfl, -⟩
    · exact ⟨List.mem_singleton.mp hj, hsize₃⟩
    · cases hj
  have hlocals : st'.current.locals = st.current.locals :=
    ((hpatched.locals.trans hadds.locals).trans hlocals₂).trans hstep₁.keeps.current.locals
  refine ⟨hpatched.lays (hlays₁.trans (hlays₂.trans hlays₃)) hpatch'.grows
    (by simp only [List.mem_singleton, forall_eq]; omega), hlocals, fun j hj => ?_,
    fun j hj => hpatch'.grows.opcodeAt? (hops j hj), ?_⟩
  · obtain ⟨rfl, hsize₃⟩ := hover₃ j hj
    refine ⟨by omega, by omega, fun hmem => ?_⟩
    rw [hpatched.breaks, breaks_of_adds hadds] at hmem
    exact Nat.lt_irrefl _ (breaks_lt hinner'.sound hmem)
  · intro g brk stop s m next leave n otherwise hb hjs hstop hh hnext hleave hno
    have hb₃ := hb.unpatched hpatched
    have hjump : IsJump g.frame skip st'.size := by
      rw [hsize]
      refine hb.jump (by omega) ?_ (fun hmem => ?_) hjumps
      · rw [hpatched.breaks]
        exact (hlays₂.trans hlays₃).not_mem_breaks hs hstep₁.breaks (by omega) (by omega)
      · have hover := (hover₃ skip hmem).1
        omega
    have hb₁ : Belongs g brk [skip] ps st st₁ :=
      (hb₃.upTo (hlays₂.trans hlays₃)).only fun j hj _ hlt' => by
        refine (List.mem_append.mp hj).resolve_right fun hmem => ?_
        have hover := (hover₃ j hmem).1
        omega
    have hb₂ : Belongs g brk [] ps st₁ st₂ :=
      ((hb₃.after hstep₁.moves).upTo hlays₃).only fun j hj hge hlt' => by
        rcases List.mem_append.mp hj with hmem | hmem
        · rw [List.mem_singleton] at hmem
          omega
        · have hover := (hover₃ j hmem).1
          omega
    refine .attempt (jumpIfFalse_tries hskip hb₁ hact he hjump hh) ?_
    rintro v m₁ _ ⟨hat, hholds, hspares⟩
    have hhides := Hides.of_spares hs (hspares.weaken (Nat.le_of_eq htop.symm))
    cases hv : v.isFalsey with
    | true =>
      rw [hv, if_pos rfl] at hat
      exact hno rfl m₁ ⟨hat, hlocals ▸ hholds⟩ hhides
    | false =>
      rw [hv, if_neg Bool.false_ne_true] at hat
      have hh₁ : Here g st₁ s m₁ := ⟨hat, hstep₁.keeps.current.locals ▸ hholds⟩
      refine ((hends n hb₂ hh₁).of_extends hstep₁.moves.extends'.current.locals
        hlays₁.loops_ne_nil hhides).follow ?_ fun s' m' hleft => hleave s' m' hleft.1 hleft.2
      rintro s' m' ⟨hh', hhides'⟩
      have hholds' := hh'.holds
      rw [hlocals₂, hstep₁.keeps.current.locals] at hholds'
      rcases hcases with ⟨-, rfl, -⟩ | ⟨hmore, rfl, rfl⟩
      · refine Leads.weaken (Leads.mono ((hjs _ List.mem_cons_self).leads hh'.at') ?_)
          (Nat.zero_le 1)
        rintro m'' ⟨hat', hstack, hheap⟩
        exact hnext s' m'' hat' (hholds'.same hat' hstack hheap) (hhides'.trans (.of_stack _ _ hstack))
      · rw [show stop = st₃.size from (hstop (.inr hmore)).trans hsize] at hnext
        exact .here (hnext s' m' hh'.at' hholds' hhides')

/-- A branch is realised as a test unless its condition is a constant. -/
theorem clause_chooses (h : clause condition act body more st = .ok (decided, js) st')
    (hs : Generator.Sound Prototype.WellFormed ps st) (htop : st.top = st.level)
    (hact : Computes act fun s => value s condition) (he : isExpr condition = true)
    (hbody : Performs body sem) (henclosed : EnclosedSound Prototype.WellFormed body) :
    Chooses more (fun n otherwise s => choose s condition (sem n s) otherwise) ps (decided, js)
      st st' := by
  unfold clause at h
  cases hfold : condition.fold with
  | some k =>
    have hvalue : ∀ s, value s condition = some k.value := fun s => value_of_fold hfold
    simp only [hfold] at h
    split at h
    next hfalsey =>
      -- the branch is left out
      have hfalsey' : k.value.isFalsey = true := hfalsey
      simp only [pure_ok, Prod.mk.injEq] at h
      obtain ⟨⟨rfl, rfl⟩, rfl⟩ := h
      refine ⟨.refl _, rfl, by simp, by simp, ?_⟩
      intro g brk stop s m next leave n otherwise hb hjs hstop hh hnext hleave hno
      simp only [choose, hvalue, attempt, hfalsey', if_true]
      exact hno rfl m hh (.refl _ _ _)
    next hfalsey =>
      -- the branch stands alone
      have hfalsey' : k.value.isFalsey = false := eq_false_of_ne_true hfalsey
      simp only [bind_ok, pure_ok, Prod.mk.injEq] at h
      obtain ⟨_, st₁, hinner, ⟨rfl, rfl⟩, rfl⟩ := h
      obtain ⟨hlays, hends⟩ := hbody.spec hs htop hinner
      have hlocals := locals_eq_of_moves (henclosed _ _ _ _ hs htop hinner)
      refine ⟨hlays, hlocals, by simp, by simp, ?_⟩
      intro g brk stop s m next leave n otherwise hb hjs hstop hh hnext hleave hno
      simp only [choose, hvalue, attempt, hfalsey', Bool.false_eq_true, if_false]
      refine (hends n hb hh).mono ?_ fun s' m' hleft => hleave s' m' hleft.1 hleft.2
      rintro s' m' ⟨hh', hhides⟩
      have hstop' := hstop (.inl rfl)
      exact hnext s' m' (hstop' ▸ hh'.at') (hlocals ▸ hh'.holds) hhides
  | none =>
    simp only [hfold, bind_ok, pure_ok, Prod.mk.injEq] at h
    obtain ⟨skip, st₁, hskip, _, st₂, hinner, ns, st₃, hover, _, st₄, hpatch, ⟨rfl, rfl⟩, rfl⟩ := h
    exact testedClause_chooses hskip hinner hover hpatch hs htop hact he hbody henclosed

/-! ## Chains of branches -/

/-- What is shown of further branches. -/
def FurtherChooses (bs : List Branch) : Prop :=
  ∀ ⦃hasElse : Bool⦄ ⦃ps : List Nat⦄ ⦃st st' : State⦄ ⦃r : Bool × List Nat⦄,
    Generator.Sound Prototype.WellFormed ps st → st.top = st.level →
    branches bs hasElse st = .ok r st' →
    Chooses hasElse (fun n otherwise s => execBranches n bs otherwise s) ps r st st'

theorem guard_chooses {ss : List Stmt} (he : isExpr condition = true)
    (hbody : Performs (statements true ss) fun n s => execAll n ss s)
    (h : clause condition (fun t => evaluate condition (.register t))
      (do let _ ← inBlock false (statements true ss)) more st = .ok (decided, js) st')
    (hs : Generator.Sound Prototype.WellFormed ps st) (htop : st.top = st.level) :
    Chooses more (fun n otherwise s => choose s condition ((execAll n ss s).closed s) otherwise) ps
        (decided, js) st st' ∧
      Moves Prototype.WellFormed ps st st' st.level st.level :=
  ⟨clause_chooses h hs htop (expression_computes he) he (enclosed_performs hbody)
      (enclosedSound_inBlock hbody.sound),
    (guardSound more (exprSound closed_wellFormed condition) hbody.sound _ _ _ _ hs htop h).1⟩

theorem further_nil : FurtherChooses [] := by
  intro hasElse ps st st' r hs htop h
  rw [branches, pure_ok] at h
  obtain ⟨rfl, rfl⟩ := h
  refine ⟨.refl _, rfl, by simp, by simp, ?_⟩
  intro g brk stop s m next leave n otherwise hb hjs hstop hh hnext hleave hno
  simp only [execBranches]
  exact hno rfl m hh (.refl _ _ _)

/-- A condition with its block and the branches behind it. -/
theorem chain_chooses {ss : List Stmt} {rest : List Branch} {hasElse last : Bool} {ns : List Nat}
    (he : isExpr condition = true)
    (hbody : Performs (statements true ss) fun n s => execAll n ss s) (hrest : FurtherChooses rest)
    (hclause : clause condition (fun t => evaluate condition (.register t))
      (do let _ ← inBlock false (statements true ss)) (!rest.isEmpty || hasElse) st =
        .ok (decided, js) st₁)
    (h : (if decided = true then pure (true, []) else branches rest hasElse : Gen (Bool × List Nat))
      st₁ = .ok (last, ns) st')
    (hs : Generator.Sound Prototype.WellFormed ps st) (htop : st.top = st.level) :
    Chooses hasElse (fun n otherwise s => choose s condition ((execAll n ss s).closed s)
        (execBranches n rest otherwise s)) ps (last, js ++ ns) st st' ∧
      Moves Prototype.WellFormed ps st st' st.level st.level := by
  obtain ⟨hchooses, hmove⟩ := guard_chooses he hbody hclause hs htop
  have htop₁ := hmove.top_eq
  have hlevel₁ := hmove.level_eq
  cases decided with
  | true =>
    simp only [if_true, pure_ok, Prod.mk.injEq] at h
    obtain ⟨⟨rfl, rfl⟩, rfl⟩ := h
    rw [List.append_nil]
    exact ⟨hchooses.alone, hmove⟩
  | false =>
    have h : branches rest hasElse st₁ = .ok (last, ns) st' := h
    have hmove' := (branchesSound closed_wellFormed _ rest _ _ _ _ hmove.sound (by omega) h).1
    refine ⟨hchooses.append hmove (hrest hmove.sound (by omega) h) fun hmore => ?_,
      (hmove.trans hmove').cast hlevel₁ hlevel₁⟩
    obtain ⟨hempty, helse⟩ := Bool.or_eq_false_iff.mp hmore
    obtain rfl : rest = [] := by simpa using hempty
    rw [branches, pure_ok] at h
    exact ⟨h.2.symm, helse⟩

theorem further_cons {ss : List Stmt} {rest : List Branch} (he : isExpr condition = true)
    (hbody : Performs (statements true ss) fun n s => execAll n ss s)
    (hrest : FurtherChooses rest) : FurtherChooses (.mk condition ss :: rest) := by
  intro hasElse ps st st' r hs htop h
  rw [branches, bind_ok] at h
  obtain ⟨⟨decided, jumps⟩, st₁, hclause, h⟩ := h
  simp only [execBranches]
  cases decided with
  | true =>
    simp only [if_true, pure_ok] at h
    obtain ⟨rfl, rfl⟩ := h
    have hchain := (chain_chooses he hbody hrest hclause (pure_ok.mpr ⟨rfl, rfl⟩) hs htop).1
    rwa [List.append_nil] at hchain
  | false =>
    simp only [Bool.false_eq_true, if_false, bind_ok, pure_ok] at h
    obtain ⟨⟨decided, further⟩, st₂, hfurther, rfl, rfl⟩ := h
    exact (chain_chooses he hbody hrest hclause hfurther hs htop).1

/-- What is done if no condition is true. -/
def lastly (n : Nat) : Option Block → Store → Ending
  | none, s => .next s
  | some ss, s => (execAll n ss s).closed s

theorem exec_cond (n : Nat) (condition : Expr) (ss : Block) (further : List Branch)
    (otherwise : Option Block) (line : Nat) (s : Store) :
    exec n (.cond condition ss further otherwise line) s =
      choose s condition ((execAll n ss s).closed s)
        (execBranches n further (lastly n otherwise s) s) := by
  cases otherwise with
  | none => simp only [exec, lastly]
  | some ss' => simp only [exec, lastly]

/-- What follows a chain is written unless one of its conditions is always true. -/
theorem lastly_concludes {otherwise : Option Block}
    (h : (match otherwise with
      | none => pure ()
      | some ss =>
        if decided = true then pure ()
        else do
          let _ ← inBlock false (statements true ss) : Gen Unit) st = .ok u st')
    (hotherwise : ∀ ss, otherwise = some ss →
      Performs (statements true ss) fun n s => execAll n ss s)
    (hs : Generator.Sound Prototype.WellFormed ps st) (htop : st.top = st.level) :
    Moves Prototype.WellFormed ps st st' st.level st.level ∧ Lays st st' ∧
      (decided = true ∨ otherwise.isSome = false → st' = st) ∧
      (decided = false → ∀ ⦃g : Activation⦄ ⦃brk : Nat⦄ ⦃s : Store⦄ ⦃m : Machine⦄ (n : Nat),
        Belongs g brk [] ps st st' → Here g st s m →
        Concludes g brk st st' n m (lastly n otherwise s)) := by
  cases otherwise with
  | none =>
    obtain ⟨-, rfl⟩ := pure_ok.mp h
    exact ⟨(Moves.refl hs).cast htop rfl, .refl _, fun _ => rfl,
      fun _ g brk s m n _ hh => .here ⟨hh, .refl _ _ _⟩⟩
  | some ss =>
    cases decided with
    | true =>
      obtain ⟨-, rfl⟩ := pure_ok.mp h
      exact ⟨(Moves.refl hs).cast htop rfl, .refl _, fun _ => rfl, fun hfalse => by cases hfalse⟩
    | false =>
      have hinner := hotherwise ss rfl
      obtain ⟨hlays, hspec⟩ := (enclosed_performs hinner).spec hs htop h
      exact ⟨enclosedSound_inBlock hinner.sound _ _ _ _ hs htop h, hlays, fun hor => by simp at hor,
        fun _ => hspec⟩

theorem cond_performs {ss : List Stmt} {further : List Branch} {otherwise : Option Block}
    (he : isExpr condition = true)
    (hbody : Performs (statements true ss) fun n s => execAll n ss s)
    (hfurther : FurtherChooses further)
    (hotherwise : ∀ ss', otherwise = some ss' →
      Performs (statements true ss') fun n s => execAll n ss' s) (line : Nat) :
    Performs (statement (.cond condition ss further otherwise line))
      fun n s => exec n (.cond condition ss further otherwise line) s := by
  refine ⟨bodySound closed_wellFormed _, fun ps st st' u hs htop h => ?_⟩
  simp only [exec_cond]
  rw [statement] at h
  simp only [bind_ok] at h
  obtain ⟨_, st₁, hline, ⟨decided, jumps⟩, st₂, hclause, ⟨decided', jumps'⟩, st₃, hrest, _, st₄,
    helse, h⟩ := h
  have hstep₁ := setLine_step hline hs
  have htop₁ := hstep₁.top_eq
  have hlevel₁ := hstep₁.level
  obtain ⟨hchooses, hmove₃⟩ := chain_chooses he hbody hfurther hclause hrest hstep₁.sound (by omega)
  have htop₃ := hmove₃.top_eq
  have hlevel₃ := hmove₃.level_eq
  obtain ⟨hmove₄, hlays₄, hskipped, hlast⟩ :=
    lastly_concludes helse hotherwise hmove₃.sound (by omega)
  have hlocals₄ := locals_eq_of_moves hmove₄
  -- all jumps over what follows go to the end
  have hops : ∀ j ∈ jumps ++ jumps', st₄.current.proto.opcodeAt? j = some .jump := fun j hj =>
    hmove₄.grows.opcodeAt? (hchooses.opcodes j hj)
  have hpatch := patchAllHere_moves h hmove₄.sound hops
  obtain ⟨hpatched, hjumps⟩ := patchAllHere_patches h hmove₄.sound hops
  have hsize : st'.size = st₄.size := hpatched.size
  have hlays₁ : Lays st st₁ := .of_step hstep₁
  have hlays := hchooses.lays.trans hlays₄
  have hle₁ := hlays₁.size_le
  have hle₄ := hlays₄.size_le
  have hlocals : st'.current.locals = st.current.locals := (hpatched.locals.trans
    (hlocals₄.trans hchooses.locals)).trans hstep₁.keeps.current.locals
  refine ⟨hlays₁.trans (hpatched.lays hlays hpatch.grows fun j hj => (hchooses.jumps j hj).1),
    fun g brk s m n hb hh => ?_⟩
  have hb₁ := (hb.after hstep₁.moves).unpatched hpatched
  rw [List.append_nil] at hb₁
  have hjump : ∀ j ∈ jumps ++ jumps', IsJump g.frame j st'.size := fun j hj => by
    obtain ⟨hge, hlt, hbreak⟩ := hchooses.jumps j hj
    refine hb.jump (by omega) (fun hmem => ?_) List.not_mem_nil (hjumps j hj)
    rw [hpatched.breaks] at hmem
    rcases hlays₄.breaks_cases hmem with hmem | hge'
    · exact hbreak hmem
    · omega
  have hh₁ := hh.silent hs hstep₁ (setLine_size hline)
  have hlocals₁ := hstep₁.keeps.current.locals
  refine hchooses.ends n _ (hb₁.upTo hlays₄) hjump
    (fun hor => by rw [hsize, hskipped hor]) hh₁ (fun s' m' hat hholds hhides => ?_)
    (fun s' m' hne hleaves => ?_) fun hdecided m' hh' hhides => ?_
  · exact ⟨⟨hat, hlocals ▸ hlocals₁ ▸ hholds⟩, hlocals₁ ▸ hhides⟩
  · exact ⟨hlays₁.loops_ne_nil hne, hleaves.at', hlocals₁ ▸ hleaves.holds, hlocals₁ ▸ hleaves.hides⟩
  · have hb₄ : Belongs g brk [] ps st₃ st₄ := (hb₁.after hmove₃).only fun j hj hge hlt => by
      have hlt' := (hchooses.jumps j hj).2.1
      omega
    refine (hlast hdecided n hb₄ hh').follow ?_ ?_
    · rintro s' m'' ⟨hh'', hhides'⟩
      rw [hchooses.locals, hlocals₁] at hhides'
      exact .here ⟨⟨hsize ▸ hh''.at', hpatched.locals ▸ hh''.holds⟩,
        (hlocals₁ ▸ hhides).trans hhides'⟩
    · rintro s' m'' ⟨hne, hleaves⟩
      have hholds := hleaves.holds
      have hhides' := hleaves.hides
      rw [hchooses.locals, hlocals₁] at hholds hhides'
      exact ⟨hlays₁.loops_ne_nil (hchooses.lays.loops_ne_nil hne), hleaves.at', hholds,
        (hlocals₁ ▸ hhides).trans hhides'⟩

end Structured
end LuaMachine
