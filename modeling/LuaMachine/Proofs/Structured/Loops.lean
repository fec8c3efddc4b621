import LuaMachine.Proofs.Structured.Branches
/-! # Loops with a condition

The words of a loop end with a jump back to its start. The jumps that leave it, and the one that its
condition takes, go behind that jump.

* `Structured.Belongs.inside`: the words in the block of a loop.
* `Structured.Circles`: what stands between the start of a loop and the jump back to it.
* `Structured.while_performs`, `Structured.repeat_performs`: the loops.
-/
set_option autoImplicit false

namespace LuaMachine
namespace Structured

open Generator
open Machine (Spares Sets Shows Leads Tries Fails)

variable {g : Activation} {brk stop start n r t : Nat} {js ns ps ps' : List Nat}
  {st st' st₀ st₁ st₂ st₃ st₄ : State} {s before : Store} {m m' m₀ : Machine} {u : Unit}
  {act : Gen Unit} {sem : Nat → Store → Ending} {condition : Expr} {line : Nat} {loop : ScopeBlock}
  {ls : Array Local} {breaks : List Nat}

/-! ## The block of a loop -/

/-- In the block of a loop, the jumps that leave it are the only ones that are not finished. -/
theorem Belongs.inside (h : Belongs g brk js ps st st') (hcloses : Closes true breaks st₀ st₂ st')
    (hle : st.size ≤ st₁.size) (hout : ∀ n ∈ st'.breaks ++ js, n < st₁.size ∨ n ∈ breaks)
    (hjumps : ∀ n ∈ breaks, IsJump g.frame n stop)
    (hs : Generator.Sound Prototype.WellFormed ps' st₁) (hm : Main st₁) :
    Belongs g stop [] ps' st₁ st₂ := by
  have hbreaks := hcloses.breaks_eq
  have hplaced := (h.placed.before hcloses.code hcloses.grows).after hle
  refine ⟨hs, hm, ⟨fun n hn hlt hhole => hplaced.words n hn hlt fun hmem => ?_,
    hplaced.constants, hplaced.registers⟩, fun n hn _ => hjumps n (hbreaks ▸ hn)⟩
  rw [List.append_nil, hbreaks] at hhole
  rcases hout n hmem with hlt' | hmem'
  · omega
  · exact hhole hmem'

/-! ## Coming back to the start -/

/-- The words of a loop from the first one of its block to the jump back to its start. The jumps that
leave the loop are not finished yet. -/
structure Circles (ps : List Nat) (sem : Nat → Store → Ending) (start : Nat) (leaving : List Nat)
    (st st' : State) : Prop where
  lays : Lays st st'
  moves : Moves Prototype.WellFormed ps st st' st.level st.level
  breaks : st'.breaks = st.breaks
  jumps : ∀ n ∈ leaving, st.size ≤ n ∧ st'.current.proto.opcodeAt? n = some .jump
  ends : ∀ ⦃g : Activation⦄ ⦃brk stop : Nat⦄ ⦃s : Store⦄ ⦃m₀ m : Machine⦄ (n : Nat),
    Belongs g brk leaving ps st st' → (∀ j ∈ leaving, IsJump g.frame j stop) →
    Arrives g st.current.locals m₀ st.size s m →
    Ends g.frame (fun s' m' => Leads 1 m' (Arrives g st.current.locals m₀ start s'))
      (fun s' m' => Arrives g st.current.locals m₀ stop s' m') n m ((sem n s).closed s)

theorem Circles.locals (h : Circles ps sem start ns st st') :
    st'.current.locals = st.current.locals := locals_eq_of_moves h.moves

theorem circles (hperforms : Performs act sem) (hloop : inBlock true act st = .ok loop st₁)
    (hline : setLine line st₁ = .ok u st₂) (hback : jumpBack start st₂ = .ok u st')
    (hs : Generator.Sound Prototype.WellFormed ps st) (htop : st.top = st.level)
    (hland : st.current.proto.Landing start) :
    Circles ps sem start loop.breaks st st' := by
  obtain ⟨hmove₁, hops⟩ := inBlock_moves hloop hs htop hperforms.sound
  simp only [inBlock, bind_ok] at hloop
  obtain ⟨_, st₃, hbegin, _, st₄, hinner, hclose⟩ := hloop
  obtain ⟨-, hproto₃, hloops₃⟩ := beginBlock_locals hbegin hs
  obtain ⟨hs₃, htop₃, hlevel₃, -⟩ := beginBlock_sound hbegin hs
  have hsize₃ : st₃.size = st.size := by rw [State.size, hproto₃]
  obtain ⟨t, hmove₄⟩ := hperforms.sound _ _ _ _ hs₃ (by omega) hinner
  have hlays₄ := (hperforms.spec hs₃ (by omega) hinner).1
  have hcloses := closeBlock_closes hbegin hs hmove₄.extends' hmove₄.sound hclose
  obtain ⟨hlays₁, hbreaks₁, hge⟩ := hcloses.loop_lays hlays₄ hloops₃ hsize₃ hproto₃
  have hstep₂ := setLine_step hline hmove₁.sound
  have hsize₂ := setLine_size hline
  have hland₂ := (hmove₁.followed hstep₂.moves).grows.landing hland
  have hmove' := jumpBack_moves hback hstep₂.sound hland₂
  obtain ⟨hlays', hsize', hlocals', hbreaks', hjump⟩ := jumpBack_lays hback hstep₂.sound hland₂
  have hlays₂' : Lays st₁ st' := (Lays.of_step hstep₂).trans hlays'
  have hbreaks : st'.breaks = st.breaks := (hbreaks'.trans hstep₂.breaks).trans hbreaks₁
  have hle₁ := hlays₁.size_le
  have hle₄ := hlays₄.size_le
  refine ⟨hlays₁.trans hlays₂', (hmove₁.followed hstep₂.moves).followed hmove', hbreaks,
    fun n hn => ⟨hge n hn, (hstep₂.moves.followed hmove').grows.opcodeAt? (hops n hn)⟩, ?_⟩
  intro g brk stop s m₀ m n hb hjumps ha
  have hlt : ∀ n ∈ loop.breaks, n < st₄.size := fun n hn =>
    breaks_lt hmove₄.sound (hcloses.breaks_eq ▸ hn)
  have hle : st₄.size ≤ st₁.size := hcloses.grows.size
  have hold : ∀ n ∈ st.breaks, n < st.size := fun n hn => breaks_lt hs hn
  -- the words of the block
  have hb₁ := hb.upTo hlays₂'
  have hb₄ := hb₁.inside hcloses (Nat.le_of_eq hsize₃.symm) (fun n hn => by
      rw [hbreaks₁] at hn
      exact (List.mem_append.mp hn).imp_left fun hmem => hsize₃ ▸ hold n hmem) hjumps hs₃
    (beginBlock_main hbegin hs hb.main)
  have hword := hb₁.closes hcloses (by omega) hmove₁.sound fun hmem =>
    Nat.lt_irrefl _ (hlt _ hmem)
  -- the jump back to the start
  have hback' : IsJump g.frame st₂.size start := by
    refine hb.jump (by omega) (fun hmem => ?_) (fun hmem => ?_) hjump
    · have hlt' := hold _ (hbreaks ▸ hmem)
      omega
    · have hlt' := hlt _ hmem
      omega
  refine (block_ends hperforms hbegin hinner hs htop hcloses hb₄ hword ⟨ha.at', ha.holds⟩).mono
    (fun s' m' hm' => ?_) fun s' m' hm' => ?_
  · obtain ⟨hh, hhides⟩ := hm'
    refine (hback'.leads (hsize₂ ▸ hh.at')).mono fun m'' hm'' => ?_
    obtain ⟨hat, hstack, hheap⟩ := hm''
    exact Arrives.then ⟨hh.at', hcloses.locals ▸ hh.holds, ha.hides.trans hhides⟩ hat hstack hheap
  · exact ⟨hm'.2.at', hm'.2.holds, ha.hides.trans hm'.2.hides⟩

/-! ## While -/

/-- A loop whose rounds begin at its first word and leave it behind its last one. -/
theorem circling_concludes {round : Store → Ending} (h : Here g st s m)
    (hlocals : st'.current.locals = st.current.locals)
    (hround : ∀ s' m', Arrives g st.current.locals m st.size s' m' →
      Ends g.frame (fun s' m' => Leads 1 m' (Arrives g st.current.locals m st.size s'))
        (fun s' m' => Arrives g st.current.locals m st'.size s' m') n m' (round s')) :
    Concludes g brk st st' n m (rounds round n s) :=
  have hends : Ends g.frame (fun s' m' => Arrives g st.current.locals m st'.size s' m')
      (fun _ _ => False) n m (rounds round n s) :=
    rounds_ends hround (Nat.le_refl n) ⟨h.at', h.holds, .refl _ _ _⟩
  hends.mono (fun _ _ ha => ⟨⟨ha.at', hlocals ▸ ha.holds⟩, ha.hides⟩) fun _ _ => False.elim

/-- The jumps out of a loop are finished behind it. -/
theorem finished (h : ns.forM patchJumpHere st₁ = .ok u st') (hl : Lays st st₁)
    (hns : ∀ n ∈ ns, st.size ≤ n ∧ st₁.current.proto.opcodeAt? n = some .jump)
    (hs : Generator.Sound Prototype.WellFormed ps st)
    (hs₁ : Generator.Sound Prototype.WellFormed ps st₁) (hbreaks : st₁.breaks = st.breaks) :
    Lays st st' ∧ Patches ns st₁ st' ∧ ∀ ⦃g : Activation⦄ ⦃brk : Nat⦄,
      Belongs g brk [] ps st st' →
        Belongs g brk ns ps st st₁ ∧ ∀ n ∈ ns, IsJump g.frame n st'.size := by
  have hops : ∀ n ∈ ns, st₁.current.proto.opcodeAt? n = some .jump := fun n hn => (hns n hn).2
  have hmove := patchAllHere_moves h hs₁ hops
  obtain ⟨hpatched, hjumps⟩ := patchAllHere_patches h hs₁ hops
  refine ⟨hpatched.lays hl hmove.grows fun n hn => (hns n hn).1, hpatched, fun g brk hb => ?_⟩
  have hb₁ := hb.unpatched hpatched
  rw [List.append_nil] at hb₁
  refine ⟨hb₁, fun n hn => hb.jump (hns n hn).1 (fun hmem => ?_) List.not_mem_nil (hjumps n hn)⟩
  rw [hpatched.breaks, hbreaks] at hmem
  have hlt := breaks_lt hs hmem
  have hge := (hns n hn).1
  omega

theorem while_performs {ss : List Stmt} (he : isExpr condition = true)
    (hbody : Performs (statements true ss) fun n s => execAll n ss s) (line : Nat) :
    Performs (statement (.whileLoop condition ss line))
      fun n s => exec n (.whileLoop condition ss line) s := by
  refine ⟨bodySound closed_wellFormed _, fun ps st st' u hs htop h => ?_⟩
  simp only [exec]
  rw [statement, bind_ok] at h
  obtain ⟨_, st₁, hline, h⟩ := h
  have hstep₁ := setLine_step hline hs
  have htop₁ := hstep₁.top_eq
  have hlevel₁ := hstep₁.level
  have hsize₁ := setLine_size hline
  have hlocals₁ := hstep₁.keeps.current.locals
  have hs₁ := hstep₁.sound
  cases hfold : condition.fold with
  | some k =>
    have hvalue : ∀ s, value s condition = some k.value := fun s => value_of_fold hfold
    simp only [choose, hvalue, attempt]
    simp only [hfold] at h
    split at h
    next hfalsey =>
      -- the loop is left out
      have hfalsey' : k.value.isFalsey = true := hfalsey
      simp only [pure_ok] at h
      obtain ⟨-, rfl⟩ := h
      refine ⟨.of_step hstep₁, fun g brk s m n hb hh => ?_⟩
      simp only [hfalsey', if_true]
      cases n with
      | zero => exact .here trivial
      | succ n => exact .here ⟨hh.silent hs hstep₁ hsize₁, .refl _ _ _⟩
    next hfalsey =>
      -- nothing is tested
      have hfalsey' : k.value.isFalsey = false := eq_false_of_ne_true hfalsey
      simp only [hfalsey', Bool.false_eq_true, if_false]
      simp only [bind_ok, here_ok, and_assoc, exists_and_left, exists_eq_left] at h
      obtain ⟨loop, st₂, hloop, _, st₃, hline', _, st₄, hback, h⟩ := h
      have hcircle := circles hbody hloop hline' hback hs₁ (by omega) hs₁.current.settled
      obtain ⟨hlays, hpatched, hfinal⟩ := finished h hcircle.lays hcircle.jumps hs₁
        hcircle.moves.sound hcircle.breaks
      refine ⟨(Lays.of_step hstep₁).trans hlays, fun g brk s m n hb hh => ?_⟩
      obtain ⟨hb₁, hjumps⟩ := hfinal (hb.after hstep₁.moves)
      have hh₁ := hh.silent hs hstep₁ hsize₁
      exact (circling_concludes hh₁ (hpatched.locals.trans hcircle.locals)
        fun s' m' ha => hcircle.ends n hb₁ hjumps ha).of_extends ⟨#[], by simpa using hlocals₁⟩
        (Lays.of_step hstep₁).loops_ne_nil (.refl _ _ _)
  | none =>
    simp only [hfold, bind_ok, here_ok, and_assoc, exists_and_left, exists_eq_left] at h
    obtain ⟨leave, st₂, hleave, loop, st₃, hloop, _, st₄, hline', _, st₅, hback, _, st₆, hpatch,
      h⟩ := h
    have hcomputes := expression_computes he
    obtain ⟨hstep₂, hleave', hlt, hop⟩ := jumpIfFalse_spec hleave hs₁ hcomputes.sound
    have htop₂ := hstep₂.top_eq
    have hlevel₂ := hstep₂.level
    have hlocals₂ := hstep₂.keeps.current.locals
    have hcircle := circles hbody hloop hline' hback hstep₂.sound (by omega)
      (hstep₂.grows.landing hs₁.current.settled)
    have hle₂ : st₁.size ≤ st₂.size := hstep₂.grows.size
    have hend : (leave :: loop.breaks).forM patchJumpHere st₅ = .ok u st' := by
      rw [List.forM_eq_forM, List.forM_cons, bind_ok]
      exact ⟨(), st₆, hpatch, h⟩
    obtain ⟨hlays, hpatched, hfinal⟩ := finished hend ((Lays.of_step hstep₂).trans hcircle.lays)
      (List.forall_mem_cons.mpr ⟨⟨by omega, hcircle.lays.grows.opcodeAt? hop⟩, fun n hn =>
        ⟨by have hge := (hcircle.jumps n hn).1; omega, (hcircle.jumps n hn).2⟩⟩) hs₁
      hcircle.moves.sound (hcircle.breaks.trans hstep₂.breaks)
    refine ⟨(Lays.of_step hstep₁).trans hlays, fun g brk s m n hb hh => ?_⟩
    obtain ⟨hb₁, hjumps⟩ := hfinal (hb.after hstep₁.moves)
    have hb₂ : Belongs g brk [leave] ps st₁ st₂ := (hb₁.upTo hcircle.lays).only fun n hn _ hlt' => by
      refine (List.mem_cons.mp hn).elim (fun heq => heq ▸ List.mem_cons_self) fun hmem => ?_
      have hge := (hcircle.jumps n hmem).1
      omega
    have hb₅ : Belongs g brk loop.breaks ps st₂ st₅ := (hb₁.after hstep₂.moves).only fun n hn hge _ => by
      refine (List.mem_cons.mp hn).resolve_left fun heq => ?_
      omega
    have hh₁ := hh.silent hs hstep₁ hsize₁
    refine (circling_concludes hh₁ (hpatched.locals.trans (hcircle.locals.trans hlocals₂))
      fun s' m' ha => ?_).of_extends ⟨#[], by simpa using hlocals₁⟩
      (Lays.of_step hstep₁).loops_ne_nil (.refl _ _ _)
    refine .attempt (jumpIfFalse_tries hleave hb₂ hcomputes he (hjumps _ List.mem_cons_self)
      ⟨ha.at', ha.holds⟩) ?_
    rintro v m₁ _ ⟨hat, hholds, hspares⟩
    have hhides := ha.hides.trans (.of_spares hs₁ (hspares.weaken (by omega)))
    cases hv : v.isFalsey with
    | true =>
      rw [hv, if_pos rfl] at hat
      exact .here ⟨hat, hholds, hhides⟩
    | false =>
      rw [hv, if_neg Bool.false_ne_true] at hat
      rw [← hlocals₂] at hholds hhides
      have hends := hcircle.ends n hb₅ (fun j hj => hjumps j (List.mem_cons_of_mem _ hj))
        ⟨hat, hholds, hhides⟩
      rw [hlocals₂] at hends
      exact hends

/-! ## Repeat -/

theorem Belongs.closesAt (h : Belongs g brk js ps st st') (hcloses : ClosesAt st st')
    (hjs : st.size ∉ js) : st'.size = st.size ∨ st'.size = st.size + 1 ∧
      ∃ i, g.frame.prototype.chunk.code[st.size]? = some i ∧ i.opcode? = some .close := by
  refine hcloses.word.imp_right ?_
  rintro ⟨hsize, i, hi, hop⟩
  refine ⟨hsize, i, h.word (Nat.le_refl _) (fun hmem => ?_) hjs hi, hop⟩
  rw [breaks_of_adds hcloses.adds] at hmem
  exact Nat.lt_irrefl _ (breaks_lt h.sound hmem)

/-- The end of a round: if the condition is false the machine comes back to the start, and behind
the last word otherwise. -/
structure Decides (ps : List Nat) (condition : Expr) (start : Nat) (st st' : State) : Prop where
  lays : Lays st st'
  locals : st'.current.locals = st.current.locals
  tries : ∀ ⦃g : Activation⦄ ⦃brk : Nat⦄ ⦃s : Store⦄ ⦃m : Machine⦄, Belongs g brk [] ps st st' →
    Here g st s m → Tries (value s condition) m fun v m' =>
      if v.isFalsey then Leads 1 m' (Arrives g st.current.locals m start s)
      else Leads 0 m' (Arrives g st.current.locals m st'.size s)

/-- Captured variables are closed on the way back. -/
theorem closing_lays {captured : Bool} {level : Nat} (hclose : closeIf captured level st = .ok u st₁)
    (hback : jumpBack start st₁ = .ok u st') (hs : Generator.Sound Prototype.WellFormed ps st)
    (hs₁ : Generator.Sound Prototype.WellFormed ps st₁)
    (hland : st₁.current.proto.Landing start) :
    Lays st st' ∧ st'.current.locals = st.current.locals ∧ st'.breaks = st.breaks ∧
      ∀ ⦃g : Activation⦄ ⦃brk : Nat⦄ ⦃ls : Array Local⦄ ⦃s : Store⦄ ⦃m₀ m : Machine⦄,
        Belongs g brk [] ps st st' → Arrives g ls m₀ st.size s m →
        Leads 1 m (Arrives g ls m₀ start s) := by
  have hcloses := closeIf_closesAt hclose hs
  obtain ⟨hlays, hsize, hlocals, hbreaks, hjump⟩ := jumpBack_lays hback hs₁ hland
  have hbreaks' := hbreaks.trans (breaks_of_adds hcloses.adds)
  refine ⟨(Lays.of_adds hcloses.adds).trans hlays, hlocals.trans hcloses.adds.locals, hbreaks', ?_⟩
  intro g brk ls s m₀ m hb ha
  have hle : st.size ≤ st₁.size := hcloses.adds.grows.size
  have hjump' : IsJump g.frame st₁.size start := by
    refine hb.jump hle (fun hmem => ?_) List.not_mem_nil hjump
    have hlt := breaks_lt hs (hbreaks' ▸ hmem)
    omega
  refine (closes_leads ((hb.upTo hlays).closesAt hcloses List.not_mem_nil) ha.at').andThen ?_
  rintro m₁ ⟨hat₁, hstack₁, hheap₁⟩
  refine (hjump'.leads hat₁).mono ?_
  rintro m₂ ⟨hat₂, hstack₂, hheap₂⟩
  exact ha.then hat₂ (hstack₂.trans hstack₁) (hheap₂.trans hheap₁)

/-- The condition is tested, and the captured variables are closed on the way back. -/
theorem closingTest_decides {act : Evaluation} {level : Nat} {u₁ : Unit}
    (hvalue : toAnyRegister condition act st = .ok r st₁) (hline : setLine line st₁ = .ok u₁ st₂)
    (h : (do
      emitAbc .test r 1 0
      let leave ← emitJump
      release st.top
      closeFrom level
      jumpBack start
      patchJumpHere leave : Gen Unit) st₂ = .ok u st')
    (hs : Generator.Sound Prototype.WellFormed ps st) (hact : Computes act fun s => value s condition)
    (he : isExpr condition = true) (hland : st.current.proto.Landing start)
    (hroom : level < st.current.proto.registers) : Decides ps condition start st st' := by
  have hlevel := hs.level_le
  simp only [bind_ok] at h
  obtain ⟨_, st₃, htest, leave, st₄, hleave, _, st₅, hrelease, _, st₆, hclose, _, st₇, hback,
    h⟩ := h
  obtain ⟨t, hstep₄, hle, hleave', hlt, hop⟩ :=
    test_step hvalue hline htest hleave hs hact.sound (by omega)
  have hrelease' := (release_step hrelease hstep₄.sound).1
  have hsize₅ := release_size hrelease hstep₄.sound
  have hstep₅ := hstep₄.trans hrelease'
  have hclose' : closeIf true level st₅ = .ok () st₆ := hclose
  have hmove₆ := closeFrom_moves hclose hstep₅.sound
    (Nat.lt_of_lt_of_le hroom hstep₅.grows.registers)
  have hmove₇ := hmove₆.followed (jumpBack_moves hback hmove₆.sound
    ((hstep₅.moves.followed hmove₆).grows.landing hland))
  obtain ⟨hlays₇, hlocals₇, hbreaks₇, hleads⟩ := closing_lays hclose' hback hstep₅.sound
    hmove₆.sound ((hstep₅.moves.followed hmove₆).grows.landing hland)
  have hop₇ := hlays₇.grows.opcodeAt? (hrelease'.grows.opcodeAt? hop)
  have hpatched := patchWithin_patches (patchJumpHere_ok h) hmove₇.sound
  have hjumps := patchJump_jumpsTo (patchJumpHere_ok h) hmove₇.sound hop₇
  have hmove' := patchJumpHere_moves h hmove₇.sound hop₇
  have hsize' : st'.size = st₇.size := hpatched.size
  have hlays := (Lays.of_step hstep₅).trans hlays₇
  refine ⟨hpatched.lays hlays hmove'.grows (by simp only [List.mem_singleton]; omega), ?_,
    fun g brk s m hb hh => ?_⟩
  · exact (hpatched.locals.trans hlocals₇).trans hstep₅.keeps.current.locals
  have hb₇ := hb.unpatched hpatched
  have hleave'' : IsJump g.frame leave st'.size := by
    rw [hsize']
    refine hb.jump (by omega) (fun hmem => ?_) List.not_mem_nil hjumps
    rw [hpatched.breaks, hbreaks₇, hstep₅.breaks] at hmem
    have hlt' := breaks_lt hs hmem
    omega
  have hb₅ : Belongs g brk [] ps st₅ st₇ := (hb₇.after hstep₅.moves).only fun n hn hge _ => by
    rw [List.append_nil, List.mem_singleton] at hn
    omega
  refine (test_tries hvalue hline htest hleave
    (hb₇.upTo ((Lays.of_step hrelease').trans hlays₇)) hact he (by omega) hleave'' hh).mono
    fun v m' _ htested => ?_
  cases hv : v.isFalsey with
  | true =>
    rw [if_pos rfl]
    refine htested.andThen ?_
    rintro m'' ⟨hat, hholds, hspares⟩
    refine hleads hb₅ ⟨?_, hholds, .of_spares hs (hspares.weaken hlevel)⟩
    rw [hsize₅]
    simpa [Value.isTruthy, hv] using hat
  | false =>
    rw [if_neg Bool.false_ne_true]
    refine (htested.weaken (Nat.zero_le 1)).mono ?_
    rintro m'' ⟨hat, hholds, hspares⟩
    refine ⟨?_, hholds, .of_spares hs (hspares.weaken hlevel)⟩
    simpa [Value.isTruthy, hv] using hat

/-- The condition is tested, and the way back leads over no word that closes variables. -/
theorem plainTest_decides {act : Evaluation} {u₁ : Unit}
    (hvalue : toAnyRegister condition act st = .ok r st₁) (hline : setLine line st₁ = .ok u₁ st₂)
    (h : (do
      emitAbc .test r 0 0
      jumpBack start
      release st.top : Gen Unit) st₂ = .ok u st')
    (hs : Generator.Sound Prototype.WellFormed ps st) (hact : Computes act fun s => value s condition)
    (he : isExpr condition = true) (hland : st.current.proto.Landing start) :
    Decides ps condition start st st' := by
  have hlevel := hs.level_le
  simp only [bind_ok, jumpBack] at h
  obtain ⟨_, st₃, htest, _, st₅, ⟨n, st₄, hjump, hpatch⟩, hrelease⟩ := h
  obtain ⟨t, hstep₄, hle, hn, hlt, hop⟩ :=
    test_step hvalue hline htest hjump hs hact.sound (by omega)
  have hpatched := patchWithin_patches hpatch hstep₄.sound
  have hjumps := patchJump_jumpsTo hpatch hstep₄.sound hop
  have hmove₅ := patchJump_moves hpatch hstep₄.sound hop (hstep₄.grows.landing hland)
  have hrelease' := (release_step hrelease hmove₅.sound).1
  have hsize := release_size hrelease hmove₅.sound
  have hlays₅ := hpatched.lays (.of_step hstep₄) hmove₅.grows (by simp only [List.mem_singleton]; omega)
  refine ⟨hlays₅.trans (.of_step hrelease'), ?_, fun g brk s m hb hh => ?_⟩
  · exact (hrelease'.keeps.current.locals.trans hpatched.locals).trans hstep₄.keeps.current.locals
  have hb₅ := hb.upTo (.of_step hrelease')
  have hb₄ := hb₅.unpatched hpatched
  have hjump' : IsJump g.frame n start := by
    refine hb₅.jump (by omega) (fun hmem => ?_) List.not_mem_nil hjumps
    rw [hpatched.breaks, hstep₄.breaks] at hmem
    have hlt' := breaks_lt hs hmem
    omega
  refine (test_tries hvalue hline htest hjump hb₄ hact he (by omega) hjump' hh).mono
    fun v m' _ hleads => ?_
  cases hv : v.isFalsey with
  | true =>
    rw [if_pos rfl]
    refine hleads.mono ?_
    rintro m'' ⟨hat, hholds, hspares⟩
    refine ⟨?_, hholds, .of_spares hs (hspares.weaken hlevel)⟩
    simpa [Value.isTruthy, hv] using hat
  | false =>
    rw [if_neg Bool.false_ne_true]
    refine (hleads.weaken (Nat.zero_le 1)).mono ?_
    rintro m'' ⟨hat, hholds, hspares⟩
    refine ⟨?_, hholds, .of_spares hs (hspares.weaken hlevel)⟩
    rw [hsize, hpatched.size]
    simpa [Value.isTruthy, hv] using hat

theorem repeatUntil_decides {act : Evaluation} (h : repeatUntil start condition act st = .ok u st')
    (hs : Generator.Sound Prototype.WellFormed ps st) (hact : Computes act fun s => value s condition)
    (he : isExpr condition = true) (hland : st.current.proto.Landing start) :
    Decides ps condition start st st' := by
  simp only [repeatUntil, bind_ok] at h
  obtain ⟨block, st₀, hblock, h⟩ := h
  have hopen := currentBlock_sound hblock hs
  obtain ⟨rfl, -⟩ := currentBlock_ok hblock
  cases hfold : condition.fold with
  | some k =>
    have hvalue : ∀ s, value s condition = some k.value := fun s => value_of_fold hfold
    simp only [hfold] at h
    split at h
    next hfalsey =>
      have hfalsey' : k.value.isFalsey = true := hfalsey
      simp only [bind_ok] at h
      obtain ⟨_, st₁, hline, _, st₂, hclose, hback⟩ := h
      have hstep₁ := setLine_step hline hs
      have hmove₂ := closeIf_moves hclose hstep₁.sound fun hcaptured =>
        Nat.lt_of_lt_of_le (hopen.captured hcaptured) hstep₁.grows.registers
      obtain ⟨hlays, hlocals, -, hleads⟩ := closing_lays hclose hback hstep₁.sound
        hmove₂.sound ((hstep₁.moves.followed hmove₂).grows.landing hland)
      refine ⟨(Lays.of_step hstep₁).trans hlays, hlocals.trans hstep₁.keeps.current.locals,
        fun g brk s m hb hh => ?_⟩
      rw [hvalue]
      refine .here ?_
      dsimp only
      rw [hfalsey', if_pos rfl]
      have hat : g.At st₁.size m := setLine_size hline ▸ hh.at'
      exact hleads (hb.after hstep₁.moves) ⟨hat, hh.holds, .refl _ _ _⟩
    next hfalsey =>
      have hfalsey' : k.value.isFalsey = false := eq_false_of_ne_true hfalsey
      simp only [pure_ok] at h
      obtain ⟨-, rfl⟩ := h
      refine ⟨.refl _, rfl, fun g brk s m hb hh => ?_⟩
      rw [hvalue]
      refine .here ?_
      dsimp only
      rw [hfalsey', if_neg Bool.false_ne_true]
      exact .here ⟨hh.at', hh.holds, .refl _ _ _⟩
  | none =>
    simp only [hfold, bind_ok, free_ok, and_assoc, exists_and_left, exists_eq_left] at h
    obtain ⟨r, st₁, hvalue, _, st₂, hline, h⟩ := h
    split at h
    next hcaptured =>
      exact closingTest_decides hvalue hline h hs hact he hland (hopen.captured hcaptured)
    next => exact plainTest_decides hvalue hline h hs hact he hland

/-- At the end of a block, a machine that left it has the variables from before it. -/
theorem Leaves.back (h : Leaves g t st m₀ s m) (hbefore : Holds g.frame st.current.locals before m') :
    Arrives g st.current.locals m₀ t (s.back before) m := by
  obtain ⟨more, hholds⟩ := h.holds
  exact ⟨h.at', hholds.back hbefore, h.hides⟩

theorem repeat_performs {ss : List Stmt} (he : isExpr condition = true)
    (hbody : Performs (statements false ss) fun n s => execAll n ss s) (line : Nat) :
    Performs (statement (.repeatLoop ss condition line))
      fun n s => exec n (.repeatLoop ss condition line) s := by
  refine ⟨bodySound closed_wellFormed _, fun ps st st' u hs htop h => ?_⟩
  simp only [exec]
  rw [statement] at h
  simp only [bind_ok, here_ok, and_assoc, exists_and_left, exists_eq_left] at h
  obtain ⟨_, st₁, hline, _, st₂, hbegin, _, st₃, hinner, _, st₄, huntil, loop, st₅, hclose, h⟩ := h
  have hstep₁ := setLine_step hline hs
  have htop₁ := hstep₁.top_eq
  have hlevel₁ := hstep₁.level
  have hsize₁ := setLine_size hline
  have hlocals₁ := hstep₁.keeps.current.locals
  have hs₁ := hstep₁.sound
  have hcomputes := expression_computes he
  -- the block of the loop, with the condition at its end
  obtain ⟨hlocals₂, hproto₂, hloops₂⟩ := beginBlock_locals hbegin hs₁
  obtain ⟨hs₂, htop₂, hlevel₂, -⟩ := beginBlock_sound hbegin hs₁
  have hsize₂ : st₂.size = st₁.size := by rw [State.size, hproto₂]
  obtain ⟨t, hmove₃⟩ := hbody.sound _ _ _ _ hs₂ (by omega) hinner
  obtain ⟨hlays₃, hends⟩ := hbody.spec hs₂ (by omega) hinner
  have hland₂ : st₂.current.proto.Landing st₁.current.proto.chunk.size := by
    rw [hproto₂]
    exact hs₁.current.settled
  have hland₃ := hmove₃.grows.landing hland₂
  have hmove₄ := hmove₃.trans (repeatUntil_moves huntil hmove₃.sound hcomputes.sound hland₃)
  have hdecides := repeatUntil_decides huntil hmove₃.sound hcomputes he hland₃
  have hlays₄ := hlays₃.trans hdecides.lays
  have hcloses := closeBlock_closes hbegin hs₁ hmove₄.extends' hmove₄.sound hclose
  obtain ⟨hmove₅, hops, -⟩ := closeBlock_moves hbegin hs₁ hmove₄.extends' hmove₄.sound hclose
  obtain ⟨hlays₅, hbreaks₅, hge⟩ := hcloses.loop_lays hlays₄ hloops₂ hsize₂ hproto₂
  obtain ⟨hlays, hpatched, hfinal⟩ := finished h hlays₅ (fun n hn => ⟨hge n hn, hops n hn⟩) hs₁
    hmove₅.sound hbreaks₅
  refine ⟨(Lays.of_step hstep₁).trans hlays, fun g brk s m n hb hh => ?_⟩
  obtain ⟨hb₅, hjumps⟩ := hfinal (hb.after hstep₁.moves)
  have hlt : ∀ n ∈ loop.breaks, n < st₄.size := fun n hn =>
    breaks_lt hmove₄.sound (hcloses.breaks_eq ▸ hn)
  have hb₂ := hb₅.inside hcloses (Nat.le_of_eq hsize₂.symm) (fun n hn => by
      rw [hbreaks₅] at hn
      exact (List.mem_append.mp hn).imp_left fun hmem => hsize₂ ▸ breaks_lt hs₁ hmem) hjumps hs₂
    (beginBlock_main hbegin hs₁ (hb.after hstep₁.moves).main)
  have hword := hb₅.closes hcloses (hsize₂ ▸ hlays₄.size_le) hmove₅.sound fun hmem =>
    Nat.lt_irrefl _ (hlt _ hmem)
  refine (circling_concludes (hh.silent hs hstep₁ hsize₁)
    (hpatched.locals.trans hcloses.locals) fun s' m' ha => ?_).of_extends
    ⟨#[], by simpa using hlocals₁⟩ (Lays.of_step hstep₁).loops_ne_nil (.refl _ _ _)
  obtain ⟨more, hmore⟩ := hmove₃.extends'.current.locals
  rw [hlocals₂] at hmore
  have hh₂ : Here g st₂ s' m' := ⟨hsize₂ ▸ ha.at', hlocals₂ ▸ ha.holds⟩
  have hround := hends n (hb₂.upTo hdecides.lays) hh₂
  have hleft : ∀ {t : Nat} {inner : Store} {m₁ m₂ : Machine},
      Hides g.frame st₂.current.locals m' m₁ → Arrives g st₃.current.locals m₁ t inner m₂ →
      Leaves g t st₁ m inner m₂ := fun {t inner m₁ m₂} hhides harrives => by
    have hhides' := harrives.hides
    have hholds := harrives.holds
    rw [hmore] at hhides' hholds
    rw [hlocals₂] at hhides
    exact ⟨harrives.at', ⟨more, hholds⟩, (ha.hides.trans hhides).trans hhides'.of_append⟩
  suffices hinside : Ends g.frame
      (fun inner m₁ => Leads 1 m₁ (Leaves g st₁.size st₁ m inner)) (Leaves g st'.size st₁ m) n m'
      ((execAll n ss s').andThen fun inner =>
        choose inner condition (.leave inner) (.next inner)) from
    hinside.closed (fun inner m₁ hm₁ => .here (hm₁.mono fun m₂ hm₂ => hm₂.back ha.holds))
      fun inner m₁ hm₁ => hm₁.back ha.holds
  have hbody' : Ends g.frame
      (fun inner m₁ => Here g st₃ inner m₁ ∧ Hides g.frame st₂.current.locals m' m₁)
      (Leaves g st'.size st₁ m) n m' (execAll n ss s') := by
    refine hround.mono (fun _ _ => id) ?_
    rintro inner m₁ ⟨-, hleaves⟩
    exact ⟨hleaves.at', hlocals₂ ▸ hleaves.holds, ha.hides.trans (hlocals₂ ▸ hleaves.hides)⟩
  refine hbody'.andThen ?_
  · rintro inner m₁ ⟨hh₃, hhides⟩
    refine .attempt (hdecides.tries (hb₂.after hmove₃) hh₃) fun v m₂ _ hm₂ => ?_
    cases hv : v.isFalsey with
    | true =>
      rw [hv, if_pos rfl] at hm₂
      exact .here (hm₂.mono fun m₃ harrives => hleft hhides harrives)
    | false =>
      rw [hv, if_neg Bool.false_ne_true] at hm₂
      refine Leads.andThen hm₂ fun m₃ harrives => ?_
      refine (closes_leads hword harrives.at').mono ?_
      rintro m₄ ⟨hat, hstack, hheap⟩
      exact hleft hhides (harrives.then (hpatched.size ▸ hat) hstack hheap)

end Structured
end LuaMachine
