import LuaMachine.Proofs.Structured.Loops
/-! # Loops that count

The state of a counting loop is in three registers above the variables, whose names no text has, and
the variable that counts is in the register above them. The first word of the loop goes behind the
last one if there is no round, and the last one goes back to the block as long as there is one more.

* `Structured.HoldsState`: the three registers are those of the last variables.
* `Structured.numericLoop_ends`: all rounds, from one round.
* `Structured.Starts`: the state in which a round starts.
* `Structured.loopBlock_repeats`: the block, in each round.
* `Structured.countingWords_counts`: the words from the first to the last one.
* `Structured.numericFor_performs`: the whole loop.
-/
set_option autoImplicit false

namespace LuaMachine
namespace Structured

open Generator
open Machine (Spares Sets Shows Leads Tries Fails)
open Machine.At (loopAt loopValues loopAt_sets)

variable {g : Activation} {brk stop n r t a base : Nat} {js ns ps ps' : List Nat}
  {st st' st₀ st₁ st₂ st₃ st₄ : State} {s : Store} {m m' m₀ : Machine} {u : Unit}
  {sem : Nat → Store → Ending} {line : Nat} {loop : ScopeBlock} {f : Frame} {op : Opcode}
  {ls more : Array Local} {first last step : Value}

/-! ## The registers of the loop -/

theorem holds_hidden (hmore : ∀ l ∈ more, l.name = loopState) :
    Holds f (ls ++ more) s m ↔ Holds f ls s m := by
  have hnone : visible f more m = [] := by
    rw [visible, List.map_eq_nil_iff, List.filter_eq_nil_iff]
    intro l hl
    simp [hmore l (by simpa using hl)]
  rw [Holds, Holds, visible_append, hnone, List.nil_append]

/-- Registers above the variables do not matter to them. -/
theorem Holds.sets {vs : List Value} {pc : Nat} (h : Holds g.frame ls s m) (hat : g.At pc m')
    (hls : ∀ l ∈ ls, l.register < a) (hsets : Sets g.frame a vs m m') : Holds g.frame ls s m' := by
  obtain ⟨v, hvariables, hshows⟩ := h
  refine ⟨v, ?_, hshows.thins hat hsets.heap⟩
  rw [visible_congr fun l hl => hsets.below (hls l hl)]
  exact hvariables

/-- The last variables, whose names no text has, have the three registers from `base` on. -/
structure HoldsState (ls : Array Local) (base : Nat) (st : State) : Prop where
  level : st.level = base + 3
  locals : ∃ more, st.current.locals = ls ++ more ∧ ∀ l ∈ more, l.name = loopState
  below : ∀ l ∈ ls, l.register < base
  held : ∀ j < 3, ∃ l ∈ st.current.locals, l.name = loopState ∧ l.register = base + j

theorem addLoopState_holds (h : addLoopState st = .ok u st')
    (hs : Generator.Sound Prototype.WellFormed ps st) :
    HoldsState st.current.locals st.level st' ∧ st'.size = st.size := by
  have hlevel := (addLoopState_moves h hs).level_eq
  simp only [addLoopState, bind_ok] at h
  obtain ⟨_, st₁, h₁, _, st₂, h₂, h₃⟩ := h
  have hmove₁ := addLocal_moves h₁ hs
  have hmove₂ := addLocal_moves h₂ hmove₁.sound
  have hlevel₁ := hmove₁.level_eq
  have hlevel₂ := hmove₂.level_eq
  obtain ⟨hsize₁, l₁, hlocals₁, hname₁, hregister₁⟩ := addLocal_spec h₁ hs
  obtain ⟨hsize₂, l₂, hlocals₂, hname₂, hregister₂⟩ := addLocal_spec h₂ hmove₁.sound
  obtain ⟨hsize₃, l₃, hlocals₃, hname₃, hregister₃⟩ := addLocal_spec h₃ hmove₂.sound
  have hlocals : st'.current.locals = st.current.locals ++ #[l₁, l₂, l₃] := by
    rw [hlocals₃, hlocals₂, hlocals₁]
    rfl
  refine ⟨⟨hlevel, ⟨_, hlocals, ?_⟩, fun l hl => register_lt_level hs hl, ?_⟩,
    hsize₃.trans (hsize₂.trans hsize₁)⟩
  · intro l hl
    obtain rfl | rfl | rfl : l = l₁ ∨ l = l₂ ∨ l = l₃ := by simpa using hl
    · exact hname₁
    · exact hname₂
    · exact hname₃
  · have hmem : ∀ l ∈ #[l₁, l₂, l₃], l ∈ st'.current.locals := fun l hl =>
      hlocals ▸ Array.mem_append_right _ hl
    intro j hj
    obtain rfl | rfl | rfl : j = 0 ∨ j = 1 ∨ j = 2 := by omega
    · exact ⟨l₁, hmem l₁ (by simp), hname₁, by omega⟩
    · exact ⟨l₂, hmem l₂ (by simp), hname₂, by omega⟩
    · exact ⟨l₃, hmem l₃ (by simp), hname₃, by omega⟩

/-- As long as the hidden registers are left alone, so is the state of the loop. -/
theorem HoldsState.loopAt_eq (h : HoldsState ls base st)
    (hhides : Hides f st.current.locals m m') : loopAt f base m' = loopAt f base m := by
  have hreg : ∀ j < 3, m'.reg f (base + j) = m.reg f (base + j) := fun j hj => by
    obtain ⟨l, hl, hname, hregister⟩ := h.held j hj
    exact hregister ▸ hhides l hl hname
  rw [loopAt, loopAt, hreg 1 (by omega), hreg 2 (by omega),
    show m'.reg f base = m.reg f base from hreg 0 (by omega)]

/-! ## The words of the loop -/

/-- The word names the register and goes to the target. -/
def IsLoop (f : Frame) (n : Nat) (op : Opcode) (a t : Nat) : Prop :=
  ∃ i, f.prototype.chunk.code[n]? = some i ∧ i.opcode? = some op ∧ i.a = a ∧
    (n : Int) + 1 + i.signedBx = t

theorem patchLoop_word (h : patchLoop n t st = .ok u st')
    (hs : Generator.Sound Prototype.WellFormed ps st) (ha : a < 256)
    (hword : st.current.proto.chunk.code[n]? = some (.asbx op a 0)) :
    ∃ i, st'.current.proto.chunk.code[n]? = some i ∧ i.opcode? = some op ∧ i.a = a ∧
      (n : Int) + 1 + i.signedBx = t := by
  have hnew := patchWithin_word h hs hword
  obtain ⟨hd, -⟩ := patchWithin_ok h
  refine ⟨_, hnew, (Instruction.opcode?_withSignedBx _).trans (Instruction.opcode?_asbx _ 0), ?_, ?_⟩
  · rw [Instruction.a_withSignedBx, Instruction.a_asbx _ ha]
  · rw [Instruction.signedBx_withSignedBx _ hd, distance]
    omega

/-! ## All rounds -/

/-- The first word of a loop decides whether there is a round; each round decides whether there is
one more. -/
theorem numericLoop_ends {round : Value → Store → Ending} {next leave : Store → Machine → Prop}
    {start : NumericLoop → Store → Machine → Prop}
    (hstart : match NumericLoop.start first last step with
      | .ok (some l) => Leads 0 m (start l s)
      | .ok none => Leads 0 m (next s)
      | .error _ => Fails m)
    (hround : ∀ l s m, start l s m →
      Ends f (Continues start next l) next n m (round l.control s)) :
    Ends f next leave n m (numericLoop n round first last step s) := by
  have hother : Ends f next leave n m (match NumericLoop.start first last step with
      | .ok (some l) => floatRounds round n l s
      | .ok none => .next s
      | .error _ => .failed) := by
    cases hfirst : NumericLoop.start first last step with
    | error e =>
      rw [hfirst] at hstart
      exact hstart
    | ok l =>
      rw [hfirst] at hstart
      cases l with
      | none => exact hstart
      | some l =>
        exact .andAlso hstart fun m' hm' => floatRounds_ends hround (Nat.le_refl n) hm'
  unfold numericLoop
  split
  next i j k =>
    split
    next hz =>
      rw [hz, NumericLoop.start_zero] at hstart
      exact hstart
    next hz =>
      obtain ⟨hnone, hempty⟩ | ⟨l, hsome, hunrolls⟩ :=
        (NumericLoop.start_integers hz : _ ∨ ∃ l, NumericLoop.start (.int i) (.int j) (.int k) =
          .ok (some l) ∧ l.Unrolls (progression i j k))
      · rw [hnone] at hstart
        rw [hempty]
        exact hstart
      · rw [hsome] at hstart
        exact .andAlso hstart fun m' hm' => forEach_ends hround hunrolls hm'
  next => exact hother

/-! ## Where a round starts -/

/-- The machine is at the word where a round starts, with the state of the loop in its registers, and
the control value in the one above them. -/
structure Starts (g : Activation) (ls : Array Local) (base : Nat) (m₀ : Machine) (t : Nat)
    (l : NumericLoop) (s : Store) (m : Machine) : Prop where
  arrives : Arrives g ls m₀ t s m
  state : loopAt g.frame base m = l
  control : m.reg g.frame (base + 3) = l.control

theorem Starts.of_sets {l : NumericLoop} (h : Arrives g ls m₀ n s m)
    (hls : ∀ l ∈ ls, l.register < base) (hat : g.At t m')
    (hsets : Sets g.frame base (loopValues l) m m') : Starts g ls base m₀ t l s m' :=
  ⟨⟨hat, h.holds.sets hat hls hsets, h.hides.trans fun l hl _ => hsets.below (hls l hl)⟩,
    (loopAt_sets hsets).1, (loopAt_sets hsets).2⟩

/-- The first word starts the first round if there is one. -/
theorem IsLoop.prepares (h : IsLoop g.frame n .forPrepare base t)
    (hfit : base + 4 ≤ g.frame.prototype.registers) (hls : ∀ l ∈ ls, l.register < base)
    (ha : Arrives g ls m₀ n s m) :
    match NumericLoop.start (m.reg g.frame base) (m.reg g.frame (base + 1))
        (m.reg g.frame (base + 2)) with
    | .ok (some l) => Leads 0 m (Starts g ls base m₀ (n + 1) l s)
    | .ok none => Leads 0 m (Arrives g ls m₀ (t + 1) s)
    | .error _ => Fails m := by
  obtain ⟨i, hi, hop, rfl, ht⟩ := h
  have hprepare := ha.at'.forPrepare hi hop hfit
    (show (n : Int) + 1 + i.signedBx + 1 = (t + 1 : Nat) by omega)
  cases hstart : NumericLoop.start (m.reg g.frame i.a) (m.reg g.frame (i.a + 1))
      (m.reg g.frame (i.a + 2)) with
  | error e =>
    rw [hstart] at hprepare
    exact hprepare
  | ok l =>
    rw [hstart] at hprepare
    cases l with
    | none =>
      refine (hprepare.weaken (Nat.zero_le 1)).mono ?_
      rintro m' ⟨hat, hstack, hheap⟩
      exact ha.then hat hstack hheap
    | some l =>
      refine (hprepare.weaken (Nat.zero_le 1)).mono ?_
      rintro m' ⟨hat, hsets⟩
      exact .of_sets ha hls hat hsets

/-- The last word starts the next round if there is one. -/
theorem IsLoop.continues {l : NumericLoop} (h : IsLoop g.frame n .forLoop base t)
    (hfit : base + 4 ≤ g.frame.prototype.registers) (hls : ∀ l ∈ ls, l.register < base)
    (ha : Arrives g ls m₀ n s m) (hstate : loopAt g.frame base m = l) :
    Continues (Starts g ls base m₀ t) (Arrives g ls m₀ (n + 1)) l s m := by
  obtain ⟨i, hi, hop, rfl, ht⟩ := h
  have hfor := ha.at'.forLoop hi hop hfit ht
  rw [hstate] at hfor
  unfold Continues
  cases hnext : l.next with
  | some l' =>
    rw [hnext] at hfor
    refine hfor.mono ?_
    rintro m' ⟨hat, hsets⟩
    exact .of_sets ha hls hat hsets
  | none =>
    rw [hnext] at hfor
    refine (hfor.weaken (Nat.zero_le 1)).mono ?_
    rintro m' ⟨hat, hstack, hheap⟩
    exact ha.then hat hstack hheap

/-! ## From the first to the last word -/

/-- The words of a counting loop: the first one, the block, and the last one, which goes back to the
block. Both are finished when the block is. -/
def countingWords (b : Binder) (ss : List Stmt) (base line : Nat) : Gen Unit := do
  let prepare ← emitLoop .forPrepare base
  beginBlock true
  let _ ← reserve 1 line
  addBinder b
  let bodyStart ← here
  statements true ss
  let loop ← closeBlock
  setLine line
  let back ← emitLoop .forLoop base
  patchLoop back bodyStart
  patchLoop prepare back
  patchBreaks loop

/-- What the words of a counting loop do, with the state of the loop in its registers. -/
structure Counts (ps : List Nat) (ls : Array Local) (base : Nat)
    (round : Nat → Value → Store → Ending) (st st' : State) : Prop where
  lays : Lays st st'
  moves : Moves Prototype.WellFormed ps st st' st.level st.level
  ends : ∀ ⦃g : Activation⦄ ⦃brk : Nat⦄ ⦃s : Store⦄ ⦃m : Machine⦄ (n : Nat),
    Belongs g brk [] ps st st' → Here g st s m →
    Ends g.frame (Arrives g ls m st'.size) (fun _ _ => False) n m
      (numericLoop n (round n) (m.reg g.frame base) (m.reg g.frame (base + 1))
        (m.reg g.frame (base + 2)) s)

/-- What the block of a counting loop does in each round, with the state of the loop in its
registers. The jumps that leave the block are not finished. -/
structure Repeats (ps : List Nat) (ls : Array Local) (base : Nat) (loop : ScopeBlock)
    (round : Nat → Value → Store → Ending) (st st' : State) : Prop where
  lays : Lays st st'
  breaks : st'.breaks = st.breaks
  leaves : ∀ n ∈ loop.breaks, st.size ≤ n ∧ n < st'.size
  ends : ∀ ⦃g : Activation⦄ ⦃brk stop : Nat⦄ ⦃l : NumericLoop⦄ ⦃s : Store⦄ ⦃m₀ m : Machine⦄ (n : Nat),
    Belongs g brk loop.breaks ps st st' → (∀ j ∈ loop.breaks, IsJump g.frame j stop) →
    Starts g ls base m₀ st.size l s m →
    Ends g.frame (fun s' m' => Arrives g ls m₀ st'.size s' m' ∧ loopAt g.frame base m' = l)
      (Arrives g ls m₀ stop) n m (round n l.control s)

/-- The block with the variable that counts, which gets its value from the state of the loop. -/
theorem loopBlock_repeats {b : Binder} {ss : List Stmt} {u₁ u₂ u₃ : Unit}
    (hbegin : beginBlock true st = .ok u₁ st₁) (hreserve : reserve 1 line st₁ = .ok r st₂)
    (hbinder : addBinder b st₂ = .ok u₂ st₃) (hinner : statements true ss st₃ = .ok u₃ st₄)
    (hclose : closeBlock st₄ = .ok loop st')
    (hbody : Performs (statements true ss) fun n s => execAll n ss s)
    (hname : b.name ≠ loopState) (hs : Generator.Sound Prototype.WellFormed ps st)
    (hs' : Generator.Sound Prototype.WellFormed ps' st') (htop : st.top = st.level)
    (hstate : HoldsState ls base st) :
    Repeats ps ls base loop (fun n v s => (execAll n ss (s.declare [b.name] [v])).closed s) st st' ∧
      st₃.size = st.size := by
  have hlevel := hstate.level
  obtain ⟨hlocals₁, hproto₁, hloops₁⟩ := beginBlock_locals hbegin hs
  obtain ⟨hs₁, htop₁, hlevel₁, -⟩ := beginBlock_sound hbegin hs
  have hstep₂ := (reserve_step hreserve hs₁).1
  have htop₂ := hstep₂.top_eq
  have hlevel₂ := hstep₂.level
  have hmove₃ := addBinder_moves hbinder hstep₂.sound
  have htop₃ := hmove₃.top_eq
  have hlevel₃ := hmove₃.level_eq
  obtain ⟨t, hmove₄⟩ := hbody.sound _ _ _ _ hmove₃.sound (by omega) hinner
  obtain ⟨hlays₄, hends⟩ := hbody.spec hmove₃.sound (by omega) hinner
  have hbefore := hstep₂.moves.trans hmove₃
  have hinside := hbefore.trans hmove₄
  have hcloses := closeBlock_closes hbegin hs hinside.extends' hinside.sound hclose
  have hlays₃ : Lays st₁ st₃ := (Lays.of_step hstep₂).trans (addBinder_lays hbinder hstep₂.sound)
  have hsize₁ : st₁.size = st.size := by rw [State.size, hproto₁]
  have hsize₂ : st₂.size = st.size := (reserve_size hreserve hs₁).trans hsize₁
  have hsize₃ : st₃.size = st.size := (addBinder_size hbinder hstep₂.sound).trans hsize₂
  obtain ⟨hlays, hbreaks, hge⟩ := hcloses.loop_lays (hlays₃.trans hlays₄) hloops₁ hsize₁ hproto₁
  have hlt : ∀ n ∈ loop.breaks, n < st₄.size := fun n hn =>
    breaks_lt hinside.sound (hcloses.breaks_eq ▸ hn)
  have hle₄ := hlays₄.size_le
  have hle : st₄.size ≤ st'.size := hcloses.grows.size
  refine ⟨⟨hlays, hbreaks, fun n hn => ⟨hge n hn, Nat.lt_of_lt_of_le (hlt n hn) hle⟩, ?_⟩, hsize₃⟩
  intro g brk stop l s m₀ m n hb hjumps h₀
  have hb₃ : Belongs g stop [] _ st₃ st₄ := hb.inside hcloses (by omega) (fun n hn => by
      rw [hbreaks] at hn
      refine (List.mem_append.mp hn).imp_left fun hmem => ?_
      have hlt' := breaks_lt hs hmem
      omega) hjumps hmove₃.sound (hbefore.main hs₁ (beginBlock_main hbegin hs hb.main))
  have hword := hb.closes hcloses (by omega) hs' fun hmem => Nat.lt_irrefl _ (hlt _ hmem)
  -- texts do not see the variables with the state of the loop
  obtain ⟨more, hmore, hhidden⟩ := hstate.locals
  have hholds : ∀ {s' m'}, Holds g.frame st.current.locals s' m' ↔ Holds g.frame ls s' m' := by
    rw [hmore]
    exact holds_hidden hhidden
  have hat₂ : g.At st₂.size m := hsize₂ ▸ h₀.arrives.at'
  have hlocals₂ := hstep₂.keeps.current.locals.trans hlocals₁
  have hh₃ := addBinder_here hbinder hstep₂.sound hname
    ⟨hat₂, hlocals₂ ▸ hholds.mpr h₀.arrives.holds⟩
  rw [show st₂.level = base + 3 by omega, h₀.control] at hh₃
  have hround : Concludes g stop st₁ st₄ n m _ := (hends n hb₃ hh₃).of_extends
    hbefore.extends'.current.locals hlays₃.loops_ne_nil (.refl _ _ _)
  refine (closed_ends hbegin hround hs hinside.extends'.current.locals hcloses hword
    (hholds.mpr h₀.arrives.holds)).mono ?_ ?_
  · rintro s' m' ⟨hh', hhides⟩
    exact ⟨⟨hh'.at', hholds.mp (hcloses.locals ▸ hh'.holds),
      h₀.arrives.hides.trans (hmore ▸ hhides).of_append⟩, (hstate.loopAt_eq hhides).trans h₀.state⟩
  · rintro s' m' ⟨-, h'⟩
    have hhides := h'.hides
    rw [hmore] at hhides
    exact ⟨h'.at', hholds.mp h'.holds, h₀.arrives.hides.trans hhides.of_append⟩

theorem countingWords_counts {b : Binder} {ss : List Stmt}
    (h : countingWords b ss base line st = .ok u st')
    (hbody : Performs (statements true ss) fun n s => execAll n ss s)
    (hname : b.name ≠ loopState) (hs : Generator.Sound Prototype.WellFormed ps st)
    (htop : st.top = st.level) (hstate : HoldsState ls base st) :
    Counts ps ls base (fun n v s => (execAll n ss (s.declare [b.name] [v])).closed s) st st' := by
  simp only [countingWords, bind_ok, here_ok, and_assoc, exists_and_left, exists_eq_left] at h
  obtain ⟨prepare, st₁, hprepare, _, st₂, hbegin, r, st₃, hreserve, _, st₄, hbinder, _, st₅, hinner,
    loop, st₆, hclose, _, st₇, hline, back, st₈, hback, _, st₉, hpatch, _, st₁₀, hpatch', h⟩ := h
  have hlevel := hstate.level
  obtain ⟨hmove₁, rfl, hword, hsize₁⟩ := emitLoop_moves hprepare hs (by simp)
  have hsize₁' : st₁.size = st.size + 1 := hsize₁
  have htop₁ := hmove₁.top_eq
  have hlevel₁ := hmove₁.level_eq
  have hlocals₁ : st₁.current.locals = st.current.locals := (emit_adds hprepare hs).locals
  have hstate₁ : HoldsState ls base st₁ :=
    ⟨hlevel₁.trans hlevel, hlocals₁ ▸ hstate.locals, hstate.below, hlocals₁ ▸ hstate.held⟩
  -- the block
  have hbinders : [b].forM addBinder st₃ = .ok () st₄ := by simpa using hbinder
  have hreserve' : reserve [b].length line st₂ = .ok r st₃ := hreserve
  obtain ⟨hmove₆, hops, hland, hregisters, -⟩ := loopBlock_moves hbegin hreserve'
    (fun _ hs' => .refl hs') hbinders hinner hclose hmove₁.sound (by omega) hbody.sound
  obtain ⟨hrepeats, hstart⟩ := loopBlock_repeats hbegin hreserve hbinder hinner hclose hbody hname
    hmove₁.sound hmove₆.sound (by omega) hstate₁
  -- the last word, and the first one
  have hmove₇ := (setLine_step hline hmove₆.sound).moves
  obtain ⟨hmove₈, rfl, hword₈, hsize₈⟩ := emitLoop_moves hback hmove₇.sound (by simp)
  have hsofar := (hmove₆.followed hmove₇).followed hmove₈
  have hgrow₈ := (hmove₇.followed hmove₈).grows
  have hregisters₈ := hgrow₈.registers
  have hsize₆ := (hmove₆.followed hmove₇).grows.size
  simp only [List.length_singleton] at hregisters
  obtain ⟨hmove₉, hgrow₉⟩ := patchLoop_moves hpatch hsofar (by omega) hword₈ (.inr (.inl rfl))
    (by omega) (hgrow₈.landing hland) (by simp)
  have hregisters₉ := hgrow₉.registers
  obtain ⟨hmove₁₀, hgrow₁₀⟩ := patchLoop_moves hpatch' (hmove₁.followed (hmove₉.cast (by omega) rfl))
    (Nat.le_refl _) (hmove₉.extends'.current.word_eq hword (by simp [Instruction.opcode?_asbx]))
    (.inl rfl) (by omega) (hgrow₉.landing (hmove₈.grows.landing hmove₇.sound.current.settled))
    fun _ => hgrow₉.landing (landing_succ hword₈ (Instruction.opcode?_asbx _ 0) (by simp))
  have hpatched₉ := patchWithin_patches hpatch hsofar.sound
  have hpatched₁₀ := patchWithin_patches hpatch' hmove₉.sound
  have hmax₈ := hsofar.sound.registers_le
  obtain ⟨i, hi, hop, ha, ht⟩ := patchLoop_word hpatch' hmove₉.sound (by omega)
    (hmove₉.extends'.current.word_eq hword (by simp [Instruction.opcode?_asbx]))
  obtain ⟨i', hi', hop', ha', ht'⟩ := patchLoop_word hpatch hsofar.sound (by omega) hword₈
  have hlays₁ : Lays st st₁ := .of_adds (emit_adds hprepare hs)
  have hlays₈ : Lays st₆ st₈ :=
    (Lays.of_step (setLine_step hline hmove₆.sound)).trans (.of_adds (emit_adds hback hmove₇.sound))
  have hbreaks₁ : st₁.breaks = st.breaks := breaks_of_adds (emit_adds hprepare hs)
  have hbreaks₈ : st₈.breaks = st₆.breaks := (breaks_of_adds (emit_adds hback hmove₇.sound)).trans
    (setLine_step hline hmove₆.sound).breaks
  have hbreaks : st₁₀.breaks = st.breaks := hpatched₁₀.breaks.trans (hpatched₉.breaks.trans
    (hbreaks₈.trans (hrepeats.breaks.trans hbreaks₁)))
  have hle₁ : st.current.proto.chunk.size ≤ st₁.current.proto.chunk.size := hlays₁.size_le
  have hlays₉ := hpatched₉.lays (hlays₁.trans (hrepeats.lays.trans hlays₈)) hgrow₉
    fun n hn => by rw [List.mem_singleton.mp hn]; exact Nat.le_trans hle₁ hsize₆
  have hlays₁₀ := hpatched₁₀.lays hlays₉ hgrow₁₀ (by simp)
  have hjump : ∀ n ∈ loop.breaks, st₁₀.current.proto.opcodeAt? n = some .jump := fun n hn =>
    (hgrow₉.trans hgrow₁₀).opcodeAt? (hgrow₈.opcodeAt? (hops n hn))
  obtain ⟨hlays, hpatched, hfinal⟩ := finished h hlays₁₀
    (fun n hn => ⟨Nat.le_trans hle₁ (hrepeats.leaves n hn).1, hjump n hn⟩) hs hmove₁₀.sound hbreaks
  have hmove := hmove₁₀.followed (patchAllHere_moves h hmove₁₀.sound hjump)
  refine ⟨hlays, hmove.cast (by omega) (by omega), ?_⟩
  intro g brk s m n hb hh
  obtain ⟨hb₁₀, hjumps⟩ := hfinal hb
  have hb₈ := (hb₁₀.unpatched hpatched₁₀).unpatched hpatched₉
  have hle₆ := hrepeats.lays.size_le
  have hsize₇ : st₇.size = st₆.size := setLine_size hline
  -- the first and the last word
  have hfirst : IsLoop g.frame st.size .forPrepare base st₇.size := by
    refine ⟨i, hb₁₀.word (Nat.le_refl _) (fun hmem => ?_) (fun hmem => ?_) hi, hop, ha, ht⟩
    · exact Nat.lt_irrefl _ (breaks_lt hs (hbreaks ▸ hmem))
    · have hge := (hrepeats.leaves _ hmem).1
      omega
  have hlast : IsLoop g.frame st₇.size .forLoop base st₁.size := by
    have hother := (hpatched₁₀.other st₇.size fun hmem => by
      have heq : st₇.size = st.size := List.mem_singleton.mp hmem
      omega).trans hi'
    refine ⟨i', hb₁₀.word (by omega) (fun hmem => ?_) (fun hmem => ?_) hother, hop', ha',
      hstart ▸ ht'⟩
    · have hlt := breaks_lt hs (hbreaks ▸ hmem)
      omega
    · have hlt := (hrepeats.leaves _ hmem).2
      omega
  have hb₆ : Belongs g brk loop.breaks _ st₁ st₆ :=
    ((hb₈.upTo hlays₈).after hmove₁).only fun n hn hge hlt => by
      rw [List.mem_append, List.mem_append, List.mem_singleton, List.mem_singleton] at hn
      rcases hn with heq | heq | hn
      · have heq' : n = st₇.size := heq
        omega
      · have heq' : n = st.size := heq
        omega
      · exact hn
  have hfit : base + 4 ≤ g.frame.prototype.registers := by
    have hplaced := hb.placed.registers
    have hgrow := (hpatched.registers).symm
    have hregisters₁₀ := hgrow₁₀.registers
    omega
  obtain ⟨more, hmore, hhidden⟩ := hstate.locals
  have hend : st'.size = st₇.size + 1 :=
    (hpatched.size.trans (hpatched₁₀.size.trans hpatched₉.size)).trans hsize₈
  have hprepares := hfirst.prepares hfit hstate.below
    ⟨hh.at', (holds_hidden hhidden).mp (hmore ▸ hh.holds), .refl _ _ m⟩
  rw [← hsize₁', ← hend] at hprepares
  refine numericLoop_ends hprepares fun l s₁ m₁ h₁ =>
    (hrepeats.ends n hb₆ hjumps h₁).mono ?_ fun _ _ h₂ => h₂
  rintro s₂ m₂ ⟨h₂, hstate₂⟩
  rw [← hsize₇] at h₂
  rw [hend]
  exact hlast.continues hfit hstate.below h₂ hstate₂

/-! ## The whole loop -/

/-- The step that is there if none is given. -/
def stepValue (s : Store) : Option Expr → Option Value
  | some e => value s e
  | none => some (.int 1)

theorem exec_numericFor (n : Nat) (b : Binder) (start stop : Expr) (by' : Option Expr)
    (ss : List Stmt) (line : Nat) (s : Store) :
    exec n (.numericFor b start stop by' ss line) s =
      attempt (value s start) fun first => attempt (value s stop) fun last =>
        attempt (stepValue s by') fun step =>
          numericLoop n (fun v s => (execAll n ss (s.declare [b.name] [v])).closed s)
            first last step s := by
  cases by' with
  | none => simp only [exec, stepValue]
  | some e => simp only [exec, stepValue]

theorem one_computes : Computes (fun r => loadConstant r (.int 1)) fun _ => some (.int 1) :=
  ⟨fun _ _ _ _ _ hs hr h => loadConstant_step h hs hr, fun hc hh hlevel hr h =>
    loadConstant_gives h hc.sound hlevel hr hc.placed hh⟩

/-- Three values are computed into three registers one after the other. -/
theorem threeValues_end {next leave : Store → Machine → Prop} {r₁ r₂ r₃ line₁ line₂ line₃ : Nat}
    {act₁ act₂ act₃ : Evaluation} {sem₁ sem₂ sem₃ : Store → Option Value}
    {rest : Value → Value → Value → Ending} (h₁ : toTemporary line₁ act₁ st = .ok r₁ st₁)
    (h₂ : toTemporary line₂ act₂ st₁ = .ok r₂ st₂) (h₃ : toTemporary line₃ act₃ st₂ = .ok r₃ st')
    (hc₁ : Computes act₁ sem₁) (hc₂ : Computes act₂ sem₂) (hc₃ : Computes act₃ sem₃)
    (hc : Compiles g ps st st') (hh : Here g st s m)
    (hrest : ∀ m', Here g st' s m' → Spares g.frame st.top m m' →
      Ends g.frame next leave n m' (rest (m'.reg g.frame st.top) (m'.reg g.frame (st.top + 1))
        (m'.reg g.frame (st.top + 2)))) :
    Ends g.frame next leave n m (attempt (sem₁ s) fun v₁ => attempt (sem₂ s) fun v₂ =>
      attempt (sem₃ s) fun v₃ => rest v₁ v₂ v₃) := by
  obtain ⟨hstep₁, rfl⟩ := toTemporary_step h₁ hc.sound hc₁.sound
  obtain ⟨hstep₂, rfl⟩ := toTemporary_step h₂ hstep₁.sound hc₂.sound
  obtain ⟨hstep₃, rfl⟩ := toTemporary_step h₃ hstep₂.sound hc₃.sound
  have htop₁ := hstep₁.top_eq
  have htop₂ := hstep₂.top_eq
  refine .attempt (toTemporary_gives h₁ (hc.upTo (hstep₂.trans hstep₃)) hc₁ hh) fun v₁ m₁ _ hm₁ => ?_
  refine .attempt (toTemporary_gives h₂ ((hc.since hstep₁).upTo hstep₃) hc₂ hm₁.here)
    fun v₂ m₂ _ hm₂ => ?_
  refine .attempt (toTemporary_gives h₃ (hc.since (hstep₁.trans hstep₂)) hc₃ hm₂.here)
    fun v₃ m₃ _ hm₃ => ?_
  have hspares := (hm₁.spares.trans (hm₂.spares.weaken (by omega))).trans
    (hm₃.spares.weaken (by omega : st.top ≤ st₂.top))
  have hends := hrest m₃ hm₃.here hspares
  have hreg₁ : m₃.reg g.frame st.top = v₁ := by
    rw [hm₃.spares.reg _ (by omega), hm₂.spares.reg _ (by omega), hm₁.reg]
  have hreg₂ : m₃.reg g.frame (st.top + 1) = v₂ := by
    rw [hm₃.spares.reg _ (by omega), ← htop₁, hm₂.reg]
  have hreg₃ : m₃.reg g.frame (st.top + 2) = v₃ := by
    rw [show st.top + 2 = st₂.top by omega, hm₃.reg]
  rwa [hreg₁, hreg₂, hreg₃] at hends

theorem numericFor_performs {b : Binder} {start stop : Expr} {by' : Option Expr} {ss : List Stmt}
    (hname : b.name ≠ loopState) (hstart : isExpr start = true) (hstop : isExpr stop = true)
    (hby : ∀ e, by' = some e → isExpr e = true)
    (hbody : Performs (statements true ss) fun n s => execAll n ss s) (line : Nat) :
    Performs (statement (.numericFor b start stop by' ss line))
      fun n s => exec n (.numericFor b start stop by' ss line) s := by
  refine ⟨bodySound closed_wellFormed _, fun ps st st' u hs htop h => ?_⟩
  simp only [exec_numericFor]
  rw [statement.eq_def] at h
  simp only [bind_ok, here_ok, pure_ok, and_assoc, exists_and_left, exists_eq_left] at h
  obtain ⟨_, st₁, hline, _, st₂, hbegin, base, st₃, hfirst, r₁, st₄, hsecond, r₂, st₅, hthird, _, st₆,
    hstate, _, st₇, hline₂, prepare, st₈, hprepare, _, st₉, hbegin', r, st₁₀, hreserve, _, st₁₁,
    hbinder, _, st₁₂, hinner, loop, st₁₃, hclose, _, st₁₄, hline₃, back, st₁₅, hback, _, st₁₆,
    hpatch, _, st₁₇, hpatch', _, st₁₈, hbreaks, block, st₁₉, hclose', -, rfl⟩ := h
  have hwords : countingWords b ss base line st₇ = .ok () st₁₈ := by
    simp only [countingWords, bind_ok, here_ok, and_assoc, exists_and_left, exists_eq_left]
    exact ⟨prepare, st₈, hprepare, _, st₉, hbegin', r, st₁₀, hreserve, _, st₁₁, hbinder, _, st₁₂,
      hinner, loop, st₁₃, hclose, _, st₁₄, hline₃, back, st₁₅, hback, _, st₁₆, hpatch, _, st₁₇,
      hpatch', hbreaks⟩
  have hfirst' := expression_computes hstart
  have hsecond' := expression_computes hstop
  obtain ⟨line', act, hthird, hthird'⟩ : ∃ line act, toTemporary line act st₄ = .ok r₂ st₅ ∧
      Computes act fun s => stepValue s by' := by
    cases by' with
    | none => exact ⟨_, _, hthird, one_computes⟩
    | some e => exact ⟨_, _, hthird, (expression_computes (hby e rfl))⟩
  have hstep₁ := setLine_step hline hs
  have hsize₁ := setLine_size hline
  have htop₁ := hstep₁.top_eq
  have hlevel₁ := hstep₁.level
  have hlocals₁ := hstep₁.keeps.current.locals
  obtain ⟨hlocals₂, hproto₂, hloops₂⟩ := beginBlock_locals hbegin hstep₁.sound
  obtain ⟨hs₂, htop₂, hlevel₂, -⟩ := beginBlock_sound hbegin hstep₁.sound
  have hsize₂ : st₂.size = st₁.size := by rw [State.size, hproto₂]
  -- the three values, which become variables without names
  obtain ⟨hstep₃, rfl⟩ := toTemporary_step hfirst hs₂ hfirst'.sound
  obtain ⟨hstep₄, rfl⟩ := toTemporary_step hsecond hstep₃.sound hsecond'.sound
  obtain ⟨hstep₅, rfl⟩ := toTemporary_step hthird hstep₄.sound hthird'.sound
  have hvalues := (hstep₃.trans hstep₄).trans hstep₅
  have htop₃ := hstep₃.top_eq
  have htop₄ := hstep₄.top_eq
  have htop₅ := hstep₅.top_eq
  have hlevel₅ := hvalues.level
  have hlocals₅ : st₅.current.locals = st.current.locals :=
    (hvalues.keeps.current.locals.trans hlocals₂).trans hlocals₁
  have hmove₆ := addLoopState_moves hstate hstep₅.sound
  have htop₆ := hmove₆.top_eq
  have hlevel₆ := hmove₆.level_eq
  obtain ⟨hstate₆, -⟩ := addLoopState_holds hstate hstep₅.sound
  have hstep₇ := setLine_step hline₂ hmove₆.sound
  have hsize₇ := setLine_size hline₂
  have htop₇ := hstep₇.top_eq
  have hlevel₇ := hstep₇.level
  have hlocals₇ := hstep₇.keeps.current.locals
  have hstate₇ : HoldsState st.current.locals st₂.top st₇ := by
    obtain ⟨hlevel, hmore, hbelow, hheld⟩ := hstate₆
    rw [hlocals₅] at hmore hbelow
    rw [show st₅.level = st₂.top by omega] at hlevel hbelow hheld
    exact ⟨hlevel₇.trans hlevel, hlocals₇ ▸ hmore, hbelow, hlocals₇ ▸ hheld⟩
  have hcounts := countingWords_counts hwords hbody hname hstep₇.sound (by omega) hstate₇
  -- the end of the block around the loop
  have hmove₁₈ := (hvalues.moves.trans hmove₆).trans (hstep₇.moves.trans hcounts.moves)
  have hcloses := closeBlock_closes hbegin hstep₁.sound hmove₁₈.extends' hmove₁₈.sound hclose'
  have hmove' := (closeBlock_moves hbegin hstep₁.sound hmove₁₈.extends' hmove₁₈.sound hclose').1
  have hlays₅ : Lays st₅ st₁₈ :=
    ((addLoopState_lays hstate hstep₅.sound).trans (.of_step hstep₇)).trans hcounts.lays
  have hend : Lays st₁₈ st' := .of_loops hcloses.grows hcloses.code hcloses.loops.symm
  have hlays₂ : Lays st₁ st₂ := .of_loops (by rw [hproto₂]; exact .refl _)
    (fun n _ => by rw [hproto₂]) hloops₂
  have hlays : Lays st₁ st₁₈ := (hlays₂.trans (.of_step hvalues)).trans hlays₅
  refine ⟨((Lays.of_step hstep₁).trans hlays).trans hend, fun g brk s m n hb hh => ?_⟩
  have hb₁ := hb.after hstep₁.moves
  have hb₂ := hb₁.since (Nat.le_of_eq hsize₂.symm) hs₂ (beginBlock_main hbegin hstep₁.sound hb₁.main)
  have hc := (hb₂.upTo (hlays₅.trans hend)).compiles hvalues.breaks (by simp)
  have hh₁ := hh.silent hs hstep₁ hsize₁
  have hh₂ : Here g st₂ s m := ⟨hsize₂ ▸ hh₁.at', hlocals₂ ▸ hh₁.holds⟩
  refine threeValues_end hfirst hsecond hthird hfirst' hsecond' hthird' hc hh₂ fun m₃ hh₅ hspares => ?_
  have hh₇ := (addLoopState_here hstate hstep₅.sound hh₅).silent hmove₆.sound hstep₇ hsize₇
  have hb₇ := (hb₂.after ((hvalues.moves.trans hmove₆).trans hstep₇.moves)).upTo hend
  have hends := hcounts.ends n hb₇ hh₇
  have hword := hb₁.closes hcloses hlays.size_le hmove'.sound List.not_mem_nil
  refine hends.follow ?_ fun _ _ => False.elim
  rintro s' m' h'
  refine (closes_leads hword h'.at').mono ?_
  rintro m'' ⟨hat, hstack, hheap⟩
  have hlocals' : st'.current.locals = st.current.locals := hcloses.locals.trans hlocals₁
  exact ⟨⟨hat, hlocals' ▸ h'.holds.same hat hstack hheap⟩,
    ((Hides.of_spares hs (hspares.weaken (by omega))).trans h'.hides).trans (.of_stack _ _ hstack)⟩

end Structured
end LuaMachine
