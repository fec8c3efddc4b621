import LuaMachine.Proofs.Machine.Guarding
import LuaMachine.Proofs.Structured.Counting
import LuaMachine.Proofs.Structured.Words
/-! # The rounds of a loop over integers

A loop over integers has its state in three registers that nothing writes but its own two words. So
whatever the body does, as long as it comes to its end the loop executes it once for each integer of
the progression, in the order of the progression, and goes on behind itself then.

* `Frame.HasLoop`: the words of a loop.
* `Machine.Enters`: where such a word goes on, and what it leaves in the registers.
* `Machine.Rounds`: the rounds of a loop.
* `Machine.Reached.rounds`: they are those of the progression.
-/
set_option autoImplicit false

namespace LuaMachine

/-- The integers from the first one on by steps, as far as the last one. -/
def Spans (first last step : Int64) (xs : List Int64) : Prop :=
  ∀ k : Nat, (∀ x, xs[k]? = some x → x.toInt = first.toInt + k * step.toInt) ∧
    (k < xs.length ↔ if 0 < step then first.toInt + k * step.toInt ≤ last.toInt
      else last.toInt ≤ first.toInt + k * step.toInt)

/-- The values of the progression are these integers, none of which is out of range. -/
theorem exists_spans {first last step : Int64} (hstep : step ≠ 0) :
    ∃ xs, Spans first last step xs ∧ Structured.progression first last step = xs.map .int := by
  have hzero : (0 : Int64).toInt = 0 := rfl
  have hne : step.toInt ≠ 0 := fun h0 => hstep (Int64.toInt_inj.mp (h0.trans hzero.symm))
  -- the integers that are reached in so many steps lie on this side of the last one
  have hreach : ∀ k : Nat, k < (Int.fdiv (last.toInt - first.toInt) step.toInt + 1).toNat ↔
      if 0 < step then first.toInt + k * step.toInt ≤ last.toInt
      else last.toInt ≤ first.toInt + k * step.toInt := by
    intro k
    have hcount : k < (Int.fdiv (last.toInt - first.toInt) step.toInt + 1).toNat ↔
        (k : Int) ≤ Int.fdiv (last.toInt - first.toInt) step.toInt := by omega
    rw [hcount]
    by_cases hpos : 0 < step
    · rw [if_pos hpos]
      rw [Int64.lt_iff_toInt_lt, hzero] at hpos
      rw [Int.fdiv_eq_ediv_of_nonneg _ (by omega), Int.le_ediv_iff_mul_le hpos]
      omega
    · rw [if_neg hpos]
      rw [Int64.lt_iff_toInt_lt, hzero] at hpos
      rw [← Int.neg_fdiv_neg, Int.fdiv_eq_ediv_of_nonneg _ (by omega),
        Int.le_ediv_iff_mul_le (by omega), Int.mul_neg]
      omega
  refine ⟨(List.range (Int.fdiv (last.toInt - first.toInt) step.toInt + 1).toNat).map fun (k : Nat) =>
    Int64.ofInt (first.toInt + k * step.toInt), fun k => ⟨fun x hx => ?_, ?_⟩, ?_⟩
  · rw [List.getElem?_map] at hx
    obtain ⟨k', hk', rfl⟩ := Option.map_eq_some_iff.mp hx
    obtain ⟨hlt, rfl⟩ := List.getElem?_eq_some_iff.mp hk'
    rw [List.getElem_range]
    rw [List.length_range] at hlt
    have hside := (hreach k).mp hlt
    have hfirst := first.le_toInt
    have hfirst' := first.toInt_lt
    have hlast := last.le_toInt
    have hlast' := last.toInt_lt
    have hnonneg : 0 ≤ (k : Int) := Int.natCast_nonneg k
    by_cases hpos : 0 < step
    · rw [if_pos hpos] at hside
      rw [Int64.lt_iff_toInt_lt, hzero] at hpos
      have hprod := Int.mul_nonneg hnonneg (Int.le_of_lt hpos)
      exact Int64.toInt_ofInt_of_le (by omega) (by omega)
    · rw [if_neg hpos] at hside
      rw [Int64.lt_iff_toInt_lt, hzero] at hpos
      have hprod := Int.mul_nonpos_of_nonneg_of_nonpos hnonneg (Int.not_lt.mp hpos)
      exact Int64.toInt_ofInt_of_le (by omega) (by omega)
  · rw [List.length_map, List.length_range]
    exact hreach k
  · rw [Structured.progression, List.map_map]
    rfl

/-- The words of a counting loop with its state in the registers from `a` on: the words between the
first one and the last one leave the state alone. -/
structure Frame.HasLoop (f : Frame) (n back a : Nat) : Prop where
  lt : n < back
  first : ∃ i, f.prototype.chunk.code[n]? = some i ∧ i.opcode? = some .forPrepare ∧ i.a = a ∧
    (n : Int) + 1 + i.signedBx = back
  last : ∃ i, f.prototype.chunk.code[back]? = some i ∧ i.opcode? = some .forLoop ∧ i.a = a ∧
    (back : Int) + 1 + i.signedBx = n + 1
  spares : ∀ t, n + 1 ≤ t → t < back → f.Spares t (f.base + a) (f.base + a + 3)

theorem Prototype.Noted.hasLoop {f : Frame} {ν : Nat → Note} {n : Nat} {i : Instruction}
    (hν : f.prototype.Noted ν fun _ => False) (hi : f.prototype.chunk.code[n]? = some i)
    (hop : i.opcode? = some .forPrepare) :
    ∃ back, f.HasLoop n back i.a ∧ (n : Int) + 1 + i.signedBx = back := by
  have hlt := Prototype.lt_size_of_word hi
  obtain ⟨back, j, hback, -, htarget, hj, hloop, ha, hstart, hwithin, hsplits⟩ :=
    (hν.settled n hlt id).counts i hi hop
  obtain ⟨i', op', hi', hop', hminds⟩ := hν.words n hlt
  cases hi.symm.trans hi'
  cases hop.symm.trans hop'
  obtain ⟨s, hs⟩ := (hminds.loops (.inl rfl)).2
  refine ⟨back, ⟨hback, ⟨i, hi, hop, rfl, htarget⟩, ⟨j, hj, hloop, ha, hstart⟩, fun t ht hlt' => ?_⟩,
    htarget⟩
  have hlt'' := Prototype.lt_size_of_word hj
  obtain ⟨k, op, hk, hkop, hminds'⟩ := hν.words t (by omega)
  refine hminds'.spares hk hkop ⟨s, fun r hle hr => ?_⟩ (hsplits t ht hlt')
  obtain ⟨l, hl, hrest⟩ := hs r hle hr
  exact ⟨l, hwithin t ht (Nat.le_of_lt hlt') r l hl, hrest⟩

namespace Machine

variable {code : Nat → Prototype} {f g : Frame} {m m' m₁ : Machine} {i : Instruction}
  {fuel a d n t back enter past : Nat} {l : NumericLoop} {r : Option NumericLoop} {vs rest : List Value}

/-! ## The words of a loop -/

/-- A word of a loop enters the next round with a state, or goes on behind the loop. -/
def Enters (f : Frame) (a enter past : Nat) (r : Option NumericLoop) (m m' : Machine) : Prop :=
  m'.openUpvalues = m.openUpvalues ∧
    match r with
    | none => m'.frames = m.frames.modify (m.frames.size - 1) fun g => { g with next := past }
    | some l => m'.frames = m.frames.modify (m.frames.size - 1) (fun g => { g with next := enter }) ∧
        At.loopAt f a m' = l ∧ m'.reg f (a + 3) = l.control

/-- A word that writes the state of the loop. -/
theorem enters_some {s : Array Value} (hroom : f.base + a + 4 ≤ s.size)
    (hframes : m'.frames = m.frames.modify (m.frames.size - 1) fun g => { g with next := enter })
    (hopened : m'.openUpvalues = m.openUpvalues)
    (hstack : m'.stack = putSlots (f.base + a) [l.control, l.limit, l.step, l.control] s) :
    Enters f a enter past (some l) m m' := by
  have hget : ∀ j < 4, m'.reg f (a + j) = [l.control, l.limit, l.step, l.control].getD j .nil := by
    intro j hj
    have hin : f.base + a ≤ f.base + (a + j) ∧
        f.base + (a + j) < f.base + a + [l.control, l.limit, l.step, l.control].length := by
      simp only [List.length_cons, List.length_nil]
      omega
    rw [reg, hstack, Array.getD_eq_getD_getElem?, putSlots_getElem? _ _ _ _ hroom, if_pos hin,
      List.getD_eq_getElem?_getD, show f.base + (a + j) - (f.base + a) = j by omega]
  refine ⟨hopened, hframes, ?_, hget 3 (by omega)⟩
  rw [At.loopAt, show m'.reg f a = l.control from hget 0 (by omega), hget 1 (by omega),
    hget 2 (by omega)]
  rfl

/-- Behind a jump of the fetched instruction. -/
theorem advanced_jump (ha : Active code f m) (t : Nat) :
    m.advanced.modify (m.advanced.size - 1) (fun g => { g with next := t, open' := f.open' }) =
      m.frames.modify (m.frames.size - 1) fun g => { g with next := t } := by
  rw [advanced_size, advanced, modify_back]
  exact modify_congr ha.frame_get rfl

theorem advanced_step (ha : Active code f m) :
    m.advanced = m.frames.modify (m.frames.size - 1) fun g => { g with next := f.next + 1 } :=
  modify_congr ha.frame_get rfl

/-- The room that the state of a loop has on the stack. -/
theorem Active.room (ha : Active code f m) (hi : f.prototype.chunk.code[f.next]? = some i)
    (hop : i.opcode? = some .forPrepare ∨ i.opcode? = some .forLoop) :
    f.base + i.a + 4 ≤ m.stack.size := by
  obtain ⟨op, hop', hvalid⟩ := ha.codeValid.words _ i hi
  have hfit : i.a + 4 ≤ f.prototype.registers := by
    rcases hop with hop | hop
    · cases hop'.symm.trans hop
      exact hvalid.operands.run_le List.mem_cons_self
    · cases hop'.symm.trans hop
      exact hvalid.operands.run_le List.mem_cons_self
  have hwindow := ha.window_le_size
  omega

/-- The loop is prepared. -/
theorem ensures_prepared (ha : Active code f m) (hi : f.prototype.chunk.code[f.next]? = some i)
    (hop : i.opcode? = some .forPrepare) (hback : (f.next : Int) + 1 + i.signedBx = back)
    (hstart : NumericLoop.start (m.reg f i.a) (m.reg f (i.a + 1)) (m.reg f (i.a + 2)) = .ok r) :
    m.Ensures (iteration fuel)
      (fun o m' => o = .next ∧ Enters f i.a (f.next + 1) (back + 1) r m m') fun _ _ => False := by
  have hroom := ha.room hi (.inl hop)
  refine ensures_iteration ha hi (E := fun _ => False) fun shown => ?_
  have hfetched := ha.fetched shown
  rw [turn, ensures_bind, ensures_step hfetched]
  have hstart' : NumericLoop.start ((m.fetched shown).stack.getD (f.base + i.a) .nil)
      ((m.fetched shown).stack.getD (f.base + (i.a + 1)) .nil)
      ((m.fetched shown).stack.getD (f.base + (i.a + 2)) .nil) = .ok r := hstart
  simp only [perform, hop, forPrepare, ensures_bind, ensures_register, hstart', ofExcept,
    ensures_pure]
  cases r with
  | none =>
    rw [ensures_bind]
    refine ensures_jump_to (t := back + 1) hfetched.back ?_ ⟨rfl, rfl, advanced_jump ha _⟩
    show ((f.next + 1 : Nat) : Int) + (i.signedBx + 1) = _
    omega
  | some l =>
    simp only [setLoop, ensures_bind, ensures_setSlots, ensures_pure]
    exact ⟨trivial, enters_some hroom (advanced_step ha) rfl rfl⟩

/-- The loop goes on with the next round, or ends. -/
theorem ensures_looped (ha : Active code f m) (hi : f.prototype.chunk.code[f.next]? = some i)
    (hop : i.opcode? = some .forLoop) (henter : (f.next : Int) + 1 + i.signedBx = enter) :
    m.Ensures (iteration fuel)
      (fun o m' => o = .next ∧ Enters f i.a enter (f.next + 1) (At.loopAt f i.a m).next m m')
      fun _ _ => False := by
  have hroom := ha.room hi (.inr hop)
  refine ensures_iteration ha hi (E := fun _ => False) fun shown => ?_
  have hfetched := ha.fetched shown
  rw [turn, ensures_bind, ensures_step hfetched]
  have hstate : (⟨(m.fetched shown).stack.getD (f.base + i.a) .nil,
      (m.fetched shown).stack.getD (f.base + (i.a + 1)) .nil,
      (m.fetched shown).stack.getD (f.base + (i.a + 2)) .nil⟩ : NumericLoop) = At.loopAt f i.a m := rfl
  simp only [perform, hop, forLoop, ensures_bind, ensures_register, hstate]
  cases (At.loopAt f i.a m).next with
  | none =>
    simp only [ensures_pure]
    exact ⟨trivial, rfl, advanced_step ha⟩
  | some l =>
    simp only [setLoop, ensures_bind, ensures_setSlots]
    refine ensures_jump_to (t := enter) hfetched.back ?_
      ⟨rfl, enters_some hroom (advanced_jump ha _) rfl rfl⟩
    show ((f.next + 1 : Nat) : Int) + i.signedBx = _
    omega

/-! ## Rounds -/

/-- From where the loop is prepared, its body has been executed once for each of the values, which the
variable of the loop had at first, and then the last word of the loop each time. -/
inductive Rounds (d n back slot : Nat) (m : Machine) : List Value → Machine → Prop where
  | prepared {m' : Machine} (hstep : Advances m m') : Rounds d n back slot m [] m'
  | again {vs : List Value} {m₁ m₂ m₃ : Machine} (h : Rounds d n back slot m vs m₁)
      (hstands : Stands d (n + 1) m₁) (hbody : Traverses d (n + 1) back m₁ m₂)
      (hstep : Advances m₂ m₃) :
      Rounds d n back slot m (vs ++ [m₁.stack.getD slot .nil]) m₃

/-- A round of the loop begins with this state. -/
structure InRound (f : Frame) (d n a : Nat) (l : NumericLoop) (m : Machine) : Prop where
  heedful : m.Heedful
  stands : Stands d (n + 1) m
  guards : Guards f d (f.base + a) (f.base + a + 3) m m
  state : At.loopAt f a m = l
  value : m.reg f (a + 3) = l.control

/-- The slots of the innermost frame that no upvalue is open for. -/
theorem Guards.start {low high : Nat} (hback : m.frames.back? = some g) (hsize : m.frames.size = d + 1)
    (hsame : f.Same g) (hunopened : ∀ u ∈ m.openUpvalues, low ≤ u.1 → high ≤ u.1) :
    Guards f d low high m m := by
  refine ⟨⟨g, ?_, hsame⟩, fun e g' he hg' => ?_, hunopened, fun _ _ _ => rfl⟩
  · have hlast := back?_eq_some_iff.mp hback
    rwa [hsize, Nat.add_sub_cancel] at hlast
  · have hlt := (Array.getElem?_eq_some_iff.mp hg').1
    omega

theorem stands_modify {f : Frame} (hback : m.frames.back? = some f) (hsize : m.frames.size = d + 1)
    (hframes : m'.frames = m.frames.modify (m.frames.size - 1) fun g => { g with next := t }) :
    Stands d t m' ∧ m'.frames.back? = some { f with next := t } := by
  have hback' : m'.frames.back? = some { f with next := t } := by
    rw [back?_eq_some_iff, hframes, Array.size_modify, Array.getElem?_modify, if_pos rfl,
      back?_eq_some_iff.mp hback]
    rfl
  exact ⟨⟨by rw [hframes, Array.size_modify, hsize], _, hback', rfl⟩, hback'⟩

theorem Enters.inRound (h : Enters g a (n + 1) past (some l) m m') (ha : Active code g m)
    (hsize : m.frames.size = d + 1) (hsame : f.Same g) (hheedful : m'.Heedful)
    (hunopened : ∀ u ∈ m.openUpvalues, f.base + a ≤ u.1 → f.base + a + 3 ≤ u.1) :
    InRound f d n a l m' := by
  obtain ⟨hopened, hframes, hstate, hvalue⟩ := h
  obtain ⟨hstands, hback⟩ := stands_modify ha.back hsize hframes
  have hbase : g.base = f.base := by rw [hsame]
  rw [At.loopAt, reg, reg, reg, hbase] at hstate
  rw [reg, hbase] at hvalue
  exact ⟨hheedful, hstands, .start hback hstands.1 (hsame.trans rfl)
    fun u hu => hunopened u (hopened ▸ hu), hstate, hvalue⟩

/-- At the end of the body the last word of the loop is executed, which has its state as it was. -/
theorem InRound.looped (h : InRound f d n a l m) (hloop : f.HasLoop n back a)
    (hbody : Traverses d (n + 1) back m m₁) :
    (∃ m', Advances m₁ m') ∧ ∀ m', Advances m₁ m' →
      match l.next with
      | none => Stands d (back + 1) m'
      | some l' => InRound f d n a l' m' := by
  obtain ⟨hguards, hheedful⟩ := h.guards.traverses h.heedful (by omega) hloop.spares hbody
  obtain ⟨hsize, g, hback, hnext⟩ := hbody.2
  obtain ⟨code, g', ha⟩ := hheedful.active
  cases hback.symm.trans ha.back
  obtain ⟨g', hg', hsame⟩ := hguards.frame
  have hlast := ha.frame_get
  rw [hsize, Nat.add_sub_cancel] at hlast
  cases hlast.symm.trans hg'
  obtain ⟨i, hi, hop, rfl, htarget⟩ := hloop.last
  have hbase : g.base = f.base := by rw [hsame]
  have hstate : At.loopAt g i.a m₁ = l := by
    rw [← h.state]
    simp only [At.loopAt, reg, hbase]
    rw [hguards.slots _ (Nat.le_refl _) (by omega), hguards.slots _ (by omega) (by omega),
      hguards.slots _ (by omega) (by omega)]
  have hprototype : g.prototype = f.prototype := by rw [hsame]
  have hword : g.prototype.chunk.code[g.next]? = some i := by
    rw [hprototype, hnext]
    exact hi
  have henters : ∀ fuel, m₁.Ensures (iteration fuel) (fun o m' => o = .next ∧
      Enters g i.a (n + 1) (g.next + 1) (At.loopAt g i.a m₁).next m₁ m') fun _ _ => False :=
    fun fuel => ensures_looped ha hword hop (by omega)
  rw [hstate, hnext] at henters
  refine ⟨?_, fun m' hadvances => ?_⟩
  · rcases ensures_iff_run.mp (henters 0) with ⟨o, m', hrun, rfl, -⟩ | ⟨_, _, _, hfalse⟩
    · exact ⟨m', 0, hrun⟩
    · exact hfalse.elim
  · obtain ⟨fuel, hrun⟩ := id hadvances
    have hgoes := ((henters fuel).of_ok hrun).2
    cases hnext' : l.next with
    | none =>
      rw [hnext'] at hgoes
      exact (stands_modify ha.back hsize hgoes.2).1
    | some l' =>
      rw [hnext'] at hgoes
      exact hgoes.inRound ha hsize hsame (hheedful.advances hadvances) hguards.unopened

/-- What is left of a loop: it has ended, or a round begins with the first of the values. -/
def Remains (f : Frame) (d n back a : Nat) (rest : List Value) (m : Machine) : Prop :=
  (rest = [] ∧ Stands d (back + 1) m) ∨ ∃ l, l.Unrolls rest ∧ InRound f d n a l m

theorem InRound.remains {v : Value} (h : l.Unrolls (v :: rest))
    (hnext : match l.next with
      | none => Stands d (back + 1) m
      | some l' => InRound f d n a l' m) : v = l.control ∧ Remains f d n back a rest m := by
  cases h with
  | last hlast =>
    rw [hlast] at hnext
    exact ⟨rfl, .inl ⟨rfl, hnext⟩⟩
  | more hmore h' =>
    rw [hmore] at hnext
    exact ⟨rfl, .inr ⟨_, h', hnext⟩⟩

/-- The values of the rounds are those that the loop comes to, one after the other. -/
theorem Rounds.remains (h : Rounds d n back (f.base + (a + 3)) m vs m') (hloop : f.HasLoop n back a)
    {values : List Value} (hprepared : ∀ m₁, Advances m m₁ → Remains f d n back a values m₁) :
    ∃ rest, values = vs ++ rest ∧ Remains f d n back a rest m' := by
  induction h with
  | prepared hstep => exact ⟨values, rfl, hprepared _ hstep⟩
  | @again vs m₁ m₂ m₃ _ hstands hbody hstep ih =>
    obtain ⟨rest, hvalues, ⟨-, hpast⟩ | ⟨l, hunrolls, hround⟩⟩ := ih
    · obtain ⟨-, g, hg, hnext⟩ := hstands
      obtain ⟨-, g', hg', hnext'⟩ := hpast
      cases hg.symm.trans hg'
      have hlt := hloop.lt
      omega
    · cases rest with
      | nil => cases hunrolls
      | cons v rest =>
        obtain ⟨rfl, hremains⟩ := InRound.remains hunrolls ((hround.looped hloop hbody).2 _ hstep)
        refine ⟨rest, ?_, hremains⟩
        have hvalue : m₁.stack.getD (f.base + (a + 3)) .nil = l.control := hround.value
        rw [hvalue, List.append_assoc]
        exact hvalues

variable {options : Options} {hosts : Array HostFunction} {p : Moment} {init limit step : Int64}

/-- Whatever the body of a loop over integers does, the loop executes it once for each integer of the
progression, in its order, and then goes on behind itself. -/
theorem Reached.rounds (hhosts : ∀ f ∈ hosts, HostFunction.Honest f) (h : Reached options hosts p)
    (htask : p.task = .loop) (hback : p.machine.frames.back? = some f)
    (hi : f.prototype.chunk.code[f.next]? = some i) (hop : i.opcode? = some .forPrepare)
    (hinit : p.machine.reg f i.a = .int init) (hlimit : p.machine.reg f (i.a + 1) = .int limit)
    (hstep : p.machine.reg f (i.a + 2) = .int step) (hzero : step ≠ 0) :
    ∃ (back : Nat) (xs : List Int64), f.next < back ∧ (f.next : Int) + 1 + i.signedBx = back ∧
      Spans init limit step xs ∧
      (∃ m', Rounds (p.machine.frames.size - 1) f.next back (f.base + (i.a + 3)) p.machine [] m') ∧
      ∀ vs m', Rounds (p.machine.frames.size - 1) f.next back (f.base + (i.a + 3)) p.machine vs m' →
        vs = (xs.take vs.length).map .int ∧
        (vs.length = xs.length → Stands (p.machine.frames.size - 1) (back + 1) m') ∧
        ∀ x, xs[vs.length]? = some x → Stands (p.machine.frames.size - 1) (f.next + 1) m' ∧
          m'.reg f (i.a + 3) = .int x ∧
          ∀ m₁, Traverses (p.machine.frames.size - 1) (f.next + 1) back m' m₁ →
            ∃ m₂, Advances m₁ m₂ := by
  have hheedful := h.heedful hhosts htask
  obtain ⟨code, f', ha⟩ := hheedful.active
  cases hback.symm.trans ha.back
  obtain ⟨ν, hν, -⟩ := h.authored.mindful ha.frame_mem
  obtain ⟨back, hloop, htarget⟩ := hν.hasLoop hi hop
  obtain ⟨xs, hspans, hvalues⟩ :
      ∃ xs, Spans init limit step xs ∧ Structured.progression init limit step = xs.map .int :=
    exists_spans hzero
  have hsize : p.machine.frames.size = p.machine.frames.size - 1 + 1 := by
    have hpos := ha.size_pos
    omega
  obtain ⟨i', op', hi', hop', hminds⟩ := hν.words f.next (Prototype.lt_size_of_word hi)
  cases hi.symm.trans hi'
  cases hop.symm.trans hop'
  have hunopened := hheedful.unopened hback hν hi hop (by simp) (hminds.loops (.inl rfl)).2
  -- the first word of the loop leaves the state of the loop in its registers
  have hfirst : (∃ m', Advances p.machine m') ∧ ∀ m₁, Advances p.machine m₁ →
      Remains f (p.machine.frames.size - 1) f.next back i.a (xs.map .int) m₁ := by
    rw [← hvalues]
    have hprepares : ∀ r, NumericLoop.start (.int init) (.int limit) (.int step) = .ok r →
        ∀ fuel, p.machine.Ensures (iteration fuel)
          (fun o m' => o = .next ∧ Enters f i.a (f.next + 1) (back + 1) r p.machine m') fun _ _ => False :=
      fun r hr fuel => ensures_prepared ha hi hop htarget (by rw [hinit, hlimit, hstep]; exact hr)
    have hexists : ∀ r, NumericLoop.start (.int init) (.int limit) (.int step) = .ok r →
        ∃ m', Advances p.machine m' := by
      intro r hr
      rcases ensures_iff_run.mp (hprepares r hr 0) with ⟨o, m', hrun, rfl, -⟩ | ⟨_, _, _, hfalse⟩
      · exact ⟨m', 0, hrun⟩
      · exact hfalse.elim
    rcases NumericLoop.start_integers hzero with ⟨hnone, hnil⟩ | ⟨l, hsome, hunrolls⟩
    · refine ⟨hexists _ hnone, fun m₁ hadvances => .inl ⟨hnil, ?_⟩⟩
      obtain ⟨fuel, hrun⟩ := hadvances
      have henters := ((hprepares _ hnone fuel).of_ok hrun).2
      exact (stands_modify hback hsize henters.2).1
    · refine ⟨hexists _ hsome, fun m₁ hadvances => .inr ⟨l, hunrolls, ?_⟩⟩
      obtain ⟨fuel, hrun⟩ := id hadvances
      have henters := ((hprepares _ hsome fuel).of_ok hrun).2
      exact henters.inRound ha hsize (.refl f) (hheedful.advances hadvances) hunopened
  obtain ⟨m₀, hm₀⟩ := hfirst.1
  refine ⟨back, xs, hloop.lt, htarget, hspans, ⟨m₀, .prepared hm₀⟩, fun vs m' hrounds => ?_⟩
  obtain ⟨rest, happend, hremains⟩ := hrounds.remains hloop hfirst.2
  have hlength := congrArg List.length happend
  rw [List.length_map, List.length_append] at hlength
  refine ⟨?_, fun hall => ?_, fun x hx => ?_⟩
  · rw [List.map_take, happend, List.take_left]
  · rcases hremains with ⟨-, hpast⟩ | ⟨l, hunrolls, -⟩
    · exact hpast
    · obtain rfl : rest = [] := List.eq_nil_of_length_eq_zero (by omega)
      cases hunrolls
  · have hnext : (xs.map Value.int)[vs.length]? = some (.int x) := by rw [List.getElem?_map, hx]; rfl
    rw [happend, List.getElem?_append_right (Nat.le_refl _), Nat.sub_self] at hnext
    rcases hremains with ⟨rfl, -⟩ | ⟨l, hunrolls, hround⟩
    · cases hnext
    · have hcontrol : l.control = .int x := by
        cases hunrolls <;> exact Option.some.inj hnext
      exact ⟨hround.stands, hround.value.trans hcontrol, fun m₁ hbody => (hround.looped hloop hbody).1⟩

/-! ## A loop that is reached -/

/-- The first of the arguments beyond the parameters is put into a register. -/
theorem Reached.takesExtra (hhosts : ∀ f ∈ hosts, HostFunction.Honest f)
    (h : Reached options hosts ⟨fuel + 1, .loop, m⟩) (hback : m.frames.back? = some f)
    (hi : f.prototype.chunk.code[f.next]? = some i) (hop : i.opcode? = some .vararg) (hc : i.c = 2) :
    ∃ m', Reached options hosts ⟨fuel, .loop, m'⟩ ∧
      m'.frames.back? = some { f with next := f.next + 1 } ∧ m'.reg f i.a = f.extra.getD 0 .nil ∧
      ∀ r, r ≠ i.a → m'.reg f r = m.reg f r := by
  obtain ⟨code, f', ha⟩ := (h.heedful hhosts rfl).active
  cases hback.symm.trans ha.back
  have hroom : f.base + i.a < m.stack.size := by
    obtain ⟨op, hop', hvalid⟩ := ha.codeValid.words _ i hi
    cases hop'.symm.trans hop
    have hfit := hvalid.operands.registers (i.a, i.c - 1) List.mem_cons_self 0 (by omega)
    have hwindow : f.base + f.prototype.registers ≤ m.stack.size := ha.window_le_size
    omega
  have htakes : m.Ensures (iteration fuel) (fun o m' => o = .next ∧ m'.frames = m.advanced ∧
      m'.stack = m.stack.setIfInBounds (f.base + i.a) (f.extra.getD 0 .nil)) fun _ _ => False := by
    refine ensures_iteration ha hi (E := fun _ => False) fun shown => ?_
    rw [turn, ensures_bind, ensures_step (ha.fetched shown)]
    simp only [perform, hop, vararg, hc]
    exact ⟨rfl, rfl, rfl⟩
  rcases ensures_iff_run.mp htakes with ⟨o, m', hrun, rfl, hframes, hstack⟩ | ⟨_, _, _, hfalse⟩
  · refine ⟨m', h.goes (.loop hrun), ?_, ?_, fun r hne => ?_⟩
    · rw [hframes]
      exact (ha.fetched "").back
    · rw [reg, hstack, Array.getD_eq_getD_getElem?, Array.getElem?_setIfInBounds_self_of_lt hroom,
        Option.getD_some]
    · rw [reg, hstack, Array.getD_eq_getD_getElem?, Array.getElem?_setIfInBounds_ne (by omega), reg,
        Array.getD_eq_getD_getElem?]
  · exact hfalse.elim

/-- The first of the arguments beyond the parameters is put into one register after the other. -/
theorem Reached.takesExtras {count : Nat} (hhosts : ∀ f ∈ hosts, HostFunction.Honest f)
    (h : Reached options hosts ⟨count, .loop, m⟩) (hback : m.frames.back? = some { f with next := 0 })
    (hwords : ∀ k < count, ∃ i, f.prototype.chunk.code[k]? = some i ∧ i.opcode? = some .vararg ∧
      i.a = k ∧ i.c = 2) {k : Nat} (hk : k ≤ count) :
    ∃ m', Reached options hosts ⟨count - k, .loop, m'⟩ ∧
      m'.frames.back? = some { f with next := k } ∧ ∀ r < k, m'.reg f r = f.extra.getD 0 .nil := by
  induction k with
  | zero => exact ⟨m, h, hback, fun r hr => absurd hr (Nat.not_lt_zero r)⟩
  | succ k ih =>
    obtain ⟨m', hm', hback', hregs⟩ := ih (by omega)
    obtain ⟨i, hi, hop, rfl, hc⟩ := hwords k (by omega)
    rw [show count - i.a = count - (i.a + 1) + 1 by omega] at hm'
    obtain ⟨m'', hm'', hback'', hreg, hothers⟩ := hm'.takesExtra hhosts hback' hi hop hc
    refine ⟨m'', hm'', hback'', fun r hr => ?_⟩
    rcases Nat.lt_succ_iff_lt_or_eq.mp hr with hlt | rfl
    · exact (hothers r (by omega)).trans (hregs r hlt)
    · exact hreg

/-- A loop whose bounds and whose step are the argument of the program. -/
theorem rounds_argument : ∃ (p : Moment) (f : Frame) (i : Instruction) (xs : List Int64),
    (∀ f ∈ (#[] : Array HostFunction), HostFunction.Honest f) ∧ Reached {} #[] p ∧ p.task = .loop ∧
    p.machine.frames.back? = some f ∧ f.prototype.chunk.code[f.next]? = some i ∧
    i.opcode? = some .forPrepare ∧ p.machine.reg f i.a = .int 7 ∧
    p.machine.reg f (i.a + 1) = .int 7 ∧ p.machine.reg f (i.a + 2) = .int 7 ∧ (7 : Int64) ≠ 0 ∧
    Spans 7 7 7 xs ∧ ∃ (back : Nat) (m' : Machine),
      Rounds (p.machine.frames.size - 1) f.next back (f.base + (i.a + 3)) p.machine [] m' ∧
      ∀ x, xs[0]? = some x → m'.reg f (i.a + 3) = .int x := by
  have hhosts : ∀ f ∈ (#[] : Array HostFunction), HostFunction.Honest f := by simp
  have hsizes : (compile "for i = ..., ..., ... do end" "text").toOption.map (fun p =>
      (p.registers, p.variadic, p.params)) = some (4, true, 0) := by decide +kernel
  have hloads : (compile "for i = ..., ..., ... do end" "text").toOption.map (fun p =>
      (List.range 3).map fun k => p.chunk.code[k]?.map fun i => (i.opcode?, i.a, i.c)) =
      some [some (some .vararg, 0, 2), some (some .vararg, 1, 2), some (some .vararg, 2, 2)] := by
    decide +kernel
  have hloop : (compile "for i = ..., ..., ... do end" "text").toOption.map (fun p =>
      p.chunk.code[3]?.map fun i => (i.opcode?, i.a)) = some (some (some .forPrepare, 0)) := by
    decide +kernel
  cases hp : compile "for i = ..., ..., ... do end" "text" with
  | error e =>
    rw [hp] at hsizes
    cases hsizes
  | ok q =>
    rw [hp] at hsizes hloads hloop
    obtain ⟨hregisters, hrest⟩ := Prod.mk.inj (Option.some.inj hsizes)
    obtain ⟨hvariadic, hparams⟩ := Prod.mk.inj hrest
    have hword : ∀ k < 3, ∃ i, q.chunk.code[k]? = some i ∧ i.opcode? = some .vararg ∧ i.a = k ∧
        i.c = 2 := by
      intro k hk
      have hget := congrArg (fun l : List (Option (Option Opcode × Nat × Nat)) => l[k]?)
        (Option.some.inj hloads)
      match k with
      | 0 | 1 | 2 =>
        obtain ⟨i, hi, heq⟩ := Option.map_eq_some_iff.mp (Option.some.inj hget)
        obtain ⟨hop, heq⟩ := Prod.mk.inj heq
        exact ⟨i, hi, hop, (Prod.mk.inj heq).1, (Prod.mk.inj heq).2⟩
    obtain ⟨i, hi, heq⟩ := Option.map_eq_some_iff.mp (Option.some.inj hloop)
    obtain ⟨hop, ha⟩ := Prod.mk.inj heq
    have hplain : ∀ v ∈ [Value.int 7], v.Plain := by
      rintro v (_ | ⟨_, ⟨⟩⟩)
      trivial
    obtain ⟨code, f, m, hreached, hactive, rfl, hnext, -, hextra⟩ :=
      exists_reached_main hp (by omega) hplain (by decide) 3
    rw [if_pos hvariadic, hparams] at hextra
    have harg : f.extra.getD 0 .nil = .int 7 := by
      rw [Array.getD_eq_getD_getElem?, ← Array.getElem?_toList, hextra]
      rfl
    obtain ⟨m', hm', hback, hregs⟩ :=
      hreached.takesExtras hhosts (by rw [hactive.back, ← hnext]) hword (Nat.le_refl 3)
    rw [harg] at hregs
    have hseven : ∀ r < 3, m'.reg { f with next := 3 } r = .int 7 := hregs
    have hzero : (7 : Int64) ≠ 0 := by decide
    have h0 : m'.reg { f with next := 3 } i.a = .int 7 := ha ▸ hseven 0 (by omega)
    have h1 : m'.reg { f with next := 3 } (i.a + 1) = .int 7 := ha ▸ hseven 1 (by omega)
    have h2 : m'.reg { f with next := 3 } (i.a + 2) = .int 7 := ha ▸ hseven 2 (by omega)
    obtain ⟨back, xs, -, -, hspans, ⟨m₁, hfirst⟩, hrounds⟩ :=
      hm'.rounds hhosts rfl hback hi hop h0 h1 h2 hzero
    exact ⟨_, _, i, xs, hhosts, hm', rfl, hback, hi, hop, h0, h1, h2, hzero, hspans, back, m₁, hfirst,
      fun x hx => ((hrounds _ _ hfirst).2.2 x hx).2.1⟩

end Machine
end LuaMachine
