import LuaMachine.Proofs.Structured.Semantics
import LuaMachine.Proofs.Table.Contents
/-! # Counting loops

The machine counts the rounds of a loop over integers before the first one. The values that it comes
to are those of the progression, however close the last of them lies to the limits of the integers.

* `NumericLoop.plain_of_start`, `NumericLoop.next_cases`: what the state of a loop consists of.
* `NumericLoop.Unrolls`: the values that a loop comes to.
* `NumericLoop.start_integers`: for integers these are the progression.
-/
set_option autoImplicit false

namespace LuaMachine
namespace NumericLoop

/-! ## States of loops -/

/-- The state of a loop refers to nothing in the heap. -/
structure Plain (l : NumericLoop) : Prop where
  control : l.control.Plain
  limit : l.limit.Plain
  step : l.step.Plain

variable {initial limit step : Value} {l l' : NumericLoop}

theorem plain_of_startIntegers {first step : Int64}
    (h : startIntegers first limit step = .ok (some l)) : l.Plain := by
  unfold startIntegers at h
  simp only [bind, Except.bind, pure, Except.pure, throw, throwThe, MonadExceptOf.throw] at h
  by_cases hz : step = 0
  · simp [hz] at h
  · simp only [beq_iff_eq, hz, if_false] at h
    cases hlast : lastInteger limit step with
    | error e => simp [hlast] at h
    | ok last =>
      rw [hlast] at h
      cases last with
      | none => cases h
      | some j =>
        dsimp only at h
        by_cases hpassed : if 0 < step then j < first else first < j
        · rw [if_pos hpassed] at h
          cases h
        · rw [if_neg hpassed] at h
          cases h
          exact ⟨trivial, trivial, trivial⟩

theorem plain_of_startFloats (h : startFloats initial limit step = .ok (some l)) : l.Plain := by
  unfold startFloats at h
  simp only [bind, Except.bind, pure, Except.pure, throw, throwThe, MonadExceptOf.throw] at h
  cases ha : float .initial initial with
  | error e => simp [ha] at h
  | ok a =>
    cases hb : float .limit limit with
    | error e => simp [ha, hb] at h
    | ok b =>
      cases hc : float .step step with
      | error e => simp [ha, hb, hc] at h
      | ok c =>
        simp only [ha, hb, hc] at h
        by_cases hz : Double.eq c .zero = true
        · simp [hz] at h
        · simp only [hz, Bool.false_eq_true, if_false] at h
          generalize (if Double.lt .zero c = true then Double.lt b a else Double.lt a b) = passed at h
          cases passed with
          | true => cases h
          | false =>
            cases h
            exact ⟨trivial, trivial, trivial⟩

theorem plain_of_start (h : start initial limit step = .ok (some l)) : l.Plain := by
  unfold start at h
  split at h
  · exact plain_of_startIntegers h
  · exact plain_of_startFloats h

/-- From one round to the next the step stays, and the rest is computed anew or stays. -/
theorem next_cases (h : l.next = some l') :
    l'.control.Plain ∧ (l'.limit.Plain ∨ l'.limit = l.limit) ∧ l'.step = l.step := by
  unfold next at h
  split at h
  next step hstep =>
    dsimp only at h
    split at h
    · cases h
      exact ⟨trivial, .inl trivial, rfl⟩
    · cases h
  next =>
    dsimp only at h
    split at h
    · cases h
      exact ⟨trivial, .inr rfl, rfl⟩
    · cases h

/-! ## The rounds of a loop -/

/-- The values that a loop comes to. -/
inductive Unrolls : NumericLoop → List Value → Prop where
  | last {l : NumericLoop} (h : l.next = none) : Unrolls l [l.control]
  | more {l l' : NumericLoop} {vs : List Value} (h : l.next = some l') (h' : Unrolls l' vs) :
    Unrolls l (l.control :: vs)

/-- A loop over integers comes to one value more than it has counted rounds. -/
theorem unrolls_counted (first : Int) (count : UInt64) (step : Int64) :
    Unrolls ⟨.int (Int64.ofInt first), .int count.toInt64, .int step⟩
      ((List.range (count.toNat + 1)).map fun (i : Nat) =>
        .int (Int64.ofInt (first + i * step.toInt))) := by
  generalize hn : count.toNat = n
  induction n generalizing first count with
  | zero =>
    have hnext : next ⟨.int (Int64.ofInt first), .int count.toInt64, .int step⟩ = none := by
      have hcount : ¬ 0 < count := by
        rw [UInt64.lt_iff_toNat_lt, hn]
        exact Nat.lt_irrefl 0
      simp [next, bits, UInt64.toUInt64_toInt64, hcount]
    have hlast := Unrolls.last hnext
    simpa using hlast
  | succ n ih =>
    have hcount : 0 < count := by
      rw [UInt64.lt_iff_toNat_lt, hn]
      exact Nat.succ_pos n
    have hle : 1 ≤ count := by
      rw [UInt64.le_iff_toNat_le, hn]
      exact Nat.succ_le_succ (Nat.zero_le n)
    have hpred : (count - 1).toNat = n := by
      rw [UInt64.toNat_sub_of_le _ _ hle, hn]
      rfl
    have hcontrol : (Int64.ofInt first).toUInt64.toInt64 + step =
        Int64.ofInt (first + step.toInt) := by
      rw [Int64.ofInt_add, Int64.ofInt_toInt]
      rfl
    have hnext : next ⟨.int (Int64.ofInt first), .int count.toInt64, .int step⟩ =
        some ⟨.int (Int64.ofInt (first + step.toInt)), .int (count - 1).toInt64, .int step⟩ := by
      simp only [next, bits, UInt64.toUInt64_toInt64, hcount, if_true, hcontrol]
    have hvalue : ∀ i : Nat, first + step.toInt + i * step.toInt =
        first + (i + 1 : Nat) * step.toInt := fun i => by
      rw [Int.natCast_add, Int.add_mul, Int.natCast_one, Int.one_mul]
      omega
    have hmore := Unrolls.more hnext (ih (first + step.toInt) (count - 1) hpred)
    have hzero : first + ((0 : Nat) : Int) * step.toInt = first := by
      rw [Int.natCast_zero, Int.zero_mul, Int.add_zero]
    simp only [hvalue] at hmore
    rw [List.range_succ_eq_map, List.map_cons, List.map_map]
    simp only [hzero]
    exact hmore

/-! ## The number of rounds -/

theorem toInt_eq (x : Int64) : x.toInt =
    if x.toUInt64.toNat < 9223372036854775808 then (x.toUInt64.toNat : Int)
    else x.toUInt64.toNat - 18446744073709551616 := by
  have h := BitVec.toInt_eq_toNat_cond x.toBitVec
  have hnat : x.toUInt64.toNat = x.toBitVec.toNat := rfl
  rw [hnat]
  change x.toBitVec.toInt = _
  rw [h]
  split <;> split <;> omega

variable {first last count : Int64}

theorem toNat_rounds (hk : count ≠ 0)
    (h : ¬ (if 0 < count then last < first else first < last)) :
    ((rounds first last count).toNat : Int) =
      Int.fdiv (last.toInt - first.toInt) count.toInt := by
  have hfirst := toInt_eq first
  have hlast := toInt_eq last
  have hcount := toInt_eq count
  have hfirst' := first.toUInt64.toNat_lt
  have hlast' := last.toUInt64.toNat_lt
  have hcount' := count.toUInt64.toNat_lt
  have hz : (0 : Int64).toInt = 0 := rfl
  have hne : count.toInt ≠ 0 := fun h0 => hk (Int64.toInt_inj.mp (h0.trans hz.symm))
  unfold rounds
  by_cases hpos : 0 < count
  · rw [if_pos hpos] at h ⊢
    rw [Int64.lt_iff_toInt_lt] at h hpos
    rw [hz] at hpos
    have hsub : (last.toUInt64 - first.toUInt64).toNat = (last.toInt - first.toInt).toNat := by
      rw [UInt64.toNat_sub]
      omega
    rw [UInt64.toNat_div, hsub, Int.fdiv_eq_ediv_of_nonneg _ (by omega), Int.natCast_ediv]
    congr 1 <;> omega
  · rw [if_neg hpos] at h ⊢
    rw [Int64.lt_iff_toInt_lt] at h hpos
    rw [hz] at hpos
    have hsub : (first.toUInt64 - last.toUInt64).toNat = (first.toInt - last.toInt).toNat := by
      rw [UInt64.toNat_sub]
      omega
    -- the size of the step, which the least integer has as well
    have hstep : (-(count + 1)).toUInt64 + 1 = -count.toUInt64 := by
      have hneg : (-(count + 1)).toUInt64 = -(count.toUInt64 + 1) := rfl
      rw [hneg, UInt64.neg_add, UInt64.sub_add_cancel]
    have hsize : (-count.toUInt64).toNat = (-count.toInt).toNat := by
      rw [UInt64.toNat_neg]
      change (18446744073709551616 - count.toUInt64.toNat) % 18446744073709551616 = _
      omega
    rw [UInt64.toNat_div, hsub, hstep, hsize, ← Int.neg_fdiv_neg,
      Int.fdiv_eq_ediv_of_nonneg _ (by omega), Int.natCast_ediv]
    congr 1 <;> omega

/-- The progression is empty if the first value has passed the last one. -/
theorem progression_eq_nil (hk : count ≠ 0)
    (h : if 0 < count then last < first else first < last) :
    Structured.progression first last count = [] := by
  have hz : (0 : Int64).toInt = 0 := rfl
  have hne : count.toInt ≠ 0 := fun h0 => hk (Int64.toInt_inj.mp (h0.trans hz.symm))
  have hneg : Int.fdiv (last.toInt - first.toInt) count.toInt < 0 := by
    by_cases hpos : 0 < count
    · rw [if_pos hpos, Int64.lt_iff_toInt_lt] at h
      rw [Int64.lt_iff_toInt_lt, hz] at hpos
      exact Int.fdiv_neg_of_neg_of_pos (by omega) hpos
    · rw [if_neg hpos, Int64.lt_iff_toInt_lt] at h
      rw [Int64.lt_iff_toInt_lt, hz] at hpos
      rw [← Int.neg_fdiv_neg]
      exact Int.fdiv_neg_of_neg_of_pos (by omega) (by omega)
  have hcount : (Int.fdiv (last.toInt - first.toInt) count.toInt + 1).toNat = 0 := by omega
  rw [Structured.progression, hcount]
  rfl

/-- A loop between integers comes to the values of the progression. -/
theorem start_integers (hk : count ≠ 0) :
    (start (.int first) (.int last) (.int count) = .ok none ∧
      Structured.progression first last count = []) ∨
    ∃ l, start (.int first) (.int last) (.int count) = .ok (some l) ∧
      l.Unrolls (Structured.progression first last count) := by
  have hstart : start (.int first) (.int last) (.int count) =
      if (if 0 < count then last < first else first < last) then .ok none
      else .ok (some ⟨.int first, .int (rounds first last count).toInt64, .int count⟩) := by
    simp only [start, startIntegers, lastInteger, beq_iff_eq, hk, if_false]
    rfl
  by_cases hpassed : if 0 < count then last < first else first < last
  · rw [if_pos hpassed] at hstart
    exact .inl ⟨hstart, progression_eq_nil hk hpassed⟩
  · rw [if_neg hpassed] at hstart
    have hunrolls := unrolls_counted first.toInt (rounds first last count) count
    rw [Int64.ofInt_toInt] at hunrolls
    have hrounds := toNat_rounds hk hpassed
    have hnumber : (Int.fdiv (last.toInt - first.toInt) count.toInt + 1).toNat =
        (rounds first last count).toNat + 1 := by omega
    refine .inr ⟨_, hstart, ?_⟩
    rw [Structured.progression, hnumber]
    exact hunrolls

theorem start_zero : start (.int first) (.int last) (.int 0) = .error .zeroStep := rfl

end NumericLoop
end LuaMachine
