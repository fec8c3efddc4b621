import LuaMachine.Proofs.Lowering.Correctness
import LuaMachine.Proofs.Machine.Confinement
import LuaMachine.Proofs.Machine.Rounds
/-! # The values of a list of expressions

The words of a list evaluate its expressions one after the other, each once. Every expression but the
last one gives one value, and the last one gives all of its values, if it is a call or stands for the
arguments beyond the parameters. The values lie one behind the other, and as many of them as are asked
for are found, with nil for those that there are not.

* `Machine.Produces`: an expression was executed and gave values.
* `Machine.Evaluates`: the expressions of a list were, in their order.
* `Machine.Filled`: the values are in registers.
* `Machine.Poised.evaluates`: the words of a list.
* `Machine.Reached.adjusted_values`: what the compiler writes for a list with a number of values.
-/
set_option autoImplicit false

namespace LuaMachine
namespace Machine

open Generator Lowering

variable {code : Nat → Prototype} {f g : Frame} {m m' m₁ : Machine} {d level r t n n' : Nat}
  {e : Expr} {es : List Expr} {home : String → Home} {last count wanted : Option Nat}
  {vs : List Value} {i : Instruction}

/-! ## Values of expressions -/

/-- The words from `n` to `n'` were executed from `m` to `m'`, and the expression that they stand for
gave these values. Those of a call are the results of the function that it called with its last word;
in parentheses an expression has one value; and every other expression has one value, which it leaves
in its register. -/
inductive Produces (f : Frame) (d : Nat) :
    Expr → Nat → Nat → Nat → Machine → Machine → List Value → Prop where
  | call {callee : Expr} {args : List Expr} {line r n k : Nat} {m m₁ m' : Machine} {func : Value}
      {given results : List Value} {count : Option Nat} (hparts : Traverses d n k m m₁)
      (hresponds : Responds m₁ (f.base + r) given count func results m') :
      Produces f d (.call callee args line) r n (k + 1) m m' results
  | method {object : Expr} {name : String} {args : List Expr} {line r n k : Nat} {m m₁ m' : Machine}
      {func : Value} {given results : List Value} {count : Option Nat} (hparts : Traverses d n k m m₁)
      (hresponds : Responds m₁ (f.base + r) given count func results m') :
      Produces f d (.method object name args line) r n (k + 1) m m' results
  | vararg {line r n : Nat} {m m' : Machine} (hword : Traverses d n (n + 1) m m') :
      Produces f d (.vararg line) r n (n + 1) m m' f.extra.toList
  | paren {e : Expr} {line r n n' : Nat} {m m' : Machine} {vs : List Value}
      (h : Produces f d e r n n' m m' vs) : Produces f d (.paren e line) r n n' m m' [vs.getD 0 .nil]
  | single {e : Expr} {r n n' : Nat} {m m' : Machine} (hsingle : e.isMultiple = false)
      (hparen : ∀ e' line, e ≠ .paren e' line) (hwords : Traverses d n n' m m') :
      Produces f d e r n n' m m' [m'.reg f r]

/-- The expressions of a list were evaluated one after the other to the registers from `t` on, and the
list has these values: the first one of each expression, and all of the last one, if that can give
several. -/
inductive Evaluates (f : Frame) (home : String → Home) (d : Nat) (last : Option Nat) :
    List Expr → Nat → Nat → Nat → Machine → Machine → List Value → Prop where
  | nil {t n : Nat} {m : Machine} : Evaluates f home d last [] t n n m m []
  | last {e : Expr} {t n n' : Nat} {m m' : Machine} {vs : List Value} (hmultiple : e.isMultiple = true)
      (hcodes : Lowering.Codes f.prototype home e (.values last) t n n') (h : Produces f d e t n n' m m' vs) :
      Evaluates f home d last [e] t n n' m m' vs
  | cons {e : Expr} {rest : List Expr} {t n n₁ n' : Nat} {m m₁ m' : Machine} {vs ws : List Value}
      (hsingle : rest ≠ [] ∨ e.isMultiple = false)
      (hcodes : Lowering.Codes f.prototype home e (.register t) (t + 1) n n₁) (h : Produces f d e t n n₁ m m₁ vs)
      (hrest : Evaluates f home d last rest (t + 1) n₁ n' m₁ m' ws) :
      Evaluates f home d last (e :: rest) t n n' m m' (vs.getD 0 .nil :: ws)

/-- As many of the values as are counted are in the registers from `r` on, with nil for those that
there are not, or all of them in an open list. -/
structure Filled (f : Frame) (r : Nat) (count : Option Nat) (vs : List Value) (m : Machine) : Prop where
  values : ∀ j < count.getD vs.length, m.reg f (r + j) = vs.getD j .nil
  open' : count = none → ∃ g, m.frames.back? = some g ∧ g.open' = f.base + r + vs.length

/-! ## Words that leave values -/

/-- What one word does that goes on with the next one. -/
theorem Poised.word {Q : Machine → Prop} (h : Poised f d level n m)
    (hword : ∀ code g fuel, Active code g m → f.Same g → g.next = n →
      m.Ensures (iteration fuel) (fun _ m' => Stands d (n + 1) m' ∧ Q m') fun _ _ => True)
    (htraverses : Traverses d n (n + 1) m m') : Q m' := by
  obtain ⟨hruns, hstands⟩ := htraverses
  rcases Relation.ReflTransGen.cases_head hruns with rfl | ⟨m₁, ⟨-, fuel, hrun⟩, hrest⟩
  · obtain ⟨-, g, hg, hnext⟩ := h.stands
    obtain ⟨-, g', hg', hnext'⟩ := hstands
    cases hg.symm.trans hg'
    omega
  · obtain ⟨code, g, ha, hsame, hnext⟩ := h.active
    obtain ⟨hstands₁, hq⟩ := (hword code g fuel ha hsame hnext).of_ok hrun
    obtain rfl := eq_of_stands hstands₁ hrest
    exact hq

/-- Nothing is executed of no words. -/
theorem eq_of_traverses (hstands : Stands d n m) (h : Traverses d n n m m') : m = m' := by
  rcases Relation.ReflTransGen.cases_head h.1 with rfl | ⟨m₁, ⟨hamid, -⟩, -⟩
  · rfl
  · exact (hstands.not_amid hamid).elim

theorem getD_putSlots {s : Array Value} {j : Nat} (hfit : r + vs.length ≤ s.size)
    (hj : j < vs.length) : (putSlots r vs s).getD (r + j) .nil = vs.getD j .nil := by
  rw [Array.getD_eq_getD_getElem?, putSlots_getElem? _ _ _ _ hfit, if_pos (by omega),
    Nat.add_sub_cancel_left, List.getD_eq_getElem?_getD]

/-- The arguments beyond the parameters are put into registers. -/
theorem ensures_extra {fuel : Nat} (ha : Active code f m)
    (hi : f.prototype.chunk.code[f.next]? = some i) (hop : i.opcode? = some .vararg)
    (hsize : m.frames.size = d + 1) :
    m.Ensures (iteration fuel) (fun o m' => o = .next ∧ Stands d (f.next + 1) m' ∧
      Filled f i.a (i.wanted .vararg) f.extra.toList m') fun _ _ => i.c = 0 := by
  refine ensures_iteration ha hi (E := fun _ => i.c = 0) fun shown => ?_
  have hfetched := ha.fetched shown
  rw [turn, ensures_bind, ensures_step hfetched]
  simp only [perform, hop, vararg]
  have hwanted : i.wanted .vararg = if i.c = 0 then none else some (i.c - 1) := rfl
  rw [hwanted]
  have hsize' : (m.fetched shown).frames.size = d + 1 := by
    rw [← hsize]
    exact advanced_size m
  split
  next hall =>
    simp only [ensures_bind, ensures_ensureStack, ensures_setSlots, ensures_modifyFrame,
      ensures_raiseTop, ensures_pure]
    refine ⟨fun _ _ _ => hall, fun _ => ⟨trivial, ?_, fun j hj => ?_, fun _ => ?_⟩⟩
    · exact ⟨by rw [Array.size_modify, hsize'], _, modify_back? hfetched.back _, rfl⟩
    · simp only [Option.getD_none, Array.length_toList] at hj
      have hfit : f.base + i.a + f.extra.toList.length ≤
          (grown (f.base + i.a + f.extra.size) (m.fetched shown).stack).size := by
        rw [grown_size, Array.length_toList]
        omega
      have hget := getD_putSlots hfit (j := j) (by simpa using hj)
      rw [Nat.add_assoc f.base i.a j] at hget
      exact hget
    · refine ⟨_, modify_back? hfetched.back _, ?_⟩
      rw [Array.length_toList]
  next hsome =>
    simp only [ensures_bind, ensures_setSlots, ensures_pure]
    refine ⟨trivial, ⟨hsize', _, hfetched.back, rfl⟩, fun j hj => ?_,
      fun hnone => absurd hnone (Option.some_ne_none _)⟩
    simp only [Option.getD_some] at hj
    obtain ⟨op, hop', hvalid⟩ := ha.codeValid.words _ i hi
    cases hop'.symm.trans hop
    have hroom := hvalid.operands.registers (i.a, i.c - 1) List.mem_cons_self (i.c - 1 - 1) (by omega)
    have hwindow : f.base + f.prototype.registers ≤ m.stack.size := ha.window_le_size
    have hfit : f.base + i.a + ((List.range (i.c - 1)).map fun k => f.extra.getD k .nil).length ≤
        (m.fetched shown).stack.size := by
      rw [List.length_map, List.length_range]
      show _ ≤ m.stack.size
      have hlt : i.a + (i.c - 1 - 1) < f.prototype.registers := hroom
      omega
    have hget := getD_putSlots hfit (j := j) (by simpa using hj)
    rw [Nat.add_assoc f.base i.a j] at hget
    refine hget.trans ?_
    rw [List.getD_eq_getElem?_getD, List.getElem?_map, List.getElem?_range hj, Option.map_some,
      Option.getD_some, Array.getD_eq_getD_getElem?, ← Array.getElem?_toList, ← List.getD_eq_getElem?_getD]

/-- Registers are filled with nil, and those below them stay. -/
theorem ensures_nils {fuel : Nat} (ha : Active code f m)
    (hi : f.prototype.chunk.code[f.next]? = some i) (hop : i.opcode? = some .loadNil)
    (hsize : m.frames.size = d + 1) :
    m.Ensures (iteration fuel) (fun _ m' => Stands d (f.next + 1) m' ∧
      (∀ j < i.b, m'.reg f (i.a + j) = .nil) ∧ ∀ r < i.a, m'.reg f r = m.reg f r) fun _ _ => True := by
  refine ensures_iteration ha hi (E := fun _ => True) fun shown => ?_
  have hfetched := ha.fetched shown
  rw [turn, ensures_bind, ensures_step hfetched]
  simp only [perform, hop, ensures_bind, ensures_setSlots, ensures_pure]
  have hsize' : (m.fetched shown).frames.size = d + 1 := by
    rw [← hsize]
    exact advanced_size m
  by_cases hnone : i.b = 0
  · rw [hnone]
    exact ⟨⟨hsize', _, hfetched.back, rfl⟩, fun j hj => absurd hj (Nat.not_lt_zero j), fun r hr => rfl⟩
  obtain ⟨op, hop', hvalid⟩ := ha.codeValid.words _ i hi
  cases hop'.symm.trans hop
  have hroom := hvalid.operands.registers (i.a, i.b) List.mem_cons_self (i.b - 1) (by omega)
  have hwindow : f.base + f.prototype.registers ≤ m.stack.size := ha.window_le_size
  have hfit : f.base + i.a + (List.replicate i.b Value.nil).length ≤ (m.fetched shown).stack.size := by
    rw [List.length_replicate]
    show _ ≤ m.stack.size
    have hlt : i.a + (i.b - 1) < f.prototype.registers := hroom
    omega
  refine ⟨⟨hsize', _, hfetched.back, rfl⟩, fun j hj => ?_, fun r hr => ?_⟩
  · have hget := getD_putSlots hfit (j := j) (by simpa using hj)
    rw [reg, ← Nat.add_assoc]
    refine hget.trans ?_
    rw [List.getD_eq_getElem?_getD, List.getElem?_replicate, if_pos hj]
    rfl
  · rw [reg, Array.getD_eq_getD_getElem?, putSlots_getElem? _ _ _ _ hfit, if_neg (by omega), reg,
      Array.getD_eq_getD_getElem?]
    rfl

/-! ## One expression -/

section expression

variable (h : Poised f d level n m)
  (hmild : ∀ j, n ≤ j → j < n' → f.prototype.Mild level j) (htraverses : Traverses d n n' m m')

include h hmild htraverses

/-- The last word calls a function, whose results are found in its place. -/
theorem Poised.called (hends : EndsCall f.prototype r count n n') :
    ∃ k m₁ given func results, n' = k + 1 ∧ Traverses d n k m m₁ ∧
      Responds m₁ (f.base + r) given count func results m' ∧ Filled f r count results m' := by
  obtain ⟨k, args, hconfined, ⟨i, hi, hop, rfl, -, hc⟩, rfl⟩ := hends
  obtain ⟨m₁, hparts, hpoised, hcall⟩ :=
    h.split hconfined (.word hi hop rfl ⟨nofun, nofun⟩) hmild htraverses
  obtain ⟨code, g, ha, hsame, rfl⟩ := hpoised.active
  have hbase : g.base = f.base := by rw [hsame]
  have hword : g.prototype.chunk.code[g.next]? = some i := by
    rw [show g.prototype = f.prototype by rw [hsame]]
    exact hi
  obtain ⟨func, given, hsite⟩ := hpoised.orderly.callSite ha hword hop (.inl rfl)
  have hwanted : i.wanted .call = count := by
    show (if i.c = 0 then none else some (i.c - 1)) = count
    rw [hc]
    cases count <;> rfl
  rw [hwanted, hbase] at hsite
  obtain ⟨results, hresponds, hresumes⟩ :=
    hcall.responds hsite ha hpoised.orderly hpoised.stands.1
  refine ⟨_, m₁, given, func, results, rfl, hparts, hresponds, fun j hj => ?_, fun hnone => ?_⟩
  · rw [reg, ← Nat.add_assoc]
    exact hresumes.result j hj
  · subst hnone
    exact ⟨_, by rw [hresumes.frames]; exact modify_back? ha.back _, rfl⟩

/-- The arguments beyond the parameters are put into registers by one word. -/
theorem Poised.extra (hword : f.prototype.HasWord n .vararg r 0 (countOperand count))
    (hn : n' = n + 1) : Filled f r count f.extra.toList m' := by
  obtain ⟨i, hi, hop, rfl, -, hc⟩ := hword
  subst hn
  have hwanted : i.wanted .vararg = count := by
    show (if i.c = 0 then none else some (i.c - 1)) = count
    rw [hc]
    cases count <;> rfl
  refine h.word (fun code g fuel ha hsame hnext => ?_) htraverses
  have hword : g.prototype.chunk.code[g.next]? = some i := by
    rw [show g.prototype = f.prototype by rw [hsame], hnext]
    exact hi
  refine (ensures_extra ha hword hop h.stands.1).mono (fun o m' hm' => ?_) fun _ _ _ => trivial
  obtain ⟨-, hstands, hfilled⟩ := hm'
  rw [hnext] at hstands
  rw [hwanted, show g.extra = f.extra by rw [hsame]] at hfilled
  refine ⟨hstands, fun j hj => ?_, fun hnone => ?_⟩
  · rw [reg, show f.base = g.base by rw [hsame]]
    exact hfilled.values j hj
  · rw [show f.base = g.base by rw [hsame]]
    exact hfilled.open' hnone

/-- Nil is put into registers by one word, if there are any. -/
theorem Poised.padded {k : Nat} (hpads : Pads f.prototype r k n n') :
    (∀ j < k, m'.reg f (r + j) = .nil) ∧ (∀ r' < r, m'.reg f r' = m.reg f r') ∧
      (k = 0 → m = m') := by
  unfold Pads at hpads
  split at hpads
  next hpos =>
    obtain ⟨⟨i, hi, hop, rfl, rfl, -⟩, rfl⟩ := hpads
    rw [← and_assoc]
    refine ⟨h.word (Q := fun m' => (∀ j < i.b, m'.reg f (i.a + j) = .nil) ∧
      ∀ r' < i.a, m'.reg f r' = m.reg f r') (fun code g fuel ha hsame hnext => ?_) htraverses,
      fun hzero => by omega⟩
    have hword : g.prototype.chunk.code[g.next]? = some i := by
      rw [show g.prototype = f.prototype by rw [hsame], hnext]
      exact hi
    refine (ensures_nils ha hword hop h.stands.1).mono (fun o m' hm' => ?_) fun _ _ _ => trivial
    obtain ⟨hstands, hnils, hothers⟩ := hm'
    have hreg : ∀ (m : Machine) r, m.reg g r = m.reg f r := fun m r => by
      rw [reg, reg, show g.base = f.base by rw [hsame]]
    rw [hnext] at hstands
    exact ⟨hstands, fun j hj => (hreg _ _).symm.trans (hnils j hj), fun r' hr' => by
      rw [← hreg, ← hreg]
      exact hothers r' hr'⟩
  next hnone =>
    subst hpads
    obtain rfl := eq_of_traverses h.stands htraverses
    exact ⟨fun j hj => by omega, fun _ _ => rfl, fun _ => rfl⟩

end expression

/-- An expression leaves as many of its values as it is told. -/
theorem Poised.produces (h : Poised f d level n m)
    (hmild : ∀ j, n ≤ j → j < n' → f.prototype.Mild level j) (htraverses : Traverses d n n' m m') :
    (e : Expr) → {count : Option Nat} → Ends f.prototype e r count n n' →
      e.isMultiple = true ∨ count = some 1 →
      ∃ vs, Produces f d e r n n' m m' vs ∧ Filled f r count vs m'
  | .call callee args line, _, hends, _ => by
    obtain ⟨k, m₁, given, func, results, rfl, hparts, hresponds, hfilled⟩ :=
      Poised.called h hmild htraverses hends
    exact ⟨results, .call hparts hresponds, hfilled⟩
  | .method object name args line, _, hends, _ => by
    obtain ⟨k, m₁, given, func, results, rfl, hparts, hresponds, hfilled⟩ :=
      Poised.called h hmild htraverses hends
    exact ⟨results, .method hparts hresponds, hfilled⟩
  | .vararg line, _, hends, _ => by
    obtain ⟨hword, hn⟩ := hends
    have hfilled := Poised.extra h hmild htraverses hword hn
    subst hn
    exact ⟨f.extra.toList, .vararg htraverses, hfilled⟩
  | .paren e line, count, hends, hcount => by
    obtain rfl : count = some 1 := hcount.resolve_left Bool.false_ne_true
    obtain ⟨vs, hproduces, hfilled⟩ := Poised.produces h hmild htraverses e hends (.inr rfl)
    refine ⟨_, .paren hproduces, fun j hj => ?_, nofun⟩
    obtain rfl : j = 0 := Nat.lt_one_iff.mp hj
    exact hfilled.values 0 Nat.one_pos
  | .literal _ _, count, _, hcount | .str _ _, count, _, hcount | .unary _ _ _, count, _, hcount
  | .binary _ _ _ _, count, _, hcount | .name _ _, count, _, hcount | .table _ _, count, _, hcount
  | .index _ _ _, count, _, hcount | .function _, count, _, hcount => by
    obtain rfl : count = some 1 := hcount.resolve_left Bool.false_ne_true
    refine ⟨_, .single rfl nofun htraverses, fun j hj => ?_, nofun⟩
    obtain rfl : j = 0 := Nat.lt_one_iff.mp hj
    rfl

/-! ## Lists of expressions -/

/-- The number of registers that the values of a list are put into, unless it is open. -/
def rowCount (es : List Expr) (last : Option Nat) : Option Nat :=
  if endsMultiple es then last.map (· + (es.length - 1)) else some es.length

theorem rowCount_cons {rest : List Expr} (hsingle : rest ≠ [] ∨ e.isMultiple = false)
    (last : Option Nat) : rowCount (e :: rest) last = (rowCount rest last).map (· + 1) := by
  rw [rowCount, rowCount, endsMultiple_cons]
  cases rest with
  | nil =>
    rw [hsingle.resolve_left (fun hne => hne rfl)]
    rfl
  | cons e' rest =>
    rw [List.isEmpty_cons, if_neg Bool.false_ne_true]
    split
    · cases last
      · rfl
      · simp only [Option.map_some, List.length_cons]
        congr 1
    · rfl

/-- The expressions of a list are evaluated one after the other. -/
theorem Poised.evaluates (hlays : Lays f.prototype home last es t n n') :
    ∀ {m : Machine}, Poised f d level n m →
      (∀ j, n ≤ j → j < n' → f.prototype.Mild level j) → level ≤ t → Traverses d n n' m m' →
      ∃ vs, Evaluates f home d last es t n n' m m' vs ∧ Filled f t (rowCount es last) vs m' ∧
        (endsMultiple es = false → vs.length = es.length) ∧
        ∀ r, level ≤ r → r < t → m'.reg f r = m.reg f r := by
  induction hlays with
  | nil =>
    intro m h _ _ htraverses
    obtain rfl := eq_of_traverses h.stands htraverses
    exact ⟨[], .nil, ⟨fun j hj => absurd hj (Nat.not_lt_zero j), nofun⟩, fun _ => rfl, fun _ _ _ => rfl⟩
  | @last e t n n' hmultiple hcodes hconfined hends =>
    intro m h hmild hle htraverses
    obtain ⟨vs, hproduces, hfilled⟩ := Poised.produces h hmild htraverses e hends (.inl hmultiple)
    have hends' : endsMultiple [e] = true := hmultiple
    refine ⟨vs, .last hmultiple hcodes hproduces, ?_, fun hsingle => ?_, fun r hlow hlt => ?_⟩
    · rw [rowCount, if_pos hends']
      cases last <;> exact hfilled
    · exact absurd (hends'.symm.trans hsingle) (by simp)
    · exact h.kept hmild (tidy_codes f.prototype home t e (d := .values last) hcodes trivial
        (Nat.le_refl t)).tidy htraverses hlow hlt
  | @cons e rest t n n₁ n' hsingle hcodes hconfined hends hrest ih =>
    intro m h hmild hle htraverses
    have hconfined' := hrest.confined
    have hmild₁ : ∀ j, n ≤ j → j < n₁ → f.prototype.Mild level j := fun j hj hlt =>
      hmild j hj (Nat.lt_of_lt_of_le hlt hconfined'.le)
    obtain ⟨m₁, hfirst, hpoised, hothers⟩ := h.split hconfined hconfined' hmild htraverses
    obtain ⟨vs, hproduces, hvalue⟩ := Poised.produces h hmild₁ hfirst e hends (.inr rfl)
    obtain ⟨ws, hevaluates, hfilled, hlength, hkept⟩ := ih hpoised
      (fun j hj => hmild j (Nat.le_trans hconfined.le hj)) (Nat.le_succ_of_le hle) hothers
    refine ⟨_, .cons hsingle hcodes hproduces hevaluates, ⟨fun j hj => ?_, fun hnone => ?_⟩,
      fun hends' => ?_, fun r hlow hlt => ?_⟩
    · cases j with
      | zero => exact (hkept t hle (Nat.lt_succ_self t)).trans (hvalue.values 0 Nat.one_pos)
      | succ j =>
        rw [show t + (j + 1) = t + 1 + j by omega]
        refine hfilled.values j ?_
        rw [rowCount_cons hsingle] at hj
        cases hcount : rowCount rest last with
        | none =>
          rw [hcount] at hj
          simpa using hj
        | some k =>
          rw [hcount] at hj
          simpa using hj
    · rw [rowCount_cons hsingle] at hnone
      obtain ⟨g, hback, hopen⟩ := hfilled.open' (by simpa using hnone)
      exact ⟨g, hback, by rw [hopen, List.length_cons]; omega⟩
    · rw [endsMultiple_cons] at hends'
      cases rest with
      | nil =>
        cases hevaluates
        rfl
      | cons e' rest =>
        rw [List.length_cons, hlength (by simpa using hends'), List.length_cons (a := e)]
    · rw [hkept r hlow (Nat.lt_succ_of_lt hlt)]
      exact h.kept hmild₁ (tidy_codes f.prototype home t e (d := .register t) hcodes (Nat.le_refl t)
        (Nat.le_succ t)).tidy hfirst hlow hlt

/-! ## What the compiler writes -/

/-- The innermost function is about to perform the words that were written between the two states, and
no upvalue is open for a register above the variables. -/
structure Undertakes (st st' : State) (f : Frame) (m : Machine) : Prop where
  back : m.frames.back? = some f
  next : f.next = st.size
  fits : Fits f.prototype st'.current.home st st'
  children : ∀ (k : Nat) (q : Prototype), st'.current.proto.children[k]? = some q →
    f.prototype.children[k]? = some q
  unopened : ∀ u ∈ m.openUpvalues, u.1 < f.base + st.level

variable {Good : Prototype → Prop} {ps : List Nat} {st st' : State} {options : Options}
  {hosts : Array HostFunction} {p : Moment}

theorem Undertakes.poised (hhosts : ∀ f ∈ hosts, HostFunction.Honest f)
    (h : Undertakes st st' f p.machine) (hreached : Reached options hosts p) (htask : p.task = .loop) :
    Poised f (p.machine.frames.size - 1) st.level st.size p.machine := by
  have hheedful := hreached.heedful hhosts htask
  obtain ⟨code, g, ha⟩ := hheedful.active
  cases h.back.symm.trans ha.back
  have hpos := ha.size_pos
  exact ⟨hheedful, hreached.orderly hhosts htask, ⟨by omega, f, ha.back, h.next⟩,
    ⟨f, ha.frame_get, .refl f⟩, h.unopened⟩

/-- Whatever expressions a list has, the compiler writes code for it that leaves the variables and the
blocks as they were, and takes as many registers as there are to be values. Execution stays among its
words, and the functions that they call, until it goes on behind them. Then every expression was
evaluated once, in their order; and the values that they gave are in the registers, as many as were
wanted, with nil for those that there are not. If no number is wanted all of them are, in an open
list if the last expression can give several. -/
theorem Reached.adjusted_values (hhosts : ∀ f ∈ hosts, HostFunction.Honest f)
    (hs : Generator.Sound Prototype.WellFormed ps st)
    (hok : adjusted es wanted (fun last => items es last) st = .ok count st') :
    (st'.current.locals = st.current.locals ∧ st'.current.blocks = st.current.blocks ∧
      (∀ w, wanted = some w → count = some w) ∧
      (∀ k, count = some k → st'.current.free = st.current.free + k)) ∧
    ∀ (p : Moment) (f : Frame), Reached options hosts p → p.task = .loop →
      Undertakes st st' f p.machine →
      (∀ m', Relation.ReflTransGen (fun m m' =>
          ¬Stands (p.machine.frames.size - 1) st'.size m ∧ Advances m m') p.machine m' →
        Amid (p.machine.frames.size - 1) st.size st'.size m' ∨
          Stands (p.machine.frames.size - 1) st'.size m') ∧
      ∀ m', Traverses (p.machine.frames.size - 1) st.size st'.size p.machine m' →
        ∃ n m₁ vs, Evaluates f st'.current.home (p.machine.frames.size - 1)
            (wanted.map fun w => w - (es.length - 1)) es st.top st.size n p.machine m₁ vs ∧
          Traverses (p.machine.frames.size - 1) n st'.size m₁ m' ∧
          Filled f st.top count vs m' ∧ (wanted = none → ∀ k, count = some k → vs.length = k) := by
  obtain ⟨t, hstep, -, hfree, -⟩ := adjusted_step hok hs (itemsSound closed_wellFormed es)
  have hcount := adjusted_count hok
  refine ⟨⟨hstep.keeps.current.locals, hstep.keeps.current.blocks, ?_, fun k hk => ?_⟩,
    fun p f hreached htask hundertakes => ?_⟩
  · rintro w rfl
    exact hcount
  · rw [hstep.sound.free_eq, hs.free_eq, hstep.top_eq, hfree k hk]
    exact Int.natCast_add _ _
  have hfits := hundertakes.fits
  have hpoised := hundertakes.poised hhosts hreached htask
  have hconfined := hstep.confined hfits.words
  have hmild : ∀ n, st.size ≤ n → n < st'.size → f.prototype.Mild st.level n := fun n hn hlt =>
    hstep.mild hfits.words hundertakes.children hn hlt
  refine ⟨fun m' hruns => ?_, fun m' htraverses => ?_⟩
  · have hclears := (hpoised.stays hconfined hmild hruns).1
    by_cases hthere : Stands (p.machine.frames.size - 1) st'.size m'
    · exact .inr hthere
    · exact .inl (hclears.amid hthere)
  obtain ⟨n, hlays, hpads⟩ := adjusted_lays closed_wellFormed hok hs hfits
  rw [missing_eq] at hpads
  have hle := hlays.confined.le
  have hpads' := hpads.confined
  obtain ⟨m₁, hitems, hpoised₁, hrest⟩ := hpoised.split hlays.confined hpads' hmild htraverses
  obtain ⟨vs, hevaluates, hfilled, hlength, -⟩ := Poised.evaluates hlays hpoised
    (fun j hj hlt => hmild j hj (Nat.lt_of_lt_of_le hlt hpads'.le)) hs.level_le hitems
  obtain ⟨hnils, hkept, hsame⟩ := Poised.padded hpoised₁
    (fun j hj => hmild j (Nat.le_trans hle hj)) hrest hpads
  refine ⟨n, m₁, vs, hevaluates, hrest, ?_, fun hnone k hk => ?_⟩
  · cases hends : endsMultiple es with
    | true =>
      -- the last expression gives as many values as are wanted, or all
      obtain rfl := hsame (if_pos hends)
      rw [hcount, hends]
      rw [rowCount, if_pos hends] at hfilled
      refine ⟨fun j hj => hfilled.values j ?_, fun hnone => hfilled.open' ?_⟩
      · cases wanted with
        | none => exact hj
        | some w =>
          simp only [Option.some_or, Option.getD_some, Option.map_some] at hj ⊢
          omega
      · cases wanted with
        | none => rfl
        | some w => cases hnone
    | false =>
      rw [rowCount, hends] at hfilled
      rw [hends] at hnils
      rw [hcount, hends]
      refine ⟨fun j hj => ?_, fun hnone => ?_⟩
      · have hj' : j < wanted.getD es.length := by
          cases wanted <;> exact hj
        by_cases hlt : j < es.length
        · rw [hkept _ (by omega)]
          exact hfilled.values j hlt
        · have hmissing : j - es.length < wanted.getD 0 - es.length := by
            cases wanted with
            | none => exact absurd hj' hlt
            | some w =>
              simp only [Option.getD_some] at hj' ⊢
              omega
          have hnil := hnils (j - es.length) hmissing
          rw [show st.top + es.length + (j - es.length) = st.top + j by omega] at hnil
          rw [hnil, List.getD_eq_getElem?_getD,
            List.getElem?_eq_none (by rw [hlength hends]; omega), Option.getD_none]
      · cases wanted <;> cases hnone
  · rw [hnone, Option.none_or] at hcount
    cases hends : endsMultiple es with
    | true =>
      rw [hends, hk] at hcount
      cases hcount
    | false =>
      rw [hends, hk] at hcount
      rw [hlength hends]
      exact (Option.some.inj hcount).symm

/-- Two variables have the arguments of the program for their values, of which there is only one. -/
theorem adjusted_values_arguments : ∃ (st' : State) (count : Option Nat) (p : Moment) (f : Frame)
    (m' : Machine), (∀ f ∈ (#[] : Array HostFunction), HostFunction.Honest f) ∧
    Generator.Sound Prototype.WellFormed [] blank ∧
    adjusted [.vararg 1] (some 2) (fun last => items [.vararg 1] last) blank = .ok count st' ∧
    Reached {} #[] p ∧ p.task = .loop ∧ Undertakes blank st' f p.machine ∧
    Traverses (p.machine.frames.size - 1) blank.size st'.size p.machine m' ∧
    m'.reg f 0 = .int 7 ∧ m'.reg f 1 = .nil := by
  have hhosts : ∀ f ∈ (#[] : Array HostFunction), HostFunction.Honest f := by simp
  have hsizes : (compile "local a, b = ..." "text").toOption.map (fun p =>
      (p.registers, p.variadic, p.params)) = some (2, true, 0) := by decide +kernel
  have hwritten : (match adjusted [.vararg 1] (some 2) (fun last => items [.vararg 1] last) blank with
      | .ok count st => some (count, st.size, st.current.proto.chunk.code[0]?,
          st.current.proto.chunk.constants.size, st.current.proto.children.size)
      | .error _ _ => none) =
      some (some 2, 1, some (.abc .vararg 0 0 3), 0, 0) := by decide +kernel
  have hcode : (compile "local a, b = ..." "text").toOption.map (fun p => p.chunk.code[0]?) =
      some (some (.abc .vararg 0 0 3)) := by decide +kernel
  cases hp : compile "local a, b = ..." "text" with
  | error e =>
    rw [hp] at hsizes
    cases hsizes
  | ok q =>
  cases hok : adjusted [.vararg 1] (some 2) (fun last => items [.vararg 1] last) blank with
  | error e st =>
    rw [hok] at hwritten
    cases hwritten
  | ok count st' =>
    rw [hp] at hsizes hcode
    rw [hok] at hwritten
    simp only [Option.some.injEq, Prod.mk.injEq] at hwritten
    obtain ⟨rfl, hsize, hfirst, hconstants, hchildren⟩ := hwritten
    obtain ⟨hregisters, hrest⟩ := Prod.mk.inj (Option.some.inj hsizes)
    obtain ⟨hvariadic, hparams⟩ := Prod.mk.inj hrest
    have hplain : ∀ v ∈ [Value.int 7], v.Plain := by
      rintro v (_ | ⟨_, ⟨⟩⟩)
      trivial
    obtain ⟨code, f, m, hreached, ha, rfl, hnext, hframes, hopened, hextra⟩ :=
      exists_reached_fresh hp (by omega) hplain (by decide) 1
    rw [if_pos hvariadic, hparams] at hextra
    have hword : f.prototype.chunk.code[f.next]? = some (.abc .vararg 0 0 3) := by
      rw [hnext]
      exact Option.some.inj hcode
    have hundertakes : Undertakes blank st' f m := by
      refine ⟨ha.back, hnext, ⟨fun n _ hlt => ?_, fun n k hk => ?_, fun _ _ => rfl⟩, fun k q hq => ?_,
        fun u hu => ?_⟩
      · obtain rfl : n = 0 := by omega
        rw [hfirst, ← hword, hnext]
      · have hlt := (Array.getElem?_eq_some_iff.mp hk).1
        omega
      · have hlt := (Array.getElem?_eq_some_iff.mp hq).1
        omega
      · rw [hopened] at hu
        cases hu
    have hextras : m.Ensures (iteration 1) _ _ := ensures_extra (d := 0) ha hword rfl hframes
    rcases ensures_iff_run.mp hextras with ⟨o, m', hrun, rfl, hstands, -⟩ | ⟨_, _, _, hfalse⟩
    · have htraverses : Traverses (m.frames.size - 1) blank.size st'.size m m' := by
        rw [hnext] at hstands
        rw [hframes, hsize]
        refine ⟨.single ⟨⟨by omega, fun _ g hg => ?_⟩, 1, hrun⟩, hstands⟩
        cases ha.back.symm.trans hg
        exact ⟨Nat.zero_le _, by omega⟩
      obtain ⟨n, m₁, vs, hevaluates, -, hfilled, -⟩ :=
        ((Reached.adjusted_values hhosts blank_sound hok).2 _ f hreached rfl hundertakes).2 m'
          htraverses
      have hvalues : vs = [.int 7] := by
        cases hevaluates with
        | last _ _ hproduces =>
          cases hproduces with
          | vararg => exact hextra
          | single hsingle => cases hsingle
        | cons hsingle => cases hsingle.resolve_left fun hne => hne rfl
      subst hvalues
      exact ⟨st', some 2, _, f, m', hhosts, blank_sound, rfl, hreached, rfl, hundertakes, htraverses,
        hfilled.values 0 (by decide), hfilled.values 1 (by decide)⟩
    · exact absurd hfalse (by decide)

end Machine
end LuaMachine
