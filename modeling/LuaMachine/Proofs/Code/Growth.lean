import LuaMachine.Proofs.Code.Fields
import LuaMachine.Proofs.Code.WellFormed
/-! # Code that is still growing

While a function is compiled, words are added at the end and targets of jumps are filled in. The
conditions on a word are stated so that they hold at once and stay true: a target may be the next
word to come, as long as it is not the argument of another word.

* `Prototype.Landing`, `Instruction.FitsAt`: conditions that survive growth.
* `Prototype.Grows`: what compiling does to a prototype.
* `Prototype.Sound`: the invariant of a prototype in the making; the words at some open positions
  are not finished yet.
-/
set_option autoImplicit false

namespace LuaMachine

/-! ## Conditions that survive growth -/

/-- A position where the code can go on: that of a word, or of the next one to come, but not of the
argument of another word. -/
structure Prototype.Landing (p : Prototype) (t : Nat) : Prop where
  le : t ≤ p.chunk.size
  apart : ∀ n, t = n + 1 → p.opcodeAt? n ≠ some .setList

structure Instruction.FitsAt (p : Prototype) (position : Nat) (i : Instruction) (op : Opcode) :
    Prop where
  operands : i.OperandsFit p op
  target : ∀ t ∈ i.targets position op, ∃ n : Nat, t = n ∧ p.Landing n
  list : op = .setList → p.opcodeAt? (position + 1) = some .extra
  extra : op = .extra → ∃ n, position = n + 1 ∧ p.opcodeAt? n = some .setList
  test : op = .test → p.opcodeAt? (position + 1) = some .jump

/-- There is more of everything, and what a word does stays the same. -/
structure Prototype.Grows (p p' : Prototype) : Prop where
  registers : p.registers ≤ p'.registers
  constants : ∀ (n : Nat) (k : Constant), p.chunk.constants[n]? = some k →
    p'.chunk.constants[n]? = some k
  upvalues : ∀ (n : Nat) (u : UpvalueSource), p.upvalues[n]? = some u → p'.upvalues[n]? = some u
  children : ∀ (n : Nat) (q : Prototype), p.children[n]? = some q → p'.children[n]? = some q
  size : p.chunk.size ≤ p'.chunk.size
  opcodes : ∀ n < p.chunk.size, p'.opcodeAt? n = p.opcodeAt? n
  params : p'.params = p.params

namespace Prototype

variable {p p' p'' : Prototype}

theorem opcodeAt?_eq_some_iff {n : Nat} {op : Opcode} :
    p.opcodeAt? n = some op ↔ ∃ i, p.chunk.code[n]? = some i ∧ i.opcode? = some op :=
  Option.bind_eq_some_iff

theorem lt_size_of_word {n : Nat} {i : Instruction} (h : p.chunk.code[n]? = some i) :
    n < p.chunk.size :=
  (Array.getElem?_eq_some_iff.mp h).1

theorem exists_word {n : Nat} (h : n < p.chunk.size) : ∃ i, p.chunk.code[n]? = some i :=
  ⟨_, Array.getElem?_eq_getElem h⟩

theorem lt_size_of_opcodeAt? {n : Nat} {op : Opcode} (h : p.opcodeAt? n = some op) :
    n < p.chunk.size := by
  obtain ⟨i, hi, -⟩ := opcodeAt?_eq_some_iff.1 h
  exact lt_size_of_word hi

namespace Grows

theorem refl (p : Prototype) : p.Grows p where
  registers := Nat.le_refl _
  constants _ _ h := h
  upvalues _ _ h := h
  children _ _ h := h
  size := Nat.le_refl _
  opcodes _ _ := rfl
  params := rfl

theorem trans (h : p.Grows p') (h' : p'.Grows p'') : p.Grows p'' where
  registers := Nat.le_trans h.registers h'.registers
  constants n k hk := h'.constants n k (h.constants n k hk)
  upvalues n u hu := h'.upvalues n u (h.upvalues n u hu)
  children n q hq := h'.children n q (h.children n q hq)
  size := Nat.le_trans h.size h'.size
  opcodes n hn := (h'.opcodes n (Nat.lt_of_lt_of_le hn h.size)).trans (h.opcodes n hn)
  params := h'.params.trans h.params

theorem constants_size_le (h : p.Grows p') :
    p.chunk.constants.size ≤ p'.chunk.constants.size := by
  refine Nat.le_of_not_lt fun hlt => ?_
  have hk := h.constants _ _ (Array.getElem?_eq_getElem hlt)
  exact Nat.lt_irrefl _ (Array.getElem?_eq_some_iff.mp hk).1

theorem upvalues_size_le (h : p.Grows p') : p.upvalues.size ≤ p'.upvalues.size := by
  refine Nat.le_of_not_lt fun hlt => ?_
  have hu := h.upvalues _ _ (Array.getElem?_eq_getElem hlt)
  exact Nat.lt_irrefl _ (Array.getElem?_eq_some_iff.mp hu).1

theorem children_size_le (h : p.Grows p') : p.children.size ≤ p'.children.size := by
  refine Nat.le_of_not_lt fun hlt => ?_
  have hq := h.children _ _ (Array.getElem?_eq_getElem hlt)
  exact Nat.lt_irrefl _ (Array.getElem?_eq_some_iff.mp hq).1

theorem opcodeAt? (h : p.Grows p') {n : Nat} {op : Opcode} (hop : p.opcodeAt? n = some op) :
    p'.opcodeAt? n = some op :=
  (h.opcodes n (lt_size_of_opcodeAt? hop)).trans hop

theorem landing (h : p.Grows p') {t : Nat} (ht : p.Landing t) : p'.Landing t where
  le := Nat.le_trans ht.le h.size
  apart n hn hop := by
    have hlt : n < p.chunk.size := by
      have hle := ht.le
      omega
    exact ht.apart n hn ((h.opcodes n hlt).symm.trans hop)

theorem operandsFit (h : p.Grows p') {i : Instruction} {op : Opcode} (hi : i.OperandsFit p op) :
    i.OperandsFit p' op where
  registers run hrun k hk := Nat.lt_of_lt_of_le (hi.registers run hrun k hk) h.registers
  constant k hk := Nat.lt_of_lt_of_le (hi.constant k hk) h.constants_size_le
  upvalue u hu := Nat.lt_of_lt_of_le (hi.upvalue u hu) h.upvalues_size_le
  child n hn := Nat.lt_of_lt_of_le (hi.child n hn) h.children_size_le

theorem fitsAt (h : p.Grows p') {i : Instruction} {op : Opcode} {n : Nat}
    (hi : i.FitsAt p n op) : i.FitsAt p' n op where
  operands := h.operandsFit hi.operands
  target t ht := by
    obtain ⟨m, hm, hl⟩ := hi.target t ht
    exact ⟨m, hm, h.landing hl⟩
  list hop := h.opcodeAt? (hi.list hop)
  extra hop := by
    obtain ⟨m, hm, ho⟩ := hi.extra hop
    exact ⟨m, hm, h.opcodeAt? ho⟩
  test hop := h.opcodeAt? (hi.test hop)

theorem supplies (h : p.Grows p') {q : Prototype} (hq : p.Supplies q) : p'.Supplies q := by
  intro u hu
  have hlt := hq u hu
  cases hu : u.fromRegister with
  | true =>
    simp only [hu, if_true] at hlt ⊢
    exact Nat.lt_of_lt_of_le hlt h.registers
  | false =>
    simp only [hu, Bool.false_eq_true, if_false] at hlt ⊢
    exact Nat.lt_of_lt_of_le hlt h.upvalues_size_le

end Grows

/-! ## The invariant -/

/-- A prototype in the making. The words at the positions `ps` are not finished; `Good` is known of
the functions inside of it. -/
structure Sound (Good : Prototype → Prop) (ps : List Nat) (p : Prototype) : Prop where
  registers : p.registers ≤ FunctionScope.maxRegisters
  constants : p.chunk.constants.size ≤ Chunk.maxConstants
  places : ∀ (k : Constant) (place : Nat), p.chunk.places[k]? = some place →
    p.chunk.constants[place]? = some k
  words : ∀ (n : Nat) (i : Instruction), p.chunk.code[n]? = some i → n ∉ ps →
    ∃ op, i.opcode? = some op ∧ i.FitsAt p n op
  children : ∀ q ∈ p.children, p.Supplies q ∧ Good q

namespace Sound

variable {Good : Prototype → Prop} {ps ps' : List Nat}

/-- The words of a grown prototype are old finished ones or are looked at anew. -/
theorem words_of_grows (h : p.Sound Good ps) (hg : p.Grows p')
    (hnew : ∀ (n : Nat) (i : Instruction), p'.chunk.code[n]? = some i → n ∉ ps' →
      (p.chunk.code[n]? = some i ∧ n ∉ ps) ∨ ∃ op, i.opcode? = some op ∧ i.FitsAt p' n op)
    (n : Nat) (i : Instruction) (hi : p'.chunk.code[n]? = some i) (hn : n ∉ ps') :
    ∃ op, i.opcode? = some op ∧ i.FitsAt p' n op := by
  rcases hnew n i hi hn with ⟨hold, hps⟩ | hfit
  · obtain ⟨op, hop, hfit⟩ := h.words n i hold hps
    exact ⟨op, hop, hg.fitsAt hfit⟩
  · exact hfit

theorem children_of_grows (h : p.Sound Good ps) (hg : p.Grows p') {q : Prototype}
    (hq : q ∈ p.children) : p'.Supplies q ∧ Good q :=
  ⟨hg.supplies (h.children q hq).1, (h.children q hq).2⟩

/-- A word that turned out to be finished. -/
theorem settle {n : Nat} {i : Instruction} {op : Opcode} (h : p.Sound Good (n :: ps))
    (hi : p.chunk.code[n]? = some i) (hop : i.opcode? = some op) (hfit : i.FitsAt p n op) :
    p.Sound Good ps :=
  { h with
    words := fun m j hj hm => by
      by_cases hmn : m = n
      · subst hmn
        cases hi.symm.trans hj
        exact ⟨op, hop, hfit⟩
      · exact h.words m j hj (by simp [hmn, hm]) }

end Sound

end Prototype
end LuaMachine
