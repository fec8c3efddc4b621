import LuaMachine.Folding
import LuaMachine.Proofs.Structured.Semantics
/-! # Constant expressions

An expression that is folded has the value that evaluating it gives, in any store.

* `Operator.isNumber_of_apply`: operators give numbers.
* `Structured.value_of_fold`: the value of a folded expression.
-/
set_option autoImplicit false

namespace LuaMachine

/-! ## Operators -/

section Operators

open Arithmetic

variable {x y v : Value}

theorem isNumber_of_bitwise {f : Int64 → Int64 → Int64} (h : bitwise f x y = .ok v) :
    v.isNumber = true := by
  unfold bitwise at h
  cases hx : bitwiseOperand x with
  | error e => simp [hx, bind, Except.bind] at h
  | ok i =>
    cases hy : bitwiseOperand y with
    | error e => simp [hx, hy, bind, Except.bind] at h
    | ok j =>
      simp only [hx, hy, bind, Except.bind, pure, Except.pure, Except.ok.injEq] at h
      rw [← h]
      rfl

theorem isNumber_of_shift {f : Int64 → Int64 → Int64} (h : shift f x y = .ok v) :
    v.isNumber = true := by
  unfold shift at h
  cases hy : bitwiseOperand y with
  | error e => simp [hy, bind, Except.bind] at h
  | ok j =>
    cases hx : bitwiseOperand x with
    | error e => simp [hx, hy, bind, Except.bind] at h
    | ok i =>
      simp only [hx, hy, bind, Except.bind, pure, Except.pure, Except.ok.injEq] at h
      rw [← h]
      rfl

theorem isNumber_of_onFloats {f : Double → Double → Double} (h : onFloats f x y = .ok v) :
    v.isNumber = true := by
  unfold onFloats at h
  split at h
  · cases h
    rfl
  · cases h

theorem isNumber_of_onNumbers {f : Int64 → Int64 → Except RuntimeError Int64}
    {g : Double → Double → Double} (h : onNumbers f g x y = .ok v) : v.isNumber = true := by
  unfold onNumbers at h
  split at h
  next i j =>
    cases hf : f i j with
    | error e => simp [hf, Except.map] at h
    | ok k =>
      simp only [hf, Except.map, Except.ok.injEq] at h
      rw [← h]
      rfl
  next => exact isNumber_of_onFloats h

theorem Operator.isNumber_of_apply {op : Operator} (h : op.apply x y = .ok v) :
    v.isNumber = true := by
  unfold Operator.apply at h
  cases op with
  | add | sub | mul | mod | idiv => exact isNumber_of_onNumbers h
  | div | pow => exact isNumber_of_onFloats h
  | band | bor | bxor => exact isNumber_of_bitwise h
  | shl | shr => exact isNumber_of_shift h
  | unm =>
    cases x with
    | int i =>
      cases h
      rfl
    | float d =>
      cases h
      rfl
    | _ => cases h
  | bnot =>
    cases hx : bitwiseOperand x with
    | error e => simp [hx, Except.map] at h
    | ok i =>
      simp only [hx, Except.map, Except.ok.injEq] at h
      rw [← h]
      rfl

end Operators

/-! ## Folded expressions -/

namespace Structured

variable {s : Store} {tables : Tables} {a b k : Constant}

theorem literal_eq (v : Literal) : literal v = v.constant.value := by
  cases v with
  | number n => cases n <;> rfl
  | _ => rfl

theorem value_of_arithmetic {op : Operator} (h : Folding.arithmetic op a b = some k) :
    (op.apply a.value b.value).toOption = some k.value := by
  unfold Folding.arithmetic at h
  split at h
  · cases hv : op.apply a.value b.value with
    | error e => simp [hv] at h
    | ok v =>
      simp only [hv] at h
      cases v with
      | int i =>
        cases h
        rfl
      | float d =>
        cases h
        rfl
      | _ => cases h
  · cases h

theorem value_of_unary {op : UnaryOp} (h : Folding.unary op a = some k) :
    unaryValue tables op a.value = some k.value := by
  cases op with
  | negate => exact value_of_arithmetic h
  | complement => exact value_of_arithmetic h
  | not =>
    cases h
    rfl
  | length =>
    cases a with
    | str t =>
      cases h
      rfl
    | _ => cases h

theorem piece_eq (a : Constant) : piece a.value = Folding.piece? a := by
  cases a <;> rfl

theorem value_of_binary {op : BinaryOp} (h : Folding.binary op a b = some k) :
    binaryValue op a.value b.value = some k.value := by
  have hnumbers : ∀ o : Operator, (some o).bind (fun o => Folding.arithmetic o a b) = some k →
      (o.apply a.value b.value).toOption = some k.value := fun o ho => value_of_arithmetic ho
  cases op with
  | and | or =>
    simp only [Folding.binary, Option.some.injEq] at h
    rw [binaryValue, ← h, ← Constant.isFalsey]
    cases a.isFalsey <;> rfl
  | concat =>
    simp only [Folding.binary] at h
    simp only [binaryValue, piece_eq]
    split at h
    next t u ht hu =>
      cases h
      rw [ht, hu]
      rfl
    next => cases h
  | eq | ne | lt | le | gt | ge => cases h
  | _ => exact hnumbers _ h

/-- Whatever the operator is, both operands are evaluated if they have values. -/
theorem value_binary {op : BinaryOp} {l r : Expr} {line : Nat} {x y : Value}
    (hx : value s l = some x) (hy : value s r = some y) :
    value s (.binary op l r line) = binaryValue op x y := by
  cases op with
  | and | or =>
    simp only [value, hx, hy, binaryValue, Option.bind_eq_bind, Option.bind_some]
    split <;> rfl
  | _ =>
    simp only [value, hx, hy]
    rfl

theorem value_of_fold {e : Expr} (h : e.fold = some k) : value s e = some k.value := by
  induction e using Expr.fold.induct generalizing k with
  | case1 v line =>
    cases h
    exact congrArg some (literal_eq v)
  | case2 t line =>
    cases h
    rfl
  | case3 e line ih =>
    rw [value]
    exact ih h
  | case4 op e line a ha ih =>
    simp only [Expr.fold, ha] at h
    rw [value, ih ha]
    exact value_of_unary h
  | case5 op e line ha ih =>
    simp only [Expr.fold, ha] at h
    cases h
  | case6 op l r line a b hb ha ihl ihr =>
    simp only [Expr.fold, ha, hb] at h
    rw [value_binary (ihl ha) (ihr hb)]
    exact value_of_binary h
  | case7 op l r line hnone =>
    rw [Expr.fold] at h
    split at h
    next a b ha hb => exact (hnone a b ha hb).elim
    next => cases h
  | case8 e hliteral hstr hparen hunary hbinary =>
    cases e with
    | literal v line => exact (hliteral v line rfl).elim
    | str t line => exact (hstr t line rfl).elim
    | paren e line => exact (hparen e line rfl).elim
    | unary op e line => exact (hunary op e line rfl).elim
    | binary op l r line => exact (hbinary op l r line rfl).elim
    | _ => cases h

end Structured
end LuaMachine
