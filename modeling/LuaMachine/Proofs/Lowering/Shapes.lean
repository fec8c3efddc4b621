import LuaMachine.Generator
import LuaMachine.Proofs.Code.WellFormed
import LuaMachine.Proofs.Lowering.Homes
/-! # The shape of the code of expressions

What words stand in the code where an expression is evaluated, told by the expression alone: which
registers its parts go to and in which order, where the words of one part end and those of the next
one begin, and where a word may jump to. A position counts words, `r` is the register of the value,
and temporary values live in the registers from `t` on.

* `Prototype.HasWord`, `Prototype.HasWide`, `Prototype.HasJump`: single words.
* `Lowering.Codes`: the words of an expression.
* `Lowering.Row`, `Lowering.Entries`: those of a list of expressions, and of a table constructor.
* `Lowering.Adjusted`: those of a list with a number of values.
-/
set_option autoImplicit false

namespace LuaMachine

/-! ## Words -/

namespace Prototype

def HasWord (p : Prototype) (n : Nat) (op : Opcode) (a b c : Nat) : Prop :=
  ∃ i, p.chunk.code[n]? = some i ∧ i.opcode? = some op ∧ i.a = a ∧ i.b = b ∧ i.c = c

def HasWide (p : Prototype) (n : Nat) (op : Opcode) (a bx : Nat) : Prop :=
  ∃ i, p.chunk.code[n]? = some i ∧ i.opcode? = some op ∧ i.a = a ∧ i.bx = bx

/-- The word is a jump to the target. -/
def HasJump (p : Prototype) (n target : Nat) : Prop :=
  ∃ i, p.chunk.code[n]? = some i ∧ i.opcode? = some .jump ∧ (n : Int) + 1 + i.signedAx = target

/-- The word is the argument of the one before, as far as it has room for it. -/
def HasExtra (p : Prototype) (n argument : Nat) : Prop :=
  ∃ i, p.chunk.code[n]? = some i ∧ i.opcode? = some .extra ∧
    i.ax = argument % (Instruction.maxAx + 1)

/-- The word puts a constant into a register. -/
def Loads (p : Prototype) (n r : Nat) : Constant → Prop
  | .nil => p.HasWord n .loadNil r 1 0
  | .bool b => p.HasWord n .loadBool r (if b then 1 else 0) 0
  | k => ∃ x, p.HasWide n .loadConstant r x ∧ p.chunk.constants[x]? = some k

end Prototype

namespace Lowering

open Generator

/-- The words of a part: from its register, the first temporary one and the first word to the word
behind the last. -/
abbrev Part := Nat → Nat → Nat → Nat → Prop

variable (p : Prototype) (home : String → Home)

/-! ## Names and operands -/

/-- The words that read a global from the table that `_ENV` stands for. -/
def ReadsGlobal (name : String) : Part := fun r t n n' =>
  match home "_ENV" with
  | .register e =>
    (∃ k, p.chunk.constants[k]? = some (.str name) ∧ p.HasWord n .getField r e k ∧ n' = n + 1) ∨
      p.Loads n t (.str name) ∧ p.HasWord (n + 1) .getTable r e t ∧ n' = n + 2
  | .upvalue u =>
    (∃ k, p.chunk.constants[k]? = some (.str name) ∧ p.HasWord n .getGlobal r u k ∧ n' = n + 1) ∨
      p.HasWord n .getUpvalue t u 0 ∧ p.Loads (n + 1) (t + 1) (.str name) ∧
        p.HasWord (n + 2) .getTable r t (t + 1) ∧ n' = n + 3
  | .global => False

def ReadsName (name : String) : Part := fun r t n n' =>
  match home name with
  | .register l => if l = r then n' = n else p.HasWord n .move r l 0 ∧ n' = n + 1
  | .upvalue u => p.HasWord n .getUpvalue r u 0 ∧ n' = n + 1
  | .global => ReadsGlobal p home name r t n n'

/-- An operand is a variable in its own register, or a new temporary value. -/
def Operand (e : Expr) (part : Part) (o t t' n n' : Nat) : Prop :=
  (∃ name line, e = .name name line ∧ home name = .register o ∧ t' = t ∧ n' = n) ∨
    o = t ∧ t' = t + 1 ∧ part t (t + 1) n n'

/-! ## Operators -/

/-- The word of an operator on two registers. -/
def Operates (op : BinaryOp) (r x y n n' : Nat) : Prop :=
  match op with
  | .add => p.HasWord n .add r x y ∧ n' = n + 1
  | .sub => p.HasWord n .sub r x y ∧ n' = n + 1
  | .mul => p.HasWord n .mul r x y ∧ n' = n + 1
  | .div => p.HasWord n .div r x y ∧ n' = n + 1
  | .idiv => p.HasWord n .idiv r x y ∧ n' = n + 1
  | .mod => p.HasWord n .mod r x y ∧ n' = n + 1
  | .pow => p.HasWord n .pow r x y ∧ n' = n + 1
  | .band => p.HasWord n .band r x y ∧ n' = n + 1
  | .bor => p.HasWord n .bor r x y ∧ n' = n + 1
  | .bxor => p.HasWord n .bxor r x y ∧ n' = n + 1
  | .shl => p.HasWord n .shl r x y ∧ n' = n + 1
  | .shr => p.HasWord n .shr r x y ∧ n' = n + 1
  | .eq => p.HasWord n .equal r x y ∧ n' = n + 1
  | .ne => p.HasWord n .equal r x y ∧ p.HasWord (n + 1) .not r r 0 ∧ n' = n + 2
  | .lt => p.HasWord n .less r x y ∧ n' = n + 1
  | .le => p.HasWord n .lessEqual r x y ∧ n' = n + 1
  | .gt => p.HasWord n .less r y x ∧ n' = n + 1
  | .ge => p.HasWord n .lessEqual r y x ∧ n' = n + 1
  | .concat | .and | .or => False

/-- The word of an operator on one operand, behind the words of the operand. -/
def OfUnary (op : UnaryOp) (e : Expr) (part : Part) : Part := fun r t n n' =>
  ∃ o t' n₁, Operand home e part o t t' n n₁ ∧ p.HasWord n₁ (unaryOpcode op) r o 0 ∧ n' = n₁ + 1

/-- The second operand is jumped over if the first one decides. -/
def OfShortCircuit (op : BinaryOp) (first second : Part) : Part := fun r t n n' =>
  ∃ n₁, first r t n n₁ ∧ p.HasWord n₁ .test r (if op = .or then 1 else 0) 0 ∧
    p.HasJump (n₁ + 1) n' ∧ second r t (n₁ + 2) n'

/-- The operands of a chain of concatenations lie one behind the other. -/
def OfChain (count : Nat) (first rest : Part) : Part := fun r t n n' =>
  ∃ n₁ n₂, first t (t + count) n n₁ ∧ rest (t + 1) (t + count) n₁ n₂ ∧
    p.HasWord n₂ .concat r t count ∧ n' = n₂ + 1

def OfOperator (op : BinaryOp) (a b : Expr) (first second : Part) : Part := fun r t n n' =>
  ∃ x y t₁ t₂ n₁ n₂, Operand home a first x t t₁ n n₁ ∧ Operand home b second y t₁ t₂ n₁ n₂ ∧
    Operates p op r x y n₂ n'

/-- An operator on two operands; `rest` is the code of a chain of concatenations. -/
def OfBinary (op : BinaryOp) (a b : Expr) (first second rest : Part) : Part := fun r t n n' =>
  match op with
  | .and | .or => OfShortCircuit p op first second r t n n'
  | .concat => OfChain p (chainLength b + 1) first rest r t n n'
  | op => OfOperator p home op a b first second r t n n'

def OfIndex (e k : Expr) (object key : Part) : Part := fun r t n n' =>
  ∃ x t₁ n₁, Operand home e object x t t₁ n n₁ ∧
    ((∃ name line c, k = .str name line ∧ p.chunk.constants[c]? = some (.str name) ∧
        p.HasWord n₁ .getField r x c ∧ n' = n₁ + 1) ∨
      ∃ y t₂ n₂, Operand home k key y t₁ t₂ n₁ n₂ ∧ p.HasWord n₂ .getTable r x y ∧ n' = n₂ + 1)

/-- A constant, or else the words of the operator. -/
def Folded (e : Expr) (part : Part) : Part := fun r t n n' =>
  (∃ k, e.fold = some k ∧ p.Loads n r k ∧ n' = n + 1) ∨ part r t n n'

/-! ## Calls -/

/-- The number of arguments as a call has it: it is open if the last one can give any number. -/
def argumentCount (args : List Expr) (before : Nat) : Option Nat :=
  match args.getLast? with
  | some last => if last.isMultiple then none else some (args.length + before)
  | none => some before

/-- The words of a call whose function and results are in the registers from `base` on. -/
abbrev Calling := Option Nat → Nat → Nat → Nat → Prop

def OfCall (args : List Expr) (callee : Part) (row : Nat → Nat → Nat → Prop) : Calling :=
  fun results base n n' =>
    ∃ n₁ n₂, callee base (base + 1) n n₁ ∧ row (base + 1) n₁ n₂ ∧
      p.HasWord n₂ .call base (countOperand (argumentCount args 0)) (countOperand results) ∧
      n' = n₂ + 1

def OfMethod (name : String) (args : List Expr) (object : Part) (row : Nat → Nat → Nat → Prop) :
    Calling := fun results base n n' =>
  ∃ n₁ n₂ x, object base (base + 1) n n₁ ∧ p.HasWide n₁ .loadConstant (base + 2) x ∧
    p.chunk.constants[x]? = some (.str name) ∧ p.HasWord (n₁ + 1) .self base base (base + 2) ∧
    row (base + 2) (n₁ + 2) n₂ ∧
    p.HasWord n₂ .call base (countOperand (argumentCount args 1)) (countOperand results) ∧
    n' = n₂ + 1

/-- A call whose value goes to a register stands there if that is the topmost one, and its value is
moved there otherwise. -/
def OfCalled (call : Calling) (d : Destination) (t n n' : Nat) : Prop :=
  match d with
  | .register r | .part r =>
    r + 1 = t ∧ call (some 1) r n n' ∨
      ∃ n₁, call (some 1) t n n₁ ∧ p.HasWord n₁ .move r t 0 ∧ n' = n₁ + 1
  | .values count => call count t n n'

def OfVararg (d : Destination) (t n n' : Nat) : Prop :=
  match d with
  | .register r | .part r => p.HasWord n .vararg r 0 2 ∧ n' = n + 1
  | .values count => p.HasWord n .vararg t 0 (countOperand count) ∧ n' = n + 1

/-! ## Expressions -/

/-- An expression that gives one value gives it to a register. -/
def InOne (part : Part) (d : Destination) (t n n' : Nat) : Prop :=
  match d with
  | .register r | .part r => part r t n n'
  | .values _ => False

/-- The words that store items. -/
def Stores (table count stored n n' : Nat) : Prop :=
  p.HasWord n .setList table count 0 ∧ p.HasExtra (n + 1) stored ∧ n' = n + 2

mutual

/-- The words from `n` to `n'` evaluate the expression to its destination. -/
def Codes : Expr → Destination → Nat → Nat → Nat → Prop
  | .literal v _, d, t, n, n' => InOne (fun r _ n n' => p.Loads n r v.constant ∧ n' = n + 1) d t n n'
  | .str s _, d, t, n, n' => InOne (fun r _ n n' => p.Loads n r (.str s) ∧ n' = n + 1) d t n n'
  | .unary op e line, d, t, n, n' =>
    InOne (Folded p (.unary op e line)
      (OfUnary p home op e fun r => Codes e (.register r))) d t n n'
  | .binary .concat a b _, .part r, t, n, n' =>
    ∃ n₁, Codes a (.register r) t n n₁ ∧ Codes b (.part (r + 1)) t n₁ n'
  | .binary op a b line, d, t, n, n' =>
    InOne (Folded p (.binary op a b line)
      (OfBinary p home op a b (fun r => Codes a (.register r)) (fun r => Codes b (.register r))
        fun r => Codes b (.part r))) d t n n'
  | .name name _, d, t, n, n' => InOne (ReadsName p home name) d t n n'
  | .vararg _, d, t, n, n' => OfVararg p d t n n'
  | .paren e _, d, t, n, n' => InOne (fun r => Codes e (.register r)) d t n n'
  | .call f args _, d, t, n, n' =>
    OfCalled p (OfCall p args (fun r => Codes f (.register r)) (Row args none)) d t n n'
  | .method e name args _, d, t, n, n' =>
    OfCalled p (OfMethod p name args (fun r => Codes e (.register r)) (Row args none)) d t n n'
  | .table fs _, d, t, n, n' =>
    InOne (fun r t n n' =>
      r + 1 = t ∧ p.HasWord n .newTable r 0 0 ∧ Entries fs r 0 0 (n + 1) n' ∨
        ∃ n₁, p.HasWord n .newTable t 0 0 ∧ Entries fs t 0 0 (n + 1) n₁ ∧
          p.HasWord n₁ .move r t 0 ∧ n' = n₁ + 1) d t n n'
  | .index e k _, d, t, n, n' =>
    InOne (OfIndex p home e k (fun r => Codes e (.register r)) (fun r => Codes k (.register r))) d t
      n n'
  | .function _, d, t, n, n' =>
    InOne (fun r _ n n' => (∃ x, p.HasWide n .closure r x) ∧ n' = n + 1) d t n n'

/-- The words that evaluate expressions to the registers from `t` on; the last one gives as many
values as it is told. -/
def Row : List Expr → Option Nat → Nat → Nat → Nat → Prop
  | [], _, _, n, n' => n' = n
  | e :: rest, last, t, n, n' =>
    if rest.isEmpty && e.isMultiple then Codes e (.values last) t n n'
    else ∃ n₁, Codes e (.register t) (t + 1) n n₁ ∧ Row rest last (t + 1) n₁ n'

/-- The words that put entries into a table, with `pending` items in the registers above it and
`stored` ones in it. -/
def Entries : List Field → Nat → Nat → Nat → Nat → Nat → Prop
  | [], table, pending, stored, n, n' =>
    if 0 < pending then Stores p table pending stored n n' else n' = n
  | .pair k e :: rest, table, pending, stored, n, n' =>
    (∃ name line c v t' n₁, k = .str name line ∧ p.chunk.constants[c]? = some (.str name) ∧
      Operand home e (fun r => Codes e (.register r)) v (table + 1 + pending) t' n n₁ ∧
      p.HasWord n₁ .setField table c v ∧ Entries rest table pending stored (n₁ + 1) n') ∨
    ∃ y v t₁ t₂ n₁ n₂,
      Operand home k (fun r => Codes k (.register r)) y (table + 1 + pending) t₁ n n₁ ∧
      Operand home e (fun r => Codes e (.register r)) v t₁ t₂ n₁ n₂ ∧
      p.HasWord n₂ .setTable table y v ∧ Entries rest table pending stored (n₂ + 1) n'
  | .item e :: rest, table, pending, stored, n, n' =>
    if rest.isEmpty && e.isMultiple then
      ∃ n₁, Codes e (.values none) (table + 1 + pending) n n₁ ∧ Stores p table 0 stored n₁ n'
    else
      ∃ n₁, Codes e (.register (table + 1 + pending)) (table + 1 + pending + 1) n n₁ ∧
        if pending + 1 = itemsPerStore then
          Stores p table (pending + 1) stored n₁ (n₁ + 2) ∧
            Entries rest table 0 (stored + (pending + 1)) (n₁ + 2) n'
        else Entries rest table (pending + 1) stored n₁ n'

end

/-- The word that fills registers with nil, if there are any. -/
def Pads (r count n n' : Nat) : Prop :=
  if 0 < count then p.HasWord n .loadNil r count 0 ∧ n' = n + 1 else n' = n

/-- How many values are missing in a list of expressions; the last one makes up for them if it can
give any number. -/
def missing (es : List Expr) (wanted : Option Nat) : Nat :=
  match es.getLast? with
  | some last => if last.isMultiple then 0 else wanted.getD 0 - es.length
  | none => wanted.getD 0

/-- The words that evaluate a list of expressions to a number of values, or to all of them. -/
def Adjusted (es : List Expr) (wanted : Option Nat) (t n n' : Nat) : Prop :=
  ∃ n₁, Row p home es (wanted.map fun w => w - (es.length - 1)) t n n₁ ∧
    Pads p (t + es.length) (missing es wanted) n₁ n'

end Lowering
end LuaMachine
