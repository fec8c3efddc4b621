import LuaMachine.Fault
/-! # Numeric loops

A numeric loop counts from an initial value by steps to a limit. If the initial value and the step
are integers, the rounds are counted before the first one, so the control value cannot overflow;
the limit may then be any number. Otherwise the loop runs on floats and compares before each round.

* `NumericLoop.start`: the state of a loop before its first round.
* `NumericLoop.next`: the state before the next round, if there is one.
-/
set_option autoImplicit false

namespace LuaMachine

/-- The state of a loop: the control value of the current round, the limit, and the step. A loop
over integers holds the number of rounds that follow in place of the limit. -/
structure NumericLoop where
  control : Value
  limit : Value
  step : Value

namespace NumericLoop

/-- The 64 bits of a number; of other values only `true` has one set. -/
def bits : Value → UInt64
  | .int i => i.toUInt64
  | .float d => d.bits
  | .bool true => 1
  | _ => 0

/-- A control expression as a float. -/
def float (part : LoopPart) (v : Value) : Except RuntimeError Double :=
  match v.toFloat? with
  | some d => .ok d
  | none => .error (.loopPart part)

/-! ## Integers -/

/-- The integer at which a loop stops: the last one that the limit allows. There is none if the
limit is beyond all integers on the side that the loop starts from. -/
def lastInteger (limit : Value) (step : Int64) : Except RuntimeError (Option Int64) :=
  match limit with
  | .int i => .ok (some i)
  | v => do
    let bound ← float .limit v
    let rounded := if step < 0 then Double.ceilInt? bound else Double.floorInt? bound
    match rounded.bind Double.int64? with
    | some i => return some i
    | none =>
      if Double.lt .zero bound then return if step < 0 then none else some Int64.maxValue
      else return if 0 < step then none else some Int64.minValue

/-- The number of rounds after the first one. -/
def rounds (first last step : Int64) : UInt64 :=
  if 0 < step then (last.toUInt64 - first.toUInt64) / step.toUInt64
  else (first.toUInt64 - last.toUInt64) / ((-(step + 1)).toUInt64 + 1)

def startIntegers (first : Int64) (limit : Value) (step : Int64) :
    Except RuntimeError (Option NumericLoop) := do
  if step == 0 then throw .zeroStep
  match ← lastInteger limit step with
  | none => return none
  | some last =>
    if (if 0 < step then last < first else first < last) then return none
    else return some ⟨.int first, .int (rounds first last step).toInt64, .int step⟩

/-! ## Floats -/

/-- The control value has not passed the limit. -/
def within (control limit step : Double) : Bool :=
  if Double.lt .zero step then Double.le control limit else Double.le limit control

def startFloats (initial limit step : Value) : Except RuntimeError (Option NumericLoop) := do
  let first ← float .initial initial
  let last ← float .limit limit
  let increment ← float .step step
  if Double.eq increment .zero then throw .zeroStep
  let passed :=
    if Double.lt .zero increment then Double.lt last first else Double.lt first last
  if passed then return none
  else return some ⟨.float first, .float last, .float increment⟩

/-! ## Both -/

/-- The state before the first round; none if there is no round at all. -/
def start (initial limit step : Value) : Except RuntimeError (Option NumericLoop) :=
  match initial, step with
  | .int first, .int increment => startIntegers first limit increment
  | initial, step => startFloats initial limit step

/-- The state before the next round; none if the loop is over. -/
def next (l : NumericLoop) : Option NumericLoop :=
  match l.step with
  | .int step =>
    let count := bits l.limit
    if 0 < count then
      some { l with
        control := .int ((bits l.control).toInt64 + step), limit := .int (count - 1).toInt64 }
    else none
  | step =>
    let increment : Double := ⟨bits step⟩
    let control := Double.add ⟨bits l.control⟩ increment
    if within control ⟨bits l.limit⟩ increment then
      some { l with control := .float control }
    else none

end NumericLoop
end LuaMachine
