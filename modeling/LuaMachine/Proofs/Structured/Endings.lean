import LuaMachine.Proofs.Structured.Assignment
/-! # How the words of statements end

What a machine does whose words are those of a statement that ends in a certain way: it comes to the
next statement or behind the loop, returns, or fails. What is not finished within the rounds that
loops may take keeps the machine busy for as many instructions.

* `Structured.Agrees`, `Structured.Returns`: the results and the tables that a machine is left with.
* `Structured.Ends`: the machine does what the ending says.
* `Structured.rounds_ends`, `Structured.forEach_ends`, `Structured.floatRounds_ends`: loops, from one
  round.
-/
set_option autoImplicit false

namespace LuaMachine
namespace Structured

open Machine (Leads Tries Fails Halts)

/-! ## Results and tables -/

/-- The values and the globals are there with all that they lead to, and what is left of the tables
is as told. -/
structure Agrees (values : List Value) (tables : Tables) (m : Machine) : Prop where
  values : ∀ v ∈ values, m.heap.Has v
  globals : m.heap.Has (.table m.globals)
  tables : ∀ (r : Ref) (t : Table), m.heap.cells[r]? = some (.table t) → tables r = t
  contents : ∀ (r : Ref) (t : Table), m.heap.cells[r]? = some (.table t) → t.Holds m.heap.Has

/-- The loop ends with the values at the place where the caller of the function finds them. -/
def Returns (f : Frame) (values : List Value) (tables : Tables) (m : Machine) : Prop :=
  ∃ m', Halts m (.ok values.length m') ∧
    (m'.stack.extract f.destination (f.destination + values.length)).toList = values ∧
    Agrees values tables m'

variable {f : Frame} {next next' leave leave' : Store → Machine → Prop} {n k : Nat}
  {m m' : Machine} {s : Store} {e : Ending}

/-! ## Endings -/

/-- The machine does what the ending says: `next` holds at the next statement, and `leave` where the
loop around it ends. -/
def Ends (f : Frame) (next leave : Store → Machine → Prop) (n : Nat) (m : Machine) : Ending → Prop
  | .next s => Leads 0 m (next s)
  | .leave s => Leads 0 m (leave s)
  | .returned values tables => Leads 0 m (Returns f values tables)
  | .failed => Fails m
  | .unfinished => Leads n m fun _ => True

namespace Ends

theorem follow (h : Ends f next' leave' n m e) (hnext : ∀ s m', next' s m' → Leads 0 m' (next s))
    (hleave : ∀ s m', leave' s m' → leave s m') : Ends f next leave n m e := by
  cases e with
  | next s => exact Leads.andThen h (hnext s)
  | leave s => exact Leads.mono h (hleave s)
  | returned values tables => exact h
  | failed => exact h
  | unfinished => exact h

theorem mono (h : Ends f next' leave' n m e) (hnext : ∀ s m', next' s m' → next s m')
    (hleave : ∀ s m', leave' s m' → leave s m') : Ends f next leave n m e :=
  h.follow (fun s m' hm' => .here (hnext s m' hm')) hleave

/-- Loops may take fewer rounds. -/
theorem weaken (h : Ends f next leave n m e) (hk : k ≤ n) : Ends f next leave k m e := by
  cases e with
  | unfinished => exact Leads.weaken h hk
  | _ => exact h

/-- Some instructions first, whatever they are. -/
theorem after {Q : Machine → Prop} (h : Leads k m Q)
    (h' : ∀ m', Q m' → Ends f next leave n m' e) : Ends f next leave (k + n) m e := by
  cases e with
  | next s => exact h.andThen h'
  | leave s => exact h.andThen h'
  | returned values tables => exact h.andThen h'
  | failed => exact h.andFails h'
  | unfinished => exact h.trans h'

theorem andAlso {Q : Machine → Prop} (h : Leads k m Q)
    (h' : ∀ m', Q m' → Ends f next leave n m' e) : Ends f next leave n m e :=
  (after h h').weaken (Nat.le_add_left n k)

theorem attempt {α : Type} {x : Option α} {R : α → Machine → Prop} {g : α → Ending}
    (h : Tries x m R) (h' : ∀ a m', x = some a → R a m' → Ends f next leave n m' (g a)) :
    Ends f next leave n m (attempt x g) := by
  cases x with
  | some a => exact andAlso h fun m' => h' a m' rfl
  | none => exact h

/-- A statement and what follows it. -/
theorem andThen {g : Store → Ending} (h : Ends f next' leave n m e)
    (h' : ∀ s m', next' s m' → Ends f next leave n m' (g s)) :
    Ends f next leave n m (e.andThen g) := by
  cases e with
  | next s => exact andAlso h (h' s)
  | leave s => exact h
  | returned values tables => exact h
  | failed => exact h
  | unfinished => exact h

theorem closed {before : Store} (h : Ends f next' leave' n m e)
    (hnext : ∀ s m', next' s m' → Leads 0 m' (next (s.back before)))
    (hleave : ∀ s m', leave' s m' → leave (s.back before) m') :
    Ends f next leave n m (e.closed before) := by
  cases e with
  | next s => exact Leads.andThen h (hnext s)
  | leave s => exact Leads.mono h (hleave s)
  | returned values tables => exact h
  | failed => exact h
  | unfinished => exact h

theorem again {g : Store → Ending} (h : Ends f next' next n m e)
    (h' : ∀ s m', next' s m' → Ends f next leave n m' (g s)) :
    Ends f next leave n m (e.again g) := by
  cases e with
  | next s => exact andAlso h (h' s)
  | leave s => exact h
  | returned values tables => exact h
  | failed => exact h
  | unfinished => exact h

end Ends

/-! ## Loops -/

/-- Each round that is not the last one takes an instruction at least. -/
theorem rounds_ends {round : Store → Ending} {start : Store → Machine → Prop}
    (hround : ∀ s m, start s m →
      Ends f (fun s m' => Leads 1 m' (start s)) next n m (round s)) (hk : k ≤ n)
    (h : start s m) : Ends f next leave k m (rounds round k s) := by
  induction k generalizing s m with
  | zero => exact .here trivial
  | succ k ih =>
    rw [rounds]
    refine .again ((hround s m h).weaken hk) fun s' m' hagain => ?_
    rw [Nat.add_comm]
    exact .after hagain fun m'' => ih (Nat.le_of_succ_le hk)

/-- At the end of a round the loop goes on with its next state, if there is one. -/
def Continues (start : NumericLoop → Store → Machine → Prop) (next : Store → Machine → Prop)
    (l : NumericLoop) (s : Store) (m : Machine) : Prop :=
  match l.next with
  | some l' => Leads 1 m (start l' s)
  | none => Leads 0 m (next s)

section Counting

variable {round : Value → Store → Ending} {start : NumericLoop → Store → Machine → Prop}
  {l : NumericLoop} {vs : List Value}

theorem forEach_ends
    (hround : ∀ l s m, start l s m →
      Ends f (Continues start next l) next n m (round l.control s))
    (hunrolls : l.Unrolls vs) (h : start l s m) :
    Ends f next leave n m (forEach round vs s) := by
  induction hunrolls generalizing s m with
  | last hlast =>
    rw [forEach]
    refine .again (hround _ s m h) fun s' m' hend => ?_
    rw [Continues, hlast] at hend
    exact hend
  | more hmore hunrolls ih =>
    rw [forEach]
    refine .again (hround _ s m h) fun s' m' hend => ?_
    rw [Continues, hmore] at hend
    exact .andAlso hend fun m'' => ih

theorem floatRounds_ends
    (hround : ∀ l s m, start l s m →
      Ends f (Continues start next l) next n m (round l.control s)) (hk : k ≤ n)
    (h : start l s m) : Ends f next leave k m (floatRounds round k l s) := by
  induction k generalizing l s m with
  | zero => exact .here trivial
  | succ k ih =>
    rw [floatRounds]
    refine .again ((hround l s m h).weaken hk) fun s' m' hend => ?_
    unfold Continues at hend
    cases hnext : l.next with
    | some l' =>
      rw [hnext] at hend
      dsimp only
      rw [Nat.add_comm]
      exact .after hend fun m'' => ih (Nat.le_of_succ_le hk)
    | none =>
      rw [hnext] at hend
      exact hend

end Counting

end Structured
end LuaMachine
