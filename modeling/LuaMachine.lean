import LuaMachine.Main
import LuaMachine.Proofs.Collection.Marking
import LuaMachine.Proofs.Collection.Exactness
import LuaMachine.Proofs.Generator.Generation
import LuaMachine.Proofs.Heap.Contents
import LuaMachine.Proofs.Machine.Frames
import LuaMachine.Proofs.Number.Equality
import LuaMachine.Proofs.Table.Layout
import LuaMachine.Proofs.Value.Key
import LuaMachine.Proofs.Table.Map
import LuaMachine.Proofs.Table.Traversal
import LuaMachine.Proofs.Structured.Semantics
import LuaMachine.Proofs.Machine.Stepping
import LuaMachine.Proofs.Structured.Running
import LuaMachine.Proofs.Structured.Words
import LuaMachine.Proofs.Structured.Folding
import LuaMachine.Proofs.Structured.Counting
import LuaMachine.Proofs.Structured.Names
import LuaMachine.Proofs.Structured.Access
import LuaMachine.Proofs.Structured.Expressions
import LuaMachine.Proofs.Structured.Assignment
import LuaMachine.Proofs.Structured.Endings
import LuaMachine.Proofs.Structured.Layout
import LuaMachine.Proofs.Structured.Statements
import LuaMachine.Proofs.Structured.Branches
import LuaMachine.Proofs.Structured.Loops
import LuaMachine.Proofs.Structured.NumericFor
import LuaMachine.Proofs.Structured.Programs
import LuaMachine.Proofs.Machine.Working
import LuaMachine.Proofs.Machine.Calls
import LuaMachine.Proofs.Machine.Beginning
import LuaMachine.Proofs.Machine.Natives
import LuaMachine.Proofs.Machine.Protocol
import LuaMachine.Proofs.Machine.Unwinding
import LuaMachine.Proofs.Scoping.Sites
import LuaMachine.Proofs.Scoping.Lexical
import LuaMachine.Proofs.Scoping.Resolution
import LuaMachine.Proofs.Scoping.Analysis
import LuaMachine.Proofs.Scoping.Parsing
import LuaMachine.Proofs.Scoping.Flawless
import LuaMachine.Proofs.Scoping.Tracking
import LuaMachine.Proofs.Scoping.Values
import LuaMachine.Proofs.Scoping.Expressions
import LuaMachine.Proofs.Scoping.Statements
import LuaMachine.Proofs.Scoping.Control
import LuaMachine.Proofs.Scoping.Agreement
import LuaMachine.Proofs.Machine.Aging
import LuaMachine.Proofs.Machine.Delivery
import LuaMachine.Proofs.Machine.Lifetimes
import LuaMachine.Proofs.Machine.Limits
import LuaMachine.Proofs.Machine.Texts
import LuaMachine.Proofs.Jumps.Programs
import LuaMachine.Proofs.Printing.Inversion
import LuaMachine.Proofs.Structured.Correctness
import LuaMachine.Proofs.Lowering.Correctness
import LuaMachine.Proofs.Collection.Alike
import LuaMachine.Proofs.Collection.Lockstep
import LuaMachine.Proofs.Collection.Outcomes
import LuaMachine.Proofs.Table.Tombstones
import LuaMachine.Proofs.Number.Integers
import LuaMachine.Proofs.Number.Exact
import LuaMachine.Proofs.Number.Numerals
import LuaMachine.Proofs.Number.Bases
import LuaMachine.Proofs.Lexing.Spelling
import LuaMachine.Proofs.Lexing.Escapes
import LuaMachine.Proofs.Number.Remainder
import LuaMachine.Proofs.Value.Order
import LuaMachine.Proofs.Machine.Adjustment
import LuaMachine.Proofs.Machine.Iterations
import LuaMachine.Proofs.Lexing.Lines
