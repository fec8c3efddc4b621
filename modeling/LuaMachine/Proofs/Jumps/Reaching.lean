import LuaMachine.Proofs.Jumps.Landing
/-! # Statements that are compiled

The compiler gets to every statement of a function but for those that a constant condition rules
out.

* `Jumps.Compiles`: a block of a statement that no constant condition rules out.
* `Jumps.Reaches`: a statement that is compiled, with the blocks around it.
* `Jumps.Reaches.stands`: the compiler gets to stand in front of it.
-/
set_option autoImplicit false

namespace LuaMachine
namespace Jumps

open Generator

/-- The condition is not known to be true. -/
def Undecided (condition : Expr) : Prop := ∀ k, condition.fold = some k → k.isFalsey = true

/-- The block of one of the conditions of an `if`, which no constant condition rules out. -/
inductive CompilesClause : List Branch → Block → Prop
  | here {condition : Expr} {body : Block} {rest : List Branch} (possible : Possible condition) :
      CompilesClause (.mk condition body :: rest) body
  | later {condition : Expr} {body body' : Block} {rest : List Branch}
      (undecided : Undecided condition) (clause : CompilesClause rest body') :
      CompilesClause (.mk condition body :: rest) body'

/-- A block of a statement, which no constant condition rules out. -/
inductive Compiles : Stmt → Kind → Block → Prop
  | block {body : Block} {line : Nat} : Compiles (.block body line) .plain body
  | clause {condition : Expr} {body body' : Block} {more : List Branch} {otherwise : Option Block}
      {line : Nat} (clause : CompilesClause (.mk condition body :: more) body') :
      Compiles (.cond condition body more otherwise line) .plain body'
  | otherwise {condition : Expr} {body body' : Block} {more : List Branch} {line : Nat}
      (undecided : ∀ c b, Branch.mk c b ∈ Branch.mk condition body :: more → Undecided c) :
      Compiles (.cond condition body more (some body') line) .plain body'
  | whileLoop {condition : Expr} {body : Block} {line : Nat} (possible : Possible condition) :
      Compiles (.whileLoop condition body line) .loop body
  | repeatLoop {body : Block} {condition : Expr} {line : Nat} :
      Compiles (.repeatLoop body condition line) .repeats body
  | numericFor {b : Binder} {start stop : Expr} {step : Option Expr} {body : Block} {line : Nat} :
      Compiles (.numericFor b start stop step body line) .loop body
  | genericFor {bs : List Binder} {iterators : List Expr} {body : Block} {line : Nat} :
      Compiles (.genericFor bs iterators body line) .loop body

/-- A statement of a function with this body that no constant condition rules out, with the blocks
around it, the innermost one first. -/
inductive Reaches (body : Block) : List Enclosure → Stmt → Prop
  | top {before rest : List Stmt} {s : Stmt} (split : body = before ++ s :: rest) :
      Reaches body [⟨.plain, before, rest⟩] s
  | inner {around : List Enclosure} {s s' : Stmt} {kind : Kind} {body' : Block}
      {before rest : List Stmt} (outer : Reaches body around s) (compiles : Compiles s kind body')
      (split : body' = before ++ s' :: rest) : Reaches body (⟨kind, before, rest⟩ :: around) s'

variable {st st' : State} {u : Unit}

/-! ## Entering blocks -/

theorem enters_of_clause {condition : Expr} {body : Block} {more : Bool} {r : Bool × List Nat}
    (h : compileClause condition body more st = .ok r st') :
    (Possible condition → ∃ st₁, enterGuarded condition false st = .ok () st₁) ∧
      (Undecided condition → r.1 = false) := by
  unfold compileClause clause at h
  unfold enterGuarded
  cases hfold : condition.fold with
  | some k =>
    simp only [hfold] at h ⊢
    split at h
    next hfalse =>
      simp only [pure_ok] at h
      obtain ⟨rfl, rfl⟩ := h
      refine ⟨fun hpossible => ?_, fun _ => rfl⟩
      rw [hpossible k hfold] at hfalse
      cases hfalse
    next htrue =>
      simp only [inBlock, bind_ok, pure_ok] at h
      obtain ⟨_, _, ⟨block, _, ⟨_, st₁, hbegin, -⟩, -⟩, rfl, rfl⟩ := h
      exact ⟨fun _ => ⟨st₁, hbegin⟩, fun hundecided => absurd (hundecided k hfold) htrue⟩
  | none =>
    simp only [hfold, inBlock, bind_ok, pure_ok] at h
    obtain ⟨next, st₁, hnext, _, _, ⟨block, _, ⟨_, st₂, hbegin, -⟩, -⟩, _, _, -, _, _, -, rfl,
      rfl⟩ := h
    exact ⟨fun _ => ⟨st₂, bind_ok.mpr ⟨_, _, hnext, hbegin⟩⟩, fun _ => rfl⟩

theorem enters_of_branches {hasElse : Bool} {bs : List Branch} {r : Bool × List Nat}
    (h : branches bs hasElse st = .ok r st') :
    (∀ body, CompilesClause bs body → ∃ st₁, EntersClause hasElse bs st body st₁) ∧
      ((∀ c b, Branch.mk c b ∈ bs → Undecided c) → r.1 = false) := by
  induction bs generalizing st st' r with
  | nil =>
    rw [branches, pure_ok] at h
    obtain ⟨rfl, rfl⟩ := h
    exact ⟨nofun, fun _ => rfl⟩
  | cons b rest ih =>
    obtain ⟨condition, body⟩ := b
    rw [branches, bind_ok] at h
    obtain ⟨⟨decided, jumps⟩, st₁, hclause, h⟩ := h
    obtain ⟨henters, hopen⟩ := enters_of_clause hclause
    refine ⟨fun body' hcompiles => ?_, fun hall => ?_⟩
    · cases hcompiles with
      | here possible =>
        obtain ⟨st₂, hrun⟩ := henters possible
        exact ⟨st₂, .here possible hrun⟩
      | later undecided clause =>
        obtain rfl : decided = false := hopen undecided
        simp only [Bool.false_eq_true, if_false, bind_ok] at h
        obtain ⟨_, _, hrest, -⟩ := h
        obtain ⟨st₂, hlater⟩ := (ih hrest).1 body' clause
        exact ⟨st₂, .later hclause hlater⟩
    · obtain rfl : decided = false := hopen (hall _ _ List.mem_cons_self)
      simp only [Bool.false_eq_true, if_false, bind_ok, pure_ok] at h
      obtain ⟨_, _, hrest, rfl, rfl⟩ := h
      exact (ih hrest).2 fun c b hmem => hall c b (List.mem_cons_of_mem _ hmem)

theorem Compiles.enters {s : Stmt} {kind : Kind} {body : Block} (hcompiles : Compiles s kind body)
    (h : statement s st = .ok u st') : ∃ st₁, Enters s st kind body st₁ := by
  cases hcompiles with
  | block =>
    rw [statement] at h
    simp only [inBlock, bind_ok] at h
    obtain ⟨_, st₁, hline, _, _, ⟨_, st₂, hbegin, -⟩, -⟩ := h
    exact ⟨st₂, .block (bind_ok.mpr ⟨_, _, hline, hbegin⟩)⟩
  | clause clause =>
    rw [statement_cond] at h
    simp only [bind_ok] at h
    obtain ⟨_, st₁, hline, r, st₂, hbranches, -⟩ := h
    obtain ⟨st₃, henters⟩ := (enters_of_branches hbranches).1 _ clause
    exact ⟨st₃, .clause hline henters⟩
  | otherwise undecided =>
    rw [statement_cond] at h
    simp only [bind_ok] at h
    obtain ⟨_, st₁, hline, ⟨decided, jumps⟩, st₂, hbranches, _, _, helse, -⟩ := h
    obtain rfl : decided = false := (enters_of_branches hbranches).2 undecided
    simp only [compileElse, Option.elim_some, Bool.false_eq_true, if_false, inBlock,
      bind_ok] at helse
    obtain ⟨_, _, ⟨_, st₃, hbegin, -⟩, -⟩ := helse
    exact ⟨st₃, .otherwise (bind_ok.mpr ⟨_, _, hline, hbranches⟩) hbegin⟩
  | @whileLoop condition _ _ possible =>
    rw [statement, bind_ok] at h
    obtain ⟨_, st₁, hline, h⟩ := h
    have hguard : ∃ st₂, enterGuarded condition true st₁ = .ok () st₂ := by
      unfold enterGuarded
      cases hfold : condition.fold with
      | some k =>
        simp only [hfold, possible k hfold, Bool.false_eq_true, if_false, inBlock, bind_ok, here_ok,
          and_assoc, exists_and_left, exists_eq_left] at h
        obtain ⟨_, _, ⟨_, st₂, hbegin, -⟩, -⟩ := h
        exact ⟨st₂, hbegin⟩
      | none =>
        simp only [hfold, inBlock, bind_ok, here_ok, and_assoc, exists_and_left,
          exists_eq_left] at h
        obtain ⟨leave, _, hleave, _, _, ⟨_, st₂, hbegin, -⟩, -⟩ := h
        exact ⟨st₂, bind_ok.mpr ⟨_, _, hleave, hbegin⟩⟩
    obtain ⟨st₂, hrun⟩ := hguard
    exact ⟨st₂, .whileLoop possible (bind_ok.mpr ⟨_, _, hline, hrun⟩)⟩
  | repeatLoop =>
    rw [statement] at h
    simp only [bind_ok, here_ok, and_assoc, exists_and_left, exists_eq_left] at h
    obtain ⟨_, st₁, hline, _, st₂, hbegin, -⟩ := h
    exact ⟨st₂, .repeatLoop (bind_ok.mpr ⟨_, _, hline, hbegin⟩)⟩
  | numericFor =>
    rw [statement_numericFor, bind_ok] at h
    obtain ⟨_, st₁, henter, -⟩ := h
    exact ⟨st₁, .numericFor henter⟩
  | genericFor =>
    rw [statement_genericFor, bind_ok] at h
    obtain ⟨_, st₁, henter, -⟩ := h
    exact ⟨st₁, .genericFor henter⟩

/-! ## Standing in front of a statement -/

variable {origin spot : Spot} {outer : List Spot} {stop : State}

theorem Compiles.labelName? {s : Stmt} {kind : Kind} {body : Block} (h : Compiles s kind body) :
    s.labelName? = none := by
  cases h <;> rfl

/-- The compiler gets from one statement of a block to the ones behind it. -/
theorem Stands.advance {before rest : List Stmt} {s : Stmt} (h : Stands origin (spot :: outer))
    (hwhole : Whole origin stop) (hafter : spot.after = before ++ s :: rest) :
    ∃ spot' : Spot, Stands origin (spot' :: outer) ∧ spot'.kind = spot.kind ∧
      spot'.before = spot.before ++ before ∧ spot'.after = s :: rest := by
  induction before generalizing spot with
  | nil => exact ⟨spot, h, rfl, by simp, hafter⟩
  | cons s' before ih =>
    obtain ⟨_, _, _, heq, hclosing⟩ := h.closing hwhole
    obtain ⟨rfl, rfl⟩ := List.cons.inj heq
    have hrun := hclosing.run
    rw [hafter, List.cons_append, statements_cons, bind_ok] at hrun
    obtain ⟨_, st₁, hnext, -⟩ := hrun
    obtain ⟨spot', hstands, hkind, hbefore, hafter'⟩ := ih (.next h hafter hnext) rfl
    exact ⟨spot', hstands, hkind, by simp [hbefore], hafter'⟩

theorem Reaches.stands {body : Block} {around : List Enclosure} {s : Stmt} {start : State}
    (h : Reaches body around s) (hwhole : Whole (.first .plain body start) stop) :
    ∃ spot outer, Stands (.first .plain body start) (spot :: outer) ∧
      (spot :: outer).map Spot.enclosure = around ∧ ∃ rest, spot.after = s :: rest := by
  induction h with
  | @top before rest s split =>
    obtain ⟨spot, hstands, hkind, hbefore, hafter⟩ := Stands.start.advance hwhole split
    refine ⟨spot, [], hstands, ?_, rest, hafter⟩
    simp [Spot.enclosure, hkind, hbefore, hafter, Spot.first]
  | @inner around s s' kind body' before rest _ compiles split ih =>
    obtain ⟨spot, outer, hstands, haround, rest', hafter⟩ := ih
    obtain ⟨_, _, _, heq, hclosing⟩ := hstands.closing hwhole
    obtain ⟨rfl, rfl⟩ := List.cons.inj heq
    have hrun := hclosing.run
    rw [hafter, statements_cons, bind_ok, compileNext_of_none compiles.labelName?] at hrun
    obtain ⟨_, _, hstatement, -⟩ := hrun
    obtain ⟨st₁, henters⟩ := compiles.enters hstatement
    obtain ⟨spot', hstands', hkind, hbefore, hafter'⟩ :=
      (Stands.enter hstands hafter henters).advance hwhole split
    refine ⟨spot', _, hstands', ?_, rest, hafter'⟩
    rw [List.map_cons, haround]
    simp [Spot.enclosure, hkind, hbefore, hafter', Spot.first]

end Jumps
end LuaMachine
