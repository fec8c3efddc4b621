import LuaMachine.Proofs.Printing.Expressions
/-! # Reading names

Parameters, the variables of declarations, and what a function statement is for.

* `takes_parameterList`, `takes_attributed`, `takes_furtherNames`: lists of names.
* `takes_functionName`: the target of a function statement.
-/
set_option autoImplicit false

namespace LuaMachine
namespace Parser

/-! ## Names -/

section Names

variable {ws : List Word} {n fuel : Nat}

/-- The parameters of a function; there are some, or it takes more arguments. -/
theorem takes_parameters {params : List Binder} (hconstant : ∀ b ∈ params, b.constant = false)
    {variadic : Bool} (hsome : params = [] → variadic = true)
    (hroom : Room 1 fuel (Style.parameters params variadic ++ .symbol .rightParen :: ws)) :
    Takes ⟨Style.parameters params variadic ++ .symbol .rightParen :: ws, n⟩ (parameters fuel) 0
      (· = (Numbering.binders n params, variadic))
      ⟨.symbol .rightParen :: ws, n + params.length⟩ := by
  induction params generalizing fuel n with
  | nil =>
    obtain ⟨fuel, rfl, -⟩ := hroom.call
    rw [hsome rfl, parameters]
    refine (takes_accept rfl).step fun b hb => ?_
    rw [if_pos hb]
    exact takes_pure rfl
  | cons b rest ih =>
    obtain ⟨fuel, rfl, hcall⟩ := hroom.call
    have hb : b.constant = false := hconstant b List.mem_cons_self
    have hbinder : Binder.mk b.name n false = { b with number := n } := by rw [← hb]
    have hlength : n + 1 + rest.length = n + (b :: rest).length := by
      rw [List.length_cons]
      omega
    rw [parameters]
    by_cases hlast : rest = [] ∧ variadic = false
    · obtain ⟨rfl, rfl⟩ := hlast
      refine (takes_accept_none (by simp [Style.parameters])).step fun c hc => ?_
      rw [hc, if_neg Bool.false_ne_true]
      refine (takes_identifier b.name).step fun t ht => (takes_binder t.text false).step
        fun b' hb' => (takes_accept_none (by simp)).step fun c hc => ?_
      rw [hc, if_neg Bool.false_ne_true]
      exact takes_pure (by rw [hb', ht, hbinder]; rfl)
    · have hwords : Style.parameters (b :: rest) variadic =
          .name b.name :: .symbol .comma :: Style.parameters rest variadic := by
        cases rest with
        | nil =>
          cases variadic with
          | true => rfl
          | false => exact absurd ⟨rfl, rfl⟩ hlast
        | cons b₂ rest => rw [Style.parameters]; simp
      rw [hwords] at hcall ⊢
      refine (takes_accept_none (by simp)).step fun c hc => ?_
      rw [hc, if_neg Bool.false_ne_true]
      refine (takes_identifier b.name).step fun t ht => (takes_binder t.text false).step
        fun b' hb' => (takes_accept rfl).step fun c hc => ?_
      rw [if_pos hc]
      refine (ih (fun b hb => hconstant b (List.mem_cons_of_mem _ hb)) (fun hnil => ?_)
        (hcall.tail.tail.le (by omega))).step fun r hr => ?_
      · cases variadic with
        | true => rfl
        | false => exact absurd ⟨hnil, rfl⟩ hlast
      rw [hr, hlength]
      exact takes_pure (by rw [hb', ht, hbinder]; rfl)

/-- What stands between the parentheses of a function is read, and then what follows. -/
theorem takes_parameterList {α : Type} {params : List Binder}
    (hconstant : ∀ b ∈ params, b.constant = false) {variadic : Bool}
    {f : List Binder × Bool → Parse α} {peak : Nat} {Q : α → Prop} {q : Ahead}
    (hroom : Room 1 fuel (Style.parameters params variadic ++ .symbol .rightParen :: ws))
    (hf : Takes ⟨.symbol .rightParen :: ws, n + params.length⟩
      (f (Numbering.binders n params, variadic)) peak Q q) :
    Takes ⟨Style.parameters params variadic ++ .symbol .rightParen :: ws, n⟩
      (do
        let none ← checkSymbol .rightParen
        if none = true then pure ([], false) >>= f else parameters fuel >>= f) peak Q q := by
  refine (takes_check _).step fun c hc => ?_
  by_cases hnone : params = [] ∧ variadic = false
  · obtain ⟨rfl, rfl⟩ := hnone
    rw [if_pos (hc.trans (decide_eq_true rfl)), pure_bind]
    exact hf
  · rw [hc, if_neg]
    · refine (takes_parameters hconstant (fun hnil => ?_) hroom).step fun r hr => hr ▸ hf
      cases variadic with
      | true => rfl
      | false => exact absurd ⟨hnil, rfl⟩ hnone
    · cases params with
      | nil =>
        cases variadic with
        | true => simp [Style.parameters]
        | false => exact absurd ⟨rfl, rfl⟩ hnone
      | cons b rest => cases rest <;> cases variadic <;> simp [Style.parameters]

theorem takes_constantMark {b : Binder} (hless : nextKind ws ≠ .symbol .less) :
    Takes ⟨(if b.constant then [.symbol .less, .name "const", .symbol .greater] else []) ++ ws, n⟩
      constantMark 0 (· = b.constant) ⟨ws, n⟩ := by
  unfold constantMark
  by_cases hb : b.constant = true
  · rw [if_pos hb, hb]
    refine (takes_accept rfl).step fun c hc => ?_
    rw [if_pos hc]
    refine (takes_identifier "const").step fun t ht => ?_
    rw [if_pos ht]
    exact (takes_consumeSymbol _).step fun _ _ => takes_pure rfl
  · rw [if_neg hb]
    refine (takes_accept_none hless).step fun c hc => ?_
    rw [hc, if_neg Bool.false_ne_true]
    exact takes_pure (by simpa using hb)

/-- The variables of a `local` statement. -/
theorem takes_attributed {bs : List Binder} (hbs : bs ≠ []) (hcomma : nextKind ws ≠ .symbol .comma)
    (hless : nextKind ws ≠ .symbol .less) (hroom : Room 1 fuel (Style.locals bs ++ ws)) :
    Takes ⟨Style.locals bs ++ ws, n⟩ (attributed fuel) 0 (· = Numbering.binders n bs)
      ⟨ws, n + bs.length⟩ := by
  induction bs generalizing fuel n with
  | nil => exact absurd rfl hbs
  | cons b rest ih =>
    obtain ⟨fuel, rfl, hcall⟩ := hroom.call
    have hwords : Style.locals (b :: rest) ++ ws = .name b.name ::
        ((if b.constant then [.symbol .less, .name "const", .symbol .greater] else []) ++
          (Style.behind .comma rest (Style.locals rest) ++ ws)) := by
      simp only [Style.locals, Style.attributed, List.append_assoc, List.cons_append]
    rw [hwords] at hcall ⊢
    rw [attributed]
    refine (takes_identifier b.name).step fun t ht => (takes_constantMark ?_).step
      fun constant hconstant => (takes_binder t.text constant).step fun b' hb' => ?_
    · cases rest with
      | nil => exact hless
      | cons b₂ rest => simp [Style.behind]
    have hbinder : b' = { b with number := n } := by rw [hb', ht, hconstant]
    cases rest with
    | nil =>
      refine (takes_accept_none hcomma).step fun c hc => ?_
      rw [hc, if_neg Bool.false_ne_true]
      exact takes_pure (by rw [hbinder]; rfl)
    | cons b₂ rest =>
      refine (takes_accept rfl).step fun c hc => ?_
      rw [if_pos hc]
      refine (ih (by simp) (hcall.tail.drop.tail.le (by omega))).step fun bs' hbs' => ?_
      rw [hbs', Nat.add_assoc, Nat.add_comm 1]
      exact takes_pure (by rw [hbinder]; rfl)

/-- The variables of a loop behind the first one. -/
theorem takes_furtherNames {bs : List Binder} (hconstant : ∀ b ∈ bs, b.constant = false)
    (hcomma : nextKind ws ≠ .symbol .comma)
    (hroom : Room 1 fuel (Style.behind .comma bs (Style.names bs) ++ ws)) :
    Takes ⟨Style.behind .comma bs (Style.names bs) ++ ws, n⟩ (furtherNames fuel) 0
      (· = Numbering.binders n bs) ⟨ws, n + bs.length⟩ := by
  induction bs generalizing fuel n with
  | nil =>
    obtain ⟨fuel, rfl, -⟩ := hroom.call
    rw [furtherNames]
    refine (takes_accept_none hcomma).step fun c hc => ?_
    rw [hc, if_neg Bool.false_ne_true]
    exact takes_pure rfl
  | cons b rest ih =>
    obtain ⟨fuel, rfl, hcall⟩ := hroom.call
    have hb : b.constant = false := hconstant b List.mem_cons_self
    have hbinder : Binder.mk b.name n false = { b with number := n } := by rw [← hb]
    change Room _ _ (.symbol .comma :: .name b.name :: _) at hcall
    rw [furtherNames]
    refine (takes_accept rfl).step fun c hc => ?_
    rw [if_pos hc]
    refine (takes_identifier b.name).step fun t ht => (takes_binder t.text false).step
      fun b' hb' => (ih (fun b hb => hconstant b (List.mem_cons_of_mem _ hb))
        (hcall.tail.tail.le (by omega))).step fun bs' hbs' => ?_
    rw [hbs', Nat.add_assoc, Nat.add_comm 1]
    exact takes_pure (by rw [hb', ht, hbinder]; rfl)

end Names

/-! ## What a function is declared for -/

section Targets

variable {n : Nat} (line : Nat)

/-- The name in front is read, and then the fields up to the end of the path. -/
theorem takes_path : (e : Expr) → e.isPath = true → ∀ {fuel peak : Nat} {ws : List Word}
    {Q : Expr × String × Bool → Prop} {q : Ahead}, Room 1 fuel (Style.path e ++ ws) →
    (∀ fuel' e', Room 1 fuel' ws → Unlined.expr e' = Unlined.expr e →
      Takes ⟨ws, n⟩ (functionName fuel' line e' e.dotted) peak Q q) →
    Takes ⟨Style.path e ++ ws, n⟩
      (do
        let name ← identifier
        functionName fuel line (.name name.text line) name.text) peak Q q
  | .name name nameLine, _, fuel, peak, ws, Q, q, hroom, hrest => by
    refine (takes_identifier name).step fun t ht => ?_
    rw [ht]
    exact hrest fuel (.name name line) (hroom.drop.le (Nat.le_refl _)) rfl
  | .index object (.str key keyLine) indexLine, hpath, fuel, peak, ws, Q, q, hroom, hrest => by
    have hwords : Style.path (.index object (.str key keyLine) indexLine) ++ ws =
        Style.path object ++ .symbol .dot :: .name key :: ws := by
      rw [Style.path, List.append_assoc]
      rfl
    rw [hwords] at hroom ⊢
    refine takes_path object hpath hroom fun fuel object' hroom hobject => ?_
    obtain ⟨fuel, rfl, hcall⟩ := hroom.call
    rw [functionName]
    refine (takes_accept rfl).step fun c hc => ?_
    rw [if_pos hc]
    refine (takes_identifier key).step fun t ht => ?_
    rw [ht]
    refine hrest fuel (.index object' (.str key t.line) line) (hcall.tail.tail.le (by omega)) ?_
    simp only [Unlined.expr, hobject]

theorem methodName?_eq_some {target : Expr} {full : String} (h : target.methodName? = some full) :
    ∃ object key keyLine line, target = .index object (.str key keyLine) line ∧
      full = object.dotted ++ ":" ++ key := by
  unfold Expr.methodName? at h
  split at h
  · exact ⟨_, _, _, _, rfl, (Option.some.inj h).symm⟩
  · cases h

/-- The target of a function statement, and the name of its function. -/
theorem takes_functionName {target : Expr} {f : Function} {fuel : Nat} {ws : List Word}
    (hpath : target.isPath = true) (hname : f.isMethodOf target = false → f.name = target.dotted)
    (hdot : nextKind ws ≠ .symbol .dot) (hcolon : nextKind ws ≠ .symbol .colon)
    (hroom : Room 1 fuel
      ((if f.isMethodOf target then Style.methodPath target else Style.path target) ++ ws)) :
    Takes ⟨(if f.isMethodOf target then Style.methodPath target else Style.path target) ++ ws, n⟩
      (do
        let name ← identifier
        functionName fuel line (.name name.text line) name.text) 0
      (fun r => Unlined.expr r.1 = Unlined.expr target ∧ r.2 = (f.name, f.isMethodOf target))
      ⟨ws, n⟩ := by
  cases hmethod : f.isMethodOf target with
  | false =>
    rw [hmethod, if_neg Bool.false_ne_true] at hroom
    rw [if_neg Bool.false_ne_true]
    refine takes_path line target hpath hroom fun fuel target' hroom htarget => ?_
    obtain ⟨fuel, rfl, -⟩ := hroom.call
    rw [functionName]
    refine (takes_accept_none hdot).step fun c hc => ?_
    rw [hc, if_neg Bool.false_ne_true]
    refine (takes_accept_none hcolon).step fun c hc => ?_
    rw [hc, if_neg Bool.false_ne_true]
    exact takes_pure ⟨htarget, by rw [hname hmethod]⟩
  | true =>
    rw [hmethod, if_pos rfl] at hroom
    rw [if_pos rfl]
    obtain ⟨object, key, keyLine, indexLine, rfl, hfull⟩ :=
      methodName?_eq_some (of_decide_eq_true hmethod)
    have hwords : Style.methodPath (.index object (.str key keyLine) indexLine) ++ ws =
        Style.path object ++ .symbol .colon :: .name key :: ws := by
      rw [Style.methodPath, List.append_assoc]
      rfl
    rw [hwords] at hroom ⊢
    refine takes_path line object hpath hroom fun fuel object' hroom hobject => ?_
    obtain ⟨fuel, rfl, -⟩ := hroom.call
    rw [functionName]
    refine (takes_accept_none (by simp)).step fun c hc => ?_
    rw [hc, if_neg Bool.false_ne_true]
    refine (takes_accept rfl).step fun c hc => ?_
    rw [if_pos hc]
    refine (takes_identifier key).step fun t ht => takes_pure ⟨?_, ?_⟩
    · simp only [Unlined.expr, hobject, ht]
    · rw [ht, hfull]

end Targets

end Parser
end LuaMachine
