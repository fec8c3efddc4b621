import LuaMachine.Proofs.Printing.Operands
/-! # Reading expressions

Each kind of expression is read, if its parts are.

* `takes_expressions`, `takes_arguments`: lists of expressions.
* `readable_binary`, `readable_call` and the like: one for each kind of expression.
-/
set_option autoImplicit false

namespace LuaMachine
namespace Parser

abbrev SameExprs (n : Nat) (es es' : List Expr) : Prop :=
  Unlined.exprs es' = Unlined.exprs (Numbering.exprs n es).1

section Expressions

variable {style : Style} {variadic : Bool}

theorem Readable.whole {e : Expr} (h : Readable style variadic e) {fuel depth n : Nat}
    {ws : List Word} (hroom : Room 20 fuel (style.expr e ++ ws)) (hstops : Stops 0 (nextKind ws)) :
    Takes ⟨style.expr e ++ ws, n⟩ (Parser.binary fuel 0 depth variadic)
      (depth + Nesting.expr style e) (SameExpr n e) ⟨ws, (Numbering.expr n e).2⟩ :=
  h.binary 0 (by decide) (Nat.zero_le _) fuel depth n ws hroom hstops

theorem nesting_pos (style : Style) : (e : Expr) → 1 ≤ Nesting.expr style e
  | .literal _ _ | .str _ _ | .name _ _ | .vararg _ => Nat.le_refl _
  | .unary _ _ _ | .paren _ _ | .table _ _ | .function _ => Nat.succ_pos _
  | .binary op l r _ => by
    have hl := nesting_pos style l
    cases op <;> simp only [Nesting.expr] <;> omega
  | .call f _ _ => Nat.le_trans (nesting_pos style f) (Nat.le_max_left _ _)
  | .method e _ _ _ => Nat.le_trans (nesting_pos style e) (Nat.le_max_left _ _)
  | .index e _ _ => Nat.le_trans (nesting_pos style e) (Nat.le_max_left _ _)

/-! ## Lists -/

theorem takes_expressions {es : List Expr} (hes : es ≠ [])
    (hread : ∀ e ∈ es, Readable style variadic e) {fuel depth n : Nat} {ws : List Word}
    (hroom : Room 21 fuel (style.exprs es ++ ws)) (hstops : Stops 0 (nextKind ws))
    (hcomma : nextKind ws ≠ .symbol .comma) :
    Takes ⟨style.exprs es ++ ws, n⟩ (expressions fuel depth variadic)
      (depth + Nesting.exprs style es) (SameExprs n es) ⟨ws, (Numbering.exprs n es).2⟩ := by
  induction es generalizing fuel n with
  | nil => exact absurd rfl hes
  | cons e rest ih =>
    obtain ⟨fuel, rfl, hcall⟩ := hroom.call
    have he := hread e List.mem_cons_self
    rw [expressions]
    cases rest with
    | nil =>
      have hwords : style.exprs [e] ++ ws = style.expr e ++ ws := by
        rw [Style.exprs, Style.behind, List.append_nil]
      rw [hwords] at hcall ⊢
      refine ((he.whole hcall hstops).done fun e' he' => ?_).of_eq (by simp [Nesting.exprs])
      refine (takes_accept_none hcomma).step fun b hb => ?_
      rw [hb, if_neg Bool.false_ne_true]
      exact takes_pure (by simp only [SameExprs, Unlined.exprs, Numbering.exprs, he'])
    | cons e₂ rest =>
      have hwords : style.exprs (e :: e₂ :: rest) ++ ws =
          style.expr e ++ .symbol .comma :: (style.exprs (e₂ :: rest) ++ ws) := by
        rw [Style.exprs, Style.behind]
        simp only [List.append_assoc, List.cons_append]
      rw [hwords] at hcall ⊢
      refine ((he.whole hcall (stops_symbol (by decide))).bind fun e' he' => ?_).of_eq
        (Nat.add_max_add_left ..)
      refine (takes_accept rfl).step fun b hb => ?_
      rw [if_pos hb]
      refine (ih (by simp) (fun e he => hread e (List.mem_cons_of_mem _ he))
        (hcall.drop.tail.le (by omega))).done fun es' hes' => ?_
      exact takes_pure (by
        rw [SameExprs, Numbering.exprs, Unlined.exprs, Unlined.exprs, he', hes'])

/-- A list of expressions begins with an expression. -/
theorem exprs_starts {es : List Expr} (hes : es ≠ [])
    (hread : ∀ e ∈ es, Readable style variadic e) (ws : List Word) :
    starts (nextKind (style.exprs es ++ ws)) = true := by
  cases es with
  | nil => exact absurd rfl hes
  | cons e rest =>
    obtain ⟨w, us, hwords, hopens⟩ := (hread e List.mem_cons_self).opening
    rw [Style.exprs, hwords]
    exact hopens.starts.starts

theorem ne_of_starts {k k' : TokenKind} (h : starts k = true) (hk : starts k' = false) :
    k ≠ k' := by
  rintro rfl
  rw [h] at hk
  cases hk

/-! ## Entries of a table -/

abbrev SameFields (n : Nat) (fs fs' : List Field) : Prop :=
  Unlined.fields fs' = Unlined.fields (Numbering.fields n fs).1

theorem readsField_item {e : Expr} (he : Readable style variadic e) :
    ReadsField style variadic (.item e) := by
  obtain ⟨w, us, hwords, hopens⟩ := he.opening
  have hfield : style.field (.item e) = style.expr e := rfl
  refine ⟨?_, fun fuel depth n ws hroom hstops hequal => ?_⟩
  · rw [hfield, hwords]
    refine ⟨fun hkind => ?_, by simp⟩
    have hstarts := hopens.starts.starts
    rw [show w.kind = .symbol .rightBrace from hkind] at hstarts
    cases hstarts
  obtain ⟨fuel, rfl, hcall⟩ := hroom.call
  rw [field]
  refine takes_get.step fun st hst => ?_
  obtain ⟨hspells, -⟩ := hst
  rw [hfield, hwords] at hspells
  split
  next heq =>
    -- no expression begins with a bracket
    rw [heq] at hspells
    have hstarts := hopens.starts.starts
    rw [← show TokenKind.symbol .leftBracket = w.kind from spells_head hspells] at hstarts
    cases hstarts
  next heq =>
    -- a name in front is not followed by an equals sign
    rw [heq] at hspells
    have hkind := spells_head hspells
    have hnext := spells_head (spells_tail hspells)
    cases us with
    | nil => exact absurd hnext.symm hequal
    | cons v vs => exact absurd hnext.symm (hopens.noKey hkind.symm v rfl)
  next =>
    exact (he.whole hcall hstops).done fun e' he' => takes_pure (by
      simp only [SameField, Unlined.field, Numbering.field, he'])

theorem key?_eq_some {k : Expr} {name : String} (h : style.key? k = some name) :
    ∃ line, k = .str name line := by
  cases k with
  | str key line =>
    simp only [Style.key?] at h
    split at h
    · exact ⟨line, by rw [Option.some.inj h]⟩
    · cases h
  | _ => cases h

theorem readsField_pair {k e : Expr} (hk : Readable style variadic k)
    (he : Readable style variadic e) : ReadsField style variadic (.pair k e) := by
  cases hkey : style.key? k with
  | some name =>
    obtain ⟨line, rfl⟩ := key?_eq_some hkey
    have hfield : style.field (.pair (.str name line) e) =
        .name name :: .symbol .equal :: style.expr e := by
      rw [Style.field, hkey, List.singleton_append]
    have hlevels : Nesting.field style (.pair (.str name line) e) = Nesting.expr style e := by
      rw [Nesting.field, hkey]
    refine ⟨by rw [hfield]; exact ⟨by simp, by simp⟩, fun fuel depth n ws hroom hstops _ => ?_⟩
    obtain ⟨fuel, rfl, hcall⟩ := hroom.call
    rw [hfield] at hcall ⊢
    rw [hlevels, field]
    refine takes_get.step fun st hst => ?_
    obtain ⟨tokens, binders⟩ := st
    obtain ⟨hspells, -⟩ := hst
    cases hspells with
    | word _ line₁ hrest =>
    cases hrest with
    | word _ line₂ hrest =>
    refine takes_advance.step fun _ _ => takes_advance.step fun _ _ =>
      (he.whole (hcall.tail.tail.le (by omega)) hstops).done fun e' he' => takes_pure ?_
    simp only [SameField, Unlined.field, Numbering.field, Unlined.expr, Numbering.expr, he']
    rfl
  | none =>
    have hfield : style.field (.pair k e) = .symbol .leftBracket :: (style.expr k ++
        .symbol .rightBracket :: .symbol .equal :: style.expr e) := by
      rw [Style.field, hkey]
      simp only [List.append_assoc, List.cons_append, List.nil_append]
    have hlevels : Nesting.field style (.pair k e) =
        max (Nesting.expr style k) (Nesting.expr style e) := by
      rw [Nesting.field, hkey]
    refine ⟨by rw [hfield]; exact ⟨by simp, by simp⟩, fun fuel depth n ws hroom hstops _ => ?_⟩
    obtain ⟨fuel, rfl, hcall⟩ := hroom.call
    rw [hfield] at hcall ⊢
    simp only [List.append_assoc, List.cons_append] at hcall ⊢
    rw [hlevels, field]
    refine takes_get.step fun st hst => ?_
    obtain ⟨tokens, binders⟩ := st
    obtain ⟨hspells, -⟩ := hst
    cases hspells with
    | word _ line₁ hrest =>
    refine takes_advance.step fun _ _ => ((hk.whole (hcall.tail.le (by omega))
      (stops_symbol (by decide))).bind fun k' hk' => ?_).of_eq (Nat.add_max_add_left ..)
    refine (takes_consumeSymbol _).step fun _ _ => (takes_consumeSymbol _).step fun _ _ =>
      (he.whole (hcall.tail.drop.tail.tail.le (by omega)) hstops).done fun e' he' => takes_pure ?_
    simp only [SameField, Unlined.field, Numbering.field, hk', he']

theorem takes_fields {fs : List Field} (hread : ∀ f ∈ fs, ReadsField style variadic f)
    {fuel depth n : Nat} {ws : List Word} {seen : List Field} (hdepth : depth ≤ maxLevels)
    (hroom : Room 22 fuel (style.fields fs ++ .symbol .rightBrace :: ws)) :
    Takes ⟨style.fields fs ++ .symbol .rightBrace :: ws, n⟩ (fields fuel depth variadic seen)
      (depth + Nesting.fields style fs)
      (fun all => ∃ fs', all = seen.reverse ++ fs' ∧ SameFields n fs fs')
      ⟨.symbol .rightBrace :: ws, (Numbering.fields n fs).2⟩ := by
  induction fs generalizing fuel n seen with
  | nil =>
    obtain ⟨fuel, rfl, -⟩ := hroom.call
    rw [fields]
    refine (((takes_check _).step fun b hb => ?_).raise hdepth).of_eq (Nat.max_zero _)
    rw [if_pos (hb.trans (decide_eq_true rfl))]
    exact takes_pure ⟨[], (List.append_nil _).symm, rfl⟩
  | cons f rest ih =>
    obtain ⟨fuel, rfl, hcall⟩ := hroom.call
    have hf := hread f List.mem_cons_self
    have hfirst : ∀ {vs : List Word}, nextKind (style.field f ++ vs) ≠ .symbol .rightBrace := by
      intro vs
      rw [nextKind_append hf.first.2]
      exact hf.first.1
    rw [fields]
    cases rest with
    | nil =>
      have hwords : style.fields [f] = style.field f := by
        rw [Style.fields, Style.behind, List.append_nil]
      rw [hwords] at hcall ⊢
      refine (takes_check _).step fun b hb => ?_
      rw [hb, if_neg (by simpa using hfirst)]
      refine ((hf.reads fuel depth n _ hcall (stops_symbol (by decide)) (by simp)).done
        fun f' hf' => ?_).of_eq (by rw [Nesting.fields, Nesting.fields, Nat.max_zero])
      refine (takes_accept_none (by simp)).step fun b hb => ?_
      rw [hb, if_neg Bool.false_ne_true]
      refine (takes_accept_none (by simp)).step fun b hb => ?_
      rw [hb, if_neg Bool.false_ne_true]
      exact takes_pure ⟨[f'], List.reverse_cons,
        by simp only [SameFields, Unlined.fields, Numbering.fields, hf']⟩
    | cons f₂ rest =>
      have hwords : style.fields (f :: f₂ :: rest) ++ .symbol .rightBrace :: ws = style.field f ++
          .symbol .comma :: (style.fields (f₂ :: rest) ++ .symbol .rightBrace :: ws) := by
        rw [Style.fields, Style.behind]
        simp only [List.append_assoc, List.cons_append]
      rw [hwords] at hcall ⊢
      refine (takes_check _).step fun b hb => ?_
      rw [hb, if_neg (by simpa using hfirst)]
      refine ((hf.reads fuel depth n _ hcall (stops_symbol (by decide)) (by simp)).bind
        fun f' hf' => ?_).of_eq (Nat.add_max_add_left ..)
      refine (takes_accept rfl).step fun b hb => ?_
      rw [if_pos hb]
      refine (ih (fun f hf => hread f (List.mem_cons_of_mem _ hf))
        (hcall.drop.tail.le (by omega))).imp fun all hall => ?_
      obtain ⟨fs', rfl, hfs'⟩ := hall
      refine ⟨f' :: fs', by rw [List.reverse_cons, List.append_assoc, List.singleton_append], ?_⟩
      rw [SameFields, Numbering.fields, Unlined.fields, Unlined.fields, hf', hfs']

theorem table_words (fs : List Field) (line : Nat) (ws : List Word) :
    style.expr (.table fs line) ++ ws =
      .symbol .leftBrace :: (style.fields fs ++ .symbol .rightBrace :: ws) := by
  rw [Style.expr]
  simp only [List.append_assoc, List.cons_append, List.nil_append]

theorem takes_table {fs : List Field} {line : Nat} (hread : ∀ f ∈ fs, ReadsField style variadic f)
    {fuel depth n : Nat} {ws : List Word} (hdepth : depth ≤ maxLevels)
    (hroom : Room 1 fuel (style.expr (.table fs line) ++ ws)) :
    Takes ⟨style.expr (.table fs line) ++ ws, n⟩ (table fuel depth variadic)
      (depth + Nesting.fields style fs) (SameExpr n (.table fs line))
      ⟨ws, (Numbering.expr n (.table fs line)).2⟩ := by
  obtain ⟨fuel, rfl, hcall⟩ := hroom.call
  rw [table_words] at hcall ⊢
  rw [table]
  refine takes_current_word.step fun t _ => (takes_consumeSymbol _).step fun _ _ =>
    (takes_fields hread hdepth (hcall.tail.le (by omega))).done fun fs' hall => ?_
  obtain ⟨fs', rfl, hfs'⟩ := hall
  refine (takes_consume _ rfl).step fun _ _ => takes_pure ?_
  simp only [SameExpr, Unlined.expr, Numbering.expr, hfs']

/-! ## Operands -/

section Simple

variable {e : Expr} {line : Nat}

theorem readable_literal {value : Literal} (h : Grammar.literal style value) :
    Readable style variadic (.literal value line) := by
  refine readable_of_simple (opening variadic _ h) rfl (nesting_pos style _)
    (fun _ _ h => nomatch h) ?_
  intro fuel depth n ws hdepth hroom hstops
  obtain ⟨fuel, rfl, -⟩ := hroom.call
  refine Takes.of_eq (Takes.raise ?_ hdepth) (Nat.max_zero _)
  change Takes ⟨style.literal value :: ws, n⟩ _ _ _ _
  rw [simple]
  refine takes_current_word.step fun t ht => ?_
  obtain ⟨l, rfl⟩ := ht
  cases value with
  | nil => exact takes_advance.step fun _ _ => takes_pure rfl
  | bool b => cases b <;> exact takes_advance.step fun _ _ => takes_pure rfl
  | number x =>
    refine takes_advance.step fun _ _ => ?_
    have hread : Numeral.read ((style.literal (.number x)).token l).text.toList = some x := h
    rw [hread]
    exact takes_pure rfl

theorem readable_str {contents : String} : Readable style variadic (.str contents line) := by
  refine readable_of_simple (opening variadic _ trivial) rfl (nesting_pos style _)
    (fun _ _ h => nomatch h) ?_
  intro fuel depth n ws hdepth hroom hstops
  obtain ⟨fuel, rfl, -⟩ := hroom.call
  refine Takes.of_eq (Takes.raise ?_ hdepth) (Nat.max_zero _)
  change Takes ⟨.text contents :: ws, n⟩ _ _ _ _
  rw [simple]
  refine takes_current_word.step fun t ht => ?_
  obtain ⟨l, rfl⟩ := ht
  exact takes_advance.step fun _ _ => takes_pure rfl

theorem readable_vararg (h : variadic = true) : Readable style variadic (.vararg line) := by
  subst h
  refine readable_of_simple (opening true _ rfl) rfl (nesting_pos style _)
    (fun _ _ h => nomatch h) ?_
  intro fuel depth n ws hdepth hroom hstops
  obtain ⟨fuel, rfl, -⟩ := hroom.call
  refine Takes.of_eq (Takes.raise ?_ hdepth) (Nat.max_zero _)
  change Takes ⟨.symbol .dotDotDot :: ws, n⟩ _ _ _ _
  rw [simple]
  refine takes_current_word.step fun t ht => ?_
  obtain ⟨l, rfl⟩ := ht
  exact takes_advance.step fun _ _ => takes_pure rfl

theorem readable_table {fs : List Field} (hopening : Opening style (.table fs line))
    (hread : ∀ f ∈ fs, ReadsField style variadic f) :
    Readable style variadic (.table fs line) := by
  refine readable_of_simple hopening rfl (nesting_pos style _)
    (by rintro _ _ ⟨⟩; exact hread) ?_
  intro fuel depth n ws hdepth hroom hstops
  obtain ⟨fuel, rfl, hcall⟩ := hroom.call
  have htable := takes_table (n := n) hread hdepth (hcall.le (show 1 ≤ 7 by omega))
  rw [table_words] at htable ⊢
  rw [simple]
  refine takes_current_word.step fun t ht => ?_
  obtain ⟨l, rfl⟩ := ht
  exact htable.of_eq (by rw [Nesting.expr, Nat.add_assoc, Nat.add_comm 1])

/-! ### Functions -/

abbrev SameFunction (n : Nat) (f f' : Function) : Prop :=
  Unlined.function f' = Unlined.function (Numbering.function n f).1

/-- A function is read behind its name. -/
def ReadsFunction (style : Style) (method : Bool) (f : Function) : Prop :=
  ∀ fuel depth line n ws, depth ≤ maxLevels →
    Room 1 fuel (style.function method f ++ ws) →
    Takes ⟨style.function method f ++ ws, n⟩ (functionBody fuel depth f.name method line)
      (depth + Nesting.function style f) (SameFunction n f) ⟨ws, (Numbering.function n f).2⟩

theorem readable_function {f : Function} (hname : f.name = "anonymous")
    (hopening : Opening style (.function f)) (hf : ReadsFunction style false f) :
    Readable style variadic (.function f) := by
  refine readable_of_simple hopening rfl (nesting_pos style _)
    (fun _ _ h => nomatch h) ?_
  intro fuel depth n ws hdepth hroom hstops
  obtain ⟨fuel, rfl, hcall⟩ := hroom.call
  have hwords : style.expr (.function f) ++ ws =
      .keyword .kwFunction :: (style.function false f ++ ws) := by
    rw [Style.expr, List.cons_append]
  rw [hwords] at hcall ⊢
  rw [simple]
  refine takes_current_word.step fun t ht => ?_
  obtain ⟨l, rfl⟩ := ht
  have hbody := hf fuel (depth + 1) l n ws hdepth (hcall.tail.le (by omega))
  rw [hname] at hbody
  refine takes_advance.step fun _ _ => (hbody.done fun f' hf' => takes_pure ?_).of_eq
    (by rw [Nesting.expr, Nat.add_assoc, Nat.add_comm 1])
  simp only [SameExpr, Unlined.expr, Numbering.expr, hf']

end Simple

/-! ## Names, parentheses and suffixes -/

section Suffixed

variable {e : Expr} {line : Nat}

theorem readable_name {name : String} : Readable style variadic (.name name line) := by
  refine readable_of_suffixed (opening variadic _ trivial) rfl (nesting_pos style _) ?_
  intro fuel depth n ws peak Q q hdepth hroom hrest
  obtain ⟨fuel, rfl, hcall⟩ := hroom.call
  change Room _ _ (.name name :: ws) at hcall
  change Takes ⟨.name name :: ws, n⟩ _ _ _ _
  rw [suffixed]
  refine takes_current_word.step fun t ht => ?_
  obtain ⟨l, rfl⟩ := ht
  exact takes_advance.step fun _ _ =>
    (hrest fuel (.name name l) (hcall.tail.le (by omega)) rfl).raise hdepth

theorem readable_paren (hopening : Opening style (.paren e line))
    (he : Readable style variadic e) : Readable style variadic (.paren e line) := by
  refine readable_of_suffixed hopening rfl (nesting_pos style _) ?_
  intro fuel depth n ws peak Q q hdepth hroom hrest
  obtain ⟨fuel, rfl, hcall⟩ := hroom.call
  have hwords : style.expr (.paren e line) ++ ws =
      .symbol .leftParen :: (style.expr e ++ .symbol .rightParen :: ws) := by
    rw [Style.expr]
    simp only [List.append_assoc, List.cons_append, List.nil_append]
  rw [hwords] at hcall ⊢
  rw [suffixed]
  refine takes_current_word.step fun t ht => ?_
  obtain ⟨l, rfl⟩ := ht
  refine takes_advance.step fun _ _ =>
    ((he.whole (hcall.tail.le (by omega)) (stops_symbol (by decide))).bind fun e' he' =>
      (takes_consumeSymbol _).step fun _ _ => hrest fuel (.paren e' l)
        (hcall.tail.drop.tail.le (by omega)) ?_).of_eq ?_
  · simp only [SameExpr, Unlined.expr, Numbering.expr, he']
  · rw [Nesting.expr, Nat.add_assoc, Nat.add_comm 1]

/-- The arguments of a call. -/
theorem takes_arguments {args : List Expr} (hargs : ∀ e ∈ args, Readable style variadic e)
    {fuel depth n : Nat} {ws : List Word} (hdepth : depth + 1 ≤ maxLevels)
    (hroom : Room 8 fuel (style.arguments args ++ ws)) :
    Takes ⟨style.arguments args ++ ws, n⟩ (arguments fuel (depth + 1) variadic)
      (depth + 1 + Nesting.arguments style args) (SameExprs n args)
      ⟨ws, (Numbering.exprs n args).2⟩ := by
  obtain ⟨fuel, rfl, hcall⟩ := hroom.call
  unfold Style.arguments at hcall ⊢
  unfold Nesting.arguments
  rw [arguments]
  by_cases hbare : style.isBare args = true
  · rw [if_pos hbare] at hcall ⊢
    rw [if_pos hbare]
    unfold Style.isBare at hbare
    split at hbare
    next contents line =>
      refine Takes.of_eq (Takes.raise ?_ hdepth) (Nat.max_zero _)
      change Takes ⟨.text contents :: ws, n⟩ _ _ _ _
      refine takes_current_word.step fun t ht => ?_
      obtain ⟨l, rfl⟩ := ht
      exact takes_advance.step fun _ _ => takes_pure rfl
    next fs line =>
      have hwords : style.exprs [.table fs line] ++ ws =
          .symbol .leftBrace :: (style.fields fs ++ .symbol .rightBrace :: ws) := by
        rw [Style.exprs, Style.behind, List.append_nil, table_words]
      have hentries := (hargs _ List.mem_cons_self).entries fs line rfl
      have htable := fun hroom : Room 1 fuel (style.expr (.table fs line) ++ ws) =>
        takes_table (n := n) hentries hdepth hroom
      rw [table_words] at htable
      rw [hwords] at hcall ⊢
      refine takes_current_word.step fun t ht => ?_
      obtain ⟨l, rfl⟩ := ht
      refine ((htable (hcall.le (by omega))).done fun e' he' => takes_pure ?_).of_eq ?_
      · simp only [SameExprs, Unlined.exprs, Numbering.exprs, he']
      · simp only [Nesting.exprs, Nesting.expr]
        omega
    next => cases hbare
  · rw [if_neg hbare] at hcall ⊢
    rw [if_neg hbare]
    simp only [List.append_assoc, List.cons_append, List.nil_append] at hcall ⊢
    refine takes_current_word.step fun t ht => ?_
    obtain ⟨l, rfl⟩ := ht
    refine (takes_consume _ rfl).step fun _ _ => ?_
    by_cases hnil : args = []
    · subst hnil
      refine Takes.of_eq (Takes.raise ?_ hdepth) (Nat.max_zero _)
      refine (takes_accept rfl).step fun b hb => ?_
      rw [if_pos hb]
      exact takes_pure rfl
    · refine (takes_accept_none (ne_of_starts (exprs_starts hnil hargs _) rfl)).step fun b hb => ?_
      rw [hb, if_neg Bool.false_ne_true]
      refine (takes_expressions hnil hargs (hcall.tail.le (by omega)) (stops_symbol (by decide))
        (by simp)).done fun es' hes' => ?_
      exact (takes_consumeSymbol _).step fun _ _ => takes_pure hes'

theorem readable_call {args : List Expr} (hopening : Opening style (.call e args line))
    (hrank : e.rank = Rank.suffixed) (he : Readable style variadic e)
    (hargs : ∀ a ∈ args, Readable style variadic a) :
    Readable style variadic (.call e args line) := by
  refine readable_of_suffixed hopening rfl (nesting_pos style _) ?_
  intro fuel depth n ws peak Q q hdepth hroom hrest
  have hwords : style.expr (.call e args line) ++ ws =
      style.expr e ++ (style.arguments args ++ ws) := by
    rw [Style.expr, List.append_assoc]
    rfl
  have hlevels : Nesting.expr style (.call e args line) =
      max (Nesting.expr style e) (e.links + 2 + Nesting.arguments style args) := by
    rw [Nesting.expr]
    rfl
  rw [hwords] at hroom ⊢
  refine (he.suffixed hrank fuel depth n _
    (max (depth + 1 + e.links + 1)
      (max (depth + 1 + e.links + 1 + Nesting.arguments style args) peak)) _ _
    hdepth hroom fun fuel e' hroom he' => ?_).of_eq (by omega)
  obtain ⟨fuel, rfl, hcall⟩ := hroom.call
  obtain ⟨v, vs, hargwords, hv⟩ := arguments_words style args
  have hbehind : Room 9 fuel ws := by
    rw [hargwords, List.cons_append] at hcall
    exact hcall.tail.drop.le (by omega)
  have hgo : ∀ l, Takes ⟨style.arguments args ++ ws, (Numbering.expr n e).2⟩ (do
      let depth ← enter (depth + 1 + e.links)
      let args ← arguments fuel depth variadic
      suffixes fuel depth variadic (.call e' args l))
      (max (depth + 1 + e.links + 1)
        (max (depth + 1 + e.links + 1 + Nesting.arguments style args) peak)) Q q := by
    refine fun l => (takes_enter _).bind fun d hd => ?_
    obtain ⟨rfl, hdepth⟩ := hd
    refine (takes_arguments hargs hdepth hcall).bind fun args' hargs' => ?_
    refine hrest fuel (.call e' args' l) hbehind ?_
    simp only [SameExpr, Unlined.expr, Numbering.expr, he', hargs']
  rw [suffixes]
  rw [hargwords, List.cons_append] at hgo ⊢
  refine takes_current_word.step fun t ht => ?_
  obtain ⟨l, rfl⟩ := ht
  have hkind : (v.token l).kind = v.kind := rfl
  rw [hkind]
  rcases hv with hv | hv | hv <;> rw [hv] <;> exact hgo l

theorem readable_method {name : String} {args : List Expr}
    (hopening : Opening style (.method e name args line)) (hrank : e.rank = Rank.suffixed)
    (he : Readable style variadic e) (hargs : ∀ a ∈ args, Readable style variadic a) :
    Readable style variadic (.method e name args line) := by
  refine readable_of_suffixed hopening rfl (nesting_pos style _) ?_
  intro fuel depth n ws peak Q q hdepth hroom hrest
  have hwords : style.expr (.method e name args line) ++ ws =
      style.expr e ++ .symbol .colon :: .name name :: (style.arguments args ++ ws) := by
    rw [Style.expr]
    simp only [List.append_assoc, List.cons_append]
    rfl
  have hlevels : Nesting.expr style (.method e name args line) =
      max (Nesting.expr style e) (e.links + 2 + Nesting.arguments style args) := by
    rw [Nesting.expr]
    rfl
  rw [hwords] at hroom ⊢
  refine (he.suffixed hrank fuel depth n _
    (max (depth + 1 + e.links + 1)
      (max (depth + 1 + e.links + 1 + Nesting.arguments style args) peak)) _ _
    hdepth hroom fun fuel e' hroom he' => ?_).of_eq (by omega)
  obtain ⟨fuel, rfl, hcall⟩ := hroom.call
  obtain ⟨v, vs, hargwords, hv⟩ := arguments_words style args
  rw [suffixes]
  refine takes_current_word.step fun t ht => ?_
  obtain ⟨l, rfl⟩ := ht
  refine (takes_enter _).bind fun d hd => ?_
  obtain ⟨rfl, hdepth⟩ := hd
  refine takes_advance.step fun _ _ => (takes_identifier name).step fun t ht => ?_
  have hroom : Room 8 fuel (style.arguments args ++ ws) := hcall.tail.tail.le (by omega)
  have hgo := (takes_arguments (n := (Numbering.expr n e).2) hargs hdepth hroom).bind
    fun args' hargs' =>
      hrest fuel (.method e' t.text args' l) (hcall.tail.tail.drop.le (by omega)) (by
        simp only [SameExpr, Unlined.expr, Numbering.expr, he', hargs', ht])
  refine takes_currentKind.step fun k hk => ?_
  have hfirst : nextKind (style.arguments args ++ ws) = v.kind := by
    rw [hargwords]
    rfl
  rw [hk, hfirst]
  rcases hv with hv | hv | hv <;> rw [hv] <;> exact hgo

theorem readable_index {k : Expr} (hopening : Opening style (.index e k line))
    (hrank : e.rank = Rank.suffixed) (he : Readable style variadic e)
    (hk : Readable style variadic k) : Readable style variadic (.index e k line) := by
  refine readable_of_suffixed hopening rfl (nesting_pos style _) ?_
  intro fuel depth n ws peak Q q hdepth hroom hrest
  cases hkey : style.key? k with
  | some name =>
    obtain ⟨keyLine, rfl⟩ := key?_eq_some hkey
    have hwords : style.expr (.index e (.str name keyLine) line) ++ ws =
        style.expr e ++ .symbol .dot :: .name name :: ws := by
      rw [Style.expr, hkey, List.append_assoc]
      rfl
    have hlevels : Nesting.expr style (.index e (.str name keyLine) line) =
        max (Nesting.expr style e) (e.links + 2) := by
      rw [Nesting.expr, hkey]
      rfl
    rw [hwords] at hroom ⊢
    refine (he.suffixed hrank fuel depth n _ (max (depth + 1 + e.links + 1) peak) _ _ hdepth hroom
      fun fuel e' hroom he' => ?_).of_eq (by omega)
    obtain ⟨fuel, rfl, hcall⟩ := hroom.call
    rw [suffixes]
    refine takes_current_word.step fun t ht => ?_
    obtain ⟨l, rfl⟩ := ht
    refine (takes_enter _).bind fun d hd => ?_
    obtain ⟨rfl, -⟩ := hd
    refine takes_advance.step fun _ _ => (takes_identifier name).step fun t ht => ?_
    refine hrest fuel (.index e' (.str t.text l) l) (hcall.tail.tail.le (by omega)) ?_
    simp only [SameExpr, Unlined.expr, Numbering.expr, he', ht]
  | none =>
    have hwords : style.expr (.index e k line) ++ ws =
        style.expr e ++ .symbol .leftBracket :: (style.expr k ++ .symbol .rightBracket :: ws) := by
      rw [Style.expr, hkey]
      simp only [List.append_assoc, List.cons_append, List.nil_append]
    have hlevels : Nesting.expr style (.index e k line) =
        max (Nesting.expr style e) (e.links + 2 + Nesting.expr style k) := by
      rw [Nesting.expr, hkey]
    rw [hwords] at hroom ⊢
    refine (he.suffixed hrank fuel depth n _ (max (depth + 1 + e.links + 1)
      (max (depth + 1 + e.links + 1 + Nesting.expr style k) peak)) _ _ hdepth hroom
      fun fuel e' hroom he' => ?_).of_eq (by omega)
    obtain ⟨fuel, rfl, hcall⟩ := hroom.call
    rw [suffixes]
    refine takes_current_word.step fun t ht => ?_
    obtain ⟨l, rfl⟩ := ht
    refine (takes_enter _).bind fun d hd => ?_
    obtain ⟨rfl, -⟩ := hd
    refine takes_advance.step fun _ _ => (hk.whole (hcall.tail.le (by omega))
      (stops_symbol (by decide))).bind fun k' hk' => (takes_consumeSymbol _).step fun _ _ => ?_
    refine hrest fuel (.index e' k' l) (hcall.tail.drop.tail.le (by omega)) ?_
    simp only [SameExpr, Unlined.expr, Numbering.expr, he', hk']

end Suffixed

/-! ## Operators -/

section Operators

variable {l r : Expr} {line : Nat}

theorem readable_unary {op : UnaryOp} {e : Expr} (hopening : Opening style (.unary op e line))
    (hrank : Rank.unary ≤ e.rank) (he : Readable style variadic e) :
    Readable style variadic (.unary op e line) := by
  refine readable_of_unary hopening (Nat.le_refl _) (fun _ _ h => nomatch h)
    (fun hsuffixed => nomatch hsuffixed)
    (fun hsimple => absurd hsimple (show ¬Rank.simple ≤ Rank.unary by decide)) ?_
  intro fuel depth n ws hroom hstops
  obtain ⟨fuel, rfl, hcall⟩ := hroom.call
  change Room _ _ (.unary op :: (style.expr e ++ ws)) at hcall
  change Takes ⟨.unary op :: (style.expr e ++ ws), n⟩ _ _ _ _
  rw [unary]
  refine ((takes_enter depth).bind fun d hd => ?_).of_eq
    (k := max (depth + 1) (depth + 1 + Nesting.expr style e)) ?_
  · obtain ⟨rfl, -⟩ := hd
    refine takes_currentKind.step fun k hk => ?_
    rw [hk, nextKind_cons, unaryOp?_unary]
    refine takes_advance.step fun t ht => (he.unary hrank fuel (depth + 1) n ws
      (hcall.tail.le (by omega)) hstops).done fun e' he' => takes_pure ?_
    simp only [SameExpr, Unlined.expr, Numbering.expr, he']
  · rw [Nesting.expr]
    omega

theorem readable_power (hopening : Opening style (.binary .pow l r line))
    (hleft : Rank.simple ≤ l.rank) (hright : Rank.unary ≤ r.rank)
    (hl : Readable style variadic l) (hr : Readable style variadic r) :
    Readable style variadic (.binary .pow l r line) := by
  refine readable_of_unary hopening (show Rank.unary ≤ BinaryOp.level .pow by decide)
    (fun _ _ h => nomatch h) (fun hsuffixed => nomatch hsuffixed)
    (fun hsimple => absurd hsimple (show ¬Rank.simple ≤ BinaryOp.level .pow by decide)) ?_
  intro fuel depth n ws hroom hstops
  obtain ⟨fuel, rfl, hcall⟩ := hroom.call
  have hwords : style.expr (.binary .pow l r line) ++ ws =
      style.expr l ++ .symbol .caret :: (style.expr r ++ ws) := by
    rw [Style.expr, List.append_assoc]
    rfl
  have hfirst : unaryOp? (nextKind (style.expr l ++ .symbol .caret :: (style.expr r ++ ws))) =
      none := by
    obtain ⟨w, us, hfront, hopens⟩ := hl.opening
    rw [hfront]
    exact hopens.starts.simple (Nat.lt_of_lt_of_le (by decide) hleft)
  rw [hwords] at hcall ⊢
  rw [unary]
  refine ((takes_enter depth).bind fun d hd => ?_).of_eq
    (k := max (depth + 1)
      (max (depth + Nesting.expr style l) (depth + 1 + Nesting.expr style r))) ?_
  · obtain ⟨rfl, hdepth⟩ := hd
    refine takes_currentKind.step fun k hk => ?_
    rw [hk, hfirst]
    refine (hl.simple hleft fuel depth n _ hdepth hcall rfl).bind fun l' hl' => ?_
    refine (takes_check _).step fun b hb => ?_
    rw [if_pos (hb.trans (decide_eq_true rfl))]
    refine takes_advance.step fun t ht => (hr.unary hright fuel (depth + 1) _ ws
      (hcall.drop.tail.le (by omega)) hstops).done fun r' hr' => takes_pure ?_
    simp only [SameExpr, Unlined.expr, Numbering.expr, hl', hr']
  · have hpos := nesting_pos style l
    simp only [Nesting.expr]
    omega

theorem readable_concat (hopening : Opening style (.binary .concat l r line))
    (hleft : concatLevel < l.rank) (hright : concatLevel ≤ r.rank)
    (hl : Readable style variadic l) (hr : Readable style variadic r) :
    Readable style variadic (.binary .concat l r line) := by
  refine readable_of_binary hopening (show BinaryOp.level .concat < levels by decide)
    (fun h => absurd rfl h) ?_
  intro fuel depth n ws hroom hstops
  change Room (12 + 1) _ _ at hroom
  obtain ⟨fuel, rfl, hcall⟩ := hroom.call
  have hwords : style.expr (.binary .concat l r line) ++ ws =
      style.expr l ++ .binary .concat :: (style.expr r ++ ws) := by
    rw [Style.expr, List.append_assoc]
    rfl
  rw [hwords] at hcall ⊢
  change Takes _ (binary (fuel + 1) concatLevel depth variadic) _ _ _
  rw [binary, if_neg (by decide)]
  refine ((hl.binary (concatLevel + 1) (by decide) hleft fuel depth n _ hcall
    (stops_binary .concat (by decide))).bind fun l' hl' => ?_).of_eq
    (k := max (depth + Nesting.expr style l) (depth + Nesting.expr style r)) ?_
  · rw [if_pos rfl]
    refine takes_currentKind.step fun k hk => ?_
    rw [hk, nextKind_cons, show concatLevel = BinaryOp.level .concat from rfl,
      binaryOp?_binary .concat (by decide)]
    refine takes_advance.step fun t ht => (hr.binary concatLevel (by decide) hright fuel depth _ ws
      (hcall.drop.tail.le (by decide)) hstops).done fun r' hr' => takes_pure ?_
    simp only [SameExpr, Unlined.expr, Numbering.expr, hl', hr']
  · simp only [Nesting.expr]
    omega

/-- An operator that associates to the left. -/
theorem readable_binary {op : BinaryOp} (hop : op ≠ .pow) (hconcat : op ≠ .concat)
    (hopening : Opening style (.binary op l r line)) (hleft : op.level ≤ l.rank)
    (hright : op.level < r.rank) (hl : Readable style variadic l)
    (hr : Readable style variadic r) : Readable style variadic (.binary op l r line) := by
  have hlevel : op.level < levels := by
    cases op <;> first | decide | exact absurd rfl hop
  have hne : op.level ≠ concatLevel := by
    cases op <;> first | decide | exact absurd rfl hconcat
  have hlevels : Nesting.expr style (.binary op l r line) =
      max (Nesting.expr style l) (l.chain op.level + 1 + Nesting.expr style r) := by
    cases op <;> first | rfl | exact absurd rfl hop | exact absurd rfl hconcat
  have hchain : (Expr.binary op l r line).chain op.level = l.chain op.level + 1 := by
    rw [Expr.chain, if_pos rfl]
  have hreads : ReadsChain style variadic op.level (.binary op l r line) := by
    intro fuel depth n ws peak Q q hroom hstops hrest
    have hwords : style.expr (.binary op l r line) ++ ws =
        style.expr l ++ .binary op :: (style.expr r ++ ws) := by
      rw [Style.expr, List.append_assoc]
      rfl
    rw [hwords] at hroom ⊢
    refine (hl.chain op.level hlevel hne hleft fuel depth n _
      (max (depth + l.chain op.level + 1)
        (max (depth + l.chain op.level + 1 + Nesting.expr style r) peak)) _ _ hroom
      (stops_binary op hop) fun fuel l' hroom hl' => ?_).of_eq (by omega)
    obtain ⟨fuel, rfl, hcall⟩ := hroom.call
    rw [binaryRest]
    refine takes_currentKind.step fun k hk => ?_
    rw [hk, nextKind_cons, binaryOp?_binary op hop]
    refine takes_advance.step fun t ht => (takes_enter _).bind fun d hd => ?_
    obtain ⟨rfl, -⟩ := hd
    refine (hr.binary (op.level + 1) hlevel hright fuel _ _ ws (hcall.tail.le (by omega))
      hstops).bind fun r' hr' => ?_
    have hgo := hrest fuel (.binary op l' r' t.line) (hcall.tail.drop.le (by omega))
      (by simp only [SameExpr, Unlined.expr, Numbering.expr, hl', hr'])
    rwa [hchain] at hgo
  exact readable_of_binary hopening hlevel (fun _ => hreads) (hreads.binary hlevel)

end Operators

end Expressions
end Parser
end LuaMachine
