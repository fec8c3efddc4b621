import LuaMachine.Proofs.Printing.Statements
/-! # Parsing inverts writing

A tree of the grammar that is written as words is read back by the parser: the same tree, but for
the lines its words happened to stand in. Only a tree that nests too deeply is not, and of that the
parser complains.

* `readable`, `readsStmts`: every expression and every statement of the grammar is read.
* `program_written`: so is every program.
-/
set_option autoImplicit false

namespace LuaMachine
namespace Parser

section Trees

variable {style : Style}

theorem readable_operator {variadic : Bool} {op : BinaryOp} {l r : Expr} {line : Nat}
    (h : Grammar.expr style variadic (.binary op l r line)) (hl : Readable style variadic l)
    (hr : Readable style variadic r) : Readable style variadic (.binary op l r line) := by
  have hopening := opening variadic _ h
  obtain ⟨hleft, hright, -, -⟩ := h
  by_cases hpow : op = .pow
  · subst hpow
    exact readable_power hopening hleft hright hl hr
  by_cases hconcat : op = .concat
  · subst hconcat
    exact readable_concat hopening hleft hright hl hr
  have hranks : op.leftRank = op.level ∧ op.rightRank = op.level + 1 := by
    cases op <;> first | exact ⟨rfl, rfl⟩ | exact absurd rfl hpow | exact absurd rfl hconcat
  rw [hranks.1] at hleft
  rw [hranks.2] at hright
  exact readable_binary hpow hconcat hopening hleft hright hl hr

mutual

theorem readable (variadic : Bool) : (e : Expr) → Grammar.expr style variadic e →
    Readable style variadic e
  | .literal _ _, h => readable_literal h
  | .str _ _, _ => readable_str
  | .unary op e line, h =>
    readable_unary (opening variadic (.unary op e line) h) h.1 (readable variadic e h.2)
  | .binary _ l r _, h =>
    readable_operator h (readable variadic l h.2.2.1) (readable variadic r h.2.2.2)
  | .name _ _, _ => readable_name
  | .vararg _, h => readable_vararg h
  | .paren e line, h => readable_paren (opening variadic (.paren e line) h) (readable variadic e h)
  | .call f args line, h =>
    readable_call (opening variadic (.call f args line) h) h.1 (readable variadic f h.2.1)
      (readable_all variadic args h.2.2)
  | .method e name args line, h =>
    readable_method (opening variadic (.method e name args line) h) h.1 (readable variadic e h.2.1)
      (readable_all variadic args h.2.2)
  | .table fs line, h =>
    readable_table (opening variadic (.table fs line) h) (readsFields variadic fs h)
  | .index e k line, h =>
    readable_index (opening variadic (.index e k line) h) h.1 (readable variadic e h.2.1)
      (readable variadic k h.2.2)
  | .function f, h =>
    readable_function h.1 (opening variadic (.function f) h) 
      (readsFunctions false f h.2)

theorem readable_all (variadic : Bool) : (es : List Expr) → Grammar.exprs style variadic es →
    ∀ e ∈ es, Readable style variadic e
  | [], _ => nofun
  | e :: rest, h => List.forall_mem_cons.mpr
    ⟨readable variadic e h.1, readable_all variadic rest h.2⟩

theorem readsField (variadic : Bool) : (f : Field) → Grammar.field style variadic f →
    ReadsField style variadic f
  | .item e, h => readsField_item (readable variadic e h)
  | .pair k e, h => readsField_pair (readable variadic k h.1) (readable variadic e h.2)

theorem readsFields (variadic : Bool) : (fs : List Field) → Grammar.fields style variadic fs →
    ∀ f ∈ fs, ReadsField style variadic f
  | [], _ => nofun
  | f :: rest, h => List.forall_mem_cons.mpr
    ⟨readsField variadic f h.1, readsFields variadic rest h.2⟩

theorem readsFunctions (method : Bool) : (f : Function) → Grammar.function style method f →
    ReadsFunction style method f
  | .mk _ _ variadic body _ _, h =>
    readsFunction h.1 h.2.1 (readsBlock h.2.2 (readsStmts variadic body h.2.2))

theorem readsBranch (variadic : Bool) : (b : Branch) → Grammar.branch style variadic b →
    ReadsBranch style variadic b
  | .mk condition body, h =>
    ⟨readable variadic condition h.1, readsBlock h.2 (readsStmts variadic body h.2)⟩

theorem readsBranches (variadic : Bool) : (bs : List Branch) →
    Grammar.branches style variadic bs → ∀ b ∈ bs, ReadsBranch style variadic b
  | [], _ => nofun
  | b :: rest, h => List.forall_mem_cons.mpr
    ⟨readsBranch variadic b h.1, readsBranches variadic rest h.2⟩

theorem readsAlternative (variadic : Bool) : (o : Option (List Stmt)) →
    Grammar.alternative style variadic o → ∀ ss, o = some ss → ReadsBlock style variadic ss
  | none, _ => nofun
  | some ss, h => by
    rintro _ ⟨⟩
    exact readsBlock h (readsStmts variadic ss h)

theorem readsIncrement (variadic : Bool) : (o : Option Expr) →
    Grammar.increment style variadic o → ∀ e, o = some e → Readable style variadic e
  | none, _ => nofun
  | some e, h => by
    rintro _ ⟨⟩
    exact readable variadic e h

theorem readsStmt (variadic : Bool) : (s : Stmt) → Grammar.stmt style variadic s →
    ReadsStmt style variadic s
  | .expr e _, h => readsStatement_expr h.1 (readable variadic e h.2)
  | .assign targets values _, h =>
    readsStatement_assign h.1 h.2.1 (readable_all variadic targets h.2.2.1) h.2.2.2.1
      (readable_all variadic values h.2.2.2.2)
  | .locals _ values _, h => readsStatement_locals h.1 (readable_all variadic values h.2)
  | .localFunction _ f _, h =>
    readsStatement_localFunction h.1 h.2.1 (readsFunctions false f h.2.2)
  | .function target f _, h =>
    readsStatement_function h.1 h.2.1 (readsFunctions (f.isMethodOf target) f h.2.2)
  | .block body _, h => readsStatement_block (readsBlock h (readsStmts variadic body h))
  | .cond condition body more otherwise _, h =>
    readsStatement_cond (readable variadic condition h.1)
      (readsBlock h.2.1 (readsStmts variadic body h.2.1)) (readsBranches variadic more h.2.2.1)
      (readsAlternative variadic otherwise h.2.2.2)
  | .whileLoop condition body _, h =>
    readsStatement_while (readable variadic condition h.1)
      (readsBlock h.2 (readsStmts variadic body h.2))
  | .repeatLoop body condition _, h =>
    readsStatement_repeat (readsBlock h.1 (readsStmts variadic body h.1))
      (readable variadic condition h.2)
  | .numericFor _ start stop step body _, h =>
    readsStatement_numericFor h.1 (readable variadic start h.2.1) (readable variadic stop h.2.2.1)
      (readsIncrement variadic step h.2.2.2.1)
      (readsBlock h.2.2.2.2 (readsStmts variadic body h.2.2.2.2))
  | .genericFor _ iterators body _, h =>
    readsStatement_genericFor h.1 h.2.1 h.2.2.1 (readable_all variadic iterators h.2.2.2.1)
      (readsBlock h.2.2.2.2 (readsStmts variadic body h.2.2.2.2))
  | .ret values _, h => readsReturn (readable_all variadic values h)
  | .exit _, _ => readsStatement_exit
  | .goto _ _, _ => readsStatement_goto
  | .label _ _, _ => readsStatement_label

theorem readsStmts (variadic : Bool) : (ss : List Stmt) → Grammar.stmts style variadic ss →
    ∀ s ∈ ss, ReadsStmt style variadic s
  | [], _ => nofun
  | s :: rest, h => List.forall_mem_cons.mpr
    ⟨readsStmt variadic s h.2.1, readsStmts variadic rest h.2.2⟩

end

end Trees

/-! ## Programs -/

theorem spells_length {tokens : List Token} {ws : List Word} (h : Spells tokens ws) :
    tokens.length = ws.length + 1 := by
  induction h with
  | stop => rfl
  | word w line rest ih => rw [List.length_cons, List.length_cons, ih]

/-- Words can always be spelled, for instance all in one line. -/
theorem spells_line (ws : List Word) (line : Nat) :
    Spells (ws.map (·.token line) ++ [⟨.endOfText, "", line⟩]) ws := by
  induction ws with
  | nil => exact .stop "" line
  | cons w ws ih => exact .word w line ih

/-- A written program is read back, or nests too many syntax levels. -/
theorem program_written {style : Style} {body : Block} {tokens : List Token}
    (hbody : Grammatical style body) (htokens : Spells tokens (style.stmts body)) :
    (Nesting.stmts style body ≤ maxLevels ∧
      ∃ restored, program tokens = .ok restored ∧ Restores restored body) ∨
    (maxLevels < Nesting.stmts style body ∧
      ∃ line, program tokens = .error ⟨"chunk has too many syntax levels", some line⟩) := by
  have hroom : Room 9 (callsPerToken * (tokens.length + 1)) (style.stmts body ++ []) := by
    rw [spells_length htokens, List.append_nil]
    simp only [Room, callsPerToken]
    omega
  have hread := readsBlock hbody (readsStmts true body hbody) _ 0 0 [] (Nat.zero_le _) hroom rfl
  rw [List.append_nil] at hread
  have hparser : Takes ⟨style.stmts body, 0⟩ (do
      checkError
      let body ← block (callsPerToken * (tokens.length + 1)) 0 true
      if !(← check .endOfText) then complain (.expected "'<eof>'")
      return body) (Nesting.stmts style body) (SameStmts 0 body)
      ⟨[], (Numbering.stmts 0 body).2⟩ := by
    refine takes_checkError.step fun _ _ => (hread.done fun body' hbody' => ?_).of_eq
      (Nat.zero_add _)
    refine (takes_check .endOfText).step fun c hc => ?_
    rw [hc]
    exact takes_pure hbody'
  have hrun := hparser ⟨tokens, 0⟩ ⟨htokens, rfl⟩
  unfold program
  dsimp only [EStateM.run]
  split at hrun
  next restored st hres =>
    rw [hres]
    exact .inl ⟨hrun.1, restored, rfl, hrun.2.1⟩
  next e st hres =>
    rw [hres]
    obtain ⟨hlevels, line, rfl⟩ := hrun
    exact .inr ⟨hlevels, line, rfl⟩

/-- Numbers are all written `7`, and keys as names. -/
def sampleStyle : Style where
  numeral _ := "7"
  named _ := true
  bare := true

/-- `local a <const> = not b .. c ^ -7; function a.f:g(...) return self(...), {x = h{}} end` -/
def sampleProgram : Block :=
  [.locals [⟨"a", 0, true⟩]
    [.binary .concat (.unary .not (.name "b" 1) 1)
      (.binary .pow (.name "c" 1) (.unary .negate (.literal (.number (.int 7)) 1) 1) 1) 1] 1,
  .function (.index (.index (.name "a" 2) (.str "f" 2) 2) (.str "g" 2) 2)
    (.mk "a.f:g" [⟨"self", 1, false⟩] true
      [.ret [.call (.name "self" 2) [.vararg 2] 2,
        .table [.pair (.str "x" 2) (.call (.name "h" 2) [.table [] 2] 2)] 2] 2] 2 2) 2]

theorem program_written_sample :
    Grammatical sampleStyle sampleProgram ∧
      Spells ((sampleStyle.stmts sampleProgram).map (·.token 1) ++ [⟨.endOfText, "", 1⟩])
        (sampleStyle.stmts sampleProgram) ∧
      ∃ restored, program
        ((sampleStyle.stmts sampleProgram).map (·.token 1) ++ [⟨.endOfText, "", 1⟩]) =
          .ok restored ∧ Restores restored sampleProgram := by
  have hnumeral : Numeral.read (sampleStyle.numeral (.int 7)).toList = some (.int 7) := by rfl
  have hmethod : (Function.mk "a.f:g" [⟨"self", 1, false⟩] true
      [.ret [.call (.name "self" 2) [.vararg 2] 2,
        .table [.pair (.str "x" 2) (.call (.name "h" 2) [.table [] 2] 2)] 2] 2] 2 2).isMethodOf
      (.index (.index (.name "a" 2) (.str "f" 2) 2) (.str "g" 2) 2) = true := by decide
  have hbody : Grammatical sampleStyle sampleProgram := by
    refine ⟨by decide, ⟨by simp, ⟨by decide, by decide, ?_, ?_⟩, trivial⟩,
      by decide, ⟨rfl, by rw [hmethod]; simp, ?_⟩, trivial⟩
    · exact ⟨by decide, trivial⟩
    · exact ⟨by decide, by decide, trivial, by decide, hnumeral⟩
    · rw [hmethod]
      exact ⟨fun _ => ⟨1, [], rfl⟩, by simp, by decide,
        ⟨⟨rfl, trivial, rfl, trivial⟩,
          ⟨⟨trivial, rfl, trivial, trivial, trivial⟩, trivial⟩, trivial⟩, trivial⟩
  exact ⟨hbody, spells_line _ 1, (program_written hbody (spells_line _ 1)).elim (·.2)
    fun h => absurd h.1 (by decide)⟩

end Parser
end LuaMachine
