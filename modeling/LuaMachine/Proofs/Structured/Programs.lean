import LuaMachine.Proofs.Structured.NumericFor
/-! # Programs

The cases come together in one induction over the tree, and the words of a whole program do what the
program says: they return to their caller or fail.

* `Structured.statement_performs`, `Structured.statements_perform`: every statement.
* `Structured.generate_ends`: the code of a program.
-/
set_option autoImplicit false

namespace LuaMachine
namespace Structured

open Generator
open Machine (Spares Sets Shows Leads Tries Fails)

/-! ## The induction -/

mutual

theorem statement_performs : (t : Stmt) → isStmt t = true →
    Performs (statement t) fun n s => exec n t s
  | .assign left right line, h => by
    simp only [isStmt, Bool.and_eq_true, List.all_eq_true] at h
    exact assign_performs h.1 h.2 line
  | .locals bs values line, h => by
    simp only [isStmt, Bool.and_eq_true, List.all_eq_true, bne_iff_ne, ne_eq] at h
    exact locals_performs h.1 h.2 line
  | .block body line, h => by
    rw [isStmt] at h
    exact block_performs (statements_perform true body h) line
  | .cond condition body more none line, h => by
    simp only [isStmt, Bool.and_eq_true] at h
    exact cond_performs h.1.1 (statements_perform true body h.1.2) (branches_choose more h.2)
      (by simp) line
  | .cond condition body more (some other) line, h => by
    simp only [isStmt, Bool.and_eq_true] at h
    exact cond_performs h.1.1.1 (statements_perform true body h.1.1.2) (branches_choose more h.1.2)
      (fun ss heq => Option.some.inj heq ▸ statements_perform true other h.2) line
  | .whileLoop condition body line, h => by
    simp only [isStmt, Bool.and_eq_true] at h
    exact while_performs h.1 (statements_perform true body h.2) line
  | .repeatLoop body condition line, h => by
    simp only [isStmt, Bool.and_eq_true] at h
    exact repeat_performs h.2 (statements_perform false body h.1) line
  | .numericFor b start stop none body line, h => by
    simp only [isStmt, Bool.and_eq_true, bne_iff_ne, ne_eq] at h
    exact numericFor_performs h.1.1.1 h.1.1.2 h.1.2 (by simp) (statements_perform true body h.2) line
  | .numericFor b start stop (some step) body line, h => by
    simp only [isStmt, Bool.and_eq_true, bne_iff_ne, ne_eq] at h
    exact numericFor_performs h.1.1.1.1 h.1.1.1.2 h.1.1.2 (fun e heq => Option.some.inj heq ▸ h.1.2)
      (statements_perform true body h.2) line
  | .ret values line, h => by
    simp only [isStmt, List.all_eq_true] at h
    exact ret_performs h line
  | .exit line, _ => exit_performs line
  | .expr _ _, h | .localFunction _ _ _, h | .function _ _ _, h | .genericFor _ _ _ _, h
  | .goto _ _, h | .label _ _, h => by cases h

theorem statements_perform (ends : Bool) : (ss : List Stmt) → isBlock ss = true →
    Performs (statements ends ss) fun n s => execAll n ss s
  | [], _ => .nil ends
  | t :: rest, h => by
    simp only [isBlock, Bool.and_eq_true] at h
    exact .cons ends h.1 (statement_performs t h.1) (statements_perform ends rest h.2)

theorem branches_choose : (bs : List Branch) → areBranches bs = true → FurtherChooses bs
  | [], _ => further_nil
  | .mk condition body :: rest, h => by
    simp only [areBranches, Bool.and_eq_true] at h
    exact further_cons h.1.1 (statements_perform true body h.1.2) (branches_choose rest h.2)

end

/-! ## Whole programs -/

/-- The states on the way to the prototype of a program: its block begins, its statements are
compiled, a return is added, and the block ends. -/
structure Generation (program : Block) (name : String) (p : Prototype) (st₁ st₂ st₃ : State) :
    Prop where
  sound : Generator.Sound Prototype.WellFormed [] st₁
  free : st₁.top = st₁.level
  main : Main st₁
  size : st₁.size = 0
  locals : st₁.current.locals = #[]
  loops : st₁.loops = []
  body : statements true program st₁ = .ok () st₂
  ret : emitAbc .ret 0 1 0 st₂ = .ok () st₃
  chunk : p.chunk = st₃.current.proto.chunk
  grows : st₃.current.proto.Grows p
  upvalues : p.upvalues = #[⟨"_ENV", false, 0⟩]

theorem exists_generation {program : Block} {name : String} {p : Prototype}
    (h : generate program name = .ok p) : ∃ st₁ st₂ st₃, Generation program name p st₁ st₂ st₃ := by
  unfold generate at h
  split at h
  next => cases h
  next captured _ =>
    simp only at h
    split at h
    next proto st hrun =>
      cases h
      simp only [EStateM.run, bind_ok, scope_ok, pure_ok, and_assoc, exists_and_left,
        exists_eq_left] at hrun
      obtain ⟨_, st₁, hbegin, _, st₂, hbody, _, st₃, hret, block, st₄, hend, rfl, rfl⟩ := hrun
      have hs₀ : Generator.Sound Prototype.WellFormed []
          ⟨[FunctionScope.create (mainPrototype name)], 1, captured⟩ := create_sound (fresh_main name) .nil
      obtain ⟨hs₁, htop₁, hlevel₁, -⟩ := beginBlock_sound hbegin hs₀
      obtain ⟨hlocals₁, hproto₁, hloops₁⟩ := beginBlock_locals hbegin hs₀
      obtain ⟨t, hmove₂⟩ := statementsSound closed_wellFormed true program _ _ _ _ hs₁
        (htop₁.trans hlevel₁.symm) hbody
      have hmove₃ := emitReturn_moves hret hmove₂.sound (by omega) (.inl rfl)
      obtain ⟨hmove₄, -, hgrow₄⟩ := endBlock_moves hbegin hs₀
        (hmove₂.extends'.trans hmove₃.extends') hmove₃.sound hend
      exact ⟨st₁, st₂, st₃, hs₁, htop₁.trans hlevel₁.symm, beginBlock_main hbegin hs₀ ⟨rfl, rfl⟩,
        by rw [State.size, hproto₁]; rfl, hlocals₁, hloops₁, hbody, hret,
        endBlock_chunk hend hmove₃.sound.exists_scope, hgrow₄, (hmove₄.main hs₀ ⟨rfl, rfl⟩).upvalues⟩
    next => cases h

/-- The code of a program whose only upvalue shows the globals does what the program says. -/
theorem generate_ends {program : Block} {name : String} {p : Prototype} {g : Activation}
    {globals : Ref} {tables : Tables} {m : Machine} (h : generate program name = .ok p)
    (hprogram : isBlock program = true) (hframe : g.frame.prototype = p) (hat : g.At 0 m)
    (hshows : Shows g.frame (.table globals) tables m) (n : Nat) :
    Ends g.frame (fun _ _ => False) (fun _ _ => False) n m (run n program globals tables) := by
  obtain ⟨st₁, st₂, st₃, hg⟩ := exists_generation h
  have hperforms := statements_perform true program hprogram
  obtain ⟨t, hmove₂⟩ := hperforms.sound _ _ _ _ hg.sound hg.free hg.body
  obtain ⟨hlays₂, hends⟩ := hperforms.spec hg.sound hg.free hg.body
  have hadds := emitAbc_adds hg.ret hmove₂.sound
  -- no jump leaves a loop
  have hbreaks : st₂.breaks = [] := by
    obtain ⟨more, -, hloops⟩ := hlays₂.loops
    rw [State.breaks, hloops, hg.loops]
    rfl
  have hcode : g.frame.prototype.chunk = st₃.current.proto.chunk := hframe ▸ hg.chunk
  have hplaced₃ : ∀ st, Placed g.frame [] st st₃ := fun st =>
    ⟨fun n _ _ _ => by rw [hcode], fun n k hk => by rw [hcode]; exact hk,
      by rw [hframe]; exact hg.grows.registers⟩
  have hb : Belongs g 0 [] [] st₁ st₂ := by
    refine ⟨hg.sound, hg.main, ?_, by simp [hbreaks]⟩
    rw [hbreaks]
    exact (hplaced₃ st₁).before hadds.code hadds.grows
  have hholds : Holds g.frame st₁.current.locals ⟨[("_ENV", .table globals)], tables⟩ m := by
    rw [hg.locals]
    exact ⟨_, rfl, hshows⟩
  have hperformed := hends n hb ⟨hg.size ▸ hat, hholds⟩
  rw [run]
  cases hexec : execAll n program ⟨[("_ENV", .table globals)], tables⟩ with
  | next s =>
    obtain ⟨⟨i, hi⟩, -⟩ := (hplaced₃ st₂).abc hg.ret hmove₂.sound (by omega) (by omega) (by omega)
    rw [hexec] at hperformed
    refine Leads.mono hperformed ?_
    rintro m' ⟨⟨hat', v, -, hshows'⟩, -⟩
    exact ret_returns hi rfl (Nat.zero_le _) hat' hshows' rfl
  | leave s =>
    rw [hexec] at hperformed
    exact Leads.mono hperformed fun m' hm' => hm'.1 hg.loops
  | returned vs T => rw [hexec] at hperformed; exact hperformed
  | failed => rw [hexec] at hperformed; exact hperformed
  | unfinished => rw [hexec] at hperformed; exact hperformed

end Structured
end LuaMachine
