import LuaMachine.Proofs.Flow.Blocks
import LuaMachine.Proofs.Lowering.Expressions
/-! # Words of expressions and of assignments

What the compiler writes for expressions and assignments writes no register of a variable, but for
an assignment to it, goes on with an open list only right behind the word that leaves it, and jumps
only to places behind which no list is open.

* `Prototype.Orderly`: words of this kind.
* `Generator.Straight`: an action that writes such words.
* `Generator.straight_evaluate`, `straight_adjusted`, `straight_storeAll` and the like: the actions.
-/
set_option autoImplicit false

namespace LuaMachine

/-! ## Words -/

namespace Prototype

structure OrderlyWord (p : Prototype) (locals : Array Local) (n : Nat) (i : Instruction)
    (op : Opcode) : Prop where
  writes : ∀ r, op.lowest? i.a = some r → locals.size ≤ r ∨ (Note.full locals).Assigns op r
  takes : ∀ s, op.takes? i.a i.b = some s → p.Opened s 0 n
  turns : ∀ t : Nat, (t : Int) ∈ i.targets n op → p.Calm t

/-- Words that write temporary registers only, or assign to variables, with their ending. -/
structure Orderly (p : Prototype) (locals : Array Local) (list : Option Nat) (n n' : Nat) :
    Prop where
  le : n ≤ n'
  words : ∀ m, n ≤ m → m < n' → ∃ i op, p.chunk.code[m]? = some i ∧ i.opcode? = some op ∧
    p.OrderlyWord locals m i op
  ending : p.Ending list n n'

variable {p : Prototype} {locals : Array Local} {list : Option Nat} {n k n' a b c : Nat}
  {op : Opcode}

namespace Orderly

theorem nil (p : Prototype) (locals : Array Local) (n : Nat) : p.Orderly locals none n n :=
  ⟨Nat.le_refl n, fun _ hm hlt => absurd hlt (Nat.not_lt.mpr hm), fun h => absurd h (Nat.lt_irrefl n)⟩

theorem append (h : p.Orderly locals none n k) (h' : p.Orderly locals list k n') :
    p.Orderly locals list n n' where
  le := Nat.le_trans h.le h'.le
  words m hm hlt := by
    rcases Nat.lt_or_ge m k with hk | hk
    · exact h.words m hm hk
    · exact h'.words m hk hlt
  ending := by
    have hending := h'.ending
    cases list with
    | some t => exact Opened.mono hending (Nat.le_refl t) h.le
    | none =>
      intro hlt
      rcases Nat.lt_or_eq_of_le h'.le with hk | rfl
      · exact hending hk
      · exact h.ending hlt

theorem of_tidied (h : p.Tidied locals.size list n n') : p.Orderly locals list n n' where
  le := h.tidy.le
  words m hm hlt := by
    obtain ⟨i, op, hi, hop, hw⟩ := h.tidy.words m hm hlt
    exact ⟨i, op, hi, hop, fun r hr => .inl (hw.writes r hr),
      fun s hs => (hw.takes s hs).mono (Nat.le_refl s) (Nat.zero_le n), hw.turns⟩
  ending := h.ending

/-- A word that stands on its own. -/
theorem word (hword : p.HasWord n op a b c)
    (hwrites : ∀ r, op.lowest? a = some r → locals.size ≤ r ∨ (Note.full locals).Assigns op r)
    (htakes : op.takes? a b = none) (htargets : ∀ i : Instruction, i.targets n op = [])
    (hopens : op.opens? a c = none) : p.Orderly locals none n (n + 1) := by
  obtain ⟨i, hi, hop, rfl, rfl, rfl⟩ := hword
  refine ⟨Nat.le_succ n, fun m hm hlt => ?_, fun _ => calm_of_word hi hop hopens⟩
  obtain rfl : m = n := Nat.le_antisymm (Nat.le_of_lt_succ hlt) hm
  refine ⟨i, op, hi, hop, hwrites, fun s hs => ?_, fun t ht => ?_⟩
  · cases htakes.symm.trans hs
  · rw [htargets] at ht
    cases ht

end Orderly

end Prototype

/-! ## Actions -/

namespace Generator

open Lowering

/-- The action keeps a sound state sound, with `t` registers in use behind it, and its words are
orderly. -/
def Straight (ps : List Nat) (st st' : State) (t : Nat) (list : Option Nat) : Prop :=
  Emits Prototype.WellFormed ps st st' t fun p _ =>
    p.Orderly st.current.locals list st.size st'.size

variable {ps : List Nat} {st st' st₁ : State} {t t' r a b c line : Nat} {u : Unit} {op : Opcode}
  {list : Option Nat} {e : Expr} {es : List Expr} {d : Destination} {name : String}
  {isConstant : Bool}

namespace Straight

theorem step (h : Straight ps st st' t list) : Step Prototype.WellFormed ps st st' t := Emits.step h

theorem sound (h : Straight ps st st' t list) : Sound Prototype.WellFormed ps st' := h.step.sound

theorem top_eq (h : Straight ps st st' t list) : st'.top = t := h.step.top_eq

/-- The words that are written are orderly as they stand. -/
theorem here (h : Straight ps st st' t list) :
    st'.current.proto.Orderly st.current.locals list st.size st'.size :=
  Emits.code h _ st'.current.home ⟨fun _ _ _ => rfl, fun _ _ hk => hk, fun _ _ => rfl⟩

theorem level (h : Straight ps st st' t list) : st'.level = st.level := h.step.level

theorem cast (h : Straight ps st st' t list) (ht : t = t') : Straight ps st st' t' list :=
  Emits.cast h ht

theorem trans (h : Straight ps st st₁ t none) (h' : Straight ps st₁ st' t' list) :
    Straight ps st st' t' list := by
  refine (Emits.trans h h').mono fun p home hp => hp.1.append ?_
  rw [← h.step.keeps.current.locals]
  exact hp.2

/-- No words are written. -/
theorem silent {P : Prototype → (String → Home) → Prop}
    (h : Emits Prototype.WellFormed ps st st' t P) (hsize : st'.size = st.size) :
    Straight ps st st' t none :=
  h.mono fun p _ _ => hsize ▸ .nil p st.current.locals st'.size

theorem of_tidied {P : Prototype → (String → Home) → Prop}
    (h : Emits Prototype.WellFormed ps st st' t P)
    (hP : ∀ p home, P p home → p.Tidied st.level list st.size st'.size) :
    Straight ps st st' t list :=
  h.mono fun p home hp => .of_tidied (hP p home hp)

/-- One word that stands on its own. -/
theorem word (h : Emits Prototype.WellFormed ps st st' t fun p _ =>
      p.HasWord st.size op a b c ∧ st'.size = st.size + 1)
    (hwrites : ∀ r, op.lowest? a = some r →
      st.level ≤ r ∨ (Note.full st.current.locals).Assigns op r)
    (htakes : op.takes? a b = none) (htargets : ∀ n, ∀ i : Instruction, i.targets n op = [])
    (hopens : op.opens? a c = none) : Straight ps st st' t none := by
  refine h.mono fun p _ hp => ?_
  rw [hp.2]
  exact .word hp.1 hwrites htakes (htargets st.size) hopens

end Straight

theorem straight_setLine (h : setLine line st = .ok u st')
    (hs : Sound Prototype.WellFormed ps st) : Straight ps st st' st.top none :=
  .silent (emits_setLine h hs) (setLine_size h)

theorem straight_reserve {count : Nat} (h : reserve count line st = .ok r st')
    (hs : Sound Prototype.WellFormed ps st) :
    Straight ps st st' (st.top + count) none ∧ r = st.top :=
  ⟨.silent (emits_reserve h hs).1 (reserve_size h hs), (emits_reserve h hs).2⟩

theorem straight_release (h : release r st = .ok u st') (hs : Sound Prototype.WellFormed ps st) :
    Straight ps st st' r none :=
  .silent (emits_release h hs) (release_size h hs)

theorem resolve_size {x : Reference} (h : resolve name line st = .ok x st')
    (hs : Sound Prototype.WellFormed ps st) : st'.size = st.size :=
  congrArg Chunk.size (resolve_chunk h hs)

theorem straight_resolve {x : Reference} (h : resolve name line st = .ok x st')
    (hs : Sound Prototype.WellFormed ps st) : Straight ps st st' st.top none :=
  .silent (emits_resolve h hs) (resolve_size h hs)

theorem straight_loadPool {k : Constant}
    (h : (do emitAbx .loadConstant r (← addConstant k) : Gen Unit) st = .ok u st')
    (hs : Sound Prototype.WellFormed ps st) (hr : r < st.top) (hlevel : st.level ≤ r) :
    Straight ps st st' st.top none :=
  .of_tidied (emits_loadPool h hs hr) fun p _ hp => by
    obtain ⟨⟨x, hword, -⟩, hsize⟩ := hp
    rw [hsize]
    exact (Prototype.Tidy.nil p st.level st.size).hasWide hword (.inl rfl) hlevel

/-! ## Expressions -/

theorem straight_evaluate (h : evaluate e d st = .ok u st') (hs : Sound Prototype.WellFormed ps st)
    (hsuits : d.Suits e st.top) (hd : d.From st.level) :
    Straight ps st st' (d.after e.isMultiple st.top) (d.list? st.top) :=
  .of_tidied (lowersTo_evaluate closed_wellFormed e hs hsuits h) fun p home hp =>
    tidy_codes p home st.level e hp hd hs.level_le

theorem straight_toTemporary
    (h : toTemporary line (fun t => evaluate e (.register t)) st = .ok r st')
    (hs : Sound Prototype.WellFormed ps st) :
    Straight ps st st' (st.top + 1) none ∧ r = st.top := by
  obtain ⟨hemits, rfl⟩ :=
    toTemporary_emits h hs (lowersTo_evaluate closed_wellFormed e).lowers
  have hlevel := hs.level_le
  exact ⟨.of_tidied hemits fun p home hp =>
    tidy_codes p home st.level e hp hlevel (Nat.le_succ_of_le hlevel), rfl⟩

theorem straight_toAnyRegister
    (h : toAnyRegister e (fun t => evaluate e (.register t)) st = .ok r st')
    (hs : Sound Prototype.WellFormed ps st) :
    ∃ t, Straight ps st st' t none ∧ r < t ∧ st.top ≤ t := by
  obtain ⟨t, hemits, hlt, hle⟩ :=
    toAnyRegister_emits h hs (lowersTo_evaluate closed_wellFormed e).lowers
  exact ⟨t, .of_tidied hemits fun p home hp =>
    (tidy_operand hp (tidyPart_codes p home st.level e) hs.level_le).1, hlt, hle⟩

theorem straight_toOperand {own : Bool}
    (h : toOperand own e (fun t => evaluate e (.register t)) st = .ok r st')
    (hs : Sound Prototype.WellFormed ps st) :
    ∃ t, Straight ps st st' t none ∧ r < t ∧ st.top ≤ t := by
  unfold toOperand at h
  split at h
  · obtain ⟨hstraight, rfl⟩ := straight_toTemporary h hs
    exact ⟨_, hstraight, Nat.lt_succ_self _, Nat.le_succ _⟩
  · exact straight_toAnyRegister h hs

theorem straight_adjusted {wanted count : Option Nat}
    (h : adjusted es wanted (fun last => items es last) st = .ok count st')
    (hs : Sound Prototype.WellFormed ps st) :
    ∃ t, Straight ps st st' t (rowList? es wanted st.top) ∧ st.top ≤ t ∧
      (∀ k, count = some k → t = st.top + k) ∧ ∀ w, wanted = some w → t = st.top + w := by
  obtain ⟨t, hemits, hrest⟩ := adjusted_emits h hs (lowersRow_items closed_wellFormed es)
  exact ⟨t, .of_tidied hemits fun p home hp => tidy_adjusted hp hs.level_le, hrest⟩

/-- No list is open behind so many values. -/
theorem rowList?_some (es : List Expr) (w t : Nat) : rowList? es (some w) t = none :=
  if_neg fun h => nomatch h.1

/-- An expression with one value that is not used. -/
theorem evaluate_zero (h : e.isMultiple = false) :
    ∃ line, evaluate e (.values (some 0)) = (do
      let saved ← free
      let _ ← toTemporary line fun t => evaluate e (.register t)
      release saved) := by
  cases e with
  | vararg | call | method => cases h
  | function f =>
    obtain ⟨name, params, variadic, body, line, endLine⟩ := f
    exact ⟨line, by simp only [evaluate, single]⟩
  | binary op a b line =>
    refine ⟨line, ?_⟩
    rw [evaluate, single]
    · simp only [evaluate, single]
    · simp
  | _ => exact ⟨_, by simp only [evaluate, single]; rfl⟩

theorem straight_expr (h : statement (.expr e line) st = .ok u st')
    (hs : Sound Prototype.WellFormed ps st) : Straight ps st st' st.top none := by
  rw [statement] at h
  simp only [bind_ok, free_ok, and_assoc, exists_and_left, exists_eq_left] at h
  obtain ⟨_, st₁, hline, _, st₂, hvalue, h⟩ := h
  have h₁ := straight_setLine hline hs
  have htop₁ := h₁.top_eq
  have h₂ : ∃ t, Straight ps st₁ st₂ t none := by
    cases hmultiple : e.isMultiple with
    | true => exact ⟨_, straight_evaluate (d := .values (some 0)) hvalue h₁.sound hmultiple trivial⟩
    | false =>
      obtain ⟨line', hsingle⟩ := evaluate_zero hmultiple
      rw [hsingle] at hvalue
      simp only [bind_ok, free_ok, and_assoc, exists_and_left, exists_eq_left] at hvalue
      obtain ⟨_, st₃, hvalue, hrelease⟩ := hvalue
      have h₃ := (straight_toTemporary hvalue h₁.sound).1
      exact ⟨_, h₃.trans (straight_release hrelease h₃.sound)⟩
  obtain ⟨t, h₂⟩ := h₂
  exact ((h₁.trans h₂).trans (straight_release h h₂.sound)).cast htop₁

/-! ## Closures -/

theorem straight_closure {f : Function}
    (h : (do
      let place ← function f
      setLine line
      emitAbx .closure r place) st = .ok u st')
    (hs : Sound Prototype.WellFormed ps st) (hr : r < st.top) (hlevel : st.level ≤ r) :
    Straight ps st st' st.top none :=
  .of_tidied (lowers_closure (functionSound closed_wellFormed f) hs hr h) fun p _ hp => by
    obtain ⟨⟨x, hword⟩, hsize⟩ := hp
    rw [hsize]
    exact (Prototype.Tidy.nil p st.level st.size).hasWide hword (.inr rfl) hlevel

/-! ## Assignments -/

/-- The words that store to a global, behind which no register is taken. -/
theorem straight_globalSet {v : Nat} (h : globalSet name v st = .ok u st')
    (hs : Sound Prototype.WellFormed ps st) (hv : v < st.top) :
    Straight ps st st' st.top none := by
  simp only [globalSet, globalAccess, bind_ok, currentLine_ok, and_assoc, exists_and_left,
    exists_eq_left] at h
  obtain ⟨env, st₁, henv, key, st₂, hkey, h⟩ := h
  have h₁ := straight_resolve henv hs
  obtain ⟨-, hregister, hupvalue⟩ := resolve_step henv hs
  obtain ⟨hplace, hbound⟩ := emits_keyPlace? hkey h₁.sound
  have h₂ := h₁.trans (.silent hplace (keyPlace?_size hkey h₁.sound))
  have htop₁ := h₁.top_eq
  have htop₂ := h₂.top_eq
  have hlevel := hs.level_le
  have hregisters := h₂.sound.top_le
  have hmax := h₂.sound.registers_le
  split at h
  next r c k =>
    have hr := hregister _ _ rfl
    have h₃ := Straight.word (emits_abc h h₂.sound (emitSetField_step h h₂.sound (by omega)
      (by omega) (hbound k rfl)) (by omega) (by have hk := (hbound k rfl).1; omega) (by omega))
      (Opcode.of_none rfl) rfl (fun _ _ => rfl) rfl
    exact (h₂.trans h₃).cast (by omega)
  next r c =>
    have hr := hregister _ _ rfl
    simp only [bind_ok] at h
    obtain ⟨keyRegister, st₃, hreserve, place, st₄, hconst, _, st₅, hload, _, st₆, hset, h⟩ := h
    obtain ⟨h₃', rfl⟩ := straight_reserve hreserve h₂.sound
    have h₃ := h₂.trans h₃'
    have htop₃ := h₃.top_eq
    have h₅ := h₃.trans (straight_loadPool (bind_ok.mpr ⟨place, st₄, hconst, hload⟩) h₃.sound
      (by omega) (by have hlevel₃ := h₃.level; omega))
    have htop₅ := h₅.top_eq
    have hregisters₅ := h₅.sound.top_le
    have hmax₅ := h₅.sound.registers_le
    have h₆ := h₅.trans (Straight.word (emits_abc hset h₅.sound (emitOperation_step hset h₅.sound rfl
      (by simp) ⟨rfl, rfl⟩ rfl (by omega) (by omega) (by omega)) (by omega) (by omega) (by omega))
      (Opcode.of_none rfl) rfl (fun _ _ => rfl) rfl)
    exact (h₆.trans (straight_release h h₆.sound)).cast (by omega)
  next w c k =>
    have hw := hupvalue _ _ rfl
    have hgrow := hplace.step.grows.upvalues_size_le
    have hlimit := upvalues_le h₂.sound
    have h₃ := Straight.word (emits_abc h h₂.sound (emitSetGlobal_step h h₂.sound (by omega)
      (by omega) (hbound k rfl)) (by omega) (by have hk := (hbound k rfl).1; omega) (by omega))
      (Opcode.of_none rfl) rfl (fun _ _ => rfl) rfl
    exact (h₂.trans h₃).cast (by omega)
  next w c =>
    have hw := hupvalue _ _ rfl
    simp only [bind_ok] at h
    obtain ⟨x, st₃, hreserve, _, st₄, hget, place, st₅, hconst, _, st₆, hload, _, st₇, hset,
      h⟩ := h
    obtain ⟨h₃', rfl⟩ := straight_reserve hreserve h₂.sound
    have h₃ := h₂.trans h₃'
    have htop₃ := h₃.top_eq
    have hlevel₃ := h₃.level
    have hgrow := (hplace.step.trans h₃'.step).grows.upvalues_size_le
    have hlimit := upvalues_le h₃.sound
    have hregisters₃ := h₃.sound.top_le
    have hmax₃ := h₃.sound.registers_le
    have h₄ := h₃.trans (Straight.word (emits_abc hget h₃.sound
      (emitUpvalue_step hget (.inl rfl) h₃.sound (by omega) (by omega)) (by omega) (by omega)
      (by omega)) (fun _ hr => .inl (Option.some.inj hr ▸ (by omega))) rfl (fun _ _ => rfl) rfl)
    have htop₄ := h₄.top_eq
    have h₆ := h₄.trans (straight_loadPool (bind_ok.mpr ⟨place, st₅, hconst, hload⟩) h₄.sound
      (by omega) (by have hlevel₄ := h₄.level; omega))
    have htop₆ := h₆.top_eq
    have hregisters₆ := h₆.sound.top_le
    have hmax₆ := h₆.sound.registers_le
    have h₇ := h₆.trans (Straight.word (emits_abc hset h₆.sound (emitOperation_step hset h₆.sound rfl
      (by simp) ⟨rfl, rfl⟩ rfl (by omega) (by omega) (by omega)) (by omega) (by omega) (by omega))
      (Opcode.of_none rfl) rfl (fun _ _ => rfl) rfl)
    exact (h₇.trans (straight_release h h₇.sound)).cast (by omega)
  next =>
    simp only [bind_ok, defect_ok, and_false, exists_false] at h

/-- A variable that is assigned to may be. -/
def Assignable (locals : Array Local) : Target → Prop
  | .variable (.register r _) _ =>
    ∃ l ∈ locals, l.register = r ∧ l.constant = false ∧ l.name ≠ loopState
  | _ => True

theorem straight_store {x : Target} {v : Nat} (h : store x v st = .ok u st')
    (hs : Sound Prototype.WellFormed ps st) (hx : TargetWithin st.current.proto st.top x)
    (hassign : Assignable st.current.locals x) (hv : v < st.top) :
    Straight ps st st' st.top none := by
  have htop := hs.top_le
  have hmax := hs.registers_le
  have hlimit := upvalues_le hs
  unfold store at h
  split at h
  next t k =>
    obtain ⟨ht, hk⟩ := hx
    exact .word (emits_abc h hs (emitSetField_step h hs ht hv hk) (by omega) (by omega) (by omega))
      (Opcode.of_none rfl) rfl (fun _ _ => rfl) rfl
  next t k =>
    obtain ⟨ht, hk⟩ := hx
    exact .word (emits_abc h hs (emitOperation_step h hs rfl (by simp) ⟨rfl, rfl⟩ rfl ht hk hv)
      (by omega) (by omega) (by omega)) (Opcode.of_none rfl) rfl (fun _ _ => rfl) rfl
  next r c _ =>
    have hr : r < st.top := hx
    refine .word (emits_abc h hs (emitMove_step h hs hr hv) (by omega) (by omega) (by omega))
      (fun _ hr => .inr ?_) rfl (fun _ _ => rfl) rfl
    cases hr
    exact ⟨rfl, hassign⟩
  next w c _ =>
    have hw : w < st.current.proto.upvalues.size := hx
    exact .word (emits_abc h hs (emitUpvalue_step h (.inr rfl) hs hv hw) (by omega) (by omega)
      (by omega)) (Opcode.of_none rfl) rfl (fun _ _ => rfl) rfl
  next => exact straight_globalSet h hs hv

/-- The induction is on the targets: the last value is stored first. -/
theorem straight_storeAll {xs : List Target} {v : Nat} (h : storeAll xs v st = .ok u st')
    (hs : Sound Prototype.WellFormed ps st)
    (hxs : ∀ x ∈ xs, TargetWithin st.current.proto st.top x ∧ Assignable st.current.locals x)
    (hv : v + xs.length ≤ st.top) : Straight ps st st' st.top none := by
  induction xs generalizing v u st' with
  | nil =>
    simp only [storeAll, pure_ok] at h
    obtain ⟨-, rfl⟩ := h
    exact .silent (.refl hs) rfl
  | cons x rest ih =>
    simp only [storeAll, bind_ok] at h
    obtain ⟨_, st₁, hrest, h⟩ := h
    simp only [List.length_cons] at hv
    have h₁ := ih hrest (fun y hy => hxs y (List.mem_cons_of_mem _ hy)) (by omega)
    have htop := h₁.top_eq
    obtain ⟨hwithin, hassign⟩ := hxs x List.mem_cons_self
    have hx := hwithin.mono h₁.step.grows (Nat.le_of_eq htop.symm)
    rw [← h₁.step.keeps.current.locals] at hassign
    exact (h₁.trans (straight_store h h₁.sound hx hassign (by omega))).cast htop

/-! ## Targets -/

/-- A name that is assigned to is no part of the state of a loop. -/
def NamesVariable : Expr → Prop
  | .name n _ => n ≠ loopState
  | _ => True

/-- A name in a register is that of a variable of the scope. -/
theorem resolve_register (h : resolve name line st = .ok (.register r isConstant) st')
    (hs : Sound Prototype.WellFormed ps st) : ∃ l ∈ st'.current.locals, l.register = r ∧
      l.constant = isConstant ∧ l.name = name := by
  rw [(resolve_step h hs).1.keeps.current.locals]
  simp only [resolve, bind_ok, get_ok, set_ok, and_assoc, exists_and_left, exists_eq_left,
    exists_const] at h
  unfold FunctionScope.resolve at h
  rw [State.scopes_eq hs.exists_scope] at h
  cases hlocal : st.current.findLocal name with
  | some l =>
    obtain ⟨hl, hname⟩ := FunctionScope.mem_of_findLocal hlocal
    simp only [List.head?_cons, Option.bind_some, hlocal, pure_ok, Reference.register.injEq] at h
    obtain ⟨⟨rfl, rfl⟩, -⟩ := h
    exact ⟨l, hl, rfl, rfl, hname⟩
  | none =>
    simp only [List.head?_cons, Option.bind_some, hlocal] at h
    rcases hrest : FunctionScope.resolveUpvalue name line (st.current :: st.outer) with
      ⟨scopes, e | _ | ⟨i, constant⟩⟩ <;> simp [hrest, pure_ok, throw_ok] at h

theorem straight_target {x : Target} {several : Bool} (h : target e several st = .ok x st')
    (hs : Sound Prototype.WellFormed ps st) (he : NamesVariable e) :
    ∃ t, Straight ps st st' t none ∧ st.top ≤ t ∧ TargetWithin st'.current.proto t x ∧
      Assignable st'.current.locals x := by
  obtain ⟨t, hstep, hle, hwithin⟩ := targetSound closed_wellFormed e _ _ _ _ _ hs h
  unfold target at h
  split at h
  next n line =>
    simp only [nameTarget, bind_ok] at h
    obtain ⟨reference, st₁, hresolve, h⟩ := h
    have h₁ := straight_resolve hresolve hs
    split at h
    · simp only [bind_ok, throw_ok, false_and, exists_false] at h
    next hconstant =>
      simp only [pure_ok] at h
      obtain ⟨rfl, rfl⟩ := h
      refine ⟨t, h₁.cast (h₁.top_eq.symm.trans hstep.top_eq), hle, hwithin, ?_⟩
      unfold Assignable
      split
      next r c _ heq =>
        cases heq
        obtain ⟨l, hl, hregister, hflag, hname⟩ := resolve_register hresolve hs
        exact ⟨l, hl, hregister, hflag.trans (by simpa [Reference.isConstant] using hconstant),
          hname ▸ he⟩
      next => trivial
  next a k line =>
    simp only [bind_ok] at h
    obtain ⟨table, st₁, htable, place, st₂, hplace, h⟩ := h
    obtain ⟨t₁, h₁, -, -⟩ := straight_toOperand htable hs
    have h₂ := h₁.trans (.silent (emits_fieldPlace? hplace h₁.sound).1
      (fieldPlace?_size hplace h₁.sound))
    split at h
    next p =>
      simp only [pure_ok] at h
      obtain ⟨rfl, rfl⟩ := h
      exact ⟨t, h₂.cast (h₂.top_eq.symm.trans hstep.top_eq), hle, hwithin, trivial⟩
    next =>
      simp only [bind_ok, pure_ok] at h
      obtain ⟨key, st₃, hkey, rfl, rfl⟩ := h
      obtain ⟨t₃, h₃, -, -⟩ := straight_toOperand hkey h₂.sound
      exact ⟨t, (h₂.trans h₃).cast (h₃.top_eq.symm.trans hstep.top_eq), hle, hwithin, trivial⟩
  next => simp only [defect_ok] at h

theorem straight_targets {several : Bool} (hes : ∀ e ∈ es, NamesVariable e) {xs : List Target}
    (h : targets es several st = .ok xs st') (hs : Sound Prototype.WellFormed ps st) :
    ∃ t, Straight ps st st' t none ∧ st.top ≤ t ∧ xs.length = es.length ∧
      ∀ x ∈ xs, TargetWithin st'.current.proto t x ∧ Assignable st'.current.locals x := by
  induction es generalizing st xs with
  | nil =>
    rw [targets, pure_ok] at h
    obtain ⟨rfl, rfl⟩ := h
    exact ⟨_, .silent (.refl hs) rfl, Nat.le_refl _, rfl, by simp⟩
  | cons e es ih =>
    obtain ⟨he, hes⟩ := List.forall_mem_cons.mp hes
    rw [targets] at h
    simp only [bind_ok, pure_ok] at h
    obtain ⟨x, st₁, hx, rest, st₂, hrest, rfl, rfl⟩ := h
    obtain ⟨t, h₁, hle, hwithin, hassign⟩ := straight_target hx hs he
    obtain ⟨t', h₂, hle', hlength, hall⟩ := ih hes hrest h₁.sound
    have htop₁ := h₁.top_eq
    refine ⟨t', h₁.trans h₂, by omega, by simp [hlength], fun y hy => ?_⟩
    rcases List.mem_cons.mp hy with rfl | hy
    · refine ⟨hwithin.mono h₂.step.grows (by omega), ?_⟩
      rw [h₂.step.keeps.current.locals]
      exact hassign
    · exact hall y hy

/-! ## Statements without jumps -/

theorem straight_assign {left right : List Expr}
    (h : statement (.assign left right line) st = .ok u st')
    (hs : Sound Prototype.WellFormed ps st) (hleft : ∀ e ∈ left, NamesVariable e) :
    Straight ps st st' st.top none := by
  rw [statement] at h
  simp only [bind_ok, free_ok, and_assoc, exists_and_left, exists_eq_left] at h
  obtain ⟨_, st₁, hline, prepared, st₂, htargets, count, st₃, hvalues, _, st₄, hline', _, st₅,
    hstore, h⟩ := h
  have h₁ := straight_setLine hline hs
  have htop₁ := h₁.top_eq
  obtain ⟨t, h₂', hle, hlength, hxs⟩ := straight_targets hleft htargets h₁.sound
  have h₂ := h₁.trans h₂'
  have htop₂ := h₂.top_eq
  obtain ⟨t', h₃', hle', -, hwanted⟩ := straight_adjusted hvalues h₂.sound
  rw [rowList?_some] at h₃'
  have h₄' := h₃'.trans (straight_setLine hline' h₃'.sound)
  have h₄ := h₂.trans h₄'
  have htop₃ := h₃'.top_eq
  have htop₄ := h₄.top_eq
  have hwanted' := hwanted _ rfl
  have h₅ := h₄.trans (straight_storeAll hstore h₄.sound (fun x hx => by
    obtain ⟨hwithin, hassign⟩ := hxs x hx
    refine ⟨hwithin.mono h₄'.step.grows (by omega), ?_⟩
    rw [h₄'.step.keeps.current.locals]
    exact hassign) (by omega))
  exact (h₅.trans (straight_release h h₅.sound)).cast htop₁

theorem straight_function {left : Expr} {f : Function}
    (h : statement (.function left f line) st = .ok u st') (hs : Sound Prototype.WellFormed ps st)
    (hleft : NamesVariable left) : Straight ps st st' st.top none := by
  rw [statement] at h
  simp only [bind_ok, free_ok, and_assoc, exists_and_left, exists_eq_left] at h
  obtain ⟨_, st₁, hline, x, st₂, htarget, value, st₃, hreserve, place, st₄, hfunction, _, st₅,
    hline', _, st₆, hclosure, _, st₇, hstore, h⟩ := h
  have h₁ := straight_setLine hline hs
  have htop₁ := h₁.top_eq
  obtain ⟨t, h₂', hle, hwithin, hassign⟩ := straight_target htarget h₁.sound hleft
  have h₂ := h₁.trans h₂'
  have htop₂ := h₂.top_eq
  obtain ⟨h₃', rfl⟩ := straight_reserve hreserve h₂.sound
  have h₃ := h₂.trans h₃'
  have htop₃ := h₃.top_eq
  have hlevel := h₂.sound.level_le
  have h₆' := straight_closure (bind_ok.mpr ⟨place, st₄, hfunction,
    bind_ok.mpr ⟨(), st₅, hline', hclosure⟩⟩) h₃.sound (by omega) (by have hlevel₃ := h₃'.level; omega)
  have h₆ := h₃.trans h₆'
  have htop₆ := h₆.top_eq
  have hsince := h₃'.trans h₆'
  have h₇ := h₆.trans (straight_store hstore h₆.sound (hwithin.mono hsince.step.grows (by omega)) (by
    rw [hsince.step.keeps.current.locals]
    exact hassign) (by omega))
  exact (h₇.trans (straight_release h h₇.sound)).cast htop₁

end Generator
end LuaMachine
