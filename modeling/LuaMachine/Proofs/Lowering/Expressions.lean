import LuaMachine.Proofs.Lowering.Lists
/-! # The code of every expression

The induction over expressions, for the compiler and for one that leaves constant parts unfolded.

* `Lowering.lowersTo_evaluate`: what the compiler writes has the shape of its expression.
* `Generator.unfolded`: an expression with all its operators left in the code.
* `Generator.evaluate_eq_unfolded`: the compiler writes this where nothing can be folded.
* `Lowering.lowersTo_unfolded`: this has the shape of the expression, too.
-/
set_option autoImplicit false

namespace LuaMachine

/-! ## Operators that are left in the code -/

namespace Generator

/-- The code of an operator on one operand. -/
def unaryAction (op : UnaryOp) (e : Expr) (line : Nat) (act : Evaluation) : Evaluation := fun r => do
  let saved ← free
  let operand ← toAnyRegister e act
  setLine line
  emitAbc (unaryOpcode op) r operand 0
  release saved

/-- The code of an operator on two operands; `rest` leaves the operands of a chain of concatenations
in registers from a given one on. -/
def binaryAction (op : BinaryOp) (a b : Expr) (line : Nat) (first second : Evaluation)
    (rest : Nat → Gen Unit) : Evaluation := fun r => do
  match op with
  | .and | .or =>
    first r
    setLine line
    emitAbc .test r (if op = .or then 1 else 0) 0
    let skip ← emitJump
    second r
    patchJumpHere skip
  | .concat =>
    let count := chainLength b + 1
    let base ← reserve count line
    first base
    rest (base + 1)
    setLine line
    emitAbc .concat r base count
    release base
  | op =>
    let saved ← free
    let left ← toAnyRegister a first
    let right ← toAnyRegister b second
    setLine line
    emitBinary op r left right
    release saved

/-- The code of an expression whose operators are all performed when it runs, also those whose
values are known before. -/
def unfolded : Expr → Destination → Gen Unit
  | .unary op e line, d =>
    single line d (unaryAction op e line fun t => unfolded e (.register t))
  | .binary .concat a b _, .part r => do
    unfolded a (.register r)
    unfolded b (.part (r + 1))
  | .binary op a b line, d =>
    single line d (binaryAction op a b line (fun t => unfolded a (.register t))
      (fun t => unfolded b (.register t)) fun r => unfolded b (.part r))
  | .paren e line, d => single line d fun r => unfolded e (.register r)
  | e, d => evaluate e d

/-- No operator has a value that is known before the program runs. -/
def FoldsNothing : Expr → Prop
  | .unary op e line => (Expr.unary op e line).fold = none ∧ FoldsNothing e
  | .binary op a b line =>
    (Expr.binary op a b line).fold = none ∧ FoldsNothing a ∧ FoldsNothing b
  | .paren e _ => FoldsNothing e
  | _ => True

end Generator

namespace Lowering

open Generator

variable {Good : Prototype → Prop} {ps : List Nat} {st st' st₁ st₂ : State} {u : Unit}
  {line r t : Nat} {e k : Expr} {es args : List Expr} {d : Destination} {act : Evaluation}
  {part : Prototype → (String → Home) → Part}

/-! ## Table constructors -/

/-- The two words that store items. -/
theorem storeItems_words {table count stored : Nat} {u' : Unit}
    (hlist : emitAbc .setList table count 0 st = .ok u st₁)
    (h : emitExtra stored st₁ = .ok u' st') (hs : Sound Good ps st) :
    st'.current.proto.chunk.code[st.size]? = some (.abc .setList table count 0) ∧
      st'.current.proto.chunk.code[st.size + 1]? = some (.ofAx .extra stored) ∧
      st'.size = st.size + 2 := by
  obtain ⟨n, hlist⟩ := emitAbc_ok hlist
  simp only [emitExtra, bind_ok, pure_ok] at h
  obtain ⟨m, st₂, h, -, rfl⟩ := h
  obtain ⟨-, rfl⟩ := emit_ok hlist
  obtain ⟨-, rfl⟩ := emit_ok h
  have hne := State.scopes_mapCurrent_ne
    (f := fun s => s.written (.abc .setList table count 0) st.line) hs.exists_scope
  simp only [State.size, State.current_mapCurrent hne, State.current_mapCurrent hs.exists_scope]
  have hsize : (st.current.written (.abc .setList table count 0) st.line).proto.chunk.size =
      st.current.proto.chunk.size + 1 := FunctionScope.size_written
  refine ⟨?_, ?_, ?_⟩
  · rw [FunctionScope.code_written_lt (by rw [hsize]; exact Nat.lt_succ_self _)]
    exact FunctionScope.code_written_size
  · rw [← hsize]
    exact FunctionScope.code_written_size
  · rw [FunctionScope.size_written, hsize]

theorem storeItems_emits {table count stored : Nat}
    (h : storeItems table count stored line st = .ok u st') (hs : Sound Good ps st)
    (hcount : table + count < st.top) :
    Emits Good ps st st' (table + 1) fun p _ => Stores p table count stored st.size st'.size := by
  simp only [storeItems, bind_ok] at h
  obtain ⟨_, st₁, hline, _, st₂, hlist, _, st₃, hextra, h⟩ := h
  have h₁ := emits_setLine hline hs
  have htop := h₁.top_eq
  have hregisters := h₁.sound.top_le
  have hmax := h₁.sound.registers_le
  obtain ⟨hfirst, hsecond, hsize⟩ := storeItems_words hlist hextra h₁.sound
  have h₃ : Emits Good ps st₁ st₃ st₁.top fun p _ =>
      p.HasWord st₁.size .setList table count 0 ∧ p.HasExtra (st₁.size + 1) stored ∧
        st₃.size = st₁.size + 2 :=
    ⟨emitSetList_step hlist hextra h₁.sound (by omega), fun p home hf =>
      ⟨⟨_, hf.word (Nat.le_refl _) hfirst, Instruction.opcode?_abc _,
        Instruction.a_abc _ (by omega), Instruction.b_abc _ (by omega),
        Instruction.c_abc _ (by omega)⟩,
      ⟨_, hf.word (Nat.le_succ _) hsecond, Instruction.opcode?_ofAx _, Instruction.ax_ofAx _⟩,
      hsize⟩⟩
  have h₄ := emits_release h h₃.sound
  refine (h₁.trans (h₃.trans h₄)).mono fun p home hp => ?_
  obtain ⟨hsize₁, ⟨hword, hargument, hsize₃⟩, hsize₄⟩ := hp
  rw [hsize₁] at hword hargument hsize₃
  exact ⟨hword, hargument, hsize₄.trans hsize₃⟩

theorem lowersEntries_nil : LowersEntries Good [] (fields []) := by
  intro ps st st' table line pending stored u hs htop hlevel h
  rw [fields] at h
  split at h
  next hpos =>
    refine (storeItems_emits h hs (by omega)).mono fun p home hp => ?_
    rw [Entries, if_pos hpos]
    exact hp
  next hpos =>
    simp only [pure_ok] at h
    obtain ⟨-, rfl⟩ := h
    refine ((Emits.refl hs).cast (by omega)).mono fun p home _ => ?_
    rw [Entries, if_neg hpos]

theorem lowersEntries_pair {rest : List Field} (hk : LowersTo Good k (evaluate k))
    (he : LowersTo Good e (evaluate e)) (hrest : LowersEntries Good rest (fields rest)) :
    LowersEntries Good (.pair k e :: rest) (fields (.pair k e :: rest)) := by
  intro ps st st' table line pending stored u hs htop hlevel h
  rw [fields] at h
  simp only [bind_ok, free_ok, and_assoc, exists_and_left, exists_eq_left] at h
  obtain ⟨place, st₁, hplace, h⟩ := h
  obtain ⟨h₁, hbound⟩ := emits_fieldPlace? hplace hs
  have htop₁ := h₁.top_eq
  split at h
  next c =>
    simp only [bind_ok] at h
    obtain ⟨value, st₂, hvalue, _, st₃, hline, _, st₄, hset, _, st₅, hrelease, h⟩ := h
    obtain ⟨t, h₂, hlt, hle⟩ := toAnyRegister_emits hvalue h₁.sound he.lowers
    have h₃ := emits_setLine hline h₂.sound
    have htop₂ := h₂.top_eq
    have htop₃ := h₃.top_eq
    have hregisters := h₃.sound.top_le
    have hmax := h₃.sound.registers_le
    have hc := hbound c rfl
    have hgrow := (h₂.step.trans h₃.step).grows.constants_size_le
    have h₄ := emits_abc hset h₃.sound
      (emitSetField_step hset h₃.sound (by omega) (by omega) (by omega)) (by omega) (by omega)
      (by omega)
    have h₅ := emits_release hrelease h₄.sound
    have hentry := h₁.trans (h₂.trans (h₃.trans (h₄.trans h₅)))
    have hlevel₅ := hentry.step.level
    have h₆ := hrest h₅.sound (h₅.top_eq.trans htop) (by omega) h
    refine (hentry.trans h₆).mono fun p home hp => ?_
    obtain ⟨⟨⟨hsize₁, hkey⟩, hoperand, hsize₃, ⟨hword, hsize₄⟩, hsize₅⟩, hentries⟩ := hp
    obtain ⟨name, nameLine, rfl, hconstant⟩ := hkey c rfl
    rw [hsize₁, htop₁, htop] at hoperand
    rw [hsize₃] at hword hsize₄
    rw [hsize₅, hsize₄] at hentries
    rw [Entries]
    exact .inl ⟨name, nameLine, c, value, t, st₂.size, rfl, hconstant, hoperand, hword, hentries⟩
  next =>
    simp only [bind_ok] at h
    obtain ⟨key, st₂, hkey, value, st₃, hvalue, _, st₄, hline, _, st₅, hset, _, st₆, hrelease,
      h⟩ := h
    obtain ⟨t, h₂, hlt, hle⟩ := toAnyRegister_emits hkey h₁.sound hk.lowers
    obtain ⟨t', h₃, hlt', hle'⟩ := toAnyRegister_emits hvalue h₂.sound he.lowers
    have h₄ := emits_setLine hline h₃.sound
    have htop₂ := h₂.top_eq
    have htop₃ := h₃.top_eq
    have htop₄ := h₄.top_eq
    have hregisters := h₄.sound.top_le
    have hmax := h₄.sound.registers_le
    have h₅ := emits_abc hset h₄.sound (emitOperation_step hset h₄.sound rfl (by simp) ⟨rfl, rfl⟩
      rfl (by omega) (by omega) (by omega)) (by omega) (by omega) (by omega)
    have h₆ := emits_release hrelease h₅.sound
    have hentry := h₁.trans (h₂.trans (h₃.trans (h₄.trans (h₅.trans h₆))))
    have hlevel₆ := hentry.step.level
    have h₇ := hrest h₆.sound (h₆.top_eq.trans htop) (by omega) h
    refine (hentry.trans h₇).mono fun p home hp => ?_
    obtain ⟨⟨⟨hsize₁, -⟩, hkey, hvalue, hsize₄, ⟨hword, hsize₅⟩, hsize₆⟩, hentries⟩ := hp
    rw [hsize₁, htop₁, htop] at hkey
    rw [htop₂] at hvalue
    rw [hsize₄] at hword hsize₅
    rw [hsize₆, hsize₅] at hentries
    rw [Entries]
    exact .inr ⟨key, value, t, t', st₂.size, st₃.size, hkey, hvalue, hword, hentries⟩

theorem lowersEntries_item {rest : List Field} (he : LowersTo Good e (evaluate e))
    (hrest : LowersEntries Good rest (fields rest)) :
    LowersEntries Good (.item e :: rest) (fields (.item e :: rest)) := by
  intro ps st st' table line pending stored u hs htop hlevel h
  rw [fields] at h
  split at h
  next hlast =>
    have hparts := Bool.and_eq_true_iff.mp hlast
    obtain rfl : rest = [] := List.isEmpty_iff.mp hparts.1
    simp only [bind_ok] at h
    obtain ⟨_, st₁, hvalue, _, st₂, hstore, h⟩ := h
    rw [fields, if_neg (Nat.lt_irrefl 0), pure_ok] at h
    obtain ⟨-, rfl⟩ := h
    have h₁ := he hs (d := .values none) hparts.2 hvalue
    have htop₁ : st₁.top = st.top := by
      rw [h₁.top_eq, hparts.2]
      rfl
    have h₂ := storeItems_emits hstore h₁.sound (by omega)
    refine (h₁.trans h₂).mono fun p home hp => ?_
    rw [htop] at hp
    rw [Entries, if_pos hlast]
    exact ⟨st₁.size, hp⟩
  next hlast =>
    simp only [bind_ok] at h
    obtain ⟨r, st₁, hvalue, h⟩ := h
    obtain ⟨h₁, rfl⟩ := toTemporary_emits hvalue hs he.lowers
    have htop₁ := h₁.top_eq
    have hlevel₁ := h₁.step.level
    split at h
    next hfull =>
      simp only [bind_ok] at h
      obtain ⟨_, st₂, hstore, h⟩ := h
      have h₂ := storeItems_emits hstore h₁.sound (by omega)
      have hlevel₂ := h₂.step.level
      have h₃ := hrest h₂.sound h₂.top_eq (by omega) h
      refine (h₁.trans (h₂.trans h₃)).mono fun p home hp => ?_
      obtain ⟨hcodes, hstores, hentries⟩ := hp
      rw [htop] at hcodes
      rw [hstores.2.2] at hentries
      rw [Entries, if_neg hlast]
      refine ⟨st₁.size, hcodes, ?_⟩
      rw [if_pos hfull]
      exact ⟨⟨hstores.1, hstores.2.1, rfl⟩, hentries⟩
    next hroom =>
      have h₂ := hrest h₁.sound (by omega) (by omega) h
      refine (h₁.trans h₂).mono fun p home hp => ?_
      obtain ⟨hcodes, hentries⟩ := hp
      rw [htop] at hcodes
      rw [Entries, if_neg hlast]
      refine ⟨st₁.size, hcodes, ?_⟩
      rw [if_neg hroom]
      exact hentries

theorem lowersTo_table {fs : List Field} (line : Nat) (hfs : LowersEntries Good fs (fields fs)) :
    LowersTo Good (.table fs line) (evaluate (.table fs line)) := by
  refine lowersTo_single (q := fun p home r t n n' =>
    r + 1 = t ∧ p.HasWord n .newTable r 0 0 ∧ Entries p home fs r 0 0 (n + 1) n' ∨
      ∃ n₁, p.HasWord n .newTable t 0 0 ∧ Entries p home fs t 0 0 (n + 1) n₁ ∧
        p.HasWord n₁ .move r t 0 ∧ n' = n₁ + 1) rfl (fun d => by rw [evaluate]) ?_
    fun p home d t n n' hp => by rw [Codes]; exact hp
  intro ps st st' r u hs hr h
  simp only [bind_ok] at h
  obtain ⟨_, st₁, hline, inPlace, st₂, htop, h⟩ := h
  have h₁ := emits_setLine hline hs
  have htop₁ := h₁.top_eq
  obtain ⟨rfl, hinPlace⟩ := isTop_ok htop h₁.sound
  have hnewTable : ∀ {st₃ st₄ : State} {x : Nat} {u' : Unit}, Sound Good ps st₃ → x < st₃.top →
      emitAbc .newTable x 0 0 st₃ = .ok u' st₄ →
      Emits Good ps st₃ st₄ st₃.top fun p _ =>
        p.HasWord st₃.size .newTable x 0 0 ∧ st₄.size = st₃.size + 1 := by
    intro st₃ st₄ x u' hs₃ hx he
    have hregisters := hs₃.top_le
    have hmax := hs₃.registers_le
    exact emits_abc he hs₃ (emitNewTable_step he hs₃ hx) (by omega) (by omega) (by omega)
  split at h
  next hb =>
    obtain ⟨hrtop, hlevel⟩ := hinPlace hb
    simp only [bind_ok] at h
    obtain ⟨_, st₃, hnew, hentries⟩ := h
    have h₃ := hnewTable h₁.sound (by omega) hnew
    have htop₃ := h₃.top_eq
    have hlevel₃ := h₃.step.level
    have h₄ := hfs h₃.sound (by omega) (by omega) hentries
    refine ((h₁.trans (h₃.trans h₄)).cast (by omega)).mono fun p home hp => .inl ?_
    obtain ⟨hsize₁, ⟨hword, hsize₃⟩, hentries⟩ := hp
    rw [hsize₁] at hword hsize₃
    rw [hsize₃] at hentries
    exact ⟨by omega, hword, hentries⟩
  next =>
    simp only [bind_ok] at h
    obtain ⟨table, st₃, hreserve, _, st₄, hnew, _, st₅, hentries, _, st₆, hmove, h⟩ := h
    obtain ⟨h₃, rfl⟩ := emits_reserve hreserve h₁.sound
    have htop₃ := h₃.top_eq
    have h₄ := hnewTable h₃.sound (by omega) hnew
    have htop₄ := h₄.top_eq
    have hlevel := hs.level_le
    have hlevel₄ := (h₁.step.trans (h₃.step.trans h₄.step)).level
    have h₅ := hfs h₄.sound (by omega) (by omega) hentries
    have htop₅ := h₅.top_eq
    have h₆ := emits_move hmove h₅.sound (by omega) (by omega)
    have h₇ := emits_release h h₆.sound
    refine ((h₁.trans (h₃.trans (h₄.trans (h₅.trans (h₆.trans h₇))))).cast htop₁).mono
      fun p home hp => .inr ?_
    obtain ⟨hsize₁, hsize₃, ⟨hword, hsize₄⟩, hentries, ⟨hmove, hsize₆⟩, hsize₇⟩ := hp
    rw [hsize₃, hsize₁, htop₁] at hword
    rw [hsize₄, hsize₃, hsize₁, htop₁] at hentries
    rw [htop₁] at hmove
    exact ⟨st₅.size, hword, hentries, hmove, hsize₇.trans hsize₆⟩

/-! ## Functions -/

theorem lowers_closure {f : Function} (hf : FunctionSound Good f) :
    Lowers Good (fun r => do
      let place ← function f
      setLine line
      emitAbx .closure r place) fun p _ r _ n n' =>
        (∃ x, p.HasWide n .closure r x) ∧ n' = n + 1 := by
  intro ps st st' r u hs hr h
  have hstep := closureOf_step h hs hf hr
  refine ⟨hstep, fun p home hfits => ?_⟩
  simp only [bind_ok] at h
  obtain ⟨place, st₁, hfunction, _, st₂, hline, h⟩ := h
  obtain ⟨hstep₁, hn, hchunk, -⟩ := hf _ _ _ _ hs hfunction
  have hstep₂ := setLine_step hline hstep₁.sound
  have hsize : st₂.size = st.size := by rw [setLine_size hline, State.size, hchunk]
  have hregisters := hs.top_le
  have hmax := hs.registers_le
  obtain ⟨m, h⟩ := emitAbx_ok h
  obtain ⟨rfl, hword, hsize'⟩ := emit_word h hstep₂.sound
  have hat : st'.current.proto.chunk.code[st.size]? = some (.abx .closure r place) := hsize ▸ hword
  exact ⟨⟨place, _, hfits.word (Nat.le_refl _) hat, Instruction.opcode?_abx _,
    Instruction.a_abx _ (by omega), Instruction.bx_abx _ hn⟩, hsize'.trans (congrArg (· + 1) hsize)⟩

theorem lowersTo_function {f : Function} (hf : FunctionSound Good f) :
    LowersTo Good (.function f) (evaluate (.function f)) := by
  obtain ⟨name, params, variadic, body, line, endLine⟩ := f
  exact lowersTo_single (q := fun p _ r _ n n' => (∃ x, p.HasWide n .closure r x) ∧ n' = n + 1) rfl
    (fun d => by rw [evaluate]) (lowers_closure hf) fun p home d t n n' hp => by
      rw [Codes]
      exact hp

/-! ## All expressions -/

theorem lowersTo_literal (v : Literal) (line : Nat) :
    LowersTo Good (.literal v line) (evaluate (.literal v line)) :=
  lowersTo_single rfl (fun d => by rw [evaluate]) (lowers_constant v.constant)
    fun p home d t n n' hp => by rw [Codes]; exact hp

theorem lowersTo_str (s : String) (line : Nat) :
    LowersTo Good (.str s line) (evaluate (.str s line)) :=
  lowersTo_single rfl (fun d => by rw [evaluate]) (lowers_constant (.str s))
    fun p home d t n n' hp => by rw [Codes]; exact hp

theorem lowersTo_name (name : String) (line : Nat) :
    LowersTo Good (.name name line) (evaluate (.name name line)) :=
  lowersTo_single rfl (fun d => by rw [evaluate]) (lowers_name name line)
    fun p home d t n n' hp => by rw [Codes]; exact hp

theorem lowersTo_vararg (line : Nat) : LowersTo Good (.vararg line) (evaluate (.vararg line)) := by
  intro ps st st' d u hs hd h
  rw [evaluate] at h
  refine (compileVararg_emits h hs ?_).mono fun p home hp => by rw [Codes]; exact hp
  cases d with
  | register r => exact hd
  | part r => exact hd
  | values count => trivial

theorem lowersTo_index (line : Nat) (he : LowersTo Good e (evaluate e))
    (hk : LowersTo Good k (evaluate k)) :
    LowersTo Good (.index e k line) (evaluate (.index e k line)) :=
  lowersTo_single rfl (fun d => by rw [evaluate] <;> rfl)
    (lowers_index (e := e) (k := k) line he.lowers hk.lowers)
    fun p home d t n n' hp => by rw [Codes]; exact hp

theorem lowersTo_call (line : Nat) (he : LowersTo Good e (evaluate e))
    (hargs : LowersRow Good args (items args)) :
    LowersTo Good (.call e args line) (evaluate (.call e args line)) := by
  intro ps st st' d u hs hd h
  rw [evaluate] at h
  exact (called_emits h hs (lowersCall_call line he.lowers (lowersList_adjusted hargs))
    hd.inUse).mono fun p home hp => by rw [Codes]; exact hp

theorem lowersTo_method (name : String) (line : Nat) (he : LowersTo Good e (evaluate e))
    (hargs : LowersRow Good args (items args)) :
    LowersTo Good (.method e name args line) (evaluate (.method e name args line)) := by
  intro ps st st' d u hs hd h
  rw [evaluate] at h
  exact (called_emits h hs (lowersCall_method line he.lowers (lowersList_adjusted hargs))
    hd.inUse).mono fun p home hp => by rw [Codes]; exact hp

/-! ## Operators, folded or not -/

theorem lowers_binaryAction {first second : Evaluation} {rest : Nat → Gen Unit} (op : BinaryOp)
    (a b : Expr) (line : Nat) (ha : Lowers Good first fun p home r => Codes p home a (.register r))
    (hb : Lowers Good second fun p home r => Codes p home b (.register r))
    (hrest : LowersChain Good b rest fun p home r => Codes p home b (.part r)) :
    Lowers Good (binaryAction op a b line first second rest) fun p home =>
      OfBinary p home op a b (fun r => Codes p home a (.register r))
        (fun r => Codes p home b (.register r)) fun r => Codes p home b (.part r) := by
  cases op with
  | and => exact lowers_shortCircuit .and line ha hb
  | or => exact lowers_shortCircuit .or line ha hb
  | concat => exact lowers_chain line ha hrest
  | _ => exact lowers_operator _ line ha hb

theorem lowersTo_paren {whole : Destination → Gen Unit} (line : Nat) (he : LowersTo Good e whole) :
    LowersTo Good (.paren e line) fun d => single line d fun r => whole (.register r) :=
  lowersTo_single rfl (fun _ => rfl) he.lowers fun p home d t n n' hp => by rw [Codes]; exact hp

/-- A chain of concatenations that is a part of a longer one. -/
theorem lowersTo_part {whole first rest : Destination → Gen Unit} {a b : Expr} {r : Nat}
    (hwhole : whole (.part r) = (do
      first (.register r)
      rest (.part (r + 1)))) (ha : LowersTo Good a first) (hb : LowersTo Good b rest)
    (hs : Sound Good ps st) (hfit : r + (chainLength b + 1) ≤ st.top)
    (h : whole (.part r) st = .ok u st') :
    Emits Good ps st st' st.top fun p home =>
      Codes p home (.binary .concat a b line) (.part r) st.top st.size st'.size := by
  rw [hwhole, bind_ok] at h
  obtain ⟨_, st₁, hleft, hright⟩ := h
  have h₁ := ha hs (d := .register r) (show r < st.top by omega) hleft
  have htop : st₁.top = st.top := h₁.top_eq
  have h₂ := hb h₁.sound (d := .part (r + 1)) (show r + 1 + chainLength b ≤ st₁.top by omega) hright
  refine ((h₁.trans h₂).cast htop).mono fun p home hp => ?_
  rw [htop] at hp
  rw [Codes]
  exact ⟨st₁.size, hp⟩

theorem lowersTo_binary {whole first second : Destination → Gen Unit} {act : Evaluation}
    {a b : Expr} (op : BinaryOp) (line : Nat) (ha : LowersTo Good a first)
    (hb : LowersTo Good b second)
    (hpart : op = .concat → ∀ r, whole (.part r) = (do
      first (.register r)
      second (.part (r + 1))))
    (hwhole : ∀ d, (∀ r, d = .part r → op = .concat → False) → whole d = single line d act)
    (hact : Lowers Good act fun p home => Folded p (.binary op a b line)
      (OfBinary p home op a b (fun r => Codes p home a (.register r))
        (fun r => Codes p home b (.register r)) fun r => Codes p home b (.part r))) :
    LowersTo Good (.binary op a b line) whole := by
  intro ps st st' d u hs hd h
  by_cases hchain : op = .concat ∧ ∃ r, d = .part r
  · obtain ⟨rfl, r, rfl⟩ := hchain
    exact lowersTo_part (hpart rfl r) ha hb hs hd h
  · have hne : ∀ r, d = .part r → op = .concat → False := fun r hd hop => hchain ⟨hop, r, hd⟩
    rw [hwhole d hne] at h
    cases d with
    | register r =>
      refine (hact hs hd h).mono fun p home hp => ?_
      rw [Codes]
      · exact hp
      · exact hne
    | part r =>
      have hpos := chainLength_pos (.binary op a b line)
      have hle : r + chainLength (.binary op a b line) ≤ st.top := hd
      refine (hact hs (by omega) h).mono fun p home hp => ?_
      rw [Codes]
      · exact hp
      · exact hne
    | values count => cases hd

/-! ## The induction -/

theorem lowersTo_unary (op : UnaryOp) (line : Nat) (he : LowersTo Good e (evaluate e)) :
    LowersTo Good (.unary op e line) (evaluate (.unary op e line)) :=
  lowersTo_single rfl (fun d => by rw [evaluate] <;> rfl)
    (lowers_folded line (lowers_unary (e := e) op line he.lowers))
    fun p home d t n n' hp => by rw [Codes]; exact hp

theorem lowersTo_evaluate_binary {a b : Expr} (op : BinaryOp) (line : Nat)
    (ha : LowersTo Good a (evaluate a)) (hb : LowersTo Good b (evaluate b)) :
    LowersTo Good (.binary op a b line) (evaluate (.binary op a b line)) := by
  refine lowersTo_binary op line ha hb ?_ (fun d hd => ?_)
    (lowers_folded line (lowers_binaryAction op a b line ha.lowers hb.lowers hb.chain))
  · rintro rfl r
    rw [evaluate]
  · rw [evaluate]
    · rfl
    · exact hd

mutual

theorem lowersTo_evaluate (hgood : Closed Good) : (e : Expr) → LowersTo Good e (evaluate e)
  | .literal v line => lowersTo_literal v line
  | .str s line => lowersTo_str s line
  | .unary op e line => lowersTo_unary op line (lowersTo_evaluate hgood e)
  | .binary op a b line =>
    lowersTo_evaluate_binary op line (lowersTo_evaluate hgood a) (lowersTo_evaluate hgood b)
  | .name name line => lowersTo_name name line
  | .vararg line => lowersTo_vararg line
  | .paren e line => by
    have he := lowersTo_paren line (lowersTo_evaluate hgood e)
    have heq : (fun d => single line d fun r => evaluate e (.register r)) =
        evaluate (.paren e line) := funext fun d => by rw [evaluate]
    exact heq ▸ he
  | .call f args line => lowersTo_call line (lowersTo_evaluate hgood f) (lowersRow_items hgood args)
  | .method e name args line =>
    lowersTo_method name line (lowersTo_evaluate hgood e) (lowersRow_items hgood args)
  | .table fs line => lowersTo_table line (lowersEntries_fields hgood fs)
  | .index e k line => lowersTo_index line (lowersTo_evaluate hgood e) (lowersTo_evaluate hgood k)
  | .function f => lowersTo_function (functionSound hgood f)

theorem lowersRow_items (hgood : Closed Good) : (es : List Expr) → LowersRow Good es (items es)
  | [] => lowersRow_nil
  | e :: rest => lowersRow_cons (lowersTo_evaluate hgood e) (lowersRow_items hgood rest)

theorem lowersEntries_fields (hgood : Closed Good) :
    (fs : List Field) → LowersEntries Good fs (fields fs)
  | [] => lowersEntries_nil
  | .pair k e :: rest =>
    lowersEntries_pair (lowersTo_evaluate hgood k) (lowersTo_evaluate hgood e)
      (lowersEntries_fields hgood rest)
  | .item e :: rest =>
    lowersEntries_item (lowersTo_evaluate hgood e) (lowersEntries_fields hgood rest)

end

/-- What is left unfolded has the same shape. -/
theorem lowersTo_unfolded (hgood : Closed Good) : (e : Expr) → LowersTo Good e (unfolded e)
  | .literal v line => lowersTo_literal v line
  | .str s line => lowersTo_str s line
  | .unary op e line =>
    lowersTo_single rfl (fun d => by rw [unfolded]; rfl)
      (fun ps st st' r u hs hr h =>
        (lowers_unary op line (lowersTo_unfolded hgood e).lowers hs hr h).mono
          fun p home hp => (.inr hp : Folded p (.unary op e line) _ _ _ _ _))
      fun p home d t n n' hp => by rw [Codes]; exact hp
  | .binary op a b line => by
    have ha := lowersTo_unfolded hgood a
    have hb := lowersTo_unfolded hgood b
    refine lowersTo_binary op line ha hb ?_ (fun d hd => ?_) fun ps st st' r u hs hr h =>
      (lowers_binaryAction op a b line ha.lowers hb.lowers hb.chain hs hr h).mono
        fun p home hp => .inr hp
    · rintro rfl r
      rw [unfolded]
    · rw [unfolded]
      exact hd
  | .paren e line => lowersTo_paren line (lowersTo_unfolded hgood e)
  | .name name line => lowersTo_name name line
  | .vararg line => lowersTo_vararg line
  | .call f args line => lowersTo_evaluate hgood (.call f args line)
  | .method e name args line => lowersTo_evaluate hgood (.method e name args line)
  | .table fs line => lowersTo_evaluate hgood (.table fs line)
  | .index e k line => lowersTo_evaluate hgood (.index e k line)
  | .function f => lowersTo_evaluate hgood (.function f)

end Lowering

/-- The compiler itself writes this where no operator can be folded. -/
theorem Generator.evaluate_eq_unfolded : (e : Expr) → FoldsNothing e → ∀ d, evaluate e d = unfolded e d
  | .unary op e line, h, d => by
    rw [evaluate, unfolded, h.1]
    simp only [evaluate_eq_unfolded e h.2]
    rfl
  | .binary op a b line, h, d => by
    have ha := evaluate_eq_unfolded a h.2.1
    have hb := evaluate_eq_unfolded b h.2.2
    by_cases hchain : op = .concat ∧ ∃ r, d = .part r
    · obtain ⟨rfl, r, rfl⟩ := hchain
      rw [evaluate, unfolded, ha, hb]
    · have hne : ∀ r, d = .part r → op = .concat → False := fun r hd hop => hchain ⟨hop, r, hd⟩
      rw [evaluate, unfolded, h.1]
      · simp only [ha, hb]
        rfl
      · exact hne
      · exact hne
  | .paren e line, h, d => by
    rw [evaluate, unfolded]
    simp only [evaluate_eq_unfolded e h]
  | .literal _ _, _, _ | .str _ _, _, _ | .name _ _, _, _ | .vararg _, _, _ | .call _ _ _, _, _
  | .method _ _ _ _, _, _ | .table _ _, _, _ | .index _ _ _, _, _ | .function _, _, _ => rfl

end LuaMachine
