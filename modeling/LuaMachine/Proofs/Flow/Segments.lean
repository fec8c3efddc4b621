import LuaMachine.Proofs.Flow.Expressions
/-! # Lists of expressions, one segment after the other

The words of each expression of a list stay among themselves, up to the word behind the last of them.
Where an expression can give several values, the last of its words is the one that leaves them.

* `Prototype.Confined`: words that are only left for the word behind them.
* `Lowering.Ends`: the word that leaves the values of a call or of the arguments beyond the parameters.
* `Lowering.Lays`: the segments of a list of expressions.
* `Lowering.adjusted_lays`: those of a list with a number of values.
-/
set_option autoImplicit false

namespace LuaMachine

open Generator

/-! ## Words that stay among themselves -/

/-- The words from `n` on are left only for the word at `n'`. -/
structure Prototype.Confined (p : Prototype) (n n' : Nat) : Prop where
  le : n ≤ n'
  goes : ∀ k t, n ≤ k → k < n' → p.Goes k t → n ≤ t ∧ t ≤ n'
  stays : ∀ k, n ≤ k → k < n' → p.opcodeAt? k ≠ some .ret

/-- A word that is neither part of a loop nor closes variables, and takes no register from `level` on
for an upvalue. -/
def Prototype.Mild (p : Prototype) (level n : Nat) : Prop :=
  ∃ i op, p.chunk.code[n]? = some i ∧ i.opcode? = some op ∧
    (op ≠ .close ∧ op ≠ .ret ∧ op ≠ .forPrepare ∧ op ≠ .forLoop ∧ op ≠ .iterCall ∧ op ≠ .iterLoop) ∧
    ∀ r, p.Captures n r → r < level

namespace Generator

variable {Good : Prototype → Prop} {ps : List Nat} {st st' : State} {t n : Nat} {p : Prototype}

/-- What an expression adds to the code stays among itself. -/
theorem Step.confined (hstep : Step Good ps st st' t)
    (hwords : ∀ n, st.size ≤ n → n < st'.size →
      p.chunk.code[n]? = st'.current.proto.chunk.code[n]?) : p.Confined st.size st'.size where
  le := hstep.grows.size
  goes k t hk hlt hgoes := by
    have hword := hwords k hk hlt
    rcases hgoes with ⟨i, op, hi, hop, ht⟩ | ⟨op, hop, hjump, hret, rfl⟩
    · obtain ⟨op', hop', hplain⟩ := hstep.keeps.current.words k i hk (hword.symm.trans hi)
      cases hop.symm.trans hop'
      obtain ⟨hle, hle'⟩ := hplain.target _ ht
      exact ⟨Int.ofNat_le.mp hle, Int.ofNat_le.mp hle'⟩
    · have hop' : st'.current.proto.opcodeAt? k = some op := by
        rw [Prototype.opcodeAt?, ← hword]
        exact hop
      have hle : k + 1 ≤ st'.size := hlt
      split
      next hlist =>
        -- the argument of the last word would be behind it
        have hne : st'.size ≠ k + 1 := fun heq =>
          hstep.sound.current.settled.apart k heq (hlist ▸ hop')
        omega
      next => omega
  stays k hk hlt hret := by
    obtain ⟨i, hi, hop⟩ := Prototype.opcodeAt?_eq_some_iff.mp hret
    obtain ⟨op', hop', hplain⟩ :=
      hstep.keeps.current.words k i hk ((hwords k hk hlt).symm.trans hi)
    cases hop.symm.trans hop'
    exact hplain.plain.2.1 rfl

/-- What an expression adds to the code leaves the registers above the variables to itself. -/
theorem Step.mild (hstep : Step Good ps st st' t)
    (hwords : ∀ n, st.size ≤ n → n < st'.size →
      p.chunk.code[n]? = st'.current.proto.chunk.code[n]?)
    (hchildren : ∀ (k : Nat) (q : Prototype), st'.current.proto.children[k]? = some q →
      p.children[k]? = some q) (hn : st.size ≤ n) (hlt : n < st'.size) : p.Mild st.level n := by
  obtain ⟨i, hi⟩ := Prototype.exists_word hlt
  obtain ⟨op, hop, hplain⟩ := hstep.keeps.current.words n i hn hi
  refine ⟨i, op, (hwords n hn hlt).trans hi, hop, hplain.plain, fun r hcaptures => ?_⟩
  obtain ⟨i', q, hi', hclosure, hq, u, hu, hregister, rfl⟩ := hcaptures
  cases ((hwords n hn hlt).symm.trans hi').symm.trans hi
  cases hop.symm.trans hclosure
  obtain ⟨q', hq', hsources⟩ := hplain.closure rfl
  cases hq.symm.trans (hchildren _ q' hq')
  obtain ⟨l, hl, -, hindex⟩ := hsources u hu hregister
  rw [← hindex, ← hstep.level]
  exact hstep.sound.current.register_lt hl

end Generator

namespace Lowering

variable {Good : Prototype → Prop} {ps : List Nat} {st st' : State} {u : Unit} {line r t n n' : Nat}
  {e : Expr} {es args : List Expr} {count : Option Nat} {p : Prototype} {home : String → Home}

theorem Emits.confined {P : Prototype → (String → Home) → Prop} (h : Emits Good ps st st' t P) :
    Emits Good ps st st' t fun p home => P p home ∧ p.Confined st.size st'.size :=
  ⟨h.step, fun p home hf => ⟨h.code p home hf, h.step.confined hf.words⟩⟩

/-! ## The last word of a call -/

/-- The word of the call is the last one, and the others stay before it. -/
def EndsCall (p : Prototype) (r : Nat) (count : Option Nat) (n n' : Nat) : Prop :=
  ∃ k args, p.Confined n k ∧ p.HasWord k .call r (countOperand args) (countOperand count) ∧ n' = k + 1

/-- What can give several values ends with the word that leaves them in the registers from `r` on. -/
def Ends (p : Prototype) : Expr → Nat → Option Nat → Nat → Nat → Prop
  | .call _ _ _, r, count, n, n' | .method _ _ _ _, r, count, n, n' => EndsCall p r count n n'
  | .vararg _, r, count, n, n' => p.HasWord n .vararg r 0 (countOperand count) ∧ n' = n + 1
  | .paren e _, r, _, n, n' => Ends p e r (some 1) n n'
  | _, _, _, _, _ => True

/-- A call leaves its results where its function was. -/
theorem Finishes.ends {call : Option Nat → Gen Unit} (hcall : Finishes Good call)
    (hs : Sound Good ps st) (h : call count st = .ok u st') (hf : Fits p home st st') :
    EndsCall p st.top count st.size st'.size := by
  obtain ⟨st₁, t, line, args, hstep, hlt, hargs, hfinish⟩ := hcall hs h
  have htop := hstep.top_eq
  have hlevel := hs.level_le
  have hemits := finishCall_emits hfinish hstep.sound (by rw [hstep.level]; exact hlevel) (by omega)
    fun k hk => by
      have hk' := hargs k hk
      omega
  obtain ⟨hword, hsize⟩ := hemits.code p home (hf.since hstep.grows.size)
  exact ⟨st₁.size, args, (⟨hstep, fun _ _ _ => trivial⟩ :
    Emits Good ps st st₁ t fun _ _ => True).confined.code p home
      (hf.upTo hstep.sound hemits.step) |>.2, hword, hsize⟩

/-- A call whose value goes to the topmost register stands there. -/
theorem callTo_top {call : Option Nat → Gen Unit} (h : callTo r call st = .ok u st')
    (hs : Sound Good ps st) (htop : r + 1 = st.top) (hlevel : st.level ≤ r) :
    ∃ st₁, Step Good ps st st₁ r ∧ st₁.size = st.size ∧ call (some 1) st₁ = .ok u st' := by
  simp only [callTo, bind_ok] at h
  obtain ⟨b, st₁, hb, h⟩ := h
  simp only [isTop, bind_ok, scope_ok, pure_ok] at hb
  obtain ⟨_, _, ⟨rfl, rfl⟩, rfl, rfl⟩ := hb
  have hfree := hs.free_eq
  rw [if_pos] at h
  · obtain ⟨_, st₁, hrelease, h⟩ := bind_ok.mp h
    have hemits := emits_release hrelease hs
    exact ⟨st₁, hemits.step, release_size hrelease hs, h⟩
  · simp only [Bool.and_eq_true, decide_eq_true_eq]
    unfold FunctionScope.localsLevel
    unfold State.level at hlevel
    omega

theorem callTo_ends {call : Option Nat → Gen Unit} (h : callTo r call st = .ok u st')
    (hs : Sound Good ps st) (hcall : Finishes Good call) (htop : r + 1 = st.top)
    (hlevel : st.level ≤ r) (hf : Fits p home st st') :
    EndsCall p r (some 1) st.size st'.size := by
  obtain ⟨st₁, hstep, hsize, hok⟩ := callTo_top h hs htop hlevel
  have hends := Finishes.ends hcall hstep.sound hok (hf.since (Nat.le_of_eq hsize.symm))
  rw [hstep.top_eq, hsize] at hends
  exact hends

theorem call_finishes (hgood : Closed Good) (f : Expr) (args : List Expr) (line : Nat) :
    Finishes Good (compileCall line (fun r => evaluate f (.register r))
      (adjusted args none fun last => items args last)) :=
  compileCall_finishes (exprSound hgood f).evaluation fun _ _ _ _ hs h => by
    obtain ⟨t, hstep, hle, hcount, -⟩ := adjusted_step h hs (itemsSound hgood args)
    exact ⟨t, hstep, hle, hcount⟩

theorem method_finishes (hgood : Closed Good) (e : Expr) (name : String) (args : List Expr)
    (line : Nat) :
    Finishes Good (compileMethod line (fun r => evaluate e (.register r)) name
      (adjusted args none fun last => items args last)) :=
  compileMethod_finishes (exprSound hgood e).evaluation fun _ _ _ _ hs h => by
    obtain ⟨t, hstep, hle, hcount, -⟩ := adjusted_step h hs (itemsSound hgood args)
    exact ⟨t, hstep, hle, hcount⟩

/-- The value of an expression in the topmost register. -/
theorem ends_evaluate (hgood : Closed Good) : (e : Expr) → Sound Good ps st → r + 1 = st.top →
    st.level ≤ r → evaluate e (.register r) st = .ok u st' → Fits p home st st' →
    Ends p e r (some 1) st.size st'.size
  | .call f args line, hs, htop, hlevel, h, hf => by
    rw [evaluate, called] at h
    exact callTo_ends h hs (call_finishes hgood f args line) htop hlevel hf
  | .method e name args line, hs, htop, hlevel, h, hf => by
    rw [evaluate, called] at h
    exact callTo_ends h hs (method_finishes hgood e name args line) htop hlevel hf
  | .vararg line, hs, htop, _, h, hf => by
    rw [evaluate] at h
    have hr : r < st.top := by omega
    exact (compileVararg_emits (d := .register r) h hs hr).code p home hf
  | .paren e line, hs, htop, hlevel, h, hf => by
    rw [evaluate] at h
    exact ends_evaluate hgood e hs htop hlevel h hf
  | .literal _ _, _, _, _, _, _ | .str _ _, _, _, _, _, _ | .unary _ _ _, _, _, _, _, _
  | .binary _ _ _ _, _, _, _, _, _ | .name _ _, _, _, _, _, _ | .table _ _, _, _, _, _, _
  | .index _ _ _, _, _, _, _, _ | .function _, _, _, _, _, _ => trivial

/-- The values of an expression that can give several. -/
theorem ends_values (hgood : Closed Good) (hmultiple : e.isMultiple = true) (hs : Sound Good ps st)
    (h : evaluate e (.values count) st = .ok u st') (hf : Fits p home st st') :
    Ends p e st.top count st.size st'.size := by
  cases e with
  | call f args line =>
    rw [evaluate, called] at h
    exact Finishes.ends (call_finishes hgood f args line) hs h hf
  | method e name args line =>
    rw [evaluate, called] at h
    exact Finishes.ends (method_finishes hgood e name args line) hs h hf
  | vararg line =>
    rw [evaluate] at h
    exact (compileVararg_emits (d := .values count) h hs trivial).code p home hf
  | _ => cases hmultiple

/-! ## Lists -/

/-- The words of a list of expressions, from register `t` on. The last of the expressions gives as
many values as it is told, if it can give several, and each of the others gives one. -/
inductive Lays (p : Prototype) (home : String → Home) (last : Option Nat) :
    List Expr → Nat → Nat → Nat → Prop where
  | nil {t n : Nat} : Lays p home last [] t n n
  | last {e : Expr} {t n n' : Nat} (hmultiple : e.isMultiple = true)
      (hcodes : Codes p home e (.values last) t n n') (hconfined : p.Confined n n')
      (hends : Ends p e t last n n') : Lays p home last [e] t n n'
  | cons {e : Expr} {rest : List Expr} {t n n₁ n' : Nat}
      (hsingle : rest ≠ [] ∨ e.isMultiple = false) (hcodes : Codes p home e (.register t) (t + 1) n n₁)
      (hconfined : p.Confined n n₁) (hends : Ends p e t (some 1) n n₁)
      (hrest : Lays p home last rest (t + 1) n₁ n') : Lays p home last (e :: rest) t n n'

theorem lays_items (hgood : Closed Good) :
    (es : List Expr) → ∀ ⦃ps : List Nat⦄ ⦃st st' : State⦄ ⦃last : Option Nat⦄ ⦃u : Unit⦄,
      Sound Good ps st → items es last st = .ok u st' →
      Emits Good ps st st' (itemsTop es last st.top) fun p home =>
        Lays p home last es st.top st.size st'.size
  | [], ps, st, st', last, u, hs, h => by
    rw [items, pure_ok] at h
    obtain ⟨-, rfl⟩ := h
    exact (Emits.refl hs).mono fun _ _ _ => .nil
  | e :: rest, ps, st, st', last, u, hs, h => by
    have hitems := lowersRow_items hgood (e :: rest) hs h
    rw [items] at h
    split at h
    next hlast =>
      simp only [Bool.and_eq_true] at hlast
      obtain ⟨hempty, hmultiple⟩ := hlast
      obtain rfl : rest = [] := List.isEmpty_iff.mp hempty
      obtain ⟨_, st₁, hvalue, h⟩ := bind_ok.mp h
      rw [items, pure_ok] at h
      obtain ⟨-, rfl⟩ := h
      have hvalues := (lowersTo_evaluate hgood e hs (d := .values last) hmultiple hvalue).confined
      refine ⟨hitems.step, fun p home hf => ?_⟩
      obtain ⟨hcodes, hconfined⟩ := hvalues.code p home hf
      exact .last hmultiple hcodes hconfined (ends_values hgood hmultiple hs hvalue hf)
    next hlast =>
      obtain ⟨r, st₁, hvalue, h⟩ := bind_ok.mp h
      obtain ⟨hemits, rfl⟩ := toTemporary_emits hvalue hs (lowersTo_evaluate hgood e).lowers
      have htop := hemits.top_eq
      have hlays := lays_items hgood rest hemits.sound h
      have hends : ∀ p home, Fits p home st st₁ → Ends p e st.top (some 1) st.size st₁.size := by
        intro p home hf
        obtain ⟨r', st₂, hreserve, hvalue⟩ := bind_ok.mp hvalue
        obtain ⟨_, st₃, hvalue, hpure⟩ := bind_ok.mp hvalue
        obtain ⟨-, rfl⟩ := pure_ok.mp hpure
        obtain ⟨hemits₂, rfl⟩ := emits_reserve hreserve hs
        have hsize := reserve_size hreserve hs
        have htop₂ := hemits₂.top_eq
        have hlevel := hs.level_le
        rw [← hsize]
        exact ends_evaluate hgood e hemits₂.sound htop₂.symm (by rw [hemits₂.step.level]; exact hlevel)
          hvalue (hf.since (Nat.le_of_eq hsize.symm))
      refine ⟨hitems.step, fun p home hf => ?_⟩
      have hf₁ := hf.upTo hemits.sound hlays.step
      obtain ⟨hcodes, hconfined⟩ := hemits.confined.code p home hf₁
      have hrest := hlays.code p home (hf.since hemits.step.grows.size)
      rw [htop] at hrest
      refine .cons ?_ hcodes hconfined (hends p home hf₁) hrest
      by_contra hnot
      obtain ⟨hnil, hmultiple⟩ := not_or.mp hnot
      exact hlast (by simpa using ⟨not_not.mp hnil, eq_true_of_ne_false hmultiple⟩)

/-- The words of a list with a number of values. -/
theorem adjusted_lays {wanted : Option Nat} (hgood : Closed Good)
    (h : adjusted es wanted (fun last => items es last) st = .ok count st') (hs : Sound Good ps st)
    (hf : Fits p home st st') :
    ∃ n, Lays p home (wanted.map fun w => w - (es.length - 1)) es st.top st.size n ∧
      Pads p (st.top + es.length) (missing es wanted) n st'.size := by
  let row := fun (p : Prototype) (home : String → Home) last t n n' => Lays p home last es t n n'
  have hempty : es = [] → ∀ p home last t n, row p home last t n n := by
    rintro rfl p home last t n
    exact .nil
  obtain ⟨t, hemits, -⟩ := adjusted_emits_of h hs (lays_items hgood es) hempty
  exact hemits.code p home hf

theorem missing_eq (es : List Expr) (wanted : Option Nat) :
    missing es wanted = if endsMultiple es then 0 else wanted.getD 0 - es.length := by
  unfold missing endsMultiple
  cases hlast : es.getLast? with
  | none =>
    obtain rfl := List.getLast?_eq_none_iff.mp hlast
    rfl
  | some last => rfl

/-- A list tells its number of values unless it is open. -/
theorem adjusted_count {wanted : Option Nat} {items : Option Nat → Gen Unit}
    (h : adjusted es wanted items st = .ok count st') :
    count = wanted.or (if endsMultiple es then none else some es.length) := by
  simp only [adjusted, bind_ok, free_ok, and_assoc, exists_and_left, exists_eq_left] at h
  unfold endsMultiple
  cases hlast : es.getLast? with
  | none =>
    obtain rfl := List.getLast?_eq_none_iff.mp hlast
    simp only [hlast, bind_ok, pure_ok] at h
    obtain ⟨_, _, -, _, _, -, rfl, -⟩ := h
    cases wanted <;> rfl
  | some last =>
    cases wanted with
    | none =>
      simp only [hlast, Option.map_none, bind_ok, pure_ok] at h
      obtain ⟨_, _, -, rfl, -⟩ := h
      rfl
    | some w =>
      simp only [hlast, Option.map_some, bind_ok, pure_ok] at h
      obtain ⟨_, _, -, _, _, -, _, _, -, _, _, -, rfl, -⟩ := h
      rfl

end Lowering
end LuaMachine
