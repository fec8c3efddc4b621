import LuaMachine.Proofs.Lowering.Shapes
/-! # Expressions are tidy

The code of an expression writes no register below its first temporary one. An instruction that goes
on with an open list of values stands right behind the one that leaves the list, and no jump goes in
between.

* `Opcode.opens?`, `takes?`, `lowest?`: open lists, and the lowest register that is written.
* `Prototype.OpensAt`, `Prototype.Calm`: words behind which a list is open, and all others.
* `Prototype.Tidy`: what is known of the words of an expression.
* `Lowering.tidy_codes`, `tidy_row`, `tidy_entries`: the induction over trees.
-/
set_option autoImplicit false

namespace LuaMachine

/-! ## Open lists and registers that are written -/

namespace Opcode

/-- The first register of the open list that an instruction leaves. -/
def opens? (op : Opcode) (a c : Nat) : Option Nat :=
  match op with
  | .call | .vararg => if c = 0 then some a else none
  | _ => none

/-- The first register of the open list that an instruction goes on with. -/
def takes? (op : Opcode) (a b : Nat) : Option Nat :=
  match op with
  | .ret => if b = 0 then some a else none
  | .call | .setList => if b = 0 then some (a + 1) else none
  | _ => none

/-- The lowest register that an instruction of an expression or an assignment writes. -/
def lowest? (op : Opcode) (a : Nat) : Option Nat :=
  match op with
  | .setUpvalue | .setGlobal | .setTable | .setField | .setList => none
  | .jump | .test | .ret | .close | .extra => none
  | .forPrepare | .forLoop | .iterCall | .iterLoop => none
  | _ => some a

end Opcode

/-- An operation that writes, leaves or goes on with nothing. -/
theorem Opcode.of_none {o : Option Nat} {P : Nat → Prop} (h : o = none) (r : Nat) (hr : o = some r) :
    P r := by
  cases h.symm.trans hr

namespace Prototype

/-- The word leaves an open list of values from this register on. -/
def OpensAt (p : Prototype) (n s : Nat) : Prop :=
  ∃ i op, p.chunk.code[n]? = some i ∧ i.opcode? = some op ∧ op.opens? i.a i.c = some s

/-- No list is open behind the word in front of the position. -/
def Calm (p : Prototype) (n : Nat) : Prop := ∀ k s, n = k + 1 → ¬ p.OpensAt k s

/-- The last word leaves an open list of values from this register on or above it. -/
def Opened (p : Prototype) (t n n' : Nat) : Prop :=
  ∃ k s, n ≤ k ∧ n' = k + 1 ∧ t ≤ s ∧ p.OpensAt k s

/-- A word that writes no register below `low`; if it goes on with an open list, then the list is
left by the word in front of it, which is not in front of `first`. -/
structure TidyWord (p : Prototype) (low first n : Nat) (i : Instruction) (op : Opcode) : Prop where
  writes : ∀ r, op.lowest? i.a = some r → low ≤ r
  takes : ∀ s, op.takes? i.a i.b = some s → p.Opened s first n
  turns : ∀ t : Nat, (t : Int) ∈ i.targets n op → p.Calm t

structure Tidy (p : Prototype) (low n n' : Nat) : Prop where
  le : n ≤ n'
  words : ∀ m, n ≤ m → m < n' → ∃ i op, p.chunk.code[m]? = some i ∧ i.opcode? = some op ∧
    p.TidyWord low n m i op

variable {p : Prototype} {low low' first first' n n' k t a b c r s s' x : Nat} {i : Instruction}
  {op : Opcode}

theorem Opened.mono (h : p.Opened s first n) (hs : s' ≤ s) (hfirst : first' ≤ first) :
    p.Opened s' first' n := by
  obtain ⟨k, s₁, hk, hn, hle, hopens⟩ := h
  exact ⟨k, s₁, Nat.le_trans hfirst hk, hn, Nat.le_trans hs hle, hopens⟩

theorem TidyWord.mono (h : p.TidyWord low first n i op) (hlow : low' ≤ low)
    (hfirst : first' ≤ first) : p.TidyWord low' first' n i op where
  writes r hr := Nat.le_trans hlow (h.writes r hr)
  takes s hs := (h.takes s hs).mono (Nat.le_refl s) hfirst
  turns := h.turns

namespace Tidy

theorem nil (p : Prototype) (low n : Nat) : p.Tidy low n n :=
  ⟨Nat.le_refl n, fun _ hm hlt => absurd hlt (Nat.not_lt.mpr hm)⟩

theorem append (h : p.Tidy low n k) (h' : p.Tidy low k n') : p.Tidy low n n' where
  le := Nat.le_trans h.le h'.le
  words m hm hlt := by
    rcases Nat.lt_or_ge m k with hk | hk
    · exact h.words m hm hk
    · obtain ⟨i, op, hi, hop, hw⟩ := h'.words m hk hlt
      exact ⟨i, op, hi, hop, hw.mono (Nat.le_refl low) h.le⟩

theorem mono (h : p.Tidy low n n') (hlow : low' ≤ low) : p.Tidy low' n n' where
  le := h.le
  words m hm hlt := by
    obtain ⟨i, op, hi, hop, hw⟩ := h.words m hm hlt
    exact ⟨i, op, hi, hop, hw.mono hlow (Nat.le_refl n)⟩

/-- One more word. -/
theorem push (h : p.Tidy low n k) (hi : p.chunk.code[k]? = some i) (hop : i.opcode? = some op)
    (hw : p.TidyWord low n k i op) : p.Tidy low n (k + 1) where
  le := Nat.le_succ_of_le h.le
  words m hm hlt := by
    rcases Nat.lt_succ_iff_lt_or_eq.mp hlt with hk | rfl
    · exact h.words m hm hk
    · exact ⟨i, op, hi, hop, hw⟩

end Tidy

/-- How the words end: with an open list from some register on, or with no list that is open. -/
def Ending (p : Prototype) (list : Option Nat) (n n' : Nat) : Prop :=
  match list with
  | some t => p.Opened t n n'
  | none => n < n' → p.Calm n'

/-- Tidy words with their ending. -/
structure Tidied (p : Prototype) (low : Nat) (list : Option Nat) (n n' : Nat) : Prop where
  tidy : p.Tidy low n n'
  ending : p.Ending list n n'

theorem calm_of_word (hi : p.chunk.code[n]? = some i) (hop : i.opcode? = some op)
    (hopens : op.opens? i.a i.c = none) : p.Calm (n + 1) := by
  rintro k s hk ⟨i', op', hi', hop', hopens'⟩
  obtain rfl : n = k := Nat.succ.inj hk
  cases hi.symm.trans hi'
  cases hop.symm.trans hop'
  cases hopens.symm.trans hopens'

namespace Tidied

theorem nil (p : Prototype) (low n : Nat) : p.Tidied low none n n :=
  ⟨.nil p low n, fun h => absurd h (Nat.lt_irrefl n)⟩

theorem append {list : Option Nat} (h : p.Tidied low none n k) (h' : p.Tidied low list k n') :
    p.Tidied low list n n' where
  tidy := h.tidy.append h'.tidy
  ending := by
    have hending := h'.ending
    cases list with
    | some t => exact Opened.mono hending (Nat.le_refl t) h.tidy.le
    | none =>
      intro hlt
      rcases Nat.lt_or_eq_of_le h'.tidy.le with hk | rfl
      · exact hending hk
      · exact h.ending hlt

theorem mono {list : Option Nat} (h : p.Tidied low list n n') (hlow : low' ≤ low) :
    p.Tidied low' list n n' :=
  ⟨h.tidy.mono hlow, h.ending⟩

end Tidied

/-! ## Single words -/

/-- A word that stands on its own behind tidy words. -/
theorem Tidy.word (h : p.Tidy low n k) (hi : p.chunk.code[k]? = some i) (hop : i.opcode? = some op)
    (hwrites : ∀ r, op.lowest? i.a = some r → low ≤ r) (htakes : op.takes? i.a i.b = none)
    (htargets : i.targets k op = []) (hopens : op.opens? i.a i.c = none) :
    p.Tidied low none n (k + 1) := by
  refine ⟨h.push hi hop ⟨hwrites, fun s hs => ?_, fun t ht => ?_⟩,
    fun _ => calm_of_word hi hop hopens⟩
  · cases htakes.symm.trans hs
  · rw [htargets] at ht
    cases ht

theorem Tidy.hasWord (h : p.Tidy low n k) (hword : p.HasWord k op a b c)
    (hwrites : ∀ r, op.lowest? a = some r → low ≤ r) (htakes : op.takes? a b = none)
    (htargets : ∀ i : Instruction, i.targets k op = []) (hopens : op.opens? a c = none) :
    p.Tidied low none n (k + 1) := by
  obtain ⟨i, hi, hop, rfl, rfl, rfl⟩ := hword
  exact h.word hi hop hwrites htakes (htargets i) hopens

theorem Tidy.hasWide (h : p.Tidy low n k) (hword : p.HasWide k op a x)
    (hop : op = .loadConstant ∨ op = .closure) (hlow : low ≤ a) : p.Tidied low none n (k + 1) := by
  obtain ⟨i, hi, hopcode, rfl, -⟩ := hword
  rcases hop with rfl | rfl <;>
    exact h.word hi hopcode (fun r hr => Option.some.inj hr ▸ hlow) rfl rfl rfl

theorem Tidy.loads {kst : Constant} (h : p.Tidy low n k) (hword : p.Loads k r kst)
    (hlow : low ≤ r) : p.Tidied low none n (k + 1) := by
  have hwrites : ∀ r', some r = some r' → low ≤ r' := fun _ hr => Option.some.inj hr ▸ hlow
  unfold Loads at hword
  split at hword
  · exact h.hasWord hword hwrites rfl (fun _ => rfl) rfl
  · exact h.hasWord hword hwrites rfl (fun _ => rfl) rfl
  · obtain ⟨x, hword, -⟩ := hword
    exact h.hasWide hword (.inl rfl) hlow

/-- A word that names registers only and leaves its value in the first of them. -/
theorem Tidy.operates (h : p.Tidy low n k) (hword : p.HasWord k op a b c)
    (hop : op.lowest? a = some a ∧ op.takes? a b = none ∧ op.opens? a c = none)
    (htargets : ∀ i : Instruction, i.targets k op = []) (hlow : low ≤ a) :
    p.Tidied low none n (k + 1) :=
  h.hasWord hword (fun _ hr => Option.some.inj (hop.1.symm.trans hr) ▸ hlow) hop.2.1 htargets hop.2.2

end Prototype

/-! ## Expressions -/

namespace Generator

/-- The destination is not below a register. -/
def Destination.From (d : Destination) (low : Nat) : Prop :=
  match d with
  | .register r | .part r => low ≤ r
  | .values _ => True

/-- The open list that a destination asks for, above the registers in use. -/
def Destination.list? (d : Destination) (t : Nat) : Option Nat :=
  match d with
  | .values none => some t
  | _ => none

end Generator

namespace Lowering

open Generator

/-- The last expression of the list can give any number of values. -/
def endsMultiple (es : List Expr) : Bool := es.getLast?.any Expr.isMultiple

/-- The open list that a row of expressions leaves. -/
def rowList? (es : List Expr) (last : Option Nat) (t : Nat) : Option Nat :=
  if last = none ∧ endsMultiple es = true then some t else none

variable {p : Prototype} {home : String → Home} {low r t t' n n' k o x y : Nat} {e a b : Expr}
  {part first second rest : Part} {d : Destination}

/-- The words of a part are tidy, wherever it puts its value. -/
def TidyPart (p : Prototype) (low : Nat) (part : Part) : Prop :=
  ∀ ⦃r t n n' : Nat⦄, part r t n n' → low ≤ r → low ≤ t → p.Tidied low none n n'

theorem tidy_operand (h : Operand home e part o t t' n n') (hpart : TidyPart p low part)
    (hlow : low ≤ t) : p.Tidied low none n n' ∧ low ≤ t' := by
  rcases h with ⟨-, -, -, -, rfl, rfl⟩ | ⟨-, rfl, hcode⟩
  · exact ⟨.nil p low n', hlow⟩
  · exact ⟨hpart hcode hlow (Nat.le_succ_of_le hlow), Nat.le_succ_of_le hlow⟩

theorem tidyPart_global (name : String) : TidyPart p low (ReadsGlobal p home name) := by
  intro r t n n' h hr ht
  unfold ReadsGlobal at h
  split at h
  · rcases h with ⟨k, -, hword, rfl⟩ | ⟨hloads, hword, rfl⟩
    · exact (Prototype.Tidy.nil p low n).operates hword ⟨rfl, rfl, rfl⟩ (fun _ => rfl) hr
    · exact ((Prototype.Tidy.nil p low n).loads hloads ht).tidy.operates hword ⟨rfl, rfl, rfl⟩
        (fun _ => rfl) hr
  · rcases h with ⟨k, -, hword, rfl⟩ | ⟨hget, hloads, hword, rfl⟩
    · exact (Prototype.Tidy.nil p low n).operates hword ⟨rfl, rfl, rfl⟩ (fun _ => rfl) hr
    · have h₁ := (Prototype.Tidy.nil p low n).operates hget ⟨rfl, rfl, rfl⟩ (fun _ => rfl) ht
      have h₂ := h₁.tidy.loads hloads (Nat.le_succ_of_le ht)
      exact h₂.tidy.operates hword ⟨rfl, rfl, rfl⟩ (fun _ => rfl) hr
  · exact h.elim

theorem tidyPart_name (name : String) : TidyPart p low (ReadsName p home name) := by
  intro r t n n' h hr ht
  unfold ReadsName at h
  split at h
  · split at h
    · exact h ▸ .nil p low n
    · obtain ⟨hword, rfl⟩ := h
      exact (Prototype.Tidy.nil p low n).operates hword ⟨rfl, rfl, rfl⟩ (fun _ => rfl) hr
  · obtain ⟨hword, rfl⟩ := h
    exact (Prototype.Tidy.nil p low n).operates hword ⟨rfl, rfl, rfl⟩ (fun _ => rfl) hr
  · exact tidyPart_global name h hr ht

theorem tidy_operates {op : BinaryOp} (h : Operates p op r x y k n') (hr : low ≤ r)
    (hbefore : p.Tidy low n k) : p.Tidied low none n n' := by
  cases op with
  | and | or | concat => exact h.elim
  | ne =>
    obtain ⟨hequal, hnot, rfl⟩ := h
    exact (hbefore.operates hequal ⟨rfl, rfl, rfl⟩ (fun _ => rfl) hr).tidy.operates hnot
      ⟨rfl, rfl, rfl⟩ (fun _ => rfl) hr
  | _ =>
    obtain ⟨hword, rfl⟩ := h
    exact hbefore.operates hword ⟨rfl, rfl, rfl⟩ (fun _ => rfl) hr

theorem tidyPart_unary (op : UnaryOp) (hpart : TidyPart p low part) :
    TidyPart p low (OfUnary p home op e part) := by
  rintro r t n n' ⟨o, t', n₁, hoperand, hword, rfl⟩ hr ht
  refine (tidy_operand hoperand hpart ht).1.tidy.operates hword ?_ ?_ hr <;> cases op <;>
    first | exact ⟨rfl, rfl, rfl⟩ | exact fun _ => rfl

/-- The jump over the second operand goes behind a word of that operand. -/
theorem tidyPart_shortCircuit (op : BinaryOp) (hfirst : TidyPart p low first)
    (hsecond : TidyPart p low second) : TidyPart p low (OfShortCircuit p op first second) := by
  rintro r t n n' ⟨n₁, hcode, ⟨i, hi, hop, -, -, -⟩, ⟨j, hj, hjump, htarget⟩, hcode'⟩ hr ht
  have h₁ := hfirst hcode hr ht
  have h₂ := hsecond hcode' hr ht
  have hcalm : p.Calm (n₁ + 2) := Prototype.calm_of_word hj hjump rfl
  have hend : p.Calm n' := by
    rcases Nat.lt_or_eq_of_le h₂.tidy.le with hlt | rfl
    · exact h₂.ending hlt
    · exact hcalm
  have htest : p.Tidy low n (n₁ + 1) := h₁.tidy.push hi hop
    ⟨Opcode.of_none rfl, Opcode.of_none rfl, fun t' ht' => by
    simp only [Instruction.targets, List.mem_singleton] at ht'
    obtain rfl : t' = n₁ + 2 := by omega
    exact hcalm⟩
  have hskip : p.Tidy low n (n₁ + 2) := htest.push hj hjump
    ⟨Opcode.of_none rfl, Opcode.of_none rfl, fun t' ht' => by
    simp only [Instruction.targets, List.mem_singleton] at ht'
    obtain rfl : t' = n' := by omega
    exact hend⟩
  exact ⟨hskip.append h₂.tidy, fun _ => hend⟩

theorem tidyPart_operator (op : BinaryOp) (hfirst : TidyPart p low first)
    (hsecond : TidyPart p low second) :
    TidyPart p low (OfOperator p home op a b first second) := by
  rintro r t n n' ⟨x, y, t₁, t₂, n₁, n₂, hx, hy, hoperates⟩ hr ht
  obtain ⟨h₁, ht₁⟩ := tidy_operand hx hfirst ht
  obtain ⟨h₂, -⟩ := tidy_operand hy hsecond ht₁
  exact tidy_operates hoperates hr (h₁.append h₂).tidy

theorem tidyPart_chain (count : Nat) (hfirst : TidyPart p low first)
    (hrest : TidyPart p low rest) : TidyPart p low (OfChain p count first rest) := by
  rintro r t n n' ⟨n₁, n₂, hcode, hcode', hword, rfl⟩ hr ht
  have h₁ := hfirst hcode ht (Nat.le_add_right_of_le ht)
  have h₂ := hrest hcode' (Nat.le_succ_of_le ht) (Nat.le_add_right_of_le ht)
  exact (h₁.append h₂).tidy.operates hword ⟨rfl, rfl, rfl⟩ (fun _ => rfl) hr

theorem tidyPart_binary (op : BinaryOp) (hfirst : TidyPart p low first)
    (hsecond : TidyPart p low second) (hrest : TidyPart p low rest) :
    TidyPart p low (OfBinary p home op a b first second rest) := by
  intro r t n n' h hr ht
  unfold OfBinary at h
  split at h
  · exact tidyPart_shortCircuit _ hfirst hsecond h hr ht
  · exact tidyPart_shortCircuit _ hfirst hsecond h hr ht
  · exact tidyPart_chain _ hfirst hrest h hr ht
  · exact tidyPart_operator _ hfirst hsecond h hr ht

theorem tidyPart_folded (hpart : TidyPart p low part) : TidyPart p low (Folded p e part) := by
  rintro r t n n' (⟨k, -, hloads, rfl⟩ | h) hr ht
  · exact (Prototype.Tidy.nil p low n).loads hloads hr
  · exact hpart h hr ht

theorem tidyPart_index (hfirst : TidyPart p low first) (hsecond : TidyPart p low second) :
    TidyPart p low (OfIndex p home a b first second) := by
  rintro r t n n' ⟨x, t₁, n₁, hobject, hkey⟩ hr ht
  obtain ⟨h₁, ht₁⟩ := tidy_operand hobject hfirst ht
  rcases hkey with ⟨name, line, c, -, -, hword, rfl⟩ | ⟨y, t₂, n₂, hkey, hword, rfl⟩
  · exact h₁.tidy.operates hword ⟨rfl, rfl, rfl⟩ (fun _ => rfl) hr
  · exact (h₁.append (tidy_operand hkey hsecond ht₁).1).tidy.operates hword ⟨rfl, rfl, rfl⟩
      (fun _ => rfl) hr

/-! ## Calls -/

theorem endsMultiple_of_countOperand {args : List Expr} {before : Nat}
    (h : countOperand (argumentCount args before) = 0) : endsMultiple args = true := by
  unfold argumentCount at h
  unfold endsMultiple
  split at h
  next last hlast =>
    split at h
    next hmultiple => simpa [hlast] using hmultiple
    next => cases h
  next => cases h

/-- The row of the arguments is tidy, and open if the call takes an open list. -/
def TidyRow (p : Prototype) (low : Nat) (args : List Expr) (row : Nat → Nat → Nat → Prop) : Prop :=
  ∀ ⦃t n n' : Nat⦄, row t n n' → low ≤ t → p.Tidied low (rowList? args none t) n n'

/-- The words of a call end with it. -/
theorem tidy_callWord {args : List Expr} {before base s : Nat} {results : Option Nat}
    (hbefore : p.Tidied low none n k) (hrow : p.Tidied low (rowList? args none s) k n')
    (hword : p.HasWord n' .call base (countOperand (argumentCount args before))
      (countOperand results)) (hbase : low ≤ base) (hs : base + 1 ≤ s) :
    p.Tidied low (if results = none then some base else none) n (n' + 1) := by
  obtain ⟨i, hi, hop, ha, hb, hc⟩ := hword
  have htidy := hbefore.tidy.append hrow.tidy
  refine ⟨htidy.push hi hop ⟨fun r hr => ?_, fun t ht => ?_, nofun⟩, ?_⟩
  · rw [ha] at hr
    exact Option.some.inj hr ▸ hbase
  · -- the arguments are an open list only if the last of them can give any number of values
    rw [ha, hb, Opcode.takes?] at ht
    split at ht
    next hzero =>
      cases ht
      have hending := hrow.ending
      rw [rowList?, if_pos ⟨rfl, endsMultiple_of_countOperand hzero⟩] at hending
      exact Prototype.Opened.mono hending hs hbefore.tidy.le
    next => cases ht
  · cases results with
    | none =>
      exact ⟨n', base, htidy.le, rfl, Nat.le_refl base, i, .call, hi, hop, by
        rw [ha, hc]; rfl⟩
    | some count =>
      exact fun _ => Prototype.calm_of_word hi hop (by rw [ha, hc]; rfl)

/-- The words of a call are tidy, and leave an open list if all results are wanted. -/
def TidyCalling (p : Prototype) (low : Nat) (call : Calling) : Prop :=
  ∀ ⦃results base n n'⦄, call results base n n' → low ≤ base →
    p.Tidied low (if results = none then some base else none) n n'

theorem tidyCalling_call {args : List Expr} {row : Nat → Nat → Nat → Prop}
    (hfirst : TidyPart p low first) (hrow : TidyRow p low args row) :
    TidyCalling p low (OfCall p args first row) := by
  rintro results base n n' ⟨n₁, n₂, hcallee, hargs, hword, rfl⟩ hbase
  exact tidy_callWord (hfirst hcallee hbase (Nat.le_succ_of_le hbase))
    (hrow hargs (Nat.le_succ_of_le hbase)) hword hbase (Nat.le_refl _)

theorem tidyCalling_method {name : String} {args : List Expr} {row : Nat → Nat → Nat → Prop}
    (hfirst : TidyPart p low first) (hrow : TidyRow p low args row) :
    TidyCalling p low (OfMethod p name args first row) := by
  rintro results base n n' ⟨n₁, n₂, x, hobject, hkey, -, hself, hargs, hword, rfl⟩ hbase
  have h₁ := hfirst hobject hbase (Nat.le_succ_of_le hbase)
  have h₂ := h₁.tidy.hasWide hkey (.inl rfl) (Nat.le_add_right_of_le hbase)
  have h₃ := h₂.tidy.operates hself ⟨rfl, rfl, rfl⟩ (fun _ => rfl) hbase
  exact tidy_callWord h₃ (hrow hargs (Nat.le_add_right_of_le hbase)) hword hbase (Nat.le_succ _)

theorem tidy_called {call : Calling} (hcall : TidyCalling p low call)
    (h : OfCalled p call d t n n') (hd : d.From low) (ht : low ≤ t) :
    p.Tidied low (d.list? t) n n' := by
  have hone : ∀ r, low ≤ r → (r + 1 = t ∧ call (some 1) r n n' ∨
      ∃ n₁, call (some 1) t n n₁ ∧ p.HasWord n₁ .move r t 0 ∧ n' = n₁ + 1) →
      p.Tidied low none n n' := by
    rintro r hr (⟨-, hcode⟩ | ⟨n₁, hcode, hword, rfl⟩)
    · exact hcall hcode hr
    · exact (hcall hcode ht).tidy.operates hword ⟨rfl, rfl, rfl⟩ (fun _ => rfl) hr
  cases d with
  | register r => exact hone r hd h
  | part r => exact hone r hd h
  | values count =>
    have hvalues := hcall h ht
    cases count <;> exact hvalues

theorem tidy_vararg (h : OfVararg p d t n n') (hd : d.From low) (ht : low ≤ t) :
    p.Tidied low (d.list? t) n n' := by
  have hnil := Prototype.Tidy.nil p low n
  cases d with
  | register r =>
    obtain ⟨hword, rfl⟩ := h
    exact hnil.operates hword ⟨rfl, rfl, rfl⟩ (fun _ => rfl) hd
  | part r =>
    obtain ⟨hword, rfl⟩ := h
    exact hnil.operates hword ⟨rfl, rfl, rfl⟩ (fun _ => rfl) hd
  | values count =>
    obtain ⟨hword, rfl⟩ := h
    cases count with
    | some count => exact hnil.operates hword ⟨rfl, rfl, rfl⟩ (fun _ => rfl) ht
    | none =>
      obtain ⟨i, hi, hop, ha, hb, hc⟩ := hword
      refine ⟨hnil.push hi hop ⟨fun r hr => ?_, nofun, nofun⟩,
        n, t, Nat.le_refl n, rfl, Nat.le_refl t, i, .vararg, hi, hop, by rw [ha, hc]; rfl⟩
      rw [ha] at hr
      exact Option.some.inj hr ▸ ht

/-! ## Tables -/

/-- The words that store items take the open list if their number is open. -/
theorem tidy_stores {table count stored : Nat} (h : Stores p table count stored k n')
    (hbefore : p.Tidy low n k) (hopen : count = 0 → p.Opened (table + 1) n k) :
    p.Tidied low none n n' := by
  obtain ⟨⟨i, hi, hop, ha, hb, -⟩, ⟨j, hj, hextra, -⟩, rfl⟩ := h
  have htakes : ∀ s, Opcode.setList.takes? i.a i.b = some s → p.Opened s n k := by
    intro s hs
    rw [ha, hb, Opcode.takes?] at hs
    split at hs
    next hzero =>
      cases hs
      exact hopen hzero
    next => cases hs
  have hlist : p.Tidy low n (k + 1) := hbefore.push hi hop ⟨nofun, htakes, nofun⟩
  exact hlist.word hj hextra nofun rfl rfl rfl

/-! ## The induction over trees -/

theorem tidy_inOne (hpart : TidyPart p low part) (h : InOne part d t n n') (hd : d.From low)
    (ht : low ≤ t) : p.Tidied low (d.list? t) n n' := by
  cases d with
  | register r => exact hpart h hd ht
  | part r => exact hpart h hd ht
  | values count => exact h.elim

theorem tidyPart_loads (c : Constant) :
    TidyPart p low fun r _ n n' => p.Loads n r c ∧ n' = n + 1 := by
  rintro r t n n' ⟨hloads, rfl⟩ hr -
  exact (Prototype.Tidy.nil p low n).loads hloads hr

theorem endsMultiple_cons (e : Expr) (rest : List Expr) :
    endsMultiple (e :: rest) = if rest.isEmpty then e.isMultiple else endsMultiple rest := by
  cases rest with
  | nil => rfl
  | cons e' rest => simp [endsMultiple, List.getLast?_cons]

mutual

theorem tidy_codes (p : Prototype) (home : String → Home) (low : Nat) :
    (e : Expr) → ∀ {d : Destination} {t n n' : Nat}, Codes p home e d t n n' → d.From low →
      low ≤ t → p.Tidied low (d.list? t) n n'
  | .literal v _, d, t, n, n', h, hd, ht => by
    rw [Codes] at h
    exact tidy_inOne (tidyPart_loads v.constant) h hd ht
  | .str s _, d, t, n, n', h, hd, ht => by
    rw [Codes] at h
    exact tidy_inOne (tidyPart_loads (.str s)) h hd ht
  | .unary op e _, d, t, n, n', h, hd, ht => by
    rw [Codes] at h
    exact tidy_inOne (tidyPart_folded (tidyPart_unary op (tidyPart_codes p home low e))) h hd ht
  | .binary op a b _, d, t, n, n', h, hd, ht => by
    by_cases hchain : op = .concat ∧ ∃ r, d = .part r
    · obtain ⟨rfl, r, rfl⟩ := hchain
      rw [Codes] at h
      obtain ⟨n₁, hfirst, hrest⟩ := h
      have h₂ := tidy_codes p home low b (d := .part (r + 1)) hrest (Nat.le_succ_of_le hd) ht
      exact (tidy_codes p home low a hfirst hd ht).append h₂
    · rw [Codes] at h
      · refine tidy_inOne (tidyPart_folded (tidyPart_binary op (tidyPart_codes p home low a)
          (tidyPart_codes p home low b) fun r t n n' hcode hr ht => ?_)) h hd ht
        exact tidy_codes p home low b (d := .part r) hcode hr ht
      · exact fun r hd hop => hchain ⟨hop, r, hd⟩
  | .name name _, d, t, n, n', h, hd, ht => by
    rw [Codes] at h
    exact tidy_inOne (tidyPart_name name) h hd ht
  | .vararg _, d, t, n, n', h, hd, ht => by
    rw [Codes] at h
    exact tidy_vararg h hd ht
  | .paren e _, d, t, n, n', h, hd, ht => by
    rw [Codes] at h
    exact tidy_inOne (tidyPart_codes p home low e) h hd ht
  | .call f args _, d, t, n, n', h, hd, ht => by
    rw [Codes] at h
    exact tidy_called (tidyCalling_call (tidyPart_codes p home low f)
      (fun _ _ _ hrow hlow => tidy_row p home low args hrow hlow)) h hd ht
  | .method e name args _, d, t, n, n', h, hd, ht => by
    rw [Codes] at h
    exact tidy_called (tidyCalling_method (tidyPart_codes p home low e)
      (fun _ _ _ hrow hlow => tidy_row p home low args hrow hlow)) h hd ht
  | .table fs _, d, t, n, n', h, hd, ht => by
    rw [Codes] at h
    refine tidy_inOne ?_ h hd ht
    rintro r t n n' (⟨-, hnew, hentries⟩ | ⟨n₁, hnew, hentries, hmove, rfl⟩) hr ht
    · have h₁ := (Prototype.Tidy.nil p low n).operates hnew ⟨rfl, rfl, rfl⟩ (fun _ => rfl) hr
      exact h₁.append (tidy_entries p home low fs hentries hr)
    · have h₁ := (Prototype.Tidy.nil p low n).operates hnew ⟨rfl, rfl, rfl⟩ (fun _ => rfl) ht
      exact (h₁.append (tidy_entries p home low fs hentries ht)).tidy.operates hmove
        ⟨rfl, rfl, rfl⟩ (fun _ => rfl) hr
  | .index e k _, d, t, n, n', h, hd, ht => by
    rw [Codes] at h
    exact tidy_inOne (tidyPart_index (tidyPart_codes p home low e) (tidyPart_codes p home low k)) h
      hd ht
  | .function _, d, t, n, n', h, hd, ht => by
    rw [Codes] at h
    refine tidy_inOne ?_ h hd ht
    rintro r t n n' ⟨⟨x, hword⟩, rfl⟩ hr -
    exact (Prototype.Tidy.nil p low n).hasWide hword (.inr rfl) hr

theorem tidyPart_codes (p : Prototype) (home : String → Home) (low : Nat) (e : Expr) :
    TidyPart p low fun r => Codes p home e (.register r) :=
  fun _ _ _ _ h hr ht => tidy_codes p home low e h hr ht

theorem tidy_row (p : Prototype) (home : String → Home) (low : Nat) :
    (es : List Expr) → ∀ {last : Option Nat} {t n n' : Nat}, Row p home es last t n n' → low ≤ t →
      p.Tidied low (rowList? es last t) n n'
  | [], last, t, n, n', h, _ => by
    rw [Row] at h
    subst h
    have hnone : rowList? [] last t = none := if_neg fun h => Bool.false_ne_true h.2
    exact hnone ▸ .nil p low _
  | e :: rest, last, t, n, n', h, ht => by
    rw [Row] at h
    rw [rowList?, endsMultiple_cons]
    split at h
    next hlast =>
      obtain ⟨hempty, hmultiple⟩ := Bool.and_eq_true_iff.mp hlast
      have hcodes := tidy_codes p home low e h trivial ht
      rw [hempty, if_pos rfl, hmultiple]
      cases last <;> exact hcodes
    next hlast =>
      obtain ⟨n₁, hfirst, hrest⟩ := h
      have h₁ := tidy_codes p home low e hfirst ht (Nat.le_succ_of_le ht)
      have h₂ := tidy_row p home low rest hrest (Nat.le_succ_of_le ht)
      cases hempty : rest.isEmpty with
      | true =>
        obtain rfl := List.isEmpty_iff.mp hempty
        have hsingle : e.isMultiple = false := by simpa using hlast
        rw [if_pos rfl, hsingle, if_neg fun h => Bool.false_ne_true h.2]
        rw [Row] at hrest
        exact hrest ▸ h₁
      | false =>
        rw [if_neg Bool.false_ne_true]
        refine ⟨h₁.tidy.append h₂.tidy, ?_⟩
        have hending := (h₁.append h₂).ending
        rw [rowList?] at hending
        split at hending
        next hopen =>
          rw [if_pos hopen]
          exact Prototype.Opened.mono hending (Nat.le_succ t) (Nat.le_refl n)
        next hclosed =>
          rw [if_neg hclosed]
          exact hending

theorem tidy_entries (p : Prototype) (home : String → Home) (low : Nat) :
    (fs : List Field) → ∀ {table pending stored n n' : Nat},
      Entries p home fs table pending stored n n' → low ≤ table → p.Tidied low none n n'
  | [], table, pending, stored, n, n', h, ht => by
    rw [Entries] at h
    split at h
    next hpending => exact tidy_stores h (.nil p low n) fun hzero => by omega
    next => exact h ▸ .nil p low n
  | .pair k e :: rest, table, pending, stored, n, n', h, ht => by
    rw [Entries] at h
    have hlow : low ≤ table + 1 + pending := by omega
    rcases h with ⟨name, line, c, v, t', n₁, -, -, hvalue, hword, hrest⟩ |
      ⟨y, v, t₁, t₂, n₁, n₂, hkey, hvalue, hword, hrest⟩
    · have h₁ := (tidy_operand hvalue (tidyPart_codes p home low e) hlow).1
      exact (h₁.tidy.hasWord hword nofun rfl (fun _ => rfl) rfl).append
        (tidy_entries p home low rest hrest ht)
    · obtain ⟨h₁, ht₁⟩ := tidy_operand hkey (tidyPart_codes p home low k) hlow
      obtain ⟨h₂, -⟩ := tidy_operand hvalue (tidyPart_codes p home low e) ht₁
      exact ((h₁.append h₂).tidy.hasWord hword nofun rfl (fun _ => rfl) rfl).append
        (tidy_entries p home low rest hrest ht)
  | .item e :: rest, table, pending, stored, n, n', h, ht => by
    rw [Entries] at h
    have hlow : low ≤ table + 1 + pending := by omega
    split at h
    · obtain ⟨n₁, hcode, hstores⟩ := h
      have h₁ := tidy_codes p home low e hcode trivial hlow
      refine tidy_stores hstores h₁.tidy fun _ => ?_
      exact Prototype.Opened.mono h₁.ending (Nat.le_add_right _ pending) (Nat.le_refl n)
    · obtain ⟨n₁, hcode, hmore⟩ := h
      have h₁ := tidy_codes p home low e hcode hlow (Nat.le_succ_of_le hlow)
      split at hmore
      · obtain ⟨hstores, hrest⟩ := hmore
        exact (tidy_stores hstores h₁.tidy fun hzero => by omega).append
          (tidy_entries p home low rest hrest ht)
      · exact h₁.append (tidy_entries p home low rest hmore ht)

end

/-- The words of an adjusted list are tidy. -/
theorem tidy_adjusted {es : List Expr} {wanted : Option Nat}
    (h : Adjusted p home es wanted t n n') (ht : low ≤ t) :
    p.Tidied low (rowList? es wanted t) n n' := by
  obtain ⟨n₁, hrow, hpads⟩ := h
  have h₁ := tidy_row p home low es hrow ht
  unfold Pads at hpads
  split at hpads
  next hmissing =>
    obtain ⟨hword, rfl⟩ := hpads
    have h₂ := h₁.tidy.operates hword ⟨rfl, rfl, rfl⟩ (fun _ => rfl) (Nat.le_add_right_of_le ht)
    have hnone : rowList? es wanted t = none := by
      refine if_neg fun hopen => ?_
      obtain ⟨rfl, hmultiple⟩ := hopen
      unfold missing at hmissing
      unfold endsMultiple at hmultiple
      cases hlast : es.getLast? with
      | none => simp [hlast] at hmultiple
      | some last =>
        rw [hlast] at hmultiple hmissing
        simp [show last.isMultiple = true from hmultiple] at hmissing
    rw [hnone]
    exact h₂
  next =>
    subst hpads
    rw [rowList?] at h₁ ⊢
    cases wanted <;> exact h₁

end Lowering
end LuaMachine
