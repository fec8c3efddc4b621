import LuaMachine.Proofs.Flow.Tidiness
import LuaMachine.Proofs.Scoping.Sites
/-! # Code with its variables

At each word of a function some local variables are in scope. A captured variable may have an open
upvalue there, and no other register has one: wherever execution leaves the scope of captured
variables, their upvalues are closed, by the word that is left or by the one that is gone to. No
word writes a register of a variable unless it assigns to the variable.

* `Note`: what is known in front of a word.
* `Prototype.Minds`: what a word may do.
* `Prototype.Noted`: words with their notes, some of which go nowhere yet.
* `Prototype.Onward`: words and notes that are added.
-/
set_option autoImplicit false

namespace LuaMachine

/-! ## Notes -/

/-- The variables in scope at a word, of which those from register `shut` on are no longer used, and
their upvalues are closed. The word that makes a local function has the variable of the function as
its `own`, which is in scope behind it. -/
structure Note where
  locals : Array Local
  own : Option Local
  shut : Nat

namespace Note

/-- All variables are in use. -/
def full (locals : Array Local) : Note := ⟨locals, none, locals.size⟩

/-- The variable may have an open upvalue. -/
def Live (ν : Note) (l : Local) : Prop := l ∈ ν.locals ∧ l.captured = true ∧ l.register < ν.shut

/-- The variable is in scope and no longer used. -/
def Done (ν : Note) (l : Local) : Prop := l ∈ ν.locals ∧ ν.shut ≤ l.register

/-- The variable is in scope, or it is that of the function that is made. -/
def Sees (ν : Note) (l : Local) : Prop := l ∈ ν.locals ∨ ν.own = some l

/-- The variables of the first note are the first ones of the second. -/
def Within (ν ν' : Note) : Prop :=
  ∀ (r : Nat) (l : Local), ν.locals[r]? = some l → ν'.locals[r]? = some l

/-- The state of a loop is in three registers; it has been declared at one word. -/
def Hides (ν : Note) (a : Nat) : Prop :=
  ∃ s, ∀ r, a ≤ r → r < a + 3 →
    ∃ l, ν.locals[r]? = some l ∧ l.name = loopState ∧ l.captured = false ∧ l.start = s

/-- The variables of the register and of the next one have been declared at different words. -/
def Splits (ν : Note) (r : Nat) : Prop :=
  ∃ l l', ν.locals[r]? = some l ∧ ν.locals[r + 1]? = some l' ∧ l.start ≠ l'.start

theorem Splits.mono {ν ν' : Note} {r : Nat} (h : ν.Splits r)
    (hwithin : ∀ (k : Nat) (l : Local), ν.locals[k]? = some l → ν'.locals[k]? = some l) :
    ν'.Splits r := by
  obtain ⟨l, l', hl, hl', hne⟩ := h
  exact ⟨l, l', hwithin _ l hl, hwithin _ l' hl', hne⟩

/-- The state of a loop is not in both of two registers with different declarations. -/
theorem Hides.le_of_splits {ν : Note} {a b : Nat} (h : ν.Hides b) (hsplits : ν.Splits a)
    (hlast : b + 3 = ν.locals.size) : a < b := by
  obtain ⟨s, hs⟩ := h
  obtain ⟨l, l', hl, hl', hne⟩ := hsplits
  have hlt := (Array.getElem?_eq_some_iff.mp hl').1
  refine Nat.lt_of_not_le fun hle => hne ?_
  obtain ⟨l₁, hl₁, -, -, hstart⟩ := hs a hle (by omega)
  obtain ⟨l₂, hl₂, -, -, hstart'⟩ := hs (a + 1) (by omega) (by omega)
  cases hl.symm.trans hl₁
  cases hl'.symm.trans hl₂
  exact hstart.trans hstart'.symm

/-- The register belongs to a variable that a word of this operation assigns to. -/
def Assigns (ν : Note) (op : Opcode) (r : Nat) : Prop :=
  op = .move ∧ ∃ l ∈ ν.locals, l.register = r ∧ l.constant = false ∧ l.name ≠ loopState

end Note

/-- The operations with a target that is filled in later. -/
def Opcode.isLink : Opcode → Bool
  | .jump | .forPrepare | .forLoop | .iterLoop => true
  | _ => false

namespace Prototype

/-! ## What a word does -/

/-- The word closes upvalues of the register. -/
def ClosesAt (p : Prototype) (n r : Nat) : Prop :=
  ∃ i, p.chunk.code[n]? = some i ∧ i.opcode? = some .close ∧ i.a ≤ r

/-- The word makes a closure that takes the register for an upvalue. -/
def Captures (p : Prototype) (n r : Nat) : Prop :=
  ∃ i q, p.chunk.code[n]? = some i ∧ i.opcode? = some .closure ∧ p.children[i.bx]? = some q ∧
    ∃ u ∈ q.upvalues, u.fromRegister = true ∧ u.index = r

/-- The word can go to this position besides the next word. -/
def Turns (p : Prototype) (n t : Nat) : Prop :=
  ∃ i op, p.chunk.code[n]? = some i ∧ i.opcode? = some op ∧ (t : Int) ∈ i.targets n op

/-- Behind the word execution can go on at this position. -/
def Goes (p : Prototype) (n t : Nat) : Prop :=
  p.Turns n t ∨ ∃ op, p.opcodeAt? n = some op ∧ op ≠ .jump ∧ op ≠ .ret ∧
    t = if op = .setList then n + 2 else n + 1

/-- Behind the word the variable may have an open upvalue. -/
def After (p : Prototype) (ν : Note) (n : Nat) (l : Local) : Prop :=
  (ν.Live l ∨ ν.Sees l ∧ l.captured = true ∧ p.Captures n l.register) ∧
    ¬p.ClosesAt n l.register

/-- Behind the word the variable is no longer used, although it may be in scope. -/
def Quits (p : Prototype) (ν : Note) (n : Nat) (l : Local) : Prop :=
  ν.Done l ∨ l ∈ ν.locals ∧ p.ClosesAt n l.register

/-- An open upvalue of the variable is kept or closed by the word. -/
def Meets (p : Prototype) (ν : Note) (n : Nat) (l : Local) : Prop :=
  ν.Live l ∨ l.captured = true ∧ p.ClosesAt n l.register

/-- A word that minds the variables in scope. -/
structure Minds (p : Prototype) (ν : Note) (n : Nat) (i : Instruction) (op : Opcode) : Prop where
  registers : ∀ (k : Nat) (l : Local), ν.locals[k]? = some l → l.register = k
  starts : ∀ l ∈ ν.locals, l.start ≤ n
  writes : ∀ r, op.lowest? i.a = some r → ν.locals.size ≤ r ∨ ν.Assigns op r
  takes : ∀ s, op.takes? i.a i.b = some s → p.Opened s 0 n
  captures : op = .closure → ∃ q, p.children[i.bx]? = some q ∧ ∀ u ∈ q.upvalues,
    u.fromRegister = true → ∃ l, ν.Sees l ∧ l.captured = true ∧ l.register = u.index
  own : ∀ l, ν.own = some l → op = .closure ∧ i.a = ν.locals.size ∧ l.register = ν.locals.size ∧
    l.start = n
  loops : op = .forPrepare ∨ op = .forLoop ∨ op = .iterCall ∨ op = .iterLoop →
    i.a + 3 = ν.locals.size ∧ ν.Hides i.a
  shut : ν.shut < ν.locals.size → op = .jump ∨ op = .close ∨ op = .ret ∧ i.b = 1

/-! ## Words that are kept -/

/-- All words are kept, but for the targets of some. -/
structure Retains (p p' : Prototype) : Prop where
  size : p.chunk.size ≤ p'.chunk.size
  children : ∀ (k : Nat) (q : Prototype), p.children[k]? = some q → p'.children[k]? = some q
  words : ∀ (n : Nat) (i : Instruction), p.chunk.code[n]? = some i →
    ∃ i', p'.chunk.code[n]? = some i' ∧ (i' = i ∨ i'.opcode? = i.opcode? ∧
      ∃ op, i.opcode? = some op ∧ op.isLink = true ∧ (op ≠ .jump → i'.a = i.a))

section

variable {p p' p'' : Prototype} {ν : Note} {n r t : Nat} {i : Instruction} {op : Opcode} {l : Local}

namespace Retains

theorem refl (p : Prototype) : p.Retains p :=
  ⟨Nat.le_refl _, fun _ _ h => h, fun _ i hi => ⟨i, hi, .inl rfl⟩⟩

theorem trans (h : p.Retains p') (h' : p'.Retains p'') : p.Retains p'' where
  size := Nat.le_trans h.size h'.size
  children k q hq := h'.children k q (h.children k q hq)
  words n i hi := by
    obtain ⟨i', hi', hsame⟩ := h.words n i hi
    obtain ⟨i'', hi'', hsame'⟩ := h'.words n i' hi'
    refine ⟨i'', hi'', ?_⟩
    rcases hsame with rfl | ⟨hop, op, hopcode, hlink, ha⟩
    · exact hsame'
    · refine .inr ?_
      rcases hsame' with rfl | ⟨hop', op', hopcode', -, ha'⟩
      · exact ⟨hop, op, hopcode, hlink, ha⟩
      · cases (hop.symm.trans hopcode').symm.trans hopcode
        exact ⟨hop'.trans hop, op, hopcode, hlink, fun hne => (ha' hne).trans (ha hne)⟩

/-- A word that has no target stays as it is. -/
theorem word (h : p.Retains p') (hi : p.chunk.code[n]? = some i) (hop : i.opcode? = some op)
    (hlink : op.isLink = false) : p'.chunk.code[n]? = some i := by
  obtain ⟨i', hi', rfl | ⟨-, op', hop', hlink', -⟩⟩ := h.words n i hi
  · exact hi'
  · cases hop.symm.trans hop'
    cases hlink.symm.trans hlink'

/-- A word that has no target was there before. -/
theorem word_back (h : p.Retains p') (hn : n < p.chunk.size) (hi : p'.chunk.code[n]? = some i)
    (hop : i.opcode? = some op) (hlink : op.isLink = false) : p.chunk.code[n]? = some i := by
  obtain ⟨j, hj⟩ := exists_word hn
  obtain ⟨i', hi', hsame⟩ := h.words n j hj
  cases hi.symm.trans hi'
  rcases hsame with rfl | ⟨hop', op', hopcode, hlink', -⟩
  · exact hj
  · cases (hop.symm.trans hop').trans hopcode
    cases hlink.symm.trans hlink'

theorem opcodeAt? (h : p.Retains p') (hop : p.opcodeAt? n = some op) :
    p'.opcodeAt? n = some op := by
  obtain ⟨i, hi, hopcode⟩ := opcodeAt?_eq_some_iff.mp hop
  obtain ⟨i', hi', hsame⟩ := h.words n i hi
  refine opcodeAt?_eq_some_iff.mpr ⟨i', hi', ?_⟩
  rcases hsame with rfl | ⟨hop', -⟩
  · exact hopcode
  · exact hop'.trans hopcode

theorem closes (h : p.Retains p') (hcloses : p.ClosesAt n r) : p'.ClosesAt n r := by
  obtain ⟨i, hi, hop, ha⟩ := hcloses
  exact ⟨i, h.word hi hop rfl, hop, ha⟩

theorem closes_back (h : p.Retains p') (hn : n < p.chunk.size) (hcloses : p'.ClosesAt n r) :
    p.ClosesAt n r := by
  obtain ⟨i, hi, hop, ha⟩ := hcloses
  exact ⟨i, h.word_back hn hi hop rfl, hop, ha⟩

theorem opensAt {s : Nat} (h : p.Retains p') (hopens : p.OpensAt n s) : p'.OpensAt n s := by
  obtain ⟨i, op, hi, hop, hs⟩ := hopens
  refine ⟨i, op, h.word hi hop ?_, hop, hs⟩
  cases op <;> first | rfl | cases hs

theorem opensAt_back {s : Nat} (h : p.Retains p') (hn : n < p.chunk.size)
    (hopens : p'.OpensAt n s) : p.OpensAt n s := by
  obtain ⟨i, op, hi, hop, hs⟩ := hopens
  refine ⟨i, op, h.word_back hn hi hop ?_, hop, hs⟩
  cases op <;> first | rfl | cases hs

theorem opened {s k : Nat} (h : p.Retains p') (hopened : p.Opened s k n) : p'.Opened s k n := by
  obtain ⟨m, s', hk, hn, hle, hopens⟩ := hopened
  exact ⟨m, s', hk, hn, hle, h.opensAt hopens⟩

theorem calm (h : p.Retains p') (ht : t ≤ p.chunk.size) (hcalm : p.Calm t) : p'.Calm t :=
  fun k s hk hopens => hcalm k s hk (h.opensAt_back (by omega) hopens)

/-- A word still minds the variables. -/
theorem minds (h : p.Retains p') (hi : p.chunk.code[n]? = some i) (hop : i.opcode? = some op)
    (hminds : p.Minds ν n i op) :
    ∃ i', p'.chunk.code[n]? = some i' ∧ i'.opcode? = some op ∧ p'.Minds ν n i' op := by
  obtain ⟨i', hi', hsame⟩ := h.words n i hi
  rcases hsame with rfl | ⟨hop', op', hopcode, hlink, ha⟩
  · refine ⟨i', hi', hop, { hminds with
      takes := fun s hs => h.opened (hminds.takes s hs)
      captures := fun hclosure => ?_ }⟩
    obtain ⟨q, hq, hsources⟩ := hminds.captures hclosure
    exact ⟨q, h.children _ q hq, hsources⟩
  · cases hop.symm.trans hopcode
    have hown : ∀ l, ν.own ≠ some l := fun l hl => by
      obtain rfl := (hminds.own l hl).1
      cases hlink
    refine ⟨i', hi', hop'.trans hop, hminds.registers, hminds.starts,
      fun r hr => ?_, fun s hs => ?_, ?_, fun l hl => absurd hl (hown l), fun hloop => ?_,
      fun hlt => ?_⟩
    · cases op <;> first | exact absurd hlink Bool.false_ne_true | cases hr
    · cases op <;> first | exact absurd hlink Bool.false_ne_true | cases hs
    · rintro rfl
      cases hlink
    · rw [ha (by rcases hloop with rfl | rfl | rfl | rfl <;> simp)]
      exact hminds.loops hloop
    · rcases hminds.shut hlt with rfl | rfl | ⟨rfl, -⟩
      · exact .inl rfl
      · cases hlink
      · cases hlink

theorem after_back (h : p.Retains p') (hi : p.chunk.code[n]? = some i) (hop : i.opcode? = some op)
    (hminds : p.Minds ν n i op) (hafter : p'.After ν n l) : p.After ν n l := by
  refine ⟨hafter.1.imp_right fun ⟨hl, hcaptured, i', q, hi', hop', hq, hsource⟩ =>
    ⟨hl, hcaptured, i', q, ?_, hop', ?_, hsource⟩, fun hcloses => hafter.2 (h.closes hcloses)⟩
  · exact h.word_back (lt_size_of_word hi) hi' hop' rfl
  · have hi'' := h.word_back (lt_size_of_word hi) hi' hop' rfl
    cases hi.symm.trans hi''
    cases hop.symm.trans hop'
    obtain ⟨q', hq', -⟩ := hminds.captures rfl
    cases hq.symm.trans (h.children _ q' hq')
    exact hq'

theorem meets (h : p.Retains p') (hmeets : p.Meets ν n l) : p'.Meets ν n l :=
  hmeets.imp_right fun ⟨hcaptured, hcloses⟩ => ⟨hcaptured, h.closes hcloses⟩

end Retains

/-- Only a word that makes a closure opens an upvalue. -/
theorem After.live (h : p.After ν n l) (hi : p.chunk.code[n]? = some i) (hop : i.opcode? = some op)
    (hclosure : op ≠ .closure) : ν.Live l := by
  rcases h.1 with hl | ⟨-, -, j, q, hj, hopcode, -⟩
  · exact hl
  · cases hi.symm.trans hj
    exact absurd (Option.some.inj (hop.symm.trans hopcode)) hclosure

theorem turns_of_word {n' : Nat} (h : p'.chunk.code[n]? = p.chunk.code[n]?) (hturns : p'.Turns n n') :
    p.Turns n n' := by
  obtain ⟨i, op, hi, hop, ht⟩ := hturns
  exact ⟨i, op, h ▸ hi, hop, ht⟩

theorem goes_of_word {n' : Nat} (h : p'.chunk.code[n]? = p.chunk.code[n]?) (hgoes : p'.Goes n n') :
    p.Goes n n' := by
  refine hgoes.imp (turns_of_word h) fun ⟨op, hop, hrest⟩ => ⟨op, ?_, hrest⟩
  unfold opcodeAt? at hop ⊢
  rw [← h]
  exact hop

end

/-! ## Words with notes -/

/-- An open upvalue of the variable may come to the position, which is that of a word or of the next
one to come. -/
def Admits (p : Prototype) (ν : Nat → Note) (t : Nat) (l : Local) : Prop :=
  t < p.chunk.size ∧ p.Meets (ν t) t l ∨ t = p.chunk.size ∧ (ν t).Live l

/-- The word prepares a numeric loop: its last word goes back to the one behind it, and all of the
words between see the state of the loop, and behind it a variable of its own. -/
def Counts (p : Prototype) (ν : Nat → Note) (free : Nat → Prop) (m : Nat) : Prop :=
  ∀ i, p.chunk.code[m]? = some i → i.opcode? = some .forPrepare →
    ∃ back j, m < back ∧ ¬free back ∧ (m : Int) + 1 + i.signedBx = back ∧
      p.chunk.code[back]? = some j ∧ j.opcode? = some .forLoop ∧ j.a = i.a ∧
      (back : Int) + 1 + j.signedBx = m + 1 ∧ (∀ t, m < t → t ≤ back → (ν m).Within (ν t)) ∧
      ∀ t, m < t → t < back → (ν t).Splits (i.a + 2)

/-- The word calls an iterator: the loop is entered by a jump to it, the word behind it goes back to
the one behind the jump, and all of the words between see the state of the loop, and behind it its
variables. -/
def Iterates (p : Prototype) (ν : Nat → Note) (free : Nat → Prop) (m : Nat) : Prop :=
  ∀ i, p.chunk.code[m]? = some i → i.opcode? = some .iterCall →
    ∃ enter j, enter < m ∧ ¬free enter ∧ ¬free (m + 1) ∧ p.HasJump enter m ∧
      p.chunk.code[m + 1]? = some j ∧ j.opcode? = some .iterLoop ∧ j.a = i.a ∧
      (m : Int) + 2 + j.signedBx = enter + 1 ∧
      (∀ t, enter < t → t ≤ m + 1 → (ν m).Within (ν t)) ∧
      i.c ≠ 0 ∧ ∀ t, enter < t → t < m → (ν t).Splits (i.a + 2)

/-- The word goes to words that mind its open upvalues, and where a variable that is no longer used is
still in scope it is not used again, unless its scope begins there. -/
structure Settled (p : Prototype) (ν : Nat → Note) (free : Nat → Prop) (m : Nat) : Prop where
  goes : ∀ t l, p.Goes m t → p.After (ν m) m l → p.Admits ν t l
  leaves : ∀ t l, p.Goes m t → p.Quits (ν m) m l → l ∈ (ν t).locals → (ν t).Done l ∨ l.start = t
  turns : ∀ t, p.Turns m t → t ≤ p.chunk.size ∧ p.Calm t
  counts : p.Counts ν free m
  iterates : p.Iterates ν free m

/-- Words with notes. Of the free ones it is not known where they go. -/
structure Noted (p : Prototype) (ν : Nat → Note) (free : Nat → Prop) : Prop where
  words : ∀ m < p.chunk.size, ∃ i op, p.chunk.code[m]? = some i ∧ i.opcode? = some op ∧
    p.Minds (ν m) m i op
  settled : ∀ m < p.chunk.size, ¬free m → p.Settled ν free m
  closing : ∀ m < p.chunk.size, ∀ l, p.ClosesAt m l.register → (ν m).Live l → ¬(ν (m + 1)).Live l

/-- Words and notes are added; what may come to the position behind the words may still come. The
variables there are those that were known, or their scope begins there. -/
structure Onward (p : Prototype) (ν : Nat → Note) (p' : Prototype) (ν' : Nat → Note) : Prop where
  retains : p.Retains p'
  notes : ∀ m < p.chunk.size, ν' m = ν m
  enters : ∀ l, (ν p.chunk.size).Live l → p'.Admits ν' p.chunk.size l
  rests : ∀ l ∈ (ν' p.chunk.size).locals, l.start = p.chunk.size ∨
    l ∈ (ν p.chunk.size).locals ∧ ((ν p.chunk.size).Done l → (ν' p.chunk.size).Done l)

section

variable {p p' p'' : Prototype} {ν ν' ν'' : Nat → Note} {free free' : Nat → Prop} {n m t : Nat}
  {i : Instruction} {op : Opcode} {l : Local}

namespace Onward

theorem admits (h : p.Onward ν p' ν') (hadmits : p.Admits ν t l) : p'.Admits ν' t l := by
  rcases hadmits with ⟨hlt, hmeets⟩ | ⟨rfl, hl⟩
  · refine .inl ⟨Nat.lt_of_lt_of_le hlt h.retains.size, ?_⟩
    rw [h.notes t hlt]
    exact h.retains.meets hmeets
  · exact h.enters l hl

/-- The scope of a variable that was not known begins at the position. -/
theorem known (h : p.Onward ν p' ν') (ht : t ≤ p.chunk.size) (hl : l ∈ (ν' t).locals) :
    l ∈ (ν t).locals ∨ l.start = t := by
  rcases Nat.lt_or_eq_of_le ht with hlt | rfl
  · exact .inl (h.notes t hlt ▸ hl)
  · exact (h.rests l hl).elim .inr fun hold => .inl hold.1

/-- A variable that is no longer used is not used again where it is known. -/
theorem done (h : p.Onward ν p' ν') (ht : t ≤ p.chunk.size)
    (hdone : l ∈ (ν t).locals → (ν t).Done l ∨ l.start = t) (hl : l ∈ (ν' t).locals) :
    (ν' t).Done l ∨ l.start = t := by
  rcases Nat.lt_or_eq_of_le ht with hlt | rfl
  · rw [h.notes t hlt] at hl ⊢
    exact hdone hl
  · rcases h.rests l hl with hstart | ⟨hold, hrests⟩
    · exact .inr hstart
    · exact (hdone hold).imp_left hrests

theorem refl (p : Prototype) (ν : Nat → Note) : p.Onward ν p ν :=
  ⟨.refl p, fun _ _ => rfl, fun _ hl => .inr ⟨rfl, hl⟩, fun _ hl => .inr ⟨hl, id⟩⟩

theorem trans (h : p.Onward ν p' ν') (h' : p'.Onward ν' p'' ν'') : p.Onward ν p'' ν'' where
  retains := h.retains.trans h'.retains
  notes m hm := (h'.notes m (Nat.lt_of_lt_of_le hm h.retains.size)).trans (h.notes m hm)
  enters l hl := h'.admits (h.enters l hl)
  rests l hl := by
    rcases Nat.lt_or_eq_of_le h.retains.size with hlt | heq
    · rw [h'.notes _ hlt] at hl ⊢
      exact h.rests l hl
    · rw [heq] at hl ⊢
      rcases h'.rests l hl with hstart | ⟨hl', hdone'⟩
      · exact .inl hstart
      · rw [← heq] at hl' hdone' ⊢
        exact (h.rests l hl').imp_right fun ⟨hold, hdone⟩ => ⟨hold, fun hd => hdone' (hdone hd)⟩

end Onward

/-- The variable of a note lies in the register with its number. -/
theorem Minds.register_lt {note : Note} (h : p.Minds note n i op) (hl : l ∈ note.locals) :
    l.register < note.locals.size := by
  obtain ⟨k, hk⟩ := Array.mem_iff_getElem?.mp hl
  rw [h.registers k l hk]
  exact (Array.getElem?_eq_some_iff.mp hk).1

/-- No word sees a variable in front of its start. -/
theorem Minds.start_le {note : Note} (h : p.Minds note n i op) (hl : note.Sees l) : l.start ≤ n := by
  rcases hl with hl | hown
  · exact h.starts l hl
  · exact Nat.le_of_eq (h.own l hown).2.2.2

/-- Variables stop being used only at words that leave. -/
theorem Quits.leaving {note : Note} (h : p.Quits note n l) (hi : p.chunk.code[n]? = some i)
    (hop : i.opcode? = some op) (hminds : p.Minds note n i op) :
    op = .jump ∨ op = .close ∨ op = .ret ∧ i.b = 1 := by
  rcases h with ⟨hl, hle⟩ | ⟨-, j, hj, hclose, -⟩
  · exact hminds.shut (Nat.lt_of_le_of_lt hle (hminds.register_lt hl))
  · cases hi.symm.trans hj
    exact .inr (.inl (Option.some.inj (hop.symm.trans hclose)))

/-- What is known of a word is not changed by words that are added, nor by targets of free ones. -/
theorem Settled.onward (h : p.Settled ν free m) (ho : p.Onward ν p' ν')
    (hi : p.chunk.code[m]? = some i) (hop : i.opcode? = some op) (hminds : p.Minds (ν m) m i op)
    (hsame : ∀ k < p.chunk.size, ¬free k → p'.chunk.code[k]? = p.chunk.code[k]?)
    (hfree : ∀ k < p.chunk.size, free' k → free k) (hm : ¬free m) : p'.Settled ν' free' m := by
  have hlt := lt_size_of_word hi
  have hword := hsame m hlt hm
  have hν := ho.notes m hlt
  refine ⟨fun t l hgoes hafter => ?_, fun t l hgoes hquits => ?_, fun t hturns => ?_,
    fun i' hi' hprepare => ?_, fun i' hi' hcall => ?_⟩
  · rw [hν] at hafter
    exact ho.admits (h.goes t l (goes_of_word hword hgoes) (ho.retains.after_back hi hop hminds hafter))
  · rw [hν] at hquits
    have hgoes' := goes_of_word hword hgoes
    have hquits' : p.Quits (ν m) m l :=
      hquits.imp_right (And.imp_right (ho.retains.closes_back hlt))
    refine ho.done ?_ (h.leaves t l hgoes' hquits')
    rcases hgoes' with hturns | ⟨op', hop', -, -, rfl⟩
    · exact (h.turns t hturns).1
    · rw [if_neg]
      · exact hlt
      · rintro rfl
        have hleaving := hquits'.leaving hi hop hminds
        obtain ⟨j, hj, hlist⟩ := opcodeAt?_eq_some_iff.mp hop'
        cases hi.symm.trans hj
        cases hop.symm.trans hlist
        simp at hleaving
  · obtain ⟨hle, hcalm⟩ := h.turns t (turns_of_word hword hturns)
    exact ⟨Nat.le_trans hle ho.retains.size, ho.retains.calm hle hcalm⟩
  · obtain ⟨back, j, hback, hfixed, htarget, hj, hloop, ha, hstart, hwithin, hsplits⟩ :=
      h.counts i' (hword ▸ hi') hprepare
    have hlt' := lt_size_of_word hj
    refine ⟨back, j, hback, fun hf => hfixed (hfree back hlt' hf), htarget,
      (hsame back hlt' hfixed).trans hj, hloop, ha, hstart, fun t ht hle => ?_, fun t ht hlt => ?_⟩
    · rw [hν, ho.notes t (by omega)]
      exact hwithin t ht hle
    · rw [ho.notes t (by omega)]
      exact hsplits t ht hlt
  · obtain ⟨enter, j, henter, hfixed, hfixed', ⟨k, hk, hjump, htarget⟩, hj, hloop, ha, hstart,
      hwithin, hcount, hsplits⟩ := h.iterates i' (hword ▸ hi') hcall
    have hlt' := lt_size_of_word hj
    have henter' := lt_size_of_word hk
    refine ⟨enter, j, henter, fun hf => hfixed (hfree enter henter' hf),
      fun hf => hfixed' (hfree _ hlt' hf), ⟨k, (hsame enter henter' hfixed).trans hk, hjump, htarget⟩,
      (hsame _ hlt' hfixed').trans hj, hloop, ha, hstart, fun t ht hle => ?_, hcount, fun t ht hlt => ?_⟩
    · rw [hν, ho.notes t (by omega)]
      exact hwithin t ht hle
    · rw [ho.notes t (by omega)]
      exact hsplits t ht hlt

/-- With a word that closes nothing all variables stay in use. -/
theorem leaves_of_busy (hi : p.chunk.code[n]? = some i) (hop : i.opcode? = some op)
    (hclose : op ≠ .close) (hbusy : ∀ l, ¬(ν n).Done l) (t : Nat) (l : Local) (_ : p.Goes n t)
    (hquits : p.Quits (ν n) n l) (_ : l ∈ (ν t).locals) : (ν t).Done l ∨ l.start = t := by
  obtain hdone | ⟨-, j, hj, hcloses, -⟩ := hquits
  · exact absurd hdone (hbusy l)
  · cases hi.symm.trans hj
    exact absurd (Option.some.inj (hop.symm.trans hcloses)) hclose

/-- A word that makes no closure and has no argument behind it. -/
theorem settled_word (hi : p.chunk.code[n]? = some i) (hop : i.opcode? = some op)
    (hplain : op ≠ .closure ∧ op ≠ .setList)
    (hturns : ∀ t : Nat, (t : Int) ∈ i.targets n op →
      t ≤ p.chunk.size ∧ p.Calm t ∧ ∀ l, (ν n).Live l → p.Admits ν t l)
    (hnext : op ≠ .jump → op ≠ .ret → ∀ l, (ν n).Live l → ¬p.ClosesAt n l.register →
      p.Admits ν (n + 1) l)
    (hleaves : ∀ t l, p.Goes n t → p.Quits (ν n) n l → l ∈ (ν t).locals → (ν t).Done l ∨ l.start = t)
    (hcounts : op = .forPrepare → p.Counts ν free n)
    (hiterates : op = .iterCall → p.Iterates ν free n) : p.Settled ν free n := by
  have hturns' : ∀ t, p.Turns n t → (t : Int) ∈ i.targets n op := by
    rintro t ⟨j, op', hj, hop', ht⟩
    cases hi.symm.trans hj
    cases hop.symm.trans hop'
    exact ht
  refine ⟨fun t l hgoes hafter => ?_, hleaves, fun t ht => ?_, fun j hj hopcode => ?_,
    fun j hj hopcode => ?_⟩
  · have hl := hafter.live hi hop hplain.1
    rcases hgoes with ht | ⟨op', hop', hjump, hret, rfl⟩
    · exact (hturns t (hturns' t ht)).2.2 l hl
    · obtain ⟨j, hj, hopcode⟩ := opcodeAt?_eq_some_iff.mp hop'
      cases hi.symm.trans hj
      cases hop.symm.trans hopcode
      rw [if_neg hplain.2]
      exact hnext hjump hret l hl hafter.2
  · obtain ⟨hle, hcalm, -⟩ := hturns t (hturns' t ht)
    exact ⟨hle, hcalm⟩
  · cases hi.symm.trans hj
    exact hcounts (Option.some.inj (hop.symm.trans hopcode)) i hi hopcode
  · cases hi.symm.trans hj
    exact hiterates (Option.some.inj (hop.symm.trans hopcode)) i hi hopcode

/-- A jump whose target is filled in. -/
theorem settled_jump (h : p.HasJump n t) (ht : t ≤ p.chunk.size) (hcalm : p.Calm t)
    (hadmits : ∀ l, (ν n).Live l → p.Admits ν t l)
    (hdone : ∀ l, (ν n).Done l → l ∈ (ν t).locals → (ν t).Done l ∨ l.start = t) :
    p.Settled ν free n := by
  obtain ⟨i, hi, hop, htarget⟩ := h
  have hturns : ∀ t' : Nat, (t' : Int) ∈ i.targets n .jump → t' = t := fun t' ht' => by
    simp only [Instruction.targets, List.mem_singleton] at ht'
    omega
  refine settled_word hi hop (by simp) (fun t' ht' => ?_) (fun hjump => absurd rfl hjump)
    (fun t' l hgoes hquits => ?_) (by simp) (by simp)
  · obtain rfl := hturns t' ht'
    exact ⟨ht, hcalm, hadmits⟩
  · obtain hdone' | ⟨-, j, hj, hclose, -⟩ := hquits
    · rcases hgoes with ⟨j, op, hj, hop', ht'⟩ | ⟨op, hop', hjump, -⟩
      · cases hi.symm.trans hj
        cases hop.symm.trans hop'
        obtain rfl := hturns t' ht'
        exact hdone l hdone'
      · exact absurd (Option.some.inj (hop'.symm.trans (opcodeAt?_eq_some_iff.mpr ⟨i, hi, hop⟩))) hjump
    · cases hi.symm.trans hj
      cases hop.symm.trans hclose

namespace Noted

/-- Words with notes are added, and targets of free words are filled in. -/
theorem extend (h : p.Noted ν free) (ho : p.Onward ν p' ν')
    (hsame : ∀ k < p.chunk.size, ¬free k → p'.chunk.code[k]? = p.chunk.code[k]?)
    (hfree : ∀ k < p.chunk.size, free' k ↔ free k)
    (hfresh : ∀ l, (ν' p.chunk.size).Live l → (ν p.chunk.size).Live l ∨ l.start = p.chunk.size)
    (hwords : ∀ m, p.chunk.size ≤ m → m < p'.chunk.size → ∃ i op, p'.chunk.code[m]? = some i ∧
      i.opcode? = some op ∧ p'.Minds (ν' m) m i op)
    (hsettled : ∀ m, p.chunk.size ≤ m → m < p'.chunk.size → ¬free' m → p'.Settled ν' free' m)
    (hclosing : ∀ m, p.chunk.size ≤ m → m < p'.chunk.size → ∀ l, p'.ClosesAt m l.register →
      (ν' m).Live l → ¬(ν' (m + 1)).Live l) : p'.Noted ν' free' where
  words m hm := by
    rcases Nat.lt_or_ge m p.chunk.size with hlt | hge
    · obtain ⟨i, op, hi, hop, hminds⟩ := h.words m hlt
      obtain ⟨i', hi', hop', hminds'⟩ := ho.retains.minds hi hop hminds
      rw [ho.notes m hlt]
      exact ⟨i', op, hi', hop', hminds'⟩
    · exact hwords m hge hm
  settled m hm hf := by
    rcases Nat.lt_or_ge m p.chunk.size with hlt | hge
    · have hf' : ¬free m := fun h' => hf ((hfree m hlt).mpr h')
      obtain ⟨i, op, hi, hop, hminds⟩ := h.words m hlt
      exact (h.settled m hlt hf').onward ho hi hop hminds hsame
        (fun k hk => (hfree k hk).mp) hf'
    · exact hsettled m hge hm hf
  closing m hm l hcloses hl hl' := by
    rcases Nat.lt_or_ge m p.chunk.size with hlt | hge
    · have hcloses' := ho.retains.closes_back hlt hcloses
      rw [ho.notes m hlt] at hl
      rcases Nat.lt_or_eq_of_le (Nat.succ_le_of_lt hlt) with hnext | hlast
      · rw [ho.notes (m + 1) hnext] at hl'
        exact h.closing m hlt l hcloses' hl hl'
      · have hlast' : m + 1 = p.chunk.size := hlast
        rw [hlast'] at hl'
        rcases hfresh l hl' with hl' | hstart
        · exact h.closing m hlt l hcloses' hl (hlast'.symm ▸ hl')
        · obtain ⟨i, op, hi, hop, hminds⟩ := h.words m hlt
          have hle := hminds.starts l hl.1
          omega
    · exact hclosing m hge hm l hcloses hl hl'

/-- Free words of which it is known where they go. -/
theorem settle (h : p.Noted ν free) (hfree : ∀ k < p.chunk.size, free' k → free k)
    (hsettled : ∀ m < p.chunk.size, free m → ¬free' m → p.Settled ν free' m) : p.Noted ν free' where
  words := h.words
  settled m hm hf := by
    by_cases hf' : free m
    · exact hsettled m hm hf' hf
    · obtain ⟨i, op, hi, hop, hminds⟩ := h.words m hm
      exact (h.settled m hm hf').onward (.refl p ν) hi hop hminds (fun _ _ _ => rfl) hfree hf'
  closing := h.closing

end Noted

end

end Prototype
end LuaMachine
