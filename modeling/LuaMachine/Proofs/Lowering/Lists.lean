import LuaMachine.Proofs.Lowering.Compiling
/-! # The code of lists, calls and tables

Lists of expressions, calls and table constructors have code of the shape that their parts tell, and
with them every expression has.

* `Lowering.LowersRow`, `Lowering.LowersList`, `Lowering.LowersCall`, `Lowering.LowersEntries`:
  actions that write the code of lists, calls and table constructors.
* `Lowering.adjusted_emits`: lists with a number of values.
* `Lowering.lowersTo_evaluate`: every expression.
-/
set_option autoImplicit false

namespace LuaMachine
namespace Lowering

open Generator

/-- The action evaluates expressions, the last one to as many values as it is told. -/
def LowersRow (Good : Prototype → Prop) (es : List Expr) (act : Option Nat → Gen Unit) : Prop :=
  ∀ ⦃ps : List Nat⦄ ⦃st st' : State⦄ ⦃last : Option Nat⦄ ⦃u : Unit⦄, Sound Good ps st →
    act last st = .ok u st' →
    Emits Good ps st st' (itemsTop es last st.top) fun p home =>
      Row p home es last st.top st.size st'.size

/-- The action evaluates the arguments of a call and gives their number. -/
def LowersList (Good : Prototype → Prop) (es : List Expr) (list : Gen (Option Nat)) : Prop :=
  ∀ ⦃ps : List Nat⦄ ⦃st st' : State⦄ ⦃count : Option Nat⦄, Sound Good ps st →
    list st = .ok count st' →
    ∃ t, Emits Good ps st st' t (fun p home => Row p home es none st.top st.size st'.size) ∧
      st.top ≤ t ∧ (∀ k, count = some k → t = st.top + k) ∧ count = argumentCount es 0

/-- The action leaves the results of a call where its function was. -/
def LowersCall (Good : Prototype → Prop) (call : Option Nat → Gen Unit)
    (calling : Prototype → (String → Home) → Calling) : Prop :=
  ∀ ⦃ps : List Nat⦄ ⦃st st' : State⦄ ⦃results : Option Nat⦄ ⦃u : Unit⦄, Sound Good ps st →
    call results st = .ok u st' →
    Emits Good ps st st' (st.top + results.getD 0) fun p home =>
      calling p home results st.top st.size st'.size

def LowersEntries (Good : Prototype → Prop) (fs : List Field)
    (act : Nat → Nat → Nat → Nat → Gen Unit) : Prop :=
  ∀ ⦃ps : List Nat⦄ ⦃st st' : State⦄ ⦃table line pending stored : Nat⦄ ⦃u : Unit⦄,
    Sound Good ps st → st.top = table + 1 + pending → st.level ≤ table →
    act table line pending stored st = .ok u st' →
    Emits Good ps st st' (table + 1) fun p home =>
      Entries p home fs table pending stored st.size st'.size

variable {Good : Prototype → Prop} {ps : List Nat} {st st' st₁ st₂ : State} {u : Unit}
  {line r t : Nat} {e k : Expr} {es args : List Expr} {d : Destination} {act : Evaluation}
  {part : Prototype → (String → Home) → Part}

/-! ## Lists of expressions -/

theorem lowersRow_nil : LowersRow Good [] (items []) := by
  intro ps st st' last u hs h
  rw [items, pure_ok] at h
  obtain ⟨-, rfl⟩ := h
  exact (Emits.refl hs).mono fun _ _ _ => rfl

theorem lowersRow_cons {rest : List Expr} (he : LowersTo Good e (evaluate e))
    (hrest : LowersRow Good rest (items rest)) : LowersRow Good (e :: rest) (items (e :: rest)) := by
  intro ps st st' last u hs h
  rw [items] at h
  split at h
  next hlast =>
    simp only [Bool.and_eq_true] at hlast
    obtain ⟨hempty, hmultiple⟩ := hlast
    obtain rfl : rest = [] := List.isEmpty_iff.mp hempty
    simp only [bind_ok] at h
    obtain ⟨_, st₁, hvalue, h⟩ := h
    rw [items, pure_ok] at h
    obtain ⟨-, rfl⟩ := h
    refine ((he hs (d := .values last) hmultiple hvalue).cast ?_).mono fun p home hp => ?_
    · rw [hmultiple]
      cases last <;> simp [itemsTop, hmultiple, Destination.after]
    · rw [Row, if_pos (by simp [hmultiple])]
      exact hp
  next hlast =>
    simp only [bind_ok] at h
    obtain ⟨r, st₁, hvalue, h⟩ := h
    obtain ⟨h₁, rfl⟩ := toTemporary_emits hvalue hs he.lowers
    have htop := h₁.top_eq
    have h₂ := hrest h₁.sound h
    refine ((h₁.trans h₂).cast ?_).mono fun p home hp => ?_
    · rw [htop]
      refine (itemsTop_cons e rest last st.top ?_).symm
      cases hrest : rest.isEmpty
      · exact .inl rfl
      · cases hmultiple : e.isMultiple
        · exact .inr rfl
        · exact absurd (by simp [hrest, hmultiple]) hlast
    · rw [Row, if_neg hlast]
      rw [htop] at hp
      exact ⟨st₁.size, hp⟩

theorem padNils_emits {count : Nat} (h : padNils count line st = .ok u st')
    (hs : Sound Good ps st) :
    Emits Good ps st st' (st.top + count) fun p _ => Pads p st.top count st.size st'.size := by
  simp only [padNils] at h
  split at h
  next hpos =>
    simp only [bind_ok] at h
    obtain ⟨r, st₁, hreserve, h⟩ := h
    obtain ⟨h₁, rfl⟩ := emits_reserve hreserve hs
    have htop := h₁.top_eq
    have hregisters := h₁.sound.top_le
    have hmax := h₁.sound.registers_le
    have h₂ := emits_abc h h₁.sound (loadNils_step h h₁.sound (by omega)) (by omega) (by omega)
      (by omega)
    refine ((h₁.trans h₂).cast htop).mono fun p home hp => ?_
    obtain ⟨hsize, hword, hsize'⟩ := hp
    rw [hsize] at hword hsize'
    rw [Pads, if_pos hpos]
    exact ⟨hword, hsize'⟩
  next hpos =>
    simp only [pure_ok] at h
    obtain ⟨-, rfl⟩ := h
    refine ((Emits.refl hs).cast (by omega)).mono fun p home _ => ?_
    rw [Pads, if_neg hpos]

/-- The registers in use behind a list whose last expression has one value. -/
theorem itemsTop_single {last : Expr} (hlast : es.getLast? = some last)
    (hsingle : last.isMultiple = false) (count : Option Nat) (t : Nat) :
    itemsTop es count t = t + es.length := by
  simp [itemsTop, hlast, hsingle]

/-- The words of a list with a number of values, whatever is known of those of its expressions. -/
theorem adjusted_emits_of {wanted : Option Nat} {items : Option Nat → Gen Unit} {count : Option Nat}
    {row : Prototype → (String → Home) → Option Nat → Nat → Nat → Nat → Prop}
    (h : adjusted es wanted items st = .ok count st') (hs : Sound Good ps st)
    (hitems : ∀ ⦃ps : List Nat⦄ ⦃st st' : State⦄ ⦃last : Option Nat⦄ ⦃u : Unit⦄, Sound Good ps st →
      items last st = .ok u st' → Emits Good ps st st' (itemsTop es last st.top) fun p home =>
        row p home last st.top st.size st'.size)
    (hempty : es = [] → ∀ p home last t n, row p home last t n n) :
    ∃ t, Emits Good ps st st' t (fun p home => ∃ n,
      row p home (wanted.map fun w => w - (es.length - 1)) st.top st.size n ∧
        Pads p (st.top + es.length) (missing es wanted) n st'.size) ∧ st.top ≤ t ∧
      (∀ k, count = some k → t = st.top + k) ∧ ∀ w, wanted = some w → t = st.top + w := by
  obtain ⟨t, hstep, hle, hcount, hwanted⟩ := adjusted_step h hs fun last ps st st' u hs hok =>
    (hitems hs hok).step
  refine ⟨t, ⟨hstep, ?_⟩, hle, hcount, hwanted⟩
  simp only [adjusted, bind_ok, free_ok, and_assoc, exists_and_left, exists_eq_left] at h
  cases hlast : es.getLast? with
  | none =>
    obtain rfl : es = [] := List.getLast?_eq_none_iff.mp hlast
    simp only [hlast, bind_ok, currentLine_ok, pure_ok, and_assoc, exists_and_left,
      exists_eq_left] at h
    obtain ⟨_, st₁, hpad, rfl, rfl⟩ := h
    intro p home hf
    exact ⟨st.size, hempty rfl _ _ _ _ _, (padNils_emits hpad hs).code p home hf⟩
  | some last =>
    simp only [hlast, bind_ok] at h
    obtain ⟨_, st₁, hvalues, h⟩ := h
    have h₁ := hitems hs hvalues
    have htop := h₁.top_eq
    split at h
    next =>
      simp only [pure_ok] at h
      obtain ⟨rfl, rfl⟩ := h
      intro p home hf
      refine ⟨st'.size, h₁.code p home hf, ?_⟩
      simp [Pads, missing, hlast]
    next w =>
      simp only [bind_ok, currentLine_ok, pure_ok, and_assoc, exists_and_left,
        exists_eq_left] at h
      obtain ⟨_, st₂, hpad, _, st₃, hrelease, rfl, rfl⟩ := h
      have h₂ := padNils_emits hpad h₁.sound
      have h₃ := emits_releaseAbove hrelease h₂.sound
      intro p home hf
      obtain ⟨hrow, hpads, hsize⟩ := (h₁.trans (h₂.trans h₃)).code p home hf
      refine ⟨st₁.size, hrow, ?_⟩
      rw [hsize]
      simp only [missing, hlast, Option.getD_some]
      cases hmultiple : last.isMultiple with
      | true => simpa [Pads, hmultiple] using hpads
      | false =>
        rw [htop, itemsTop_single hlast hmultiple] at hpads
        simpa [hmultiple] using hpads

theorem adjusted_emits {wanted : Option Nat} {items : Option Nat → Gen Unit} {count : Option Nat}
    (h : adjusted es wanted items st = .ok count st') (hs : Sound Good ps st)
    (hitems : LowersRow Good es items) :
    ∃ t, Emits Good ps st st' t (fun p home =>
      Adjusted p home es wanted st.top st.size st'.size) ∧ st.top ≤ t ∧
      (∀ k, count = some k → t = st.top + k) ∧ ∀ w, wanted = some w → t = st.top + w :=
  adjusted_emits_of h hs hitems fun hnil _ _ _ _ _ => by rw [hnil, Row]

theorem lowersList_adjusted {items : Option Nat → Gen Unit} (hitems : LowersRow Good es items) :
    LowersList Good es (adjusted es none items) := by
  intro ps st st' count hs h
  obtain ⟨t, hemits, hle, hcount, -⟩ := adjusted_emits h hs hitems
  refine ⟨t, hemits.mono fun p home hp => ?_, hle, hcount, ?_⟩
  · obtain ⟨n₁, hrow, hpads⟩ := hp
    have hmissing : missing es none = 0 := by
      unfold missing
      split
      · split <;> simp
      · rfl
    rw [Pads, hmissing, if_neg (by omega)] at hpads
    rw [hpads]
    exact hrow
  · simp only [adjusted, bind_ok, free_ok, and_assoc, exists_and_left, exists_eq_left] at h
    cases hlast : es.getLast? with
    | none =>
      simp only [hlast, bind_ok, pure_ok] at h
      obtain ⟨_, _, -, _, _, -, rfl, -⟩ := h
      simp [argumentCount, hlast]
    | some last =>
      simp only [hlast, Option.map_none, bind_ok, pure_ok] at h
      obtain ⟨_, _, -, rfl, -⟩ := h
      simp [argumentCount, hlast]

/-! ## Calls -/

theorem finishCall_emits {base : Nat} {args results : Option Nat}
    (h : finishCall base line args results st = .ok u st') (hs : Sound Good ps st)
    (hlevel : st.level ≤ base) (hbase : base < st.top)
    (hargs : ∀ k, args = some k → base + 1 + k ≤ st.top) :
    Emits Good ps st st' (base + results.getD 0) fun p _ =>
      p.HasWord st.size .call base (countOperand args) (countOperand results) ∧
        st'.size = st.size + 1 := by
  have hstep := finishCall_step h hs hlevel hbase hargs
  refine ⟨hstep, fun p home hf => ?_⟩
  have htop := hs.top_le
  have hmax := hs.registers_le
  have htop' := hstep.sound.top_le
  have hmax' := hstep.sound.registers_le
  rw [hstep.top_eq] at htop'
  simp only [finishCall, bind_ok] at h
  obtain ⟨_, st₁, hline, _, st₂, hcall, _, st₃, hrelease, h⟩ := h
  have h₁ := emits_setLine hline hs
  have hsize₁ : st₁.size = st.size := setLine_size hline
  obtain ⟨n, hcall'⟩ := emitAbc_ok hcall
  have hopen := emit_sound_open hcall' h₁.sound (by
    rw [Instruction.opcode?_abc]
    simp)
  have h₃ := emits_release hrelease hopen
  have hrest : ∃ t, Step Good (n :: ps) st₂ st' t ∧ st'.size = st₂.size := by
    have hsize₃ := release_size hrelease hopen
    split at h
    · simp only [bind_ok, pure_ok] at h
      obtain ⟨r, st₄, hreserve, -, rfl⟩ := h
      have h₄ := (emits_reserve hreserve h₃.sound).1
      exact ⟨_, h₃.step.trans h₄.step, (reserve_size hreserve h₃.sound).trans hsize₃⟩
    · simp only [pure_ok] at h
      obtain ⟨-, rfl⟩ := h
      exact ⟨_, h₃.step, hsize₃⟩
  obtain ⟨t, hstep₂, hsize⟩ := hrest
  have hargs' : countOperand args < 256 := by
    cases args with
    | none => simp [countOperand]
    | some k =>
      have hk := hargs k rfl
      simp only [countOperand]
      omega
  have hresults' : countOperand results < 256 := by
    cases results with
    | none => simp [countOperand]
    | some k =>
      simp only [Option.getD_some] at htop'
      simp only [countOperand]
      omega
  have hword := hasWord_emitted hcall h₁.sound hstep₂.keeps.current.code (by omega) hargs' hresults'
    (hf.since (Nat.le_of_eq hsize₁.symm))
  rw [hsize₁] at hword
  exact ⟨hword, by rw [hsize, emitAbc_size hcall h₁.sound, hsize₁]⟩

theorem lowersCall_call {list : Gen (Option Nat)} (line : Nat) (hcallee : Lowers Good act part)
    (hargs : LowersList Good args list) :
    LowersCall Good (compileCall line act list) fun p home =>
      OfCall p args (part p home) (Row p home args none) := by
  intro ps st st' results u hs h
  simp only [compileCall, bind_ok] at h
  obtain ⟨base, st₁, hreserve, _, st₂, hvalue, count, st₃, hlist, h⟩ := h
  obtain ⟨h₁, rfl⟩ := emits_reserve hreserve hs
  have htop₁ := h₁.top_eq
  have h₂ := hcallee h₁.sound (by omega) hvalue
  have htop₂ := h₂.top_eq
  obtain ⟨t, h₃, hle, hn, rfl⟩ := hargs h₂.sound hlist
  have htop₃ := h₃.top_eq
  have hlevel := hs.level_le
  have hlevel₃ := (h₁.step.trans (h₂.step.trans h₃.step)).level
  have h₄ := finishCall_emits h h₃.sound (by omega) (by omega) fun k hk => by
    have hk' := hn k hk
    omega
  refine (h₁.trans (h₂.trans (h₃.trans h₄))).mono fun p home hp => ?_
  obtain ⟨hsize₁, hfunction, hrow, hword, hsize₄⟩ := hp
  rw [hsize₁, htop₁] at hfunction
  rw [htop₂, htop₁] at hrow
  exact ⟨st₂.size, st₃.size, hfunction, hrow, hword, hsize₄⟩

/-- The object is the first argument. -/
theorem argumentCount_method (args : List Expr) :
    (argumentCount args 0).map (· + 1) = argumentCount args 1 := by
  unfold argumentCount
  split
  · split <;> rfl
  · rfl

theorem lowersCall_method {name : String} {list : Gen (Option Nat)} (line : Nat)
    (hobject : Lowers Good act part) (hargs : LowersList Good args list) :
    LowersCall Good (compileMethod line act name list) fun p home =>
      OfMethod p name args (part p home) (Row p home args none) := by
  intro ps st st' results u hs h
  simp only [compileMethod, bind_ok] at h
  obtain ⟨base, st₁, hbase, _, st₂, hvalue, _, st₃, hfunction, key, st₄, hkey, _, st₅, hline,
    place, st₆, hplace, _, st₇, hload, _, st₈, hself, _, st₉, hrelease, count, st₁₀, hlist, h⟩ := h
  obtain ⟨h₁, rfl⟩ := emits_reserve hbase hs
  have htop₁ := h₁.top_eq
  have h₂ := hobject h₁.sound (by omega) hvalue
  have htop₂ := h₂.top_eq
  have h₃ := (emits_reserve hfunction h₂.sound).1
  have htop₃ := h₃.top_eq
  obtain ⟨h₄, rfl⟩ := emits_reserve hkey h₃.sound
  have htop₄ := h₄.top_eq
  have h₅ := emits_setLine hline h₄.sound
  have htop₅ := h₅.top_eq
  have h₇ := emits_loadPool (bind_ok.mpr ⟨place, st₆, hplace, hload⟩) h₅.sound (by omega)
  have htop₇ := h₇.top_eq
  have hregisters := h₇.sound.top_le
  have hmax := h₇.sound.registers_le
  have h₈ := emits_abc hself h₇.sound
    (emitRegisters_step hself h₇.sound rfl (by simp) ⟨rfl, rfl⟩ (by omega) (by
      simp only [Opcode.runs, List.mem_cons, List.not_mem_nil, or_false]
      rintro run (rfl | rfl | rfl) <;> simp only <;> omega)) (by omega) (by omega) (by omega)
  have h₉ := emits_release hrelease h₈.sound
  have htop₉ := h₉.top_eq
  obtain ⟨t, h₁₀, hle, hn, rfl⟩ := hargs h₉.sound hlist
  have htop₁₀ := h₁₀.top_eq
  have hobjectAndKey := h₁.trans (h₂.trans (h₃.trans (h₄.trans (h₅.trans (h₇.trans (h₈.trans
    (h₉.trans h₁₀)))))))
  have hlevel := hs.level_le
  have hlevel₁₀ := hobjectAndKey.step.level
  have h₁₁ := finishCall_emits h h₁₀.sound (by omega) (by omega) fun k hk => by
    obtain ⟨k', hk', rfl⟩ := Option.map_eq_some_iff.mp hk
    have hk'' := hn k' hk'
    omega
  refine (hobjectAndKey.trans h₁₁).mono fun p home hp => ?_
  obtain ⟨⟨hsize₁, hvalue, hsize₃, hsize₄, hsize₅, ⟨⟨x, hwide, hconstant⟩, hsize₇⟩,
    ⟨hself, hsize₈⟩, hsize₉, hrow⟩, hword, hsize⟩ := hp
  rw [hsize₁, htop₁] at hvalue
  rw [hsize₅, hsize₄, hsize₃] at hwide hsize₇
  rw [hsize₇] at hself hsize₈
  rw [hsize₉, hsize₈] at hrow
  have hkey : st₃.top = st.top + 2 := by omega
  rw [hkey] at hwide hself
  rw [htop₉, hkey] at hrow
  rw [argumentCount_method] at hword
  exact ⟨st₂.size, st₁₀.size, x, hvalue, hwide, hconstant, hself, hrow, hword, hsize⟩

theorem callTo_emits {call : Option Nat → Gen Unit}
    {calling : Prototype → (String → Home) → Calling} (h : callTo r call st = .ok u st')
    (hs : Sound Good ps st) (hcall : LowersCall Good call calling) (hr : r < st.top) :
    Emits Good ps st st' st.top fun p home =>
      OfCalled p (calling p home) (.register r) st.top st.size st'.size := by
  simp only [callTo, bind_ok] at h
  obtain ⟨b, st₁, htop, h⟩ := h
  obtain ⟨rfl, hb⟩ := isTop_ok htop hs
  split at h
  next hb' =>
    have htop := (hb hb').1
    simp only [bind_ok] at h
    obtain ⟨_, st₂, hrelease, h⟩ := h
    have h₁ := emits_release hrelease hs
    have htop₁ := h₁.top_eq
    have h₂ := hcall h₁.sound h
    refine ((h₁.trans h₂).cast (by rw [htop₁]; exact htop)).mono fun p home hp => .inl ?_
    obtain ⟨hsize, hcalling⟩ := hp
    rw [hsize, htop₁] at hcalling
    exact ⟨htop, hcalling⟩
  next =>
    simp only [bind_ok, free_ok, and_assoc, exists_and_left, exists_eq_left] at h
    obtain ⟨_, st₂, hvalue, _, st₃, hmove, h⟩ := h
    have h₁ := hcall hs hvalue
    have htop := h₁.top_eq
    simp only [Option.getD_some] at htop
    have h₂ := emits_move hmove h₁.sound (by omega) (by omega)
    have h₃ := emits_release h h₂.sound
    refine (h₁.trans (h₂.trans h₃)).mono fun p home hp => .inr ?_
    obtain ⟨hcalling, ⟨hword, hsize⟩, hsize'⟩ := hp
    exact ⟨st₂.size, hcalling, hword, hsize'.trans hsize⟩

theorem called_emits {call : Option Nat → Gen Unit}
    {calling : Prototype → (String → Home) → Calling} (h : called d call st = .ok u st')
    (hs : Sound Good ps st) (hcall : LowersCall Good call calling) (hd : d.InUse st.top) :
    Emits Good ps st st' (d.after true st.top) fun p home =>
      OfCalled p (calling p home) d st.top st.size st'.size := by
  unfold called at h
  split at h
  next r => exact callTo_emits h hs hcall hd
  next r => exact callTo_emits h hs hcall hd
  next count =>
    refine (hcall hs h).cast ?_
    rcases count with _ | n <;> rfl

theorem compileVararg_emits (h : compileVararg line d st = .ok u st') (hs : Sound Good ps st)
    (hd : d.InUse st.top) :
    Emits Good ps st st' (d.after true st.top) fun p _ =>
      OfVararg p d st.top st.size st'.size := by
  have hstep := compileVararg_step h hs hd
  refine ⟨hstep, fun p home hf => ?_⟩
  have hregisters := hstep.sound.top_le
  have hmax := hstep.sound.registers_le
  rw [hstep.top_eq] at hregisters
  simp only [compileVararg, bind_ok] at h
  obtain ⟨_, st₁, hline, h⟩ := h
  have h₁ := emits_setLine hline hs
  have hsize₁ : st₁.size = st.size := setLine_size hline
  have hword : ∀ {st₂ r n}, Sound Good ps st₂ → st₂.size = st.size →
      emitAbc .vararg r 0 n st₂ = .ok u st' → r < 256 → n < 256 →
      p.HasWord st.size .vararg r 0 n ∧ st'.size = st.size + 1 := by
    intro st₂ r n hs₂ hsize he hr hn
    have hwords := hasWord_emitted he hs₂ (fun _ _ => rfl) hr (by omega) hn
      (hf.since (Nat.le_of_eq hsize.symm))
    rw [hsize] at hwords
    exact ⟨hwords, by rw [emitAbc_size he hs₂, hsize]⟩
  split at h
  next r =>
    have hr : r < st.top := hd
    simp only [Destination.after] at hregisters
    exact hword h₁.sound hsize₁ h (by omega) (by omega)
  next r =>
    have hr : r < st.top := hd
    simp only [Destination.after] at hregisters
    exact hword h₁.sound hsize₁ h (by omega) (by omega)
  next count =>
    have htop₁ := h₁.top_eq
    have hcount : countOperand count < 256 ∧ st.top < 256 := by
      cases count with
      | none =>
        simp only [Destination.after, if_true] at hregisters
        exact ⟨by simp [countOperand], by omega⟩
      | some n =>
        simp only [Destination.after] at hregisters
        simp only [countOperand]
        omega
    simp only [bind_ok, free_ok, and_assoc, exists_and_left, exists_eq_left] at h
    rw [htop₁] at h
    split at h
    next =>
      simp only [bind_ok] at h
      obtain ⟨_, st₂, hreserve, h⟩ := h
      have h₂ := (emits_reserve hreserve h₁.sound).1
      exact hword h₂.sound ((reserve_size hreserve h₁.sound).trans hsize₁) h hcount.2 hcount.1
    next => exact hword h₁.sound hsize₁ h hcount.2 hcount.1

end Lowering
end LuaMachine
