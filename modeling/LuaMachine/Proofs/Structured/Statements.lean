import LuaMachine.Proofs.Structured.Endings
import LuaMachine.Proofs.Structured.Layout
/-! # Statements

The words of a statement do what the statement says, wherever they stand in the code of a function:
the jumps that leave a loop are finished only when the loop ends, and so are some others.

* `Structured.Belongs`: the words between two states are those of a function.
* `Structured.Concludes`, `Structured.Performs`: what is shown of every statement.
* `Structured.locals_performs`, `Structured.assign_performs`, `Structured.ret_performs`,
  `Structured.exit_performs`: statements without statements inside.
* `Structured.Performs.andThen`, `Structured.enclosed_performs`: statements one after the other, and
  in a block.
-/
set_option autoImplicit false

namespace LuaMachine
namespace Structured

open Generator
open Machine (Spares Sets Shows Leads Tries Fails Halts)

/-! ## The words of statements -/

/-- The words between two states are those of a running function. The jumps that leave the innermost
loop go to `brk` in the end; those at the positions `js` are not finished yet. -/
structure Belongs (g : Activation) (brk : Nat) (js ps : List Nat) (st st' : State) : Prop where
  sound : Generator.Sound Prototype.WellFormed ps st
  main : Main st
  placed : Placed g.frame (st'.breaks ++ js) st st'
  breaks : ∀ n ∈ st'.breaks, st.size ≤ n → IsJump g.frame n brk

variable {g : Activation} {brk n t : Nat} {js ns ps ps' : List Nat} {st st' st₀ st₁ st₂ : State}
  {i : Instruction} {s s' before : Store} {m m' m'' : Machine} {f : Frame} {u : Unit}
  {locals more : Array Local} {e : Ending} {act : Gen Unit} {sem : Nat → Store → Ending}
  {line k l : Nat}

namespace Belongs

theorem word (h : Belongs g brk js ps st st') (hle : st.size ≤ n) (hb : n ∉ st'.breaks)
    (hj : n ∉ js) (hw : st'.current.proto.chunk.code[n]? = some i) :
    g.frame.prototype.chunk.code[n]? = some i := by
  refine (h.placed.words n hle (Prototype.lt_size_of_word hw) ?_).trans hw
  rw [List.mem_append, not_or]
  exact ⟨hb, hj⟩

theorem jump (h : Belongs g brk js ps st st') (hle : st.size ≤ n) (hb : n ∉ st'.breaks)
    (hj : n ∉ js) (hjump : st'.JumpsTo n t) : IsJump g.frame n t := by
  obtain ⟨i, hi, hop, ht⟩ := hjump
  exact ⟨i, h.word hle hb hj hi, hop, ht⟩

theorem upTo (h : Belongs g brk js ps st st') (hl : Lays st₁ st') : Belongs g brk js ps st st₁ where
  sound := h.sound
  main := h.main
  placed := by
    have hplaced := h.placed.before hl.code hl.grows
    refine ⟨fun n hn hlt hhole => hplaced.words n hn hlt fun hmem => hhole ?_,
      hplaced.constants, hplaced.registers⟩
    rcases List.mem_append.mp hmem with hmem | hmem
    · rcases hl.breaks_cases hmem with hmem | hge
      · exact List.mem_append_left js hmem
      · omega
    · exact List.mem_append_right _ hmem
  breaks n hn hle := h.breaks n (hl.mem_breaks hn) hle

theorem since (h : Belongs g brk js ps st st') (hle : st.size ≤ st₁.size)
    (hs : Generator.Sound Prototype.WellFormed ps' st₁) (hm : Main st₁) :
    Belongs g brk js ps' st₁ st' :=
  ⟨hs, hm, h.placed.after hle, fun n hn hle' => h.breaks n hn (Nat.le_trans hle hle')⟩

theorem after {t l : Nat} (h : Belongs g brk js ps st st')
    (hmove : Moves Prototype.WellFormed ps' st st₁ t l) : Belongs g brk js ps' st₁ st' :=
  h.since hmove.grows.size hmove.sound (hmove.main h.sound h.main)

/-- Positions elsewhere do not matter. -/
theorem only {js' : List Nat} (h : Belongs g brk js ps st st')
    (hjs : ∀ n ∈ js, st.size ≤ n → n < st'.size → n ∈ js') : Belongs g brk js' ps st st' where
  sound := h.sound
  main := h.main
  placed := by
    refine ⟨fun n hn hlt hhole => h.placed.words n hn hlt fun hmem => hhole ?_,
      h.placed.constants, h.placed.registers⟩
    rcases List.mem_append.mp hmem with hmem | hmem
    · exact List.mem_append_left _ hmem
    · exact List.mem_append_right _ (hjs n hmem hn hlt)
  breaks := h.breaks

/-- Words that were finished in the end are not finished before. -/
theorem unpatched (h : Belongs g brk js ps st st') (hp : Patches ns st₁ st') :
    Belongs g brk (ns ++ js) ps st st₁ where
  sound := h.sound
  main := h.main
  placed := by
    refine ⟨fun n hn hlt hhole => ?_, fun n k hk => h.placed.constants n k (hp.constants ▸ hk),
      hp.registers ▸ h.placed.registers⟩
    simp only [List.mem_append, not_or] at hhole
    obtain ⟨hbreak, hpatched, hlater⟩ := hhole
    have hhole' : n ∉ st'.breaks ++ js := by
      rw [List.mem_append, not_or, hp.breaks]
      exact ⟨hbreak, hlater⟩
    exact (h.placed.words n hn (hp.size ▸ hlt) hhole').trans (hp.other n hpatched)
  breaks n hn hle := h.breaks n (hp.breaks ▸ hn) hle

/-- Words among which no jump leaves the loop. -/
theorem compiles (h : Belongs g brk js ps st st') (hbreaks : st'.breaks = st.breaks)
    (hjs : ∀ n ∈ js, n < st.size ∨ st'.size ≤ n) : Compiles g ps st st' := by
  refine ⟨h.sound, h.main, h.placed.whole fun n hn => ?_⟩
  rw [hbreaks] at hn
  exact (List.mem_append.mp hn).elim (fun hmem => .inl (breaks_lt h.sound hmem)) (hjs n)

end Belongs

/-! ## What statements do -/

/-- The registers of variables that no text can name hold what they held. -/
def Hides (f : Frame) (locals : Array Local) (m m' : Machine) : Prop :=
  ∀ l ∈ locals, l.name = loopState → m'.reg f l.register = m.reg f l.register

namespace Hides

theorem refl (f : Frame) (locals : Array Local) (m : Machine) : Hides f locals m m :=
  fun _ _ _ => rfl

theorem of_stack (f : Frame) (locals : Array Local) (h : m'.stack = m.stack) :
    Hides f locals m m' := fun l _ _ => by
  rw [Machine.reg, h]
  rfl

theorem trans (h : Hides f locals m m') (h' : Hides f locals m' m'') : Hides f locals m m'' :=
  fun l hl hname => (h' l hl hname).trans (h l hl hname)

theorem of_append (h : Hides f (locals ++ more) m m') : Hides f locals m m' :=
  fun l hl => h l (Array.mem_append_left more hl)

theorem of_spares (hs : Generator.Sound Prototype.WellFormed ps st)
    (h : Spares g.frame st.level m m') : Hides g.frame st.current.locals m m' :=
  fun _ hl _ => h.reg _ (register_lt_level hs hl)

theorem of_renews (hs : Generator.Sound Prototype.WellFormed ps st)
    (h : Renews g.frame st.current.locals st.level m m') :
    Hides g.frame st.current.locals m m' := by
  intro l hl hname
  refine h _ (register_lt_level hs hl) fun l' hl' heq => ?_
  obtain ⟨n, hn⟩ := Array.mem_iff_getElem?.mp hl
  obtain ⟨n', hn'⟩ := Array.mem_iff_getElem?.mp hl'
  have hregister := hs.current.locals n l hn
  have hregister' := hs.current.locals n' l' hn'
  obtain rfl : n' = n := by omega
  cases hn.symm.trans hn'
  exact hname

end Hides

/-- The machine is behind the loop, with the variables from before the statement and others that are
to be forgotten. -/
structure Leaves (g : Activation) (brk : Nat) (st : State) (m : Machine) (s : Store)
    (m' : Machine) : Prop where
  at' : g.At brk m'
  holds : ∃ more, Holds g.frame (st.current.locals ++ more) s m'
  hides : Hides g.frame st.current.locals m m'

/-- The words between the states end as told; only inside of a loop they can leave one. -/
def Concludes (g : Activation) (brk : Nat) (st st' : State) (n : Nat) (m : Machine) (e : Ending) :
    Prop :=
  Ends g.frame (fun s' m' => Here g st' s' m' ∧ Hides g.frame st.current.locals m m')
    (fun s' m' => st.loops ≠ [] ∧ Leaves g brk st m s' m') n m e

/-- The words that the action writes do what is told of them. -/
structure Performs (act : Gen Unit) (sem : Nat → Store → Ending) : Prop where
  sound : BodySound Prototype.WellFormed act
  spec : ∀ ⦃ps : List Nat⦄ ⦃st st' : State⦄ ⦃u : Unit⦄, Generator.Sound Prototype.WellFormed ps st →
    st.top = st.level → act st = .ok u st' →
    Lays st st' ∧ ∀ ⦃g : Activation⦄ ⦃brk : Nat⦄ ⦃s : Store⦄ ⦃m : Machine⦄ (n : Nat),
      Belongs g brk [] ps st st' → Here g st s m → Concludes g brk st st' n m (sem n s)

/-! ## Statements without statements inside -/

theorem locals_performs {bs : List Binder} {values : List Expr}
    (hnames : ∀ b ∈ bs, b.name ≠ loopState) (hvalues : ∀ e ∈ values, isExpr e = true) (line : Nat) :
    Performs (statement (.locals bs values line)) fun n s => exec n (.locals bs values line) s := by
  refine ⟨bodySound closed_wellFormed _, fun ps st st' u hs htop h => ?_⟩
  rw [statement] at h
  simp only [bind_ok] at h
  obtain ⟨_, st₁, hline, count, st₂, hlist, h⟩ := h
  have hstep₁ := setLine_step hline hs
  have hstep₂ := adjusted_wanted_step hlist hstep₁.sound
  have hlays₃ := addBinders_lays h hstep₂.sound
  have htop₁ := hstep₁.top_eq
  have hlevel₂ : st₂.level = st.level := hstep₂.level.trans hstep₁.level
  have hstep := hstep₁.trans hstep₂
  refine ⟨(Lays.of_step hstep).trans hlays₃, fun g brk s m n hb hh => ?_⟩
  have hc := (hb.upTo hlays₃).compiles hstep.breaks (by simp)
  simp only [exec]
  refine .attempt (adjusted_loads hvalues hlist (hc.since hstep₁)
    (hh.silent hs hstep₁ (setLine_size hline))) fun vs m' _ hm' => .here ?_
  refine ⟨addBinders_here h hstep₂.sound hnames (length_adjust _ _) (fun j w hw => ?_) hm'.here,
    .of_spares hs (hm'.spares.weaken (by omega))⟩
  rw [show st₂.level = st₁.top by omega]
  exact hm'.regs j w hw

theorem assign_performs {left right : List Expr} (hleft : ∀ e ∈ left, isExpr e = true)
    (hright : ∀ e ∈ right, isExpr e = true) (line : Nat) :
    Performs (statement (.assign left right line)) fun n s => exec n (.assign left right line) s := by
  refine ⟨bodySound closed_wellFormed _, fun ps st st' u hs htop h => ?_⟩
  have hstep := assign_step h hs (targetsSound closed_wellFormed left)
    (itemsSound closed_wellFormed right)
  refine ⟨.of_step hstep, fun g brk s m n hb hh => ?_⟩
  have hc := hb.compiles hstep.breaks (by simp)
  have hsem : exec n (.assign left right line) s =
      attempt ((left.mapM (place s)).bind fun places => (right.mapM (value s)).bind fun vs =>
        s.putAll places (adjust left.length vs)) .next := by
    simp only [exec]
    cases left.mapM (place s) with
    | none => rfl
    | some places => cases right.mapM (value s) <;> rfl
  rw [hsem]
  exact .attempt (assign_puts h hc htop hleft hright hh) fun s' m' _ hput =>
    .here (hput.imp_right (.of_renews hs))

/-- The word that returns ends with the values of its registers. -/
theorem ret_returns {a b : Nat} {vs : List Value} {i : Instruction}
    (hi : IsWord g.frame n .ret a b 0 i) (hb : b = vs.length + 1)
    (hfit : a + vs.length ≤ g.frame.prototype.registers) {v : Value} {tables : Tables}
    (hat : g.At n m) (hshows : Shows g.frame v tables m)
    (hregs : ((List.range vs.length).map fun j => m.reg g.frame (a + j)) = vs) :
    Returns g.frame vs tables m := by
  obtain ⟨m', hhalts, hheap, hglobals, hresults⟩ :=
    hat.ret g.opened hi.word hi.op (n := vs.length) (by rw [hi.b, hb]) (by rw [hi.a]; exact hfit)
      g.toHost g.wanted
  rw [hi.a, hregs] at hresults
  refine ⟨m', hhalts, hresults, ?_, ?_, ?_, ?_⟩
  · rw [hheap, ← hregs]
    rintro w hw
    obtain ⟨j, -, rfl⟩ := List.mem_map.mp hw
    exact hat.reg_has _
  · rw [hheap, hglobals]
    exact hat.ready.globals
  · rw [hheap]
    exact hshows.tables
  · rw [hheap]
    exact fun r t ht => hat.ready.heap.objects r _ ht

/-- The only variable that is returned stays in its register. -/
theorem returnedVariable_value {values : List Expr} {found : Option Nat}
    (h : returnedVariable values st = .ok found st')
    (hs : Generator.Sound Prototype.WellFormed ps st) (hm : Main st)
    (hvalues : ∀ e ∈ values, isExpr e = true) (hh : Here g st s m) :
    st' = st ∧ ∀ r, found = some r → values.mapM (value s) = some [m.reg g.frame r] := by
  unfold returnedVariable at h
  split at h
  next n line =>
    simp only [bind_ok] at h
    obtain ⟨reference, st₁, hresolve, h⟩ := h
    have hname : n ≠ loopState := by simpa [isExpr] using hvalues _ List.mem_cons_self
    obtain ⟨rfl, ⟨l, hl, rfl⟩ | ⟨-, ⟨-, c, rfl⟩ | ⟨-, rfl⟩⟩⟩ := resolve_main hresolve hs hm
    · simp only [pure_ok] at h
      obtain ⟨rfl, rfl⟩ := h
      refine ⟨rfl, fun r hr => ?_⟩
      cases hr
      have hread : value s (.name n line) = some (m.reg g.frame l.register) := hh.read_local hl hname
      rw [mapM_cons, hread]
      rfl
    · simp only [pure_ok] at h
      exact ⟨h.2, by simp [h.1]⟩
    · simp only [pure_ok] at h
      exact ⟨h.2, by simp [h.1]⟩
  next =>
    simp only [pure_ok] at h
    exact ⟨h.2, by simp [h.1]⟩

theorem adjusted_all {es : List Expr} {count : Option Nat}
    (hes : ∀ e ∈ es, isExpr e = true) (hne : es.isEmpty = false)
    (h : adjusted es none (fun last => items es last) st = .ok count st') :
    count = some es.length ∧ items es none st = .ok () st' := by
  simp only [adjusted, bind_ok, free_ok, and_assoc, exists_and_left, exists_eq_left] at h
  cases hlast : es.getLast? with
  | none =>
    obtain rfl := List.getLast?_eq_none_iff.mp hlast
    cases hne
  | some last =>
    simp only [hlast, bind_ok, pure_ok, Option.map_none,
      isMultiple_of_isExpr (hes last (List.mem_of_getLast? hlast)), Bool.false_eq_true,
      if_false] at h
    obtain ⟨_, st₁, hitems, rfl, rfl⟩ := h
    exact ⟨rfl, hitems⟩

/-- The registers from `r` on are returned. -/
theorem emitReturn_returns {r : Nat} (vs : List Value)
    (h : emitAbc .ret r (vs.length + 1) 0 st = .ok u st') (hc : Compiles g ps st st')
    (hfit : r + vs.length ≤ st.current.proto.registers)
    (hregs : ((List.range vs.length).map fun j => m.reg g.frame (r + j)) = vs) (hh : Here g st s m) :
    Returns g.frame vs s.tables m := by
  have hmax := hc.sound.registers_le
  have hgrow := (emitAbc_adds h hc.sound).grows.registers
  have hregisters := hc.placed.registers
  obtain ⟨⟨i, hi⟩, -⟩ := hc.placed.abc h hc.sound (by omega) (by omega) (by omega)
  obtain ⟨v, -, hshows⟩ := hh.holds
  exact ret_returns hi rfl (by omega) hh.at' hshows hregs

theorem ret_performs {values : List Expr} (hvalues : ∀ e ∈ values, isExpr e = true) (line : Nat) :
    Performs (statement (.ret values line)) fun n s => exec n (.ret values line) s := by
  refine ⟨bodySound closed_wellFormed _, fun ps st st' u hs htop h => ?_⟩
  rw [statement] at h
  simp only [bind_ok] at h
  obtain ⟨_, st₁, hline, found, st₂, hfound, h⟩ := h
  have hstep₁ := setLine_step hline hs
  obtain ⟨hstep₂', hlt⟩ := returnedVariable_step hfound hstep₁.sound
  have hstep₂ := hstep₁.trans hstep₂'
  have htop₁ := hstep₁.top_eq
  have htop₂ := hstep₂.top_eq
  have hlevel₁ := hstep₁.level
  have hlevel₂ := hstep₂.level
  have hregisters := hstep₂.sound.top_le
  have hmax := hstep₂.sound.registers_le
  have hsem : ∀ n s, exec n (.ret values line) s =
      attempt (values.mapM (value s)) fun vs => .returned vs s.tables := fun n s => by
    simp only [exec]
  have hsame : ∀ {g : Activation} {s : Store} {m : Machine}, Main st → Here g st s m →
      Here g st₂ s m ∧ ∀ r, found = some r → values.mapM (value s) = some [m.reg g.frame r] :=
    fun hm hh => by
      have hh₁ := hh.silent hs hstep₁ (setLine_size hline)
      obtain ⟨rfl, hvalue⟩ := returnedVariable_value hfound hstep₁.sound
        (hstep₁.main hs hm) hvalues hh₁
      exact ⟨hh₁, hvalue⟩
  simp only [hsem]
  rcases found with _ | r
  · cases hempty : values.isEmpty with
    | true =>
      obtain rfl := List.isEmpty_iff.mp hempty
      simp only [hempty] at h
      have hadds := emitAbc_adds h hstep₂.sound
      refine ⟨(Lays.of_step hstep₂).trans (.of_adds hadds), fun g brk s m n hb hh => ?_⟩
      have hc := (hb.after hstep₂.moves).compiles (breaks_of_adds hadds) (by simp)
      exact .here (emitReturn_returns [] h hc (Nat.zero_le _) rfl (hsame hb.main hh).1)
    | false =>
      simp only [hempty, bind_ok, free_ok, and_assoc, exists_and_left, exists_eq_left] at h
      obtain ⟨count, st₃, hlist, _, st₄, hline', _, st₅, hreturn, h⟩ := h
      obtain ⟨rfl, hitems⟩ := adjusted_all hvalues hempty hlist
      have hstep₃ := items_step hvalues hitems hstep₂.sound
      have hstep₄' := setLine_step hline' hstep₃.sound
      have hstep₄ := hstep₃.trans hstep₄'
      have htop₃ := hstep₃.top_eq
      have htop₄ := hstep₄.top_eq
      have hregisters' := hstep₄.sound.top_le
      have hadds := emitAbc_adds hreturn hstep₄.sound
      have hmove := emitReturn_moves hreturn hstep₄.sound (by omega) (.inr (by
        show st₂.top + (values.length + 1 - 1) ≤ _
        omega))
      have hrelease := (release_step h hmove.sound).1
      have hlays₄ := (Lays.of_step hstep₂).trans (Lays.of_step hstep₄)
      refine ⟨(hlays₄.trans (.of_adds hadds)).trans (.of_step hrelease),
        fun g brk s m n hb hh => ?_⟩
      have hb₅ := (hb.after hstep₂.moves).upTo (.of_step hrelease)
      have hc₃ := (hb₅.upTo ((Lays.of_step hstep₄').trans (.of_adds hadds))).compiles hstep₃.breaks
        (by simp)
      have hc₄ := (hb₅.after hstep₄.moves).compiles (breaks_of_adds hadds) (by simp)
      refine .attempt (items_loads hvalues hitems hc₃ (hsame hb.main hh).1) fun vs m' hvs hm' => ?_
      have hlength := length_of_mapM hvs
      have hh₄ := hm'.here.silent hstep₃.sound hstep₄' (setLine_size hline')
      rw [show countOperand (some values.length) = vs.length + 1 by rw [hlength]; rfl] at hreturn
      exact .here (emitReturn_returns _ hreturn hc₄ (by omega) hm'.range hh₄)
  · have hr := hlt r rfl
    have hadds := emitAbc_adds h hstep₂.sound
    refine ⟨(Lays.of_step hstep₂).trans (.of_adds hadds), fun g brk s m n hb hh => ?_⟩
    have hc := (hb.after hstep₂.moves).compiles (breaks_of_adds hadds) (by simp)
    obtain ⟨hh₂, hvalue⟩ := hsame hb.main hh
    rw [hvalue r rfl]
    exact .here (emitReturn_returns [m.reg g.frame r] h hc
      (by simp only [List.length_singleton]; omega) (by simp) hh₂)

/-! ## Leaving a loop -/

/-- A word that closes variables finds none to close. -/
theorem closes_leads (hword : st'.size = st.size ∨ st'.size = st.size + 1 ∧
      ∃ i, g.frame.prototype.chunk.code[st.size]? = some i ∧ i.opcode? = some .close)
    (hat : g.At st.size m) :
    Leads 0 m fun m' => g.At st'.size m' ∧ m'.stack = m.stack ∧ m'.heap = m.heap := by
  rcases hword with hsize | ⟨hsize, i, hi, hop⟩
  · exact .here ⟨hsize ▸ hat, rfl, rfl⟩
  · rw [hsize]
    exact (hat.close g.opened hi hop).weaken (Nat.zero_le 1)

theorem Holds.same {pc : Nat} (h : Holds g.frame locals s m) (hat : g.At pc m')
    (hstack : m'.stack = m.stack) (hheap : m'.heap = m.heap) : Holds g.frame locals s m' := by
  obtain ⟨v, hvariables, hshows⟩ := h
  refine ⟨v, ?_, hshows.thins hat (hheap ▸ .refl _)⟩
  rw [visible_of_stack _ hstack]
  exact hvariables

theorem exit_performs (line : Nat) :
    Performs (statement (.exit line)) fun n s => exec n (.exit line) s := by
  refine ⟨bodySound closed_wellFormed _, fun ps st st' u hs htop h => ?_⟩
  rw [statement] at h
  obtain ⟨hne, hlays, st₂, hcloses, hbreaks, hcode⟩ := compileBreak_lays h hs
  refine ⟨hlays, fun g brk s m n hb hh => ?_⟩
  have hle : st.size ≤ st₂.size := hcloses.adds.grows.size
  have hjump : IsJump g.frame st₂.size brk := hb.breaks _ (by simp [hbreaks]) hle
  have hword : st₂.size = st.size ∨ st₂.size = st.size + 1 ∧
      ∃ i, g.frame.prototype.chunk.code[st.size]? = some i ∧ i.opcode? = some .close := by
    refine hcloses.word.imp_right ?_
    rintro ⟨hsize, i, hi, hop⟩
    refine ⟨hsize, i, ?_, hop⟩
    refine hb.word (Nat.le_refl _) ?_ List.not_mem_nil ((hcode _ (by omega)).trans hi)
    rw [hbreaks, List.mem_append, not_or]
    refine ⟨fun hmem => Nat.lt_irrefl _ (breaks_lt hs hmem), ?_⟩
    rw [List.mem_singleton]
    omega
  simp only [exec]
  refine Leads.andThen (closes_leads hword hh.at') ?_
  rintro m₁ ⟨hat₁, hstack₁, hheap₁⟩
  refine Leads.weaken (Leads.mono (hjump.leads hat₁) ?_) (Nat.zero_le 1)
  rintro m₂ ⟨hat₂, hstack₂, hheap₂⟩
  have hstack := hstack₂.trans hstack₁
  refine ⟨hne, hat₂, ⟨#[], ?_⟩, .of_stack _ _ hstack⟩
  rw [Array.append_empty]
  exact hh.holds.same hat₂ hstack (hheap₂.trans hheap₁)

/-! ## Statements one after the other -/

theorem Performs.nil (ends : Bool) : Performs (statements ends []) fun n s => execAll n [] s := by
  refine ⟨(declares_nil ends).sound, fun ps st st' u hs htop h => ?_⟩
  rw [statements, pure_ok] at h
  obtain ⟨-, rfl⟩ := h
  refine ⟨.refl _, fun g brk s m n hb hh => ?_⟩
  simp only [execAll]
  exact .here ⟨hh, .refl _ _ _⟩

/-- Variables that were declared before a statement are still there after it. -/
theorem Concludes.of_extends (h : Concludes g brk st₁ st' n m' e)
    (hlocals : ∃ more, st₁.current.locals = st.current.locals ++ more)
    (hloops : st₁.loops ≠ [] → st.loops ≠ []) (hhides : Hides g.frame st.current.locals m m') :
    Ends g.frame (fun s' m' => Here g st' s' m' ∧ Hides g.frame st.current.locals m m')
      (fun s' m' => st.loops ≠ [] ∧ Leaves g brk st m s' m') n m' e := by
  obtain ⟨more, hmore⟩ := hlocals
  refine h.mono ?_ ?_
  · rintro s' m'' ⟨hh, hrest⟩
    rw [hmore] at hrest
    exact ⟨hh, hhides.trans hrest.of_append⟩
  · rintro s' m'' ⟨hne, hleaves⟩
    obtain ⟨more', hholds⟩ := hleaves.holds
    have hrest := hleaves.hides
    rw [hmore] at hrest hholds
    rw [Array.append_assoc] at hholds
    exact ⟨hloops hne, hleaves.at', ⟨_, hholds⟩, hhides.trans hrest.of_append⟩

theorem Performs.andThen {act' : Gen Unit} {sem' : Nat → Store → Ending} (h : Performs act sem)
    (h' : Performs act' sem') :
    Performs (do act; act') fun n s => (sem n s).andThen (sem' n) := by
  refine ⟨h.sound.andThen h'.sound, fun ps st st' u hs htop hok => ?_⟩
  rw [bind_ok] at hok
  obtain ⟨_, st₁, hfirst, hsecond⟩ := hok
  obtain ⟨t, hmove⟩ := h.sound _ _ _ _ hs htop hfirst
  have htop₁ : st₁.top = st₁.level := hmove.top_eq.trans hmove.level_eq.symm
  obtain ⟨hlays, hends⟩ := h.spec hs htop hfirst
  obtain ⟨hlays', hends'⟩ := h'.spec hmove.sound htop₁ hsecond
  refine ⟨hlays.trans hlays', fun g brk s m n hb hh => ?_⟩
  refine .andThen (hends n (hb.upTo hlays') hh) ?_
  rintro s₁ m₁ ⟨hh₁, hhides⟩
  exact (hends' n (hb.after hmove) hh₁).of_extends hmove.extends'.current.locals
    hlays.loops_ne_nil hhides

theorem Performs.cons {t : Stmt} {rest : List Stmt} (ends : Bool) (ht : isStmt t = true)
    (h : Performs (statement t) fun n s => exec n t s)
    (hrest : Performs (statements ends rest) fun n s => execAll n rest s) :
    Performs (statements ends (t :: rest)) fun n s => execAll n (t :: rest) s := by
  have hlabel : ∀ name line, t ≠ .label name line := by
    rintro name line rfl
    cases ht
  simp only [execAll]
  rw [statements.eq_3 _ _ _ hlabel]
  exact h.andThen hrest

/-! ## Blocks -/

theorem visible_append (f : Frame) (locals more : Array Local) (m : Machine) :
    visible f (locals ++ more) m = visible f more m ++ visible f locals m := by
  simp [visible]

/-- At the end of a block the variables from before it are left. -/
theorem Holds.back {m₀ : Machine} (h : Holds f (locals ++ more) s m)
    (hb : Holds f locals before m₀) : Holds f locals (s.back before) m := by
  obtain ⟨v, hvariables, hshows⟩ := h
  obtain ⟨v₀, hbefore, -⟩ := hb
  refine ⟨v, ?_, hshows⟩
  have hlength : before.bindings.length = (visible f locals m ++ [("_ENV", v)]).length := by
    rw [hbefore]
    simp [visible]
  rw [visible_append, List.append_assoc] at hvariables
  rw [Store.back, hlength, hvariables, List.length_append, Nat.add_sub_cancel, List.drop_left]

/-- The machine is at a word, with the variables from before the words that brought it there. -/
structure Arrives (g : Activation) (locals : Array Local) (m : Machine) (t : Nat) (s : Store)
    (m' : Machine) : Prop where
  at' : g.At t m'
  holds : Holds g.frame locals s m'
  hides : Hides g.frame locals m m'

/-- Variables from before other words, after which nothing was stored. -/
theorem Arrives.then (h : Arrives g locals m t s m') (hat : g.At n m'')
    (hstack : m''.stack = m'.stack) (hheap : m''.heap = m'.heap) : Arrives g locals m n s m'' :=
  ⟨hat, h.holds.same hat hstack hheap, h.hides.trans (.of_stack _ _ hstack)⟩

/-- At the end of a block the words that it consists of are left, and its variables with them. -/
theorem closed_ends {isLoop : Bool} {breaks : List Nat} {m₀ : Machine}
    (hbegin : beginBlock isLoop st₀ = .ok u st₁) (hends : Concludes g brk st₁ st n m e)
    (hs : Generator.Sound Prototype.WellFormed ps st₀)
    (hlocals : ∃ more, st.current.locals = st₁.current.locals ++ more)
    (hcloses : Closes isLoop breaks st₀ st st')
    (hword : st'.size = st.size ∨ st'.size = st.size + 1 ∧
      ∃ i, g.frame.prototype.chunk.code[st.size]? = some i ∧ i.opcode? = some .close)
    (hbefore : Holds g.frame st₀.current.locals before m₀) :
    Ends g.frame (fun s' m' => Here g st' s' m' ∧ Hides g.frame st₀.current.locals m m')
      (fun s' m' => st₁.loops ≠ [] ∧ Arrives g st₀.current.locals m brk s' m') n m
      (e.closed before) := by
  obtain ⟨more, hmore⟩ := hlocals
  rw [(beginBlock_locals hbegin hs).1] at hmore
  refine Ends.closed hends ?_ ?_
  · rintro s' m' ⟨hh, hhides⟩
    have hholds := hh.holds
    rw [(beginBlock_locals hbegin hs).1] at hhides
    rw [hmore] at hholds
    refine (closes_leads hword hh.at').mono ?_
    rintro m'' ⟨hat, hstack, hheap⟩
    refine ⟨⟨hat, ?_⟩, ?_⟩
    · rw [hcloses.locals]
      exact (hholds.back hbefore).same hat hstack hheap
    · exact hhides.trans (.of_stack _ _ hstack)
  · rintro s' m' ⟨hne, hleaves⟩
    obtain ⟨more', hholds⟩ := hleaves.holds
    have hhides := hleaves.hides
    rw [(beginBlock_locals hbegin hs).1] at hholds hhides
    exact ⟨hne, hleaves.at', hholds.back hbefore, hhides⟩

/-- What stands in a block does what it does on its own, and its variables are forgotten. -/
theorem block_ends {isLoop : Bool} {breaks : List Nat} (hperforms : Performs act sem)
    (hbegin : beginBlock isLoop st₀ = .ok u st₁) (hact : act st₁ = .ok u st)
    (hs : Generator.Sound Prototype.WellFormed ps st₀) (htop : st₀.top = st₀.level)
    (hcloses : Closes isLoop breaks st₀ st st') (hb : Belongs g brk [] ps st₁ st)
    (hword : st'.size = st.size ∨ st'.size = st.size + 1 ∧
      ∃ i, g.frame.prototype.chunk.code[st.size]? = some i ∧ i.opcode? = some .close)
    (hh : Here g st₀ s m) :
    Ends g.frame (fun s' m' => Here g st' s' m' ∧ Hides g.frame st₀.current.locals m m')
      (fun s' m' => st₁.loops ≠ [] ∧ Arrives g st₀.current.locals m brk s' m') n m
      ((sem n s).closed s) := by
  obtain ⟨hlocals₁, hproto₁, -⟩ := beginBlock_locals hbegin hs
  obtain ⟨hs₁, htop₁, hlevel₁, -⟩ := beginBlock_sound hbegin hs
  obtain ⟨t, hmove⟩ := hperforms.sound _ _ _ _ hs₁ (by omega) hact
  have hsize₁ : st₁.size = st₀.size := by rw [State.size, hproto₁]
  have hh₁ : Here g st₁ s m := ⟨hsize₁ ▸ hh.at', hlocals₁ ▸ hh.holds⟩
  exact closed_ends hbegin ((hperforms.spec hs₁ (by omega) hact).2 n hb hh₁) hs
    hmove.extends'.current.locals hcloses hword hh.holds

/-- The word that ends a block is a word of the function. -/
theorem Belongs.closes {isLoop : Bool} {breaks : List Nat} (h : Belongs g brk js ps st₀ st')
    (hcloses : Closes isLoop breaks st₁ st st') (hle : st₀.size ≤ st.size)
    (hs : Generator.Sound Prototype.WellFormed ps' st') (hjs : st.size ∉ js) :
    st'.size = st.size ∨ st'.size = st.size + 1 ∧
      ∃ i, g.frame.prototype.chunk.code[st.size]? = some i ∧ i.opcode? = some .close := by
  refine hcloses.word.imp_right ?_
  rintro ⟨hsize, i, hi, hop⟩
  refine ⟨hsize, i, ?_, hop⟩
  refine h.word hle (fun hmem => ?_) hjs hi
  have hjump := breaks_jump hs hmem
  cases hjump.symm.trans (Prototype.opcodeAt?_eq_some_iff.mpr ⟨i, hi, hop⟩)

theorem beginBlock_main {isLoop : Bool} (h : beginBlock isLoop st = .ok u st')
    (hs : Generator.Sound Prototype.WellFormed ps st) (hm : Main st) : Main st' := by
  obtain ⟨-, hproto, -⟩ := beginBlock_locals h hs
  obtain rfl := beginBlock_ok h
  exact ⟨by rw [State.outer_mapCurrent, hm.alone], by rw [hproto, hm.upvalues]⟩

theorem enclosed_performs (hperforms : Performs act sem) :
    Performs (do let _ ← inBlock false act) fun n s => (sem n s).closed s := by
  refine ⟨fun ps st st' u hs htop h =>
    ⟨_, enclosedSound_inBlock hperforms.sound _ _ _ _ hs htop h⟩, fun ps st st' u hs htop h => ?_⟩
  simp only [inBlock, bind_ok, pure_ok] at h
  obtain ⟨b, st₁, ⟨_, st₂, hbegin, _, st₃, hinner, hclose⟩, -, rfl⟩ := h
  obtain ⟨-, hproto₂, hloops₂⟩ := beginBlock_locals hbegin hs
  obtain ⟨hs₂, htop₂, hlevel₂, -⟩ := beginBlock_sound hbegin hs
  have hsize₂ : st₂.size = st.size := by rw [State.size, hproto₂]
  obtain ⟨t, hmove⟩ := hperforms.sound _ _ _ _ hs₂ (by omega) hinner
  have hlays₃ := (hperforms.spec hs₂ (by omega) hinner).1
  have hcloses := closeBlock_closes hbegin hs hmove.extends' hmove.sound hclose
  have hmove' := (closeBlock_moves hbegin hs hmove.extends' hmove.sound hclose).1
  have hlays₂ : Lays st st₂ := .of_loops (by rw [hproto₂]; exact .refl _)
    (fun n _ => by rw [hproto₂]) hloops₂
  have hend : Lays st₃ st' := .of_loops hcloses.grows hcloses.code hcloses.loops.symm
  refine ⟨hcloses.lays (hlays₂.trans hlays₃), fun g brk s m n hb hh => ?_⟩
  have hle : st.size ≤ st₃.size := (hlays₂.trans hlays₃).size_le
  have hb₃ := (hb.upTo hend).since (Nat.le_of_eq hsize₂.symm) hs₂ (beginBlock_main hbegin hs hb.main)
  have hends := block_ends hperforms hbegin hinner hs htop hcloses hb₃
    (hb.closes hcloses hle hmove'.sound List.not_mem_nil) hh (n := n)
  rw [hloops₂] at hends
  refine hends.mono (fun s' m' => id) ?_
  rintro s' m' ⟨hne, h⟩
  refine ⟨hne, h.at', ⟨#[], ?_⟩, h.hides⟩
  rw [Array.append_empty]
  exact h.holds

theorem Performs.atLine (h : Performs act sem) (line : Nat) :
    Performs (do setLine line; act) sem := by
  have hfirst : ∀ {ps : List Nat} {st st' : State} {u : Unit},
      Generator.Sound Prototype.WellFormed ps st → st.top = st.level →
      (do setLine line; act : Gen Unit) st = .ok u st' → ∃ st₁,
        Step Prototype.WellFormed ps st st₁ st.top ∧ st₁.size = st.size ∧ st₁.top = st₁.level ∧
          act st₁ = .ok u st' := fun hs htop hok => by
    rw [bind_ok] at hok
    obtain ⟨_, st₁, hline, hok⟩ := hok
    have hstep := setLine_step hline hs
    have htop₁ := hstep.top_eq
    have hlevel₁ := hstep.level
    exact ⟨st₁, hstep, setLine_size hline, by omega, hok⟩
  refine ⟨fun ps st st' u hs htop hok => ?_, fun ps st st' u hs htop hok => ?_⟩
  · obtain ⟨st₁, hstep, -, htop₁, hok⟩ := hfirst hs htop hok
    obtain ⟨t, hmove⟩ := h.sound _ _ _ _ hstep.sound htop₁ hok
    exact ⟨t, hstep.moves.trans hmove⟩
  · obtain ⟨st₁, hstep, hsize, htop₁, hok⟩ := hfirst hs htop hok
    obtain ⟨hlays, hends⟩ := h.spec hstep.sound htop₁ hok
    refine ⟨(Lays.of_step hstep).trans hlays, fun g brk s m n hb hh => ?_⟩
    exact (hends n (hb.after hstep.moves) (hh.silent hs hstep hsize)).of_extends
      hstep.moves.extends'.current.locals (Lays.of_step hstep).loops_ne_nil (.refl _ _ _)

theorem block_performs {ss : List Stmt}
    (hbody : Performs (statements true ss) fun n s => execAll n ss s) (line : Nat) :
    Performs (statement (.block ss line)) fun n s => exec n (.block ss line) s := by
  simp only [exec]
  rw [statement]
  exact (enclosed_performs hbody).atLine line

end Structured
end LuaMachine
