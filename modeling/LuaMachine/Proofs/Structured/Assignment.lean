import LuaMachine.Proofs.Structured.Expressions
/-! # Lists of values and assignments

What the words do that put a list of values into consecutive registers, that make variables of them,
and that store them at the places of an assignment.

* `Structured.adjusted_loads`: a list of expressions, adjusted to a number of values.
* `Structured.addBinders_here`: values become variables.
* `Structured.targets_aims`, `Structured.storeAll_puts`: places, and storing at them.
-/
set_option autoImplicit false

namespace LuaMachine
namespace Structured

open Generator
open Machine (Spares Sets Shows Leads Tries Fails)

variable {g : Activation} {ps : List Nat} {st st' st₁ : State} {s : Store} {m m' : Machine}
  {t r line w : Nat} {u : Unit} {e : Expr} {es : List Expr} {v : Value} {vs : List Value}

/-! ## Lists of values -/

theorem isMultiple_of_isExpr (h : isExpr e = true) : e.isMultiple = false := by
  cases e <;> first | rfl | cases h

theorem mapM_cons {α β : Type} (f : α → Option β) (a : α) (as : List α) :
    (a :: as).mapM f = (f a).bind fun b => (as.mapM f).map (b :: ·) := by
  rw [List.mapM_cons]
  cases f a with
  | none => rfl
  | some b => cases as.mapM f <;> rfl

/-- The first of the values. -/
theorem Loads.of_prefix {vs' : List Value} (h : Loads g st s r vs m m') (hp : vs' <+: vs) :
    Loads g st s r vs' m m' where
  here := h.here
  spares := h.spares
  regs j w hw := by
    obtain ⟨rest, rfl⟩ := hp
    have hlt := (List.getElem?_eq_some_iff.mp hw).1
    exact h.regs j w (by rw [List.getElem?_append_left hlt]; exact hw)

theorem Loads.silent (h : Loads g st s r vs m m') (hs : Generator.Sound Prototype.WellFormed ps st)
    (hstep : Step Prototype.WellFormed ps st st' t) (hsize : st'.size = st.size) :
    Loads g st' s r vs m m' :=
  ⟨h.here.silent hs hstep hsize, h.spares, h.regs⟩

/-- The list of no values. -/
theorem Loads.nil (hh : Here g st s m) (r : Nat) : Loads g st s r [] m m :=
  ⟨hh, .refl _ _ _, by simp⟩

theorem items_step {last : Option Nat} (hes : ∀ e ∈ es, isExpr e = true)
    (h : items es last st = .ok u st') (hs : Generator.Sound Prototype.WellFormed ps st) :
    Step Prototype.WellFormed ps st st' (st.top + es.length) := by
  refine (itemsSound closed_wellFormed es _ _ _ _ _ hs h).cast ?_
  unfold itemsTop
  cases hlast : es.getLast? with
  | none =>
    obtain rfl := List.getLast?_eq_none_iff.mp hlast
    rfl
  | some e =>
    simp only [isMultiple_of_isExpr (hes e (List.mem_of_getLast? hlast)), Bool.false_eq_true,
      if_false]

theorem items_loads {last : Option Nat} (hes : ∀ e ∈ es, isExpr e = true)
    (h : items es last st = .ok u st') (hc : Compiles g ps st st') (hh : Here g st s m) :
    Tries (es.mapM (value s)) m (Loads g st' s st.top · m) := by
  induction es generalizing st m with
  | nil =>
    rw [items, pure_ok] at h
    obtain ⟨-, rfl⟩ := h
    exact .here (.nil hh _)
  | cons e es ih =>
    have he := hes e List.mem_cons_self
    have hrest : ∀ e ∈ es, isExpr e = true := fun e he => hes e (List.mem_cons_of_mem _ he)
    rw [items] at h
    simp only [isMultiple_of_isExpr he, Bool.and_false, Bool.false_eq_true, if_false, bind_ok] at h
    obtain ⟨r, st₁, hvalue, h⟩ := h
    have hcomputes := expression_computes he
    have hstep := (toTemporary_step hvalue hc.sound hcomputes.sound).1
    have htop := hstep.top_eq
    rw [mapM_cons]
    refine Tries.bind (toTemporary_gives hvalue (hc.upTo (items_step hrest h hstep.sound)) hcomputes
      hh) fun v m₁ _ hm₁ => ?_
    have hloads := ih hrest h (hc.since hstep) hm₁.here
    rw [htop] at hloads
    exact hloads.map fun vs m₂ _ hm₂ => .cons hm₁ hm₂

/-- Missing values are nil. -/
theorem padNils_loads {count : Nat} (h : padNils count line st = .ok u st')
    (hc : Compiles g ps st st') (hl : Loads g st s r vs m' m) (hfit : r + vs.length = st.top)
    (hlevel : st.level ≤ r) :
    Leads 0 m (Loads g st' s r (vs ++ List.replicate count .nil) m') := by
  have hstep := padNils_step h hc.sound
  simp only [padNils] at h
  split at h
  next hcount =>
    simp only [bind_ok, loadNils] at h
    obtain ⟨r', st₁, hreserve, h⟩ := h
    obtain ⟨hstep₁, rfl⟩ := reserve_step hreserve hc.sound
    have htop₁ := hstep₁.top_eq
    have hmax := hstep₁.sound.registers_le
    have hregisters := hstep₁.sound.top_le
    have hstep₂ := loadNils_step h hstep₁.sound (by omega)
    have hc₁ := hc.since hstep₁
    have hh₁ := hl.here.silent hc.sound hstep₁ (reserve_size hreserve hc.sound)
    obtain ⟨⟨i, hi⟩, hsize⟩ := hc₁.placed.abc h hstep₁.sound (by omega) (by omega) (by omega)
    have hroom := Here.registers hstep₁.sound hc₁.placed hstep₂.grows (r := st₁.top - 1) (by omega)
    refine (hh₁.at'.loadNil hi.word hi.op (by rw [hi.a, hi.b]; omega)).mono ?_
    rintro m₁ ⟨hat, hsets⟩
    rw [hi.a, hi.b] at hsets
    refine ⟨hh₁.step hstep₁.sound hstep₂ (hsize ▸ hat) (hsets.spares (by rw [hstep₁.level]; omega)),
      hl.spares.trans (hsets.spares (by omega)), fun j w hw => ?_⟩
    by_cases hj : j < vs.length
    · rw [List.getElem?_append_left hj] at hw
      rw [hsets.below (by omega)]
      exact hl.regs j w hw
    · rw [List.getElem?_append_right (by omega)] at hw
      rw [show r + j = st.top + (j - vs.length) by omega]
      exact hsets.get hw
  next hcount =>
    simp only [pure_ok] at h
    obtain ⟨-, rfl⟩ := h
    obtain rfl : count = 0 := by omega
    rw [List.replicate_zero, List.append_nil]
    exact .here hl

theorem adjust_starts (w : Nat) (vs : List Value) :
    adjust w vs <+: vs ++ List.replicate (w - vs.length) .nil := by
  unfold adjust
  by_cases hle : vs.length ≤ w
  · simp only [List.take_of_length_le hle, List.prefix_rfl]
  · rw [show w - vs.length = 0 by omega, List.replicate_zero, List.append_nil, List.append_nil]
    exact List.take_prefix w vs

theorem length_adjust (w : Nat) (vs : List Value) : (adjust w vs).length = w := by
  simp only [adjust, List.length_append, List.length_take, List.length_replicate]
  omega

theorem adjusted_wanted_step {n : Option Nat}
    (h : adjusted es (some w) (fun last => items es last) st = .ok n st')
    (hs : Generator.Sound Prototype.WellFormed ps st) :
    Step Prototype.WellFormed ps st st' (st.top + w) := by
  obtain ⟨t, hstep, -, -, hwanted⟩ := adjusted_step h hs (itemsSound closed_wellFormed es)
  exact hstep.cast (hwanted w rfl)

theorem adjusted_loads {n : Option Nat} (hes : ∀ e ∈ es, isExpr e = true)
    (h : adjusted es (some w) (fun last => items es last) st = .ok n st')
    (hc : Compiles g ps st st') (hh : Here g st s m) :
    Tries (es.mapM (value s)) m fun vs m' => Loads g st' s st.top (adjust w vs) m m' := by
  simp only [adjusted, bind_ok, free_ok, and_assoc, exists_and_left, exists_eq_left] at h
  have hle := hc.sound.level_le
  cases hlast : es.getLast? with
  | none =>
    obtain rfl := List.getLast?_eq_none_iff.mp hlast
    simp only [hlast, bind_ok, currentLine_ok, pure_ok, and_assoc, exists_and_left,
      exists_eq_left, Option.getD_some] at h
    obtain ⟨_, st₁, hpad, -, rfl⟩ := h
    exact (padNils_loads hpad hc (.nil hh _) rfl hle).mono fun m' hm' =>
      hm'.of_prefix (adjust_starts w [])
  | some last =>
    simp only [hlast, bind_ok, currentLine_ok, pure_ok, and_assoc, exists_and_left, exists_eq_left,
      isMultiple_of_isExpr (hes last (List.mem_of_getLast? hlast)), Bool.false_eq_true,
      if_false] at h
    obtain ⟨_, st₁, hitems, _, st₂, hpad, _, st₃, hrelease, -, rfl⟩ := h
    have hstep₁ := items_step hes hitems hc.sound
    have hstep₂ := padNils_step hpad hstep₁.sound
    have hstep₃ := releaseAbove_step hrelease hstep₂.sound
    have htop₁ := hstep₁.top_eq
    have hlevel₁ := hstep₁.level
    have hc₂ := hc.upTo hstep₃
    refine (items_loads hes hitems (hc₂.upTo hstep₂) hh).andThen fun vs m₁ hvs hm₁ => ?_
    have hlength := length_of_mapM hvs
    refine (padNils_loads hpad (hc₂.since hstep₁) hm₁ (by omega) (by omega)).mono fun m₂ hm₂ => ?_
    rw [← hlength] at hm₂
    exact (hm₂.of_prefix (adjust_starts w vs)).silent hstep₂.sound hstep₃
      (releaseAbove_size hrelease hstep₂.sound)

/-! ## Declarations -/

theorem addLocal_spec {name : String} {captured constant : Bool}
    (h : addLocal name captured constant st = .ok u st')
    (hs : Generator.Sound Prototype.WellFormed ps st) :
    st'.size = st.size ∧ ∃ l, st'.current.locals = st.current.locals.push l ∧ l.name = name ∧
      l.register = st.level := by
  obtain ⟨s, hadd, rfl⟩ := onScope'_ok h
  obtain ⟨-, rfl⟩ := addLocal_ok hadd
  rw [State.size, State.current_mapCurrent hs.exists_scope]
  exact ⟨rfl, _, rfl, rfl, rfl⟩

theorem addBinder_size {b : Binder} (h : addBinder b st = .ok u st')
    (hs : Generator.Sound Prototype.WellFormed ps st) : st'.size = st.size := by
  simp only [addBinder, bind_ok, get_ok, and_assoc, exists_and_left, exists_eq_left] at h
  exact (addLocal_spec h hs).1

theorem visible_push (f : Frame) (locals : Array Local) (l : Local) (m : Machine) :
    visible f (locals.push l) m =
      if l.name = loopState then visible f locals m
      else (l.name, m.reg f l.register) :: visible f locals m := by
  unfold visible
  rw [Array.toList_push, List.reverse_append, List.reverse_singleton, List.singleton_append,
    List.filter_cons]
  by_cases hl : l.name = loopState <;> simp [hl]

/-- The value of the next register becomes a variable, unless no text can name it. -/
theorem addLocal_here {name : String} {captured constant : Bool}
    (h : addLocal name captured constant st = .ok u st')
    (hs : Generator.Sound Prototype.WellFormed ps st) (hh : Here g st s m) :
    Here g st' (if name = loopState then s else s.declare [name] [m.reg g.frame st.level]) m := by
  obtain ⟨hsize, l, hlocals, rfl, hregister⟩ := addLocal_spec h hs
  obtain ⟨v, hvariables, hshows⟩ := hh.holds
  refine ⟨hsize ▸ hh.at', v, ?_, by split <;> exact hshows⟩
  rw [hlocals, visible_push, hregister]
  split
  · exact hvariables
  · rw [Store.declare, hvariables]
    rfl

theorem addBinder_here {b : Binder} (h : addBinder b st = .ok u st')
    (hs : Generator.Sound Prototype.WellFormed ps st) (hname : b.name ≠ loopState)
    (hh : Here g st s m) : Here g st' (s.declare [b.name] [m.reg g.frame st.level]) m := by
  simp only [addBinder, bind_ok, get_ok, and_assoc, exists_and_left, exists_eq_left] at h
  have hdeclared := addLocal_here h hs hh
  rwa [if_neg hname] at hdeclared

theorem addBinders_here {bs : List Binder} (h : bs.forM addBinder st = .ok u st')
    (hs : Generator.Sound Prototype.WellFormed ps st) (hnames : ∀ b ∈ bs, b.name ≠ loopState)
    (hlength : vs.length = bs.length)
    (hregs : ∀ j w, vs[j]? = some w → m.reg g.frame (st.level + j) = w) (hh : Here g st s m) :
    Here g st' (s.declare (bs.map fun b => b.name) vs) m := by
  induction bs generalizing st s vs with
  | nil =>
    simp only [List.forM_eq_forM, List.forM_nil, pure_ok] at h
    obtain ⟨-, rfl⟩ := h
    exact hh
  | cons b bs ih =>
    obtain ⟨st₁, hb, h⟩ := forM_ok h
    cases vs with
    | nil => cases hlength
    | cons v vs =>
      have hmoves := addBinder_moves hb hs
      have hlevel := hmoves.level_eq
      have hfirst := addBinder_here hb hs (hnames b List.mem_cons_self) hh
      rw [show m.reg g.frame st.level = v from hregs 0 v rfl] at hfirst
      have hrest := ih h hmoves.sound (fun b hb => hnames b (List.mem_cons_of_mem _ hb))
        (Nat.succ.inj hlength) (fun j w hw => by
          rw [hlevel, Nat.add_assoc, Nat.add_comm 1 j]
          exact hregs (j + 1) w hw) hfirst
      have hdeclare : s.declare ((b :: bs).map fun b => b.name) (v :: vs) =
          (s.declare [b.name] [v]).declare (bs.map fun b => b.name) vs := by
        simp [Store.declare]
      rw [hdeclare]
      exact hrest

/-- The state of a loop is kept in variables that no text can name. -/
theorem addLoopState_here (h : addLoopState st = .ok u st')
    (hs : Generator.Sound Prototype.WellFormed ps st) (hh : Here g st s m) : Here g st' s m := by
  simp only [addLoopState, bind_ok] at h
  obtain ⟨_, st₁, h₁, _, st₂, h₂, h₃⟩ := h
  have hmoves₁ := addLocal_moves h₁ hs
  have hmoves₂ := addLocal_moves h₂ hmoves₁.sound
  have hh₁ := addLocal_here h₁ hs hh
  have hh₂ := addLocal_here h₂ hmoves₁.sound hh₁
  exact addLocal_here h₃ hmoves₂.sound hh₂

/-! ## Places -/

/-- The target of an assignment stands for the place; its registers are not below `low`. -/
inductive Aims (g : Activation) (st : State) (low : Nat) (m : Machine) : Target → Place → Prop
  | named {name : String} {reference : Reference} (h : Stands st name reference)
    (hname : name ≠ loopState) : Aims g st low m (.variable reference name) (.variable name)
  | field {a k : Nat} {object : Value} {key : String} (ha : low ≤ a) (ha' : a < st.top)
    (hobject : m.reg g.frame a = object) (hk : k ≤ 255)
    (hkey : st.current.proto.chunk.constants[k]? = some (.str key)) :
    Aims g st low m (.field a k) (.element object (.str key))
  | element {a b : Nat} {object key : Value} (ha : low ≤ a) (ha' : a < st.top) (hb : low ≤ b)
    (hb' : b < st.top) (hobject : m.reg g.frame a = object) (hkey : m.reg g.frame b = key) :
    Aims g st low m (.element a b) (.element object key)

variable {x : Target} {xs : List Target} {p : Place} {places : List Place} {low value' : Nat}

/-- A target stands for its place as long as its registers keep their values. -/
theorem Aims.keep (h : Aims g st low m x p)
    (hlocals : st'.current.locals = st.current.locals)
    (hg : st.current.proto.Grows st'.current.proto) (htop : st.top ≤ st'.top)
    (hreg : ∀ j, low ≤ j → j < st.top → m'.reg g.frame j = m.reg g.frame j) :
    Aims g st' low m' x p := by
  cases h with
  | named h hname => exact .named (h.congr hlocals) hname
  | field ha ha' hobject hk hkey =>
    exact .field ha (by omega) ((hreg _ ha ha').trans hobject) hk (hg.constants _ _ hkey)
  | element ha ha' hb hb' hobject hkey =>
    exact .element ha (by omega) hb (by omega) ((hreg _ ha ha').trans hobject)
      ((hreg _ hb hb').trans hkey)

theorem Aims.step (h : Aims g st low m x p) (hstep : Step Prototype.WellFormed ps st st' t)
    (htop : st.top ≤ t) (hspares : Spares g.frame st.top m m') : Aims g st' low m' x p :=
  h.keep hstep.keeps.current.locals hstep.grows (by rw [hstep.top_eq]; exact htop)
    fun j _ hj => hspares.reg j hj

/-- With several targets, tables and keys are in registers above the variables. -/
def lowest (several : Bool) (st : State) : Nat := if several then st.level else 0

theorem toOperand_lowest {own : Bool} {act : Evaluation} (h : toOperand own e act st = .ok r st')
    (hs : Generator.Sound Prototype.WellFormed ps st)
    (hact : EvaluationSound Prototype.WellFormed act) : lowest own st ≤ r := by
  unfold toOperand at h
  split at h
  next hown =>
    obtain ⟨-, rfl⟩ := toTemporary_step h hs hact
    rw [lowest, if_pos hown]
    exact hs.level_le
  next hown =>
    rw [lowest, if_neg hown]
    exact Nat.zero_le r

theorem target_aims {several : Bool} (h : target e several st = .ok x st')
    (he : isExpr e = true) (hc : Compiles g ps st st') (hh : Here g st s m) :
    Tries (place s e) m fun p m' => Here g st' s m' ∧ Spares g.frame st.top m m' ∧
      Aims g st' (lowest several st) m' x p := by
  unfold target at h
  split at h
  next several name line =>
    have hname : name ≠ loopState := by simpa [isExpr] using he
    simp only [nameTarget, bind_ok] at h
    obtain ⟨reference, st₁, hresolve, h⟩ := h
    obtain ⟨rfl, hstands⟩ := resolve_main hresolve hc.sound hc.main
    split at h
    · simp only [bind_ok, throw_ok, false_and, exists_false] at h
    · simp only [pure_ok] at h
      obtain ⟨rfl, rfl⟩ := h
      exact .here ⟨hh, .refl _ _ _, .named hstands hname⟩
  next several e k line =>
    obtain ⟨hee, hke⟩ := Bool.and_eq_true_iff.mp he
    have hce := expression_computes hee
    have hck := expression_computes hke
    have hplaces : place s (.index e k line) =
        (value s e).bind fun x => (value s k).bind fun y => some (.element x y) := rfl
    rw [hplaces]
    simp only [bind_ok] at h
    obtain ⟨a, st₁, htable, found, st₂, hplace, h⟩ := h
    obtain ⟨t, hstep₁, hlt, hle⟩ := toOperand_step htable hc.sound hce.sound
    obtain ⟨hstep₂, hbound⟩ := fieldPlace?_spec hplace hstep₁.sound
    have hsize₂ := fieldPlace?_size hplace hstep₁.sound
    have hlow := toOperand_lowest htable hc.sound hce.sound
    have htop₁ := hstep₁.top_eq
    have htop₂ := hstep₂.top_eq
    have hlevel₂ : st₂.level = st.level := hstep₂.level.trans hstep₁.level
    split at h
    next n =>
      obtain ⟨hn, key, keyLine, rfl, hkey⟩ := hbound n rfl
      simp only [pure_ok] at h
      obtain ⟨rfl, rfl⟩ := h
      refine Tries.bind (toOperand_gives htable (hc.upTo hstep₂) hce hee hh) fun v m₁ _ hm₁ => ?_
      exact .here ⟨hm₁.here.silent hstep₁.sound hstep₂ hsize₂, hm₁.spares,
        .field hlow (by omega) hm₁.reg hn hkey⟩
    next =>
      simp only [bind_ok, pure_ok] at h
      obtain ⟨b, st₃, hkey, rfl, rfl⟩ := h
      obtain ⟨t', hstep₃, hlt', hle'⟩ := toOperand_step hkey hstep₂.sound hck.sound
      have htop₃ := hstep₃.top_eq
      have hlow' := toOperand_lowest hkey hstep₂.sound hck.sound
      rw [lowest, hlevel₂, ← lowest] at hlow'
      have hc₂ := hc.upTo hstep₃
      refine Tries.bind (toOperand_gives htable (hc₂.upTo hstep₂) hce hee hh) fun v m₁ _ hm₁ => ?_
      have hh₂ := hm₁.here.silent hstep₁.sound hstep₂ hsize₂
      refine Tries.bind (toOperand_gives hkey ((hc.since hstep₁).since hstep₂) hck hke hh₂)
        fun w m₂ _ hm₂ => ?_
      exact .here ⟨hm₂.here, hm₁.spares.trans (hm₂.spares.weaken (by omega)),
        .element hlow (by omega) (by omega) (by omega)
          ((hm₂.spares.reg a (by omega)).trans hm₁.reg) hm₂.reg⟩
  next => simp only [defect_ok] at h

theorem targets_aims {several : Bool} (h : targets es several st = .ok xs st')
    (hes : ∀ e ∈ es, isExpr e = true) (hc : Compiles g ps st st') (hh : Here g st s m) :
    Tries (es.mapM (place s)) m fun places m' => Here g st' s m' ∧ Spares g.frame st.top m m' ∧
      List.Forall₂ (Aims g st' (lowest several st) m') xs places := by
  induction es generalizing st m xs with
  | nil =>
    rw [targets, pure_ok] at h
    obtain ⟨rfl, rfl⟩ := h
    exact .here ⟨hh, .refl _ _ _, .nil⟩
  | cons e es ih =>
    rw [targets] at h
    simp only [bind_ok, pure_ok] at h
    obtain ⟨x, st₁, hx, rest, st₂, hrest, rfl, rfl⟩ := h
    obtain ⟨t, hstep₁, hle, -⟩ := targetSound closed_wellFormed e _ _ _ _ _ hc.sound hx
    obtain ⟨t', hstep₂, hle', -, -⟩ :=
      targetsSound closed_wellFormed es _ _ _ _ _ hstep₁.sound hrest
    have htop₁ := hstep₁.top_eq
    have hlow : lowest several st₁ = lowest several st := by rw [lowest, lowest, hstep₁.level]
    rw [mapM_cons]
    refine Tries.bind (target_aims hx (hes e List.mem_cons_self) (hc.upTo hstep₂) hh)
      ?_
    rintro p m₁ _ ⟨hh₁, hspares₁, haims⟩
    refine (ih hrest (fun e he => hes e (List.mem_cons_of_mem _ he)) (hc.since hstep₁) hh₁).map
      ?_
    rintro places m₂ _ ⟨hh₂, hspares₂, hrest⟩
    rw [hlow] at hrest
    exact ⟨hh₂, hspares₁.trans (hspares₂.weaken (by omega)),
      .cons (haims.step hstep₂ (by omega) hspares₂) hrest⟩

/-! ## Storing -/

/-- Of the registers below `t`, only those of variables that a text can name have changed. -/
def Renews (f : Frame) (locals : Array Local) (t : Nat) (m m' : Machine) : Prop :=
  ∀ j < t, (∀ l ∈ locals, l.register = j → l.name = loopState) → m'.reg f j = m.reg f j

theorem Renews.trans {f : Frame} {locals : Array Local} {m'' : Machine}
    (h : Renews f locals t m m') (h' : Renews f locals t m' m'') : Renews f locals t m m'' :=
  fun j hj hnone => (h' j hj hnone).trans (h j hj hnone)

theorem Renews.of_stack {f : Frame} (locals : Array Local) (t : Nat) (h : m'.stack = m.stack) :
    Renews f locals t m m' := fun j _ _ => by
  rw [Machine.reg, h]
  rfl

/-- Registers above the variables are not those of variables. -/
theorem Renews.above (h : Renews g.frame st.current.locals t m m')
    (hs : Generator.Sound Prototype.WellFormed ps st) {j : Nat} (hj : st.level ≤ j) (hj' : j < t) :
    m'.reg g.frame j = m.reg g.frame j :=
  h j hj' fun l hl heq => by
    have hlt := register_lt_level hs hl
    omega

theorem put_element (s : Store) (object key v : Value) : s.put (.element object key) v =
    (setElement s.tables object key v).map fun tables => { s with tables := tables } := by
  rw [Store.put]
  cases setElement s.tables object key v <;> rfl

/-- A word that changes the tables. -/
theorem Here.stores {x : Option Tables} (hh : Here g st s m)
    (hlocals : st'.current.locals = st.current.locals) (hsize : st'.size = st.size + 1)
    (hstores : ∀ e', Shows g.frame e' s.tables m →
      Machine.Stores g.code g.outer g.frame (st.size + 1) e' x m) :
    Tries (x.map fun tables => { s with tables := tables }) m fun s' m' =>
      Here g st' s' m' ∧ m'.stack = m.stack := by
  obtain ⟨e', hvariables', hshows⟩ := hh.holds
  refine (hstores e' hshows).map ?_
  rintro tables m' _ ⟨hat, hstack, hshows'⟩
  refine ⟨⟨hsize ▸ hat, e', ?_, hshows'⟩, hstack⟩
  rw [hlocals, visible_of_stack _ hstack]
  exact hvariables'

theorem emitSetField_stores {a k : Nat} {key : String}
    (h : emitAbc .setField a k value' st = .ok u st') (hc : Compiles g ps st st')
    (ha : a < st.top) (hk : k ≤ 255) (hvalue : value' < st.top)
    (hkey : st.current.proto.chunk.constants[k]? = some (.str key)) (hh : Here g st s m) :
    Tries ((setElement s.tables (m.reg g.frame a) (.str key) (m.reg g.frame value')).map
      fun tables => { s with tables := tables }) m fun s' m' =>
        Here g st' s' m' ∧ m'.stack = m.stack := by
  have htop := hc.sound.top_le
  have hmax := hc.sound.registers_le
  have hlt := (Array.getElem?_eq_some_iff.mp hkey).1
  have hstep := emitSetField_step h hc.sound ha hvalue ⟨hk, hlt⟩
  obtain ⟨⟨i, hi⟩, hsize⟩ := hc.placed.abc h hc.sound (by omega) (by omega) (by omega)
  obtain ⟨e, hvariables, -⟩ := hh.holds
  refine hh.stores hstep.keeps.current.locals hsize fun e' hshows => ?_
  have hstores := hh.at'.setField hshows hi.word hi.op (k := .str key)
    (by rw [hi.b]; exact hc.placed.constants _ _ (hstep.grows.constants _ _ hkey))
  rw [hi.a, hi.c] at hstores
  exact hstores

theorem emitSetTable_stores {a b : Nat} (h : emitAbc .setTable a b value' st = .ok u st')
    (hc : Compiles g ps st st') (ha : a < st.top) (hb : b < st.top) (hvalue : value' < st.top)
    (hh : Here g st s m) :
    Tries ((setElement s.tables (m.reg g.frame a) (m.reg g.frame b) (m.reg g.frame value')).map
      fun tables => { s with tables := tables }) m fun s' m' =>
        Here g st' s' m' ∧ m'.stack = m.stack := by
  have htop := hc.sound.top_le
  have hmax := hc.sound.registers_le
  have hstep := emitOperation_step h hc.sound rfl (by simp) ⟨rfl, rfl⟩ rfl ha hb hvalue
  obtain ⟨⟨i, hi⟩, hsize⟩ := hc.placed.abc h hc.sound (by omega) (by omega) (by omega)
  obtain ⟨e, hvariables, -⟩ := hh.holds
  refine hh.stores hstep.keeps.current.locals hsize fun e' hshows => ?_
  have hstores := hh.at'.setTable hshows hi.word hi.op
  rw [hi.a, hi.b, hi.c] at hstores
  exact hstores

/-- The words before the last one may use registers above those in use. -/
theorem globalSet_puts {name : String} (h : globalSet name value' st = .ok u st')
    (hc : Compiles g ps st st') (hvalue : value' < st.top) (hh : Here g st s m)
    (hglobal : s.bindings.lookup name = none) :
    Tries (s.write name (m.reg g.frame value')) m fun s' m' => Here g st' s' m' ∧
      ∀ j < st.top, m'.reg g.frame j = m.reg g.frame j := by
  obtain ⟨e, st₁, st₂, hreach⟩ :=
    globalAccess_reaches h hc.sound hc.main (accessSound_set hvalue) hc.placed hh
  have hwrite : s.write name (m.reg g.frame value') =
      (setElement s.tables e (.str name) (m.reg g.frame value')).map
        fun tables => { s with tables := tables } := by
    rw [Store.write, hglobal, hreach.lookup]
    simp only [Option.bind_eq_bind, Option.bind_some]
    cases setElement s.tables e (.str name) (m.reg g.frame value') <;> rfl
  rw [hwrite]
  refine hreach.leads.tries ?_
  rintro m₁ ⟨hh₁, hspares, haccess⟩
  have hs₁ := hreach.before.sound
  have htop := hreach.top
  have htop₁ := hs₁.top_le
  have hmax₁ := hs₁.registers_le
  have hc₁ : Compiles g ps st₁ st₂ :=
    ⟨hs₁, hreach.before.main hc.sound hc.main, hreach.placed⟩
  have hword : Tries ((setElement s.tables e (.str name) (m₁.reg g.frame value')).map
      fun tables => { s with tables := tables }) m₁ fun s' m' =>
        Here g st₂ s' m' ∧ m'.stack = m₁.stack := by
    cases haccess with
    | field r k h hr hk hname he =>
      have hstores := emitSetField_stores h hc₁ hr hk (by omega) hname hh₁
      rwa [he] at hstores
    | element r k h hr hk he hname =>
      have hstores := emitSetTable_stores h hc₁ hr hk (by omega) hh₁
      rwa [he, hname] at hstores
    | upvalue k h hk hname he =>
      obtain ⟨⟨i, hi⟩, hsize⟩ := hc₁.placed.abc h hs₁ (by omega) (by omega) (by omega)
      obtain ⟨e', hvariables, -⟩ := hh₁.holds
      refine hh₁.stores hreach.word.keeps.current.locals hsize fun e'' hshows => ?_
      have hstores := hh₁.at'.setGlobal hshows hi.word hi.op hi.a (k := .str name)
        (by rw [hi.b]; exact hc₁.placed.constants _ _ (hreach.word.grows.constants _ _ hname))
      obtain rfl : e'' = e := by
        obtain ⟨c, a, hcell, hup, hvalue⟩ := hshows.environment
        obtain ⟨c', a', hcell', hup', hvalue'⟩ := he.environment
        cases hcell.symm.trans hcell'
        cases hup.symm.trans hup'
        cases hvalue.symm.trans hvalue'
        rfl
      rw [hi.c] at hstores
      exact hstores
  rw [hspares.reg value' hvalue] at hword
  refine hword.mono ?_
  rintro s' m₂ _ ⟨hh₂, hstack⟩
  refine ⟨hh₂.silent hreach.word.sound hreach.after hreach.size, fun j hj => ?_⟩
  rw [Machine.reg, hstack]
  exact hspares.reg j hj

theorem store_puts (h : store x value' st = .ok u st') (hc : Compiles g ps st st')
    (hx : Aims g st low m x p) (hlevel : st.level ≤ value') (hvalue : value' < st.top)
    (hh : Here g st s m) :
    Tries (s.put p (m.reg g.frame value')) m fun s' m' => Here g st' s' m' ∧
      Renews g.frame st.current.locals st.top m m' := by
  have htop := hc.sound.top_le
  have hmax := hc.sound.registers_le
  have hle := hc.sound.level_le
  cases hx with
  | field ha ha' hobject hk hkey =>
    have hstores := emitSetField_stores h hc ha' hk hvalue hkey hh
    rw [hobject, ← put_element] at hstores
    exact hstores.mono fun s' m' _ hstored => hstored.imp_right (.of_stack _ _)
  | element ha ha' hb hb' hobject hkey =>
    have hstores := emitSetTable_stores h hc ha' hb' hvalue hh
    rw [hobject, hkey, ← put_element] at hstores
    exact hstores.mono fun s' m' _ hstored => hstored.imp_right (.of_stack _ _)
  | @named name _ hstands hname =>
    obtain ⟨e, hvariables, hshows⟩ := hh.holds
    have hlookup := lookup_eq hvariables hname
    rcases hstands with ⟨l, hl, rfl⟩ | ⟨hnone, ⟨rfl, c, rfl⟩ | ⟨hne, rfl⟩⟩
    · -- a variable in its register
      have hmem := (FunctionScope.mem_of_findLocal hl).1
      have hlt := register_lt_level hc.sound hmem
      have hstep := emitMove_step h hc.sound (by omega) hvalue
      obtain ⟨⟨i, hi⟩, hsize⟩ := hc.placed.abc h hc.sound (by omega) (by omega) (by omega)
      have hregister := Here.registers hc.sound hc.placed hstep.grows (r := l.register) (by omega)
      have hy := hh.at'.move hi.word hi.op (by rw [hi.a]; exact hregister)
      rw [hi.a, hi.b] at hy
      rw [Store.put, Store.write, hlookup, hl]
      refine Leads.mono hy ?_
      rintro m' ⟨hat, hsets⟩
      refine ⟨⟨hsize ▸ hat, e, ?_, ?_⟩, fun j _ hhidden => ?_⟩
      · rw [hstep.keeps.current.locals, hvariables]
        exact set_eq hc.sound hl hname hsets _
      · exact hshows.thins hat hsets.heap
      · refine hsets.other fun heq => ?_
        exact hname ((FunctionScope.mem_of_findLocal hl).2 ▸ hhidden l hmem heq.symm)
    · -- `_ENV` itself
      have hup : 0 < st.current.proto.upvalues.size := by rw [hc.main.upvalues]; exact Nat.one_pos
      have hstep := emitUpvalue_step h (.inr rfl) hc.sound hvalue hup
      obtain ⟨⟨i, hi⟩, hsize⟩ := hc.placed.abc h hc.sound (by omega) (by omega) (by omega)
      have hword := hh.at'.setUpvalue hshows hi.word hi.op hi.b
      rw [hi.a] at hword
      rw [hnone, if_pos rfl] at hlookup
      rw [Store.put, Store.write, hlookup]
      refine Leads.mono hword ?_
      rintro m' ⟨hat, hstack, hshows'⟩
      refine ⟨⟨hsize ▸ hat, m.reg g.frame value', ?_, hshows'⟩, .of_stack _ _ hstack⟩
      rw [FunctionScope.findLocal, Array.findRev?_eq_find?_reverse, ← Array.find?_toList,
        Array.toList_reverse] at hnone
      rw [hstep.keeps.current.locals, hvariables, visible_of_stack _ hstack]
      exact set_environment hnone e
    · rw [hnone, if_neg hne] at hlookup
      exact (globalSet_puts h hc hvalue hh hlookup).mono fun s' m' _ hput =>
        ⟨hput.1, fun j hj _ => hput.2 j hj⟩

/-- The stores from the last one on. What is still to be stored is in registers above the variables,
and so are the tables and keys of the targets. -/
theorem storeAll_puts (h : storeAll xs value' st = .ok u st') (hc : Compiles g ps st st')
    (hxs : List.Forall₂ (Aims g st low m) xs places) (hlow : st.level ≤ low)
    (hlevel : st.level ≤ value') (hfit : value' + xs.length ≤ st.top)
    (hwithin : ∀ x ∈ xs, TargetWithin st.current.proto st.top x) (hvs : vs.length = xs.length)
    (hregs : ∀ j w, vs[j]? = some w → m.reg g.frame (value' + j) = w) (hh : Here g st s m) :
    Tries (s.putAll places vs) m fun s' m' => Here g st' s' m' ∧
      Renews g.frame st.current.locals st.top m m' := by
  induction hxs generalizing value' vs u st' with
  | nil =>
    simp only [storeAll, pure_ok] at h
    obtain ⟨-, rfl⟩ := h
    obtain rfl := List.eq_nil_of_length_eq_zero hvs
    exact .here ⟨hh, .of_stack _ _ rfl⟩
  | @cons x p xs places hx hxs ih =>
    cases vs with
    | nil => cases hvs
    | cons v vs =>
      simp only [storeAll, bind_ok] at h
      obtain ⟨_, st₁, hrest, h⟩ := h
      simp only [List.length_cons] at hfit hvs
      have hwithin' : ∀ y ∈ xs, TargetWithin st.current.proto st.top y := fun y hy =>
        hwithin y (List.mem_cons_of_mem _ hy)
      have hstep₁ := storeAll_step hrest hc.sound hwithin' (by omega)
      have htop₁ := hstep₁.top_eq
      have hlevel₁ := hstep₁.level
      have hx₁ := (hwithin x List.mem_cons_self).mono hstep₁.grows (Nat.le_of_eq htop₁.symm)
      have hstep₂ := store_step h hstep₁.sound hx₁ (by omega)
      have hput : s.putAll (p :: places) (v :: vs) =
          (s.putAll places vs).bind fun s' => s'.put p v := rfl
      rw [hput]
      refine Tries.bind (ih hrest (hc.upTo hstep₂) (by omega) (by omega) hwithin' (by omega)
        (fun j w hw => ?_)) ?_
      · rw [Nat.add_assoc, Nat.add_comm 1 j]
        exact hregs (j + 1) w hw
      rintro s₁ m₁ - ⟨hh₁, hrenews₁⟩
      -- the value and the registers of the target are still there
      have hv : m₁.reg g.frame value' = v :=
        (hrenews₁.above hc.sound hlevel (by omega)).trans (hregs 0 v rfl)
      have haims : Aims g st₁ low m₁ x p :=
        hx.keep hstep₁.keeps.current.locals hstep₁.grows (by omega) fun j hj hj' =>
          hrenews₁.above hc.sound (by omega) hj'
      have hputs := store_puts h (hc.since hstep₁) haims (by omega) (by omega) hh₁
      rw [hv] at hputs
      refine hputs.mono ?_
      rintro s₂ m₂ - ⟨hh₂, hrenews₂⟩
      refine ⟨hh₂, hrenews₁.trans ?_⟩
      rw [hstep₁.keeps.current.locals, htop₁] at hrenews₂
      exact hrenews₂

/-- A single target may use registers of variables, since nothing is stored before. -/
theorem storeAll_single_puts (h : storeAll xs value' st = .ok u st') (hc : Compiles g ps st st')
    (hxs : List.Forall₂ (Aims g st low m) xs places) (hsingle : xs.length ≤ 1)
    (hlevel : st.level ≤ value') (hfit : value' + xs.length ≤ st.top)
    (hvs : vs.length = xs.length)
    (hregs : ∀ j w, vs[j]? = some w → m.reg g.frame (value' + j) = w) (hh : Here g st s m) :
    Tries (s.putAll places vs) m fun s' m' => Here g st' s' m' ∧
      Renews g.frame st.current.locals st.top m m' := by
  cases hxs with
  | nil =>
    simp only [storeAll, pure_ok] at h
    obtain ⟨-, rfl⟩ := h
    obtain rfl := List.eq_nil_of_length_eq_zero hvs
    exact .here ⟨hh, .of_stack _ _ rfl⟩
  | cons hx hxs =>
    cases hxs with
    | cons => simp at hsingle
    | nil =>
      obtain ⟨v, rfl⟩ := List.length_eq_one_iff.mp hvs
      simp only [storeAll, pure_bind] at h
      rw [List.length_singleton] at hfit
      have hputs := store_puts h hc hx hlevel (by omega) hh
      rw [show m.reg g.frame value' = v from hregs 0 v rfl] at hputs
      exact hputs

/-- The places are fixed first, then all values are there, and then they are stored. -/
theorem assign_puts {left right : List Expr}
    (h : statement (.assign left right line) st = .ok u st') (hc : Compiles g ps st st')
    (htop : st.top = st.level) (hleft : ∀ e ∈ left, isExpr e = true)
    (hright : ∀ e ∈ right, isExpr e = true) (hh : Here g st s m) :
    Tries ((left.mapM (place s)).bind fun places => (right.mapM (value s)).bind fun vs =>
      s.putAll places (adjust left.length vs)) m fun s' m' =>
        Here g st' s' m' ∧ Renews g.frame st.current.locals st.level m m' := by
  rw [statement] at h
  simp only [bind_ok, free_ok, and_assoc, exists_and_left, exists_eq_left] at h
  obtain ⟨_, st₁, hline, xs, st₂, htargets, count, st₃, hvalues, _, st₄, hline', _, st₅,
    hstore, h⟩ := h
  have hstep₁ := setLine_step hline hc.sound
  have htop₁ := hstep₁.top_eq
  have hlevel₁ := hstep₁.level
  obtain ⟨t, hstep₂, hle, hlength, hwithin⟩ :=
    targetsSound closed_wellFormed left _ _ _ _ _ hstep₁.sound htargets
  have hstep₃ := adjusted_wanted_step hvalues hstep₂.sound
  have hstep₄ := setLine_step hline' hstep₃.sound
  have htop₂ := hstep₂.top_eq
  have htop₃ := hstep₃.top_eq
  have htop₄ := hstep₄.top_eq
  have hlevel₂ : st₂.level = st.level := hstep₂.level.trans hlevel₁
  have hlevel₄ : st₄.level = st.level := (hstep₄.level.trans hstep₃.level).trans hlevel₂
  have hwithin₄ : ∀ x ∈ xs, TargetWithin st₄.current.proto st₄.top x := fun x hx =>
    (hwithin x hx).mono (hstep₃.trans hstep₄).grows (by omega)
  have hstep₅ := storeAll_step hstore hstep₄.sound hwithin₄ (by omega)
  have hrelease := (release_step h hstep₅.sound).1
  have hc₅ := hc.upTo hrelease
  have hc₃ := (hc₅.upTo hstep₅).upTo hstep₄
  have hh₁ := hh.silent hc.sound hstep₁ (setLine_size hline)
  refine Tries.bind (targets_aims htargets hleft ((hc₃.upTo hstep₃).since hstep₁) hh₁)
    ?_
  rintro places m₁ hplaces ⟨hh₂, hspares₁, haims⟩
  refine Tries.bind (adjusted_loads hright hvalues ((hc₃.since hstep₁).since hstep₂) hh₂)
    fun vs m₂ _ hm₂ => ?_
  have hh₄ := hm₂.here.silent hstep₃.sound hstep₄ (setLine_size hline')
  have haims₄ : List.Forall₂ (Aims g st₄ (lowest (1 < left.length) st₁) m₂) xs places :=
    haims.imp fun x p hx => (hx.step hstep₃ (by omega) hm₂.spares).step hstep₄ (by omega)
      (.refl _ _ _)
  have hc₄ := ((hc₅.since hstep₁).since hstep₂ |>.since hstep₃).since hstep₄
  have hstores : Tries (s.putAll places (adjust left.length vs)) m₂ fun s' m' =>
      Here g st₅ s' m' ∧ Renews g.frame st₄.current.locals st₄.top m₂ m' := by
    have hcount : (adjust left.length vs).length = xs.length := (length_adjust _ _).trans hlength.symm
    by_cases hseveral : 1 < left.length
    · refine storeAll_puts hstore hc₄ haims₄ ?_ (by omega) (by omega) hwithin₄ hcount hm₂.regs hh₄
      rw [lowest, if_pos (by simpa using hseveral)]
      omega
    · exact storeAll_single_puts hstore hc₄ haims₄ (by omega) (by omega) (by omega) hcount hm₂.regs
        hh₄
  refine hstores.mono ?_
  rintro s' m₃ - ⟨hh₅, hrenews⟩
  refine ⟨hh₅.silent hstep₅.sound hrelease (release_size h hstep₅.sound), fun j hj hhidden => ?_⟩
  rw [hrenews j (by omega) fun l hl => ?_, hm₂.spares.reg j (by omega), hspares₁.reg j (by omega)]
  rw [(((hstep₁.trans hstep₂).trans hstep₃).trans hstep₄).keeps.current.locals] at hl
  exact hhidden l hl

end Structured
end LuaMachine
