import LuaMachine.Proofs.Generator.Names
import LuaMachine.Proofs.Structured.Names
/-! # Constants, variables and globals

What the words do that load a constant, and those that come before a global is read or written.

* `Structured.Gives`: a value is in a register, and the registers below are spared.
* `Structured.Reaches`, `Structured.globalAccess_reaches`: the machine has the table of a global and
  its key.
-/
set_option autoImplicit false

namespace LuaMachine
namespace Structured

open Generator
open Machine (Spares Sets Shows Leads Tries Fails Yields Stores)

/-- The value is in register `r`, the registers below `t` are spared, and the words go on at the
second state. -/
structure Gives (g : Activation) (st : State) (s : Store) (t r : Nat) (w : Value) (m m' : Machine) :
    Prop where
  here : Here g st s m'
  spares : Spares g.frame t m m'
  reg : m'.reg g.frame r = w

variable {g : Activation} {Good : Prototype → Prop} {ps : List Nat} {st st' st₁ : State} {s : Store}
  {m m' : Machine} {t r a b c line : Nat} {u : Unit} {op : Opcode} {name : String} {v w : Value}
  {x : Option Value} {k : Constant}

/-- The last word puts a value into its register. -/
theorem Here.gives (h : Here g st s m) (hs : Generator.Sound Good ps st)
    (hstep : Step Good ps st st' t) (hsize : st'.size = st.size + 1) (hlevel : st.level ≤ r)
    (hy : Yields g.code g.outer g.frame (st.size + 1) r x m) :
    Tries x m (Gives g st' s r r · m) := by
  refine hy.mono fun w m' _ hm' => ?_
  obtain ⟨hat, hsets⟩ := hm'
  exact ⟨h.step hs hstep (hsize ▸ hat) (hsets.spares hlevel), hsets.spares (Nat.le_refl r),
    hsets.at⟩

theorem Gives.weaken {t' : Nat} (h : Gives g st s t r w m m') (ht : t' ≤ t) :
    Gives g st s t' r w m m' := ⟨h.here, h.spares.weaken ht, h.reg⟩

/-- What was done before spared the registers too. -/
theorem Gives.after {m'' : Machine} (h : Gives g st s t r w m' m'') (hspares : Spares g.frame t m m') :
    Gives g st s t r w m m'' := ⟨h.here, hspares.trans h.spares, h.reg⟩

/-- Registers are given back, or a line is set. -/
theorem Gives.silent (h : Gives g st s t r w m m') (hs : Generator.Sound Good ps st) {t' : Nat}
    (hstep : Step Good ps st st' t') (hsize : st'.size = st.size) : Gives g st' s t r w m m' :=
  ⟨h.here.silent hs hstep hsize, h.spares, h.reg⟩

theorem Here.registers (hs : Generator.Sound Good ps st) (hp : Placed g.frame [] st st')
    (hg : st.current.proto.Grows st'.current.proto) (hr : r < st.top) :
    r < g.frame.prototype.registers := by
  have htop := hs.top_le
  have hgrow := hg.registers
  have hregisters := hp.registers
  omega

/-! ## Constants -/

theorem loadPool_gives
    (h : (do emitAbx .loadConstant r (← addConstant k) : Gen Unit) st = .ok u st')
    (hs : Generator.Sound Good ps st) (hlevel : st.level ≤ r) (hr : r < st.top)
    (hp : Placed g.frame [] st st') (hh : Here g st s m) :
    Leads 0 m (Gives g st' s r r k.value m) := by
  have hstep := loadPool_step h hs hr
  simp only [bind_ok] at h
  obtain ⟨n, st₁, hk, h⟩ := h
  obtain ⟨hstep₁, hat⟩ := addConstant_spec hk hs
  have hsize₁ := addConstant_size hk hs
  have htop := hs.top_le
  have hregisters := hs.registers_le
  have hmax := constants_le hstep₁.sound
  have hlt := (Array.getElem?_eq_some_iff.mp hat).1
  have hgrow₁ := hstep₁.grows.registers
  have hstep₂ := emitConstant_step h hstep₁.sound (by omega) hlt
  obtain ⟨p, he⟩ := emitAbx_ok h
  obtain ⟨rfl, -⟩ := emit_word he hstep₁.sound
  obtain ⟨hword, hsize⟩ := (hp.since hstep₁).emitted he hstep₁.sound
  have hlimit : n ≤ Instruction.maxBx := Nat.le_of_lt (Nat.lt_of_lt_of_le hlt hmax)
  have hbx : (Instruction.abx .loadConstant r n).bx = n := Instruction.bx_abx _ hlimit
  have ha : (Instruction.abx .loadConstant r n).a = r := Instruction.a_abx _ (by omega)
  have hh₁ := hh.silent hs hstep₁ hsize₁
  have hr' := Here.registers hs hp hstep.grows hr
  have hload := hh₁.at'.loadConstant hword (Instruction.opcode?_abx _) (by rw [ha]; exact hr')
    (k := k) (by rw [hbx]; exact hp.constants _ _ (hstep₂.grows.constants _ _ hat))
  rw [ha] at hload
  exact hh₁.gives hstep₁.sound hstep₂ hsize (by rw [hstep₁.level]; exact hlevel) hload

theorem loadConstant_gives (h : loadConstant r k st = .ok u st') (hs : Generator.Sound Good ps st)
    (hlevel : st.level ≤ r) (hr : r < st.top) (hp : Placed g.frame [] st st')
    (hh : Here g st s m) : Leads 0 m (Gives g st' s r r k.value m) := by
  have hstep := loadConstant_step h hs hr
  have htop := hs.top_le
  have hregisters := hs.registers_le
  have hr' := Here.registers hs hp hstep.grows hr
  unfold loadConstant at h
  split at h
  · obtain ⟨⟨i, hi⟩, hsize⟩ := hp.abc h hs (by omega) (by omega) (by omega)
    refine (hh.at'.loadNil hi.word hi.op (by rw [hi.a, hi.b]; exact hr')).mono fun m' hm' => ?_
    obtain ⟨hat, hsets⟩ := hm'
    rw [hi.a, hi.b] at hsets
    exact ⟨hh.step hs hstep (hsize ▸ hat) (hsets.spares hlevel), hsets.spares (Nat.le_refl r),
      hsets.at⟩
  · next b =>
    obtain ⟨⟨i, hi⟩, hsize⟩ := hp.abc h hs (by omega) (by split <;> omega) (by omega)
    have hload := hh.at'.loadBool hi.word hi.op (by rw [hi.a]; exact hr')
    rw [hi.a, hi.b] at hload
    have hvalue : ((if b = true then 1 else 0) != 0) = b := by cases b <;> rfl
    rw [hvalue] at hload
    exact hh.gives hs hstep hsize hlevel hload
  · exact loadPool_gives h hs hlevel hr hp hh

/-! ## Globals -/

/-- Where the machine finds a global when the word is to be written that reads or writes it: the
table is in a register or in the upvalue, the key in a register or among the constants. -/
inductive Access (g : Activation) (name : String) (e : Value) (tables : Tables)
    (field element upvalueField : Nat → Nat → Gen Unit) (st st' : State) (m : Machine) : Prop where
  | field (r k : Nat) (h : field r k st = .ok () st') (hr : r < st.top) (hk : k ≤ 255)
    (hname : st.current.proto.chunk.constants[k]? = some (.str name)) (he : m.reg g.frame r = e)
  | element (r k : Nat) (h : element r k st = .ok () st') (hr : r < st.top) (hk : k < st.top)
    (he : m.reg g.frame r = e) (hname : m.reg g.frame k = .str name)
  | upvalue (k : Nat) (h : upvalueField 0 k st = .ok () st') (hk : k ≤ 255)
    (hname : st.current.proto.chunk.constants[k]? = some (.str name))
    (he : Shows g.frame e tables m)

/-- The words before the one that reads or writes a global, and what is known then. -/
structure Reaches (g : Activation) (Good : Prototype → Prop) (ps : List Nat) (name : String)
    (e : Value) (field element upvalueField : Nat → Nat → Gen Unit) (s : Store) (m : Machine)
    (st st₁ st₂ st' : State) : Prop where
  lookup : s.bindings.lookup "_ENV" = some e
  before : Step Good ps st st₁ st₁.top
  top : st.top ≤ st₁.top
  word : Step Good ps st₁ st₂ st₁.top
  placed : Placed g.frame [] st₁ st₂
  after : Step Good ps st₂ st' st.top
  size : st'.size = st₂.size
  leads : Leads 0 m fun m₁ => Here g st₁ s m₁ ∧ Spares g.frame st.top m m₁ ∧
    Access g name e s.tables field element upvalueField st₁ st₂ m₁

theorem globalAccess_reaches {field element upvalueField : Nat → Nat → Gen Unit}
    (h : globalAccess name field element upvalueField st = .ok u st')
    (hs : Generator.Sound Good ps st) (hm : Main st)
    (ha : AccessSound Good st.top field element upvalueField) (hp : Placed g.frame [] st st')
    (hh : Here g st s m) : ∃ e st₁ st₂,
      Reaches g Good ps name e field element upvalueField s m st st₁ st₂ st' := by
  simp only [globalAccess, bind_ok, currentLine_ok, and_assoc, exists_and_left,
    exists_eq_left] at h
  obtain ⟨env, st₁, henv, key, st₂, hkey, h⟩ := h
  obtain ⟨rfl, hresolved⟩ := resolve_main henv hs hm
  obtain ⟨hstep₂, hplace⟩ := keyPlace?_spec hkey hs
  have hsize₂ := keyPlace?_size hkey hs
  have hh₂ := hh.silent hs hstep₂ hsize₂
  have htop₂ := hstep₂.top_eq
  obtain ⟨v, hvariables, hshows⟩ := hh.holds
  have hlookup := lookup_eq hvariables (show "_ENV" ≠ loopState by decide)
  have hlevel := hs.level_le
  have hlt : ∀ {k}, key = some k → k < st₂.current.proto.chunk.constants.size := fun hk =>
    (Array.getElem?_eq_some_iff.mp (hplace _ hk).2).1
  rcases hresolved with ⟨l, hl, rfl⟩ | ⟨hnone, ⟨-, c, rfl⟩ | ⟨hne, -⟩⟩
  · -- a variable of the program stands for `_ENV`
    rw [hl] at hlookup
    have hr := register_lt_level hs (FunctionScope.mem_of_findLocal hl).1
    cases key with
    | some k =>
      have hword := ha.field _ _ _ _ _ _ hstep₂.sound (by omega) (by omega)
        ⟨(hplace k rfl).1, hlt rfl⟩ h
      exact ⟨_, st₂, st', hlookup, hstep₂.cast (by omega), by omega, hword, hp.since hstep₂,
        (Step.refl hword.sound).cast (by rw [hword.top_eq]; omega), rfl,
        .here ⟨hh₂, .refl _ _ _, .field l.register k h (by omega) (hplace k rfl).1
          (hplace k rfl).2 rfl⟩⟩
    | none =>
      simp only [bind_ok] at h
      obtain ⟨kr, st₃, hreserve, place, st₄, hconst, _, st₅, hload, _, st₆, hword, h⟩ := h
      obtain ⟨hstep₃, rfl⟩ := reserve_step hreserve hstep₂.sound
      have hsize₃ := reserve_size hreserve hstep₂.sound
      have htop₃ := hstep₃.top_eq
      have hload' : (do emitAbx .loadConstant st₂.top (← addConstant (.str name)) : Gen Unit) st₃ =
          .ok () st₅ := bind_ok.mpr ⟨place, st₄, hconst, hload⟩
      have hstep₅ := loadPool_step hload' hstep₃.sound (by omega)
      have htop₅ := hstep₅.top_eq
      have hword' := ha.element _ _ _ _ _ _ hstep₅.sound (by omega) (by omega) (by omega) hword
      have hrelease := (release_step h hword'.sound).1
      have hp₃ := (hp.since hstep₂).since hstep₃
      have hh₃ := hh₂.silent hstep₂.sound hstep₃ hsize₃
      have hlevel₃ : st₃.level = st₁.level := (hstep₃.level).trans hstep₂.level
      refine ⟨_, st₅, st₆, hlookup, ((hstep₂.trans hstep₃).trans hstep₅).cast (by omega), by omega,
        hword'.cast rfl, (hp₃.since hstep₅).upTo hrelease, hrelease.cast htop₂,
        release_size h hword'.sound, ?_⟩
      refine (loadPool_gives hload' hstep₃.sound (by omega) (by omega)
        (((hp₃.upTo hrelease).upTo hword')) hh₃).mono fun m₁ hm₁ => ?_
      refine ⟨hm₁.here, hm₁.spares.weaken (by omega), .element l.register st₂.top hword (by omega)
        (by omega) ?_ hm₁.reg⟩
      exact hm₁.spares.reg _ (by omega)
  · rw [hnone] at hlookup
    have hup : 0 < st₂.current.proto.upvalues.size := by
      have hgrow := hstep₂.grows.upvalues_size_le
      rw [hm.upvalues] at hgrow
      exact hgrow
    cases key with
    | some k =>
      have hword := ha.upvalueField _ _ _ _ _ _ hstep₂.sound (by omega) hup
        ⟨(hplace k rfl).1, hlt rfl⟩ h
      exact ⟨v, st₂, st', hlookup, hstep₂.cast (by omega), by omega, hword, hp.since hstep₂,
        (Step.refl hword.sound).cast (by rw [hword.top_eq]; omega), rfl,
        .here ⟨hh₂, .refl _ _ _, .upvalue k h (hplace k rfl).1 (hplace k rfl).2 hshows⟩⟩
    | none =>
      simp only [bind_ok] at h
      obtain ⟨r, st₃, hreserve, _, st₄, hget, place, st₅, hconst, _, st₆, hload, _, st₇, hword,
        h⟩ := h
      obtain ⟨hstep₃, rfl⟩ := reserve_step hreserve hstep₂.sound
      have hsize₃ := reserve_size hreserve hstep₂.sound
      have htop₃ := hstep₃.top_eq
      have hgrow := hstep₃.grows.upvalues_size_le
      have hstep₄ := emitUpvalue_step hget (.inl rfl) hstep₃.sound (by omega) (by omega)
      have htop₄ := hstep₄.top_eq
      have hload' : (do emitAbx .loadConstant (st₂.top + 1) (← addConstant (.str name)) : Gen Unit)
          st₄ = .ok () st₆ := bind_ok.mpr ⟨place, st₅, hconst, hload⟩
      have hstep₆ := loadPool_step hload' hstep₄.sound (by omega)
      have htop₆ := hstep₆.top_eq
      have hword' := ha.element _ _ _ _ _ _ hstep₆.sound (by omega) (by omega) (by omega) hword
      have hrelease := (release_step h hword'.sound).1
      have hp₃ := (hp.since hstep₂).since hstep₃
      have hp₄ := ((hp₃.upTo hrelease).upTo hword').upTo hstep₆
      have hh₃ := hh₂.silent hstep₂.sound hstep₃ hsize₃
      have hlevel₃ : st₃.level = st₁.level := (hstep₃.level).trans hstep₂.level
      have hlevel₄ : st₄.level = st₁.level := (hstep₄.level).trans hlevel₃
      have htop₃' := hstep₃.sound.top_le
      have hmax₃ := hstep₃.sound.registers_le
      refine ⟨v, st₆, st₇, hlookup,
        (((hstep₂.trans hstep₃).trans hstep₄).trans hstep₆).cast (by omega), by omega,
        hword'.cast rfl, ((hp₃.since hstep₄).since hstep₆).upTo hrelease, hrelease.cast htop₂,
        release_size h hword'.sound, ?_⟩
      obtain ⟨⟨i, hi⟩, hsize₄⟩ := hp₄.abc hget hstep₃.sound (by omega) (by omega) (by omega)
      have hreg := Here.registers hstep₃.sound hp₄ hstep₄.grows (r := st₂.top) (by omega)
      have hyield := hh₃.at'.getUpvalue hi.word hi.op (by rw [hi.b]; exact hshows.environment) (by rw [hi.a]; exact hreg)
      rw [hi.a] at hyield
      refine Leads.andThen (hh₃.gives hstep₃.sound hstep₄ hsize₄ (by omega) hyield) fun m₁ hm₁ => ?_
      refine (loadPool_gives hload' hstep₄.sound (by omega) (by omega)
        (((hp₃.since hstep₄).upTo hrelease).upTo hword') hm₁.here).mono fun m₂ hm₂ => ?_
      refine ⟨hm₂.here, (hm₁.spares.weaken (by omega)).trans (hm₂.spares.weaken (by omega)),
        .element st₂.top (st₂.top + 1) hword (by omega) (by omega) ?_ hm₂.reg⟩
      exact (hm₂.spares.reg _ (by omega)).trans hm₁.reg
  · exact (hne rfl).elim

/-! ## Reading a name -/

theorem Here.read_local {l : Local} (hh : Here g st s m) (hl : st.current.findLocal name = some l)
    (hname : name ≠ loopState) : s.read name = some (m.reg g.frame l.register) := by
  obtain ⟨v, hvariables, -⟩ := hh.holds
  have hlookup := lookup_eq hvariables hname
  rw [hl] at hlookup
  rw [Store.read, hlookup]

end Structured
end LuaMachine
