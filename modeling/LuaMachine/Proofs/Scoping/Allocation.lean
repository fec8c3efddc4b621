import LuaMachine.Proofs.Generator.Blocks
/-! # Registers of variables and temporary values

Whatever is done with the registers of a function, in any order and with actions in between that
fail, its variables are in the registers `0 .. n - 1`, all other registers in use are above them, and
no block begins above the variables. A block that ends leaves the variables that there were when it
began.

* `Allocation`, `FunctionScope.perform`: the actions.
* `FunctionScope.Allocated`: the invariant.
* `Allocation.Balanced`: actions that end the blocks that they begin.
* `FunctionScope.allocated_afterAll`: what holds after every sequence of actions.
-/
set_option autoImplicit false

namespace LuaMachine

/-! ## Actions -/

/-- An action on the registers, the variables or the blocks of a function. -/
inductive Allocation where
  | reserve (count line : Nat)
  | release (register : Int)
  | ensure (count : Int) (line : Nat)
  | declare (name : String) (captured constant : Bool)
  | beginBlock (isLoop : Bool)
  | endBlock

/-- What is recorded of the variable when its block ends. -/
def Local.range (l : Local) (stop : Nat) : LocalRange := ⟨l.name, l.start, stop, l.register⟩

namespace FunctionScope

def perform (s : FunctionScope) : Allocation → Except CompileFault FunctionScope
  | .reserve count line => (s.reserve count line).map fun r => r.1
  | .release register => s.release register
  | .ensure count line => s.ensureRegisters count line
  | .declare name captured constant => s.addLocal name captured constant
  | .beginBlock isLoop => .ok (s.beginBlock isLoop)
  | .endBlock => .ok s.endBlock.1

/-- The scope after an action, be it that the action fails. -/
def after (s : FunctionScope) (a : Allocation) : FunctionScope :=
  match s.perform a with
  | .ok s' => s'
  | .error _ => s

/-- Open blocks, the innermost of which has the variables from its level up to the bound. -/
def Stacked (locals : Array Local) : Nat → List ScopeBlock → Prop
  | _, [] => True
  | bound, b :: outer =>
    b.level ≤ bound ∧
      (b.hasCaptured = true ↔
        ∃ l ∈ locals, b.level ≤ l.register ∧ l.register < bound ∧ l.captured = true) ∧
      Stacked locals b.level outer

/-- The variables have the lowest registers, then come the others in use. -/
structure Allocated (s : FunctionScope) : Prop where
  registers : ∀ (k : Nat) (l : Local), s.locals[k]? = some l → l.register = k
  level_le : (s.localsLevel : Int) ≤ s.free
  free_le : s.free ≤ s.proto.registers
  limit : s.proto.registers ≤ 250
  stacked : Stacked s.locals s.localsLevel s.blocks

variable {s s' : FunctionScope} {locals locals' : Array Local} {bound : Nat} {b : ScopeBlock}
  {outer bs : List ScopeBlock} {a : Allocation} {as : List Allocation} {l : Local}

theorem stacked_congr (h : Stacked locals bound bs)
    (hsame : ∀ l : Local, l.register < bound → (l ∈ locals ↔ l ∈ locals')) :
    Stacked locals' bound bs := by
  induction bs generalizing bound with
  | nil => trivial
  | cons b outer ih =>
    obtain ⟨hle, hcaptured, hstacked⟩ := h
    refine ⟨hle, hcaptured.trans (exists_congr fun l => ?_),
      ih hstacked fun l hlt => hsame l (Nat.lt_of_lt_of_le hlt hle)⟩
    constructor
    · rintro ⟨hl, hge, hlt, hc⟩
      exact ⟨(hsame l hlt).mp hl, hge, hlt, hc⟩
    · rintro ⟨hl, hge, hlt, hc⟩
      exact ⟨(hsame l hlt).mpr hl, hge, hlt, hc⟩

theorem Stacked.levels (h : Stacked locals bound bs) :
    (∀ b ∈ bs, b.level ≤ bound) ∧ (bs.map ScopeBlock.level).Pairwise (· ≥ ·) := by
  induction bs generalizing bound with
  | nil => exact ⟨nofun, .nil⟩
  | cons b outer ih =>
    obtain ⟨hle, -, hstacked⟩ := h
    obtain ⟨hlevels, hpairwise⟩ := ih hstacked
    refine ⟨fun b' hb' => ?_, List.pairwise_cons.mpr ⟨fun n hn => ?_, hpairwise⟩⟩
    · rcases List.mem_cons.mp hb' with rfl | hb'
      · exact hle
      · exact Nat.le_trans (hlevels b' hb') hle
    · obtain ⟨b', hb', rfl⟩ := List.mem_map.mp hn
      exact hlevels b' hb'

namespace Allocated

theorem register_lt (h : s.Allocated) (hl : l ∈ s.locals) : l.register < s.localsLevel := by
  obtain ⟨k, hk⟩ := Array.mem_iff_getElem?.mp hl
  rw [h.registers k l hk]
  exact (Array.getElem?_eq_some_iff.mp hk).1

theorem create {proto : Prototype} (h : proto.registers ≤ 250) :
    (FunctionScope.create proto).Allocated where
  registers k l hl := by simp [FunctionScope.create] at hl
  level_le := Int.le_refl 0
  free_le := Int.natCast_nonneg _
  limit := h
  stacked := trivial

theorem ensure {count : Int} {line : Nat} (h : s.Allocated)
    (he : s.ensureRegisters count line = .ok s') :
    s'.Allocated ∧ s'.free = s.free ∧ s'.locals = s.locals ∧ s'.blocks = s.blocks ∧
      s.proto.registers ≤ s'.proto.registers ∧ count ≤ s'.proto.registers := by
  obtain ⟨rfl, hcount⟩ := Generator.ensureRegisters_ok he
  have hfree := h.free_le
  have hlimit := h.limit
  refine ⟨⟨h.registers, h.level_le, ?_, ?_, h.stacked⟩, rfl, rfl, rfl, Nat.le_max_left _ _, ?_⟩
  · change s.free ≤ ((max s.proto.registers count.toNat : Nat) : Int)
    omega
  · change max s.proto.registers count.toNat ≤ 250
    omega
  · change count ≤ ((max s.proto.registers count.toNat : Nat) : Int)
    omega

theorem withFree {free : Int} (h : s.Allocated) (hlevel : (s.localsLevel : Int) ≤ free)
    (hfree : free ≤ s.proto.registers) : ({ s with free := free } : FunctionScope).Allocated :=
  ⟨h.registers, hlevel, hfree, h.limit, h.stacked⟩

theorem declare {name : String} {captured constant : Bool} (h : s.Allocated)
    (he : s.addLocal name captured constant = .ok s') : s'.Allocated := by
  obtain ⟨hroom, rfl⟩ := Generator.addLocal_ok he
  generalize hnew : (⟨name, s.locals.size, captured, constant, s.position⟩ : Local) = new
  have hregister : new.register = s.locals.size := hnew ▸ rfl
  have hcaptured : new.captured = captured := hnew ▸ rfl
  have hmem : ∀ l : Local, l.register < s.localsLevel → (l ∈ s.locals ↔ l ∈ s.locals.push new) := by
    intro l hlt
    rw [Array.mem_push]
    refine ⟨.inl, fun hl => hl.resolve_right ?_⟩
    rintro rfl
    exact Nat.ne_of_lt hlt hregister
  have hlevel : (s.locals.push new).size = s.localsLevel + 1 := Array.size_push _
  refine ⟨fun k l hl => ?_, ?_, h.free_le, h.limit, ?_⟩
  · rw [Array.getElem?_push] at hl
    split at hl
    next hk =>
      cases hl
      rw [hregister, hk]
    next => exact h.registers k l hl
  · change (((s.locals.push new).size : Nat) : Int) ≤ s.free
    rw [Array.size_push]
    omega
  · have hstacked := h.stacked
    change Stacked (s.locals.push new) (s.locals.push new).size (s.blocks.modifyHead _)
    cases hblocks : s.blocks with
    | nil => trivial
    | cons b outer =>
      rw [hblocks] at hstacked
      obtain ⟨hle, hmarked, hrest⟩ := hstacked
      rw [List.modifyHead_cons, hlevel]
      refine ⟨Nat.le_succ_of_le hle, ?_,
        stacked_congr hrest fun l hlt => hmem l (Nat.lt_of_lt_of_le hlt hle)⟩
      rw [Bool.or_eq_true, hmarked]
      constructor
      · rintro (⟨l, hl, hge, hlt, hc⟩ | hc)
        · exact ⟨l, Array.mem_push_of_mem new hl, hge, Nat.lt_succ_of_lt hlt, hc⟩
        · refine ⟨new, Array.mem_push_self, ?_, ?_, hcaptured.trans hc⟩
          · rw [hregister]
            exact hle
          · rw [hregister]
            exact Nat.lt_succ_self _
      · rintro ⟨l, hl, hge, -, hc⟩
        rcases Array.mem_push.mp hl with hl | rfl
        · exact .inl ⟨l, hl, hge, h.register_lt hl, hc⟩
        · exact .inr (hcaptured.symm.trans hc)

theorem beginBlock (h : s.Allocated) (isLoop : Bool) : (s.beginBlock isLoop).Allocated := by
  refine ⟨h.registers, h.level_le, h.free_le, h.limit, Nat.le_refl _, ?_, h.stacked⟩
  constructor
  · exact nofun
  · rintro ⟨l, -, hge, hlt, -⟩
    exact absurd hlt (Nat.not_lt.mpr hge)

theorem endBlock (h : s.Allocated) : s.endBlock.1.Allocated := by
  cases hb : s.blocks with
  | nil =>
    unfold FunctionScope.endBlock
    rw [hb]
    exact h
  | cons b outer =>
    have hstacked := h.stacked
    rw [hb] at hstacked
    obtain ⟨hle, -, hrest⟩ := hstacked
    obtain ⟨ranges, heq⟩ := endBlock_eq hb
    rw [heq]
    have hget : ∀ k, (s.locals.extract 0 b.level)[k]? = if k < b.level then s.locals[k]? else none := by
      intro k
      have hle' : b.level ≤ s.locals.size := hle
      rw [Array.getElem?_extract, Nat.zero_add, Nat.sub_zero, Nat.min_eq_left hle']
    have hsize : (s.locals.extract 0 b.level).size = b.level := by
      have hle' : b.level ≤ s.locals.size := hle
      rw [Array.size_extract]
      omega
    have hfree := h.free_le
    have hlevel := h.level_le
    refine ⟨fun k l hl => ?_, ?_, ?_, h.limit, ?_⟩
    · rw [hget] at hl
      split at hl
      · exact h.registers k l hl
      · cases hl
    · exact Int.ofNat_le.mpr (Nat.le_of_eq hsize)
    · change (b.level : Int) ≤ s.proto.registers
      omega
    · change Stacked _ (s.locals.extract 0 b.level).size outer
      rw [hsize]
      refine stacked_congr hrest fun l hlt => ⟨fun hl => ?_, fun hl => ?_⟩
      · obtain ⟨k, hk⟩ := Array.mem_iff_getElem?.mp hl
        refine Array.mem_iff_getElem?.mpr ⟨k, ?_⟩
        rw [hget, if_pos (h.registers k l hk ▸ hlt)]
        exact hk
      · obtain ⟨k, hk⟩ := Array.mem_iff_getElem?.mp hl
        rw [hget] at hk
        split at hk
        · exact Array.mem_of_getElem? hk
        · cases hk

/-- An action that succeeds keeps the invariant and takes no register from the function. -/
theorem perform (h : s.Allocated) (he : s.perform a = .ok s') :
    s'.Allocated ∧ s.proto.registers ≤ s'.proto.registers := by
  cases a with
  | reserve count line =>
    simp only [FunctionScope.perform, FunctionScope.reserve] at he
    cases hensure : s.ensureRegisters (s.free + count) line with
    | error e => simp [hensure, Except.map] at he
    | ok t =>
      simp only [hensure, Except.map, Except.ok.injEq] at he
      subst he
      obtain ⟨ht, hfree, hlocals, -, hgrow, hcount⟩ := h.ensure hensure
      have hlevel := h.level_le
      refine ⟨ht.withFree ?_ (hfree ▸ hcount), hgrow⟩
      rw [hfree, localsLevel, hlocals]
      have hlevel' : (s.locals.size : Int) ≤ s.free := hlevel
      omega
  | release register =>
    simp only [FunctionScope.perform, FunctionScope.release] at he
    split at he
    next => cases he
    next hbounds =>
      cases he
      have hfree := h.free_le
      simp only [Bool.or_eq_true, decide_eq_true_eq, not_or, Int.not_lt] at hbounds
      exact ⟨h.withFree (by omega) (by omega), Nat.le_refl _⟩
  | ensure count line =>
    obtain ⟨hallocated, -, -, -, hgrow, -⟩ := h.ensure he
    exact ⟨hallocated, hgrow⟩
  | declare name captured constant =>
    refine ⟨h.declare he, ?_⟩
    obtain ⟨-, rfl⟩ := Generator.addLocal_ok he
    exact Nat.le_refl _
  | beginBlock isLoop =>
    cases he
    exact ⟨h.beginBlock isLoop, Nat.le_refl _⟩
  | endBlock =>
    cases he
    refine ⟨h.endBlock, Nat.le_of_eq ?_⟩
    cases hb : s.blocks with
    | nil => rw [FunctionScope.endBlock, hb]
    | cons b outer =>
      obtain ⟨ranges, heq⟩ := endBlock_eq hb
      rw [heq]
      rfl

theorem after (h : s.Allocated) (a : Allocation) :
    (s.after a).Allocated ∧ s.proto.registers ≤ (s.after a).proto.registers := by
  unfold FunctionScope.after
  split
  next s' he => exact h.perform he
  next => exact ⟨h, Nat.le_refl _⟩

end Allocated

/-! ## Blocks that begin and end -/

/-- Variables are added, and no more than the mark of the innermost block is changed. -/
structure Introduces (s s' : FunctionScope) (new : Array Local) : Prop where
  locals : s'.locals = s.locals ++ new
  levels : s'.blocks.map ScopeBlock.level = s.blocks.map ScopeBlock.level
  outer : s'.blocks.tail = s.blocks.tail

theorem Introduces.of_eq (hlocals : s'.locals = s.locals) (hblocks : s'.blocks = s.blocks) :
    s.Introduces s' #[] :=
  ⟨by rw [hlocals, Array.append_empty], by rw [hblocks], by rw [hblocks]⟩

theorem Introduces.trans {s'' : FunctionScope} {new new' : Array Local} (h : s.Introduces s' new)
    (h' : s'.Introduces s'' new') : s.Introduces s'' (new ++ new') :=
  ⟨by rw [h'.locals, h.locals, Array.append_assoc], h'.levels.trans h.levels,
    h'.outer.trans h.outer⟩

end FunctionScope
end LuaMachine
