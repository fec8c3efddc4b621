import LuaMachine.Proofs.Machine.Origins
import LuaMachine.Proofs.Machine.Turning
/-! # Open upvalues belong to variables in scope

Whatever a function does, each upvalue that is open for one of its registers is that of a captured
variable which is in scope where the function goes on. In particular no other register has an open
upvalue, such as the registers of temporaries or those that hold the state of a loop.

* `Machine.Heeds`: the open upvalues of a frame are those of variables.
* `Machine.Turned.heeds`: an iteration keeps to this.
* `Machine.Upheld`, `Machine.Reached.upholds`: from one iteration to runs, for any such property.
* `Machine.Reached.heedful`: it holds whenever a function of a run is about to execute an instruction.
-/
set_option autoImplicit false

namespace LuaMachine

namespace Prototype

variable {p : Prototype} {ν : Nat → Note} {n r t : Nat} {i : Instruction} {op : Opcode} {l : Local}

/-- A variable that comes to a word which closes nothing is in use there. -/
theorem Admits.live (h : p.Admits ν n l) (hi : p.chunk.code[n]? = some i) (hop : i.opcode? = some op)
    (hclose : op ≠ .close) : (ν n).Live l := by
  rcases h with ⟨-, hl | ⟨-, i', hi', hop', -⟩⟩ | ⟨rfl, hl⟩
  · exact hl
  · cases hi.symm.trans hi'
    exact absurd (Option.some.inj (hop.symm.trans hop')) hclose
  · exact hl

end Prototype

namespace Machine

variable {code : Nat → Prototype} {f g f₀ : Frame} {m m' : Machine} {i k : Nat}

/-- The open upvalues of the frame with this number are those of variables in scope. -/
def Heeds (m : Machine) (i : Nat) (f : Frame) : Prop :=
  ∀ ν, f.prototype.Noted ν (fun _ => False) → ∀ u ∈ m.openUpvalues, f.base ≤ u.1 →
    (∀ g, m.frames[i + 1]? = some g → u.1 < g.base) →
    ∃ l, u.1 = f.base + l.register ∧ f.prototype.Admits ν f.next l

/-- All frames from this one on. -/
def HeedsFrom (k : Nat) (m : Machine) : Prop := ∀ i f, k ≤ i → m.frames[i]? = some f → m.Heeds i f

/-- A frame that has not changed, and no upvalue is open for it that was not before. -/
theorem Heeds.same (h : m.Heeds i f) (hprototype : g.prototype = f.prototype)
    (hbase : g.base = f.base) (hnext : g.next = f.next)
    (hopened : ∀ u ∈ m'.openUpvalues, f.base ≤ u.1 → (∀ g, m'.frames[i + 1]? = some g → u.1 < g.base) →
      u ∈ m.openUpvalues ∧ ∀ g, m.frames[i + 1]? = some g → u.1 < g.base) : m'.Heeds i g := by
  intro ν hν u hu hle hlt
  rw [hprototype] at hν ⊢
  rw [hbase] at hle ⊢
  rw [hnext]
  obtain ⟨hold, hlt'⟩ := hopened u hu hle hlt
  exact h ν hν u hold hle hlt'

section innermost

variable {ν : Nat → Note} {i : Instruction} {op : Opcode} {u : Nat × Ref}

/-- The variable of an upvalue that is open for a register of the innermost frame. -/
theorem HeedsFrom.exists_live (h : HeedsFrom k m) (ha : Active code f m) (hk : k < m.frames.size)
    (hν : f.prototype.Noted ν fun _ => False) (hi : f.prototype.chunk.code[f.next]? = some i)
    (hu : u ∈ m.openUpvalues) (hle : f.base ≤ u.1) (hopen : ¬f.Shuts f.next u.1) :
    ∃ l, u.1 = f.base + l.register ∧ (ν f.next).Live l := by
  obtain ⟨l, hl, hadmits⟩ := h _ f (Nat.le_sub_one_of_lt hk) ha.frame_get ν hν u hu hle fun g hg => by
    have hlt := (Array.getElem?_eq_some_iff.mp hg).1
    omega
  refine ⟨l, hl, ?_⟩
  have hregister : u.1 - f.base = l.register := by omega
  have hlt := Prototype.lt_size_of_word hi
  rcases hadmits with ⟨-, hmeets⟩ | ⟨heq, -⟩
  · rcases hmeets with hlive | ⟨-, hcloses⟩
    · exact hlive
    · exact absurd ⟨hle, hregister ▸ hcloses⟩ hopen
  · omega

/-- The variable of an upvalue that is open behind an instruction. -/
theorem HeedsFrom.exists_after (h : HeedsFrom k m) (ha : Active code f m) (hk : k < m.frames.size)
    (hν : f.prototype.Noted ν fun _ => False) (hi : f.prototype.chunk.code[f.next]? = some i)
    (heffect : Effect f f.next i op m m') (hu : u ∈ m'.openUpvalues) (hle : f.base ≤ u.1) :
    ∃ l, u.1 = f.base + l.register ∧ f.prototype.After (ν f.next) f.next l := by
  rcases heffect.opened u hu with ⟨hold, hopen⟩ | ⟨-, htakes⟩
  · obtain ⟨l, hl, hlive⟩ := h.exists_live ha hk hν hi hold hle hopen
    have hregister : u.1 - f.base = l.register := by omega
    exact ⟨l, hl, .inl hlive, fun hcloses => hopen ⟨hle, hregister ▸ hcloses⟩⟩
  · obtain ⟨i', op', hi', hop', hminds⟩ := hν.words f.next (Prototype.lt_size_of_word hi)
    obtain ⟨j, q, hj, hclosure, hq, s, hs, hregister, hindex⟩ := htakes
    cases hi'.symm.trans hj
    cases hop'.symm.trans hclosure
    obtain ⟨q', hq', hcaptures⟩ := hminds.captures rfl
    cases hq.symm.trans hq'
    obtain ⟨l, hsees, hcaptured, hl⟩ := hcaptures s hs hregister
    refine ⟨l, by omega, .inr ⟨hsees, hcaptured, i', q, hj, hclosure, hq, s, hs, hregister, hl.symm⟩,
      fun hcloses => ?_⟩
    obtain ⟨i'', hi'', hclose, -⟩ := hcloses
    cases hj.symm.trans hi''
    cases hclosure.symm.trans hclose

/-- Behind a call the upvalues are those of variables, and they lie below the function called. -/
theorem HeedsFrom.call (h : HeedsFrom k m) (ha : Active code f m) (hk : k < m.frames.size)
    (hν : f.prototype.Noted ν fun _ => False) (hi : f.prototype.chunk.code[f.next]? = some i)
    (hop : i.opcode? = some op) (hcall : op = .call ∨ op = .iterCall) (hu : u ∈ m.openUpvalues)
    (hle : f.base ≤ u.1) :
    u.1 < f.base + i.a + op.shift ∧
      ∃ l, u.1 = f.base + l.register ∧ f.prototype.Admits ν (f.next + 1) l := by
  have hopen : ¬f.Shuts f.next u.1 := fun hshuts => by
    obtain ⟨rfl, -⟩ := (shuts_iff hi hop _).mp hshuts
    simp at hcall
  obtain ⟨l, hl, hlive⟩ := h.exists_live ha hk hν hi hu hle hopen
  obtain ⟨i', op', hi', hop', hminds⟩ := hν.words f.next (Prototype.lt_size_of_word hi)
  cases hi.symm.trans hi'
  cases hop.symm.trans hop'
  have hlt := hminds.register_lt hlive.1
  refine ⟨?_, l, hl, ?_⟩
  · rcases hcall with rfl | rfl
    · rcases hminds.writes i.a rfl with hsize | hassigns
      · have hshift : Opcode.call.shift = 0 := rfl
        omega
      · cases hassigns.1
    · have hsize := (hminds.loops (by simp)).1
      have hshift : Opcode.iterCall.shift = 3 := rfl
      omega
  · refine (hν.settled f.next (Prototype.lt_size_of_word hi) id).goes _ l
      (goes_next hi hop ?_) ⟨.inl hlive, fun hcloses => hopen ⟨hle, ?_⟩⟩
    · rcases hcall with rfl | rfl <;> simp
    · rwa [show u.1 - f.base = l.register by omega]

end innermost

/-! ## One iteration -/

/-- The frames below the innermost one, as long as no upvalue is opened for them. -/
theorem Heeds.below (h : m.Heeds i f) (hm : Active code g m) (hi : i + 1 < m.frames.size)
    (hframes : ∀ j, j + 1 < m.frames.size → m'.frames[j]? = m.frames[j]?)
    (hlast : ∃ g', m'.frames[m.frames.size - 1]? = some g' ∧ g'.base = g.base)
    (hopened : ∀ u ∈ m'.openUpvalues, u.1 < g.base → u ∈ m.openUpvalues) : m'.Heeds i f := by
  have hlower : ∀ u : Nat × Ref, (∀ g, m'.frames[i + 1]? = some g → u.1 < g.base) →
      u.1 < g.base ∧ ∀ g, m.frames[i + 1]? = some g → u.1 < g.base := by
    intro u hu
    by_cases hlt : i + 1 + 1 < m.frames.size
    · rw [hframes (i + 1) hlt] at hu
      refine ⟨?_, hu⟩
      have hnext : m.frames[i + 1]? = some m.frames[i + 1] := Array.getElem?_eq_getElem (by omega)
      exact Nat.lt_of_lt_of_le (hu _ hnext)
        (hm.ready.frames.base_le (Nat.le_sub_one_of_lt (by omega)) hnext hm.frame_get)
    · obtain ⟨g', hg', hbase⟩ := hlast
      have heq : i + 1 = m.frames.size - 1 := by omega
      have hlt' := hu g' (heq ▸ hg')
      rw [hbase] at hlt'
      refine ⟨hlt', fun g₁ hg₁ => ?_⟩
      rw [heq] at hg₁
      cases hm.frame_get.symm.trans hg₁
      exact hlt'
  refine h.same rfl rfl rfl fun u hu _ hlt => ?_
  obtain ⟨hlt', hlt''⟩ := hlower u hlt
  exact ⟨hopened u hu hlt', hlt''⟩

/-- All frames that were there before, if the innermost one goes on elsewhere. -/
theorem HeedsFrom.innermost (h : HeedsFrom k m) (ha : Active code f m) {f' : Frame}
    (hframes : ∀ j < m.frames.size, m'.frames[j]? =
      if j = m.frames.size - 1 then some f' else m.frames[j]?) (hbase : f'.base = f.base)
    (hopened : ∀ u ∈ m'.openUpvalues, u.1 < f.base → u ∈ m.openUpvalues)
    (hlast : m'.Heeds (m.frames.size - 1) f') {j : Nat} (hj : k ≤ j) (hlt : j < m.frames.size)
    (hg : m'.frames[j]? = some g) : m'.Heeds j g := by
  have hpos := ha.size_pos
  rw [hframes j hlt] at hg
  split at hg
  next heq =>
    cases hg
    exact heq ▸ hlast
  next hne =>
    refine (h j g hj hg).below ha (by omega) (fun j' hj' => ?_) ⟨f', ?_, hbase⟩ hopened
    · rw [hframes j' (by omega), if_neg (by omega)]
    · rw [hframes _ (by omega), if_pos rfl]

theorem Active.modify_get (ha : Active code f m) (φ : Frame → Frame) (j : Nat) :
    (m.frames.modify (m.frames.size - 1) φ)[j]? =
      if j = m.frames.size - 1 then some (φ f) else m.frames[j]? := by
  rw [Array.getElem?_modify]
  split
  next heq => rw [← heq, ha.frame_get, Option.map_some, if_pos rfl]
  next hne => rw [if_neg fun heq => hne heq.symm]

theorem Effect.heeds {i : Instruction} {op : Opcode} (h : Effect f f.next i op m m')
    (hi : f.prototype.chunk.code[f.next]? = some i) (hheeds : HeedsFrom k m) (ha : Active code f m)
    (hk : k < m.frames.size) : HeedsFrom k m' := by
  obtain ⟨t, stop, hgoes, -, hframes⟩ := h.moves
  have hget := fun j => (congrArg (fun fs : Array Frame => fs[j]?) hframes).trans (ha.modify_get _ j)
  have hsize : m'.frames.size = m.frames.size := by rw [hframes, Array.size_modify]
  intro j g hj hg
  refine hheeds.innermost ha (fun j _ => hget j) rfl (fun u hu hlt => ?_) ?_ hj
    (hsize ▸ (Array.getElem?_eq_some_iff.mp hg).1) hg
  · exact (h.opened u hu).elim (fun h => h.1) fun h => absurd h.1 (Nat.not_le_of_lt hlt)
  · intro ν hν u hu hle _
    obtain ⟨l, hl, hafter⟩ := hheeds.exists_after ha hk hν hi h hu hle
    exact ⟨l, hl, (hν.settled f.next (Prototype.lt_size_of_word hi) id).goes t l hgoes hafter⟩

theorem Answered.heeds {i : Instruction} {op : Opcode} {wanted : Option Nat}
    (h : Answered f (f.base + i.a + op.shift) wanted m.advanced m m')
    (hi : f.prototype.chunk.code[f.next]? = some i) (hop : i.opcode? = some op)
    (hcall : op = .call ∨ op = .iterCall) (hheeds : HeedsFrom k m) (ha : Active code f m)
    (hk : k < m.frames.size) (hmindful : f.prototype.Mindful) : HeedsFrom k m' := by
  have hopened : m'.openUpvalues = m.openUpvalues := by cases h <;> assumption
  have hlast : ∀ {f' : Frame}, f'.prototype = f.prototype → f'.base = f.base →
      f'.next = f.next + 1 → m'.Heeds (m.frames.size - 1) f' := by
    intro f' hprototype hbase hnext ν hν u hu hle _
    rw [hprototype] at hν ⊢
    rw [hbase] at hle ⊢
    rw [hnext]
    exact (hheeds.call ha hk hν hi hop hcall (hopened ▸ hu) hle).2
  have hlower : ∀ u ∈ m'.openUpvalues, u.1 < f.base → u ∈ m.openUpvalues :=
    fun u hu _ => hopened ▸ hu
  intro j g hj hg
  cases h with
  | @enters g₁ hframes hbase _ hnext =>
    have hget : ∀ j < m.frames.size, m'.frames[j]? = if j = m.frames.size - 1 then
        some { f with next := f.next + 1 } else m.frames[j]? := fun j hj => by
      rw [hframes, Array.getElem?_push, if_neg (by rw [advanced_size]; omega)]
      exact ha.modify_get _ j
    rw [hframes] at hg
    rcases getElem?_push_some hg with hold | ⟨rfl, rfl⟩
    · have hlt := (Array.getElem?_eq_some_iff.mp hold).1
      rw [advanced_size] at hlt
      exact hheeds.innermost ha hget rfl hlower (hlast rfl rfl rfl) hj hlt (hframes ▸ hg)
    · -- no upvalue is open for a register of the new frame
      intro ν _ u hu hle _
      obtain ⟨ν, hν, -⟩ := hmindful
      rw [hbase] at hle
      have hlt := (hheeds.call ha hk hν hi hop hcall (hopened ▸ hu) (by omega)).1
      omega
  | @delivers stop hframes =>
    have hget : ∀ j, m'.frames[j]? = if j = m.frames.size - 1 then
        some { f with next := f.next + 1, open' := stop } else m.frames[j]? := fun j => by
      rw [hframes, advanced_size, advanced, modify_back]
      exact ha.modify_get _ j
    have hsize : m'.frames.size = m.frames.size := by
      rw [hframes, Array.size_modify, advanced_size]
    exact hheeds.innermost ha (fun j _ => hget j) rfl hlower (hlast rfl rfl rfl) hj
      (hsize ▸ (Array.getElem?_eq_some_iff.mp hg).1) hg

/-- The frames that are left behind a return go on as they were to. -/
theorem left_get {n j : Nat} {g : Frame} {wanted : Option Nat}
    (hg : (if wanted.isNone then
      m.frames.pop.modify (m.frames.pop.size - 1) fun g => { g with open' := n }
      else m.frames.pop)[j]? = some g) :
    j + 1 < m.frames.size ∧ ∃ g₀ stop, m.frames[j]? = some g₀ ∧ g = { g₀ with open' := stop } := by
  have hpop : ∀ {g}, m.frames.pop[j]? = some g → j + 1 < m.frames.size ∧ m.frames[j]? = some g := by
    intro g hg
    rw [Array.getElem?_pop] at hg
    split at hg
    · exact ⟨by omega, hg⟩
    · cases hg
  split at hg
  · rw [Array.getElem?_modify] at hg
    split at hg
    · obtain ⟨g₀, hg₀, rfl⟩ := Option.map_eq_some_iff.mp hg
      obtain ⟨hlt, hg₀⟩ := hpop hg₀
      exact ⟨hlt, g₀, n, hg₀, rfl⟩
    · obtain ⟨hlt, hg⟩ := hpop hg
      exact ⟨hlt, g, g.open', hg, rfl⟩
  · obtain ⟨hlt, hg⟩ := hpop hg
    exact ⟨hlt, g, g.open', hg, rfl⟩

theorem Turned.heeds (h : Turned f m m') (hheeds : HeedsFrom k m) (ha : Active code f m)
    (hk : k < m.frames.size) (hmindful : f.prototype.Mindful) : HeedsFrom k m' := by
  have hpos := ha.size_pos
  cases h with
  | acts hi hop hplain heffect => exact heffect.heeds hi hheeds ha hk
  | calls hi hop hcall hanswered => exact hanswered.heeds hi hop hcall hheeds ha hk hmindful
  | @returns i n hi hop hframes hopened hslots =>
    intro j g hj hg
    rw [hframes] at hg
    obtain ⟨hlt, g₀, stop, hg₀, rfl⟩ := left_get hg
    refine (hheeds j g₀ hj hg₀).same rfl rfl rfl fun u hu hle hnext => ?_
    obtain ⟨hold, hbase⟩ := (hopened u).mp hu
    refine ⟨hold, fun g' hg' => ?_⟩
    by_cases hj' : j + 1 = m.frames.size - 1
    · rw [hj'] at hg'
      cases ha.frame_get.symm.trans hg'
      exact hbase
    · have hlt' := (Array.getElem?_eq_some_iff.mp hg').1
      obtain ⟨g₁, hg₁⟩ : ∃ g₁, m'.frames[j + 1]? = some g₁ := by
        refine ⟨_, Array.getElem?_eq_getElem ?_⟩
        rw [hframes]
        split <;> simp only [Array.size_modify, Array.size_pop] <;> omega
      have hlower := hnext g₁ hg₁
      rw [hframes] at hg₁
      obtain ⟨-, g₂, stop', hg₂, rfl⟩ := left_get hg₁
      cases hg'.symm.trans hg₂
      exact hlower

/-! ## What functions keep to -/

/-- A loop is about to execute an instruction of a compiled function, and the functions from the first
one of the loop on keep to the property. -/
def Upholds (P : Nat → Machine → Prop) (m : Machine) : Prop :=
  ∃ f₀ k, f₀.toHost = true ∧ Looping f₀ k m ∧ P k m ∧ m.Authored

/-- Functions that native functions have called start with the property, and no instruction destroys
it. -/
structure Upheld (P : Nat → Machine → Prop) : Prop where
  entered : ∀ {code : Nat → Prototype} {m m' : Machine} {f : Frame}, Ready code m →
    m'.frames = m.frames.push f → f.next = 0 → f.base = m.top + 1 →
    m'.openUpvalues = m.openUpvalues → P m.frames.size m'
  turned : ∀ {code : Nat → Prototype} {m m' : Machine} {f : Frame} {k : Nat}, Active code f m →
    k < m.frames.size → k < m'.frames.size → m.Authored → Turned f m m' → P k m → P k m'

section upheld

variable {P : Nat → Machine → Prop} {options : Options} {hosts : Array HostFunction} {p : Moment}

theorem Advances.turned (h : Advances m m') (ha : Active code f m) : Turned f m m' := by
  obtain ⟨fuel, hturn⟩ := h
  exact (ensures_turned ha).of_ok hturn rfl

theorem Upholds.active (h : Upholds P m) : ∃ code f, Active code f m := by
  obtain ⟨f₀, k, -, hloop, -⟩ := h
  exact hloop.active

theorem Upheld.enterFromHost (hP : Upheld P) {r : Ref} {args : List Value} (hready : Ready code m)
    (hr : m.heap.Has (.closure r)) (hargs : ∀ v ∈ args, m.heap.Has v) :
    m.Ensures (enterFromHost r m.top args) (fun _ m' => P m.frames.size m') fun _ _ => True := by
  obtain ⟨c, hc⟩ := id hr
  simp only [Machine.enterFromHost, ensures_bind, ensures_ensureStack, ensures_setSlots,
    ensures_setTop]
  refine ⟨fun _ => trivial, fun hsize => ?_⟩
  obtain ⟨hcalling, -⟩ := hready.calling hr hargs hsize
  exact ensures_enter hcalling hc (calling_slot _ _ _) (hready.callable _ _)
    (fun p pool _ => hP.entered hready rfl rfl rfl rfl) (fun _ => trivial) fun _ _ _ _ => trivial

/-- The loop goes on in the same way. -/
theorem Upholds.advances (h : Upholds P m) (hP : Upheld P) (hadvances : Advances m m') :
    Upholds P m' := by
  obtain ⟨f₀, k, hhost, hloop, hkeeps, hauthored⟩ := h
  obtain ⟨code, f, ha⟩ := hloop.active
  have hturned := hadvances.turned ha
  obtain ⟨fuel, hturn⟩ := hadvances
  have hinherits := Ensures.of_ok ((lasting (R := Inherits) fuel).iteration m) hturn
  rcases (iteration_kept (kept _) hloop).of_ok hturn with hgoes | ⟨hregister, -⟩
  · exact ⟨f₀, k, hhost, hgoes.loop,
      hP.turned ha hloop.lt_size hgoes.loop.lt_size hauthored hturned hkeeps, hinherits hauthored⟩
  · exact absurd (hhost.symm.trans hregister) (by simp)

/-- Whenever a function of a run is about to execute an instruction, the functions that run keep to
the property. -/
theorem Reached.upholds (hP : Upheld P) (hhosts : ∀ f ∈ hosts, HostFunction.Honest f)
    (h : Reached options hosts p) (htask : p.task = .loop) : Upholds P p.machine := by
  induction h with
  | begins => cases htask
  | attempts => cases htask
  | @goes p q hp hbegins ih =>
    cases hbegins with
    | loop hturn => exact (ih rfl).advances hP ⟨_, hturn⟩
    | @callClosure fuel m m' r args hdepth henter =>
      obtain ⟨hm, hr, hargs⟩ := hp.sound hhosts
      obtain ⟨code, hready⟩ := hm.deeper hdepth
      obtain ⟨g, hhost, -, hloop, -⟩ := (ensures_enterFromHost hready hr hargs).of_ok henter
      exact ⟨g, _, hhost, hloop, (hP.enterFromHost hready hr hargs).of_ok henter,
        (hp.goes (.callClosure hdepth henter)).authored⟩
    | _ => cases htask

end upheld

/-! ## Runs -/

/-- A function that a native function has called starts without open upvalues. -/
theorem heeds_upheld : Upheld HeedsFrom where
  entered hready hframes _ hbase hopened j g hj hg := by
    rw [hframes] at hg
    rcases getElem?_push_some hg with hold | ⟨-, rfl⟩
    · have hlt := (Array.getElem?_eq_some_iff.mp hold).1
      omega
    · intro ν _ u hu hle _
      rw [hopened] at hu
      have hlt := hready.opened.below u hu
      omega
  turned ha hlt _ hauthored hturned hheeds :=
    hturned.heeds hheeds ha hlt (hauthored.mindful ha.frame_mem)

/-- A loop is about to execute an instruction of a compiled function, and the open upvalues are those
of variables in scope. -/
def Heedful (m : Machine) : Prop :=
  ∃ f₀ k, f₀.toHost = true ∧ Looping f₀ k m ∧ HeedsFrom k m ∧ m.Authored

theorem Heedful.active (h : m.Heedful) : ∃ code f, Active code f m :=
  Upholds.active h

theorem Heedful.advances (h : m.Heedful) (hadvances : Advances m m') : m'.Heedful :=
  Upholds.advances h heeds_upheld hadvances

/-- Whenever a function of a run is about to execute an instruction, the open upvalues of the functions
that run are those of variables in scope. -/
theorem Reached.heedful {options : Options} {hosts : Array HostFunction} {p : Moment}
    (hhosts : ∀ f ∈ hosts, HostFunction.Honest f) (h : Reached options hosts p)
    (htask : p.task = .loop) : p.machine.Heedful :=
  h.upholds heeds_upheld hhosts htask

end Machine
end LuaMachine
