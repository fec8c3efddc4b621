import LuaMachine.Proofs.Machine.Heeding
/-! # Open lists have a number of values

A word that goes on with an open list stands right behind the one that leaves the list. Whatever a
function calls in between, the list then ends at or above its first register, so that the number of
its values is known.

* `Frame.Listed`: the list that is left by the last word of a frame.
* `Frame.Awaits`: a frame that waits for the one above it.
* `Machine.Turned.lists`: an iteration keeps to this.
* `Machine.Reached.orderly`: it holds whenever a function of a run is about to execute an instruction.
-/
set_option autoImplicit false

namespace LuaMachine

/-- An open list that the word in front of the next one leaves ends at or above its first register. -/
def Frame.Listed (f : Frame) : Prop :=
  ∀ n s, f.next = n + 1 → f.prototype.OpensAt n s → f.base + s ≤ f.open'

/-- The last word of the frame is the call of the function in the other frame. -/
def Frame.Awaits (f g : Frame) : Prop :=
  ∃ n i op, f.next = n + 1 ∧ f.prototype.chunk.code[n]? = some i ∧ i.opcode? = some op ∧
    (op = .call ∨ op = .iterCall) ∧ g.destination = f.base + i.a + op.shift ∧ g.wanted = i.wanted op

/-- The results of a call are wanted all where they make up an open list. -/
theorem Opcode.wanted_of_opens {op : Opcode} {i : Instruction} {s : Nat}
    (hcall : op = .call ∨ op = .iterCall) (h : op.opens? i.a i.c = some s) :
    i.wanted op = none ∧ s = i.a + op.shift := by
  rcases hcall with rfl | rfl
  · have h : (if i.c = 0 then some i.a else none) = some s := h
    split at h
    next hc =>
      cases h
      exact ⟨if_pos hc, rfl⟩
    next => cases h
  · cases h

theorem Prototype.OpensAt.of_word {p : Prototype} {n s : Nat} {i : Instruction} {op : Opcode}
    (h : p.OpensAt n s) (hi : p.chunk.code[n]? = some i) (hop : i.opcode? = some op) :
    op.opens? i.a i.c = some s := by
  obtain ⟨i', op', hi', hop', hopens⟩ := h
  cases hi.symm.trans hi'
  cases hop.symm.trans hop'
  exact hopens

namespace Machine

variable {code : Nat → Prototype} {f g : Frame} {m m' : Machine} {k : Nat} {i : Instruction}
  {op : Opcode}

/-- The innermost frame knows where its open list ends, and each of the others from this one on waits
for the one above it. -/
structure ListsFrom (k : Nat) (m : Machine) : Prop where
  last : ∀ f, m.frames.back? = some f → f.Listed
  waits : ∀ j f g, k ≤ j → m.frames[j]? = some f → m.frames[j + 1]? = some g → f.Awaits g

theorem modify_back? {xs : Array Frame} (h : xs.back? = some f) (φ : Frame → Frame) :
    (xs.modify (xs.size - 1) φ).back? = some (φ f) := by
  rw [back?_eq_some_iff, Array.size_modify, Array.getElem?_modify, if_pos rfl,
    back?_eq_some_iff.mp h]
  rfl

/-- Frames wait for the innermost one wherever that goes on. -/
theorem ListsFrom.modified (h : ListsFrom k m) (ha : Active code f m) {φ : Frame → Frame}
    (hdestination : (φ f).destination = f.destination) (hwanted : (φ f).wanted = f.wanted) (j : Nat)
    (f₁ g : Frame) (hj : k ≤ j) (hf₁ : (m.frames.modify (m.frames.size - 1) φ)[j]? = some f₁)
    (hg : (m.frames.modify (m.frames.size - 1) φ)[j + 1]? = some g) : f₁.Awaits g := by
  have hlt := (Array.getElem?_eq_some_iff.mp hg).1
  rw [Array.size_modify] at hlt
  rw [ha.modify_get, if_neg (by omega)] at hf₁
  rw [ha.modify_get] at hg
  split at hg
  next heq =>
    cases hg
    obtain ⟨n, i, op, hnext, hi, hop, hcall, hdest, hwant⟩ :=
      h.waits j f₁ f hj hf₁ (heq ▸ ha.frame_get)
    exact ⟨n, i, op, hnext, hi, hop, hcall, hdestination.trans hdest, hwanted.trans hwant⟩
  next => exact h.waits j f₁ g hj hf₁ hg

/-! ## One iteration -/

/-- A word other than a call or a return leaves its open list, or goes where no list is open. -/
theorem Effect.listed (h : Effect f f.next i op m m') (ha : Active code f m)
    (hi : f.prototype.chunk.code[f.next]? = some i) (hop : i.opcode? = some op)
    (hmindful : f.prototype.Mindful) : ∀ g, m'.frames.back? = some g → g.Listed := by
  obtain ⟨t, stop, hgoes, hlists, hframes⟩ := h.moves
  intro g hg n s hnext hopens
  rw [hframes, modify_back? ha.back] at hg
  cases hg
  obtain rfl : t = n + 1 := hnext
  obtain ⟨ν, hν, -⟩ := hmindful
  rcases hgoes with hturns | ⟨op', hop', -, -, heq⟩
  · exact absurd hopens (((hν.settled _ (Prototype.lt_size_of_word hi) id).turns _ hturns).2 n s rfl)
  · obtain ⟨i', hi', hopcode⟩ := Prototype.opcodeAt?_eq_some_iff.mp hop'
    cases hi.symm.trans hi'
    cases hop.symm.trans hopcode
    split at heq
    next hset =>
      -- the argument of a word leaves no list
      obtain ⟨op'', hop'', hvalid⟩ := ha.codeValid.words _ i hi
      cases hop.symm.trans hop''
      obtain ⟨j, hj, hextra⟩ := Prototype.opcodeAt?_eq_some_iff.mp (hvalid.list hset).1
      obtain rfl : n = f.next + 1 := Nat.succ.inj heq
      cases hopens.of_word hj hextra
    next =>
      obtain rfl : n = f.next := Nat.succ.inj heq
      unfold Frame.Lists at hlists
      rw [hopens.of_word hi hop] at hlists
      exact hlists

theorem Answered.lists (h : Answered f (f.base + i.a + op.shift) (i.wanted op) m.advanced m m')
    (hi : f.prototype.chunk.code[f.next]? = some i) (hop : i.opcode? = some op)
    (hcall : op = .call ∨ op = .iterCall) (hlists : ListsFrom k m) (ha : Active code f m) :
    ListsFrom k m' := by
  have hadvanced : ∀ j f₁ g, k ≤ j → m.advanced[j]? = some f₁ → m.advanced[j + 1]? = some g →
      f₁.Awaits g := hlists.modified ha rfl rfl
  cases h with
  | @enters g₁ hframes hbase hdestination hnext hwanted =>
    refine ⟨fun g hg n s hn _ => ?_, fun j f₁ g hj hf₁ hg => ?_⟩
    · rw [hframes, Array.back?_push] at hg
      cases hg
      omega
    · rw [hframes] at hf₁ hg
      rcases getElem?_push_some hg with hold | ⟨heq, rfl⟩
      · have hlt := (Array.getElem?_eq_some_iff.mp hold).1
        rw [Array.getElem?_push, if_neg (by omega)] at hf₁
        exact hadvanced j f₁ g hj hf₁ hold
      · rw [Array.getElem?_push, if_neg (by omega)] at hf₁
        rw [advanced_size] at heq
        rw [advanced, ha.modify_get, if_pos (by omega)] at hf₁
        cases hf₁
        exact ⟨f.next, i, op, rfl, hi, hop, hcall, hdestination, hwanted⟩
  | @delivers stop hframes hstop =>
    rw [advanced_size, advanced, modify_back] at hframes
    refine ⟨fun g hg n s hn hopens => ?_, ?_⟩
    · rw [hframes, modify_back? ha.back] at hg
      cases hg
      obtain rfl : f.next = n := Nat.succ.inj hn
      obtain ⟨hwanted, rfl⟩ := Opcode.wanted_of_opens hcall (hopens.of_word hi hop)
      unfold Frame.Ends at hstop
      rw [if_pos hwanted] at hstop
      show f.base + (i.a + op.shift) ≤ stop
      omega
    · rw [hframes]
      exact hlists.modified ha rfl rfl

theorem Turned.lists (h : Turned f m m') (hlists : ListsFrom k m) (ha : Active code f m)
    (hk : k < m'.frames.size) (hmindful : f.prototype.Mindful) : ListsFrom k m' := by
  cases h with
  | acts hi hop hplain heffect =>
    obtain ⟨t, stop, -, -, hframes⟩ := heffect.moves
    exact ⟨heffect.listed ha hi hop hmindful, by rw [hframes]; exact hlists.modified ha rfl rfl⟩
  | calls hi hop hcall hanswered => exact hanswered.lists hi hop hcall hlists ha
  | @returns i n hi hop hframes =>
    have hget : ∀ {j g}, m'.frames[j]? = some g → j + 1 < m.frames.size ∧
        ∃ g₀ stop, m.frames[j]? = some g₀ ∧ g = { g₀ with open' := stop } := by
      intro j g hg
      rw [hframes] at hg
      exact left_get hg
    have hsize : m'.frames.size = m.frames.size - 1 := by
      rw [hframes]
      split <;> simp only [Array.size_modify, Array.size_pop]
    refine ⟨fun g hg n' s hnext hopens => ?_, fun j f₁ g hj hf₁ hg => ?_⟩
    · -- the frame that goes on has waited for the one that is left
      have hlast := back?_eq_some_iff.mp hg
      obtain ⟨-, g₀, stop, hg₀, rfl⟩ := hget hlast
      have hwaits := hlists.waits _ g₀ f (Nat.le_sub_one_of_lt hk) hg₀ (by
        rw [show m'.frames.size - 1 + 1 = m.frames.size - 1 by omega]
        exact ha.frame_get)
      obtain ⟨n₁, i₁, op₁, hnext₁, hi₁, hop₁, hcall, hdestination, hwanted⟩ := hwaits
      obtain rfl : n₁ = n' := Nat.succ.inj (hnext₁.symm.trans hnext)
      obtain ⟨hnone, rfl⟩ := Opcode.wanted_of_opens hcall (hopens.of_word hi₁ hop₁)
      have hpop : m.frames.pop.back? = some g₀ := by
        rw [back?_eq_some_iff, Array.size_pop, Array.getElem?_pop, if_pos (by omega), ← hsize]
        exact hg₀
      rw [hframes, if_pos (by rw [hwanted, hnone]; rfl), modify_back? hpop] at hg
      obtain rfl := congrArg Frame.open' (Option.some.inj hg)
      show g₀.base + (i₁.a + op₁.shift) ≤ f.destination + n
      omega
    · obtain ⟨-, f₀, stop, hf₀, rfl⟩ := hget hf₁
      obtain ⟨-, g₀, stop', hg₀, rfl⟩ := hget hg
      exact hlists.waits j f₀ g₀ hj hf₀ hg₀

/-! ## Runs -/

/-- A function that a native function has called starts without an open list. -/
theorem lists_upheld : Upheld ListsFrom where
  entered _ hframes hnext _ _ := by
    refine ⟨fun g hg n s hnext' _ => ?_, fun j f g hj _ hg => ?_⟩
    · rw [hframes, Array.back?_push] at hg
      cases hg
      cases hnext.symm.trans hnext'
    · have hlt := (Array.getElem?_eq_some_iff.mp hg).1
      rw [hframes, Array.size_push] at hlt
      omega
  turned ha _ hlt hauthored hturned hlists :=
    hturned.lists hlists ha hlt (hauthored.mindful ha.frame_mem)

/-- A loop is about to execute an instruction of a compiled function, and open lists end where they
should. -/
def Orderly (m : Machine) : Prop :=
  ∃ f₀ k, f₀.toHost = true ∧ Looping f₀ k m ∧ ListsFrom k m ∧ m.Authored

theorem Orderly.advances (h : m.Orderly) (hadvances : Advances m m') : m'.Orderly :=
  Upholds.advances h lists_upheld hadvances

/-- A word that goes on with an open list finds its number of values. -/
theorem Orderly.openCount (h : m.Orderly) (ha : Active code f m)
    (hi : f.prototype.chunk.code[f.next]? = some i) (hop : i.opcode? = some op) {s : Nat}
    (htakes : op.takes? i.a i.b = some s) : ∃ n, Machine.openCount f (f.base + s) = some n := by
  obtain ⟨f₀, k, -, -, hlists, hauthored⟩ := h
  obtain ⟨ν, hν, -⟩ := hauthored.mindful ha.frame_mem
  obtain ⟨i', op', hi', hop', hminds⟩ := hν.words f.next (Prototype.lt_size_of_word hi)
  cases hi.symm.trans hi'
  cases hop.symm.trans hop'
  obtain ⟨n, s', -, hnext, hle, hopens⟩ := hminds.takes s htakes
  have hlisted := hlists.last f ha.back n s' hnext hopens
  exact ⟨f.open' - (f.base + s), if_pos (by omega)⟩

/-- A return has a number of results. -/
theorem Orderly.returnSite (h : m.Orderly) (ha : Active code f m)
    (hi : f.prototype.chunk.code[f.next]? = some i) (hop : i.opcode? = some .ret) :
    ∃ results, ReturnSite f m results := by
  have hlisted : ∃ n, listed f i.b (f.base + i.a) = some n := by
    by_cases hb : i.b = 0
    · obtain ⟨n, hn⟩ := h.openCount ha hi hop (s := i.a) (if_pos hb)
      exact ⟨n, (if_pos hb).trans hn⟩
    · exact ⟨i.b - 1, if_neg hb⟩
  obtain ⟨n, hn⟩ := hlisted
  exact ⟨_, .ret hi hop hn⟩

/-- A call has a number of arguments. -/
theorem Orderly.callSite (h : m.Orderly) (ha : Active code f m)
    (hi : f.prototype.chunk.code[f.next]? = some i) (hop : i.opcode? = some op)
    (hcall : op = .call ∨ op = .iterCall) :
    ∃ callee args, CallSite f m (f.base + i.a + op.shift) callee args (i.wanted op) := by
  rcases hcall with rfl | rfl
  · have hlisted : ∃ n, listed f i.b (f.base + i.a + 1) = some n := by
      by_cases hb : i.b = 0
      · obtain ⟨n, hn⟩ := h.openCount ha hi hop (s := i.a + 1) (if_pos hb)
        exact ⟨n, (if_pos hb).trans hn⟩
      · exact ⟨i.b - 1, if_neg hb⟩
    obtain ⟨n, hn⟩ := hlisted
    exact ⟨_, _, .call hi hop hn⟩
  · exact ⟨_, _, .iterator hi hop⟩

/-- Whenever a function of a run is about to execute an instruction, open lists end where they
should. -/
theorem Reached.orderly {options : Options} {hosts : Array HostFunction} {p : Moment}
    (hhosts : ∀ f ∈ hosts, HostFunction.Honest f) (h : Reached options hosts p)
    (htask : p.task = .loop) : p.machine.Orderly :=
  h.upholds lists_upheld hhosts htask

end Machine
end LuaMachine
