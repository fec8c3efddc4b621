import LuaMachine.Proofs.Machine.Guarding
import LuaMachine.Proofs.Machine.OpenLists
/-! # Calls that are answered

When a function goes on behind a call, the function that it called has got the arguments, and it has
returned: a closure has started with them and come to a return, whatever it did in between, and a
native function has ended. The function that made the call finds the results of this return.

* `Machine.Responds`: a call with its results.
* `Machine.Traverses.responds`: a call that is left behind is one that was answered.
-/
set_option autoImplicit false

namespace LuaMachine
namespace Machine

variable {code : Nat → Prototype} {f g : Frame} {m m' m₁ m₂ m₃ : Machine} {func d k n : Nat}
  {callee : Value} {args results : List Value} {wanted : Option Nat} {r : Ref} {c : Closure}

/-- The function that is called gets the arguments and gives the results. -/
inductive Responds (m : Machine) (func : Nat) (args : List Value) (wanted : Option Nat) :
    Value → List Value → Machine → Prop where
  | closure {r : Ref} {c : Closure} {g g' : Frame} {m₁ m₂ m' : Machine} {results : List Value}
      (hclosure : m.heap.closure? r = some c) (henter : Advances m m₁)
      (hstarts : Starts m func r c args wanted g m₁) (hinside : Inside m.frames.size m₁ m₂)
      (hsize : m₂.frames.size = m.frames.size + 1) (hback : m₂.frames.back? = some g')
      (hsite : ReturnSite g' m₂ results) (hreturn : Advances m₂ m') :
      Responds m func args wanted (.closure r) results m'
  | native {native : Native} {fuel : Nat} {m₁ m₂ m' : Machine} {results : List Value}
      (hstarts : NativeStarts m func args m₁)
      (hrun : (runNative fuel native args).run m₁ = .ok results m₂) (hcall : Advances m m') :
      Responds m func args wanted (.native native) results m'

/-- An iteration that goes on keeps the number of frames, or it changes by one frame. -/
theorem Turned.size (h : Turned f m m') :
    m'.frames.size = m.frames.size ∨ m'.frames.size = m.frames.size + 1 ∨
      m'.frames.size = m.frames.size - 1 ∧
        ∃ i, f.prototype.chunk.code[f.next]? = some i ∧ i.opcode? = some .ret := by
  cases h with
  | acts hi hop hplain heffect =>
    obtain ⟨t, stop, -, -, hframes⟩ := heffect.moves
    exact .inl (by rw [hframes, Array.size_modify])
  | calls hi hop hcall hanswered =>
    have hsize := advanced_size m
    cases hanswered with
    | enters hframes =>
      refine .inr (.inl ?_)
      rw [hframes, Array.size_push, hsize]
    | delivers hframes =>
      refine .inl ?_
      rw [hframes, Array.size_modify, hsize]
  | returns hi hop hframes =>
    refine .inr (.inr ⟨?_, _, hi, hop⟩)
    rw [hframes]
    split <;> simp only [Array.size_modify, Array.size_pop]

/-- What is executed above some frames ends with a return to the last of them. -/
theorem exists_return {R : Machine → Machine → Prop} (hadvances : ∀ m m', R m m' → Advances m m')
    (hruns : Relation.ReflTransGen R m₁ m') (horderly : m₁.Orderly) (hinside : Inside k m m₁)
    (hlt : k < m₁.frames.size) (hsize : m'.frames.size = k) :
    ∃ m₂ m₃ g results, Inside k m m₂ ∧ m₂.frames.size = k + 1 ∧ m₂.frames.back? = some g ∧
      ReturnSite g m₂ results ∧ Advances m₂ m₃ ∧ m₃.frames.size = k ∧
      Relation.ReflTransGen R m₃ m' := by
  induction hruns using Relation.ReflTransGen.head_induction_on with
  | refl => omega
  | @head m₁ m₃ hstep hrest ih =>
    have hadvance := hadvances _ _ hstep
    by_cases hlt' : k < m₃.frames.size
    · exact ih (horderly.advances hadvance) (hinside.tail ⟨hadvance, hlt'⟩) hlt'
    · obtain ⟨f₀, k₀, -, hloop, -⟩ := id horderly
      obtain ⟨code, g, ha⟩ := hloop.active
      have hturned := hadvance.turned ha
      rcases hturned.size with hsame | hmore | ⟨hless, i, hi, hop⟩
      · omega
      · omega
      · obtain ⟨results, hsite⟩ := horderly.returnSite ha hi hop
        exact ⟨m₁, m₃, g, results, hinside, by omega, ha.back, hsite, hadvance, by omega, hrest⟩

/-- Only functions are called. -/
theorem CallSite.callable (hsite : CallSite f m func callee args wanted) (ha : Active code f m)
    (hadvances : Advances m m') :
    (∃ r, callee = .closure r) ∨ ∃ native, callee = .native native := by
  obtain ⟨fuel, hrun⟩ := hadvances
  refine Ensures.of_ok (x := iteration fuel) (E := fun _ _ => True) (Q := fun _ _ =>
    (∃ r, callee = .closure r) ∨ ∃ native, callee = .native native) ?_ hrun
  refine hsite.ensures_iteration ha (E := fun _ => True) fun shown s hactive hprepared => ?_
  cases fuel with
  | zero => exact fun _ _ => trivial
  | succ fuel =>
  rw [callSlot, ensures_bind, ensures_slot, show ({ m.fetched shown with stack := s } :
    Machine).stack.getD func .nil = callee from hprepared.callee]
  cases callee with
  | closure r => exact .of_forall (fun _ _ => .inl ⟨r, rfl⟩) fun _ _ _ _ => trivial
  | native native => exact .of_forall (fun _ _ => .inr ⟨native, rfl⟩) fun _ _ _ _ => trivial
  | _ => exact fun _ _ => trivial

/-- With a call nothing goes on without fuel. -/
theorem CallSite.fuel_pos (hsite : CallSite f m func callee args wanted) (ha : Active code f m)
    {fuel : Nat} (hrun : (iteration fuel).run m = .ok .next m') : ∃ fuel', fuel = fuel' + 1 := by
  cases fuel with
  | succ fuel => exact ⟨fuel, rfl⟩
  | zero =>
    have hfails : m.Ensures (iteration 0) (fun _ _ => False) fun _ _ => True :=
      hsite.ensures_iteration ha fun _ _ _ _ _ _ => trivial
    exact (hfails.of_ok hrun).elim

/-- Behind a call the function goes on with the next word. -/
theorem Resumes.stands (h : Resumes m func wanted results m') (ha : Active code f m)
    (hsize : m.frames.size = d + 1) : Stands d (f.next + 1) m' := by
  have hback := modify_back? ha.back fun f => { f with
    next := f.next + 1
    open' := if wanted.isNone then func + results.length else f.open' }
  rw [← h.frames] at hback
  exact ⟨by rw [h.frames, Array.size_modify, hsize], _, hback, rfl⟩

/-- Nothing more is executed of a word that is left behind. -/
theorem eq_of_stands (hstands : Stands d (n + 1) m)
    (hruns : Relation.ReflTransGen (fun m m' => Amid d n (n + 1) m ∧ Advances m m') m m') : m = m' := by
  rcases Relation.ReflTransGen.cases_head hruns with rfl | ⟨m₁, ⟨hamid, -⟩, -⟩
  · rfl
  · obtain ⟨hsize, g, hback, hnext⟩ := hstands
    have hlt := (hamid.next hsize g hback).2
    omega

/-- A call that is left behind was answered, and the function that made it goes on with the
results. -/
theorem Traverses.responds (hsite : CallSite f m func callee args wanted) (ha : Active code f m)
    (horderly : m.Orderly) (hsize : m.frames.size = d + 1)
    (htraverses : Traverses d f.next (f.next + 1) m m') :
    ∃ results, Responds m func args wanted callee results m' ∧ Resumes m func wanted results m' := by
  obtain ⟨hruns, hsize', g', hback', hnext'⟩ := htraverses
  rcases Relation.ReflTransGen.cases_head hruns with rfl | ⟨m₁, ⟨-, hadvances⟩, hrest⟩
  · cases hback'.symm.trans ha.back
    omega
  obtain ⟨fuel, hrun⟩ := id hadvances
  obtain ⟨fuel, rfl⟩ := hsite.fuel_pos ha hrun
  obtain ⟨hclosure, hnative⟩ := call_protocol ha hsite fuel
  rcases hsite.callable ha hadvances with ⟨r, rfl⟩ | ⟨native, rfl⟩
  · obtain ⟨c, hc, hstart⟩ := hclosure r rfl
    obtain ⟨-, g, hstarts, hreturns⟩ := hstart.of_ok hrun
    have hsize₁ : m₁.frames.size = m.frames.size + 1 := by
      rw [hstarts.frames, Array.size_push, advanced_size]
    obtain ⟨m₂, m₃, g₂, results, hinside, hsize₂, hback₂, hreturn, hadvances₂, hsize₃, hrest₃⟩ :=
      exists_return (fun _ _ h => h.2) hrest (horderly.advances hadvances) (.refl)
        (by omega) (hsize'.trans hsize.symm)
    obtain ⟨fuel₂, hrun₂⟩ := id hadvances₂
    have hresumes := ((hreturns m₂ g₂ results hinside hsize₂ hback₂ hreturn fuel₂).of_ok hrun₂).2
    obtain rfl := eq_of_stands (hresumes.stands ha hsize) hrest₃
    exact ⟨results, .closure hc hadvances hstarts hinside hsize₂ hback₂ hreturn hadvances₂, hresumes⟩
  · obtain ⟨-, results, m₂, m₃, hstarts, hends, hresumes⟩ := (hnative native rfl).of_ok hrun
    obtain rfl := eq_of_stands (hresumes.stands ha hsize) hrest
    exact ⟨results, .native hstarts hends hadvances, hresumes⟩

end Machine
end LuaMachine
