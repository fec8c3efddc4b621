import LuaMachine.Proofs.Machine.Reached
/-! # The lives of upvalues

An upvalue is open while the frame runs in whose window its slot lies, and is closed once, with the
value of the slot. At every moment of a run the list of open upvalues is in order and complete.

* `Machine.OpenList`: what holds of the list.
* `Machine.ClosesFrom`: what comes of the upvalues when those from a slot on are closed.
* `Machine.Later`: the machines that come after one another.
* `Machine.reached_openUpvalues`: the list at every moment, and what becomes of upvalues.
-/
set_option autoImplicit false

namespace LuaMachine
namespace Machine

/-- The list has the highest slot first and no slot twice; in it are those upvalues of the heap that
are not closed; and each slot is a register of a running function. -/
structure OpenList (m : Machine) : Prop where
  sorted : m.openUpvalues.Pairwise fun u v => v.1 < u.1
  exact : ∀ (s : Nat) (r : Ref),
    (s, r) ∈ m.openUpvalues ↔ m.heap.cells[r]? = some (.upvalue (.opened s))
  window : ∀ u ∈ m.openUpvalues, ∃ f ∈ m.frames, f.base ≤ u.1 ∧ u.1 < f.window

/-- The upvalues of the slots from `lowest` on are closed and hold what they held; the others are open
as before. -/
structure ClosesFrom (lowest : Nat) (m m' : Machine) : Prop where
  closed : ∀ (s : Nat) (r : Ref), (s, r) ∈ m.openUpvalues → lowest ≤ s → ∃ v,
    (readUpvalue (some r)).run m = .ok v m ∧
    m'.heap.cells[r]? = some (.upvalue (.closed v)) ∧ (readUpvalue (some r)).run m' = .ok v m'
  opened : ∀ u : Nat × Ref, u ∈ m'.openUpvalues ↔ u ∈ m.openUpvalues ∧ u.1 < lowest
  stack : m'.stack = m.stack

/-- The second machine comes next: after a request, at a moment that begins at another one, or as a
machine that a moment has to do with. -/
inductive Next (options : Options) (hosts : Array HostFunction) : Machine → Machine → Prop where
  | request {m : Machine} (q : Request) (hm : Served options hosts m) (hq : q.Allowed m) :
      Next options hosts m (m.after q.perform)
  | begins {p q : Moment} (hp : Reached options hosts p) (h : p.Begins q) :
      Next options hosts p.machine q.machine
  | meets {p : Moment} {m : Machine} (hp : Reached options hosts p) (h : p.Meets m) :
      Next options hosts p.machine m

/-- The second machine comes some time after the first one. -/
def Later (options : Options) (hosts : Array HostFunction) : Machine → Machine → Prop :=
  Relation.ReflTransGen (Next options hosts)

variable {options : Options} {hosts : Array HostFunction} {m m' : Machine} {p : Moment}
  {code : Nat → Prototype}

/-! ## The list -/

theorem Sound.mem_openUpvalues_iff (hm : Sound code m) {s : Nat} {r : Ref} :
    (s, r) ∈ m.openUpvalues ↔ m.heap.cells[r]? = some (.upvalue (.opened s)) :=
  ⟨fun hmem => hm.opened.cell (s, r) hmem, fun hcell => hm.heap.objects r _ hcell⟩

theorem Live.openList (h : Live m) : OpenList m := by
  obtain ⟨code, hm⟩ := h
  exact ⟨hm.opened.sorted, fun _ _ => hm.toSound.mem_openUpvalues_iff, hm.opened.window⟩

/-! ## Closing -/

theorem readUpvalue_run {r : Ref} {u : Upvalue} (hu : m.heap.cells[r]? = some (.upvalue u)) :
    (readUpvalue (some r)).run m = .ok (u.get m.stack) m := by
  have hread : m.Ensures (readUpvalue (some r)) (fun v m' => v = u.get m.stack ∧ m' = m)
      fun _ _ => False := by
    simp only [readUpvalue, upvalue, ensures_bind, ensures_get, Heap.upvalue?_eq_some_iff.mpr hu,
      ensures_pure, and_self]
  rcases ensures_iff_run.mp hread with ⟨v, m', hrun, rfl, rfl⟩ | ⟨_, _, _, hfalse⟩
  · exact hrun
  · exact hfalse.elim

/-- Closing does not fail and keeps the values. -/
theorem Live.closeUpvalues (h : Live m) (lowest : Nat) :
    ∃ m', (Machine.closeUpvalues lowest).run m = .ok () m' ∧ ClosesFrom lowest m m' := by
  obtain ⟨code, hm⟩ := h
  have hcloses : m.Ensures (Machine.closeUpvalues lowest) (fun _ m' => ClosesFrom lowest m m')
      fun _ _ => False := by
    refine ensures_closeUpvalues hm.toSound fun h opened hsound hcloses hmem => ?_
    refine ⟨fun s r hs hle => ?_, hmem, rfl⟩
    have hcell := hm.opened.cell (s, r) hs
    have hclosed : h.cells[r]? = some (.upvalue (.closed (m.stack.getD s .nil))) := by
      rcases hcloses.cells r with hsame | ⟨s', -, hs', hclosed⟩
      · -- an open upvalue would still be in the list
        have hopen : (s, r) ∈ opened := hsound.mem_openUpvalues_iff.mpr (hsame.trans hcell)
        exact absurd ((hmem _).mp hopen).2 (Nat.not_lt.mpr hle)
      · cases hcell.symm.trans (hm.opened.cell (s', r) hs')
        exact hclosed
    exact ⟨m.stack.getD s .nil, readUpvalue_run hcell, hclosed,
      readUpvalue_run (m := { m with heap := h, openUpvalues := opened }) hclosed⟩
  rcases ensures_iff_run.mp hcloses with ⟨_, m', hrun, hc⟩ | ⟨_, _, _, hfalse⟩
  · exact ⟨m', hrun, hc⟩
  · exact hfalse.elim

/-- No instruction closes an upvalue twice. -/
theorem Active.closes_once {f : Frame} {i : Instruction} {e : Fault} (ha : Active code f m)
    (hrun : (step i).run m = .error e m') :
    e ≠ .defect "upvalue closed twice" := by
  by_cases hclosing : Closing i
  · refine ((ensures_step ha).mpr ?_ : m.Ensures (step i) (fun _ _ => True)
      fun e _ => e ≠ .defect "upvalue closed twice").of_error hrun
    rcases hclosing with hop | hop
    · simp only [perform, hop, ensures_bind, ensures_pure]
      exact ensures_closeUpvalues ha.ready.toSound fun _ _ _ _ _ => trivial
    · simp only [perform, hop, ensures_bind, ensures_pure]
      exact ensures_leave ha (fun _ _ _ _ _ _ => trivial) (fun _ _ _ _ _ _ _ _ => trivial)
        fun _ _ _ => Fault.noConfusion
  · have hlasts : Lasts Ages (fun e => e ≠ .defect "upvalue closed twice") (step i) :=
      lasts_frame.bind fun f => lasts_perform f hclosing fun _ => ages_makeClosure f i
    exact ((hlasts m).of_error hrun).2

/-- What is left of a failed call can be dropped. -/
theorem Falls.unwinds {e : Fault} (hm : Live m) (h : Falls m.frames.size m.top m e m') :
    (∃ m'', (unwind m.frames.size m.top).run m' = .ok () m'') ∧
    (e.Caught → ∃ v m'', (recover m.frames.size m.top e).run m' = .ok v m'') := by
  constructor
  · obtain ⟨code₀, h₀⟩ := hm
    obtain ⟨code, hready⟩ := h.live
    have hunwind : m'.Ensures (unwind m.frames.size m.top) (fun _ _ => True) fun _ _ => False :=
      ensures_unwind h₀ hready h.follows fun _ _ _ _ => trivial
    rcases ensures_iff_run.mp hunwind with ⟨_, m'', hrun, -⟩ | ⟨_, _, _, hfalse⟩
    · exact ⟨m'', hrun⟩
    · exact hfalse.elim
  · intro he
    rcases ensures_iff_run.mp (recover_caught (E := fun _ _ => False) hm h he) with
      ⟨v, m'', hrun, -⟩ | ⟨_, _, _, hfalse⟩
    · exact ⟨v, m'', hrun⟩
    · exact hfalse.elim

/-! ## Later machines -/

theorem Next.ages (h : Next options hosts m m') : m.Ages m' := by
  cases h with
  | request q => exact q.endures.after m
  | begins _ hbegins => exact hbegins.ages
  | meets _ hmeets => exact hmeets.ages

theorem Later.ages (h : Later options hosts m m') : m.Ages m' := by
  induction h with
  | refl => exact .refl m
  | tail _ hnext ih => exact ih.trans hnext.ages

/-- At every moment of a run the list of open upvalues is in order, has every open upvalue of the
heap, and has only registers of running functions. Closing does not fail there and keeps the values
of the upvalues; no instruction and no unwinding of a failed call closes an upvalue twice; and an
upvalue that is open at a later time has been open for the same slot since it was made. -/
theorem reached_openUpvalues (hhosts : ∀ f ∈ hosts, HostFunction.Honest f) :
    (∀ m, Served options hosts m → OpenList m) ∧
    (∀ p m, Reached options hosts p → p.Meets m → OpenList m ∧
      ∀ lowest, ∃ m', (closeUpvalues lowest).run m = .ok () m' ∧ ClosesFrom lowest m m') ∧
    (∀ p i m, Reached options hosts p → p.task = .loop → fetching.run p.machine = .ok i m →
      ∀ e m', (step i).run m = .error e m' → e ≠ .defect "upvalue closed twice") ∧
    (∀ p callee args, Reached options hosts p → p.task = .call callee args →
      ∀ e m, p.run = .error e m →
        (∃ m', (unwind p.machine.frames.size p.machine.top).run m = .ok () m') ∧
        (e.Caught → ∃ v m', (recover p.machine.frames.size p.machine.top e).run m = .ok v m')) ∧
    ∀ m m', Later options hosts m m' → ∀ (r : Ref) (u : Upvalue) (s : Nat),
      m.heap.cells[r]? = some (.upvalue u) → m'.heap.cells[r]? = some (.upvalue (.opened s)) →
      u = .opened s := by
  refine ⟨fun m hm => (hm.live hhosts).openList, fun p m hp hmeets => ?_,
    fun p i m hp hloop hfetch e m' hrun => ?_, fun p callee args hp hcall e m hrun => ?_,
    fun m m' hlater r u s hu hs => hlater.ages.heap.slot hu hs⟩
  · have hlive := (hp.sound hhosts).meets hmeets
    exact ⟨hlive.openList, hlive.closeUpvalues⟩
  · have hsound := hp.sound hhosts
    obtain ⟨fuel, task, m₀⟩ := p
    cases hloop
    obtain ⟨f₀, k, -, hlooping⟩ := hsound
    have hfetched := (fetching_kept hlooping).of_ok hfetch
    obtain ⟨code, f, op, ha, -, -⟩ := hfetched.fits
    exact ha.closes_once hrun
  · have hsound := hp.sound hhosts
    obtain ⟨fuel, task, m₀⟩ := p
    cases hcall
    obtain ⟨hlive, hcallee, hargs⟩ := hsound
    have hfalls : m₀.Ensures ((fun _ => ()) <$> call fuel callee args) (fun _ _ => True)
        (Falls m₀.frames.size m₀.top m₀) :=
      (ensures_map _ _).mpr (((kept fuel).call hlive hcallee hargs).mono_ok fun _ _ _ => trivial)
    exact (hfalls.of_error hrun).unwinds hlive

/-- The loop of a program that does nothing. -/
theorem reached_openUpvalues_return :
    (∀ f ∈ (#[] : Array HostFunction), HostFunction.Honest f) ∧
    ∃ p, Reached {} #[] p ∧ p.task = .loop ∧ p.Meets p.machine ∧ OpenList p.machine ∧
      ∃ m', (closeUpvalues 0).run p.machine = .ok () m' ∧ ClosesFrom 0 p.machine m' := by
  have hhosts : ∀ f ∈ (#[] : Array HostFunction), HostFunction.Honest f := by simp
  obtain ⟨p, hp, hloop⟩ := exists_reached_loop
  obtain ⟨hlist, hcloses⟩ := (reached_openUpvalues hhosts).2.1 p p.machine hp .now
  exact ⟨hhosts, p, hp, hloop, .now, hlist, hcloses 0⟩

end Machine
end LuaMachine
