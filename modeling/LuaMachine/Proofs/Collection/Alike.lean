import LuaMachine.Proofs.Machine.Memory
/-! # Machines that differ in what was collected

Two machines run the same program, and they collect garbage at different times. Wherever both still
have an object it is the same one, since a place is never used again. What the machines do is related
step by step: both come to the same value or fault, and the machines they leave differ in no more
than before.

* `Heap.Agrees`: no place has two different objects.
* `Printed`: two outputs that are equal but for reports of collections.
* `Machine.Alike`: two machines that differ in their memory alone.
* `Machine.Concur`: two computations that come to the same end.
* `Machine.Steady`: a computation that looks at no object of the heap.
-/
set_option autoImplicit false

namespace LuaMachine

/-! ## Heaps -/

/-- The heaps have equally many places, and where both still have an object, they have the same. -/
structure Heap.Agrees (h h' : Heap) : Prop where
  size : h'.cells.size = h.cells.size
  cell : ∀ (r : Ref) (o o' : Object), h.cells[r]? = some o → h'.cells[r]? = some o' →
    o ≠ .dead → o' ≠ .dead → o' = o

namespace Heap

variable {h h' : Heap} {r : Ref}

theorem Agrees.refl (h : Heap) : h.Agrees h :=
  ⟨rfl, fun _ _ _ ho ho' _ _ => Option.some.inj (ho'.symm.trans ho)⟩

theorem Agrees.symm (ha : h.Agrees h') : h'.Agrees h :=
  ⟨ha.size.symm, fun r o o' ho ho' hne hne' => (ha.cell r o' o ho' ho hne' hne).symm⟩

/-- A collection makes no object. -/
theorem Agrees.collect (ha : h.Agrees h') (pools : Pools) (roots : Roots) :
    h.Agrees (h'.collect pools roots).1 := by
  refine ⟨(collect_size h' pools roots).trans ha.size, fun r o o' ho ho' hne hne' => ?_⟩
  rw [Heap.collect, sweep_getElem?] at ho'
  split at ho'
  · exact absurd (Option.some.inj ho').symm hne'
  · exact ha.cell r o o' ho ho' hne hne'

/-- The same object gets the next place in both heaps. -/
theorem Agrees.allocate (ha : h.Agrees h') (o : Object) :
    (h.allocate o).1.Agrees (h'.allocate o).1 := by
  refine ⟨?_, fun r x x' hx hx' hne hne' => ?_⟩
  · show (h'.cells.push o).size = (h.cells.push o).size
    rw [Array.size_push, Array.size_push, ha.size]
  · rw [allocate_getElem?] at hx hx'
    rw [ha.size] at hx'
    split at hx
    next hr =>
      rw [if_pos hr] at hx'
      exact Option.some.inj (hx'.symm.trans hx)
    next hr =>
      rw [if_neg hr] at hx'
      exact ha.cell r x x' hx hx' hne hne'

/-- An object is put at the same place in both heaps. -/
theorem Agrees.set (ha : h.Agrees h') (r : Ref) (o : Object) :
    Agrees { h with cells := h.cells.setIfInBounds r o }
      { h' with cells := h'.cells.setIfInBounds r o } := by
  refine ⟨?_, fun r' x x' hx hx' hne hne' => ?_⟩
  · show (h'.cells.setIfInBounds r o).size = (h.cells.setIfInBounds r o).size
    rw [Array.size_setIfInBounds, Array.size_setIfInBounds, ha.size]
  · rw [Array.getElem?_setIfInBounds] at hx hx'
    rw [ha.size] at hx'
    split at hx
    next hr =>
      rw [if_pos hr] at hx'
      exact Option.some.inj (hx'.symm.trans hx)
    next hr =>
      rw [if_neg hr] at hx'
      exact ha.cell r' x x' hx hx' hne hne'

/-- A table is changed in the same way, where it is still there. -/
theorem Agrees.modifyTable (ha : h.Agrees h') (r : Ref) (f : Table → Table) :
    (h.modifyTable r f).Agrees (h'.modifyTable r f) := by
  refine ⟨?_, fun r' x x' hx hx' hne hne' => ?_⟩
  · show (h'.cells.modify r _).size = (h.cells.modify r _).size
    rw [Array.size_modify, Array.size_modify, ha.size]
  · have hx : (h.cells.modify r _)[r']? = some x := hx
    have hx' : (h'.cells.modify r _)[r']? = some x' := hx'
    rw [Array.getElem?_modify] at hx hx'
    split at hx
    next hr =>
      rw [if_pos hr] at hx'
      obtain ⟨o, ho, rfl⟩ := Option.map_eq_some_iff.mp hx
      obtain ⟨o', ho', rfl⟩ := Option.map_eq_some_iff.mp hx'
      have hdead : o ≠ .dead := fun heq => hne (by rw [heq])
      have hdead' : o' ≠ .dead := fun heq => hne' (by rw [heq])
      rw [ha.cell r' o o' ho ho' hdead hdead']
    next hr =>
      rw [if_neg hr] at hx'
      exact ha.cell r' x x' hx hx' hne hne'

/-! ### Objects that both heaps have -/

theorem Agrees.table (ha : h.Agrees h') (hr : h.Has (.table r)) (hr' : h'.Has (.table r)) :
    h'.table r = h.table r := by
  obtain ⟨t, ht⟩ := hr
  obtain ⟨t', ht'⟩ := hr'
  cases ha.cell r _ _ ht ht' Object.noConfusion Object.noConfusion
  rw [Heap.table, Heap.table, ht, ht']

theorem Agrees.closure (ha : h.Agrees h') {c : Closure} (hr : h.cells[r]? = some (.closure c))
    (hr' : h'.Has (.closure r)) : h'.cells[r]? = some (.closure c) := by
  obtain ⟨c', hc'⟩ := hr'
  rw [hc', ha.cell r _ _ hr hc' Object.noConfusion Object.noConfusion]

theorem Agrees.upvalue (ha : h.Agrees h') {u u' : Upvalue} (hr : h.cells[r]? = some (.upvalue u))
    (hr' : h'.cells[r]? = some (.upvalue u')) : u' = u :=
  Object.upvalue.inj (ha.cell r _ _ hr hr' Object.noConfusion Object.noConfusion)

end Heap

/-! ## Outputs -/

/-- What is shown of a collection, if collections are reported on the output. -/
def collectionReport (cycle freed live next : Nat) : String :=
  "Info: " ++ ("gc: cycle " ++ toString cycle ++ " freed " ++ toString freed ++ " bytes, "
    ++ toString live ++ " live, next at " ++ toString next ++ "\n")

/-- The outputs are equal but for reports of collections, which are only there if collections are
reported. -/
inductive Printed (reports : Bool) : String → String → Prop where
  | start (s : String) : Printed reports s s
  | write {s s' : String} (text : String) (h : Printed reports s s') :
      Printed reports (s ++ text) (s' ++ text)
  | left {s s' : String} (cycle freed live next : Nat) (hreports : reports = true)
      (h : Printed reports s s') :
      Printed reports (s ++ collectionReport cycle freed live next) s'
  | right {s s' : String} (cycle freed live next : Nat) (hreports : reports = true)
      (h : Printed reports s s') :
      Printed reports s (s' ++ collectionReport cycle freed live next)

theorem Printed.symm {reports : Bool} {s s' : String} (h : Printed reports s s') :
    Printed reports s' s := by
  induction h with
  | start s => exact .start s
  | write text _ ih => exact .write text ih
  | left cycle freed live next hreports _ ih => exact .right cycle freed live next hreports ih
  | right cycle freed live next hreports _ ih => exact .left cycle freed live next hreports ih

/-- Without reports the outputs are equal. -/
theorem Printed.eq {s s' : String} (h : Printed false s s') : s' = s := by
  generalize hreports : false = reports at h
  induction h with
  | start => rfl
  | write text _ ih => rw [ih]
  | left _ _ _ _ htrue => cases hreports.trans htrue
  | right _ _ _ _ htrue => cases hreports.trans htrue

/-! ## Options -/

/-- The options allow the same and show the same; when garbage is collected may differ. -/
structure Options.Matches (o o' : Options) : Prop where
  frames : o'.maxFrames = o.maxFrames
  slots : o'.maxSlots = o.maxSlots
  depth : o'.maxNativeDepth = o.maxNativeDepth
  trace : o'.trace = o.trace
  reports : o'.logCollections = o.logCollections

theorem Options.Matches.symm {o o' : Options} (h : o.Matches o') : o'.Matches o :=
  ⟨h.frames.symm, h.slots.symm, h.depth.symm, h.trace.symm, h.reports.symm⟩

namespace Machine

/-! ## Machines -/

/-- The machines differ in their memory alone, and in no object that both of them have. -/
structure Alike (m m' : Machine) : Prop where
  options : m.options.Matches m'.options
  hosts : m'.hosts = m.hosts
  heap : m.heap.Agrees m'.heap
  stack : m'.stack = m.stack
  top : m'.top = m.top
  frames : m'.frames = m.frames
  opened : m'.openUpvalues = m.openUpvalues
  depth : m'.nativeDepth = m.nativeDepth
  globals : m'.globals = m.globals
  pinned : m'.pinned = m.pinned
  filling : m'.filling = m.filling
  programs : m'.programs = m.programs
  output : Printed m.options.logCollections m.output m'.output

/-- The machine changes in its memory alone, where something may be gone afterwards. -/
structure Fades (m n : Machine) : Prop where
  rest : n = m.withMemory n
  heap : ∀ h : Heap, h.Agrees m.heap → h.Agrees n.heap
  output : ∀ s, Printed m.options.logCollections s m.output →
    Printed m.options.logCollections s n.output

variable {m m' n n' : Machine}

theorem Alike.symm (h : m.Alike m') : m'.Alike m where
  options := h.options.symm
  hosts := h.hosts.symm
  heap := h.heap.symm
  stack := h.stack.symm
  top := h.top.symm
  frames := h.frames.symm
  opened := h.opened.symm
  depth := h.depth.symm
  globals := h.globals.symm
  pinned := h.pinned.symm
  filling := h.filling.symm
  programs := h.programs.symm
  output := h.options.reports ▸ h.output.symm

theorem Fades.refl (m : Machine) : m.Fades m := ⟨rfl, fun _ h => h, fun _ h => h⟩

/-- What does not depend on the memory is as it was. -/
theorem Fades.same {γ : Type} (h : m.Fades n) {f : Machine → γ}
    (hf : ∀ a b : Machine, f (a.withMemory b) = f a) : f n = f m := by
  rw [h.rest]
  exact hf m n

theorem Fades.trans {p : Machine} (h : m.Fades n) (h' : n.Fades p) : m.Fades p := by
  have hoptions : n.options = m.options := h.same fun _ _ => rfl
  refine ⟨?_, fun _ ha => h'.heap _ (h.heap _ ha), fun s hs => ?_⟩
  · rw [h'.rest, h.rest]
    rfl
  · have hnext := h'.output s
    rw [hoptions] at hnext
    exact hnext (h.output s hs)

/-- One of the machines fades. -/
theorem Alike.fade (h : m.Alike m') (hf : m'.Fades n') : m.Alike n' where
  options := by
    rw [show n'.options = m'.options from hf.same fun _ _ => rfl]
    exact h.options
  hosts := (hf.same fun _ _ => rfl).trans h.hosts
  heap := hf.heap _ h.heap
  stack := (hf.same fun _ _ => rfl).trans h.stack
  top := (hf.same fun _ _ => rfl).trans h.top
  frames := (hf.same fun _ _ => rfl).trans h.frames
  opened := (hf.same fun _ _ => rfl).trans h.opened
  depth := (hf.same fun _ _ => rfl).trans h.depth
  globals := (hf.same fun _ _ => rfl).trans h.globals
  pinned := (hf.same fun _ _ => rfl).trans h.pinned
  filling := (hf.same fun _ _ => rfl).trans h.filling
  programs := (hf.same fun _ _ => rfl).trans h.programs
  output := by
    rw [← h.options.reports]
    exact hf.output _ (h.options.reports ▸ h.output)

theorem Alike.fades (h : m.Alike m') (hf : m.Fades n) (hf' : m'.Fades n') : n.Alike n' :=
  ((h.fade hf').symm.fade hf).symm

/-! ### Collections -/

theorem collect_output (m : Machine) :
    m.collect.output = m.output ∨ m.options.logCollections = true ∧ ∃ cycle freed live next,
      m.collect.output = m.output ++ collectionReport cycle freed live next := by
  unfold collect report
  dsimp only
  split
  next hlogs => exact .inr ⟨hlogs, _, _, _, _, String.append_assoc⟩
  next => split <;> exact .inl rfl

theorem fades_collect (m : Machine) : m.Fades m.collect := by
  refine ⟨collect_eq m, fun h ha => ?_, fun s hs => ?_⟩
  · rw [(collect_frame m).1]
    exact ha.collect _ _
  · rcases collect_output m with heq | ⟨hlogs, cycle, freed, live, next, heq⟩
    · rw [heq]
      exact hs
    · rw [heq]
      exact .right cycle freed live next hlogs hs

theorem fades_collectIfDue (m : Machine) (size : Nat) : m.Fades (m.collectIfDue size) := by
  unfold collectIfDue
  split
  · exact fades_collect m
  · exact .refl m

/-! ## Two computations -/

/-- Both computations end with the same value, or with the same fault, and leave machines that
are alike. -/
inductive SameEnd {α : Type} :
    EStateM.Result Fault Machine α → EStateM.Result Fault Machine α → Prop where
  | ok {a : α} {n n' : Machine} (h : n.Alike n') : SameEnd (.ok a n) (.ok a n')
  | error {e : Fault} {n n' : Machine} (h : n.Alike n') : SameEnd (.error e n) (.error e n')

/-- Started on the one machine and on the other, the computations come to the same end. -/
def Concur {α : Type} (m m' : Machine) (x x' : Exec α) : Prop := SameEnd (x.run m) (x'.run m')

variable {α β : Type} {x x' : Exec α}

theorem concur_pure (h : m.Alike m') (a : α) : Concur m m' (pure a : Exec α) (pure a) := .ok h

theorem concur_throw (h : m.Alike m') (e : Fault) : Concur m m' (throw e : Exec α) (throw e) :=
  .error h

theorem concur_raise (h : m.Alike m') (e : RuntimeError) :
    Concur m m' (raise e : Exec α) (raise e) := .error h

theorem concur_ofExcept (h : m.Alike m') (r : Except RuntimeError α) :
    Concur m m' (ofExcept r) (ofExcept r) := by
  cases r with
  | ok a => exact concur_pure h a
  | error e => exact concur_raise h e

theorem concur_get {f f' : Machine → Exec β} (h : Concur m m' (f m) (f' m')) :
    Concur m m' (get >>= f) (get >>= f') := h

theorem concur_modify {f f' : Machine → Machine} (h : (f m).Alike (f' m')) :
    Concur m m' (modify f) (modify f') := .ok h

/-- What comes of the first parts may be used for the rest. -/
theorem Concur.bind {f f' : α → Exec β} (hx : Concur m m' x x')
    (hf : ∀ a n n', x.run m = .ok a n → x'.run m' = .ok a n' → n.Alike n' →
      Concur n n' (f a) (f' a)) : Concur m m' (x >>= f) (x' >>= f') := by
  unfold Concur at hx ⊢
  simp only [EStateM.run_bind]
  generalize hrun : x.run m = result, hrun' : x'.run m' = result' at hx
  cases hx with
  | ok h => exact hf _ _ _ hrun hrun' h
  | error h => exact .error h

theorem Concur.map (f : α → β) (hx : Concur m m' x x') : Concur m m' (f <$> x) (f <$> x') := by
  rw [← bind_pure_comp, ← bind_pure_comp]
  exact hx.bind fun a _ _ _ _ h => concur_pure h (f a)

theorem Concur.tryCatch {f f' : Fault → Exec α} (hx : Concur m m' x x')
    (hf : ∀ e n n', x.run m = .error e n → x'.run m' = .error e n' → n.Alike n' →
      Concur n n' (f e) (f' e)) :
    Concur m m' (tryCatchThe Fault x f) (tryCatchThe Fault x' f') := by
  unfold Concur at hx ⊢
  show SameEnd (EStateM.tryCatch x f m) (EStateM.tryCatch x' f' m')
  have hrun : x.run m = x m := rfl
  have hrun' : x'.run m' = x' m' := rfl
  unfold EStateM.tryCatch
  generalize x.run m = result, x'.run m' = result' at hx hrun hrun' hf
  cases hx with
  | ok h =>
    rw [← hrun, ← hrun']
    exact .ok h
  | error h =>
    rw [← hrun, ← hrun']
    exact hf _ _ _ rfl rfl h

/-- Each of the machines only fades, and the values are the same. -/
theorem Alike.concur_fades (h : m.Alike m') {a : α}
    (hx : m.Ensures x (fun b n => b = a ∧ m.Fades n) fun _ _ => False)
    (hx' : m'.Ensures x' (fun b n => b = a ∧ m'.Fades n) fun _ _ => False) :
    Concur m m' x x' := by
  unfold Concur
  rcases ensures_iff_run.mp hx with ⟨_, n, hrun, rfl, hf⟩ | ⟨_, _, _, hfalse⟩
  · rcases ensures_iff_run.mp hx' with ⟨_, n', hrun', rfl, hf'⟩ | ⟨_, _, _, hfalse⟩
    · rw [hrun, hrun']
      exact .ok (h.fades hf hf')
    · exact hfalse.elim
  · exact hfalse.elim

/-! ## Computations that look at no object -/

/-- Machines that are alike come to the same end. -/
def Steady (x : Exec α) : Prop := ∀ m m' : Machine, m.Alike m' → Concur m m' x x

theorem steady_pure (a : α) : Steady (pure a : Exec α) := fun _ _ h => concur_pure h a

theorem steady_throw (e : Fault) : Steady (throw e : Exec α) := fun _ _ h => concur_throw h e

theorem steady_raise (e : RuntimeError) : Steady (raise e : Exec α) := fun _ _ h => concur_raise h e

theorem steady_ofExcept (r : Except RuntimeError α) : Steady (ofExcept r) :=
  fun _ _ h => concur_ofExcept h r

theorem steady_modify {f : Machine → Machine}
    (h : ∀ m m' : Machine, m.Alike m' → (f m).Alike (f m')) : Steady (modify f) :=
  fun m m' ha => concur_modify (h m m' ha)

theorem steady_get {f : Machine → Exec α}
    (h : ∀ m m' : Machine, m.Alike m' → Concur m m' (f m) (f m')) : Steady (get >>= f) := h

theorem Steady.bind {f : α → Exec β} (hx : Steady x) (hf : ∀ a, Steady (f a)) :
    Steady (x >>= f) :=
  fun m m' h => (hx m m' h).bind fun a n n' _ _ h' => hf a n n' h'

theorem Steady.map (f : α → β) (hx : Steady x) : Steady (f <$> x) :=
  fun m m' h => (hx m m' h).map f

theorem Steady.tryCatch {f : Fault → Exec α} (hx : Steady x) (hf : ∀ e, Steady (f e)) :
    Steady (tryCatchThe Fault x f) :=
  fun m m' h => (hx m m' h).tryCatch fun e n n' _ _ h' => hf e n n' h'

/-- What is read is the same on machines that are alike. -/
theorem steady_read {f : Machine → α} (h : ∀ m m' : Machine, m.Alike m' → f m' = f m) :
    Steady (do return f (← get)) := by
  intro m m' ha
  show SameEnd (.ok (f m) m) (.ok (f m') m')
  rw [h m m' ha]
  exact .ok ha

/-- The first condition holds on both machines or on neither. -/
theorem steady_ite {c : Prop} [Decidable c] {y : Exec α} (hx : Steady x) (hy : Steady y) :
    Steady (if c then x else y) := by
  split
  · exact hx
  · exact hy

end Machine
end LuaMachine
