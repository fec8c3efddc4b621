import LuaMachine.Proofs.Machine.Memory
/-! # Upvalues of a sound machine

Capturing a register, closing upvalues, and reading and writing through them.

* `Machine.ensures_capture`: a register gets one upvalue at most.
* `Machine.Closes`, `Machine.ensures_closeUpvalues`: what closing does.
* `Machine.ensures_readUpvalue`, `Machine.ensures_writeUpvalue`.
* `Machine.ensures_makeClosure`: a new closure with all its upvalues.
-/
set_option autoImplicit false

namespace LuaMachine
namespace Machine

variable {code : Nat → Prototype} {m : Machine} {E : Fault → Machine → Prop}

/-! ## Registers of frames -/

section frames

variable {h : Heap} {pools : Pools} {slots top : Nat} {frames : Array Frame}

/-- The windows of inner frames begin behind those of outer ones. -/
theorem FramesSound.base_le (hf : FramesSound h pools slots top frames) {i j : Nat} {g f : Frame}
    (hij : i ≤ j) (hg : frames[i]? = some g) (hj : frames[j]? = some f) : g.base ≤ f.base := by
  induction hij generalizing f with
  | refl =>
    rw [hg] at hj
    cases hj
    exact Nat.le_refl _
  | @step j hij ih =>
    obtain ⟨hlt, -⟩ := Array.getElem?_eq_some_iff.mp hj
    have hprev := Array.getElem?_eq_getElem (Nat.lt_of_succ_lt hlt)
    have hcall := (hf.calls j _ f hprev hj).base
    have hbase := (hf.each f (Array.mem_of_getElem? hj)).base
    have hle := ih hprev
    omega

theorem back?_eq_some_iff {f : Frame} :
    frames.back? = some f ↔ frames[frames.size - 1]? = some f := Iff.rfl

theorem mem_of_back? {f : Frame} (hf : frames.back? = some f) : f ∈ frames :=
  Array.mem_of_getElem? (back?_eq_some_iff.1 hf)

/-- No frame lies behind the innermost one. -/
theorem FramesSound.base_le_back (hf : FramesSound h pools slots top frames) {g f : Frame}
    (hg : g ∈ frames) (hback : frames.back? = some f) : g.base ≤ f.base := by
  obtain ⟨i, hi⟩ := Array.mem_iff_getElem?.mp hg
  obtain ⟨hlt, -⟩ := Array.getElem?_eq_some_iff.mp hi
  exact hf.base_le (by omega) hi (back?_eq_some_iff.1 hback)

end frames

/-! ## Capturing -/

/-- The list with one more slot, at its place. -/
def opening (slot : Nat) (r : Ref) (opened : List (Nat × Ref)) : List (Nat × Ref) :=
  (opened.takeWhile fun u => slot < u.1) ++ (slot, r) :: opened.dropWhile fun u => slot < u.1

theorem mem_opening {slot : Nat} {r : Ref} {opened : List (Nat × Ref)} {u : Nat × Ref} :
    u ∈ opening slot r opened ↔ u = (slot, r) ∨ u ∈ opened := by
  have happ := List.takeWhile_append_dropWhile (p := fun u : Nat × Ref => slot < u.1) (l := opened)
  rw [opening, List.mem_append, List.mem_cons]
  constructor
  · rintro (hu | rfl | hu)
    · exact .inr (happ ▸ List.mem_append_left _ hu)
    · exact .inl rfl
    · exact .inr (happ ▸ List.mem_append_right _ hu)
  · rintro (rfl | hu)
    · exact .inr (.inl rfl)
    · rw [← happ] at hu
      rcases List.mem_append.mp hu with hu | hu
      · exact .inl hu
      · exact .inr (.inr hu)

theorem sorted_opening {slot : Nat} {r : Ref} {opened : List (Nat × Ref)}
    (hs : opened.Pairwise fun u v => v.1 < u.1) (hne : ∀ u ∈ opened, u.1 ≠ slot) :
    (opening slot r opened).Pairwise fun u v => v.1 < u.1 := by
  induction opened with
  | nil => exact List.pairwise_singleton _ _
  | cons u rest ih =>
    obtain ⟨hu, hrest⟩ := List.pairwise_cons.mp hs
    have hih := ih hrest fun v hv => hne v (List.mem_cons_of_mem u hv)
    by_cases hlt : slot < u.1
    · have heq : opening slot r (u :: rest) = u :: opening slot r rest := by
        simp [opening, hlt]
      rw [heq]
      refine List.pairwise_cons.mpr ⟨fun v hv => ?_, hih⟩
      rcases mem_opening.1 hv with rfl | hv
      · exact hlt
      · exact hu v hv
    · have heq : opening slot r (u :: rest) = (slot, r) :: u :: rest := by
        simp [opening, hlt]
      have hslot : u.1 < slot := by
        have := hne u List.mem_cons_self
        omega
      rw [heq]
      refine List.pairwise_cons.mpr ⟨fun v hv => ?_, hs⟩
      rcases List.mem_cons.mp hv with rfl | hv
      · exact hslot
      · exact Nat.lt_trans (hu v hv) hslot

theorem find?_open (slot : Nat) (opened : List (Nat × Ref)) :
    (∃ r, opened.find? (fun u => u.1 == slot) = some (slot, r) ∧ (slot, r) ∈ opened) ∨
      opened.find? (fun u => u.1 == slot) = none ∧ ∀ u ∈ opened, u.1 ≠ slot := by
  cases hfind : opened.find? fun u => u.1 == slot with
  | none =>
    refine .inr ⟨rfl, fun u hu heq => ?_⟩
    have := List.find?_eq_none.mp hfind u hu
    simp [heq] at this
  | some u =>
    have hslot : u.1 = slot := by simpa using List.find?_some hfind
    have hmem := List.mem_of_find?_eq_some hfind
    obtain ⟨s, r⟩ := u
    cases hslot
    exact .inl ⟨r, rfl, hmem⟩

/-- One more upvalue is open, which stands for a register of a frame. -/
theorem Sound.opening {p : Machine} {slot : Nat} {r : Ref} {f : Frame} (hm : Sound code m)
    (hf : m.frames.back? = some f) (hbase : f.base ≤ slot) (hwindow : slot < f.window)
    (hne : ∀ u ∈ m.openUpvalues, u.1 ≠ slot)
    (hp : Sound code (m.withMemory p)) (hr : r = p.heap.cells.size) :
    Sound code { m.withMemory p with
      heap := (p.heap.allocate (.upvalue (.opened slot))).1
      openUpvalues := Machine.opening slot r m.openUpvalues } := by
  subst hr
  have hgrows := Heap.allocate_grows p.heap (.upvalue (.opened slot))
  have hself := Heap.allocate_self p.heap (.upvalue (.opened slot))
  have hopened : Heap.Sound code m.programs (Machine.opening slot p.heap.cells.size m.openUpvalues)
      p.pools p.heap := by
    refine ⟨hp.heap.listed, hp.heap.interned, fun r o ho => ?_, hp.heap.pools⟩
    have hold := hp.heap.objects r o ho
    cases o with
    | upvalue u =>
      cases u with
      | opened s => exact mem_opening.2 (.inr hold)
      | closed v => exact hold
    | _ => exact hold
  have hcell : ∀ u ∈ Machine.opening slot p.heap.cells.size m.openUpvalues,
      (p.heap.allocate (.upvalue (.opened slot))).1.cells[u.2]? =
        some (.upvalue (.opened u.1)) := by
    intro u hu
    rcases mem_opening.1 hu with rfl | hu
    · exact hself
    · exact Heap.allocate_of_some (hp.opened.cell u hu)
  refine hp.grows hgrows (hopened.allocate Object.noConfusion (mem_opening.2 (.inl rfl))) ?_
  refine ⟨sorted_opening hm.opened.sorted hne, hcell, fun u hu => ?_, fun u hu => ?_,
    fun u hu g hg hhost => ?_⟩
  · rcases mem_opening.1 hu with rfl | hu
    · exact Nat.lt_of_lt_of_le hwindow (hm.frames.window f hf)
    · exact hm.opened.below u hu
  · rcases mem_opening.1 hu with rfl | hu
    · exact ⟨f, mem_of_back? hf, hbase, hwindow⟩
    · exact hm.opened.window u hu
  · rcases mem_opening.1 hu with rfl | hu
    · have hle := hm.frames.base_le_back hg hf
      have heq := (hm.frames.each g hg).base
      show slot ≠ g.destination
      omega
    · exact hm.opened.native u hu g hg hhost

/-- What capturing a register does: an upvalue is open for it, and the other ones are as before. -/
theorem ensures_capture {slot : Nat} {f : Frame} {Q : Ref → Machine → Prop} (hm : Sound code m)
    (hf : m.frames.back? = some f) (hbase : f.base ≤ slot) (hwindow : slot < f.window)
    (hQ : ∀ p opened r, Sound code { m.withMemory p with openUpvalues := opened } →
      m.heap.Retains p.heap → (slot, r) ∈ opened →
      (∀ u : Nat × Ref, u.1 ≠ slot → (u ∈ opened ↔ u ∈ m.openUpvalues)) →
      Q r { m.withMemory p with openUpvalues := opened }) :
    m.Ensures (capture slot) Q E := by
  simp only [capture, ensures_bind, ensures_get]
  rcases find?_open slot m.openUpvalues with
    ⟨r, hfind, hmem⟩ | ⟨hfind, hne⟩
  · rw [hfind]
    exact hQ m m.openUpvalues r hm (.refl m.heap) hmem fun _ _ => Iff.rfl
  · rw [hfind]
    have hdue := hm.collectIfDue (Heap.headSize (.upvalue (.opened slot)))
    have heq := collectIfDue_eq m (Heap.headSize (.upvalue (.opened slot)))
    have hretains := hm.collectIfDue_retains (Heap.headSize (.upvalue (.opened slot)))
    simp only [allocate, ensures_bind, ensures_modify, ensures_modifyGet, ensures_pure]
    generalize m.collectIfDue (Heap.headSize (.upvalue (.opened slot))) = d at hdue heq hretains ⊢
    rw [heq] at hdue ⊢
    refine hQ { d with heap := (d.heap.allocate (.upvalue (.opened slot))).1 } _ _
      (hm.opening hf hbase hwindow hne hdue rfl)
      (hretains.trans (Heap.allocate_retains d.heap _)) (mem_opening.2 (.inl rfl)) fun u hu => ?_
    show u ∈ Machine.opening slot _ m.openUpvalues ↔ _
    rw [mem_opening]
    refine or_iff_right fun heq => hu ?_
    rw [heq]

/-! ## Closing -/

/-- The upvalues of the slots from `lowest` on hold what the slots hold; no other object changes. -/
structure Closes (lowest : Nat) (m : Machine) (h : Heap) : Prop where
  grows : m.heap.Grows h
  cells : ∀ r, h.cells[r]? = m.heap.cells[r]? ∨ ∃ s, lowest ≤ s ∧ (s, r) ∈ m.openUpvalues ∧
    h.cells[r]? = some (.upvalue (.closed (m.stack.getD s .nil)))

/-- The open upvalue with the highest slot is closed. -/
theorem Sound.closeHead {s : Nat} {r : Ref} {rest : List (Nat × Ref)} (hm : Sound code m)
    (hopen : m.openUpvalues = (s, r) :: rest) :
    m.heap.Replaces (m.heap.setUpvalue r (.closed (m.stack.getD s .nil))) r
        (.upvalue (.opened s)) (.upvalue (.closed (m.stack.getD s .nil))) ∧
      Sound code { m with
        heap := m.heap.setUpvalue r (.closed (m.stack.getD s .nil)), openUpvalues := rest } := by
  have hhead : (s, r) ∈ m.openUpvalues := hopen ▸ List.mem_cons_self
  have hcell : m.heap.cells[r]? = some (.upvalue (.opened s)) := hm.opened.cell _ hhead
  have hrep : m.heap.Replaces (m.heap.setUpvalue r (.closed (m.stack.getD s .nil))) r
      (.upvalue (.opened s)) (.upvalue (.closed (m.stack.getD s .nil))) :=
    Heap.replaces_set _ hcell
  have hgrows := hrep.grows_upvalue
  have hmem : ∀ u ∈ rest, u ∈ m.openUpvalues := fun u hu => hopen ▸ List.mem_cons_of_mem _ hu
  have hsorted := hm.opened.sorted
  rw [hopen, List.pairwise_cons] at hsorted
  have hother : ∀ u ∈ rest, u.2 ≠ r := by
    intro u hu heq
    have hu' := hm.opened.cell u (hmem u hu)
    rw [heq, hcell] at hu'
    have hlt := hsorted.1 u hu
    have := Upvalue.opened.inj (Object.upvalue.inj (Option.some.inj hu'))
    omega
  refine ⟨hrep, hm.grows hgrows ⟨?_, ?_, ?_, ?_⟩ ⟨hsorted.2, ?_, ?_, ?_, ?_⟩⟩
  · exact hrep.listed hm.heap.listed Object.noConfusion Object.noConfusion
  · exact hm.heap.interned.congr hrep.strings hrep.texts hrep.made
  · intro r' o ho
    by_cases hr : r' = r
    · subst hr
      rw [hrep.new] at ho
      cases ho
      exact hgrows.has (hm.stack.getD s)
    · rw [hrep.others r' hr] at ho
      have hold := (hm.heap.objects r' o ho).grows hgrows
      cases o with
      | upvalue u =>
        cases u with
        | closed v => exact hold
        | opened s' =>
          have hin : (s', r') ∈ (s, r) :: rest := hopen ▸ (hm.heap.objects r' _ ho)
          rcases List.mem_cons.mp hin with heq | hin
          · exact absurd (congrArg Prod.snd heq) hr
          · exact hin
      | _ => exact hold
  · exact fun id vs hvs => (hm.heap.pools id vs hvs).grows hgrows
  · intro u hu
    rw [hrep.others u.2 (hother u hu)]
    exact hm.opened.cell u (hmem u hu)
  · exact fun u hu => hm.opened.below u (hmem u hu)
  · exact fun u hu => hm.opened.window u (hmem u hu)
  · exact fun u hu => hm.opened.native u (hmem u hu)

theorem Closes.refl (lowest : Nat) (m : Machine) : Closes lowest m m.heap :=
  ⟨.refl m.heap, fun _ => .inl rfl⟩

/-- Closing the first of the open upvalues closes upvalues, and so does closing further ones. -/
theorem Closes.cons {lowest s : Nat} {r : Ref} {rest : List (Nat × Ref)} {h : Heap} {v : Value}
    (hopen : m.openUpvalues = (s, r) :: rest) (hs : lowest ≤ s) (hv : v = m.stack.getD s .nil)
    (hrep : m.heap.Replaces (m.heap.setUpvalue r (.closed v)) r (.upvalue (.opened s))
      (.upvalue (.closed v)))
    (hrest : Closes lowest
      { m with heap := m.heap.setUpvalue r (.closed v), openUpvalues := rest } h) :
    Closes lowest m h := by
  subst hv
  refine ⟨hrep.grows_upvalue.trans hrest.grows, fun r' => ?_⟩
  rcases hrest.cells r' with heq | ⟨s', hs', hmem, hcell⟩
  · by_cases hr : r' = r
    · subst hr
      exact .inr ⟨s, hs, hopen ▸ List.mem_cons_self, heq.trans hrep.new⟩
    · exact .inl (heq.trans (hrep.others r' hr))
  · exact .inr ⟨s', hs', hopen ▸ List.mem_cons_of_mem _ hmem, hcell⟩

/-- The upvalues of the slots from `lowest` on are closed, which cannot fail. -/
theorem ensures_closeUpvalues {lowest : Nat} {Q : Unit → Machine → Prop} (hm : Sound code m)
    (hQ : ∀ h opened, Sound code { m with heap := h, openUpvalues := opened } →
      Closes lowest m h → (∀ u, u ∈ opened ↔ u ∈ m.openUpvalues ∧ u.1 < lowest) →
      Q () { m with heap := h, openUpvalues := opened }) :
    m.Ensures (closeUpvalues lowest) Q E := by
  simp only [closeUpvalues, ensures_bind, ensures_get]
  generalize hl : m.openUpvalues = opened
  induction opened generalizing m with
  | nil =>
    refine hQ m.heap m.openUpvalues hm (.refl lowest m) fun u => ?_
    rw [hl]
    simp
  | cons u rest ih =>
    obtain ⟨s, r⟩ := u
    by_cases hs : lowest ≤ s
    · have hcell := hm.opened.cell (s, r) (hl ▸ List.mem_cons_self)
      obtain ⟨hrep, hclosed⟩ := hm.closeHead hl
      simp only [List.takeWhile_cons, hs, decide_true, if_true, closeAll, ensures_bind,
        ensures_get, Heap.upvalue?_eq_some_iff.mpr hcell, Upvalue.close, modifyHeap,
        ensures_modify, hl, List.tail_cons]
      refine ih hclosed (fun h opened hsound hcloses hmem => ?_) rfl
      refine hQ h opened hsound (hcloses.cons hl hs rfl hrep) fun u => ?_
      rw [hmem u, hl, List.mem_cons]
      constructor
      · exact fun hu => ⟨.inr hu.1, hu.2⟩
      · rintro ⟨rfl | hu, hlt⟩
        · exact absurd hs (Nat.not_le_of_lt hlt)
        · exact ⟨hu, hlt⟩
    · simp only [List.takeWhile_cons, hs, decide_false]
      refine hQ m.heap m.openUpvalues hm (.refl lowest m) fun u => ?_
      refine ⟨fun hu => ⟨hu, ?_⟩, fun hu => hu.1⟩
      have hsorted := hm.opened.sorted
      rw [hl, List.pairwise_cons] at hsorted
      rcases List.mem_cons.mp (hl ▸ hu) with rfl | hu
      · exact Nat.lt_of_not_le hs
      · exact Nat.lt_trans (hsorted.1 u hu) (Nat.lt_of_not_le hs)

/-! ## Reading and writing -/

/-- The upvalue is missing, or it is an upvalue. -/
def IsUpvalue (h : Heap) (u : Option Ref) : Prop :=
  ∀ r, u = some r → ∃ x, h.cells[r]? = some (.upvalue x)

theorem ensures_upvalue {u : Option Ref} {Q : Ref × Upvalue → Machine → Prop}
    (hQ : ∀ r x, u = some r → m.heap.cells[r]? = some (.upvalue x) → Q (r, x) m)
    (hE : E (.defect "missing upvalue") m) : m.Ensures (upvalue u) Q E := by
  unfold upvalue
  cases u with
  | none => exact hE
  | some r =>
    simp only [ensures_bind, ensures_get]
    cases hx : m.heap.upvalue? r with
    | none => exact hE
    | some x => exact hQ r x rfl (Heap.upvalue?_eq_some_iff.mp hx)

theorem ensures_readUpvalue {u : Option Ref} {Q : Value → Machine → Prop} (hm : Sound code m)
    (hQ : ∀ v, m.heap.Has v → Q v m) (hE : E (.defect "missing upvalue") m) :
    m.Ensures (readUpvalue u) Q E := by
  rw [readUpvalue, ensures_bind]
  refine ensures_upvalue (fun r x _ hx => ?_) hE
  cases x with
  | opened s => exact hQ _ (hm.stack.getD s)
  | closed v => exact hQ v (hm.heap.objects r _ hx)

/-- A slot is written whose upvalue is open, or a closed upvalue is. -/
theorem ensures_writeUpvalue {u : Option Ref} {v : Value} {Q : Unit → Machine → Prop}
    (hm : Sound code m) (hv : m.heap.Has v)
    (hslot : ∀ s r, (s, r) ∈ m.openUpvalues →
      Sound code { m with stack := m.stack.setIfInBounds s v } →
      Q () { m with stack := m.stack.setIfInBounds s v })
    (hheap : ∀ h, Sound code { m with heap := h } → Q () { m with heap := h })
    (hE : E (.defect "missing upvalue") m) : m.Ensures (writeUpvalue u v) Q E := by
  rw [writeUpvalue, ensures_bind]
  refine ensures_upvalue (fun r x _ hx => ?_) hE
  cases x with
  | opened s =>
    have hmem : (s, r) ∈ m.openUpvalues := hm.heap.objects r _ hx
    exact hslot s r hmem (hm.withSlots (hm.stack.set (hm.opened.below _ hmem) hv)
      (Nat.le_of_eq Array.size_setIfInBounds.symm))
  | closed old =>
    have hrep : m.heap.Replaces (m.heap.setUpvalue r (.closed v)) r (.upvalue (.closed old))
        (.upvalue (.closed v)) := Heap.replaces_set _ hx
    have hgrows := hrep.grows_upvalue
    refine hheap _ (hm.grows hgrows ?_ { hm.opened with cell := fun u hu => ?_ })
    · exact hrep.sound hgrows hm.heap Object.noConfusion Object.noConfusion (hgrows.has hv)
    · rcases hrep.of_some (hm.opened.cell u hu) with hc | ⟨-, hc⟩
      · exact hc
      · cases hc

/-! ## New closures -/

theorem ensures_ownUpvalue {f : Frame} {i : Nat} {Q : Option Ref → Machine → Prop}
    (hm : Sound code m) (hQ : ∀ u, IsUpvalue m.heap u → Q u m)
    (hE : E (.defect "missing closure") m) : m.Ensures (ownUpvalue f i) Q E := by
  simp only [ownUpvalue, ensures_bind, ensures_get]
  cases hc : m.heap.closure? f.closure with
  | none => exact hE
  | some c =>
    refine hQ _ fun r hr => ?_
    have hsound : Heap.ClosureSound code m.programs m.heap c :=
      hm.heap.objects _ _ (closure?_eq_some_iff.mp hc)
    refine hsound.upvalues r (Array.mem_of_getElem? (i := i) ?_)
    exact Option.join_eq_some_iff.mp hr

/-- A closure gets one of its upvalues. -/
theorem Sound.fillUpvalue {r : Ref} {i : Nat} {u : Option Ref} {c : Closure} (hm : Sound code m)
    (hcell : m.heap.cells[r]? = some (.closure c)) (hu : IsUpvalue m.heap u) :
    Sound code { m with
      heap := m.heap.setClosure r { c with upvalues := c.upvalues.setIfInBounds i u } } := by
  have hold : Heap.ClosureSound code m.programs m.heap c := hm.heap.objects _ _ hcell
  have hrep : m.heap.Replaces
      (m.heap.setClosure r { c with upvalues := c.upvalues.setIfInBounds i u }) r
      (.closure c) (.closure { c with upvalues := c.upvalues.setIfInBounds i u }) :=
    Heap.replaces_set _ hcell
  have hgrows := hrep.grows_closure rfl rfl
  refine hm.grows hgrows ?_ { hm.opened with cell := fun x hx => ?_ }
  · refine hrep.sound hgrows hm.heap Object.noConfusion Object.noConfusion ?_
    refine Heap.ClosureSound.grows ⟨hold.program, hold.prototype, ?_, fun r' hr' => ?_⟩ hgrows
    · exact Array.size_setIfInBounds.trans hold.size
    · rcases Array.mem_or_eq_of_mem_setIfInBounds hr' with hr' | heq
      · exact hold.upvalues r' hr'
      · exact hu r' heq.symm
  · rcases hrep.of_some (hm.opened.cell x hx) with hc | ⟨-, hc⟩
    · exact hc
    · cases hc

theorem ensures_fillUpvalue {r : Ref} {i : Nat} {u : Option Ref} {Q : Unit → Machine → Prop}
    (hm : Sound code m) (hu : IsUpvalue m.heap u)
    (hQ : ∀ h, Sound code { m with heap := h } → Q () { m with heap := h })
    (hE : ∀ text, E (.defect text) m) : m.Ensures (fillUpvalue r i u) Q E := by
  simp only [fillUpvalue, ensures_bind, ensures_get]
  cases hc : m.heap.closure? r with
  | none => exact hE _
  | some c =>
    by_cases hi : i < c.upvalues.size
    · simp only [Closure.setUpvalue, if_pos hi, modifyHeap, ensures_modify]
      exact hQ _ (hm.fillUpvalue (closure?_eq_some_iff.mp hc) hu)
    · simp only [Closure.setUpvalue, if_neg hi, ensures_throw]
      exact hE _

/-- The upvalues of a new closure: registers below the window of its maker are not captured. -/
theorem ensures_fillUpvalues {f : Frame} {r : Ref} {i : Nat} {sources : List UpvalueSource}
    {Q : Unit → Machine → Prop} (hm : Sound code m) (hf : m.frames.back? = some f)
    (hsources : ∀ u ∈ sources, u.fromRegister = true → u.index < f.prototype.registers)
    (hQ : ∀ p opened, Sound code { m.withMemory p with openUpvalues := opened } →
      (∀ u : Nat × Ref, u.1 < f.base → (u ∈ opened ↔ u ∈ m.openUpvalues)) →
      Q () { m.withMemory p with openUpvalues := opened })
    (hE : ∀ p opened text, Sound code { m.withMemory p with openUpvalues := opened } →
      (∀ u : Nat × Ref, u.1 < f.base → (u ∈ opened ↔ u ∈ m.openUpvalues)) →
      E (.defect text) { m.withMemory p with openUpvalues := opened }) :
    m.Ensures (fillUpvalues f r i sources) Q E := by
  induction sources generalizing m i with
  | nil => exact hQ m m.openUpvalues hm fun _ _ => Iff.rfl
  | cons source rest ih =>
    have hrest : ∀ u ∈ rest, u.fromRegister = true → u.index < f.prototype.registers :=
      fun u hu => hsources u (List.mem_cons_of_mem source hu)
    rw [fillUpvalues]
    by_cases hreg : source.fromRegister = true
    · simp only [hreg, if_true, ensures_bind, ensures_map]
      have hindex := hsources source List.mem_cons_self hreg
      refine ensures_capture hm hf (Nat.le_add_right _ _) (Nat.add_lt_add_left hindex _) ?_
      intro p opened r' hp _ hmem hothers
      have hbelow : ∀ u : Nat × Ref, u.1 < f.base → (u ∈ opened ↔ u ∈ m.openUpvalues) :=
        fun u hu => hothers u (by omega)
      have hup : IsUpvalue p.heap (some r') := by
        intro r'' heq
        cases heq
        exact ⟨_, hp.opened.cell _ hmem⟩
      refine ensures_fillUpvalue hp hup (fun h hh => ?_) fun text => hE p opened text hp hbelow
      refine ih hh hf hrest (fun p' opened' hp' hb => ?_) fun p' opened' text hp' hb => ?_
      · exact hQ p' opened' hp' fun u hu => (hb u hu).trans (hbelow u hu)
      · exact hE p' opened' text hp' fun u hu => (hb u hu).trans (hbelow u hu)
    · simp only [if_neg hreg, ensures_bind]
      refine ensures_ownUpvalue hm (fun u hu => ?_) (hE m _ _ hm fun _ _ => Iff.rfl)
      refine ensures_fillUpvalue hm hu (fun h hh => ?_) fun text => hE m _ text hm fun _ _ => Iff.rfl
      refine ih hh hf hrest (fun p' opened' hp' hb => ?_) fun p' opened' text hp' hb => ?_
      · exact hQ p' opened' hp' hb
      · exact hE p' opened' text hp' hb

end Machine
end LuaMachine
