import LuaMachine.Proofs.Machine.Upvalues
/-! # Frames of a sound machine

How the list of frames may change, and the constants that a new frame needs.

* `Frame.Same`, `Machine.SameFrames`: frames at other instructions.
* `Machine.Outermost`: frames are dropped.
* `FramesSound.push`, `OpenSound.push`: a frame is added.
* `Machine.ensures_constants`: the constants of a prototype.
-/
set_option autoImplicit false

namespace LuaMachine

/-- `f` is the frame `g`, perhaps at another instruction and with another open list. -/
def Frame.Same (g f : Frame) : Prop := f = { g with next := f.next, open' := f.open' }

theorem Frame.Same.refl (f : Frame) : f.Same f := rfl

theorem Frame.Same.trans {f g h : Frame} (hg : f.Same g) (hh : g.Same h) : f.Same h := by
  unfold Frame.Same at hg hh ⊢
  rw [hh, hg]

theorem Frame.Same.window {f g : Frame} (h : g.Same f) : f.window = g.window := by
  rw [h]
  rfl

namespace Machine

variable {code : Nat → Prototype} {m m₀ : Machine} {k limit : Nat} {E : Fault → Machine → Prop}

/-! ## Frames -/

section frames

variable {h : Heap} {pools : Pools} {slots top : Nat} {frames frames' : Array Frame}
  {opened : List (Nat × Ref)}

/-- The same frames, perhaps at other instructions. -/
structure SameFrames (frames frames' : Array Frame) : Prop where
  size : frames'.size = frames.size
  each : ∀ (i : Nat) (f' : Frame), frames'[i]? = some f' → ∃ f, frames[i]? = some f ∧ f.Same f'

theorem SameFrames.refl (frames : Array Frame) : SameFrames frames frames :=
  ⟨rfl, fun _ f hf => ⟨f, hf, .refl f⟩⟩

theorem SameFrames.modify (i : Nat) {f : Frame → Frame} (hf : ∀ g : Frame, g.Same (f g)) :
    SameFrames frames (frames.modify i f) where
  size := Array.size_modify
  each j f' hf' := by
    rw [Array.getElem?_modify] at hf'
    split at hf'
    · obtain ⟨g, hg, rfl⟩ := Option.map_eq_some_iff.mp hf'
      exact ⟨g, hg, hf g⟩
    · exact ⟨f', hf', .refl f'⟩

theorem SameFrames.back (hs : SameFrames frames frames') {f' : Frame}
    (hf' : frames'.back? = some f') : ∃ f, frames.back? = some f ∧ f.Same f' := by
  rw [back?_eq_some_iff, hs.size] at hf'
  exact hs.each _ _ hf'

/-- Each frame is still there. -/
theorem SameFrames.get (hs : SameFrames frames frames') {i : Nat} {f : Frame}
    (hf : frames[i]? = some f) : ∃ f', frames'[i]? = some f' ∧ f.Same f' := by
  obtain ⟨hlt, -⟩ := Array.getElem?_eq_some_iff.mp hf
  have hlt' : i < frames'.size := hs.size ▸ hlt
  have hsome := Array.getElem?_eq_getElem hlt'
  obtain ⟨g, hg, hsame⟩ := hs.each i _ hsome
  rw [hf] at hg
  cases hg
  exact ⟨_, hsome, hsame⟩

theorem CalledBy.same {g f g' f' : Frame} (h : CalledBy g f) (hg : g.Same g') (hf : f.Same f') :
    CalledBy g' f' := by
  unfold Frame.Same at hg hf
  rw [hg, hf]
  exact ⟨h.base, h.native, h.register⟩

theorem FramesSound.same (hf : FramesSound h pools slots top frames)
    (hs : SameFrames frames frames') (hopen : ∀ f ∈ frames', f.open' ≤ slots) :
    FramesSound h pools slots top frames' where
  each f' hf' := by
    obtain ⟨i, hi⟩ := Array.mem_iff_getElem?.mp hf'
    obtain ⟨f, hfi, hsame⟩ := hs.each i f' hi
    have hold := hf.each f (Array.mem_of_getElem? hfi)
    have hstop := hopen f' hf'
    rw [hsame]
    exact { hold with stop := hstop }
  calls i g' f' hg' hf' := by
    obtain ⟨g, hg, hgg⟩ := hs.each i g' hg'
    obtain ⟨f, hfi, hff⟩ := hs.each (i + 1) f' hf'
    exact (hf.calls i g f hg hfi).same hgg hff
  window f' hf' := by
    obtain ⟨f, hback, hsame⟩ := hs.back hf'
    rw [hsame.window]
    exact hf.window f hback

theorem OpenSound.same (ho : OpenSound h top frames opened) (hs : SameFrames frames frames') :
    OpenSound h top frames' opened := by
  refine { ho with window := fun u hu => ?_, native := fun u hu f' hf' hhost => ?_ }
  · obtain ⟨f, hf, hbase, hwindow⟩ := ho.window u hu
    obtain ⟨i, hi⟩ := Array.mem_iff_getElem?.mp hf
    obtain ⟨f', hf', hsame⟩ := hs.get hi
    refine ⟨f', Array.mem_of_getElem? hf', ?_, ?_⟩
    · rw [hsame]
      exact hbase
    · rw [hsame.window]
      exact hwindow
  · obtain ⟨i, hi⟩ := Array.mem_iff_getElem?.mp hf'
    obtain ⟨f, hf, hsame⟩ := hs.each i f' hi
    rw [hsame] at hhost ⊢
    exact ho.native u hu f (Array.mem_of_getElem? hf) hhost

/-- The first of the frames. -/
structure Outermost (frames' frames : Array Frame) : Prop where
  size : frames'.size ≤ frames.size
  each : ∀ i < frames'.size, frames'[i]? = frames[i]?

theorem Outermost.get (ho : Outermost frames' frames) {i : Nat} {f : Frame}
    (hf : frames'[i]? = some f) : frames[i]? = some f := by
  obtain ⟨hlt, -⟩ := Array.getElem?_eq_some_iff.mp hf
  rw [← ho.each i hlt]
  exact hf

theorem Outermost.mem (ho : Outermost frames' frames) {f : Frame} (hf : f ∈ frames') :
    f ∈ frames := by
  obtain ⟨i, hi⟩ := Array.mem_iff_getElem?.mp hf
  exact Array.mem_of_getElem? (ho.get hi)

theorem outermost_pop (frames : Array Frame) : Outermost frames.pop frames where
  size := by
    rw [Array.size_pop]
    exact Nat.sub_le _ _
  each i hi := by
    rw [Array.size_pop] at hi
    rw [Array.getElem?_pop, if_pos hi]

theorem FramesSound.outermost (hf : FramesSound h pools slots top frames)
    (ho : Outermost frames' frames) {top' : Nat}
    (hwindow : ∀ f, frames'.back? = some f → f.window ≤ top') :
    FramesSound h pools slots top' frames' where
  each f hmem := hf.each f (ho.mem hmem)
  calls i g f hg hi := hf.calls i g f (ho.get hg) (ho.get hi)
  window := hwindow

/-- The upvalues of dropped frames are closed. -/
theorem OpenSound.outermost (hopen : OpenSound h top frames opened)
    (ho : Outermost frames' frames)
    (hdropped : ∀ u ∈ opened, ∀ i f, frames'.size ≤ i → frames[i]? = some f → u.1 < f.base) :
    OpenSound h top frames' opened := by
  refine { hopen with window := fun u hu => ?_, native := fun u hu f hf => ?_ }
  · obtain ⟨f, hf, hbase, hwindow⟩ := hopen.window u hu
    obtain ⟨i, hi⟩ := Array.mem_iff_getElem?.mp hf
    by_cases hlt : i < frames'.size
    · rw [← ho.each i hlt] at hi
      exact ⟨f, Array.mem_of_getElem? hi, hbase, hwindow⟩
    · have hbelow := hdropped u hu i f (Nat.le_of_not_lt hlt) hi
      omega
  · exact hopen.native u hu f (ho.mem hf)

theorem getElem?_push_some {f f' : Frame} {i : Nat} (hi : (frames.push f)[i]? = some f') :
    frames[i]? = some f' ∨ i = frames.size ∧ f' = f := by
  rw [Array.getElem?_push] at hi
  split at hi
  · cases hi
    exact .inr ⟨by assumption, rfl⟩
  · exact .inl hi

theorem FramesSound.push (hf : FramesSound h pools slots top frames) {f : Frame} {top' : Nat}
    (hnew : FrameSound h pools slots f)
    (hcall : ∀ g, frames.back? = some g → CalledBy g f) (htop : f.window ≤ top') :
    FramesSound h pools slots top' (frames.push f) where
  each g hg := by
    rcases Array.mem_push.mp hg with hg | rfl
    · exact hf.each g hg
    · exact hnew
  calls i g g' hg hg' := by
    rcases getElem?_push_some hg' with hg' | ⟨hi, rfl⟩
    · rcases getElem?_push_some hg with hg | ⟨hi, -⟩
      · exact hf.calls i g g' hg hg'
      · obtain ⟨hlt, -⟩ := Array.getElem?_eq_some_iff.mp hg'
        omega
    · rcases getElem?_push_some hg with hg | ⟨hi', -⟩
      · exact hcall g (back?_eq_some_iff.mpr (by rw [← hi]; exact hg))
      · omega
  window g hg := by
    rw [Array.back?_push] at hg
    cases hg
    exact htop

theorem OpenSound.push (ho : OpenSound h top frames opened) {f : Frame}
    (hnative : f.toHost = true → ∀ u ∈ opened, u.1 ≠ f.destination) :
    OpenSound h top (frames.push f) opened := by
  refine { ho with window := fun u hu => ?_, native := fun u hu g hg hhost => ?_ }
  · obtain ⟨g, hg, hw⟩ := ho.window u hu
    exact ⟨g, Array.mem_push.mpr (.inl hg), hw⟩
  · rcases Array.mem_push.mp hg with hg | rfl
    · exact ho.native u hu g hg hhost
    · exact hnative hhost u hu

end frames

theorem Sound.withFrames {frames : Array Frame} (hm : Sound code m)
    (hf : FramesSound m.heap m.pools m.stack.size m.top frames)
    (ho : OpenSound m.heap m.top frames m.openUpvalues)
    (hcount : frames.size ≤ m.options.maxFrames) : Sound code { m with frames := frames } :=
  { hm with frames := hf, opened := ho, frameCount := hcount }

/-- The innermost frame goes to another instruction or gets another open list. -/
theorem Sound.modifyFrame {f : Frame → Frame} (hm : Sound code m) (hsame : ∀ g : Frame, g.Same (f g))
    (hstop : ∀ g ∈ m.frames, (f g).open' ≤ m.stack.size) :
    Sound code { m with frames := m.frames.modify (m.frames.size - 1) f } := by
  have hs : SameFrames m.frames _ := .modify (m.frames.size - 1) hsame
  refine hm.withFrames (hm.frames.same hs fun g hg => ?_) (hm.opened.same hs)
    (Nat.le_trans (Nat.le_of_eq Array.size_modify) hm.frameCount)
  rcases Table.mem_modify hg with hg | ⟨g', hg', rfl⟩
  · exact (hm.frames.each g hg).stop
  · exact hstop g' hg'

theorem Follows.modifyFrame {f : Frame → Frame} (hf : m₀.Follows k limit m)
    (hk : k < m.frames.size) (hsame : ∀ g : Frame, g.Same (f g)) :
    m₀.Follows k limit { m with frames := m.frames.modify (m.frames.size - 1) f } := by
  have hs : SameFrames m.frames (m.frames.modify (m.frames.size - 1) f) :=
    .modify (m.frames.size - 1) hsame
  refine { hf with count := ?_, frames := fun i hi => ?_, above := fun i f' hi hf' => ?_ }
  · show k ≤ (m.frames.modify _ _).size
    rw [hs.size]
    exact hf.count
  · show (m.frames.modify _ _)[i]? = _
    rw [Array.getElem?_modify, if_neg (by omega)]
    exact hf.frames i hi
  · obtain ⟨g, hg, hgg⟩ := hs.each i f' hf'
    rw [hgg]
    exact hf.above i g hi hg

/-! ## Constants -/

theorem ensures_fillPool {ks : List Constant} {Q : Unit → Machine → Prop} (hm : Sound code m)
    (hQ : ∀ p, Sound code { m.withMemory p with
        filling := m.filling ++ (ks.map Constant.value).toArray } → m.heap.Retains p.heap →
      Q () { m.withMemory p with filling := m.filling ++ (ks.map Constant.value).toArray }) :
    m.Ensures (fillPool ks) Q E := by
  induction ks generalizing m with
  | nil =>
    have h := hQ m
    simp only [List.map_nil, Array.append_empty] at h
    exact h hm (.refl m.heap)
  | cons k rest ih =>
    have hpush : ∀ p, Sound code (m.withMemory p) → p.heap.Has k.value →
        Sound code { m.withMemory p with filling := m.filling.push k.value } := by
      intro p hp hk
      refine { hp with filling := fun v hv => ?_ }
      rcases Array.mem_push.mp hv with hv | rfl
      · exact hp.filling v hv
      · exact hk
    have hnext : ∀ p, Sound code (m.withMemory p) → m.heap.Retains p.heap → p.heap.Has k.value →
        ({ m.withMemory p with filling := m.filling.push k.value } : Machine).Ensures
          (fillPool rest) Q E := by
      intro p hp hretains hk
      refine ih (hpush p hp hk) fun p' hp' hretains' => ?_
      have h := hQ p'
      rw [show m.filling ++ ((k :: rest).map Constant.value).toArray =
        m.filling.push k.value ++ (rest.map Constant.value).toArray by simp] at h
      exact h hp' (hretains.trans hretains')
    cases k with
    | str s =>
      simp only [fillPool, ensures_bind, ensures_modify]
      exact ensures_newText hm fun p hp hretains hs => hnext p hp hretains hs
    | _ =>
      simp only [fillPool, ensures_bind, ensures_pure, ensures_modify]
      exact hnext m hm (.refl m.heap) trivial

/-- A closure's prototype gets its constants, or has them. -/
theorem ensures_constants {c : Closure} {Q : Array Value → Machine → Prop} (hm : Ready code m)
    (hc : Heap.ClosureSound code m.programs m.heap c)
    (hQ : ∀ p pool, Ready code (m.withMemory p) → m.heap.Retains p.heap →
      p.pools[c.id]? = some pool → Q pool (m.withMemory p)) : m.Ensures (constants c) Q E := by
  simp only [constants, ensures_bind, ensures_get]
  cases hpool : m.pools[c.id]? with
  | some pool => exact hQ m pool hm (.refl m.heap) hpool
  | none =>
    simp only [ensures_bind]
    refine ensures_fillPool hm.toSound fun p hp hretains => ?_
    rw [hm.idle, Array.empty_append] at hp ⊢
    have hvalues : (c.prototype.chunk.constants.toList.map Constant.value).toArray =
        c.prototype.chunk.constants.map Constant.value := by
      rw [← Array.toList_map]
    rw [hvalues] at hp ⊢
    generalize hvs : c.prototype.chunk.constants.map Constant.value = vs at hp ⊢
    have hnew : Heap.PoolSound code m.programs p.heap c.id vs :=
      ⟨hc.program, ⟨_, hc.prototype, hvs.symm⟩, hp.filling⟩
    have hpools : ∀ id ws, (p.pools.insert c.id vs)[id]? = some ws →
        Heap.PoolSound code m.programs p.heap id ws := by
      intro id ws hws
      rw [Std.HashMap.getElem?_insert] at hws
      split at hws
      next heq =>
        cases hws
        rw [← eq_of_beq heq]
        exact hnew
      next => exact hp.heap.pools id ws hws
    have hframe : ∀ f ∈ m.frames, (p.pools.insert c.id vs)[f.id]? = some f.constants := by
      intro f hf
      have hold := (hp.frames.each f hf).constants
      rw [Std.HashMap.getElem?_insert]
      split
      next heq =>
        -- the constants are the same, since the prototype is
        obtain ⟨q, hq, hconstants⟩ := (hp.heap.pools _ _ hold).values
        rw [← eq_of_beq heq, hc.prototype] at hq
        cases hq
        rw [hconstants, hvs]
      next => exact hold
    have hempty : ({ m.withMemory p with
        pools := p.pools.insert c.id vs, filling := #[] } : Machine) =
        m.withMemory { p with pools := p.pools.insert c.id vs } := by
      rw [← hm.idle]
      rfl
    show Q vs { m.withMemory p with pools := p.pools.insert c.id vs, filling := #[] }
    rw [hempty]
    refine hQ { p with pools := p.pools.insert c.id vs } vs ⟨?_, hm.idle⟩ hretains ?_
    · exact { hp with
        heap := ⟨hp.heap.listed, hp.heap.interned, hp.heap.objects, hpools⟩
        frames := { hp.frames with
          each := fun f hf => { hp.frames.each f hf with constants := hframe f hf } }
        filling := fun v hv => by
          have hv : v ∈ m.filling := hv
          rw [hm.idle] at hv
          cases Array.not_mem_empty v hv }
    · exact Std.HashMap.getElem?_insert_self

end Machine
end LuaMachine
