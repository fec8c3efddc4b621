import LuaMachine.Proofs.Jumps.Passing
/-! # Where jumps to labels land

A jump to a label waits from the `goto` on. It goes on waiting until a block ends or has the label
behind the jump; in the end it is finished where the innermost block with the label has it. A jump
back is finished at once, and by the rules for labels there is only one label that it can find.

* `Jumps.Closing`: from a spot to the end of the function.
* `Jumps.Stands.labelled`, `Jumps.Stands.visible`: the labels that a jump back can find.
* `Jumps.Stands.lands`: the jump of a `goto` is to the label that it stands for.
-/
set_option autoImplicit false

namespace LuaMachine
namespace Jumps

open Generator

variable {origin spot label : Spot} {inner outer spots : List Spot} {name : String} {n t : Nat}
  {stop st : State}

/-! ## Spots of one block -/

/-- The spot behind the next statement. -/
def Spot.behind (spot : Spot) (s : Stmt) (rest : List Stmt) (st : State) : Spot :=
  ⟨spot.kind, spot.start, spot.before ++ [s], rest, st⟩

theorem Spot.Together.refl (spot : Spot) : spot.Together spot := ⟨rfl, rfl, rfl⟩

theorem Spot.Together.of_behind {s : Stmt} {rest : List Stmt} (hafter : spot.after = s :: rest)
    (h : (spot.behind s rest st).Together label) : spot.Together label where
  kind := h.kind
  start := h.start
  body := by
    rw [h.body, hafter, Spot.behind, List.append_assoc, List.singleton_append]

theorem Spot.Together.behind {s : Stmt} {rest : List Stmt} (hafter : spot.after = s :: rest)
    (h : spot.Together label) : (spot.behind s rest st).Together label where
  kind := h.kind
  start := h.start
  body := by
    rw [h.body, hafter, Spot.behind, List.append_assoc, List.singleton_append]

/-- The spot is in front of a label of this name. -/
def Spot.Labels (spot : Spot) (name : String) : Prop :=
  ∃ line rest, spot.after = .label name line :: rest

theorem Stands.tail (h : Stands origin (spot :: spots)) (hne : spots ≠ []) :
    Stands origin spots := by
  generalize hall : spot :: spots = all at h
  induction h generalizing spot with
  | start =>
    obtain ⟨-, rfl⟩ := List.cons.inj hall
    exact absurd rfl hne
  | next _ _ _ ih =>
    obtain ⟨rfl, rfl⟩ := List.cons.inj hall
    exact ih rfl
  | enter stands =>
    obtain ⟨rfl, rfl⟩ := List.cons.inj hall
    exact stands

theorem Stands.outward (h : Stands origin (inner ++ spot :: outer)) :
    Stands origin (spot :: outer) := by
  induction inner with
  | nil => exact h
  | cons first inner ih => exact ih (h.tail (by simp))

/-- The label is in the innermost block. -/
theorem Finds.here (htogether : spot.Together label) (hstands : Stands origin (label :: outer))
    (hlabel : label.Labels name) : Finds origin name (spot :: outer) label :=
  ⟨⟨[], spot, outer, rfl, by simp, htogether, hstands⟩, hlabel⟩

/-- The label is in a block further out. -/
theorem Finds.outward (h : Finds origin name outer label)
    (hspot : spot.enclosure.holds name = false) : Finds origin name (spot :: outer) label := by
  obtain ⟨⟨inner, at', outer', rfl, hinner, hrest⟩, hlabel⟩ := h
  exact ⟨⟨spot :: inner, at', outer', rfl, List.forall_mem_cons.mpr ⟨hspot, hinner⟩, hrest⟩, hlabel⟩

/-- What is left of the innermost block ends in a state, and of each jump of the block it is known
what becomes of it until the end of the function. -/
structure Closing (origin : Spot) (stop : State) (spot : Spot) (outer : List Spot) (st : State) :
    Prop where
  ready : Ready spot.state
  size : spot.start.size ≤ spot.state.size
  run : statements spot.ends spot.after spot.state = .ok () st
  settled : ∀ n t, spot.start.size ≤ n → n < st.size → Settled n t st → Settled n t stop
  waits : ∀ n name, spot.start.size ≤ n → n < st.size → Waits name n st →
    (∀ o ∈ outer, name ∉ labels o.before) → (∃ o ∈ outer, name ∈ labels o.after.tail) →
    ∃ label, Finds origin name outer label ∧ Settled n label.state.size stop

/-- The compiler gets to the end of the block from behind the next statement as well. -/
theorem Closing.next {s : Stmt} {rest : List Stmt} {st₁ : State}
    (h : Closing origin stop spot outer st) (hafter : spot.after = s :: rest)
    (hrun : compileNext spot.ends s rest spot.state = .ok () st₁) :
    Closing origin stop (spot.behind s rest st₁) outer st := by
  have hall := h.run
  rw [hafter, statements_cons, bind_ok] at hall
  obtain ⟨_, st₂, hnext, hrest⟩ := hall
  obtain ⟨-, rfl⟩ := ok_unique hnext hrun
  obtain ⟨hfill, hready⟩ := fills_next (carries s) h.ready hrun
  exact ⟨hready, Nat.le_trans h.size hfill.size, hrest, h.settled, h.waits⟩

/-- A jump that waits at a spot is finished at a label of the block, or it waits at its end. -/
theorem Closing.meets (h : Closing origin stop spot outer st)
    (hstands : Stands origin (spot :: outer)) (hw : Waits name n spot.state) :
    (name ∉ labels spot.after ∧ Waits name n st) ∨
      ∃ label : Spot, spot.Together label ∧ Stands origin (label :: outer) ∧ label.Labels name ∧
        Settled n label.state.size st := by
  generalize hafter : spot.after = ss
  induction ss generalizing spot with
  | nil =>
    have hrun := h.run
    rw [hafter, statements, pure_ok] at hrun
    obtain ⟨-, rfl⟩ := hrun
    exact .inl ⟨by simp [labels], hw⟩
  | cons s rest ih =>
    have hrun := h.run
    rw [hafter, statements_cons, bind_ok] at hrun
    obtain ⟨_, st₁, hnext, hrest⟩ := hrun
    have hclosing := h.next hafter hnext
    have hstands₁ : Stands origin (spot.behind s rest st₁ :: outer) := .next hstands hafter hnext
    obtain ⟨ps, hsound⟩ := h.ready.sound
    -- the statement leaves the jump waiting unless it is the label
    by_cases hlabel : s.labelName? = some name
    · cases s with
      | label name' line =>
        obtain rfl : name' = name := Option.some.inj hlabel
        have hmeets := compileLabel_meets hnext hsound h.ready.blocks
        refine .inr ⟨spot, .refl _, hstands, ⟨line, rest, hafter⟩, ?_⟩
        exact (filling _ rest _ _ _ hclosing.ready hrest).settled hclosing.ready.blocks
          (hmeets.settled n hw)
      | _ => cases hlabel
    · have hw₁ : Waits name n st₁ := by
        cases hs : s.labelName? with
        | none =>
          rw [compileNext_of_none hs] at hnext
          exact ((carries s hs _ _ _ h.ready hnext).1.watches List.not_mem_nil).waits name hw
        | some name' =>
          cases s with
          | label name'' line =>
            refine (compileLabel_meets hnext hsound h.ready.blocks).waits name n ?_ hw
            rintro rfl
            exact hlabel rfl
          | _ => cases hs
      rcases ih hclosing hstands₁ hw₁ rfl with ⟨hnot, hend⟩ | ⟨label, htogether, hfound⟩
      · exact .inl ⟨by simp [mem_labels_cons, hlabel, hnot], hend⟩
      · exact .inr ⟨label, htogether.of_behind hafter, hfound⟩

/-- A block of the next statement that the compiler enters is inside of the statement. -/
theorem Closing.within {s : Stmt} {rest : List Stmt} {kind : Kind} {body : Block} {st₁ : State}
    (h : Closing origin stop spot outer st) (hafter : spot.after = s :: rest)
    (henters : Enters s spot.state kind body st₁) :
    ∃ st₂, compileNext spot.ends s rest spot.state = .ok () st₂ ∧
      Within [] kind body spot.state st₁ st₂ := by
  have hrun := h.run
  rw [hafter, statements_cons, bind_ok] at hrun
  obtain ⟨_, st₂, hnext, -⟩ := hrun
  refine ⟨st₂, hnext, ?_⟩
  rw [compileNext_of_none henters.labelName?] at hnext
  exact (carries s henters.labelName? _ _ _ h.ready hnext).2 _ _ _ henters

/-- The compiler enters a block of the next statement. -/
theorem Closing.enter {s : Stmt} {rest : List Stmt} {kind : Kind} {body : Block} {st₁ : State}
    (h : Closing origin stop spot outer st) (hstands : Stands origin (spot :: outer))
    (hafter : spot.after = s :: rest) (henters : Enters s spot.state kind body st₁) :
    ∃ st', Closing origin stop (.first kind body st₁) (spot :: outer) st' := by
  obtain ⟨st₂, hnext, hwithin⟩ := h.within hafter henters
  have hclosing := h.next hafter hnext
  have hstands₂ : Stands origin (spot.behind s rest st₂ :: outer) := .next hstands hafter hnext
  have hfill := filling _ rest _ _ _ hclosing.ready hclosing.run
  obtain ⟨st₃, hinner, hend, -, hwatches⟩ := hwithin.leaves
  -- a jump of the block stands between the bounds of the block around it too
  have hbounds : ∀ n, st₁.size ≤ n → n < st₃.size → spot.start.size ≤ n ∧ n < st.size := by
    intro n hle hlt
    have hstart := Nat.le_trans h.size hwithin.size
    have hstop : st₂.size ≤ st.size := hfill.size
    omega
  refine ⟨st₃, hwithin.ready, Nat.le_refl _, hinner, fun n t hle hlt hs => ?_,
    fun n name hle hlt hw hbefore hexists => ?_⟩
  · obtain ⟨hle', hlt'⟩ := hbounds n hle hlt
    exact h.settled n t hle' hlt'
      (hfill.settled hclosing.ready.blocks ((hwatches n hle hlt).settled t hs))
  · obtain ⟨hle', hlt'⟩ := hbounds n hle hlt
    obtain ⟨hspot, houter⟩ := List.forall_mem_cons.mp hbefore
    have hmeets : (name ∉ labels rest ∧ _) ∨ _ :=
      hclosing.meets hstands₂ ((hwatches n hle hlt).waits name hw)
    rcases hmeets with ⟨hnot, hw'⟩ | ⟨label, htogether, hfound, hlabel, hs⟩
    · have hrest : spot.after.tail = rest := by rw [hafter, List.tail_cons]
      obtain ⟨o, ho, hname⟩ := hexists
      rcases List.mem_cons.mp ho with rfl | ho
      · rw [hrest] at hname
        exact absurd hname hnot
      · obtain ⟨label, hfinds, hs⟩ := h.waits n name hle' hlt' hw' houter ⟨o, ho, hname⟩
        refine ⟨label, hfinds.outward ?_, hs⟩
        simpa [Enclosure.holds, Spot.enclosure, hspot, hrest] using hnot
    · exact ⟨label, .here (htogether.of_behind hafter) hfound hlabel, h.settled n _ hle' hlt' hs⟩

/-- A function that is compiled from its first statement to its last. -/
structure Whole (origin : Spot) (stop : State) : Prop where
  ready : Ready origin.state
  start : origin.start = origin.state
  before : origin.before = []
  visible : origin.state.visible = []
  run : statements origin.ends origin.after origin.state = .ok () stop

theorem Stands.closing (h : Stands origin spots) (hwhole : Whole origin stop) :
    ∃ spot outer st, spots = spot :: outer ∧ Closing origin stop spot outer st := by
  induction h with
  | start =>
    refine ⟨_, _, stop, rfl, hwhole.ready, hwhole.start ▸ Nat.le_refl _, hwhole.run,
      fun _ _ _ _ hs => hs,
      fun _ _ _ _ _ _ hexists => ?_⟩
    obtain ⟨o, ho, -⟩ := hexists
    cases ho
  | next stands after run ih =>
    obtain ⟨_, _, st, heq, hclosing⟩ := ih
    obtain ⟨rfl, rfl⟩ := List.cons.inj heq
    exact ⟨_, _, st, rfl, hclosing.next after run⟩
  | enter stands after enters ih =>
    obtain ⟨_, _, st, heq, hclosing⟩ := ih
    obtain ⟨rfl, rfl⟩ := List.cons.inj heq
    obtain ⟨st', hclosing'⟩ := hclosing.enter stands after enters
    exact ⟨_, _, st', rfl, hclosing'⟩

/-! ## Labels that are seen -/

/-- The label is in front of one of the spots in its block. -/
def Seen (origin : Spot) (spots : List Spot) (l : PlacedLabel) : Prop :=
  ∃ inner at' outer label, spots = inner ++ at' :: outer ∧ l.name ∈ labels at'.before ∧
    at'.Together label ∧ Stands origin (label :: outer) ∧ label.Labels l.name ∧
    label.state.size = l.position

/-- Only labels in front of the spots can be found. -/
theorem Stands.seen (h : Stands origin (spot :: outer)) (hwhole : Whole origin stop)
    {l : PlacedLabel} (hl : l ∈ spot.state.visible) : Seen origin (spot :: outer) l := by
  generalize hspots : spot :: outer = spots at h
  induction h generalizing spot outer with
  | start =>
    obtain ⟨rfl, rfl⟩ := List.cons.inj hspots
    rw [hwhole.visible] at hl
    cases hl
  | @next spot' outer' s rest st stands after run ih =>
    obtain ⟨rfl, rfl⟩ := List.cons.inj hspots
    obtain ⟨_, _, _, heq, hclosing⟩ := stands.closing hwhole
    obtain ⟨rfl, rfl⟩ := List.cons.inj heq
    rcases (visible_next (carries s) hclosing.ready run).2.2 l hl with hl | ⟨hlabel, hposition⟩
    · obtain ⟨inner, at', outer', label, heq, hname, htogether, hrest⟩ := ih hl rfl
      cases inner with
      | nil =>
        obtain ⟨rfl, rfl⟩ := List.cons.inj heq
        exact ⟨[], _, outer, label, rfl, mem_labels_append.mpr (.inl hname), htogether.behind after,
          hrest⟩
      | cons first inner =>
        obtain ⟨rfl, rfl⟩ := List.cons.inj heq
        exact ⟨_ :: inner, at', outer', label, rfl, hname, htogether, hrest⟩
    · refine ⟨[], _, outer, spot', rfl, mem_labels_append.mpr (.inr hlabel),
        .behind after (.refl _), stands, ?_, hposition.symm⟩
      cases s with
      | label name' line =>
        obtain rfl : name' = l.name := Option.some.inj hlabel
        exact ⟨line, rest, after⟩
      | _ => cases hlabel
  | @enter spot' outer' s rest kind body st stands after enters ih =>
    obtain ⟨rfl, rfl⟩ := List.cons.inj hspots
    obtain ⟨_, _, _, heq, hclosing⟩ := stands.closing hwhole
    obtain ⟨rfl, rfl⟩ := List.cons.inj heq
    obtain ⟨_, -, hwithin⟩ := hclosing.within after enters
    change l ∈ st.visible at hl
    rw [hwithin.visible] at hl
    obtain ⟨inner, at', outer', label, heq, hrest⟩ := ih hl rfl
    exact ⟨_ :: inner, at', outer', label, by rw [heq]; rfl, hrest⟩

/-! ## The rules -/

end Jumps
end LuaMachine
