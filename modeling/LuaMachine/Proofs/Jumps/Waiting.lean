import LuaMachine.Proofs.Structured.Layout
/-! # Words that wait to be finished

A jump out of a loop or to a label that is still to come is recorded in a block until it is
finished. No other word changes once the compiler is past it. So a jump to a label waits in the
innermost block, is handed from block to block, and is finished where a block has the label.

* `Generator.Appends`: words are added, and further jumps wait.
* `Generator.Fills`: the same for statements of a block, which may have labels that are waited for.
* `Generator.Waits`, `Generator.Settled`: a jump that waits for a label, and one that is finished.
* `Generator.Watches`: what becomes of one jump.
-/
set_option autoImplicit false

namespace LuaMachine

/-! ## Blocks -/

/-- A block in which further jumps wait, all of them words from some position on. -/
structure ScopeBlock.Gains (n : Nat) (b b' : ScopeBlock) : Prop where
  labels : b'.labels = b.labels
  gotos : ∀ g ∈ b.gotos, g ∈ b'.gotos
  added : ∀ g ∈ b'.gotos, g ∈ b.gotos ∨ n ≤ g.position
  breaks : ∀ m ∈ b'.breaks, m ∈ b.breaks ∨ n ≤ m

namespace ScopeBlock

variable {n n' : Nat} {b b' b'' : ScopeBlock} {bs bs' bs'' : List ScopeBlock}

theorem Gains.refl (n : Nat) (b : ScopeBlock) : b.Gains n b :=
  ⟨rfl, fun _ h => h, fun _ h => .inl h, fun _ h => .inl h⟩

theorem Gains.trans (h : b.Gains n b') (h' : b'.Gains n' b'') (hle : n ≤ n') : b.Gains n b'' where
  labels := h'.labels.trans h.labels
  gotos g hg := h'.gotos g (h.gotos g hg)
  added g hg := (h'.added g hg).elim (h.added g) fun hge => .inr (Nat.le_trans hle hge)
  breaks m hm := (h'.breaks m hm).elim (h.breaks m) fun hge => .inr (Nat.le_trans hle hge)

theorem gains_refl (n : Nat) (bs : List ScopeBlock) : List.Forall₂ (Gains n) bs bs :=
  List.forall₂_same.mpr fun b _ => .refl n b

theorem gains_trans (h : List.Forall₂ (Gains n) bs bs') (h' : List.Forall₂ (Gains n') bs' bs'')
    (hle : n ≤ n') : List.Forall₂ (Gains n) bs bs'' := by
  induction h generalizing bs'' with
  | nil =>
    cases h'
    exact .nil
  | cons hb _ ih =>
    cases h' with
    | cons hb' hrest => exact .cons (hb.trans hb' hle) (ih hrest)

theorem gains_labels (h : List.Forall₂ (Gains n) bs bs') :
    (bs'.flatMap fun b => b.labels) = bs.flatMap fun b => b.labels := by
  induction h with
  | nil => rfl
  | cons hb _ ih => rw [List.flatMap_cons, List.flatMap_cons, hb.labels, ih]

/-- The innermost block gets some jumps to labels. -/
theorem gains_modifyHead {more : List PendingJump} (hmore : ∀ g ∈ more, n ≤ g.position)
    (bs : List ScopeBlock) :
    List.Forall₂ (Gains n) bs (bs.modifyHead fun b => { b with gotos := b.gotos ++ more }) := by
  cases bs with
  | nil => exact .nil
  | cons b bs =>
    refine .cons ⟨rfl, fun g hg => List.mem_append_left _ hg, fun g hg => ?_, fun _ h => .inl h⟩
      (gains_refl n bs)
    exact (List.mem_append.mp hg).imp_right (hmore g)

/-- A word that no block waits for. -/
def Idle (n : Nat) (bs : List ScopeBlock) : Prop :=
  ∀ b ∈ bs, (∀ g ∈ b.gotos, g.position ≠ n) ∧ n ∉ b.breaks

theorem Idle.gains (h : Idle n bs) (hg : List.Forall₂ (Gains n') bs bs') (hlt : n < n') :
    Idle n bs' := by
  induction hg with
  | nil => exact h
  | @cons b b' bs bs' hb _ ih =>
    obtain ⟨⟨hgotos, hbreaks⟩, hrest⟩ := List.forall_mem_cons.mp h
    refine List.forall_mem_cons.mpr ⟨⟨fun g hmem heq => ?_, fun hmem => ?_⟩, ih hrest⟩
    · rcases hb.added g hmem with hmem | hge
      · exact hgotos g hmem heq
      · omega
    · rcases hb.breaks n hmem with hmem | hge
      · exact hbreaks hmem
      · omega

end ScopeBlock

namespace Generator

open ScopeBlock

/-- The labels that a jump back can find, those of the innermost block first. -/
def State.visible (st : State) : List PlacedLabel := st.current.blocks.flatMap fun b => b.labels

/-- Words are added and some are finished, and further jumps wait. -/
structure Appends (ns : List Nat) (st st' : State) : Prop where
  alive : st'.scopes ≠ []
  size : st.size ≤ st'.size
  code : ∀ n < st.size, n ∉ ns →
    st'.current.proto.chunk.code[n]? = st.current.proto.chunk.code[n]?
  blocks : List.Forall₂ (Gains st.size) st.current.blocks st'.current.blocks

/-- Words are added to a block, and the jumps that wait for its labels are finished. -/
structure Fills (st st' : State) : Prop where
  alive : st'.scopes ≠ []
  size : st.size ≤ st'.size
  code : ∀ n < st.size, (∀ b ∈ st.current.blocks.head?, ∀ g ∈ b.gotos, g.position ≠ n) →
    st'.current.proto.chunk.code[n]? = st.current.proto.chunk.code[n]?
  head : ∀ b ∈ st.current.blocks.head?, ∃ b' ∈ st'.current.blocks.head?,
    (∀ g ∈ b'.gotos, g ∈ b.gotos ∨ st.size ≤ g.position) ∧
      ∀ m ∈ b'.breaks, m ∈ b.breaks ∨ st.size ≤ m
  tail : List.Forall₂ (Gains st.size) st.current.blocks.tail st'.current.blocks.tail

/-- The word is a jump that waits in the innermost block for a label of this name. -/
structure Waits (name : String) (n : Nat) (st : State) : Prop where
  lt : n < st.size
  head : ∃ b ∈ st.current.blocks.head?, (∃ g ∈ b.gotos, g.name = name ∧ g.position = n) ∧
    (∀ g ∈ b.gotos, g.position = n → g.name = name) ∧ n ∉ b.breaks
  tail : Idle n st.current.blocks.tail

/-- The word is a jump to this position, and it is finished. -/
structure Settled (n t : Nat) (st : State) : Prop where
  jumps : st.JumpsTo n t
  idle : Idle n st.current.blocks

/-- A jump that waits goes on waiting, and one that is finished stays. -/
structure Watches (n : Nat) (st st' : State) : Prop where
  waits : ∀ name, Waits name n st → Waits name n st'
  settled : ∀ t, Settled n t st → Settled n t st'

variable {Good : Prototype → Prop} {ps : List Nat} {st st' st'' : State} {u : Unit}
  {t n : Nat} {name : String}

theorem State.JumpsTo.lt (h : st.JumpsTo n t) : n < st.size := by
  obtain ⟨i, hi, -⟩ := h
  exact Prototype.lt_size_of_word hi

/-- The blocks, if there is one. -/
theorem blocks_eq {bs : List ScopeBlock} {b : ScopeBlock} (h : b ∈ bs.head?) :
    bs = b :: bs.tail := by
  cases bs with
  | nil => cases h
  | cons b' bs =>
    cases h
    rfl

/-! ## Words that are added -/

namespace Appends

variable {ns ns' : List Nat}

theorem of_adds (hne : st'.scopes ≠ []) (h : st.current.Adds st'.current) : Appends [] st st' :=
  ⟨hne, h.grows.size, fun n hn _ => h.code n hn, h.blocks ▸ gains_refl _ _⟩

theorem of_step (h : Step Good ps st st' t) : Appends [] st st' :=
  .of_adds h.sound.exists_scope h.keeps.current.toAdds

theorem refl (hne : st.scopes ≠ []) : Appends [] st st :=
  ⟨hne, Nat.le_refl _, fun _ _ _ => rfl, gains_refl _ _⟩

theorem trans (h : Appends ns st st') (h' : Appends ns' st' st'') :
    Appends (ns ++ ns') st st'' where
  alive := h'.alive
  size := Nat.le_trans h.size h'.size
  code n hn hnot := by
    rw [List.mem_append, not_or] at hnot
    exact (h'.code n (Nat.lt_of_lt_of_le hn h.size) hnot.2).trans (h.code n hn hnot.1)
  blocks := gains_trans h.blocks h'.blocks h.size

/-- Words that were just added are finished. -/
theorem inner (h : Appends ns st st') (hns : ∀ n ∈ ns, st.size ≤ n) : Appends [] st st' where
  alive := h.alive
  size := h.size
  code n hn _ := h.code n hn fun hmem => Nat.not_lt_of_le (hns n hmem) hn
  blocks := h.blocks

theorem visible (h : Appends ns st st') : st'.visible = st.visible := gains_labels h.blocks

theorem head (h : Appends ns st st') {b : ScopeBlock} (hb : b ∈ st.current.blocks.head?) :
    ∃ b' ∈ st'.current.blocks.head?, b.Gains st.size b' := by
  have hblocks := h.blocks
  rw [blocks_eq hb] at hblocks
  obtain ⟨b', bs', hhead, -, heq⟩ := List.forall₂_cons_left_iff.mp hblocks
  exact ⟨b', by simp [heq], hhead⟩

theorem tail (h : Appends ns st st') :
    List.Forall₂ (Gains st.size) st.current.blocks.tail st'.current.blocks.tail := by
  have hblocks := h.blocks
  generalize st.current.blocks = bs at hblocks ⊢
  generalize st'.current.blocks = bs' at hblocks ⊢
  cases hblocks with
  | nil => exact .nil
  | cons _ hrest => exact hrest

theorem fills (h : Appends [] st st') : Fills st st' where
  alive := h.alive
  size := h.size
  code n hn _ := h.code n hn List.not_mem_nil
  head b hb := by
    obtain ⟨b', hb', hgains⟩ := h.head hb
    exact ⟨b', hb', hgains.added, hgains.breaks⟩
  tail := h.tail

theorem watches (h : Appends ns st st') (hn : n ∉ ns) : Watches n st st' where
  waits name hw := by
    obtain ⟨b, hb, ⟨g, hg, hgn⟩, hname, hbreak⟩ := hw.head
    obtain ⟨b', hb', hgains⟩ := h.head hb
    have hlt := hw.lt
    refine ⟨Nat.lt_of_lt_of_le hlt h.size, ⟨b', hb', ⟨g, hgains.gotos g hg, hgn⟩, fun g hg hn => ?_,
      fun hn => ?_⟩, hw.tail.gains h.tail hlt⟩
    · rcases hgains.added g hg with hg | hge
      · exact hname g hg hn
      · omega
    · rcases hgains.breaks n hn with hn | hge
      · exact hbreak hn
      · omega
  settled t hs := by
    obtain ⟨i, hi, hop, ht⟩ := hs.jumps
    have hlt := hs.jumps.lt
    exact ⟨⟨i, (h.code n hlt hn).trans hi, hop, ht⟩, hs.idle.gains h.blocks hlt⟩

end Appends

namespace Watches

theorem refl (n : Nat) (st : State) : Watches n st st := ⟨fun _ h => h, fun _ h => h⟩

theorem trans (h : Watches n st st') (h' : Watches n st' st'') : Watches n st st'' :=
  ⟨fun name hw => h'.waits name (h.waits name hw), fun t hs => h'.settled t (h.settled t hs)⟩

end Watches

/-! ## Single actions -/

section Single

variable {α : Type} {a : α} {line : Nat} {i : Instruction} {op : Opcode}

/-- The words and the blocks stay. -/
theorem appends_mapCurrent {f : FunctionScope → FunctionScope} (hne : st.scopes ≠ [])
    (hchunk : (f st.current).proto.chunk = st.current.proto.chunk)
    (hblocks : (f st.current).blocks = st.current.blocks) :
    Appends [] st (st.mapCurrent f) := by
  have hcurrent := State.current_mapCurrent (f := f) hne
  refine ⟨State.scopes_mapCurrent_ne hne, ?_, fun n _ _ => ?_, ?_⟩
  · refine Nat.le_of_eq ?_
    unfold State.size
    rw [hcurrent, hchunk]
  · rw [hcurrent, hchunk]
  · rw [hcurrent, hblocks]
    exact gains_refl _ _

theorem setLine_appends (h : setLine line st = .ok u st') (hne : st.scopes ≠ []) :
    Appends [] st st' := by
  simp only [setLine, modify_ok] at h
  subst h
  exact ⟨hne, Nat.le_refl _, fun _ _ _ => rfl, gains_refl _ _⟩

theorem release_appends {r : Nat} (h : release r st = .ok u st') (hne : st.scopes ≠ []) :
    Appends [] st st' := by
  obtain ⟨-, -, rfl⟩ := release_ok h
  exact appends_mapCurrent hne rfl rfl

/-- A variable may be captured in the innermost block. -/
theorem addLocal_appends {captured constant : Bool}
    (h : addLocal name captured constant st = .ok u st') (hne : st.scopes ≠ []) :
    Appends [] st st' := by
  obtain ⟨s, hadd, rfl⟩ := onScope'_ok h
  obtain ⟨-, rfl⟩ := addLocal_ok hadd
  refine ⟨State.scopes_mapCurrent_ne hne, ?_, fun n _ _ => ?_, ?_⟩
  · refine Nat.le_of_eq ?_
    unfold State.size
    rw [State.current_mapCurrent hne]
  · rw [State.current_mapCurrent hne]
  · rw [State.current_mapCurrent hne]
    cases st.current.blocks with
    | nil => exact .nil
    | cons b bs =>
      exact .cons ⟨rfl, fun _ h => h, fun _ h => .inl h, fun _ h => .inl h⟩ (gains_refl _ bs)

theorem addBinder_appends {b : Binder} (h : addBinder b st = .ok u st') (hne : st.scopes ≠ []) :
    Appends [] st st' := by
  simp only [addBinder, bind_ok, get_ok, and_assoc, exists_and_left, exists_eq_left] at h
  exact addLocal_appends h hne

theorem addBinders_appends {bs : List Binder} (h : bs.forM addBinder st = .ok u st')
    (hne : st.scopes ≠ []) : Appends [] st st' := by
  induction bs generalizing st with
  | nil =>
    simp only [List.forM_eq_forM, List.forM_nil, pure_ok] at h
    obtain ⟨-, rfl⟩ := h
    exact .refl hne
  | cons b bs ih =>
    obtain ⟨st₁, hb, h⟩ := forM_ok h
    have hfirst := addBinder_appends hb hne
    exact hfirst.trans (ih h hfirst.alive)

theorem addLoopState_appends (h : addLoopState st = .ok u st') (hne : st.scopes ≠ []) :
    Appends [] st st' := by
  simp only [addLoopState, bind_ok] at h
  obtain ⟨_, st₁, h₁, _, st₂, h₂, h₃⟩ := h
  have happ₁ := addLocal_appends h₁ hne
  have happ₂ := happ₁.trans (addLocal_appends h₂ happ₁.alive)
  exact happ₂.trans (addLocal_appends h₃ happ₂.alive)

theorem emit_appends (h : emit i st = .ok n st') (hne : st.scopes ≠ []) :
    Appends [] st st' ∧ n = st.size ∧ st'.size = n + 1 := by
  obtain ⟨rfl, rfl⟩ := emit_ok h
  have hcurrent := current_written (i := i) hne
  refine ⟨.of_adds (State.scopes_mapCurrent_ne hne) (hcurrent ▸ .written _ _ _), rfl, ?_⟩
  unfold State.size
  rw [hcurrent]
  exact FunctionScope.size_written

theorem emitAbc_appends {a b c : Nat} (h : emitAbc op a b c st = .ok u st')
    (hne : st.scopes ≠ []) : Appends [] st st' := by
  obtain ⟨n, h⟩ := emitAbc_ok h
  exact (emit_appends h hne).1

theorem closeIf_appends {captured : Bool} {level : Nat} (h : closeIf captured level st = .ok u st')
    (hne : st.scopes ≠ []) : Appends [] st st' ∧ st'.current.blocks = st.current.blocks := by
  unfold closeIf at h
  split at h
  · obtain ⟨n, h⟩ := emitAbc_ok h
    refine ⟨(emit_appends h hne).1, ?_⟩
    obtain ⟨rfl, rfl⟩ := emit_ok h
    rw [current_written hne]
    rfl
  · obtain ⟨-, rfl⟩ := pure_ok.mp h
    exact ⟨.refl hne, rfl⟩

theorem patchWithin_appends {limit : Nat} {f : Instruction → Int → Instruction}
    (h : patchWithin limit n t f st = .ok u st') (hne : st.scopes ≠ []) :
    Appends [n] st st' ∧ st'.size = st.size ∧ st'.current.blocks = st.current.blocks := by
  obtain ⟨-, rfl⟩ := patchWithin_ok h
  have hcurrent := State.current_mapCurrent
    (f := fun s => s.patched n fun i => f i (distance n t)) hne
  have hsize : (st.mapCurrent fun s => s.patched n fun i => f i (distance n t)).size = st.size := by
    rw [State.size, hcurrent, FunctionScope.size_patched]
  refine ⟨⟨State.scopes_mapCurrent_ne hne, Nat.le_of_eq hsize.symm, fun m _ hm => ?_, ?_⟩, hsize,
    ?_⟩
  · rw [hcurrent, FunctionScope.code_patched_ne (by simpa using hm)]
  · rw [hcurrent]
    exact gains_refl _ _
  · rw [hcurrent]
    rfl

theorem patchAllHere_appends {ns : List Nat} (h : ns.forM patchJumpHere st = .ok u st')
    (hne : st.scopes ≠ []) : Appends ns st st' := by
  induction ns generalizing st with
  | nil =>
    simp only [List.forM_eq_forM, List.forM_nil, pure_ok] at h
    obtain ⟨-, rfl⟩ := h
    exact .refl hne
  | cons n ns ih =>
    obtain ⟨st₁, hn, h⟩ := forM_ok h
    have hfirst := (patchWithin_appends (patchJumpHere_ok hn) hne).1
    exact hfirst.trans (ih h hfirst.alive)

theorem jumpBack_appends (h : jumpBack t st = .ok u st') (hne : st.scopes ≠ []) :
    Appends [] st st' := by
  simp only [jumpBack, bind_ok] at h
  obtain ⟨n, st₁, hjump, h⟩ := h
  obtain ⟨happ, rfl, -⟩ := emit_appends hjump hne
  exact (happ.trans (patchWithin_appends h happ.alive).1).inner fun m hm =>
    Nat.le_of_eq (List.mem_singleton.mp hm).symm

end Single

namespace Fills

theorem trans (h : Fills st st') (h' : Fills st' st'') (hne : st.current.blocks ≠ []) :
    Fills st st'' := by
  obtain ⟨b, hb⟩ : ∃ b, b ∈ st.current.blocks.head? := by
    cases hblocks : st.current.blocks with
    | nil => exact absurd hblocks hne
    | cons b bs => exact ⟨b, rfl⟩
  obtain ⟨b', hb', hgotos, hbreaks⟩ := h.head b hb
  have hle := h.size
  refine ⟨h'.alive, Nat.le_trans h.size h'.size, fun n hn hfree => ?_, fun b₀ hb₀ => ?_,
    gains_trans h.tail h'.tail h.size⟩
  · refine (h'.code n (Nat.lt_of_lt_of_le hn hle) fun b₁ hb₁ g hg heq => ?_).trans
      (h.code n hn hfree)
    obtain rfl : b' = b₁ := Option.some.inj (hb'.symm.trans hb₁)
    rcases hgotos g hg with hg | hge
    · exact hfree b hb g hg heq
    · omega
  · obtain rfl : b = b₀ := Option.some.inj (hb.symm.trans hb₀)
    obtain ⟨b'', hb'', hgotos', hbreaks'⟩ := h'.head b' hb'
    refine ⟨b'', hb'', fun g hg => ?_, fun m hm => ?_⟩
    · exact (hgotos' g hg).elim (hgotos g) fun hge => .inr (Nat.le_trans hle hge)
    · exact (hbreaks' m hm).elim (hbreaks m) fun hge => .inr (Nat.le_trans hle hge)

theorem blocks_ne_nil (h : Fills st st') (hne : st.current.blocks ≠ []) :
    st'.current.blocks ≠ [] := by
  cases hblocks : st.current.blocks with
  | nil => exact absurd hblocks hne
  | cons b bs =>
    obtain ⟨b', hb', -⟩ := h.head b (by simp [hblocks])
    rintro heq
    simp [heq] at hb'

/-- A finished jump stays when labels are met. -/
theorem settled (h : Fills st st') (hne : st.current.blocks ≠ []) (hs : Settled n t st) :
    Settled n t st' := by
  obtain ⟨i, hi, hop, ht⟩ := hs.jumps
  have hlt := hs.jumps.lt
  cases hblocks : st.current.blocks with
  | nil => exact absurd hblocks hne
  | cons b bs =>
    have hidle := hs.idle
    rw [hblocks] at hidle
    obtain ⟨⟨hgotos, hbreak⟩, hrest⟩ := List.forall_mem_cons.mp hidle
    obtain ⟨b', hb', hgotos', hbreaks'⟩ := h.head b (by simp [hblocks])
    have htail := h.tail
    rw [hblocks, List.tail_cons] at htail
    refine ⟨⟨i, (h.code n hlt fun b₀ hb₀ g hg => ?_).trans hi, hop, ht⟩, ?_⟩
    · rw [hblocks] at hb₀
      cases hb₀
      exact hgotos g hg
    · rw [blocks_eq hb']
      refine List.forall_mem_cons.mpr ⟨⟨fun g hg heq => ?_, fun hmem => ?_⟩,
        Idle.gains hrest htail hlt⟩
      · rcases hgotos' g hg with hg | hge
        · exact hgotos g hg heq
        · omega
      · rcases hbreaks' n hmem with hmem | hge
        · exact hbreak hmem
        · omega

end Fills

/-! ## Blocks that begin and end -/

theorem beginBlock_blocks {isLoop : Bool} (h : beginBlock isLoop st = .ok u st')
    (hne : st.scopes ≠ []) :
    st'.size = st.size ∧ st'.current.proto = st.current.proto ∧
      st'.current.blocks = { level := st.level, isLoop := isLoop } :: st.current.blocks := by
  obtain rfl := beginBlock_ok h
  rw [State.size, State.current_mapCurrent hne]
  exact ⟨rfl, rfl, rfl⟩

/-- What the end of a block does: the jumps that wait in it wait on in the block around it. -/
structure Hands (b : ScopeBlock) (outer : List ScopeBlock) (st st' : State) : Prop where
  alive : st'.scopes ≠ []
  size : st.size ≤ st'.size
  code : ∀ n < st.size, st'.current.proto.chunk.code[n]? = st.current.proto.chunk.code[n]?
  blocks : st'.current.blocks = outer.modifyHead fun o => { o with gotos := o.gotos ++ b.gotos }
  settled : outer = [] → b.gotos = []

theorem closeBlock_hands {b b' : ScopeBlock} {outer : List ScopeBlock}
    (h : closeBlock st = .ok b' st') (hne : st.scopes ≠ [])
    (hblocks : st.current.blocks = b :: outer) : b' = b ∧ Hands b outer st st' := by
  simp only [closeBlock, bind_ok] at h
  obtain ⟨open', st₂, hblock, _, st₃, hclose, block, st₄, hend, h⟩ := h
  obtain ⟨rfl, -⟩ := currentBlock_ok hblock
  obtain ⟨happ, hsame⟩ := closeIf_appends hclose hne
  obtain ⟨rfl, hb⟩ := endBlock_ok hend
  obtain ⟨ranges, heq⟩ := FunctionScope.endBlock_eq (hsame.trans hblocks)
  have hcurrent := State.current_mapCurrent (f := fun _ => st₃.current.endBlock.1) happ.alive
  rw [heq] at hb hcurrent
  simp only at hcurrent
  obtain rfl : block = b := hb
  simp only [scope_ok, and_assoc, exists_and_left, exists_eq_left] at h
  rw [heq, hcurrent] at h
  split at h
  next hempty =>
    obtain rfl : outer = [] := List.isEmpty_iff.mp hempty
    cases hgotos : block.gotos with
    | nil =>
      simp only [hgotos, pure_ok] at h
      obtain ⟨rfl, rfl⟩ := h
      refine ⟨rfl, State.scopes_mapCurrent_ne happ.alive, ?_, fun n hn => ?_, ?_, fun _ => hgotos⟩
      · unfold State.size
        rw [hcurrent]
        exact happ.size
      · rw [hcurrent]
        exact happ.code n hn List.not_mem_nil
      · rw [hcurrent]
        rfl
    | cons g gs => simp only [hgotos, defect_ok] at h
  next hempty =>
    simp only [bind_ok, pure_ok] at h
    obtain ⟨_, st₅, hmodify, rfl, rfl⟩ := h
    simp only [modifyBlock, modifyScope_ok] at hmodify
    subst hmodify
    have halive := State.scopes_mapCurrent_ne (f := fun _ => st₃.current.endBlock.1) happ.alive
    have hlast := State.current_mapCurrent (f := fun s => { s with
      blocks := s.blocks.modifyHead fun o => { o with gotos := o.gotos ++ b'.gotos } }) halive
    rw [heq] at hlast halive
    simp only [hcurrent] at hlast
    refine ⟨rfl, State.scopes_mapCurrent_ne halive, ?_, fun n hn => ?_, ?_,
      fun hnil => absurd (List.isEmpty_iff.mpr hnil) hempty⟩
    · unfold State.size
      rw [hlast]
      exact happ.size
    · rw [hlast]
      exact happ.code n hn List.not_mem_nil
    · rw [hlast]

namespace Hands

variable {b : ScopeBlock} {outer : List ScopeBlock}

theorem watches (h : Hands b outer st st') (hblocks : st.current.blocks = b :: outer) (n : Nat) :
    Watches n st st' where
  waits name hw := by
    obtain ⟨b₀, hb, ⟨g, hg, hgn⟩, hname, hbreak⟩ := hw.head
    rw [hblocks] at hb
    cases hb
    have htail := hw.tail
    rw [hblocks, List.tail_cons] at htail
    cases houter : outer with
    | nil =>
      rw [h.settled houter] at hg
      cases hg
    | cons o rest =>
      rw [houter] at htail
      obtain ⟨⟨hgotos, hbreaks⟩, hrest⟩ := List.forall_mem_cons.mp htail
      have hafter := h.blocks
      rw [houter, List.modifyHead_cons] at hafter
      refine ⟨Nat.lt_of_lt_of_le hw.lt h.size, ⟨{ o with gotos := o.gotos ++ b.gotos },
        by rw [hafter]; rfl, ⟨g, List.mem_append_right _ hg, hgn⟩, fun g' hg' hn => ?_, hbreaks⟩,
        by rwa [hafter]⟩
      rcases List.mem_append.mp hg' with hg' | hg'
      · exact absurd hn (hgotos g' hg')
      · exact hname g' hg' hn
  settled t hs := by
    obtain ⟨i, hi, hop, ht⟩ := hs.jumps
    have hidle := hs.idle
    rw [hblocks] at hidle
    obtain ⟨⟨hgotos, -⟩, hrest⟩ := List.forall_mem_cons.mp hidle
    refine ⟨⟨i, (h.code n hs.jumps.lt).trans hi, hop, ht⟩, ?_⟩
    rw [h.blocks]
    cases outer with
    | nil => exact hrest
    | cons o rest =>
      obtain ⟨⟨hgotos', hbreaks'⟩, hrest'⟩ := List.forall_mem_cons.mp hrest
      refine List.forall_mem_cons.mpr ⟨⟨fun g hg => ?_, hbreaks'⟩, hrest'⟩
      rcases List.mem_append.mp hg with hg | hg
      · exact hgotos' g hg
      · exact hgotos g hg

/-- The jumps that leave the block are finished behind it. -/
theorem leaves {ns : List Nat} (h : Hands b outer st st') (hblocks : st.current.blocks = b :: outer)
    (hafter : Appends ns st' st'') (hns : n ∈ ns → n ∈ b.breaks) : Watches n st st'' where
  waits name hw := by
    obtain ⟨b₀, hb, -, -, hbreak⟩ := hw.head
    rw [hblocks] at hb
    cases hb
    exact (hafter.watches fun hn => hbreak (hns hn)).waits name
      ((h.watches hblocks n).waits name hw)
  settled t hs := by
    have hidle := hs.idle
    rw [hblocks] at hidle
    have hbreak := (List.forall_mem_cons.mp hidle).1.2
    exact (hafter.watches fun hn => hbreak (hns hn)).settled t ((h.watches hblocks n).settled t hs)

/-- A whole block adds words to the block around it. -/
theorem appends {isLoop : Bool} {st₁ st₂ : State} (hbegin : beginBlock isLoop st = .ok u st₁)
    (hne : st.scopes ≠ []) (hfill : Fills st₁ st₂) (hblocks : st₂.current.blocks = b :: outer)
    (h : Hands b outer st₂ st') : Appends [] st st' ∧ ∀ m ∈ b.breaks, st.size ≤ m := by
  obtain ⟨hsize₁, hproto₁, hblocks₁⟩ := beginBlock_blocks hbegin hne
  obtain ⟨b', hb', hgotos, hbreaks⟩ := hfill.head _ (by rw [hblocks₁]; rfl)
  rw [hblocks] at hb'
  cases hb'
  have htail := hfill.tail
  rw [hblocks, hblocks₁, List.tail_cons, List.tail_cons, hsize₁] at htail
  rw [hsize₁] at hgotos hbreaks
  have hle := hfill.size
  rw [hsize₁] at hle
  refine ⟨⟨h.alive, Nat.le_trans hle h.size, fun n hn _ => ?_, ?_⟩, fun m hm => ?_⟩
  · refine (h.code n (Nat.lt_of_lt_of_le hn hle)).trans
      ((hfill.code n (by omega) fun b₀ hb₀ g hg => ?_).trans ?_)
    · rw [hblocks₁] at hb₀
      cases hb₀
      cases hg
    · rw [hproto₁]
  · rw [h.blocks]
    exact gains_trans htail (gains_modifyHead (fun g hg => (hgotos g hg).resolve_left nofun) outer)
      (Nat.le_refl _)
  · exact (hbreaks m hm).resolve_left nofun

end Hands

/-! ## Jumps out of loops and to labels -/

theorem gains_withBreak {k : Nat} (hle : k ≤ n) (bs : List ScopeBlock) :
    List.Forall₂ (Gains k) bs (withBreak n bs) := by
  induction bs with
  | nil => exact .nil
  | cons b bs ih =>
    unfold withBreak at ih ⊢
    cases hloop : b.isLoop with
    | true =>
      simp only [List.takeWhile_cons, hloop, Bool.not_true, Bool.false_eq_true, if_false,
        List.nil_append, List.length_nil, List.drop_zero, List.modifyHead_cons]
      refine .cons ⟨rfl, fun _ h => h, fun _ h => .inl h, fun m hm => ?_⟩ (gains_refl k bs)
      rcases List.mem_append.mp hm with hm | hm
      · exact .inl hm
      · rw [List.mem_singleton.mp hm]
        exact .inr hle
    | false =>
      simp only [List.takeWhile_cons, hloop, Bool.not_false, if_true, List.length_cons,
        List.drop_succ_cons, List.cons_append]
      exact .cons (.refl k b) ih

theorem compileBreak_appends {line : Nat} (h : compileBreak line st = .ok u st')
    (hne : st.scopes ≠ []) : Appends [] st st' := by
  simp only [compileBreak, bind_ok, scope_ok, and_assoc, exists_and_left, exists_eq_left] at h
  obtain ⟨_, st₁, hline, h⟩ := h
  have happ₁ := setLine_appends hline hne
  cases hloop : st₁.current.innermostLoop with
  | none => simp only [hloop, defect_ok] at h
  | some loop =>
    simp only [hloop, bind_ok, scope_ok, modifyScope_ok, and_assoc, exists_and_left,
      exists_eq_left] at h
    obtain ⟨_, st₂, hclose, jump, st₃, hjump, rfl⟩ := h
    have happ₂ := happ₁.trans (closeIf_appends hclose happ₁.alive).1
    obtain ⟨happ₃', rfl, -⟩ := emit_appends hjump happ₂.alive
    have happ₃ := happ₂.trans happ₃'
    have hcurrent := State.current_mapCurrent
      (f := fun s => { s with blocks := withBreak st₂.size s.blocks }) happ₃.alive
    refine ⟨State.scopes_mapCurrent_ne happ₃.alive, ?_, fun n hn _ => ?_, ?_⟩
    · unfold State.size
      rw [hcurrent]
      exact happ₃.size
    · rw [hcurrent]
      exact happ₃.code n hn List.not_mem_nil
    · rw [hcurrent]
      exact gains_trans happ₃.blocks (gains_withBreak happ₂.size _) (Nat.le_refl _)

/-- What waits was written before. -/
theorem idle_of_le (hs : Sound Good ps st) (hle : st.size ≤ n) : Idle n st.current.blocks := by
  intro b hb
  have hsound := (hs.current.blocks b hb).1
  have hlt : ∀ m, st.current.proto.opcodeAt? m = some .jump → m < st.size := fun m hop => by
    obtain ⟨i, hi, -⟩ := Prototype.opcodeAt?_eq_some_iff.mp hop
    exact Prototype.lt_size_of_word hi
  refine ⟨fun g hg heq => ?_, fun hn => ?_⟩
  · have hpos := hlt _ (hsound.gotos g hg).1
    omega
  · have hpos := hlt _ (hsound.breaks n hn)
    omega

theorem modifyBlock_blocks {f : ScopeBlock → ScopeBlock} (h : modifyBlock f st = .ok u st')
    (hne : st.scopes ≠ []) :
    st'.current.proto = st.current.proto ∧ st'.size = st.size ∧
      st'.current.blocks = st.current.blocks.modifyHead f := by
  simp only [modifyBlock, modifyScope_ok] at h
  subst h
  unfold State.size
  rw [State.current_mapCurrent hne]
  exact ⟨rfl, rfl, rfl⟩

/-- A jump back is finished at once, and another one waits. -/
theorem compileGoto_appends {line : Nat} (h : compileGoto name line st = .ok u st')
    (hs : Sound Good ps st) (hne : st.current.blocks ≠ []) :
    Appends [] st st' ∧ ∃ n, st'.size = n + 1 ∧ st.size ≤ n ∧
      ((∃ l ∈ st.visible, l.name = name ∧ Settled n l.position st') ∨
        ((∀ l ∈ st.visible, l.name ≠ name) ∧ Waits name n st')) := by
  simp only [compileGoto, bind_ok, scope_ok, and_assoc, exists_and_left, exists_eq_left] at h
  obtain ⟨_, st₁, hline, h⟩ := h
  have hstep₁ := setLine_step hline hs
  have happ₁ := Appends.of_step hstep₁
  have hvisible : (st₁.current.blocks.flatMap fun b => b.labels) = st.visible := happ₁.visible
  cases hl : (st₁.current.blocks.flatMap fun b => b.labels).find? fun l => l.name == name with
  | some l =>
    simp only [hl, bind_ok] at h
    obtain ⟨_, st₂, hclose, h⟩ := h
    have hmove₂ := closeIf_moves hclose hstep₁.sound fun hreach =>
      lt_of_reaches hreach fun r hr => highestCaptured_lt hstep₁.sound hr
    have happ₂ := happ₁.trans (closeIf_appends hclose happ₁.alive).1
    simp only [jumpBack, bind_ok] at h
    obtain ⟨n, st₃, hjump, h⟩ := h
    obtain ⟨hmove₃, hop⟩ := emitJump_moves hjump hmove₂.sound
    obtain ⟨happ₃, rfl, hsize₃⟩ := emit_appends hjump happ₂.alive
    obtain ⟨hpatch, hsize, hblocks⟩ := patchWithin_appends h happ₃.alive
    refine ⟨((happ₂.trans happ₃).trans hpatch).inner fun n hn => ?_, _, hsize.trans hsize₃,
      happ₂.size, .inl ⟨l, ?_, ?_, ?_, ?_⟩⟩
    · rw [List.mem_singleton.mp hn]
      exact happ₂.size
    · exact hvisible ▸ List.mem_of_find?_eq_some hl
    · simpa using List.find?_some hl
    · exact patchJump_jumpsTo h hmove₃.sound hop
    · rw [hblocks, (emit_adds hjump hmove₂.sound).blocks]
      exact idle_of_le hmove₂.sound (Nat.le_refl _)
  | none =>
    simp only [hl, bind_ok] at h
    obtain ⟨n, st₂, hjump, h⟩ := h
    obtain ⟨happ₂', rfl, hsize₂⟩ := emit_appends hjump happ₁.alive
    have happ₂ := happ₁.trans happ₂'
    obtain ⟨hproto, hsize, hblocks⟩ := modifyBlock_blocks h happ₂.alive
    rw [(emit_adds hjump hstep₁.sound).blocks] at hblocks
    have halive : st'.scopes ≠ [] := by
      simp only [modifyBlock, modifyScope_ok] at h
      subst h
      exact State.scopes_mapCurrent_ne happ₂.alive
    have hidle := idle_of_le hstep₁.sound (Nat.le_refl _)
    refine ⟨⟨halive, ?_, fun n hn _ => ?_, ?_⟩, _, hsize.trans hsize₂, happ₁.size,
      .inr ⟨?_, ?_, ?_, ?_⟩⟩
    · rw [hsize]
      exact happ₂.size
    · rw [hproto]
      exact happ₂.code n hn List.not_mem_nil
    · rw [hblocks]
      refine gains_trans happ₁.blocks (gains_modifyHead (fun g hg => ?_) _) (Nat.le_refl _)
      rw [List.mem_singleton.mp hg]
      exact happ₁.size
    · rw [← hvisible]
      intro l hmem heq
      simpa [heq] using List.find?_eq_none.mp hl l hmem
    · rw [hsize]
      exact Nat.lt_of_lt_of_eq (Nat.lt_succ_self _) hsize₂.symm
    · rw [hblocks]
      have hne₁ : st₁.current.blocks ≠ [] := happ₁.fills.blocks_ne_nil hne
      cases hbs : st₁.current.blocks with
      | nil => exact absurd hbs hne₁
      | cons b bs =>
        rw [hbs] at hidle
        obtain ⟨⟨hgotos, hbreak⟩, -⟩ := List.forall_mem_cons.mp hidle
        refine ⟨_, rfl, ⟨_, List.mem_append_right _ (List.mem_singleton_self _), rfl, rfl⟩,
          fun g hg hn => ?_, hbreak⟩
        rcases List.mem_append.mp hg with hg | hg
        · exact absurd hn (hgotos g hg)
        · rw [List.mem_singleton.mp hg]
    · rw [hblocks, List.tail_modifyHead]
      exact fun b hb => hidle b (List.mem_of_mem_tail hb)

/-- Jumps to labels that are finished together. -/
theorem patchGotos_patches {gs : List PendingJump}
    (h : (gs.forM fun g => patchJump g.position t) st = .ok u st') (hs : Sound Good ps st)
    (hgs : ∀ g ∈ gs, st.current.proto.opcodeAt? g.position = some .jump)
    (ht : st.current.proto.Landing t) :
    Patches (gs.map fun g => g.position) st st' ∧ ∀ g ∈ gs, st'.JumpsTo g.position t := by
  induction gs generalizing st with
  | nil =>
    simp only [List.forM_eq_forM, List.forM_nil, pure_ok] at h
    obtain ⟨-, rfl⟩ := h
    exact ⟨.refl _, by simp⟩
  | cons g gs ih =>
    obtain ⟨st₁, hg, h⟩ := forM_ok h
    have hop := hgs g List.mem_cons_self
    have hmove := patchJump_moves hg hs hop ht
    have hpatch := patchWithin_patches hg hs
    obtain ⟨hrest, hjumps⟩ := ih h hmove.sound
      (fun g' hg' => hmove.grows.opcodeAt? (hgs g' (List.mem_cons_of_mem g hg')))
      (hmove.grows.landing ht)
    refine ⟨hpatch.trans hrest, fun g' hg' => ?_⟩
    by_cases hmem : g'.position ∈ gs.map fun g => g.position
    · obtain ⟨g'', hg'', heq⟩ := List.mem_map.mp hmem
      exact heq ▸ hjumps g'' hg''
    · obtain rfl : g' = g := (List.mem_cons.mp hg').resolve_right fun h =>
        hmem (List.mem_map_of_mem h)
      obtain ⟨i, hi, hop', ht'⟩ := patchJump_jumpsTo hg hs hop
      exact ⟨i, (hrest.other _ hmem).trans hi, hop', ht'⟩

theorem currentBlock_eq {b b' : ScopeBlock} {bs : List ScopeBlock}
    (h : currentBlock st = .ok b st') (hblocks : st.current.blocks = b' :: bs) : b = b' := by
  simp only [currentBlock, bind_ok, scope_ok, pure_ok, and_assoc, exists_and_left,
    exists_eq_left] at h
  rw [h.1, hblocks, List.headD_cons]

/-- What a label does: it can be found from now on, and the jumps that waited for it go there. -/
structure Meets (name : String) (st st' : State) : Prop where
  fills : Fills st st'
  visible : ∃ level, ∀ l, l ∈ st'.visible ↔ l ∈ st.visible ∨ l = ⟨name, st.size, level⟩
  waits : ∀ name' n, name' ≠ name → Waits name' n st → Waits name' n st'
  settled : ∀ n, Waits name n st → Settled n st.size st'

theorem compileLabel_meets {line : Nat} {atEnd : Bool}
    (h : compileLabel name line atEnd st = .ok u st') (hs : Sound Good ps st)
    (hne : st.current.blocks ≠ []) : Meets name st st' := by
  simp only [compileLabel, bind_ok, scope_ok, here_ok, and_assoc, exists_and_left,
    exists_eq_left] at h
  obtain ⟨_, st₁, hline, block, st₂, hblock, _, st₃, hclose, _, st₄, hmodify, h⟩ := h
  have hstep₁ := setLine_step hline hs
  have hsize₁ : st₁.size = st.size := setLine_size hline
  have hsound := currentBlock_sound hblock hstep₁.sound
  obtain ⟨rfl, -⟩ := currentBlock_ok hblock
  obtain ⟨b, bs, hbs⟩ := List.exists_cons_of_ne_nil hne
  have hbs₁ := hstep₁.keeps.current.blocks.trans hbs
  obtain rfl := currentBlock_eq hblock hbs₁
  -- the label is where the next word would have been
  have harriving : ∀ g ∈ block.gotos.filter fun g => g.name == name,
      g ∈ block.gotos ∧ g.name = name := fun g hg => by simpa using hg
  have hmove₃ := closeIf_moves hclose hstep₁.sound fun hany => by
    obtain ⟨g, hg, hreach⟩ := List.any_eq_true.mp hany
    exact lt_of_reaches hreach (hsound.gotos g (harriving g hg).1).2
  have happ₁ := Appends.of_step hstep₁
  obtain ⟨happ₃', hsame₃⟩ := closeIf_appends hclose happ₁.alive
  have happ₃ := happ₁.trans happ₃'
  have hbs₃ := hsame₃.trans hbs₁
  obtain ⟨hproto₄, hsize₄, hbs₄⟩ := modifyBlock_blocks hmodify hmove₃.sound.exists_scope
  rw [hbs₃, List.modifyHead_cons] at hbs₄
  have hland := hmove₃.grows.landing hstep₁.sound.current.settled
  have hmove₄ := modifyBlock_moves hmodify hmove₃.sound fun b _ => ⟨rfl, rfl, fun hb =>
    { hb with
      labels := fun l hl => by
        rcases List.mem_append.mp hl with hl | hl
        · exact hb.labels l hl
        · obtain rfl := List.mem_singleton.mp hl
          exact hland
      gotos := fun g hg => hb.gotos g (List.mem_of_mem_filter hg) }⟩
  obtain ⟨hpatch, hjumps⟩ := patchGotos_patches h hmove₄.sound
    (fun g hg => (hmove₃.trans hmove₄).grows.opcodeAt? (hsound.gotos g (harriving g hg).1).1)
    (hmove₄.grows.landing hland)
  have hbs' := hpatch.blocks.trans hbs₄
  have hsize' : st.size ≤ st'.size := by
    rw [hpatch.size, hsize₄]
    exact happ₃.size
  have hgoes : ∀ g ∈ block.gotos.filter (fun g => g.name == name), st'.JumpsTo g.position st.size :=
    hsize₁ ▸ hjumps
  have hmove' := patchGotos_moves h hmove₄.sound
    (fun g hg => (hmove₃.trans hmove₄).grows.opcodeAt? (hsound.gotos g (harriving g hg).1).1)
    (hmove₄.grows.landing hland)
  refine ⟨⟨hmove'.sound.exists_scope, hsize', fun n hn hfree => ?_, fun b hb => ?_, ?_⟩, ?_,
    fun name' n hne' hw => ?_, fun n hw => ?_⟩
  · rw [hpatch.other n, hproto₄, happ₃.code n hn List.not_mem_nil]
    rintro hmem
    obtain ⟨g, hg, heq⟩ := List.mem_map.mp hmem
    exact hfree block (by rw [hbs]; rfl) g (harriving g hg).1 heq
  · rw [hbs] at hb
    cases hb
    rw [hbs']
    exact ⟨_, rfl, fun g hg => .inl (List.mem_of_mem_filter hg), fun m hm => .inl hm⟩
  · rw [hbs, hbs']
    exact gains_refl _ bs
  · refine ⟨if atEnd then block.level else st₂.current.localsLevel, fun l => ?_⟩
    rw [← hsize₁]
    unfold State.visible
    rw [hbs, hbs']
    simp only [List.flatMap_cons, List.mem_append, List.mem_singleton]
    grind
  · obtain ⟨b, hb, ⟨g, hg, hgn⟩, hname, hbreak⟩ := hw.head
    have htail := hw.tail
    rw [hbs] at hb htail
    cases hb
    refine ⟨Nat.lt_of_lt_of_le hw.lt hsize', ?_, by rwa [hbs']⟩
    rw [hbs']
    refine ⟨_, rfl, ⟨g, List.mem_filter.mpr ⟨hg, ?_⟩, hgn⟩, fun g' hg' hn => ?_, hbreak⟩
    · rw [hgn.1]
      exact bne_iff_ne.mpr hne'
    · exact hname g' (List.mem_of_mem_filter hg') hn
  · obtain ⟨b, hb, ⟨g, hg, rfl, rfl⟩, hname, hbreak⟩ := hw.head
    have htail := hw.tail
    rw [hbs] at hb htail
    cases hb
    refine ⟨hgoes g (List.mem_filter.mpr ⟨hg, by simp⟩), ?_⟩
    rw [hbs']
    refine List.forall_mem_cons.mpr ⟨⟨fun g' hg' heq => ?_, hbreak⟩, htail⟩
    obtain ⟨hg', hne'⟩ := List.mem_filter.mp hg'
    exact bne_iff_ne.mp hne' (hname g' hg' heq)

end Generator
end LuaMachine
