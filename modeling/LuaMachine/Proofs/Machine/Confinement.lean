import LuaMachine.Proofs.Flow.Segments
import LuaMachine.Proofs.Machine.Answering
/-! # Execution among the words of an expression

A function that performs words which stay among themselves is always at one of them, or in a function
that it has called, until it goes on behind them. So what it does can be divided where the words can.
The upvalues that are open for registers above its variables are those of functions that it has
called, and none is left when they have returned.

* `Machine.Clears`: what holds at any time.
* `Machine.Clears.advances`: one iteration.
* `Machine.Poised`: what holds whenever the function itself is about to go on.
* `Machine.Poised.split`: a part of the words, and then the others.
-/
set_option autoImplicit false

namespace LuaMachine

theorem Prototype.Confined.refl (p : Prototype) (n : Nat) : p.Confined n n :=
  ⟨Nat.le_refl n, fun _ _ hk hlt => absurd hlt (Nat.not_lt.mpr hk),
    fun _ hk hlt => absurd hlt (Nat.not_lt.mpr hk)⟩

theorem Prototype.Confined.append {p : Prototype} {n k n' : Nat} (h : p.Confined n k)
    (h' : p.Confined k n') : p.Confined n n' where
  le := Nat.le_trans h.le h'.le
  goes j t hj hlt hgoes := by
    have hle := h.le
    have hle' := h'.le
    rcases Nat.lt_or_ge j k with hjk | hjk
    · have hbound := h.goes j t hj hjk hgoes
      omega
    · have hbound := h'.goes j t hjk hlt hgoes
      omega
  stays j hj hlt := by
    rcases Nat.lt_or_ge j k with hjk | hjk
    · exact h.stays j hj hjk
    · exact h'.stays j hjk hlt

/-- A word that goes on with the next one. -/
theorem Prototype.Confined.word {p : Prototype} {n : Nat} {i : Instruction} {op : Opcode}
    (hi : p.chunk.code[n]? = some i) (hop : i.opcode? = some op) (htargets : i.targets n op = [])
    (hplain : op ≠ .ret ∧ op ≠ .setList) : p.Confined n (n + 1) where
  le := Nat.le_succ n
  goes k t hk hlt hgoes := by
    obtain rfl : k = n := by omega
    rcases hgoes with ⟨i', op', hi', hop', ht⟩ | ⟨op', hop', -, -, rfl⟩
    · cases hi.symm.trans hi'
      cases hop.symm.trans hop'
      rw [htargets] at ht
      cases ht
    · obtain ⟨i', hi', hop'⟩ := Prototype.opcodeAt?_eq_some_iff.mp hop'
      cases hi.symm.trans hi'
      cases hop.symm.trans hop'
      rw [if_neg hplain.2]
      omega
  stays k hk hlt hret := by
    obtain rfl : k = n := by omega
    obtain ⟨i', hi', hop'⟩ := Prototype.opcodeAt?_eq_some_iff.mp hret
    cases hi.symm.trans hi'
    exact hplain.1 (Option.some.inj (hop.symm.trans hop'))

theorem Lowering.Lays.confined {p : Prototype} {home : String → Home} {last : Option Nat}
    {es : List Expr} {t n n' : Nat} (h : Lowering.Lays p home last es t n n') : p.Confined n n' := by
  induction h with
  | nil => exact .refl p _
  | last _ _ hconfined => exact hconfined
  | cons _ _ hconfined _ _ ih => exact hconfined.append ih

theorem Lowering.Pads.confined {p : Prototype} {r k n n' : Nat} (h : Lowering.Pads p r k n n') :
    p.Confined n n' := by
  unfold Lowering.Pads at h
  split at h
  · obtain ⟨⟨i, hi, hop, -⟩, rfl⟩ := h
    exact .word hi hop rfl ⟨nofun, nofun⟩
  · exact h ▸ .refl p n

namespace Machine

variable {code : Nat → Prototype} {f g : Frame} {m m' : Machine} {d low level first last n k n' : Nat}

/-! ## At any time -/

/-- The frame with this number goes on somewhere among the words, and an upvalue of a slot from `low`
on is open for a frame above it. -/
structure Clears (f : Frame) (d low first last : Nat) (m : Machine) : Prop where
  frame : ∃ g, m.frames[d]? = some g ∧ f.Same g ∧ first ≤ g.next ∧ g.next ≤ last
  above : ∀ u ∈ m.openUpvalues, low ≤ u.1 → ∃ e g, d < e ∧ m.frames[e]? = some g ∧ g.base ≤ u.1

theorem Clears.alive (h : Clears f d low first last m) : d < m.frames.size := by
  obtain ⟨g, hg, -⟩ := h.frame
  exact (Array.getElem?_eq_some_iff.mp hg).1

/-- Where the frame is the innermost one. -/
theorem Clears.innermost (h : Clears f d low first last m) (hback : m.frames.back? = some g)
    (hsize : m.frames.size = d + 1) : f.Same g ∧ first ≤ g.next ∧ g.next ≤ last := by
  obtain ⟨g', hg', hrest⟩ := h.frame
  have hlast := back?_eq_some_iff.mp hback
  rw [hsize, Nat.add_sub_cancel] at hlast
  cases hlast.symm.trans hg'
  exact hrest

/-- The frames are those of before, but for the innermost one, which goes on elsewhere. -/
theorem Clears.modified (h : Clears f d low first last m) (ha : Active code g m) {φ : Frame → Frame}
    (hsame : g.Same (φ g))
    (hnext : m.frames.size = d + 1 → first ≤ (φ g).next ∧ (φ g).next ≤ last) :
    (∃ g', (m.frames.modify (m.frames.size - 1) φ)[d]? = some g' ∧ f.Same g' ∧ first ≤ g'.next ∧
      g'.next ≤ last) ∧
    ∀ e g', d < e → m.frames[e]? = some g' →
      ∃ g'', (m.frames.modify (m.frames.size - 1) φ)[e]? = some g'' ∧ g''.base = g'.base := by
  have halive := h.alive
  refine ⟨?_, fun e g' _ hg' => ?_⟩
  · obtain ⟨g', hg', hsame', hbounds⟩ := h.frame
    rw [ha.modify_get]
    split
    next heq =>
      rw [heq] at hg'
      cases ha.frame_get.symm.trans hg'
      exact ⟨_, rfl, hsame'.trans hsame, hnext (by omega)⟩
    next => exact ⟨g', hg', hsame', hbounds⟩
  · rw [ha.modify_get]
    split
    next heq =>
      rw [heq] at hg'
      cases ha.frame_get.symm.trans hg'
      exact ⟨_, rfl, by rw [hsame]⟩
    next => exact ⟨g', hg', rfl⟩

/-- One iteration, while the function has not come to the word behind the others. -/
theorem Clears.advances (h : Clears f d low first last m) (hheedful : m.Heedful)
    (hconfined : f.prototype.Confined first last)
    (hmild : ∀ n, first ≤ n → n < last → ∀ j, low ≤ j → ¬f.Takes n j)
    (hnot : ¬Stands d last m) (hadvances : Advances m m') : Clears f d low first last m' := by
  obtain ⟨code, g, ha⟩ := hheedful.active
  have halive := h.alive
  -- the word of the function itself, where it is the innermost one
  have hinner : m.frames.size = d + 1 → f.Same g ∧ first ≤ g.next ∧ g.next < last := fun hsize => by
    obtain ⟨hsame, hle, hle'⟩ := h.innermost ha.back hsize
    refine ⟨hsame, hle, Nat.lt_of_le_of_ne hle' fun heq => hnot ⟨hsize, g, ha.back, heq⟩⟩
  have hgoes : ∀ t, g.prototype.Goes g.next t → m.frames.size = d + 1 → first ≤ t ∧ t ≤ last := by
    intro t ht hsize
    obtain ⟨hsame, hle, hlt⟩ := hinner hsize
    rw [hsame] at ht
    exact hconfined.goes _ t hle hlt ht
  cases hadvances.turned ha with
  | @acts i op hi hop hplain heffect =>
    obtain ⟨t, stop, ht, -, hframes⟩ := heffect.moves
    obtain ⟨hframe, habove⟩ := h.modified ha (φ := fun g => { g with next := t, open' := stop }) rfl
      (hgoes t ht)
    rw [← hframes] at hframe habove
    refine ⟨hframe, fun u hu hle => ?_⟩
    rcases heffect.opened u hu with ⟨hold, -⟩ | htakes
    · obtain ⟨e, g', he, hg', hbase⟩ := h.above u hold hle
      obtain ⟨g'', hg'', hbase'⟩ := habove e g' he hg'
      exact ⟨e, g'', he, hg'', hbase' ▸ hbase⟩
    · by_cases hsize : m.frames.size = d + 1
      · obtain ⟨hsame, hle', hlt⟩ := hinner hsize
        refine absurd ?_ (hmild _ hle' hlt u.1 hle)
        rw [hsame] at htakes
        exact htakes
      · have he : d < m.frames.size - 1 := by omega
        obtain ⟨g', hg', hbase⟩ := habove _ g he ha.frame_get
        exact ⟨_, g', he, hg', hbase ▸ htakes.1⟩
  | @calls i op hi hop hcall hanswered =>
    have hnext : g.prototype.Goes g.next (g.next + 1) := by
      refine .inr ⟨op, Prototype.opcodeAt?_eq_some_iff.mpr ⟨i, hi, hop⟩, ?_, ?_, ?_⟩
      · rcases hcall with rfl | rfl <;> nofun
      · rcases hcall with rfl | rfl <;> nofun
      · rw [if_neg (by rcases hcall with rfl | rfl <;> nofun)]
    obtain ⟨hframe, habove⟩ := h.modified ha (φ := fun g => { g with next := g.next + 1 }) rfl
      (hgoes _ hnext)
    have hsize := advanced_size m
    cases hanswered with
    | enters hframes _ _ _ _ _ hopened =>
      refine ⟨?_, fun u hu hle => ?_⟩
      · obtain ⟨g', hg', hrest⟩ := hframe
        exact ⟨g', by rw [hframes, Array.getElem?_push, if_neg (by omega)]; exact hg', hrest⟩
      · obtain ⟨e, g', he, hg', hbase⟩ := h.above u (hopened ▸ hu) hle
        have hlt := (Array.getElem?_eq_some_iff.mp hg').1
        obtain ⟨g'', hg'', hbase'⟩ := habove e g' he hg'
        exact ⟨e, g'', he, by rw [hframes, Array.getElem?_push, if_neg (by omega)]; exact hg'',
          hbase' ▸ hbase⟩
    | @delivers stop hframes _ hopened =>
      obtain ⟨hframe, habove⟩ := h.modified ha
        (φ := fun g => { g with next := g.next + 1, open' := stop }) rfl (hgoes _ hnext)
      have heq : m'.frames =
          m.frames.modify (m.frames.size - 1) fun g => { g with next := g.next + 1, open' := stop } := by
        rw [hframes, hsize, advanced, modify_back]
        rfl
      rw [← heq] at hframe habove
      refine ⟨hframe, fun u hu hle => ?_⟩
      obtain ⟨e, g', he, hg', hbase⟩ := h.above u (hopened ▸ hu) hle
      obtain ⟨g'', hg'', hbase'⟩ := habove e g' he hg'
      exact ⟨e, g'', he, hg'', hbase' ▸ hbase⟩
  | @returns i count hi hop hframes hopened hslots =>
    -- the function itself does not return
    have hsize : m.frames.size ≠ d + 1 := fun hsize => by
      obtain ⟨hsame, hle, hlt⟩ := hinner hsize
      refine hconfined.stays _ hle hlt (Prototype.opcodeAt?_eq_some_iff.mpr ⟨i, ?_, hop⟩)
      rw [hsame] at hi
      exact hi
    have hget : ∀ (e : Nat) (g' : Frame), e + 1 < m.frames.size → m.frames[e]? = some g' →
        ∃ stop, m'.frames[e]? = some { g' with open' := stop } := by
      intro e g' he hg'
      have hpop : m.frames.pop[e]? = some g' := by
        rw [Array.getElem?_pop, if_pos (by omega)]
        exact hg'
      rw [hframes]
      split
      · rw [Array.getElem?_modify]
        split
        · exact ⟨_, by rw [hpop]; rfl⟩
        · exact ⟨g'.open', hpop⟩
      · exact ⟨g'.open', hpop⟩
    refine ⟨?_, fun u hu hle => ?_⟩
    · obtain ⟨g', hg', hsame, hbounds⟩ := h.frame
      obtain ⟨stop, hget'⟩ := hget d g' (by omega) hg'
      exact ⟨_, hget', hsame.trans rfl, hbounds⟩
    · obtain ⟨hold, hlt⟩ := (hopened u).mp hu
      obtain ⟨e, g', he, hg', hbase⟩ := h.above u hold hle
      have hlt' := (Array.getElem?_eq_some_iff.mp hg').1
      have hne : e ≠ m.frames.size - 1 := fun heq => by
        rw [heq] at hg'
        cases ha.frame_get.symm.trans hg'
        omega
      obtain ⟨stop, hget'⟩ := hget e g' (by omega) hg'
      exact ⟨e, _, he, hget', hbase⟩

/-! ## Where the function goes on -/

/-- The function is about to perform a word, and no upvalue is open for a register from `level` on. -/
structure Poised (f : Frame) (d level n : Nat) (m : Machine) : Prop where
  heedful : m.Heedful
  orderly : m.Orderly
  stands : Stands d n m
  frame : ∃ g, m.frames[d]? = some g ∧ f.Same g
  unopened : ∀ u ∈ m.openUpvalues, u.1 < f.base + level

/-- The function is the innermost one. -/
theorem Poised.active (h : Poised f d level n m) :
    ∃ code g, Active code g m ∧ f.Same g ∧ g.next = n := by
  obtain ⟨hsize, g, hback, hnext⟩ := h.stands
  obtain ⟨code, g', ha⟩ := h.heedful.active
  cases hback.symm.trans ha.back
  obtain ⟨g', hg', hsame⟩ := h.frame
  have hlast := ha.frame_get
  rw [hsize, Nat.add_sub_cancel] at hlast
  cases hlast.symm.trans hg'
  exact ⟨code, g, ha, hsame, hnext⟩

theorem Poised.clears (h : Poised f d level first m) (hle : first ≤ last) :
    Clears f d (f.base + level) first last m := by
  obtain ⟨code, g, ha, hsame, hnext⟩ := h.active
  have hlast := ha.frame_get
  rw [h.stands.1, Nat.add_sub_cancel] at hlast
  exact ⟨⟨g, hlast, hsame, by omega, by omega⟩,
    fun u hu hle => absurd (h.unopened u hu) (Nat.not_lt.mpr hle)⟩

theorem Clears.poised (h : Clears f d (f.base + level) first last m) (hheedful : m.Heedful)
    (horderly : m.Orderly) (hstands : Stands d n m) : Poised f d level n m := by
  refine ⟨hheedful, horderly, hstands, ?_, fun u hu => Nat.lt_of_not_le fun hle => ?_⟩
  · obtain ⟨g, hg, hsame, -⟩ := h.frame
    exact ⟨g, hg, hsame⟩
  · obtain ⟨e, g, he, hg, -⟩ := h.above u hu hle
    have hlt := (Array.getElem?_eq_some_iff.mp hg).1
    have hsize := hstands.1
    omega

/-- Nothing is performed that is behind already. -/
theorem Stands.not_amid (h : Stands d n m) : ¬Amid d first n m := fun hamid => by
  obtain ⟨hsize, g, hback, hnext⟩ := h
  have hlt := (hamid.next hsize g hback).2
  omega

theorem Clears.amid (h : Clears f d low first last m) (hnot : ¬Stands d last m) :
    Amid d first last m := by
  refine ⟨h.alive, fun hsize g hback => ?_⟩
  obtain ⟨-, hle, hle'⟩ := h.innermost hback hsize
  exact ⟨hle, Nat.lt_of_le_of_ne hle' fun heq => hnot ⟨hsize, g, hback, heq⟩⟩

/-- What is executed has not come to the end before. -/
theorem unended (h : Relation.ReflTransGen (fun m m' => Amid d first n m ∧ Advances m m') m m') :
    Relation.ReflTransGen (fun m m' => ¬Stands d n m ∧ Advances m m') m m' :=
  Relation.ReflTransGen.mono (fun _ _ hstep => ⟨fun hstands => hstands.not_amid hstep.1, hstep.2⟩) _ _ h

section words

variable (hconfined : f.prototype.Confined first last)
  (hmild : ∀ n, first ≤ n → n < last → f.prototype.Mild level n)

/-- The word makes no closure with an upvalue of a register from `level` on. -/
theorem takes_of_mild (h : f.prototype.Mild level n) {j : Nat} (hle : f.base + level ≤ j) :
    ¬f.Takes n j := by
  rintro ⟨hbase, htakes⟩
  obtain ⟨i, op, -, -, -, hlow⟩ := h
  have hlt := hlow _ htakes
  omega

include hconfined hmild

/-- Execution stays among the words until the function goes on behind them. -/
theorem Poised.stays (h : Poised f d level first m)
    (hruns : Relation.ReflTransGen (fun m m' => ¬Stands d last m ∧ Advances m m') m m') :
    Clears f d (f.base + level) first last m' ∧ m'.Heedful ∧ m'.Orderly := by
  induction hruns with
  | refl => exact ⟨h.clears hconfined.le, h.heedful, h.orderly⟩
  | tail _ hstep ih =>
    obtain ⟨hclears, hheedful, horderly⟩ := ih
    exact ⟨hclears.advances hheedful hconfined
      (fun n hn hlt j hle => takes_of_mild (hmild n hn hlt) hle) hstep.1 hstep.2,
      hheedful.advances hstep.2, horderly.advances hstep.2⟩

theorem Poised.traverses (h : Poised f d level first m) (htraverses : Traverses d first last m m') :
    Poised f d level last m' := by
  obtain ⟨hruns, hstands⟩ := htraverses
  obtain ⟨hclears, hheedful, horderly⟩ := h.stays hconfined hmild
    (unended hruns)
  exact hclears.poised hheedful horderly hstands

end words

/-- Once the function has come to the last ones of the words it stays among them. -/
theorem Poised.later (h : Poised f d level k m) (hconfined : f.prototype.Confined k n')
    (hmild : ∀ j, k ≤ j → j < n' → f.prototype.Mild level j)
    (htraverses : Traverses d n n' m m') : Traverses d k n' m m' := by
  obtain ⟨hruns, hstands⟩ := htraverses
  refine ⟨?_, hstands⟩
  clear hstands
  induction hruns with
  | refl => exact .refl
  | tail hruns hstep ih =>
    have hclears := (h.stays hconfined hmild (unended hruns)).1
    exact ih.tail ⟨hclears.amid fun hstands => hstands.not_amid hstep.1, hstep.2⟩

/-- The words are performed one part after the other. -/
theorem Poised.split (h : Poised f d level n m) (hconfined : f.prototype.Confined n k)
    (hconfined' : f.prototype.Confined k n')
    (hmild : ∀ j, n ≤ j → j < n' → f.prototype.Mild level j)
    (htraverses : Traverses d n n' m m') :
    ∃ m₁, Traverses d n k m m₁ ∧ Poised f d level k m₁ ∧ Traverses d k n' m₁ m' := by
  obtain ⟨hruns, hstands⟩ := htraverses
  have hle := hconfined.le
  have hle' := hconfined'.le
  have hmild₁ : ∀ j, n ≤ j → j < k → f.prototype.Mild level j := fun j hj hlt =>
    hmild j hj (Nat.lt_of_lt_of_le hlt hle')
  -- the induction is on what is still to be executed, when the first part is not at its end yet
  suffices hrest : ∀ m₀,
      Relation.ReflTransGen (fun m m' => Amid d n k m ∧ Advances m m') m m₀ →
      Relation.ReflTransGen (fun m m' => Amid d n n' m ∧ Advances m m') m₀ m' →
      ∃ m₁, Traverses d n k m m₁ ∧ Poised f d level k m₁ ∧ Traverses d k n' m₁ m' from
    hrest m .refl hruns
  intro m₀ hbefore hafter
  induction hafter using Relation.ReflTransGen.head_induction_on with
  | refl =>
    have hclears := (h.stays hconfined hmild₁ (unended hbefore)).1
    obtain ⟨hsize, g, hback, hnext⟩ := id hstands
    obtain ⟨-, -, hlast⟩ := hclears.innermost hback hsize
    obtain rfl : n' = k := by omega
    have htraverses : Traverses d n n' m m' := ⟨hbefore, hstands⟩
    exact ⟨m', htraverses, h.traverses hconfined hmild₁ htraverses, .refl, hstands⟩
  | @head m₀ m₂ hstep hafter ih =>
    by_cases hthere : Stands d k m₀
    · have htraverses : Traverses d n k m m₀ := ⟨hbefore, hthere⟩
      have hpoised := h.traverses hconfined hmild₁ htraverses
      exact ⟨m₀, htraverses, hpoised, hpoised.later hconfined'
        (fun j hj => hmild j (Nat.le_trans hle hj)) ⟨.head hstep hafter, hstands⟩⟩
    · have hclears := (h.stays hconfined hmild₁ (unended hbefore)).1
      exact ih (hbefore.tail ⟨hclears.amid hthere, hstep.2⟩)

/-! ## Registers that are left alone -/

/-- The word writes no register below `low`, which variables and other values are in. -/
theorem spares_of_mild {low : Nat} (h : f.prototype.Mild level n)
    (hwrites : ∀ i op, f.prototype.chunk.code[n]? = some i → i.opcode? = some op →
      ∀ r, op.lowest? i.a = some r → low ≤ r) : f.Spares n (f.base + level) (f.base + low) := by
  intro j hle hlt
  refine ⟨takes_of_mild h hle, fun i op hi hop hwrite => ?_⟩
  obtain ⟨i', op', hi', hop', hplain, -⟩ := h
  cases hi.symm.trans hi'
  cases hop.symm.trans hop'
  have hlow := hwrites i op hi hop
  unfold Frame.Writes at hwrite
  split at hwrite
  · have hle' := hlow i.a rfl
    omega
  · exact hplain.2.2.1 rfl
  · exact hplain.2.2.2.1 rfl
  · exact hplain.2.2.2.2.2 rfl
  · exact hplain.2.2.2.2.1 rfl
  · obtain ⟨r, hr, hle'⟩ := hwrite
    have hle'' := hlow r hr
    omega

/-- Words that write from a register on leave those below it alone. -/
theorem Poised.kept {low : Nat} (h : Poised f d level first m)
    (hmild : ∀ n, first ≤ n → n < last → f.prototype.Mild level n)
    (htidy : f.prototype.Tidy low first last) (htraverses : Traverses d first last m m') {r : Nat}
    (hle : level ≤ r) (hlt : r < low) : m'.reg f r = m.reg f r := by
  obtain ⟨code, g, ha, hsame, hnext⟩ := h.active
  have hguards : Guards f d (f.base + level) (f.base + low) m m := by
    refine ⟨h.frame, fun e g' he hg' => ?_, fun u hu hle => ?_, fun _ _ _ => rfl⟩
    · have hsize := h.stands.1
      have hlt := (Array.getElem?_eq_some_iff.mp hg').1
      omega
    · exact absurd (h.unopened u hu) (Nat.not_lt.mpr hle)
  have hkept := (hguards.traverses h.heedful (by omega) (fun t ht hlt' => ?_) htraverses).1
  · exact hkept.slots _ (by omega) (by omega)
  · refine spares_of_mild (hmild t ht hlt') fun i op hi hop r hr => ?_
    obtain ⟨i', op', hi', hop', hword⟩ := htidy.words t ht hlt'
    cases hi.symm.trans hi'
    cases hop.symm.trans hop'
    exact hword.writes r hr

end Machine
end LuaMachine
