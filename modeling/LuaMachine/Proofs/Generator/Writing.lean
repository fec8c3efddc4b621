import LuaMachine.Proofs.Generator.Invariant
/-! # Writing and patching words

What a new word and a changed target do to the invariant of a scope.

* `FunctionScope.written`, `FunctionScope.patched`: a scope with a word more, and with one changed.
* `Sound.written`, `Sound.patched`: the invariant after that.
-/
set_option autoImplicit false

namespace LuaMachine
namespace FunctionScope

def written (s : FunctionScope) (i : Instruction) (line : Int) : FunctionScope :=
  { s with proto := { s.proto with chunk := s.proto.chunk.write i line } }

def patched (s : FunctionScope) (n : Nat) (f : Instruction → Instruction) : FunctionScope :=
  { s with proto := { s.proto with chunk := s.proto.chunk.patch n f } }

variable {Good : Prototype → Prop} {ps ps' : List Nat} {s s₀ : FunctionScope} {i : Instruction}
  {line : Int} {n : Nat} {f : Instruction → Instruction}

/-! ## A word more -/

@[simp] theorem size_written : (s.written i line).proto.chunk.size = s.proto.chunk.size + 1 := by
  simp [written, Chunk.write, Chunk.size]

theorem code_written_lt (h : n < s.proto.chunk.size) :
    (s.written i line).proto.chunk.code[n]? = s.proto.chunk.code[n]? := by
  have hlt : n < s.proto.chunk.code.size := h
  simp [written, Chunk.write, Array.getElem?_push, Nat.ne_of_lt hlt]

theorem code_written_size :
    (s.written i line).proto.chunk.code[s.proto.chunk.size]? = some i := by
  simp [written, Chunk.write, Chunk.size]

theorem code_written_eq {j : Instruction} (h : (s.written i line).proto.chunk.code[n]? = some j) :
    s.proto.chunk.code[n]? = some j ∨ n = s.proto.chunk.size ∧ j = i := by
  rcases Nat.lt_or_ge n s.proto.chunk.size with hlt | hge
  · rw [code_written_lt hlt] at h
    exact .inl h
  · have hlt := Prototype.lt_size_of_word h
    rw [size_written] at hlt
    have hn : n = s.proto.chunk.size := by omega
    subst hn
    rw [code_written_size] at h
    cases h
    exact .inr ⟨rfl, rfl⟩

theorem opcodeAt?_written_size :
    (s.written i line).proto.opcodeAt? s.proto.chunk.size = i.opcode? := by
  unfold Prototype.opcodeAt?
  rw [code_written_size]
  rfl

theorem grows_written (s : FunctionScope) (i : Instruction) (line : Int) :
    s.proto.Grows (s.written i line).proto where
  registers := Nat.le_refl _
  constants _ _ h := h
  upvalues _ _ h := h
  children _ _ h := h
  size := by simp
  opcodes m hm := by
    unfold Prototype.opcodeAt?
    rw [code_written_lt hm]
  params := rfl

theorem proto_written (h : s.proto.Sound Good ps) (hps : ∀ m ∈ ps, m ∈ ps')
    (hfit : s.proto.chunk.size ∉ ps' →
      ∃ op, i.opcode? = some op ∧ i.FitsAt (s.written i line).proto s.proto.chunk.size op) :
    (s.written i line).proto.Sound Good ps' where
  registers := h.registers
  constants := h.constants
  places := h.places
  words := h.words_of_grows (grows_written s i line) fun m j hj hm => by
    rcases code_written_eq hj with hold | ⟨rfl, rfl⟩
    · exact .inl ⟨hold, fun hmem => hm (hps m hmem)⟩
    · exact .inr (hfit hm)
  children q hq := h.children_of_grows (grows_written s i line) hq

theorem settled_written (h : i.opcode? ≠ some .setList) :
    (s.written i line).proto.Landing (s.written i line).proto.chunk.size where
  le := Nat.le_refl _
  apart m hm := by
    rw [size_written] at hm
    have hm' : m = s.proto.chunk.size := by omega
    rw [hm', opcodeAt?_written_size]
    exact h

theorem Sound.written (h : s.Sound Good ps) (hlist : i.opcode? ≠ some .setList)
    (hps : ∀ m ∈ ps, m ∈ ps')
    (hfit : s.proto.chunk.size ∉ ps' →
      ∃ op, i.opcode? = some op ∧ i.FitsAt (s.written i line).proto s.proto.chunk.size op) :
    (s.written i line).Sound Good ps' :=
  h.of_grows (grows_written s i line) (proto_written h.proto hps hfit) (settled_written hlist) rfl
    rfl h.level h.top

theorem Adds.written (s : FunctionScope) (i : Instruction) (line : Int) :
    s.Adds (s.written i line) :=
  ⟨grows_written s i line, rfl, rfl, rfl, fun _ hm => code_written_lt hm⟩

theorem Keeps.written {op : Opcode} (hop : i.opcode? = some op)
    (hplain : (s.written i line).PlainWord s.proto.chunk.size (s.proto.chunk.size + 1)
      s.proto.chunk.size i op) : s.Keeps (s.written i line) where
  toAdds := .written s i line
  words m j hm hj := by
    rcases code_written_eq hj with hold | ⟨rfl, rfl⟩
    · exact absurd (Prototype.lt_size_of_word hold) (Nat.not_lt.mpr hm)
    · rw [size_written]
      exact ⟨op, hop, hplain⟩

theorem operandsFit_extra {p : Prototype} : i.OperandsFit p .extra :=
  ⟨by simp [Opcode.runs], by simp [Opcode.constant?], by simp [Opcode.upvalue?],
    by simp [Opcode.child?]⟩

/-- A word that stores items, with its argument behind it. -/
theorem Sound.written_setList {a b k : Nat} {line' : Int} (h : s.Sound Good ps)
    (hfit : (Instruction.abc .setList a b 0).OperandsFit s.proto .setList) :
    ((s.written (.abc .setList a b 0) line).written (.ofAx .extra k) line').Sound Good ps := by
  have hg := grows_written s (.abc .setList a b 0) line
  have hg' := grows_written (s.written (.abc .setList a b 0) line) (.ofAx .extra k) line'
  have hop : (Instruction.abc .setList a b 0).opcode? = some .setList := Instruction.opcode?_abc _
  have hop' : (Instruction.ofAx .extra k).opcode? = some .extra := Instruction.opcode?_ofAx _
  have hlist : (s.written (.abc .setList a b 0) line).proto.opcodeAt? s.proto.chunk.size =
      some .setList := (opcodeAt?_written_size).trans hop
  have hextra : ((s.written (.abc .setList a b 0) line).written (.ofAx .extra k)
      line').proto.opcodeAt? (s.written (.abc .setList a b 0) line).proto.chunk.size =
      some .extra := (opcodeAt?_written_size).trans hop'
  rw [size_written] at hextra
  have hproto : (s.written (.abc .setList a b 0) line).proto.Sound Good
      (s.proto.chunk.size :: ps) :=
    proto_written h.proto (fun _ => List.mem_cons_of_mem _)
      fun hn => absurd (List.mem_cons_self ..) hn
  have hproto' : ((s.written (.abc .setList a b 0) line).written (.ofAx .extra k)
      line').proto.Sound Good (s.proto.chunk.size :: ps) :=
    proto_written hproto (fun _ hm => hm) fun _ => ⟨.extra, hop', operandsFit_extra,
      by simp [Instruction.targets], by simp,
      fun _ => ⟨s.proto.chunk.size, size_written, hg'.opcodeAt? hlist⟩, by simp⟩
  have hword : ((s.written (.abc .setList a b 0) line).written (.ofAx .extra k)
      line').proto.chunk.code[s.proto.chunk.size]? = some (.abc .setList a b 0) := by
    rw [code_written_lt (by simp)]
    exact code_written_size
  refine h.of_grows (hg.trans hg') (hproto'.settle hword hop ?_) (settled_written (by simp [hop']))
    rfl rfl h.level h.top
  exact ⟨(hg.trans hg').operandsFit hfit, by simp [Instruction.targets], fun _ => hextra,
    by simp, by simp⟩

/-! ## A word changed -/

@[simp] theorem size_patched : (s.patched n f).proto.chunk.size = s.proto.chunk.size := by
  simp [patched, Chunk.patch, Chunk.size]

theorem code_patched_ne {m : Nat} (h : m ≠ n) :
    (s.patched n f).proto.chunk.code[m]? = s.proto.chunk.code[m]? := by
  simp [patched, Chunk.patch, Array.getElem?_modify, Ne.symm h]

theorem code_patched (hi : s.proto.chunk.code[n]? = some i) :
    (s.patched n f).proto.chunk.code[n]? = some (f i) := by
  simp only [patched, Chunk.patch, Array.getElem?_modify]
  simp [hi]

theorem grows_patched (hi : s.proto.chunk.code[n]? = some i) (hf : (f i).opcode? = i.opcode?) :
    s.proto.Grows (s.patched n f).proto where
  registers := Nat.le_refl _
  constants _ _ h := h
  upvalues _ _ h := h
  children _ _ h := h
  size := by simp
  opcodes m hm := by
    unfold Prototype.opcodeAt?
    by_cases hmn : m = n
    · subst hmn
      rw [code_patched hi, hi]
      exact hf
    · rw [code_patched_ne hmn]
  params := rfl

theorem landing_patched (hi : s.proto.chunk.code[n]? = some i) (hf : (f i).opcode? = i.opcode?)
    {t : Nat} (ht : s.proto.Landing t) : (s.patched n f).proto.Landing t :=
  (grows_patched hi hf).landing ht

/-- The patched word fits now, also if it was not finished before. -/
theorem Sound.patched {op : Opcode} (h : s.Sound Good (n :: ps))
    (hi : s.proto.chunk.code[n]? = some i) (hop : i.opcode? = some op)
    (hf : (f i).opcode? = i.opcode?) (hfit : (f i).FitsAt (s.patched n f).proto n op) :
    (s.patched n f).Sound Good ps := by
  have hg := grows_patched (f := f) hi hf
  refine h.of_grows hg ?_ ?_ rfl rfl h.level h.top
  · refine ⟨h.proto.registers, h.proto.constants, h.proto.places, ?_,
      fun q hq => h.proto.children_of_grows hg hq⟩
    refine h.proto.words_of_grows hg fun m j hj hm => ?_
    by_cases hmn : m = n
    · subst hmn
      rw [code_patched hi] at hj
      cases hj
      exact .inr ⟨op, hf.trans hop, hfit⟩
    · rw [code_patched_ne hmn] at hj
      exact .inl ⟨hj, by simp [hmn, hm]⟩
  · rw [size_patched]
    exact hg.landing h.settled

theorem Sound.open' (h : s.Sound Good ps) (n : Nat) : s.Sound Good (n :: ps) :=
  { h with
    proto := { h.proto with
      words := fun m j hj hm =>
        h.proto.words m j hj fun hmem => hm (List.mem_cons_of_mem _ hmem) } }

theorem Keeps.patched {op : Opcode} (h : s₀.Keeps s) (hn : s₀.proto.chunk.size ≤ n)
    (hi : s.proto.chunk.code[n]? = some i) (hop : i.opcode? = some op)
    (hf : (f i).opcode? = i.opcode?)
    (hplain : (s.patched n f).PlainWord s₀.proto.chunk.size s.proto.chunk.size n (f i) op) :
    s₀.Keeps (s.patched n f) where
  grows := h.grows.trans (grows_patched hi hf)
  locals := h.locals
  blocks := h.blocks
  ranges := h.ranges
  code m hm := (code_patched_ne (Nat.ne_of_lt (Nat.lt_of_lt_of_le hm hn))).trans (h.code m hm)
  words m j hm hj := by
    by_cases hmn : m = n
    · subst hmn
      rw [code_patched hi] at hj
      cases hj
      rw [size_patched]
      exact ⟨op, hf.trans hop, hplain⟩
    · rw [code_patched_ne hmn] at hj
      obtain ⟨op', hop', hw⟩ := h.words m j hm hj
      exact ⟨op', hop', hw.mono (grows_patched hi hf) rfl (by simp)⟩

/-- A word that was there at the start of the statement may only be changed if it is a jump. -/
theorem Extends.patched (h : s₀.Extends s) (hi : s.proto.chunk.code[n]? = some i)
    (hf : (f i).opcode? = i.opcode?)
    (hn : s₀.proto.chunk.size ≤ n ∨ i.opcode? = some .jump) : s₀.Extends (s.patched n f) where
  grows := h.grows.trans (grows_patched hi hf)
  locals := h.locals
  blocks := h.blocks
  words m j hj := by
    obtain ⟨j', hj', hb⟩ := h.words m j hj
    by_cases hmn : m = n
    · subst hmn
      cases hi.symm.trans hj'
      have hjump : i.opcode? = some .jump :=
        hn.resolve_left (Nat.not_le.mpr (Prototype.lt_size_of_word hj))
      exact ⟨f i, code_patched hi, hb.trans (.inr ⟨hjump, hf.trans hjump⟩)⟩
    · exact ⟨j', (code_patched_ne hmn).trans hj', hb⟩

end FunctionScope
end LuaMachine
