import LuaMachine.Proofs.Generator.Lookup
import Mathlib.Data.List.Nodup
/-! # What names stand for

While functions are compiled inside of one another, variables come into scope and go out of it
again, block by block, and names are looked up in between. A name stands for the variable of that
name that was declared last among those in scope in the innermost function that has one. A variable
of an outer function is reached through upvalues, which a function keeps by name.

* `Lexical.Blocks`, `Lexical.meaning`: the variables in scope, and what a name stands for.
* `Lexical.Chain`: the scopes that can come about, with the variables in scope.
* `Lexical.origin?`, `Lexical.Answers`: where an upvalue is taken from in the end.
* `Lexical.Stands`, `Lexical.Sourced`: a scope and its variables, upvalues and where they are from.
-/
set_option autoImplicit false

namespace LuaMachine
namespace Lexical

/-! ## Variables in scope -/

structure Variable where
  name : String
  register : Nat
  captured : Bool
  constant : Bool
deriving DecidableEq

/-- The variables of a function block by block, the innermost block and in it the last variable
first. What is declared outside of all blocks comes at the end. -/
abbrev Blocks := List (List Variable)

/-- The variable of this name that was declared last. -/
def find? (f : Blocks) (name : String) : Option Variable := f.flatten.find? fun v => v.name == name

/-- The variable of this name in the nearest function that has one, and how far out this is. -/
def nearest? (name : String) : List Blocks → Option (Nat × Variable)
  | [] => none
  | f :: outer =>
    match find? f name with
    | some v => some (0, v)
    | none => (nearest? name outer).map fun x => (x.1 + 1, x.2)

inductive Meaning where
  | own (v : Variable)
  | outer (depth : Nat) (v : Variable)
  | environment
  | global
deriving DecidableEq

/-- Upvalues stand for it. -/
def Meaning.isOuter : Meaning → Bool
  | .outer _ _ => true
  | .environment => true
  | _ => false

/-- What a name stands for in the first of these functions. -/
def meaning (name : String) : List Blocks → Meaning
  | [] => .global
  | f :: outer =>
    match find? f name with
    | some v => .own v
    | none =>
      match nearest? name outer with
      | some (depth, v) => .outer (depth + 1) v
      | none => if name = "_ENV" then .environment else .global

/-- If the name stands for a variable of an outer function, this variable is marked as captured. -/
def Recorded (env : List Blocks) (name : String) : Prop :=
  ∀ depth v, meaning name env = .outer depth v → v.captured = true

/-! ## Scopes -/

/-- Nothing was done with the variables, the blocks and the upvalues of a scope. -/
structure SameNames (s s' : FunctionScope) : Prop where
  locals : s'.locals = s.locals
  levels : s'.blocks.map ScopeBlock.level = s.blocks.map ScopeBlock.level
  upvalues : s'.proto.upvalues = s.proto.upvalues
  constants : s'.constantUpvalues = s.constantUpvalues

/-- The scopes of functions inside of one another, and their variables in scope. A variable is
numbered by those that its function has in scope when it is declared. -/
inductive Chain : List FunctionScope → List Blocks → Prop
  | main {proto : Prototype} (h : proto.upvalues = #[⟨"_ENV", false, 0⟩]) :
      Chain [.create proto] [[[]]]
  | enter {scopes : List FunctionScope} {env : List Blocks} (hc : Chain scopes env)
      (proto : Prototype) (h : proto.upvalues = #[]) :
      Chain (.create proto :: scopes) ([[]] :: env)
  | leave {s t : FunctionScope} {outer : List FunctionScope} {f : Blocks} {env : List Blocks}
      (hc : Chain (s :: t :: outer) (f :: env)) : Chain (t :: outer) env
  | beginBlock {s : FunctionScope} {outer : List FunctionScope} {f : Blocks} {env : List Blocks}
      (hc : Chain (s :: outer) (f :: env)) (isLoop : Bool) :
      Chain (s.beginBlock isLoop :: outer) (([] :: f) :: env)
  | endBlock {s : FunctionScope} {outer : List FunctionScope} {b c : List Variable} {f : Blocks}
      {env : List Blocks} (hc : Chain (s :: outer) ((b :: c :: f) :: env)) :
      Chain (s.endBlock.1 :: outer) ((c :: f) :: env)
  | addLocal {s s' : FunctionScope} {outer : List FunctionScope} {b : List Variable} {f : Blocks}
      {env : List Blocks} {name : String} {captured constant : Bool}
      (hc : Chain (s :: outer) ((b :: f) :: env)) (h : s.addLocal name captured constant = .ok s') :
      Chain (s' :: outer)
        (((⟨name, (b :: f).flatten.length, captured, constant⟩ :: b) :: f) :: env)
  | resolve {scopes : List FunctionScope} {env : List Blocks} (hc : Chain scopes env)
      {name : String} (line : Nat) (h : Recorded env name) :
      Chain (FunctionScope.resolve name line scopes).1 env
  | other {s s' : FunctionScope} {outer : List FunctionScope} {env : List Blocks}
      (hc : Chain (s :: outer) env) (h : SameNames s s') : Chain (s' :: outer) env

/-- Where an upvalue is taken from: a register of a function further out, or what the main program
is given. -/
inductive Origin where
  | register (depth index : Nat)
  | given (index : Nat)
deriving DecidableEq

def Origin.further : Origin → Origin
  | .register depth index => .register (depth + 1) index
  | .given index => .given index

/-- Follows the descriptions of an upvalue outwards. -/
def origin? : List FunctionScope → Nat → Option Origin
  | [], _ => none
  | s :: outer, i =>
    match s.proto.upvalues[i]? with
    | none => none
    | some u =>
      if outer.isEmpty then some (.given i)
      else if u.fromRegister then some (.register 1 u.index)
      else (origin? outer u.index).map Origin.further

/-- The reference is to what the name stands for. -/
def Answers (scopes : List FunctionScope) : Meaning → Reference → Prop
  | .own v, r => r = .register v.register v.constant
  | .outer depth v, r =>
    ∃ i, r = .upvalue i v.constant ∧ origin? scopes i = some (.register depth v.register)
  | .environment, r => ∃ i, r = .upvalue i false ∧ origin? scopes i = some (.given 0)
  | .global, r => r = .global

/-- Of the functions that need a further upvalue for the name, one has as many as it can have. -/
def Crowded (name : String) : List FunctionScope → Prop
  | s :: t :: outer =>
    s.findUpvalue name = none ∧
      (FunctionScope.maxUpvalues ≤ s.proto.upvalues.size ∨
        t.findLocal name = none ∧ Crowded name (t :: outer))
  | _ => False

variable {scopes scopes' outer outer' : List FunctionScope} {s s' t t' : FunctionScope}
  {f g : Blocks} {env : List Blocks} {name : String} {line : Nat}

/-! ## A scope and its variables -/

def variableOf (l : Local) : Variable := ⟨l.name, l.register, l.captured, l.constant⟩

/-- How many variables were in scope when each block began. -/
def blockLevels : Blocks → List Nat
  | _ :: c :: f => (c :: f).flatten.length :: blockLevels (c :: f)
  | _ => []

/-- The scope has these variables and blocks. -/
structure Stands (s : FunctionScope) (f : Blocks) : Prop where
  active : s.locals.toList.reverse.map variableOf = f.flatten
  levels : s.blocks.map ScopeBlock.level = blockLevels f
  ne : f ≠ []

theorem Stands.findLocal (h : Stands s f) (name : String) :
    (s.findLocal name).map variableOf = find? f name := by
  rw [find?, ← h.active, List.find?_map, FunctionScope.findLocal,
    Array.findRev?_eq_find?_reverse, ← Array.find?_toList, Array.toList_reverse]
  rfl

theorem Stands.findLocal_eq_none_iff (h : Stands s f) :
    s.findLocal name = none ↔ find? f name = none := by
  rw [← h.findLocal, Option.map_eq_none_iff]

theorem Stands.size (h : Stands s f) : s.locals.size = f.flatten.length := by
  rw [← h.active]
  simp

theorem Stands.same (h : Stands s f) (hs : SameNames s s') : Stands s' f :=
  ⟨by rw [hs.locals]; exact h.active, hs.levels.trans h.levels, h.ne⟩

theorem stands_create (proto : Prototype) : Stands (.create proto) [[]] :=
  ⟨rfl, rfl, by simp⟩

theorem Stands.beginBlock (h : Stands s f) (isLoop : Bool) :
    Stands (s.beginBlock isLoop) ([] :: f) := by
  refine ⟨h.active, ?_, by simp⟩
  cases f with
  | nil => exact absurd rfl h.ne
  | cons c f => exact congrArg₂ List.cons h.size h.levels

theorem Stands.addLocal {b : List Variable} {captured constant : Bool} (h : Stands s (b :: f))
    (ha : s.addLocal name captured constant = .ok s') :
    Stands s' ((⟨name, (b :: f).flatten.length, captured, constant⟩ :: b) :: f) := by
  simp only [FunctionScope.addLocal] at ha
  split at ha
  · cases ha
  cases ha
  refine ⟨?_, ?_, by simp⟩
  · simp only [Array.toList_push, List.reverse_append, List.reverse_cons, List.reverse_nil,
      List.nil_append, List.cons_append, List.map_cons, h.active, List.flatten_cons]
    simp only [variableOf, FunctionScope.localsLevel, h.size, List.flatten_cons]
  · have hlevels : blockLevels ((⟨name, (b :: f).flatten.length, captured, constant⟩ :: b) :: f) =
        blockLevels (b :: f) := by
      cases f <;> rfl
    rw [hlevels, ← h.levels]
    cases s.blocks <;> rfl

/-- The variables of the innermost block go out of scope. -/
theorem Stands.endBlock {b c : List Variable} (h : Stands s (b :: c :: f)) :
    Stands s.endBlock.1 (c :: f) := by
  have hlevels := h.levels
  cases hblocks : s.blocks with
  | nil =>
    rw [hblocks] at hlevels
    cases hlevels
  | cons block rest =>
    rw [hblocks] at hlevels
    obtain ⟨hlevel, hrest⟩ := List.cons.inj hlevels
    simp only [FunctionScope.endBlock, hblocks]
    refine ⟨?_, hrest, by simp⟩
    have hsize := h.size
    have htake : (s.locals.toList.take block.level).reverse =
        s.locals.toList.reverse.drop b.length := by
      rw [List.reverse_take, Array.length_toList]
      congr 1
      simp only [List.flatten_cons, List.length_append] at hsize hlevel
      omega
    show (s.locals.extract 0 block.level).toList.reverse.map variableOf = _
    rw [Array.toList_extract, List.extract_eq_take_drop, List.drop_zero, Nat.sub_zero, htake,
      List.map_drop, h.active, List.flatten_cons, List.drop_left]

/-! ## Upvalues and what they stand for -/

/-- The upvalue is taken from the variable of its name in the function around, or else from the
upvalue of its name there. -/
def Source (t : FunctionScope) (g : Blocks) (u : UpvalueSource) (constant : Bool) : Prop :=
  match find? g u.name with
  | some v => u.fromRegister = true ∧ u.index = v.register ∧ constant = v.constant
  | none => u.fromRegister = false ∧ ∃ w, t.proto.upvalues[u.index]? = some w ∧ w.name = u.name ∧
      t.constantUpvalues.getD u.index false = constant

/-- All upvalues of these functions are taken from where their names say. -/
inductive Sourced : List FunctionScope → List Blocks → Prop
  | main {s : FunctionScope} {f : Blocks} (upvalues : s.proto.upvalues = #[⟨"_ENV", false, 0⟩])
      (constants : s.constantUpvalues = #[false]) : Sourced [s] [f]
  | nested {s t : FunctionScope} {outer : List FunctionScope} {f g : Blocks} {env : List Blocks}
      (names : (s.proto.upvalues.toList.map UpvalueSource.name).Nodup)
      (size : s.constantUpvalues.size = s.proto.upvalues.size)
      (limit : s.proto.upvalues.size ≤ FunctionScope.maxUpvalues)
      (sources : ∀ i u, s.proto.upvalues[i]? = some u →
        Source t g u (s.constantUpvalues.getD i false))
      (around : Sourced (t :: outer) (g :: env)) : Sourced (s :: t :: outer) (f :: g :: env)

/-- Upvalues stand for what their names stand for. The induction is on the functions around. -/
theorem Sourced.origin (h : Sourced (s :: outer) (f :: env)) {i : Nat} {u : UpvalueSource}
    (hu : s.proto.upvalues[i]? = some u) :
    match nearest? u.name env with
    | some (depth, v) => origin? (s :: outer) i = some (.register (depth + 1) v.register) ∧
        s.constantUpvalues.getD i false = v.constant
    | none => u.name = "_ENV" ∧ origin? (s :: outer) i = some (.given 0) ∧
        s.constantUpvalues.getD i false = false := by
  induction outer generalizing s f env i u with
  | nil =>
    cases h with
    | main upvalues constants =>
      rw [upvalues] at hu
      obtain ⟨hi, rfl⟩ := Array.getElem?_eq_some_iff.mp hu
      obtain rfl : i = 0 := Nat.lt_one_iff.mp hi
      simp [nearest?, origin?, upvalues, constants]
  | cons t outer ih =>
    cases h with
    | @nested _ _ _ _ g env names size limit sources around =>
      have hsource := sources i u hu
      unfold Source at hsource
      rw [nearest?]
      cases hfind : find? g u.name with
      | some v =>
        rw [hfind] at hsource
        obtain ⟨hregister, hindex, hconstant⟩ := hsource
        simp [origin?, hu, hregister, hindex, hconstant]
      | none =>
        rw [hfind] at hsource
        obtain ⟨hregister, w, hw, hname, hconstant⟩ := hsource
        have hout := ih around hw
        have horigin : origin? (s :: t :: outer) i =
            (origin? (t :: outer) u.index).map Origin.further := by
          simp [origin?, hu, hregister]
        rw [hname, hconstant] at hout
        rw [horigin]
        cases hnearest : nearest? u.name env with
        | some x =>
          rw [hnearest] at hout
          simp [hout.1, hout.2, Origin.further]
        | none =>
          rw [hnearest] at hout
          simp [hout.1, hout.2, Origin.further]

/-! ## Further upvalues -/

/-- The scope got further upvalues, each with its mark. -/
def Gains (s s' : FunctionScope) : Prop :=
  ∃ us cs, s' = { s with
    proto := { s.proto with upvalues := s.proto.upvalues ++ us }
    constantUpvalues := s.constantUpvalues ++ cs }

theorem Gains.refl (s : FunctionScope) : Gains s s := by
  obtain ⟨⟨⟩⟩ := s
  exact ⟨#[], #[], by simp⟩

theorem gains_refl (scopes : List FunctionScope) : List.Forall₂ Gains scopes scopes :=
  List.forall₂_same.mpr fun s _ => .refl s

theorem Stands.gains (h : Stands s f) (hs : Gains s s') : Stands s' f := by
  obtain ⟨us, cs, rfl⟩ := hs
  exact ⟨h.active, h.levels, h.ne⟩

theorem stands_gains (hs : List.Forall₂ Gains scopes scopes') (h : List.Forall₂ Stands scopes env) :
    List.Forall₂ Stands scopes' env := by
  induction hs generalizing env with
  | nil => exact h
  | cons hs _ ih =>
    cases h with
    | cons hf hrest => exact .cons (hf.gains hs) (ih hrest)

theorem Source.gains {u : UpvalueSource} {constant : Bool} (h : Source t g u constant)
    (hsize : t.constantUpvalues.size = t.proto.upvalues.size) (ht : Gains t t') :
    Source t' g u constant := by
  obtain ⟨us, cs, rfl⟩ := ht
  unfold Source at h ⊢
  cases hfind : find? g u.name with
  | some v =>
    rw [hfind] at h
    exact h
  | none =>
    rw [hfind] at h
    obtain ⟨hregister, w, hw, hname, hconstant⟩ := h
    have hlt := (Array.getElem?_eq_some_iff.mp hw).1
    refine ⟨hregister, w, ?_, hname, ?_⟩
    · rw [Array.getElem?_append_left hlt, hw]
    · rw [← hconstant, Array.getD_eq_getD_getElem?, Array.getD_eq_getD_getElem?,
        Array.getElem?_append_left (hsize ▸ hlt)]

theorem Sourced.names (h : Sourced (s :: outer) env) :
    (s.proto.upvalues.toList.map UpvalueSource.name).Nodup := by
  cases h with
  | main upvalues => simp [upvalues]
  | nested names => exact names

theorem Sourced.size (h : Sourced (s :: outer) env) :
    s.constantUpvalues.size = s.proto.upvalues.size := by
  cases h with
  | main upvalues constants => simp [upvalues, constants]
  | nested _ size => exact size

theorem Sourced.limit (h : Sourced (s :: outer) env) :
    s.proto.upvalues.size ≤ FunctionScope.maxUpvalues := by
  cases h with
  | main upvalues =>
    rw [upvalues]
    decide
  | nested _ _ limit => exact limit

/-- The upvalues of a function stay right when the functions around it get further ones. -/
theorem Sourced.around (h : Sourced (s :: t :: outer) (f :: g :: env))
    (ht' : Sourced (t' :: outer') (g :: env)) (ht : Gains t t') :
    Sourced (s :: t' :: outer') (f :: g :: env) := by
  cases h with
  | nested names size limit sources around =>
    exact .nested names size limit (fun i u hu => (sources i u hu).gains around.size ht) ht'

theorem name_ne_of_findUpvalue (h : s.findUpvalue name = none) :
    name ∉ s.proto.upvalues.toList.map UpvalueSource.name := by
  have hnone := Array.findIdx?_eq_none_iff.mp h
  rw [List.mem_map]
  rintro ⟨u, hu, hname⟩
  have hne := hnone u (Array.mem_toList_iff.mp hu)
  simp [hname] at hne

/-- The scope with one more upvalue. -/
def withUpvalue (s : FunctionScope) (source : UpvalueSource) (constant : Bool) : FunctionScope :=
  { s with
    proto := { s.proto with upvalues := s.proto.upvalues.push source }
    constantUpvalues := s.constantUpvalues.push constant }

theorem addedUpvalue_eq (s : FunctionScope) (outer : List FunctionScope) (source : UpvalueSource)
    (constant : Bool) (line : Nat) :
    s.addedUpvalue outer source constant line =
      if FunctionScope.maxUpvalues ≤ s.proto.upvalues.size then
        (s :: outer, .error (.at "too many upvalues" line))
      else
        (withUpvalue s source constant :: outer, .ok (some (s.proto.upvalues.size, constant))) := by
  unfold FunctionScope.addedUpvalue FunctionScope.addUpvalue
  split
  next h =>
    split at h
    · cases h
    · next hlt =>
      cases h
      rw [if_neg hlt]
      rfl
  next h =>
    split at h
    · next hle =>
      cases h
      rw [if_pos hle]
    · cases h

theorem gains_withUpvalue (s : FunctionScope) (source : UpvalueSource) (constant : Bool) :
    Gains s (withUpvalue s source constant) :=
  ⟨#[source], #[constant], by simp [withUpvalue]⟩

theorem findUpvalue_withUpvalue {source : UpvalueSource} {constant : Bool}
    (h : s.findUpvalue source.name = none) :
    (withUpvalue s source constant).findUpvalue source.name = some s.proto.upvalues.size := by
  show (s.proto.upvalues.push source).findIdx? _ = _
  have hnone : s.proto.upvalues.findIdx? (fun u => u.name == source.name) = none := h
  rw [Array.findIdx?_push, hnone]
  simp

/-- An upvalue that is taken from where its name says can be added. -/
theorem Sourced.added {source : UpvalueSource} {constant : Bool}
    (h : Sourced (s :: t :: outer) (f :: g :: env))
    (hnone : s.findUpvalue source.name = none) (hsource : Source t g source constant)
    (hroom : s.proto.upvalues.size < FunctionScope.maxUpvalues) :
    Sourced (withUpvalue s source constant :: t :: outer) (f :: g :: env) := by
  cases h with
  | nested names size limit sources around =>
    refine .nested ?_ ?_ ?_ (fun i u hu => ?_) around
    · show ((s.proto.upvalues.push source).toList.map UpvalueSource.name).Nodup
      rw [Array.toList_push, List.map_append, List.nodup_append]
      refine ⟨names, by simp, fun a ha b hb => ?_⟩
      rintro rfl
      obtain rfl : a = source.name := by simpa using hb
      exact name_ne_of_findUpvalue hnone ha
    · show (s.constantUpvalues.push constant).size = (s.proto.upvalues.push source).size
      rw [Array.size_push, Array.size_push, size]
    · show (s.proto.upvalues.push source).size ≤ _
      rw [Array.size_push]
      exact hroom
    · have hu : (s.proto.upvalues.push source)[i]? = some u := hu
      show Source t g u ((s.constantUpvalues.push constant).getD i false)
      rw [Array.getD_eq_getD_getElem?, Array.getElem?_push, size]
      rw [Array.getElem?_push] at hu
      split at hu
      next hi =>
        cases hu
        rw [if_pos hi]
        exact hsource
      next hi =>
        rw [if_neg hi, ← Array.getD_eq_getD_getElem?]
        exact sources i u hu

end Lexical
end LuaMachine
