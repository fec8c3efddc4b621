import LuaMachine.Proofs.Action
import LuaMachine.Proofs.Printing.Grammar
import LuaMachine.Tree.Parser
/-! # Reading words

What an action of the parser does where certain words are ahead: which of them it steps over, what
it gives, and how many syntax levels it needs. With too few levels left it complains of that, and
of nothing else.

* `Parser.Takes`: what an action does at a place among the words.
* `takes_advance`, `takes_accept`, `takes_enter` and the like: the parser's own actions.
-/
set_option autoImplicit false

namespace LuaMachine

theorem Word.kind_ne_error (w : Word) : w.kind ≠ .error := by
  cases w <;> simp [Word.kind]

namespace Parser

-- The equations of the parser are derived once, here, and not by each lemma that first needs
-- one.
section
attribute [local simp] binary.eq_1 binaryRest.eq_1 unary.eq_1 simple.eq_1 suffixed.eq_1
  suffixes.eq_1 arguments.eq_1 expressions.eq_1 table.eq_1 fields.eq_1 field.eq_1
  functionBody.eq_1 parameters.eq_1 block.eq_1 returnStatement.eq_1 statement.eq_1
  targetsAfter.eq_1 elseParts.eq_1 forStatement.eq_1 furtherNames.eq_1 attributed.eq_1
  functionName.eq_1
end

/-! ## Places among the words -/

/-- The kind of the next token. -/
def nextKind : List Word → TokenKind
  | [] => .endOfText
  | w :: _ => w.kind

/-- The words that are still ahead, and the number of the next binder. -/
structure Ahead where
  words : List Word
  binders : Nat

@[simp] theorem nextKind_nil : nextKind [] = .endOfText := rfl

@[simp] theorem nextKind_cons (w : Word) (ws : List Word) : nextKind (w :: ws) = w.kind := rfl

theorem nextKind_append {ws vs : List Word} (h : ws ≠ []) : nextKind (ws ++ vs) = nextKind ws := by
  cases ws with
  | nil => exact absurd rfl h
  | cons w ws => rfl

theorem spells_head {t : Token} {ts : List Token} {ws : List Word} (h : Spells (t :: ts) ws) :
    t.kind = nextKind ws := by
  cases h <;> rfl

theorem spells_tail {t : Token} {ts : List Token} {w : Word} {ws : List Word}
    (h : Spells (t :: ts) (w :: ws)) : Spells ts ws := by
  cases h
  assumption

namespace Ahead

/-- The parser is at this place. -/
def At (p : Ahead) (st : State) : Prop := Spells st.tokens p.words ∧ st.binders = p.binders

variable {p : Ahead} {st : State}

theorem At.current_kind (h : p.At st) : (st.tokens.headD endToken).kind = nextKind p.words := by
  obtain ⟨words, n⟩ := p
  obtain ⟨tokens, binders⟩ := st
  obtain ⟨hspells, -⟩ := h
  cases hspells <;> rfl

theorem At.current_ne_error (h : p.At st) : (st.tokens.headD endToken).kind ≠ .error := by
  rw [h.current_kind]
  obtain ⟨words, n⟩ := p
  cases words with
  | nil => simp
  | cons w ws => exact w.kind_ne_error

/-- The next word is the current token, and behind it are the other words. -/
theorem At.step {w : Word} {ws : List Word} {n : Nat} (h : At ⟨w :: ws, n⟩ st) :
    (∃ line, st.tokens.headD endToken = w.token line) ∧
      At ⟨ws, n⟩ { st with tokens := st.tokens.tail } := by
  obtain ⟨tokens, binders⟩ := st
  obtain ⟨hspells, hbinders⟩ := h
  cases hspells with
  | word _ line rest => exact ⟨⟨line, rfl⟩, rest, hbinders⟩

end Ahead

/-! ## What actions do -/

/-- The action goes from one place to the other and gives what `Q` says, if there may be `peak`
syntax levels; otherwise it complains that there are too many. -/
def Takes {α : Type} (before : Ahead) (act : Parse α) (peak : Nat) (Q : α → Prop)
    (after : Ahead) : Prop :=
  ∀ st, before.At st →
    match act st with
    | .ok a st' => peak ≤ maxLevels ∧ Q a ∧ after.At st'
    | .error e _ => maxLevels < peak ∧ ∃ line, e = tooDeep line

section Rules

variable {α β : Type} {p q r : Ahead} {act : Parse α} {f : α → Parse β} {k k' : Nat}
  {Q Q' : α → Prop} {R : β → Prop}

theorem Takes.of_ok (h : ∀ st, p.At st → ∃ a st', act st = .ok a st' ∧ Q a ∧ q.At st') :
    Takes p act 0 Q q := by
  intro st hst
  obtain ⟨a, st', hok, hQ, hat⟩ := h st hst
  rw [hok]
  exact ⟨Nat.zero_le _, hQ, hat⟩

theorem takes_pure {a : α} (h : Q a) : Takes p (pure a) 0 Q p :=
  .of_ok fun st hst => ⟨a, st, rfl, h, hst⟩

theorem Takes.bind (h : Takes p act k Q q) (hf : ∀ a, Q a → Takes q (f a) k' R r) :
    Takes p (act >>= f) (max k k') R r := by
  intro st hst
  have hact := h st hst
  cases hres : act st with
  | error e st' =>
    rw [hres] at hact
    rw [bind_of_error hres]
    exact ⟨by omega, hact.2⟩
  | ok a st' =>
    rw [hres] at hact
    obtain ⟨hk, ha, hst'⟩ := hact
    rw [bind_of_ok hres]
    have hrest := hf a ha st' hst'
    cases hres' : f a st' with
    | error e st'' =>
      rw [hres'] at hrest
      exact ⟨by omega, hrest.2⟩
    | ok b st'' =>
      rw [hres'] at hrest
      exact ⟨by omega, hrest.2⟩

theorem Takes.of_eq (h : Takes p act k Q q) (hk : k = k') : Takes p act k' Q q := hk ▸ h

theorem Takes.imp (h : Takes p act k Q q) (hQ : ∀ a, Q a → Q' a) : Takes p act k Q' q := by
  intro st hst
  have hact := h st hst
  cases hres : act st with
  | error e st' =>
    rw [hres] at hact
    exact hact
  | ok a st' =>
    rw [hres] at hact
    exact ⟨hact.1, hQ a hact.2.1, hact.2.2⟩

/-- An action that needs no levels before one that does. -/
theorem Takes.step (h : Takes p act 0 Q q) (hf : ∀ a, Q a → Takes q (f a) k R r) :
    Takes p (act >>= f) k R r :=
  (h.bind hf).of_eq (Nat.zero_max k)

/-- Levels that are there anyway can be counted. -/
theorem Takes.raise (h : Takes p act k Q q) (hk : k' ≤ maxLevels) : Takes p act (max k' k) Q q := by
  intro st hst
  have hact := h st hst
  cases hres : act st with
  | error e st' =>
    rw [hres] at hact
    exact ⟨by omega, hact.2⟩
  | ok a st' =>
    rw [hres] at hact
    exact ⟨by omega, hact.2⟩

/-- An action before one that needs no levels. -/
theorem Takes.done (h : Takes p act k Q q) (hf : ∀ a, Q a → Takes q (f a) 0 R r) :
    Takes p (act >>= f) k R r :=
  (h.bind hf).of_eq (Nat.max_zero k)

theorem Takes.assoc {γ : Type} {g : β → Parse γ} {R : γ → Prop}
    (h : Takes p ((act >>= f) >>= g) k R q) : Takes p (act >>= fun a => f a >>= g) k R q := by
  rwa [bind_assoc] at h

end Rules

/-! ## The current token -/

section Tokens

variable {p : Ahead} {w : Word} {ws : List Word} {n : Nat}

theorem takes_get : Takes p get 0 p.At p := .of_ok fun st hst => ⟨st, st, rfl, hst, hst⟩

theorem takes_current : Takes p current 0 (fun t => t.kind = nextKind p.words) p :=
  (takes_get).step fun _ hst => takes_pure hst.current_kind

/-- The token is this word, in some line. -/
def IsWord (w : Word) (t : Token) : Prop := ∃ line, t = w.token line

theorem takes_current_word :
    Takes ⟨w :: ws, n⟩ current 0 (IsWord w) ⟨w :: ws, n⟩ :=
  (takes_get).step fun _ hst => takes_pure hst.step.1

theorem takes_currentKind : Takes p currentKind 0 (· = nextKind p.words) p :=
  (takes_current).step fun _ ht => takes_pure ht

theorem takes_checkError : Takes p checkError 0 (fun _ => True) p := by
  refine (takes_get).step fun st hst => ?_
  rw [if_neg hst.current_ne_error]
  exact takes_pure trivial

theorem takes_advance : Takes ⟨w :: ws, n⟩ advance 0 (IsWord w) ⟨ws, n⟩ := by
  have hmodify : Takes ⟨w :: ws, n⟩
      (modify fun s => { s with tokens := s.tokens.tail } : Parse Unit) 0 (fun _ => True) ⟨ws, n⟩ :=
    .of_ok fun st hst => ⟨(), _, rfl, trivial, hst.step.2⟩
  exact (takes_current_word).step fun t ht => hmodify.step fun _ _ =>
    (takes_checkError).step fun _ _ => takes_pure ht

theorem takes_check (k : TokenKind) : Takes p (check k) 0 (· = decide (nextKind p.words = k)) p :=
  (takes_currentKind).step fun kind hkind => takes_pure (by rw [hkind])

theorem takes_accept {k : TokenKind} (h : w.kind = k) :
    Takes ⟨w :: ws, n⟩ (accept k) 0 (· = true) ⟨ws, n⟩ := by
  refine (takes_check k).step fun b hb => ?_
  rw [if_pos (hb.trans (decide_eq_true h))]
  exact (takes_advance).step fun _ _ => takes_pure rfl

/-- A token of another kind is left where it stands. -/
theorem takes_accept_none {k : TokenKind} (h : nextKind p.words ≠ k) :
    Takes p (accept k) 0 (· = false) p := by
  refine (takes_check k).step fun b hb => ?_
  rw [hb, if_neg (by simpa using h)]
  exact takes_pure rfl

theorem takes_consume {k : TokenKind} (c : Complaint) (h : w.kind = k) :
    Takes ⟨w :: ws, n⟩ (consume k c) 0 (IsWord w) ⟨ws, n⟩ := by
  refine (takes_check k).step fun b hb => ?_
  rw [if_pos (hb.trans (decide_eq_true h))]
  exact takes_advance

theorem takes_consumeSymbol (s : Symbol) :
    Takes ⟨.symbol s :: ws, n⟩ (consumeSymbol s) 0 (fun _ => True) ⟨ws, n⟩ :=
  (takes_consume _ rfl).step fun _ _ => takes_pure trivial

theorem takes_consumeKeyword (k : Keyword) :
    Takes ⟨.keyword k :: ws, n⟩ (consumeKeyword k) 0 (fun _ => True) ⟨ws, n⟩ :=
  (takes_consume _ rfl).step fun _ _ => takes_pure trivial

theorem takes_closing (k : Keyword) (opener : String) (line : Nat) :
    Takes ⟨.keyword k :: ws, n⟩ (closing k opener line) 0 (fun _ => True) ⟨ws, n⟩ :=
  (takes_consume _ rfl).imp fun _ _ => trivial

theorem takes_identifier (s : String) :
    Takes ⟨.name s :: ws, n⟩ identifier 0 (fun t => t.text = s) ⟨ws, n⟩ :=
  (takes_consume _ rfl).imp fun _ ⟨_, ht⟩ => ht ▸ rfl

theorem takes_binder (name : String) (constant : Bool) :
    Takes ⟨ws, n⟩ (binder name constant) 0 (· = ⟨name, n, constant⟩) ⟨ws, n + 1⟩ :=
  .of_ok fun _ hst => ⟨_, _, rfl, congrArg (Binder.mk name · constant) hst.2, hst.1,
    congrArg (· + 1) hst.2⟩

theorem takes_enter (depth : Nat) :
    Takes p (enter depth) (depth + 1) (fun d => d = depth + 1 ∧ depth + 1 ≤ maxLevels) p := by
  unfold enter
  by_cases h : maxLevels ≤ depth
  · rw [if_pos h]
    intro st _
    exact ⟨Nat.lt_succ_of_le h, _, rfl⟩
  · rw [if_neg h]
    intro st hst
    have hdepth : depth + 1 ≤ maxLevels := by omega
    exact ⟨hdepth, ⟨rfl, hdepth⟩, hst⟩

end Tokens
end Parser
end LuaMachine
