import TacticNotation.Proofs.Token.Lexing

/-!
# Tokens written one after the other

Written down without anything between them, tokens are read back as they were
unless two neighbours run together.  There are four ways to do so: an atom goes on
with an atom, blank space with blank space and a name with a character of a name,
and a brace with a marker after it opens a repetition.  No other neighbours can be
mistaken, whatever the characters of the atoms are.

Reading back gives the tokens only.  Blank space is written as one space, so the
text of the tokens of a text need not be that text.
-/

namespace TacticNotation
namespace Token

/-- Whether two tokens, the one directly after the other, are not read as these
two. -/
def runTogether : Token → Token → Bool
  | .atom _, .atom _ => true
  | .gap, .gap => true
  | .hole _, .atom next => next.toList.head?.any isNameChar
  | .braceOpen, .atom next => next.toList.head?.any fun c => c == '+' || c == '*' || c == '?'
  | _, _ => false

theorem isSome_ofChar? (c : Char) :
    (Marker.ofChar? c).isSome = (c == '+' || c == '*' || c == '?') := by
  by_cases h : ∃ marker : Marker, c = marker.char
  · obtain ⟨marker, rfl⟩ := h
    rw [Marker.ofChar?_char]
    cases marker <;> rfl
  · have hnone : Marker.ofChar? c = none :=
      Option.eq_none_iff_forall_ne_some.2 fun marker hmarker =>
        h ⟨marker, Marker.ofChar?_eq_some_iff.1 hmarker⟩
    have hplus : c ≠ '+' := fun hc => h ⟨.oneOrMore, hc⟩
    have hstar : c ≠ '*' := fun hc => h ⟨.zeroOrMore, hc⟩
    have hquestion : c ≠ '?' := fun hc => h ⟨.optional, hc⟩
    simp [hnone, hplus, hstar, hquestion]

/-- Whether a token would take up the start of an atom is seen from the first
character of the atom. -/
theorem joins_atom (token : Token) {text : String} (h : (atom text).Valid) :
    token.joins (.atom text) = token.runTogether (.atom text) := by
  obtain ⟨hne, hall⟩ := h
  obtain ⟨c, more, hchars⟩ := List.exists_cons_of_ne_nil hne
  have hc : isAtomChar c = true := hall c (by rw [hchars]; exact List.mem_cons_self)
  have hjoins : token.joins (.atom text) = token.takes c := by
    rw [joins, Token.text, hchars]
    rfl
  rw [hjoins]
  cases token with
  | atom other => exact hc
  | gap => exact (isAtomChar_iff.1 hc).2.2.2.2
  | braceOpen =>
      rw [runTogether, hchars]
      exact isSome_ofChar? c
  | hole id =>
      rw [runTogether, hchars]
      rfl
  | _ => rfl

/-- No token takes up a sigil, a brace or a pipe. -/
theorem takes_sign (token : Token) {c : Char} (h : c = '@' ∨ c = '{' ∨ c = '}' ∨ c = '|') :
    token.takes c = false := by
  rcases h with rfl | rfl | rfl | rfl <;> cases token <;> rfl

/-- A token takes up the start of the next one precisely if the two run
together. -/
theorem joins_eq_runTogether (token : Token) {next : Token} (h : next.Valid) :
    token.joins next = token.runTogether next := by
  have hnot (hatom : ∀ text, next ≠ .atom text) (hgap : next ≠ .gap) :
      token.runTogether next = false := by
    cases next with
    | atom text => exact absurd rfl (hatom text)
    | gap => exact absurd rfl hgap
    | _ => cases token <;> rfl
  cases next with
  | atom text => exact joins_atom token h
  | gap => cases token <;> rfl
  | hole id =>
      have hfirst : token.joins (.hole id) = token.takes '@' := by
        rw [joins, toList_text_hole]
        rfl
      rw [hfirst, takes_sign token (Or.inl rfl), hnot (by simp) (by simp)]
  | repeatOpen marker =>
      have hfirst : token.joins (.repeatOpen marker) = token.takes '{' := by
        rw [joins, text, String.toList_ofList]
        rfl
      rw [hfirst, takes_sign token (by simp), hnot (by simp) (by simp)]
  | _ => cases token <;> rfl

end Token

/-- Tokens are apart if each of them can be written down and no two neighbours run
together. -/
theorem apart_iff {tokens : List Token} :
    Apart tokens ↔ (∀ token ∈ tokens, token.Valid) ∧
      tokens.IsChain fun token next => token.runTogether next = false := by
  constructor
  · intro h
    refine ⟨h.valid, h.chain.imp_of_mem_imp ?_⟩
    intro token next _ hnext hjoins
    rwa [token.joins_eq_runTogether (h.valid next hnext)] at hjoins
  · rintro ⟨hvalid, hchain⟩
    refine ⟨hvalid, hchain.imp_of_mem_imp ?_⟩
    intro token next _ hnext happart
    rwa [token.joins_eq_runTogether (hvalid next hnext)]

/-- The lexer finds these tokens in a text. -/
def Finds (source : String) (tokens : List Token) : Prop :=
  ∃ lexemes, lex source = .ok lexemes ∧ lexemes.map Lexeme.token = tokens

theorem Finds.apart {source : String} {tokens : List Token} (h : Finds source tokens) :
    Apart tokens := by
  obtain ⟨lexemes, hlex, rfl⟩ := h
  exact apart_of_lex hlex

/-- Tokens are found again in their text precisely if each of them can be written
down and no two neighbours run together.  So the tokens of any text are found
again in what they are written as. -/
theorem finds_textAll :
    (∀ tokens, Finds (Token.textAll tokens) tokens ↔ (∀ token ∈ tokens, token.Valid) ∧
        tokens.IsChain fun token next => token.runTogether next = false) ∧
      ∀ source tokens, Finds source tokens → Finds (Token.textAll tokens) tokens := by
  refine ⟨?_, ?_⟩
  · intro tokens
    rw [← apart_iff]
    exact ⟨Finds.apart, lex_textAll⟩
  · intro source tokens h
    exact lex_textAll h.apart

/-- A marker that is no neighbour of a brace is text, pipes and holes need nothing
between them, and other blanks are read as those that are written. -/
theorem finds_textAll_neighbours :
    let tokens : List Token := [.braceOpen, .gap, .atom "+", .hole "x", .atom "-", .hole "y",
      .pipe, .pipe, .repeatOpen .zeroOrMore, .atom "+", .braceClose]
    Token.textAll tokens = "\x7b +@x-@y||\x7b*+\x7d" ∧ Finds (Token.textAll tokens) tokens ∧
      Finds "\t\n@x\r" [.gap, .hole "x", .gap] ∧
      Finds (Token.textAll [.gap, .hole "x", .gap]) [.gap, .hole "x", .gap] := by
  intro tokens
  have htokens : Finds (Token.textAll tokens) tokens :=
    (finds_textAll.1 tokens).2 ⟨by decide, by decide⟩
  have hblanks : Finds "\t\n@x\r" [.gap, .hole "x", .gap] :=
    ⟨[⟨.gap, 0, 2⟩, ⟨.hole "x", 2, 4⟩, ⟨.gap, 4, 5⟩], by decide +kernel, rfl⟩
  exact ⟨by decide +kernel, htokens, hblanks, finds_textAll.2 _ _ hblanks⟩

end TacticNotation
