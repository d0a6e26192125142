import Mathlib.Data.List.Chain
import TacticNotation.Token.Lexer

/-!
# What the lexer does

`Token.read?` takes a token off the front of a text precisely if the characters
spell the token and the character after them does not belong to it
(`Token.read?_eq_some_iff`).  Tokens of which none would take up the start of the
next are `Apart`: the lexer gives nothing else, and what is apart it gives back
when it is written down.  `Spelled` says in one relation which tokens it finds in
a text.

The lexer fails only at a sigil that no name follows, and then at the first one.
-/

namespace TacticNotation
namespace Token

/-! ## Spellings -/

/-- Whether a token can be written down: names and atoms have at least one
character and none that is not allowed there. -/
def Valid : Token → Prop
  | .hole id => id.toList ≠ [] ∧ ∀ c ∈ id.toList, isNameChar c = true
  | .atom text => text.toList ≠ [] ∧ ∀ c ∈ text.toList, isAtomChar c = true
  | .repeatOpen _ | .braceOpen | .braceClose | .pipe | .gap => True

instance : DecidablePred Valid
  | .hole id =>
      decidable_of_iff (id.toList ≠ [] ∧ id.toList.all isNameChar = true) (by simp [Valid])
  | .atom text =>
      decidable_of_iff (text.toList ≠ [] ∧ text.toList.all isAtomChar = true) (by simp [Valid])
  | .repeatOpen _ | .braceOpen | .braceClose | .pipe | .gap => inferInstanceAs (Decidable True)

/-- Whether a run of characters is one of the ways to write a token. -/
def Spells (run : List Char) : Token → Prop
  | .gap => run ≠ [] ∧ ∀ c ∈ run, isGap c = true
  | token => token.Valid ∧ run = token.text.toList

/-- Whether a character directly after a token would belong to it. -/
def takes : Token → Char → Bool
  | .braceOpen, c => (Marker.ofChar? c).isSome
  | .hole _, c => isNameChar c
  | .gap, c => isGap c
  | .atom _, c => isAtomChar c
  | .repeatOpen _, _ | .braceClose, _ | .pipe, _ => false

/-- Whether a token would take up the first character of another one directly
after it. -/
def joins (token next : Token) : Bool :=
  next.text.toList.head?.any token.takes

theorem toList_text_hole (id : String) : (hole id).text.toList = '@' :: id.toList := by
  simp [text]

theorem text_ne_nil {token : Token} (h : token.Valid) : token.text.toList ≠ [] := by
  cases token with
  | hole id => simp [text]
  | atom text => exact h.1
  | repeatOpen marker => simp [text]
  | _ => simp [text]

theorem spells_text (token : Token) (h : token.Valid) : Spells token.text.toList token := by
  cases token with
  | gap => exact ⟨by simp [text], by simp [text, isGap]⟩
  | _ => exact ⟨h, rfl⟩

theorem Spells.valid {run : List Char} {token : Token} (h : Spells run token) : token.Valid := by
  cases token with
  | gap => exact trivial
  | _ => exact h.1

theorem Spells.ne_nil {run : List Char} {token : Token} (h : Spells run token) : run ≠ [] := by
  cases token with
  | gap => exact h.1
  | _ =>
      rw [h.2]
      exact text_ne_nil h.1

/-- Only a gap is written in more than one way. -/
theorem Spells.eq_text {run : List Char} {token : Token} (h : Spells run token)
    (htoken : token ≠ .gap) : run = token.text.toList := by
  cases token with
  | gap => exact absurd rfl htoken
  | _ => exact h.2

/-! ## Classes of characters -/

/-- A character of a class differs from every character outside it. -/
theorem ne_of_accepted {accepts : Char → Bool} {c sign : Char} (hc : accepts c = true)
    (hsign : accepts sign = false) : c ≠ sign := by
  intro heq
  rw [heq, hsign] at hc
  cases hc

theorem takes_of_isGap {c : Char} (h : isGap c = true) (token : Token) :
    token.takes c = token.takes ' ' := by
  have hgap : c = ' ' ∨ c = '\t' ∨ c = '\r' ∨ c = '\n' := by
    simpa [isGap, or_assoc] using h
  rcases hgap with rfl | rfl | rfl | rfl <;> cases token <;> rfl

theorem isAtomChar_iff {c : Char} :
    isAtomChar c = true ↔ c ≠ '{' ∧ c ≠ '}' ∧ c ≠ '|' ∧ c ≠ '@' ∧ isGap c = false := by
  simp only [isAtomChar, Bool.not_eq_true', Bool.or_eq_false_iff, beq_eq_false_iff_ne, ne_eq]
  tauto

/-- The first character of every spelling of a token is as good as that of its
text. -/
theorem joins_of_spells (token : Token) {next : Token} {run : List Char} (h : Spells run next) :
    run.head?.any token.takes = token.joins next := by
  cases next with
  | gap =>
      obtain ⟨hne, hall⟩ := h
      cases run with
      | nil => exact absurd rfl hne
      | cons c more => exact takes_of_isGap (hall c (by simp)) token
  | _ => rw [joins, h.2]

/-- Blank space takes the start of no other token up. -/
theorem gap_joins {next : Token} (h : next ≠ .gap) (hvalid : next.Valid) :
    Token.gap.joins next = false := by
  cases next with
  | gap => exact absurd rfl h
  | hole id => simp [joins, text, takes, isGap]
  | repeatOpen marker => simp [joins, text, takes, isGap]
  | atom text =>
      obtain ⟨-, hall⟩ := hvalid
      rw [joins, Token.text]
      cases htext : text.toList with
      | nil => rfl
      | cons c more =>
          rw [htext] at hall
          exact (isAtomChar_iff.1 (hall c (by simp))).2.2.2.2
  | _ => decide

/-- No other token takes blank space up. -/
theorem joins_gap {token : Token} (h : token ≠ .gap) : token.joins .gap = false := by
  cases token with
  | gap => exact absurd rfl h
  | _ => rfl

/-! ## The longest token -/

theorem span_eq {accepts : Char → Bool} {run rest : List Char}
    (hrun : ∀ c ∈ run, accepts c = true) (hrest : rest.head?.any accepts = false) :
    (run ++ rest).takeWhile accepts = run ∧ (run ++ rest).dropWhile accepts = rest := by
  have hstop : rest.takeWhile accepts = [] ∧ rest.dropWhile accepts = rest := by
    cases rest with
    | nil => exact ⟨rfl, rfl⟩
    | cons c more =>
        have hc : ¬ accepts c = true := by simpa using hrest
        exact ⟨List.takeWhile_cons_of_neg hc, List.dropWhile_cons_of_neg hc⟩
  rw [List.takeWhile_append_of_pos hrun, List.dropWhile_append_of_pos hrun, hstop.1, hstop.2,
    List.append_nil]
  exact ⟨rfl, rfl⟩

theorem any_head?_dropWhile (accepts : Char → Bool) (chars : List Char) :
    (chars.dropWhile accepts).head?.any accepts = false := by
  have hnot := List.head?_dropWhile_not accepts chars
  cases h : (chars.dropWhile accepts).head? with
  | none => rfl
  | some c =>
      rw [h] at hnot
      exact hnot

/-- A token that is complete as it stands takes up nothing after it. -/
theorem any_head?_takes {token : Token} (h : ∀ c, token.takes c = false) (rest : List Char) :
    rest.head?.any token.takes = false := by
  cases rest with
  | nil => rfl
  | cons c rest => exact h c

theorem spells_of_read? {c : Char} {rest : List Char} {cut : Cut}
    (h : read? c rest = some cut) :
    Spells cut.run cut.token ∧ cut.rest.head?.any cut.token.takes = false := by
  unfold read? at h
  -- The cases are those of the first character, in the order of the definition.
  split at h
  · next hc =>
    subst hc
    split at h
    · cases h
      exact ⟨spells_text braceOpen trivial, rfl⟩
    · next d rest' =>
      split at h
      · next marker hmarker =>
        cases h
        rw [Marker.ofChar?_eq_some_iff.1 hmarker]
        exact ⟨⟨trivial, String.toList_ofList.symm⟩, any_head?_takes (fun _ => rfl) _⟩
      · next hmarker =>
        cases h
        exact ⟨spells_text braceOpen trivial, by simp [takes, hmarker]⟩
  · next hopen =>
    split at h
    · next hc =>
      cases h
      rw [hc]
      exact ⟨spells_text braceClose trivial, any_head?_takes (fun _ => rfl) _⟩
    · next hclose =>
      split at h
      · next hc =>
        cases h
        rw [hc]
        exact ⟨spells_text pipe trivial, any_head?_takes (fun _ => rfl) _⟩
      · next hpipe =>
        split at h
        · next hc =>
          split at h
          · cases h
          · next hname =>
            cases h
            have hall : ∀ c ∈ rest.takeWhile isNameChar, isNameChar c = true :=
              List.all_eq_true.1 List.all_takeWhile
            refine ⟨⟨⟨?_, ?_⟩, ?_⟩, any_head?_dropWhile isNameChar rest⟩
            · rw [String.toList_ofList]
              exact hname
            · rw [String.toList_ofList]
              exact hall
            · simp [text, hc]
        · next hsigil =>
          split at h
          · next hgap =>
            cases h
            refine ⟨⟨List.cons_ne_nil _ _, ?_⟩, any_head?_dropWhile isGap rest⟩
            exact List.forall_mem_cons.2 ⟨hgap, List.all_eq_true.1 List.all_takeWhile⟩
          · next hgap =>
            cases h
            have hatom : isAtomChar c = true :=
              isAtomChar_iff.2 ⟨hopen, hclose, hpipe, hsigil, Bool.eq_false_iff.2 hgap⟩
            refine ⟨⟨⟨?_, ?_⟩, String.toList_ofList.symm⟩, any_head?_dropWhile isAtomChar rest⟩
            · rw [String.toList_ofList]
              exact List.cons_ne_nil _ _
            · rw [String.toList_ofList]
              exact List.forall_mem_cons.2 ⟨hatom, List.all_eq_true.1 List.all_takeWhile⟩

theorem read?_of_spells {token : Token} {run rest : List Char} (h : Spells run token)
    (hrest : rest.head?.any token.takes = false) :
    ∃ c more, run = c :: more ∧ read? c (more ++ rest) = some ⟨token, run, rest⟩ := by
  cases token with
  | repeatOpen marker =>
      obtain ⟨-, rfl⟩ := h
      refine ⟨'{', [marker.char], String.toList_ofList, ?_⟩
      simp [read?, Marker.ofChar?_char, text]
  | braceOpen =>
      obtain ⟨-, rfl⟩ := h
      refine ⟨'{', [], rfl, ?_⟩
      cases rest with
      | nil => rfl
      | cons d rest =>
          have hmarker : Marker.ofChar? d = none := by simpa [takes] using hrest
          simp [read?, hmarker, text]
  | braceClose =>
      obtain ⟨-, rfl⟩ := h
      exact ⟨'}', [], rfl, rfl⟩
  | pipe =>
      obtain ⟨-, rfl⟩ := h
      exact ⟨'|', [], rfl, rfl⟩
  | hole id =>
      obtain ⟨⟨hne, hall⟩, rfl⟩ := h
      refine ⟨'@', id.toList, by simp [text], ?_⟩
      obtain ⟨htake, hdrop⟩ := span_eq hall hrest
      cases hid : id.toList with
      | nil => exact absurd hid hne
      | cons c more =>
          rw [hid, List.cons_append] at htake hdrop
          have hofList : String.ofList (c :: more) = id := by rw [← hid, String.ofList_toList]
          simp [read?, htake, hdrop, hofList, text, hid]
  | gap =>
      obtain ⟨hne, hall⟩ := h
      cases run with
      | nil => exact absurd rfl hne
      | cons c more =>
          obtain ⟨hc, hmore⟩ := List.forall_mem_cons.1 hall
          obtain ⟨htake, hdrop⟩ := span_eq hmore hrest
          refine ⟨c, more, rfl, ?_⟩
          have hcases : c ≠ '{' ∧ c ≠ '}' ∧ c ≠ '|' ∧ c ≠ '@' := by
            refine ⟨?_, ?_, ?_, ?_⟩ <;> rintro rfl <;> revert hc <;> decide
          simp [read?, hcases, hc, htake, hdrop]
  | atom text =>
      obtain ⟨⟨hne, hall⟩, hrun⟩ := h
      rw [Token.text] at hrun
      rw [← hrun] at hne hall
      cases run with
      | nil => exact absurd rfl hne
      | cons c more =>
          obtain ⟨hc, hmore⟩ := List.forall_mem_cons.1 hall
          obtain ⟨htake, hdrop⟩ := span_eq hmore hrest
          obtain ⟨hopen, hclose, hpipe, hsigil, hgap⟩ := isAtomChar_iff.1 hc
          refine ⟨c, more, rfl, ?_⟩
          have hofList : String.ofList (c :: more) = text := by rw [hrun, String.ofList_toList]
          simp [read?, hopen, hclose, hpipe, hsigil, hgap, htake, hdrop, hofList]

/-- A token is taken off the front of a text precisely if the characters before
the rest spell it and none after them belongs to it. -/
theorem read?_eq_some_iff {c : Char} {rest : List Char} {cut : Cut} :
    read? c rest = some cut ↔ cut.run ++ cut.rest = c :: rest ∧ Spells cut.run cut.token ∧
      cut.rest.head?.any cut.token.takes = false := by
  constructor
  · exact fun h => ⟨(read?_split h).1, spells_of_read? h⟩
  · rintro ⟨hsplit, hspells, hrest⟩
    obtain ⟨d, more, hrun, hread⟩ := read?_of_spells hspells hrest
    rw [hrun, List.cons_append] at hsplit
    cases hsplit
    exact hread

end Token

/-! ## Lists of tokens -/

/-- Tokens that can be written down one directly after the other so that each
of them can be told from the next. -/
structure Apart (tokens : List Token) : Prop where
  valid : ∀ token ∈ tokens, token.Valid
  chain : tokens.IsChain fun token next => token.joins next = false

instance (tokens : List Token) : Decidable (Apart tokens) :=
  decidable_of_iff (_ ∧ _) ⟨fun h => ⟨h.1, h.2⟩, fun h => ⟨h.valid, h.chain⟩⟩

/-- The text of some tokens, one directly after the other. -/
def Token.textAll : List Token → String
  | [] => ""
  | token :: tokens => token.text ++ textAll tokens

theorem apart_append {front back : List Token} :
    Apart (front ++ back) ↔ Apart front ∧ Apart back ∧
      ∀ token ∈ front.getLast?, ∀ next ∈ back.head?, token.joins next = false := by
  constructor
  · rintro ⟨hvalid, hchain⟩
    obtain ⟨hfront, hback⟩ := List.forall_mem_append.1 hvalid
    obtain ⟨hchainFront, hchainBack, hborder⟩ := List.isChain_append.1 hchain
    exact ⟨⟨hfront, hchainFront⟩, ⟨hback, hchainBack⟩, hborder⟩
  · rintro ⟨hfront, hback, hborder⟩
    exact ⟨List.forall_mem_append.2 ⟨hfront.valid, hback.valid⟩,
      List.isChain_append.2 ⟨hfront.chain, hback.chain, hborder⟩⟩

theorem Apart.left {front back : List Token} (h : Apart (front ++ back)) : Apart front :=
  (apart_append.1 h).1

theorem Apart.right {front back : List Token} (h : Apart (front ++ back)) : Apart back :=
  (apart_append.1 h).2.1

theorem Apart.tail {token : Token} {tokens : List Token} (h : Apart (token :: tokens)) :
    Apart tokens :=
  (List.singleton_append ▸ h : Apart ([token] ++ tokens)).right

theorem Token.textAll_append (front back : List Token) :
    textAll (front ++ back) = textAll front ++ textAll back := by
  induction front with
  | nil => simp [textAll]
  | cons token front ih => simp [textAll, ih, String.append_assoc]

theorem lexFrom_of_read?_eq_none {c : Char} {rest : List Char} (h : Token.read? c rest = none)
    (start : Nat) : lexFrom start (c :: rest) = .error start := by
  rw [lexFrom]
  split
  · rfl
  · next cut hread =>
    rw [h] at hread
    cases hread

theorem lexFrom_of_read? {c : Char} {rest : List Char} {cut : Token.Cut}
    (h : Token.read? c rest = some cut) (start : Nat) :
    lexFrom start (c :: rest) =
      (lexFrom (start + utf8Width cut.run) cut.rest).map
        (⟨cut.token, start, start + utf8Width cut.run⟩ :: ·) := by
  rw [lexFrom]
  split
  · next hread =>
    rw [h] at hread
    cases hread
  · next cut' hread =>
    rw [h] at hread
    cases hread
    cases hmore : lexFrom (start + utf8Width cut.run) cut.rest <;> simp [hmore, Except.map]

theorem lexFrom_cons_eq_ok {start : Nat} {c : Char} {rest : List Char} {lexemes : List Lexeme}
    (h : lexFrom start (c :: rest) = .ok lexemes) :
    ∃ cut more, Token.read? c rest = some cut ∧
      lexFrom (start + utf8Width cut.run) cut.rest = .ok more ∧
      lexemes = ⟨cut.token, start, start + utf8Width cut.run⟩ :: more := by
  cases hread : Token.read? c rest with
  | none =>
      rw [lexFrom_of_read?_eq_none hread] at h
      cases h
  | some cut =>
      rw [lexFrom_of_read? hread] at h
      cases hmore : lexFrom (start + utf8Width cut.run) cut.rest with
      | error offset =>
          rw [hmore] at h
          cases h
      | ok more =>
          rw [hmore] at h
          cases h
          exact ⟨cut, more, rfl, hmore, rfl⟩

/-- Every lexeme has the width of some spelling of its token. -/
theorem spells_of_lexFrom {start : Nat} {chars : List Char} {lexemes : List Lexeme}
    (h : lexFrom start chars = .ok lexemes) :
    ∀ lexeme ∈ lexemes, ∃ run, lexeme.token.Spells run ∧
      lexeme.stop = lexeme.start + utf8Width run := by
  induction lexemes generalizing start chars with
  | nil => exact fun _ hmem => absurd hmem List.not_mem_nil
  | cons first lexemes ih =>
      cases chars with
      | nil =>
          rw [lexFrom] at h
          cases h
      | cons c rest =>
          obtain ⟨cut, more, hread, hmore, heq⟩ := lexFrom_cons_eq_ok h
          cases heq
          refine List.forall_mem_cons.2 ⟨?_, ih hmore⟩
          exact ⟨cut.run, (Token.read?_eq_some_iff.1 hread).2.1, rfl⟩

/-! ## Spelled texts -/

/-- The characters are spellings of the tokens one after the other, and no token
could be longer than it is. -/
inductive Spelled : List Token → List Char → Prop where
  | nil : Spelled [] []
  | cons {token : Token} {tokens : List Token} {run rest : List Char} (hrun : token.Spells run)
      (hrest : rest.head?.any token.takes = false) (htokens : Spelled tokens rest) :
      Spelled (token :: tokens) (run ++ rest)

namespace Spelled

variable {tokens : List Token} {chars : List Char}

/-- What would belong to a token at the start of a text would belong to it at the
start of the first token. -/
theorem head?_any (h : Spelled tokens chars) (token : Token) :
    tokens.head?.any token.joins = chars.head?.any token.takes := by
  cases h with
  | nil => rfl
  | @cons first tokens run rest hrun hrest htokens =>
      have hjoins := Token.joins_of_spells token hrun
      cases hcase : run with
      | nil => exact absurd hcase hrun.ne_nil
      | cons c more =>
          rw [hcase] at hjoins
          exact hjoins.symm

theorem apart (h : Spelled tokens chars) : Apart tokens := by
  induction h with
  | nil => exact ⟨by simp, List.IsChain.nil⟩
  | cons hrun hrest htokens ih =>
      refine ⟨List.forall_mem_cons.2 ⟨hrun.valid, ih.valid⟩, ?_⟩
      rw [List.isChain_cons]
      refine ⟨?_, ih.chain⟩
      rw [← htokens.head?_any, Option.any_eq_false] at hrest
      intro next hnext
      simpa using hrest next hnext

/-- Tokens can be written in front of others. -/
theorem append {front : List Token} (h : Spelled tokens chars) (happart : Apart (front ++ tokens)) :
    Spelled (front ++ tokens) ((Token.textAll front).toList ++ chars) := by
  induction front with
  | nil => exact h
  | cons token front ih =>
      obtain ⟨hvalid, hchain⟩ := happart
      obtain ⟨htoken, hvalid⟩ := List.forall_mem_cons.1 hvalid
      rw [List.cons_append, List.isChain_cons] at hchain
      have hmore := ih ⟨hvalid, hchain.2⟩
      have hrest : ((Token.textAll front).toList ++ chars).head?.any token.takes = false := by
        rw [← hmore.head?_any, Option.any_eq_false]
        intro next hnext
        simpa using hchain.1 next hnext
      rw [List.cons_append, Token.textAll, String.toList_append, List.append_assoc]
      exact .cons (Token.spells_text token htoken) hrest hmore

/-- The lexer finds the tokens that a text spells. -/
theorem exists_lexFrom (h : Spelled tokens chars) (start : Nat) :
    ∃ lexemes, lexFrom start chars = .ok lexemes ∧ lexemes.map Lexeme.token = tokens := by
  induction h generalizing start with
  | nil => exact ⟨[], by rw [lexFrom], rfl⟩
  | @cons token tokens run rest hrun hrest htokens ih =>
      obtain ⟨c, more, rfl, hread⟩ := Token.read?_of_spells hrun hrest
      obtain ⟨lexemes, hlexemes, hmap⟩ := ih (start + utf8Width (c :: more))
      refine ⟨⟨token, start, start + utf8Width (c :: more)⟩ :: lexemes, ?_, ?_⟩
      · rw [List.cons_append, lexFrom_of_read? hread, hlexemes]
        rfl
      · rw [List.map_cons, hmap]

end Spelled

/-- The lexer gives the tokens that the text spells. -/
theorem spelled_of_lexFrom {start : Nat} {chars : List Char} {lexemes : List Lexeme}
    (h : lexFrom start chars = .ok lexemes) : Spelled (lexemes.map Lexeme.token) chars := by
  induction lexemes generalizing start chars with
  | nil =>
      cases chars with
      | nil => exact .nil
      | cons c rest =>
          obtain ⟨cut, more, -, -, heq⟩ := lexFrom_cons_eq_ok h
          cases heq
  | cons first lexemes ih =>
      cases chars with
      | nil =>
          rw [lexFrom] at h
          cases h
      | cons c rest =>
          obtain ⟨cut, more, hread, hmore, heq⟩ := lexFrom_cons_eq_ok h
          cases heq
          obtain ⟨hsplit, hspells, hrest⟩ := Token.read?_eq_some_iff.1 hread
          rw [← hsplit]
          exact .cons hspells hrest (ih hmore)

/-- The lexer gives tokens that are apart. -/
theorem apart_of_lexFrom {start : Nat} {chars : List Char} {lexemes : List Lexeme}
    (h : lexFrom start chars = .ok lexemes) : Apart (lexemes.map Lexeme.token) :=
  (spelled_of_lexFrom h).apart

/-- Tokens that are apart are found again in their text. -/
theorem lexFrom_textAll {tokens : List Token} (h : Apart tokens) (start : Nat) :
    ∃ lexemes, lexFrom start (Token.textAll tokens).toList = .ok lexemes ∧
      lexemes.map Lexeme.token = tokens := by
  have hspelled := Spelled.nil.append (by rwa [List.append_nil])
  rw [List.append_nil, List.append_nil] at hspelled
  exact hspelled.exists_lexFrom start

theorem lexFrom_of_lex {source : String} {lexemes : List Lexeme} (h : lex source = .ok lexemes) :
    lexFrom 0 source.toList = .ok lexemes := by
  unfold lex at h
  split at h
  · next hlexFrom =>
    cases h
    exact hlexFrom
  · cases h

theorem apart_of_lex {source : String} {lexemes : List Lexeme} (h : lex source = .ok lexemes) :
    Apart (lexemes.map Lexeme.token) :=
  apart_of_lexFrom (lexFrom_of_lex h)

theorem lex_textAll {tokens : List Token} (h : Apart tokens) :
    ∃ lexemes, lex (Token.textAll tokens) = .ok lexemes ∧ lexemes.map Lexeme.token = tokens := by
  obtain ⟨lexemes, hlexFrom, hmap⟩ := lexFrom_textAll h 0
  exact ⟨lexemes, by rw [lex, hlexFrom], hmap⟩

/-! ## Bare sigils -/

/-- The byte of the first sigil that no character of a name follows, in a text
whose first character is at byte `offset`. -/
def bareSigil? (offset : Nat) : List Char → Option Nat
  | [] => none
  | c :: rest =>
      if c = '@' && !rest.head?.any isNameChar then some offset
      else bareSigil? (offset + c.utf8Size) rest

theorem bareSigil?_append {run : List Char} (h : ∀ c ∈ run, c ≠ '@') (offset : Nat)
    (rest : List Char) :
    bareSigil? offset (run ++ rest) = bareSigil? (offset + utf8Width run) rest := by
  induction run generalizing offset with
  | nil => rfl
  | cons c run ih =>
      obtain ⟨hc, hrun⟩ := List.forall_mem_cons.1 h
      rw [List.cons_append, bareSigil?]
      simp only [hc, decide_false, Bool.false_and, Bool.false_eq_true, if_false]
      rw [ih hrun, utf8Width_cons, Nat.add_assoc]

/-- A sigil stands at the start of a hole and nowhere else. -/
theorem ne_sigil_of_spells {token : Token} {run : List Char} (h : token.Spells run)
    (htoken : ∀ id, token ≠ .hole id) : ∀ c ∈ run, c ≠ '@' := by
  cases token with
  | hole id => exact absurd rfl (htoken id)
  | gap =>
      intro c hc
      exact Token.ne_of_accepted (h.2 c hc) rfl
  | atom text =>
      obtain ⟨⟨-, hall⟩, rfl⟩ := h
      intro c hc
      exact Token.ne_of_accepted (hall c hc) rfl
  | repeatOpen marker =>
      obtain ⟨-, rfl⟩ := h
      cases marker <;> simp [Token.text, Marker.char]
  | _ =>
      obtain ⟨-, rfl⟩ := h
      simp [Token.text]

theorem ne_sigil_of_isNameChar {chars : List Char} (h : ∀ c ∈ chars, isNameChar c = true) :
    ∀ c ∈ chars, c ≠ '@' := by
  intro c hc
  exact Token.ne_of_accepted (h c hc) rfl

/-- No token holds a bare sigil. -/
theorem bareSigil?_of_spells {token : Token} {run : List Char} (h : token.Spells run)
    (offset : Nat) (rest : List Char) :
    bareSigil? offset (run ++ rest) = bareSigil? (offset + utf8Width run) rest := by
  cases token with
  | hole id =>
      obtain ⟨⟨hne, hall⟩, rfl⟩ := h
      have hhead : (id.toList ++ rest).head?.any isNameChar = true := by
        cases hid : id.toList with
        | nil => exact absurd hid hne
        | cons c more =>
            rw [hid] at hall
            exact hall c (by simp)
      -- The sigil itself has a name after it, and the name holds no other sigil.
      rw [Token.toList_text_hole, List.cons_append, bareSigil?, hhead]
      simp only [Bool.not_true, Bool.and_false, Bool.false_eq_true, if_false]
      rw [bareSigil?_append (ne_sigil_of_isNameChar hall), utf8Width_cons, Nat.add_assoc]
  | _ => exact bareSigil?_append (ne_sigil_of_spells h (by simp)) offset rest

/-- Every other character starts a token. -/
theorem bareSigil_of_read? {c : Char} {rest : List Char} (h : Token.read? c rest = none) :
    c = '@' ∧ rest.head?.any isNameChar = false := by
  unfold Token.read? at h
  split at h
  · split at h
    · cases h
    · split at h <;> cases h
  · split at h
    · cases h
    · split at h
      · cases h
      · split at h
        · next hc =>
          split at h
          · next hname =>
            refine ⟨hc, ?_⟩
            cases rest with
            | nil => rfl
            | cons d rest =>
                have hd : ¬ isNameChar d = true := by
                  intro hd
                  rw [List.takeWhile_cons_of_pos hd] at hname
                  cases hname
                exact Bool.eq_false_iff.2 hd
          · cases h
        · split at h <;> cases h

/-- The lexer fails precisely at the first bare sigil. -/
theorem bareSigil?_eq (start : Nat) (chars : List Char) :
    bareSigil? start chars =
      match lexFrom start chars with
      | .ok _ => none
      | .error offset => some offset := by
  fun_induction lexFrom start chars with
  | case1 => rfl
  | case2 start c rest hread =>
      obtain ⟨rfl, hhead⟩ := bareSigil_of_read? hread
      simp [bareSigil?, hhead]
  | case3 start c rest cut hread stop offset hoffset ih =>
      obtain ⟨hsplit, hspells, -⟩ := Token.read?_eq_some_iff.1 hread
      rw [← hsplit, bareSigil?_of_spells hspells, ih, hoffset]
  | case4 start c rest cut hread stop lexemes hlexemes ih =>
      obtain ⟨hsplit, hspells, -⟩ := Token.read?_eq_some_iff.1 hread
      rw [← hsplit, bareSigil?_of_spells hspells, ih, hlexemes]

end TacticNotation
