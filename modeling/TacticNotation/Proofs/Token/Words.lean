import TacticNotation.Proofs.Grammar.Derivation
import TacticNotation.Proofs.Token.Replacing

/-!
# Words

The words of a text are its maximal runs of characters that are no blanks.  No
token but a gap reaches over a blank, so the lexer reads a text word by word: of a
text between blanks it finds the tokens of the words, each word with a gap before
it (`spelled_words_iff`).  How many blanks there are and which they are makes no
difference, and at the two ends it makes none but for a gap whether there are any.
-/

namespace TacticNotation

open Grammar (gapTokens)

/-! ## The words of a text -/

/-- The words of a text.  Two texts have the same words precisely if one of them
is the other with runs of blanks replaced by other runs of them, and with blanks
added or left out at its two ends. -/
def words (chars : List Char) : List (List Char) :=
  (chars.splitOnP isGap).filter fun word => !word.isEmpty

theorem words_singleton {word : List Char} (hne : word ≠ [])
    (h : ∀ c ∈ word, isGap c = false) : words word = [word] := by
  rw [words, List.splitOnP_eq_singleton h]
  simp [hne]

/-- A blank separates the words before it from those after it. -/
theorem words_append_cons (front : List Char) {c : Char} (hc : isGap c = true)
    (back : List Char) : words (front ++ c :: back) = words front ++ words back := by
  rw [words, List.splitOnP_append_cons _ _ hc, List.filter_append, words, words]

/-- What holds of the empty text and of every word, and of two texts with a blank
between them if it holds of both, holds of every text. -/
theorem words_induction {motive : List Char → Prop} (nil : motive [])
    (word : ∀ word, word ≠ [] → (∀ c ∈ word, isGap c = false) → motive word)
    (blank : ∀ front c back, isGap c = true → motive front → motive back →
      motive (front ++ c :: back)) (chars : List Char) : motive chars := by
  induction hlength : chars.length using Nat.strong_induction_on generalizing chars with
  | _ length ih =>
      by_cases h : ∃ c ∈ chars, isGap c = true
      · obtain ⟨c, hmem, hc⟩ := h
        obtain ⟨front, back, rfl⟩ := List.append_of_mem hmem
        rw [List.length_append, List.length_cons] at hlength
        exact blank front c back hc (ih front.length (by omega) front rfl)
          (ih back.length (by omega) back rfl)
      · by_cases hne : chars = []
        · rw [hne]
          exact nil
        · exact word chars hne fun c hc => Bool.eq_false_iff.2 fun hgap => h ⟨c, hc, hgap⟩

/-- A table expands a text word by word, if its shorthands hold no blanks. -/
theorem ShorthandTable.words_apply {table : ShorthandTable}
    (htable : ∀ entry ∈ table, ∀ c ∈ entry.source.toList, isGap c = false) (text : String) :
    words (table.apply text).toList =
      (words text.toList).flatMap fun word => words (table.apply (String.ofList word)).toList := by
  induction htext : text.toList using words_induction generalizing text with
  | nil =>
      rw [String.toList_eq_nil_iff.1 htext, toList_apply_empty]
      rfl
  | word word hne hword =>
      rw [words_singleton hne hword, List.flatMap_singleton, ← htext, String.ofList_toList]
  | blank front c back hc ihFront ihBack =>
      have hsep : ∀ entry ∈ table, c ∉ entry.source.toList := by
        intro entry hentry hmem
        rw [htable entry hentry c hmem] at hc
        cases hc
      have hsplit : text.toList =
          (String.ofList front).toList ++ c :: (String.ofList back).toList := by
        rw [htext, String.toList_ofList, String.toList_ofList]
      rw [toList_apply_of_append_cons hsep hsplit, words_append_cons _ hc,
        words_append_cons _ hc, List.flatMap_append, ihFront _ String.toList_ofList,
        ihBack _ String.toList_ofList]

/-! ## Tokens and blanks -/

theorem isGap_of_isNameChar {c : Char} (h : isNameChar c = true) : isGap c = false := by
  rw [Bool.eq_false_iff]
  intro hgap
  have htakes : isNameChar c = isNameChar ' ' := Token.takes_of_isGap hgap (.hole "")
  rw [h] at htakes
  exact absurd htakes (by decide)

/-- A gap is the only token that holds blanks. -/
theorem Token.isGap_of_spells {token : Token} {run : List Char} (h : token.Spells run)
    (htoken : token ≠ .gap) : ∀ c ∈ run, isGap c = false := by
  cases token with
  | gap => exact absurd rfl htoken
  | hole id =>
      obtain ⟨⟨-, hall⟩, rfl⟩ := h
      rw [toList_text_hole]
      exact List.forall_mem_cons.2 ⟨by decide, fun c hc => isGap_of_isNameChar (hall c hc)⟩
  | atom text =>
      obtain ⟨⟨-, hall⟩, rfl⟩ := h
      exact fun c hc => (isAtomChar_iff.1 (hall c hc)).2.2.2.2
  | repeatOpen marker =>
      obtain ⟨-, rfl⟩ := h
      cases marker <;> simp [Token.text, Marker.char, isGap]
  | _ =>
      obtain ⟨-, rfl⟩ := h
      simp [Token.text, isGap]

theorem Token.ne_gap_of_spells {token : Token} {run : List Char} (h : token.Spells run)
    {c : Char} (hmem : c ∈ run) (hc : isGap c = false) : token ≠ .gap := by
  rintro rfl
  rw [h.2 c hmem] at hc
  cases hc

/-- No token but a gap takes a blank up. -/
theorem Token.takes_blank {token : Token} (htoken : token ≠ .gap) {c : Char}
    (hc : isGap c = true) : token.takes c = false := by
  rw [takes_of_isGap hc]
  exact joins_gap htoken

/-- A token that begins with a blank is a gap. -/
theorem Token.eq_gap_of_spells {token : Token} {run rest : List Char} (h : token.Spells run)
    {c : Char} {more : List Char} (hrun : run ++ rest = c :: more) (hc : isGap c = true) :
    token = .gap := by
  by_contra htoken
  cases hcase : run with
  | nil => exact h.ne_nil hcase
  | cons d run' =>
      rw [hcase, List.cons_append] at hrun
      cases hrun
      have hd := isGap_of_spells h htoken c (by rw [hcase]; exact List.mem_cons_self)
      rw [hc] at hd
      cases hd

/-! ## Reading word by word -/

/-- Blanks are read as one gap, whatever they are. -/
theorem spelled_gap_iff {run rest : List Char} (hrun : Token.gap.Spells run)
    {tokens : List Token} :
    Spelled tokens (run ++ rest) ↔
      ∃ more, tokens = .gap :: more ∧ Spelled more (rest.dropWhile isGap) := by
  obtain ⟨hne, hall⟩ := hrun
  constructor
  · intro h
    generalize htext : run ++ rest = chars at h
    cases h with
    | nil => exact absurd (List.append_eq_nil_iff.1 htext).1 hne
    | @cons token tokens run' rest' hrun' hrest' htokens =>
        have htoken : token = .gap := by
          obtain ⟨c, more, rfl⟩ := List.exists_cons_of_ne_nil hne
          exact Token.eq_gap_of_spells hrun' htext.symm (hall c List.mem_cons_self)
        subst htoken
        have hdrop : rest.dropWhile isGap = rest' := by
          rw [← List.dropWhile_append_of_pos hall, htext]
          exact (Token.span_eq hrun'.2 hrest').2
        exact ⟨tokens, rfl, hdrop ▸ htokens⟩
  · rintro ⟨more, rfl, h⟩
    have hgaps : ∀ c ∈ rest.takeWhile isGap, isGap c = true :=
      List.all_eq_true.1 List.all_takeWhile
    have hsplit : run ++ rest = (run ++ rest.takeWhile isGap) ++ rest.dropWhile isGap := by
      rw [List.append_assoc, List.takeWhile_append_dropWhile]
    rw [hsplit]
    exact .cons ⟨by simp [hne], List.forall_mem_append.2 ⟨hall, hgaps⟩⟩
      (Token.any_head?_dropWhile isGap rest) h

/-- A token at the start of a word ends in the word. -/
theorem Token.Spells.prefix_word {token : Token} {run text word rest : List Char} {c : Char}
    (h : token.Spells run) (htext : word ++ c :: rest = run ++ text) (hne : word ≠ [])
    (hword : ∀ c ∈ word, isGap c = false) (hc : isGap c = true) :
    ∃ more, word = run ++ more ∧ text = more ++ c :: rest := by
  have htoken : token ≠ .gap := by
    obtain ⟨d, word, rfl⟩ := List.exists_cons_of_ne_nil hne
    obtain ⟨e, run, rfl⟩ := List.exists_cons_of_ne_nil h.ne_nil
    rw [List.cons_append, List.cons_append, List.cons.injEq] at htext
    obtain ⟨rfl, -⟩ := htext
    exact Token.ne_gap_of_spells h List.mem_cons_self (hword d List.mem_cons_self)
  rcases List.append_eq_append_iff.1 htext with ⟨more, hrun, hrest⟩ | ⟨more, hsplit, hrest⟩
  · cases more with
    | nil => exact ⟨[], by simpa using hrun.symm, by simpa using hrest.symm⟩
    | cons d more =>
        -- The token would reach over the blank.
        cases hrest
        have hgap := Token.isGap_of_spells h htoken c (by simp [hrun])
        rw [hc] at hgap
        cases hgap
  · exact ⟨more, hsplit, hrest⟩

/-- What is before a blank is read as if nothing came after it. -/
theorem spelled_append_cons_iff {word rest : List Char} {c : Char}
    (hword : ∀ c ∈ word, isGap c = false) (hc : isGap c = true) {tokens : List Token} :
    Spelled tokens (word ++ c :: rest) ↔
      ∃ front back, tokens = front ++ back ∧ Spelled front word ∧ Spelled back (c :: rest) := by
  constructor
  · intro h
    by_cases hne : word = []
    · subst hne
      exact ⟨[], tokens, rfl, .nil, h⟩
    generalize htext : word ++ c :: rest = chars at h
    induction h generalizing word with
    | nil => simp at htext
    | @cons token tokens run text hrun hrest htokens ih =>
        obtain ⟨more, rfl, rfl⟩ := hrun.prefix_word htext hne hword hc
        obtain ⟨-, hmore⟩ := List.forall_mem_append.1 hword
        by_cases hend : more = []
        · subst hend
          exact ⟨[token], tokens, rfl, .cons hrun rfl .nil, htokens⟩
        · obtain ⟨front, back, rfl, hfront, hback⟩ := ih hmore hend rfl
          refine ⟨token :: front, back, rfl, .cons hrun ?_ hfront, hback⟩
          obtain ⟨d, more, rfl⟩ := List.exists_cons_of_ne_nil hend
          exact hrest
  · rintro ⟨front, back, rfl, hfront, hback⟩
    induction hfront with
    | nil => exact hback
    | @cons token tokens run text hrun hrest htokens ih =>
        obtain ⟨hfirst, hmore⟩ := List.forall_mem_append.1 hword
        rw [List.append_assoc]
        refine .cons hrun ?_ (ih hmore)
        cases text with
        | cons d text => exact hrest
        | nil =>
            obtain ⟨d, more, rfl⟩ := List.exists_cons_of_ne_nil hrun.ne_nil
            have hd := hfirst d List.mem_cons_self
            exact Token.takes_blank (Token.ne_gap_of_spells hrun List.mem_cons_self hd) hc

/-- The tokens of some words, each word with a gap before it. -/
inductive SpelledWords : List (List Char) → List Token → Prop where
  | nil : SpelledWords [] []
  | cons {front back : List Token} {word : List Char} {words : List (List Char)}
      (hword : Spelled front word) (hwords : SpelledWords words back) :
      SpelledWords (word :: words) (.gap :: (front ++ back))

theorem spelledWords_append_iff {before after : List (List Char)} {tokens : List Token} :
    SpelledWords (before ++ after) tokens ↔
      ∃ front back, tokens = front ++ back ∧ SpelledWords before front ∧
        SpelledWords after back := by
  constructor
  · intro h
    induction before generalizing tokens with
    | nil => exact ⟨[], tokens, rfl, .nil, h⟩
    | cons word before ih =>
        cases h with
        | @cons first others _ _ hword hwords =>
            obtain ⟨front, back, rfl, hbefore, hafter⟩ := ih hwords
            exact ⟨.gap :: (first ++ front), back, by simp, .cons hword hbefore, hafter⟩
  · rintro ⟨front, back, rfl, hbefore, hafter⟩
    induction hbefore with
    | nil => exact hafter
    | cons hword _ ih =>
        rw [List.cons_append, List.cons_append, List.append_assoc]
        exact .cons hword ih

theorem spelledWords_singleton_iff {word : List Char} {tokens : List Token} :
    SpelledWords [word] tokens ↔ ∃ front, tokens = .gap :: front ∧ Spelled front word := by
  constructor
  · intro h
    cases h with
    | cons hword hwords =>
        cases hwords
        exact ⟨_, by rw [List.append_nil], hword⟩
  · rintro ⟨front, rfl, hword⟩
    have h := SpelledWords.cons hword .nil
    rwa [List.append_nil] at h

theorem spells_blank {c : Char} (hc : isGap c = true) : Token.gap.Spells [c] :=
  ⟨List.cons_ne_nil _ _, by simpa using hc⟩

theorem spelled_blank_iff {run rest : List Char} {c : Char} (hrun : Token.gap.Spells run)
    (hc : isGap c = true) {tokens : List Token} :
    Spelled tokens (run ++ c :: rest) ↔ Spelled tokens (c :: rest) := by
  rw [spelled_gap_iff hrun, List.dropWhile_cons_of_pos hc]
  exact (spelled_gap_iff (spells_blank hc)).symm

/-- Between blanks the tokens of a text are those of its words, whatever comes
after. -/
theorem spelled_words_iff {run chars rest : List Char} {c : Char}
    (hrun : Token.gap.Spells run) (hc : isGap c = true) {tokens : List Token} :
    Spelled tokens (run ++ (chars ++ c :: rest)) ↔
      ∃ front back, tokens = front ++ back ∧ SpelledWords (words chars) front ∧
        Spelled back (c :: rest) := by
  induction chars using words_induction generalizing run rest c tokens with
  | nil =>
      rw [List.nil_append, spelled_blank_iff hrun hc]
      constructor
      · exact fun h => ⟨[], tokens, rfl, .nil, h⟩
      · rintro ⟨front, back, rfl, hwords, h⟩
        cases hwords
        exact h
  | word word hne hword =>
      have hdrop : (word ++ c :: rest).dropWhile isGap = word ++ c :: rest := by
        obtain ⟨d, more, rfl⟩ := List.exists_cons_of_ne_nil hne
        exact List.dropWhile_cons_of_neg (by simp [hword d List.mem_cons_self])
      rw [spelled_gap_iff hrun, hdrop, words_singleton hne hword]
      constructor
      · rintro ⟨more, rfl, h⟩
        obtain ⟨front, back, rfl, hfront, hback⟩ := (spelled_append_cons_iff hword hc).1 h
        exact ⟨.gap :: front, back, rfl, spelledWords_singleton_iff.2 ⟨front, rfl, hfront⟩, hback⟩
      · rintro ⟨front, back, rfl, hwords, hback⟩
        obtain ⟨front, rfl, hfront⟩ := spelledWords_singleton_iff.1 hwords
        exact ⟨front ++ back, rfl,
          (spelled_append_cons_iff hword hc).2 ⟨front, back, rfl, hfront, hback⟩⟩
  | blank before d after hd ihBefore ihAfter =>
      rw [List.append_assoc, List.cons_append, ihBefore hrun hd, words_append_cons before hd]
      constructor
      · rintro ⟨front, back, rfl, hfront, hback⟩
        obtain ⟨front', back, rfl, hfront', hback⟩ := (ihAfter (spells_blank hd) hc).1 hback
        exact ⟨front ++ front', back, (List.append_assoc _ _ _).symm,
          spelledWords_append_iff.2 ⟨front, front', rfl, hfront, hfront'⟩, hback⟩
      · rintro ⟨front, back, rfl, hwords, hback⟩
        obtain ⟨front, front', rfl, hfront, hfront'⟩ := spelledWords_append_iff.1 hwords
        exact ⟨front, front' ++ back, List.append_assoc _ _ _, hfront,
          (ihAfter (spells_blank hd) hc).2 ⟨front', back, rfl, hfront', hback⟩⟩

/-! ## The two ends -/

/-- A text with a blank put before it and one after it. -/
def between (chars : List Char) : List Char :=
  ' ' :: (chars ++ [' '])

/-- Texts with the same words have the same tokens between blanks. -/
theorem spelled_between_congr {chars chars' : List Char} (h : words chars = words chars')
    {tokens : List Token} : Spelled tokens (between chars) ↔ Spelled tokens (between chars') := by
  have hall (text : List Char) : Spelled tokens (between text) ↔
      ∃ front back, tokens = front ++ back ∧ SpelledWords (words text) front ∧
        Spelled back [' '] :=
    spelled_words_iff (spells_blank rfl) rfl
  rw [hall, hall, h]

theorem spelled_blank : Spelled [.gap] [' '] :=
  .cons (spells_blank rfl) rfl .nil

theorem Spelled.gap_before {tokens : List Token} {chars : List Char} (h : Spelled tokens chars) :
    ∃ front, Spelled (gapTokens front ++ tokens) (' ' :: chars) := by
  cases h with
  | nil => exact ⟨true, spelled_blank⟩
  | @cons token tokens run rest hrun hrest htokens =>
      by_cases htoken : token = .gap
      · subst htoken
        have hlonger : Token.gap.Spells (' ' :: run) :=
          ⟨List.cons_ne_nil _ _, List.forall_mem_cons.2 ⟨rfl, hrun.2⟩⟩
        exact ⟨false, .cons hlonger hrest htokens⟩
      · refine ⟨true, .cons (spells_blank rfl) ?_ (.cons hrun hrest htokens)⟩
        obtain ⟨c, run, rfl⟩ := List.exists_cons_of_ne_nil hrun.ne_nil
        exact Token.isGap_of_spells hrun htoken c List.mem_cons_self

theorem Spelled.gap_after {tokens : List Token} {chars : List Char} (h : Spelled tokens chars) :
    ∃ back, Spelled (tokens ++ gapTokens back) (chars ++ [' ']) := by
  induction h with
  | nil => exact ⟨true, spelled_blank⟩
  | @cons token tokens run rest hrun hrest htokens ih =>
      rw [List.append_assoc]
      cases htokens with
      | cons hrun' hrest' htokens' =>
          obtain ⟨c, more, rfl⟩ := List.exists_cons_of_ne_nil hrun'.ne_nil
          obtain ⟨back, hback⟩ := ih
          exact ⟨back, .cons hrun hrest hback⟩
      | nil =>
          by_cases htoken : token = .gap
          · subst htoken
            have hlonger : Token.gap.Spells (run ++ [' ']) :=
              ⟨by simp, List.forall_mem_append.2 ⟨hrun.2, (spells_blank rfl).2⟩⟩
            have h := Spelled.cons hlonger rfl .nil
            rw [List.append_nil] at h
            exact ⟨false, h⟩
          · exact ⟨true, .cons hrun (Token.takes_blank htoken rfl) spelled_blank⟩

/-- Between blanks a text has no other tokens but a gap at each end. -/
theorem Spelled.between {tokens : List Token} {chars : List Char} (h : Spelled tokens chars) :
    ∃ front back, Spelled (gapTokens front ++ (tokens ++ gapTokens back)) (between chars) := by
  obtain ⟨back, hback⟩ := h.gap_after
  obtain ⟨front, hfront⟩ := hback.gap_before
  exact ⟨front, back, hfront⟩

theorem exists_spelled_iff (offset : Nat) (chars : List Char) :
    (∃ tokens, Spelled tokens chars) ↔ bareSigil? offset chars = none := by
  rw [bareSigil?_eq]
  cases hlex : lexFrom offset chars with
  | ok lexemes => simpa using ⟨_, spelled_of_lexFrom hlex⟩
  | error offset' =>
      simp only [reduceCtorEq, iff_false, not_exists]
      intro tokens h
      obtain ⟨lexemes, hok, -⟩ := h.exists_lexFrom offset
      rw [hlex] at hok
      cases hok

theorem bareSigil?_concat (offset : Nat) (chars : List Char) :
    bareSigil? offset (chars ++ [' ']) = bareSigil? offset chars := by
  induction chars generalizing offset with
  | nil => rfl
  | cons c chars ih =>
      have hhead : (chars ++ [' ']).head?.any isNameChar = chars.head?.any isNameChar := by
        cases chars <;> rfl
      rw [List.cons_append, bareSigil?, bareSigil?, hhead, ih]

/-- A text that has no tokens has none between blanks either. -/
theorem exists_spelled_of_between {tokens : List Token} {chars : List Char}
    (h : Spelled tokens (between chars)) : ∃ tokens, Spelled tokens chars := by
  have hbare := (exists_spelled_iff 0 _).1 ⟨tokens, h⟩
  have hblank : ∀ c ∈ [' '], c ≠ '@' := by simp
  rw [between, ← List.singleton_append, bareSigil?_append hblank, bareSigil?_concat] at hbare
  exact (exists_spelled_iff _ _).2 hbare

end TacticNotation
