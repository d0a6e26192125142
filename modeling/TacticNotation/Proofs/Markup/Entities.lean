import Mathlib.Data.String.Basic
import TacticNotation.Markup.Escape
import TacticNotation.Text.Utf8

/-!
# Escaped text and back

`escape` copies slices of its source and puts entities between them.  The slices
begin and end between characters, so every character is written on its own
(`toList_escape`): as its entity if it has one, and as it is otherwise.  What is
written holds none of the characters that delimit tags and attribute values, an
ampersand only where an entity begins, and decoding the entities gives the source
back.
-/

namespace TacticNotation

/-! ## Entities -/

/-- The characters that have entities, with their entities. -/
def entities : List (Char × String) :=
  [('&', "&amp;"), ('>', "&gt;"), ('<', "&lt;"), ('"', "&quot;"), ('\'', "&#x27;")]

/-- How a character is written: as its entity, or as it is. -/
def escapeChar (c : Char) : List Char :=
  match entity? c with
  | some text => text.toList
  | none => [c]

/-- The text with its five entities decoded, from left to right; every other
character is kept, an ampersand that begins no entity among them. -/
def decodeEntities : List Char → List Char
  | '&' :: 'a' :: 'm' :: 'p' :: ';' :: rest => '&' :: decodeEntities rest
  | '&' :: 'g' :: 't' :: ';' :: rest => '>' :: decodeEntities rest
  | '&' :: 'l' :: 't' :: ';' :: rest => '<' :: decodeEntities rest
  | '&' :: 'q' :: 'u' :: 'o' :: 't' :: ';' :: rest => '"' :: decodeEntities rest
  | '&' :: '#' :: 'x' :: '2' :: '7' :: ';' :: rest => '\'' :: decodeEntities rest
  | c :: rest => c :: decodeEntities rest
  | [] => []

theorem mem_entities_of_entity? {c : Char} {text : String} (h : entity? c = some text) :
    (c, text) ∈ entities := by
  unfold entity? at h
  split at h <;> simp_all [entities]

theorem entity?_cases {c : Char} {text : String} (h : entity? c = some text) :
    c = '&' ∧ text = "&amp;" ∨ c = '>' ∧ text = "&gt;" ∨ c = '<' ∧ text = "&lt;" ∨
      c = '"' ∧ text = "&quot;" ∨ c = '\'' ∧ text = "&#x27;" := by
  simpa [entities] using mem_entities_of_entity? h

theorem entity?_eq_none_iff {c : Char} :
    entity? c = none ↔ c ≠ '&' ∧ c ≠ '>' ∧ c ≠ '<' ∧ c ≠ '"' ∧ c ≠ '\'' := by
  unfold entity?
  split <;> simp_all

theorem escapeChar_of_none {c : Char} (h : entity? c = none) : escapeChar c = [c] := by
  rw [escapeChar, h]

theorem escapeChar_of_some {c : Char} {text : String} (h : entity? c = some text) :
    escapeChar c = text.toList := by
  rw [escapeChar, h]

/-! ## Slices -/

theorem utf8Width_eq_utf8Len (run : List Char) : utf8Width run = String.utf8Len run := by
  induction run with
  | nil => rfl
  | cons c run ih => rw [utf8Width_cons, String.utf8Len_cons, ih, Nat.add_comm]

/-- The slice between two boundaries is the run of characters between them. -/
theorem extract_between (front run back : List Char) :
    String.Pos.Raw.extract (String.ofList (front ++ (run ++ back)))
      ⟨utf8Width front⟩ ⟨utf8Width (front ++ run)⟩ = String.ofList run := by
  have hslice := String.extract_of_valid front run back
  rw [← utf8Width_eq_utf8Len, ← utf8Width_eq_utf8Len, ← utf8Width_append] at hslice
  rwa [List.append_assoc] at hslice

theorem isValid_of_append {source : String} {front back : List Char}
    (h : source.toList = front ++ back) :
    String.Pos.Raw.IsValid source ⟨utf8Width front⟩ := by
  refine String.Pos.Raw.isValid_iff_exists_append.2
    ⟨String.ofList front, String.ofList back, ?_, ?_⟩
  · rw [← String.ofList_append, ← h, String.ofList_toList]
  · rw [String.Pos.Raw.ext_iff]
    exact (utf8ByteSize_ofList front).symm

/-- A stretch that is copied lies inside the source and is cut between characters. -/
def Piece.OnBoundaries (source : String) : Piece → Prop
  | .copy start stop => start ≤ stop ∧ stop ≤ source.utf8ByteSize ∧
      String.Pos.Raw.IsValid source ⟨start⟩ ∧ String.Pos.Raw.IsValid source ⟨stop⟩
  | .entity _ => True

theorem onBoundaries_copy {source : String} {front run back : List Char}
    (h : source.toList = front ++ (run ++ back)) :
    (Piece.copy (utf8Width front) (utf8Width (front ++ run))).OnBoundaries source := by
  have hstop : source.toList = (front ++ run) ++ back := by rw [h, List.append_assoc]
  refine ⟨?_, ?_, isValid_of_append h, isValid_of_append hstop⟩
  · rw [utf8Width_append]
    exact Nat.le_add_right _ _
  · rw [utf8ByteSize_eq, hstop, utf8Width_append (front ++ run)]
    exact Nat.le_add_right _ _

/-- With `written` behind it and `pending` looked at, the loop cuts between characters
only. -/
theorem onBoundaries_piecesFrom {source : String} (written pending rest : List Char)
    (h : source.toList = written ++ (pending ++ rest)) :
    ∀ piece ∈ piecesFrom (utf8Width written) (utf8Width (written ++ pending)) rest,
      piece.OnBoundaries source := by
  -- Both offsets stay sums of widths of characters, hence boundaries.
  induction rest generalizing written pending with
  | nil =>
      rw [piecesFrom, List.forall_mem_singleton]
      exact onBoundaries_copy h
  | cons c rest ih =>
      have hoffset : utf8Width (written ++ pending) + c.utf8Size =
          utf8Width (written ++ (pending ++ [c])) := by
        simp [Nat.add_assoc]
      have hsplit : source.toList = written ++ ((pending ++ [c]) ++ rest) := by simp [h]
      cases hentity : entity? c with
      | none =>
          simp only [piecesFrom, hentity]
          rw [hoffset]
          exact ih written (pending ++ [c]) hsplit
      | some text =>
          have hmore := ih (written ++ (pending ++ [c])) []
            (by rw [List.nil_append, List.append_assoc, hsplit])
          rw [List.append_nil] at hmore
          simp only [piecesFrom, hentity, List.forall_mem_cons]
          rw [hoffset]
          exact ⟨onBoundaries_copy h, trivial, hmore⟩

/-- With `written` behind it and `pending` looked at, the loop writes `pending`
and then every other character on its own. -/
theorem join_piecesFrom (written pending rest : List Char) :
    (String.join ((piecesFrom (utf8Width written) (utf8Width (written ++ pending)) rest).map
      (Piece.text (String.ofList (written ++ (pending ++ rest)))))).toList =
        pending ++ rest.flatMap escapeChar := by
  -- Both offsets stay sums of widths of characters, hence boundaries.
  induction rest generalizing written pending with
  | nil =>
      have hslice := extract_between written pending []
      rw [piecesFrom, List.map_singleton, Piece.text, hslice]
      simp
  | cons c rest ih =>
      have hoffset : utf8Width (written ++ pending) + c.utf8Size =
          utf8Width (written ++ (pending ++ [c])) := by
        simp [Nat.add_assoc]
      cases hentity : entity? c with
      | none =>
          have hmore := ih written (pending ++ [c])
          have hchar := escapeChar_of_none hentity
          rw [List.append_assoc, List.singleton_append] at hmore
          simp only [piecesFrom, hentity]
          rw [hoffset, hmore, List.flatMap_cons, hchar, List.append_assoc]
      | some text =>
          have hslice := extract_between written pending (c :: rest)
          have hmore := ih (written ++ (pending ++ [c])) []
          have hchar := escapeChar_of_some hentity
          simp only [List.append_nil, List.nil_append, List.append_assoc, List.cons_append]
            at hmore
          simp only [piecesFrom, hentity, List.map_cons, String.join_cons, String.toList_append]
          rw [hoffset, hmore, List.flatMap_cons, hchar]
          simp only [Piece.text, hslice, String.toList_ofList]

/-- An escaped text is its characters, each written on its own. -/
theorem toList_escape (source : String) :
    (escape source).toList = source.toList.flatMap escapeChar := by
  have hjoin := join_piecesFrom [] [] source.toList
  simpa [escape, pieces] using hjoin

/-! ## Decoding -/

theorem decodeEntities_cons {c : Char} (h : c ≠ '&') (rest : List Char) :
    decodeEntities (c :: rest) = c :: decodeEntities rest := by
  rw [decodeEntities] <;> simp [h]

theorem decodeEntities_escapeChar (c : Char) (rest : List Char) :
    decodeEntities (escapeChar c ++ rest) = c :: decodeEntities rest := by
  cases hentity : entity? c with
  | none =>
      rw [escapeChar_of_none hentity]
      exact decodeEntities_cons (entity?_eq_none_iff.1 hentity).1 rest
  | some text =>
      rw [escapeChar_of_some hentity]
      rcases entity?_cases hentity with
        ⟨rfl, rfl⟩ | ⟨rfl, rfl⟩ | ⟨rfl, rfl⟩ | ⟨rfl, rfl⟩ | ⟨rfl, rfl⟩ <;> rfl

/-- Whatever follows, an escaped text is decoded to its source: a source that
looks like an entity is no exception. -/
theorem decodeEntities_flatMap_escapeChar (source rest : List Char) :
    decodeEntities (source.flatMap escapeChar ++ rest) = source ++ decodeEntities rest := by
  induction source with
  | nil => rfl
  | cons c source ih =>
      rw [List.flatMap_cons, List.append_assoc, decodeEntities_escapeChar, ih, List.cons_append]

theorem decodeEntities_escape (source : String) :
    decodeEntities (escape source).toList = source.toList := by
  have hdecode := decodeEntities_flatMap_escapeChar source.toList []
  rw [toList_escape]
  simpa [decodeEntities] using hdecode

theorem escape_injective {source other : String} (h : escape source = escape other) :
    source = other := by
  have hdecode := congrArg (fun text => decodeEntities text.toList) h
  simpa [decodeEntities_escape, String.toList_inj] using hdecode

theorem escape_append (front back : String) :
    escape (front ++ back) = escape front ++ escape back := by
  rw [← String.toList_inj, String.toList_append]
  simp only [toList_escape, String.toList_append, List.flatMap_append]

/-! ## Delimiters -/

/-- Whether a character delimits tags or the value of an attribute. -/
def isDelimiter (c : Char) : Bool :=
  c == '<' || c == '>' || c == '"'

/-- Of the characters that have entities only the ampersand is left. -/
theorem eq_or_of_mem_escape {source : String} {c : Char} (h : c ∈ (escape source).toList) :
    c = '&' ∨ entity? c = none := by
  rw [toList_escape, List.mem_flatMap] at h
  obtain ⟨d, -, hd⟩ := h
  cases hentity : entity? d with
  | none =>
      rw [escapeChar_of_none hentity, List.mem_singleton] at hd
      subst hd
      exact Or.inr hentity
  | some text =>
      rw [escapeChar_of_some hentity] at hd
      have hall : entities.all (fun entry => entry.2.toList.all fun c =>
          c == '&' || (entity? c).isNone) = true := by decide +kernel
      have htext := List.all_eq_true.1 hall _ (mem_entities_of_entity? hentity)
      simpa using List.all_eq_true.1 htext c hd

/-- An escaped text delimits nothing. -/
theorem isDelimiter_of_mem_escape {source : String} {c : Char} (h : c ∈ (escape source).toList) :
    isDelimiter c = false := by
  rcases eq_or_of_mem_escape h with rfl | hnone
  · rfl
  · obtain ⟨-, hgreater, hless, hquote, -⟩ := entity?_eq_none_iff.1 hnone
    simp [isDelimiter, hgreater, hless, hquote]

theorem ne_of_mem_escape {source : String} {c : Char} (h : c ∈ (escape source).toList) :
    c ≠ '<' ∧ c ≠ '>' ∧ c ≠ '"' := by
  have hdelimiter := isDelimiter_of_mem_escape h
  simpa only [isDelimiter, Bool.or_eq_false_iff, beq_eq_false_iff_ne, and_assoc] using hdelimiter

/-! ## Ampersands -/

/-- Every entity is an ampersand and then characters among which there is none. -/
theorem entity_eq_cons {c : Char} {text : String} (h : entity? c = some text) :
    ∃ name, text.toList = '&' :: name ∧ '&' ∉ name := by
  have hall : entities.all (fun entry => decide (entry.2.toList.head? = some '&' ∧
      '&' ∉ entry.2.toList.tail)) = true := by decide +kernel
  have htext := List.all_eq_true.1 hall _ (mem_entities_of_entity? h)
  obtain ⟨hhead, htail⟩ := of_decide_eq_true htext
  obtain ⟨name, hname⟩ := List.head?_eq_some_iff.1 hhead
  rw [hname] at htail
  exact ⟨name, hname, htail⟩

/-- An ampersand in what is written for a character is the first of its entity. -/
theorem entity?_of_ampersand {c : Char} {front more : List Char}
    (h : escapeChar c = front ++ '&' :: more) :
    ∃ text, entity? c = some text ∧ text.toList = '&' :: more := by
  cases hentity : entity? c with
  | none =>
      rw [escapeChar_of_none hentity] at h
      have hmem : '&' ∈ [c] := h ▸ List.mem_append_right front List.mem_cons_self
      rw [← List.mem_singleton.1 hmem] at hentity
      cases hentity
  | some text =>
      obtain ⟨name, htext, hname⟩ := entity_eq_cons hentity
      rw [escapeChar_of_some hentity] at h
      refine ⟨text, rfl, ?_⟩
      cases front with
      | nil => exact h
      | cons d front =>
          have htail : name = front ++ '&' :: more := by
            rw [htext] at h
            exact (List.cons.inj h).2
          exact absurd (htail ▸ List.mem_append_right front List.mem_cons_self) hname

/-- An ampersand in escaped characters is the first of the entity of one of them. -/
theorem exists_of_ampersand {source front back : List Char}
    (h : source.flatMap escapeChar = front ++ '&' :: back) :
    ∃ c ∈ source, ∃ text, entity? c = some text ∧ text.toList <+: '&' :: back := by
  induction source generalizing front with
  | nil => simp at h
  | cons c source ih =>
      rw [List.flatMap_cons] at h
      -- The ampersand is in what is written for a later character, or for this one.
      rcases List.append_eq_append_iff.1 h with ⟨more, rfl, hmore⟩ | ⟨more, hchar, hback⟩
      · obtain ⟨d, hd, hbegins⟩ := ih hmore
        exact ⟨d, List.mem_cons_of_mem c hd, hbegins⟩
      · cases more with
        | nil =>
            have hlater : source.flatMap escapeChar = [] ++ '&' :: back := hback.symm
            obtain ⟨d, hd, hbegins⟩ := ih hlater
            exact ⟨d, List.mem_cons_of_mem c hd, hbegins⟩
        | cons d more =>
            obtain ⟨rfl, rfl⟩ := List.cons.inj hback
            obtain ⟨text, hentity, htext⟩ := entity?_of_ampersand hchar
            refine ⟨c, List.mem_cons_self, text, hentity, ?_⟩
            rw [htext]
            exact ⟨source.flatMap escapeChar, rfl⟩

/-! ## Character by character -/

/-- What stands for a character in escaped text. -/
def replacement (c : Char) : String :=
  if c = '&' then "&amp;"
  else if c = '<' then "&lt;"
  else if c = '>' then "&gt;"
  else if c = '"' then "&quot;"
  else if c = '\'' then "&#x27;"
  else String.singleton c

theorem toList_replacement (c : Char) : (replacement c).toList = escapeChar c := by
  cases hentity : entity? c with
  | none =>
      obtain ⟨hampersand, hgreater, hless, hquote, hapostrophe⟩ := entity?_eq_none_iff.1 hentity
      simp [replacement, escapeChar_of_none hentity, hampersand, hgreater, hless, hquote,
        hapostrophe]
  | some text =>
      rcases entity?_cases hentity with
        ⟨rfl, rfl⟩ | ⟨rfl, rfl⟩ | ⟨rfl, rfl⟩ | ⟨rfl, rfl⟩ | ⟨rfl, rfl⟩ <;> rfl

theorem escape_eq_join (source : String) :
    escape source = String.join (source.toList.map replacement) := by
  rw [← String.toList_inj, toList_escape]
  induction source.toList with
  | nil => rfl
  | cons c rest ih =>
      rw [List.flatMap_cons, List.map_cons, String.join_cons, String.toList_append,
        toList_replacement, ih]

/-- Escaping copies stretches of its source between boundaries of characters, and what
it writes is what stands for each character, one after the other.  So it goes over
texts part by part; it leaves nothing that could delimit a tag or the value of an
attribute, and an ampersand only where one of the five entities begins; and decoding
these gives the source back, so that different texts stay different. -/
theorem escape_character_by_character (source : String) :
    (∀ piece ∈ pieces source, piece.OnBoundaries source) ∧
      escape source = String.join (source.toList.map replacement) ∧
      (∀ other, escape (source ++ other) = escape source ++ escape other) ∧
      (∀ c ∈ (escape source).toList, c ≠ '<' ∧ c ≠ '>' ∧ c ≠ '"' ∧ c ≠ '\'') ∧
      (∀ front back, (escape source).toList = front ++ '&' :: back →
        ∃ entity ∈ ["&amp;", "&gt;", "&lt;", "&quot;", "&#x27;"],
          entity.toList <+: '&' :: back) ∧
      decodeEntities (escape source).toList = source.toList ∧
      ∀ other, escape source = escape other ↔ source = other := by
  refine ⟨?_, escape_eq_join source, escape_append source, ?_, ?_,
    decodeEntities_escape source, fun other => ⟨escape_injective, congrArg escape⟩⟩
  · exact onBoundaries_piecesFrom [] [] source.toList rfl
  · intro c hc
    rcases eq_or_of_mem_escape hc with rfl | hnone
    · decide
    · obtain ⟨-, hgreater, hless, hquote, hapostrophe⟩ := entity?_eq_none_iff.1 hnone
      exact ⟨hless, hgreater, hquote, hapostrophe⟩
  · intro front back h
    rw [toList_escape] at h
    obtain ⟨c, -, text, hentity, hbegins⟩ := exists_of_ampersand h
    have hmem := List.mem_map_of_mem (f := Prod.snd) (mem_entities_of_entity? hentity)
    exact ⟨text, hmem, hbegins⟩

/-- The cuts are at the special characters, whatever the widths of those around them. -/
example : pieces "<é&\"€" =
    [.copy 0 0, .entity "&lt;", .copy 1 3, .entity "&amp;", .copy 4 4, .entity "&quot;",
      .copy 5 8] := by
  decide +kernel

end TacticNotation
