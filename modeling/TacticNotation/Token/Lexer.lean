import TacticNotation.Problem
import TacticNotation.Text.Utf8

/-!
# From characters to tokens

`Token.read?` takes the longest token off the front of a text, and `lex` takes
tokens until nothing is left.  Every character starts a token except a sigil
that no name follows, so the only way to fail is to meet such a sigil.
-/

namespace TacticNotation

/-- What `Token.read?` finds at the front of a text. -/
structure Token.Cut where
  token : Token
  /-- The characters that the token was read from. -/
  run : List Char
  /-- The characters after it. -/
  rest : List Char

/-- The longest token at the front of `c :: rest`, or nothing where `c` is a
sigil without a name. -/
def Token.read? (c : Char) (rest : List Char) : Option Token.Cut :=
  if c = '{' then
    match rest with
    | [] => some ⟨.braceOpen, [c], []⟩
    | d :: rest' =>
        match Marker.ofChar? d with
        | some marker => some ⟨.repeatOpen marker, [c, d], rest'⟩
        | none => some ⟨.braceOpen, [c], rest⟩
  else if c = '}' then some ⟨.braceClose, [c], rest⟩
  else if c = '|' then some ⟨.pipe, [c], rest⟩
  else if c = '@' then
    match rest.takeWhile isNameChar with
    | [] => none
    | name => some ⟨.hole (String.ofList name), c :: name, rest.dropWhile isNameChar⟩
  else if isGap c then
    some ⟨.gap, c :: rest.takeWhile isGap, rest.dropWhile isGap⟩
  else
    let run := c :: rest.takeWhile isAtomChar
    some ⟨.atom (String.ofList run), run, rest.dropWhile isAtomChar⟩

/-- The characters of a token and the characters after it are the text that
was read, and the token has at least one. -/
theorem Token.read?_split {c : Char} {rest : List Char} {cut : Token.Cut}
    (h : Token.read? c rest = some cut) :
    cut.run ++ cut.rest = c :: rest ∧ cut.run ≠ [] := by
  unfold Token.read? at h
  split at h
  · split at h
    · cases h; simp
    · split at h <;> cases h <;> simp
  · split at h
    · cases h; simp
    · split at h
      · cases h; simp
      · split at h
        · split at h
          · cases h
          · cases h
            exact ⟨by simp [List.takeWhile_append_dropWhile], by simp⟩
        · split at h
          · cases h
            exact ⟨by simp [List.takeWhile_append_dropWhile], by simp⟩
          · cases h
            exact ⟨by simp [List.takeWhile_append_dropWhile], by simp⟩

theorem Token.length_rest_lt {c : Char} {rest : List Char} {cut : Token.Cut}
    (h : Token.read? c rest = some cut) : cut.rest.length < (c :: rest).length := by
  obtain ⟨split, nonempty⟩ := Token.read?_split h
  have := List.length_pos_iff.2 nonempty
  rw [← split, List.length_append]
  omega

/-- The tokens of a text whose first character is at byte `start`; a failure
gives the byte of the first sigil without a name. -/
def lexFrom (start : Nat) (chars : List Char) : Except Nat (List Lexeme) :=
  match chars with
  | [] => .ok []
  | c :: rest =>
      match _h : Token.read? c rest with
      | none => .error start
      | some cut =>
          let stop := start + utf8Width cut.run
          match lexFrom stop cut.rest with
          | .error offset => .error offset
          | .ok lexemes => .ok (⟨cut.token, start, stop⟩ :: lexemes)
termination_by chars.length
decreasing_by exact Token.length_rest_lt _h

/-- The tokens of a text, with the bytes they were read from. -/
def lex (source : String) : Except Problem (List Lexeme) :=
  match lexFrom 0 source.toList with
  | .ok lexemes => .ok lexemes
  | .error offset => .error (.unrecognizedInput source "@" offset)

end TacticNotation
