import TacticNotation.Proofs.Token.Replacing
import TacticNotation.Text.Blank

/-!
# Expanding a text piece by piece

No occurrence of a shorthand reaches over a character that the shorthand does not hold.
So a text can be cut at characters that no shorthand of a table holds, at its blanks or
at the ends of its lines for instance, and each piece can be expanded by itself.
Nothing is assumed of what the shorthands stand for: an expansion may hold such a
character, and it may hold text that later entries expand, together with text on the
same side of the cut.
-/

namespace TacticNotation

/-! ## Pieces of a text -/

/-- The rest of a text with `f` applied to each of its pieces, where `piece` has been
read of the first piece, last character first. -/
def mapPiecesFrom (isCut : Char → Bool) (f : String → String) (piece : List Char) :
    List Char → String
  | [] => f (String.ofList piece.reverse)
  | c :: rest =>
      if isCut c then
        f (String.ofList piece.reverse) ++ String.singleton c ++ mapPiecesFrom isCut f [] rest
      else mapPiecesFrom isCut f (c :: piece) rest

/-- The text with `f` applied to each of the pieces between the characters that cut
it, which stay where they are.  Where two of them stand side by side the piece between
them is empty. -/
def mapPieces (isCut : Char → Bool) (f : String → String) (text : String) : String :=
  mapPiecesFrom isCut f [] text.toList

section
variable {isCut : Char → Bool} {f : String → String}

/-- What can be cut in two at each of the characters can be cut at all of them. -/
theorem mapPiecesFrom_eq
    (h : ∀ c, isCut c = true → ∀ front back : String,
      f (front ++ String.singleton c ++ back) = f front ++ String.singleton c ++ f back)
    (piece chars : List Char) :
    mapPiecesFrom isCut f piece chars = f (String.ofList (piece.reverse ++ chars)) := by
  induction chars generalizing piece with
  | nil =>
      rw [mapPiecesFrom, List.append_nil]
  | cons c rest ih =>
      by_cases hc : isCut c = true
      · have hsplit : String.ofList (piece.reverse ++ c :: rest) =
            String.ofList piece.reverse ++ String.singleton c ++ String.ofList rest := by
          rw [← String.toList_inj]
          simp
        have hrest : mapPiecesFrom isCut f [] rest = f (String.ofList rest) := ih []
        rw [mapPiecesFrom, if_pos hc, hrest, hsplit, h c hc]
      · have hpiece : (c :: piece).reverse ++ rest = piece.reverse ++ c :: rest := by simp
        rw [mapPiecesFrom, if_neg hc, ih, hpiece]

theorem mapPieces_eq
    (h : ∀ c, isCut c = true → ∀ front back : String,
      f (front ++ String.singleton c ++ back) = f front ++ String.singleton c ++ f back)
    (text : String) : mapPieces isCut f text = f text := by
  rw [mapPieces, mapPiecesFrom_eq h, List.reverse_nil, List.nil_append, String.ofList_toList]

end

/-! ## Tables -/

namespace ShorthandTable

variable {table : ShorthandTable}

theorem apply_append_singleton_append {c : Char} (h : ∀ entry ∈ table, c ∉ entry.source.toList)
    (front back : String) :
    table.apply (front ++ String.singleton c ++ back) =
      table.apply front ++ String.singleton c ++ table.apply back := by
  have hsplit : (front ++ String.singleton c ++ back).toList =
      front.toList ++ c :: back.toList := by
    simp
  have happly := toList_apply_of_append_cons h hsplit
  rw [← String.toList_inj, happly]
  simp

/-- A table can be applied to each piece by itself where the text is cut at
characters that no source holds. -/
theorem mapPieces_apply {isCut : Char → Bool}
    (h : ∀ entry ∈ table, ∀ c ∈ entry.source.toList, isCut c = false) (text : String) :
    mapPieces isCut table.apply text = table.apply text := by
  apply mapPieces_eq
  intro c hc
  apply apply_append_singleton_append
  intro entry hentry hmem
  rw [h entry hentry c hmem] at hc
  cases hc

/-- A table expands what is before a character that none of its sources holds and what
is after it each by itself, whatever the expansions hold.  If no source holds a blank,
a text can be expanded word by word or line by line. -/
theorem apply_piece_by_piece (table : ShorthandTable) :
    (∀ c, (∀ entry ∈ table, c ∉ entry.source.toList) → ∀ front back : String,
      table.apply (front ++ String.singleton c ++ back) =
        table.apply front ++ String.singleton c ++ table.apply back) ∧
    ((∀ entry ∈ table, ∀ c ∈ entry.source.toList, isBlank c = false) → ∀ text,
      mapPieces isBlank table.apply text = table.apply text ∧
      mapPieces (· == '\n') table.apply text = table.apply text) := by
  constructor
  · intro c hc front back
    exact apply_append_singleton_append hc front back
  · intro hblank text
    refine ⟨mapPieces_apply hblank text, mapPieces_apply ?_ text⟩
    intro entry hentry c hmem
    rw [beq_eq_false_iff_ne]
    rintro rfl
    have hfeed : isBlank '\n' = false := hblank entry hentry '\n' hmem
    exact absurd hfeed (by decide)

/-- What the first entry puts in holds the blank at which the text is cut, and text
that the second entry expands. -/
theorem apply_piece_by_piece_blank :
    let table : ShorthandTable := [⟨"@a", "@b c@b"⟩, ⟨"@b", "x"⟩]
    (∀ entry ∈ table, ' ' ∉ entry.source.toList) ∧
      table.apply "@a @" ++ String.singleton ' ' ++ table.apply "b@b" = "x cx @ bx" ∧
      table.apply ("@a @" ++ String.singleton ' ' ++ "b@b") = "x cx @ bx" ∧
      (∀ entry ∈ table, ∀ c ∈ entry.source.toList, isBlank c = false) ∧
      mapPieces isBlank table.apply "@a\n\t@b" = table.apply "@a\n\t@b" := by
  intro table
  have hspace : ∀ entry ∈ table, ' ' ∉ entry.source.toList := by decide
  have hblank : ∀ entry ∈ table, ∀ c ∈ entry.source.toList, isBlank c = false := by
    simp [table, isBlank]
  have hpieces : table.apply "@a @" ++ String.singleton ' ' ++ table.apply "b@b" =
      "x cx @ bx" := by decide +kernel
  have hwhole := (apply_piece_by_piece table).1 ' ' hspace "@a @" "b@b"
  refine ⟨hspace, hpieces, hwhole.trans hpieces, hblank, ?_⟩
  exact ((apply_piece_by_piece table).2 hblank "@a\n\t@b").1

end ShorthandTable
end TacticNotation
