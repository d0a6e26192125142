/-!
# Replacing a text inside another

`replaceAll from by text` finds the occurrences of `from` from left to right,
none of which overlaps the one before, and puts `by` in their place.  What has
been put in is not searched again.
-/

namespace TacticNotation

/-- The rest of a text after `front`, if the text starts with it. -/
def dropFront? : (front text : List Char) → Option (List Char)
  | [], text => some text
  | _ :: _, [] => none
  | c :: front, d :: text => if c = d then dropFront? front text else none

theorem dropFront?_eq_some_iff {front text rest : List Char} :
    dropFront? front text = some rest ↔ text = front ++ rest := by
  induction front generalizing text with
  | nil => simp [dropFront?, eq_comm]
  | cons c front ih =>
      cases text with
      | nil => simp [dropFront?]
      | cons d text =>
          by_cases h : c = d
          · subst h; simp [dropFront?, ih]
          · simp [dropFront?, h, Ne.symm h]

theorem length_lt_of_dropFront? {front text rest : List Char}
    (h : dropFront? front text = some rest) (c : Char) : rest.length < (c :: text).length := by
  rw [dropFront?_eq_some_iff.1 h, List.length_cons, List.length_append]
  omega

/-- Replace the occurrences of `first :: more` by `expansion`. -/
def replaceChars (first : Char) (more expansion : List Char) (text : List Char) : List Char :=
  match text with
  | [] => []
  | c :: rest =>
      if c = first then
        match _h : dropFront? more rest with
        | some rest' => expansion ++ replaceChars first more expansion rest'
        | none => c :: replaceChars first more expansion rest
      else
        c :: replaceChars first more expansion rest
termination_by text.length
decreasing_by
  · exact length_lt_of_dropFront? _h c
  · exact Nat.lt_succ_self _
  · exact Nat.lt_succ_self _

/-- Replace the occurrences of `source` in `text` by `expansion`; the empty
text occurs nowhere. -/
def replaceAll (source expansion text : String) : String :=
  match source.toList with
  | [] => text
  | first :: more => String.ofList (replaceChars first more expansion.toList text.toList)

end TacticNotation
