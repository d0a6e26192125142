/-!
# Repetition markers

The character after the opening brace of a repetition says how often its body
may occur.
-/

namespace TacticNotation

/-- How often the body of a repetition may occur. -/
inductive Marker where
  /-- `?`: at most once. -/
  | optional
  /-- `*`: any number of times. -/
  | zeroOrMore
  /-- `+`: at least once. -/
  | oneOrMore
  deriving DecidableEq, Repr

namespace Marker

/-- The character that a notation writes for a marker. -/
def char : Marker → Char
  | .optional => '?'
  | .zeroOrMore => '*'
  | .oneOrMore => '+'

/-- The marker that a character stands for. -/
def ofChar? : Char → Option Marker
  | '?' => some .optional
  | '*' => some .zeroOrMore
  | '+' => some .oneOrMore
  | _ => none

/-- The word for a marker in a tree written as data. -/
def name : Marker → String
  | .optional => "optional"
  | .zeroOrMore => "zero_or_more"
  | .oneOrMore => "one_or_more"

theorem ofChar?_char (marker : Marker) : ofChar? marker.char = some marker := by
  cases marker <;> rfl

theorem ofChar?_eq_some_iff {c : Char} {marker : Marker} :
    ofChar? c = some marker ↔ c = marker.char := by
  constructor
  · intro h
    unfold ofChar? at h
    split at h <;> simp_all [char]
    all_goals subst h; rfl
  · rintro rfl
    exact ofChar?_char marker

end Marker
end TacticNotation
