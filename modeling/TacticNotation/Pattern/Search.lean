import TacticNotation.Pattern.Syntax
import TacticNotation.Text.Utf8

/-!
# Searching with a regular expression

A position is the number of characters before it, and a set of positions is a
number whose bits say which positions it holds.  `reaching p goals` gives the
positions from which `p` can match up to one of `goals`; it goes from the end
of the pattern to its start, so no choice is ever taken back.  Where a match
begins is the least position of such a set, and where the preferred match ends
is found by going forward through the pattern and asking, at each choice,
whether the preferred way can still reach a goal.
-/

namespace TacticNotation
namespace Pattern

/-! ## Texts and sets of positions -/

/-- A text, with the positions of each of its characters. -/
structure Subject where
  /-- The number of characters. -/
  length : Nat
  /-- The characters that occur, each with the set of its positions. -/
  places : List (Char × Nat)

/-- Add a set of positions to those recorded for a character. -/
def addPlace (c : Char) (set : Nat) : List (Char × Nat) → List (Char × Nat)
  | [] => [(c, set)]
  | (d, set') :: rest =>
      if c = d then (d, set' ||| set) :: rest else (d, set') :: addPlace c set rest

/-- The places of some characters of which the first is at `position`. -/
def placesFrom (position : Nat) : List Char → List (Char × Nat)
  | [] => []
  | c :: rest => addPlace c (1 <<< position) (placesFrom (position + 1) rest)

/-- A text as a subject to search in. -/
def Subject.ofChars (chars : List Char) : Subject :=
  ⟨chars.length, placesFrom 0 chars⟩

/-- The positions of the characters that pass a test. -/
def Subject.positionsOf (subject : Subject) (accepts : Char → Bool) : Nat :=
  subject.places.foldl
    (fun found place => if accepts place.1 then found ||| place.2 else found) 0

/-- All positions of a text: one before each character and one at the end. -/
def Subject.all (subject : Subject) : Nat :=
  (1 <<< (subject.length + 1)) - 1

/-- The positions of a set that are not in another. -/
def without (set removed : Nat) : Nat :=
  (set ||| removed) ^^^ removed

/-- The positions that repeated steps lead to: those in `seen` and those that
steps from `newest` reach. -/
def closure (step : Nat → Nat) : (bound newest seen : Nat) → Nat
  | 0, _, seen => seen
  | bound + 1, newest, seen =>
      let next := without (step newest) seen
      if next = 0 then seen else closure step bound next (seen ||| next)

section
variable (subject : Subject)

/-! ## Where a match can begin -/

mutual
/-- The positions from which a pattern can match up to one of the goals. -/
def reaching : Pattern → (goals : Nat) → Nat
  | .char set, goals => (goals >>> 1) &&& subject.positionsOf set.accepts
  | .atStart, goals => goals &&& 1
  | .atEnd, goals => goals &&& (1 <<< subject.length)
  | .join items, goals => reachingJoin items goals
  | .choose branches, goals => reachingChoice branches goals
  | .opt item, goals => goals ||| reaching item goals
  | .star item, goals => closure (reaching item) (subject.length + 1) goals goals
  | .plus item, goals =>
      reaching item (closure (reaching item) (subject.length + 1) goals goals)
  | .group _ item, goals => reaching item goals
/-- The positions from which items, one after the other, can match up to one of
the goals. -/
def reachingJoin : List Pattern → (goals : Nat) → Nat
  | [], goals => goals
  | p :: ps, goals => reaching p (reachingJoin ps goals)
/-- The positions from which one of the branches can match up to one of the
goals. -/
def reachingChoice : List Pattern → (goals : Nat) → Nat
  | [], _ => 0
  | p :: ps, goals => reaching p goals ||| reachingChoice ps goals
end

/-- For each item the positions that the items after it can start from. -/
def goalsAfter : List Pattern → (goals : Nat) → List Nat
  | [], _ => []
  | [_], goals => [goals]
  | _ :: p :: ps, goals =>
      match goalsAfter (p :: ps) goals with
      | [] => []
      | after :: more => reaching subject p after :: after :: more

/-! ## Where the preferred match ends -/

/-- Take a step as often as it leads on, and say where that ends. -/
def furthest (step : Nat → Option Nat) : (bound position : Nat) → Nat
  | 0, position => position
  | bound + 1, position =>
      match step position with
      | none => position
      | some next => furthest step bound next

/-- The positions after a given one. -/
def after (set position : Nat) : Nat :=
  (set >>> (position + 1)) <<< (position + 1)

mutual
/-- The end of the preferred match that begins at a position, among those that
end at a goal. -/
def prefer : Pattern → (goals position : Nat) → Option Nat
  | .char set, goals, position =>
      if (subject.positionsOf set.accepts).testBit position && goals.testBit (position + 1) then
        some (position + 1)
      else none
  | .atStart, goals, position =>
      if position = 0 && goals.testBit position then some position else none
  | .atEnd, goals, position =>
      if position = subject.length && goals.testBit position then some position else none
  | .join items, goals, position =>
      preferJoin items (goalsAfter subject items goals) goals position
  | .choose branches, goals, position => preferChoice branches goals position
  | .opt item, goals, position =>
      match prefer item goals position with
      | some stop => some stop
      | none => if goals.testBit position then some position else none
  | .star item, goals, position =>
      let again := closure (reaching subject item) (subject.length + 1) goals goals
      let stop := furthest (fun position => prefer item (after again position) position)
        (subject.length + 1) position
      if goals.testBit stop then some stop else none
  | .plus item, goals, position =>
      let again := closure (reaching subject item) (subject.length + 1) goals goals
      match prefer item again position with
      | none => none
      | some first =>
          let stop := furthest (fun position => prefer item (after again position) position)
            (subject.length + 1) first
          if goals.testBit stop then some stop else none
  | .group _ item, goals, position => prefer item goals position
/-- The end of the preferred match of items, one after the other; `targets`
holds the goals of each item but those of the whole. -/
def preferJoin : List Pattern → (targets : List Nat) → (goals position : Nat) → Option Nat
  | [], _, goals, position => if goals.testBit position then some position else none
  | p :: ps, target :: targets, goals, position =>
      match prefer p target position with
      | none => none
      | some next => preferJoin ps targets goals next
  | _ :: _, [], _, _ => none
/-- The end of the preferred match of the first branch that has one. -/
def preferChoice : List Pattern → (goals position : Nat) → Option Nat
  | [], _, _ => none
  | p :: ps, goals, position =>
      match prefer p goals position with
      | some stop => some stop
      | none => preferChoice ps goals position
end

end

/-! ## Answers -/

/-- Whether a pattern matches somewhere in a text. -/
def isMatch (pattern : Pattern) (text : String) : Bool :=
  let subject := Subject.ofChars text.toList
  reaching subject pattern subject.all != 0

/-- The least position of a set, below a bound. -/
def least? (set bound : Nat) : Option Nat :=
  (List.range bound).find? set.testBit

/-- The first match in a text: it begins as early as possible and is preferred
among those that begin there.  The answer counts bytes. -/
def find? (pattern : Pattern) (text : String) : Option (Nat × Nat) :=
  let chars := text.toList
  let subject := Subject.ofChars chars
  match least? (reaching subject pattern subject.all) (subject.length + 1) with
  | none => none
  | some start =>
      match prefer subject pattern subject.all start with
      | none => none
      | some stop =>
          some (utf8Width (chars.take start), utf8Width (chars.take stop))

end Pattern
end TacticNotation
