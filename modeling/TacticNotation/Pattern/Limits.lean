import TacticNotation.Pattern.Reader

/-!
# The limits on patterns

Two measures of a pattern are bounded: how deep its parts are nested, and how
much room the automata that search for it take.  A pattern is compiled if its
text can be read and both measures are within their limits.

There are two automata, and each has to be within the limit: one reads a text
forward and notes where groups start and end, the other reads it backward to
find where a match starts.  Both read UTF-8 byte by byte: a literal takes a
state for every byte, a set takes the states that tell its members from the
other characters, and a choice takes a word for every way out of it.
-/

namespace TacticNotation
namespace Pattern

/-! ## Depth -/

/-- How deep the parts of a character set are nested: a listed set is one
level, and the list of its members another. -/
def setDepth : CharSet → Nat
  | .literal _ | .blank => 0
  | .listed _ [] => 1
  | .listed _ [_] => 1
  | .listed _ (_ :: _ :: _) => 2

mutual
/-- How deep the parts of a pattern are nested. -/
def depth : Pattern → Nat
  | .char set => setDepth set
  | .atStart => 0
  | .atEnd => 0
  | .join [] => 0
  | .join (p :: ps) => 1 + max (depth p) (depthAll ps)
  | .choose branches => 1 + depthAll branches
  | .opt item => 1 + depth item
  | .star item => 1 + depth item
  | .plus item => 1 + depth item
  | .group _ item => 1 + depth item
/-- The greatest depth of some patterns. -/
def depthAll : List Pattern → Nat
  | [] => 0
  | p :: ps => max (depth p) (depthAll ps)
end

/-- The greatest depth that is allowed. -/
def maxDepth : Nat := 250

/-! ## Size -/

/-- The bytes that one state takes. -/
def stateSize : Nat := 32

/-- The bytes that one way out of a choice takes. -/
def exitSize : Nat := 4

/-- The bytes that one range of bytes takes in a state that tells several of
them apart. -/
def rangeSize : Nat := 8

/-- The direction in which an automaton reads. -/
inductive Direction where
  | forward
  | backward
  deriving DecidableEq, Repr

/-- The size of the part of an automaton that matches one character of a set.
Forward, states that go on alike are shared: the blanks need 9 states with 17
ranges, the complement of a few ASCII characters 9 states with 21.  Backward,
only leading bytes that are alike are shared, and there is a choice among the
sequences: the blanks need 20 states and 10 exits, the complement 34 states and
14 exits. -/
def setSize : Direction → CharSet → Nat
  | _, .literal c => stateSize * c.utf8Size
  | .forward, .blank => 9 * stateSize + 17 * rangeSize
  | .forward, .listed _ _ => 9 * stateSize + 21 * rangeSize
  | .backward, .blank => 20 * stateSize + 10 * exitSize
  | .backward, .listed _ _ => 34 * stateSize + 14 * exitSize

/-- What a group adds to the size of its item: a note of where it starts and one
of where it ends, if it captures and the text is read forward. -/
def groupSize : Direction → (captures : Bool) → Nat
  | .forward, true => 2 * stateSize
  | .forward, false | .backward, _ => 0

section
variable (direction : Direction)

mutual
/-- The size of the automaton for a pattern. -/
def size : Pattern → Nat
  | .char set => setSize direction set
  | .atStart => stateSize
  | .atEnd => stateSize
  | .join [] => stateSize
  | .join (p :: ps) => size p + sizeAll ps
  | .choose branches => 2 * stateSize + exitSize * branches.length + sizeAll branches
  | .opt item => 2 * stateSize + 2 * exitSize + size item
  | .star item => stateSize + 2 * exitSize + size item
  | .plus item => stateSize + 2 * exitSize + size item
  | .group captures item => groupSize direction captures + size item
/-- The sizes of some patterns, summed. -/
def sizeAll : List Pattern → Nat
  | [] => 0
  | p :: ps => size p + sizeAll ps
end

end

/-- The greatest size that is allowed: ten mebibytes. -/
def maxSize : Nat := 10 * 1024 * 1024

/-! ## Compiling -/

/-- The size of the larger automaton for a pattern. -/
def greatestSize (pattern : Pattern) : Nat :=
  max (pattern.size .forward) (pattern.size .backward)

/-- Whether a pattern is within the limits. -/
def withinLimits (pattern : Pattern) : Bool :=
  pattern.depth ≤ maxDepth && pattern.greatestSize ≤ maxSize

/-- Why a text is not compiled. -/
inductive Refusal where
  | malformed (error : SyntaxError)
  | tooDeep
  | tooLarge
  deriving DecidableEq, Repr

/-- The pattern that a text writes down, if it can be read and is within the
limits. -/
def compile (source : String) : Except Refusal Pattern :=
  match read source with
  | .error error => .error (.malformed error)
  | .ok pattern =>
      if pattern.depth > maxDepth then .error .tooDeep
      else if pattern.greatestSize > maxSize then .error .tooLarge
      else .ok pattern

theorem compile_eq_ok_iff {source : String} {pattern : Pattern} :
    compile source = .ok pattern ↔ read source = .ok pattern ∧ pattern.withinLimits := by
  unfold compile withinLimits
  cases read source with
  | error error => simp
  | ok other =>
      by_cases hdepth : other.depth > maxDepth
      · simp only [hdepth, if_true, Except.ok.injEq, reduceCtorEq, false_iff]
        rintro ⟨rfl, h⟩
        simp at h; omega
      · by_cases hsize : other.greatestSize > maxSize
        · simp only [hdepth, hsize, if_true, if_false, Except.ok.injEq, reduceCtorEq, false_iff]
          rintro ⟨rfl, h⟩
          simp at h; omega
        · simp only [hdepth, hsize, if_false, Except.ok.injEq]
          constructor
          · rintro rfl; simp; omega
          · exact fun h => h.1

end Pattern
end TacticNotation
