import TacticNotation.Tree.Reader

/-!
# Derivations

The grammar of notations as a relation on tokens.  `Derives part taken nodes
rest` says that the tokens `taken`, with `rest` after them, are a piece of a
notation of the kind `part` and stand for `nodes`.  What follows matters in
three places only: a run of pipes takes every pipe that is there, a pipe joins
two branches if a primary follows it, and blocks go on while a unit follows,
with or without a gap in between.

The relation says nothing about how a reader finds a derivation, in which order
it tries things or what it does where there is none.
-/

namespace TacticNotation
namespace Grammar

/-! ## Looking ahead -/

/-- Whether a pipe comes next that is glued to a primary after it. -/
def gluedPipe : List Token → Bool
  | .pipe :: token :: _ => token.startsPrimary
  | _ => false

/-- Whether a unit comes next, with or without a gap before it. -/
def unitAhead : List Token → Bool
  | .gap :: token :: _ => token.startsUnit
  | token :: _ => token.startsUnit
  | [] => false

/-- Whether a separator would come next: an atom or a pipe. -/
def separatorAhead : List Token → Bool
  | .atom _ :: _ | .pipe :: _ => true
  | _ => false

/-! ## Pieces -/

/-- A gap that may be there or not, as tokens. -/
def gapTokens (present : Bool) : List Token :=
  if present then [.gap] else []

/-- A gap that may be there or not, as nodes. -/
def gapNodes (present : Bool) : List Node :=
  if present then [.whitespace] else []

/-- A number of pipes, as tokens. -/
def pipeTokens (count : Nat) : List Token := List.replicate count .pipe

/-- A number of pipes, as text. -/
def pipeText (count : Nat) : String := String.ofList (List.replicate count '|')

/-- The tokens of a separator, with the separator and the tokens after it. -/
inductive Separates : List Token → Option String → List Token → Prop where
  | none {rest : List Token} (h : separatorAhead rest = false) : Separates [] none rest
  | atom (text : String) (rest : List Token) : Separates [.atom text] (some text) rest
  | pipes (count : Nat) {rest : List Token} (h : rest.head? ≠ some .pipe) :
      Separates (pipeTokens (count + 1)) (some (pipeText (count + 1))) rest

/-- The kinds of piece that a notation is made of. -/
inductive Part where
  /-- An atom, a hole or a group. -/
  | primary
  /-- The branches after the first, each with the pipe before it. -/
  | branches
  /-- A primary, several of them joined by pipes, or a run of pipes. -/
  | unit
  /-- The units after the first, with the gaps before them. -/
  | more
  /-- A unit and those after it. -/
  | blocks
  deriving DecidableEq, Repr

/-- Tokens that are a piece of a notation where certain tokens follow, and the
nodes that they stand for. -/
inductive Derives : Part → List Token → List Node → List Token → Prop where
  | atom (text : String) (rest : List Token) :
      Derives .primary [.atom text] [.atomic text] rest
  | hole (id : String) (rest : List Token) :
      Derives .primary [.hole id] [.hole id] rest
  | repetition (marker : Marker) {sep body : List Token} {separator : Option String}
      {nodes : List Node} {rest : List Token} (front back : Bool)
      (hsep : Separates sep separator
        (gapTokens front ++ (body ++ (gapTokens back ++ .braceClose :: rest))))
      (hbody : Derives .blocks body nodes (gapTokens back ++ .braceClose :: rest)) :
      Derives .primary
        (.repeatOpen marker ::
          (sep ++ (gapTokens front ++ (body ++ (gapTokens back ++ [.braceClose])))))
        [.repetition marker separator nodes] rest
  | curlies {body : List Token} {nodes : List Node} {rest : List Token} (front back : Bool)
      (hbody : Derives .blocks body nodes (gapTokens back ++ .braceClose :: rest)) :
      Derives .primary
        (.braceOpen :: (gapTokens front ++ (body ++ (gapTokens back ++ [.braceClose]))))
        [.curlies (gapNodes front ++ (nodes ++ gapNodes back))] rest
  -- A pipe that is glued to a primary always adds a branch.
  | noBranch {rest : List Token} (h : gluedPipe rest = false) : Derives .branches [] [] rest
  | branch {taken more rest : List Token} {node : Node} {nodes : List Node}
      (hbranch : Derives .primary taken [node] (more ++ rest))
      (hmore : Derives .branches more nodes rest) :
      Derives .branches (.pipe :: (taken ++ more)) (node :: nodes) rest
  | single {taken rest : List Token} {node : Node} (hnode : Derives .primary taken [node] rest)
      (h : gluedPipe rest = false) : Derives .unit taken [node] rest
  | alternative {taken more rest : List Token} {node other : Node} {nodes : List Node}
      (hfirst : Derives .primary taken [node] (more ++ rest))
      (hmore : Derives .branches more (other :: nodes) rest) :
      Derives .unit (taken ++ more) [.alternative (node :: other :: nodes)] rest
  -- At the start of a unit a pipe is literal, and so are those directly after it.
  | pipes (count : Nat) {rest : List Token} (h : rest.head? ≠ some .pipe) :
      Derives .unit (pipeTokens (count + 1)) [.atomic (pipeText (count + 1))] rest
  | noMore {rest : List Token} (h : unitAhead rest = false) : Derives .more [] [] rest
  | more {taken more rest : List Token} {node : Node} {nodes : List Node} (gap : Bool)
      (hunit : Derives .unit taken [node] (more ++ rest))
      (hmore : Derives .more more nodes rest) :
      Derives .more (gapTokens gap ++ (taken ++ more)) (gapNodes gap ++ node :: nodes) rest
  | blocks {taken more rest : List Token} {node : Node} {nodes : List Node}
      (hunit : Derives .unit taken [node] (more ++ rest))
      (hmore : Derives .more more nodes rest) :
      Derives .blocks (taken ++ more) (node :: nodes) rest

/-! ## First tokens -/

namespace Derives

variable {taken rest : List Token} {nodes : List Node}

theorem primary_head (h : Derives .primary taken nodes rest) :
    ∃ token after, taken = token :: after ∧ token.startsPrimary = true := by
  cases h with
  | atom text => exact ⟨_, _, rfl, rfl⟩
  | hole id => exact ⟨_, _, rfl, rfl⟩
  | repetition marker => exact ⟨_, _, rfl, rfl⟩
  | curlies => exact ⟨_, _, rfl, rfl⟩

theorem unit_head (h : Derives .unit taken nodes rest) :
    ∃ token after, taken = token :: after ∧ token.startsUnit = true := by
  cases h with
  | single hnode =>
      obtain ⟨token, after, rfl, hstarts⟩ := hnode.primary_head
      rw [Token.startsPrimary_eq, Bool.and_eq_true] at hstarts
      exact ⟨token, after, rfl, hstarts.1⟩
  | alternative hfirst =>
      obtain ⟨token, after, rfl, hstarts⟩ := hfirst.primary_head
      rw [Token.startsPrimary_eq, Bool.and_eq_true] at hstarts
      exact ⟨token, _, rfl, hstarts.1⟩
  | pipes count => exact ⟨.pipe, pipeTokens count, rfl, rfl⟩

theorem blocks_head (h : Derives .blocks taken nodes rest) :
    ∃ token after, taken = token :: after ∧ token.startsUnit = true := by
  cases h with
  | blocks hunit =>
      obtain ⟨token, after, rfl, hstarts⟩ := hunit.unit_head
      exact ⟨token, _, rfl, hstarts⟩

theorem ne_nil {part : Part} (h : Derives part taken nodes rest)
    (hpart : part = .primary ∨ part = .unit ∨ part = .blocks) : taken ≠ [] := by
  rintro rfl
  rcases hpart with rfl | rfl | rfl
  · obtain ⟨token, after, hnil, -⟩ := h.primary_head
    cases hnil
  · obtain ⟨token, after, hnil, -⟩ := h.unit_head
    cases hnil
  · obtain ⟨token, after, hnil, -⟩ := h.blocks_head
    cases hnil

theorem branches_nil (h : Derives .branches taken [] rest) :
    taken = [] ∧ gluedPipe rest = false := by
  cases h with
  | noBranch h => exact ⟨rfl, h⟩

/-- Where blocks end no unit follows. -/
theorem stop {part : Part} (h : Derives part taken nodes rest) :
    part = .more ∨ part = .blocks → unitAhead rest = false := by
  induction h with
  | noMore h => exact fun _ => h
  | more gap hunit hmore _ ih => exact fun _ => ih (Or.inl rfl)
  | blocks hunit hmore _ ih => exact fun _ => ih (Or.inl rfl)
  | _ => rintro (h | h) <;> cases h

theorem blocks_stop (h : Derives .blocks taken nodes rest) : unitAhead rest = false :=
  h.stop (Or.inr rfl)

end Derives
end Grammar
end TacticNotation
