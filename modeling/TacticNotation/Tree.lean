import TacticNotation.Marker

/-!
# Notation trees

A notation is a list of nodes, and so is the body of every group.  The reader
of notations never makes a sequence node, but every function on trees is
defined for it, and for empty bodies and alternatives of fewer than two
branches as well.
-/

namespace TacticNotation

/-- A part of a notation. -/
inductive Node where
  /-- Several parts in the place of one. -/
  | sequence (children : List Node)
  /-- A body that may occur as often as the marker says, with the separator
  between two occurrences; one space stands in for an absent separator. -/
  | repetition (marker : Marker) (separator : Option String) (body : List Node)
  /-- A body between literal braces. -/
  | curlies (body : List Node)
  /-- One of several branches. -/
  | alternative (branches : List Node)
  /-- Literal text. -/
  | atomic (text : String)
  /-- A named place to be filled in. -/
  | hole (id : String)
  /-- Blank space of any amount. -/
  | whitespace
  deriving Repr, Inhabited

namespace Node

/-! ## Induction -/

/-- To show something of every node, show it of each kind of node under the
assumption that it holds of the nodes directly below. -/
theorem induct {motive : Node → Prop}
    (sequence : ∀ children, (∀ n ∈ children, motive n) → motive (.sequence children))
    (repetition : ∀ marker separator body, (∀ n ∈ body, motive n) →
      motive (.repetition marker separator body))
    (curlies : ∀ body, (∀ n ∈ body, motive n) → motive (.curlies body))
    (alternative : ∀ branches, (∀ n ∈ branches, motive n) → motive (.alternative branches))
    (atomic : ∀ text, motive (.atomic text))
    (hole : ∀ id, motive (.hole id))
    (whitespace : motive .whitespace) (n : Node) : motive n :=
  Node.rec (motive_1 := motive) (motive_2 := fun ns => ∀ n ∈ ns, motive n)
    sequence repetition curlies alternative atomic hole whitespace
    (by simp) (by intro n ns hn hns m hm; cases hm with
      | head => exact hn
      | tail _ hm => exact hns m hm) n

/-! ## Equality -/

mutual
/-- Whether two nodes are the same. -/
def same : Node → Node → Bool
  | .sequence xs, .sequence ys => sameAll xs ys
  | .repetition m s xs, .repetition m' s' ys => m == m' && s == s' && sameAll xs ys
  | .curlies xs, .curlies ys => sameAll xs ys
  | .alternative xs, .alternative ys => sameAll xs ys
  | .atomic t, .atomic t' => t == t'
  | .hole i, .hole i' => i == i'
  | .whitespace, .whitespace => true
  | _, _ => false
/-- Whether two lists of nodes are the same. -/
def sameAll : List Node → List Node → Bool
  | [], [] => true
  | x :: xs, y :: ys => same x y && sameAll xs ys
  | _, _ => false
end

theorem sameAll_iff_of_forall {xs : List Node}
    (ih : ∀ x ∈ xs, ∀ y, same x y = true ↔ x = y) (ys : List Node) :
    sameAll xs ys = true ↔ xs = ys := by
  induction xs generalizing ys with
  | nil => cases ys <;> simp [sameAll]
  | cons x xs hxs =>
      cases ys with
      | nil => simp [sameAll]
      | cons y ys =>
          have hx := ih x (by simp) y
          have hall := hxs (fun z hz => ih z (by simp [hz])) ys
          simp [sameAll, hx, hall]

theorem same_iff (x y : Node) : same x y = true ↔ x = y := by
  induction x using Node.induct generalizing y with
  | sequence xs ih => cases y <;> simp [same, sameAll_iff_of_forall ih]
  | repetition m s xs ih =>
      cases y <;> simp [same, sameAll_iff_of_forall ih, and_assoc]
  | curlies xs ih => cases y <;> simp [same, sameAll_iff_of_forall ih]
  | alternative xs ih => cases y <;> simp [same, sameAll_iff_of_forall ih]
  | atomic t => cases y <;> simp [same]
  | hole i => cases y <;> simp [same]
  | whitespace => cases y <;> simp [same]

instance : DecidableEq Node := fun x y => decidable_of_iff _ (same_iff x y)

/-! ## Holes -/

mutual
/-- The names of the holes of a node, in the order of the text. -/
def holes : Node → List String
  | .sequence children => holesAll children
  | .repetition _ _ body => holesAll body
  | .curlies body => holesAll body
  | .alternative branches => holesAll branches
  | .atomic _ => []
  | .hole id => [id]
  | .whitespace => []
/-- The names of the holes of a list of nodes. -/
def holesAll : List Node → List String
  | [] => []
  | n :: ns => holes n ++ holesAll ns
end

theorem holesAll_eq (ns : List Node) : holesAll ns = ns.flatMap holes := by
  induction ns with
  | nil => rfl
  | cons n ns ih => simp [holesAll, ih]

theorem holesAll_append (front back : List Node) :
    holesAll (front ++ back) = holesAll front ++ holesAll back := by
  rw [holesAll_eq, List.flatMap_append, ← holesAll_eq, ← holesAll_eq]

end Node
end TacticNotation
