import TacticNotation.Tree.Placeholder
import TacticNotation.Tree.Styled

/-!
# The words of styled text

The styled text of a tree and its placeholder text show the same words in the same
order, for trees of every shape.  They treat two kinds of node differently: a hole is
quoted in placeholder text only, and a repetition has its marker and its separator
after the body in styled text, where placeholder text has an ellipsis or nothing.
`Node.plain` writes out as literals what styled text shows of these nodes, and the
placeholder text of the result is the content of the styled text of the original.
-/

namespace TacticNotation
namespace Node

open Markup (contentAll contentAll_append)

/-! ## Plain trees -/

/-- What styled text shows after the body of a repetition. -/
def annotations (marker : Marker) (separator : Option String) : List Node :=
  .atomic (String.singleton marker.char) :: separator.toList.map .atomic

mutual
/-- The node with literals in the place of its holes and of the signs that say how its
repetitions are read. -/
def plain : Node → Node
  | .sequence children => .sequence (plainAll children)
  | .repetition marker separator body =>
      .sequence (plainAll body ++ annotations marker separator)
  | .curlies body => .curlies (plainAll body)
  | .alternative branches => .alternative (plainAll branches)
  | .atomic text => .atomic text
  | .hole id => .atomic id
  | .whitespace => .whitespace
/-- The list of nodes with literals in the place of its holes and of the signs that say
how its repetitions are read. -/
def plainAll : List Node → List Node
  | [] => []
  | n :: ns => plain n :: plainAll ns
end

mutual
/-- Whether there is no hole and no repetition in a node, at any depth. -/
def isFixed : Node → Bool
  | .sequence children => isFixedAll children
  | .repetition _ _ _ => false
  | .curlies body => isFixedAll body
  | .alternative branches => isFixedAll branches
  | .atomic _ => true
  | .hole _ => false
  | .whitespace => true
/-- Whether there is no hole and no repetition in a list of nodes, at any depth. -/
def isFixedAll : List Node → Bool
  | [] => true
  | n :: ns => isFixed n && isFixedAll ns
end

theorem plainAll_eq_self_of_forall {ns : List Node}
    (ih : ∀ n ∈ ns, n.isFixed = true → n.plain = n) (h : isFixedAll ns = true) :
    plainAll ns = ns := by
  induction ns with
  | nil => rfl
  | cons n ns hns =>
      rw [isFixedAll, Bool.and_eq_true] at h
      have hmore := hns (fun m hm => ih m (List.mem_cons_of_mem n hm)) h.2
      rw [plainAll, ih n (by simp) h.1, hmore]

/-- Where there is no hole and no repetition, there is nothing to write out. -/
theorem plain_eq_self (n : Node) (h : n.isFixed = true) : n.plain = n := by
  induction n using Node.induct with
  | sequence children ih => rw [plain, plainAll_eq_self_of_forall ih h]
  | repetition marker separator body ih => cases h
  | curlies body ih => rw [plain, plainAll_eq_self_of_forall ih h]
  | alternative branches ih => rw [plain, plainAll_eq_self_of_forall ih h]
  | atomic text => rfl
  | hole id => cases h
  | whitespace => rfl

/-! ## Content -/

theorem placeholderAll_annotations (marker : Marker) (separator : Option String) :
    placeholderAll (annotations marker separator) =
      String.singleton marker.char ++ contentAll (loweredSeparator separator) := by
  cases separator <;>
    simp [annotations, placeholderAll, placeholder, loweredSeparator, contentAll, Markup.content]

theorem contentAll_styledAll_of_forall {ns : List Node}
    (ih : ∀ n ∈ ns, contentAll n.styled = n.plain.placeholder) :
    contentAll (styledAll ns) = placeholderAll (plainAll ns) := by
  induction ns with
  | nil => rfl
  | cons n ns hns =>
      have hmore := hns fun m hm => ih m (List.mem_cons_of_mem n hm)
      rw [styledAll, contentAll_append, ih n (by simp), hmore, plainAll, placeholderAll]

/-- The bars between branches are words as well. -/
theorem contentAll_styledBranches_of_forall {ns : List Node}
    (ih : ∀ n ∈ ns, contentAll n.styled = n.plain.placeholder) :
    contentAll (styledBranches ns) = placeholderBranches (plainAll ns) := by
  induction ns with
  | nil => rfl
  | cons n ns hns =>
      have hmore := hns fun m hm => ih m (List.mem_cons_of_mem n hm)
      have hbar : branchBar.content = "|" := by
        simp [branchBar, Markup.content, contentAll]
      rw [styledBranches, List.cons_append, contentAll, contentAll_append, hbar,
        ih n (by simp), hmore, plainAll, placeholderBranches, String.append_assoc]

theorem contentAll_styled (n : Node) : contentAll n.styled = n.plain.placeholder := by
  induction n using Node.induct with
  | sequence children ih =>
      rw [styled, plain, placeholder]
      exact contentAll_styledAll_of_forall ih
  | repetition marker separator body ih =>
      have hbody := contentAll_styledAll_of_forall ih
      rw [plain, placeholder, placeholderAll_append, placeholderAll_annotations, ← hbody]
      simp [styled, contentAll, Markup.content]
  | curlies body ih =>
      have hbody := contentAll_styledAll_of_forall ih
      rw [plain, placeholder, ← hbody]
      simp [styled, contentAll, Markup.content, contentAll_append, String.append_assoc]
  | alternative branches ih =>
      cases branches with
      | nil => rfl
      | cons branch branches =>
          obtain ⟨hbranch, hbranches⟩ := List.forall_mem_cons.1 ih
          have hmore := contentAll_styledBranches_of_forall hbranches
          rw [plain, plainAll, placeholder, ← hbranch, ← hmore]
          simp [styled, contentAll, Markup.content, contentAll_append]
  | atomic text => simp [styled, plain, placeholder, contentAll, Markup.content]
  | hole id => simp [styled, plain, placeholder, contentAll, Markup.content]
  | whitespace => simp [styled, plain, placeholder, contentAll, Markup.content]

/-- The content of the styled text of a tree of any shape is the placeholder text of
the tree with literals for its holes and for the markers and separators of its
repetitions.  In a tree that has neither holes nor repetitions there is nothing to
replace, and the content is its own placeholder text. -/
theorem contentAll_styledAll_eq_placeholder (root : List Node) :
    contentAll (styledAll root) = placeholderAll (plainAll root) ∧
      (isFixedAll root = true → contentAll (styledAll root) = placeholderAll root) := by
  have hcontent := contentAll_styledAll_of_forall fun n (_ : n ∈ root) => contentAll_styled n
  refine ⟨hcontent, ?_⟩
  intro hfixed
  rw [hcontent, plainAll_eq_self_of_forall (fun n _ => plain_eq_self n) hfixed]

/-- Two branches of which one is a sequence show the bar between them once, and the
curlies show their braces, in both texts. -/
theorem contentAll_styledAll_eq_placeholder_branches :
    let root : List Node := [.alternative [.sequence [.atomic "a", .whitespace], .atomic "<b>"],
      .curlies [.whitespace, .atomic "…"]]
    isFixedAll root = true ∧ placeholderAll root = "a |<b>\x7b …\x7d" ∧
      contentAll (styledAll root) = placeholderAll root := by
  intro root
  have hfixed : isFixedAll root = true := by decide
  exact ⟨hfixed, by decide, (contentAll_styledAll_eq_placeholder root).2 hfixed⟩

end Node
end TacticNotation
