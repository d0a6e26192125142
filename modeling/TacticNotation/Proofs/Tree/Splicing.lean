import TacticNotation.Proofs.Tree.Visitor

/-!
# Sequences inside of lists of nodes

A sequence stands for several nodes in the place of one.  In a list of nodes it makes
no difference whether they are held together by a sequence or not, so `splicedAll` puts
the children of each such sequence in its place, at every depth.  A sequence that is a
branch stays what it is: its children are one branch together.

A visitor that leaves sequences to the walk makes the same of a tree before and after
(`Visitor.walk_splicedAll`).  This does not depend on what it does at other nodes,
whether it walks over a body twice or from an output of its own, as it only gets the
walk over what is below, and that walk is the same.
-/

namespace TacticNotation
namespace Node

/-! ## Splicing -/

/-- What stands for a node in a list of nodes: for a sequence its children, and for any
other node the node. -/
def asList : Node → List Node
  | .sequence children => children
  | n => [n]

mutual
/-- The node with no sequence in a list of nodes below it. -/
def spliced : Node → Node
  | .sequence children => .sequence (splicedAll children)
  | .repetition marker separator body => .repetition marker separator (splicedAll body)
  | .curlies body => .curlies (splicedAll body)
  | .alternative branches => .alternative (splicedBranches branches)
  | .atomic text => .atomic text
  | .hole id => .hole id
  | .whitespace => .whitespace
/-- The list of nodes with the children of each sequence in its place. -/
def splicedAll : List Node → List Node
  | [] => []
  | n :: ns => asList (spliced n) ++ splicedAll ns
/-- The branches with no sequence in a list of nodes below them. -/
def splicedBranches : List Node → List Node
  | [] => []
  | n :: ns => spliced n :: splicedBranches ns
end

mutual
/-- Whether there is no sequence in a list of nodes below a node. -/
def isSpliced : Node → Bool
  | .sequence children => isSplicedAll children
  | .repetition _ _ body => isSplicedAll body
  | .curlies body => isSplicedAll body
  | .alternative branches => isSplicedBranches branches
  | .atomic _ | .hole _ | .whitespace => true
/-- Whether there is no sequence in a list of nodes, nor in one below it. -/
def isSplicedAll : List Node → Bool
  | [] => true
  | .sequence _ :: _ => false
  | n :: ns => isSpliced n && isSplicedAll ns
/-- Whether there is no sequence in a list of nodes below some branches. -/
def isSplicedBranches : List Node → Bool
  | [] => true
  | n :: ns => isSpliced n && isSplicedBranches ns
end

theorem isSplicedAll_append {front back : List Node} (hfront : isSplicedAll front = true)
    (hback : isSplicedAll back = true) : isSplicedAll (front ++ back) = true := by
  induction front with
  | nil => exact hback
  | cons n front ih =>
      cases n with
      | sequence children => cases hfront
      | _ =>
          rw [isSplicedAll, Bool.and_eq_true] at hfront
          rw [List.cons_append, isSplicedAll, hfront.1, ih hfront.2]
          all_goals simp

theorem isSplicedAll_asList {n : Node} (h : n.isSpliced = true) :
    isSplicedAll n.asList = true := by
  cases n with
  | sequence children => exact h
  | _ =>
      rw [asList, isSplicedAll, h, isSplicedAll]
      all_goals simp

theorem isSplicedAll_of_forall {ns : List Node} (ih : ∀ n ∈ ns, n.spliced.isSpliced = true) :
    isSplicedAll (splicedAll ns) = true := by
  induction ns with
  | nil => rfl
  | cons n ns hns =>
      obtain ⟨hn, hmore⟩ := List.forall_mem_cons.1 ih
      exact isSplicedAll_append (isSplicedAll_asList hn) (hns hmore)

theorem isSplicedBranches_of_forall {ns : List Node}
    (ih : ∀ n ∈ ns, n.spliced.isSpliced = true) :
    isSplicedBranches (splicedBranches ns) = true := by
  induction ns with
  | nil => rfl
  | cons n ns hns =>
      obtain ⟨hn, hmore⟩ := List.forall_mem_cons.1 ih
      rw [splicedBranches, isSplicedBranches, hn, hns hmore]
      rfl

theorem isSpliced_spliced (n : Node) : n.spliced.isSpliced = true := by
  induction n using Node.induct with
  | sequence children ih => exact isSplicedAll_of_forall ih
  | repetition marker separator body ih => exact isSplicedAll_of_forall ih
  | curlies body ih => exact isSplicedAll_of_forall ih
  | alternative branches ih => exact isSplicedBranches_of_forall ih
  | atomic text => rfl
  | hole id => rfl
  | whitespace => rfl

end Node

/-! ## Visitors and sequences -/

namespace Visitor

open Node (asList spliced splicedAll splicedBranches)

variable {Output : Type} {v : Visitor Output}

/-- A visitor leaves sequences to the walk over their children. -/
def Descends (v : Visitor Output) : Prop :=
  ∀ walk, v.sequence walk = walk

theorem visit_sequence (h : v.Descends) (children : List Node) :
    v.visit (.sequence children) = v.walk children :=
  h (v.walk children)

theorem walk_asList (h : v.Descends) (n : Node) : v.walk n.asList = v.visit n := by
  cases n with
  | sequence children => exact (visit_sequence h children).symm
  | _ => rfl

theorem walk_splicedAll_of_forall (h : v.Descends) {ns : List Node}
    (ih : ∀ n ∈ ns, v.visit n.spliced = v.visit n) : v.walk (splicedAll ns) = v.walk ns := by
  induction ns with
  | nil => rfl
  | cons n ns hns =>
      obtain ⟨hn, hmore⟩ := List.forall_mem_cons.1 ih
      funext out
      calc v.walk (splicedAll (n :: ns)) out
          = v.walk (splicedAll ns) (v.walk n.spliced.asList out) := walk_append v _ _ out
        _ = v.walk ns (v.visit n out) := by rw [hns hmore, walk_asList h, hn]
        _ = v.walk (n :: ns) out := rfl

theorem visits_splicedBranches_of_forall {ns : List Node}
    (ih : ∀ n ∈ ns, v.visit n.spliced = v.visit n) :
    v.visits (splicedBranches ns) = v.visits ns := by
  induction ns with
  | nil => rfl
  | cons n ns hns =>
      obtain ⟨hn, hmore⟩ := List.forall_mem_cons.1 ih
      rw [splicedBranches, visits, visits, hn, hns hmore]

theorem visit_spliced (h : v.Descends) (n : Node) : v.visit n.spliced = v.visit n := by
  induction n using Node.induct with
  | sequence children ih => exact congrArg v.sequence (walk_splicedAll_of_forall h ih)
  | repetition marker separator body ih =>
      exact congrArg (v.repetition marker separator) (walk_splicedAll_of_forall h ih)
  | curlies body ih => exact congrArg v.curlies (walk_splicedAll_of_forall h ih)
  | alternative branches ih =>
      exact congrArg v.alternative (visits_splicedBranches_of_forall ih)
  | atomic text => rfl
  | hole id => rfl
  | whitespace => rfl

theorem walk_splicedAll (h : v.Descends) (ns : List Node) :
    v.walk (splicedAll ns) = v.walk ns :=
  walk_splicedAll_of_forall h fun n _ => visit_spliced h n

namespace Writes

variable [Append Output] {renderAll : List Node → Output} {start : Output}

/-- A rendering is what the walk puts out if there is nothing before it. -/
theorem walk_start (h : v.Writes renderAll) (hv : v.Descends)
    (hstart : ∀ out, start ++ out = out) (ns : List Node) : v.walk ns start = renderAll ns := by
  rw [← visit_sequence hv, h, hstart]

theorem renderAll_splicedAll (h : v.Writes renderAll) (hv : v.Descends)
    (hstart : ∀ out, start ++ out = out) (ns : List Node) :
    renderAll (splicedAll ns) = renderAll ns := by
  rw [← h.walk_start hv hstart, walk_splicedAll hv, h.walk_start hv hstart]

end Writes
end Visitor

namespace Node

/-- To put the children of a sequence in its place, wherever it stands in a list of
nodes, leaves no sequence but branches, and changes neither the styled text nor the
placeholder text, the pattern or the names of the holes.  Each of them is put out by a
visitor that only adds at the end, so that of two lists of nodes together is that of
the one followed by that of the other. -/
theorem sequences_transparent (root front back : List Node) :
    isSplicedAll (splicedAll root) = true ∧
    (Visitor.styledText.Writes styledAll ∧ styledAll (splicedAll root) = styledAll root ∧
      styledAll (front ++ back) = styledAll front ++ styledAll back) ∧
    (Visitor.placeholderText.Writes placeholderAll ∧
      placeholderAll (splicedAll root) = placeholderAll root ∧
      placeholderAll (front ++ back) = placeholderAll front ++ placeholderAll back) ∧
    (Visitor.patternText.Writes patternTextAll ∧
      patternTextAll (splicedAll root) = patternTextAll root ∧
      patternTextAll (front ++ back) = patternTextAll front ++ patternTextAll back) ∧
    (Visitor.holeNames.Writes holesAll ∧ holesAll (splicedAll root) = holesAll root ∧
      holesAll (front ++ back) = holesAll front ++ holesAll back) := by
  have hspliced := isSplicedAll_of_forall fun n (_ : n ∈ root) => isSpliced_spliced n
  have hstyled := Visitor.writes_styledText
  have hplaceholder := Visitor.writes_placeholderText
  have hpattern := Visitor.writes_patternText
  have hholes := Visitor.writes_holeNames
  refine ⟨hspliced, ⟨hstyled, ?_, styledAll_append front back⟩,
    ⟨hplaceholder, ?_, placeholderAll_append front back⟩,
    ⟨hpattern, ?_, patternTextAll_append front back⟩, hholes, ?_, holesAll_append front back⟩
  · exact hstyled.renderAll_splicedAll (fun _ => rfl) List.nil_append root
  · exact hplaceholder.renderAll_splicedAll (fun _ => rfl) (fun _ => String.empty_append) root
  · exact hpattern.renderAll_splicedAll (fun _ => rfl) (fun _ => String.empty_append) root
  · exact hholes.renderAll_splicedAll (fun _ => rfl) List.nil_append root

/-- A sequence of one branch stays, and the one inside of it does not. -/
example :
    splicedAll [.sequence [.hole "a", .sequence [.whitespace]],
        .alternative [.sequence [.sequence [.hole "b"], .atomic "c"], .atomic "d"]] =
      [.hole "a", .whitespace,
        .alternative [.sequence [.hole "b", .atomic "c"], .atomic "d"]] := rfl

end Node
end TacticNotation
