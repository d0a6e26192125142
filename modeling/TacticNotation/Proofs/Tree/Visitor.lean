import TacticNotation.Tree.Pattern
import TacticNotation.Tree.Placeholder
import TacticNotation.Tree.Styled

/-!
# Visitors

A visitor says for each kind of node what becomes of the output so far.  For a node
with others below it, it is not given these nodes but the walk over them, which it can
make once or twice or not at all, and also from an output of its own.  Where nothing
else is said it walks on from left to right, and puts out nothing at a leaf.

The styled text, the placeholder text, the pattern and the names of the holes of a
tree are put out by one visitor each.  `Visitor.Writes` says that the output is the
same whatever has been put out before: a visitor only ever adds at the end.
-/

namespace TacticNotation

/-- Visits that are made one after the other, each to the output of the one before. -/
def Visitor.inOrder {Output : Type} (visits : List (Output → Output)) (out : Output) :
    Output :=
  visits.foldl (fun out visit => visit out) out

/-- What becomes of the output at each kind of node. -/
structure Visitor (Output : Type) where
  sequence (walk : Output → Output) : Output → Output := walk
  repetition (marker : Marker) (separator : Option String) (walk : Output → Output) :
    Output → Output := walk
  curlies (walk : Output → Output) : Output → Output := walk
  /-- The branches are visited one by one. -/
  alternative (visits : List (Output → Output)) : Output → Output := Visitor.inOrder visits
  atomic (text : String) (out : Output) : Output := out
  hole (id : String) (out : Output) : Output := out
  whitespace (out : Output) : Output := out

namespace Visitor

variable {Output : Type}

mutual
/-- Visit a node. -/
def visit (v : Visitor Output) : Node → Output → Output
  | .sequence children => v.sequence (inOrder (visits v children))
  | .repetition marker separator body =>
      v.repetition marker separator (inOrder (visits v body))
  | .curlies body => v.curlies (inOrder (visits v body))
  | .alternative branches => v.alternative (visits v branches)
  | .atomic text => v.atomic text
  | .hole id => v.hole id
  | .whitespace => v.whitespace
/-- The visits to some nodes. -/
def visits (v : Visitor Output) : List Node → List (Output → Output)
  | [] => []
  | n :: ns => visit v n :: visits v ns
end

/-- Visit some nodes, one after the other. -/
def walk (v : Visitor Output) (ns : List Node) : Output → Output :=
  inOrder (v.visits ns)

/-- Visits with `bar` done to the output between any two of them. -/
def separated (bar : Output → Output) : List (Output → Output) → Output → Output
  | [], out => out
  | visit :: visits, out => inOrder (visits.map fun visit out => visit (bar out)) (visit out)

theorem inOrder_cons (visit : Output → Output) (visits : List (Output → Output))
    (out : Output) : inOrder (visit :: visits) out = inOrder visits (visit out) := rfl

theorem visits_eq (v : Visitor Output) (ns : List Node) : v.visits ns = ns.map v.visit := by
  induction ns with
  | nil => rfl
  | cons n ns ih => rw [visits, ih, List.map_cons]

theorem walk_append (v : Visitor Output) (front back : List Node) (out : Output) :
    v.walk (front ++ back) out = v.walk back (v.walk front out) := by
  rw [walk, visits_eq, List.map_append, ← visits_eq, ← visits_eq]
  exact List.foldl_append

/-! ## The visitors -/

open Node (branchBar loweredSeparator spacer joinPattern holePattern gapPattern)

/-- The visitor that puts out styled text. -/
def styledText : Visitor (List Markup) where
  repetition marker separator walk out :=
    out ++ [.element .span ["repeat-wrapper"]
      (.element .span ["repeat"] (walk []) ::
        .element .sup [] [.text (String.singleton marker.char)] ::
        loweredSeparator separator)]
  curlies walk out :=
    out ++ [.element .span ["curlies"] (.text "\x7b" :: walk [] ++ [.text "\x7d"])]
  -- Each branch is put out by itself and then taken into the element.
  alternative visits out :=
    out ++ [.element .span ["alternative"]
      (separated (· ++ [branchBar]) (visits.map fun visit out => out ++ visit []) [])]
  atomic text out := out ++ [.element .span [] [.text text]]
  hole id out := out ++ [.element .span ["hole"] [.text id]]
  whitespace out := out ++ [.text " "]

/-- The visitor that puts out placeholder text. -/
def placeholderText : Visitor String where
  repetition marker separator walk out :=
    match marker with
    | .oneOrMore => walk (walk out ++ spacer separator ++ "…" ++ spacer separator)
    | .optional | .zeroOrMore => walk out
  curlies walk out := walk (out ++ "\x7b") ++ "\x7d"
  alternative visits := separated (· ++ "|") visits
  atomic text out := out ++ text
  hole id out := out ++ "‘" ++ id ++ "’"
  whitespace out := out ++ " "

/-- The visitor that puts out patterns. -/
def patternText : Visitor String where
  repetition marker separator walk out :=
    let once := walk (out ++ "(") ++ ")"
    match marker with
    | .optional => once ++ "?"
    | .zeroOrMore => walk (once ++ "?" ++ "(" ++ joinPattern separator) ++ ")*"
    | .oneOrMore => walk (once ++ "(" ++ joinPattern separator) ++ ")*"
  curlies walk out := walk (out ++ "\\\x7b") ++ "\\\x7d"
  alternative visits out := separated (· ++ "|") visits (out ++ "(") ++ ")"
  atomic text out := out ++ Pattern.quote text
  hole _ out := out ++ holePattern
  whitespace out := out ++ gapPattern

/-- A visitor that does something at holes and nowhere else. -/
def atHoles (hole : String → Output → Output) : Visitor Output where
  hole := hole

/-- The visitor that puts out the names of the holes. -/
def holeNames : Visitor (List String) :=
  atHoles fun id out => out ++ [id]

/-! ## What the visitors put out -/

/-- The renderings of some nodes, one after the other. -/
structure Concatenates [Append Output] (render : Node → Output)
    (renderAll : List Node → Output) : Prop where
  nil : ∀ out, out ++ renderAll [] = out
  cons : ∀ n ns out, out ++ renderAll (n :: ns) = out ++ render n ++ renderAll ns

section
variable [Append Output] {render : Node → Output} {renderAll : List Node → Output}
  {visitOf : Node → Output → Output}

theorem Concatenates.inOrder_map (h : Concatenates render renderAll) {ns : List Node}
    (ih : ∀ n ∈ ns, ∀ out, visitOf n out = out ++ render n) (out : Output) :
    inOrder (ns.map visitOf) out = out ++ renderAll ns := by
  induction ns generalizing out with
  | nil => exact (h.nil out).symm
  | cons n ns hns =>
      obtain ⟨hn, hmore⟩ := List.forall_mem_cons.1 ih
      rw [List.map_cons, inOrder_cons, hn, hns hmore, h.cons]

theorem Concatenates.walk (h : Concatenates render renderAll) {v : Visitor Output}
    {ns : List Node} (ih : ∀ n ∈ ns, ∀ out, v.visit n out = out ++ render n) (out : Output) :
    v.walk ns out = out ++ renderAll ns := by
  rw [Visitor.walk, visits_eq]
  exact h.inOrder_map ih out

/-- The first branch, and those after it with a bar before each. -/
theorem Concatenates.separated_map (h : Concatenates render renderAll)
    (bar : Output → Output) {ns : List Node}
    (ih : ∀ n ∈ ns, ∀ out, visitOf n (bar out) = out ++ render n) (n : Node) (out : Output) :
    separated bar ((n :: ns).map visitOf) out = visitOf n out ++ renderAll ns := by
  rw [List.map_cons, separated, List.map_map]
  exact h.inOrder_map ih (visitOf n out)

/-- A visitor puts the rendering of a list of nodes after what has been put out before,
and the same rendering whatever that is. -/
def Writes (v : Visitor Output) (renderAll : List Node → Output) : Prop :=
  ∀ root out, v.visit (.sequence root) out = out ++ renderAll root

end

open Node

theorem concatenates_styled : Concatenates styled styledAll where
  nil := List.append_nil
  cons n ns out := by rw [styledAll, List.append_assoc]

theorem concatenates_barred_styled :
    Concatenates (fun n => branchBar :: styled n) styledBranches where
  nil := List.append_nil
  cons n ns out := by rw [styledBranches, List.append_assoc, List.cons_append]

theorem concatenates_placeholder : Concatenates placeholder placeholderAll where
  nil _ := String.append_empty
  cons n ns out := by rw [placeholderAll, String.append_assoc]

theorem concatenates_barred_placeholder :
    Concatenates (fun n => "|" ++ placeholder n) placeholderBranches where
  nil _ := String.append_empty
  cons n ns out := by rw [placeholderBranches, ← String.append_assoc]

theorem concatenates_patternText : Concatenates Node.patternText patternTextAll where
  nil _ := String.append_empty
  cons n ns out := by rw [patternTextAll, String.append_assoc]

theorem concatenates_barred_patternText :
    Concatenates (fun n => "|" ++ Node.patternText n) patternTextBranches where
  nil _ := String.append_empty
  cons n ns out := by rw [patternTextBranches, ← String.append_assoc]

theorem visit_styledText (n : Node) (out : List Markup) :
    styledText.visit n out = out ++ n.styled := by
  induction n using Node.induct generalizing out with
  | sequence children ih => exact concatenates_styled.walk ih out
  | repetition marker separator body ih =>
      have hbody := concatenates_styled.walk ih []
      rw [List.nil_append] at hbody
      rw [visit, styled, ← hbody]
      rfl
  | curlies body ih =>
      have hbody := concatenates_styled.walk ih []
      rw [List.nil_append] at hbody
      rw [visit, styled, ← hbody]
      rfl
  | alternative branches ih =>
      cases branches with
      | nil => rfl
      | cons branch branches =>
          obtain ⟨hbranch, hmore⟩ := List.forall_mem_cons.1 ih
          let visitOf (n : Node) (out : List Markup) := out ++ styledText.visit n []
          have hbarred : ∀ n ∈ branches, ∀ out,
              visitOf n (out ++ [branchBar]) = out ++ branchBar :: n.styled := by
            intro n hn out
            show out ++ [branchBar] ++ styledText.visit n [] = _
            rw [hmore n hn, List.nil_append, List.append_assoc, List.singleton_append]
          have hbranches := concatenates_barred_styled.separated_map (· ++ [branchBar])
            hbarred branch []
          have hfirst : visitOf branch [] = branch.styled := hbranch []
          rw [hfirst] at hbranches
          rw [visit, styled, ← hbranches, visits_eq]
          simp only [styledText, List.map_map]
          rfl
  | atomic text => rfl
  | hole id => rfl
  | whitespace => rfl

theorem visit_placeholderText (n : Node) (out : String) :
    placeholderText.visit n out = out ++ n.placeholder := by
  induction n using Node.induct generalizing out with
  | sequence children ih => exact concatenates_placeholder.walk ih out
  | repetition marker separator body ih =>
      have hbody := concatenates_placeholder.walk ih
      cases marker with
      | optional => exact hbody out
      | zeroOrMore => exact hbody out
      | oneOrMore =>
          show placeholderText.walk body
            (placeholderText.walk body out ++ spacer separator ++ "…" ++ spacer separator) = _
          rw [placeholder, ellipsis, hbody, hbody]
          simp only [String.append_assoc]
  | curlies body ih =>
      have hbody := concatenates_placeholder.walk ih
      show placeholderText.walk body (out ++ "\x7b") ++ "\x7d" = _
      rw [placeholder, hbody]
      simp only [String.append_assoc]
  | alternative branches ih =>
      cases branches with
      | nil => exact String.append_empty.symm
      | cons branch branches =>
          obtain ⟨hbranch, hmore⟩ := List.forall_mem_cons.1 ih
          have hbarred : ∀ n ∈ branches, ∀ out,
              placeholderText.visit n (out ++ "|") = out ++ ("|" ++ n.placeholder) := by
            intro n hn out
            rw [hmore n hn, String.append_assoc]
          have hbranches := concatenates_barred_placeholder.separated_map (· ++ "|")
            hbarred branch out
          rw [visit, visits_eq, placeholder, ← String.append_assoc, ← hbranch]
          exact hbranches
  | atomic text => rfl
  | hole id =>
      show out ++ "‘" ++ id ++ "’" = _
      rw [placeholder]
      simp only [String.append_assoc]
  | whitespace => rfl

theorem visit_patternText (n : Node) (out : String) :
    patternText.visit n out = out ++ n.patternText := by
  induction n using Node.induct generalizing out with
  | sequence children ih => exact concatenates_patternText.walk ih out
  | repetition marker separator body ih =>
      have hbody := concatenates_patternText.walk ih
      -- The second walk starts from a longer output than the first and adds the same.
      cases marker with
      | optional =>
          show patternText.walk body (out ++ "(") ++ ")" ++ "?" = _
          rw [Node.patternText, hbody, ← String.toList_inj]
          simp
      | zeroOrMore =>
          show patternText.walk body (patternText.walk body (out ++ "(") ++ ")" ++ "?" ++
            "(" ++ joinPattern separator) ++ ")*" = _
          rw [Node.patternText, hbody, hbody, ← String.toList_inj]
          simp
      | oneOrMore =>
          show patternText.walk body (patternText.walk body (out ++ "(") ++ ")" ++
            "(" ++ joinPattern separator) ++ ")*" = _
          rw [Node.patternText, hbody, hbody, ← String.toList_inj]
          simp
  | curlies body ih =>
      have hbody := concatenates_patternText.walk ih
      show patternText.walk body (out ++ "\\\x7b") ++ "\\\x7d" = _
      rw [Node.patternText, hbody]
      simp only [String.append_assoc]
  | alternative branches ih =>
      cases branches with
      | nil =>
          show out ++ "(" ++ ")" = _
          rw [Node.patternText, String.append_assoc]
          rfl
      | cons branch branches =>
          obtain ⟨hbranch, hmore⟩ := List.forall_mem_cons.1 ih
          have hbarred : ∀ n ∈ branches, ∀ out,
              patternText.visit n (out ++ "|") = out ++ ("|" ++ n.patternText) := by
            intro n hn out
            rw [hmore n hn, String.append_assoc]
          have hbranches := concatenates_barred_patternText.separated_map (· ++ "|")
            hbarred branch (out ++ "(")
          rw [← visits_eq, hbranch] at hbranches
          show separated (· ++ "|") (patternText.visits (branch :: branches)) (out ++ "(") ++ ")"
            = _
          rw [Node.patternText, hbranches]
          simp only [String.append_assoc]
  | atomic text => rfl
  | hole id => rfl
  | whitespace => rfl

theorem walk_atHoles_of_forall {hole : String → Output → Output} {ns : List Node}
    (ih : ∀ n ∈ ns, ∀ out,
      (atHoles hole).visit n out = n.holes.foldl (fun out id => hole id out) out)
    (out : Output) :
    (atHoles hole).walk ns out = (holesAll ns).foldl (fun out id => hole id out) out := by
  induction ns generalizing out with
  | nil => rfl
  | cons n ns hns =>
      obtain ⟨hn, hmore⟩ := List.forall_mem_cons.1 ih
      have hwalk := hns hmore (n.holes.foldl (fun out id => hole id out) out)
      rw [walk, visits, inOrder_cons, hn, ← walk, hwalk, holesAll, List.foldl_append]

/-- A visitor that does something at holes only does it at one after the other. -/
theorem visit_atHoles (hole : String → Output → Output) (n : Node) (out : Output) :
    (atHoles hole).visit n out = n.holes.foldl (fun out id => hole id out) out := by
  induction n using Node.induct generalizing out with
  | sequence children ih => exact walk_atHoles_of_forall ih out
  | repetition marker separator body ih => exact walk_atHoles_of_forall ih out
  | curlies body ih => exact walk_atHoles_of_forall ih out
  | alternative branches ih => exact walk_atHoles_of_forall ih out
  | atomic text => rfl
  | hole id => rfl
  | whitespace => rfl

theorem writes_styledText : styledText.Writes styledAll := by
  intro root out
  rw [visit_styledText, styled]

theorem writes_placeholderText : placeholderText.Writes placeholderAll := by
  intro root out
  rw [visit_placeholderText, placeholder]

theorem writes_patternText : patternText.Writes patternTextAll := by
  intro root out
  rw [visit_patternText, Node.patternText]

theorem writes_holeNames : holeNames.Writes holesAll := by
  intro root out
  have hfold (ids : List String) :
      ids.foldl (fun out id => out ++ [id]) out = out ++ ids := by
    induction ids generalizing out with
    | nil => exact (List.append_nil out).symm
    | cons id ids ih => rw [List.foldl_cons, ih, List.append_assoc, List.singleton_append]
  rw [holeNames, visit_atHoles, holes, hfold]

end Visitor
end TacticNotation
