import TacticNotation.Notation
import TacticNotation.Proofs.Tree.Items

/-!
# The groups of a pattern text

The text that is written for a tree is always a pattern, whatever the shape of
the tree and whatever its literals hold, so only the limits on depth and size can
refuse it.  `Node.groups` counts the groups that capture on the tree; parentheses
in literals and in sets of characters are no groups, which is why the count is
compared with the pattern that is read and not with the text.
-/

namespace TacticNotation

/-! ## Counting in patterns -/

namespace Pattern

theorem capturesAll_append (front back : List Pattern) :
    capturesAll (front ++ back) = capturesAll front + capturesAll back := by
  induction front with
  | nil => simp [capturesAll]
  | cons p front ih => simp [capturesAll, ih, Nat.add_assoc]

theorem captures_ofItems (items : List Pattern) : captures (ofItems items) = capturesAll items := by
  match items with
  | [] => rfl
  | [item] => simp [ofItems, capturesAll]
  | first :: second :: more => simp [ofItems, captures]

theorem captures_ofBranches (branches : List Pattern) :
    captures (ofBranches branches) = capturesAll branches := by
  match branches with
  | [] => rfl
  | [branch] => simp [ofBranches, capturesAll]
  | first :: second :: more => simp [ofBranches, captures]

/-- A text that can be read is refused for its depth or its size only. -/
theorem compile_of_read {source : String} {pattern : Pattern} (h : read source = .ok pattern) :
    compile source =
      if pattern.depth > maxDepth then .error .tooDeep
      else if pattern.greatestSize > maxSize then .error .tooLarge
      else .ok pattern := by
  rw [compile, h]

end Pattern

/-! ## Counting in trees -/

namespace Node

open Pattern (captures capturesAll capturesAll_append captures_ofItems captures_ofBranches)

mutual
/-- The number of groups that capture in the pattern of a node.  The body of a
repetition of more than one occurrence is written twice. -/
def groups : Node → Nat
  | .sequence children => groupsAll children
  | .repetition .optional _ body => 1 + groupsAll body
  | .repetition .zeroOrMore _ body => 2 + 2 * groupsAll body
  | .repetition .oneOrMore _ body => 2 + 2 * groupsAll body
  | .curlies body => groupsAll body
  | .alternative branches => 1 + groupsAll branches
  | .atomic _ => 0
  | .hole _ => 1
  | .whitespace => 0
/-- The number of groups that capture in the pattern of some nodes. -/
def groupsAll : List Node → Nat
  | [] => 0
  | n :: ns => groups n + groupsAll ns
end

theorem capturesAll_literalItems (text : String) : capturesAll (literalItems text) = 0 := by
  unfold literalItems
  induction text.toList with
  | nil => rfl
  | cons c rest ih => simp [capturesAll, captures, ih]

theorem captures_bodyItem (body : List Pattern) :
    captures (bodyItem body) = 1 + capturesAll body := by
  rw [bodyItem, captures, captures_ofItems]

/-- Between two occurrences nothing is captured. -/
theorem captures_moreItem (separator : Option String) (body : List Pattern) :
    captures (moreItem separator body) = 1 + capturesAll body := by
  have hjoin : capturesAll (joinItems separator) = 0 := by
    simp [joinItems, blanksItem, capturesAll, captures, capturesAll_append,
      capturesAll_literalItems]
  rw [moreItem, captures, captures_bodyItem, capturesAll_append, hjoin, Nat.zero_add]

theorem capturesAll_itemsAll_of_forall {ns : List Node}
    (ih : ∀ n ∈ ns, capturesAll n.items = n.groups) : capturesAll (itemsAll ns) = groupsAll ns := by
  induction ns with
  | nil => rfl
  | cons n ns hns =>
      have hrest := hns fun m hm => ih m (List.mem_cons_of_mem n hm)
      rw [itemsAll, groupsAll, capturesAll_append, ih n (by simp), hrest]

theorem capturesAll_branchItems_of_forall {ns : List Node}
    (ih : ∀ n ∈ ns, capturesAll n.items = n.groups) :
    capturesAll (branchItems ns) = groupsAll ns := by
  induction ns with
  | nil => rfl
  | cons n ns hns =>
      have hrest := hns fun m hm => ih m (List.mem_cons_of_mem n hm)
      rw [branchItems, groupsAll, capturesAll, captures_ofItems, ih n (by simp), hrest]

theorem capturesAll_items (n : Node) : capturesAll n.items = n.groups := by
  induction n using Node.induct with
  | sequence children ih =>
      rw [items, groups]
      exact capturesAll_itemsAll_of_forall ih
  | repetition marker separator body ih =>
      have hbody := capturesAll_itemsAll_of_forall ih
      cases marker with
      | optional => simp [items, groups, capturesAll, captures, captures_bodyItem, hbody]
      | zeroOrMore =>
          simp [items, groups, capturesAll, captures, captures_bodyItem, captures_moreItem, hbody]
          omega
      | oneOrMore =>
          simp [items, groups, capturesAll, captures_bodyItem, captures_moreItem, hbody]
          omega
  | curlies body ih =>
      have hbody := capturesAll_itemsAll_of_forall ih
      simp [items, groups, capturesAll, captures, capturesAll_append, hbody]
  | alternative branches ih =>
      cases branches with
      | nil => rfl
      | cons branch branches =>
          have hbranches := capturesAll_branchItems_of_forall ih
          rw [branchItems] at hbranches
          rw [items, groups, capturesAll, captures, captures_ofBranches, hbranches]
          rfl
  | atomic text => exact capturesAll_literalItems text
  | hole id => rfl
  | whitespace => rfl

theorem capturesAll_itemsAll (ns : List Node) : capturesAll (itemsAll ns) = groupsAll ns :=
  capturesAll_itemsAll_of_forall fun n _ => capturesAll_items n

/-! ## Pattern texts -/

/-- The text of a tree is read as the items of the tree. -/
theorem read_patternTextAll (root : List Node) :
    Pattern.read (patternTextAll root) = .ok (Pattern.ofItems (itemsAll root)) := by
  have hroot := reads_patternTextAll fun n (_ : n ∈ root) => reads_patternText n
  have hrun : (patternTextAll root).toList.foldlM Pattern.Progress.step .initial =
      .ok ⟨.plain, Pattern.Level.pushAll (.fresh false) (itemsAll root), []⟩ := hroot.run _ []
  have hcontents : (Pattern.Level.pushAll (.fresh false) (itemsAll root)).contents =
      Pattern.ofItems (itemsAll root) := by
    simp [Pattern.Level.contents, Pattern.Level.branch, Pattern.Level.pushAll,
      Pattern.Level.fresh, Pattern.ofBranches]
  rw [Pattern.read, hrun, ← hcontents]
  rfl

end Node

theorem Notation.patternText_false (form : Notation) :
    form.patternText false = Node.patternTextAll form.root := rfl

theorem Notation.patternText_true (form : Notation) :
    form.patternText true = Node.anchored (Node.patternTextAll form.root) := rfl

/-- The pattern text of a notation is always a pattern, and it has as many groups
that capture as are counted on the tree, anchored or not.  The tree need not be one
that is read from a text: it may have any shape and its literals may hold any
characters.

These two parts are the content.  The last one only says what compiling then comes
to: a pattern can still be refused for its depth or its size, and for nothing else. -/
theorem Notation.patternText_is_pattern (form : Notation) (anchored : Bool) :
    ∃ pattern, Pattern.read (form.patternText anchored) = .ok pattern ∧
      pattern.captures = Node.groupsAll form.root ∧
      Pattern.compile (form.patternText anchored) =
        if pattern.depth > Pattern.maxDepth then .error .tooDeep
        else if pattern.greatestSize > Pattern.maxSize then .error .tooLarge
        else .ok pattern := by
  have hcaptures := Node.capturesAll_itemsAll form.root
  cases anchored with
  | false =>
      have hread := Node.read_patternTextAll form.root
      rw [← Notation.patternText_false] at hread
      refine ⟨_, hread, ?_, Pattern.compile_of_read hread⟩
      rw [Pattern.captures_ofItems, hcaptures]
  | true =>
      have hread := Node.read_anchored form.root
      rw [← Notation.patternText_true] at hread
      refine ⟨_, hread, ?_, Pattern.compile_of_read hread⟩
      -- Neither the anchors nor the group between them capture anything.
      simp [Pattern.captures, Pattern.capturesAll, Pattern.captures_ofItems, hcaptures]

end TacticNotation
