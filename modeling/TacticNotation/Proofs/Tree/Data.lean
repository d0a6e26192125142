import TacticNotation.Notation
import TacticNotation.Proofs.Json.Reading

/-!
# Trees from data

A tree can be told from its JSON text.  `Node.ofJson?` takes the member `kind` of an
object for what the other members are to be read as, and gives back every node from the
value that it is written as (`Node.ofJson?_json`), whatever the shape of the tree.
Together with the grammar of JSON this says that no two trees have one text.
-/

namespace TacticNotation

/-- The marker of a word. -/
def Marker.ofName? : String → Option Marker
  | "optional" => some .optional
  | "zero_or_more" => some .zeroOrMore
  | "one_or_more" => some .oneOrMore
  | _ => none

theorem Marker.ofName?_name (marker : Marker) : Marker.ofName? marker.name = some marker := by
  cases marker <;> rfl

namespace Node

/-! ## Reading a tree -/

/-- The string under a key. -/
def textAt? (key : String) (members : List (String × Json)) : Option String :=
  match members.lookup key with
  | some (.string text) => some text
  | _ => none

/-- The separator that a value stands for, which may be absent. -/
def separatorOf? : Json → Option (Option String)
  | .null => some none
  | .string text => some (some text)
  | _ => none

theorem separatorOf?_separatorJson (separator : Option String) :
    separatorOf? (separatorJson separator) = some separator := by
  cases separator <;> rfl

mutual
/-- The node that a value stands for. -/
def ofJson? : Json → Option Node
  | .object members => do
      match ← textAt? "kind" members with
      | "sequence" => some (.sequence (← nodesAt? "children" members))
      | "repeat" => do
          let marker ← Marker.ofName? (← textAt? "marker" members)
          let separator ← separatorOf? (← members.lookup "separator")
          some (.repetition marker separator (← bodyOf? members))
      | "curlies" => some (.curlies (← bodyOf? members))
      | "alternative" => some (.alternative (← nodesAt? "branches" members))
      | "atomic" => some (.atomic (← textAt? "text" members))
      | "hole" => some (.hole (← textAt? "id" members))
      | "whitespace" => some .whitespace
      | _ => none
  | _ => none
/-- The nodes that an array stands for. -/
def nodesOf? : Json → Option (List Node)
  | .array items => ofJsonAll? items
  | _ => none
/-- The nodes that the items of an array stand for. -/
def ofJsonAll? : List Json → Option (List Node)
  | [] => some []
  | item :: items => do some ((← ofJson? item) :: (← ofJsonAll? items))
/-- The nodes under a key. -/
def nodesAt? (key : String) : List (String × Json) → Option (List Node)
  | [] => none
  | (name, value) :: members => if key = name then nodesOf? value else nodesAt? key members
/-- The nodes of an object with the member `children`. -/
def childrenOf? : Json → Option (List Node)
  | .object members => nodesAt? "children" members
  | _ => none
/-- The nodes of the body of a group. -/
def bodyOf? : List (String × Json) → Option (List Node)
  | [] => none
  | (name, value) :: members => if name = "body" then childrenOf? value else bodyOf? members
end

/-! ## The tree that was written -/

section
variable {ns : List Node} (ih : ∀ n ∈ ns, ofJson? n.json = some n)
include ih

theorem nodesOf?_jsonAll_of_forall : nodesOf? (.array (jsonAll ns)) = some ns := by
  rw [nodesOf?]
  induction ns with
  | nil => rfl
  | cons n ns hns =>
      obtain ⟨hn, hmore⟩ := List.forall_mem_cons.1 ih
      simp [jsonAll, ofJsonAll?, hn, hns hmore]

theorem childrenOf?_bodyJson_of_forall : childrenOf? (bodyJson (jsonAll ns)) = some ns := by
  simp [bodyJson, childrenOf?, nodesAt?, nodesOf?_jsonAll_of_forall ih]

end

/-- Every node is read from the value that it is written as. -/
theorem ofJson?_json (n : Node) : ofJson? n.json = some n := by
  induction n using Node.induct with
  | sequence children ih =>
      have hchildren := nodesOf?_jsonAll_of_forall ih
      simp [json, ofJson?, textAt?, List.lookup_cons, nodesAt?, hchildren]
  | repetition marker separator body ih =>
      have hmarker := marker.ofName?_name
      have hseparator := separatorOf?_separatorJson separator
      have hbody := childrenOf?_bodyJson_of_forall ih
      simp [json, ofJson?, textAt?, List.lookup_cons, bodyOf?, hmarker, hseparator, hbody]
  | curlies body ih =>
      have hbody := childrenOf?_bodyJson_of_forall ih
      simp [json, ofJson?, textAt?, List.lookup_cons, bodyOf?, hbody]
  | alternative branches ih =>
      have hbranches := nodesOf?_jsonAll_of_forall ih
      simp [json, ofJson?, textAt?, List.lookup_cons, nodesAt?, hbranches]
  | atomic text => simp [json, ofJson?, textAt?, List.lookup_cons]
  | hole id => simp [json, ofJson?, textAt?, List.lookup_cons]
  | whitespace => simp [json, ofJson?, textAt?, List.lookup_cons]

/-- Every tree is read from the value that it is written as. -/
theorem childrenOf?_rootJson (root : List Node) : childrenOf? (rootJson root) = some root :=
  childrenOf?_bodyJson_of_forall fun n _ => ofJson?_json n

/-- Any text for the value will do, also with blanks, other escapes and members in
another order. -/
example :
    (Json.read? "\x7b\"children\": [\x7b\"id\": \"\\u0061\", \"kind\": \"hole\"\x7d]\x7d").bind
      childrenOf? = some [.hole "a"] := by
  decide +kernel

theorem rootJson_injective {root other : List Node} (h : rootJson root = rootJson other) :
    root = other := by
  have hread := childrenOf?_rootJson root
  rw [h, childrenOf?_rootJson other] at hread
  exact (Option.some.inj hread).symm

end Node

namespace Notation

/-! ## The text of a tree -/

theorem isText_treeJson (form : Notation) :
    Json.IsText form.treeJson.toList (Node.rootJson form.root) :=
  Json.isText_compact (Node.rootJson form.root)

/-- The JSON text of a tree is JSON for one value, the tree is read back from it, and no
other tree has the same text. -/
theorem treeJson_lossless (form : Notation) :
    (∀ v, Json.IsText form.treeJson.toList v ↔ v = Node.rootJson form.root) ∧
      (Json.read? form.treeJson).bind Node.childrenOf? = some form.root ∧
      ∀ other : Notation, other.treeJson = form.treeJson ↔ other.root = form.root := by
  have htext := isText_treeJson form
  refine ⟨?_, ?_, ?_⟩
  · intro v
    constructor
    · intro hv
      exact hv.unique htext
    · rintro rfl
      exact htext
  · rw [Json.read?_of_isText htext]
    exact Node.childrenOf?_rootJson form.root
  · intro other
    constructor
    · intro h
      have hother := isText_treeJson other
      rw [h] at hother
      exact Node.rootJson_injective (hother.unique htext)
    · intro h
      rw [treeJson, treeJson, h]

end Notation
end TacticNotation
