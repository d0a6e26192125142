import TacticNotation.Proofs.Pattern.Reading
import TacticNotation.Tree.Pattern

/-!
# The pattern that a tree means

`Node.items` builds the pattern of a node as a syntax tree, with no text in
between.  The text that `Node.patternText` writes is read back as these items,
for every tree and whatever characters its literals hold: quoting leaves no
character with a meaning of its own, groups keep branches and signs of
repetition where they belong, and a body that is written twice is read twice.
-/

namespace TacticNotation
namespace Node

/-! ## Items -/

/-- The items of a literal text: its characters. -/
def literalItems (text : String) : List Pattern :=
  text.toList.map fun c => .char (.literal c)

/-- What can fill a hole. -/
def holeItem : Pattern :=
  .group true (.plus (.char (.listed true ['(', ')', ';', '.', ' ', '\n'])))

/-- Blanks, of any number. -/
def blanksItem : Pattern := .star (.char .blank)

/-- A separator with blanks around it. -/
def joinItems (separator : Option String) : List Pattern :=
  blanksItem :: (literalItems (separator.getD " ") ++ [blanksItem])

/-- A body in a group. -/
def bodyItem (body : List Pattern) : Pattern := .group true (Pattern.ofItems body)

/-- Further occurrences of a body, each after a separator. -/
def moreItem (separator : Option String) (body : List Pattern) : Pattern :=
  .star (bodyItem (joinItems separator ++ body))

mutual
/-- The items of the pattern of a node. -/
def items : Node → List Pattern
  | .sequence children => itemsAll children
  | .repetition .optional _ body => [.opt (bodyItem (itemsAll body))]
  | .repetition .zeroOrMore separator body =>
      [.opt (bodyItem (itemsAll body)), moreItem separator (itemsAll body)]
  | .repetition .oneOrMore separator body =>
      [bodyItem (itemsAll body), moreItem separator (itemsAll body)]
  | .curlies body => .char (.literal '{') :: (itemsAll body ++ [.char (.literal '}')])
  | .alternative [] => [bodyItem []]
  | .alternative (branch :: branches) =>
      [.group true (Pattern.ofBranches
        (Pattern.ofItems (items branch) :: branchItems branches))]
  | .atomic text => literalItems text
  | .hole _ => [holeItem]
  | .whitespace => [.plus (.char .blank)]
/-- The items of the pattern of a list of nodes. -/
def itemsAll : List Node → List Pattern
  | [] => []
  | n :: ns => items n ++ itemsAll ns
/-- The branches of the pattern of an alternative. -/
def branchItems : List Node → List Pattern
  | [] => []
  | n :: ns => Pattern.ofItems (items n) :: branchItems ns
end

/-! ## Reading -/

open Pattern (Reads ReadsBranches)

theorem reads_holePattern : Reads holePattern.toList [holeItem] where
  run _ _ := rfl
  head := by decide

theorem reads_gapPattern : Reads gapPattern.toList [.plus (.char .blank)] where
  run _ _ := rfl
  head := by decide

theorem reads_blanks : Reads ['\\', 's', '*'] [blanksItem] where
  run _ _ := rfl
  head := by decide

theorem reads_joinPattern (separator : Option String) :
    Reads (joinPattern separator).toList (joinItems separator) := by
  rw [joinPattern, String.toList_append, String.toList_append, List.append_assoc]
  exact reads_blanks.append ((Reads.quote _).append reads_blanks)

/-- A body in a group, with the sign that says it may be left out. -/
theorem reads_optionalBody {body : String} {bodyItems : List Pattern}
    (h : Reads body.toList bodyItems) :
    Reads ("(" ++ body ++ ")?").toList [.opt (bodyItem bodyItems)] := by
  have htext : ("(" ++ body ++ ")?").toList = '(' :: (body.toList ++ [')']) ++ ['?'] := by
    simp
  rw [htext]
  exact h.group.signed rfl fun _ => rfl

/-- The group of the further occurrences of a body. -/
theorem reads_moreBody {body : String} {bodyItems : List Pattern} (separator : Option String)
    (h : Reads body.toList bodyItems) :
    Reads ("(" ++ joinPattern separator ++ body ++ ")*").toList
      [moreItem separator bodyItems] := by
  have htext : ("(" ++ joinPattern separator ++ body ++ ")*").toList =
      '(' :: ((joinPattern separator).toList ++ body.toList ++ [')']) ++ ['*'] := by
    simp
  rw [htext]
  exact ((reads_joinPattern separator).append h).group.signed rfl fun _ => rfl

theorem reads_patternTextAll {ns : List Node}
    (ih : ∀ n ∈ ns, Reads n.patternText.toList n.items) :
    Reads (patternTextAll ns).toList (itemsAll ns) := by
  induction ns with
  | nil => exact Reads.nil
  | cons n ns hns =>
      rw [patternTextAll, String.toList_append, itemsAll]
      exact (ih n (by simp)).append (hns fun m hm => ih m (by simp [hm]))

/-- The first branch and those after it, each of these after a bar. -/
theorem readsBranches_patternTextBranches {text : List Char} {first : List Pattern}
    {ns : List Node} (hfirst : Reads text first)
    (ih : ∀ n ∈ ns, Reads n.patternText.toList n.items) :
    ReadsBranches (text ++ (patternTextBranches ns).toList)
      (Pattern.ofItems first :: branchItems ns) := by
  induction ns generalizing text first with
  | nil => simpa [patternTextBranches, branchItems] using ReadsBranches.single hfirst
  | cons n ns hns =>
      have hbranch := ih n (by simp)
      have hrest := hns hbranch fun m hm => ih m (by simp [hm])
      simpa [patternTextBranches, branchItems] using ReadsBranches.cons hfirst hrest

/-- The pattern text of a node is read as the items of the node. -/
theorem reads_patternText (n : Node) : Reads n.patternText.toList n.items := by
  induction n using Node.induct with
  | sequence children ih =>
      rw [patternText, items]
      exact reads_patternTextAll ih
  | repetition marker separator body ih =>
      have hbody := reads_patternTextAll ih
      cases marker with
      | optional =>
          rw [patternText, items]
          exact reads_optionalBody hbody
      | zeroOrMore =>
          -- The body is written twice, and both times it is read alike.
          have htext : (repetition .zeroOrMore separator body).patternText =
              ("(" ++ patternTextAll body ++ ")?") ++
                ("(" ++ joinPattern separator ++ patternTextAll body ++ ")*") := by
            rw [patternText, ← String.toList_inj]
            simp
          rw [htext, String.toList_append, items]
          exact (reads_optionalBody hbody).append (reads_moreBody separator hbody)
      | oneOrMore =>
          have htext : (repetition .oneOrMore separator body).patternText =
              ("(" ++ patternTextAll body ++ ")") ++
                ("(" ++ joinPattern separator ++ patternTextAll body ++ ")*") := by
            rw [patternText, ← String.toList_inj]
            simp
          rw [htext, String.toList_append, items]
          have hgroup : ("(" ++ patternTextAll body ++ ")").toList =
              '(' :: ((patternTextAll body).toList ++ [')']) := by simp
          rw [hgroup]
          exact hbody.group.append (reads_moreBody separator hbody)
  | curlies body ih =>
      rw [patternText, String.toList_append, String.toList_append, items]
      have hopen : Reads ['\\', '{'] [.char (.literal '{')] := Reads.quoteChar '{'
      have hclose : Reads ['\\', '}'] [.char (.literal '}')] := Reads.quoteChar '}'
      exact (hopen.append (reads_patternTextAll ih)).append hclose
  | alternative branches ih =>
      cases branches with
      | nil => exact Reads.nil.group
      | cons branch branches =>
          have hbranches := readsBranches_patternTextBranches (ih branch (by simp))
            fun m hm => ih m (List.mem_cons_of_mem branch hm)
          have htext : (alternative (branch :: branches)).patternText.toList =
              '(' :: (branch.patternText.toList ++ (patternTextBranches branches).toList ++
                [')']) := by
            simp [patternText]
          rw [htext, items]
          exact hbranches.group
  | atomic text =>
      rw [patternText, items]
      exact Reads.quote text
  | hole id => exact reads_holePattern
  | whitespace => exact reads_gapPattern

/-- The anchored text of a tree is read as the items of the tree between the
start and the end of the text. -/
theorem read_anchored (root : List Node) :
    Pattern.read (anchored (patternTextAll root)) =
      .ok (.join [.atStart, .group false (Pattern.ofItems (itemsAll root)), .atEnd]) := by
  have hroot := reads_patternTextAll fun n (_ : n ∈ root) => reads_patternText n
  have htext : (anchored (patternTextAll root)).toList =
      '^' :: '(' :: '?' :: ':' :: (((patternTextAll root).toList ++ [')']) ++ ['$']) := by
    simp [anchored]
  -- The flag opens a group that captures nothing, so no character is left over.
  have hopen (rest : List Char) :
      ('^' :: '(' :: '?' :: ':' :: rest).foldlM Pattern.Progress.step .initial =
        rest.foldlM Pattern.Progress.step
          ⟨.plain, .fresh false, [Pattern.Level.push (.fresh false) .atStart]⟩ := rfl
  have hrun : (anchored (patternTextAll root)).toList.foldlM Pattern.Progress.step .initial =
      .ok ⟨.plain, Pattern.Level.pushAll (.fresh false)
        [.atStart, .group false (Pattern.ofItems (itemsAll root)), .atEnd], []⟩ := by
    rw [htext, hopen, List.foldlM_append, (ReadsBranches.single hroot).closed]
    rfl
  rw [Pattern.read, hrun]
  rfl

end Node
end TacticNotation
