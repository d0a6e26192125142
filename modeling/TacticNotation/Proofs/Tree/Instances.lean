import TacticNotation.Notation
import TacticNotation.Proofs.Pattern.Reach
import TacticNotation.Proofs.Tree.Language
import TacticNotation.Proofs.Tree.Shape

/-!
# Notations accept their instances

The anchored pattern of a tree matches exactly the instances of the tree.  This
needs every alternative to have a branch, and the reader of notations makes no
others.
-/

namespace TacticNotation

/-! ## Trees that are read -/

namespace Node

theorem isBranchedAll_append {front back : List Node} (hfront : isBranchedAll front = true)
    (hback : isBranchedAll back = true) : isBranchedAll (front ++ back) = true := by
  rw [isBranchedAll_iff] at hfront hback ⊢
  intro n hn
  rcases List.mem_append.1 hn with hn | hn
  · exact hfront n hn
  · exact hback n hn

theorem isBranchedAll_gapNodes (present : Bool) :
    isBranchedAll (Grammar.gapNodes present) = true := by
  cases present <;> rfl

end Node

namespace Grammar

open Node (isBranchedAll isBranchedAll_append isBranchedAll_gapNodes)

/-- What is derived has branches in all its alternatives: a glued pipe has one on
each side. -/
theorem Derives.isBranchedAll {part : Part} {taken rest : List Token} {nodes : List Node}
    (h : Derives part taken nodes rest) : isBranchedAll nodes = true := by
  induction h with
  | atom => rfl
  | hole => rfl
  | repetition _ _ _ _ _ ih => simpa [Node.isBranchedAll, Node.isBranched] using ih
  | curlies front back _ ih =>
      have hbody := isBranchedAll_append (isBranchedAll_gapNodes front)
        (isBranchedAll_append ih (isBranchedAll_gapNodes back))
      simpa [Node.isBranchedAll, Node.isBranched] using hbody
  | noBranch => rfl
  | branch _ _ ihBranch ihMore => exact isBranchedAll_append ihBranch ihMore
  | single _ _ ih => exact ih
  | alternative _ _ ihFirst ihMore =>
      have hbranches := isBranchedAll_append ihFirst ihMore
      simpa [Node.isBranchedAll, Node.isBranched] using hbranches
  | pipes => rfl
  | noMore => rfl
  | more gap _ _ ihUnit ihMore =>
      exact isBranchedAll_append (isBranchedAll_gapNodes gap) (isBranchedAll_append ihUnit ihMore)
  | blocks _ _ ihUnit ihMore => exact isBranchedAll_append ihUnit ihMore

end Grammar

theorem isBranchedAll_of_parse {table : ShorthandTable} {source : String} {form : Notation}
    (h : Notation.parse table source = .ok form) : Node.isBranchedAll form.root = true := by
  obtain ⟨body, back, hbody, -⟩ := Grammar.derives_of_parse h
  exact hbody.isBranchedAll

/-! ## Anchored patterns -/

namespace Pattern

/-- Between the two ends of a text there is nothing but the whole text. -/
theorem isMatch_between_iff {items : List Pattern} {words : Language Char} (h : Means items words)
    (text : String) :
    (join [.atStart, .group false (ofItems items), .atEnd]).isMatch text = true ↔
      text.toList ∈ words := by
  -- The anchors hold at the two ends only, so no other stretch is spanned.
  have hspans (i j : Nat) :
      Spans text.toList (join [.atStart, .group false (ofItems items), .atEnd]) i j ↔
        i = 0 ∧ Found text.toList words i j ∧ j = text.toList.length := by
    simp only [Spans, SpansJoin, spans_ofItems, h text.toList]
    constructor
    · rintro ⟨_, ⟨rfl, rfl⟩, k, hfound, _, ⟨rfl, rfl⟩, rfl⟩
      exact ⟨rfl, hfound, rfl⟩
    · rintro ⟨rfl, hfound, rfl⟩
      exact ⟨0, ⟨rfl, rfl⟩, _, hfound, _, ⟨rfl, rfl⟩, rfl⟩
  rw [isMatch_iff, ← found_whole]
  simp only [hspans]
  constructor
  · rintro ⟨_, _, -, rfl, hfound, rfl⟩
    exact hfound
  · intro hfound
    exact ⟨0, _, Nat.le_refl _, rfl, hfound, rfl⟩

end Pattern

namespace Node

theorem isMatch_anchored_iff {root : List Node} (hroot : isBranchedAll root = true)
    {pattern : Pattern} (h : Pattern.read (anchored (patternTextAll root)) = .ok pattern)
    (text : String) : pattern.isMatch text = true ↔ text.toList ∈ languageAll root := by
  rw [read_anchored] at h
  cases h
  rw [isBranchedAll_iff] at hroot
  exact Pattern.isMatch_between_iff
    (means_itemsAll fun n hn => means_items n (hroot n hn)) text

end Node

namespace Notation

theorem read_of_compile {form : Notation} {anchored : Bool} {pattern : Pattern}
    (h : form.compile anchored = .ok pattern) :
    Pattern.read (form.patternText anchored) = .ok pattern := by
  unfold compile at h
  split at h
  · next compiled hcompiled =>
    cases h
    exact (Pattern.compile_eq_ok_iff.1 hcompiled).1
  · cases h

/-- A text is an instance of a notation precisely if the anchored pattern of the
notation matches it.  The pattern of a tree can always be read, and it matches
the words of the language of the tree, whatever characters its literals and
separators hold.  All that is needed is that alternatives have branches, as they
do in every notation that parses, with any table of shorthands. -/
theorem accepts_exactly_instances :
    (∀ (root : List Node) (text : String), Node.isBranchedAll root = true →
      ∃ pattern, Pattern.read (Node.anchored (Node.patternTextAll root)) = .ok pattern ∧
        (pattern.isMatch text = true ↔ text.toList ∈ Node.languageAll root)) ∧
    (∀ (table : ShorthandTable) (source : String) (form : Notation),
      Notation.parse table source = .ok form → Node.isBranchedAll form.root = true) ∧
    (∀ (form : Notation) (pattern : Pattern) (text : String),
      Node.isBranchedAll form.root = true → form.compile true = .ok pattern →
      ∃ answer, form.accepts text = .ok answer ∧ answer = pattern.isMatch text ∧
        (answer = true ↔ text.toList ∈ Node.languageAll form.root)) := by
  refine ⟨?_, fun _ _ _ => isBranchedAll_of_parse, ?_⟩
  · intro root text hroot
    exact ⟨_, Node.read_anchored root,
      Node.isMatch_anchored_iff hroot (Node.read_anchored root) text⟩
  · intro form pattern text hroot hcompile
    have hread := read_of_compile hcompile
    have htext : form.patternText true = Node.anchored (Node.patternTextAll form.root) := rfl
    rw [htext] at hread
    refine ⟨pattern.isMatch text, ?_, rfl, Node.isMatch_anchored_iff hroot hread text⟩
    rw [accepts, hcompile]
    rfl

/-- In a list of terms with commas between them blanks may surround a comma, and
a term has to follow it. -/
theorem accepts_exactly_instances_commas :
    let form : Notation := ⟨"\x7b+, @x \x7d", "\x7b+, @x \x7d",
      [.repetition .oneOrMore (some ",") [.hole "x"]]⟩
    Notation.parse [] form.source = .ok form ∧
      form.accepts "a ,b" = .ok true ∧ "a ,b".toList ∈ Node.languageAll form.root ∧
      form.accepts "a ," = .ok false ∧ "a ,".toList ∉ Node.languageAll form.root := by
  intro form
  have hparse : Notation.parse [] form.source = .ok form := by decide +kernel
  have hbranched := accepts_exactly_instances.2.1 [] _ form hparse
  have haccepts : form.accepts "a ,b" = .ok true := by decide +kernel
  have hrejects : form.accepts "a ," = .ok false := by decide +kernel
  obtain ⟨pattern, hcompile, -⟩ := Grammar.bind_eq_ok_iff.1 haccepts
  refine ⟨hparse, haccepts, ?_, hrejects, ?_⟩
  · obtain ⟨answer, hanswer, -, hiff⟩ :=
      accepts_exactly_instances.2.2 form pattern "a ,b" hbranched hcompile
    rw [haccepts] at hanswer
    cases hanswer
    exact hiff.1 rfl
  · obtain ⟨answer, hanswer, -, hiff⟩ :=
      accepts_exactly_instances.2.2 form pattern "a ," hbranched hcompile
    rw [hrejects] at hanswer
    cases hanswer
    exact fun hmem => Bool.false_ne_true (hiff.2 hmem)

end Notation
end TacticNotation
