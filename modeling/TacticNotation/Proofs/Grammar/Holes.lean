import TacticNotation.Proofs.Grammar.Reader
import TacticNotation.Proofs.Token.Replacing
import TacticNotation.Proofs.Tree.Visitor

/-!
# The holes of a notation

A visitor that does something at holes only meets the holes of a notation in the order
of its text and each of them once: what is below a repetition, between braces or in a
branch is visited where it stands, and the separators and signs around it are no holes.
-/

namespace TacticNotation
namespace Grammar

open Node (holesAll holesAll_append)

theorem holesAll_gapNodes (present : Bool) : holesAll (gapNodes present) = [] := by
  cases present <;> rfl

theorem holeNames_gapTokens (present : Bool) :
    (gapTokens present).filterMap Token.holeName? = [] := by
  cases present <;> rfl

theorem holeNames_pipeTokens (count : Nat) :
    (pipeTokens count).filterMap Token.holeName? = [] := by
  rw [pipeTokens, List.filterMap_replicate_of_none rfl]

/-- No hole is taken for a separator. -/
theorem Separates.holeNames {sep rest : List Token} {separator : Option String}
    (h : Separates sep separator rest) : sep.filterMap Token.holeName? = [] := by
  cases h with
  | none => rfl
  | atom text => rfl
  | pipes count => exact holeNames_pipeTokens (count + 1)

/-- What is derived has the holes of the tokens that it is derived from. -/
theorem Derives.holes {part : Part} {taken rest : List Token} {nodes : List Node}
    (h : Derives part taken nodes rest) : holesAll nodes = taken.filterMap Token.holeName? := by
  induction h with
  | atom text => rfl
  | hole id => rfl
  | repetition marker front back hsep hbody ih =>
      simp [holesAll, Node.holes, List.filterMap_cons, Token.holeName?, hsep.holeNames,
        holeNames_gapTokens, ih]
  | curlies front back hbody ih =>
      simp [holesAll, Node.holes, List.filterMap_cons, Token.holeName?, holesAll_append,
        holesAll_gapNodes, holeNames_gapTokens, ih]
  | noBranch => rfl
  | branch hbranch hmore ihBranch ihMore =>
      rw [List.filterMap_cons_none rfl, List.filterMap_append, ← ihBranch, ← ihMore,
        ← holesAll_append, List.singleton_append]
  | single hnode hglued ih => exact ih
  | alternative hfirst hmore ihFirst ihMore =>
      rw [List.filterMap_append, ← ihFirst, ← ihMore, ← holesAll_append, List.singleton_append]
      exact List.append_nil _
  | pipes count hhead => exact (holeNames_pipeTokens (count + 1)).symm
  | noMore => rfl
  | more gap hunit hmore ihUnit ihMore =>
      rw [List.filterMap_append, List.filterMap_append, holeNames_gapTokens, ← ihUnit, ← ihMore,
        holesAll_append, holesAll_gapNodes, ← holesAll_append, List.singleton_append]
  | blocks hunit hmore ihUnit ihMore =>
      rw [List.filterMap_append, ← ihUnit, ← ihMore, ← holesAll_append, List.singleton_append]

theorem Whole.holes {tokens : List Token} {nodes : List Node} (h : Whole tokens nodes) :
    holesAll nodes = tokens.filterMap Token.holeName? := by
  obtain ⟨front, body, back, rfl, hbody⟩ := h
  rw [List.filterMap_append, List.filterMap_append, holeNames_gapTokens, holeNames_gapTokens,
    List.nil_append, List.append_nil]
  exact hbody.holes

/-- The names that a visitor of holes collects from a notation are the names of the
holes among the tokens of the text, in their order and as often as they stand there.
They are the holes of the tree, and whatever else a visitor does at holes only, it does
at these, one after the other. -/
theorem holes_visited_in_order {source : String} {root : List Node}
    (h : parseTree source = .ok root) :
    ∃ lexemes, lex source = .ok lexemes ∧
      let names := lexemes.filterMap fun lexeme => lexeme.token.holeName?
      Visitor.holeNames.visit (.sequence root) [] = names ∧ holesAll root = names ∧
      ∀ {Output : Type} (hole : String → Output → Output) (out : Output),
        (Visitor.atHoles hole).visit (.sequence root) out =
          names.foldl (fun out id => hole id out) out := by
  obtain ⟨lexemes, hlex, hwhole⟩ := parseTree_eq_ok_iff.1 h
  have hholes : holesAll root = lexemes.filterMap fun lexeme => lexeme.token.holeName? := by
    rw [hwhole.holes, List.filterMap_map]
    rfl
  refine ⟨lexemes, hlex, ?_, hholes, ?_⟩
  · rw [Visitor.writes_holeNames, List.nil_append, hholes]
  · intro Output hole out
    rw [Visitor.visit_atHoles, Node.holes, hholes]

/-- A name that stands in a group, in its separator's place and in two branches is
collected where it is a hole. -/
theorem holes_visited_in_order_groups :
    ∃ root lexemes, parseTree "\x7b+, @x \x7b @y \x7d a \x7d @x|\x7b?y @z \x7d|@x" = .ok root ∧
      lex "\x7b+, @x \x7b @y \x7d a \x7d @x|\x7b?y @z \x7d|@x" = .ok lexemes ∧
      (lexemes.filterMap fun lexeme => lexeme.token.holeName?) = ["x", "y", "x", "z", "x"] ∧
      Visitor.holeNames.visit (.sequence root) [] = ["x", "y", "x", "z", "x"] := by
  have hparse : parseTree "\x7b+, @x \x7b @y \x7d a \x7d @x|\x7b?y @z \x7d|@x" =
      .ok [.repetition .oneOrMore (some ",")
          [.hole "x", .whitespace, .curlies [.whitespace, .hole "y", .whitespace], .whitespace,
            .atomic "a"],
        .whitespace,
        .alternative [.hole "x", .repetition .optional (some "y") [.hole "z"], .hole "x"]] := by
    decide +kernel
  obtain ⟨lexemes, hlex, hvisit, hholes, -⟩ := holes_visited_in_order hparse
  have hnames : (lexemes.filterMap fun lexeme => lexeme.token.holeName?) =
      ["x", "y", "x", "z", "x"] := hholes.symm.trans (by decide)
  exact ⟨_, lexemes, hparse, hlex, hnames, hvisit.trans hnames⟩

end Grammar
end TacticNotation
