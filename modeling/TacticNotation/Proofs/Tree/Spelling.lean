import TacticNotation.Proofs.Grammar.Derivation
import TacticNotation.Proofs.Token.Lexing

/-!
# Writing a tree down

`Node.tokens edge` are the tokens of a node in the order of the text.  What
stands at both edges of the body of a repetition is `edge`: nothing if only the
tokens count that the tree keeps, and a gap if the tree is printed.

`Node.print` writes a node as text, and `printAll_eq` says that this is the text
of its tokens with gaps at those edges.
-/

namespace TacticNotation
namespace Node

open Grammar (pipeTokens pipeText)

/-! ## Tokens -/

/-- Whether a text is made of pipes. -/
def isPipes (text : String) : Bool :=
  !text.toList.isEmpty && text.toList.all (· == '|')

/-- The tokens of a literal text: pipes if it is made of pipes, and an atom
otherwise. -/
def literalTokens (text : String) : List Token :=
  if isPipes text then pipeTokens text.toList.length else [.atom text]

/-- The tokens of a separator, if there is one. -/
def separatorTokens : Option String → List Token
  | none => []
  | some text => literalTokens text

section
variable (edge : List Token)

mutual
/-- The tokens of a node. -/
def tokens : Node → List Token
  | .sequence children => tokensAll children
  | .repetition marker separator body =>
      .repeatOpen marker ::
        (separatorTokens separator ++ (edge ++ (tokensAll body ++ (edge ++ [.braceClose]))))
  | .curlies body => .braceOpen :: (tokensAll body ++ [.braceClose])
  | .alternative [] => []
  | .alternative (branch :: branches) => tokens branch ++ tokensBranches branches
  | .atomic text => literalTokens text
  | .hole id => [.hole id]
  | .whitespace => [.gap]
/-- The tokens of a list of nodes. -/
def tokensAll : List Node → List Token
  | [] => []
  | n :: ns => tokens n ++ tokensAll ns
/-- The tokens of the branches after the first, each after a pipe. -/
def tokensBranches : List Node → List Token
  | [] => []
  | n :: ns => .pipe :: (tokens n ++ tokensBranches ns)
end

theorem tokensAll_append (front back : List Node) :
    tokensAll edge (front ++ back) = tokensAll edge front ++ tokensAll edge back := by
  induction front with
  | nil => rfl
  | cons n front ih => rw [List.cons_append, tokensAll, tokensAll, ih, List.append_assoc]

theorem tokensAll_singleton (n : Node) : tokensAll edge [n] = tokens edge n := by
  rw [tokensAll, tokensAll, List.append_nil]

theorem tokensAll_gapNodes (present : Bool) :
    tokensAll edge (Grammar.gapNodes present) = Grammar.gapTokens present := by
  cases present with
  | true => rfl
  | false => rfl

end

theorem toList_pipeText (count : Nat) : (pipeText count).toList = List.replicate count '|' :=
  String.toList_ofList

theorem isPipes_pipeText (count : Nat) : isPipes (pipeText (count + 1)) = true := by
  rw [isPipes, toList_pipeText, List.all_replicate]
  rfl

theorem literalTokens_pipeText (count : Nat) :
    literalTokens (pipeText (count + 1)) = pipeTokens (count + 1) := by
  rw [literalTokens, if_pos (isPipes_pipeText count), toList_pipeText, List.length_replicate]

/-- An atom that can be written down is not made of pipes. -/
theorem isPipes_of_valid {text : String} (h : (Token.atom text).Valid) : isPipes text = false := by
  obtain ⟨hne, hall⟩ := h
  refine Bool.eq_false_iff.2 ?_
  intro hpipes
  rw [isPipes, Bool.and_eq_true, List.all_eq_true] at hpipes
  cases hchars : text.toList with
  | nil => exact hne hchars
  | cons c more =>
      -- Its first character would be a pipe, and a pipe stands in no atom.
      have hmem : c ∈ text.toList := by rw [hchars]; simp
      have hatom := hall c hmem
      rw [beq_iff_eq.1 (hpipes.2 c hmem)] at hatom
      exact absurd hatom (by decide)

theorem literalTokens_of_valid {text : String} (h : (Token.atom text).Valid) :
    literalTokens text = [.atom text] := by
  rw [literalTokens, isPipes_of_valid h, if_neg Bool.false_ne_true]

/-- A separator is written with the tokens that it was read from. -/
theorem separatorTokens_of_separates {sep following : List Token} {separator : Option String}
    (h : Grammar.Separates sep separator following) (hvalid : ∀ token ∈ sep, token.Valid) :
    separatorTokens separator = sep := by
  cases h with
  | none => rfl
  | atom text => exact literalTokens_of_valid (hvalid _ (by simp))
  | pipes count => exact literalTokens_pipeText count

/-! ## Pieces of a notation -/

section
open Grammar (Part gapNodes gapTokens)

variable (edge : List Token)

/-- The tokens of the nodes that a piece of a notation stands for. -/
def partTokens : Part → List Node → List Token
  | .branches, nodes => tokensBranches edge nodes
  | .primary, nodes | .unit, nodes | .more, nodes | .blocks, nodes => tokensAll edge nodes

theorem partTokens_branches (node : Node) (nodes : List Node) :
    partTokens edge .branches (node :: nodes) =
      .pipe :: (partTokens edge .primary [node] ++ partTokens edge .branches nodes) := by
  simp only [partTokens, tokensBranches, tokensAll_singleton]

theorem partTokens_alternative (node : Node) (nodes : List Node) :
    partTokens edge .unit [.alternative (node :: nodes)] =
      partTokens edge .primary [node] ++ partTokens edge .branches nodes := by
  simp only [partTokens, tokensAll_singleton, tokens]

theorem partTokens_more (gap : Bool) (node : Node) (nodes : List Node) :
    partTokens edge .more (gapNodes gap ++ node :: nodes) =
      gapTokens gap ++ (partTokens edge .unit [node] ++ partTokens edge .more nodes) := by
  simp only [partTokens, tokensAll_append, tokensAll_gapNodes, tokensAll, List.append_nil]

theorem partTokens_blocks (node : Node) (nodes : List Node) :
    partTokens edge .blocks (node :: nodes) =
      partTokens edge .unit [node] ++ partTokens edge .more nodes := by
  simp only [partTokens, tokensAll, List.append_nil]

end

/-! ## Text -/

mutual
/-- A node, written out. -/
def print : Node → String
  | .sequence children => printAll children
  | .repetition marker separator body =>
      "\x7b" ++ String.ofList [marker.char] ++ separator.getD "" ++ " " ++ printAll body ++ " \x7d"
  | .curlies body => "\x7b" ++ printAll body ++ "\x7d"
  | .alternative [] => ""
  | .alternative (branch :: branches) => print branch ++ printBranches branches
  | .atomic text => text
  | .hole id => "@" ++ id
  | .whitespace => " "
/-- A list of nodes, written out. -/
def printAll : List Node → String
  | [] => ""
  | n :: ns => print n ++ printAll ns
/-- The branches after the first, each written out after a pipe. -/
def printBranches : List Node → String
  | [] => ""
  | n :: ns => "|" ++ print n ++ printBranches ns
end

theorem textAll_pipeTokens (count : Nat) :
    (Token.textAll (pipeTokens count)).toList = List.replicate count '|' := by
  induction count with
  | zero => rfl
  | succ count ih =>
      rw [pipeTokens, List.replicate_succ, Token.textAll, String.toList_append]
      rw [pipeTokens] at ih
      rw [ih]
      rfl

theorem textAll_literalTokens (text : String) : Token.textAll (literalTokens text) = text := by
  by_cases h : isPipes text = true
  · rw [literalTokens, if_pos h, ← String.toList_inj, textAll_pipeTokens]
    rw [isPipes, Bool.and_eq_true, List.all_eq_true] at h
    exact (List.eq_replicate_of_mem fun c hc => beq_iff_eq.1 (h.2 c hc)).symm
  · rw [literalTokens, if_neg h]
    simp [Token.textAll, Token.text]

theorem textAll_separatorTokens (separator : Option String) :
    Token.textAll (separatorTokens separator) = separator.getD "" := by
  cases separator with
  | none => rfl
  | some text => exact textAll_literalTokens text

theorem printAll_eq_of_forall {ns : List Node}
    (ih : ∀ n ∈ ns, print n = Token.textAll (tokens [.gap] n)) :
    printAll ns = Token.textAll (tokensAll [.gap] ns) := by
  induction ns with
  | nil => rfl
  | cons n ns hns =>
      rw [printAll, tokensAll, Token.textAll_append, ih n (by simp),
        hns fun m hm => ih m (List.mem_cons_of_mem n hm)]

theorem printBranches_eq_of_forall {ns : List Node}
    (ih : ∀ n ∈ ns, print n = Token.textAll (tokens [.gap] n)) :
    printBranches ns = Token.textAll (tokensBranches [.gap] ns) := by
  induction ns with
  | nil => rfl
  | cons n ns hns =>
      rw [printBranches, tokensBranches, Token.textAll, Token.textAll_append, ih n (by simp),
        hns fun m hm => ih m (List.mem_cons_of_mem n hm), String.append_assoc]
      rfl

/-- What is printed is the text of the tokens. -/
theorem print_eq (n : Node) : print n = Token.textAll (tokens [.gap] n) := by
  induction n using Node.induct with
  | sequence children ih =>
      rw [print, tokens]
      exact printAll_eq_of_forall ih
  | repetition marker separator body ih =>
      rw [print, tokens, printAll_eq_of_forall ih, ← String.toList_inj]
      simp [Token.textAll, Token.textAll_append, textAll_separatorTokens, Token.text]
  | curlies body ih =>
      rw [print, tokens, printAll_eq_of_forall ih, ← String.toList_inj]
      simp [Token.textAll, Token.textAll_append, Token.text]
  | alternative branches ih =>
      cases branches with
      | nil => rfl
      | cons branch branches =>
          rw [print, tokens, Token.textAll_append, ih branch (by simp),
            printBranches_eq_of_forall fun n hn => ih n (List.mem_cons_of_mem branch hn)]
  | atomic text =>
      rw [print, tokens]
      exact (textAll_literalTokens text).symm
  | hole id =>
      rw [print, tokens]
      simp [Token.textAll, Token.text]
  | whitespace => rfl

theorem printAll_eq (ns : List Node) : printAll ns = Token.textAll (tokensAll [.gap] ns) :=
  printAll_eq_of_forall fun n _ => print_eq n

end Node
end TacticNotation
