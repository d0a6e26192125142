import Mathlib.Control.Monad.Basic
import TacticNotation.Proofs.Grammar.Reader
import TacticNotation.Proofs.Tree.Spelling

/-!
# The tokens of a tree are those of its text

The reader drops nothing but gaps, and gaps only at four places: at the start
and at the end of a notation, after the opening of a repetition and its
separator, and before the closing brace of a repetition.  `kept` is a filter on
tokens that drops those gaps and no others, from left to right and knowing only
which groups are open; a tree has exactly the tokens that it lets through.
-/

namespace TacticNotation
namespace Grammar

open Node (partTokens partTokens_branches partTokens_alternative partTokens_more
  partTokens_blocks tokensAll tokensAll_append tokensAll_singleton tokensAll_gapNodes)

/-! ## Gaps that are dropped -/

/-- The place of a token among those before it. -/
inductive Spot where
  /-- Directly after the opening of a repetition. -/
  | opener
  /-- Directly after pipes that separate the occurrences of a repetition. -/
  | pipes
  /-- Where a gap is dropped: at the start, or directly after a separator. -/
  | edge
  /-- At any other place. -/
  | inside
  deriving DecidableEq, Repr

/-- The place after a token that is no gap. -/
def Spot.next : Spot → Token → Spot
  | _, .repeatOpen _ => .opener
  | .opener, .atom _ => .edge
  | .opener, .pipe | .pipes, .pipe => .pipes
  | _, _ => .inside

/-- The groups that are open after a token, the innermost first: whether each of
them is a repetition. -/
def groupsAfter (groups : List Bool) : Token → List Bool
  | .repeatOpen _ => true :: groups
  | .braceOpen => false :: groups
  | .braceClose => groups.tail
  | .atom _ | .hole _ | .pipe | .gap => groups

/-- Whether a gap before these tokens is the last token of the notation or of a
repetition's body. -/
def atClose (groups : List Bool) : List Token → Bool
  | [] => true
  | .braceClose :: _ => groups.head? == some true
  | _ :: _ => false

/-- The tokens without the gaps that are dropped. -/
def kept (spot : Spot) (groups : List Bool) : List Token → List Token
  | [] => []
  | .gap :: rest =>
      if spot = .inside ∧ atClose groups rest = false then .gap :: kept .inside groups rest
      else kept .inside groups rest
  | token :: rest => token :: kept (spot.next token) (groupsAfter groups token) rest

/-! ## The filter, piece by piece -/

section
variable (groups : List Bool) {token : Token} {rest : List Token}

theorem kept_cons {spot : Spot} (h : token ≠ .gap) (rest : List Token) :
    kept spot groups (token :: rest) =
      token :: kept (spot.next token) (groupsAfter groups token) rest := by
  cases token with
  | gap => exact absurd rfl h
  | _ => rfl

theorem ne_gap_of_startsUnit (h : token.startsUnit = true) : token ≠ .gap := by
  rintro rfl
  cases h

/-- A token that is no separator is at a place like any other. -/
theorem kept_eq_inside {spot : Spot} (h : token ≠ .gap)
    (hnext : spot.next token = Spot.inside.next token) :
    kept spot groups (token :: rest) = kept .inside groups (token :: rest) := by
  rw [kept_cons groups h, kept_cons groups h, hnext]

theorem kept_edge (front : Bool) (h : token.startsUnit = true) :
    kept .edge groups (gapTokens front ++ token :: rest) = kept .inside groups (token :: rest) := by
  cases front with
  | true => rfl
  | false =>
      apply kept_eq_inside groups (ne_gap_of_startsUnit h)
      cases token <;> rfl

/-- A gap before a unit is kept. -/
theorem kept_gap (present : Bool) (h : token.startsUnit = true) :
    kept .inside groups (gapTokens present ++ token :: rest) =
      gapTokens present ++ kept .inside groups (token :: rest) := by
  cases present with
  | false => rfl
  | true =>
      have hclose : atClose groups (token :: rest) = false := by
        cases token with
        | braceClose => cases h
        | _ => rfl
      exact if_pos ⟨rfl, hclose⟩

theorem kept_pipeTokens {spot : Spot} (h : spot.next .pipe = spot) (count : Nat)
    (rest : List Token) :
    kept spot groups (pipeTokens count ++ rest) = pipeTokens count ++ kept spot groups rest := by
  induction count with
  | zero => rfl
  | succ count ih =>
      rw [pipeTokens, List.replicate_succ, List.cons_append, List.cons_append, ← pipeTokens,
        kept_cons groups (by decide), h, groupsAfter, ih]

/-- After the opening of a repetition the separator is kept and a gap is
dropped. -/
theorem kept_separator {sep : List Token} {separator : Option String} {front : Bool}
    (hsep : Separates sep separator (gapTokens front ++ token :: rest))
    (h : token.startsUnit = true) :
    kept .opener groups (sep ++ (gapTokens front ++ token :: rest)) =
      sep ++ kept .inside groups (token :: rest) := by
  have hgap := ne_gap_of_startsUnit h
  cases hsep with
  | none hahead =>
      cases front with
      | true => rfl
      | false =>
          apply kept_eq_inside groups hgap
          cases token with
          | atom text => cases hahead
          | pipe => cases hahead
          | _ => rfl
  | atom text =>
      rw [List.singleton_append, kept_cons groups (by simp), Spot.next, groupsAfter,
        kept_edge groups front h]
      rfl
  | pipes count hhead =>
      rw [pipeTokens, List.replicate_succ, List.cons_append, ← pipeTokens,
        kept_cons groups (by decide), Spot.next, groupsAfter, kept_pipeTokens groups rfl]
      rw [List.cons_append]
      congr 2
      cases front with
      | true => rfl
      | false =>
          apply kept_eq_inside groups hgap
          cases token with
          | pipe => exact absurd rfl hhead
          | _ => rfl

/-- A gap before the brace that closes a repetition is dropped. -/
theorem kept_close_repetition (back : Bool) (rest : List Token) :
    kept .inside (true :: groups) (gapTokens back ++ .braceClose :: rest) =
      .braceClose :: kept .inside groups rest := by
  cases back <;> rfl

/-- A gap before the brace that closes curlies is kept. -/
theorem kept_close_curlies (back : Bool) (rest : List Token) :
    kept .inside (false :: groups) (gapTokens back ++ .braceClose :: rest) =
      gapTokens back ++ .braceClose :: kept .inside groups rest := by
  cases back <;> rfl

end

/-! ## Pieces of a notation -/

/-- What is derived has the tokens that are kept of those it is derived from. -/
theorem Derives.kept {part : Part} {taken rest : List Token} {nodes : List Node}
    (h : Derives part taken nodes rest) (hvalid : ∀ token ∈ taken, token.Valid)
    (groups : List Bool) :
    kept .inside groups (taken ++ rest) =
      partTokens [] part nodes ++ kept .inside groups rest := by
  -- The rest stays in the statement: whether a gap is kept depends on what follows.
  induction h generalizing groups with
  | atom text =>
      have htokens := Node.literalTokens_of_valid (hvalid _ (List.mem_singleton_self _))
      rw [partTokens, tokensAll_singleton, Node.tokens, htokens]
      rfl
  | hole id => rfl
  | @repetition marker sep body separator nodes rest front back hsep hbody ih =>
      simp only [List.forall_mem_cons, List.forall_mem_append] at hvalid
      obtain ⟨-, hvalidSep, -, hvalidBody, -⟩ := hvalid
      have htokens := Node.separatorTokens_of_separates hsep hvalidSep
      have hinner := ih hvalidBody (true :: groups)
      obtain ⟨token, more, rfl, hstarts⟩ := hbody.blocks_head
      -- From the right: the closing brace, the body, the gap before it, the separator.
      rw [kept_close_repetition] at hinner
      rw [partTokens, tokensAll_singleton, Node.tokens, htokens]
      simp only [List.cons_append, List.append_assoc, List.nil_append] at hsep hinner ⊢
      rw [kept_cons groups (by simp), Spot.next, groupsAfter,
        kept_separator (true :: groups) hsep hstarts, hinner, partTokens]
  | @curlies body nodes rest front back hbody ih =>
      simp only [List.forall_mem_cons, List.forall_mem_append] at hvalid
      obtain ⟨-, -, hvalidBody, -⟩ := hvalid
      have hinner := ih hvalidBody (false :: groups)
      obtain ⟨token, more, rfl, hstarts⟩ := hbody.blocks_head
      rw [kept_close_curlies] at hinner
      rw [partTokens, tokensAll_singleton, Node.tokens, tokensAll_append, tokensAll_append,
        tokensAll_gapNodes, tokensAll_gapNodes]
      simp only [List.cons_append, List.append_assoc, List.nil_append] at hinner ⊢
      rw [kept_cons groups (by simp), Spot.next, groupsAfter,
        kept_gap (false :: groups) front hstarts, hinner, partTokens]
      all_goals simp
  | noBranch => rfl
  | @branch taken more rest node nodes hbranch hmore ihBranch ihMore =>
      simp only [List.forall_mem_cons, List.forall_mem_append] at hvalid
      obtain ⟨-, hvalidBranch, hvalidMore⟩ := hvalid
      rw [List.cons_append, List.append_assoc, kept_cons groups (by simp), Spot.next, groupsAfter,
        ihBranch hvalidBranch groups, ihMore hvalidMore groups, partTokens_branches,
        List.cons_append, List.append_assoc]
      all_goals simp
  | single hnode hglued ih => exact ih hvalid groups
  | @alternative taken more rest node other nodes hfirst hmore ihFirst ihMore =>
      obtain ⟨hvalidFirst, hvalidMore⟩ := List.forall_mem_append.1 hvalid
      rw [List.append_assoc, ihFirst hvalidFirst groups, ihMore hvalidMore groups,
        partTokens_alternative, List.append_assoc]
  | pipes count hhead =>
      rw [kept_pipeTokens groups rfl, partTokens, tokensAll_singleton, Node.tokens,
        Node.literalTokens_pipeText]
  | noMore => rfl
  | @more taken more rest node nodes gap hunit hmore ihUnit ihMore =>
      simp only [List.forall_mem_append] at hvalid
      obtain ⟨-, hvalidUnit, hvalidMore⟩ := hvalid
      have hfirst := ihUnit hvalidUnit groups
      rw [ihMore hvalidMore groups] at hfirst
      obtain ⟨token, after, rfl, hstarts⟩ := hunit.unit_head
      simp only [List.cons_append, List.append_assoc] at hfirst ⊢
      rw [kept_gap groups gap hstarts, hfirst, partTokens_more, List.append_assoc,
        List.append_assoc]
  | blocks hunit hmore ihUnit ihMore =>
      obtain ⟨hvalidUnit, hvalidMore⟩ := List.forall_mem_append.1 hvalid
      rw [List.append_assoc, ihUnit hvalidUnit groups, ihMore hvalidMore groups,
        partTokens_blocks, List.append_assoc]

/-! ## Whole notations -/

theorem Whole.kept_eq {tokens : List Token} {nodes : List Node} (h : Whole tokens nodes)
    (hvalid : ∀ token ∈ tokens, token.Valid) :
    kept .edge [] tokens = tokensAll [] nodes := by
  obtain ⟨front, body, back, rfl, hbody⟩ := h
  simp only [List.forall_mem_append] at hvalid
  have hinner := hbody.kept hvalid.2.1 []
  -- A gap at the very end has nothing after it.
  have hlast : kept .inside [] (gapTokens back) = [] := by
    cases back <;> rfl
  rw [hlast, List.append_nil] at hinner
  obtain ⟨token, more, rfl, hstarts⟩ := hbody.blocks_head
  rw [List.cons_append] at hinner ⊢
  rw [kept_edge [] front hstarts, hinner, partTokens]

/-- The reader loses, repeats and reorders nothing.  The tokens of the tree that
it makes of a text are the tokens of the text, less the gaps at the two ends of
the notation and at the two edges of the body of a repetition. -/
theorem tokens_of_parseTree {source : String} {root : List Node}
    (h : parseTree source = .ok root) :
    ∃ lexemes, lex source = .ok lexemes ∧
      tokensAll [] root = kept .edge [] (lexemes.map Lexeme.token) := by
  obtain ⟨lexemes, hlex, hwhole⟩ := parseTree_eq_ok_iff.1 h
  exact ⟨lexemes, hlex, (hwhole.kept_eq (apart_of_lex hlex).valid).symm⟩

/-- Gaps go at the edges of a repetition and stay at those of curlies. -/
theorem tokens_of_parseTree_groups :
    ∃ root lexemes, parseTree " \x7b+|| \x7b @x \x7d a|b \x7d" = .ok root ∧
      lex " \x7b+|| \x7b @x \x7d a|b \x7d" = .ok lexemes ∧
      tokensAll [] root =
        [.repeatOpen .oneOrMore, .pipe, .pipe, .braceOpen, .gap, .hole "x", .gap, .braceClose,
          .gap, .atom "a", .pipe, .atom "b", .braceClose] ∧
      kept .edge [] (lexemes.map Lexeme.token) = tokensAll [] root := by
  have hparse : parseTree " \x7b+|| \x7b @x \x7d a|b \x7d" =
      .ok [.repetition .oneOrMore (some "||")
        [.curlies [.whitespace, .hole "x", .whitespace], .whitespace,
          .alternative [.atomic "a", .atomic "b"]]] := by decide +kernel
  obtain ⟨lexemes, hlex, hkept⟩ := tokens_of_parseTree hparse
  exact ⟨_, lexemes, hparse, hlex, by decide +kernel, hkept.symm⟩

end Grammar
end TacticNotation
