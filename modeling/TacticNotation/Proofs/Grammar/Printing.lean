import Mathlib.Control.Monad.Basic
import TacticNotation.Proofs.Grammar.Reader
import TacticNotation.Proofs.Tree.Spelling

/-!
# Printing and reading again

A tree that the reader has made is made again of the text that it prints as.
Printing keeps every token and changes gaps only: those at the ends of the
notation go, and at both edges of the body of a repetition there is always one.
Two things have to be seen.  What the grammar looks ahead to is not changed
(`Derives.printed`), so the printed tokens stand for the same tree; and no two
tokens get together that would be read as another one (`Derives.reprints`), so
the lexer finds the printed tokens again.
-/

namespace TacticNotation
namespace Grammar

open Node (partTokens partTokens_branches partTokens_alternative partTokens_more
  partTokens_blocks tokensAll_append tokensAll_singleton tokensAll_gapNodes)

/-! ## The same ahead -/

/-- The grammar cannot tell these tokens apart by looking ahead. -/
structure Alike (rest rest' : List Token) : Prop where
  pipe : rest'.head? = some .pipe ↔ rest.head? = some .pipe
  primary : rest'.head?.any Token.startsPrimary = rest.head?.any Token.startsPrimary
  glued : gluedPipe rest' = gluedPipe rest
  ahead : unitAhead rest' = unitAhead rest

namespace Alike

variable {rest rest' : List Token}

/-- A primary hides what is after it. -/
theorem of_startsPrimary {token token' : Token} (h : token.startsPrimary = true)
    (h' : token'.startsPrimary = true) : Alike (token :: rest) (token' :: rest') := by
  have hall (first : Token) (after : List Token) (hfirst : first.startsPrimary = true) :
      first ≠ .pipe ∧ gluedPipe (first :: after) = false ∧ unitAhead (first :: after) = true := by
    cases first with
    | pipe => cases hfirst
    | gap => cases hfirst
    | braceClose => cases hfirst
    | _ => exact ⟨by simp, rfl, rfl⟩
  obtain ⟨hpipe, hglued, hahead⟩ := hall token rest h
  obtain ⟨hpipe', hglued', hahead'⟩ := hall token' rest' h'
  constructor
  · simp [hpipe, hpipe']
  · simp [h, h']
  · rw [hglued, hglued']
  · rw [hahead, hahead']

theorem refl (rest : List Token) : Alike rest rest := ⟨Iff.rfl, rfl, rfl, rfl⟩

/-- What the grammar looks for after a pipe or a gap is itself looked for ahead. -/
theorem cons (h : Alike rest rest') (token : Token) : Alike (token :: rest) (token :: rest') := by
  have hglued (after : List Token) :
      gluedPipe (.pipe :: after) = after.head?.any Token.startsPrimary := by
    cases after <;> rfl
  have hahead (after : List Token) : unitAhead (.gap :: after) =
      (after.head?.any Token.startsPrimary || decide (after.head? = some .pipe)) := by
    cases after with
    | nil => rfl
    | cons next after => cases next <;> rfl
  constructor
  · rfl
  · rfl
  · cases token with
    | pipe => rw [hglued, hglued, h.primary]
    | _ => rfl
  · cases token with
    | gap => simp only [hahead, h.primary, h.pipe]
    | _ => rfl

theorem append_left (h : Alike rest rest') (front : List Token) :
    Alike (front ++ rest) (front ++ rest') := by
  induction front with
  | nil => exact h
  | cons token front ih => exact ih.cons token

/-- Where no unit follows nothing follows that the grammar looks for. -/
theorem of_unitAhead (h : unitAhead rest = false) (h' : unitAhead rest' = false) :
    Alike rest rest' := by
  have hall (after : List Token) (hafter : unitAhead after = false) :
      after.head? ≠ some .pipe ∧ after.head?.any Token.startsPrimary = false ∧
        gluedPipe after = false := by
    match after with
    | [] => exact ⟨by simp, rfl, rfl⟩
    | token :: more =>
        cases token with
        | gap => exact ⟨by simp, rfl, rfl⟩
        | braceClose => exact ⟨by simp, rfl, rfl⟩
        | _ => cases hafter
  obtain ⟨hpipe, hprimary, hglued⟩ := hall rest h
  obtain ⟨hpipe', hprimary', hglued'⟩ := hall rest' h'
  constructor
  · simp only [hpipe, hpipe']
  · rw [hprimary, hprimary']
  · rw [hglued, hglued']
  · rw [h, h']

end Alike

theorem unitAhead_close (present : Bool) (rest : List Token) :
    unitAhead (gapTokens present ++ .braceClose :: rest) = false := by
  cases present <;> rfl

/-- Before a closing brace a gap makes no difference. -/
theorem Alike.close (present present' : Bool) (rest rest' : List Token) :
    Alike (gapTokens present ++ .braceClose :: rest) (gapTokens present' ++ .braceClose :: rest') :=
  .of_unitAhead (unitAhead_close present rest) (unitAhead_close present' rest')

theorem Separates.gap {sep following : List Token} {separator : Option String}
    (h : Separates sep separator following) (rest : List Token) :
    Separates sep separator (.gap :: rest) := by
  cases h with
  | none => exact .none rfl
  | atom text => exact .atom text _
  | pipes count => exact .pipes count (by simp)

/-! ## The same tree -/

/-- The printed tokens of a piece stand for the same nodes, wherever what is
ahead looks alike, and from outside the piece itself looks alike. -/
theorem Derives.printed {part : Part} {taken rest : List Token} {nodes : List Node}
    (h : Derives part taken nodes rest) (hvalid : ∀ token ∈ taken, token.Valid)
    {rest' : List Token} (hrest : Alike rest rest') :
    Derives part (partTokens [.gap] part nodes) nodes rest' ∧
      Alike (taken ++ rest) (partTokens [.gap] part nodes ++ rest') := by
  induction h generalizing rest' with
  | atom text =>
      have htokens := Node.literalTokens_of_valid (hvalid _ (List.mem_singleton_self _))
      rw [partTokens, tokensAll_singleton, Node.tokens, htokens]
      exact ⟨.atom text rest', .of_startsPrimary rfl rfl⟩
  | hole id => exact ⟨.hole id rest', .of_startsPrimary rfl rfl⟩
  | @repetition marker sep body separator nodes rest front back hsep hbody ih =>
      simp only [List.forall_mem_cons, List.forall_mem_append] at hvalid
      obtain ⟨-, hvalidSep, -, hvalidBody, -⟩ := hvalid
      have htokens := Node.separatorTokens_of_separates hsep hvalidSep
      -- The body ends at a gap or a brace, and in print always at a gap.
      obtain ⟨hinner, -⟩ := ih hvalidBody (Alike.close back true rest rest')
      rw [partTokens, tokensAll_singleton, Node.tokens, htokens]
      exact ⟨.repetition marker true true (hsep.gap _) hinner, .of_startsPrimary rfl rfl⟩
  | @curlies body nodes rest front back hbody ih =>
      simp only [List.forall_mem_cons, List.forall_mem_append] at hvalid
      obtain ⟨-, -, hvalidBody, -⟩ := hvalid
      obtain ⟨hinner, -⟩ := ih hvalidBody (Alike.close back back rest rest')
      rw [partTokens, tokensAll_singleton, Node.tokens, tokensAll_append, tokensAll_append,
        tokensAll_gapNodes, tokensAll_gapNodes, List.append_assoc, List.append_assoc]
      exact ⟨.curlies front back hinner, .of_startsPrimary rfl rfl⟩
  | noBranch hglued => exact ⟨.noBranch (hrest.glued.trans hglued), hrest⟩
  | @branch taken more rest node nodes hbranch hmore ihBranch ihMore =>
      simp only [List.forall_mem_cons, List.forall_mem_append] at hvalid
      obtain ⟨-, hvalidBranch, hvalidMore⟩ := hvalid
      obtain ⟨hmore', halikeMore⟩ := ihMore hvalidMore hrest
      obtain ⟨hbranch', halike⟩ := ihBranch hvalidBranch halikeMore
      rw [partTokens_branches, List.cons_append, List.cons_append, List.append_assoc,
        List.append_assoc]
      exact ⟨.branch hbranch' hmore', halike.cons .pipe⟩
  | single hnode hglued ih =>
      obtain ⟨hnode', halike⟩ := ih hvalid hrest
      exact ⟨.single hnode' (hrest.glued.trans hglued), halike⟩
  | @alternative taken more rest node other nodes hfirst hmore ihFirst ihMore =>
      obtain ⟨hvalidFirst, hvalidMore⟩ := List.forall_mem_append.1 hvalid
      obtain ⟨hmore', halikeMore⟩ := ihMore hvalidMore hrest
      obtain ⟨hfirst', halike⟩ := ihFirst hvalidFirst halikeMore
      rw [partTokens_alternative, List.append_assoc, List.append_assoc]
      exact ⟨.alternative hfirst' hmore', halike⟩
  | pipes count hhead =>
      rw [partTokens, tokensAll_singleton, Node.tokens, Node.literalTokens_pipeText]
      exact ⟨.pipes count fun hhead' => hhead (hrest.pipe.1 hhead'), hrest.append_left _⟩
  | noMore hahead => exact ⟨.noMore (hrest.ahead.trans hahead), hrest⟩
  | @more taken more rest node nodes gap hunit hmore ihUnit ihMore =>
      simp only [List.forall_mem_append] at hvalid
      obtain ⟨-, hvalidUnit, hvalidMore⟩ := hvalid
      obtain ⟨hmore', halikeMore⟩ := ihMore hvalidMore hrest
      obtain ⟨hunit', halike⟩ := ihUnit hvalidUnit halikeMore
      rw [partTokens_more]
      refine ⟨.more gap hunit' hmore', ?_⟩
      simp only [List.append_assoc]
      exact halike.append_left (gapTokens gap)
  | @blocks taken more rest node nodes hunit hmore ihUnit ihMore =>
      obtain ⟨hvalidUnit, hvalidMore⟩ := List.forall_mem_append.1 hvalid
      obtain ⟨hmore', halikeMore⟩ := ihMore hvalidMore hrest
      obtain ⟨hunit', halike⟩ := ihUnit hvalidUnit halikeMore
      rw [partTokens_blocks, List.append_assoc, List.append_assoc]
      exact ⟨.blocks hunit' hmore', halike⟩

/-! ## Tokens that stay apart -/

/-- Printed tokens that stand for others: they begin and end in the same way, and
they are apart if those are. -/
structure Reprints (taken printed : List Token) : Prop where
  head : printed.head? = taken.head?
  last : printed.getLast? = taken.getLast?
  apart : Apart taken → Apart printed

namespace Reprints

theorem refl (taken : List Token) : Reprints taken taken := ⟨rfl, rfl, id⟩

theorem append {front front' back back' : List Token} (hfront : Reprints front front')
    (hback : Reprints back back') : Reprints (front ++ back) (front' ++ back') := by
  constructor
  · rw [List.head?_append, List.head?_append, hfront.head, hback.head]
  · rw [List.getLast?_append, List.getLast?_append, hfront.last, hback.last]
  · intro h
    obtain ⟨hapartFront, hapartBack, hborder⟩ := apart_append.1 h
    refine apart_append.2 ⟨hfront.apart hapartFront, hback.apart hapartBack, ?_⟩
    rw [hfront.last, hback.head]
    exact hborder

/-- A gap can be put between tokens of which neither is one. -/
theorem apart_gap {front back : List Token} (hfront : Apart front) (hback : Apart back)
    (hlast : front.getLast? ≠ some .gap) (hhead : back.head? ≠ some .gap) :
    Apart (front ++ ([.gap] ++ back)) := by
  have hgap : Apart [Token.gap] := ⟨by simp [Token.Valid], List.isChain_singleton _⟩
  have htail : Apart ([.gap] ++ back) := by
    refine apart_append.2 ⟨hgap, hback, ?_⟩
    rintro _ ⟨⟩ next hnext
    refine Token.gap_joins ?_ (hback.valid next (List.mem_of_mem_head? hnext))
    rintro rfl
    exact hhead hnext
  refine apart_append.2 ⟨hfront, htail, ?_⟩
  rintro token htoken _ ⟨⟩
  apply Token.joins_gap
  rintro rfl
  exact hlast htoken

/-- The body of a repetition gets a gap at each edge. -/
theorem edges {opening body body' : List Token} (front back : Bool)
    (hbody : Reprints body body') (hne : opening ≠ []) (hopening : opening.getLast? ≠ some .gap)
    {token : Token} (hhead : body.head? = some token) (htoken : token ≠ .gap)
    (hlast : body.getLast? ≠ some .gap) :
    Reprints (opening ++ (gapTokens front ++ (body ++ (gapTokens back ++ [.braceClose]))))
      (opening ++ ([.gap] ++ (body' ++ ([.gap] ++ [.braceClose])))) := by
  constructor
  · cases opening with
    | nil => exact absurd rfl hne
    | cons token opening => rfl
  · simp only [← List.append_assoc, List.getLast?_concat]
  · intro h
    -- Taken apart the pieces are apart, and gaps are put between them again.
    obtain ⟨hopeningApart, h, -⟩ := apart_append.1 h
    obtain ⟨-, h, -⟩ := apart_append.1 h
    obtain ⟨hbodyApart, h, -⟩ := apart_append.1 h
    obtain ⟨-, hcloseApart, -⟩ := apart_append.1 h
    have hbodyApart' := hbody.apart hbodyApart
    have htail : Apart (body' ++ ([.gap] ++ [.braceClose])) := by
      refine apart_gap hbodyApart' hcloseApart ?_ (by simp)
      rw [hbody.last]
      exact hlast
    refine apart_gap hopeningApart htail hopening ?_
    rw [List.head?_append, hbody.head, hhead]
    rintro ⟨⟩
    exact htoken rfl

end Reprints

theorem getLast?_append_ne_gap {front back : List Token} (hfront : front.getLast? ≠ some .gap)
    (hback : back.getLast? ≠ some .gap) : (front ++ back).getLast? ≠ some .gap := by
  rw [List.getLast?_append]
  cases h : back.getLast? with
  | none => exact hfront
  | some token =>
      rw [h] at hback
      exact hback

theorem Separates.getLast?_ne_gap {sep following : List Token} {separator : Option String}
    (h : Separates sep separator following) : sep.getLast? ≠ some .gap := by
  cases h with
  | none => simp
  | atom text => simp
  | pipes count =>
      rw [pipeTokens, List.replicate_succ', List.getLast?_concat]
      simp

/-- No piece of a notation ends with a gap. -/
theorem Derives.getLast?_ne_gap {part : Part} {taken rest : List Token} {nodes : List Node}
    (h : Derives part taken nodes rest) : taken.getLast? ≠ some .gap := by
  induction h with
  | atom => simp
  | hole => simp
  | repetition marker front back =>
      rw [← List.append_assoc, ← List.append_assoc, ← List.append_assoc, ← List.cons_append,
        List.getLast?_concat]
      simp
  | curlies front back =>
      rw [← List.append_assoc, ← List.append_assoc, ← List.cons_append, List.getLast?_concat]
      simp
  | noBranch => simp
  | branch hbranch hmore ihBranch ihMore =>
      have hpipe : [Token.pipe].getLast? ≠ some .gap := by simp
      exact getLast?_append_ne_gap hpipe (getLast?_append_ne_gap ihBranch ihMore)
  | single hnode hglued ih => exact ih
  | alternative hfirst hmore ihFirst ihMore => exact getLast?_append_ne_gap ihFirst ihMore
  | pipes count =>
      rw [pipeTokens, List.replicate_succ', List.getLast?_concat]
      simp
  | noMore => simp
  | @more taken more rest node nodes gap hunit hmore ihUnit ihMore =>
      have hne := hunit.ne_nil (Or.inr (Or.inl rfl))
      have hinner := getLast?_append_ne_gap ihUnit ihMore
      rw [List.getLast?_append]
      cases h : (taken ++ more).getLast? with
      | none => exact absurd (List.append_eq_nil_iff.1 (List.getLast?_eq_none_iff.1 h)).1 hne
      | some token =>
          rw [h] at hinner
          exact hinner
  | blocks hunit hmore ihUnit ihMore => exact getLast?_append_ne_gap ihUnit ihMore

/-- No token of a piece is lost or joined to another one by printing. -/
theorem Derives.reprints {part : Part} {taken rest : List Token} {nodes : List Node}
    (h : Derives part taken nodes rest) (hvalid : ∀ token ∈ taken, token.Valid) :
    Reprints taken (partTokens [.gap] part nodes) := by
  induction h with
  | atom text =>
      rw [partTokens, tokensAll_singleton, Node.tokens,
        Node.literalTokens_of_valid (hvalid _ (List.mem_singleton_self _))]
      exact .refl _
  | hole id => exact .refl _
  | @repetition marker sep body separator nodes rest front back hsep hbody ih =>
      simp only [List.forall_mem_cons, List.forall_mem_append] at hvalid
      obtain ⟨-, hvalidSep, -, hvalidBody, -⟩ := hvalid
      have htokens := Node.separatorTokens_of_separates hsep hvalidSep
      rw [partTokens, tokensAll_singleton, Node.tokens, htokens]
      rw [← List.cons_append, ← List.cons_append]
      have hopener : [Token.repeatOpen marker].getLast? ≠ some .gap := by simp
      have hopening := getLast?_append_ne_gap hopener hsep.getLast?_ne_gap
      have hlast := hbody.getLast?_ne_gap
      have hreprints := ih hvalidBody
      obtain ⟨token, more, rfl, hstarts⟩ := hbody.blocks_head
      refine hreprints.edges front back (List.cons_ne_nil _ _) hopening rfl ?_ hlast
      rintro rfl
      cases hstarts
  | @curlies body nodes rest front back hbody ih =>
      simp only [List.forall_mem_cons, List.forall_mem_append] at hvalid
      obtain ⟨-, -, hvalidBody, -⟩ := hvalid
      rw [partTokens, tokensAll_singleton, Node.tokens, tokensAll_append, tokensAll_append,
        tokensAll_gapNodes, tokensAll_gapNodes, List.append_assoc, List.append_assoc]
      exact (Reprints.refl [.braceOpen]).append
        ((Reprints.refl _).append ((ih hvalidBody).append (.refl _)))
  | noBranch => exact .refl []
  | @branch taken more rest node nodes hbranch hmore ihBranch ihMore =>
      simp only [List.forall_mem_cons, List.forall_mem_append] at hvalid
      obtain ⟨-, hvalidBranch, hvalidMore⟩ := hvalid
      rw [partTokens_branches]
      exact (Reprints.refl [.pipe]).append
        ((ihBranch hvalidBranch).append (ihMore hvalidMore))
  | single hnode hglued ih => exact ih hvalid
  | @alternative taken more rest node other nodes hfirst hmore ihFirst ihMore =>
      obtain ⟨hvalidFirst, hvalidMore⟩ := List.forall_mem_append.1 hvalid
      rw [partTokens_alternative]
      exact (ihFirst hvalidFirst).append (ihMore hvalidMore)
  | pipes count hhead =>
      rw [partTokens, tokensAll_singleton, Node.tokens, Node.literalTokens_pipeText]
      exact .refl _
  | noMore => exact .refl []
  | @more taken more rest node nodes gap hunit hmore ihUnit ihMore =>
      simp only [List.forall_mem_append] at hvalid
      obtain ⟨-, hvalidUnit, hvalidMore⟩ := hvalid
      rw [partTokens_more]
      exact (Reprints.refl _).append ((ihUnit hvalidUnit).append (ihMore hvalidMore))
  | @blocks taken more rest node nodes hunit hmore ihUnit ihMore =>
      obtain ⟨hvalidUnit, hvalidMore⟩ := List.forall_mem_append.1 hvalid
      rw [partTokens_blocks]
      exact (ihUnit hvalidUnit).append (ihMore hvalidMore)

/-! ## Whole notations -/

/-- A tree that was read of a text is read again of the text that it prints as. -/
theorem parseTree_printAll {source : String} {root : List Node}
    (h : parseTree source = .ok root) : parseTree (Node.printAll root) = .ok root := by
  obtain ⟨lexemes, hlex, front, body, back, htokens, hbody⟩ := parseTree_eq_ok_iff.1 h
  have happart := apart_of_lex hlex
  rw [htokens] at happart
  obtain ⟨-, happart, -⟩ := apart_append.1 happart
  obtain ⟨hbodyApart, -, -⟩ := apart_append.1 happart
  -- In print the gaps at the two ends are gone.
  have hend : Alike (gapTokens back) [] := .of_unitAhead hbody.blocks_stop rfl
  obtain ⟨hbody', -⟩ := hbody.printed hbodyApart.valid hend
  have hprinted := (hbody.reprints hbodyApart.valid).apart hbodyApart
  obtain ⟨lexemes', hlex', htokens'⟩ := lex_textAll hprinted
  rw [Node.printAll_eq]
  refine parseTree_eq_ok_iff.2 ⟨lexemes', hlex', false, _, false, ?_, hbody'⟩
  rw [htokens']
  exact (List.append_nil _).symm

/-- Printing puts gaps at the edges of repetitions and takes those at the ends
away. -/
theorem parseTree_printAll_groups :
    parseTree (Node.printAll [.repetition .zeroOrMore (some "|") [.atomic "|", .whitespace,
        .alternative [.curlies [.atomic "a"], .hole "x"]]]) =
      .ok [.repetition .zeroOrMore (some "|") [.atomic "|", .whitespace,
        .alternative [.curlies [.atomic "a"], .hole "x"]]] := by
  have hparse : parseTree " \x7b*| |  \x7ba\x7d|@x\x7d" =
      .ok [.repetition .zeroOrMore (some "|") [.atomic "|", .whitespace,
        .alternative [.curlies [.atomic "a"], .hole "x"]]] := by decide +kernel
  exact parseTree_printAll hparse

end Grammar
end TacticNotation
