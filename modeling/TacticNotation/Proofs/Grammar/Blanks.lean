import TacticNotation.Notation.View
import TacticNotation.Proofs.Grammar.Outcome
import TacticNotation.Proofs.Grammar.Printing
import TacticNotation.Proofs.Token.Words

/-!
# The amount of blank space

How many blanks separate the words of a notation, and which, makes no difference,
and neither does it whether there are any at its two ends: the notation is read as
the same tree, or it fails for the same reason.  Only the places that a report
names depend on it.

Between the words the tokens are the same.  At the two ends they differ by a gap,
which the reader drops (`Whole.between`) and the check passes (`check_between`).
-/

namespace TacticNotation
namespace Grammar

open Reader

/-! ## Gaps that the reader drops -/

theorem Separates.of_head? {sep following following' : List Token} {separator : Option String}
    (h : Separates sep separator following) (hhead : following'.head? = following.head?) :
    Separates sep separator following' := by
  cases h with
  | atom text => exact .atom text _
  | pipes count hpipe => exact .pipes count (hhead ▸ hpipe)
  | none hahead =>
      refine .none ?_
      cases following with
      | nil =>
          rw [List.head?_eq_none_iff.1 hhead]
          rfl
      | cons token following =>
          obtain ⟨following', rfl⟩ := List.head?_eq_some_iff.1 hhead
          cases token <;> exact hahead

/-- Tokens are the same piece wherever what is ahead looks alike. -/
theorem Derives.of_alike {part : Part} {taken rest : List Token} {nodes : List Node}
    (h : Derives part taken nodes rest) {rest' : List Token} (hrest : Alike rest rest') :
    Derives part taken nodes rest' := by
  induction h generalizing rest' with
  | atom text => exact .atom text rest'
  | hole id => exact .hole id rest'
  | @repetition marker sep body separator nodes rest front back hsep hbody ih =>
      have hhead : (gapTokens front ++ (body ++ (gapTokens back ++ .braceClose :: rest'))).head? =
          (gapTokens front ++ (body ++ (gapTokens back ++ .braceClose :: rest))).head? := by
        obtain ⟨token, more, rfl, -⟩ := hbody.blocks_head
        cases front <;> rfl
      exact .repetition marker front back (hsep.of_head? hhead)
        (ih (Alike.close back back rest rest'))
  | @curlies body nodes rest front back hbody ih =>
      exact .curlies front back (ih (Alike.close back back rest rest'))
  | noBranch hglued => exact .noBranch (hrest.glued.trans hglued)
  | @branch taken more rest node nodes hbranch hmore ihBranch ihMore =>
      exact .branch (ihBranch (hrest.append_left more)) (ihMore hrest)
  | single hnode hglued ih => exact .single (ih hrest) (hrest.glued.trans hglued)
  | @alternative taken more rest node other nodes hfirst hmore ihFirst ihMore =>
      exact .alternative (ihFirst (hrest.append_left more)) (ihMore hrest)
  | pipes count hhead => exact .pipes count fun hhead' => hhead (hrest.pipe.1 hhead')
  | noMore hahead => exact .noMore (hrest.ahead.trans hahead)
  | @more taken more rest node nodes gap hunit hmore ihUnit ihMore =>
      exact .more gap (ihUnit (hrest.append_left more)) (ihMore hrest)
  | @blocks taken more rest node nodes hunit hmore ihUnit ihMore =>
      exact .blocks (ihUnit (hrest.append_left more)) (ihMore hrest)

/-- Gaps that are apart are one gap or none. -/
theorem exists_gapTokens {front back : Bool} (h : Apart (gapTokens front ++ gapTokens back)) :
    ∃ present, gapTokens front ++ gapTokens back = gapTokens present := by
  cases front with
  | false => exact ⟨back, rfl⟩
  | true =>
      cases back with
      | false => exact ⟨true, rfl⟩
      | true => exact absurd h (by decide)

theorem unitAhead_gapTokens (present : Bool) : unitAhead (gapTokens present) = false := by
  cases present <;> rfl

/-- A notation with a gap put before it and one after it stands for the same
nodes. -/
theorem Whole.between {tokens : List Token} {nodes : List Node} (h : Whole tokens nodes)
    {front back : Bool} (happart : Apart (gapTokens front ++ (tokens ++ gapTokens back))) :
    Whole (gapTokens front ++ (tokens ++ gapTokens back)) nodes := by
  obtain ⟨present, body, present', rfl, hbody⟩ := h
  have hsplit : gapTokens front ++ (gapTokens present ++ (body ++ gapTokens present') ++
        gapTokens back) =
      (gapTokens front ++ gapTokens present) ++ (body ++
        (gapTokens present' ++ gapTokens back)) := by
    simp only [List.append_assoc]
  rw [hsplit] at happart ⊢
  obtain ⟨before, hbefore⟩ := exists_gapTokens happart.left
  obtain ⟨after, hafter⟩ := exists_gapTokens happart.right.right
  rw [hbefore, hafter]
  refine ⟨before, body, after, rfl, hbody.of_alike ?_⟩
  exact .of_unitAhead (unitAhead_gapTokens present') (unitAhead_gapTokens after)

/-! ## Gaps that the check passes -/

namespace Scan

theorem step_gap (scan : Scan) : scan.step .gap = .ok ⟨.loose, scan.filled, scan.outer⟩ := by
  obtain ⟨glue, filled, outer⟩ := scan
  cases glue <;> rfl

theorem run_gaps (scan : Scan) {gaps : List Lexeme} (h : ∀ gap ∈ gaps, gap.token = .gap) :
    scan.run gaps = scan.finish := by
  induction gaps generalizing scan with
  | nil => rfl
  | cons gap gaps ih =>
      obtain ⟨hgap, hgaps⟩ := List.forall_mem_cons.1 h
      rw [run_cons (hgap ▸ scan.step_gap), ih _ hgaps]
      rfl

theorem run_append_gaps (scan : Scan) {gaps : List Lexeme} (h : ∀ gap ∈ gaps, gap.token = .gap)
    (lexemes : List Lexeme) : scan.run (lexemes ++ gaps) = scan.run lexemes := by
  induction lexemes generalizing scan with
  | nil => exact scan.run_gaps h
  | cons lexeme lexemes ih =>
      rw [List.cons_append, run, run]
      cases scan.step lexeme.token with
      | error expected => rfl
      | ok next => exact ih next

theorem run_gaps_append {gaps : List Lexeme} (h : ∀ gap ∈ gaps, gap.token = .gap)
    (lexemes : List Lexeme) : initial.run (gaps ++ lexemes) = initial.run lexemes := by
  induction gaps with
  | nil => rfl
  | cons gap gaps ih =>
      obtain ⟨hgap, hgaps⟩ := List.forall_mem_cons.1 h
      rw [List.cons_append, run_cons (hgap ▸ initial.step_gap)]
      exact ih hgaps

end Scan

/-- Gaps at the two ends do not change what the check finds. -/
theorem check_between {front back : List Lexeme} (hfront : ∀ gap ∈ front, gap.token = .gap)
    (hback : ∀ gap ∈ back, gap.token = .gap) (lexemes : List Lexeme) :
    check (front ++ (lexemes ++ back)) = check lexemes := by
  have hall {gaps : List Lexeme} (h : ∀ gap ∈ gaps, gap.token = .gap) :
      gaps.all (·.token == .gap) = true :=
    List.all_eq_true.2 fun gap hgap => beq_iff_eq.2 (h gap hgap)
  rw [check, check, Scan.run_gaps_append hfront, Scan.run_append_gaps _ hback, List.all_append,
    List.all_append, hall hfront, hall hback, Bool.true_and, Bool.and_true]

/-! ## What is read -/

theorem token_of_gapTokens {gaps : List Lexeme} {present : Bool}
    (h : gaps.map Lexeme.token = gapTokens present) : ∀ gap ∈ gaps, gap.token = .gap := by
  intro gap hgap
  have hmem : gap.token ∈ gaps.map Lexeme.token := List.mem_map_of_mem hgap
  rw [h] at hmem
  cases present with
  | true => exact List.mem_singleton.1 hmem
  | false => cases hmem

/-- The reader gives the same tree with a gap at each end, or fails for the same
reason. -/
theorem root_between {lexemes lexemes' : List Lexeme} {front back : Bool}
    (happart : Apart (lexemes.map Lexeme.token)) (happart' : Apart (lexemes'.map Lexeme.token))
    (htokens : lexemes'.map Lexeme.token =
      gapTokens front ++ (lexemes.map Lexeme.token ++ gapTokens back)) :
    (root lexemes').mapError Fault.unplaced = (root lexemes).mapError Fault.unplaced := by
  have hcheck := check_eq_root (spaced_of_apart happart)
  have hcheck' := check_eq_root (spaced_of_apart happart')
  cases hroot : root lexemes with
  | ok nodes =>
      have hwhole := (whole_of_root hroot).between (htokens ▸ happart')
      rw [← htokens] at hwhole
      rw [root_of_whole hwhole]
  | error fault =>
      rw [hroot] at hcheck
      obtain ⟨before, rest, rfl, hbefore, hrest⟩ := List.map_eq_append_iff.1 htokens
      obtain ⟨inner, after, rfl, hinner, hafter⟩ := List.map_eq_append_iff.1 hrest
      have hsame := check_unplaced_congr hinner
      rw [check_between (token_of_gapTokens hbefore) (token_of_gapTokens hafter)] at hcheck'
      rw [hcheck, hcheck'] at hsame
      cases hroot' : root (before ++ (inner ++ after)) with
      | ok nodes =>
          rw [hroot'] at hsame
          cases hsame
      | error fault' =>
          rw [hroot'] at hsame
          exact congrArg Except.error (Option.some.inj hsame)

end Grammar

/-! ## Texts with the same words -/

open Grammar (gapTokens)

/-- Two texts are read alike if the tokens of the one are those of the other with
a gap at each end, and the other has tokens whenever the one has. -/
theorem outcome_eq {chars chars' : List Char}
    (hto : ∀ tokens, Spelled tokens chars →
      ∃ front back, Spelled (gapTokens front ++ (tokens ++ gapTokens back)) chars')
    (hfrom : ∀ tokens, Spelled tokens chars' → ∃ tokens, Spelled tokens chars) :
    outcome chars' = outcome chars := by
  rw [outcome, outcome]
  cases hlex : lexFrom 0 chars with
  | ok lexemes =>
      obtain ⟨front, back, hspelled⟩ := hto _ (spelled_of_lexFrom hlex)
      obtain ⟨lexemes', hlex', htokens⟩ := hspelled.exists_lexFrom 0
      have hroot := Grammar.root_between (apart_of_lexFrom hlex) (apart_of_lexFrom hlex') htokens
      rw [hlex']
      exact congrArg (Except.mapError (Problem.ofFault "")) hroot
  | error offset =>
      cases hlex' : lexFrom 0 chars' with
      | error offset' => rfl
      | ok lexemes' =>
          obtain ⟨tokens, hspelled⟩ := hfrom _ (spelled_of_lexFrom hlex')
          obtain ⟨lexemes, hok, -⟩ := hspelled.exists_lexFrom 0
          rw [hlex] at hok
          cases hok

theorem outcome_between (chars : List Char) : outcome (between chars) = outcome chars :=
  outcome_eq (fun _ h => h.between) fun _ h => exists_spelled_of_between h

theorem outcome_congr {chars chars' : List Char} (h : words chars = words chars') :
    outcome chars = outcome chars' := by
  have hsame (tokens : List Token) :
      Spelled tokens (between chars) ↔ Spelled tokens (between chars') :=
    spelled_between_congr h
  rw [← outcome_between chars, ← outcome_between chars']
  refine (outcome_eq ?_ ?_).symm
  · intro tokens hspelled
    exact ⟨false, false, by simpa [gapTokens] using (hsame tokens).1 hspelled⟩
  · exact fun tokens hspelled => ⟨tokens, (hsame tokens).2 hspelled⟩

theorem parseTree_agree {source source' : String}
    (h : words source.toList = words source'.toList) :
    Agree (· = ·) (parseTree source) (parseTree source') := by
  apply agree_of_unplaced_eq
  rw [parseTree_unplaced, parseTree_unplaced, outcome_congr h]

namespace Notation

/-- Two notations with the same tree, and so with the same texts in every view. -/
structure SameForm (form form' : Notation) : Prop where
  root : form.root = form'.root
  shown : ∀ anchored view, form.show anchored view = form'.show anchored view

theorem parse_agree {table : ShorthandTable}
    (htable : ∀ entry ∈ table, ∀ c ∈ entry.source.toList, isGap c = false)
    {source source' : String} (h : words source.toList = words source'.toList) :
    Agree SameForm (Notation.parse table source) (Notation.parse table source') := by
  have hwords : words (table.apply source).toList = words (table.apply source').toList := by
    rw [table.words_apply htable, table.words_apply htable, h]
  have htree := parseTree_agree hwords
  rw [Notation.parse, Notation.parse]
  generalize parseTree (table.apply source) = tree at htree ⊢
  generalize parseTree (table.apply source') = tree' at htree ⊢
  cases htree with
  | error hproblem => exact .error hproblem
  | ok hroot =>
      subst hroot
      exact .ok ⟨rfl, fun anchored view => by cases view <;> rfl⟩

/-- No built-in shorthand holds a blank. -/
theorem isGap_of_mem_builtin :
    ∀ entry ∈ ShorthandTable.builtin, ∀ c ∈ entry.source.toList, isGap c = false := by
  have hall : ShorthandTable.builtin.all
      (fun entry => entry.source.toList.all fun c => !isGap c) = true := by decide
  intro entry hentry c hc
  simpa using List.all_eq_true.1 (List.all_eq_true.1 hall entry hentry) c hc

/-- The amount of blank space in a notation is irrelevant.  Notations with the
same words are read alike, with the built-in shorthands and without any: either
both are read, as the same tree, or both fail with the same kind of problem, the
same text found and the same expectation. -/
theorem parse_agree_of_words_eq {source source' : String}
    (h : words source.toList = words source'.toList) :
    Agree SameForm (Notation.parse .builtin source) (Notation.parse .builtin source') ∧
      Agree (· = ·) (parseTree source) (parseTree source') :=
  ⟨parse_agree isGap_of_mem_builtin h, parseTree_agree h⟩

/-- A notation on two lines is read as on one, and what is missing in it is
missed at another place only. -/
theorem parse_agree_of_words_eq_lines :
    let form : Notation := ⟨"\x7b*; in @bindings_list \x7d",
      "\x7b*; in \x7b+ (@id := @val) \x7d \x7d",
      [.repetition .zeroOrMore (some ";") [.atomic "in", .whitespace,
        .repetition .oneOrMore none [.atomic "(", .hole "id", .whitespace, .atomic ":=",
          .whitespace, .hole "val", .atomic ")"]]]⟩
    (∃ form', Notation.parse .builtin "\r\n\x7b*; in\t@bindings_list\n\x7d" = .ok form' ∧
      SameForm form form') ∧
    ∃ problem, parseTree "  \x7b @x\n" = .error problem ∧
      (Problem.unexpectedEnd "\x7b @x" .close).unplaced = problem.unplaced ∧
      problem.message = (Problem.unexpectedEnd "\x7b @x" .close).message := by
  intro form
  have hform : Notation.parse .builtin form.source = .ok form := by decide +kernel
  have hproblem : parseTree "\x7b @x" = .error (.unexpectedEnd "\x7b @x" .close) := by
    decide +kernel
  have hlines : words form.source.toList =
      words "\r\n\x7b*; in\t@bindings_list\n\x7d".toList := by decide +kernel
  have hmissing : words "\x7b @x".toList = words "  \x7b @x\n".toList := by decide +kernel
  obtain ⟨hparse, -⟩ := parse_agree_of_words_eq hlines
  obtain ⟨-, htree⟩ := parse_agree_of_words_eq hmissing
  rw [hform] at hparse
  rw [hproblem] at htree
  obtain ⟨problem, hfails, hsame, -, hmessage⟩ := htree.of_error
  exact ⟨hparse.of_ok, problem, hfails, hsame, hmessage.symm⟩

end Notation
end TacticNotation
