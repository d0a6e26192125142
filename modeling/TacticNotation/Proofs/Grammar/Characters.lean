import TacticNotation.Proofs.Grammar.Outcome
import TacticNotation.Proofs.Token.Words

/-!
# Checking a notation character by character

The check of a notation goes over its tokens.  The same can be found from its
characters, from left to right and without looking ahead.  All that has to be known
of a character is whether it belongs to the opening of a repetition, and that is
seen from what stands directly before it (`Before`); every other character passes
by itself, so where a token ends makes no difference.

`verdict` is what is found in a text without bare sigils, and `report?` says for
every text whether it is a notation and, if not, why (`report?_eq`).
-/

namespace TacticNotation

/-- A token as a lexeme of which it is not known where it was read. -/
def Token.unplaced (token : Token) : Lexeme := ⟨token, 0, 0⟩

/-- A character that is neither a brace nor blank. -/
def IsText (c : Char) : Prop := c ≠ '{' ∧ c ≠ '}' ∧ isGap c = false

instance : DecidablePred IsText := fun c =>
  inferInstanceAs (Decidable (c ≠ '{' ∧ c ≠ '}' ∧ isGap c = false))

theorem isText_of_isAtomChar {c : Char} (h : isAtomChar c = true) : IsText c := by
  obtain ⟨hopen, hclose, -, -, hgap⟩ := Token.isAtomChar_iff.1 h
  exact ⟨hopen, hclose, hgap⟩

/-- What can stand in a name can stand in an atom. -/
theorem isAtomChar_of_isNameChar {c : Char} (h : isNameChar c = true) : isAtomChar c = true := by
  refine Token.isAtomChar_iff.2 ⟨?_, ?_, ?_, ?_, isGap_of_isNameChar h⟩
  all_goals exact Token.ne_of_accepted h rfl

theorem isText_of_isNameChar {c : Char} (h : isNameChar c = true) : IsText c :=
  isText_of_isAtomChar (isAtomChar_of_isNameChar h)

namespace Grammar

/-! ## One character -/

/-- What stands directly before a character. -/
inductive Before where
  /-- A brace that opens a group, after which a marker can come. -/
  | brace
  /-- The brace and the marker of a repetition, after which its separator can
  come. -/
  | opener
  /-- The start of a separator that is an atom. -/
  | word
  /-- The start of a separator that is made of pipes. -/
  | pipes
  /-- Anything else. -/
  | other
  deriving DecidableEq, Repr

/-- What stands before the next character, if this one belongs to the opening of a
repetition. -/
def Before.next? : Before → Char → Option Before
  | .brace, c => if (Marker.ofChar? c).isSome then some .opener else none
  | .opener, c => if c = '|' then some .pipes else if isAtomChar c then some .word else none
  | .word, c => if isAtomChar c then some .word else none
  | .pipes, c => if c = '|' then some .pipes else none
  | .other, _ => none

/-- The levels that are open: whether a unit has begun directly in the innermost
one, and the same for those around it. -/
structure Levels where
  filled : Bool
  outer : List Bool
  deriving DecidableEq, Repr

/-- Pass a character that does not belong to the opening of a repetition, or say
what stands in place of a closing brace. -/
def Levels.pass (levels : Levels) (c : Char) : Except Expectation Levels :=
  if c = '{' then .ok ⟨false, true :: levels.outer⟩
  else if c = '}' then
    match levels.filled, levels.outer with
    | false, _ => .error .block
    | true, [] => .error .finish
    | true, level :: outer => .ok ⟨level, outer⟩
  else .ok ⟨levels.filled || !isGap c, levels.outer⟩

/-- The levels as the check over the tokens has them. -/
def Levels.scan (levels : Levels) (glue : Glue) : Scan :=
  ⟨glue, levels.filled, levels.outer⟩

/-- What is known after some characters. -/
structure Sweep where
  before : Before
  levels : Levels
  deriving DecidableEq, Repr

namespace Sweep

/-- The start: nothing at the top. -/
def initial : Sweep := ⟨.other, ⟨false, []⟩⟩

/-- Pass a character. -/
def step (sweep : Sweep) (c : Char) : Except Expectation Sweep :=
  match sweep.before.next? c with
  | some before => .ok ⟨before, sweep.levels⟩
  | none =>
      (sweep.levels.pass c).map fun levels => ⟨if c = '{' then .brace else .other, levels⟩

/-- What is known after some characters that are passed. -/
def after (sweep : Sweep) (chars : List Char) : Except Expectation Sweep :=
  chars.foldlM step sweep

/-- What is wrong with the characters that are left. -/
def run (sweep : Sweep) : List Char → Option Fault
  | [] => (sweep.levels.scan .loose).finish
  | c :: rest =>
      match sweep.step c with
      | .error expected => some (.unexpected ⟨.braceClose, 0, 0⟩ expected)
      | .ok next => next.run rest

/-! ## Runs of characters -/

section
variable {sweep next : Sweep} {levels : Levels}

theorem after_cons {c : Char} (h : sweep.step c = .ok next) (rest : List Char) :
    sweep.after (c :: rest) = next.after rest := by
  rw [after, List.foldlM_cons, h]
  rfl

theorem run_cons {c : Char} (h : sweep.step c = .ok next) (rest : List Char) :
    sweep.run (c :: rest) = next.run rest := by
  rw [run, h]

theorem after_append {front : List Char} (h : sweep.after front = .ok next) (back : List Char) :
    sweep.after (front ++ back) = next.after back := by
  rw [after] at h
  rw [after, List.foldlM_append, h]
  rfl

theorem run_append {front : List Char} (h : sweep.after front = .ok next) (back : List Char) :
    sweep.run (front ++ back) = next.run back := by
  induction front generalizing sweep with
  | nil =>
      cases h
      rfl
  | cons c front ih =>
      rw [after, List.foldlM_cons] at h
      obtain ⟨middle, hstep, hafter⟩ := bind_eq_ok_iff.1 h
      rw [List.cons_append, run_cons hstep]
      exact ih hafter

/-- Characters that each leave things as they are do so together. -/
theorem after_of_forall {run : List Char} (h : ∀ c ∈ run, sweep.step c = .ok sweep) :
    sweep.after run = .ok sweep := by
  induction run with
  | nil => rfl
  | cons c run ih =>
      obtain ⟨hc, hrun⟩ := List.forall_mem_cons.1 h
      rw [after_cons hc]
      exact ih hrun

/-- What stands before a character does not matter, if the character does not belong
to the opening of a repetition. -/
theorem step_settled {before : Before} {c : Char} (h : before.next? c = none) :
    step ⟨before, levels⟩ c = step ⟨.other, levels⟩ c := by
  rw [step, step, h]
  rfl

theorem after_settled {before : Before} {c : Char} (h : before.next? c = none)
    (rest : List Char) :
    after ⟨before, levels⟩ (c :: rest) = after ⟨.other, levels⟩ (c :: rest) := by
  rw [after, after, List.foldlM_cons, List.foldlM_cons, step_settled h]

theorem run_settled {before : Before} {chars : List Char}
    (h : ∀ c ∈ chars.head?, before.next? c = none) :
    run ⟨before, levels⟩ chars = run ⟨.other, levels⟩ chars := by
  cases chars with
  | nil => rfl
  | cons c rest => rw [run, run, step_settled (h c rfl)]

theorem step_other {c : Char} (hopen : c ≠ '{') (hclose : c ≠ '}') :
    step ⟨.other, levels⟩ c = .ok ⟨.other, ⟨levels.filled || !isGap c, levels.outer⟩⟩ := by
  have hpass : levels.pass c = .ok ⟨levels.filled || !isGap c, levels.outer⟩ := by
    rw [Levels.pass, if_neg hopen, if_neg hclose]
  show (levels.pass c).map _ = _
  rw [hpass, if_neg hopen]
  rfl

/-- Blanks change nothing. -/
theorem after_blanks {run : List Char} (h : ∀ c ∈ run, isGap c = true) :
    after ⟨.other, levels⟩ run = .ok ⟨.other, levels⟩ := by
  apply after_of_forall
  intro c hc
  have hgap := h c hc
  have hopen : c ≠ '{' := Token.ne_of_accepted hgap rfl
  have hclose : c ≠ '}' := Token.ne_of_accepted hgap rfl
  rw [step_other hopen hclose, hgap, Bool.not_true, Bool.or_false]

/-- Text fills the innermost level. -/
theorem after_text {run : List Char} (hne : run ≠ []) (h : ∀ c ∈ run, IsText c) :
    after ⟨.other, levels⟩ run = .ok ⟨.other, ⟨true, levels.outer⟩⟩ := by
  have hstep (filled : Bool) (c : Char) (hc : c ∈ run) :
      step ⟨.other, ⟨filled, levels.outer⟩⟩ c = .ok ⟨.other, ⟨true, levels.outer⟩⟩ := by
    obtain ⟨hopen, hclose, hgap⟩ := h c hc
    rw [step_other hopen hclose, hgap, Bool.not_false, Bool.or_true]
  cases run with
  | nil => exact absurd rfl hne
  | cons c run =>
      rw [after_cons (hstep levels.filled c List.mem_cons_self)]
      exact after_of_forall fun d hd => hstep true d (List.mem_cons_of_mem c hd)

/-- A separator changes nothing. -/
theorem after_word {run : List Char} (h : ∀ c ∈ run, isAtomChar c = true) :
    after ⟨.word, levels⟩ run = .ok ⟨.word, levels⟩ := by
  apply after_of_forall
  intro c hc
  have hnext : Before.word.next? c = some .word := if_pos (h c hc)
  rw [step, hnext]

end

end Sweep

/-! ## The check over the tokens -/

/-- What stands before a character, seen from the check over the tokens. -/
def Glue.before : Glue → Before
  | .loose => .other
  | .opener => .opener
  | .pipes => .pipes

theorem next?_before_eq_none (glue : Glue) {c : Char} (hpipe : c ≠ '|')
    (hatom : isAtomChar c = false) : glue.before.next? c = none := by
  cases glue with
  | loose => rfl
  | opener => simp [Glue.before, Before.next?, hpipe, hatom]
  | pipes => simp [Glue.before, Before.next?, hpipe]

namespace Sweep

/-- A token that closes no group is passed, and then things are as they are after the
token in the check over the tokens, unless its spelling goes on. -/
theorem exists_after_of_spells {token : Token} {chars : List Char} (h : token.Spells chars)
    (htoken : token ≠ .braceClose) (glue : Glue) (levels : Levels) :
    ∃ before glue' levels', after ⟨glue.before, levels⟩ chars = .ok ⟨before, levels'⟩ ∧
      (levels.scan glue).step token = .ok (levels'.scan glue') ∧
      ∀ rest, rest.head?.any token.takes = false →
        run ⟨before, levels'⟩ rest = run ⟨glue'.before, levels'⟩ rest := by
  obtain ⟨filled, outer⟩ := levels
  cases token with
  | braceClose => exact absurd rfl htoken
  | repeatOpen marker =>
      obtain ⟨-, rfl⟩ := h
      refine ⟨.opener, .opener, ⟨false, true :: outer⟩, ?_, ?_, fun _ _ => rfl⟩
      · cases glue <;> cases marker <;> rfl
      · cases glue <;> rfl
  | braceOpen =>
      obtain ⟨-, rfl⟩ := h
      refine ⟨.brace, .loose, ⟨false, true :: outer⟩, ?_, ?_, ?_⟩
      · cases glue <;> rfl
      · cases glue <;> rfl
      · intro rest hrest
        apply run_settled
        intro c hc
        rw [Option.any_eq_false] at hrest
        have hmarker : (Marker.ofChar? c).isSome = false := hrest c hc
        rw [Before.next?, hmarker]
        rfl
  | pipe =>
      obtain ⟨-, rfl⟩ := h
      cases glue with
      | loose => exact ⟨.other, .loose, ⟨true, outer⟩, by cases filled <;> rfl, rfl, fun _ _ => rfl⟩
      | opener => exact ⟨.pipes, .pipes, ⟨filled, outer⟩, rfl, rfl, fun _ _ => rfl⟩
      | pipes => exact ⟨.pipes, .pipes, ⟨filled, outer⟩, rfl, rfl, fun _ _ => rfl⟩
  | hole id =>
      obtain ⟨⟨-, hall⟩, rfl⟩ := h
      refine ⟨.other, .loose, ⟨true, outer⟩, ?_, ?_, fun _ _ => rfl⟩
      · rw [Token.toList_text_hole, after_settled (next?_before_eq_none glue (by decide) rfl)]
        refine after_text (List.cons_ne_nil _ _) ?_
        exact List.forall_mem_cons.2 ⟨by decide, fun c hc => isText_of_isNameChar (hall c hc)⟩
      · cases glue <;> rfl
  | gap =>
      obtain ⟨hne, hall⟩ := h
      refine ⟨.other, .loose, ⟨filled, outer⟩, ?_, ?_, fun _ _ => rfl⟩
      · obtain ⟨c, more, rfl⟩ := List.exists_cons_of_ne_nil hne
        have hc : isGap c = true := hall c List.mem_cons_self
        have hpipe : c ≠ '|' := Token.ne_of_accepted hc rfl
        have hatom : isAtomChar c = false := by
          rw [Bool.eq_false_iff]
          intro hatom
          rw [(isText_of_isAtomChar hatom).2.2] at hc
          cases hc
        rw [after_settled (next?_before_eq_none glue hpipe hatom)]
        exact after_blanks hall
      · cases glue <;> rfl
  | atom text =>
      obtain ⟨⟨hne, hall⟩, rfl⟩ := h
      rw [Token.text]
      obtain ⟨c, more, hchars⟩ := List.exists_cons_of_ne_nil hne
      have hc : isAtomChar c = true := hall c (by rw [hchars]; exact List.mem_cons_self)
      have hpipe : c ≠ '|' := (Token.isAtomChar_iff.1 hc).2.2.1
      have hfills : after ⟨.other, ⟨filled, outer⟩⟩ text.toList =
          .ok ⟨.other, ⟨true, outer⟩⟩ :=
        after_text hne fun d hd => isText_of_isAtomChar (hall d hd)
      cases glue with
      | loose => exact ⟨.other, .loose, ⟨true, outer⟩, hfills, rfl, fun _ _ => rfl⟩
      | pipes =>
          refine ⟨.other, .loose, ⟨true, outer⟩, ?_, rfl, fun _ _ => rfl⟩
          have hnone : Before.pipes.next? c = none := if_neg hpipe
          rw [hchars] at hfills ⊢
          exact (after_settled hnone more).trans hfills
      | opener =>
          -- The atom is the separator of a repetition, up to where it ends.
          refine ⟨.word, .loose, ⟨filled, outer⟩, ?_, rfl, ?_⟩
          · have hnext : Before.opener.next? c = some .word := by
              rw [Before.next?, if_neg hpipe, if_pos hc]
            have hstep : step ⟨.opener, ⟨filled, outer⟩⟩ c = .ok ⟨.word, ⟨filled, outer⟩⟩ := by
              rw [step, hnext]
            rw [hchars] at hall ⊢
            rw [Glue.before, after_cons hstep]
            exact after_word (List.forall_mem_cons.1 hall).2
          · intro rest hrest
            apply run_settled
            intro d hd
            rw [Option.any_eq_false] at hrest
            have hatom : isAtomChar d = false := hrest d hd
            rw [Before.next?, hatom]
            rfl

/-- The check over the characters of a text finds what the check over its tokens
finds. -/
theorem run_eq_of_spelled {tokens : List Token} {chars : List Char} (h : Spelled tokens chars)
    (glue : Glue) (levels : Levels) :
    run ⟨glue.before, levels⟩ chars = (levels.scan glue).run (tokens.map Token.unplaced) := by
  induction h generalizing glue levels with
  | nil => rfl
  | @cons token tokens chars rest hrun hrest htokens ih =>
      rw [List.map_cons]
      by_cases htoken : token = .braceClose
      · subst htoken
        obtain ⟨-, rfl⟩ := hrun
        have hnone : glue.before.next? '}' = none := next?_before_eq_none glue (by decide) rfl
        obtain ⟨filled, outer⟩ := levels
        rw [run_settled (by rintro c ⟨⟩; exact hnone)]
        have hscan : ((⟨filled, outer⟩ : Levels).scan glue).step .braceClose =
            Scan.pass filled outer .braceClose := by
          cases glue <;> rfl
        rw [Scan.run, Token.unplaced, hscan]
        cases filled with
        | false => rfl
        | true =>
            cases outer with
            | nil => rfl
            | cons level outer => exact ih .loose ⟨level, outer⟩
      · obtain ⟨before, glue', levels', hafter, hstep, hsettled⟩ :=
          exists_after_of_spells hrun htoken glue levels
        rw [run_append hafter, hsettled rest hrest, ih glue' levels']
        exact (Scan.run_cons hstep _).symm

end Sweep

/-! ## Whole notations -/

/-- What is wrong with a text that has no bare sigil, if anything is. -/
def verdict (chars : List Char) : Option Fault :=
  if chars.all isGap then some .empty else Sweep.initial.run chars

/-- A text is blank if its tokens are. -/
theorem all_isGap_eq {tokens : List Token} {chars : List Char} (h : Spelled tokens chars) :
    chars.all isGap = tokens.all (· == .gap) := by
  induction h with
  | nil => rfl
  | @cons token tokens run rest hrun hrest htokens ih =>
      have hfirst : run.all isGap = (token == .gap) := by
        by_cases htoken : token = .gap
        · subst htoken
          exact List.all_eq_true.2 hrun.2
        · have hgap := Token.isGap_of_spells hrun htoken
          obtain ⟨c, more, rfl⟩ := List.exists_cons_of_ne_nil hrun.ne_nil
          rw [List.all_cons, hgap c List.mem_cons_self, beq_eq_false_iff_ne.2 htoken,
            Bool.false_and]
      rw [List.all_append, hfirst, ih, List.all_cons]

theorem check_eq_verdict {lexemes : List Lexeme} {chars : List Char}
    (h : Spelled (lexemes.map Lexeme.token) chars) :
    (check lexemes).map Fault.unplaced = verdict chars := by
  have hrun := Sweep.run_eq_of_spelled h .loose ⟨false, []⟩
  have hall : (lexemes.map Lexeme.unplaced).all (·.token == .gap) = chars.all isGap := by
    rw [all_isGap_eq h, List.all_map, List.all_map]
    rfl
  rw [List.map_map] at hrun
  rw [check_unplaced, check, hall, verdict]
  split
  · rfl
  · exact hrun.symm

/-- Why a text is not a notation, less the places in it. -/
def report? (chars : List Char) : Option Problem :=
  if (bareSigil? 0 chars).isSome then some (.unrecognizedInput "" "@" 0)
  else (verdict chars).map (.ofFault "")

/-- The report is that of the reader. -/
theorem report?_eq (chars : List Char) :
    report? chars =
      match outcome chars with
      | .ok _ => none
      | .error problem => some problem := by
  rw [report?, bareSigil?_eq, outcome]
  cases hlex : lexFrom 0 chars with
  | error offset => rfl
  | ok lexemes =>
      have hspelled := spelled_of_lexFrom hlex
      have hcheck := check_eq_root (spaced_of_apart hspelled.apart)
      have hverdict := check_eq_verdict hspelled
      simp only [Except.mapError, Except.bind]
      rw [← hverdict, hcheck]
      cases Reader.root lexemes <;> rfl

theorem report?_eq_none_iff {source : String} :
    report? source.toList = none ↔ ∃ root, parseTree source = .ok root := by
  rw [report?_eq, ← parseTree_unplaced]
  cases parseTree source <;> simp [Except.mapError]

end Grammar
end TacticNotation
