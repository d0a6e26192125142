import TacticNotation.Proofs.Grammar.Check

/-!
# Outcomes without places

A report names the text that it is about and bytes in it.  Without them it says
what kind of problem there is, what was found and what was expected, and that
depends on the tokens of the text only (`check_unplaced_congr`).  Two attempts
`Agree` if they come to the same but for these places.
-/

namespace TacticNotation

/-! ## Reports -/

/-- A lexeme less the bytes that it was read from. -/
def Lexeme.unplaced (lexeme : Lexeme) : Lexeme := ⟨lexeme.token, 0, 0⟩

/-- A fault less the bytes of the token that is in the way. -/
def Fault.unplaced : Fault → Fault
  | .unexpected lexeme expected => .unexpected lexeme.unplaced expected
  | .empty => .empty
  | .ended expected => .ended expected

/-- A problem less the text and the bytes that it is about: its kind, what was
found and what was expected. -/
def Problem.unplaced : Problem → Problem
  | .unrecognizedInput _ found _ => .unrecognizedInput "" found 0
  | .unexpectedToken _ found expected _ _ => .unexpectedToken "" found expected 0 0
  | .unexpectedEnd _ expected => .unexpectedEnd "" expected
  | .notUtf8 => .notUtf8
  | .emptyNotation => .emptyNotation
  | .invalidConfig => .invalidConfig
  | .invalidPattern => .invalidPattern

/-- The words of a report do not depend on the places. -/
theorem Problem.words_unplaced (problem : Problem) :
    problem.unplaced.code = problem.code ∧ problem.unplaced.message = problem.message ∧
      problem.unplaced.help = problem.help := by
  cases problem <;> exact ⟨rfl, rfl, rfl⟩

/-- Two attempts that both succeed, with results of which `same` holds, or both
fail, for the same reason. -/
inductive Agree {α : Type} (same : α → α → Prop) : Except Problem α → Except Problem α → Prop where
  | ok {a a' : α} (h : same a a') : Agree same (.ok a) (.ok a')
  | error {problem problem' : Problem} (h : problem.unplaced = problem'.unplaced) :
      Agree same (.error problem) (.error problem')

namespace Agree

variable {α : Type} {same : α → α → Prop} {attempt : Except Problem α}

theorem of_ok {a : α} (h : Agree same (.ok a) attempt) :
    ∃ a', attempt = .ok a' ∧ same a a' := by
  cases h with
  | ok hsame => exact ⟨_, rfl, hsame⟩

theorem of_error {problem : Problem} (h : Agree same (.error problem) attempt) :
    ∃ problem', attempt = .error problem' ∧ problem.unplaced = problem'.unplaced ∧
      problem.code = problem'.code ∧ problem.message = problem'.message := by
  cases h with
  | @error _ problem' hsame =>
      obtain ⟨hcode, hmessage, -⟩ := problem.words_unplaced
      obtain ⟨hcode', hmessage', -⟩ := problem'.words_unplaced
      rw [hsame] at hcode hmessage
      exact ⟨problem', rfl, hsame, hcode.symm.trans hcode', hmessage.symm.trans hmessage'⟩

end Agree

theorem agree_of_unplaced_eq {α : Type} {attempt attempt' : Except Problem α}
    (h : attempt.mapError Problem.unplaced = attempt'.mapError Problem.unplaced) :
    Agree (· = ·) attempt attempt' := by
  cases attempt with
  | ok a =>
      cases attempt' with
      | ok a' => exact .ok (Except.ok.inj h)
      | error problem' => cases h
  | error problem =>
      cases attempt' with
      | ok a' => cases h
      | error problem' => exact .error (Except.error.inj h)

namespace Grammar

/-! ## The check -/

theorem Scan.run_unplaced (scan : Scan) (lexemes : List Lexeme) :
    (scan.run lexemes).map Fault.unplaced = scan.run (lexemes.map Lexeme.unplaced) := by
  induction lexemes generalizing scan with
  | nil =>
      obtain ⟨glue, filled, outer⟩ := scan
      cases outer <;> cases filled <;> rfl
  | cons lexeme lexemes ih =>
      rw [List.map_cons, run, run, Lexeme.unplaced]
      cases scan.step lexeme.token with
      | error expected => rfl
      | ok next => exact ih next

/-- What the check finds depends on the tokens only, but for the bytes of the
token that is in the way. -/
theorem check_unplaced (lexemes : List Lexeme) :
    (check lexemes).map Fault.unplaced = check (lexemes.map Lexeme.unplaced) := by
  have hall : (lexemes.map Lexeme.unplaced).all (·.token == .gap) =
      lexemes.all (·.token == .gap) := List.all_map
  rw [check, check, hall, ← Scan.run_unplaced]
  split <;> rfl

theorem check_unplaced_congr {lexemes lexemes' : List Lexeme}
    (h : lexemes.map Lexeme.token = lexemes'.map Lexeme.token) :
    (check lexemes).map Fault.unplaced = (check lexemes').map Fault.unplaced := by
  have hmap (some : List Lexeme) : some.map Lexeme.unplaced =
      (some.map Lexeme.token).map fun token => ⟨token, 0, 0⟩ := by
    rw [List.map_map]
    rfl
  rw [check_unplaced, check_unplaced, hmap, hmap, h]

end Grammar

/-! ## Reading a text -/

/-- What becomes of a text that is read as a tree, apart from the places that a
report names. -/
def outcome (chars : List Char) : Except Problem (List Node) :=
  ((lexFrom 0 chars).mapError fun _ => .unrecognizedInput "" "@" 0).bind fun lexemes =>
    ((Reader.root lexemes).mapError Fault.unplaced).mapError (.ofFault "")

theorem parseTree_eq (source : String) :
    parseTree source =
      ((lexFrom 0 source.toList).mapError (.unrecognizedInput source "@")).bind fun lexemes =>
        (Reader.root lexemes).mapError (.ofFault source) := by
  rw [parseTree, lex]
  cases lexFrom 0 source.toList with
  | error offset => rfl
  | ok lexemes =>
      cases hroot : Reader.root lexemes with
      | ok nodes => simp only [bind, Except.bind, Except.mapError, hroot]
      | error fault => simp only [bind, Except.bind, Except.mapError, hroot]

theorem parseTree_unplaced (source : String) :
    (parseTree source).mapError Problem.unplaced = outcome source.toList := by
  rw [parseTree_eq, outcome]
  cases lexFrom 0 source.toList with
  | error offset => rfl
  | ok lexemes =>
      simp only [Except.bind, Except.mapError]
      cases Reader.root lexemes with
      | ok nodes => rfl
      | error fault => cases fault <;> rfl

end TacticNotation
