import TacticNotation.Proofs.Grammar.Reader
import TacticNotation.Proofs.Token.Lexing

/-!
# Checking a notation in one pass

Whether a text is a notation, and if not what is reported, can be told from left
to right with a stack of the groups that are open.  All that has to be known of
a group is whether a unit has begun directly in it.  The reader, which descends
into groups and looks ahead, gives exactly the answers of this check.

That the reader never misses the end of a group by meeting some other token
rests on the lexer: no two gaps are adjacent, so what follows the units of a
group and a gap can only be a closing brace or the end.
-/

namespace TacticNotation
namespace Grammar

open Reader

/-! ## The check -/

/-- Whether the separator of a repetition may come next. -/
inductive Glue where
  /-- It may not. -/
  | loose
  /-- The token before opens a repetition: an atom or pipes are its separator. -/
  | opener
  /-- The tokens before are pipes of a separator: more pipes belong to it. -/
  | pipes
  deriving DecidableEq, Repr

/-- What is known after some tokens. -/
structure Scan where
  glue : Glue
  /-- Whether a unit has begun directly in the innermost level. -/
  filled : Bool
  /-- The same for the levels around it, the innermost first.  The last one is
  the top. -/
  outer : List Bool
  deriving DecidableEq, Repr

namespace Scan

/-- The start: nothing at the top. -/
def initial : Scan := ⟨.loose, false, []⟩

/-- Pass a token that is no separator, or say what stands in place of a closing
brace. -/
def pass (filled : Bool) (outer : List Bool) : Token → Except Expectation Scan
  | .gap => .ok ⟨.loose, filled, outer⟩
  | .atom _ | .hole _ | .pipe => .ok ⟨.loose, true, outer⟩
  | .braceOpen => .ok ⟨.loose, false, true :: outer⟩
  | .repeatOpen _ => .ok ⟨.opener, false, true :: outer⟩
  | .braceClose =>
      match filled, outer with
      | false, _ => .error .block
      | true, [] => .error .finish
      | true, level :: levels => .ok ⟨.loose, level, levels⟩

/-- Pass a token. -/
def step (scan : Scan) (token : Token) : Except Expectation Scan :=
  match scan.glue, token with
  -- A separator does not fill the level.
  | .opener, .atom _ => .ok ⟨.loose, scan.filled, scan.outer⟩
  | .opener, .pipe | .pipes, .pipe => .ok ⟨.pipes, scan.filled, scan.outer⟩
  | _, token => pass scan.filled scan.outer token

/-- What is wrong at the end of the tokens. -/
def finish (scan : Scan) : Option Fault :=
  match scan.outer, scan.filled with
  | [], _ => none
  | _ :: _, false => some (.ended .block)
  | _ :: _, true => some (.ended .close)

/-- What is wrong with the tokens that are left. -/
def run (scan : Scan) : List Lexeme → Option Fault
  | [] => scan.finish
  | lexeme :: rest =>
      match scan.step lexeme.token with
      | .error expected => some (.unexpected lexeme expected)
      | .ok next => run next rest

/-- What is known after some tokens that are passed. -/
def after (scan : Scan) (tokens : List Token) : Except Expectation Scan :=
  tokens.foldlM step scan

end Scan

/-- What is wrong with a list of tokens, if anything is. -/
def check (lexemes : List Lexeme) : Option Fault :=
  if lexemes.all (·.token == .gap) then some .empty else Scan.initial.run lexemes

/-! ## Passing tokens -/

namespace Scan

theorem after_cons {scan : Scan} (next : Scan) {token : Token} (h : scan.step token = .ok next)
    (tokens : List Token) : scan.after (token :: tokens) = next.after tokens := by
  rw [after, List.foldlM_cons, h]
  rfl

theorem after_append {scan next : Scan} {front : List Token} (h : scan.after front = .ok next)
    (back : List Token) : scan.after (front ++ back) = next.after back := by
  rw [after] at h
  rw [after, List.foldlM_append, h]
  rfl

theorem run_cons {scan next : Scan} {lexeme : Lexeme} (h : scan.step lexeme.token = .ok next)
    (rest : List Lexeme) : scan.run (lexeme :: rest) = next.run rest := by
  rw [run, h]

theorem run_append {scan next : Scan} {front : List Lexeme}
    (h : scan.after (front.map Lexeme.token) = .ok next) (back : List Lexeme) :
    scan.run (front ++ back) = next.run back := by
  induction front generalizing scan with
  | nil =>
      cases h
      rfl
  | cons lexeme front ih =>
      rw [List.map_cons, after, List.foldlM_cons] at h
      obtain ⟨middle, hstep, hafter⟩ := bind_eq_ok_iff.1 h
      rw [List.cons_append, run_cons hstep]
      exact ih hafter

section
variable (filled : Bool) (outer : List Bool)

theorem after_gapTokens (present : Bool) :
    after ⟨.loose, filled, outer⟩ (gapTokens present) = .ok ⟨.loose, filled, outer⟩ := by
  cases present <;> rfl

theorem after_pipeTokens {glue : Glue}
    (h : step ⟨glue, filled, outer⟩ .pipe = .ok ⟨glue, filled, outer⟩) (count : Nat) :
    after ⟨glue, filled, outer⟩ (pipeTokens count) = .ok ⟨glue, filled, outer⟩ := by
  induction count with
  | zero => rfl
  | succ count ih =>
      rw [pipeTokens, List.replicate_succ, after_cons _ h]
      exact ih

/-- After a separator the next token is passed as if there had been none. -/
theorem after_separator {sep following : List Token} {separator : Option String}
    (h : Separates sep separator following) :
    ∃ glue, after ⟨.opener, filled, outer⟩ sep = .ok ⟨glue, filled, outer⟩ ∧
      ∀ token, following.head? = some token →
        step ⟨glue, filled, outer⟩ token = step ⟨.loose, filled, outer⟩ token := by
  cases h with
  | none hahead =>
      refine ⟨.opener, rfl, ?_⟩
      intro token hhead
      obtain ⟨more, rfl⟩ := List.head?_eq_some_iff.1 hhead
      cases token with
      | atom text => cases hahead
      | pipe => cases hahead
      | _ => rfl
  | atom text => exact ⟨.loose, rfl, fun _ _ => rfl⟩
  | pipes count hhead =>
      refine ⟨.pipes, ?_, ?_⟩
      · rw [pipeTokens, List.replicate_succ, after_cons ⟨.pipes, filled, outer⟩ rfl]
        exact after_pipeTokens filled outer rfl count
      · intro token htoken
        cases token with
        | pipe => exact absurd htoken hhead
        | _ => rfl

end

theorem after_eq_of_step {scan : Scan} (other : Scan) {tokens : List Token} (hne : tokens ≠ [])
    (h : ∀ token, tokens.head? = some token → scan.step token = other.step token) :
    scan.after tokens = other.after tokens := by
  cases tokens with
  | nil => exact absurd rfl hne
  | cons token tokens => rw [after, after, List.foldlM_cons, List.foldlM_cons, h token rfl]

theorem run_eq_of_step {glue : Glue} {filled : Bool} {outer : List Bool} {lexemes : List Lexeme}
    (h : ∀ token, (lexemes.map Lexeme.token).head? = some token →
      step ⟨glue, filled, outer⟩ token = step ⟨.loose, filled, outer⟩ token) :
    run ⟨glue, filled, outer⟩ lexemes = run ⟨.loose, filled, outer⟩ lexemes := by
  cases lexemes with
  | nil => rfl
  | cons lexeme lexemes => rw [run, run, h lexeme.token rfl]

end Scan

/-! ## What is derived is passed -/

/-- The inside of a group and its closing brace are passed, and the level around
the group is filled. -/
theorem after_inside {body : List Token} (back : Bool) (outer : List Bool)
    (hbody : Scan.after ⟨.loose, false, true :: outer⟩ body = .ok ⟨.loose, true, true :: outer⟩) :
    Scan.after ⟨.loose, false, true :: outer⟩ (body ++ (gapTokens back ++ [.braceClose])) =
      .ok ⟨.loose, true, outer⟩ := by
  rw [Scan.after_append hbody, Scan.after_append (Scan.after_gapTokens true (true :: outer) back)]
  rfl

/-- A piece of a notation is passed and fills the innermost level.  Branches and
units after the first only stand where it is filled already. -/
theorem Derives.after {part : Part} {taken rest : List Token} {nodes : List Node}
    (h : Derives part taken nodes rest) (filled : Bool) (outer : List Bool)
    (hfilled : part = .branches ∨ part = .more → filled = true) :
    Scan.after ⟨.loose, filled, outer⟩ taken = .ok ⟨.loose, true, outer⟩ := by
  induction h generalizing filled outer with
  | atom => rfl
  | hole => rfl
  | @repetition marker sep body separator nodes rest front back hsep hbody ih =>
      have hpassed := ih false (true :: outer) (by simp)
      obtain ⟨glue, hglue, hsettled⟩ := Scan.after_separator false (true :: outer) hsep
      -- The first token after the separator is the same whatever follows the group.
      have hne : gapTokens front ++ (body ++ (gapTokens back ++ [.braceClose])) ≠ [] := by simp
      rw [Scan.after_cons ⟨.opener, false, true :: outer⟩ rfl, Scan.after_append hglue,
        Scan.after_eq_of_step ⟨.loose, false, true :: outer⟩ hne,
        Scan.after_append (Scan.after_gapTokens false (true :: outer) front)]
      · exact after_inside back outer hpassed
      · intro token htoken
        apply hsettled
        have hsplit : gapTokens front ++ (body ++ (gapTokens back ++ .braceClose :: rest)) =
            gapTokens front ++ (body ++ (gapTokens back ++ [.braceClose])) ++ rest := by simp
        rw [hsplit, List.head?_append, htoken]
        rfl
  | @curlies body nodes rest front back hbody ih =>
      have hpassed := ih false (true :: outer) (by simp)
      rw [Scan.after_cons ⟨.loose, false, true :: outer⟩ rfl,
        Scan.after_append (Scan.after_gapTokens false (true :: outer) front)]
      exact after_inside back outer hpassed
  | noBranch =>
      rw [hfilled (Or.inl rfl)]
      rfl
  | branch hbranch hmore ihBranch ihMore =>
      rw [Scan.after_cons ⟨.loose, true, outer⟩ rfl,
        Scan.after_append (ihBranch true outer (by simp))]
      exact ihMore true outer (by simp)
  | single hnode hglued ih => exact ih filled outer (by simp)
  | alternative hfirst hmore ihFirst ihMore =>
      rw [Scan.after_append (ihFirst filled outer (by simp))]
      exact ihMore true outer (by simp)
  | pipes count hhead =>
      rw [pipeTokens, List.replicate_succ, Scan.after_cons ⟨.loose, true, outer⟩ rfl]
      exact Scan.after_pipeTokens true outer rfl count
  | noMore =>
      rw [hfilled (Or.inr rfl)]
      rfl
  | more gap hunit hmore ihUnit ihMore =>
      rw [Scan.after_append (Scan.after_gapTokens filled outer gap),
        Scan.after_append (ihUnit filled outer (by simp))]
      exact ihMore true outer (by simp)
  | blocks hunit hmore ihUnit ihMore =>
      rw [Scan.after_append (ihUnit filled outer (by simp))]
      exact ihMore true outer (by simp)

/-- What the reader takes is passed. -/
theorem Taken.run {part : Part} {lexemes rest : List Lexeme} {nodes : List Node}
    (h : Taken part lexemes nodes rest) (filled : Bool) (outer : List Bool)
    (hfilled : part = .branches ∨ part = .more → filled = true) :
    Scan.run ⟨.loose, filled, outer⟩ lexemes = Scan.run ⟨.loose, true, outer⟩ rest := by
  obtain ⟨front, rfl, hderives⟩ := h
  exact Scan.run_append (hderives.after filled outer hfilled) rest

/-! ## Gaps that are apart -/

/-- No two gaps are adjacent. -/
def Spaced (lexemes : List Lexeme) : Prop :=
  (lexemes.map Lexeme.token).IsChain fun token next => ¬ (token = .gap ∧ next = .gap)

theorem spaced_of_apart {lexemes : List Lexeme} (h : Apart (lexemes.map Lexeme.token)) :
    Spaced lexemes := by
  refine h.chain.imp ?_
  rintro _ _ hjoins ⟨rfl, rfl⟩
  exact absurd hjoins (by decide)

theorem Spaced.right {front back : List Lexeme} (h : Spaced (front ++ back)) : Spaced back := by
  rw [Spaced, List.map_append] at h
  exact h.right_of_append

theorem Spaced.tail {lexeme : Lexeme} {rest : List Lexeme} (h : Spaced (lexeme :: rest)) :
    Spaced rest := by
  rw [Spaced, List.map_cons, List.isChain_cons] at h
  exact h.2

/-- After a gap that may stand here there is none. -/
theorem Spaced.head?_skipGap {lexemes : List Lexeme} (h : Spaced lexemes) :
    ((skipGap lexemes).map Lexeme.token).head? ≠ some .gap := by
  match lexemes with
  | [] => simp [skipGap]
  | ⟨token, start, stop⟩ :: rest =>
      cases token with
      | gap =>
          intro hhead
          rw [Spaced, List.map_cons, List.isChain_cons] at h
          exact h.1 .gap hhead ⟨rfl, rfl⟩
      | _ => simp [skipGap]

/-- After units and a gap only a closing brace or the end of the tokens can
stand. -/
theorem Spaced.skipGap_cases {lexemes : List Lexeme} (h : Spaced lexemes)
    (hahead : unitAhead (lexemes.map Lexeme.token) = false) :
    skipGap lexemes = [] ∨
      ∃ start stop rest, skipGap lexemes = ⟨.braceClose, start, stop⟩ :: rest := by
  have hgap := h.head?_skipGap
  have hunit : atUnit (skipGap lexemes) = false := by
    obtain ⟨present, gap, rest, htake, hskip, -, -⟩ := takeGap_split lexemes
    rw [← hahead, ← atUnit_takeGap, htake, hskip]
  match hrest : skipGap lexemes with
  | [] => exact Or.inl rfl
  | ⟨token, start, stop⟩ :: rest =>
      rw [hrest] at hgap hunit
      cases token with
      | braceClose => exact Or.inr ⟨start, stop, rest, rfl⟩
      | gap => exact absurd rfl hgap
      | _ => cases hunit

theorem run_skipGap (filled : Bool) (outer : List Bool) (lexemes : List Lexeme) :
    Scan.run ⟨.loose, filled, outer⟩ lexemes =
      Scan.run ⟨.loose, filled, outer⟩ (skipGap lexemes) := by
  obtain ⟨present, front, back, -, hskip, rfl, hfront⟩ := takeGap_split lexemes
  rw [hskip]
  apply Scan.run_append
  rw [hfront]
  exact Scan.after_gapTokens filled outer present

/-! ## What the reader rejects -/

theorem bind_eq_error_iff {ε α β : Type} {x : Except ε α} {f : α → Except ε β} {e : ε} :
    (x >>= f) = .error e ↔ x = .error e ∨ ∃ a, x = .ok a ∧ f a = .error e := by
  cases x with
  | error e' =>
      constructor
      · intro h
        cases h
        exact Or.inl rfl
      · rintro (h | ⟨a, h, -⟩)
        · cases h
          rfl
        · cases h
  | ok a =>
      constructor
      · exact fun h => Or.inr ⟨a, rfl, h⟩
      · rintro (h | ⟨a', h, hf⟩)
        · cases h
        · cases h
          exact hf

/-- A unit starts here, or one has to start although it does not: nothing stands
in the innermost level yet, and the end of the tokens is not the end of the
notation. -/
def Due (filled : Bool) (outer : List Bool) (lexemes : List Lexeme) : Prop :=
  atUnit lexemes = true ∨ (filled = false ∧ (lexemes ≠ [] ∨ outer ≠ []) ∧
    (lexemes.map Lexeme.token).head? ≠ some .gap)

/-- Where a unit is due the end of the tokens is reported. -/
theorem Due.finish {filled : Bool} {outer : List Bool} (h : Due filled outer []) :
    Scan.finish ⟨.loose, filled, outer⟩ = some (.ended .block) := by
  rcases h with hunit | ⟨rfl, hne, -⟩
  · cases hunit
  · cases outer with
    | nil => simp at hne
    | cons level outer => rfl

/-- A step rejects some tokens for the reason that the check finds. -/
def Rejects {α : Type} (result : Except Fault α) (scan : Scan) (lexemes : List Lexeme) : Prop :=
  ∀ fault, result = .error fault → scan.run lexemes = some fault

theorem rejects_closeGroup {level : Bool} {outer : List Bool} {lexemes : List Lexeme}
    (hspaced : Spaced lexemes) (hahead : unitAhead (lexemes.map Lexeme.token) = false) :
    Rejects (closeGroup (skipGap lexemes)) ⟨.loose, true, level :: outer⟩ lexemes := by
  intro fault h
  rw [run_skipGap]
  rcases hspaced.skipGap_cases hahead with hrest | ⟨start, stop, rest, hrest⟩
  · rw [hrest] at h ⊢
    cases h
    rfl
  · rw [hrest] at h
    cases h

/-- A step that reads primaries rejects for the right reasons, with as much depth
as there are tokens. -/
def Honest (depth : Nat) (primary : Step Node) : Prop :=
  ∀ lexemes filled outer, lexemes.length ≤ depth → Spaced lexemes → Due filled outer lexemes →
    Rejects (primary lexemes) ⟨.loose, filled, outer⟩ lexemes

section
variable {depth : Nat} {primary : Step Node} (hfaithful : Faithful primary)
  (hhonest : Honest depth primary)
include hfaithful hhonest

theorem rejects_moreBranches {bound : Nat} {outer : List Bool} {lexemes : List Lexeme}
    (hdepth : lexemes.length ≤ depth) (hspaced : Spaced lexemes) :
    Rejects (moreBranches primary bound lexemes) ⟨.loose, true, outer⟩ lexemes := by
  intro fault h
  induction bound generalizing lexemes with
  | zero => cases h
  | succ bound ih =>
      rw [moreBranches] at h
      rcases gluedPipe?_cases lexemes with
        ⟨-, hnone⟩ | ⟨pipe, next, rest, rfl, hpipe, hnext, hsome⟩
      · rw [hnone] at h
        cases h
      · rw [hsome] at h
        have hrest : Spaced (next :: rest) := hspaced.tail
        have hshorter : (next :: rest).length ≤ depth := Nat.le_of_succ_le hdepth
        have hunit : atUnit (next :: rest) = true := by
          rw [Token.startsPrimary_eq, Bool.and_eq_true] at hnext
          exact hnext.1
        have hpass : Scan.run ⟨.loose, true, outer⟩ (pipe :: next :: rest) =
            Scan.run ⟨.loose, true, outer⟩ (next :: rest) :=
          Scan.run_cons (by rw [hpipe]; rfl) _
        rw [hpass]
        rcases bind_eq_error_iff.1 h with h | ⟨⟨branch, middle⟩, hbranch, hafter⟩
        · exact hhonest _ true outer hshorter hrest (Or.inl hunit) fault h
        · have hhead : ((next :: rest).map Lexeme.token).head? ≠ some .pipe := by
            intro heq
            rw [List.map_cons, List.head?_cons, Option.some.injEq] at heq
            rw [heq] at hnext
            cases hnext
          have htaken := hfaithful _ _ _ hhead hbranch
          have hlength := htaken.length_lt (Or.inl rfl)
          rw [htaken.run true outer (by simp)]
          obtain ⟨front, hfront, -⟩ := htaken
          rw [hfront] at hrest
          rcases bind_eq_error_iff.1 hafter with hmore | ⟨_, -, hok⟩
          · exact ih (by omega) hrest.right hmore
          · cases hok

theorem rejects_unit {filled : Bool} {outer : List Bool} {lexemes : List Lexeme}
    (hdepth : lexemes.length ≤ depth) (hspaced : Spaced lexemes)
    (hdue : Due filled outer lexemes) :
    Rejects (unit primary lexemes) ⟨.loose, filled, outer⟩ lexemes := by
  intro fault h
  unfold unit at h
  split at h
  · cases h
  · next hnot =>
    rcases bind_eq_error_iff.1 h with h | ⟨⟨first, middle⟩, hfirst, hafter⟩
    · exact hhonest _ filled outer hdepth hspaced hdue fault h
    · have htaken := hfaithful _ _ _ (head?_of_not_pipe hnot) hfirst
      have hlength := htaken.length_lt (Or.inl rfl)
      rw [htaken.run filled outer (by simp)]
      obtain ⟨front, rfl, -⟩ := htaken
      rcases bind_eq_error_iff.1 hafter with hmore | ⟨⟨branches, rest⟩, -, hok⟩
      · exact rejects_moreBranches hfaithful hhonest (by omega) hspaced.right fault hmore
      · cases branches <;> cases hok

theorem rejects_moreBlocks {bound : Nat} {outer : List Bool} {lexemes : List Lexeme}
    (hdepth : lexemes.length ≤ depth) (hspaced : Spaced lexemes) :
    Rejects (moreBlocks primary bound lexemes) ⟨.loose, true, outer⟩ lexemes := by
  intro fault h
  induction bound generalizing lexemes with
  | zero => cases h
  | succ bound ih =>
      obtain ⟨present, gap, rest, htake, hskip, rfl, -⟩ := takeGap_split lexemes
      have hrest := hspaced.right
      rw [List.length_append] at hdepth
      rw [moreBlocks, htake] at h
      rw [run_skipGap, hskip]
      by_cases hunit : atUnit rest = true
      · simp only [hunit, if_true] at h
        rcases bind_eq_error_iff.1 h with h | ⟨⟨node, middle⟩, hnode, hafter⟩
        · exact rejects_unit hfaithful hhonest (by omega) hrest (Or.inl hunit) fault h
        · have htaken := taken_unit hfaithful hnode
          have hlength := htaken.length_lt (Or.inr (Or.inl rfl))
          rw [htaken.run true outer (by simp)]
          obtain ⟨front, rfl, -⟩ := htaken
          rcases bind_eq_error_iff.1 hafter with hmore | ⟨_, -, hok⟩
          · exact ih (by omega) hrest.right hmore
          · cases hok
      · simp only [hunit, Bool.false_eq_true, if_false] at h
        cases h

theorem rejects_blocks {filled : Bool} {outer : List Bool} {lexemes : List Lexeme}
    (hdepth : lexemes.length ≤ depth) (hspaced : Spaced lexemes)
    (hdue : Due filled outer lexemes) :
    Rejects (blocks primary lexemes) ⟨.loose, filled, outer⟩ lexemes := by
  intro fault h
  rcases bind_eq_error_iff.1 h with h | ⟨⟨node, middle⟩, hnode, hafter⟩
  · exact rejects_unit hfaithful hhonest hdepth hspaced hdue fault h
  · have htaken := taken_unit hfaithful hnode
    have hlength := htaken.length_lt (Or.inr (Or.inl rfl))
    rw [htaken.run filled outer (by simp)]
    obtain ⟨front, rfl, -⟩ := htaken
    rcases bind_eq_error_iff.1 hafter with hmore | ⟨_, -, hok⟩
    · exact rejects_moreBlocks hfaithful hhonest (by omega) hspaced.right fault hmore
    · cases hok

/-- Inside a group: its units, and then its closing brace. -/
theorem rejects_inside (outer : List Bool) (lexemes : List Lexeme)
    (hdepth : lexemes.length ≤ depth) (hspaced : Spaced lexemes) :
    Rejects (blocks primary (skipGap lexemes)) ⟨.loose, false, true :: outer⟩ lexemes ∧
      ∀ body middle, blocks primary (skipGap lexemes) = .ok (body, middle) →
        Rejects (closeGroup (skipGap middle)) ⟨.loose, false, true :: outer⟩ lexemes := by
  have hgap := hspaced.head?_skipGap
  have hrun := run_skipGap false (true :: outer) lexemes
  obtain ⟨present, gap, inner, -, hskip, rfl, -⟩ := takeGap_split lexemes
  rw [hskip] at hgap hrun ⊢
  have hinner := hspaced.right
  rw [List.length_append] at hdepth
  constructor
  · intro fault h
    have hdue : Due false (true :: outer) inner :=
      Or.inr ⟨rfl, Or.inr (List.cons_ne_nil _ _), hgap⟩
    rw [hrun]
    exact rejects_blocks hfaithful hhonest (by omega) hinner hdue fault h
  · intro body middle hbody fault h
    have htaken := taken_blocks hfaithful hbody
    rw [hrun, htaken.run false (true :: outer) (by simp)]
    obtain ⟨front, rfl, hderives⟩ := htaken
    exact rejects_closeGroup hinner.right hderives.blocks_stop fault h

theorem rejects_repetition {filled : Bool} {outer : List Bool} {marker : Marker}
    {opener : Lexeme} {lexemes : List Lexeme} (hopener : opener.token = .repeatOpen marker)
    (hdepth : lexemes.length ≤ depth) (hspaced : Spaced lexemes) :
    Rejects (repetition primary marker lexemes) ⟨.loose, filled, outer⟩ (opener :: lexemes) := by
  intro fault h
  unfold repetition at h
  obtain ⟨separator, sep, after, hsep, rfl, hseparates⟩ := takeSeparator_split lexemes
  obtain ⟨glue, hglue, hsettled⟩ := Scan.after_separator false (true :: outer) hseparates
  rw [List.length_append] at hdepth
  have hpass : Scan.run ⟨.loose, filled, outer⟩ (opener :: (sep ++ after)) =
      Scan.run ⟨.loose, false, true :: outer⟩ after := by
    rw [Scan.run, hopener, ← Scan.run_eq_of_step hsettled]
    exact Scan.run_append hglue after
  obtain ⟨hblocks, hclose⟩ :=
    rejects_inside hfaithful hhonest outer after (by omega) hspaced.right
  rw [hpass]
  simp only [hsep] at h
  rcases bind_eq_error_iff.1 h with hfail | ⟨⟨body, middle⟩, hbody, hafter⟩
  · exact hblocks fault hfail
  · rcases bind_eq_error_iff.1 hafter with hfail | ⟨_, -, hok⟩
    · exact hclose body middle hbody fault hfail
    · cases hok

theorem rejects_curlies {filled : Bool} {outer : List Bool} {opener : Lexeme}
    {lexemes : List Lexeme} (hopener : opener.token = .braceOpen)
    (hdepth : lexemes.length ≤ depth) (hspaced : Spaced lexemes) :
    Rejects (curlies primary lexemes) ⟨.loose, filled, outer⟩ (opener :: lexemes) := by
  intro fault h
  unfold curlies at h
  have hpass : Scan.run ⟨.loose, filled, outer⟩ (opener :: lexemes) =
      Scan.run ⟨.loose, false, true :: outer⟩ lexemes := by
    rw [Scan.run, hopener]
    rfl
  obtain ⟨hblocks, hclose⟩ :=
    rejects_inside hfaithful hhonest outer lexemes hdepth hspaced
  obtain ⟨present, gap, inner, htake, hskip, -, -⟩ := takeGap_split lexemes
  rw [hskip] at hblocks hclose
  rw [hpass]
  simp only [htake] at h
  rcases bind_eq_error_iff.1 h with hfail | ⟨⟨body, middle⟩, hbody, hafter⟩
  · exact hblocks fault hfail
  · obtain ⟨present', gap', last, htake', hskip', -, -⟩ := takeGap_split middle
    simp only [htake'] at hafter
    rcases bind_eq_error_iff.1 hafter with hfail | ⟨_, -, hok⟩
    · have hlast := hclose body middle hbody fault
      rw [hskip'] at hlast
      exact hlast hfail
    · cases hok

theorem honest_primaryStep : Honest (depth + 1) (primaryStep primary) := by
  intro lexemes filled outer hdepth hspaced hdue fault h
  match lexemes with
  | [] =>
      cases h
      exact hdue.finish
  | ⟨token, start, stop⟩ :: rest =>
      have hrest : Spaced rest := hspaced.tail
      have hshorter : rest.length ≤ depth := Nat.le_of_succ_le_succ hdepth
      cases token with
      | atom text => cases h
      | hole id => cases h
      | pipe => cases h
      | repeatOpen marker =>
          exact rejects_repetition hfaithful hhonest rfl hshorter hrest fault h
      | braceOpen => exact rejects_curlies hfaithful hhonest rfl hshorter hrest fault h
      | braceClose =>
          -- Nothing stands in the level yet, so the check expects a unit too.
          cases h
          rcases hdue with hunit | ⟨rfl, -, -⟩
          · cases hunit
          · rfl
      | gap =>
          rcases hdue with hunit | ⟨-, -, hgap⟩
          · cases hunit
          · exact absurd rfl hgap

end

theorem honest_primary (depth : Nat) : Honest depth (primary depth) := by
  induction depth with
  | zero =>
      -- Without depth there is no token, and the end is where a unit is due.
      intro lexemes filled outer hdepth _ hdue fault h
      cases h
      cases lexemes with
      | nil => exact hdue.finish
      | cons lexeme rest => simp at hdepth
  | succ depth ih => exact honest_primaryStep (faithful_primary depth) ih

/-! ## The check and the reader -/

/-- As no two gaps are adjacent, tokens that are all gaps are one gap or none. -/
theorem all_gap_eq {lexemes : List Lexeme} (h : Spaced lexemes) :
    lexemes.all (·.token == .gap) = (skipGap lexemes).isEmpty := by
  have hgap := h.head?_skipGap
  obtain ⟨present, gap, inner, -, hskip, rfl, htokens⟩ := takeGap_split lexemes
  rw [hskip] at hgap ⊢
  have hmap : (gap.map Lexeme.token).all (· == .gap) = true := by
    rw [htokens]
    cases present <;> rfl
  rw [List.all_map] at hmap
  have hall : gap.all (·.token == .gap) = true := hmap
  rw [List.all_append, hall, Bool.true_and]
  cases inner with
  | nil => rfl
  | cons first rest =>
      have hfirst : (first.token == .gap) = false := by simpa using hgap
      rw [List.all_cons, hfirst, Bool.false_and, List.isEmpty_cons]

/-- The check finds the fault that the reader reports. -/
theorem check_eq_root {lexemes : List Lexeme} (hspaced : Spaced lexemes) :
    check lexemes =
      match root lexemes with
      | .ok _ => none
      | .error fault => some fault := by
  have hgap := hspaced.head?_skipGap
  have hrun := run_skipGap false [] lexemes
  rw [check, all_gap_eq hspaced, root, Scan.initial, hrun]
  obtain ⟨present, gap, inner, -, hskip, rfl, -⟩ := takeGap_split lexemes
  rw [hskip] at hgap ⊢
  have hinner := hspaced.right
  cases inner with
  | nil => rfl
  | cons first rest =>
      have hdue : Due false [] (first :: rest) :=
        Or.inr ⟨rfl, Or.inl (List.cons_ne_nil _ _), hgap⟩
      have hrejects := rejects_blocks (faithful_primary _) (honest_primary _)
        (Nat.le_refl (first :: rest).length) hinner hdue
      simp only [List.isEmpty_cons, Bool.false_eq_true, if_false]
      cases hblocks : blocks (primary (first :: rest).length) (first :: rest) with
      | error fault => exact hrejects fault hblocks
      | ok read =>
          obtain ⟨nodes, after⟩ := read
          have htaken := taken_blocks (faithful_primary _) hblocks
          rw [htaken.run false [] (by simp)]
          obtain ⟨front, hfront, hderives⟩ := htaken
          rw [hfront] at hinner
          rw [run_skipGap]
          -- After the units the notation ends, or a brace closes what is not open.
          rcases hinner.right.skipGap_cases hderives.blocks_stop with
            hlast | ⟨start, stop, more, hlast⟩
          · simp [bind, Except.bind, hlast, Scan.run, Scan.finish]
          · simp [bind, Except.bind, hlast, Scan.run, Scan.step, Scan.pass]

/-! ## What is reported -/

namespace Scan

theorem eq_braceClose_of_step {scan : Scan} {token : Token} {expected : Expectation}
    (h : scan.step token = .error expected) : token = .braceClose := by
  obtain ⟨glue, filled, outer⟩ := scan
  cases token with
  | braceClose => rfl
  | _ => cases glue <;> cases h

theorem unexpected_of_run {scan : Scan} {lexemes : List Lexeme} {brace : Lexeme}
    {expected : Expectation} (h : scan.run lexemes = some (.unexpected brace expected)) :
    brace ∈ lexemes ∧ brace.token = .braceClose := by
  induction lexemes generalizing scan with
  | nil =>
      obtain ⟨glue, filled, outer⟩ := scan
      cases outer <;> cases filled <;> cases h
  | cons lexeme lexemes ih =>
      rw [run] at h
      cases hstep : scan.step lexeme.token with
      | error expected' =>
          rw [hstep] at h
          cases h
          exact ⟨by simp, eq_braceClose_of_step hstep⟩
      | ok next =>
          rw [hstep] at h
          obtain ⟨hmem, htoken⟩ := ih h
          exact ⟨List.mem_cons_of_mem lexeme hmem, htoken⟩

end Scan

theorem unexpected_of_check {lexemes : List Lexeme} {brace : Lexeme} {expected : Expectation}
    (h : check lexemes = some (.unexpected brace expected)) :
    brace ∈ lexemes ∧ brace.token = .braceClose := by
  unfold check at h
  split at h
  · cases h
  · exact Scan.unexpected_of_run h

/-- A closing brace is one byte wide. -/
theorem stop_of_braceClose {start : Nat} {chars : List Char} {lexemes : List Lexeme}
    (hlex : lexFrom start chars = .ok lexemes) {brace : Lexeme} (hmem : brace ∈ lexemes)
    (htoken : brace.token = .braceClose) : brace.stop = brace.start + 1 := by
  obtain ⟨run, hspells, hstop⟩ := spells_of_lexFrom hlex brace hmem
  rw [htoken] at hspells
  rw [hstop, hspells.2]
  rfl

/-- The first byte and the number of bytes that a problem points at. -/
def span? (problem : Problem) : Option (Nat × Nat) :=
  problem.label.map fun label => (label.offset, label.length)

/-- A text is not a notation, with this problem at these bytes. -/
def Fails (source : String) (problem : Problem) (span : Option (Nat × Nat)) : Prop :=
  parseTree source = .error problem ∧ span? problem = span

/-- The outcome of reading a text is that of the check.  A bare sigil is reported
first, whatever else is wrong; without one the check of the tokens decides, and
where it finds nothing wrong the text is read. -/
theorem parseTree_outcome (source : String) :
    match bareSigil? 0 source.toList with
    | some offset => Fails source (.unrecognizedInput source "@" offset) (some (offset, 1))
    | none => ∃ lexemes, lex source = .ok lexemes ∧
        match check lexemes with
        | none => ∃ nodes, parseTree source = .ok nodes
        | some .empty => Fails source .emptyNotation none
        | some (.unexpected brace expected) =>
            Fails source
              (.unexpectedToken source "\x7d" expected brace.start (brace.start + 1))
              (some (brace.start, 1))
        | some (.ended expected) =>
            Fails source (.unexpectedEnd source expected) (some (source.utf8ByteSize, 0)) := by
  rw [bareSigil?_eq]
  cases hlexFrom : lexFrom 0 source.toList with
  | error offset =>
      have hlex : lex source = .error (.unrecognizedInput source "@" offset) := by
        rw [lex, hlexFrom]
      refine ⟨?_, rfl⟩
      rw [parseTree, hlex]
      rfl
  | ok lexemes =>
      have hlex : lex source = .ok lexemes := by rw [lex, hlexFrom]
      have hcheck := check_eq_root (spaced_of_apart (apart_of_lexFrom hlexFrom))
      have hparse : parseTree source =
          match root lexemes with
          | .ok nodes => .ok nodes
          | .error fault => .error (.ofFault source fault) := by
        rw [parseTree, hlex]
        rfl
      refine ⟨lexemes, hlex, ?_⟩
      cases hroot : root lexemes with
      | ok nodes =>
          rw [hroot] at hcheck hparse
          rw [hcheck]
          exact ⟨nodes, hparse⟩
      | error fault =>
          rw [hroot] at hcheck hparse
          rw [hcheck]
          cases fault with
          | empty => exact ⟨hparse, rfl⟩
          | ended expected => exact ⟨hparse, rfl⟩
          | unexpected brace expected =>
              obtain ⟨hmem, htoken⟩ := unexpected_of_check hcheck
              have hstop := stop_of_braceClose hlexFrom hmem htoken
              refine ⟨?_, ?_⟩
              · rw [hparse, ← hstop]
                simp only [Problem.ofFault, htoken]
                rfl
              · rw [span?, Problem.label, Option.map_some, Nat.add_sub_cancel_left]

end Grammar
end TacticNotation
