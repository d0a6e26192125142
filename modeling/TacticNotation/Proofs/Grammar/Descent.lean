import TacticNotation.Proofs.Grammar.Reader

/-!
# The descent

The grammar read by recursive descent with a cursor into the tokens.  A loop goes
on as long as the tokens ahead tell it to, and the inside of a group is read by
the functions that read the whole.  A limit on the depth of the calls is there
only so that the definitions can be written down: a run that it cuts off has no
outcome, and `Ends` says that a run has one, and has the same under every limit
from some limit on.

Beside the cursor a run keeps a count of its steps: one for each group that it
opens, one for each unit that it goes on to after the first of some blocks, and
one for each branch that it goes on to after the first of an alternative.
-/

namespace TacticNotation
namespace Descent

/-- Where a run stands, and the number of steps that it has made. -/
structure State where
  /-- The index of the next token. -/
  cursor : Nat
  steps : Nat
  deriving DecidableEq, Repr

/-- A run over tokens.  It may fail, and it may be cut off. -/
abbrev Run (α : Type) := ExceptT Fault (StateT State Option) α

/-- The run that is cut off. -/
def cutOff {α : Type} : Run α := ExceptT.mk fun _ => none

/-- Passes over the next token. -/
def advance : Run Unit :=
  modify fun state => { state with cursor := state.cursor + 1 }

/-- Counts a step. -/
def tick : Run Unit :=
  modify fun state => { state with steps := state.steps + 1 }

/-- The fault where something else has to stand at the front of some tokens. -/
def faultAt (expected : Expectation) : List Lexeme → Fault
  | lexeme :: _ => .unexpected lexeme expected
  | [] => .ended expected

section
variable (tokens : List Lexeme)

/-! ## Single tokens -/

/-- The token that stands `offset` places after the cursor. -/
def peek (offset : Nat) : Run (Option Token) := do
  return (tokens[(← get).cursor + offset]?).map Lexeme.token

/-- Fails because something else has to stand here. -/
def fail {α : Type} (expected : Expectation) : Run α := do
  throw (faultAt expected (tokens.drop (← get).cursor))

/-- Passes over a gap that may stand here, and says whether one does. -/
def skipGap : Run Bool := do
  if (← peek tokens 0) = some .gap then
    advance
    return true
  else
    return false

/-- Whether a pipe stands here directly before a primary. -/
def atGluedPipe : Run Bool := do
  if (← peek tokens 0) = some .pipe then
    return (← peek tokens 1).any Token.startsPrimary
  else
    return false

/-- Passes over the brace that has to close a group here. -/
def close : Run Unit := do
  if (← peek tokens 0) = some .braceClose then
    advance
  else
    fail tokens .close

/-- The text with the pipes that stand here after it. -/
def pipes : Nat → String → Run String
  | 0, _ => cutOff
  | limit + 1, text => do
      if (← peek tokens 0) = some .pipe then
        advance
        pipes limit (text.push '|')
      else
        return text

/-- The separator of a repetition whose opening token has just been passed. -/
def separator (limit : Nat) : Run (Option String) := do
  match ← peek tokens 0 with
  | some (.atom text) =>
      advance
      return some text
  | some .pipe => return some (← pipes tokens limit "")
  | _ => return none

/-! ## Pieces of a notation -/

mutual

/-- One unit or more, with the gaps between them. -/
def blocks : Nat → Run (List Node)
  | 0 => cutOff
  | limit + 1 => do
      let first ← unit limit
      moreBlocks limit [first]

/-- The nodes with the units after them, as long as a unit follows with or
without a gap before it. -/
def moreBlocks : Nat → List Node → Run (List Node)
  | 0, _ => cutOff
  | limit + 1, nodes => do
      let atGap := (← peek tokens 0) = some .gap
      if (← peek tokens (if atGap then 1 else 0)).any Token.startsUnit then
        tick
        let gap ← skipGap tokens
        let node ← unit limit
        moreBlocks limit (nodes ++ Grammar.gapNodes gap ++ [node])
      else
        return nodes

/-- A run of pipes, a primary, or primaries joined by glued pipes. -/
def unit : Nat → Run Node
  | 0 => cutOff
  | limit + 1 => do
      if (← peek tokens 0) = some .pipe then
        return .atomic (← pipes tokens limit "")
      else
        let first ← primary limit
        if ← atGluedPipe tokens then
          return .alternative (← moreBranches limit [first])
        else
          return first

/-- The branches with those after them, as long as a glued pipe stands here. -/
def moreBranches : Nat → List Node → Run (List Node)
  | 0, _ => cutOff
  | limit + 1, branches => do
      if ← atGluedPipe tokens then
        tick
        advance
        let branch ← primary limit
        moreBranches limit (branches ++ [branch])
      else
        return branches

/-- An atom, a hole or a group. -/
def primary : Nat → Run Node
  | 0 => cutOff
  | limit + 1 => do
      match ← peek tokens 0 with
      | some (.atom text) =>
          advance
          return .atomic text
      | some (.hole id) =>
          advance
          return .hole id
      | some (.repeatOpen marker) =>
          tick
          advance
          repetition limit marker
      | some .braceOpen =>
          tick
          advance
          curlies limit
      | some .pipe => return .atomic (← pipes tokens limit "")
      | _ => fail tokens .block

/-- A repetition after its opening token. -/
def repetition : Nat → Marker → Run Node
  | 0, _ => cutOff
  | limit + 1, marker => do
      let separator ← separator tokens limit
      let _ ← skipGap tokens
      let body ← blocks limit
      let _ ← skipGap tokens
      close tokens
      return .repetition marker separator body

/-- Literal braces after the opening one. -/
def curlies : Nat → Run Node
  | 0 => cutOff
  | limit + 1 => do
      let before ← skipGap tokens
      let body ← blocks limit
      let after ← skipGap tokens
      close tokens
      return .curlies (Grammar.gapNodes before ++ body ++ Grammar.gapNodes after)

end

/-- A whole notation. -/
def root (limit : Nat) : Run (List Node) := do
  let _ ← skipGap tokens
  if (← peek tokens 0) = none then
    throw .empty
  else
    let nodes ← blocks tokens limit
    let _ ← skipGap tokens
    if (← peek tokens 0) = none then
      return nodes
    else
      fail tokens .finish

end

/-! ## Runs that end -/

/-- The run comes to an end, with an outcome and in a state that are as `post`
says; limits from some limit on make no difference. -/
def Ends {α : Type} (run : Nat → Run α) (start : State)
    (post : Except Fault α → State → Prop) : Prop :=
  ∃ outcome stop enough,
    (∀ limit ≥ enough, StateT.run (ExceptT.run (run limit)) start = some (outcome, stop)) ∧
      post outcome stop

section
variable {α β : Type} {start : State} {post : Except Fault α → State → Prop}

theorem Ends.mono {run : Nat → Run α} {weaker : Except Fault α → State → Prop}
    (h : Ends run start post) (himp : ∀ outcome stop, post outcome stop → weaker outcome stop) :
    Ends run start weaker := by
  obtain ⟨outcome, stop, enough, hrun, hpost⟩ := h
  exact ⟨outcome, stop, enough, hrun, himp outcome stop hpost⟩

/-- A run does what it comes to when the limit is not used up at once. -/
theorem ends_of_succ {run : Nat → Run α} (h : Ends (fun limit => run (limit + 1)) start post) :
    Ends run start post := by
  obtain ⟨outcome, stop, enough, hrun, hpost⟩ := h
  refine ⟨outcome, stop, enough + 1, ?_, hpost⟩
  intro limit hlimit
  obtain ⟨limit, rfl⟩ := Nat.exists_eq_succ_of_ne_zero (Nat.ne_zero_of_lt hlimit)
  exact hrun limit (Nat.le_of_succ_le_succ hlimit)

theorem ends_pure {value : α} (h : post (.ok value) start) :
    Ends (fun _ => pure value) start post :=
  ⟨.ok value, start, 0, fun _ _ => rfl, h⟩

theorem ends_throw {fault : Fault} (h : post (.error fault) start) :
    Ends (fun _ => throw fault) start post :=
  ⟨.error fault, start, 0, fun _ _ => rfl, h⟩

/-- A run followed by another ends if the second does wherever the first
succeeds. -/
theorem Ends.bind {run : Nat → Run β} {next : Nat → β → Run α}
    {middle : Except Fault β → State → Prop} (h : Ends run start middle)
    (hok : ∀ value state, middle (.ok value) state →
      Ends (fun limit => next limit value) state post)
    (herror : ∀ fault state, middle (.error fault) state → post (.error fault) state) :
    Ends (fun limit => run limit >>= next limit) start post := by
  obtain ⟨outcome, state, enough, hrun, hmiddle⟩ := h
  have hbind : ∀ limit, StateT.run (ExceptT.run (run limit >>= next limit)) start =
      (StateT.run (ExceptT.run (run limit)) start).bind fun p =>
        StateT.run (ExceptT.bindCont (next limit) p.1) p.2 := fun _ => rfl
  cases outcome with
  | ok value =>
      obtain ⟨outcome, stop, enough', hnext, hpost⟩ := hok value state hmiddle
      refine ⟨outcome, stop, max enough enough', ?_, hpost⟩
      intro limit hlimit
      rw [hbind, hrun limit (Nat.le_trans (Nat.le_max_left _ _) hlimit)]
      exact hnext limit (Nat.le_trans (Nat.le_max_right _ _) hlimit)
  | error fault =>
      refine ⟨.error fault, state, enough, ?_, herror fault state hmiddle⟩
      intro limit hlimit
      rw [hbind, hrun limit hlimit]
      rfl

theorem ends_advance_bind {next : Nat → Unit → Run α} :
    Ends (fun limit => advance >>= next limit) start post ↔
      Ends (fun limit => next limit ()) { start with cursor := start.cursor + 1 } post :=
  Iff.rfl

theorem ends_tick_bind {next : Nat → Unit → Run α} :
    Ends (fun limit => tick >>= next limit) start post ↔
      Ends (fun limit => next limit ()) { start with steps := start.steps + 1 } post :=
  Iff.rfl

end

/-! ## The tokens that are left -/

/-- The tokens from the cursor on are these. -/
structure At (tokens : List Lexeme) (state : State) (left : List Lexeme) : Prop where
  within : state.cursor ≤ tokens.length
  drop_eq : tokens.drop state.cursor = left

section
variable {α : Type} {tokens left rest : List Lexeme} {lexeme : Lexeme} {start : State}
  {post : Except Fault α → State → Prop}

theorem At.length_eq (h : At tokens start left) : start.cursor + left.length = tokens.length := by
  have hwithin := h.within
  rw [← h.drop_eq, List.length_drop]
  omega

theorem At.advance (h : At tokens start (lexeme :: rest)) :
    At tokens { start with cursor := start.cursor + 1 } rest := by
  have hlength := h.length_eq
  rw [List.length_cons] at hlength
  refine ⟨?_, ?_⟩
  · show start.cursor + 1 ≤ tokens.length
    omega
  · show tokens.drop (start.cursor + 1) = rest
    rw [← List.drop_drop, h.drop_eq, List.drop_one, List.tail_cons]

theorem At.tick (h : At tokens start left) :
    At tokens { start with steps := start.steps + 1 } left :=
  ⟨h.within, h.drop_eq⟩

theorem ends_peek_bind (h : At tokens start left) {offset : Nat}
    {next : Nat → Option Token → Run α} :
    Ends (fun limit => peek tokens offset >>= next limit) start post ↔
      Ends (fun limit => next limit (left[offset]?.map Lexeme.token)) start post := by
  rw [← h.drop_eq, List.getElem?_drop]
  exact Iff.rfl

theorem ends_fail (h : At tokens start left) {expected : Expectation}
    (hpost : post (.error (faultAt expected left)) start) :
    Ends (fun _ => fail tokens expected) start post := by
  rw [← h.drop_eq] at hpost
  exact ⟨_, start, 0, fun _ _ => rfl, hpost⟩

theorem ends_atGluedPipe_bind (h : At tokens start left) {next : Nat → Bool → Run α} :
    Ends (fun limit => atGluedPipe tokens >>= next limit) start post ↔
      Ends (fun limit => next limit (Reader.gluedPipe? left).isSome) start post := by
  simp only [atGluedPipe, bind_assoc]
  rw [ends_peek_bind h]
  match left with
  | [] => exact Iff.rfl
  | ⟨token, first, last⟩ :: rest =>
      cases token with
      | pipe =>
          simp only [List.getElem?_cons_zero, Option.map_some, if_true, bind_assoc]
          rw [ends_peek_bind h]
          cases rest with
          | nil => exact Iff.rfl
          | cons other rest =>
              cases hother : other.token.startsPrimary with
              | false => simp [Reader.gluedPipe?, hother]
              | true => simp [Reader.gluedPipe?, hother]
      | _ => exact Iff.rfl

/-! ## What is passed without a step -/

/-- The run succeeds with the value, makes no step and leaves these tokens. -/
def Passes (tokens : List Lexeme) (run : Nat → Run α) (start : State) (value : α)
    (rest : List Lexeme) : Prop :=
  Ends run start fun outcome stop =>
    outcome = .ok value ∧ At tokens stop rest ∧ stop.steps = start.steps

theorem Passes.bind {β : Type} {run : Nat → Run β} {value : β} {next : Nat → β → Run α}
    (h : Passes tokens run start value rest)
    (hnext : ∀ state, At tokens state rest → state.steps = start.steps →
      Ends (fun limit => next limit value) state post) :
    Ends (fun limit => run limit >>= next limit) start post := by
  refine Ends.bind h ?_ ?_
  · rintro value state ⟨⟨⟩, hat, hsteps⟩
    exact hnext state hat hsteps
  · rintro fault state ⟨⟨⟩, -⟩

theorem passes_skipGap (h : At tokens start left) :
    ∃ gap, Grammar.gapNodes gap = (Reader.takeGap left).1 ∧
      Passes tokens (fun _ => skipGap tokens) start gap (Reader.takeGap left).2 := by
  match left with
  | [] => exact ⟨false, rfl, (ends_peek_bind h).2 (ends_pure ⟨rfl, h, rfl⟩)⟩
  | ⟨token, first, last⟩ :: rest =>
      cases token with
      | gap => exact ⟨true, rfl, (ends_peek_bind h).2 (ends_pure ⟨rfl, h.advance, rfl⟩)⟩
      | _ => exact ⟨false, rfl, (ends_peek_bind h).2 (ends_pure ⟨rfl, h, rfl⟩)⟩

theorem passes_pipes (h : At tokens start left) (text : String) :
    Passes tokens (fun limit => pipes tokens limit text) start
      (text ++ (Reader.takePipes left).1) (Reader.takePipes left).2 := by
  induction left generalizing start text with
  | nil =>
      refine ends_of_succ ((ends_peek_bind h).2 (ends_pure ⟨?_, h, rfl⟩))
      simp [Reader.takePipes]
  | cons lexeme rest ih =>
      refine ends_of_succ ((ends_peek_bind h).2 ?_)
      by_cases hpipe : lexeme.token = .pipe
      · have hmore := ih h.advance (text.push '|')
        have htext : text ++ (Reader.takePipes (lexeme :: rest)).1 =
            text.push '|' ++ (Reader.takePipes rest).1 := by
          rw [← String.toList_inj]
          simp [Reader.takePipes, Reader.isPipe, hpipe]
        have hrest : (Reader.takePipes (lexeme :: rest)).2 = (Reader.takePipes rest).2 := by
          simp [Reader.takePipes, Reader.isPipe, hpipe]
        simp only [List.getElem?_cons_zero, Option.map_some, hpipe, if_true]
        rw [htext, hrest, ends_advance_bind]
        exact hmore
      · have htake : Reader.takePipes (lexeme :: rest) = ("", lexeme :: rest) := by
          simp [Reader.takePipes, Reader.isPipe, hpipe]
        simp only [List.getElem?_cons_zero, Option.map_some, Option.some.injEq, hpipe, if_false]
        rw [htake, String.append_empty]
        exact ends_pure ⟨rfl, h, rfl⟩

theorem passes_separator (h : At tokens start left) :
    Passes tokens (separator tokens) start (Reader.takeSeparator left).1
      (Reader.takeSeparator left).2 := by
  refine (ends_peek_bind h).2 ?_
  match left with
  | [] => exact ends_pure ⟨rfl, h, rfl⟩
  | ⟨token, first, last⟩ :: rest =>
      cases token with
      | atom text => exact ends_pure ⟨rfl, h.advance, rfl⟩
      | pipe =>
          refine (passes_pipes h "").bind fun state hat hsteps => ends_pure ⟨?_, hat, hsteps⟩
          rw [String.empty_append]
          rfl
      | _ => exact ends_pure ⟨rfl, h, rfl⟩

end
end Descent
end TacticNotation
