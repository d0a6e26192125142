import TacticNotation.Proofs.Grammar.Check
import TacticNotation.Proofs.Grammar.Descent
import TacticNotation.Proofs.Grammar.Printing

/-!
# Progress of the descent

The descent does what the reader does, and every part of it that succeeds moves
the cursor on.  So it comes to an end, and its steps are paid for by tokens: a
group by the token that opens it, a branch by the pipe before it, and a unit by
the last token of the unit before it, which opens no group.  Where blocks have
been read the cursor is right after a unit; as the lexer makes no two gaps in a
row, all that can follow is a closing brace or the end, with or without a gap.
-/

namespace TacticNotation
namespace Descent

/-! ## The reader -/

theorem takeGap_length (lexemes : List Lexeme) :
    (Reader.takeGap lexemes).2.length ≤ lexemes.length := by
  obtain ⟨present, front, back, htake, -, hsplit, -⟩ := Grammar.takeGap_split lexemes
  have hlength := congrArg List.length hsplit
  rw [List.length_append] at hlength
  rw [htake]
  show back.length ≤ lexemes.length
  omega

theorem takeGap_snd (lexemes : List Lexeme) :
    (Reader.takeGap lexemes).2 = Reader.skipGap lexemes := by
  obtain ⟨present, front, back, htake, hskip, -, -⟩ := Grammar.takeGap_split lexemes
  rw [htake, hskip]

theorem takeSeparator_length (lexemes : List Lexeme) :
    (Reader.takeSeparator lexemes).2.length ≤ lexemes.length := by
  obtain ⟨separator, front, back, htake, rfl, -⟩ := Grammar.takeSeparator_split lexemes
  rw [htake, List.length_append]
  exact Nat.le_add_left _ _

theorem takePipes_length (start stop : Nat) (rest : List Lexeme) :
    (Reader.takePipes (⟨.pipe, start, stop⟩ :: rest)).2.length ≤ rest.length :=
  (List.dropWhile_sublist Reader.isPipe (l := rest)).length_le

/-- Where a glued pipe stands a branch is added. -/
theorem ne_nil_of_moreBranches {inner : Reader.Step Node} {bound : Nat}
    {lexemes after rest : List Lexeme} {branches : List Node}
    (hglued : Reader.gluedPipe? lexemes = some after) (hbound : bound ≠ 0)
    (h : Reader.moreBranches inner bound lexemes = .ok (branches, rest)) : branches ≠ [] := by
  obtain ⟨bound, rfl⟩ := Nat.exists_eq_succ_of_ne_zero hbound
  rw [Reader.moreBranches, hglued] at h
  obtain ⟨⟨branch, middle⟩, -, h⟩ := Grammar.bind_eq_ok_iff.1 h
  obtain ⟨⟨more, final⟩, -, h⟩ := Grammar.bind_eq_ok_iff.1 h
  cases h
  exact List.cons_ne_nil branch more

/-! ## Agreement -/

/-- A run has come to what the reader makes of the tokens.  Where it succeeds the
cursor is at the tokens that the reader leaves, no step has been taken back, and
the steps made and the tokens left are together at most `cap`, with `early` to
spare; where it fails the steps are at most `cap` and `late` more. -/
def Agrees {α : Type} (tokens : List Lexeme) (floor cap early late : Nat)
    (read : Except Fault (α × List Lexeme)) (outcome : Except Fault α) (stop : State) : Prop :=
  match read with
  | .ok (value, rest) => outcome = .ok value ∧ At tokens stop rest ∧ floor ≤ stop.steps ∧
      stop.steps + rest.length + early ≤ cap
  | .error fault => outcome = .error fault ∧ stop.steps ≤ cap + late

/-- The run agrees with a step of the reader wherever at most `size` tokens are
left, and the tokens that are left pay for its steps. -/
def Follows {α : Type} (tokens : List Lexeme) (size : Nat) (run : Nat → Run α)
    (step : Reader.Step α) : Prop :=
  ∀ start left, At tokens start left → left.length ≤ size →
    Ends run start (Agrees tokens start.steps (start.steps + left.length) 1 0 (step left))

section
variable {α : Type} {tokens left : List Lexeme} {start : State} {floor cap early late : Nat}

theorem Agrees.mono {floor' cap' early' late' : Nat} {read : Except Fault (α × List Lexeme)}
    {outcome : Except Fault α} {stop : State}
    (h : Agrees tokens floor' cap' early' late' read outcome stop) (hfloor : floor ≤ floor')
    (hcap : cap' + early ≤ cap + early') (hlate : cap' + late' ≤ cap + late) :
    Agrees tokens floor cap early late read outcome stop := by
  cases read with
  | error fault => exact ⟨h.1, h.2.trans hlate⟩
  | ok p =>
      obtain ⟨houtcome, hat, hsteps, hstop⟩ := h
      exact ⟨houtcome, hat, hfloor.trans hsteps, by omega⟩

/-- A run that goes on as the reader goes on agrees with it to the end. -/
theorem Agrees.bind {β : Type} {run : Nat → Run β} {next : Nat → β → Run α}
    {floor' cap' early' late' : Nat} {read : Except Fault (β × List Lexeme)}
    {follow : β × List Lexeme → Except Fault (α × List Lexeme)}
    (h : Ends run start (Agrees tokens floor' cap' early' late' read))
    (hlate : cap' + late' ≤ cap + late)
    (hnext : ∀ value rest state, At tokens state rest → floor' ≤ state.steps →
      state.steps + rest.length + early' ≤ cap' →
      Ends (fun limit => next limit value) state
        (Agrees tokens floor cap early late (follow (value, rest)))) :
    Ends (fun limit => run limit >>= next limit) start
      (Agrees tokens floor cap early late (read >>= follow)) := by
  refine Ends.bind h ?_ ?_
  · intro value state hagrees
    cases read with
    | error fault => cases hagrees.1
    | ok p =>
        obtain ⟨value', rest⟩ := p
        obtain ⟨⟨⟩, hat, hfloor, hcap⟩ := hagrees
        exact hnext value rest state hat hfloor hcap
  · intro fault state hagrees
    cases read with
    | error fault' =>
        obtain ⟨⟨⟩, hcap⟩ := hagrees
        exact ⟨rfl, hcap.trans hlate⟩
    | ok p => cases hagrees.1

theorem agrees_pure {value : α} (hat : At tokens start left) (hfloor : floor ≤ start.steps)
    (hcap : start.steps + left.length + early ≤ cap) :
    Ends (fun _ => pure value) start (Agrees tokens floor cap early late (.ok (value, left))) :=
  ends_pure ⟨rfl, hat, hfloor, hcap⟩

theorem agrees_fail {expected : Expectation} (hat : At tokens start left)
    (hcap : start.steps ≤ cap + late) :
    Ends (fun _ => fail tokens expected) start
      (Agrees (α := α) tokens floor cap early late (.error (faultAt expected left))) :=
  ends_fail hat ⟨rfl, hcap⟩

/-- A run of pipes is literal text. -/
theorem agrees_pipes {first last : Nat} {rest : List Lexeme}
    (hat : At tokens start (⟨.pipe, first, last⟩ :: rest)) :
    Ends (fun limit => pipes tokens limit "" >>= fun text => pure (Node.atomic text)) start
      (Agrees tokens start.steps (start.steps + (rest.length + 1)) 1 0
        (.ok (Node.atomic (Reader.takePipes (⟨.pipe, first, last⟩ :: rest)).1,
          (Reader.takePipes (⟨.pipe, first, last⟩ :: rest)).2))) := by
  have hlength := takePipes_length first last rest
  have hpipes := passes_pipes hat ""
  rw [String.empty_append] at hpipes
  refine hpipes.bind fun state hat' hsteps => ?_
  exact agrees_pure hat' (Nat.le_of_eq hsteps.symm) (by omega)

/-- The brace that closes a group pays for the group's last step. -/
theorem agrees_close (hat : At tokens start left) :
    Ends (fun _ => close tokens) start
      (Agrees tokens start.steps (start.steps + left.length) 1 0
        (Reader.closeGroup left >>= fun rest => .ok ((), rest))) := by
  refine (ends_peek_bind hat).2 ?_
  match left with
  | [] => exact agrees_fail hat (Nat.le_refl _)
  | ⟨token, first, last⟩ :: rest =>
      cases token with
      | braceClose => exact agrees_pure hat.advance (Nat.le_refl _) (Nat.le_refl _)
      | _ => exact agrees_fail hat (Nat.le_add_right _ _)

end

section
variable {tokens : List Lexeme} {size : Nat} {inner : Reader.Step Node}
  (hinner : Follows tokens size (primary tokens) inner)
include hinner

/-- The loop over branches; each is paid for by the pipe before it. -/
theorem agrees_moreBranches {bound : Nat} {start : State} {left : List Lexeme}
    (branches : List Node) (hat : At tokens start left) (hsize : left.length ≤ size)
    (hbound : left.length ≤ bound) :
    Ends (fun limit => moreBranches tokens limit branches) start
      (Agrees tokens start.steps (start.steps + left.length) 0 0
        (Reader.moreBranches inner bound left >>= fun p => .ok (branches ++ p.1, p.2))) := by
  induction bound generalizing start left branches with
  | zero =>
      have hnil : left = [] := List.length_eq_zero_iff.1 (Nat.le_zero.1 hbound)
      subst hnil
      refine ends_of_succ ((ends_atGluedPipe_bind hat).2 ?_)
      show Ends (fun _ => pure branches) start (Agrees _ _ _ _ _ (.ok (branches ++ [], [])))
      rw [List.append_nil]
      exact agrees_pure hat (Nat.le_refl _) (Nat.le_refl _)
  | succ bound ih =>
      refine ends_of_succ ((ends_atGluedPipe_bind hat).2 ?_)
      rw [Reader.moreBranches]
      rcases Grammar.gluedPipe?_cases left with
        ⟨-, hnone⟩ | ⟨pipe, next, rest, rfl, -, -, hsome⟩
      · rw [hnone]
        show Ends (fun _ => pure branches) start (Agrees _ _ _ _ _ (.ok (branches ++ [], left)))
        rw [List.append_nil]
        exact agrees_pure hat (Nat.le_refl _) (Nat.le_refl _)
      · rw [List.length_cons] at hsize hbound
        simp only [hsome, Option.isSome_some, if_true]
        rw [ends_tick_bind, ends_advance_bind, bind_assoc, List.length_cons]
        refine Agrees.bind (hinner _ _ hat.tick.advance (by omega)) (by simp only; omega) ?_
        intro branch rest' state hat' hfloor hcap
        simp only at hfloor hcap
        have hmore := ih (branches ++ [branch]) hat' (by omega) (by omega)
        simp only [bind_assoc]
        refine hmore.mono fun outcome stop hagrees => ?_
        simp only [List.append_assoc, List.singleton_append] at hagrees
        exact hagrees.mono (by omega) (by omega) (by omega)

/-- What a unit is after its first primary. -/
theorem agrees_alternative {start : State} {left : List Lexeme} (first : Node)
    (hat : At tokens start left) (hsize : left.length ≤ size) :
    Ends (fun limit => atGluedPipe tokens >>= fun glued =>
        if glued then
          moreBranches tokens limit [first] >>= fun branches => pure (.alternative branches)
        else pure first) start
      (Agrees tokens start.steps (start.steps + left.length) 0 0
        (Reader.moreBranches inner left.length left >>= fun q =>
          .ok (if q.1 = [] then first else .alternative (first :: q.1), q.2))) := by
  rw [ends_atGluedPipe_bind hat]
  rcases Grammar.gluedPipe?_cases left with ⟨hpipe, hnone⟩ | ⟨pipe, next, rest, hleft, -, -, hsome⟩
  · rw [hnone, Grammar.moreBranches_stop hpipe]
    exact agrees_pure hat (Nat.le_refl _) (Nat.le_refl _)
  · have hmore := agrees_moreBranches hinner [first] hat hsize (Nat.le_refl _)
    have hbound : left.length ≠ 0 := by simp [hleft]
    -- There is a second branch, so what has been read is no single primary.
    have hread : (Reader.moreBranches inner left.length left >>= fun q =>
          .ok (if q.1 = [] then first else .alternative (first :: q.1), q.2)) =
        (Reader.moreBranches inner left.length left >>= fun q => .ok ([first] ++ q.1, q.2)) >>=
          fun q => .ok (.alternative q.1, q.2) := by
      cases hbranches : Reader.moreBranches inner left.length left with
      | error fault => rfl
      | ok q =>
          have hne : q.1 ≠ [] := ne_nil_of_moreBranches hsome hbound hbranches
          show Except.ok (if q.1 = [] then first else Node.alternative (first :: q.1), q.2) = _
          rw [if_neg hne]
          rfl
    simp only [hsome, Option.isSome_some, if_true]
    rw [hread]
    refine Agrees.bind hmore (Nat.le_refl _) ?_
    intro branches rest' state hat' hfloor hcap
    exact agrees_pure hat' hfloor hcap

theorem follows_unit : Follows tokens size (unit tokens) (Reader.unit inner) := by
  intro start left hat hsize
  refine ends_of_succ ((ends_peek_bind hat).2 ?_)
  by_cases hpipe : left[0]?.map Lexeme.token = some .pipe
  · simp only [hpipe, if_true]
    match left with
    | ⟨.pipe, first, last⟩ :: rest =>
        exact agrees_pipes hat
  · have hhead : (left.map Lexeme.token).head? ≠ some .pipe := by
      rwa [List.head?_map, List.head?_eq_getElem?]
    simp only [hpipe, if_false]
    rw [Grammar.unit_of_not_pipe hhead]
    refine Agrees.bind (hinner start left hat hsize) (Nat.le_refl _) ?_
    intro first rest state hat' hfloor hcap
    have hmore := agrees_alternative hinner first hat' (by omega)
    refine hmore.mono fun outcome stop hagrees => ?_
    exact hagrees.mono hfloor (by omega) (by omega)

/-- The loop over units; each is paid for by the last token of the unit before
it, and that of the first one is not among these tokens. -/
theorem agrees_moreBlocks {bound : Nat} {start : State} {left : List Lexeme}
    (nodes : List Node) (hat : At tokens start left) (hsize : left.length ≤ size)
    (hbound : left.length ≤ bound) :
    Ends (fun limit => moreBlocks tokens limit nodes) start
      (Agrees tokens start.steps (start.steps + left.length) 0 1
        (Reader.moreBlocks inner bound left >>= fun p => .ok (nodes ++ p.1, p.2))) := by
  induction bound generalizing start left nodes with
  | zero =>
      have hnil : left = [] := List.length_eq_zero_iff.1 (Nat.le_zero.1 hbound)
      subst hnil
      refine ends_of_succ ((ends_peek_bind hat).2 ((ends_peek_bind hat).2 ?_))
      show Ends (fun _ => pure nodes) start (Agrees _ _ _ _ _ (.ok (nodes ++ [], [])))
      rw [List.append_nil]
      exact agrees_pure hat (Nat.le_refl _) (Nat.le_refl _)
  | succ bound ih =>
      have hahead : (left[if left[0]?.map Lexeme.token = some .gap then 1 else 0]?.map
          Lexeme.token).any Token.startsUnit = Reader.atUnit (Reader.takeGap left).2 := by
        match left with
        | [] => rfl
        | ⟨token, first, last⟩ :: [] => cases token <;> rfl
        | ⟨token, first, last⟩ :: next :: rest => cases token <;> rfl
      refine ends_of_succ ((ends_peek_bind hat).2 ((ends_peek_bind hat).2 ?_))
      rw [Reader.moreBlocks]
      simp only [hahead]
      cases hunit : Reader.atUnit (Reader.takeGap left).2 with
      | false =>
          show Ends (fun _ => pure nodes) start (Agrees _ _ _ _ _ (.ok (nodes ++ [], left)))
          rw [List.append_nil]
          exact agrees_pure hat (Nat.le_refl _) (Nat.le_refl _)
      | true =>
          obtain ⟨gap, hgap, hskip⟩ := passes_skipGap hat.tick
          have hlength := takeGap_length left
          simp only [if_true]
          rw [ends_tick_bind, bind_assoc]
          refine hskip.bind fun state hat₁ hsteps => ?_
          simp only at hsteps
          refine Agrees.bind (follows_unit hinner state _ hat₁ (by omega)) (by omega) ?_
          intro node rest state' hat₂ hfloor hcap
          have hmore := ih (nodes ++ Grammar.gapNodes gap ++ [node]) hat₂ (by omega) (by omega)
          simp only [bind_assoc]
          refine hmore.mono fun outcome stop hagrees => ?_
          rw [hgap] at hagrees
          simp only [List.append_assoc, List.singleton_append] at hagrees
          exact hagrees.mono (by omega) (by omega) (by omega)

theorem follows_blocks : Follows tokens size (blocks tokens) (Reader.blocks inner) := by
  intro start left hat hsize
  refine ends_of_succ ?_
  refine Agrees.bind (follows_unit hinner start left hat hsize) (Nat.le_refl _) ?_
  intro first rest state hat' hfloor hcap
  have hmore := agrees_moreBlocks hinner [first] hat' (by omega) (Nat.le_refl _)
  refine hmore.mono fun outcome stop hagrees => ?_
  exact hagrees.mono hfloor (by omega) (by omega)

/-- The inside of a group, from the first token of its body to its closing brace.
The group is made of the body and the gap at its end. -/
theorem agrees_inside (group : List Node → List Node → Node) {start : State}
    {left : List Lexeme} (hat : At tokens start left) (hsize : left.length ≤ size) :
    Ends (fun limit => do
        let body ← blocks tokens limit
        let after ← skipGap tokens
        close tokens
        return group body (Grammar.gapNodes after)) start
      (Agrees tokens start.steps (start.steps + left.length) 1 0
        (Reader.blocks inner left >>= fun p =>
          Reader.closeGroup (Reader.takeGap p.2).2 >>= fun rest =>
            .ok (group p.1 (Reader.takeGap p.2).1, rest))) := by
  refine Agrees.bind (follows_blocks hinner start left hat hsize) (Nat.le_refl _) ?_
  intro body rest state hat₁ hfloor hcap
  obtain ⟨after, hafter, hskip⟩ := passes_skipGap hat₁
  have hlength := takeGap_length rest
  refine hskip.bind fun state' hat₂ hsteps => ?_
  have hread : (Reader.closeGroup (Reader.takeGap rest).2 >>= fun rest' =>
        .ok (group body (Reader.takeGap rest).1, rest')) =
      (Reader.closeGroup (Reader.takeGap rest).2 >>= fun rest' => .ok ((), rest')) >>=
        fun q => .ok (group body (Reader.takeGap rest).1, q.2) := by
    rw [bind_assoc]
    rfl
  rw [hread, hafter]
  refine Agrees.bind (agrees_close hat₂) (by omega) ?_
  intro _ rest' state'' hat₃ hfloor' hcap'
  exact agrees_pure hat₃ (by omega) (by simp only; omega)

theorem follows_repetition (marker : Marker) :
    Follows tokens size (fun limit => repetition tokens limit marker)
      (Reader.repetition inner marker) := by
  intro start left hat hsize
  have hread : Reader.repetition inner marker left =
      Reader.blocks inner (Reader.takeGap (Reader.takeSeparator left).2).2 >>= fun p =>
        Reader.closeGroup (Reader.takeGap p.2).2 >>= fun rest =>
          .ok (.repetition marker (Reader.takeSeparator left).1 p.1, rest) := by
    simp only [takeGap_snd]
    rfl
  have hlength := takeSeparator_length left
  have hlength' := takeGap_length (Reader.takeSeparator left).2
  refine ends_of_succ ?_
  refine (passes_separator hat).bind fun state hat₁ hsteps => ?_
  obtain ⟨gap, -, hskip⟩ := passes_skipGap hat₁
  refine hskip.bind fun state' hat₂ hsteps' => ?_
  have hinside := agrees_inside hinner
    (fun body _ => .repetition marker (Reader.takeSeparator left).1 body) hat₂ (by omega)
  rw [hread]
  refine hinside.mono fun outcome stop hagrees => ?_
  exact hagrees.mono (by omega) (by omega) (by omega)

theorem follows_curlies : Follows tokens size (curlies tokens) (Reader.curlies inner) := by
  intro start left hat hsize
  have hlength := takeGap_length left
  obtain ⟨gap, hgap, hskip⟩ := passes_skipGap hat
  refine ends_of_succ ?_
  refine hskip.bind fun state hat₁ hsteps => ?_
  have hinside := agrees_inside hinner
    (fun body after => .curlies (Grammar.gapNodes gap ++ body ++ after)) hat₁ (by omega)
  rw [hgap] at hinside
  rw [hgap]
  refine hinside.mono fun outcome stop hagrees => ?_
  exact hagrees.mono (by omega) (by omega) (by omega)

/-- A group is paid for by the token that opens it, and what is inside is one
token shorter. -/
theorem follows_primaryStep :
    Follows tokens (size + 1) (primary tokens) (Reader.primaryStep inner) := by
  intro start left hat hsize
  refine ends_of_succ ((ends_peek_bind hat).2 ?_)
  match left with
  | [] => exact agrees_fail hat (Nat.le_refl _)
  | ⟨token, first, last⟩ :: rest =>
      rw [List.length_cons] at hsize ⊢
      cases token with
      | atom text => exact agrees_pure hat.advance (Nat.le_refl _) (Nat.le_refl _)
      | hole id => exact agrees_pure hat.advance (Nat.le_refl _) (Nat.le_refl _)
      | repeatOpen marker =>
          have hgroup := follows_repetition hinner marker _ rest hat.tick.advance (by omega)
          refine hgroup.mono fun outcome stop hagrees => ?_
          exact hagrees.mono (by simp only; omega) (by simp only; omega) (by simp only; omega)
      | braceOpen =>
          have hgroup := follows_curlies hinner _ rest hat.tick.advance (by omega)
          refine hgroup.mono fun outcome stop hagrees => ?_
          exact hagrees.mono (by simp only; omega) (by simp only; omega) (by simp only; omega)
      | pipe => exact agrees_pipes hat
      | braceClose => exact agrees_fail hat (by omega)
      | gap => exact agrees_fail hat (by omega)

end

theorem follows_primary (tokens : List Lexeme) (depth : Nat) :
    Follows tokens depth (primary tokens) (Reader.primary depth) := by
  induction depth with
  | zero =>
      intro start left hat hsize
      have hnil : left = [] := List.length_eq_zero_iff.1 (Nat.le_zero.1 hsize)
      subst hnil
      exact ends_of_succ ((ends_peek_bind hat).2 (agrees_fail hat (Nat.le_refl _)))
  | succ depth ih => exact follows_primaryStep ih

/-! ## Where blocks end -/

/-- Units after the first are none, or the last of them ends where they end. -/
theorem exists_last_of_moreBlocks {inner : Reader.Step Node} (hinner : Grammar.Faithful inner)
    {bound : Nat} {lexemes rest : List Lexeme} {nodes : List Node}
    (h : Reader.moreBlocks inner bound lexemes = .ok (nodes, rest)) :
    nodes = [] ∧ rest = lexemes ∨
      ∃ front node last, nodes = front ++ [node] ∧ last <:+ lexemes ∧
        Reader.unit inner last = .ok (node, rest) := by
  induction bound generalizing lexemes nodes with
  | zero =>
      cases h
      exact Or.inl ⟨rfl, rfl⟩
  | succ bound ih =>
      obtain ⟨present, gap, after, htake, -, hsplit, -⟩ := Grammar.takeGap_split lexemes
      rw [Reader.moreBlocks, htake] at h
      cases hahead : Reader.atUnit after with
      | false =>
          simp only [hahead, Bool.false_eq_true, if_false] at h
          cases h
          exact Or.inl ⟨rfl, rfl⟩
      | true =>
          simp only [hahead, if_true] at h
          obtain ⟨⟨node, middle⟩, hnode, h⟩ := Grammar.bind_eq_ok_iff.1 h
          obtain ⟨⟨more, final⟩, hmore, h⟩ := Grammar.bind_eq_ok_iff.1 h
          cases h
          have hafter : after <:+ lexemes := ⟨gap, hsplit.symm⟩
          refine Or.inr ?_
          rcases ih hmore with ⟨rfl, rfl⟩ | ⟨front, node', last, rfl, hlast, hunit⟩
          · exact ⟨_, node, after, rfl, hafter, hnode⟩
          · obtain ⟨taken, htaken, -⟩ := Grammar.taken_unit hinner hnode
            have hmiddle : middle <:+ after := ⟨taken, htaken.symm⟩
            refine ⟨Grammar.gapNodes present ++ node :: front, node', last, ?_,
              hlast.trans (hmiddle.trans hafter), hunit⟩
            rw [List.append_assoc, List.cons_append]

/-- The last node of some blocks is that of a unit that ends where they end. -/
theorem exists_last_of_blocks {inner : Reader.Step Node} (hinner : Grammar.Faithful inner)
    {lexemes rest : List Lexeme} {nodes : List Node}
    (h : Reader.blocks inner lexemes = .ok (nodes, rest)) :
    ∃ front node last, nodes = front ++ [node] ∧ last <:+ lexemes ∧
      Reader.unit inner last = .ok (node, rest) := by
  obtain ⟨⟨first, middle⟩, hfirst, h⟩ := Grammar.bind_eq_ok_iff.1 h
  obtain ⟨⟨more, final⟩, hmore, h⟩ := Grammar.bind_eq_ok_iff.1 h
  cases h
  obtain ⟨taken, htaken, -⟩ := Grammar.taken_unit hinner hfirst
  have hmiddle : middle <:+ lexemes := ⟨taken, htaken.symm⟩
  rcases exists_last_of_moreBlocks hinner hmore with
    ⟨rfl, rfl⟩ | ⟨front, node, last, rfl, hlast, hunit⟩
  · exact ⟨[], first, lexemes, rfl, List.suffix_refl _, hfirst⟩
  · exact ⟨first :: front, node, last, rfl, hlast.trans hmiddle, hunit⟩

/-- The blocks that were read from `start` on have ended right after a unit, and
nothing goes on from there but the end of a group or of the tokens. -/
structure StopsAfterUnit (tokens : List Lexeme) (start stop : State) (nodes : List Node) : Prop
    where
  /-- The last node is that of a unit that has been read up to the cursor. -/
  after_unit : ∃ middle front node, nodes = front ++ [node] ∧
    start.cursor ≤ middle.cursor ∧ middle.cursor < stop.cursor ∧
      Ends (unit tokens) middle fun outcome state =>
        outcome = .ok node ∧ state.cursor = stop.cursor
  /-- The last token that has been passed is no gap. -/
  not_after_gap : ((tokens.take stop.cursor).map Lexeme.token).getLast? ≠ some .gap
  /-- A brace closes here, or the tokens end, with or without a gap before. -/
  before_close : Reader.skipGap (tokens.drop stop.cursor) = [] ∨
    ∃ first last rest, Reader.skipGap (tokens.drop stop.cursor) = ⟨.braceClose, first, last⟩ :: rest

theorem At.of_suffix {tokens left : List Lexeme} (h : left <:+ tokens) :
    At tokens ⟨tokens.length - left.length, 0⟩ left :=
  ⟨Nat.sub_le _ _, (List.suffix_iff_eq_drop.1 h).symm⟩

theorem At.suffix {tokens left : List Lexeme} {state : State} (h : At tokens state left) :
    left <:+ tokens := by
  rw [← h.drop_eq]
  exact List.drop_suffix _ _

theorem stopsAfterUnit {tokens left rest : List Lexeme} {start stop : State} {nodes : List Node}
    {depth : Nat} (hspaced : Grammar.Spaced tokens) (hat : At tokens start left)
    (hdepth : left.length ≤ depth) (hstop : At tokens stop rest)
    (h : Reader.blocks (Reader.primary depth) left = .ok (nodes, rest)) :
    StopsAfterUnit tokens start stop nodes := by
  have hstart := hat.length_eq
  have hend := hstop.length_eq
  have hfaithful := Grammar.faithful_primary depth
  obtain ⟨taken, rfl, hderives⟩ := Grammar.taken_blocks hfaithful h
  refine ⟨?_, ?_, ?_⟩
  · obtain ⟨front, node, last, hnodes, hlast, hunit⟩ := exists_last_of_blocks hfaithful h
    have hmiddle := At.of_suffix (hlast.trans hat.suffix)
    have hlength := hlast.length_le
    have hcursor := hmiddle.length_eq
    have hshorter := (Grammar.taken_unit hfaithful hunit).length_lt (Or.inr (Or.inl rfl))
    have hends := follows_unit (follows_primary tokens depth) _ last hmiddle (by omega)
    rw [hunit] at hends
    simp only at hcursor
    refine ⟨⟨tokens.length - last.length, 0⟩, front, node, hnodes, ?_, ?_, ?_⟩
    · show start.cursor ≤ tokens.length - last.length
      omega
    · show tokens.length - last.length < stop.cursor
      omega
    · refine hends.mono fun outcome state hagrees => ?_
      obtain ⟨houtcome, hat', -, -⟩ := hagrees
      have hstate := hat'.length_eq
      exact ⟨houtcome, by omega⟩
  · have htake : tokens.take stop.cursor = tokens.take start.cursor ++ taken := by
      have hsplit := List.take_append_drop start.cursor tokens
      rw [hat.drop_eq, ← List.append_assoc] at hsplit
      have hlength : (tokens.take start.cursor ++ taken).length = stop.cursor := by
        have htotal := congrArg List.length hsplit
        rw [List.length_append] at htotal
        omega
      rw [← hlength]
      nth_rewrite 2 [← hsplit]
      exact List.take_left
    have hne : taken.map Lexeme.token ≠ [] := hderives.ne_nil (Or.inr (Or.inr rfl))
    rw [htake, List.map_append, List.getLast?_append_of_ne_nil _ hne]
    exact hderives.getLast?_ne_gap
  · have hspaced' : Grammar.Spaced (tokens.take stop.cursor ++ tokens.drop stop.cursor) := by
      rwa [List.take_append_drop]
    have hahead := hderives.blocks_stop
    rw [← hstop.drop_eq] at hahead
    exact hspaced'.right.skipGap_cases hahead

/-! ## Whole notations -/

/-- After its blocks a notation has to end, with or without a gap. -/
theorem ends_finish {tokens left : List Lexeme} {start : State} {nodes : List Node}
    {post : Except Fault (List Node) → State → Prop} (hat : At tokens start left)
    (hnil : Reader.skipGap left = [] → ∀ stop, stop.steps = start.steps → post (.ok nodes) stop)
    (hcons : ∀ lexeme rest, Reader.skipGap left = lexeme :: rest →
      ∀ stop, stop.steps = start.steps → post (.error (.unexpected lexeme .finish)) stop) :
    Ends (fun _ => do
        let _ ← skipGap tokens
        if (← peek tokens 0) = none then
          return nodes
        else
          fail tokens .finish) start post := by
  obtain ⟨gap, -, hskip⟩ := passes_skipGap hat
  rw [takeGap_snd] at hskip
  refine hskip.bind fun state hat' hsteps => (ends_peek_bind hat').2 ?_
  cases hleft : Reader.skipGap left with
  | nil => exact ends_pure (hnil hleft state hsteps)
  | cons lexeme rest =>
      rw [hleft] at hat'
      exact ends_fail hat' (hcons lexeme rest hleft state hsteps)

/-- The descent as a whole comes to what the reader comes to, in no more steps than
there are tokens. -/
theorem ends_root (tokens : List Lexeme) :
    Ends (root tokens) ⟨0, 0⟩ fun outcome stop =>
      outcome = Reader.root tokens ∧ stop.steps ≤ tokens.length := by
  have hat : At tokens ⟨0, 0⟩ tokens := ⟨Nat.zero_le _, rfl⟩
  have hlength := takeGap_length tokens
  obtain ⟨gap, -, hskip⟩ := passes_skipGap hat
  rw [takeGap_snd] at hskip hlength
  refine hskip.bind fun state hat₁ hsteps => (ends_peek_bind hat₁).2 ?_
  simp only at hsteps
  cases hleft : Reader.skipGap tokens with
  | nil =>
      have hroot : Reader.root tokens = .error .empty := by rw [Reader.root, hleft]
      exact ends_throw ⟨hroot.symm, by omega⟩
  | cons first rest =>
      rw [hleft] at hat₁ hlength
      have hblocks := follows_blocks (follows_primary tokens (first :: rest).length) state _ hat₁
        (Nat.le_refl _)
      simp only [List.getElem?_cons_zero, Option.map_some, reduceCtorEq, if_false]
      cases hread : Reader.blocks (Reader.primary (first :: rest).length) (first :: rest) with
      | error fault =>
          have hroot : Reader.root tokens = .error fault := by
            rw [Reader.root, hleft]
            exact Grammar.bind_eq_error_iff.2 (Or.inl hread)
          rw [hread] at hblocks
          refine Ends.bind hblocks ?_ ?_
          · rintro nodes state' ⟨⟨⟩, -⟩
          · rintro fault' state' ⟨⟨⟩, hcap⟩
            exact ⟨hroot.symm, by omega⟩
      | ok p =>
          obtain ⟨nodes, after⟩ := p
          rw [hread] at hblocks
          refine Ends.bind hblocks ?_ ?_
          · rintro nodes' state' ⟨⟨⟩, hat₂, -, hcap⟩
            refine ends_finish hat₂ ?_ ?_
            · intro hafter stop hstop
              have hroot : Reader.root tokens = .ok nodes := by
                rw [Reader.root, hleft]
                exact Grammar.bind_eq_ok_iff.2 ⟨_, hread, by simp only [hafter]⟩
              exact ⟨hroot.symm, by omega⟩
            · intro lexeme more hafter stop hstop
              have hroot : Reader.root tokens = .error (.unexpected lexeme .finish) := by
                rw [Reader.root, hleft]
                exact Grammar.bind_eq_error_iff.2 (Or.inr ⟨_, hread, by simp only [hafter]⟩)
              exact ⟨hroot.symm, by omega⟩
          · rintro fault' state' ⟨⟨⟩, -⟩

/-! ## Progress and stopping -/

/-- A run from `start` on has come to what a step of the reader makes of the tokens
that were left, in at most as many steps as there were tokens left.  If it has
succeeded it has moved on, is within the tokens still, and has made fewer steps
than it has passed tokens. -/
def Advanced {α : Type} (tokens : List Lexeme) (step : Reader.Step α) (start : State)
    (outcome : Except Fault α) (stop : State) : Prop :=
  stop.steps ≤ start.steps + (tokens.length - start.cursor) ∧
    match step (tokens.drop start.cursor) with
    | .ok (value, rest) => outcome = .ok value ∧ rest = tokens.drop stop.cursor ∧
        start.cursor < stop.cursor ∧ stop.cursor ≤ tokens.length ∧
        stop.steps - start.steps < stop.cursor - start.cursor
    | .error fault => outcome = .error fault

theorem Agrees.advanced {α : Type} {tokens left : List Lexeme} {step : Reader.Step α}
    {start stop : State} {outcome : Except Fault α} (hat : At tokens start left)
    (h : Agrees tokens start.steps (start.steps + left.length) 1 0 (step left) outcome stop) :
    Advanced tokens step start outcome stop := by
  have hstart := hat.length_eq
  rw [Advanced, hat.drop_eq]
  cases hread : step left with
  | error fault =>
      rw [hread] at h
      exact ⟨h.2.trans (by omega), h.1⟩
  | ok p =>
      obtain ⟨value, rest⟩ := p
      rw [hread] at h
      obtain ⟨houtcome, hat', hfloor, hcap⟩ := h
      have hstop := hat'.length_eq
      exact ⟨by omega, houtcome, hat'.drop_eq.symm, by omega, by omega, by omega⟩

/-- Over the tokens of a text the descent comes to an end wherever it starts, with
the outcome that the reader has and in at most as many steps as there are tokens
left.  Whatever it reads moves the cursor on.  Blocks end right after a unit, before
a closing brace or the end of the tokens, with at most one gap in between. -/
theorem advances_and_stops {source : String} {tokens : List Lexeme}
    (hlex : lex source = .ok tokens) :
    (Ends (root tokens) ⟨0, 0⟩ fun outcome stop =>
      outcome = Reader.root tokens ∧ stop.steps ≤ tokens.length) ∧
    ∀ start : State, start.cursor ≤ tokens.length → ∀ depth ≥ tokens.length - start.cursor,
      Ends (primary tokens) start (Advanced tokens (Reader.primary depth) start) ∧
      Ends (unit tokens) start (Advanced tokens (Reader.unit (Reader.primary depth)) start) ∧
      Ends (blocks tokens) start fun outcome stop =>
        Advanced tokens (Reader.blocks (Reader.primary depth)) start outcome stop ∧
          ∀ nodes, outcome = .ok nodes → StopsAfterUnit tokens start stop nodes := by
  refine ⟨ends_root tokens, ?_⟩
  intro start hcursor depth hdepth
  have hprimary := follows_primary tokens depth
  have hspaced := Grammar.spaced_of_apart (apart_of_lex hlex)
  have hat : At tokens start (tokens.drop start.cursor) := ⟨hcursor, rfl⟩
  have hsize : (tokens.drop start.cursor).length ≤ depth := by rwa [List.length_drop]
  refine ⟨?_, ?_, ?_⟩
  · exact (hprimary start _ hat hsize).mono fun _ _ h => h.advanced hat
  · exact (follows_unit hprimary start _ hat hsize).mono fun _ _ h => h.advanced hat
  · refine (follows_blocks hprimary start _ hat hsize).mono fun outcome stop h => ?_
    refine ⟨h.advanced hat, ?_⟩
    rintro nodes rfl
    cases hread : Reader.blocks (Reader.primary depth) (tokens.drop start.cursor) with
    | error fault =>
        rw [hread] at h
        cases h.1
    | ok p =>
        obtain ⟨nodes', rest⟩ := p
        rw [hread] at h
        obtain ⟨⟨⟩, hstop, -, -⟩ := h
        exact stopsAfterUnit hspaced hat hsize hstop hread

/-- A brace that closes no group: the units before it are read up to the gap in front
of it, and the whole is no notation. -/
theorem advances_and_stops_stray_brace :
    ∃ tokens nodes, lex "\x7ba\x7d|b c \x7d" = .ok tokens ∧ tokens.length = 9 ∧
      nodes = [.alternative [.curlies [.atomic "a"], .atomic "b"], .whitespace, .atomic "c"] ∧
      (Ends (root tokens) ⟨0, 0⟩ fun outcome stop =>
        outcome = .error (.unexpected ⟨.braceClose, 8, 9⟩ .finish) ∧ stop.steps ≤ 9) ∧
      Ends (blocks tokens) ⟨0, 0⟩ fun outcome stop =>
        outcome = .ok nodes ∧ stop.cursor = 7 ∧ stop.steps < 7 ∧
          StopsAfterUnit tokens ⟨0, 0⟩ stop nodes := by
  have hlex : lex "\x7ba\x7d|b c \x7d" =
      .ok [⟨.braceOpen, 0, 1⟩, ⟨.atom "a", 1, 2⟩, ⟨.braceClose, 2, 3⟩, ⟨.pipe, 3, 4⟩,
        ⟨.atom "b", 4, 5⟩, ⟨.gap, 5, 6⟩, ⟨.atom "c", 6, 7⟩, ⟨.gap, 7, 8⟩,
        ⟨.braceClose, 8, 9⟩] := by decide +kernel
  obtain ⟨hroot, hall⟩ := advances_and_stops hlex
  obtain ⟨-, -, hblocks⟩ := hall ⟨0, 0⟩ (Nat.zero_le _) 9 (by decide)
  refine ⟨_, _, hlex, rfl, rfl, hroot, hblocks.mono ?_⟩
  rintro outcome stop ⟨⟨-, houtcome, hrest, -, hwithin, hsteps⟩, hstops⟩
  have hcursor : stop.cursor = 7 := by
    have hlength := congrArg List.length hrest
    rw [List.length_drop] at hlength
    simp only [List.length_cons, List.length_nil] at hlength hwithin
    omega
  rw [hcursor] at hsteps
  exact ⟨houtcome, hcursor, hsteps, hstops _ houtcome⟩

end Descent
end TacticNotation
