import TacticNotation.Proofs.Pattern.Reach

/-!
# The preferred match

`prefer` goes forward through a pattern and says where the match ends that is
preferred among those that end at a goal.  Which of them it prefers is not said
here, only what any choice has to meet (`Picks`): the end is that of a span up to
a goal, and where there is such a span an end is found.  No choice is taken back,
so at every choice `prefer` relies on `reaching`: a way on that still reaches a
goal always leads to one.

The loop of a repetition moves ahead with each round.  When no round is left that
does, it stands at a goal: a way on from there would have to start with a round
that moves ahead.
-/

namespace TacticNotation
namespace Pattern

open Relation (ReflTransGen)

/-! ## Picking ends -/

/-- A way to pick, for each set of goals, the end of a move from a position: what
is picked is a goal that a move leads to, and where a move leads to a goal one is
picked. -/
structure Picks (length : Nat) (move : Nat → Nat → Prop) (pick : Nat → Nat → Option Nat) :
    Prop where
  sound : ∀ goals i j, pick goals i = some j → goals.testBit j = true ∧ move i j
  found : ∀ goals, Within length goals → ∀ i j, goals.testBit j = true → move i j →
    ∃ stop, pick goals i = some stop

section
variable {length : Nat} {move move' : Nat → Nat → Prop} {pick pick' : Nat → Nat → Option Nat}

theorem Picks.congr (h : Picks length move pick) (hmove : ∀ i j, move' i j ↔ move i j)
    (hpick : ∀ goals i, pick' goals i = pick goals i) : Picks length move' pick' := by
  constructor
  · intro goals i j hj
    rw [hpick] at hj
    rw [hmove]
    exact h.sound goals i j hj
  · intro goals hgoals i j hgoal hj
    rw [hpick]
    exact h.found goals hgoals i j hgoal ((hmove i j).1 hj)

/-- To pick the position itself is to stay, if the position passes a test. -/
theorem picks_stay (length : Nat) (test : Nat → Bool) :
    Picks length (fun i j => test i = true ∧ i = j)
      fun goals i => if test i && goals.testBit i then some i else none := by
  constructor
  · intro goals i j h
    obtain ⟨hpass, hj⟩ := Option.ite_none_right_eq_some.1 h
    obtain ⟨htest, hgoal⟩ := Bool.and_eq_true_iff.1 hpass
    cases hj
    exact ⟨hgoal, htest, rfl⟩
  · rintro goals - i j hgoal ⟨htest, rfl⟩
    exact ⟨i, if_pos (by rw [htest, hgoal]; rfl)⟩

/-- Where the one way leads to no goal the other is taken. -/
theorem Picks.orElse (h : Picks length move pick) (h' : Picks length move' pick') :
    Picks length (fun i j => move i j ∨ move' i j)
      fun goals i => (pick goals i).or (pick' goals i) := by
  constructor
  · intro goals i j hj
    rcases Option.or_eq_some_iff.1 hj with hj | ⟨-, hj⟩
    · obtain ⟨hgoal, hmove⟩ := h.sound goals i j hj
      exact ⟨hgoal, Or.inl hmove⟩
    · obtain ⟨hgoal, hmove⟩ := h'.sound goals i j hj
      exact ⟨hgoal, Or.inr hmove⟩
  · intro goals hgoals i j hgoal hmove
    cases hstop : pick goals i with
    | some stop => exact ⟨stop, Option.some_or⟩
    | none =>
        rcases hmove with hmove | hmove
        · obtain ⟨stop, hfound⟩ := h.found goals hgoals i j hgoal hmove
          rw [hstop] at hfound
          cases hfound
        · exact h'.found goals hgoals i j hgoal hmove

/-- Of two ways one after the other the first is taken to where the second can
start. -/
theorem Picks.andThen {start : Nat → Nat} (h : Picks length move pick)
    (h' : Picks length move' pick') (hstart : Steps length move' start)
    (forward : ∀ i j, move' i j → i ≤ j) :
    Picks length (fun i j => ∃ k, move i k ∧ move' k j)
      fun goals i => (pick (start goals) i).bind (pick' goals) := by
  constructor
  · intro goals i j hj
    obtain ⟨k, hk, hj⟩ := Option.bind_eq_some_iff.1 hj
    obtain ⟨hgoal, hmove'⟩ := h'.sound goals k j hj
    exact ⟨hgoal, k, (h.sound _ i k hk).2, hmove'⟩
  · rintro goals hgoals i j hgoal ⟨k, hmove, hmove'⟩
    have hk := (hstart goals hgoals k).2 ⟨j, hgoal, hmove'⟩
    obtain ⟨next, hnext⟩ := h.found _ (hstart.within forward hgoals) i k hk hmove
    -- The second way need not lead to the same goal from there, but it leads to one.
    obtain ⟨goal, hgoal', hmore⟩ := (hstart goals hgoals next).1 (h.sound _ i next hnext).1
    obtain ⟨stop, hstop⟩ := h'.found goals hgoals next goal hgoal' hmore
    exact ⟨stop, by rw [hnext, Option.bind_some, hstop]⟩

end

theorem testBit_after (set position i : Nat) :
    (after set position).testBit i = true ↔ position < i ∧ set.testBit i = true := by
  unfold after
  rw [Nat.testBit_shiftLeft, Nat.testBit_shiftRight, Bool.and_eq_true, decide_eq_true_eq]
  constructor
  · rintro ⟨hle, hbit⟩
    rw [Nat.add_sub_cancel' hle] at hbit
    exact ⟨hle, hbit⟩
  · rintro ⟨hlt, hbit⟩
    refine ⟨hlt, ?_⟩
    rwa [Nat.add_sub_cancel' hlt]

/-! ## Rounds that move ahead -/

section
variable {step : Nat → Option Nat}

/-- What the rounds keep holds where they end. -/
theorem furthest_induct {motive : Nat → Prop}
    (hstep : ∀ i j, motive i → step i = some j → motive j) (bound : Nat) {position : Nat}
    (hposition : motive position) : motive (furthest step bound position) := by
  induction bound generalizing position with
  | zero => exact hposition
  | succ bound ih =>
      rw [furthest]
      cases hnext : step position with
      | none => exact hposition
      | some next => exact ih (hstep position next hposition hnext)

/-- Rounds that move ahead within a text come to an end by themselves. -/
theorem step_furthest {length : Nat} (ahead : ∀ i j, step i = some j → i < j ∧ j ≤ length)
    (bound position : Nat) (hbound : length < position + bound) :
    step (furthest step bound position) = none := by
  induction bound generalizing position with
  | zero =>
      rw [furthest]
      cases hnext : step position with
      | none => rfl
      | some next =>
          obtain ⟨hlt, hle⟩ := ahead position next hnext
          omega
  | succ bound ih =>
      rw [furthest]
      cases hnext : step position with
      | none => exact hnext
      | some next =>
          obtain ⟨hlt, -⟩ := ahead position next hnext
          exact ih next (by omega)

end

/-- Moves that lead elsewhere have one among them that is the first to move
ahead. -/
theorem exists_move_ahead {move : Nat → Nat → Prop} (forward : ∀ i j, move i j → i ≤ j)
    {i j : Nat} (h : ReflTransGen move i j) (hne : i ≠ j) :
    ∃ k, i < k ∧ move i k ∧ ReflTransGen move k j := by
  induction h using ReflTransGen.head_induction_on with
  | refl => exact absurd rfl hne
  | @head i k hmove hmore ih =>
      rcases Nat.eq_or_lt_of_le (forward i k hmove) with rfl | hlt
      · exact ih hne
      · exact ⟨k, hlt, hmove, hmore⟩

section
variable {length : Nat} {move : Nat → Nat → Prop} {pick : Nat → Nat → Option Nat}
  (hpick : Picks length move pick) (forward : ∀ i j, move i j → i ≤ j)

/-- One round of a repetition: a move ahead to a position in `again`. -/
def round (pick : Nat → Nat → Option Nat) (again position : Nat) : Option Nat :=
  pick (after again position) position

include hpick

theorem round_eq_some {again i j : Nat} (h : round pick again i = some j) :
    i < j ∧ again.testBit j = true ∧ move i j := by
  obtain ⟨hbit, hmove⟩ := hpick.sound _ i j h
  obtain ⟨hlt, hagain⟩ := (testBit_after again i j).1 hbit
  exact ⟨hlt, hagain, hmove⟩

/-- The rounds are moves. -/
theorem reflTransGen_furthest (again bound position : Nat) :
    ReflTransGen move position (furthest (round pick again) bound position) := by
  apply furthest_induct (motive := ReflTransGen move position)
  · intro i j hi hround
    exact hi.tail (round_eq_some hpick hround).2.2
  · exact ReflTransGen.refl

include forward

/-- If `again` holds the positions from which moves lead to a goal, the rounds
from such a position end at a goal. -/
theorem testBit_furthest {again : Nat → Nat} (hagain : Steps length (ReflTransGen move) again)
    {goals : Nat} (hgoals : Within length goals) {position : Nat}
    (hposition : (again goals).testBit position = true) :
    goals.testBit (furthest (round pick (again goals)) (length + 1) position) = true := by
  have hwithin := hagain.within (le_of_reflTransGen forward) hgoals
  have hstop : (again goals).testBit
      (furthest (round pick (again goals)) (length + 1) position) = true :=
    furthest_induct (fun _ _ _ hround => (round_eq_some hpick hround).2.1) _ hposition
  have hahead : ∀ i j, round pick (again goals) i = some j → i < j ∧ j ≤ length := by
    intro i j hround
    obtain ⟨hlt, hbit, -⟩ := round_eq_some hpick hround
    exact ⟨hlt, hwithin j hbit⟩
  have hnone : round pick (again goals)
      (furthest (round pick (again goals)) (length + 1) position) = none :=
    step_furthest hahead _ _ (by omega)
  generalize furthest (round pick (again goals)) (length + 1) position = stop at hstop hnone
  obtain ⟨goal, hgoal, hmoves⟩ := (hagain goals hgoals stop).1 hstop
  by_cases hne : stop = goal
  · rw [hne]
    exact hgoal
  · -- The first move ahead would have been one more round.
    obtain ⟨next, hlt, hmove, hmore⟩ := exists_move_ahead forward hmoves hne
    have hnext : (after (again goals) stop).testBit next = true :=
      (testBit_after _ stop next).2 ⟨hlt, (hagain goals hgoals next).2 ⟨goal, hgoal, hmore⟩⟩
    have hafter : Within length (after (again goals) stop) :=
      fun i hi => hwithin i ((testBit_after _ stop i).1 hi).2
    obtain ⟨other, hother⟩ := hpick.found _ hafter stop next hnext hmove
    rw [round, hother] at hnone
    cases hnone

/-- Rounds pick the ends of repeated moves. -/
theorem Picks.rounds {again : Nat → Nat} (hagain : Steps length (ReflTransGen move) again) :
    Picks length (ReflTransGen move) fun goals i =>
      if goals.testBit (furthest (round pick (again goals)) (length + 1) i) then
        some (furthest (round pick (again goals)) (length + 1) i)
      else none := by
  constructor
  · intro goals i j hj
    obtain ⟨hgoal, hstop⟩ := Option.ite_none_right_eq_some.1 hj
    cases hstop
    exact ⟨hgoal, reflTransGen_furthest hpick _ _ i⟩
  · intro goals hgoals i j hgoal hmoves
    have hi := (hagain goals hgoals i).2 ⟨j, hgoal, hmoves⟩
    exact ⟨_, if_pos (testBit_furthest hpick forward hagain hgoals hi)⟩

end

/-! ## Where the preferred match ends -/

section
variable {chars : List Char}

/-- The goals of the first item are the starts of the items after it. -/
theorem goalsAfter_cons (subject : Subject) (p : Pattern) (ps : List Pattern) (goals : Nat) :
    goalsAfter subject (p :: ps) goals =
      reachingJoin subject ps goals :: goalsAfter subject ps goals := by
  induction ps generalizing p with
  | nil => rfl
  | cons q ps ih => rw [goalsAfter, ih q, reachingJoin]

/-- The positions from which an item, repeated, leads to a goal. -/
theorem steps_again (item : Pattern) :
    Steps chars.length (ReflTransGen (Spans chars item)) fun goals =>
      closure (reaching (Subject.ofChars chars) item) ((Subject.ofChars chars).length + 1)
        goals goals :=
  steps_closure (@steps_reaching chars item) (Spans.le item)

mutual
/-- The preferred match of a pattern is one of its spans, and there is one
wherever there is a span. -/
theorem picks_prefer : (p : Pattern) →
    Picks chars.length (Spans chars p) (prefer (Subject.ofChars chars) p)
  | .char set => by
      constructor
      · intro goals i j h
        rw [prefer] at h
        split at h
        · next hbits =>
          cases h
          rw [Bool.and_eq_true, testBit_positionsOf] at hbits
          exact ⟨hbits.2, rfl, hbits.1⟩
        · cases h
      · rintro goals - i j hgoal ⟨rfl, hset⟩
        refine ⟨i + 1, ?_⟩
        rw [prefer, if_pos]
        rw [Bool.and_eq_true, testBit_positionsOf]
        exact ⟨hset, hgoal⟩
  | .atStart =>
      (picks_stay chars.length fun i => decide (i = 0)).congr
        (fun i j => by rw [Spans, decide_eq_true_eq]) fun goals i => by rw [prefer]
  | .atEnd =>
      (picks_stay chars.length fun i => decide (i = chars.length)).congr
        (fun i j => by rw [Spans, decide_eq_true_eq]) fun goals i => by
          rw [prefer]
          rfl
  | .join items => (picks_preferJoin items).congr (fun _ _ => Iff.rfl) fun _ _ => by rw [prefer]
  | .choose branches =>
      (picks_preferChoice branches).congr (fun _ _ => Iff.rfl) fun _ _ => by rw [prefer]
  | .opt item =>
      ((picks_prefer item).orElse (picks_stay chars.length fun _ => true)).congr
        (fun i j => by simp [Spans, or_comm]) fun goals i => by
          rw [prefer]
          cases prefer (Subject.ofChars chars) item goals i <;> rfl
  | .star item =>
      ((picks_prefer item).rounds (Spans.le item) (steps_again item)).congr
        (fun _ _ => Iff.rfl) fun goals i => by
          simp only [prefer]
          rfl
  | .plus item =>
      ((picks_prefer item).andThen ((picks_prefer item).rounds (Spans.le item) (steps_again item))
        (steps_again item) (le_of_reflTransGen (Spans.le item))).congr
        (fun _ _ => Iff.rfl) fun goals i => by
          simp only [prefer]
          cases prefer (Subject.ofChars chars) item _ i <;> rfl
  | .group _ item => (picks_prefer item).congr (fun _ _ => Iff.rfl) fun _ _ => by rw [prefer]
theorem picks_preferJoin : (items : List Pattern) →
    Picks chars.length (SpansJoin chars items) fun goals =>
      preferJoin (Subject.ofChars chars) items
        (goalsAfter (Subject.ofChars chars) items goals) goals
  | [] =>
      (picks_stay chars.length fun _ => true).congr
        (fun i j => by simp [SpansJoin]) fun goals i => by
          rw [preferJoin]
          rfl
  | p :: ps =>
      ((picks_prefer p).andThen (picks_preferJoin ps) (steps_reachingJoin ps)
        (SpansJoin.le ps)).congr (fun _ _ => Iff.rfl) fun goals i => by
          simp only [goalsAfter_cons, preferJoin]
          cases prefer (Subject.ofChars chars) p _ i <;> rfl
theorem picks_preferChoice : (branches : List Pattern) →
    Picks chars.length (SpansChoice chars branches)
      (preferChoice (Subject.ofChars chars) branches)
  | [] => by
      constructor
      · intro goals i j h
        cases h
      · intro goals _ i j _ hspan
        exact hspan.elim
  | p :: ps =>
      ((picks_prefer p).orElse (picks_preferChoice ps)).congr (fun _ _ => Iff.rfl) fun goals i => by
        rw [preferChoice]
        cases prefer (Subject.ofChars chars) p goals i <;> rfl
end

end

/-! ## The first match -/

theorem least?_eq_none_iff {set bound : Nat} :
    least? set bound = none ↔ ∀ i, i < bound → set.testBit i = false := by
  simp [least?]

theorem least?_eq_some_iff {set bound i : Nat} :
    least? set bound = some i ↔ i < bound ∧ set.testBit i = true ∧
      ∀ j, j < i → set.testBit j = false := by
  rw [least?, List.find?_range_eq_some]
  simp [and_left_comm]

/-- The search fails where no stretch of the text is spanned, and otherwise
finds a span of which none begins before it. -/
theorem find?_cases (p : Pattern) (text : String) :
    (p.find? text = none ∧ ∀ i j, j ≤ text.toList.length → ¬ Spans text.toList p i j) ∨
      ∃ i j, p.find? text =
          some (utf8Width (text.toList.take i), utf8Width (text.toList.take j)) ∧
        j ≤ text.toList.length ∧ Spans text.toList p i j ∧
        ∀ i' j', j' ≤ text.toList.length → Spans text.toList p i' j' → i ≤ i' := by
  have hall : Within text.toList.length (Subject.ofChars text.toList).all :=
    fun i hi => (testBit_all _ i).1 hi
  have hreach := steps_reaching p _ hall
  have hbit (i j : Nat) (hj : j ≤ text.toList.length) (hspan : Spans text.toList p i j) :
      (reaching (Subject.ofChars text.toList) p (Subject.ofChars text.toList).all).testBit i =
        true :=
    (hreach i).2 ⟨j, (testBit_all _ j).2 hj, hspan⟩
  unfold find?
  simp only
  cases hleast : least? (reaching (Subject.ofChars text.toList) p
      (Subject.ofChars text.toList).all) ((Subject.ofChars text.toList).length + 1) with
  | none =>
      refine Or.inl ⟨rfl, ?_⟩
      intro i j hj hspan
      have hle : i ≤ text.toList.length := Nat.le_trans (Spans.le p i j hspan) hj
      have hnot := least?_eq_none_iff.1 hleast i (Nat.lt_succ_of_le hle)
      rw [hbit i j hj hspan] at hnot
      cases hnot
  | some i =>
      obtain ⟨-, hi, hfirst⟩ := least?_eq_some_iff.1 hleast
      obtain ⟨goal, hgoal, hspan⟩ := (hreach i).1 hi
      obtain ⟨j, hj⟩ := (picks_prefer p).found _ hall i goal hgoal hspan
      obtain ⟨hend, hspan'⟩ := (picks_prefer p).sound _ i j hj
      refine Or.inr ⟨i, j, by simp only [hj], hall j hend, hspan', ?_⟩
      intro i' j' hj' hspan'
      by_contra hlt
      have hnot := hfirst i' (Nat.lt_of_not_le hlt)
      rw [hbit i' j' hj' hspan'] at hnot
      cases hnot

end Pattern
end TacticNotation
