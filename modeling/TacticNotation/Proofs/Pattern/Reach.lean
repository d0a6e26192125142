import TacticNotation.Proofs.Pattern.Spans

/-!
# The search is exact

`reaching` computes with sets of positions, each a number whose bits say which
positions it holds.  For goals within the text a position belongs to the result
precisely if a span leads from it to a goal, so the answer of `isMatch` is that
of the relation `Spans`.
-/

namespace TacticNotation
namespace Pattern

open Relation (ReflTransGen)

/-! ## Sets of positions -/

/-- Every position of a set is a position of a text of this length. -/
def Within (length set : Nat) : Prop :=
  ∀ i, set.testBit i = true → i ≤ length

theorem testBit_without (set removed i : Nat) :
    (without set removed).testBit i = (set.testBit i && !removed.testBit i) := by
  unfold without
  rw [Nat.testBit_xor, Nat.testBit_or]
  cases set.testBit i <;> cases removed.testBit i <;> rfl

theorem testBit_all (subject : Subject) (i : Nat) :
    subject.all.testBit i = true ↔ i ≤ subject.length := by
  unfold Subject.all
  rw [Nat.one_shiftLeft, Nat.testBit_two_pow_sub_one, decide_eq_true_eq]
  omega

/-! ## Places of characters -/

theorem testBit_addPlace {c d : Char} {added i : Nat} {places : List (Char × Nat)} :
    (∃ set, (d, set) ∈ addPlace c added places ∧ set.testBit i = true) ↔
      (d = c ∧ added.testBit i = true) ∨
        ∃ set, (d, set) ∈ places ∧ set.testBit i = true := by
  induction places with
  | nil => simp [addPlace]
  | cons place places ih =>
      obtain ⟨e, found⟩ := place
      by_cases hce : c = e
      · subst hce
        simp only [addPlace, if_true, List.mem_cons, Prod.mk.injEq, or_and_right, exists_or,
          and_assoc, exists_and_left, exists_eq_left, Nat.testBit_or, Bool.or_eq_true]
        tauto
      · simp only [addPlace, hce, if_false, List.mem_cons, or_and_right, exists_or, ih]
        exact or_left_comm

theorem testBit_placesFrom {chars : List Char} {d : Char} {position i : Nat} :
    (∃ set, (d, set) ∈ placesFrom position chars ∧ set.testBit i = true) ↔
      position ≤ i ∧ chars[i - position]? = some d := by
  induction chars generalizing position with
  | nil => simp [placesFrom]
  | cons c rest ih =>
      simp only [placesFrom]
      rw [testBit_addPlace, ih, Nat.one_shiftLeft, Nat.testBit_two_pow, decide_eq_true_eq]
      constructor
      · rintro (⟨rfl, rfl⟩ | ⟨hle, hd⟩)
        · simp
        · have hsucc : i - position = (i - (position + 1)) + 1 := by omega
          rw [hsucc, List.getElem?_cons_succ]
          exact ⟨by omega, hd⟩
      · rintro ⟨hle, hd⟩
        by_cases heq : position = i
        · subst heq
          rw [Nat.sub_self, List.getElem?_cons_zero, Option.some.injEq] at hd
          exact Or.inl ⟨hd.symm, rfl⟩
        · have hsucc : i - position = (i - (position + 1)) + 1 := by omega
          rw [hsucc, List.getElem?_cons_succ] at hd
          exact Or.inr ⟨by omega, hd⟩

theorem testBit_foldl_places {accepts : Char → Bool} {places : List (Char × Nat)}
    {found i : Nat} :
    (places.foldl (fun found place =>
        if accepts place.1 then found ||| place.2 else found) found).testBit i = true ↔
      found.testBit i = true ∨
        ∃ d, accepts d = true ∧ ∃ set, (d, set) ∈ places ∧ set.testBit i = true := by
  induction places generalizing found with
  | nil => simp
  | cons place places ih =>
      obtain ⟨e, set⟩ := place
      rw [List.foldl_cons, ih]
      -- Only the places of a character that passes the test are added.
      by_cases he : accepts e = true
      · simp only [he, if_true, Nat.testBit_or, Bool.or_eq_true]
        constructor
        · rintro ((h | h) | ⟨d, hd, set', hset', h⟩)
          · exact Or.inl h
          · exact Or.inr ⟨e, he, set, by simp, h⟩
          · exact Or.inr ⟨d, hd, set', by simp [hset'], h⟩
        · rintro (h | ⟨d, hd, set', hset', h⟩)
          · exact Or.inl (Or.inl h)
          · rcases List.mem_cons.1 hset' with heq | hmem
            · cases heq
              exact Or.inl (Or.inr h)
            · exact Or.inr ⟨d, hd, set', hmem, h⟩
      · simp only [he, Bool.false_eq_true, if_false]
        constructor
        · rintro (h | ⟨d, hd, set', hset', h⟩)
          · exact Or.inl h
          · exact Or.inr ⟨d, hd, set', by simp [hset'], h⟩
        · rintro (h | ⟨d, hd, set', hset', h⟩)
          · exact Or.inl h
          · rcases List.mem_cons.1 hset' with heq | hmem
            · cases heq
              exact absurd hd he
            · exact Or.inr ⟨d, hd, set', hmem, h⟩

/-- The positions of a class of characters are those where one of them stands. -/
theorem testBit_positionsOf {chars : List Char} {accepts : Char → Bool} {i : Nat} :
    ((Subject.ofChars chars).positionsOf accepts).testBit i = true ↔
      ∃ c, chars[i]? = some c ∧ accepts c = true := by
  unfold Subject.positionsOf Subject.ofChars
  rw [testBit_foldl_places]
  simp only [testBit_placesFrom, Nat.zero_testBit, Bool.false_eq_true, false_or, Nat.zero_le,
    true_and, Nat.sub_zero]
  constructor
  · rintro ⟨d, hd, hi⟩
    exact ⟨d, hi, hd⟩
  · rintro ⟨c, hi, hc⟩
    exact ⟨c, hc, hi⟩

/-! ## Repeated steps -/

/-- The positions of a text that a set leaves out. -/
def missing (length set : Nat) : Finset Nat :=
  (Finset.range (length + 1)).filter fun i => set.testBit i = false

theorem mem_missing {length set i : Nat} :
    i ∈ missing length set ↔ i ≤ length ∧ set.testBit i = false := by
  rw [missing, Finset.mem_filter, Finset.mem_range, Nat.lt_succ_iff]

/-- A position that is new to a set is one position less that it leaves out. -/
theorem card_missing_lt {length seen next i : Nat} (hle : i ≤ length)
    (hnew : next.testBit i = true) (hseen : seen.testBit i = false) :
    (missing length (seen ||| next)).card < (missing length seen).card := by
  apply Finset.card_lt_card
  rw [Finset.ssubset_iff_of_subset]
  · refine ⟨i, mem_missing.2 ⟨hle, hseen⟩, ?_⟩
    intro hmem
    have hbit := (mem_missing.1 hmem).2
    rw [Nat.testBit_or, hnew, Bool.or_true] at hbit
    exact Bool.noConfusion hbit
  · intro k hk
    obtain ⟨hkle, hbit⟩ := mem_missing.1 hk
    rw [Nat.testBit_or, Bool.or_eq_false_iff] at hbit
    exact mem_missing.2 ⟨hkle, hbit.1⟩

/-- The step from a set to the positions one move before it. -/
def Steps (length : Nat) (move : Nat → Nat → Prop) (step : Nat → Nat) : Prop :=
  ∀ goals, Within length goals → ∀ i, (step goals).testBit i = true ↔
    ∃ j, goals.testBit j = true ∧ move i j

/-- A set that every move into it starts in holds all that moves lead into it
from. -/
theorem testBit_of_closed {move : Nat → Nat → Prop} {seen : Nat}
    (closed : ∀ i j, seen.testBit j = true → move i j → seen.testBit i = true) (i : Nat) :
    seen.testBit i = true ↔ ∃ j, seen.testBit j = true ∧ ReflTransGen move i j := by
  constructor
  · exact fun h => ⟨i, h, ReflTransGen.refl⟩
  · rintro ⟨j, hj, hij⟩
    induction hij using ReflTransGen.head_induction_on with
    | refl => exact hj
    | head hmove _ ih => exact closed _ _ ih hmove

/-- What holds between two rounds of the loop of the search: of the moves into
`seen`, those into positions that are not among the newest have been followed. -/
structure Round (length : Nat) (move : Nat → Nat → Prop) (newest seen : Nat) : Prop where
  within : Within length seen
  seen_of_newest : ∀ i, newest.testBit i = true → seen.testBit i = true
  followed : ∀ i j, seen.testBit j = true → newest.testBit j = false → move i j →
    seen.testBit i = true

/-- The loop starts with goals that are all new. -/
theorem Round.initial {length goals : Nat} (move : Nat → Nat → Prop)
    (hgoals : Within length goals) : Round length move goals goals where
  within := hgoals
  seen_of_newest _ h := h
  followed i j hj hold _ := by
    rw [hj] at hold
    exact Bool.noConfusion hold

section
variable {length : Nat} {move : Nat → Nat → Prop} {step : Nat → Nat}
  (hstep : Steps length move step) {newest seen : Nat}
include hstep

/-- What a round adds. -/
theorem Round.testBit_next (h : Round length move newest seen) (i : Nat) :
    (without (step newest) seen).testBit i = true ↔
      (∃ j, newest.testBit j = true ∧ move i j) ∧ seen.testBit i = false := by
  have hwithin : Within length newest := fun k hk => h.within k (h.seen_of_newest k hk)
  rw [testBit_without, Bool.and_eq_true, hstep newest hwithin i, Bool.not_eq_true']

/-- Every move into `seen` starts in `seen` or in what the round adds. -/
theorem Round.start_of_move (h : Round length move newest seen) {i j : Nat}
    (hj : seen.testBit j = true) (hmove : move i j) :
    seen.testBit i = true ∨ (without (step newest) seen).testBit i = true := by
  cases hi : seen.testBit i with
  | true => exact Or.inl rfl
  | false =>
      cases hnew : newest.testBit j with
      | true => exact Or.inr ((h.testBit_next hstep i).2 ⟨⟨j, hnew, hmove⟩, hi⟩)
      | false =>
          rw [h.followed i j hj hnew hmove] at hi
          exact Bool.noConfusion hi

section
variable (forward : ∀ i j, move i j → i ≤ j)
include forward

theorem Round.within_next (h : Round length move newest seen) :
    Within length (without (step newest) seen) := by
  intro i hi
  obtain ⟨⟨j, hj, hmove⟩, -⟩ := (h.testBit_next hstep i).1 hi
  exact Nat.le_trans (forward i j hmove) (h.within j (h.seen_of_newest j hj))

/-- One round leads to the next. -/
theorem Round.next (h : Round length move newest seen) :
    Round length move (without (step newest) seen) (seen ||| without (step newest) seen) where
  within i hi := by
    rw [Nat.testBit_or, Bool.or_eq_true] at hi
    rcases hi with hi | hi
    · exact h.within i hi
    · exact h.within_next hstep forward i hi
  seen_of_newest i hi := by rw [Nat.testBit_or, hi, Bool.or_true]
  followed i j hj hold hmove := by
    rw [Nat.testBit_or, hold, Bool.or_false] at hj
    rw [Nat.testBit_or, Bool.or_eq_true]
    exact h.start_of_move hstep hj hmove

/-- The loop ends with everything that moves lead into `seen` from, if there are
as many rounds left as positions that are missing. -/
theorem testBit_closure (bound : Nat) (h : Round length move newest seen)
    (hbound : (missing length seen).card ≤ bound) (i : Nat) :
    (closure step bound newest seen).testBit i = true ↔
      ∃ j, seen.testBit j = true ∧ ReflTransGen move i j := by
  -- Each round but the last adds a position, so the rounds last.
  induction bound generalizing newest seen with
  | zero =>
      rw [closure]
      apply testBit_of_closed
      intro k j hj hmove
      have hk : k ≤ length := Nat.le_trans (forward k j hmove) (h.within j hj)
      have hempty : missing length seen = ∅ := Finset.card_eq_zero.1 (Nat.le_zero.1 hbound)
      cases hbit : seen.testBit k with
      | true => rfl
      | false =>
          have hmem : k ∈ missing length seen := mem_missing.2 ⟨hk, hbit⟩
          rw [hempty] at hmem
          exact absurd hmem (Finset.notMem_empty k)
  | succ bound ih =>
      simp only [closure]
      by_cases hzero : without (step newest) seen = 0
      · rw [if_pos hzero]
        apply testBit_of_closed
        intro k j hj hmove
        rcases h.start_of_move hstep hj hmove with hk | hk
        · exact hk
        · rw [hzero, Nat.zero_testBit] at hk
          exact Bool.noConfusion hk
      · rw [if_neg hzero]
        obtain ⟨fresh, hfresh⟩ := Nat.exists_testBit_of_ne_zero hzero
        have hcard := card_missing_lt (h.within_next hstep forward fresh hfresh) hfresh
          ((h.testBit_next hstep fresh).1 hfresh).2
        rw [ih (h.next hstep forward) (by omega)]
        constructor
        · rintro ⟨j, hj, hij⟩
          rw [Nat.testBit_or, Bool.or_eq_true] at hj
          rcases hj with hj | hj
          · exact ⟨j, hj, hij⟩
          · -- One more move leads from what was added to one of the newest.
            obtain ⟨⟨m, hm, hmove⟩, -⟩ := (h.testBit_next hstep j).1 hj
            exact ⟨m, h.seen_of_newest m hm, hij.tail hmove⟩
        · rintro ⟨j, hj, hij⟩
          exact ⟨j, by rw [Nat.testBit_or, hj, Bool.true_or], hij⟩

end
end

/-! ## Where a match can begin -/

section
variable {chars : List Char}

theorem Steps.within {length : Nat} {move : Nat → Nat → Prop} {step : Nat → Nat}
    (hstep : Steps length move step) (forward : ∀ i j, move i j → i ≤ j) {goals : Nat}
    (hgoals : Within length goals) : Within length (step goals) := by
  intro i hi
  obtain ⟨j, hj, hmove⟩ := (hstep goals hgoals i).1 hi
  exact Nat.le_trans (forward i j hmove) (hgoals j hj)

/-- From a set within the text the loop of the search needs no more rounds than
it is given. -/
theorem steps_closure {length : Nat} {move : Nat → Nat → Prop} {step : Nat → Nat}
    (hstep : Steps length move step) (forward : ∀ i j, move i j → i ≤ j) :
    Steps length (ReflTransGen move) fun goals => closure step (length + 1) goals goals := by
  intro goals hgoals i
  have hcard : (missing length goals).card ≤ length + 1 :=
    calc (missing length goals).card
        ≤ (Finset.range (length + 1)).card := Finset.card_filter_le _ _
      _ = length + 1 := Finset.card_range _
  exact testBit_closure hstep forward (length + 1) (Round.initial move hgoals) hcard i

mutual
/-- The search takes the goals of a pattern to the starts of the spans that end
at one of them. -/
theorem steps_reaching : (p : Pattern) →
    Steps chars.length (Spans chars p) (reaching (Subject.ofChars chars) p)
  | .char set => by
      intro goals hgoals i
      rw [reaching, Nat.testBit_and, Bool.and_eq_true, testBit_positionsOf,
        Nat.testBit_shiftRight, Nat.add_comm]
      constructor
      · rintro ⟨hgoal, c, hc, haccepts⟩
        exact ⟨i + 1, hgoal, rfl, c, hc, haccepts⟩
      · rintro ⟨j, hgoal, rfl, c, hc, haccepts⟩
        exact ⟨hgoal, c, hc, haccepts⟩
  | .atStart => by
      intro goals hgoals i
      have hone : Nat.testBit 1 i = true ↔ i = 0 := by
        rw [Nat.testBit_one_eq_true_iff_self_eq_zero]
      rw [reaching, Nat.testBit_and, Bool.and_eq_true, hone]
      constructor
      · rintro ⟨hgoal, rfl⟩
        exact ⟨0, hgoal, rfl, rfl⟩
      · rintro ⟨j, hgoal, rfl, rfl⟩
        exact ⟨hgoal, rfl⟩
  | .atEnd => by
      intro goals hgoals i
      rw [reaching, Nat.testBit_and, Bool.and_eq_true, Nat.one_shiftLeft, Nat.testBit_two_pow,
        decide_eq_true_eq]
      constructor
      · rintro ⟨hgoal, rfl⟩
        exact ⟨_, hgoal, rfl, rfl⟩
      · rintro ⟨j, hgoal, rfl, rfl⟩
        exact ⟨hgoal, rfl⟩
  | .join items => by
      intro goals hgoals i
      rw [reaching]
      exact steps_reachingJoin items goals hgoals i
  | .choose branches => by
      intro goals hgoals i
      rw [reaching]
      exact steps_reachingChoice branches goals hgoals i
  | .opt item => by
      intro goals hgoals i
      rw [reaching, Nat.testBit_or, Bool.or_eq_true, steps_reaching item goals hgoals i]
      constructor
      · rintro (hgoal | ⟨j, hgoal, hspan⟩)
        · exact ⟨i, hgoal, Or.inl rfl⟩
        · exact ⟨j, hgoal, Or.inr hspan⟩
      · rintro ⟨j, hgoal, rfl | hspan⟩
        · exact Or.inl hgoal
        · exact Or.inr ⟨j, hgoal, hspan⟩
  | .star item => by
      intro goals hgoals i
      rw [reaching]
      exact steps_closure (steps_reaching item) (Spans.le item) goals hgoals i
  | .plus item => by
      intro goals hgoals i
      -- The search goes backward: first the repetitions, then the first occurrence.
      have hmore := steps_closure (steps_reaching item) (Spans.le item)
      have hwithin := hmore.within (le_of_reflTransGen (Spans.le item)) hgoals
      rw [reaching]
      refine (steps_reaching item _ hwithin i).trans ?_
      constructor
      · rintro ⟨k, hk, hfirst⟩
        obtain ⟨j, hgoal, hrest⟩ := (hmore goals hgoals k).1 hk
        exact ⟨j, hgoal, k, hfirst, hrest⟩
      · rintro ⟨j, hgoal, k, hfirst, hrest⟩
        exact ⟨k, (hmore goals hgoals k).2 ⟨j, hgoal, hrest⟩, hfirst⟩
  | .group _ item => by
      intro goals hgoals i
      rw [reaching]
      exact steps_reaching item goals hgoals i
theorem steps_reachingJoin : (items : List Pattern) →
    Steps chars.length (SpansJoin chars items) (reachingJoin (Subject.ofChars chars) items)
  | [] => by
      intro goals hgoals i
      simp [reachingJoin, SpansJoin]
  | p :: ps => by
      intro goals hgoals i
      have hrest := steps_reachingJoin ps
      have hwithin := hrest.within (SpansJoin.le ps) hgoals
      rw [reachingJoin, steps_reaching p _ hwithin i]
      constructor
      · rintro ⟨k, hk, hp⟩
        obtain ⟨j, hgoal, hps⟩ := (hrest goals hgoals k).1 hk
        exact ⟨j, hgoal, k, hp, hps⟩
      · rintro ⟨j, hgoal, k, hp, hps⟩
        exact ⟨k, (hrest goals hgoals k).2 ⟨j, hgoal, hps⟩, hp⟩
theorem steps_reachingChoice : (branches : List Pattern) →
    Steps chars.length (SpansChoice chars branches)
      (reachingChoice (Subject.ofChars chars) branches)
  | [] => by
      intro goals hgoals i
      simp [reachingChoice, SpansChoice]
  | p :: ps => by
      intro goals hgoals i
      rw [reachingChoice, Nat.testBit_or, Bool.or_eq_true, steps_reaching p goals hgoals i,
        steps_reachingChoice ps goals hgoals i]
      simp only [SpansChoice, and_or_left, exists_or]
end

end

/-! ## Matches -/

/-- A pattern matches somewhere in a text precisely if it has a span there. -/
theorem isMatch_iff {p : Pattern} {text : String} :
    p.isMatch text = true ↔ ∃ i j, j ≤ text.toList.length ∧ Spans text.toList p i j := by
  have hall : Within text.toList.length (Subject.ofChars text.toList).all :=
    fun i hi => (testBit_all _ i).1 hi
  have hreach := steps_reaching p _ hall
  unfold isMatch
  simp only [bne_iff_ne]
  constructor
  · intro hne
    obtain ⟨i, hi⟩ := Nat.exists_testBit_of_ne_zero hne
    obtain ⟨j, hj, hspan⟩ := (hreach i).1 hi
    exact ⟨i, j, hall j hj, hspan⟩
  · rintro ⟨i, j, hj, hspan⟩ hzero
    have hi := (hreach i).2 ⟨j, (testBit_all _ j).2 hj, hspan⟩
    rw [hzero, Nat.zero_testBit] at hi
    exact Bool.noConfusion hi

end Pattern
end TacticNotation
