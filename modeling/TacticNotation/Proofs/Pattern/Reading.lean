import TacticNotation.Pattern.Reader

/-!
# Pieces of pattern text

The reader of patterns is a machine that takes one character at a time.
`Reads text items` says that the machine, in any group and after whatever has
been read there, takes `text` for exactly `items` and is ready for more.  The
lemmas build such texts from smaller ones: texts in a row, quoted literals,
groups, signs of repetition and branches.

A text after an opening parenthesis must not begin with a question mark, since
the machine would take it for a flag.  No piece built here does.
-/

namespace TacticNotation
namespace Pattern

/-! ## Levels -/

/-- The level with more items, which come in the order of the text. -/
def Level.pushAll (level : Level) (items : List Pattern) : Level :=
  { level with items := items.reverse ++ level.items }

@[simp] theorem Level.pushAll_singleton (level : Level) (item : Pattern) :
    level.pushAll [item] = level.push item := rfl

@[simp] theorem Level.pushAll_pushAll (level : Level) (front back : List Pattern) :
    (level.pushAll front).pushAll back = level.pushAll (front ++ back) := by
  simp [pushAll, List.append_assoc]

/-! ## Single steps -/

theorem foldlM_step {progress next : Progress} {c : Char} (h : progress.step c = .ok next)
    (rest : List Char) :
    (c :: rest).foldlM Progress.step progress = rest.foldlM Progress.step next := by
  rw [List.foldlM_cons, h]
  rfl

theorem plainStep_of_not_isMeta (progress : Progress) {c : Char} (h : isMeta c = false) :
    progress.plainStep c = .ok (progress.push (.char (.literal c))) := by
  unfold Progress.plainStep
  split <;> first | rfl | exact absurd h (by decide)

/-- After an opening parenthesis every text but a flag is read as the start of
a group that captures. -/
theorem foldlM_opened (level : Level) (outer : List Level) {c : Char} (rest : List Char)
    (h : c ≠ '?') :
    (c :: rest).foldlM Progress.step ⟨.opened, level, outer⟩ =
      (c :: rest).foldlM Progress.step ⟨.plain, .fresh true, level :: outer⟩ := by
  rw [List.foldlM_cons, List.foldlM_cons]
  simp [Progress.step, h, Progress.enter]

/-! ## Items -/

/-- In any group the text is read as these items. -/
structure Reads (text : List Char) (items : List Pattern) : Prop where
  run : ∀ level outer, text.foldlM Progress.step ⟨.plain, level, outer⟩ =
    .ok ⟨.plain, level.pushAll items, outer⟩
  -- After an opening parenthesis a question mark would start a flag.
  head : text.head? ≠ some '?'

namespace Reads

theorem nil : Reads [] [] where
  run _ _ := rfl
  head := by simp

theorem append {front back : List Char} {items more : List Pattern}
    (hfront : Reads front items) (hback : Reads back more) :
    Reads (front ++ back) (items ++ more) where
  run level outer := by
    rw [List.foldlM_append, hfront.run]
    refine (hback.run _ outer).trans ?_
    rw [Level.pushAll_pushAll]
  head := by
    cases front with
    | nil => exact hback.head
    | cons c rest => exact hfront.head

/-- One character that stands for one item. -/
theorem char {c : Char} {item : Pattern} (hc : c ≠ '?')
    (h : ∀ progress, Progress.plainStep progress c = .ok (progress.push item)) :
    Reads [c] [item] where
  run level outer := by
    have hstep : Progress.step ⟨.plain, level, outer⟩ c = .ok ⟨.plain, level.push item, outer⟩ :=
      h ⟨.plain, level, outer⟩
    rw [foldlM_step hstep]
    rfl
  head := by simpa using hc

/-- A backslash and a character that together stand for one item. -/
theorem escape {c : Char} {item : Pattern}
    (h : ∀ level outer, Progress.step ⟨.escaped, level, outer⟩ c =
      .ok ⟨.plain, level.push item, outer⟩) :
    Reads ['\\', c] [item] where
  run level outer := by
    have hslash : Progress.step ⟨.plain, level, outer⟩ '\\' = .ok ⟨.escaped, level, outer⟩ := rfl
    rw [foldlM_step hslash, foldlM_step (h level outer)]
    rfl
  head := by simp

/-- A quoted character stands for itself. -/
theorem quoteChar (c : Char) : Reads (Pattern.quoteChar c) [.char (.literal c)] := by
  unfold Pattern.quoteChar
  cases hmeta : isMeta c with
  | true =>
      rw [if_pos rfl]
      apply Reads.escape
      intro level outer
      -- The two letters that mean something after a backslash are never quoted.
      have hs : c ≠ 's' := by rintro rfl; exact absurd hmeta (by decide)
      have hn : c ≠ 'n' := by rintro rfl; exact absurd hmeta (by decide)
      simp [Progress.step, hs, hn, hmeta, Progress.push]
  | false =>
      rw [if_neg Bool.false_ne_true]
      apply Reads.char
      · rintro rfl
        exact absurd hmeta (by decide)
      · exact fun progress => plainStep_of_not_isMeta progress hmeta

/-- Quoted text stands for its characters. -/
theorem quote (text : String) :
    Reads (Pattern.quote text).toList (text.toList.map fun c => .char (.literal c)) := by
  rw [Pattern.quote, String.toList_ofList]
  induction text.toList with
  | nil => exact Reads.nil
  | cons c rest ih => exact (Reads.quoteChar c).append ih

theorem ne_nil {text : List Char} {item : Pattern} (h : Reads text [item]) : text ≠ [] := by
  rintro rfl
  have hrun := Except.ok.inj (h.run (.fresh true) [])
  simp [Level.push, Level.fresh] at hrun

/-- A sign of repetition after a single item applies to that item. -/
theorem signed {text : List Char} {item : Pattern} {c : Char} {sign : Pattern → Pattern}
    (h : Reads text [item]) (hitem : item.isRepeated = false)
    (hsign : ∀ progress, Progress.plainStep progress c = progress.repeatLast sign) :
    Reads (text ++ [c]) [sign item] where
  run level outer := by
    have hstep : Progress.step ⟨.plain, level.push item, outer⟩ c =
        .ok ⟨.plain, level.push (sign item), outer⟩ := by
      refine (hsign _).trans ?_
      simp [Progress.repeatLast, Level.push, hitem]
    rw [List.foldlM_append, h.run]
    exact foldlM_step hstep []
  head := by
    -- A sign alone would be an item of its own, but an item has some text.
    cases text with
    | nil => exact absurd rfl h.ne_nil
    | cons d rest => exact h.head

end Reads

/-! ## Branches -/

/-- In a group in which `before` are the complete branches, last first, and the
next one has just begun, the text is read as these branches. -/
structure ReadsBranches (text : List Char) (branches : List Pattern) : Prop where
  run : ∀ captures before outer, ∃ level,
    text.foldlM Progress.step ⟨.plain, ⟨captures, before, []⟩, outer⟩ =
      .ok ⟨.plain, level, outer⟩ ∧
    level.captures = captures ∧
    level.branches.reverse ++ [level.branch] = before.reverse ++ branches
  head : text.head? ≠ some '?'

namespace ReadsBranches

theorem single {text : List Char} {items : List Pattern} (h : Reads text items) :
    ReadsBranches text [ofItems items] where
  run captures before outer :=
    ⟨_, h.run _ outer, rfl, by simp [Level.pushAll, Level.branch]⟩
  head := h.head

theorem cons {text more : List Char} {items branches : List Pattern} (h : Reads text items)
    (hmore : ReadsBranches more branches) :
    ReadsBranches (text ++ '|' :: more) (ofItems items :: branches) where
  run captures before outer := by
    obtain ⟨level, hrun, hcaptures, hbranches⟩ :=
      hmore.run captures (ofItems items :: before) outer
    refine ⟨level, ?_, hcaptures, ?_⟩
    · have hbar : Progress.step ⟨.plain, Level.pushAll ⟨captures, before, []⟩ items, outer⟩ '|' =
          .ok ⟨.plain, ⟨captures, ofItems items :: before, []⟩, outer⟩ := by
        simp [Progress.step, Progress.plainStep, Progress.nextBranch, Level.pushAll, Level.branch]
      rw [List.foldlM_append, h.run]
      exact (foldlM_step hbar more).trans hrun
    · rw [hbranches, List.reverse_cons, List.append_assoc, List.singleton_append]
  head := by
    cases text with
    | nil => simp
    | cons c rest => exact h.head

/-- What a group reads between its opening and its closing parenthesis. -/
theorem closed {text : List Char} {branches : List Pattern} (h : ReadsBranches text branches)
    (captures : Bool) (level : Level) (outer : List Level) :
    (text ++ [')']).foldlM Progress.step ⟨.plain, .fresh captures, level :: outer⟩ =
      .ok ⟨.plain, level.push (.group captures (ofBranches branches)), outer⟩ := by
  obtain ⟨inner, hrun, hcaptures, hbranches⟩ := h.run captures [] (level :: outer)
  rw [List.reverse_nil, List.nil_append] at hbranches
  have hclose : Progress.step ⟨.plain, inner, level :: outer⟩ ')' =
      .ok ⟨.plain, level.push (.group captures (ofBranches branches)), outer⟩ := by
    simp [Progress.step, Progress.plainStep, Progress.leave, Level.contents, hcaptures, hbranches]
  rw [List.foldlM_append, Level.fresh, hrun]
  exact foldlM_step hclose []

/-- Branches between parentheses are one item. -/
theorem group {text : List Char} {branches : List Pattern} (h : ReadsBranches text branches) :
    Reads ('(' :: (text ++ [')'])) [.group true (ofBranches branches)] where
  run level outer := by
    have hopen : (text ++ [')']).foldlM Progress.step ⟨.opened, level, outer⟩ =
        (text ++ [')']).foldlM Progress.step ⟨.plain, .fresh true, level :: outer⟩ := by
      cases text with
      | nil => exact foldlM_opened level outer [] (by decide)
      | cons c rest =>
          apply foldlM_opened level outer (rest ++ [')'])
          intro hc
          exact h.head (by rw [List.head?_cons, hc])
    have hparen : Progress.step ⟨.plain, level, outer⟩ '(' = .ok ⟨.opened, level, outer⟩ := rfl
    rw [foldlM_step hparen, hopen, h.closed]
    rfl
  head := by simp

end ReadsBranches

/-- Items between parentheses are one item. -/
theorem Reads.group {text : List Char} {items : List Pattern} (h : Reads text items) :
    Reads ('(' :: (text ++ [')'])) [.group true (ofItems items)] :=
  (ReadsBranches.single h).group

end Pattern
end TacticNotation
