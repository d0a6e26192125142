import TacticNotation.Proofs.Grammar.Derivation

/-!
# The reader and the grammar

The reader takes exactly what the grammar derives: what it reads is derived
from the tokens that it takes (`Taken`), and where there is a derivation it
finds it, with enough depth, and leaves the tokens after it.
-/

namespace TacticNotation
namespace Grammar

open Reader

/-! ## Steps of the reader -/

theorem bind_eq_ok_iff {ε α β : Type} {x : Except ε α} {f : α → Except ε β} {b : β} :
    (x >>= f) = .ok b ↔ ∃ a, x = .ok a ∧ f a = .ok b := by
  cases x with
  | error e =>
      constructor
      · intro h
        cases h
      · rintro ⟨a, h, -⟩
        cases h
  | ok a =>
      constructor
      · exact fun h => ⟨a, rfl, h⟩
      · rintro ⟨a', h, hf⟩
        cases h
        exact hf

/-- A glued pipe is there and is passed over, or it is not. -/
theorem gluedPipe?_cases (lexemes : List Lexeme) :
    (gluedPipe (lexemes.map Lexeme.token) = false ∧ gluedPipe? lexemes = none) ∨
      ∃ pipe next rest, lexemes = pipe :: next :: rest ∧ pipe.token = .pipe ∧
        next.token.startsPrimary = true ∧ gluedPipe? lexemes = some (next :: rest) := by
  match lexemes with
  | [] => exact Or.inl ⟨rfl, rfl⟩
  | ⟨token, start, stop⟩ :: [] => exact Or.inl (by cases token <;> exact ⟨rfl, rfl⟩)
  | ⟨token, start, stop⟩ :: next :: rest =>
      cases token with
      | pipe =>
          cases hnext : next.token.startsPrimary with
          | false => exact Or.inl ⟨hnext, by simp [gluedPipe?, hnext]⟩
          | true => exact Or.inr ⟨_, next, rest, rfl, rfl, hnext, by simp [gluedPipe?, hnext]⟩
      | _ => exact Or.inl ⟨rfl, rfl⟩

theorem atUnit_takeGap (lexemes : List Lexeme) :
    atUnit (takeGap lexemes).2 = unitAhead (lexemes.map Lexeme.token) := by
  match lexemes with
  | [] => rfl
  | ⟨token, start, stop⟩ :: [] => cases token <;> rfl
  | ⟨token, start, stop⟩ :: next :: rest => cases token <;> rfl

/-- A gap that may stand at the front, as nodes and as tokens, and what is
after it. -/
theorem takeGap_split (lexemes : List Lexeme) :
    ∃ present front back, takeGap lexemes = (gapNodes present, back) ∧
      skipGap lexemes = back ∧ lexemes = front ++ back ∧
      front.map Lexeme.token = gapTokens present := by
  match lexemes with
  | [] => exact ⟨false, [], [], rfl, rfl, rfl, rfl⟩
  | ⟨token, start, stop⟩ :: rest =>
      cases token with
      | gap => exact ⟨true, [⟨.gap, start, stop⟩], rest, rfl, rfl, rfl, rfl⟩
      | _ => exact ⟨false, [], _, rfl, rfl, rfl, rfl⟩

/-- A run of pipes is as long as it can be. -/
theorem takePipes_split (start stop : Nat) (after : List Lexeme) :
    ∃ count front back, takePipes (⟨.pipe, start, stop⟩ :: after) = (pipeText (count + 1), back) ∧
      ⟨.pipe, start, stop⟩ :: after = front ++ back ∧
      front.map Lexeme.token = pipeTokens (count + 1) ∧
      (back.map Lexeme.token).head? ≠ some .pipe := by
  have hfront : (⟨.pipe, start, stop⟩ :: after).takeWhile isPipe =
      ⟨.pipe, start, stop⟩ :: after.takeWhile isPipe := rfl
  refine ⟨(after.takeWhile isPipe).length, (⟨.pipe, start, stop⟩ :: after).takeWhile isPipe,
    (⟨.pipe, start, stop⟩ :: after).dropWhile isPipe, ?_, ?_, ?_, ?_⟩
  · rw [takePipes, hfront, List.map_const', List.length_cons, pipeText]
  · exact List.takeWhile_append_dropWhile.symm
  · rw [pipeTokens, List.eq_replicate_iff]
    refine ⟨by rw [List.length_map, hfront, List.length_cons], ?_⟩
    intro token htoken
    obtain ⟨lexeme, hlexeme, rfl⟩ := List.mem_map.1 htoken
    have hpipe := List.all_eq_true.1 List.all_takeWhile lexeme hlexeme
    simpa [isPipe] using hpipe
  · intro hhead
    rw [List.head?_map, Option.map_eq_some_iff] at hhead
    obtain ⟨lexeme, hlexeme, htoken⟩ := hhead
    have hnot := List.head?_dropWhile_not isPipe (⟨.pipe, start, stop⟩ :: after)
    rw [hlexeme] at hnot
    simp [isPipe, htoken] at hnot

theorem takeSeparator_split (lexemes : List Lexeme) :
    ∃ separator front back, takeSeparator lexemes = (separator, back) ∧
      lexemes = front ++ back ∧
      Separates (front.map Lexeme.token) separator (back.map Lexeme.token) := by
  match lexemes with
  | [] => exact ⟨none, [], [], rfl, rfl, .none rfl⟩
  | ⟨token, start, stop⟩ :: after =>
      cases token with
      | atom text => exact ⟨some text, [⟨.atom text, start, stop⟩], after, rfl, rfl, .atom text _⟩
      | pipe =>
          obtain ⟨count, front, back, htake, hsplit, htokens, hhead⟩ :=
            takePipes_split start stop after
          refine ⟨some (pipeText (count + 1)), front, back, ?_, hsplit, ?_⟩
          · rw [takeSeparator, htake]
          · rw [htokens]
            exact .pipes count hhead
      | _ => exact ⟨none, [], _, rfl, rfl, .none rfl⟩

theorem closeGroup_eq_ok {lexemes rest : List Lexeme} (h : closeGroup lexemes = .ok rest) :
    ∃ lexeme, lexemes = lexeme :: rest ∧ lexeme.token = .braceClose := by
  match lexemes with
  | [] => cases h
  | ⟨token, start, stop⟩ :: after =>
      cases token with
      | braceClose =>
          cases h
          exact ⟨_, rfl, rfl⟩
      | _ => cases h

theorem head?_of_not_pipe {lexemes : List Lexeme}
    (h : ∀ start stop rest, lexemes = ⟨.pipe, start, stop⟩ :: rest → False) :
    (lexemes.map Lexeme.token).head? ≠ some .pipe := by
  intro hhead
  rw [List.head?_map, Option.map_eq_some_iff] at hhead
  obtain ⟨⟨token, start, stop⟩, hlexeme, rfl⟩ := hhead
  obtain ⟨rest, rfl⟩ := List.head?_eq_some_iff.1 hlexeme
  exact h start stop rest rfl

/-! ## What the reader takes is derived -/

/-- The reader takes a piece of this kind off the front of the lexemes. -/
def Taken (part : Part) (lexemes : List Lexeme) (nodes : List Node) (rest : List Lexeme) : Prop :=
  ∃ front, lexemes = front ++ rest ∧
    Derives part (front.map Lexeme.token) nodes (rest.map Lexeme.token)

/-- A step that reads primaries takes only what is derived.  The step is not
used where a pipe comes next. -/
def Faithful (primary : Step Node) : Prop :=
  ∀ lexemes node rest, (lexemes.map Lexeme.token).head? ≠ some .pipe →
    primary lexemes = .ok (node, rest) → Taken .primary lexemes [node] rest

theorem Taken.length_lt {part : Part} {lexemes rest : List Lexeme} {nodes : List Node}
    (h : Taken part lexemes nodes rest)
    (hpart : part = .primary ∨ part = .unit ∨ part = .blocks) :
    rest.length < lexemes.length := by
  obtain ⟨front, rfl, hderives⟩ := h
  have hpos : 0 < front.length := by
    rw [← List.length_map Lexeme.token]
    exact List.length_pos_iff.2 (hderives.ne_nil hpart)
  rw [List.length_append]
  omega

section
variable {primary : Step Node} (hprimary : Faithful primary)
include hprimary

theorem taken_moreBranches {bound : Nat} {lexemes rest : List Lexeme} {nodes : List Node}
    (hbound : lexemes.length ≤ bound)
    (h : moreBranches primary bound lexemes = .ok (nodes, rest)) :
    Taken .branches lexemes nodes rest := by
  induction bound generalizing lexemes nodes with
  | zero =>
      have hnil : lexemes = [] := List.length_eq_zero_iff.1 (Nat.le_zero.1 hbound)
      subst hnil
      cases h
      exact ⟨[], rfl, .noBranch rfl⟩
  | succ bound ih =>
      rw [moreBranches] at h
      rcases gluedPipe?_cases lexemes with
        ⟨hglued, hnone⟩ | ⟨pipe, next, after, rfl, hpipe, hnext, hsome⟩
      · rw [hnone] at h
        cases h
        exact ⟨[], rfl, .noBranch hglued⟩
      · rw [hsome] at h
        obtain ⟨⟨branch, middle⟩, hbranch, h⟩ := bind_eq_ok_iff.1 h
        obtain ⟨⟨branches, final⟩, hmore, h⟩ := bind_eq_ok_iff.1 h
        cases h
        have hhead : ((next :: after).map Lexeme.token).head? ≠ some .pipe := by
          intro heq
          rw [List.map_cons, List.head?_cons, Option.some.injEq] at heq
          rw [heq] at hnext
          cases hnext
        -- What is left is shorter, so the bound for it is still enough.
        have htaken := hprimary _ _ _ hhead hbranch
        have hshorter := htaken.length_lt (Or.inl rfl)
        obtain ⟨front, hfront, hderives⟩ := htaken
        have hlength : middle.length ≤ bound := by
          rw [List.length_cons] at hbound
          omega
        obtain ⟨back, rfl, hrest⟩ := ih hlength hmore
        refine ⟨pipe :: (front ++ back), by rw [hfront]; simp, ?_⟩
        rw [List.map_cons, hpipe, List.map_append]
        rw [List.map_append] at hderives
        exact .branch hderives hrest

theorem taken_unit {lexemes rest : List Lexeme} {node : Node}
    (h : unit primary lexemes = .ok (node, rest)) : Taken .unit lexemes [node] rest := by
  unfold unit at h
  split at h
  · next start stop after =>
    obtain ⟨count, front, back, htake, hsplit, htokens, hhead⟩ := takePipes_split start stop after
    rw [htake] at h
    cases h
    refine ⟨front, hsplit, ?_⟩
    rw [htokens]
    exact .pipes count hhead
  · next hnot =>
    obtain ⟨⟨first, middle⟩, hfirst, h⟩ := bind_eq_ok_iff.1 h
    obtain ⟨⟨branches, final⟩, hmore, h⟩ := bind_eq_ok_iff.1 h
    obtain ⟨front, rfl, hderives⟩ := hprimary _ _ _ (head?_of_not_pipe hnot) hfirst
    obtain ⟨back, rfl, hrest⟩ := taken_moreBranches hprimary (Nat.le_refl _) hmore
    cases branches with
    | nil =>
        cases h
        obtain ⟨hback, hglued⟩ := hrest.branches_nil
        rw [List.map_eq_nil_iff] at hback
        subst hback
        exact ⟨front, rfl, .single hderives hglued⟩
    | cons other branches =>
        cases h
        refine ⟨front ++ back, (List.append_assoc _ _ _).symm, ?_⟩
        rw [List.map_append] at hderives ⊢
        exact .alternative hderives hrest

theorem taken_moreBlocks {bound : Nat} {lexemes rest : List Lexeme} {nodes : List Node}
    (hbound : lexemes.length ≤ bound)
    (h : moreBlocks primary bound lexemes = .ok (nodes, rest)) :
    Taken .more lexemes nodes rest := by
  induction bound generalizing lexemes nodes with
  | zero =>
      have hnil : lexemes = [] := List.length_eq_zero_iff.1 (Nat.le_zero.1 hbound)
      subst hnil
      cases h
      exact ⟨[], rfl, .noMore rfl⟩
  | succ bound ih =>
      obtain ⟨present, gap, after, htake, -, hsplit, htokens⟩ := takeGap_split lexemes
      have hahead := atUnit_takeGap lexemes
      rw [htake] at hahead
      rw [moreBlocks, htake] at h
      cases hunit : unitAhead (lexemes.map Lexeme.token) with
      | false =>
          rw [hunit] at hahead
          simp only [hahead, Bool.false_eq_true, if_false] at h
          cases h
          exact ⟨[], rfl, .noMore hunit⟩
      | true =>
          rw [hunit] at hahead
          simp only [hahead, if_true] at h
          obtain ⟨⟨node, middle⟩, hnode, h⟩ := bind_eq_ok_iff.1 h
          obtain ⟨⟨more, final⟩, hmore, h⟩ := bind_eq_ok_iff.1 h
          cases h
          have htaken := taken_unit hprimary hnode
          have hshorter := htaken.length_lt (Or.inr (Or.inl rfl))
          have hlength : middle.length ≤ bound := by
            have htotal := congrArg List.length hsplit
            rw [List.length_append] at htotal
            omega
          obtain ⟨front, hfront, hderives⟩ := htaken
          obtain ⟨back, rfl, hrest⟩ := ih hlength hmore
          refine ⟨gap ++ (front ++ back), ?_, ?_⟩
          · rw [hsplit, hfront]
            simp
          · rw [List.map_append, List.map_append, htokens]
            rw [List.map_append] at hderives
            exact .more present hderives hrest

theorem taken_blocks {lexemes rest : List Lexeme} {nodes : List Node}
    (h : blocks primary lexemes = .ok (nodes, rest)) : Taken .blocks lexemes nodes rest := by
  obtain ⟨⟨node, middle⟩, hnode, h⟩ := bind_eq_ok_iff.1 h
  obtain ⟨⟨more, final⟩, hmore, h⟩ := bind_eq_ok_iff.1 h
  cases h
  obtain ⟨front, rfl, hderives⟩ := taken_unit hprimary hnode
  obtain ⟨back, rfl, hrest⟩ := taken_moreBlocks hprimary (Nat.le_refl _) hmore
  refine ⟨front ++ back, (List.append_assoc _ _ _).symm, ?_⟩
  rw [List.map_append] at hderives ⊢
  exact .blocks hderives hrest

theorem taken_repetition {marker : Marker} {opener : Lexeme} {lexemes rest : List Lexeme}
    {node : Node} (hopener : opener.token = .repeatOpen marker)
    (h : repetition primary marker lexemes = .ok (node, rest)) :
    Taken .primary (opener :: lexemes) [node] rest := by
  unfold repetition at h
  obtain ⟨separator, sep, after, hsep, rfl, hseparates⟩ := takeSeparator_split lexemes
  obtain ⟨front, gap, inner, -, hskip, hfront, hgap⟩ := takeGap_split after
  simp only [hsep, hskip] at h
  -- In the order of the text: separator, gap, body, gap, closing brace.
  obtain ⟨⟨body, middle⟩, hbody, h⟩ := bind_eq_ok_iff.1 h
  obtain ⟨final, hclose, h⟩ := bind_eq_ok_iff.1 h
  cases h
  obtain ⟨taken, rfl, hderives⟩ := taken_blocks hprimary hbody
  obtain ⟨back, gap', inner', -, hskip', rfl, hgap'⟩ := takeGap_split middle
  rw [hskip'] at hclose
  obtain ⟨close, rfl, htoken⟩ := closeGroup_eq_ok hclose
  subst hfront
  refine ⟨opener :: (sep ++ (gap ++ (taken ++ (gap' ++ [close])))), by simp, ?_⟩
  simp only [List.map_append, List.map_cons, List.map_nil, hopener, htoken, hgap, hgap']
    at hseparates hderives ⊢
  exact .repetition marker front back hseparates hderives

theorem taken_curlies {opener : Lexeme} {lexemes rest : List Lexeme} {node : Node}
    (hopener : opener.token = .braceOpen) (h : curlies primary lexemes = .ok (node, rest)) :
    Taken .primary (opener :: lexemes) [node] rest := by
  unfold curlies at h
  obtain ⟨front, gap, inner, htake, -, rfl, hgap⟩ := takeGap_split lexemes
  rw [htake] at h
  obtain ⟨⟨body, middle⟩, hbody, h⟩ := bind_eq_ok_iff.1 h
  obtain ⟨back, gap', inner', htake', -, rfl, hgap'⟩ := takeGap_split middle
  simp only [htake'] at h
  obtain ⟨final, hclose, h⟩ := bind_eq_ok_iff.1 h
  cases h
  obtain ⟨taken, rfl, hderives⟩ := taken_blocks hprimary hbody
  obtain ⟨close, rfl, htoken⟩ := closeGroup_eq_ok hclose
  refine ⟨opener :: (gap ++ (taken ++ (gap' ++ [close]))), by simp, ?_⟩
  simp only [List.map_append, List.map_cons, List.map_nil, hopener, htoken, hgap, hgap',
    List.append_assoc] at hderives ⊢
  exact .curlies front back hderives

theorem faithful_primaryStep : Faithful (primaryStep primary) := by
  intro lexemes node rest hhead h
  match lexemes with
  | [] => cases h
  | ⟨token, start, stop⟩ :: after =>
      cases token with
      | atom text =>
          cases h
          exact ⟨[_], rfl, .atom text _⟩
      | hole id =>
          cases h
          exact ⟨[_], rfl, .hole id _⟩
      | repeatOpen marker => exact taken_repetition hprimary rfl h
      | braceOpen => exact taken_curlies hprimary rfl h
      | pipe => exact absurd rfl hhead
      | braceClose => cases h
      | gap => cases h

end

theorem faithful_primary (depth : Nat) : Faithful (primary depth) := by
  induction depth with
  | zero =>
      intro lexemes node rest _ h
      cases h
  | succ depth ih => exact faithful_primaryStep ih

/-! ## What is derived the reader takes -/

theorem takeGap_append {present : Bool} {front : List Lexeme} (back : List Lexeme)
    (hfront : front.map Lexeme.token = gapTokens present)
    (hback : (back.map Lexeme.token).head? ≠ some .gap) :
    takeGap (front ++ back) = (gapNodes present, back) ∧ skipGap (front ++ back) = back := by
  cases present with
  | true =>
      obtain ⟨⟨token, start, stop⟩, rfl, rfl⟩ := List.map_eq_singleton_iff.1 hfront
      exact ⟨rfl, rfl⟩
  | false =>
      rw [gapTokens, if_neg Bool.false_ne_true, List.map_eq_nil_iff] at hfront
      subst hfront
      match back with
      | [] => exact ⟨rfl, rfl⟩
      | ⟨token, start, stop⟩ :: rest =>
          cases token with
          | gap => exact absurd rfl hback
          | _ => exact ⟨rfl, rfl⟩

theorem takePipes_append {count : Nat} {front back : List Lexeme}
    (hfront : front.map Lexeme.token = pipeTokens count)
    (hback : (back.map Lexeme.token).head? ≠ some .pipe) :
    takePipes (front ++ back) = (pipeText count, back) := by
  have hpipes : ∀ lexeme ∈ front, isPipe lexeme = true := by
    intro lexeme hlexeme
    have hmem : lexeme.token ∈ pipeTokens count := hfront ▸ List.mem_map_of_mem hlexeme
    simp [isPipe, List.eq_of_mem_replicate hmem]
  have hnone : back.takeWhile isPipe = [] ∧ back.dropWhile isPipe = back := by
    cases back with
    | nil => exact ⟨rfl, rfl⟩
    | cons lexeme rest =>
        have hnot : isPipe lexeme = false := by
          simpa [isPipe] using hback
        exact ⟨List.takeWhile_cons_of_neg (by simp [hnot]),
          List.dropWhile_cons_of_neg (by simp [hnot])⟩
  have hlength : front.length = count := by
    rw [← List.length_map Lexeme.token, hfront, pipeTokens, List.length_replicate]
  rw [takePipes, List.takeWhile_append_of_pos hpipes, List.dropWhile_append_of_pos hpipes,
    hnone.1, hnone.2, List.append_nil, List.map_const', hlength, pipeText]

theorem takeSeparator_append {separator : Option String} {front back : List Lexeme}
    (h : Separates (front.map Lexeme.token) separator (back.map Lexeme.token)) :
    takeSeparator (front ++ back) = (separator, back) := by
  generalize htokens : front.map Lexeme.token = tokens at h
  generalize hafter : back.map Lexeme.token = after at h
  cases h with
  | none hahead =>
      rw [List.map_eq_nil_iff] at htokens
      subst htokens hafter
      match back with
      | [] => rfl
      | ⟨token, start, stop⟩ :: rest =>
          cases token with
          | atom text => cases hahead
          | pipe => cases hahead
          | _ => rfl
  | atom text =>
      obtain ⟨⟨token, start, stop⟩, rfl, rfl⟩ := List.map_eq_singleton_iff.1 htokens
      rfl
  | pipes count hhead =>
      subst hafter
      have htake := takePipes_append htokens hhead
      obtain ⟨⟨token, start, stop⟩, rest, rfl, rfl, -⟩ := List.map_eq_cons_iff.1 htokens
      rw [List.cons_append] at htake ⊢
      rw [takeSeparator, htake]

/-- What it is for the reader to take a piece of each kind. -/
def Runs (part : Part) (depth : Nat) (front back : List Lexeme) (nodes : List Node) : Prop :=
  match part with
  | .primary => ∃ node, nodes = [node] ∧ primary depth (front ++ back) = .ok (node, back)
  | .branches => ∀ bound, front.length ≤ bound →
      moreBranches (primary depth) bound (front ++ back) = .ok (nodes, back)
  | .unit => ∃ node, nodes = [node] ∧ unit (primary depth) (front ++ back) = .ok (node, back)
  | .more => ∀ bound, front.length ≤ bound →
      moreBlocks (primary depth) bound (front ++ back) = .ok (nodes, back)
  | .blocks => blocks (primary depth) (front ++ back) = .ok (nodes, back)

section
variable {primary : Step Node}

theorem moreBranches_stop {lexemes : List Lexeme}
    (h : gluedPipe (lexemes.map Lexeme.token) = false) (bound : Nat) :
    moreBranches primary bound lexemes = .ok ([], lexemes) := by
  cases bound with
  | zero => rfl
  | succ bound =>
      rcases gluedPipe?_cases lexemes with ⟨-, hnone⟩ | ⟨pipe, next, rest, rfl, hpipe, hnext, -⟩
      · rw [moreBranches, hnone]
      · rw [List.map_cons, hpipe, List.map_cons, gluedPipe, hnext] at h
        cases h

theorem moreBlocks_stop {lexemes : List Lexeme}
    (h : unitAhead (lexemes.map Lexeme.token) = false) (bound : Nat) :
    moreBlocks primary bound lexemes = .ok ([], lexemes) := by
  cases bound with
  | zero => rfl
  | succ bound =>
      have hahead := atUnit_takeGap lexemes
      rw [h] at hahead
      simp [moreBlocks, hahead]

/-- Where no pipe stands a unit is a primary with the branches after it. -/
theorem unit_of_not_pipe {lexemes : List Lexeme}
    (hhead : (lexemes.map Lexeme.token).head? ≠ some .pipe) :
    unit primary lexemes = primary lexemes >>= fun p =>
      moreBranches primary p.2.length p.2 >>= fun q =>
        .ok (if q.1 = [] then p.1 else .alternative (p.1 :: q.1), q.2) := by
  unfold unit
  split
  · exact absurd rfl hhead
  · refine bind_congr fun p => bind_congr fun q => ?_
    obtain ⟨branches, rest⟩ := q
    cases branches with
    | nil => rfl
    | cons other branches => rfl

theorem unit_eq_ok {lexemes middle rest : List Lexeme} {first : Node} {branches : List Node}
    (hhead : (lexemes.map Lexeme.token).head? ≠ some .pipe)
    (hfirst : primary lexemes = .ok (first, middle))
    (hmore : moreBranches primary middle.length middle = .ok (branches, rest)) :
    unit primary lexemes =
      .ok (if branches = [] then first else .alternative (first :: branches), rest) := by
  rw [unit_of_not_pipe hhead]
  exact bind_eq_ok_iff.2 ⟨_, hfirst, bind_eq_ok_iff.2 ⟨_, hmore, rfl⟩⟩

end

/-- No pipe and no gap stands where a primary starts. -/
theorem head?_of_startsPrimary {lexemes : List Lexeme} {nodes : List Node} {rest : List Token}
    (h : Derives .primary (lexemes.map Lexeme.token) nodes rest) (back : List Lexeme) :
    ((lexemes ++ back).map Lexeme.token).head? ≠ some .pipe := by
  obtain ⟨token, after, htokens, hstarts⟩ := h.primary_head
  rw [List.map_append, htokens, List.cons_append, List.head?_cons]
  rintro ⟨rfl⟩
  cases hstarts

theorem head?_of_startsUnit {lexemes : List Lexeme} {nodes : List Node} {rest : List Token}
    (h : Derives .blocks (lexemes.map Lexeme.token) nodes rest) (back : List Lexeme) :
    ((lexemes ++ back).map Lexeme.token).head? ≠ some .gap := by
  obtain ⟨token, after, htokens, hstarts⟩ := h.blocks_head
  rw [List.map_append, htokens, List.cons_append, List.head?_cons]
  rintro ⟨rfl⟩
  cases hstarts

/-- The lexemes of the inside of a group, with its closing brace. -/
theorem map_eq_inside {lexemes : List Lexeme} {present present' : Bool} {body : List Token}
    (h : lexemes.map Lexeme.token =
      gapTokens present ++ (body ++ (gapTokens present' ++ [.braceClose]))) :
    ∃ gap inner gap' start stop,
      lexemes = gap ++ (inner ++ (gap' ++ [⟨.braceClose, start, stop⟩])) ∧
      gap.map Lexeme.token = gapTokens present ∧ inner.map Lexeme.token = body ∧
      gap'.map Lexeme.token = gapTokens present' := by
  obtain ⟨gap, tail, rfl, hgap, h₁⟩ := List.map_eq_append_iff.1 h
  obtain ⟨inner, tail', rfl, hinner, h₂⟩ := List.map_eq_append_iff.1 h₁
  obtain ⟨gap', tail'', rfl, hgap', h₃⟩ := List.map_eq_append_iff.1 h₂
  obtain ⟨⟨token, start, stop⟩, rfl, rfl⟩ := List.map_eq_singleton_iff.1 h₃
  exact ⟨gap, inner, gap', start, stop, rfl, hgap, hinner, hgap'⟩

section
variable {depth start stop start' stop' : Nat} {present present' : Bool}
  {gap body gap' back : List Lexeme} {nodes : List Node} {rest : List Token}

/-- With its body read, a repetition is read to its end. -/
theorem primary_repetition {marker : Marker} {sep : List Lexeme} {separator : Option String}
    (hsep : Separates (sep.map Lexeme.token) separator
      ((gap ++ (body ++ (gap' ++ ⟨.braceClose, start', stop'⟩ :: back))).map Lexeme.token))
    (hgap : gap.map Lexeme.token = gapTokens present)
    (hgap' : gap'.map Lexeme.token = gapTokens present')
    (hderives : Derives .blocks (body.map Lexeme.token) nodes rest)
    (hbody : blocks (primary depth) (body ++ (gap' ++ ⟨.braceClose, start', stop'⟩ :: back)) =
      .ok (nodes, gap' ++ ⟨.braceClose, start', stop'⟩ :: back)) :
    primary (depth + 1) (⟨.repeatOpen marker, start, stop⟩ ::
        (sep ++ (gap ++ (body ++ (gap' ++ ⟨.braceClose, start', stop'⟩ :: back))))) =
      .ok (.repetition marker separator nodes, back) := by
  have hfirst := (takeGap_append _ hgap (head?_of_startsUnit hderives
    (gap' ++ ⟨.braceClose, start', stop'⟩ :: back))).2
  have hlast := (takeGap_append (⟨.braceClose, start', stop'⟩ :: back) hgap' (by rintro ⟨⟩)).2
  change Reader.repetition (primary depth) marker _ = _
  rw [Reader.repetition, takeSeparator_append hsep]
  refine bind_eq_ok_iff.2 ⟨(nodes, gap' ++ ⟨.braceClose, start', stop'⟩ :: back), ?_,
    bind_eq_ok_iff.2 ⟨back, ?_, rfl⟩⟩
  · rw [hfirst]
    exact hbody
  · rw [hlast]
    rfl

/-- With their body read, curlies are read to their end. -/
theorem primary_curlies (hgap : gap.map Lexeme.token = gapTokens present)
    (hgap' : gap'.map Lexeme.token = gapTokens present')
    (hderives : Derives .blocks (body.map Lexeme.token) nodes rest)
    (hbody : blocks (primary depth) (body ++ (gap' ++ ⟨.braceClose, start', stop'⟩ :: back)) =
      .ok (nodes, gap' ++ ⟨.braceClose, start', stop'⟩ :: back)) :
    primary (depth + 1) (⟨.braceOpen, start, stop⟩ ::
        (gap ++ (body ++ (gap' ++ ⟨.braceClose, start', stop'⟩ :: back)))) =
      .ok (.curlies (gapNodes present ++ (nodes ++ gapNodes present')), back) := by
  have hfirst := (takeGap_append _ hgap (head?_of_startsUnit hderives
    (gap' ++ ⟨.braceClose, start', stop'⟩ :: back))).1
  have hlast := (takeGap_append (⟨.braceClose, start', stop'⟩ :: back) hgap' (by rintro ⟨⟩)).1
  change Reader.curlies (primary depth) _ = _
  rw [Reader.curlies, hfirst]
  refine bind_eq_ok_iff.2 ⟨_, hbody, ?_⟩
  simp only [hlast, List.append_assoc]
  rfl

/-- After a glued pipe a branch is read, and then those after it. -/
theorem moreBranches_branch {bound : Nat} {first others : List Lexeme} {node : Node}
    (hderives : Derives .primary (first.map Lexeme.token) [node] rest)
    (hfirst : primary depth (first ++ (others ++ back)) = .ok (node, others ++ back))
    (hmore : moreBranches (primary depth) bound (others ++ back) = .ok (nodes, back)) :
    moreBranches (primary depth) (bound + 1) (⟨.pipe, start, stop⟩ :: (first ++ (others ++ back))) =
      .ok (node :: nodes, back) := by
  obtain ⟨token, after, htokens, hstarts⟩ := hderives.primary_head
  obtain ⟨⟨token, start', stop'⟩, inner, rfl, rfl, -⟩ := List.map_eq_cons_iff.1 htokens
  have hglued : gluedPipe? (⟨.pipe, start, stop⟩ ::
        (⟨token, start', stop'⟩ :: inner ++ (others ++ back))) =
      some (⟨token, start', stop'⟩ :: inner ++ (others ++ back)) := by
    simp [gluedPipe?, hstarts]
  rw [moreBranches, hglued]
  exact bind_eq_ok_iff.2 ⟨_, hfirst, bind_eq_ok_iff.2 ⟨_, hmore, rfl⟩⟩

/-- After a gap, or none, a unit is read, and then those after it. -/
theorem moreBlocks_more {bound : Nat} {first others : List Lexeme} {node : Node}
    (hgap : gap.map Lexeme.token = gapTokens present)
    (hderives : Derives .unit (first.map Lexeme.token) [node] rest)
    (hfirst : unit (primary depth) (first ++ (others ++ back)) = .ok (node, others ++ back))
    (hmore : moreBlocks (primary depth) bound (others ++ back) = .ok (nodes, back)) :
    moreBlocks (primary depth) (bound + 1) (gap ++ (first ++ (others ++ back))) =
      .ok (gapNodes present ++ node :: nodes, back) := by
  obtain ⟨token, after, htokens, hstarts⟩ := hderives.unit_head
  obtain ⟨lexeme, inner, rfl, rfl, -⟩ := List.map_eq_cons_iff.1 htokens
  have hhead : ((lexeme :: inner ++ (others ++ back)).map Lexeme.token).head? ≠ some .gap := by
    rw [List.cons_append, List.map_cons, List.head?_cons]
    intro heq
    rw [Option.some.inj heq] at hstarts
    cases hstarts
  have htake := (takeGap_append _ hgap hhead).1
  have hahead : atUnit (lexeme :: inner ++ (others ++ back)) = true := hstarts
  rw [moreBlocks, htake]
  simp only [hahead, if_true]
  exact bind_eq_ok_iff.2 ⟨_, hfirst, bind_eq_ok_iff.2 ⟨_, hmore, rfl⟩⟩

end

/-- With as much depth as there are tokens the reader follows a derivation. -/
theorem Derives.runs {part : Part} {taken rest : List Token} {nodes : List Node}
    (h : Derives part taken nodes rest) (depth : Nat) (front back : List Lexeme)
    (hfront : front.map Lexeme.token = taken) (hback : back.map Lexeme.token = rest)
    (hdepth : front.length ≤ depth) : Runs part depth front back nodes := by
  -- Each case cuts the lexemes where the derivation cuts the tokens.
  induction h generalizing depth front back with
  | atom text =>
      obtain ⟨⟨token, start, stop⟩, rfl, rfl⟩ := List.map_eq_singleton_iff.1 hfront
      obtain ⟨depth, rfl⟩ := Nat.exists_eq_succ_of_ne_zero (Nat.pos_iff_ne_zero.1 hdepth)
      exact ⟨_, rfl, rfl⟩
  | hole id =>
      obtain ⟨⟨token, start, stop⟩, rfl, rfl⟩ := List.map_eq_singleton_iff.1 hfront
      obtain ⟨depth, rfl⟩ := Nat.exists_eq_succ_of_ne_zero (Nat.pos_iff_ne_zero.1 hdepth)
      exact ⟨_, rfl, rfl⟩
  | repetition marker present present' hsep hbody ih =>
      obtain ⟨⟨token, start, stop⟩, tail, rfl, rfl, htail⟩ := List.map_eq_cons_iff.1 hfront
      obtain ⟨sep, inside, rfl, rfl, hinside⟩ := List.map_eq_append_iff.1 htail
      obtain ⟨gap, body, gap', start', stop', rfl, hgap, rfl, hgap'⟩ := map_eq_inside hinside
      obtain ⟨depth, rfl⟩ := Nat.exists_eq_succ_of_ne_zero (Nat.ne_zero_of_lt hdepth)
      subst hback
      have hafter : (gap' ++ ⟨.braceClose, start', stop'⟩ :: back).map Lexeme.token =
          gapTokens present' ++ .braceClose :: back.map Lexeme.token := by
        rw [List.map_append, hgap', List.map_cons]
      have hlength : body.length ≤ depth := by
        simp only [List.length_cons, List.length_append] at hdepth
        omega
      rw [← hgap, ← hafter, ← List.map_append, ← List.map_append] at hsep
      refine ⟨_, rfl, ?_⟩
      simp only [List.cons_append, List.append_assoc, List.nil_append]
      exact primary_repetition hsep hgap hgap' hbody (ih depth body _ rfl hafter hlength)
  | curlies present present' hbody ih =>
      obtain ⟨⟨token, start, stop⟩, inside, rfl, rfl, hinside⟩ := List.map_eq_cons_iff.1 hfront
      obtain ⟨gap, body, gap', start', stop', rfl, hgap, rfl, hgap'⟩ := map_eq_inside hinside
      obtain ⟨depth, rfl⟩ := Nat.exists_eq_succ_of_ne_zero (Nat.ne_zero_of_lt hdepth)
      subst hback
      have hafter : (gap' ++ ⟨.braceClose, start', stop'⟩ :: back).map Lexeme.token =
          gapTokens present' ++ .braceClose :: back.map Lexeme.token := by
        rw [List.map_append, hgap', List.map_cons]
      have hlength : body.length ≤ depth := by
        simp only [List.length_cons, List.length_append] at hdepth
        omega
      refine ⟨_, rfl, ?_⟩
      simp only [List.cons_append, List.append_assoc, List.nil_append]
      exact primary_curlies hgap hgap' hbody (ih depth body _ rfl hafter hlength)
  | noBranch hglued =>
      rw [List.map_eq_nil_iff] at hfront
      subst hfront hback
      exact fun bound _ => moreBranches_stop hglued bound
  | branch hbranch hmore ihBranch ihMore =>
      obtain ⟨⟨token, start, stop⟩, tail, rfl, rfl, htail⟩ := List.map_eq_cons_iff.1 hfront
      obtain ⟨first, others, rfl, rfl, rfl⟩ := List.map_eq_append_iff.1 htail
      subst hback
      intro bound hbound
      obtain ⟨bound, rfl⟩ := Nat.exists_eq_succ_of_ne_zero (Nat.ne_zero_of_lt hbound)
      simp only [List.length_cons, List.length_append] at hdepth hbound
      obtain ⟨_, ⟨⟩, hfirst⟩ := ihBranch depth first (others ++ back) rfl (by simp) (by omega)
      have hrest := ihMore depth others back rfl rfl (by omega) bound (by omega)
      rw [List.cons_append, List.append_assoc]
      exact moreBranches_branch hbranch hfirst hrest
  | single hnode hglued ih =>
      obtain ⟨node, hnodes, hrun⟩ := ih depth front back hfront hback hdepth
      subst hfront hback
      exact ⟨node, hnodes, unit_eq_ok (head?_of_startsPrimary hnode _) hrun
        (moreBranches_stop hglued _)⟩
  | @alternative taken more rest node other nodes hfirst hmore ihFirst ihMore =>
      obtain ⟨first, others, rfl, rfl, rfl⟩ := List.map_eq_append_iff.1 hfront
      subst hback
      simp only [List.length_append] at hdepth
      obtain ⟨_, ⟨⟩, hrun⟩ := ihFirst depth first (others ++ back) rfl (by simp) (by omega)
      have hrest := ihMore depth others back rfl rfl (by omega) (others ++ back).length (by simp)
      have hhead := head?_of_startsPrimary hfirst (others ++ back)
      refine ⟨_, rfl, ?_⟩
      rw [List.append_assoc, unit_eq_ok hhead hrun hrest, if_neg (List.cons_ne_nil other nodes)]
  | pipes count hhead =>
      subst hback
      have htake := takePipes_append hfront hhead
      obtain ⟨⟨token, start, stop⟩, tail, rfl, rfl, -⟩ := List.map_eq_cons_iff.1 hfront
      refine ⟨_, rfl, ?_⟩
      rw [List.cons_append] at htake ⊢
      rw [unit, htake]
  | noMore hahead =>
      rw [List.map_eq_nil_iff] at hfront
      subst hfront hback
      exact fun bound _ => moreBlocks_stop hahead bound
  | more present hunit hmore ihUnit ihMore =>
      obtain ⟨gap, tail, rfl, hgap, htail⟩ := List.map_eq_append_iff.1 hfront
      obtain ⟨first, others, rfl, rfl, rfl⟩ := List.map_eq_append_iff.1 htail
      subst hback
      intro bound hbound
      have hne := List.length_pos_iff.2 (hunit.ne_nil (Or.inr (Or.inl rfl)))
      rw [List.length_map] at hne
      simp only [List.length_append] at hdepth hbound
      have hpos : bound ≠ 0 := by omega
      obtain ⟨bound, rfl⟩ := Nat.exists_eq_succ_of_ne_zero hpos
      obtain ⟨_, ⟨⟩, hrun⟩ := ihUnit depth first (others ++ back) rfl (by simp) (by omega)
      have hrest := ihMore depth others back rfl rfl (by omega) bound (by omega)
      rw [List.append_assoc, List.append_assoc]
      exact moreBlocks_more hgap hunit hrun hrest
  | blocks hunit hmore ihUnit ihMore =>
      obtain ⟨first, others, rfl, rfl, rfl⟩ := List.map_eq_append_iff.1 hfront
      subst hback
      simp only [List.length_append] at hdepth
      obtain ⟨_, ⟨⟩, hrun⟩ := ihUnit depth first (others ++ back) rfl (by simp) (by omega)
      have hrest := ihMore depth others back rfl rfl (by omega) (others ++ back).length (by simp)
      rw [Runs, List.append_assoc]
      exact bind_eq_ok_iff.2 ⟨_, hrun, bind_eq_ok_iff.2 ⟨_, hrest, rfl⟩⟩

/-! ## Whole notations -/

/-- The tokens are a whole notation and stand for the nodes. -/
def Whole (tokens : List Token) (nodes : List Node) : Prop :=
  ∃ present body present', tokens = gapTokens present ++ (body ++ gapTokens present') ∧
    Derives .blocks body nodes (gapTokens present')

theorem whole_of_root {lexemes : List Lexeme} {nodes : List Node} (h : root lexemes = .ok nodes) :
    Whole (lexemes.map Lexeme.token) nodes := by
  obtain ⟨present, gap, inner, -, hskip, rfl, hgap⟩ := takeGap_split lexemes
  rw [root, hskip] at h
  match inner with
  | [] => cases h
  | first :: rest =>
      obtain ⟨⟨nodes', after⟩, hblocks, h⟩ := bind_eq_ok_iff.1 h
      obtain ⟨taken, htaken, hderives⟩ := taken_blocks (faithful_primary _) hblocks
      obtain ⟨present', gap', last, -, hskip', rfl, hgap'⟩ := takeGap_split after
      simp only [hskip'] at h
      cases last with
      | nil =>
          cases h
          rw [List.append_nil] at htaken hderives
          rw [hgap'] at hderives
          refine ⟨present, taken.map Lexeme.token, present', ?_, hderives⟩
          rw [htaken, List.map_append, List.map_append, hgap, hgap']
      | cons lexeme more => cases h

theorem root_of_whole {lexemes : List Lexeme} {nodes : List Node}
    (h : Whole (lexemes.map Lexeme.token) nodes) : root lexemes = .ok nodes := by
  obtain ⟨present, body, present', htokens, hderives⟩ := h
  obtain ⟨gap, tail, rfl, hgap, htail⟩ := List.map_eq_append_iff.1 htokens
  obtain ⟨inner, gap', rfl, rfl, hgap'⟩ := List.map_eq_append_iff.1 htail
  have hskip := (takeGap_append _ hgap (head?_of_startsUnit hderives gap')).2
  have hlast : skipGap gap' = [] := by
    have hnil := (takeGap_append [] hgap' (by rintro ⟨⟩)).2
    rwa [List.append_nil] at hnil
  have hrun : blocks (primary (inner ++ gap').length) (inner ++ gap') = .ok (nodes, gap') :=
    hderives.runs _ inner gap' rfl hgap' (by simp)
  rw [root, hskip]
  cases hlexemes : inner ++ gap' with
  | nil =>
      rw [(List.append_eq_nil_iff.1 hlexemes).1] at hderives
      exact absurd rfl (hderives.ne_nil (Or.inr (Or.inr rfl)))
  | cons first rest =>
      rw [hlexemes] at hrun
      refine bind_eq_ok_iff.2 ⟨_, hrun, ?_⟩
      simp only [hlast]

/-- The reader accepts a list of tokens precisely if it is a whole notation. -/
theorem root_eq_ok_iff {lexemes : List Lexeme} {nodes : List Node} :
    root lexemes = .ok nodes ↔ Whole (lexemes.map Lexeme.token) nodes :=
  ⟨whole_of_root, root_of_whole⟩

/-- A text is read as a tree precisely if it splits into tokens that are a whole
notation and stand for the tree. -/
theorem parseTree_eq_ok_iff {source : String} {nodes : List Node} :
    parseTree source = .ok nodes ↔
      ∃ lexemes, lex source = .ok lexemes ∧ Whole (lexemes.map Lexeme.token) nodes := by
  rw [parseTree, bind_eq_ok_iff]
  refine exists_congr fun lexemes => and_congr_right fun _ => ?_
  rw [← root_eq_ok_iff]
  cases root lexemes with
  | ok nodes' => simp
  | error fault => simp

end Grammar
end TacticNotation
