import Mathlib.Data.List.TakeWhile
import TacticNotation.Proofs.Json.Grammar

/-!
# Reading JSON

A reader for the grammar.  It takes the texts that are JSON and no others, and gives the
value that the text is for (`read?_eq_some_iff`).  So no text is JSON for two values
(`IsText.unique`).

Each step of the reader has one lemma for either direction.  `Sound` says that what the
step takes is in the grammar, `Complete` that the step takes what is in the grammar.  The
reader counts its calls down from the length of the text, and `Complete` therefore
speaks of texts up to a length.
-/

namespace TacticNotation
namespace Json

/-! ## The reader -/

namespace Reader

/-- A step of the reader. -/
abbrev Step (α : Type) := List Char → Option (α × List Char)

/-- The text after the blanks at its front. -/
def skip (text : List Char) : List Char := text.dropWhile isSpace

/-- One character of a string. -/
def character : Step Char
  | '\\' :: 'u' :: a :: b :: c :: d :: rest => do
      let unit ← unit? a b c d
      if unit.isValidChar then some (Char.ofNat unit, rest)
      else
        match rest with
        | '\\' :: 'u' :: a :: b :: c :: d :: rest => do
            let number ← pair? unit (← unit? a b c d)
            some (Char.ofNat number, rest)
        | _ => none
  | '\\' :: letter :: rest => (shortEscape? letter).map (·, rest)
  | c :: rest => if c ≠ '"' ∧ c ≠ '\\' ∧ 32 ≤ c.toNat then some (c, rest) else none
  | [] => none

/-- The characters of a string up to the quote that ends it; `bound` limits their
number. -/
def characters : Nat → Step (List Char)
  | _, '"' :: rest => some ([], rest)
  | 0, _ => none
  | bound + 1, text => do
      let (first, rest) ← character text
      let (others, rest) ← characters bound rest
      some (first :: others, rest)

/-- A string after the quote that opens it. -/
def string : Step String := fun text => do
  let (chars, rest) ← characters text.length text
  some (String.ofList chars, rest)

section
variable {α : Type} (element : Step α) (close : Char)

/-- The elements after the first up to the sign that closes; `bound` limits their
number. -/
def more : Nat → Step (List α)
  | 0, _ => none
  | bound + 1, text =>
      match skip text with
      | [] => none
      | c :: rest =>
          if c = close then some ([], rest)
          else if c = ',' then do
            let (first, rest) ← element (skip rest)
            let (others, rest) ← more bound rest
            some (first :: others, rest)
          else none

/-- Elements with commas between them up to the sign that closes. -/
def row : Step (List α) := fun text =>
  match skip text with
  | [] => none
  | c :: rest =>
      if c = close then some ([], rest)
      else do
        let (first, rest) ← element (c :: rest)
        let (others, rest) ← more element close (rest.length + 1) rest
        some (first :: others, rest)

end

section
variable (value : Step Json)

/-- A key, a colon and a value. -/
def member : Step (String × Json)
  | '"' :: rest => do
      let (key, rest) ← string rest
      match skip rest with
      | ':' :: rest => do
          let (v, rest) ← value (skip rest)
          some ((key, v), rest)
      | _ => none
  | _ => none

/-- A value of which the values below are read by `value`. -/
def valueStep : Step Json
  | '"' :: rest => do
      let (text, rest) ← string rest
      some (.string text, rest)
  | '[' :: rest => do
      let (items, rest) ← row value ']' rest
      some (.array items, rest)
  | '{' :: rest => do
      let (members, rest) ← row (member value) '}' rest
      some (.object members, rest)
  | 'n' :: 'u' :: 'l' :: 'l' :: rest => some (.null, rest)
  | _ => none

end

/-- A value with arrays and objects nested less than `depth` deep. -/
def value : Nat → Step Json
  | 0 => fun _ => none
  | depth + 1 => valueStep (value depth)

/-! ## What the reader accepts is JSON -/

/-- What a step takes from the front of a text is written for what it gives. -/
def Sound {α : Type} (writes : List Char → α → Prop) (step : Step α) : Prop :=
  ∀ text a rest, step text = some (a, rest) → ∃ run, text = run ++ rest ∧ writes run a

/-- What is read first is in the grammar, and what is left is what the next step gets. -/
theorem Sound.of_bind {α β : Type} {writes : List Char → α → Prop} {step : Step α}
    (hstep : Sound writes step) {next : α × List Char → Option β} {text : List Char} {result : β}
    (h : (step text).bind next = some result) :
    ∃ run a rest, text = run ++ rest ∧ writes run a ∧ next (a, rest) = some result := by
  obtain ⟨⟨a, rest⟩, hfirst, hnext⟩ := Option.bind_eq_some_iff.mp h
  obtain ⟨run, htext, hrun⟩ := hstep text a rest hfirst
  exact ⟨run, a, rest, htext, hrun, hnext⟩

theorem exists_blank_append_skip (text : List Char) :
    ∃ blank, Blank blank ∧ text = blank ++ skip text := by
  refine ⟨text.takeWhile isSpace, ?_, (List.takeWhile_append_dropWhile).symm⟩
  intro c hc
  exact List.mem_takeWhile_imp hc

theorem isValidChar_of_pair {high low number : Nat} (h : pair? high low = some number) :
    number.isValidChar := by
  simp only [pair?, Option.ite_none_right_eq_some, Option.some.injEq] at h
  right
  omega

theorem toNat_ofNat {number : Nat} (h : number.isValidChar) :
    (Char.ofNat number).toNat = number := by
  rw [Char.ofNat, dif_pos h]
  rfl

theorem character_sound : Sound Spells character := by
  intro text char rest h
  unfold character at h
  split at h
  · rename_i a b c d tail
    obtain ⟨number, hnumber, hchar⟩ := Option.bind_eq_some_iff.mp h
    split at hchar
    · rename_i hvalid
      obtain ⟨rfl, rfl⟩ := by simpa using hchar
      refine ⟨['\\', 'u', a, b, c, d], rfl, .unit ?_⟩
      rw [hnumber, toNat_ofNat hvalid]
    · -- A number that is no character is the first half of a pair.
      split at hchar
      · rename_i a' b' c' d' tail
        obtain ⟨low, hlow, hpair⟩ := Option.bind_eq_some_iff.mp hchar
        obtain ⟨full, hfull, hchar⟩ := Option.bind_eq_some_iff.mp hpair
        obtain ⟨rfl, rfl⟩ := by simpa using hchar
        refine ⟨['\\', 'u', a, b, c, d, '\\', 'u', a', b', c', d'], rfl, .pair hnumber hlow ?_⟩
        rw [hfull, toNat_ofNat (isValidChar_of_pair hfull)]
      · cases hchar
  · rename_i letter tail hletter
    obtain ⟨found, hfound, hchar⟩ := Option.map_eq_some_iff.mp h
    obtain ⟨rfl, rfl⟩ := by simpa using hchar
    exact ⟨['\\', letter], rfl, .short hfound⟩
  · rename_i c tail hunit hshort
    split at h
    · rename_i hplain
      obtain ⟨rfl, rfl⟩ := by simpa using h
      exact ⟨[c], rfl, .plain hplain.1 hplain.2.1 hplain.2.2⟩
    · cases h
  · cases h

theorem characters_sound (bound : Nat) : Sound Quoted (characters bound) := by
  intro text chars rest h
  fun_induction characters bound text generalizing chars with
  | case1 =>
      obtain ⟨rfl, rfl⟩ := by simpa using h
      exact ⟨['"'], rfl, .close⟩
  | case2 => cases h
  | case3 bound text htext ih =>
      obtain ⟨run, first, tail, rfl, hrun, hothers⟩ := character_sound.of_bind h
      obtain ⟨⟨others, tail'⟩, hmore, hend⟩ := Option.bind_eq_some_iff.mp hothers
      obtain ⟨rfl, rfl⟩ := by simpa using hend
      obtain ⟨run', rfl, hrun'⟩ := ih _ _ hmore
      exact ⟨run ++ run', by simp, .next hrun hrun'⟩

theorem string_sound : Sound (fun run value => Quoted run value.toList) string := by
  intro text value rest h
  obtain ⟨run, chars, tail, rfl, hrun, hend⟩ := (characters_sound text.length).of_bind h
  obtain ⟨rfl, rfl⟩ := by simpa using hend
  exact ⟨run, rfl, by simpa using hrun⟩

section
variable {α : Type} {writes : List Char → α → Prop} {element : Step α} {close : Char}

theorem more_sound (helement : Sound writes element) (bound : Nat) :
    Sound (More writes close) (more element close bound) := by
  induction bound with
  | zero => intro text elements rest h; cases h
  | succ bound ih =>
      intro text elements rest h
      obtain ⟨before, hbefore, htext⟩ := exists_blank_append_skip text
      unfold more at h
      split at h
      · cases h
      · rename_i c tail hskip
        rw [hskip] at htext
        split at h
        · rename_i hclose
          obtain ⟨rfl, rfl⟩ := by simpa using h
          exact ⟨before ++ [c], by simp [htext], hclose ▸ .close hbefore⟩
        · split at h
          · rename_i hcomma
            obtain ⟨after, hafter, htail⟩ := exists_blank_append_skip tail
            obtain ⟨run, first, tail', hfront, hrun, hothers⟩ := helement.of_bind h
            obtain ⟨run', others, tail'', rfl, hrun', hend⟩ := ih.of_bind hothers
            obtain ⟨rfl, rfl⟩ := by simpa using hend
            refine ⟨before ++ ',' :: (after ++ (run ++ run')), ?_,
              .next hbefore hafter hrun hrun'⟩
            rw [htext, hcomma, htail, hfront]
            simp
          · cases h

theorem row_sound (helement : Sound writes element) :
    Sound (Row writes close) (row element close) := by
  intro text elements rest h
  obtain ⟨blank, hblank, htext⟩ := exists_blank_append_skip text
  unfold row at h
  split at h
  · cases h
  · rename_i c tail hskip
    rw [hskip] at htext
    split at h
    · rename_i hclose
      obtain ⟨rfl, rfl⟩ := by simpa using h
      exact ⟨blank ++ [c], by simp [htext], hclose ▸ .empty hblank⟩
    · obtain ⟨run, first, tail', hfront, hrun, hothers⟩ := helement.of_bind h
      obtain ⟨run', others, tail'', rfl, hrun', hend⟩ := (more_sound helement _).of_bind hothers
      obtain ⟨rfl, rfl⟩ := by simpa using hend
      refine ⟨blank ++ (run ++ run'), ?_, .filled hblank hrun hrun'⟩
      rw [htext, hfront]
      simp

end

section
variable {step : Step Json}

theorem member_sound (hstep : Sound Writes step) : Sound (Member Writes) (member step) := by
  intro text found rest h
  unfold member at h
  split at h
  · rename_i tail
    obtain ⟨name, key, tail', rfl, hname, hcolon⟩ := string_sound.of_bind h
    obtain ⟨before, hbefore, htail'⟩ := exists_blank_append_skip tail'
    dsimp only at hcolon
    split at hcolon
    · rename_i tail'' hskip
      obtain ⟨after, hafter, htail''⟩ := exists_blank_append_skip tail''
      obtain ⟨run, v, rest', hfront, hrun, hend⟩ := hstep.of_bind hcolon
      obtain ⟨rfl, rfl⟩ := by simpa using hend
      refine ⟨'"' :: (name ++ (before ++ ':' :: (after ++ run))), ?_,
        .mk hname hbefore hafter hrun⟩
      rw [htail', hskip, htail'', hfront]
      simp
    · cases hcolon
  · cases h

theorem valueStep_sound (hstep : Sound Writes step) : Sound Writes (valueStep step) := by
  intro text v rest h
  unfold valueStep at h
  split at h
  · obtain ⟨run, value, tail, rfl, hrun, hend⟩ := string_sound.of_bind h
    obtain ⟨rfl, rfl⟩ := by simpa using hend
    exact ⟨'"' :: run, rfl, .string hrun⟩
  · obtain ⟨run, items, tail, rfl, hrun, hend⟩ := (row_sound hstep).of_bind h
    obtain ⟨rfl, rfl⟩ := by simpa using hend
    exact ⟨'[' :: run, rfl, .array hrun⟩
  · obtain ⟨run, members, tail, rfl, hrun, hend⟩ := (row_sound (member_sound hstep)).of_bind h
    obtain ⟨rfl, rfl⟩ := by simpa using hend
    exact ⟨'{' :: run, rfl, .object hrun⟩
  · obtain ⟨rfl, rfl⟩ := by simpa using h
    exact ⟨['n', 'u', 'l', 'l'], rfl, .null⟩
  · cases h

end

theorem value_sound (depth : Nat) : Sound Writes (value depth) := by
  induction depth with
  | zero => intro text v rest h; cases h
  | succ depth ih => exact valueStep_sound ih

/-! ## What is JSON is read -/

/-- A step takes every text that is written for a value and no longer than `bound`,
whatever comes after it. -/
def Complete {α : Type} (writes : List Char → α → Prop) (bound : Nat) (step : Step α) : Prop :=
  ∀ {run a}, writes run a → run.length ≤ bound → ∀ rest, step (run ++ rest) = some (a, rest)

theorem skip_blank_append {blank : List Char} {c : Char} (hblank : Blank blank)
    (hc : isSpace c = false) (rest : List Char) : skip (blank ++ c :: rest) = c :: rest := by
  rw [skip, List.dropWhile_append_of_pos hblank]
  simp [hc]

theorem not_isValidChar_of_pair {high low number : Nat} (h : pair? high low = some number) :
    ¬ high.isValidChar := by
  simp only [pair?, Option.ite_none_right_eq_some] at h
  rintro (hlow | hhigh) <;> omega

theorem character_of_spells {run : List Char} {char : Char} (h : Spells run char)
    (rest : List Char) : character (run ++ rest) = some (char, rest) := by
  cases h with
  | plain hquote hslash hlow =>
      simp [character, hquote, hslash, hlow]
  | @short letter _ hletter =>
      have hunit : letter ≠ 'u' := by
        rintro rfl
        cases hletter
      simp [character, hunit, hletter]
  | unit hunit =>
      have hvalid : char.toNat.isValidChar := char.valid
      simp [character, hunit, hvalid]
  | pair hhigh hlow hpair =>
      have hsurrogate := not_isValidChar_of_pair hpair
      simp [character, hhigh, hlow, hsurrogate, hpair]

theorem opens_of_spells {run : List Char} {char : Char} (h : Spells run char) :
    ∃ c tail, run = c :: tail ∧ c ≠ '"' := by
  cases h with
  | plain hquote _ _ => exact ⟨char, [], rfl, hquote⟩
  | short _ => exact ⟨_, _, rfl, by decide⟩
  | unit _ => exact ⟨_, _, rfl, by decide⟩
  | pair _ _ _ => exact ⟨_, _, rfl, by decide⟩

theorem characters_complete {run chars : List Char} (h : Quoted run chars) :
    ∀ {bound}, run.length ≤ bound →
      ∀ rest, characters bound (run ++ rest) = some (chars, rest) := by
  induction h with
  | close =>
      intro bound _ rest
      cases bound <;> rfl
  | @next run tail char chars hrun hrest ih =>
      intro bound hbound rest
      obtain ⟨c, run', rfl, hquote⟩ := opens_of_spells hrun
      cases bound with
      | zero => cases hbound
      | succ bound =>
          have htail : tail.length ≤ bound := by
            simp only [List.length_append, List.length_cons] at hbound
            omega
          have hfirst := character_of_spells hrun (tail ++ rest)
          rw [List.append_assoc, List.cons_append, characters]
          · rw [List.cons_append] at hfirst
            simp [hfirst, ih htail rest]
          · rintro rest' ⟨⟩
            exact hquote rfl

theorem string_complete (bound : Nat) :
    Complete (fun run value => Quoted run (String.toList value)) bound string := by
  intro run value h _ rest
  have hlength : run.length ≤ (run ++ rest).length := by simp
  have hchars := characters_complete h hlength rest
  rw [string, hchars]
  simp

section
variable {α : Type} {writes : List Char → α → Prop} {element : Step α} {close : Char}

/-- A text of the kind begins with a sign, and with another one than `close`. -/
def Opens (writes : List Char → α → Prop) (close : Char) : Prop :=
  ∀ {run a}, writes run a → ∃ c tail, run = c :: tail ∧ isSpace c = false ∧ c ≠ close

theorem more_complete {bound : Nat} (helement : Complete writes bound element)
    (hopens : Opens writes close) (hspace : isSpace close = false) (hcomma : ',' ≠ close)
    {run : List Char} {elements : List α} (h : More writes close run elements)
    (hbound : run.length ≤ bound) :
    ∀ {limit}, run.length ≤ limit → ∀ rest,
      more element close limit (run ++ rest) = some (elements, rest) := by
  induction h with
  | @close blank hblank =>
      intro limit hlimit rest
      cases limit with
      | zero => simp at hlimit
      | succ limit =>
          have hskip : skip (blank ++ [close] ++ rest) = close :: rest := by
            rw [List.append_assoc]
            exact skip_blank_append hblank hspace rest
          rw [more, hskip]
          simp
  | @next before after run tail first others hbefore hafter hrun hmore ih =>
      intro limit hlimit rest
      simp only [List.length_append, List.length_cons] at hbound hlimit
      cases limit with
      | zero => omega
      | succ limit =>
          have hskip : skip (before ++ ',' :: (after ++ (run ++ tail)) ++ rest) =
              ',' :: (after ++ (run ++ (tail ++ rest))) := by
            simpa using skip_blank_append hbefore (show isSpace ',' = false by decide) _
          have hskip' : skip (after ++ (run ++ (tail ++ rest))) = run ++ (tail ++ rest) := by
            obtain ⟨c, tail', rfl, hc, _⟩ := hopens hrun
            exact skip_blank_append hafter hc _
          have hfirst := helement hrun (by omega) (tail ++ rest)
          have hothers := ih (by omega) (show tail.length ≤ limit by omega) rest
          rw [more, hskip]
          simp [hskip', hcomma, hfirst, hothers]

theorem row_complete {bound : Nat} (helement : Complete writes bound element)
    (hopens : Opens writes close) (hspace : isSpace close = false) (hcomma : ',' ≠ close) :
    Complete (Row writes close) bound (row element close) := by
  intro run elements h hbound rest
  cases h with
  | @empty blank hblank =>
      have hskip : skip (blank ++ [close] ++ rest) = close :: rest := by
        rw [List.append_assoc]
        exact skip_blank_append hblank hspace rest
      rw [row, hskip]
      simp
  | @filled blank run tail first others hblank hrun hmore =>
      simp only [List.length_append] at hbound
      obtain ⟨c, run', rfl, hc, hclose⟩ := hopens hrun
      have hskip : skip (blank ++ (c :: run' ++ tail) ++ rest) = c :: (run' ++ (tail ++ rest)) := by
        simpa using skip_blank_append hblank hc (run' ++ (tail ++ rest))
      have hfirst := helement hrun (by omega) (tail ++ rest)
      have hlimit : tail.length ≤ (tail ++ rest).length + 1 := by
        simp only [List.length_append]
        omega
      have hothers := more_complete helement hopens hspace hcomma hmore (by omega) hlimit rest
      rw [List.cons_append] at hfirst
      simp only [List.length_append] at hothers
      rw [row, hskip]
      simp [hclose, hfirst, hothers]

end

theorem opens_of_writes : Opens Writes ']' := by
  intro run v h
  cases h <;> exact ⟨_, _, rfl, by decide, by decide⟩

theorem opens_of_member : Opens (Member Writes) '}' := by
  intro run member h
  cases h
  exact ⟨_, _, rfl, by decide, by decide⟩

section
variable {step : Step Json} {bound : Nat}

theorem member_complete (hstep : Complete Writes bound step) :
    Complete (Member Writes) bound (member step) := by
  intro run found h hbound rest
  cases h with
  | @mk name before after run key v hname hbefore hafter hrun =>
      simp only [List.length_append, List.length_cons] at hbound
      have hkey := string_complete bound hname (by omega)
        (before ++ ':' :: (after ++ (run ++ rest)))
      have hskip : skip (before ++ ':' :: (after ++ (run ++ rest))) =
          ':' :: (after ++ (run ++ rest)) :=
        skip_blank_append hbefore (by decide) _
      have hskip' : skip (after ++ (run ++ rest)) = run ++ rest := by
        obtain ⟨c, tail, rfl, hc, _⟩ := opens_of_writes hrun
        exact skip_blank_append hafter hc _
      have hv := hstep hrun (by omega) rest
      simp [member, hkey, hskip, hskip', hv]

theorem valueStep_complete (hstep : Complete Writes bound step) :
    Complete Writes (bound + 1) (valueStep step) := by
  intro run v h hbound rest
  cases h with
  | null => rfl
  | @string run value hquoted =>
      simp only [List.length_cons] at hbound
      have hvalue := string_complete bound hquoted (by omega) rest
      simp [valueStep, hvalue]
  | @array run items hrow =>
      simp only [List.length_cons] at hbound
      have hitems := row_complete hstep opens_of_writes (by decide) (by decide) hrow
        (by omega) rest
      simp [valueStep, hitems]
  | @object run members hrow =>
      simp only [List.length_cons] at hbound
      have hmembers := row_complete (member_complete hstep) opens_of_member (by decide)
        (by decide) hrow (by omega) rest
      simp [valueStep, hmembers]

end

theorem value_complete (depth : Nat) : Complete Writes depth (value depth) := by
  induction depth with
  | zero =>
      intro run v h hbound rest
      obtain ⟨c, tail, rfl, _⟩ := opens_of_writes h
      cases hbound
  | succ depth ih => exact valueStep_complete ih

end Reader

/-- The value of a text. -/
def read? (text : String) : Option Json := do
  let (v, rest) ← Reader.value text.toList.length (Reader.skip text.toList)
  if Reader.skip rest = [] then some v else none

/-- A text that the reader takes is JSON for the value that it gives. -/
theorem isText_of_read? {text : String} {v : Json} (h : read? text = some v) :
    IsText text.toList v := by
  obtain ⟨⟨found, rest⟩, hfound, h⟩ := Option.bind_eq_some_iff.mp h
  obtain ⟨hend, rfl⟩ := by simpa using h
  obtain ⟨before, hbefore, htext⟩ := Reader.exists_blank_append_skip text.toList
  obtain ⟨run, hfront, hrun⟩ := Reader.value_sound _ _ _ _ hfound
  obtain ⟨after, hafter, hrest⟩ := Reader.exists_blank_append_skip rest
  refine ⟨before, run, rest, ?_, hbefore, hrun, ?_⟩
  · rw [htext, hfront]
  · rwa [hrest, hend, List.append_nil]

theorem read?_of_isText {text : String} {v : Json} (h : IsText text.toList v) :
    read? text = some v := by
  obtain ⟨before, run, after, htext, hbefore, hrun, hafter⟩ := h
  have hskip : Reader.skip text.toList = run ++ after := by
    obtain ⟨c, tail, rfl, hc, _⟩ := Reader.opens_of_writes hrun
    rw [htext]
    exact Reader.skip_blank_append hbefore hc _
  have hbound : run.length ≤ text.toList.length := by
    rw [htext]
    simp only [List.length_append]
    omega
  have hvalue := Reader.value_complete _ hrun hbound after
  have hend : Reader.skip after = [] := by
    simpa [Reader.skip, Blank] using hafter
  rw [read?, hskip, hvalue]
  simp [hend]

/-- The reader takes the texts of the grammar, and gives the value of each. -/
theorem read?_eq_some_iff {text : String} {v : Json} :
    read? text = some v ↔ IsText text.toList v :=
  ⟨isText_of_read?, read?_of_isText⟩

/-- No text is JSON for two values. -/
theorem IsText.unique {text : List Char} {v w : Json} (hv : IsText text v) (hw : IsText text w) :
    v = w := by
  rw [← String.toList_ofList (l := text), ← read?_eq_some_iff] at hv hw
  exact Option.some.inj (hv.symm.trans hw)

end Json
end TacticNotation
