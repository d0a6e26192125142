import TacticNotation.Proofs.Pattern.Preference
import TacticNotation.Proofs.Tree.Captures
import TacticNotation.Proofs.Tree.Instances

/-!
# Finding instances in a text

The pattern of a notation that is not anchored finds an instance wherever a text
holds one, and of all instances in the text none begins before the one that is
found.  What is found is given in bytes; `IsSlice` says which part of a text such
bytes are.

Nothing is said about where the instance ends that is found: it is the preferred
one among those that begin there, and need be neither the longest nor the
shortest.
-/

namespace TacticNotation

/-! ## Slices -/

/-- The bytes of a text from `start` up to `stop` are those of `word`, and both
are boundaries between characters. -/
def IsSlice (text : String) (start stop : Nat) (word : String) : Prop :=
  ∃ before after, text = before ++ word ++ after ∧ start = before.utf8ByteSize ∧
    stop = start + word.utf8ByteSize

/-- The whole of a text is a slice of it. -/
theorem isSlice_self (text : String) : IsSlice text 0 text.utf8ByteSize text :=
  ⟨"", "", by simp, rfl, (Nat.zero_add _).symm⟩

theorem utf8Width_take_le {chars : List Char} {i j : Nat} (h : i ≤ j) :
    utf8Width (chars.take i) ≤ utf8Width (chars.take j) := by
  obtain ⟨more, rfl⟩ := Nat.exists_eq_add_of_le h
  rw [List.take_add, utf8Width_append]
  exact Nat.le_add_right _ _

namespace Pattern

variable {text : String} {words : Language Char}

/-- A word that stands in a text is a slice of it. -/
theorem isSlice_of_found {i j : Nat} (h : Found text.toList words i j) :
    ∃ word : String, word.toList ∈ words ∧
      IsSlice text (utf8Width (text.toList.take i)) (utf8Width (text.toList.take j)) word := by
  obtain ⟨word, hword, ⟨after, hafter⟩, rfl⟩ := h
  refine ⟨String.ofList word, by rwa [String.toList_ofList],
    String.ofList (text.toList.take i), String.ofList after, ?_, ?_, ?_⟩
  · rw [← String.toList_inj]
    simp only [String.toList_append, String.toList_ofList, List.append_assoc]
    rw [hafter, List.take_append_drop]
  · rw [utf8ByteSize_ofList]
  · rw [utf8ByteSize_ofList, List.take_add, ← hafter, List.take_left, utf8Width_append]

/-- A slice that is a word stands in the text. -/
theorem found_of_isSlice {start stop : Nat} {word : String} (h : IsSlice text start stop word)
    (hword : word.toList ∈ words) :
    ∃ i j, j ≤ text.toList.length ∧ Found text.toList words i j ∧
      start = utf8Width (text.toList.take i) := by
  obtain ⟨before, after, rfl, rfl, -⟩ := h
  simp only [String.toList_append, List.append_assoc]
  refine ⟨before.toList.length, before.toList.length + word.toList.length, ?_, ?_, ?_⟩
  · simp only [List.length_append]
    omega
  · refine ⟨word.toList, hword, ⟨after.toList, ?_⟩, rfl⟩
    rw [List.drop_left]
  · rw [List.take_left, utf8ByteSize_eq]

/-- A pattern that spans the words of a language finds none of them where the text
holds none, and otherwise a slice that is one of them and that none begins
before. -/
theorem find?_slices {p : Pattern}
    (h : ∀ i j, Spans text.toList p i j ↔ Found text.toList words i j) :
    (p.find? text = none ∧
        ∀ start stop word, IsSlice text start stop word → word.toList ∉ words) ∨
      ∃ start stop word, p.find? text = some (start, stop) ∧
        IsSlice text start stop word ∧ word.toList ∈ words ∧
        ∀ start' stop' word', IsSlice text start' stop' word' → word'.toList ∈ words →
          start ≤ start' := by
  rcases find?_cases p text with ⟨hnone, hspans⟩ | ⟨i, j, hsome, -, hspan, hfirst⟩
  · refine Or.inl ⟨hnone, ?_⟩
    intro start stop word hslice hword
    obtain ⟨i, j, hj, hfound, -⟩ := found_of_isSlice hslice hword
    exact hspans i j hj ((h i j).2 hfound)
  · obtain ⟨word, hword, hslice⟩ := isSlice_of_found ((h i j).1 hspan)
    refine Or.inr ⟨_, _, word, hsome, hslice, hword, ?_⟩
    intro start' stop' word' hslice' hword'
    obtain ⟨i', j', hj', hfound', rfl⟩ := found_of_isSlice hslice' hword'
    exact utf8Width_take_le (hfirst i' j' hj' ((h i' j').2 hfound'))

end Pattern

/-! ## Notations -/

namespace Notation

theorem spans_of_compile {form : Notation} {pattern : Pattern}
    (hroot : Node.isBranchedAll form.root = true) (h : form.compile false = .ok pattern)
    (chars : List Char) (i j : Nat) :
    Pattern.Spans chars pattern i j ↔
      Pattern.Found chars (Node.languageAll form.root) i j := by
  have hread := read_of_compile h
  rw [patternText_false, Node.read_patternTextAll] at hread
  cases hread
  rw [Node.isBranchedAll_iff] at hroot
  rw [Pattern.spans_ofItems]
  exact Node.means_itemsAll (fun n hn => Node.means_items n (hroot n hn)) chars i j

theorem accepts_iff {form : Notation} {pattern : Pattern}
    (hroot : Node.isBranchedAll form.root = true) (h : form.compile true = .ok pattern)
    (text : String) :
    form.accepts text = .ok true ↔ text.toList ∈ Node.languageAll form.root := by
  have hread := read_of_compile h
  rw [patternText_true] at hread
  have haccepts : form.accepts text = .ok (pattern.isMatch text) := by
    rw [accepts, h]
    rfl
  rw [haccepts, Except.ok.injEq]
  exact Node.isMatch_anchored_iff hroot hread text

/-- Searching a text and matching whole texts agree.  The search fails precisely
if no slice of the text is an instance.  What it finds is a slice that is an
instance, and accepted as one, and no instance in the text begins before it.  In
particular it begins at the start of every text that is an instance itself. -/
theorem find_agrees_with_accepts {table : ShorthandTable} {source : String} {form : Notation}
    {pattern anchoredPattern : Pattern} (hparse : Notation.parse table source = .ok form)
    (hpattern : form.compile false = .ok pattern)
    (hanchored : form.compile true = .ok anchoredPattern) (text : String) :
    ∃ answer, form.find false text = .ok answer ∧
      (answer = none ↔ ∀ start stop word, IsSlice text start stop word →
        word.toList ∉ Node.languageAll form.root) ∧
      (∀ start stop, answer = some (start, stop) →
        (∃ word, IsSlice text start stop word ∧ word.toList ∈ Node.languageAll form.root ∧
          form.accepts word = .ok true) ∧
        ∀ start' stop' word', IsSlice text start' stop' word' →
          word'.toList ∈ Node.languageAll form.root → start ≤ start') ∧
      (form.accepts text = .ok true → ∃ stop, answer = some (0, stop)) := by
  have hroot := isBranchedAll_of_parse hparse
  have hfind : form.find false text = .ok (pattern.find? text) := by
    rw [find, hpattern]
    rfl
  refine ⟨_, hfind, ?_⟩
  rcases Pattern.find?_slices (spans_of_compile hroot hpattern text.toList) with
    ⟨hnone, hno⟩ | ⟨start, stop, word, hsome, hslice, hword, hfirst⟩
  · rw [hnone]
    refine ⟨⟨fun _ => hno, fun _ => rfl⟩, by simp, ?_⟩
    intro haccepts
    exact absurd ((accepts_iff hroot hanchored text).1 haccepts) (hno _ _ _ (isSlice_self text))
  · rw [hsome]
    refine ⟨⟨by simp, fun hno => absurd hword (hno start stop word hslice)⟩, ?_, ?_⟩
    · rintro _ _ ⟨rfl, rfl⟩
      exact ⟨⟨word, hslice, hword, (accepts_iff hroot hanchored word).2 hword⟩, hfirst⟩
    · intro haccepts
      have hle := hfirst _ _ _ (isSlice_self text) ((accepts_iff hroot hanchored text).1 haccepts)
      rw [Nat.le_zero.1 hle]
      exact ⟨stop, rfl⟩

/-- In a bracket the first list of terms with semicolons between them stands
after a character of one byte, and does not take the last semicolon up, which no
term follows.  Where there is no term there is no list. -/
theorem find_agrees_with_accepts_semicolons :
    let form : Notation := ⟨"\x7b+; @x \x7d", "\x7b+; @x \x7d",
      [.repetition .oneOrMore (some ";") [.hole "x"]]⟩
    (∃ word, IsSlice "(é ;b;)" 1 6 word ∧ word.toList ∈ Node.languageAll form.root ∧
      form.accepts word = .ok true) ∧
    (∀ start stop word, IsSlice "(;)" start stop word →
      word.toList ∉ Node.languageAll form.root) ∧
    ∃ stop, form.find false "é ;b" = .ok (some (0, stop)) := by
  intro form
  have hparse : Notation.parse [] form.source = .ok form := by decide +kernel
  have hfind : form.find false "(é ;b;)" = .ok (some (1, 6)) := by decide +kernel
  have hnone : form.find false "(;)" = .ok none := by decide +kernel
  have haccepts : form.accepts "é ;b" = .ok true := by decide +kernel
  obtain ⟨pattern, hpattern, -⟩ := Grammar.bind_eq_ok_iff.1 hfind
  obtain ⟨anchoredPattern, hanchored, -⟩ := Grammar.bind_eq_ok_iff.1 haccepts
  refine ⟨?_, ?_, ?_⟩
  · obtain ⟨answer, hanswer, -, hsome, -⟩ :=
      find_agrees_with_accepts hparse hpattern hanchored "(é ;b;)"
    rw [hfind] at hanswer
    cases hanswer
    exact (hsome 1 6 rfl).1
  · obtain ⟨answer, hanswer, hno, -, -⟩ :=
      find_agrees_with_accepts hparse hpattern hanchored "(;)"
    rw [hnone] at hanswer
    cases hanswer
    exact hno.1 rfl
  · obtain ⟨answer, hanswer, -, -, hzero⟩ :=
      find_agrees_with_accepts hparse hpattern hanchored "é ;b"
    obtain ⟨stop, rfl⟩ := hzero haccepts
    exact ⟨stop, hanswer⟩

end Notation
end TacticNotation
