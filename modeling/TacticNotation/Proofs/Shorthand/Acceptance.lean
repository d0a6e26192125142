import TacticNotation.Proofs.Grammar.Characters
import TacticNotation.Proofs.Shorthand.FixedPoint

/-!
# Shorthands and what is a notation

To expand the built-in shorthands turns no notation into a text that is none, and no
such text into a notation.  The sources are written like holes, and what they stand
for goes by like a hole where a text is checked character by character: wherever it
comes, nothing is known after it but that there is something (`HoleLike`).  So a
piece of the one kind can be put in the place of one of the other kind.

Nothing is said here about where the holes of the text end.  A source can be the
start of a longer name, the rest of which is then left behind as text, and that makes
no difference to the check either.  The trees do differ.
-/

namespace TacticNotation

open Grammar

/-- A piece of text that goes by like a hole, whatever comes before it and after
it. -/
structure HoleLike (piece : List Char) : Prop where
  /-- It is no name that goes on, and it is not blank. -/
  head : ∃ c more, piece = c :: more ∧ isNameChar c = false ∧ isGap c = false
  passes : ∀ before levels,
    Sweep.after ⟨before, levels⟩ piece = .ok ⟨.other, ⟨true, levels.outer⟩⟩
  sigils : ∀ offset rest,
    bareSigil? offset (piece ++ rest) = bareSigil? (offset + utf8Width piece) rest

namespace HoleLike

variable {piece : List Char}

theorem head?_any (h : HoleLike piece) (rest : List Char) :
    (piece ++ rest).head?.any isNameChar = false := by
  obtain ⟨c, more, rfl, hname, -⟩ := h.head
  exact hname

theorem all_isGap (h : HoleLike piece) (rest : List Char) :
    (piece ++ rest).all isGap = false := by
  obtain ⟨c, more, rfl, -, hgap⟩ := h.head
  rw [List.cons_append, List.all_cons, hgap, Bool.false_and]

/-- What is known before a piece makes no difference after it, but for the levels
around it. -/
theorem run_append (h : HoleLike piece) (sweep : Sweep) (rest : List Char) :
    sweep.run (piece ++ rest) = Sweep.run ⟨.other, ⟨true, sweep.levels.outer⟩⟩ rest :=
  Sweep.run_append (h.passes sweep.before sweep.levels) rest

/-- A hole goes by like a hole. -/
theorem hole {name : List Char} (hne : name ≠ []) (hall : ∀ c ∈ name, isNameChar c = true) :
    HoleLike ('@' :: name) := by
  refine ⟨⟨'@', name, rfl, rfl, rfl⟩, ?_, ?_⟩
  · intro before levels
    have hsettled : before.next? '@' = none := by cases before <;> rfl
    rw [Sweep.after_settled hsettled]
    refine Sweep.after_text (List.cons_ne_nil _ _) ?_
    exact List.forall_mem_cons.2 ⟨by decide, fun c hc => isText_of_isNameChar (hall c hc)⟩
  · intro offset rest
    have hspells : (Token.hole (String.ofList name)).Spells ('@' :: name) := by
      refine ⟨⟨?_, ?_⟩, ?_⟩
      · rwa [String.toList_ofList]
      · rwa [String.toList_ofList]
      · rw [Token.toList_text_hole, String.toList_ofList]
    exact bareSigil?_of_spells hspells offset rest

end HoleLike

/-! ## One shorthand -/

section
variable {first : Char} {more expansion : List Char}

/-- A name goes on after replacing where it went on before. -/
theorem head?_any_replaceChars (hsource : HoleLike (first :: more))
    (hexpansion : HoleLike expansion) (text : List Char) :
    (replaceChars first more expansion text).head?.any isNameChar =
      text.head?.any isNameChar := by
  induction text using replaceChars_induction first more with
  | nil => rw [replaceChars]
  | found rest _ =>
      rw [replaceChars_found, hexpansion.head?_any, ← List.cons_append, hsource.head?_any]
  | passed c rest hnot _ =>
      rw [replaceChars_cons hnot]
      rfl

theorem all_isGap_replaceChars (hsource : HoleLike (first :: more))
    (hexpansion : HoleLike expansion) (text : List Char) :
    (replaceChars first more expansion text).all isGap = text.all isGap := by
  induction text using replaceChars_induction first more with
  | nil => rw [replaceChars]
  | found rest _ =>
      rw [replaceChars_found, hexpansion.all_isGap, ← List.cons_append, hsource.all_isGap]
  | passed c rest hnot ih =>
      rw [replaceChars_cons hnot, List.all_cons, List.all_cons, ih]

/-- The sigils that are put in have names, and those that stay keep theirs. -/
theorem isSome_bareSigil?_replaceChars (hsource : HoleLike (first :: more))
    (hexpansion : HoleLike expansion) (text : List Char) (offset offset' : Nat) :
    (bareSigil? offset (replaceChars first more expansion text)).isSome =
      (bareSigil? offset' text).isSome := by
  induction text using replaceChars_induction first more generalizing offset offset' with
  | nil =>
      rw [replaceChars]
      rfl
  | found rest ih =>
      rw [replaceChars_found, hexpansion.sigils, ← List.cons_append, hsource.sigils]
      exact ih _ _
  | passed c rest hnot ih =>
      rw [replaceChars_cons hnot, bareSigil?, bareSigil?,
        head?_any_replaceChars hsource hexpansion]
      split
      · rfl
      · exact ih _ _

theorem run_replaceChars (hsource : HoleLike (first :: more)) (hexpansion : HoleLike expansion)
    (text : List Char) (sweep : Sweep) :
    sweep.run (replaceChars first more expansion text) = sweep.run text := by
  induction text using replaceChars_induction first more generalizing sweep with
  | nil => rw [replaceChars]
  | found rest ih =>
      rw [replaceChars_found, hexpansion.run_append, ih, ← List.cons_append,
        hsource.run_append]
  | passed c rest hnot ih =>
      rw [replaceChars_cons hnot, Sweep.run, Sweep.run]
      cases sweep.step c with
      | error expected => rfl
      | ok next => exact ih next

/-- The same is found wrong after replacing as before, if anything is. -/
theorem report?_replaceChars (hsource : HoleLike (first :: more))
    (hexpansion : HoleLike expansion) (text : List Char) :
    report? (replaceChars first more expansion text) = report? text := by
  have hverdict : verdict (replaceChars first more expansion text) = verdict text := by
    rw [verdict, verdict, all_isGap_replaceChars hsource hexpansion,
      run_replaceChars hsource hexpansion]
  rw [report?, report?, hverdict, isSome_bareSigil?_replaceChars hsource hexpansion text 0 0]

end

namespace Shorthand

/-- The source of a shorthand and what it stands for both go by like a hole. -/
structure Neutral (entry : Shorthand) : Prop where
  source : HoleLike entry.source.toList
  expansion : HoleLike entry.expansion.toList

theorem report?_expand {entry : Shorthand} (h : entry.Neutral) (text : String) :
    report? (expand text entry).toList = report? text.toList := by
  obtain ⟨first, more, hsource, -⟩ := h.source.head
  rw [toList_expand hsource]
  exact report?_replaceChars (hsource ▸ h.source) h.expansion text.toList

end Shorthand

/-! ## Tables -/

namespace ShorthandTable

theorem report?_apply {table : ShorthandTable} (h : ∀ entry ∈ table, entry.Neutral)
    (text : String) : report? (table.apply text).toList = report? text.toList := by
  induction table generalizing text with
  | nil => rfl
  | cons entry table ih =>
      obtain ⟨hentry, htable⟩ := List.forall_mem_cons.1 h
      calc report? (apply table (Shorthand.expand text entry)).toList
          = report? (Shorthand.expand text entry).toList := ih htable _
        _ = report? text.toList := Shorthand.report?_expand hentry text

theorem neutral_of_mem_builtin : ∀ entry ∈ builtin, entry.Neutral := by
  have hbindings : HoleLike "\x7b+ (@id := @val) \x7d".toList := by
    refine ⟨⟨_, _, rfl, rfl, rfl⟩, ?_, fun _ _ => rfl⟩
    intro before levels
    obtain ⟨filled, outer⟩ := levels
    cases before <;> cases filled <;> rfl
  have hqualid : HoleLike "@id|@string".toList := by
    refine ⟨⟨_, _, rfl, rfl, rfl⟩, ?_, fun _ _ => rfl⟩
    intro before levels
    obtain ⟨filled, outer⟩ := levels
    cases before <;> cases filled <;> rfl
  refine List.forall_mem_cons.2 ⟨⟨?_, hbindings⟩, List.forall_mem_singleton.2 ⟨?_, hqualid⟩⟩
  · exact .hole (List.cons_ne_nil _ _) (List.all_eq_true.1 rfl)
  · exact .hole (List.cons_ne_nil _ _) (List.all_eq_true.1 rfl)

end ShorthandTable

/-! ## Reading -/

/-- Texts of which the same is reported are both read, or both are not, for the same
reason. -/
theorem agree_of_report?_eq {source source' : String}
    (h : report? source.toList = report? source'.toList) :
    Agree (fun _ _ => True) (parseTree source) (parseTree source') := by
  rw [report?_eq, report?_eq, ← parseTree_unplaced, ← parseTree_unplaced] at h
  cases hparse : parseTree source <;> cases hparse' : parseTree source' <;>
    rw [hparse, hparse'] at h
  · exact .error (Option.some.inj h)
  · cases h
  · cases h
  · exact .ok trivial

namespace Notation

theorem map_root_parse (table : ShorthandTable) (source : String) :
    (Notation.parse table source).map root = parseTree (table.apply source) := by
  rw [Notation.parse]
  cases parseTree (table.apply source) <;> rfl

/-- The built-in shorthands never change whether a text is a notation: the text is
read with them precisely if it is read as it stands, and if it is not, then for the
same reason, with the same text found and the same expectation. -/
theorem parse_builtin_agrees (source : String) :
    Agree (fun _ _ => True) ((Notation.parse .builtin source).map root) (parseTree source) := by
  rw [map_root_parse]
  exact agree_of_report?_eq
    (ShorthandTable.report?_apply ShorthandTable.neutral_of_mem_builtin source)

/-- A brace is missing after a longer name that begins with a source, with the
shorthands and without them. -/
example :
    ((Notation.parse .builtin "\x7b@bindings_lists|").map root).mapError Problem.message =
      .error "unexpected end of notation, expected `\x7d` to close the group" ∧
    (parseTree "\x7b@bindings_lists|").mapError Problem.message =
      .error "unexpected end of notation, expected `\x7d` to close the group" := by
  decide +kernel

end Notation
end TacticNotation
