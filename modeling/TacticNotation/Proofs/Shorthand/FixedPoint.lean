import Mathlib.Data.List.Infix
import TacticNotation.Notation
import TacticNotation.Proofs.Grammar.Reader
import TacticNotation.Proofs.Token.Replacing

/-!
# Tables that need to be applied only once

Replacing a text can make a new occurrence of it, or of another one, where what is
put in meets what was there before, and it can break one up.  A shorthand `Spares`
another one if neither can happen: no occurrence of the source of the other begins
in what is put in, none ends there, and none shares characters with what is taken
out.  If all entries of a table spare each other, no source is left once the table
has been applied, and the order of the entries makes no difference.

The built-in shorthands spare each other.  Both begin with a sigil, no name holds
one, and the sigils that they put in do not go on like a source.
-/

namespace TacticNotation

/-- A text stands somewhere in another one. -/
def Occurs (source text : String) : Prop := source.toList <:+: text.toList

/-- Whether no occurrence of `source` begins in `piece`, whatever comes after the
piece. -/
def isForeign (source : List Char) : (piece : List Char) → Bool
  | [] => true
  | c :: piece =>
      !source.isPrefixOf (c :: piece) && !(c :: piece).isPrefixOf source &&
        isForeign source piece

section
variable {source piece : List Char}

theorem isForeign_cons {c : Char} :
    isForeign source (c :: piece) = true ↔
      (∀ rest, ¬ source <+: c :: (piece ++ rest)) ∧ isForeign source piece = true := by
  simp only [isForeign, Bool.and_eq_true, Bool.not_eq_true', ← Bool.not_eq_true,
    List.isPrefixOf_iff_prefix]
  refine and_congr_left fun _ => ?_
  constructor
  · rintro ⟨hlong, hshort⟩ rest hsource
    rcases List.prefix_or_prefix_of_prefix hsource (List.prefix_append (c :: piece) rest) with
      h | h
    · exact hlong h
    · exact hshort h
  · intro h
    refine ⟨fun hlong => h [] (by rwa [List.append_nil]), ?_⟩
    rintro ⟨rest, hrest⟩
    exact h rest (hrest ▸ List.prefix_rfl)

/-- An occurrence that begins after a foreign piece does not need the piece. -/
theorem infix_of_isForeign (h : isForeign source piece = true) {rest : List Char}
    (hoccurs : source <:+: piece ++ rest) : source <:+: rest := by
  induction piece with
  | nil => exact hoccurs
  | cons c piece ih =>
      obtain ⟨hfront, hpiece⟩ := isForeign_cons.1 h
      rcases List.infix_cons_iff.1 hoccurs with hfirst | hmore
      · exact absurd hfirst (hfront rest)
      · exact ih hpiece hmore

end

/-! ## Replacing and occurrences -/

section
variable {first : Char} {more expansion : List Char}

/-- Where the replaced text does not stand nothing happens to a character. -/
theorem replaceChars_cons {c : Char} {rest : List Char} (h : ¬ first :: more <+: c :: rest) :
    replaceChars first more expansion (c :: rest) =
      c :: replaceChars first more expansion rest := by
  by_cases hc : c = first
  · rw [hc, replaceChars_passed]
    rintro rest' rfl
    exact h (hc ▸ List.prefix_append (c :: more) rest')
  · rw [replaceChars, if_neg hc]

/-- Replacing from left to right: the replaced text stands at the front, or the
first character stays. -/
theorem replaceChars_induction (first : Char) (more : List Char) {motive : List Char → Prop}
    (nil : motive []) (found : ∀ rest, motive rest → motive (first :: (more ++ rest)))
    (passed : ∀ c rest, ¬ first :: more <+: c :: rest → motive rest → motive (c :: rest))
    (text : List Char) : motive text := by
  induction hlength : text.length using Nat.strong_induction_on generalizing text with
  | _ length ih =>
      by_cases hfront : first :: more <+: text
      · obtain ⟨rest, rfl⟩ := hfront
        simp only [List.cons_append, List.length_cons, List.length_append] at hlength
        exact found rest (ih rest.length (by omega) rest rfl)
      · cases text with
        | nil => exact nil
        | cons c rest =>
            rw [List.length_cons] at hlength
            exact passed c rest hfront (ih rest.length (by omega) rest rfl)

/-- A piece in which the replaced text is foreign stays as it is. -/
theorem replaceChars_of_isForeign {piece : List Char}
    (h : isForeign (first :: more) piece = true) (rest : List Char) :
    replaceChars first more expansion (piece ++ rest) =
      piece ++ replaceChars first more expansion rest := by
  induction piece with
  | nil => rfl
  | cons c piece ih =>
      obtain ⟨hfront, hpiece⟩ := isForeign_cons.1 h
      rw [List.cons_append, replaceChars_cons (hfront rest), ih hpiece, List.cons_append]

/-- A text in which the replaced text does not occur stays as it is. -/
theorem replaceChars_of_not_infix {text : List Char} (h : ¬ first :: more <:+: text) :
    replaceChars first more expansion text = text := by
  induction text with
  | nil => rw [replaceChars]
  | cons c rest ih =>
      rw [List.infix_cons_iff, not_or] at h
      rw [replaceChars_cons h.1, ih h.2]

variable {d : Char} {others : List Char}

/-- A word that holds neither the first character that is taken out nor the first
that is put in stands only where it stood before. -/
theorem prefix_of_prefix_replaceChars {word : List Char} (hfirst : first ∉ word)
    (hd : d ∉ word) {text : List Char}
    (h : word <+: replaceChars first more (d :: others) text) : word <+: text := by
  induction word generalizing text with
  | nil => exact List.nil_prefix
  | cons c word ih =>
      obtain ⟨hcfirst, hfirst⟩ : first ≠ c ∧ first ∉ word := by simpa using hfirst
      obtain ⟨hcd, hd⟩ : d ≠ c ∧ d ∉ word := by simpa using hd
      induction text using replaceChars_induction first more with
      | nil =>
          rw [replaceChars] at h
          exact h
      | found rest _ =>
          rw [replaceChars_found, List.cons_append, List.cons_prefix_cons] at h
          exact absurd h.1.symm hcd
      | passed e rest hnot _ =>
          rw [replaceChars_cons hnot, List.cons_prefix_cons] at h
          exact List.cons_prefix_cons.2 ⟨h.1, ih hfirst hd h.2⟩

/-- Where texts that begin with `first` are replaced by `d :: others`, no occurrence
of `c :: word` comes up. -/
structure MakesNone (first d : Char) (others : List Char) (c : Char) (word : List Char) :
    Prop where
  /-- None ends with what is left of a text that is replaced. -/
  first_not_mem : first ∉ word
  /-- None ends in what is put in. -/
  d_not_mem : d ∉ word
  /-- None begins in what is put in. -/
  isForeign : isForeign (c :: word) (d :: others) = true

/-- What occurs after replacing occurred before, and is not what was replaced. -/
theorem infix_of_infix_replaceChars {c : Char} {word : List Char}
    (hnone : MakesNone first d others c word) {text : List Char}
    (h : c :: word <:+: replaceChars first more (d :: others) text) :
    c :: word <:+: text ∧ c :: word ≠ first :: more := by
  induction text using replaceChars_induction first more with
  | nil =>
      rw [replaceChars, List.infix_nil] at h
      cases h
  | found rest ih =>
      rw [replaceChars_found] at h
      obtain ⟨hrest, hne⟩ := ih (infix_of_isForeign hnone.isForeign h)
      exact ⟨hrest.trans (List.suffix_append (first :: more) rest).isInfix, hne⟩
  | passed e rest hnot ih =>
      rw [replaceChars_cons hnot] at h
      rcases List.infix_cons_iff.1 h with hfront | hmore
      · obtain ⟨rfl, hword⟩ := List.cons_prefix_cons.1 hfront
        have hstands : c :: word <+: c :: rest := List.cons_prefix_cons.2
          ⟨rfl, prefix_of_prefix_replaceChars hnone.first_not_mem hnone.d_not_mem hword⟩
        refine ⟨hstands.isInfix, ?_⟩
        intro heq
        exact hnot (heq ▸ hstands)
      · obtain ⟨hrest, hne⟩ := ih hmore
        exact ⟨hrest.trans (List.suffix_cons e rest).isInfix, hne⟩

/-! ## Two texts to replace -/

/-- A text that does not stand at the front is not brought there by what is
replaced further on. -/
theorem not_prefix_cons_replaceChars {c e : Char} {word : List Char}
    (hnone : MakesNone first d others c word) {rest : List Char} (h : ¬ c :: word <+: e :: rest) :
    ¬ c :: word <+: e :: replaceChars first more (d :: others) rest := by
  rw [List.cons_prefix_cons] at h ⊢
  rintro ⟨hhead, hword⟩
  exact h ⟨hhead, prefix_of_prefix_replaceChars hnone.first_not_mem hnone.d_not_mem hword⟩

/-- Two texts that share no characters, neither of which is made by replacing the
other, can be replaced in both orders. -/
theorem replaceChars_comm {first' d' : Char} {more' others' : List Char}
    (hnone : MakesNone first d others first' more')
    (hnone' : MakesNone first' d' others' first more)
    (hforeign : isForeign (first :: more) (first' :: more') = true)
    (hforeign' : isForeign (first' :: more') (first :: more) = true) (text : List Char) :
    replaceChars first' more' (d' :: others') (replaceChars first more (d :: others) text) =
      replaceChars first more (d :: others) (replaceChars first' more' (d' :: others') text) := by
  induction hlength : text.length using Nat.strong_induction_on generalizing text with
  | _ length ih =>
      by_cases hfront : first :: more <+: text
      · obtain ⟨rest, rfl⟩ := hfront
        rw [List.length_append, List.length_cons] at hlength
        rw [replaceChars_of_isForeign hforeign', List.cons_append, List.cons_append,
          replaceChars_found, replaceChars_found, replaceChars_of_isForeign hnone.isForeign,
          ih rest.length (by omega) rest rfl]
      · by_cases hfront' : first' :: more' <+: text
        · obtain ⟨rest, rfl⟩ := hfront'
          rw [List.length_append, List.length_cons] at hlength
          rw [replaceChars_of_isForeign hforeign, List.cons_append, List.cons_append,
            replaceChars_found, replaceChars_found, replaceChars_of_isForeign hnone'.isForeign,
            ih rest.length (by omega) rest rfl]
        · cases text with
          | nil => rw [replaceChars, replaceChars, replaceChars]
          | cons e rest =>
              rw [List.length_cons] at hlength
              rw [replaceChars_cons hfront, replaceChars_cons hfront',
                replaceChars_cons (not_prefix_cons_replaceChars hnone' hfront),
                replaceChars_cons (not_prefix_cons_replaceChars hnone hfront'),
                ih rest.length (by omega) rest rfl]

end

/-! ## Shorthands that spare each other -/

namespace Shorthand

/-- Whether expanding a shorthand neither makes an occurrence of the source of
another one nor breaks one up. -/
def spares (entry other : Shorthand) : Bool :=
  match entry.source.toList, entry.expansion.toList, other.source.toList with
  | first :: more, d :: others, c :: word =>
      !word.contains first && !word.contains d && isForeign (c :: word) (d :: others) &&
        (entry == other || isForeign (first :: more) (c :: word))
  | _, _, _ => false

variable {entry other : Shorthand} {text : String}

theorem exists_of_spares (h : entry.spares other = true) :
    ∃ first d c more others word, entry.source.toList = first :: more ∧
      entry.expansion.toList = d :: others ∧ other.source.toList = c :: word ∧
      MakesNone first d others c word ∧
      (entry = other ∨ isForeign (first :: more) (c :: word) = true) := by
  unfold spares at h
  split at h
  · next first more d others c word hsource hexpansion hother =>
    simp only [Bool.and_eq_true, Bool.not_eq_true', Bool.or_eq_true, beq_iff_eq,
      List.contains_eq_mem, decide_eq_false_iff_not] at h
    obtain ⟨⟨⟨hfirst, hd⟩, hexpanded⟩, hshared⟩ := h
    exact ⟨first, d, c, more, others, word, hsource, hexpansion, hother,
      ⟨hfirst, hd, hexpanded⟩, hshared⟩
  · cases h

theorem toList_expand {first : Char} {more : List Char}
    (h : entry.source.toList = first :: more) (text : String) :
    (expand text entry).toList =
      replaceChars first more entry.expansion.toList text.toList := by
  rw [expand, replaceAll, h]
  exact String.toList_ofList

theorem occurs_of_occurs_expand (h : entry.spares other = true)
    (hoccurs : Occurs other.source (expand text entry)) :
    Occurs other.source text ∧ other.source ≠ entry.source := by
  obtain ⟨first, d, c, more, others, word, hsource, hexpansion, hother, hnone, -⟩ :=
    exists_of_spares h
  rw [Occurs, toList_expand hsource, hexpansion, hother] at hoccurs
  obtain ⟨hbefore, hne⟩ := infix_of_infix_replaceChars hnone hoccurs
  refine ⟨by rwa [Occurs, hother], ?_⟩
  intro heq
  rw [← hsource, ← hother, heq] at hne
  exact hne rfl

theorem expand_of_not_occurs (h : ¬ Occurs entry.source text) : expand text entry = text := by
  cases hsource : entry.source.toList with
  | nil => rw [expand, replaceAll, hsource]
  | cons first more =>
      rw [Occurs, hsource] at h
      rw [← String.toList_inj, toList_expand hsource, replaceChars_of_not_infix h]

/-- Shorthands that spare each other can be expanded in both orders. -/
theorem expand_comm (h : entry.spares other = true) (h' : other.spares entry = true)
    (text : String) : expand (expand text entry) other = expand (expand text other) entry := by
  by_cases heq : entry = other
  · rw [heq]
  · obtain ⟨first, d, c, more, others, word, hsource, hexpansion, hother, hnone, hshared⟩ :=
      exists_of_spares h
    obtain ⟨first', d', c', more', others', word', hsource', hexpansion', hother', hnone',
      hshared'⟩ := exists_of_spares h'
    obtain ⟨rfl, rfl⟩ : first' = c ∧ more' = word := by simpa using hsource'.symm.trans hother
    obtain ⟨rfl, rfl⟩ : c' = first ∧ word' = more := by simpa using hother'.symm.trans hsource
    rw [← String.toList_inj, toList_expand hsource', toList_expand hsource,
      toList_expand hsource, toList_expand hsource', hexpansion, hexpansion']
    exact replaceChars_comm hnone hnone' (hshared.resolve_left heq)
      (hshared'.resolve_left (Ne.symm heq)) text.toList

end Shorthand

/-! ## Tables -/

namespace ShorthandTable

/-- All entries of a table spare each other and themselves. -/
def Settles (table : ShorthandTable) : Prop :=
  ∀ entry ∈ table, ∀ other ∈ table, entry.spares other = true

instance (table : ShorthandTable) : Decidable table.Settles :=
  inferInstanceAs (Decidable (∀ entry ∈ table, ∀ other ∈ table, entry.spares other = true))

theorem settles_builtin : Settles builtin := by decide

variable {table : ShorthandTable}

/-- What does not occur is not brought in by entries that spare it. -/
theorem occurs_of_occurs_apply {other : Shorthand}
    (h : ∀ entry ∈ table, entry.spares other = true) {text : String}
    (hoccurs : Occurs other.source (table.apply text)) : Occurs other.source text := by
  induction table generalizing text with
  | nil => exact hoccurs
  | cons entry table ih =>
      obtain ⟨hentry, htable⟩ := List.forall_mem_cons.1 h
      exact (Shorthand.occurs_of_occurs_expand hentry (ih htable hoccurs)).1

/-- No source is left once a table of entries that spare each other has been
applied. -/
theorem not_occurs_apply (h : table.Settles) (text : String) :
    ∀ entry ∈ table, ¬ Occurs entry.source (table.apply text) := by
  intro entry hentry
  obtain ⟨front, back, rfl⟩ := List.append_of_mem hentry
  intro hoccurs
  rw [apply_append] at hoccurs
  -- The entry itself takes its source out, and none of those after it brings it back.
  have hback : ∀ other ∈ back, other.spares entry = true :=
    fun other hother => h other (by simp [hother]) entry hentry
  have hexpand : Occurs entry.source (Shorthand.expand (apply front text) entry) :=
    occurs_of_occurs_apply hback hoccurs
  exact (Shorthand.occurs_of_occurs_expand (h entry hentry entry hentry) hexpand).2 rfl

theorem apply_of_not_occurs {text : String}
    (h : ∀ entry ∈ table, ¬ Occurs entry.source text) : table.apply text = text := by
  induction table with
  | nil => rfl
  | cons entry table ih =>
      obtain ⟨hentry, htable⟩ := List.forall_mem_cons.1 h
      rw [apply, List.foldl_cons, Shorthand.expand_of_not_occurs hentry]
      exact ih htable

theorem apply_apply (h : table.Settles) (text : String) :
    table.apply (table.apply text) = table.apply text :=
  apply_of_not_occurs (not_occurs_apply h text)

/-- A table of entries that spare each other leaves precisely those texts as they
are in which no source occurs. -/
theorem apply_eq_self_iff (h : table.Settles) {text : String} :
    table.apply text = text ↔ ∀ entry ∈ table, ¬ Occurs entry.source text := by
  refine ⟨?_, apply_of_not_occurs⟩
  intro heq
  rw [← heq]
  exact not_occurs_apply h text

theorem apply_perm (h : table.Settles) {table' : ShorthandTable} (hperm : table.Perm table')
    (text : String) : table.apply text = table'.apply text :=
  hperm.foldl_eq' (fun entry hentry other hother text =>
    Shorthand.expand_comm (h entry hentry other hother) (h other hother entry hentry) text) text

theorem forall_builtin (motive : String → Prop) :
    (∀ entry ∈ builtin, motive entry.source) ↔
      motive "@bindings_list" ∧ motive "@qualid_or_string" := by
  simp [builtin]

/-- The built-in shorthands need to be expanded only once.  Neither of them is left
in an expanded text, so expanding it again changes nothing, and the texts without
either of them are those that do not change at all.  The order of the two makes no
difference.  The expanded text of a notation is read as the same tree. -/
theorem builtin_settled (text : String) :
    (¬ Occurs "@bindings_list" (builtin.apply text) ∧
      ¬ Occurs "@qualid_or_string" (builtin.apply text)) ∧
    builtin.apply (builtin.apply text) = builtin.apply text ∧
    (builtin.apply text = text ↔
      ¬ Occurs "@bindings_list" text ∧ ¬ Occurs "@qualid_or_string" text) ∧
    apply builtin.reverse text = builtin.apply text ∧
    ∀ form, Notation.parse builtin text = .ok form →
      Notation.parse builtin form.substituted =
        .ok ⟨form.substituted, form.substituted, form.root⟩ := by
  have hsettled := apply_apply settles_builtin text
  refine ⟨?_, hsettled, ?_, ?_, ?_⟩
  · exact (forall_builtin (¬ Occurs · _)).1 (not_occurs_apply settles_builtin text)
  · exact (apply_eq_self_iff settles_builtin).trans (forall_builtin (¬ Occurs · text))
  · exact (apply_perm settles_builtin (List.reverse_perm builtin).symm text).symm
  · intro form hform
    obtain ⟨root, hroot, hform⟩ := Grammar.bind_eq_ok_iff.1 hform
    cases hform
    rw [Notation.parse, hsettled, hroot]
    rfl

/-- Where one shorthand follows the other, and text the other, there is nothing left
to expand, and the expanded text is read as what it is. -/
theorem builtin_settled_seams :
    let form : Notation := ⟨"@qualid_or_string@bindings_lists",
      "@id|@string\x7b+ (@id := @val) \x7ds",
      [.alternative [.hole "id", .hole "string"], .repetition .oneOrMore none
        [.atomic "(", .hole "id", .whitespace, .atomic ":=", .whitespace, .hole "val",
          .atomic ")"], .atomic "s"]⟩
    Notation.parse builtin form.source = .ok form ∧
      Notation.parse builtin form.substituted =
        .ok ⟨form.substituted, form.substituted, form.root⟩ := by
  intro form
  have hparse : Notation.parse builtin form.source = .ok form := by decide +kernel
  exact ⟨hparse, (builtin_settled form.source).2.2.2.2 form hparse⟩

end ShorthandTable
end TacticNotation
