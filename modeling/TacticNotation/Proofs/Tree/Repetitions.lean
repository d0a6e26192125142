import TacticNotation.Proofs.Tree.Finding

/-!
# Repetitions of any number of occurrences

A repetition of at least one occurrence is a first occurrence and then further ones,
each after a separator.  In a repetition of any number the first occurrence may be
left out, and that is all that may be: the further ones are still read as further
ones.  So its instances are the empty text, the instances of the repetition of at
least one occurrence, and besides the texts of further occurrences only, which begin
with a separator.  These add nothing only where every further occurrence can also be
read as beginning with a first one.
-/

namespace TacticNotation

open scoped Computability

/-! ## Leaving out the first occurrence -/

section
variable {first more : Language Char} {word : List Char}

theorem mem_optional_mul_kstar :
    word ∈ (1 + first) * more∗ ↔ word = [] ∨ word ∈ first * more∗ ∨ word ∈ more * more∗ := by
  have hmore : word ∈ more∗ ↔ word = [] ∨ word ∈ more * more∗ := by
    rw [← Language.mem_one, ← Language.mem_add, Language.one_add_self_mul_kstar_eq_kstar]
  rw [add_mul, one_mul, Language.mem_add, hmore, or_assoc, or_comm (a := word ∈ more * more∗)]

/-- Leaving out the first occurrence adds no word but the empty one precisely if
every further occurrence is empty or begins with a first one. -/
theorem optional_mul_kstar_iff :
    (∀ word, word ∈ (1 + first) * more∗ ↔ word = [] ∨ word ∈ first * more∗) ↔
      ∀ word ∈ more, word = [] ∨ word ∈ first * more∗ := by
  constructor
  · intro h word hword
    have hone : word ++ [] ∈ more * more∗ :=
      Language.append_mem_mul hword (Language.nil_mem_kstar more)
    rw [List.append_nil] at hone
    exact (h word).1 (mem_optional_mul_kstar.2 (Or.inr (Or.inr hone)))
  · intro h word
    rw [mem_optional_mul_kstar]
    constructor
    · rintro (hnil | hfirst | hmore)
      · exact Or.inl hnil
      · exact Or.inr hfirst
      · by_cases hne : word = []
        · exact Or.inl hne
        · -- The first of the further occurrences that is not empty takes the place of the first.
          have hstar : word ∈ more∗ := by
            rw [← Language.one_add_self_mul_kstar_eq_kstar]
            exact Or.inr hmore
          obtain ⟨parts, rfl, hparts⟩ := Language.mem_kstar_iff_exists_nonempty.1 hstar
          cases parts with
          | nil => exact absurd rfl hne
          | cons part parts =>
              obtain ⟨hpart, hpartne⟩ := hparts part List.mem_cons_self
              have hrest : parts.flatten ∈ more∗ := Language.join_mem_kstar fun other hother =>
                (hparts other (List.mem_cons_of_mem part hother)).1
              have hjoined : part ++ parts.flatten ∈ first * more∗ * more∗ :=
                Language.append_mem_mul ((h part hpart).resolve_left hpartne) hrest
              rw [mul_assoc, kstar_mul_kstar] at hjoined
              exact Or.inr hjoined
    · rintro (hnil | hfirst)
      · exact Or.inl hnil
      · exact Or.inr (Or.inl hfirst)

end

/-! ## Instances -/

namespace Notation

open Node (another)

theorem accepts_singleton_iff {form : Notation} {node : Node} {pattern : Pattern}
    (hnode : node.isBranched = true) (hroot : form.root = [node])
    (hpattern : form.compile true = .ok pattern) (text : String) :
    form.accepts text = .ok true ↔ text.toList ∈ node.language := by
  have hbranched : Node.isBranchedAll form.root = true := by
    rw [hroot, Node.isBranchedAll, Node.isBranchedAll, hnode]
    rfl
  rw [accepts_iff hbranched hpattern, hroot, Node.languageAll, Node.languageAll, mul_one]

/-- A repetition of any number of occurrences accepts the empty text and what the
repetition of at least one occurrence accepts, but also texts of further
occurrences only, each with the separator before it.  It accepts nothing of this
third kind that is not of the first two precisely if every further occurrence is
empty or begins with an instance of the body. -/
theorem accepts_zeroOrMore_iff {separator : Option String} {body : List Node}
    {form form' : Notation} {pattern pattern' : Pattern}
    (hbody : Node.isBranchedAll body = true)
    (hform : form.root = [.repetition .zeroOrMore separator body])
    (hform' : form'.root = [.repetition .oneOrMore separator body])
    (hpattern : form.compile true = .ok pattern) (hpattern' : form'.compile true = .ok pattern') :
    (∀ text, form.accepts text = .ok true ↔
      text = "" ∨ form'.accepts text = .ok true ∨
        text.toList ∈ another separator (Node.languageAll body) *
          (another separator (Node.languageAll body))∗) ∧
    ((∀ text, form.accepts text = .ok true ↔ text = "" ∨ form'.accepts text = .ok true) ↔
      ∀ word ∈ another separator (Node.languageAll body),
        word = [] ∨
          word ∈ Node.languageAll body * (another separator (Node.languageAll body))∗) := by
  have hbranched (marker : Marker) :
      (Node.repetition marker separator body).isBranched = true := hbody
  have haccepts := accepts_singleton_iff (hbranched .zeroOrMore) hform hpattern
  have haccepts' := accepts_singleton_iff (hbranched .oneOrMore) hform' hpattern'
  simp only [haccepts, haccepts', Node.language, ← String.toList_eq_nil_iff]
  refine ⟨fun text => mem_optional_mul_kstar, ?_⟩
  rw [← optional_mul_kstar_iff]
  constructor
  · intro h word
    simpa using h (String.ofList word)
  · exact fun h text => h text.toList

/-- A list of any number of terms, with commas between them, accepts a text that
begins with a comma.  The text is not empty, and a list of at least one term does
not accept it. -/
theorem accepts_leading_comma :
    let form : Notation := ⟨"\x7b*, @x \x7d", "\x7b*, @x \x7d",
      [.repetition .zeroOrMore (some ",") [.hole "x"]]⟩
    let form' : Notation := ⟨"\x7b+, @x \x7d", "\x7b+, @x \x7d",
      [.repetition .oneOrMore (some ",") [.hole "x"]]⟩
    Notation.parse [] form.source = .ok form ∧ Notation.parse [] form'.source = .ok form' ∧
      ¬ (form.accepts ", a" = .ok true ↔ ", a" = "" ∨ form'.accepts ", a" = .ok true) := by
  intro form form'
  have haccepts : form.accepts ", a" = .ok true := by decide +kernel
  have hrejects : form'.accepts ", a" = .ok false := by decide +kernel
  refine ⟨by decide +kernel, by decide +kernel, ?_⟩
  rw [hrejects]
  intro h
  rcases h.1 haccepts with hempty | haccepts'
  · exact absurd hempty (by decide)
  · cases haccepts'

/-- The text is a further term with the comma before it, and nothing else. -/
theorem accepts_zeroOrMore_iff_leading_comma :
    let form : Notation := ⟨"\x7b*, @x \x7d", "\x7b*, @x \x7d",
      [.repetition .zeroOrMore (some ",") [.hole "x"]]⟩
    let form' : Notation := ⟨"\x7b+, @x \x7d", "\x7b+, @x \x7d",
      [.repetition .oneOrMore (some ",") [.hole "x"]]⟩
    form.accepts ", a" = .ok true ∧ form'.accepts ", a" = .ok false ∧
      ", a".toList ∈ another (some ",") (Node.languageAll [.hole "x"]) *
        (another (some ",") (Node.languageAll [.hole "x"]))∗ := by
  intro form form'
  have haccepts : form.accepts ", a" = .ok true := by decide +kernel
  have hrejects : form'.accepts ", a" = .ok false := by decide +kernel
  obtain ⟨pattern, hpattern, -⟩ := Grammar.bind_eq_ok_iff.1 haccepts
  obtain ⟨pattern', hpattern', -⟩ := Grammar.bind_eq_ok_iff.1 hrejects
  have hinstances := (accepts_zeroOrMore_iff rfl rfl rfl hpattern hpattern').1 ", a"
  refine ⟨haccepts, hrejects, ?_⟩
  rcases hinstances.1 haccepts with hempty | haccepts' | hfurther
  · exact absurd hempty (by decide)
  · rw [hrejects] at haccepts'
    cases haccepts'
  · exact hfurther

end Notation
end TacticNotation
