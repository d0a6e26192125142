import TacticNotation.Proofs.Tree.Finding

/-!
# Optional parts at the end of a notation

A gap before an optional group belongs neither to the group nor to what stands before
it: it is a node of its own, and a blank has to be there for it.  So an instance in
which the group is left out still ends with a blank, and an instance of what stands
before the gap need not be one of the whole.  No notation is an exception, because the
shortest instance of what stands before the gap has no shorter one that a blank could
follow.
-/

namespace TacticNotation

open scoped Computability

/-! ## Shortest words -/

/-- Some word of a language is no longer than any other, and then it is none that a
word of the language begins and something has to follow. -/
theorem exists_mem_notMem_mul {first gaps : Language Char}
    (hfirst : ∃ word, word ∈ first) (hgaps : [] ∉ gaps) (last : Language Char) :
    ∃ word ∈ first, word ∉ first * (gaps * last) := by
  obtain ⟨word, hword, hshortest⟩ :=
    (measure fun word : List Char => word.length).wf.has_min {word | word ∈ first} hfirst
  refine ⟨word, hword, ?_⟩
  intro hmul
  obtain ⟨front, hfront, _, hmore, hsplit⟩ := Language.mem_mul.1 hmul
  obtain ⟨gap, hgap, back, -, rfl⟩ := Language.mem_mul.1 hmore
  have hgapPos : 0 < gap.length := by
    refine List.length_pos_iff.2 ?_
    rintro rfl
    exact hgaps hgap
  have hlength : front.length < word.length := by
    rw [← hsplit, List.length_append, List.length_append]
    omega
  exact hshortest front hfront hlength

namespace Node

theorem languageAll_append (front back : List Node) :
    languageAll (front ++ back) = languageAll front * languageAll back := by
  induction front with
  | nil => rw [List.nil_append, languageAll, one_mul]
  | cons n front ih => rw [List.cons_append, languageAll, languageAll, ih, mul_assoc]

/-! ## Instances exist -/

theorem exists_mem_languageAll_of_forall {ns : List Node}
    (ih : ∀ n ∈ ns, ∃ word, word ∈ n.language) : ∃ word, word ∈ languageAll ns := by
  induction ns with
  | nil => exact ⟨[], Language.nil_mem_one⟩
  | cons n ns hns =>
      obtain ⟨word, hword⟩ := ih n (by simp)
      obtain ⟨more, hmore⟩ := hns fun m hm => ih m (List.mem_cons_of_mem n hm)
      exact ⟨word ++ more, Language.append_mem_mul hword hmore⟩

/-- A node whose alternatives have branches has an instance. -/
theorem exists_mem_language (n : Node) (hn : n.isBranched = true) :
    ∃ word, word ∈ n.language := by
  induction n using Node.induct with
  | sequence children ih =>
      rw [isBranched, isBranchedAll_iff] at hn
      exact exists_mem_languageAll_of_forall fun n hmem => ih n hmem (hn n hmem)
  | repetition marker separator body ih =>
      rw [isBranched, isBranchedAll_iff] at hn
      obtain ⟨word, hword⟩ :=
        exists_mem_languageAll_of_forall fun n hmem => ih n hmem (hn n hmem)
      -- One occurrence will do for every marker.
      cases marker with
      | optional => exact ⟨word, Or.inr hword⟩
      | zeroOrMore =>
          exact ⟨word ++ [], Language.append_mem_mul (Or.inr hword) (Language.nil_mem_kstar _)⟩
      | oneOrMore =>
          exact ⟨word ++ [], Language.append_mem_mul hword (Language.nil_mem_kstar _)⟩
  | curlies body ih =>
      rw [isBranched, isBranchedAll_iff] at hn
      obtain ⟨word, hword⟩ :=
        exists_mem_languageAll_of_forall fun n hmem => ih n hmem (hn n hmem)
      exact ⟨['{'] ++ word ++ ['}'],
        Language.append_mem_mul (Language.append_mem_mul rfl hword) rfl⟩
  | alternative branches ih =>
      rw [isBranched, Bool.and_eq_true, isBranchedAll_iff] at hn
      cases branches with
      | nil => exact absurd hn.1 (by simp)
      | cons branch branches =>
          obtain ⟨word, hword⟩ := ih branch (by simp) (hn.2 branch (by simp))
          exact ⟨word, Or.inl hword⟩
  | atomic text => exact ⟨text.toList, rfl⟩
  | hole id => exact ⟨['x'], List.cons_ne_nil _ _, List.forall_mem_singleton.2 (by decide)⟩
  | whitespace => exact ⟨[' '], List.cons_ne_nil _ _, List.forall_mem_singleton.2 (by decide)⟩

theorem exists_mem_languageAll {ns : List Node} (h : isBranchedAll ns = true) :
    ∃ word, word ∈ languageAll ns := by
  rw [isBranchedAll_iff] at h
  exact exists_mem_languageAll_of_forall fun n hn => exists_mem_language n (h n hn)

/-- The nodes of a gap and of an optional group after it. -/
def trailingOptional (separator : Option String) (body : List Node) : List Node :=
  [.whitespace, .repetition .optional separator body]

theorem languageAll_trailingOptional (separator : Option String) (body : List Node) :
    languageAll (trailingOptional separator body) =
      someOf isBlank * (1 + languageAll body) := by
  rw [trailingOptional, languageAll, languageAll, languageAll, language, language, mul_one]

end Node

/-! ## Leaving the group out -/

namespace Notation

open Node (trailingOptional)

theorem accepts_eq_false_iff {form : Notation} {pattern : Pattern}
    (hroot : Node.isBranchedAll form.root = true) (h : form.compile true = .ok pattern)
    (text : String) :
    form.accepts text = .ok false ↔ text.toList ∉ Node.languageAll form.root := by
  have haccepts : form.accepts text = .ok (pattern.isMatch text) := by
    rw [accepts, h]
    rfl
  rw [← accepts_iff hroot h, haccepts]
  cases pattern.isMatch text <;> simp

/-- With an optional group at its end, after a gap, a notation accepts an instance of
what stands before the gap only with one blank or more after it, whether or not an
instance of the group follows these blanks.  So leaving out the group does not mean
leaving out the gap: for every such notation some instance of what stands before the
gap is refused. -/
theorem accepts_trailingOptional_iff {form front : Notation} {separator : Option String}
    {body : List Node} {pattern pattern' : Pattern}
    (hbranched : Node.isBranchedAll form.root = true)
    (hform : form.root = front.root ++ trailingOptional separator body)
    (hpattern : form.compile true = .ok pattern)
    (hpattern' : front.compile true = .ok pattern') :
    (∀ text, form.accepts text = .ok true ↔
      ∃ first gap last : String, text = first ++ gap ++ last ∧
        front.accepts first = .ok true ∧
        gap ≠ "" ∧ (∀ c ∈ gap.toList, isBlank c = true) ∧
        (last = "" ∨ last.toList ∈ Node.languageAll body)) ∧
    ∃ text, front.accepts text = .ok true ∧ form.accepts text = .ok false := by
  have hfront : Node.isBranchedAll front.root = true := by
    rw [hform, Node.isBranchedAll_iff] at hbranched
    rw [Node.isBranchedAll_iff]
    exact fun n hn => hbranched n (List.mem_append_left _ hn)
  have hlanguage : Node.languageAll form.root =
      Node.languageAll front.root * (someOf isBlank * (1 + Node.languageAll body)) := by
    rw [hform, Node.languageAll_append, Node.languageAll_trailingOptional]
  refine ⟨?_, ?_⟩
  · intro text
    rw [accepts_iff hbranched hpattern, hlanguage]
    simp only [accepts_iff hfront hpattern', Language.mem_mul, Language.mem_add,
      Language.mem_one]
    constructor
    · rintro ⟨first, hfirst, _, ⟨gap, ⟨hne, hblank⟩, last, hlast, rfl⟩, htext⟩
      refine ⟨String.ofList first, String.ofList gap, String.ofList last, ?_, ?_, ?_, ?_, ?_⟩
      · rw [← String.toList_inj]
        simpa using htext.symm
      · simpa using hfirst
      · simpa using hne
      · simpa using hblank
      · simpa using hlast
    · rintro ⟨first, gap, last, rfl, hfirst, hne, hblank, hlast⟩
      refine ⟨first.toList, hfirst, gap.toList ++ last.toList, ?_, by simp⟩
      refine ⟨gap.toList, ⟨by simpa using hne, hblank⟩, last.toList, ?_, rfl⟩
      simpa using hlast
  · have hgaps : [] ∉ someOf isBlank := fun hnil => hnil.1 rfl
    obtain ⟨word, hword, hnot⟩ :=
      exists_mem_notMem_mul (Node.exists_mem_languageAll hfront) hgaps
        (1 + Node.languageAll body)
    refine ⟨String.ofList word, ?_, ?_⟩
    · rwa [accepts_iff hfront hpattern', String.toList_ofList]
    · rwa [accepts_eq_false_iff hbranched hpattern, hlanguage, String.toList_ofList]

/-- Terms to rewrite with, and a place to rewrite in that may be left out: the terms
alone are accepted without the place, and refused where it could follow. -/
theorem rejects_absent_place :
    let front : Notation := ⟨"rewrite \x7b+, @term \x7d", "rewrite \x7b+, @term \x7d",
      [.atomic "rewrite", .whitespace, .repetition .oneOrMore (some ",") [.hole "term"]]⟩
    let form : Notation := ⟨"rewrite \x7b+, @term \x7d \x7b? in @ident \x7d",
      "rewrite \x7b+, @term \x7d \x7b? in @ident \x7d",
      front.root ++ trailingOptional none [.atomic "in", .whitespace, .hole "ident"]⟩
    Notation.parse [] front.source = .ok front ∧ Notation.parse [] form.source = .ok form ∧
      ¬ ∀ text, front.accepts text = .ok true → form.accepts text = .ok true := by
  intro front form
  have haccepts : front.accepts "rewrite H" = .ok true := by decide +kernel
  have hrejects : form.accepts "rewrite H" = .ok false := by decide +kernel
  refine ⟨by decide +kernel, by decide +kernel, ?_⟩
  intro hclaim
  have hboth := hclaim "rewrite H" haccepts
  rw [hrejects] at hboth
  cases hboth

/-- With a blank after the terms the place may be left out. -/
theorem accepts_trailingOptional_iff_place :
    let front : Notation := ⟨"rewrite \x7b+, @term \x7d", "rewrite \x7b+, @term \x7d",
      [.atomic "rewrite", .whitespace, .repetition .oneOrMore (some ",") [.hole "term"]]⟩
    let form : Notation := ⟨"rewrite \x7b+, @term \x7d \x7b? in @ident \x7d",
      "rewrite \x7b+, @term \x7d \x7b? in @ident \x7d",
      front.root ++ trailingOptional none [.atomic "in", .whitespace, .hole "ident"]⟩
    front.accepts "rewrite H" = .ok true ∧ form.accepts "rewrite H " = .ok true ∧
      ∃ text, front.accepts text = .ok true ∧ form.accepts text = .ok false := by
  intro front form
  have haccepts : front.accepts "rewrite H" = .ok true := by decide +kernel
  have hrejects : form.accepts "rewrite H" = .ok false := by decide +kernel
  obtain ⟨pattern, hpattern, -⟩ := Grammar.bind_eq_ok_iff.1 hrejects
  obtain ⟨pattern', hpattern', -⟩ := Grammar.bind_eq_ok_iff.1 haccepts
  obtain ⟨hiff, hrefused⟩ := accepts_trailingOptional_iff (by decide) rfl hpattern hpattern'
  have hblank : ∀ c ∈ " ".toList, isBlank c = true := List.forall_mem_singleton.2 (by decide)
  refine ⟨haccepts, ?_, hrefused⟩
  exact (hiff "rewrite H ").2 ⟨"rewrite H", " ", "", by decide, haccepts, by decide, hblank,
    Or.inl rfl⟩

end Notation
end TacticNotation
