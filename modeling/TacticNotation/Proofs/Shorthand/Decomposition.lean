import TacticNotation.Proofs.Shorthand.FixedPoint

/-!
# What a table of shorthands does to a text

To expand a shorthand is to cut the text at its source and to put what it stands for
between the pieces.  A text can be cut in several ways, since occurrences of a source
may overlap; `Cut.IsOf` asks for the one in which the source first occurs at the very
end of each piece and does not occur in what is left.  There is always such a cut and
never a second one (`Cut.existsUnique_isOf`), and replacing fills its places.

A table rewrites a text entry by entry (`Rewrites`).  An entry sees what the entries
before it have put in.  What it puts in itself has no part in its cut, so it is not
searched again.
-/

namespace TacticNotation

/-! ## Cuts -/

/-- In `piece` with `source` after it there is no occurrence of the source but at the
very end. -/
def EndsFirst (source piece : List Char) : Prop :=
  ∀ front back, piece ++ source = front ++ (source ++ back) → back = []

section
variable {source piece : List Char}

theorem endsFirst_nil (source : List Char) : EndsFirst source [] := by
  intro front back h
  have hlength := congrArg List.length h
  simp only [List.nil_append, List.length_append] at hlength
  exact List.length_eq_zero_iff.1 (by omega)

theorem EndsFirst.cons (h : EndsFirst source piece) {c : Char}
    (hnot : ¬ source <+: c :: (piece ++ source)) : EndsFirst source (c :: piece) := by
  intro front back hsplit
  cases front with
  | nil => exact absurd ⟨back, hsplit.symm⟩ hnot
  | cons d front =>
      rw [List.cons_append, List.cons_append, List.cons_eq_cons] at hsplit
      exact h front back hsplit.2

/-- A text has only one piece of this kind at its front. -/
theorem EndsFirst.unique {piece' text : List Char} (h : EndsFirst source piece)
    (h' : EndsFirst source piece') (hfront : piece ++ source <+: text)
    (hfront' : piece' ++ source <+: text) : piece = piece' := by
  -- The source ends at the same place after both, or once before the very end.
  have hsame {short long : List Char} (hlong : EndsFirst source long)
      (hshort : short ++ source <+: long ++ source) : short = long := by
    obtain ⟨back, hback⟩ := hshort
    have hnil : back = [] := hlong short back (by rw [← hback, List.append_assoc])
    rw [hnil, List.append_nil] at hback
    exact List.append_cancel_right hback
  rcases List.prefix_or_prefix_of_prefix hfront hfront' with hshort | hshort
  · exact hsame h' hshort
  · exact (hsame h hshort).symm

end

/-- A text cut into pieces, with a place between any two of them. -/
structure Cut where
  /-- The pieces that have a place after them. -/
  pieces : List (List Char)
  /-- The piece after the last place. -/
  last : List Char
  deriving DecidableEq, Repr

namespace Cut

/-- The text with `filler` at every place. -/
def fill (cut : Cut) (filler : List Char) : List Char :=
  cut.pieces.flatMap (· ++ filler) ++ cut.last

/-- A text is cut at the occurrences of a source that are found from left to right,
none of which overlaps the one before. -/
structure IsOf (cut : Cut) (source text : List Char) : Prop where
  fill_eq : cut.fill source = text
  endsFirst : ∀ piece ∈ cut.pieces, EndsFirst source piece
  last : ¬ source <:+: cut.last

theorem fill_cons (piece : List Char) (pieces : List (List Char)) (last filler : List Char) :
    fill ⟨piece :: pieces, last⟩ filler = piece ++ filler ++ fill ⟨pieces, last⟩ filler := by
  simp only [fill, List.flatMap_cons, List.append_assoc]

/-- The cut of a text that has a place before it. -/
def afterPlace (cut : Cut) : Cut :=
  ⟨[] :: cut.pieces, cut.last⟩

/-- The cut of a text that has one more character before it. -/
def push (c : Char) : Cut → Cut
  | ⟨[], last⟩ => ⟨[], c :: last⟩
  | ⟨piece :: pieces, last⟩ => ⟨(c :: piece) :: pieces, last⟩

theorem fill_afterPlace (cut : Cut) (filler : List Char) :
    cut.afterPlace.fill filler = filler ++ cut.fill filler := by
  rw [afterPlace, fill_cons, List.nil_append]

theorem fill_push (c : Char) (cut : Cut) (filler : List Char) :
    (cut.push c).fill filler = c :: cut.fill filler := by
  obtain ⟨pieces, last⟩ := cut
  cases pieces with
  | nil => rfl
  | cons piece pieces =>
      rw [push, fill_cons, fill_cons, List.cons_append, List.cons_append]

/-! ## One cut and no other -/

namespace IsOf

variable {cut cut' : Cut} {source text : List Char}

theorem afterPlace (h : cut.IsOf source text) :
    cut.afterPlace.IsOf source (source ++ text) where
  fill_eq := by rw [fill_afterPlace, h.fill_eq]
  endsFirst := List.forall_mem_cons.2 ⟨endsFirst_nil source, h.endsFirst⟩
  last := h.last

/-- Where the source does not stand at the front, the first character belongs to the
first piece. -/
theorem push (h : cut.IsOf source text) {c : Char} (hnot : ¬ source <+: c :: text) :
    (cut.push c).IsOf source (c :: text) := by
  have hfill : (cut.push c).fill source = c :: text := by
    rw [fill_push, h.fill_eq]
  obtain ⟨pieces, last⟩ := cut
  cases pieces with
  | nil =>
      refine ⟨hfill, by simp [Cut.push], ?_⟩
      have hlast : last = text := h.fill_eq
      intro hoccurs
      rcases List.infix_cons_iff.1 hoccurs with hfront | hmore
      · exact hnot (hlast ▸ hfront)
      · exact h.last hmore
  | cons piece pieces =>
      obtain ⟨hpiece, hpieces⟩ := List.forall_mem_cons.1 h.endsFirst
      have hpush : ¬ source <+: c :: (piece ++ source) := by
        intro hfront
        refine hnot (hfront.trans ?_)
        rw [← h.fill_eq, fill_cons]
        exact List.prefix_append (c :: (piece ++ source)) _
      exact ⟨hfill, List.forall_mem_cons.2 ⟨hpiece.cons hpush, hpieces⟩, h.last⟩

/-- Without pieces there is no occurrence, and with pieces there is one. -/
theorem ne_of_cons {piece last : List Char} {pieces : List (List Char)}
    (h : IsOf ⟨piece :: pieces, last⟩ source text) {last' : List Char} :
    ¬ IsOf ⟨[], last'⟩ source text := by
  intro h'
  have hlast : last' = text := h'.fill_eq
  refine h'.last ?_
  rw [hlast, ← h.fill_eq, fill_cons]
  exact ⟨piece, _, rfl⟩

theorem unique (h : cut.IsOf source text) (h' : cut'.IsOf source text) : cut = cut' := by
  obtain ⟨pieces, last⟩ := cut
  obtain ⟨pieces', last'⟩ := cut'
  induction pieces generalizing pieces' text with
  | nil =>
      cases pieces' with
      | nil =>
          have hlast : last = last' := h.fill_eq.trans h'.fill_eq.symm
          rw [hlast]
      | cons piece' pieces' => exact absurd h h'.ne_of_cons
  | cons piece pieces ih =>
      cases pieces' with
      | nil => exact absurd h' h.ne_of_cons
      | cons piece' pieces' =>
          obtain ⟨hpiece, hpieces⟩ := List.forall_mem_cons.1 h.endsFirst
          obtain ⟨hpiece', hpieces'⟩ := List.forall_mem_cons.1 h'.endsFirst
          have hfill := h.fill_eq
          have hfill' := h'.fill_eq
          rw [fill_cons] at hfill hfill'
          have hsame : piece = piece' :=
            hpiece.unique hpiece' (hfill ▸ List.prefix_append _ _) (hfill' ▸ List.prefix_append _ _)
          subst hsame
          -- What is left after the first place is the same text, with one cut.
          have hrest := List.append_cancel_left (hfill.trans hfill'.symm)
          have hcuts := ih ⟨hrest, hpieces, h.last⟩ pieces' ⟨rfl, hpieces', h'.last⟩
          cases hcuts
          rfl

end IsOf

/-- Replacing finds a cut and fills its places. -/
theorem exists_isOf (first : Char) (more text : List Char) :
    ∃ cut : Cut, cut.IsOf (first :: more) text ∧
      ∀ filler, cut.fill filler = replaceChars first more filler text := by
  induction text using replaceChars_induction first more with
  | nil =>
      refine ⟨⟨[], []⟩, ⟨rfl, by simp, by simp⟩, ?_⟩
      intro filler
      rw [replaceChars]
      rfl
  | found rest ih =>
      obtain ⟨cut, hcut, hfill⟩ := ih
      refine ⟨cut.afterPlace, hcut.afterPlace, ?_⟩
      intro filler
      rw [fill_afterPlace, hfill, replaceChars_found]
  | passed c rest hnot ih =>
      obtain ⟨cut, hcut, hfill⟩ := ih
      refine ⟨cut.push c, hcut.push hnot, ?_⟩
      intro filler
      rw [fill_push, hfill, replaceChars_cons hnot]

theorem existsUnique_isOf {source : List Char} (h : source ≠ []) (text : List Char) :
    ∃! cut : Cut, cut.IsOf source text := by
  obtain ⟨first, more, rfl⟩ := List.exists_cons_of_ne_nil h
  obtain ⟨cut, hcut, -⟩ := exists_isOf first more text
  exact ⟨cut, hcut, fun other hother => hother.unique hcut⟩

end Cut

/-! ## Entries and tables -/

instance (source text : String) : Decidable (Occurs source text) :=
  inferInstanceAs (Decidable (source.toList <:+: text.toList))

namespace Shorthand

/-- A text is cut at the source of a shorthand, and what the shorthand stands for is
put between the pieces. -/
def Replaces (entry : Shorthand) (text result : String) : Prop :=
  ∃ cut : Cut, cut.IsOf entry.source.toList text.toList ∧
    result.toList = cut.fill entry.expansion.toList

/-- Expand a shorthand if it occurs at all. -/
def expandIfOccurs (text : String) (entry : Shorthand) : String :=
  if Occurs entry.source text then expand text entry else text

variable {entry : Shorthand}

theorem replaces_iff (h : entry.source ≠ "") {text result : String} :
    entry.Replaces text result ↔ expand text entry = result := by
  have hsource : entry.source.toList ≠ [] := by simpa using h
  obtain ⟨first, more, hcons⟩ := List.exists_cons_of_ne_nil hsource
  obtain ⟨cut, hcut, hfill⟩ := Cut.exists_isOf first more text.toList
  rw [← hcons] at hcut
  constructor
  · rintro ⟨other, hother, hresult⟩
    rw [← String.toList_inj, toList_expand hcons, hresult, hother.unique hcut, hfill]
  · rintro rfl
    exact ⟨cut, hcut, by rw [toList_expand hcons, hfill]⟩

theorem expandIfOccurs_eq (text : String) (entry : Shorthand) :
    expandIfOccurs text entry = expand text entry := by
  by_cases hoccurs : Occurs entry.source text
  · exact if_pos hoccurs
  · rw [expandIfOccurs, if_neg hoccurs, expand_of_not_occurs hoccurs]

end Shorthand

namespace ShorthandTable

/-- A text is rewritten by each entry of a table once, in their order. -/
inductive Rewrites : ShorthandTable → String → String → Prop where
  | nil (text : String) : Rewrites [] text text
  | cons {entry : Shorthand} {table : ShorthandTable} {text between result : String}
      (hentry : entry.Replaces text between) (htable : Rewrites table between result) :
      Rewrites (entry :: table) text result

theorem rewrites_cons_iff {entry : Shorthand} {table : ShorthandTable} {text result : String} :
    Rewrites (entry :: table) text result ↔
      ∃ between, entry.Replaces text between ∧ Rewrites table between result := by
  constructor
  · intro h
    cases h with
    | cons hentry htable => exact ⟨_, hentry, htable⟩
  · rintro ⟨between, hentry, htable⟩
    exact .cons hentry htable

theorem rewrites_iff {table : ShorthandTable} (h : ∀ entry ∈ table, entry.source ≠ "")
    {text result : String} : Rewrites table text result ↔ table.apply text = result := by
  induction table generalizing text with
  | nil =>
      constructor
      · intro hnil
        cases hnil
        rfl
      · rintro rfl
        exact .nil text
  | cons entry table ih =>
      obtain ⟨hentry, htable⟩ := List.forall_mem_cons.1 h
      rw [rewrites_cons_iff, apply, List.foldl_cons]
      simp only [Shorthand.replaces_iff hentry, exists_eq_left', ih htable, apply]

theorem source_ne_of_mem_withExtra {extra : List Shorthand} :
    ∀ entry ∈ withExtra extra, entry.source ≠ "" := by
  intro entry hentry
  have hnonempty : ∀ entry ∈ builtin, entry.source ≠ "" := by decide
  rcases List.mem_append.1 hentry with hbuiltin | hextra
  · exact hnonempty entry hbuiltin
  · simpa using List.of_mem_filter hextra

/-- For every text and every source there is one cut of the text at the source and no
other.  A table with extra entries rewrites a text by filling such cuts: first with the
two built-in shorthands and then with those of the extra ones that have a source, in
their order, each in the text that the one before it has left; and that is the only
result that this can have.  To look first whether a source occurs makes no difference. -/
theorem withExtra_rewrites (extra : List Shorthand) (text : String) :
    (∀ source subject : String, source ≠ "" →
      ∃! cut : Cut, cut.IsOf source.toList subject.toList) ∧
    (∀ result, Rewrites
        (⟨"@bindings_list", "\x7b+ (@id := @val) \x7d"⟩ ::
          ⟨"@qualid_or_string", "@id|@string"⟩ :: extra.filter (·.source ≠ "")) text result ↔
      (withExtra extra).apply text = result) ∧
    (withExtra extra).foldl Shorthand.expandIfOccurs text = (withExtra extra).apply text := by
  refine ⟨?_, ?_, ?_⟩
  · intro source subject hsource
    exact Cut.existsUnique_isOf (by simpa using hsource) subject.toList
  · intro result
    have hiff : Rewrites (withExtra extra) text result ↔ (withExtra extra).apply text = result :=
      rewrites_iff source_ne_of_mem_withExtra
    exact hiff
  · have hstep : Shorthand.expandIfOccurs = Shorthand.expand := by
      funext text entry
      exact Shorthand.expandIfOccurs_eq text entry
    rw [hstep]
    rfl

/-- Of two occurrences that overlap the first is replaced.  What is put in makes
another occurrence, which is left to the next entry, and that entry takes a part of
it. -/
theorem withExtra_rewrites_overlap :
    let extra : List Shorthand := [⟨"", "boom"⟩, ⟨"aba", "ba"⟩, ⟨"bab", "x"⟩]
    "aba" ≠ "" ∧ (∃! cut : Cut, cut.IsOf "aba".toList "ababa".toList) ∧
      (withExtra extra).apply "ababa" = "xa" ∧
      Rewrites
        (⟨"@bindings_list", "\x7b+ (@id := @val) \x7d"⟩ ::
          ⟨"@qualid_or_string", "@id|@string"⟩ :: extra.filter (·.source ≠ "")) "ababa" "xa" ∧
      (withExtra extra).foldl Shorthand.expandIfOccurs "ababa" = "xa" := by
  intro extra
  have hsource : "aba" ≠ "" := by decide
  have happly : (withExtra extra).apply "ababa" = "xa" := by decide +kernel
  obtain ⟨hcut, hrewrites, hguarded⟩ := withExtra_rewrites extra "ababa"
  exact ⟨hsource, hcut "aba" "ababa" hsource, happly, (hrewrites "xa").2 happly,
    hguarded.trans happly⟩

end ShorthandTable
end TacticNotation
