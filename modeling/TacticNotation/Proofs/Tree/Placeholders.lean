import TacticNotation.Proofs.Tree.Finding
import TacticNotation.Proofs.Tree.WellFormed

/-!
# Placeholder text as an instance

The placeholder text of a notation is written for readers, and its pattern for
texts to be checked.  They agree where the placeholder text shows one way to use
the notation: every repetition shows its body once and every hole its quoted name.
It is then an instance itself.

This leaves out two kinds of node.  A repetition of at least one occurrence shows an
ellipsis, and an alternative shows all of its branches.
-/

namespace TacticNotation

open scoped Computability

namespace Node

/-! ## Nodes that show one instance -/

mutual
/-- Whether there is no repetition of at least one occurrence and no alternative in
a node, at any depth. -/
def showsInstance : Node → Bool
  | .sequence children => showsInstanceAll children
  | .repetition marker _ body => marker != .oneOrMore && showsInstanceAll body
  | .curlies body => showsInstanceAll body
  | .alternative _ => false
  | .atomic _ | .hole _ | .whitespace => true
/-- Whether there is no repetition of at least one occurrence and no alternative in
a list of nodes, at any depth. -/
def showsInstanceAll : List Node → Bool
  | [] => true
  | n :: ns => showsInstance n && showsInstanceAll ns
end

theorem showsInstanceAll_iff {ns : List Node} :
    showsInstanceAll ns = true ↔ ∀ n ∈ ns, n.showsInstance = true := by
  induction ns with
  | nil => simp [showsInstanceAll]
  | cons n ns ih => simp [showsInstanceAll, ih]

theorem mem_holesAll {ns : List Node} {id : String} :
    id ∈ holesAll ns ↔ ∃ n ∈ ns, id ∈ n.holes := by
  rw [holesAll_eq, List.mem_flatMap]

/-! ## The text of a hole -/

theorem isFilling_of_isNameChar {c : Char} (h : isNameChar c = true) : isFilling c = true := by
  rw [isFilling, Bool.not_eq_true', Bool.eq_false_iff]
  intro hcontains
  have hmem : c ∈ ['(', ')', ';', '.', ' ', '\n'] := List.contains_iff_mem.1 hcontains
  simp only [List.mem_cons, List.not_mem_nil, or_false] at hmem
  rcases hmem with rfl | rfl | rfl | rfl | rfl | rfl <;> exact absurd h (by decide)

/-- A quoted name can fill a hole. -/
theorem placeholder_hole_mem {id : String} (h : ∀ c ∈ id.toList, isNameChar c = true) :
    (placeholder (.hole id)).toList ∈ someOf isFilling := by
  have hchars : (placeholder (.hole id)).toList = '‘' :: (id.toList ++ ['’']) := by
    simp [placeholder]
  rw [hchars]
  refine ⟨List.cons_ne_nil _ _, List.forall_mem_cons.2 ⟨by decide, ?_⟩⟩
  refine List.forall_mem_append.2 ⟨fun c hc => isFilling_of_isNameChar (h c hc), ?_⟩
  exact List.forall_mem_singleton.2 (by decide)

/-- The names of all holes in a well-formed node can be written as such. -/
theorem WellFormed.isNameChar_of_mem_holes {n : Node} (h : WellFormed n) :
    ∀ id ∈ n.holes, ∀ c ∈ id.toList, isNameChar c = true := by
  have hall {ns : List Node}
      (ih : ∀ n ∈ ns, ∀ id ∈ n.holes, ∀ c ∈ id.toList, isNameChar c = true) :
      ∀ id ∈ holesAll ns, ∀ c ∈ id.toList, isNameChar c = true := by
    intro id hid
    obtain ⟨n, hn, hid⟩ := mem_holesAll.1 hid
    exact ih n hn id hid
  induction h with
  | atomic => simp [holes]
  | hole hvalid =>
      rw [holes, List.forall_mem_singleton]
      exact hvalid.2
  | whitespace => simp [holes]
  | repetition marker _ _ _ _ ih => exact hall ih
  | curlies _ _ _ ih => exact hall ih
  | alternative _ _ _ ih => exact hall ih

/-! ## The text of a node -/

theorem placeholderAll_mem_of_forall {ns : List Node}
    (ih : ∀ n ∈ ns, n.placeholder.toList ∈ n.language) :
    (placeholderAll ns).toList ∈ languageAll ns := by
  induction ns with
  | nil => exact Language.nil_mem_one
  | cons n ns hns =>
      rw [placeholderAll, String.toList_append, languageAll]
      exact Language.append_mem_mul (ih n (by simp)) (hns fun m hm => ih m (by simp [hm]))

/-- What a node shows is an instance of it, if it shows one and the names of its
holes are names. -/
theorem placeholder_mem_language (n : Node) (hshows : n.showsInstance = true)
    (hnames : ∀ id ∈ n.holes, ∀ c ∈ id.toList, isNameChar c = true) :
    n.placeholder.toList ∈ n.language := by
  have hall {ns : List Node}
      (ih : ∀ n ∈ ns, n.showsInstance = true →
        (∀ id ∈ n.holes, ∀ c ∈ id.toList, isNameChar c = true) →
        n.placeholder.toList ∈ n.language)
      (hshows : showsInstanceAll ns = true)
      (hnames : ∀ id ∈ holesAll ns, ∀ c ∈ id.toList, isNameChar c = true) :
      (placeholderAll ns).toList ∈ languageAll ns := by
    refine placeholderAll_mem_of_forall fun n hn => ?_
    exact ih n hn (showsInstanceAll_iff.1 hshows n hn) fun id hid =>
      hnames id (mem_holesAll.2 ⟨n, hn, hid⟩)
  induction n using Node.induct with
  | sequence children ih => exact hall ih hshows hnames
  | repetition marker separator body ih =>
      rw [showsInstance, Bool.and_eq_true] at hshows
      have hbody := hall ih hshows.2 hnames
      cases marker with
      | optional => exact Or.inr hbody
      | zeroOrMore =>
          have honce : (placeholderAll body).toList ∈ 1 + languageAll body := Or.inr hbody
          rw [placeholder, ← List.append_nil (placeholderAll body).toList, language]
          exact Language.append_mem_mul honce (Language.nil_mem_kstar _)
      | oneOrMore => exact absurd hshows.1 (by decide)
  | curlies body ih =>
      rw [placeholder, String.toList_append, String.toList_append, language]
      exact Language.append_mem_mul (Language.append_mem_mul rfl (hall ih hshows hnames)) rfl
  | alternative branches ih => cases hshows
  | atomic text => rfl
  | hole id => exact placeholder_hole_mem (hnames id (List.mem_singleton_self id))
  | whitespace =>
      have hchars : (placeholder .whitespace).toList = [' '] := by simp [placeholder]
      rw [hchars]
      exact ⟨List.cons_ne_nil _ _, List.forall_mem_singleton.2 (by decide)⟩

end Node

namespace Notation

/-- The placeholder text of a notation that is read, with any table of shorthands,
is accepted as an instance of it, if there is no repetition of at least one
occurrence and no alternative in its tree. -/
theorem accepts_placeholder {table : ShorthandTable} {source : String} {form : Notation}
    {pattern : Pattern} (hparse : Notation.parse table source = .ok form)
    (hshows : Node.showsInstanceAll form.root = true)
    (hpattern : form.compile true = .ok pattern) :
    form.accepts form.placeholder = .ok true := by
  rw [accepts_iff (isBranchedAll_of_parse hparse) hpattern, placeholder]
  obtain ⟨body, back, hbody, happart⟩ := Grammar.derives_of_parse hparse
  refine Node.placeholderAll_mem_of_forall fun n hn => ?_
  have hwellFormed := hbody.wellFormed happart n hn
  exact Node.placeholder_mem_language n (Node.showsInstanceAll_iff.1 hshows n hn)
    hwellFormed.isNameChar_of_mem_holes

/-- Literals with signs that mean something in a pattern, quotes and characters of
several bytes stand in the placeholder text as they are.  They stand for themselves
only: with another character in the place of the dot the text is refused. -/
theorem accepts_placeholder_literals :
    let form : Notation := ⟨"a.*[é \x7b*; (‘@x \x7b? || \x7b @y \x7d \x7d \x7d^$",
      "a.*[é \x7b*; (‘@x \x7b? || \x7b @y \x7d \x7d \x7d^$",
      [.atomic "a.*[é", .whitespace, .repetition .zeroOrMore (some ";")
        [.atomic "(‘", .hole "x", .whitespace, .repetition .optional none
          [.atomic "||", .whitespace, .curlies [.whitespace, .hole "y", .whitespace]]],
        .atomic "^$"]⟩
    Notation.parse [] form.source = .ok form ∧
      form.placeholder = "a.*[é (‘‘x’ || \x7b ‘y’ \x7d^$" ∧
      form.accepts form.placeholder = .ok true ∧
      form.accepts "aé*[é (‘‘x’ || \x7b ‘y’ \x7d^$" = .ok false := by
  intro form
  have hparse : Notation.parse [] form.source = .ok form := by decide +kernel
  have hplaceholder : form.placeholder = "a.*[é (‘‘x’ || \x7b ‘y’ \x7d^$" := by decide +kernel
  have hrefused : form.accepts "aé*[é (‘‘x’ || \x7b ‘y’ \x7d^$" = .ok false := by
    decide +kernel
  obtain ⟨pattern, hpattern, -⟩ := Grammar.bind_eq_ok_iff.1 hrefused
  exact ⟨hparse, hplaceholder, accepts_placeholder hparse (by decide) hpattern, hrefused⟩

end Notation
end TacticNotation
