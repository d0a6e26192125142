import TacticNotation.Proofs.Markup.Scanning
import TacticNotation.Proofs.Token.Words
import TacticNotation.Proofs.Tree.WellFormed

/-!
# One line for each notation

What a notation is rendered as takes one line in every format: it is not empty, and it
holds no line feed, no carriage return and no tab.  Nothing checks this.  A notation is
read from any text and with any table of shorthands, but the blanks that could end a
line only separate tokens, so no literal, separator or name in the tree holds one
(`WellFormed.holdsInline`), and what the formats add of their own is on one
line as well.  JSON would escape such characters in any case.

Other characters that may be shown as the end of a line, U+0085 or U+2028 among them,
can stand in a literal, and then they stand in what is written.
-/

namespace TacticNotation

/-! ## Lines -/

/-- The characters that neither end a line nor align what follows them. -/
def isInline (c : Char) : Bool := c != '\n' && c != '\r' && c != '\t'

/-- The text takes part of one line only. -/
def IsInline (text : String) : Prop := ∀ c ∈ text.toList, isInline c = true

instance : DecidablePred IsInline := fun text =>
  List.decidableBAll (fun c => isInline c = true) text.toList

theorem isInline_iff {c : Char} : isInline c = true ↔ c ≠ '\n' ∧ c ≠ '\r' ∧ c ≠ '\t' := by
  simp [isInline, and_assoc]

theorem isInline_of_not_isGap {c : Char} (h : isGap c = false) : isInline c = true := by
  rw [isInline_iff]
  refine ⟨?_, ?_, ?_⟩ <;> rintro rfl <;> cases h

theorem isInline_append {front back : String} :
    IsInline (front ++ back) ↔ IsInline front ∧ IsInline back := by
  rw [IsInline, String.toList_append, List.forall_mem_append]
  rfl

/-- A text that is put together from a text for each element of a list. -/
theorem isInline_joined {α : Type} {text : α → String} (joined : List α → String)
    (hnil : joined [] = "") (hcons : ∀ a as, joined (a :: as) = text a ++ joined as)
    {as : List α} (h : ∀ a ∈ as, IsInline (text a)) : IsInline (joined as) := by
  induction as with
  | nil =>
      rw [hnil]
      decide
  | cons a as ih =>
      obtain ⟨ha, hmore⟩ := List.forall_mem_cons.1 h
      rw [hcons, isInline_append]
      exact ⟨ha, ih hmore⟩

theorem isInline_ofList_flatMap {write : Char → List Char} {text : String}
    (h : ∀ c ∈ text.toList, ∀ d ∈ write c, isInline d = true) :
    IsInline (String.ofList (text.toList.flatMap write)) := by
  intro d hd
  rw [String.toList_ofList, List.mem_flatMap] at hd
  obtain ⟨c, hc, hd⟩ := hd
  exact h c hc d hd

/-! ## What the formats write for a text -/

theorem isInline_escape {text : String} (h : IsInline text) : IsInline (escape text) := by
  intro d hd
  rw [toList_escape, List.mem_flatMap] at hd
  obtain ⟨c, hc, hd⟩ := hd
  cases hentity : entity? c with
  | none =>
      rw [escapeChar_of_none hentity, List.mem_singleton] at hd
      rw [hd]
      exact h c hc
  | some entity =>
      rw [escapeChar_of_some hentity] at hd
      have hall : ∀ entry ∈ entities, IsInline entry.2 := by decide +kernel
      exact hall _ (mem_entities_of_entity? hentity) d hd

theorem Pattern.isInline_quote {text : String} (h : IsInline text) :
    IsInline (Pattern.quote text) := by
  refine isInline_ofList_flatMap fun c hc d hd => ?_
  have hmem : d = '\\' ∨ d = c := by
    unfold quoteChar at hd
    split at hd
    · simpa using hd
    · exact Or.inr (List.mem_singleton.1 hd)
  rcases hmem with rfl | rfl
  · decide
  · exact h d hc

namespace Json

/-- A character below U+0020 is always written as an escape. -/
theorem isInline_of_mem_escapeChar (c : Char) : ∀ d ∈ escapeChar c, isInline d = true := by
  have hdigit : ∀ n < 16, isInline (hexDigit n) = true := by decide
  unfold escapeChar
  split_ifs with hquote hslash hb hf hn hr ht hcontrol
  all_goals try exact List.all_eq_true.1 (by decide)
  · have hhigh := hdigit (c.toNat / 16) (by omega)
    have hlow := hdigit (c.toNat % 16) (by omega)
    have hfront : ∀ d ∈ ['\\', 'u', '0', '0'], isInline d = true :=
      List.all_eq_true.1 (by decide)
    exact List.forall_mem_append.2 ⟨hfront, List.forall_mem_cons.2
      ⟨hhigh, List.forall_mem_singleton.2 hlow⟩⟩
  · rw [List.forall_mem_singleton, isInline_iff]
    exact ⟨hn, hr, ht⟩

theorem isInline_quoted (value : String) : IsInline (quoted value) := by
  have hchars : IsInline (String.ofList (value.toList.flatMap escapeChar)) :=
    isInline_ofList_flatMap fun c _ => isInline_of_mem_escapeChar c
  rw [quoted, isInline_append, isInline_append]
  exact ⟨⟨by decide, hchars⟩, by decide⟩

theorem isInline_moreItems_of_forall {items : List Json}
    (ih : ∀ v ∈ items, IsInline v.compact) : IsInline (moreItems items) := by
  have hitem : ∀ v ∈ items, IsInline ("," ++ v.compact) := fun v hv =>
    isInline_append.2 ⟨by decide, ih v hv⟩
  exact isInline_joined moreItems (by rw [moreItems]) (fun _ _ => by rw [moreItems]) hitem

theorem isInline_moreMembers_of_forall {members : List (String × Json)}
    (ih : ∀ member ∈ members, IsInline member.2.compact) : IsInline (moreMembers members) := by
  have hmember : ∀ member ∈ members,
      IsInline ("," ++ quoted member.1 ++ ":" ++ member.2.compact) := by
    intro member hmem
    simp only [isInline_append, isInline_quoted, ih member hmem, and_true]
    decide
  exact isInline_joined moreMembers (by rw [moreMembers]) (fun _ _ => by rw [moreMembers]) hmember

theorem isInline_compact (v : Json) : IsInline v.compact := by
  induction v using Json.induct with
  | null => decide
  | string value => exact isInline_quoted value
  | array items ih =>
      cases items with
      | nil => decide
      | cons v items =>
          obtain ⟨hv, hmore⟩ := List.forall_mem_cons.1 ih
          simp only [compact, isInline_append, hv, isInline_moreItems_of_forall hmore, and_true]
          decide
  | object members ih =>
      cases members with
      | nil => decide
      | cons member members =>
          obtain ⟨hmember, hmore⟩ := List.forall_mem_cons.1 ih
          simp only [compact, isInline_append, isInline_quoted, hmember,
            isInline_moreMembers_of_forall hmore, and_true]
          decide

end Json

/-! ## What the formats write for a tree -/

namespace Node

open Markup (html htmlAll htmlAll_append classAttribute)

/-- The literals, separators and names in a node are on one line, at any depth. -/
inductive HoldsInline : Node → Prop
  | sequence {children : List Node} (h : ∀ n ∈ children, HoldsInline n) :
      HoldsInline (.sequence children)
  | repetition {marker : Marker} {separator : Option String} {body : List Node}
      (hseparator : ∀ text ∈ separator, IsInline text) (h : ∀ n ∈ body, HoldsInline n) :
      HoldsInline (.repetition marker separator body)
  | curlies {body : List Node} (h : ∀ n ∈ body, HoldsInline n) : HoldsInline (.curlies body)
  | alternative {branches : List Node} (h : ∀ n ∈ branches, HoldsInline n) :
      HoldsInline (.alternative branches)
  | atomic {text : String} (h : IsInline text) : HoldsInline (.atomic text)
  | hole {id : String} (h : IsInline id) : HoldsInline (.hole id)
  | whitespace : HoldsInline .whitespace

section
variable {ns : List Node}

/-! ### Placeholder text -/

theorem isInline_placeholderAll_of_forall (ih : ∀ n ∈ ns, IsInline n.placeholder) :
    IsInline (placeholderAll ns) :=
  isInline_joined placeholderAll (by rw [placeholderAll]) (fun _ _ => by rw [placeholderAll]) ih

theorem isInline_placeholderBranches_of_forall (ih : ∀ n ∈ ns, IsInline n.placeholder) :
    IsInline (placeholderBranches ns) := by
  have hbranch : ∀ n ∈ ns, IsInline ("|" ++ n.placeholder) := fun n hn =>
    isInline_append.2 ⟨by decide, ih n hn⟩
  exact isInline_joined placeholderBranches (by rw [placeholderBranches])
    (fun _ _ => by rw [placeholderBranches]) hbranch

theorem isInline_ellipsis {separator : Option String} (h : ∀ text ∈ separator, IsInline text) :
    IsInline (ellipsis separator) := by
  have hspacer : IsInline (spacer separator) := by
    cases separator with
    | none => decide
    | some text =>
        rw [spacer, isInline_append]
        exact ⟨h text rfl, by decide⟩
  rw [ellipsis, isInline_append, isInline_append]
  exact ⟨⟨hspacer, by decide⟩, hspacer⟩

theorem HoldsInline.isInline_placeholder {n : Node} (h : HoldsInline n) :
    IsInline n.placeholder := by
  induction h with
  | sequence _ ih => exact isInline_placeholderAll_of_forall ih
  | @repetition marker separator body hseparator _ ih =>
      have hbody := isInline_placeholderAll_of_forall ih
      cases marker with
      | optional => exact hbody
      | zeroOrMore => exact hbody
      | oneOrMore =>
          rw [placeholder, isInline_append, isInline_append]
          exact ⟨⟨hbody, isInline_ellipsis hseparator⟩, hbody⟩
  | curlies _ ih =>
      rw [placeholder, isInline_append, isInline_append]
      exact ⟨⟨by decide, isInline_placeholderAll_of_forall ih⟩, by decide⟩
  | @alternative branches _ ih =>
      cases branches with
      | nil => decide
      | cons branch branches =>
          obtain ⟨hbranch, hbranches⟩ := List.forall_mem_cons.1 ih
          rw [placeholder, isInline_append]
          exact ⟨hbranch, isInline_placeholderBranches_of_forall hbranches⟩
  | atomic htext => exact htext
  | hole hid =>
      rw [placeholder, isInline_append, isInline_append]
      exact ⟨⟨by decide, hid⟩, by decide⟩
  | whitespace => decide

/-! ### Patterns -/

theorem isInline_patternTextAll_of_forall (ih : ∀ n ∈ ns, IsInline n.patternText) :
    IsInline (patternTextAll ns) :=
  isInline_joined patternTextAll (by rw [patternTextAll]) (fun _ _ => by rw [patternTextAll]) ih

theorem isInline_patternTextBranches_of_forall (ih : ∀ n ∈ ns, IsInline n.patternText) :
    IsInline (patternTextBranches ns) := by
  have hbranch : ∀ n ∈ ns, IsInline ("|" ++ n.patternText) := fun n hn =>
    isInline_append.2 ⟨by decide, ih n hn⟩
  exact isInline_joined patternTextBranches (by rw [patternTextBranches])
    (fun _ _ => by rw [patternTextBranches]) hbranch

theorem isInline_joinPattern {separator : Option String} (h : ∀ text ∈ separator, IsInline text) :
    IsInline (joinPattern separator) := by
  have hseparator : IsInline (separator.getD " ") := by
    cases separator with
    | none => decide
    | some text => exact h text rfl
  rw [joinPattern, isInline_append, isInline_append]
  exact ⟨⟨by decide, Pattern.isInline_quote hseparator⟩, by decide⟩

theorem HoldsInline.isInline_patternText {n : Node} (h : HoldsInline n) :
    IsInline n.patternText := by
  induction h with
  | sequence _ ih => exact isInline_patternTextAll_of_forall ih
  | @repetition marker separator body hseparator _ ih =>
      have hbody := isInline_patternTextAll_of_forall ih
      have hjoin := isInline_joinPattern hseparator
      cases marker <;> simp only [patternText, isInline_append, hbody, hjoin, and_true] <;> decide
  | curlies _ ih =>
      rw [patternText, isInline_append, isInline_append]
      exact ⟨⟨by decide, isInline_patternTextAll_of_forall ih⟩, by decide⟩
  | @alternative branches _ ih =>
      cases branches with
      | nil => decide
      | cons branch branches =>
          obtain ⟨hbranch, hbranches⟩ := List.forall_mem_cons.1 ih
          simp only [patternText, isInline_append, hbranch,
            isInline_patternTextBranches_of_forall hbranches, and_true]
          decide
  | atomic htext => exact Pattern.isInline_quote htext
  | hole _ =>
      rw [patternText]
      decide
  | whitespace => decide

/-! ### HTML -/

theorem isInline_htmlAll_styledAll_of_forall (ih : ∀ n ∈ ns, IsInline (htmlAll n.styled)) :
    IsInline (htmlAll (styledAll ns)) :=
  isInline_joined (fun ns => htmlAll (styledAll ns)) (by rw [styledAll, htmlAll])
    (fun _ _ => by rw [styledAll, htmlAll_append]) ih

theorem isInline_element {classes : List String} {children : List Markup} (tag : Tag)
    (hclasses : IsInline (classAttribute classes)) (hchildren : IsInline (htmlAll children)) :
    IsInline (html (.element tag classes children)) := by
  have hname : IsInline tag.name := by cases tag <;> decide
  simp only [html, isInline_append, hname, hclasses, hchildren, and_true]
  decide

theorem isInline_htmlAll_cons {m : Markup} {ms : List Markup} :
    IsInline (htmlAll (m :: ms)) ↔ IsInline m.html ∧ IsInline (htmlAll ms) := by
  rw [htmlAll, isInline_append]

theorem isInline_htmlAll_nil : IsInline (htmlAll []) := by decide

/-- A text in an element of its own. -/
theorem isInline_textElement {text : String} {classes : List String} (tag : Tag)
    (hclasses : IsInline (classAttribute classes)) (htext : IsInline text) :
    IsInline (html (.element tag classes [.text text])) :=
  isInline_element tag hclasses
    (isInline_htmlAll_cons.2 ⟨isInline_escape htext, isInline_htmlAll_nil⟩)

theorem isInline_htmlAll_styledBranches_of_forall (ih : ∀ n ∈ ns, IsInline (htmlAll n.styled)) :
    IsInline (htmlAll (styledBranches ns)) := by
  have hbar : IsInline branchBar.html :=
    isInline_textElement .span (by decide +kernel) (by decide)
  have hbranch : ∀ n ∈ ns, IsInline (branchBar.html ++ htmlAll n.styled) := fun n hn =>
    isInline_append.2 ⟨hbar, ih n hn⟩
  refine isInline_joined (fun ns => htmlAll (styledBranches ns))
    (by rw [styledBranches, htmlAll]) (fun _ _ => ?_) hbranch
  rw [styledBranches, List.cons_append, htmlAll, htmlAll_append, String.append_assoc]

theorem isInline_htmlAll_loweredSeparator {separator : Option String}
    (h : ∀ text ∈ separator, IsInline text) : IsInline (htmlAll (loweredSeparator separator)) := by
  cases separator with
  | none => decide
  | some text =>
      exact isInline_htmlAll_cons.2
        ⟨isInline_textElement .sub (by decide +kernel) (h text rfl), isInline_htmlAll_nil⟩

theorem HoldsInline.isInline_htmlAll_styled {n : Node} (h : HoldsInline n) :
    IsInline (htmlAll n.styled) := by
  -- A node other than a sequence and a gap is one element.
  have hsingle {m : Markup} (hm : IsInline m.html) : IsInline (htmlAll [m]) :=
    isInline_htmlAll_cons.2 ⟨hm, isInline_htmlAll_nil⟩
  induction h with
  | sequence _ ih => exact isInline_htmlAll_styledAll_of_forall ih
  | @repetition marker separator body hseparator _ ih =>
      have hbody := isInline_htmlAll_styledAll_of_forall ih
      have hmarker : IsInline (String.singleton marker.char) := by cases marker <;> decide
      refine hsingle (isInline_element .span (by decide +kernel) ?_)
      refine isInline_htmlAll_cons.2 ⟨isInline_element .span (by decide +kernel) hbody, ?_⟩
      refine isInline_htmlAll_cons.2 ⟨isInline_textElement .sup (by decide +kernel) hmarker, ?_⟩
      exact isInline_htmlAll_loweredSeparator hseparator
  | curlies _ ih =>
      have hbody := isInline_htmlAll_styledAll_of_forall ih
      refine hsingle (isInline_element .span (by decide +kernel) ?_)
      rw [List.cons_append, isInline_htmlAll_cons, htmlAll_append, isInline_append]
      exact ⟨by decide +kernel, hbody, by decide +kernel⟩
  | @alternative branches _ ih =>
      cases branches with
      | nil => decide +kernel
      | cons branch branches =>
          obtain ⟨hbranch, hbranches⟩ := List.forall_mem_cons.1 ih
          refine hsingle (isInline_element .span (by decide +kernel) ?_)
          rw [htmlAll_append, isInline_append]
          exact ⟨hbranch, isInline_htmlAll_styledBranches_of_forall hbranches⟩
  | atomic htext => exact hsingle (isInline_textElement .span (by decide +kernel) htext)
  | hole hid => exact hsingle (isInline_textElement .span (by decide +kernel) hid)
  | whitespace => decide +kernel

end

/-! ## Trees that are read -/

theorem IsLiteral.toList_ne_nil {text : String} (h : IsLiteral text) : text.toList ≠ [] := by
  rcases h with hpipes | hvalid
  · rintro hnil
    rw [isPipes, hnil] at hpipes
    cases hpipes
  · exact hvalid.1

theorem IsLiteral.isInline {text : String} (h : IsLiteral text) : IsInline text := by
  intro c hc
  rcases h with hpipes | hvalid
  · rw [isPipes, Bool.and_eq_true, List.all_eq_true] at hpipes
    have hpipe : c = '|' := by simpa using hpipes.2 c hc
    rw [hpipe]
    decide
  · exact isInline_of_not_isGap (Token.isAtomChar_iff.1 (hvalid.2 c hc)).2.2.2.2

/-- The blanks that end a line separate the tokens of a notation, so no token holds
one. -/
theorem WellFormed.holdsInline {n : Node} (h : WellFormed n) : HoldsInline n := by
  induction h with
  | atomic hliteral => exact .atomic hliteral.isInline
  | hole hvalid =>
      refine .hole fun c hc => ?_
      exact isInline_of_not_isGap (isGap_of_isNameChar (hvalid.2 c hc))
  | whitespace => exact .whitespace
  | repetition marker hseparator hrow htrimmed hbody ih =>
      exact .repetition (fun text htext => (hseparator text htext).isInline) ih
  | curlies hrow hfilled hbody ih => exact .curlies ih
  | alternative hlength hprimary hbranches ih => exact .alternative ih

theorem placeholderAll_ne_nil {ns : List Node} (hne : ns ≠ [])
    (h : ∀ n ∈ ns, n.placeholder.toList ≠ []) : (placeholderAll ns).toList ≠ [] := by
  cases ns with
  | nil => exact absurd rfl hne
  | cons n ns =>
      rw [placeholderAll, String.toList_append]
      exact List.append_ne_nil_of_left_ne_nil (h n (by simp)) _

theorem WellFormed.placeholder_ne_nil {n : Node} (h : WellFormed n) :
    n.placeholder.toList ≠ [] := by
  induction h with
  | atomic hliteral => exact hliteral.toList_ne_nil
  | hole => simp [placeholder]
  | whitespace => simp [placeholder]
  | repetition marker hseparator hrow htrimmed hbody ih =>
      have hbody := placeholderAll_ne_nil hrow.ne_nil ih
      cases marker with
      | optional => exact hbody
      | zeroOrMore => exact hbody
      | oneOrMore =>
          rw [placeholder, String.append_assoc, String.toList_append]
          exact List.append_ne_nil_of_left_ne_nil hbody _
  | curlies => simp [placeholder]
  | @alternative branches hlength hprimary hbranches ih =>
      cases branches with
      | nil => exact absurd hlength (by decide)
      | cons branch branches =>
          rw [placeholder, String.toList_append]
          exact List.append_ne_nil_of_left_ne_nil (ih branch (by simp)) _

theorem toList_quote_ne_nil {text : String} (h : text.toList ≠ []) :
    (Pattern.quote text).toList ≠ [] := by
  rw [Pattern.quote, String.toList_ofList]
  cases hchars : text.toList with
  | nil => exact absurd hchars h
  | cons c rest =>
      rw [List.flatMap_cons, Pattern.quoteChar]
      split <;> exact List.cons_ne_nil _ _

theorem WellFormed.patternText_ne_nil {n : Node} (h : WellFormed n) :
    n.patternText.toList ≠ [] := by
  cases h with
  | atomic hliteral => exact toList_quote_ne_nil hliteral.toList_ne_nil
  | hole => simp [patternText, holePattern]
  | whitespace => simp [patternText, gapPattern]
  | repetition marker => cases marker <;> simp [patternText]
  | curlies => simp [patternText]
  | @alternative branches => cases branches <;> simp [patternText]

end Node

namespace Notation

section
variable {form : Notation}

theorem html_on_one_line (h : ∀ n ∈ form.root, n.HoldsInline) :
    form.html.toList ≠ [] ∧ IsInline form.html := by
  have hstyled := Node.isInline_htmlAll_styledAll_of_forall fun n hn =>
    (h n hn).isInline_htmlAll_styled
  refine ⟨by simp [html, Node.page, Markup.html], ?_⟩
  exact Node.isInline_element .span (by decide +kernel) hstyled

theorem placeholder_on_one_line (hne : form.root ≠ []) (h : ∀ n ∈ form.root, n.WellFormed) :
    form.placeholder.toList ≠ [] ∧ IsInline form.placeholder := by
  refine ⟨Node.placeholderAll_ne_nil hne fun n hn => (h n hn).placeholder_ne_nil, ?_⟩
  exact Node.isInline_placeholderAll_of_forall fun n hn =>
    (h n hn).holdsInline.isInline_placeholder

theorem patternText_on_one_line (hne : form.root ≠ []) (h : ∀ n ∈ form.root, n.WellFormed)
    (anchored : Bool) :
    (form.patternText anchored).toList ≠ [] ∧ IsInline (form.patternText anchored) := by
  have hpattern : IsInline (Node.patternTextAll form.root) :=
    Node.isInline_patternTextAll_of_forall fun n hn =>
      (h n hn).holdsInline.isInline_patternText
  cases anchored with
  | false =>
      refine ⟨?_, hpattern⟩
      obtain ⟨n, ns, hroot⟩ := List.exists_cons_of_ne_nil hne
      rw [hroot] at h
      show (Node.patternTextAll form.root).toList ≠ []
      rw [hroot, Node.patternTextAll, String.toList_append]
      exact List.append_ne_nil_of_left_ne_nil (h n (by simp)).patternText_ne_nil _
  | true =>
      show (Node.anchored (Node.patternTextAll form.root)).toList ≠ [] ∧
        IsInline (Node.anchored (Node.patternTextAll form.root))
      refine ⟨by simp [Node.anchored], ?_⟩
      rw [Node.anchored, isInline_append, isInline_append]
      exact ⟨⟨by decide, hpattern⟩, by decide⟩

theorem treeJson_on_one_line : form.treeJson.toList ≠ [] ∧ IsInline form.treeJson := by
  refine ⟨?_, Json.isInline_compact _⟩
  simp [treeJson, Node.rootJson, Node.bodyJson, Json.compact]

end

/-- Whatever the source and the expansions of the shorthands hold, what a notation is
rendered as is one line: in every format it has a character, and none of its characters
is a line feed, a carriage return or a tab. -/
theorem render_on_one_line {table : ShorthandTable} {source : String} {form : Notation}
    {format : Format} {anchored : Bool} {output : String}
    (hparse : Notation.parse table source = .ok form)
    (hrender : form.render format anchored = .ok output) :
    output ≠ "" ∧ ∀ c ∈ output.toList, c ≠ '\n' ∧ c ≠ '\r' ∧ c ≠ '\t' := by
  obtain ⟨body, back, hbody, happart⟩ := Grammar.derives_of_parse hparse
  obtain ⟨hrow, -⟩ := hbody.row happart
  have hwellFormed := hbody.wellFormed happart
  have houtput : output.toList ≠ [] ∧ IsInline output := by
    cases format with
    | html =>
        cases hrender
        exact html_on_one_line fun n hn => (hwellFormed n hn).holdsInline
    | text =>
        cases hrender
        exact placeholder_on_one_line hrow.ne_nil hwellFormed
    | regex =>
        obtain ⟨_, -, htext⟩ := Grammar.bind_eq_ok_iff.1 hrender
        cases htext
        exact patternText_on_one_line hrow.ne_nil hwellFormed anchored
    | json =>
        cases hrender
        exact treeJson_on_one_line
  refine ⟨?_, fun c hc => isInline_iff.1 (houtput.2 c hc)⟩
  rintro rfl
  exact houtput.1 rfl

/-- The source and the expansion of its shorthand both hold line feeds and tabs.  All
that is left of them in the pattern is the escape for a blank. -/
theorem render_on_one_line_pattern :
    let form : Notation := ⟨"in\r\n@z", "in\r\n\x7b+\t@x\n\x7d", [.atomic "in", .whitespace,
      .repetition .oneOrMore none [.hole "x"]]⟩
    let output := "^(?:in\\s+(([^();. \\n]+))(\\s* \\s*([^();. \\n]+))*)$"
    Notation.parse [⟨"@z", "\x7b+\t@x\n\x7d"⟩] form.source = .ok form ∧
      form.render .regex true = .ok output ∧
      output ≠ "" ∧ ∀ c ∈ output.toList, c ≠ '\n' ∧ c ≠ '\r' ∧ c ≠ '\t' := by
  intro form output
  have hparse : Notation.parse [⟨"@z", "\x7b+\t@x\n\x7d"⟩] form.source = .ok form := by
    decide +kernel
  have hrender : form.render .regex true = .ok output := by decide +kernel
  exact ⟨hparse, hrender, render_on_one_line hparse hrender⟩

end Notation
end TacticNotation
