import TacticNotation.Markup
import TacticNotation.Proofs.Markup.Entities
import TacticNotation.Text.Replace

/-!
# Reading HTML back

`scan` reads a text as tags and the characters between them and knows nothing of
what the text was written from.  It is strict: it refuses a text in which `<`,
`>` or a quote stands at any other place than those where tags and the value of
a class attribute begin and end.  HTML that was written from styled text is
never refused, and the tags that are read are those of its elements, in order.
So nothing that a text or a class holds can act as markup.
-/

namespace TacticNotation

/-! ## The scan -/

/-- What a reader of HTML meets. -/
inductive Event where
  /-- An opening tag, with the decoded value of its class attribute if it has
  one. -/
  | opening (tag : Tag) (classes : Option (List Char))
  | closing (tag : Tag)
  /-- A character between tags; it may be part of an entity. -/
  | char (c : Char)
  deriving DecidableEq, Repr

/-- The value of the class attribute that is all there is after the name of an
opening tag, or that there is none. -/
def readClasses? (rest : List Char) : Option (Option (List Char)) :=
  if rest = [] then some none
  else
    match dropFront? " class=\"".toList rest with
    | none => none
    | some value =>
        -- The first quote in the value ends it, and the tag with it.
        if value.dropWhile (· ≠ '"') = ['"'] then
          some (some (decodeEntities (value.takeWhile (· ≠ '"'))))
        else none

/-- The event that the inside of a tag stands for. -/
def readTag? (inside : List Char) : Option Event :=
  match dropFront? ['/'] inside with
  | some name => (Tag.ofName? (String.ofList name)).map .closing
  | none =>
      match Tag.ofName? (String.ofList (inside.takeWhile (· ≠ ' '))),
          readClasses? (inside.dropWhile (· ≠ ' ')) with
      | some tag, some classes => some (.opening tag classes)
      | _, _ => none

/-- The events of a text.  `inside` holds the characters of the tag that is being
read, if one is. -/
def scan : (inside : Option (List Char)) → List Char → Option (List Event)
  | none, [] => some []
  | some _, [] => none
  | none, c :: rest =>
      if c = '<' then scan (some []) rest
      else if isDelimiter c then none
      else (scan none rest).map (.char c :: ·)
  | some inside, c :: rest =>
      if c = '>' then
        match readTag? inside with
        | some event => (scan none rest).map (event :: ·)
        | none => none
      else if c = '<' then none
      else scan (some (inside ++ [c])) rest

/-- Whether tags are closed in the order in which they are open, the innermost
first, and all of them are. -/
def matched : (levels : List Tag) → List Event → Bool
  | [], [] => true
  | _ :: _, [] => false
  | levels, .opening tag _ :: rest => matched (tag :: levels) rest
  | [], .closing _ :: _ => false
  | level :: levels, .closing tag :: rest => level == tag && matched levels rest
  | levels, .char _ :: rest => matched levels rest

/-- The text without everything from each `<` through the next `>`. -/
def stripTags : (inside : Bool) → List Char → List Char
  | _, [] => []
  | true, c :: rest => stripTags (c ≠ '>') rest
  | false, c :: rest => if c = '<' then stripTags true rest else c :: stripTags false rest

/-! ## The events of styled text -/

/-- The non-empty classes, joined by spaces, if there are any. -/
def joinedClasses (classes : List String) : Option (List Char) :=
  match classes.filter (· ≠ "") with
  | [] => none
  | names => some (" ".intercalate names).toList

namespace Markup

mutual
/-- The events of a piece of styled text. -/
def events : Markup → List Event
  | .element tag classes children =>
      .opening tag (joinedClasses classes) :: (eventsAll children ++ [.closing tag])
  | .text value => (escape value).toList.map .char
/-- The events of some pieces of styled text, one after the other. -/
def eventsAll : List Markup → List Event
  | [] => []
  | m :: ms => events m ++ eventsAll ms
end

/-- To show something of every piece of styled text, show it of texts, and of
elements under the assumption that it holds of their children. -/
theorem induct {motive : Markup → Prop}
    (element : ∀ tag classes children, (∀ m ∈ children, motive m) →
      motive (.element tag classes children))
    (text : ∀ value, motive (.text value)) (m : Markup) : motive m :=
  Markup.rec (motive_1 := motive) (motive_2 := fun ms => ∀ m ∈ ms, motive m)
    element text (by simp) (by intro m ms hm hms n hn; cases hn with
      | head => exact hm
      | tail _ hn => exact hms n hn) m

end Markup

/-! ## Tags -/

/-- The value of a class attribute is empty only if there is no class. -/
theorem intercalate_ne_empty {name : String} (h : name ≠ "") (names : List String) :
    " ".intercalate (name :: names) ≠ "" := by
  intro hempty
  have hlist := congrArg String.toList hempty
  have hname : name.toList ≠ [] := by simpa using h
  cases names with
  | nil => simp [hname] at hlist
  | cons other names => simp [List.intercalate, hname] at hlist

/-- The class attribute is there precisely if there is a class, and then it holds
the escaped classes in quotes. -/
theorem classAttribute_eq (classes : List String) :
    (joinedClasses classes = none ∧ Markup.classAttribute classes = "") ∨
      ∃ value, joinedClasses classes = some value.toList ∧
        Markup.classAttribute classes = " class=\"" ++ escape value ++ "\"" := by
  unfold joinedClasses Markup.classAttribute Markup.classValue
  cases hnames : classes.filter (· ≠ "") with
  | nil => exact Or.inl ⟨rfl, by simp⟩
  | cons name names =>
      have hmem : name ∈ classes.filter (· ≠ "") := by
        rw [hnames]
        exact List.mem_cons_self
      have hname : name ≠ "" := by simpa using (List.mem_filter.1 hmem).2
      refine Or.inr ⟨_, rfl, ?_⟩
      simp only [if_neg (intercalate_ne_empty hname names)]

theorem readClasses?_classAttribute (classes : List String) :
    readClasses? (Markup.classAttribute classes).toList = some (joinedClasses classes) := by
  rcases classAttribute_eq classes with ⟨hjoined, hattribute⟩ | ⟨value, hjoined, hattribute⟩
  · rw [hjoined, hattribute]
    rfl
  · have hquote : ∀ c ∈ (escape value).toList, decide (c ≠ '"') = true :=
      fun c hc => decide_eq_true (ne_of_mem_escape hc).2.2
    have hdrop : dropFront? " class=\"".toList (Markup.classAttribute classes).toList =
        some ((escape value).toList ++ ['"']) := by
      rw [dropFront?_eq_some_iff, hattribute]
      simp
    have hne : (Markup.classAttribute classes).toList ≠ [] := by
      rw [hattribute]
      simp
    rw [readClasses?, if_neg hne, hdrop, hjoined]
    simp only [List.dropWhile_append_of_pos hquote, List.takeWhile_append_of_pos hquote]
    simp [decodeEntities_escape]

/-- The names of tags are made of letters. -/
theorem ne_of_mem_name {tag : Tag} {c : Char} (h : c ∈ tag.name.toList) :
    c ≠ ' ' ∧ c ≠ '<' ∧ c ≠ '>' := by
  have hall : tag.name.toList.all Char.isAlpha = true := by cases tag <;> decide +kernel
  have hc := List.all_eq_true.1 hall c h
  refine ⟨?_, ?_, ?_⟩ <;> rintro rfl <;> cases hc

theorem readTag?_opening (tag : Tag) (classes : List String) :
    readTag? (tag.name ++ Markup.classAttribute classes).toList =
      some (.opening tag (joinedClasses classes)) := by
  have hname : ∀ c ∈ tag.name.toList, decide (c ≠ ' ') = true :=
    fun c hc => decide_eq_true (ne_of_mem_name hc).1
  -- An attribute begins with a space, so the name of the tag ends there.
  have hspace : (Markup.classAttribute classes).toList.head?.all (· = ' ') = true := by
    rcases classAttribute_eq classes with ⟨-, hattribute⟩ | ⟨value, -, hattribute⟩
    · simp [hattribute]
    · simp [hattribute]
  have hsplit : (Markup.classAttribute classes).toList.takeWhile (· ≠ ' ') = [] ∧
      (Markup.classAttribute classes).toList.dropWhile (· ≠ ' ') =
        (Markup.classAttribute classes).toList := by
    cases hchars : (Markup.classAttribute classes).toList with
    | nil => exact ⟨rfl, rfl⟩
    | cons c more =>
        rw [hchars] at hspace
        have hc : c = ' ' := by simpa using hspace
        subst hc
        exact ⟨rfl, rfl⟩
  have hslash : dropFront? ['/'] (tag.name ++ Markup.classAttribute classes).toList = none := by
    rw [String.toList_append]
    cases tag <;> simp [Tag.name, dropFront?]
  rw [readTag?, hslash, String.toList_append]
  simp only [List.takeWhile_append_of_pos hname, List.dropWhile_append_of_pos hname, hsplit,
    List.append_nil, String.ofList_toList, Tag.ofName?_name, readClasses?_classAttribute]

theorem readTag?_closing (tag : Tag) :
    readTag? ('/' :: tag.name.toList) = some (.closing tag) := by
  cases tag <;> rfl

/-- The inside of an opening tag holds no angle bracket. -/
theorem angle_not_mem_opening (tag : Tag) (classes : List String) :
    ∀ c ∈ (tag.name ++ Markup.classAttribute classes).toList, c ≠ '<' ∧ c ≠ '>' := by
  have hname : ∀ c ∈ tag.name.toList, c ≠ '<' ∧ c ≠ '>' := fun c hc => (ne_of_mem_name hc).2
  have hattribute : ∀ c ∈ (Markup.classAttribute classes).toList, c ≠ '<' ∧ c ≠ '>' := by
    rcases classAttribute_eq classes with ⟨-, heq⟩ | ⟨value, -, heq⟩
    · simp [heq]
    · have hfront : ∀ c ∈ " class=\"".toList, c ≠ '<' ∧ c ≠ '>' := by simp
      have hback : ∀ c ∈ "\"".toList, c ≠ '<' ∧ c ≠ '>' := by simp
      have hvalue : ∀ c ∈ (escape value).toList, c ≠ '<' ∧ c ≠ '>' :=
        fun c hc => ⟨(ne_of_mem_escape hc).1, (ne_of_mem_escape hc).2.1⟩
      rw [heq, String.toList_append, String.toList_append]
      exact List.forall_mem_append.2 ⟨List.forall_mem_append.2 ⟨hfront, hvalue⟩, hback⟩
  rw [String.toList_append]
  exact List.forall_mem_append.2 ⟨hname, hattribute⟩

theorem angle_not_mem_closing (tag : Tag) :
    ∀ c ∈ '/' :: tag.name.toList, c ≠ '<' ∧ c ≠ '>' :=
  List.forall_mem_cons.2 ⟨by decide, fun _ hc => (ne_of_mem_name hc).2⟩

/-! ## Scanning what was written -/

theorem scan_text {run : List Char} (h : ∀ c ∈ run, isDelimiter c = false) (rest : List Char) :
    scan none (run ++ rest) = (scan none rest).map (run.map .char ++ ·) := by
  induction run with
  | nil => simp
  | cons c run ih =>
      obtain ⟨hc, hrun⟩ := List.forall_mem_cons.1 h
      have hless : c ≠ '<' := by
        rintro rfl
        cases hc
      rw [List.cons_append, scan, if_neg hless, hc, ih hrun]
      simp [Function.comp_def]

theorem scan_inside {more : List Char} (h : ∀ c ∈ more, c ≠ '<' ∧ c ≠ '>')
    (inside rest : List Char) :
    scan (some inside) (more ++ rest) = scan (some (inside ++ more)) rest := by
  induction more generalizing inside with
  | nil => simp
  | cons c more ih =>
      obtain ⟨hc, hmore⟩ := List.forall_mem_cons.1 h
      rw [List.cons_append, scan, if_neg hc.2, if_neg hc.1, ih hmore]
      simp

theorem scan_tag {inside : List Char} {event : Event} (h : ∀ c ∈ inside, c ≠ '<' ∧ c ≠ '>')
    (hevent : readTag? inside = some event) (rest : List Char) :
    scan none ('<' :: (inside ++ '>' :: rest)) = (scan none rest).map (event :: ·) := by
  rw [scan, if_pos rfl, scan_inside h, List.nil_append, scan, if_pos rfl, hevent]

namespace Markup

/-- The HTML of an element, cut where its tags begin and end. -/
theorem toList_html_element (tag : Tag) (classes : List String) (children : List Markup)
    (rest : List Char) :
    (html (.element tag classes children)).toList ++ rest =
      '<' :: ((tag.name ++ classAttribute classes).toList ++
        '>' :: ((htmlAll children).toList ++ '<' :: ('/' :: tag.name.toList ++ '>' :: rest))) := by
  simp [html]

theorem scan_htmlAll_of_forall {ms : List Markup}
    (ih : ∀ m ∈ ms, ∀ rest,
      scan none (m.html.toList ++ rest) = (scan none rest).map (m.events ++ ·))
    (rest : List Char) :
    scan none ((htmlAll ms).toList ++ rest) = (scan none rest).map (eventsAll ms ++ ·) := by
  induction ms with
  | nil => simp [htmlAll, eventsAll]
  | cons m ms hms =>
      rw [htmlAll, String.toList_append, List.append_assoc, ih m (by simp),
        hms fun n hn => ih n (List.mem_cons_of_mem m hn)]
      simp [eventsAll, Function.comp_def]

/-- The scan of HTML gives the events of what the HTML was written from. -/
theorem scan_html (m : Markup) (rest : List Char) :
    scan none (m.html.toList ++ rest) = (scan none rest).map (m.events ++ ·) := by
  induction m using Markup.induct generalizing rest with
  | element tag classes children ih =>
      rw [toList_html_element,
        scan_tag (angle_not_mem_opening tag classes) (readTag?_opening tag classes),
        scan_htmlAll_of_forall ih, scan_tag (angle_not_mem_closing tag) (readTag?_closing tag)]
      simp [events, Function.comp_def]
  | text value => exact scan_text (fun c hc => isDelimiter_of_mem_escape hc) rest

theorem scan_htmlAll (ms : List Markup) :
    scan none (htmlAll ms).toList = some (eventsAll ms) := by
  have hscan := scan_htmlAll_of_forall (fun m (_ : m ∈ ms) => scan_html m) []
  simpa [scan] using hscan

/-! ## Nesting -/

theorem matched_chars (levels : List Tag) (run : List Char) (rest : List Event) :
    matched levels (run.map .char ++ rest) = matched levels rest := by
  induction run with
  | nil => rfl
  | cons c run ih =>
      rw [List.map_cons, List.cons_append, ← ih]
      cases levels <;> rfl

theorem matched_eventsAll_of_forall {ms : List Markup}
    (ih : ∀ m ∈ ms, ∀ levels rest, matched levels (m.events ++ rest) = matched levels rest)
    (levels : List Tag) (rest : List Event) :
    matched levels (eventsAll ms ++ rest) = matched levels rest := by
  induction ms with
  | nil => rfl
  | cons m ms hms =>
      rw [eventsAll, List.append_assoc, ih m (by simp),
        hms fun n hn => ih n (List.mem_cons_of_mem m hn)]

/-- A piece of styled text closes every tag that it opens and no other. -/
theorem matched_events (m : Markup) (levels : List Tag) (rest : List Event) :
    matched levels (m.events ++ rest) = matched levels rest := by
  induction m using Markup.induct generalizing levels rest with
  | element tag classes children ih =>
      rw [events, List.cons_append, List.append_assoc]
      have hchildren := matched_eventsAll_of_forall ih (tag :: levels) (.closing tag :: rest)
      have hopening : matched levels (.opening tag (joinedClasses classes) ::
          (eventsAll children ++ .closing tag :: rest)) =
            matched (tag :: levels) (eventsAll children ++ .closing tag :: rest) := by
        cases levels <;> rfl
      rw [List.singleton_append, hopening, hchildren, matched, beq_self_eq_true, Bool.true_and]
  | text value => exact matched_chars levels _ rest

/-! ## Content -/

theorem stripTags_text {run : List Char} (h : ∀ c ∈ run, c ≠ '<') (rest : List Char) :
    stripTags false (run ++ rest) = run ++ stripTags false rest := by
  induction run with
  | nil => rfl
  | cons c run ih =>
      obtain ⟨hc, hrun⟩ := List.forall_mem_cons.1 h
      rw [List.cons_append, stripTags, if_neg hc, ih hrun, List.cons_append]

theorem stripTags_tag {inside : List Char} (h : ∀ c ∈ inside, c ≠ '>') (rest : List Char) :
    stripTags true (inside ++ '>' :: rest) = stripTags false rest := by
  induction inside with
  | nil => rfl
  | cons c inside ih =>
      obtain ⟨hc, hinside⟩ := List.forall_mem_cons.1 h
      rw [List.cons_append, stripTags, decide_eq_true hc, ih hinside]

theorem stripTags_htmlAll_of_forall {ms : List Markup}
    (ih : ∀ m ∈ ms, ∀ rest, stripTags false (m.html.toList ++ rest) =
      (escape m.content).toList ++ stripTags false rest)
    (rest : List Char) :
    stripTags false ((htmlAll ms).toList ++ rest) =
      (escape (contentAll ms)).toList ++ stripTags false rest := by
  induction ms with
  | nil => simp [htmlAll, contentAll, toList_escape]
  | cons m ms hms =>
      rw [htmlAll, String.toList_append, List.append_assoc, ih m (by simp),
        hms fun n hn => ih n (List.mem_cons_of_mem m hn), contentAll, escape_append,
        String.toList_append, List.append_assoc]

/-- What is left of HTML without its tags is the escaped content. -/
theorem stripTags_html (m : Markup) (rest : List Char) :
    stripTags false (m.html.toList ++ rest) =
      (escape m.content).toList ++ stripTags false rest := by
  induction m using Markup.induct generalizing rest with
  | element tag classes children ih =>
      have hopening : ∀ c ∈ (tag.name ++ classAttribute classes).toList, c ≠ '>' :=
        fun c hc => (angle_not_mem_opening tag classes c hc).2
      have hclosing : ∀ c ∈ '/' :: tag.name.toList, c ≠ '>' :=
        fun c hc => (angle_not_mem_closing tag c hc).2
      rw [toList_html_element, stripTags, if_pos rfl, stripTags_tag hopening,
        stripTags_htmlAll_of_forall ih, stripTags, if_pos rfl, stripTags_tag hclosing, content]
  | text value =>
      refine stripTags_text ?_ rest
      rintro c hc rfl
      cases isDelimiter_of_mem_escape hc

/-! ## Content never becomes markup -/

/-- The HTML of any styled text, whatever characters its texts and classes hold,
is read as the tags of its elements, each with its own classes, and as escaped
text between them.  The tags are matched, and what is left without them is
decoded to the content. -/
theorem htmlAll_reads_back (ms : List Markup) :
    scan none (htmlAll ms).toList = some (eventsAll ms) ∧
      matched [] (eventsAll ms) = true ∧
      decodeEntities (stripTags false (htmlAll ms).toList) = (contentAll ms).toList := by
  have hmatched := matched_eventsAll_of_forall (fun m (_ : m ∈ ms) => matched_events m) [] []
  have hstrip := stripTags_htmlAll_of_forall (fun m (_ : m ∈ ms) => stripTags_html m) []
  refine ⟨scan_htmlAll ms, ?_, ?_⟩
  · rwa [List.append_nil] at hmatched
  · rw [List.append_nil] at hstrip
    rw [hstrip, stripTags, List.append_nil, decodeEntities_escape]

/-- A class cannot end its attribute, nor a text open an element. -/
example : scan none
      (htmlAll [.element .sub ["\"><b", "", "&lt;"] [.text "</sub>"]]).toList =
    some (.opening .sub (some "\"><b &lt;".toList) ::
      ("&lt;/sub&gt;".toList.map .char ++ [.closing .sub])) := by
  decide +kernel

end Markup
end TacticNotation
