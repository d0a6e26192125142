import TacticNotation.Proofs.Markup.Scanning
import TacticNotation.Proofs.Tree.Shape
import TacticNotation.Tree.Styled

/-!
# The tree behind its HTML

Two trees without sequences that are written as the same HTML are the same tree,
whatever characters their texts hold.  The scan takes the HTML back to the events
of the styled text, and as events the nodes are a prefix code: a list of events
that begins with those of a node determines the node and the events after it
(`events_styled_cancel`).

A sequence is no such code word: it has no events of its own.
-/

namespace TacticNotation

theorem Marker.char_injective {marker other : Marker} (h : marker.char = other.char) :
    marker = other := by
  have hmarker := Marker.ofChar?_char marker
  rw [h, Marker.ofChar?_char] at hmarker
  exact (Option.some.inj hmarker).symm

namespace Markup

theorem eventsAll_append (front back : List Markup) :
    eventsAll (front ++ back) = eventsAll front ++ eventsAll back := by
  induction front with
  | nil => rfl
  | cons m front ih => rw [List.cons_append, eventsAll, eventsAll, ih, List.append_assoc]

/-- HTML has only one list of events. -/
theorem eventsAll_eq_of_htmlAll_eq {ms other : List Markup} (h : htmlAll ms = htmlAll other) :
    eventsAll ms = eventsAll other := by
  have hscan := scan_htmlAll ms
  rw [h, scan_htmlAll other] at hscan
  exact (Option.some.inj hscan).symm

/-- A text that a tag closes can be told from what follows. -/
theorem chars_cancel {run other : List Char} {tag tag' : Tag} {rest rest' : List Event}
    (h : run.map .char ++ .closing tag :: rest = other.map .char ++ .closing tag' :: rest') :
    run = other ∧ rest = rest' := by
  induction run generalizing other with
  | nil =>
      cases other with
      | nil =>
          simp only [List.map_nil, List.nil_append, List.cons.injEq] at h
          exact ⟨rfl, h.2⟩
      | cons d other => simp at h
  | cons c run ih =>
      cases other with
      | nil => simp at h
      | cons d other =>
          simp only [List.map_cons, List.cons_append, List.cons.injEq, Event.char.injEq] at h
          obtain ⟨rfl, h⟩ := h
          obtain ⟨rfl, hrest⟩ := ih h
          exact ⟨rfl, hrest⟩

end Markup

namespace Node

open Markup (events eventsAll eventsAll_append chars_cancel)

/-! ## The events of each kind of node -/

/-- The events of a text in an element of its own. -/
def textEvents (tag : Tag) (classes : Option (List Char)) (text : String) : List Event :=
  .opening tag classes :: ((escape text).toList.map .char ++ [.closing tag])

theorem textEvents_cancel {tag : Tag} {classes : Option (List Char)} {text other : String}
    {rest rest' : List Event}
    (h : textEvents tag classes text ++ rest = textEvents tag classes other ++ rest') :
    text = other ∧ rest = rest' := by
  simp only [textEvents, List.cons_append, List.append_assoc, List.nil_append,
    List.cons.injEq, true_and] at h
  obtain ⟨htext, hrest⟩ := chars_cancel h
  exact ⟨escape_injective (String.toList_inj.1 htext), hrest⟩

/-- The events of the separator of a repetition, if it has one. -/
def separatorEvents : Option String → List Event
  | none => []
  | some text => textEvents .sub none text

theorem escape_space : (escape " ").toList = [' '] := by decide +kernel
theorem escape_opening : (escape "\x7b").toList = ['\x7b'] := by decide +kernel
theorem escape_closing : (escape "\x7d").toList = ['\x7d'] := by decide +kernel
theorem escape_bar : (escape "|").toList = ['|'] := by decide +kernel
theorem escape_marker (marker : Marker) :
    (escape (String.singleton marker.char)).toList = [marker.char] := by
  cases marker <;> decide +kernel

theorem events_whitespace : eventsAll (styled .whitespace) = [.char ' '] := by
  simp [styled, eventsAll, events, escape_space]

theorem events_atomic (text : String) :
    eventsAll (styled (.atomic text)) = textEvents .span none text := by
  simp [styled, eventsAll, events, joinedClasses, textEvents]

theorem events_hole (id : String) :
    eventsAll (styled (.hole id)) = textEvents .span (some "hole".toList) id := by
  simp [styled, eventsAll, events, joinedClasses, textEvents]

theorem events_curlies (body : List Node) :
    eventsAll (styled (.curlies body)) =
      .opening .span (some "curlies".toList) :: .char '\x7b' ::
        (eventsAll (styledAll body) ++ [.char '\x7d', .closing .span]) := by
  simp [styled, eventsAll, events, joinedClasses, eventsAll_append, escape_opening,
    escape_closing]

theorem events_repetition (marker : Marker) (separator : Option String) (body : List Node) :
    eventsAll (styled (.repetition marker separator body)) =
      .opening .span (some "repeat-wrapper".toList) :: .opening .span (some "repeat".toList) ::
        (eventsAll (styledAll body) ++ .closing .span :: .opening .sup none ::
          .char marker.char :: .closing .sup ::
            (separatorEvents separator ++ [.closing .span])) := by
  cases separator <;> simp [styled, eventsAll, events, joinedClasses, loweredSeparator,
    escape_marker, separatorEvents, textEvents]

theorem events_alternative_nil :
    eventsAll (styled (.alternative [])) =
      [.opening .span (some "alternative".toList), .closing .span] := by
  simp [styled, eventsAll, events, joinedClasses]

theorem events_alternative_cons (branch : Node) (branches : List Node) :
    eventsAll (styled (.alternative (branch :: branches))) =
      .opening .span (some "alternative".toList) ::
        (eventsAll (styled branch) ++ (eventsAll (styledBranches branches) ++
          [.closing .span])) := by
  simp [styled, eventsAll, events, joinedClasses, eventsAll_append]

theorem events_branches_cons (n : Node) (ns : List Node) :
    eventsAll (styledBranches (n :: ns)) =
      .opening .span (some "alternative-separator".toList) :: .char '|' :: .closing .span ::
        (eventsAll (styled n) ++ eventsAll (styledBranches ns)) := by
  simp [styledBranches, branchBar, eventsAll, events, joinedClasses, eventsAll_append,
    escape_bar]

theorem events_all_cons (n : Node) (ns : List Node) :
    eventsAll (styledAll (n :: ns)) = eventsAll (styled n) ++ eventsAll (styledAll ns) := by
  rw [styledAll, eventsAll_append]

/-! ## Nodes are a prefix code -/

/-- The event that a node begins with; a sequence has none of its own. -/
def firstEvent : Node → Option Event
  | .sequence _ => none
  | .repetition .. => some (.opening .span (some "repeat-wrapper".toList))
  | .curlies _ => some (.opening .span (some "curlies".toList))
  | .alternative _ => some (.opening .span (some "alternative".toList))
  | .atomic _ => some (.opening .span none)
  | .hole _ => some (.opening .span (some "hole".toList))
  | .whitespace => some (.char ' ')

theorem head?_events_styled {n : Node} (h : n.isSequenceFree = true) (rest : List Event) :
    (eventsAll (styled n) ++ rest).head? = firstEvent n := by
  cases n with
  | sequence children => cases h
  | repetition marker separator body => rw [events_repetition]; rfl
  | curlies body => rw [events_curlies]; rfl
  | alternative branches =>
      cases branches with
      | nil => rw [events_alternative_nil]; rfl
      | cons branch branches => rw [events_alternative_cons]; rfl
  | atomic text => rw [events_atomic]; rfl
  | hole id => rw [events_hole]; rfl
  | whitespace => rw [events_whitespace]; rfl

/-- Events that no node begins with: the end, a closing tag or a closing brace. -/
def atEnd : List Event → Bool
  | [] | .closing _ :: _ => true
  | .char c :: _ => c == '\x7d'
  | .opening _ _ :: _ => false

theorem styled_ne_of_atEnd {n : Node} (h : n.isSequenceFree = true) {last rest : List Event}
    (hend : atEnd last = true) : last ≠ eventsAll (styled n) ++ rest := by
  rintro rfl
  have hhead := head?_events_styled h rest
  generalize eventsAll (styled n) ++ rest = following at hend hhead
  cases n with
  | sequence children => cases h
  | _ =>
      obtain ⟨more, rfl⟩ := List.head?_eq_some_iff.1 hhead
      cases hend

/-- Events that begin with those of the node begin with those of no other. -/
def Determined (n : Node) : Prop :=
  ∀ (other : Node) (rest rest' : List Event), other.isSequenceFree = true →
    eventsAll (styled n) ++ rest = eventsAll (styled other) ++ rest' → n = other ∧ rest = rest'

theorem styledAll_cancel {ns other : List Node} (ih : ∀ n ∈ ns, Determined n)
    (hns : ∀ n ∈ ns, n.isSequenceFree = true) (hother : ∀ n ∈ other, n.isSequenceFree = true)
    {rest rest' : List Event} (hrest : atEnd rest = true) (hrest' : atEnd rest' = true)
    (h : eventsAll (styledAll ns) ++ rest = eventsAll (styledAll other) ++ rest') :
    ns = other ∧ rest = rest' := by
  induction ns generalizing other with
  | nil =>
      cases other with
      | nil => exact ⟨rfl, h⟩
      | cons m other =>
          rw [events_all_cons, List.append_assoc] at h
          exact absurd h (styled_ne_of_atEnd (hother m (by simp)) hrest)
  | cons n ns hind =>
      obtain ⟨hn, hnsMore⟩ := List.forall_mem_cons.1 hns
      obtain ⟨ihn, ihMore⟩ := List.forall_mem_cons.1 ih
      cases other with
      | nil =>
          rw [events_all_cons, List.append_assoc] at h
          exact absurd h.symm (styled_ne_of_atEnd hn hrest')
      | cons m other =>
          obtain ⟨hm, hotherMore⟩ := List.forall_mem_cons.1 hother
          rw [events_all_cons, events_all_cons, List.append_assoc, List.append_assoc] at h
          obtain ⟨hnode, hmore⟩ := ihn m _ _ hm h
          obtain ⟨hnodes, hfollowing⟩ := hind ihMore hnsMore hotherMore hmore
          exact ⟨by rw [hnode, hnodes], hfollowing⟩

theorem styledBranches_cancel {ns other : List Node} (ih : ∀ n ∈ ns, Determined n)
    (hother : ∀ n ∈ other, n.isSequenceFree = true) {tag tag' : Tag} {rest rest' : List Event}
    (h : eventsAll (styledBranches ns) ++ .closing tag :: rest =
      eventsAll (styledBranches other) ++ .closing tag' :: rest') :
    ns = other ∧ rest = rest' := by
  have hnil : eventsAll (styledBranches []) = [] := rfl
  induction ns generalizing other with
  | nil =>
      cases other with
      | nil =>
          rw [hnil, List.nil_append, List.nil_append, List.cons.injEq] at h
          exact ⟨rfl, h.2⟩
      | cons m other =>
          rw [hnil, events_branches_cons] at h
          simp at h
  | cons n ns hind =>
      obtain ⟨ihn, ihMore⟩ := List.forall_mem_cons.1 ih
      cases other with
      | nil =>
          rw [hnil, events_branches_cons] at h
          simp at h
      | cons m other =>
          obtain ⟨hm, hotherMore⟩ := List.forall_mem_cons.1 hother
          simp only [events_branches_cons, List.cons_append, List.append_assoc, List.cons.injEq,
            true_and] at h
          obtain ⟨hnode, hmore⟩ := ihn m _ _ hm h
          obtain ⟨hnodes, hfollowing⟩ := hind ihMore hotherMore hmore
          exact ⟨by rw [hnode, hnodes], hfollowing⟩

theorem alternative_cancel {branches other : List Node} (ih : ∀ n ∈ branches, Determined n)
    (hbranches : ∀ n ∈ branches, n.isSequenceFree = true)
    (hother : ∀ n ∈ other, n.isSequenceFree = true) {rest rest' : List Event}
    (h : eventsAll (styled (.alternative branches)) ++ rest =
      eventsAll (styled (.alternative other)) ++ rest') : branches = other ∧ rest = rest' := by
  cases branches with
  | nil =>
      cases other with
      | nil => exact ⟨rfl, List.append_cancel_left h⟩
      | cons m other =>
          simp only [events_alternative_nil, events_alternative_cons, List.cons_append,
            List.append_assoc, List.cons.injEq, true_and] at h
          exact absurd h (styled_ne_of_atEnd (hother m (by simp)) rfl)
  | cons n ns =>
      obtain ⟨ihn, ihMore⟩ := List.forall_mem_cons.1 ih
      cases other with
      | nil =>
          simp only [events_alternative_nil, events_alternative_cons, List.cons_append,
            List.append_assoc, List.cons.injEq, true_and] at h
          exact absurd h.symm (styled_ne_of_atEnd (hbranches n (by simp)) rfl)
      | cons m other =>
          obtain ⟨hm, hotherMore⟩ := List.forall_mem_cons.1 hother
          simp only [events_alternative_cons, List.cons_append, List.append_assoc,
            List.nil_append, List.cons.injEq, true_and] at h
          obtain ⟨hnode, hmore⟩ := ihn m _ _ hm h
          obtain ⟨hnodes, hfollowing⟩ := styledBranches_cancel ihMore hotherMore hmore
          exact ⟨by rw [hnode, hnodes], hfollowing⟩

theorem separatorEvents_cancel {separator other : Option String} {tag tag' : Tag}
    {rest rest' : List Event}
    (h : separatorEvents separator ++ .closing tag :: rest =
      separatorEvents other ++ .closing tag' :: rest') : separator = other ∧ rest = rest' := by
  cases separator with
  | none =>
      cases other with
      | none =>
          simp only [separatorEvents, List.nil_append, List.cons.injEq] at h
          exact ⟨rfl, h.2⟩
      | some text => simp [separatorEvents, textEvents] at h
  | some text =>
      cases other with
      | none => simp [separatorEvents, textEvents] at h
      | some text' =>
          obtain ⟨htext, hfollowing⟩ := textEvents_cancel h
          rw [List.cons.injEq] at hfollowing
          exact ⟨by rw [htext], hfollowing.2⟩

theorem repetition_cancel {marker marker' : Marker} {separator separator' : Option String}
    {body other : List Node} (ih : ∀ n ∈ body, Determined n)
    (hbody : ∀ n ∈ body, n.isSequenceFree = true) (hother : ∀ n ∈ other, n.isSequenceFree = true)
    {rest rest' : List Event}
    (h : eventsAll (styled (.repetition marker separator body)) ++ rest =
      eventsAll (styled (.repetition marker' separator' other)) ++ rest') :
    Node.repetition marker separator body = .repetition marker' separator' other ∧
      rest = rest' := by
  simp only [events_repetition, List.cons_append, List.append_assoc, List.nil_append,
    List.cons.injEq, true_and] at h
  obtain ⟨hnodes, h⟩ := styledAll_cancel ih hbody hother rfl rfl h
  simp only [List.cons.injEq, Event.char.injEq, true_and] at h
  obtain ⟨hmarker, h⟩ := h
  obtain ⟨hseparator, hfollowing⟩ := separatorEvents_cancel h
  exact ⟨by rw [Marker.char_injective hmarker, hseparator, hnodes], hfollowing⟩

theorem curlies_cancel {body other : List Node} (ih : ∀ n ∈ body, Determined n)
    (hbody : ∀ n ∈ body, n.isSequenceFree = true) (hother : ∀ n ∈ other, n.isSequenceFree = true)
    {rest rest' : List Event}
    (h : eventsAll (styled (.curlies body)) ++ rest =
      eventsAll (styled (.curlies other)) ++ rest') : body = other ∧ rest = rest' := by
  simp only [events_curlies, List.cons_append, List.append_assoc, List.nil_append,
    List.cons.injEq, true_and] at h
  obtain ⟨hnodes, h⟩ := styledAll_cancel ih hbody hother rfl rfl h
  simp only [List.cons.injEq, true_and] at h
  exact ⟨hnodes, h⟩

/-- The events of a node determine the node and the events after it. -/
theorem events_styled_cancel (n : Node) (hn : n.isSequenceFree = true) : Determined n := by
  induction n using Node.induct with
  | sequence children ih => cases hn
  | repetition marker separator body ih =>
      intro other rest rest' hother h
      have hbody := isSequenceFreeAll_iff.1 hn
      have hfirst := head?_events_styled hn rest
      rw [h, head?_events_styled hother] at hfirst
      cases other with
      | repetition marker' separator' body' =>
          exact repetition_cancel (fun m hm => ih m hm (hbody m hm)) hbody
            (isSequenceFreeAll_iff.1 hother) h
      | _ => simp [firstEvent] at hfirst
  | curlies body ih =>
      intro other rest rest' hother h
      have hbody := isSequenceFreeAll_iff.1 hn
      have hfirst := head?_events_styled hn rest
      rw [h, head?_events_styled hother] at hfirst
      cases other with
      | curlies body' =>
          obtain ⟨hnodes, hfollowing⟩ := curlies_cancel (fun m hm => ih m hm (hbody m hm)) hbody
            (isSequenceFreeAll_iff.1 hother) h
          exact ⟨by rw [hnodes], hfollowing⟩
      | _ => simp [firstEvent] at hfirst
  | alternative branches ih =>
      intro other rest rest' hother h
      have hbranches := isSequenceFreeAll_iff.1 hn
      have hfirst := head?_events_styled hn rest
      rw [h, head?_events_styled hother] at hfirst
      cases other with
      | alternative branches' =>
          obtain ⟨hnodes, hfollowing⟩ := alternative_cancel
            (fun m hm => ih m hm (hbranches m hm)) hbranches (isSequenceFreeAll_iff.1 hother) h
          exact ⟨by rw [hnodes], hfollowing⟩
      | _ => simp [firstEvent] at hfirst
  | atomic text =>
      intro other rest rest' hother h
      have hfirst := head?_events_styled hn rest
      rw [h, head?_events_styled hother] at hfirst
      cases other with
      | atomic text' =>
          rw [events_atomic, events_atomic] at h
          obtain ⟨htext, hfollowing⟩ := textEvents_cancel h
          exact ⟨by rw [htext], hfollowing⟩
      | _ => simp [firstEvent] at hfirst
  | hole id =>
      intro other rest rest' hother h
      have hfirst := head?_events_styled hn rest
      rw [h, head?_events_styled hother] at hfirst
      cases other with
      | hole id' =>
          rw [events_hole, events_hole] at h
          obtain ⟨hid, hfollowing⟩ := textEvents_cancel h
          exact ⟨by rw [hid], hfollowing⟩
      | _ => simp [firstEvent] at hfirst
  | whitespace =>
      intro other rest rest' hother h
      have hfirst := head?_events_styled hn rest
      rw [h, head?_events_styled hother] at hfirst
      cases other with
      | whitespace => exact ⟨rfl, List.append_cancel_left h⟩
      | _ => simp [firstEvent] at hfirst

/-! ## Whole trees -/

section
variable {root other : List Node}

theorem eq_of_events_eq (hroot : isSequenceFreeAll root = true)
    (hother : isSequenceFreeAll other = true)
    (h : eventsAll (styledAll root) = eventsAll (styledAll other)) : root = other := by
  rw [isSequenceFreeAll_iff] at hroot hother
  have hevents : eventsAll (styledAll root) ++ [] = eventsAll (styledAll other) ++ [] := by
    rw [h]
  exact (styledAll_cancel (fun n hn => events_styled_cancel n (hroot n hn)) hroot hother
    rfl rfl hevents).1

/-- The element around a page adds nothing that differs. -/
theorem events_eq_of_page_html_eq (h : (page root).html = (page other).html) :
    eventsAll (styledAll root) = eventsAll (styledAll other) := by
  have hall : Markup.htmlAll [page root] = Markup.htmlAll [page other] := by
    simp only [Markup.htmlAll, h]
  have hevents := Markup.eventsAll_eq_of_htmlAll_eq hall
  simp only [page, eventsAll, events, List.append_nil, List.cons.injEq, true_and] at hevents
  exact List.append_cancel_right hevents

end

/-- The HTML of a tree without sequences, as a fragment or as a page, is that of
no other such tree; and every notation that is read has such a tree. -/
theorem html_lossless :
    (∀ root other : List Node, isSequenceFreeAll root = true → isSequenceFreeAll other = true →
      (Markup.htmlAll (styledAll root) = Markup.htmlAll (styledAll other) ↔ root = other) ∧
      ((page root).html = (page other).html ↔ root = other)) ∧
    ∀ (table table' : ShorthandTable) (source source' : String) (form form' : Notation),
      Notation.parse table source = .ok form → Notation.parse table' source' = .ok form' →
      (form.html = form'.html ↔ form.root = form'.root) := by
  have hpage (root other : List Node) (hroot : isSequenceFreeAll root = true)
      (hother : isSequenceFreeAll other = true) :
      (page root).html = (page other).html ↔ root = other := by
    constructor
    · exact fun h => eq_of_events_eq hroot hother (events_eq_of_page_html_eq h)
    · rintro rfl
      rfl
  constructor
  · intro root other hroot hother
    refine ⟨⟨?_, ?_⟩, hpage root other hroot hother⟩
    · exact fun h => eq_of_events_eq hroot hother (Markup.eventsAll_eq_of_htmlAll_eq h)
    · rintro rfl
      rfl
  · intro table table' source source' form form' hform hform'
    exact hpage form.root form'.root (isSequenceFreeAll_of_parse hform)
      (isSequenceFreeAll_of_parse hform')

/-- Texts that look like braces, tags or entities are not taken for them. -/
theorem html_lossless_braces :
    isSequenceFreeAll [.curlies [.atomic "<b>"]] = true ∧
      isSequenceFreeAll [.atomic "\x7b", .atomic "&lt;b>", .atomic "\x7d"] = true ∧
      Markup.htmlAll (styledAll [.curlies [.atomic "<b>"]]) ≠
        Markup.htmlAll (styledAll [.atomic "\x7b", .atomic "&lt;b>", .atomic "\x7d"]) ∧
      ∃ form form' : Notation, Notation.parse .builtin "@qualid_or_string" = .ok form ∧
        Notation.parse [] "@qualid_or_string" = .ok form' ∧ form.html ≠ form'.html := by
  have hcurlies : isSequenceFreeAll [.curlies [.atomic "<b>"]] = true := by decide +kernel
  have hatoms : isSequenceFreeAll [.atomic "\x7b", .atomic "&lt;b>", .atomic "\x7d"] = true := by
    decide +kernel
  have hexpanded : Notation.parse .builtin "@qualid_or_string" =
      .ok ⟨"@qualid_or_string", "@id|@string", [.alternative [.hole "id", .hole "string"]]⟩ := by
    decide +kernel
  have hplain : Notation.parse [] "@qualid_or_string" =
      .ok ⟨"@qualid_or_string", "@qualid_or_string", [.hole "qualid_or_string"]⟩ := by
    decide +kernel
  refine ⟨hcurlies, hatoms, ?_, _, _, hexpanded, hplain, ?_⟩
  · intro h
    exact absurd ((html_lossless.1 _ _ hcurlies hatoms).1.1 h) (by decide)
  · intro h
    exact absurd ((html_lossless.2 _ _ _ _ _ _ hexpanded hplain).1 h) (by decide)

end Node
end TacticNotation
