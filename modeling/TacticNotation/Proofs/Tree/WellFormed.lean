import TacticNotation.Proofs.Tree.Shape

/-!
# Well-formed trees

What holds at every depth of a tree that was read.  The root and the bodies of
groups are rows: they hold at least one node, and no two nodes stand side by side
in them that would have been read as one.  Gaps stand at the edges of curlies
only.  Branches do not stand side by side, and literals among them may follow
each other.

Which nodes stand side by side is seen from the tokens.  A unit of one token has
the token of the next unit directly after it (`Derives.beside`), and the lexer
gives no two tokens in a row of which the first could have been longer.
-/

namespace TacticNotation
namespace Node

/-! ## Rows -/

/-- Whether one node may stand directly after another one: no gap after a gap,
no two literals or two runs of pipes, and after a hole no text that would belong
to its name. -/
def beside : Node → Node → Bool
  | .whitespace, .whitespace => false
  | .atomic text, .atomic next => isPipes text != isPipes next
  | .hole _, .atomic next => !next.toList.head?.any isNameChar
  | _, _ => true

/-- Nodes that stand side by side. -/
structure Row (ns : List Node) : Prop where
  ne_nil : ns ≠ []
  chain : ns.IsChain fun n next => n.beside next = true

/-- There is no gap at the edges. -/
structure Trimmed (ns : List Node) : Prop where
  head : ns.head? ≠ some .whitespace
  last : ns.getLast? ≠ some .whitespace

/-- The text is a run of pipes or can be written as an atom. -/
def IsLiteral (text : String) : Prop :=
  isPipes text = true ∨ (Token.atom text).Valid

/-- A node is of a kind that is read, and so are all nodes below it. -/
inductive WellFormed : Node → Prop where
  | atomic {text : String} (h : IsLiteral text) : WellFormed (.atomic text)
  | hole {id : String} (h : (Token.hole id).Valid) : WellFormed (.hole id)
  | whitespace : WellFormed .whitespace
  | repetition (marker : Marker) {separator : Option String} {body : List Node}
      (hseparator : ∀ text ∈ separator, IsLiteral text) (hrow : Row body)
      (htrimmed : Trimmed body) (hbody : ∀ n ∈ body, WellFormed n) :
      WellFormed (.repetition marker separator body)
  | curlies {body : List Node} (hrow : Row body) (hfilled : ∃ n ∈ body, n ≠ .whitespace)
      (hbody : ∀ n ∈ body, WellFormed n) : WellFormed (.curlies body)
  | alternative {branches : List Node} (hlength : 2 ≤ branches.length)
      (hprimary : ∀ n ∈ branches, n.isPrimary = true)
      (hbranches : ∀ n ∈ branches, WellFormed n) : WellFormed (.alternative branches)

/-- Whether a node has other nodes below it. -/
def isGroup : Node → Bool
  | .sequence _ | .repetition .. | .curlies _ | .alternative _ => true
  | .atomic _ | .hole _ | .whitespace => false

theorem beside_of_isGroup {node next : Node}
    (h : node.isGroup = true ∨ next.isGroup = true) : node.beside next = true := by
  cases node <;> cases next <;> first | rfl | simp [isGroup] at h

theorem beside_whitespace {node : Node} (h : node ≠ .whitespace) :
    node.beside .whitespace = true := by
  cases node with
  | whitespace => exact absurd rfl h
  | _ => rfl

theorem whitespace_beside {next : Node} (h : next ≠ .whitespace) :
    Node.whitespace.beside next = true := by
  cases next with
  | whitespace => exact absurd rfl h
  | _ => rfl

theorem isLiteral_pipeText (count : Nat) : IsLiteral (Grammar.pipeText (count + 1)) :=
  Or.inl (isPipes_pipeText count)

theorem Row.exists_ne_whitespace {ns : List Node} (h : Row ns) (htrimmed : Trimmed ns) :
    ∃ n ∈ ns, n ≠ .whitespace := by
  cases ns with
  | nil => exact absurd rfl h.ne_nil
  | cons n ns =>
      refine ⟨n, List.mem_cons_self, ?_⟩
      rintro rfl
      exact htrimmed.head rfl

open Grammar (gapNodes) in
/-- Gaps may be put at the edges of a row that has none there. -/
theorem Row.padded {ns : List Node} (h : Row ns) (htrimmed : Trimmed ns) (front back : Bool) :
    Row (gapNodes front ++ (ns ++ gapNodes back)) := by
  have hback : (ns ++ gapNodes back).IsChain fun n next => n.beside next = true := by
    refine List.isChain_append.2 ⟨h.chain, ?_, ?_⟩
    · cases back <;> simp [gapNodes]
    · intro n hn next hnext
      rw [Grammar.mem_gapNodes (List.mem_of_mem_head? hnext)]
      refine beside_whitespace ?_
      rintro rfl
      exact htrimmed.last hn
  refine ⟨by simp [h.ne_nil], List.isChain_append.2 ⟨?_, hback, ?_⟩⟩
  · cases front <;> simp [gapNodes]
  · intro n hn next hnext
    rw [Grammar.mem_gapNodes (List.mem_of_mem_getLast? hn)]
    refine whitespace_beside ?_
    rintro rfl
    rw [List.head?_append_of_ne_nil _ h.ne_nil] at hnext
    exact htrimmed.head hnext

end Node

namespace Grammar

open Node (Row Trimmed IsLiteral WellFormed)

variable {taken rest : List Token} {node : Node} {nodes : List Node}

/-! ## Neighbours -/

/-- A unit that is no group has one token, or is a run of pipes. -/
theorem Derives.unit_cases (h : Derives .unit taken [node] rest) :
    (∃ text, taken = [.atom text] ∧ node = .atomic text) ∨
      (∃ id, taken = [.hole id] ∧ node = .hole id) ∨
      (∃ count, taken = pipeTokens (count + 1) ∧ node = .atomic (pipeText (count + 1)) ∧
        rest.head? ≠ some .pipe) ∨
      node.isGroup = true := by
  cases h with
  | single hnode =>
      cases hnode with
      | atom text => exact Or.inl ⟨text, rfl, rfl⟩
      | hole id => exact Or.inr (Or.inl ⟨id, rfl, rfl⟩)
      | repetition => exact Or.inr (Or.inr (Or.inr rfl))
      | curlies => exact Or.inr (Or.inr (Or.inr rfl))
  | alternative => exact Or.inr (Or.inr (Or.inr rfl))
  | pipes count hhead => exact Or.inr (Or.inr (Or.inl ⟨count, rfl, rfl, hhead⟩))

theorem Derives.unit_ne_whitespace (h : Derives .unit taken [node] rest) :
    node ≠ .whitespace := by
  rcases h.unit_cases with ⟨_, -, rfl⟩ | ⟨_, -, rfl⟩ | ⟨_, -, rfl, -⟩ | hgroup
  · simp
  · simp
  · simp
  · rintro rfl
    cases hgroup

/-- An atom takes up the start of every other atom. -/
theorem joins_atom_atom {text next : String} (h : (Token.atom next).Valid) :
    (Token.atom text).joins (.atom next) = true := by
  obtain ⟨hne, hall⟩ := h
  rw [Token.joins, Token.text]
  cases hchars : next.toList with
  | nil => exact absurd hchars hne
  | cons c more =>
      rw [hchars] at hall
      exact hall c (by simp)

/-- Units directly after each other may stand side by side. -/
theorem Derives.beside {taken' rest' : List Token} {next : Node}
    (h : Derives .unit taken [node] (taken' ++ rest)) (h' : Derives .unit taken' [next] rest')
    (happart : Apart (taken ++ taken')) : node.beside next = true := by
  have hvalid := happart.valid
  obtain ⟨-, -, hborder⟩ := apart_append.1 happart
  rcases h'.unit_cases with ⟨text', rfl, rfl⟩ | ⟨id', rfl, rfl⟩ | ⟨count', rfl, rfl, -⟩ | hgroup'
  · have hvalid' : (Token.atom text').Valid := hvalid _ (by simp)
    have hliteral' := Node.isPipes_of_valid hvalid'
    rcases h.unit_cases with ⟨text, rfl, rfl⟩ | ⟨id, rfl, rfl⟩ | ⟨count, rfl, rfl, -⟩ | hgroup
    · have hjoins := hborder (.atom text) rfl (.atom text') rfl
      rw [joins_atom_atom hvalid'] at hjoins
      cases hjoins
    · have hjoins : text'.toList.head?.any isNameChar = false :=
        hborder (.hole id) rfl (.atom text') rfl
      rw [Node.beside, hjoins]
      rfl
    · rw [Node.beside, Node.isPipes_pipeText, hliteral']
      rfl
    · exact Node.beside_of_isGroup (Or.inl hgroup)
  · cases node <;> rfl
  · rcases h.unit_cases with ⟨text, rfl, rfl⟩ | ⟨id, rfl, rfl⟩ | ⟨count, rfl, rfl, hhead⟩ | hgroup
    · rw [Node.beside, Node.isPipes_pipeText, Node.isPipes_of_valid (hvalid _ (by simp))]
      rfl
    · rw [Node.beside, Node.toList_pipeText]
      rfl
    · -- A run of pipes takes every pipe that is there.
      exact absurd rfl hhead
    · exact Node.beside_of_isGroup (Or.inl hgroup)
  · exact Node.beside_of_isGroup (Or.inr hgroup')

/-- With the unit before them, the units after the first and the gaps between
them stand side by side. -/
theorem Derives.chain_more {part : Part} (h : Derives part taken nodes rest)
    (hpart : part = .more) {front : List Token}
    (hunit : Derives .unit front [node] (taken ++ rest)) (happart : Apart (front ++ taken)) :
    (node :: nodes).IsChain fun n next => n.beside next = true := by
  induction h generalizing front node with
  | noMore => exact List.isChain_singleton node
  | @more taken more rest next nodes gap hnext hmore _ ih =>
      have hrow := ih rfl hnext happart.right.right
      cases gap with
      | true =>
          refine List.isChain_cons_cons.2 ⟨Node.beside_whitespace hunit.unit_ne_whitespace, ?_⟩
          exact List.isChain_cons_cons.2 ⟨Node.whitespace_beside hnext.unit_ne_whitespace, hrow⟩
      | false =>
          simp only [gapTokens, Bool.false_eq_true, if_false, List.nil_append,
            List.append_assoc] at hunit happart
          rw [← List.append_assoc] at happart
          exact List.isChain_cons_cons.2 ⟨hunit.beside hnext happart.left, hrow⟩
  | _ => cases hpart

/-- No gap is left standing after units. -/
theorem Derives.getLast?_more {part : Part} (h : Derives part taken nodes rest)
    (hpart : part = .more) : nodes.getLast? ≠ some .whitespace := by
  induction h with
  | noMore => simp
  | @more taken more rest next nodes gap hnext hmore _ ih =>
      rw [List.getLast?_append_of_ne_nil _ (List.cons_ne_nil _ _), List.getLast?_cons]
      cases hlast : nodes.getLast? with
      | none => simpa using hnext.unit_ne_whitespace
      | some last =>
          rw [← hlast]
          simpa [hlast] using ih rfl
  | _ => cases hpart

/-- Blocks are a row without gaps at its edges. -/
theorem Derives.row (h : Derives .blocks taken nodes rest) (happart : Apart taken) :
    Row nodes ∧ Trimmed nodes := by
  cases h with
  | @blocks taken more rest node nodes hunit hmore =>
      have hlast := hmore.getLast?_more rfl
      have hnode := hunit.unit_ne_whitespace
      refine ⟨⟨List.cons_ne_nil _ _, hmore.chain_more rfl hunit happart⟩, ?_, ?_⟩
      · simpa using hnode
      · rw [List.getLast?_cons]
        cases hnodes : nodes.getLast? with
        | none => simpa using hnode
        | some last =>
            rw [hnodes] at hlast
            exact hlast

/-! ## Every depth -/

theorem Separates.isLiteral {sep following : List Token} {separator : Option String}
    (h : Separates sep separator following) (hvalid : ∀ token ∈ sep, token.Valid) :
    ∀ text ∈ separator, IsLiteral text := by
  cases h with
  | none => simp
  | atom text =>
      rintro _ ⟨⟩
      exact Or.inr (hvalid _ (by simp))
  | pipes count =>
      rintro _ ⟨⟩
      exact Node.isLiteral_pipeText count

/-- What is derived of tokens that are apart is well-formed. -/
theorem Derives.wellFormed {part : Part} (h : Derives part taken nodes rest)
    (happart : Apart taken) : ∀ n ∈ nodes, WellFormed n := by
  have hgap (present : Bool) : ∀ n ∈ gapNodes present, WellFormed n := by
    intro n hn
    rw [mem_gapNodes hn]
    exact .whitespace
  induction h with
  | atom text => simpa using WellFormed.atomic (Or.inr (happart.valid _ (by simp)))
  | hole id => simpa using WellFormed.hole (happart.valid _ (by simp))
  | repetition marker front back hsep hbody ih =>
      have hinside := happart.tail.right.right.left
      obtain ⟨hrow, htrimmed⟩ := hbody.row hinside
      have hseparator := hsep.isLiteral happart.tail.left.valid
      simpa using WellFormed.repetition marker hseparator hrow htrimmed (ih hinside)
  | curlies front back hbody ih =>
      have hinside := happart.tail.right.left
      obtain ⟨hrow, htrimmed⟩ := hbody.row hinside
      have hnodes := List.forall_mem_append.2
        ⟨hgap front, List.forall_mem_append.2 ⟨ih hinside, hgap back⟩⟩
      obtain ⟨n, hn, hne⟩ := hrow.exists_ne_whitespace htrimmed
      have hmem : n ∈ gapNodes front ++ (_ ++ gapNodes back) :=
        List.mem_append_right _ (List.mem_append_left _ hn)
      simpa using WellFormed.curlies (hrow.padded htrimmed front back) ⟨n, hmem, hne⟩ hnodes
  | noBranch => simp
  | branch hbranch hmore ihBranch ihMore =>
      have hfirst := ihBranch happart.tail.left
      exact List.forall_mem_cons.2
        ⟨hfirst _ (List.mem_singleton_self _), ihMore happart.tail.right⟩
  | single hnode _ ih => exact ih happart
  | @alternative taken more rest node other nodes hfirst hmore ihFirst ihMore =>
      have hprimaryFirst := hfirst.isPrimary happart.left.valid (Or.inl rfl)
      have hprimaryMore := hmore.isPrimary happart.right.valid (Or.inr rfl)
      have hlength : 2 ≤ (node :: other :: nodes).length := by simp
      rw [List.forall_mem_singleton]
      refine .alternative hlength ?_ ?_
      · exact List.forall_mem_cons.2 ⟨hprimaryFirst _ (List.mem_singleton_self _), hprimaryMore⟩
      · exact List.forall_mem_cons.2
          ⟨ihFirst happart.left _ (List.mem_singleton_self _), ihMore happart.right⟩
  | pipes count => simpa using WellFormed.atomic (Node.isLiteral_pipeText count)
  | noMore => simp
  | more gap hunit hmore ihUnit ihMore =>
      have hnode := ihUnit happart.right.left
      refine List.forall_mem_append.2 ⟨hgap gap, List.forall_mem_cons.2 ⟨?_, ?_⟩⟩
      · exact hnode _ (List.mem_singleton_self _)
      · exact ihMore happart.right.right
  | blocks hunit hmore ihUnit ihMore =>
      exact List.forall_mem_cons.2
        ⟨ihUnit happart.left _ (List.mem_singleton_self _), ihMore happart.right⟩

end Grammar

/-- Every tree that is read is well-formed, with any table of shorthands.  The
root and the body of each repetition are rows without gaps at their edges; the
body of curlies is a row and holds a node that is no gap.  There is no sequence
below the root, and every alternative has two branches at least, each of them an
atom, a hole or a group.  The names of holes, the literals and the separators are
what can be written as such.

What is said of nodes side by side is about rows only.  Branches that follow each
other have a pipe between them in the text, so two literals may be neighbours
there, or a hole and a literal that would be one name with it. -/
theorem Notation.wellFormed_of_parse {table : ShorthandTable} {source : String} {form : Notation}
    (h : Notation.parse table source = .ok form) :
    Node.Row form.root ∧ Node.Trimmed form.root ∧ ∀ n ∈ form.root, Node.WellFormed n := by
  obtain ⟨body, back, hbody, happart⟩ := Grammar.derives_of_parse h
  obtain ⟨hrow, htrimmed⟩ := hbody.row happart
  exact ⟨hrow, htrimmed, hbody.wellFormed happart⟩

/-- A run of pipes after a separator is a node of its own.  The shorthand ends
with a blank: the text after it would belong to the name of the hole otherwise. -/
theorem Notation.wellFormed_of_parse_separator :
    let form : Notation := ⟨" \x7b*,|@zin|b\x7b @y \x7d \x7d", " \x7b*,|@x in|b\x7b @y \x7d \x7d",
      [.repetition .zeroOrMore (some ",") [.atomic "|", .hole "x", .whitespace,
        .alternative [.atomic "in", .atomic "b"], .curlies [.whitespace, .hole "y", .whitespace]]]⟩
    Notation.parse [⟨"@z", "@x "⟩] form.source = .ok form ∧
      Node.Row form.root ∧ Node.Trimmed form.root ∧ ∀ n ∈ form.root, Node.WellFormed n := by
  intro form
  have hparse : Notation.parse [⟨"@z", "@x "⟩] form.source = .ok form := by decide +kernel
  exact ⟨hparse, Notation.wellFormed_of_parse hparse⟩

end TacticNotation
