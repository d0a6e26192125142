import TacticNotation.Proofs.Grammar.Characters
import TacticNotation.Proofs.Grammar.Yield
import TacticNotation.Proofs.Shorthand.FixedPoint
import TacticNotation.Proofs.Tree.WellFormed

/-!
# Placeholder text, read as a notation

Placeholder text is made for readers, but it is a text like any other, and it can be
read as a notation again.  What the tree of it is like cannot be said from the first
tree: groups go, a body with an ellipsis is written twice, pipes of different origin
stand side by side.  What can be said is how the text looks.  It is a `Sentence`:
words with at most one blank between them, and braces that are balanced, not empty
and have at most one blank inside each.  No sigil is in it.

Such a text is a notation unless a brace and the character after it open a
repetition.  It has no holes and no repetitions then, so no gap is dropped and every
token is shown as it is written.
-/

namespace TacticNotation

open Grammar

/-! ## Sentences -/

/-- A character that can stand in a word: one of an atom, or a pipe. -/
def isWordChar (c : Char) : Bool := isAtomChar c || c == '|'

/-- A blank that may be there or not. -/
def space (present : Bool) : List Char :=
  if present then [' '] else []

/-- Words and groups, each with one blank before the next or none, and with one blank
inside each brace or none. -/
inductive Sentence : List Char → Prop where
  | word {run : List Char} (hne : run ≠ []) (h : ∀ c ∈ run, isWordChar c = true) : Sentence run
  | append {front back : List Char} (present : Bool) (hfront : Sentence front)
      (hback : Sentence back) : Sentence (front ++ (space present ++ back))
  | group {inside : List Char} (front back : Bool) (hinside : Sentence inside) :
      Sentence ('{' :: (space front ++ (inside ++ (space back ++ ['}']))))

/-- A character of a word is a word by itself. -/
theorem Sentence.single {c : Char} (h : isWordChar c = true) : Sentence [c] :=
  .word (List.cons_ne_nil _ _) (List.forall_mem_singleton.2 h)

theorem isWordChar_of_isAtomChar {c : Char} (h : isAtomChar c = true) : isWordChar c = true := by
  rw [isWordChar, h, Bool.true_or]

theorem isText_of_isWordChar {c : Char} (h : isWordChar c = true) : IsText c := by
  rcases (Bool.or_eq_true _ _).mp h with hatom | hpipe
  · exact isText_of_isAtomChar hatom
  · rw [beq_iff_eq.1 hpipe]
    decide

theorem mem_space {present : Bool} {c : Char} (h : c ∈ space present) : c = ' ' := by
  cases present with
  | false => cases h
  | true => exact List.mem_singleton.1 h

/-- There is no blank at the ends, no blank after another one, and no other blank than
a space. -/
structure SingleSpaced (chars : List Char) : Prop where
  head : ∀ c ∈ chars.head?, isGap c = false
  last : ∀ c ∈ chars.getLast?, isGap c = false
  chain : chars.IsChain fun c d => isGap c = false ∨ isGap d = false
  blank : ∀ c ∈ chars, isGap c = true → c = ' '

namespace SingleSpaced

variable {run front back : List Char}

theorem of_text (h : ∀ c ∈ run, isGap c = false) : SingleSpaced run := by
  refine ⟨fun c hc => h c (List.mem_of_mem_head? hc), fun c hc => h c (List.mem_of_getLast? hc),
    ?_, ?_⟩
  · refine List.Pairwise.isChain ?_
    exact List.pairwise_of_forall_mem_list fun c hc d _ => Or.inl (h c hc)
  · intro c hc hgap
    rw [h c hc] at hgap
    cases hgap

theorem append (hfront : SingleSpaced front) (hne : front ≠ []) (hback : SingleSpaced back)
    (hne' : back ≠ []) (present : Bool) : SingleSpaced (front ++ (space present ++ back)) := by
  have htail : space present ++ back ≠ [] := by simp [hne']
  refine ⟨?_, ?_, ?_, ?_⟩
  · rw [List.head?_append_of_ne_nil _ hne]
    exact hfront.head
  · rw [List.getLast?_append_of_ne_nil _ htail, List.getLast?_append_of_ne_nil _ hne']
    exact hback.last
  · refine List.isChain_append.2 ⟨hfront.chain, List.isChain_append.2 ⟨?_, hback.chain, ?_⟩, ?_⟩
    · cases present
      · exact List.isChain_nil
      · exact List.isChain_singleton _
    · exact fun _ _ d hd => Or.inr (hback.head d hd)
    · exact fun c hc _ _ => Or.inl (hfront.last c hc)
  · refine List.forall_mem_append.2 ⟨hfront.blank, List.forall_mem_append.2 ⟨?_, hback.blank⟩⟩
    exact fun c hc _ => mem_space hc

/-- All blanks in one place are a single space. -/
theorem eq_space {chars : List Char} (h : SingleSpaced chars) (hne : run ≠ [])
    (hrun : run <:+: chars) (hgap : ∀ c ∈ run, isGap c = true) : run = [' '] := by
  have hchain : run.IsChain fun c d => isGap c = false ∨ isGap d = false := h.chain.infix hrun
  have hblank (c : Char) (hc : c ∈ run) : c = ' ' := h.blank c (hrun.subset hc) (hgap c hc)
  cases run with
  | nil => exact absurd rfl hne
  | cons c more =>
      cases more with
      | nil => rw [hblank c (List.mem_singleton_self c)]
      | cons d more =>
          have hpair := (List.isChain_cons_cons.1 hchain).1
          rw [hgap c (by simp), hgap d (by simp)] at hpair
          simp at hpair

end SingleSpaced

/-- A brace and the character after it do not open a repetition anywhere. -/
def Unmarked (chars : List Char) : Prop :=
  ∀ marker : Marker, ¬ ['{', marker.char] <:+: chars

theorem Unmarked.of_infix {chars piece : List Char} (h : Unmarked chars)
    (hpiece : piece <:+: chars) : Unmarked piece :=
  fun marker hopens => h marker (hopens.trans hpiece)

theorem Unmarked.next?_eq_none {c : Char} {rest : List Char} (h : Unmarked ('{' :: c :: rest)) :
    Before.brace.next? c = none := by
  rw [Before.next?]
  cases hc : Marker.ofChar? c with
  | none => rfl
  | some marker =>
      rw [Marker.ofChar?_eq_some_iff.1 hc] at h
      exact absurd (List.prefix_append ['{', marker.char] rest).isInfix (h marker)

namespace Sentence

variable {chars : List Char}

theorem ne_nil (h : Sentence chars) : chars ≠ [] := by
  induction h with
  | word hne => exact hne
  | append present _ _ ihFront => simp [ihFront]
  | group => exact List.cons_ne_nil _ _

theorem singleSpaced (h : Sentence chars) : SingleSpaced chars := by
  have hsign {c : Char} (hc : isGap c = false) : SingleSpaced [c] :=
    .of_text (List.forall_mem_singleton.2 hc)
  induction h with
  | word hne hall => exact .of_text fun c hc => (isText_of_isWordChar (hall c hc)).2.2
  | append present hfront hback ihFront ihBack =>
      exact ihFront.append hfront.ne_nil ihBack hback.ne_nil present
  | @group inside front back hinside ih =>
      have hbody := ih.append hinside.ne_nil (hsign (c := '}') rfl) (List.cons_ne_nil _ _) back
      refine (hsign (c := '{') rfl).append (List.cons_ne_nil _ _) hbody ?_ front
      simp [hinside.ne_nil]

theorem sigil_not_mem (h : Sentence chars) : '@' ∉ chars := by
  have hspace (present : Bool) : '@' ∉ space present := by
    intro hmem
    exact absurd (mem_space hmem) (by decide)
  induction h with
  | word hne hall =>
      intro hmem
      exact absurd (hall '@' hmem) (by decide)
  | append present _ _ ihFront ihBack => simp [ihFront, ihBack, hspace]
  | group front back _ ih => simp [ih, hspace]

/-- A sentence goes by like a word, unless a repetition is opened in it. -/
theorem after (h : Sentence chars) (hunmarked : Unmarked chars) (levels : Levels) :
    Sweep.after ⟨.other, levels⟩ chars = .ok ⟨.other, ⟨true, levels.outer⟩⟩ := by
  have hspace (present : Bool) (levels : Levels) :
      Sweep.after ⟨.other, levels⟩ (space present) = .ok ⟨.other, levels⟩ := by
    apply Sweep.after_blanks
    intro c hc
    rw [mem_space hc]
    rfl
  induction h generalizing levels with
  | word hne hall =>
      exact Sweep.after_text hne fun c hc => isText_of_isWordChar (hall c hc)
  | @append front back present _ _ ihFront ihBack =>
      have hfront := hunmarked.of_infix (List.prefix_append front _).isInfix
      have hrest := hunmarked.of_infix (List.suffix_append front (space present ++ back)).isInfix
      have hback := hrest.of_infix (List.suffix_append (space present) back).isInfix
      rw [Sweep.after_append (ihFront hfront levels), Sweep.after_append (hspace present _)]
      exact ihBack hback _
  | @group inside front back hinside ih =>
      have hpiece : inside <:+: '{' :: (space front ++ (inside ++ (space back ++ ['}']))) :=
        ⟨'{' :: space front, space back ++ ['}'], by simp⟩
      have hbody := ih (hunmarked.of_infix hpiece) ⟨false, true :: levels.outer⟩
      have hopen : Sweep.step ⟨.other, levels⟩ '{' = .ok ⟨.brace, ⟨false, true :: levels.outer⟩⟩ :=
        rfl
      rw [Sweep.after_cons hopen]
      -- After the brace comes no marker, so what comes is read as after anything else.
      generalize htext : space front ++ (inside ++ (space back ++ ['}'])) = text at hunmarked ⊢
      cases text with
      | nil => simp [hinside.ne_nil] at htext
      | cons c more =>
          rw [Sweep.after_settled hunmarked.next?_eq_none, ← htext,
            Sweep.after_append (hspace front _), Sweep.after_append hbody,
            Sweep.after_append (hspace back _)]
          rfl

/-- A sentence in which no repetition is opened is a notation. -/
theorem report?_eq_none (h : Sentence chars) (hunmarked : Unmarked chars) :
    report? chars = none := by
  have hbare : bareSigil? 0 chars = none := by
    have hsigil : ∀ c ∈ chars, c ≠ '@' := by
      intro c hc heq
      rw [heq] at hc
      exact h.sigil_not_mem hc
    have happend := bareSigil?_append hsigil 0 []
    rwa [List.append_nil] at happend
  have hblank : chars.all isGap = false := by
    obtain ⟨c, more, rfl⟩ := List.exists_cons_of_ne_nil h.ne_nil
    rw [List.all_cons, h.singleSpaced.head c rfl, Bool.false_and]
  have hrun : Sweep.initial.run chars = none := by
    have happend := Sweep.run_append (h.after hunmarked ⟨false, []⟩) []
    rwa [List.append_nil] at happend
  rw [report?, hbare, verdict, hblank, hrun]
  rfl

end Sentence

/-! ## Placeholder text -/

namespace Node

theorem toList_placeholderAll_gapNodes (present : Bool) :
    (placeholderAll (gapNodes present)).toList = space present := by
  cases present <;> rfl

theorem toList_placeholderAll_singleton (n : Node) :
    (placeholderAll [n]).toList = n.placeholder.toList := by
  simp [placeholderAll]

theorem sentence_of_isLiteral {text : String} (h : IsLiteral text) : Sentence text.toList := by
  rcases h with hpipes | ⟨hne, hall⟩
  · rw [isPipes, Bool.and_eq_true, List.all_eq_true] at hpipes
    refine .word (by simpa using hpipes.1) fun c hc => ?_
    rw [beq_iff_eq.1 (hpipes.2 c hc)]
    rfl
  · exact .word hne fun c hc => isWordChar_of_isAtomChar (hall c hc)

theorem sentence_ellipsis {separator : Option String}
    (hseparator : ∀ text ∈ separator, IsLiteral text) {body : List Char} (h : Sentence body) :
    Sentence (body ++ ((ellipsis separator).toList ++ body)) := by
  have hdots : Sentence ['…'] := .single rfl
  cases separator with
  | none => simpa [ellipsis, spacer, space] using h.append true (hdots.append true h)
  | some text =>
      have htext := sentence_of_isLiteral (hseparator text rfl)
      have hfront := h.append false htext
      have hback := (hdots.append false htext).append true h
      simpa [ellipsis, spacer, space] using hfront.append true hback

end Node

namespace Grammar

open Node (placeholderAll placeholderBranches)

/-- What the nodes of a piece of a notation show: a sentence, or how one goes on. -/
def Shows : Part → List Node → Prop
  | .branches, nodes =>
      ∀ front, Sentence front → Sentence (front ++ (placeholderBranches nodes).toList)
  | .more, nodes => ∀ front, Sentence front → Sentence (front ++ (placeholderAll nodes).toList)
  | .primary, nodes | .unit, nodes | .blocks, nodes => Sentence (placeholderAll nodes).toList

theorem Derives.shows {part : Part} {taken rest : List Token} {nodes : List Node}
    (h : Derives part taken nodes rest) (hvalid : ∀ token ∈ taken, token.Valid) :
    Shows part nodes := by
  induction h with
  | atom text =>
      rw [Shows, Node.toList_placeholderAll_singleton]
      exact Node.sentence_of_isLiteral (Or.inr (hvalid _ (List.mem_singleton_self _)))
  | hole id =>
      obtain ⟨-, hall⟩ := hvalid _ (List.mem_singleton_self _)
      have hchars : (placeholderAll [.hole id]).toList = '‘' :: (id.toList ++ ['’']) := by
        simp [placeholderAll, Node.placeholder]
      rw [Shows, hchars]
      refine .word (List.cons_ne_nil _ _) (List.forall_mem_cons.2 ⟨by decide, ?_⟩)
      refine List.forall_mem_append.2 ⟨fun c hc => ?_, List.forall_mem_singleton.2 (by decide)⟩
      exact isWordChar_of_isAtomChar (isAtomChar_of_isNameChar (hall c hc))
  | @repetition marker sep body separator nodes rest front back hsep hbody ih =>
      simp only [List.forall_mem_cons, List.forall_mem_append] at hvalid
      obtain ⟨-, hvalidSep, -, hvalidBody, -⟩ := hvalid
      have hinside : Sentence (placeholderAll nodes).toList := ih hvalidBody
      rw [Shows, Node.toList_placeholderAll_singleton]
      cases marker with
      | optional => exact hinside
      | zeroOrMore => exact hinside
      | oneOrMore =>
          rw [Node.placeholder, String.toList_append, String.toList_append, List.append_assoc]
          exact Node.sentence_ellipsis (hsep.isLiteral hvalidSep) hinside
  | @curlies body nodes rest front back hbody ih =>
      simp only [List.forall_mem_cons, List.forall_mem_append] at hvalid
      have hinside : Sentence (placeholderAll nodes).toList := ih hvalid.2.2.1
      have hgroup := hinside.group front back
      simpa [Shows, placeholderAll, Node.placeholder, Node.placeholderAll_append,
        Node.toList_placeholderAll_gapNodes] using hgroup
  | noBranch => simp [Shows, placeholderBranches]
  | @branch taken more rest node nodes hbranch hmore ihBranch ihMore =>
      simp only [List.forall_mem_cons, List.forall_mem_append] at hvalid
      have hnode : Sentence (placeholderAll [node]).toList := ihBranch hvalid.2.1
      rw [Node.toList_placeholderAll_singleton] at hnode
      intro front hfront
      have hbar : Sentence ['|'] := .single rfl
      have hlonger := hfront.append false (hbar.append false hnode)
      have hall := ihMore hvalid.2.2 _ hlonger
      simpa [placeholderBranches, space] using hall
  | single hnode hglued ih => exact ih hvalid
  | @alternative taken more rest node other nodes hfirst hmore ihFirst ihMore =>
      obtain ⟨hvalidFirst, hvalidMore⟩ := List.forall_mem_append.1 hvalid
      have hnode : Sentence (placeholderAll [node]).toList := ihFirst hvalidFirst
      have hall := ihMore hvalidMore _ hnode
      rw [Node.toList_placeholderAll_singleton] at hall
      rw [Shows, Node.toList_placeholderAll_singleton, Node.placeholder, String.toList_append]
      exact hall
  | pipes count hhead =>
      rw [Shows, Node.toList_placeholderAll_singleton]
      exact Node.sentence_of_isLiteral (Node.isLiteral_pipeText count)
  | noMore => simp [Shows, placeholderAll]
  | @more taken more rest node nodes gap hunit hmore ihUnit ihMore =>
      simp only [List.forall_mem_append] at hvalid
      have hnode : Sentence (placeholderAll [node]).toList := ihUnit hvalid.2.1
      rw [Node.toList_placeholderAll_singleton] at hnode
      intro front hfront
      have hall := ihMore hvalid.2.2 _ (hfront.append gap hnode)
      simpa [Node.placeholderAll_append, Node.toList_placeholderAll_gapNodes, placeholderAll]
        using hall
  | @blocks taken more rest node nodes hunit hmore ihUnit ihMore =>
      obtain ⟨hvalidUnit, hvalidMore⟩ := List.forall_mem_append.1 hvalid
      have hnode : Sentence (placeholderAll [node]).toList := ihUnit hvalidUnit
      have hall := ihMore hvalidMore _ hnode
      rw [Node.toList_placeholderAll_singleton] at hall
      rw [Shows, placeholderAll, String.toList_append]
      exact hall

end Grammar

/-! ## Tokens that are shown as they are written -/

namespace Token

/-- Whether a token is neither a hole nor the opening of a repetition. -/
def isPlain : Token → Bool
  | .hole _ | .repeatOpen _ => false
  | .braceOpen | .braceClose | .pipe | .gap | .atom _ => true

theorem text_infix_of_mem {token : Token} {tokens : List Token} (h : token ∈ tokens) :
    token.text.toList <:+: (textAll tokens).toList := by
  obtain ⟨front, back, rfl⟩ := List.append_of_mem h
  refine ⟨(textAll front).toList, (textAll back).toList, ?_⟩
  rw [textAll_append, textAll, String.toList_append, String.toList_append, List.append_assoc]

end Token

/-- Where all blanks are single spaces the text is that of its tokens. -/
theorem Spelled.toList_textAll {tokens : List Token} {chars : List Char}
    (h : Spelled tokens chars)
    (hspace : ∀ run, run <:+: chars → Token.gap.Spells run → run = [' ']) :
    (Token.textAll tokens).toList = chars := by
  induction h with
  | nil => rfl
  | @cons token tokens run rest hrun hrest htokens ih =>
      have hfirst : run = token.text.toList := by
        by_cases htoken : token = .gap
        · subst htoken
          exact hspace run (List.prefix_append run rest).isInfix hrun
        · exact hrun.eq_text htoken
      have hmore : (Token.textAll tokens).toList = rest :=
        ih fun piece hpiece => hspace piece (hpiece.trans (List.suffix_append run rest).isInfix)
      rw [Token.textAll, String.toList_append, hmore, ← hfirst]

namespace Grammar

/-- Inside curlies only what comes at the very end is at the close. -/
theorem atClose_eq_false {tokens : List Token} (hne : tokens ≠ []) {groups : List Bool}
    (hgroups : ∀ group ∈ groups, group = false) : atClose groups tokens = false := by
  obtain ⟨token, more, rfl⟩ := List.exists_cons_of_ne_nil hne
  cases token with
  | braceClose =>
      cases groups with
      | nil => rfl
      | cons group groups =>
          rw [hgroups group List.mem_cons_self]
          rfl
  | _ => rfl

/-- Where no repetition is opened only a gap at an end is dropped. -/
theorem kept_inside_eq_self {tokens : List Token} (hplain : ∀ token ∈ tokens, token.isPlain = true)
    (hlast : tokens.getLast? ≠ some .gap) {groups : List Bool}
    (hgroups : ∀ group ∈ groups, group = false) : kept .inside groups tokens = tokens := by
  induction tokens generalizing groups with
  | nil => rfl
  | cons token tokens ih =>
      obtain ⟨htoken, hplain'⟩ := List.forall_mem_cons.1 hplain
      have hlast' : tokens.getLast? ≠ some .gap := by
        cases tokens with
        | nil => simp
        | cons next tokens => rwa [List.getLast?_cons_cons] at hlast
      by_cases hgap : token = .gap
      · subst hgap
        have hne : tokens ≠ [] := by
          intro hnil
          rw [hnil] at hlast
          exact hlast rfl
        have hclose := atClose_eq_false hne hgroups
        rw [kept, if_pos ⟨rfl, hclose⟩, ih hplain' hlast' hgroups]
      · have hnext : Spot.inside.next token = .inside := by
          cases token with
          | repeatOpen marker => cases htoken
          | _ => rfl
        have hafter : ∀ group ∈ groupsAfter groups token, group = false := by
          cases token with
          | repeatOpen marker => cases htoken
          | braceOpen => exact List.forall_mem_cons.2 ⟨rfl, hgroups⟩
          | braceClose => exact fun group hgroup => hgroups group (List.mem_of_mem_tail hgroup)
          | _ => exact hgroups
        rw [kept_cons groups hgap, hnext, ih hplain' hlast' hafter]

theorem kept_edge_eq_self {tokens : List Token} (hplain : ∀ token ∈ tokens, token.isPlain = true)
    (hhead : tokens.head? ≠ some .gap) (hlast : tokens.getLast? ≠ some .gap) :
    kept .edge [] tokens = tokens := by
  cases tokens with
  | nil => rfl
  | cons token tokens =>
      have hgap : token ≠ .gap := by
        intro heq
        rw [heq] at hhead
        exact hhead rfl
      have hnext : Spot.edge.next token = Spot.inside.next token := by cases token <;> rfl
      rw [kept_eq_inside [] hgap hnext]
      exact kept_inside_eq_self hplain hlast (List.forall_mem_nil _)

end Grammar

namespace Node

theorem placeholderAll_eq_of_forall {ns : List Node}
    (ih : ∀ n ∈ ns, (∀ token ∈ tokens [] n, token.isPlain = true) →
      placeholder n = Token.textAll (tokens [] n))
    (h : ∀ token ∈ tokensAll [] ns, token.isPlain = true) :
    placeholderAll ns = Token.textAll (tokensAll [] ns) := by
  induction ns with
  | nil => rfl
  | cons n ns hns =>
      obtain ⟨hfirst, hmore⟩ := List.forall_mem_append.1 h
      rw [placeholderAll, tokensAll, Token.textAll_append, ih n (by simp) hfirst,
        hns (fun m hm => ih m (List.mem_cons_of_mem n hm)) hmore]

theorem placeholderBranches_eq_of_forall {ns : List Node}
    (ih : ∀ n ∈ ns, (∀ token ∈ tokens [] n, token.isPlain = true) →
      placeholder n = Token.textAll (tokens [] n))
    (h : ∀ token ∈ tokensBranches [] ns, token.isPlain = true) :
    placeholderBranches ns = Token.textAll (tokensBranches [] ns) := by
  induction ns with
  | nil => rfl
  | cons n ns hns =>
      obtain ⟨-, h⟩ := List.forall_mem_cons.1 h
      obtain ⟨hfirst, hmore⟩ := List.forall_mem_append.1 h
      rw [placeholderBranches, tokensBranches, Token.textAll, Token.textAll_append,
        ih n (by simp) hfirst, hns (fun m hm => ih m (List.mem_cons_of_mem n hm)) hmore,
        String.append_assoc]
      rfl

/-- A node without holes and repetitions is shown as it is written. -/
theorem placeholder_eq (n : Node) (h : ∀ token ∈ tokens [] n, token.isPlain = true) :
    placeholder n = Token.textAll (tokens [] n) := by
  induction n using Node.induct with
  | sequence children ih => exact placeholderAll_eq_of_forall ih h
  | repetition marker separator body ih => cases h (.repeatOpen marker) List.mem_cons_self
  | curlies body ih =>
      rw [tokens, List.forall_mem_cons, List.forall_mem_append] at h
      rw [placeholder, tokens, placeholderAll_eq_of_forall ih h.2.1, ← String.toList_inj]
      simp [Token.textAll, Token.textAll_append, Token.text]
  | alternative branches ih =>
      cases branches with
      | nil => rfl
      | cons branch branches =>
          obtain ⟨hfirst, hmore⟩ := List.forall_mem_append.1 h
          rw [placeholder, tokens, Token.textAll_append, ih branch (by simp) hfirst,
            placeholderBranches_eq_of_forall
              (fun n hn => ih n (List.mem_cons_of_mem branch hn)) hmore]
  | atomic text =>
      rw [placeholder, tokens]
      exact (textAll_literalTokens text).symm
  | hole id => cases h (.hole id) (List.mem_singleton_self _)
  | whitespace => rfl

theorem placeholderAll_eq {ns : List Node} (h : ∀ token ∈ tokensAll [] ns, token.isPlain = true) :
    placeholderAll ns = Token.textAll (tokensAll [] ns) :=
  placeholderAll_eq_of_forall (fun n _ => placeholder_eq n) h

end Node

/-! ## Reading a sentence -/

section
variable {tokens : List Token}

/-- A hole would bring in a sigil. -/
theorem Sentence.isPlain_of_mem (h : Sentence (Token.textAll tokens).toList)
    (hunmarked : Unmarked (Token.textAll tokens).toList) :
    ∀ token ∈ tokens, token.isPlain = true := by
  intro token hmem
  have hpiece := Token.text_infix_of_mem hmem
  cases token with
  | repeatOpen marker =>
      rw [Token.text, String.toList_ofList] at hpiece
      exact absurd hpiece (hunmarked marker)
  | hole id =>
      rw [Token.toList_text_hole] at hpiece
      exact absurd (hpiece.subset List.mem_cons_self) h.sigil_not_mem
  | _ => rfl

theorem SingleSpaced.head?_ne_gap (h : SingleSpaced (Token.textAll tokens).toList) :
    tokens.head? ≠ some .gap := by
  intro hgap
  obtain ⟨more, rfl⟩ := List.head?_eq_some_iff.1 hgap
  have hhead : (Token.textAll (.gap :: more)).toList.head? = some ' ' := by
    rw [Token.textAll, String.toList_append]
    rfl
  exact absurd (h.head ' ' hhead) (by decide)

theorem SingleSpaced.getLast?_ne_gap (h : SingleSpaced (Token.textAll tokens).toList) :
    tokens.getLast? ≠ some .gap := by
  intro hgap
  obtain ⟨front, rfl⟩ := List.getLast?_eq_some_iff.1 hgap
  have hlast : (Token.textAll (front ++ [.gap])).toList.getLast? = some ' ' := by
    rw [Token.textAll_append, String.toList_append]
    exact List.getLast?_concat
  exact absurd (h.last ' ' hlast) (by decide)

end

/-- A sentence in which no repetition is opened has a tree that shows it. -/
theorem Sentence.exists_parseTree {text : String} (h : Sentence text.toList)
    (hunmarked : Unmarked text.toList) :
    ∃ root, parseTree text = .ok root ∧ Node.placeholderAll root = text := by
  obtain ⟨root, hroot⟩ := report?_eq_none_iff.1 (h.report?_eq_none hunmarked)
  obtain ⟨lexemes, hlex, hwhole⟩ := parseTree_eq_ok_iff.1 hroot
  have hkept := (hwhole.kept_eq (apart_of_lex hlex).valid).symm
  have hspelled := spelled_of_lexFrom (lexFrom_of_lex hlex)
  generalize lexemes.map Lexeme.token = tokens at hkept hspelled
  have htext : (Token.textAll tokens).toList = text.toList :=
    hspelled.toList_textAll fun run hrun hgap => h.singleSpaced.eq_space hgap.1 hrun hgap.2
  rw [← htext] at h hunmarked
  have hplain := h.isPlain_of_mem hunmarked
  have hspaced := h.singleSpaced
  -- No gap is at an end, so the tree has all the tokens.
  rw [kept_edge_eq_self hplain hspaced.head?_ne_gap hspaced.getLast?_ne_gap] at hkept
  refine ⟨root, hroot, ?_⟩
  rw [Node.placeholderAll_eq (by rwa [hkept]), hkept, ← String.toList_inj, htext]

/-! ## Whole notations -/

namespace Notation

theorem sentence_placeholder {table : ShorthandTable} {source : String} {form : Notation}
    (h : Notation.parse table source = .ok form) : Sentence form.placeholder.toList := by
  obtain ⟨body, back, hbody, happart⟩ := derives_of_parse h
  exact hbody.shows happart.valid

/-- Every built-in shorthand holds a sigil. -/
theorem apply_builtin_of_sigil_not_mem {text : String} (h : '@' ∉ text.toList) :
    ShorthandTable.builtin.apply text = text := by
  apply ShorthandTable.apply_of_not_occurs
  have hsigil : ∀ entry ∈ ShorthandTable.builtin, '@' ∈ entry.source.toList := by decide
  intro entry hentry hoccurs
  exact h (hoccurs.subset (hsigil entry hentry))

/-- Placeholder text is a fixed point of reading it.  The placeholder text of a
notation that is read, with any table of shorthands, is a notation itself unless a
repetition is opened in it: no shorthand is in it, and it is its own placeholder
text. -/
theorem reread_placeholder {table : ShorthandTable} {source : String} {form : Notation}
    (h : Notation.parse table source = .ok form)
    (hopener : ∀ opener ∈ ["\x7b+", "\x7b*", "\x7b?"], ¬ Occurs opener form.placeholder) :
    ∃ form', Notation.parse .builtin form.placeholder = .ok form' ∧
      form'.substituted = form.placeholder ∧ form'.placeholder = form.placeholder := by
  have hsentence := sentence_placeholder h
  have hunmarked : Unmarked form.placeholder.toList := by
    intro marker
    cases marker with
    | optional => exact hopener "\x7b?" (by simp)
    | zeroOrMore => exact hopener "\x7b*" (by simp)
    | oneOrMore => exact hopener "\x7b+" (by simp)
  obtain ⟨root, hroot, hshown⟩ := hsentence.exists_parseTree hunmarked
  refine ⟨⟨form.placeholder, form.placeholder, root⟩, ?_, rfl, hshown⟩
  rw [Notation.parse, apply_builtin_of_sigil_not_mem hsentence.sigil_not_mem, hroot]
  rfl

/-- The repetitions are gone when the text is read again.  What was an alternative
and a pipe that was text after it are one alternative then, and a pipe that was a
separator is text. -/
theorem reread_placeholder_glued :
    let form : Notation := ⟨" \x7b+| \x7b@x\t\x7d\x7d|a\x7b*; |b\x7d",
      " \x7b+| \x7b@x\t\x7d\x7d|a\x7b*; |b\x7d",
      [.alternative
        [.repetition .oneOrMore (some "|") [.curlies [.hole "x", .whitespace]], .atomic "a"],
        .repetition .zeroOrMore (some ";") [.atomic "|", .atomic "b"]]⟩
    Notation.parse .builtin form.source = .ok form ∧
      (∀ opener ∈ ["\x7b+", "\x7b*", "\x7b?"], ¬ Occurs opener form.placeholder) ∧
      form.placeholder = "\x7b‘x’ \x7d| …| \x7b‘x’ \x7d|a|b" ∧
      ∃ form', Notation.parse .builtin form.placeholder = .ok form' ∧
        form'.substituted = form.placeholder ∧ form'.placeholder = form.placeholder := by
  intro form
  have hparse : Notation.parse .builtin form.source = .ok form := by decide +kernel
  have htext : form.placeholder = "\x7b‘x’ \x7d| …| \x7b‘x’ \x7d|a|b" := by decide +kernel
  have hopener : ∀ opener ∈ ["\x7b+", "\x7b*", "\x7b?"], ¬ Occurs opener form.placeholder := by
    rw [htext]
    unfold Occurs
    decide +kernel
  exact ⟨hparse, hopener, htext, reread_placeholder hparse hopener⟩

end Notation
end TacticNotation
