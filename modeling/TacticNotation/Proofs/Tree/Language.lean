import Mathlib.Computability.Language
import TacticNotation.Proofs.Pattern.Spans
import TacticNotation.Proofs.Tree.Items

/-!
# The instances of a tree

`Node.language` is the set of texts that a tree describes, by recursion on the
tree and with no pattern in sight: rows are concatenated, alternatives united,
and the further occurrences of a repeated body are a Kleene star.  The items of
a tree span exactly the stretches of a text that are words of this language.
-/

namespace TacticNotation

open Relation (ReflTransGen)
open scoped Computability

/-! ## Classes of characters -/

/-- The words of one character of a class. -/
def letter (accepts : Char → Bool) : Language Char :=
  {word | ∃ c, word = [c] ∧ accepts c = true}

/-- The words, the empty one included, of characters of a class. -/
def wordsOf (accepts : Char → Bool) : Language Char :=
  {word | ∀ c ∈ word, accepts c = true}

/-- The words of at least one character, all of a class. -/
def someOf (accepts : Char → Bool) : Language Char :=
  {word | word ≠ [] ∧ ∀ c ∈ word, accepts c = true}

theorem mem_letter_mul {accepts : Char → Bool} {others : Language Char} {word : List Char} :
    word ∈ letter accepts * others ↔
      ∃ c rest, word = c :: rest ∧ accepts c = true ∧ rest ∈ others := by
  rw [Language.mem_mul]
  constructor
  · rintro ⟨_, ⟨c, rfl, hc⟩, rest, hrest, rfl⟩
    exact ⟨c, rest, rfl, hc, hrest⟩
  · rintro ⟨c, rest, rfl, hc, hrest⟩
    exact ⟨[c], ⟨c, rfl, hc⟩, rest, hrest, rfl⟩

theorem kstar_letter (accepts : Char → Bool) : (letter accepts)∗ = wordsOf accepts := by
  apply Language.ext
  intro word
  induction word with
  | nil => exact ⟨fun _ c hc => absurd hc List.not_mem_nil, fun _ => Language.nil_mem_kstar _⟩
  | cons c rest ih =>
      rw [← Language.one_add_self_mul_kstar_eq_kstar, Language.mem_add, mem_letter_mul]
      constructor
      · rintro (hnil | ⟨d, more, heq, hd, hmore⟩)
        · exact absurd hnil (List.cons_ne_nil c rest)
        · cases heq
          intro e he
          rcases List.mem_cons.1 he with rfl | he
          · exact hd
          · exact ih.1 hmore e he
      · intro hall
        refine Or.inr ⟨c, rest, rfl, hall c (by simp), ih.2 ?_⟩
        exact fun e he => hall e (List.mem_cons_of_mem c he)

theorem letter_mul_kstar (accepts : Char → Bool) :
    letter accepts * (letter accepts)∗ = someOf accepts := by
  apply Language.ext
  intro word
  rw [kstar_letter, mem_letter_mul]
  constructor
  · rintro ⟨c, rest, rfl, hc, hrest⟩
    refine ⟨List.cons_ne_nil c rest, ?_⟩
    intro d hd
    rcases List.mem_cons.1 hd with rfl | hd
    · exact hc
    · exact hrest d hd
  · rintro ⟨hne, hall⟩
    cases word with
    | nil => exact absurd rfl hne
    | cons c rest =>
        exact ⟨c, rest, rfl, hall c (by simp), fun d hd => hall d (List.mem_cons_of_mem c hd)⟩

/-! ## The language of a tree -/

namespace Node

/-- The characters that can fill a hole: all but the parentheses, the
semicolon, the period, the space and the line feed. -/
def isFilling (c : Char) : Bool := not (['(', ')', ';', '.', ' ', '\n'].contains c)

/-- Another occurrence of a body: a separator, one space if there is none, with
blanks on both sides, and then the body. -/
def another (separator : Option String) (body : Language Char) : Language Char :=
  wordsOf isBlank * {(separator.getD " ").toList} * wordsOf isBlank * body

mutual
/-- The texts that are instances of a node. -/
def language : Node → Language Char
  | .sequence children => languageAll children
  | .repetition .optional _ body => 1 + languageAll body
  | .repetition .zeroOrMore separator body =>
      (1 + languageAll body) * (another separator (languageAll body))∗
  | .repetition .oneOrMore separator body =>
      languageAll body * (another separator (languageAll body))∗
  | .curlies body => {['{']} * languageAll body * {['}']}
  | .alternative branches => languageAny branches
  | .atomic text => {text.toList}
  | .hole _ => someOf isFilling
  | .whitespace => someOf isBlank
/-- The texts that are instances of nodes in a row. -/
def languageAll : List Node → Language Char
  | [] => 1
  | n :: ns => language n * languageAll ns
/-- The texts that are instances of one of some nodes. -/
def languageAny : List Node → Language Char
  | [] => 0
  | n :: ns => language n + languageAny ns
end

end Node

/-! ## Words in a text -/

namespace Pattern

/-- The stretch of a text from the first position to the second is a word of a
language. -/
def Found (chars : List Char) (words : Language Char) (i j : Nat) : Prop :=
  ∃ word ∈ words, word <+: chars.drop i ∧ j = i + word.length

section
variable {chars : List Char} {i j : Nat}

theorem found_one : Found chars 1 i j ↔ i = j := by
  constructor
  · rintro ⟨word, hword, -, rfl⟩
    rw [(Language.mem_one word).1 hword]
    rfl
  · rintro rfl
    exact ⟨[], Language.nil_mem_one, List.nil_prefix, rfl⟩

theorem found_add {front back : Language Char} :
    Found chars (front + back) i j ↔ Found chars front i j ∨ Found chars back i j := by
  simp only [Found, Language.mem_add, or_and_right, exists_or]

/-- Two words stand one after the other precisely if the second stands where the
first ends. -/
theorem append_isPrefix_drop {u v : List Char} :
    u ++ v <+: chars.drop i ↔ u <+: chars.drop i ∧ v <+: chars.drop (i + u.length) := by
  constructor
  · rintro ⟨after, hafter⟩
    rw [List.append_assoc] at hafter
    refine ⟨⟨v ++ after, hafter⟩, after, ?_⟩
    rw [← List.drop_drop, ← hafter, List.drop_left]
  · rintro ⟨⟨s, hs⟩, t, ht⟩
    rw [← List.drop_drop, ← hs, List.drop_left] at ht
    exact ⟨t, by rw [List.append_assoc, ht, hs]⟩

theorem found_mul {front back : Language Char} :
    Found chars (front * back) i j ↔ ∃ k, Found chars front i k ∧ Found chars back k j := by
  constructor
  · rintro ⟨_, hword, hfound, rfl⟩
    obtain ⟨u, hu, v, hv, rfl⟩ := Language.mem_mul.1 hword
    obtain ⟨hfront, hback⟩ := append_isPrefix_drop.1 hfound
    exact ⟨i + u.length, ⟨u, hu, hfront, rfl⟩, v, hv, hback,
      by rw [List.length_append, Nat.add_assoc]⟩
  · rintro ⟨_, ⟨u, hu, hfront, rfl⟩, v, hv, hback, rfl⟩
    exact ⟨u ++ v, Language.append_mem_mul hu hv, append_isPrefix_drop.2 ⟨hfront, hback⟩,
      by rw [List.length_append, Nat.add_assoc]⟩

theorem found_kstar {words : Language Char} :
    Found chars words∗ i j ↔ ReflTransGen (Found chars words) i j := by
  constructor
  · rintro ⟨_, hword, hfound, rfl⟩
    obtain ⟨parts, rfl, hparts⟩ := Language.mem_kstar.1 hword
    clear hword
    -- One step of the chain for each part, from the first to the last.
    induction parts generalizing i with
    | nil => exact ReflTransGen.refl
    | cons part parts ih =>
        rw [List.flatten_cons] at hfound ⊢
        obtain ⟨hfirst, hmore⟩ := append_isPrefix_drop.1 hfound
        have hrest : ∀ p ∈ parts, p ∈ words := fun p hp => hparts p (List.mem_cons_of_mem part hp)
        have hchain := ih hrest hmore
        rw [List.length_append, ← Nat.add_assoc]
        exact ReflTransGen.head ⟨part, hparts part (by simp), hfirst, rfl⟩ hchain
  · intro h
    induction h using ReflTransGen.head_induction_on with
    | refl => exact ⟨[], Language.nil_mem_kstar words, List.nil_prefix, rfl⟩
    | head hfirst _ ih =>
        rw [← Language.one_add_self_mul_kstar_eq_kstar, found_add]
        exact Or.inr (found_mul.2 ⟨_, hfirst, ih⟩)

/-- A class of characters spans what its one-character words span. -/
theorem found_letter {accepts : Char → Bool} :
    Found chars (letter accepts) i j ↔ j = i + 1 ∧ ∃ c, chars[i]? = some c ∧ accepts c = true := by
  constructor
  · rintro ⟨_, ⟨c, rfl, hc⟩, ⟨after, hafter⟩, rfl⟩
    refine ⟨rfl, c, ?_, hc⟩
    rw [← List.head?_drop, ← hafter]
    rfl
  · rintro ⟨rfl, c, hat, hc⟩
    refine ⟨[c], ⟨c, rfl, hc⟩, ?_, rfl⟩
    rw [← List.head?_drop, List.head?_eq_some_iff] at hat
    obtain ⟨after, hafter⟩ := hat
    exact ⟨after, hafter.symm⟩

/-- The whole of a text is a word of a language precisely if the text is. -/
theorem found_whole {words : Language Char} :
    Found chars words 0 chars.length ↔ chars ∈ words := by
  constructor
  · rintro ⟨word, hword, hfound, hlength⟩
    rw [Nat.zero_add] at hlength
    rw [List.drop_zero] at hfound
    rwa [← hfound.eq_of_length hlength.symm]
  · intro h
    exact ⟨chars, h, by rw [List.drop_zero], by rw [Nat.zero_add]⟩

end

/-! ## Patterns and languages -/

/-- In every text the items, one after the other, span exactly the words of the
language. -/
def Means (items : List Pattern) (words : Language Char) : Prop :=
  ∀ chars i j, SpansJoin chars items i j ↔ Found chars words i j

namespace Means

variable {items more : List Pattern} {item : Pattern} {words others : Language Char}

theorem nil : Means [] 1 := by
  intro chars i j
  rw [found_one]
  rfl

theorem append (h : Means items words) (hmore : Means more others) :
    Means (items ++ more) (words * others) := by
  intro chars i j
  rw [spansJoin_append, found_mul]
  simp only [h chars, hmore chars]

theorem char (set : CharSet) : Means [.char set] (letter set.accepts) := by
  intro chars i j
  rw [spansJoin_singleton, found_letter]
  rfl

theorem group (h : Means items words) (captures : Bool) :
    Means [.group captures (ofItems items)] words := by
  intro chars i j
  rw [spansJoin_singleton, ← h chars i j, ← spans_ofItems]
  rfl

theorem opt (h : Means [item] words) : Means [.opt item] (1 + words) := by
  intro chars i j
  rw [spansJoin_singleton, found_add, found_one, ← h chars i j, spansJoin_singleton]
  rfl

/-- The spans of a single item, as a relation. -/
theorem spans_eq (h : Means [item] words) (chars : List Char) :
    Spans chars item = Found chars words := by
  funext i j
  rw [← h chars i j, spansJoin_singleton]

theorem star (h : Means [item] words) : Means [.star item] words∗ := by
  intro chars i j
  rw [spansJoin_singleton, found_kstar, ← h.spans_eq chars]
  rfl

theorem plus (h : Means [item] words) : Means [.plus item] (words * words∗) := by
  intro chars i j
  rw [spansJoin_singleton, found_mul]
  simp only [found_kstar, ← h.spans_eq chars]
  rfl

end Means
end Pattern

/-! ## The items of a tree -/

namespace Node

open Pattern (Means)

theorem means_literalItems (text : String) : Means (literalItems text) {text.toList} := by
  unfold literalItems
  induction text.toList with
  | nil => exact Means.nil
  | cons c rest ih =>
      have hcons : ({c :: rest} : Language Char) = letter (CharSet.literal c).accepts * {rest} := by
        apply Language.ext
        intro word
        rw [mem_letter_mul]
        constructor
        · rintro rfl
          exact ⟨c, rest, rfl, by simp [CharSet.accepts], rfl⟩
        · rintro ⟨d, more, rfl, hd, rfl⟩
          rw [CharSet.accepts, beq_iff_eq] at hd
          rw [hd]
          rfl
      rw [hcons]
      exact (Means.char _).append ih

theorem means_blanksItem : Means [blanksItem] (wordsOf isBlank) := by
  rw [← kstar_letter]
  exact (Means.char .blank).star

theorem means_holeItem : Means [holeItem] (someOf isFilling) := by
  have haccepts : (CharSet.listed true ['(', ')', ';', '.', ' ', '\n']).accepts = isFilling := by
    funext c
    rw [CharSet.accepts, isFilling, Bool.bne_true]
  rw [← letter_mul_kstar, ← haccepts]
  exact (Means.char _).plus.group true

theorem means_bodyItem {body : List Pattern} {words : Language Char} (h : Means body words) :
    Means [bodyItem body] words :=
  h.group true

theorem means_moreItem {body : List Pattern} {words : Language Char} (separator : Option String)
    (h : Means body words) : Means [moreItem separator body] (another separator words)∗ := by
  have hjoin : Means (joinItems separator)
      (wordsOf isBlank * {(separator.getD " ").toList} * wordsOf isBlank) := by
    rw [mul_assoc]
    exact means_blanksItem.append ((means_literalItems _).append means_blanksItem)
  exact (means_bodyItem (hjoin.append h)).star

theorem means_itemsAll {ns : List Node} (ih : ∀ n ∈ ns, Means n.items n.language) :
    Means (itemsAll ns) (languageAll ns) := by
  induction ns with
  | nil => exact Means.nil
  | cons n ns hns => exact (ih n (by simp)).append (hns fun m hm => ih m (by simp [hm]))

theorem spansChoice_branchItems {ns : List Node} (ih : ∀ n ∈ ns, Means n.items n.language)
    (chars : List Char) (i j : Nat) :
    Pattern.SpansChoice chars (branchItems ns) i j ↔
      Pattern.Found chars (languageAny ns) i j := by
  induction ns with
  | nil =>
      constructor
      · exact fun h => h.elim
      · rintro ⟨word, hword, -⟩
        exact absurd hword (Language.notMem_zero word)
  | cons n ns hns =>
      rw [branchItems, languageAny, Pattern.found_add, Pattern.SpansChoice,
        Pattern.spans_ofItems, ih n (by simp) chars i j, hns fun m hm => ih m (by simp [hm])]

/-! ## Trees whose alternatives have branches -/

mutual
/-- Whether every alternative in a node has at least one branch. -/
def isBranched : Node → Bool
  | .sequence children => isBranchedAll children
  | .repetition _ _ body => isBranchedAll body
  | .curlies body => isBranchedAll body
  | .alternative branches => !branches.isEmpty && isBranchedAll branches
  | .atomic _ | .hole _ | .whitespace => true
/-- Whether every alternative in a list of nodes has at least one branch. -/
def isBranchedAll : List Node → Bool
  | [] => true
  | n :: ns => isBranched n && isBranchedAll ns
end

theorem isBranchedAll_iff {ns : List Node} :
    isBranchedAll ns = true ↔ ∀ n ∈ ns, n.isBranched = true := by
  induction ns with
  | nil => simp [isBranchedAll]
  | cons n ns ih => simp [isBranchedAll, ih]

/-- The items of a node mean its language.  An alternative without branches
would have no instance, but its pattern matches the empty text. -/
theorem means_items (n : Node) (hn : n.isBranched = true) : Means n.items n.language := by
  induction n using Node.induct with
  | sequence children ih =>
      rw [isBranched, isBranchedAll_iff] at hn
      rw [items, language]
      exact means_itemsAll fun n hmem => ih n hmem (hn n hmem)
  | repetition marker separator body ih =>
      rw [isBranched, isBranchedAll_iff] at hn
      have hbody := means_itemsAll fun n hmem => ih n hmem (hn n hmem)
      cases marker with
      | optional =>
          rw [items, language]
          exact (means_bodyItem hbody).opt
      | zeroOrMore =>
          rw [items, language]
          exact (means_bodyItem hbody).opt.append (means_moreItem separator hbody)
      | oneOrMore =>
          rw [items, language]
          exact (means_bodyItem hbody).append (means_moreItem separator hbody)
  | curlies body ih =>
      rw [isBranched, isBranchedAll_iff] at hn
      have hbody := means_itemsAll fun n hmem => ih n hmem (hn n hmem)
      rw [items, language, mul_assoc]
      exact (means_literalItems "\x7b").append (hbody.append (means_literalItems "\x7d"))
  | alternative branches ih =>
      rw [isBranched, Bool.and_eq_true, isBranchedAll_iff] at hn
      cases branches with
      | nil => exact absurd hn.1 (by simp)
      | cons branch branches =>
          intro chars i j
          rw [items, language, Pattern.spansJoin_singleton]
          have hmeans : ∀ n ∈ branch :: branches, Means n.items n.language :=
            fun n hmem => ih n hmem (hn.2 n hmem)
          have hbranches := spansChoice_branchItems hmeans chars i j
          rw [← hbranches, branchItems, ← Pattern.spans_ofBranches]
          rfl
  | atomic text => exact means_literalItems text
  | hole id => exact means_holeItem
  | whitespace =>
      rw [items, language, ← letter_mul_kstar]
      exact (Means.char .blank).plus

end Node
end TacticNotation
