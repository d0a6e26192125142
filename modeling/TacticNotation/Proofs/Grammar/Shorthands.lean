import TacticNotation.Notation
import TacticNotation.Proofs.Grammar.Printing
import TacticNotation.Proofs.Token.Replacing

/-!
# Expanding shorthands in the text and in the tree

The built-in shorthands are expanded in the text before anything is read.  Here
they are expanded in a tree instead, hole by hole (`Node.expand`), and where the
text as it was written is a notation the two agree.

What an expansion stands for depends on where it stands: the two branches of
`@qualid_or_string` are branches of the alternative that the hole was a branch
of, and an alternative of their own elsewhere.  So what is shown of a primary is
that it becomes the first branches of a `Chain`, whatever branches come after it.
-/

namespace TacticNotation

/-! ## Expansion in a tree -/

namespace Node

/-- What `@bindings_list` stands for. -/
def bindingsList : Node :=
  .repetition .oneOrMore none
    [.atomic "(", .hole "id", .whitespace, .atomic ":=", .whitespace, .hole "val", .atomic ")"]

mutual
/-- A node with the shorthands in it expanded. -/
def expand : Node → Node
  | .sequence children => .sequence (expandAll children)
  | .repetition marker separator body => .repetition marker separator (expandAll body)
  | .curlies body => .curlies (expandAll body)
  | .alternative branches => .alternative (expandBranches branches)
  | .atomic text => .atomic text
  | .hole id =>
      if id = "bindings_list" then bindingsList
      else if id = "qualid_or_string" then .alternative [.hole "id", .hole "string"]
      else .hole id
  | .whitespace => .whitespace
/-- Nodes with the shorthands in them expanded. -/
def expandAll : List Node → List Node
  | [] => []
  | n :: ns => expand n :: expandAll ns
/-- Branches with the shorthands in them expanded; one of them is expanded to two
branches. -/
def expandBranches : List Node → List Node
  | [] => []
  | n :: ns =>
      if n = .hole "qualid_or_string" then .hole "id" :: .hole "string" :: expandBranches ns
      else expand n :: expandBranches ns
end

/-- Branches as one node: an alternative if there are several. -/
def joined : List Node → Node
  | [n] => n
  | ns => .alternative ns

theorem expandAll_append (front back : List Node) :
    expandAll (front ++ back) = expandAll front ++ expandAll back := by
  induction front with
  | nil => rfl
  | cons n front ih => rw [List.cons_append, expandAll, expandAll, ih, List.cons_append]

theorem expandAll_gapNodes (present : Bool) :
    expandAll (Grammar.gapNodes present) = Grammar.gapNodes present := by
  cases present with
  | true => rfl
  | false => rfl

theorem expandBranches_append (front back : List Node) :
    expandBranches (front ++ back) = expandBranches front ++ expandBranches back := by
  induction front with
  | nil => rfl
  | cons n front ih =>
      rw [List.cons_append, expandBranches, expandBranches, ih]
      split <;> rfl

theorem expandBranches_singleton {n : Node} (h : n ≠ .hole "qualid_or_string") :
    expandBranches [n] = [expand n] := if_neg h

/-- A node is expanded to its branches as one node. -/
theorem joined_expandBranches_singleton (n : Node) : joined (expandBranches [n]) = expand n := by
  rw [expandBranches]
  split
  · next hn =>
    rw [hn]
    rfl
  · rfl

theorem joined_expandBranches (n other : Node) (ns : List Node) :
    joined (expandBranches (n :: other :: ns)) = expand (.alternative (n :: other :: ns)) := by
  rw [expand, expandBranches, expandBranches]
  split <;> split <;> rfl

end Node

namespace Grammar

/-! ## Expansion of tokens -/

/-- The tokens that `@bindings_list` stands for. -/
def bindingsTokens : List Token :=
  [.repeatOpen .oneOrMore, .gap, .atom "(", .hole "id", .gap, .atom ":=", .gap, .hole "val",
    .atom ")", .gap, .braceClose]

/-- The tokens that `@qualid_or_string` stands for. -/
def eitherTokens : List Token := [.hole "id", .pipe, .hole "string"]

/-- The tokens that a token stands for. -/
def expandToken : Token → List Token
  | .hole id =>
      if id = "bindings_list" then bindingsTokens
      else if id = "qualid_or_string" then eitherTokens
      else [.hole id]
  | token => [token]

theorem flatMap_expandToken_gapTokens (present : Bool) :
    (gapTokens present).flatMap expandToken = gapTokens present := by
  cases present with
  | true => rfl
  | false => rfl

theorem flatMap_expandToken_pipeTokens (count : Nat) :
    (pipeTokens count).flatMap expandToken = pipeTokens count := by
  induction count with
  | zero => rfl
  | succ count ih =>
      rw [pipeTokens, List.replicate_succ, List.flatMap_cons, ← pipeTokens, ih]
      rfl

theorem Separates.flatMap_expandToken {sep following : List Token} {separator : Option String}
    (h : Separates sep separator following) : sep.flatMap expandToken = sep := by
  cases h with
  | none => rfl
  | atom text => rfl
  | pipes count => exact flatMap_expandToken_pipeTokens (count + 1)

/-- An expansion is the token itself, or it stands for a hole and begins with
another primary that is no atom. -/
theorem expandToken_cases (token : Token) :
    expandToken token = [token] ∨ ∃ id next after, token = .hole id ∧
      expandToken token = next :: after ∧ next.startsPrimary = true ∧
      separatorAhead (next :: after) = false := by
  cases token with
  | hole id =>
      rw [expandToken]
      split
      · exact Or.inr ⟨id, _, _, rfl, rfl, rfl, rfl⟩
      · split
        · exact Or.inr ⟨id, _, _, rfl, rfl, rfl, rfl⟩
        · exact Or.inl rfl
  | _ => exact Or.inl rfl

/-- The grammar cannot tell an expansion by looking ahead. -/
theorem Alike.expand {rest rest' : List Token} (h : Alike rest rest') (taken : List Token) :
    Alike (taken ++ rest) (taken.flatMap expandToken ++ rest') := by
  induction taken with
  | nil => exact h
  | cons token taken ih =>
      rw [List.flatMap_cons, List.append_assoc]
      rcases expandToken_cases token with hsame | ⟨id, next, after, rfl, hnext, hstarts, -⟩
      · rw [hsame]
        exact ih.cons token
      · rw [hnext]
        exact .of_startsPrimary rfl hstarts

theorem separatorAhead_cons (token : Token) (after after' : List Token) :
    separatorAhead (token :: after) = separatorAhead (token :: after') := by
  cases token <;> rfl

/-- The same separator stands before an expansion. -/
theorem Separates.expand {sep taken rest rest' : List Token} {separator : Option String}
    (h : Separates sep separator (taken ++ rest)) (hrest : Alike rest rest') (hne : taken ≠ []) :
    Separates sep separator (taken.flatMap expandToken ++ rest') := by
  cases h with
  | none hahead =>
      cases taken with
      | nil => exact absurd rfl hne
      | cons token taken =>
          rw [List.flatMap_cons, List.append_assoc]
          rcases expandToken_cases token with hsame | ⟨id, next, after, rfl, hnext, -, hnone⟩
          · rw [hsame]
            exact .none ((separatorAhead_cons token _ _).trans hahead)
          · rw [hnext]
            exact .none ((separatorAhead_cons next _ _).trans hnone)
  | atom text => exact .atom text _
  | pipes count hhead => exact .pipes count fun hpipe => hhead ((hrest.expand taken).pipe.1 hpipe)

/-! ## Chains -/

/-- The tokens are one branch or several, each but the first after a pipe. -/
def Chain (taken : List Token) (nodes : List Node) (rest : List Token) : Prop :=
  ∃ front back first others, taken = front ++ back ∧ nodes = first :: others ∧
    Derives .primary front [first] (back ++ rest) ∧ Derives .branches back others rest

namespace Chain

variable {taken rest : List Token} {nodes : List Node}

theorem of_primary {more tail : List Token} {first : Node} {others : List Node}
    (hfirst : Derives .primary taken [first] (more ++ tail))
    (hmore : Derives .branches more others tail) :
    Chain (taken ++ more) (first :: others) tail :=
  ⟨taken, more, first, others, rfl, rfl, hfirst, hmore⟩

theorem unit (h : Chain taken nodes rest) : Derives .unit taken [Node.joined nodes] rest := by
  obtain ⟨front, back, first, others, rfl, rfl, hfirst, hothers⟩ := h
  cases others with
  | nil =>
      obtain ⟨rfl, hglued⟩ := hothers.branches_nil
      rw [List.append_nil]
      exact .single hfirst hglued
  | cons other others => exact .alternative hfirst hothers

theorem branches (h : Chain taken nodes rest) : Derives .branches (.pipe :: taken) nodes rest := by
  obtain ⟨front, back, first, others, rfl, rfl, hfirst, hothers⟩ := h
  exact .branch hfirst hothers

end Chain

/-! ## The same pieces -/

theorem derives_bindingsTokens (rest : List Token) :
    Derives .primary bindingsTokens [Node.bindingsList] rest := by
  have hclose : Derives .more [] [] (.gap :: .braceClose :: rest) := .noMore rfl
  have hparen : Derives .more [.atom ")"] [.atomic ")"] (.gap :: .braceClose :: rest) :=
    .more false (.single (.atom ")" _) rfl) hclose
  have hval : Derives .more [.gap, .hole "val", .atom ")"]
      [.whitespace, .hole "val", .atomic ")"] (.gap :: .braceClose :: rest) :=
    .more true (.single (.hole "val" _) rfl) hparen
  have hassign : Derives .more [.gap, .atom ":=", .gap, .hole "val", .atom ")"]
      [.whitespace, .atomic ":=", .whitespace, .hole "val", .atomic ")"]
      (.gap :: .braceClose :: rest) :=
    .more true (.single (.atom ":=" _) rfl) hval
  have hid : Derives .more [.hole "id", .gap, .atom ":=", .gap, .hole "val", .atom ")"]
      [.hole "id", .whitespace, .atomic ":=", .whitespace, .hole "val", .atomic ")"]
      (.gap :: .braceClose :: rest) :=
    .more false (.single (.hole "id" _) rfl) hassign
  exact .repetition .oneOrMore true true (.none rfl) (.blocks (.single (.atom "(" _) rfl) hid)

/-- What is shown of a piece: with the shorthands expanded it is a piece of the
same kind, wherever what is ahead looks alike.  A primary can become several
branches, and those after it go on from them. -/
def Expands : Part → (taken : List Token) → List Node → (rest : List Token) → Prop
  | .primary, taken, nodes, rest =>
      ∀ more others tail, Alike rest (more ++ tail) → Derives .branches more others tail →
        Chain (taken.flatMap expandToken ++ more) (Node.expandBranches nodes ++ others) tail
  | .branches, taken, nodes, rest =>
      ∀ rest', Alike rest rest' →
        Derives .branches (taken.flatMap expandToken) (Node.expandBranches nodes) rest'
  | part, taken, nodes, rest =>
      ∀ rest', Alike rest rest' →
        Derives part (taken.flatMap expandToken) (Node.expandAll nodes) rest'

theorem Derives.expands {part : Part} {taken rest : List Token} {nodes : List Node}
    (h : Derives part taken nodes rest) : Expands part taken nodes rest := by
  induction h with
  | atom text =>
      intro more others tail _ hmore
      exact .of_primary (.atom text _) hmore
  | hole id =>
      intro more others tail _ hmore
      rw [List.flatMap_singleton, expandToken]
      by_cases hbindings : id = "bindings_list"
      · rw [if_pos hbindings, hbindings]
        exact .of_primary (derives_bindingsTokens _) hmore
      · rw [if_neg hbindings]
        by_cases heither : id = "qualid_or_string"
        · rw [if_pos heither, heither]
          have hstring : Derives .branches (.pipe :: ([.hole "string"] ++ more))
              (.hole "string" :: others) tail := .branch (.hole "string" _) hmore
          have hchain := Chain.of_primary (.hole "id" _) hstring
          exact hchain
        · have hne : Node.hole id ≠ .hole "qualid_or_string" := by simpa using heither
          rw [if_neg heither, Node.expandBranches_singleton hne, Node.expand, if_neg hbindings,
            if_neg heither]
          exact .of_primary (.hole id _) hmore
  | @repetition marker sep body separator nodes rest front back hsep hbody ih =>
      intro more others tail hrest hmore
      have hclose := Alike.close back back rest (more ++ tail)
      have hsep' : Separates sep separator (gapTokens front ++ (body.flatMap expandToken ++
          (gapTokens back ++ .braceClose :: (more ++ tail)))) := by
        have hne := hbody.ne_nil (Or.inr (Or.inr rfl))
        rw [← List.append_assoc] at hsep
        have hexpand := hsep.expand hclose (List.append_ne_nil_of_right_ne_nil _ hne)
        rwa [List.flatMap_append, flatMap_expandToken_gapTokens, List.append_assoc] at hexpand
      have hgroup := Derives.repetition marker front back hsep' (ih _ hclose)
      rw [Node.expandBranches_singleton (by simp), Node.expand]
      simp only [List.flatMap_cons, List.flatMap_append, List.flatMap_nil, expandToken,
        flatMap_expandToken_gapTokens, hsep.flatMap_expandToken, List.singleton_append]
      exact .of_primary hgroup hmore
  | @curlies body nodes rest front back hbody ih =>
      intro more others tail hrest hmore
      have hclose := Alike.close back back rest (more ++ tail)
      have hgroup := Derives.curlies front back (ih _ hclose)
      rw [Node.expandBranches_singleton (by simp), Node.expand, Node.expandAll_append,
        Node.expandAll_append, Node.expandAll_gapNodes, Node.expandAll_gapNodes]
      simp only [List.flatMap_cons, List.flatMap_append, List.flatMap_nil, expandToken,
        flatMap_expandToken_gapTokens, List.singleton_append]
      exact .of_primary hgroup hmore
  | noBranch hglued => exact fun rest' hrest => .noBranch (hrest.glued.trans hglued)
  | @branch taken more rest node nodes hbranch hmore ihBranch ihMore =>
      intro rest' hrest
      have hchain := ihBranch _ _ _ (hrest.expand more) (ihMore rest' hrest)
      rw [← Node.expandBranches_append, ← List.flatMap_append] at hchain
      exact hchain.branches
  | @single taken rest node hnode hglued ih =>
      intro rest' hrest
      have hchain := ih [] [] rest' hrest (.noBranch (hrest.glued.trans hglued))
      rw [List.append_nil, List.append_nil] at hchain
      have hunit := hchain.unit
      rw [Node.joined_expandBranches_singleton] at hunit
      exact hunit
  | @alternative taken more rest node other nodes hfirst hmore ihFirst ihMore =>
      intro rest' hrest
      have hchain := ihFirst _ _ _ (hrest.expand more) (ihMore rest' hrest)
      rw [← Node.expandBranches_append] at hchain
      have hunit := hchain.unit
      rw [List.singleton_append, Node.joined_expandBranches, ← List.flatMap_append] at hunit
      exact hunit
  | pipes count hhead =>
      intro rest' hrest
      rw [flatMap_expandToken_pipeTokens]
      exact .pipes count fun hpipe => hhead (hrest.pipe.1 hpipe)
  | noMore hahead => exact fun rest' hrest => .noMore (hrest.ahead.trans hahead)
  | @more taken more rest node nodes gap hunit hmore ihUnit ihMore =>
      intro rest' hrest
      have hunit' := ihUnit _ (hrest.expand more)
      rw [List.flatMap_append, List.flatMap_append, flatMap_expandToken_gapTokens,
        Node.expandAll_append, Node.expandAll_gapNodes]
      exact .more gap hunit' (ihMore rest' hrest)
  | @blocks taken more rest node nodes hunit hmore ihUnit ihMore =>
      intro rest' hrest
      have hunit' := ihUnit _ (hrest.expand more)
      rw [List.flatMap_append]
      exact .blocks hunit' (ihMore rest' hrest)

/-! ## Whole notations -/

theorem Whole.expand {tokens : List Token} {nodes : List Node} (h : Whole tokens nodes) :
    Whole (tokens.flatMap expandToken) (Node.expandAll nodes) := by
  obtain ⟨front, body, back, rfl, hbody⟩ := h
  refine ⟨front, body.flatMap expandToken, back, ?_, hbody.expands _ (.refl _)⟩
  rw [List.flatMap_append, List.flatMap_append, flatMap_expandToken_gapTokens,
    flatMap_expandToken_gapTokens]

theorem standalone_bindingsTokens : Standalone bindingsTokens := by
  constructor
  · exact List.cons_ne_nil _ _
  · decide
  · rintro next ⟨⟩ token
    cases token <;> rfl
  · rintro token ⟨⟩ c htakes
    cases htakes

theorem standalone_eitherTokens : Standalone eitherTokens := by
  constructor
  · exact List.cons_ne_nil _ _
  · decide
  · rintro next ⟨⟩ token
    cases token <;> rfl
  · rintro token ⟨⟩ c htakes
    exact htakes

/-- Both shorthands, one after the other. -/
theorem replaceHole_replaceHole (token : Token) :
    (token.replaceHole "bindings_list" bindingsTokens).flatMap
      (Token.replaceHole "qualid_or_string" eitherTokens) = expandToken token := by
  cases token with
  | hole id =>
      by_cases hbindings : id = "bindings_list"
      · rw [hbindings]
        rfl
      · rw [Token.replaceHole, if_neg hbindings, List.flatMap_singleton, Token.replaceHole,
          expandToken, if_neg hbindings]
  | _ => rfl

/-- Where a text is a notation before its shorthands are expanded, expanding them
in the text and expanding them in the tree are the same, unless a hole only
begins with the name of a shorthand. -/
theorem parse_builtin_eq_expandAll {source : String} {root : List Node}
    (h : parseTree source = .ok root)
    (hbindings : ∀ id ∈ holeNames source, ¬ IsProperPrefix "bindings_list" id)
    (heither : ∀ id ∈ holeNames source, ¬ IsProperPrefix "qualid_or_string" id) :
    Notation.parse ShorthandTable.builtin source =
      .ok ⟨source, ShorthandTable.builtin.apply source, Node.expandAll root⟩ := by
  obtain ⟨lexemes, hlex, hwhole⟩ := parseTree_eq_ok_iff.1 h
  obtain ⟨lexemes₁, hlex₁, hmap₁⟩ := lex_replaceAll (by decide) standalone_bindingsTokens hlex
    fun id hid => hbindings id ((mem_holeNames hlex).2 hid)
  -- The first expansion brings in no hole that only begins like the second shorthand.
  have hlonger (id : String) (hid : .hole id ∈ lexemes₁.map Lexeme.token) :
      ¬ IsProperPrefix "qualid_or_string" id := by
    rw [hmap₁] at hid
    rcases Token.mem_flatMap_replaceHole hid with hid | hid
    · exact heither id ((mem_holeNames hlex).2 hid)
    · have hcases : id = "id" ∨ id = "val" := by simpa [bindingsTokens] using hid
      rcases hcases with rfl | rfl <;> decide
  obtain ⟨lexemes₂, hlex₂, hmap₂⟩ :=
    lex_replaceAll (by decide) standalone_eitherTokens hlex₁ hlonger
  have htokens : lexemes₂.map Lexeme.token =
      (lexemes.map Lexeme.token).flatMap expandToken := by
    rw [hmap₂, hmap₁, List.flatMap_assoc]
    simp only [replaceHole_replaceHole]
  have hparse : parseTree (ShorthandTable.builtin.apply source) = .ok (Node.expandAll root) := by
    refine parseTree_eq_ok_iff.2 ⟨lexemes₂, hlex₂, ?_⟩
    rw [htokens]
    exact hwhole.expand
  rw [Notation.parse, hparse]
  rfl

/-- A hole is expanded inside a repetition, as a branch and as a unit of its
own. -/
theorem parse_builtin_eq_expandAll_branches :
    Notation.parse ShorthandTable.builtin
        "\x7b*, @bindings_list\x7d @x|@qualid_or_string @qualid_or_string" =
      .ok ⟨"\x7b*, @bindings_list\x7d @x|@qualid_or_string @qualid_or_string",
        "\x7b*, \x7b+ (@id := @val) \x7d\x7d @x|@id|@string @id|@string",
        [.repetition .zeroOrMore (some ",") [Node.bindingsList], .whitespace,
          .alternative [.hole "x", .hole "id", .hole "string"], .whitespace,
          .alternative [.hole "id", .hole "string"]]⟩ := by
  have hparse : parseTree "\x7b*, @bindings_list\x7d @x|@qualid_or_string @qualid_or_string" =
      .ok [.repetition .zeroOrMore (some ",") [.hole "bindings_list"], .whitespace,
        .alternative [.hole "x", .hole "qualid_or_string"], .whitespace,
        .hole "qualid_or_string"] := by decide +kernel
  have happly : ShorthandTable.builtin.apply
      "\x7b*, @bindings_list\x7d @x|@qualid_or_string @qualid_or_string" =
        "\x7b*, \x7b+ (@id := @val) \x7d\x7d @x|@id|@string @id|@string" := by decide +kernel
  have hnames : holeNames "\x7b*, @bindings_list\x7d @x|@qualid_or_string @qualid_or_string" =
      ["bindings_list", "x", "qualid_or_string", "qualid_or_string"] := by decide +kernel
  have hexpanded := parse_builtin_eq_expandAll hparse (by rw [hnames]; decide)
    (by rw [hnames]; decide)
  rw [happly] at hexpanded
  exact hexpanded

end Grammar
end TacticNotation
