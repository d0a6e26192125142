import TacticNotation.Proofs.Token.Lexing
import TacticNotation.Shorthand

/-!
# Replacing a hole in a text

Replacing does not reach over a character that the replaced text does not hold,
and no more does a table of shorthands (`toList_apply_of_append_cons`).

To replace the text of a hole everywhere in a notation is to replace the hole
among its tokens (`Spelled.replaced`).  Two things can go wrong, and both are
ruled out: the text of the hole can be the start of a hole with a longer name,
and what is put in can join with what stands before or after it.
-/

namespace TacticNotation

/-- Whether a text starts with `front` and goes on after it. -/
def IsProperPrefix (front text : String) : Prop :=
  front.toList <+: text.toList ∧ front ≠ text

instance (front text : String) : Decidable (IsProperPrefix front text) :=
  inferInstanceAs (Decidable (_ ∧ _))

/-- The name of a hole. -/
def Token.holeName? : Token → Option String
  | .hole id => some id
  | _ => none

/-- The names of the holes in a text, if it splits into tokens. -/
def holeNames (source : String) : List String :=
  match lex source with
  | .ok lexemes => lexemes.filterMap fun lexeme => lexeme.token.holeName?
  | .error _ => []

theorem mem_holeNames {source : String} {lexemes : List Lexeme} (h : lex source = .ok lexemes)
    {id : String} : id ∈ holeNames source ↔ .hole id ∈ lexemes.map Lexeme.token := by
  have hname (token : Token) : token.holeName? = some id ↔ token = .hole id := by
    cases token <;> simp [Token.holeName?]
  rw [holeNames, h, List.mem_filterMap, List.mem_map]
  exact exists_congr fun lexeme => and_congr_right fun _ => hname lexeme.token

/-! ## Replacing characters -/

section
variable {first : Char} {more expansion : List Char}

theorem replaceChars_append {run : List Char} (h : ∀ c ∈ run, c ≠ first) (rest : List Char) :
    replaceChars first more expansion (run ++ rest) =
      run ++ replaceChars first more expansion rest := by
  induction run with
  | nil => rfl
  | cons c run ih =>
      obtain ⟨hc, hrun⟩ := List.forall_mem_cons.1 h
      rw [List.cons_append, replaceChars, if_neg hc, ih hrun, List.cons_append]

theorem replaceChars_found (rest : List Char) :
    replaceChars first more expansion (first :: (more ++ rest)) =
      expansion ++ replaceChars first more expansion rest := by
  rw [replaceChars, if_pos rfl]
  split
  · next rest' hdrop =>
    rw [List.append_cancel_left (dropFront?_eq_some_iff.1 hdrop)]
  · next hdrop =>
    rw [dropFront?_eq_some_iff.2 rfl] at hdrop
    cases hdrop

theorem replaceChars_passed {rest : List Char} (h : ∀ rest', rest ≠ more ++ rest') :
    replaceChars first more expansion (first :: rest) =
      first :: replaceChars first more expansion rest := by
  rw [replaceChars, if_pos rfl]
  split
  · next rest' hdrop => exact absurd (dropFront?_eq_some_iff.1 hdrop) (h rest')
  · rfl

/-- Replacing does not reach over a character that the replaced text does not
hold. -/
theorem replaceChars_append_cons {sep : Char} (hsep : sep ∉ first :: more)
    (front back : List Char) :
    replaceChars first more expansion (front ++ sep :: back) =
      replaceChars first more expansion front ++
        sep :: replaceChars first more expansion back := by
  obtain ⟨hfirst, hmore⟩ : sep ≠ first ∧ sep ∉ more := by simpa using hsep
  fun_induction replaceChars first more expansion front with
  | case1 =>
      rw [List.nil_append, List.nil_append, replaceChars, if_neg hfirst]
  | case2 rest rest' hdrop ih =>
      rw [dropFront?_eq_some_iff.1 hdrop, List.cons_append, List.append_assoc, replaceChars_found,
        ih, List.append_assoc]
  | case3 rest hdrop ih =>
      rw [List.cons_append, replaceChars_passed, ih, List.cons_append]
      intro rest' hsplit
      have hpassed (tail : List Char) : rest ≠ more ++ tail := by
        intro htail
        rw [dropFront?_eq_some_iff.2 htail] at hdrop
        cases hdrop
      -- The replaced text would end before the character or hold it.
      rcases List.append_eq_append_iff.1 hsplit with ⟨tail, htail, hcons⟩ | ⟨tail, htail, -⟩
      · cases tail with
        | nil => exact hpassed [] (by simpa using htail.symm)
        | cons c tail =>
            cases hcons
            exact hmore (by simp [htail])
      · exact hpassed tail htail
  | case4 c rest hc ih =>
      rw [List.cons_append, replaceChars, if_neg hc, ih, List.cons_append]

end

theorem toList_replaceAll_of_append_cons {source expansion text front back : String} {sep : Char}
    (hsep : sep ∉ source.toList) (h : text.toList = front.toList ++ sep :: back.toList) :
    (replaceAll source expansion text).toList =
      (replaceAll source expansion front).toList ++
        sep :: (replaceAll source expansion back).toList := by
  rw [replaceAll, replaceAll, replaceAll]
  cases hsource : source.toList with
  | nil => exact h
  | cons first more =>
      rw [hsource] at hsep
      simp only [String.toList_ofList, h, replaceChars_append_cons hsep]

namespace ShorthandTable

/-- A table expands what is before a character that no shorthand holds, and what
is after it, each by itself. -/
theorem toList_apply_of_append_cons {table : ShorthandTable} {sep : Char}
    (hsep : ∀ entry ∈ table, sep ∉ entry.source.toList) {text front back : String}
    (h : text.toList = front.toList ++ sep :: back.toList) :
    (table.apply text).toList =
      (table.apply front).toList ++ sep :: (table.apply back).toList := by
  induction table generalizing text front back with
  | nil => exact h
  | cons entry table ih =>
      obtain ⟨hentry, htable⟩ := List.forall_mem_cons.1 hsep
      exact ih htable (toList_replaceAll_of_append_cons hentry h)

theorem toList_apply_empty (table : ShorthandTable) : (table.apply "").toList = [] := by
  induction table with
  | nil => rfl
  | cons entry table ih =>
      have hempty : Shorthand.expand "" entry = "" := by
        rw [Shorthand.expand, replaceAll]
        cases entry.source.toList with
        | nil => rfl
        | cons first more => simp [replaceChars]
      rw [apply, List.foldl_cons, hempty]
      exact ih

end ShorthandTable

/-! ## Replacing tokens -/

/-- The tokens that stand for a token if holes called `name` are replaced. -/
def Token.replaceHole (name : String) (expansion : List Token) : Token → List Token
  | .hole id => if id = name then expansion else [.hole id]
  | token => [token]

/-- Tokens that can stand wherever a hole can: nothing takes up their start, and
their end takes up no more than a name does. -/
structure Standalone (expansion : List Token) : Prop where
  ne_nil : expansion ≠ []
  apart : Apart expansion
  first : ∀ next ∈ expansion.head?, ∀ token : Token, token.joins next = false
  last : ∀ token ∈ expansion.getLast?, ∀ c, token.takes c = true → isNameChar c = true

section
variable {name : String} {expansion : List Token}

theorem Token.replaceHole_self : replaceHole name expansion (.hole name) = expansion :=
  if_pos rfl

theorem Token.replaceHole_of_ne {token : Token} (h : token ≠ .hole name) :
    replaceHole name expansion token = [token] := by
  cases token with
  | hole id =>
      have hid : id ≠ name := by
        rintro rfl
        exact h rfl
      exact if_neg hid
  | _ => rfl

theorem Token.mem_flatMap_replaceHole {token : Token} {tokens : List Token}
    (h : token ∈ tokens.flatMap (replaceHole name expansion)) :
    token ∈ tokens ∨ token ∈ expansion := by
  obtain ⟨other, hother, hmem⟩ := List.mem_flatMap.1 h
  by_cases hhole : other = .hole name
  · rw [hhole, replaceHole_self] at hmem
    exact Or.inr hmem
  · rw [replaceHole_of_ne hhole, List.mem_singleton] at hmem
    rw [hmem]
    exact Or.inl hother

theorem joins_of_takes {token other next : Token}
    (h : ∀ c, token.takes c = true → other.takes c = true) (hother : other.joins next = false) :
    token.joins next = false := by
  rw [Token.joins, Option.any_eq_false] at hother ⊢
  intro c hc
  rw [Bool.eq_false_iff]
  intro htakes
  exact Bool.eq_false_iff.1 (hother c hc) (h c htakes)

/-- What is put in for a hole joins with what is before it no more than the hole
did. -/
theorem joins_replaceHole (h : Standalone expansion) {token : Token} {tokens : List Token}
    (hjoins : tokens.head?.any token.joins = false) :
    (tokens.flatMap (Token.replaceHole name expansion)).head?.any token.joins = false := by
  cases tokens with
  | nil => rfl
  | cons next tokens =>
      rw [List.flatMap_cons]
      by_cases hnext : next = .hole name
      · rw [hnext, Token.replaceHole_self]
        cases hexpansion : expansion with
        | nil => exact absurd hexpansion h.ne_nil
        | cons first more =>
            have hfirst : first ∈ expansion.head? := by
              rw [hexpansion]
              rfl
            exact h.first first hfirst token
      · rw [Token.replaceHole_of_ne hnext]
        exact hjoins

/-- Names end where the characters of names end. -/
theorem isPrefix_of_append_eq {accepts : Char → Bool} {run rest front rest' : List Char}
    (h : run ++ rest = front ++ rest') (hfront : ∀ c ∈ front, accepts c = true)
    (hrest : rest.head?.any accepts = false) : front <+: run := by
  rcases List.append_eq_append_iff.1 h with ⟨extra, rfl, rfl⟩ | ⟨extra, rfl, -⟩
  · cases extra with
    | nil => simp
    | cons c extra =>
        have hc : accepts c = true := hfront c (by simp)
        have hc' : accepts c = false := hrest
        rw [hc] at hc'
        cases hc'
  · exact List.prefix_append front extra

/-- A token that is not the hole keeps its spelling. -/
theorem replaceChars_spelling (hname : (Token.hole name).Valid) {token : Token}
    {run rest expanded : List Char} (hrun : token.Spells run)
    (hrest : rest.head?.any token.takes = false) (htoken : token ≠ .hole name)
    (hlonger : ∀ id, token = .hole id → ¬ IsProperPrefix name id) :
    replaceChars '@' name.toList expanded (run ++ rest) =
      run ++ replaceChars '@' name.toList expanded rest := by
  cases token with
  | hole id =>
      obtain ⟨⟨-, hall⟩, rfl⟩ := hrun
      have hpassed (rest' : List Char) : id.toList ++ rest ≠ name.toList ++ rest' := by
        intro heq
        refine hlonger id rfl ⟨isPrefix_of_append_eq heq hname.2 hrest, ?_⟩
        rintro rfl
        exact htoken rfl
      rw [Token.toList_text_hole, List.cons_append, replaceChars_passed hpassed,
        replaceChars_append (ne_sigil_of_isNameChar hall), List.cons_append]
  | _ => exact replaceChars_append (ne_sigil_of_spells hrun (by simp)) rest

/-- Replacing a hole in a text replaces it among the tokens. -/
theorem Spelled.replaced (hname : (Token.hole name).Valid)
    (hexpansion : Standalone expansion) {tokens : List Token} {chars : List Char}
    (h : Spelled tokens chars) (hlonger : ∀ id, .hole id ∈ tokens → ¬ IsProperPrefix name id) :
    Spelled (tokens.flatMap (Token.replaceHole name expansion))
      (replaceChars '@' name.toList (Token.textAll expansion).toList chars) := by
  induction h with
  | nil =>
      rw [replaceChars]
      exact .nil
  | @cons token tokens run rest hrun hrest htokens ih =>
      have hmore := ih fun id hid => hlonger id (List.mem_cons_of_mem _ hid)
      -- Nothing after the token begins with a character that the token would take.
      have hjoins : (tokens.flatMap (Token.replaceHole name expansion)).head?.any token.joins =
          false := by
        apply joins_replaceHole hexpansion
        rw [htokens.head?_any]
        exact hrest
      rw [List.flatMap_cons]
      by_cases htoken : token = .hole name
      · subst htoken
        obtain ⟨-, rfl⟩ := hrun
        rw [Token.replaceHole_self, Token.toList_text_hole, List.cons_append, replaceChars_found]
        refine hmore.append (apart_append.2 ⟨hexpansion.apart, hmore.apart, ?_⟩)
        intro last hlast next hnext
        rw [Option.any_eq_false] at hjoins
        have hhole : (Token.hole name).joins next = false := by simpa using hjoins next hnext
        have htakes : ∀ c, last.takes c = true → (Token.hole name).takes c = true :=
          hexpansion.last last hlast
        exact joins_of_takes htakes hhole
      · rw [Token.replaceHole_of_ne htoken, List.singleton_append]
        have hlongerToken (id : String) (hid : token = .hole id) : ¬ IsProperPrefix name id :=
          hlonger id (by rw [hid]; exact List.mem_cons_self)
        rw [replaceChars_spelling hname hrun hrest htoken hlongerToken]
        refine .cons hrun ?_ hmore
        rw [← hmore.head?_any]
        exact hjoins

theorem lex_replaceAll (hname : (Token.hole name).Valid)
    (hexpansion : Standalone expansion) {source : String} {lexemes : List Lexeme}
    (hlex : lex source = .ok lexemes)
    (hlonger : ∀ id, .hole id ∈ lexemes.map Lexeme.token → ¬ IsProperPrefix name id) :
    ∃ lexemes', lex (replaceAll ("@" ++ name) (Token.textAll expansion) source) = .ok lexemes' ∧
      lexemes'.map Lexeme.token =
        (lexemes.map Lexeme.token).flatMap (Token.replaceHole name expansion) := by
  have hspelled := spelled_of_lexFrom (lexFrom_of_lex hlex)
  obtain ⟨lexemes', hlexFrom, hmap⟩ :=
    (hspelled.replaced hname hexpansion hlonger).exists_lexFrom 0
  have hsource : ("@" ++ name).toList = '@' :: name.toList := by simp
  refine ⟨lexemes', ?_, hmap⟩
  rw [lex, replaceAll, hsource]
  simp only [String.toList_ofList, hlexFrom]

end
end TacticNotation
