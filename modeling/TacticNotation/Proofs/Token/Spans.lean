import TacticNotation.Proofs.Markup.Entities
import TacticNotation.Proofs.Token.Neighbours

/-!
# How the lexer cuts a text

A text in which a name follows every sigil is cut into slices, one for each token:
they lie directly one after the other from the first byte to the last, every cut is
a boundary between characters, and a slice is the longest piece of the text from
where it begins that is written as any token.  In every other text the first sigil
without a name is reported, at its one byte.

The proofs keep the characters that have been passed as a list (`Stands`), so the
offsets are sums of widths of characters and hence boundaries.
-/

namespace TacticNotation

/-! ## Slices -/

/-- The bytes of a text that a lexeme was read from, as text. -/
def Lexeme.slice (source : String) (lexeme : Lexeme) : String :=
  String.Pos.Raw.extract source ⟨lexeme.start⟩ ⟨lexeme.stop⟩

/-- Lexemes of at least one byte each that lie directly one after the other, from
byte `start` up to byte `stop`. -/
def Tiles (start : Nat) : List Lexeme → Nat → Prop
  | [], stop => start = stop
  | lexeme :: lexemes, stop =>
      lexeme.start = start ∧ lexeme.start < lexeme.stop ∧ Tiles lexeme.stop lexemes stop

/-- A lexeme is written in a text where it says, and no token is written there that
is longer. -/
structure Lexeme.IsLongest (source : String) (lexeme : Lexeme) : Prop where
  start_isValid : String.Pos.Raw.IsValid source ⟨lexeme.start⟩
  stop_isValid : String.Pos.Raw.IsValid source ⟨lexeme.stop⟩
  /-- A token is written in one way, except for blank space. -/
  text : lexeme.token ≠ .gap → lexeme.slice source = lexeme.token.text
  blanks : lexeme.token = .gap → ∀ c ∈ (lexeme.slice source).toList, isGap c = true
  longest : ∀ stop token, String.Pos.Raw.IsValid source ⟨stop⟩ →
    Token.Spells (String.Pos.Raw.extract source ⟨lexeme.start⟩ ⟨stop⟩).toList token →
      stop ≤ lexeme.stop

/-- The lexemes cut a text into its longest tokens. -/
structure Cuts (source : String) (lexemes : List Lexeme) : Prop where
  tiles : Tiles 0 lexemes source.utf8ByteSize
  join : String.join (lexemes.map (Lexeme.slice source)) = source
  isLongest : ∀ lexeme ∈ lexemes, lexeme.IsLongest source
  apart : lexemes.IsChain fun lexeme next => lexeme.token.runTogether next.token = false

/-! ## The longest token -/

namespace Token

/-- What is written as a token is the start of a longest token, which may be
another one: a marker can come after a brace. -/
theorem Spells.exists_longest {token : Token} {run : List Char} (h : Spells run token)
    (rest : List Char) :
    ∃ longest more rest', rest = more ++ rest' ∧ Spells (run ++ more) longest ∧
      rest'.head?.any longest.takes = false := by
  have hspan (accepts : Char → Bool) :
      rest = rest.takeWhile accepts ++ rest.dropWhile accepts ∧
        ∀ c ∈ rest.takeWhile accepts, accepts c = true :=
    ⟨List.takeWhile_append_dropWhile.symm, List.all_eq_true.1 List.all_takeWhile⟩
  have hcomplete (hspells : Spells run token) (htakes : ∀ c, token.takes c = false) :
      ∃ longest more rest', rest = more ++ rest' ∧ Spells (run ++ more) longest ∧
        rest'.head?.any longest.takes = false :=
    ⟨token, [], rest, rfl, by rwa [List.append_nil], any_head?_takes htakes rest⟩
  cases token with
  | repeatOpen marker => exact hcomplete h fun _ => rfl
  | braceClose => exact hcomplete h fun _ => rfl
  | pipe => exact hcomplete h fun _ => rfl
  | braceOpen =>
      obtain ⟨-, rfl⟩ := h
      by_cases hmarker : ∃ marker rest', rest = Marker.char marker :: rest'
      · obtain ⟨marker, rest', rfl⟩ := hmarker
        have htext : braceOpen.text.toList ++ [marker.char] = (repeatOpen marker).text.toList := by
          simp [text]
        exact ⟨.repeatOpen marker, [marker.char], rest', rfl, ⟨trivial, htext⟩,
          any_head?_takes (fun _ => rfl) rest'⟩
      · refine ⟨.braceOpen, [], rest, rfl, ⟨trivial, List.append_nil _⟩, ?_⟩
        cases rest with
        | nil => rfl
        | cons c rest' =>
            show (Marker.ofChar? c).isSome = false
            cases hc : Marker.ofChar? c with
            | none => rfl
            | some marker =>
                exact absurd ⟨marker, rest', by rw [Marker.ofChar?_eq_some_iff.1 hc]⟩ hmarker
  | hole id =>
      obtain ⟨⟨hne, hall⟩, rfl⟩ := h
      obtain ⟨hsplit, htaken⟩ := hspan isNameChar
      refine ⟨.hole (String.ofList (id.toList ++ rest.takeWhile isNameChar)), _, _, hsplit,
        ⟨⟨?_, ?_⟩, ?_⟩, any_head?_dropWhile isNameChar rest⟩
      · simp [hne]
      · simpa using List.forall_mem_append.2 ⟨hall, htaken⟩
      · simp [text]
  | gap =>
      obtain ⟨hne, hall⟩ := h
      obtain ⟨hsplit, htaken⟩ := hspan isGap
      exact ⟨.gap, _, _, hsplit, ⟨by simp [hne], List.forall_mem_append.2 ⟨hall, htaken⟩⟩,
        any_head?_dropWhile isGap rest⟩
  | atom text =>
      obtain ⟨⟨hne, hall⟩, rfl⟩ := h
      obtain ⟨hsplit, htaken⟩ := hspan isAtomChar
      refine ⟨.atom (String.ofList (text.toList ++ rest.takeWhile isAtomChar)), _, _, hsplit,
        ⟨⟨?_, ?_⟩, ?_⟩, any_head?_dropWhile isAtomChar rest⟩
      · simp [hne]
      · simpa using List.forall_mem_append.2 ⟨hall, htaken⟩
      · simp [Token.text]

/-- Where a token takes up nothing more, nothing longer is written as a token. -/
theorem Spells.eq_nil_of_append {token other : Token} {run more rest : List Char}
    (h : Spells run token) (hrest : (more ++ rest).head?.any token.takes = false)
    (hlonger : Spells (run ++ more) other) : more = [] := by
  obtain ⟨longest, extra, rest', rfl, hspells, hrest'⟩ := hlonger.exists_longest rest
  obtain ⟨c, tail, hrun, hread⟩ := read?_of_spells h hrest
  have hsplit : run ++ more ++ extra ++ rest' = c :: (tail ++ (more ++ (extra ++ rest'))) := by
    rw [hrun]
    simp
  -- The lexer reads one token there, so the longest one is the token itself.
  have hread' : read? c (tail ++ (more ++ (extra ++ rest'))) =
      some ⟨longest, run ++ more ++ extra, rest'⟩ :=
    read?_eq_some_iff.2 ⟨hsplit, hspells, hrest'⟩
  rw [hread, Option.some.injEq, Cut.mk.injEq] at hread'
  have hlength := congrArg List.length hread'.2.1
  simp only [List.length_append] at hlength
  exact List.length_eq_zero_iff.1 (by omega)

end Token

/-! ## Lexemes in their text -/

/-- A lexeme stands among some characters, and the character after it does not
belong to it. -/
def Stands (chars : List Char) (lexeme : Lexeme) : Prop :=
  ∃ before run after, chars = before ++ (run ++ after) ∧ lexeme.start = utf8Width before ∧
    lexeme.stop = utf8Width (before ++ run) ∧ lexeme.token.Spells run ∧
    after.head?.any lexeme.token.takes = false

theorem slice_of_append {source : String} {before run after : List Char} {lexeme : Lexeme}
    (hchars : source.toList = before ++ (run ++ after)) (hstart : lexeme.start = utf8Width before)
    (hstop : lexeme.stop = utf8Width (before ++ run)) : lexeme.slice source = String.ofList run := by
  rw [Lexeme.slice, hstart, hstop, ← String.ofList_toList (s := source), hchars]
  exact extract_between before run after

/-- A boundary further on is that of a longer front of the text. -/
theorem exists_append_of_isValid {source : String} {front back : List Char} {stop : Nat}
    (h : source.toList = front ++ back) (hstop : String.Pos.Raw.IsValid source ⟨stop⟩)
    (hle : utf8Width front ≤ stop) :
    ∃ more rest, back = more ++ rest ∧ stop = utf8Width (front ++ more) := by
  obtain ⟨first, last, rfl, hfirst⟩ := String.Pos.Raw.isValid_iff_exists_append.1 hstop
  have hwidth : stop = utf8Width first.toList := by
    rw [← utf8ByteSize_eq]
    exact congrArg String.Pos.Raw.byteIdx hfirst
  rw [String.toList_append] at h
  rcases List.append_eq_append_iff.1 h with ⟨more, hfront, hlast⟩ | ⟨more, hlonger, rfl⟩
  · -- The boundary would be in front, unless nothing is between.
    rw [hfront, utf8Width_append, hwidth] at hle
    have hnil : more = [] := utf8Width_eq_zero_iff.1 (by omega)
    subst hnil
    rw [List.append_nil] at hfront
    exact ⟨[], back, rfl, by rw [List.append_nil, hfront, hwidth]⟩
  · exact ⟨more, last.toList, rfl, by rw [hwidth, hlonger]⟩

theorem Stands.isLongest {source : String} {lexeme : Lexeme} (h : Stands source.toList lexeme) :
    lexeme.IsLongest source := by
  obtain ⟨before, run, after, hchars, hstart, hstop, hspells, hafter⟩ := h
  have hslice := slice_of_append hchars hstart hstop
  have hchars' : source.toList = (before ++ run) ++ after := by rw [hchars, List.append_assoc]
  constructor
  · rw [hstart]
    exact isValid_of_append hchars
  · rw [hstop]
    exact isValid_of_append hchars'
  · intro hgap
    rw [hslice, ← String.toList_inj, String.toList_ofList]
    exact hspells.eq_text hgap
  · intro hgap
    rw [hgap] at hspells
    rw [hslice, String.toList_ofList]
    exact hspells.2
  · intro stop token hvalid hlonger
    by_contra hlt
    rw [hstop, Nat.not_le] at hlt
    obtain ⟨more, rest, rfl, rfl⟩ := exists_append_of_isValid hchars' hvalid hlt.le
    have hslice' : Lexeme.slice source ⟨token, lexeme.start, utf8Width (before ++ run ++ more)⟩ =
        String.ofList (run ++ more) := by
      have hsplit : source.toList = before ++ (run ++ more ++ rest) := by
        rw [hchars, List.append_assoc]
      refine slice_of_append hsplit hstart ?_
      rw [List.append_assoc]
    rw [Lexeme.slice] at hslice'
    rw [hslice', String.toList_ofList] at hlonger
    have hnil := hspells.eq_nil_of_append hafter hlonger
    rw [hnil, List.append_nil] at hlt
    exact absurd hlt (Nat.lt_irrefl _)

/-- Behind what has been passed the lexemes lie one after the other and stand in the
text, and their slices are what was left of it. -/
theorem stands_of_lexFrom {front chars : List Char} {lexemes : List Lexeme}
    (h : lexFrom (utf8Width front) chars = .ok lexemes) :
    Tiles (utf8Width front) lexemes (utf8Width (front ++ chars)) ∧
      (∀ lexeme ∈ lexemes, Stands (front ++ chars) lexeme) ∧
      String.join (lexemes.map (Lexeme.slice (String.ofList (front ++ chars)))) =
        String.ofList chars := by
  induction lexemes generalizing front chars with
  | nil =>
      cases spelled_of_lexFrom h
      rw [List.append_nil]
      exact ⟨rfl, by simp, rfl⟩
  | cons first lexemes ih =>
      cases chars with
      | nil =>
          rw [lexFrom] at h
          cases h
      | cons c chars =>
          obtain ⟨cut, more, hread, hmore, heq⟩ := lexFrom_cons_eq_ok h
          cases heq
          obtain ⟨hsplit, hspells, hrest⟩ := Token.read?_eq_some_iff.1 hread
          rw [← utf8Width_append] at hmore ⊢
          obtain ⟨htiles, hstands, hjoin⟩ := ih hmore
          rw [List.append_assoc, hsplit] at htiles hstands hjoin
          have hwidth : 0 < utf8Width cut.run :=
            Nat.pos_of_ne_zero fun hzero => hspells.ne_nil (utf8Width_eq_zero_iff.1 hzero)
          have hsource : (String.ofList (front ++ c :: chars)).toList =
              front ++ (cut.run ++ cut.rest) := by rw [String.toList_ofList, hsplit]
          refine ⟨⟨rfl, ?_, htiles⟩, List.forall_mem_cons.2 ⟨?_, hstands⟩, ?_⟩
          · show utf8Width front < utf8Width (front ++ cut.run)
            rw [utf8Width_append]
            omega
          · exact ⟨front, cut.run, cut.rest, by rw [hsplit], rfl, rfl, hspells, hrest⟩
          · rw [List.map_cons, String.join_cons, hjoin, slice_of_append hsource rfl rfl,
              ← String.ofList_append, hsplit]

theorem cuts_of_lex {source : String} {lexemes : List Lexeme} (h : lex source = .ok lexemes) :
    Cuts source lexemes := by
  have hlexFrom : lexFrom (utf8Width []) source.toList = .ok lexemes := lexFrom_of_lex h
  obtain ⟨htiles, hstands, hjoin⟩ := stands_of_lexFrom hlexFrom
  rw [List.nil_append] at htiles hstands hjoin
  rw [String.ofList_toList] at hjoin
  constructor
  · rw [utf8ByteSize_eq]
    exact htiles
  · exact hjoin
  · exact fun lexeme hlexeme => (hstands lexeme hlexeme).isLongest
  · exact (List.isChain_map Lexeme.token).1 (apart_iff.1 (apart_of_lex h)).2

/-! ## Bare sigils -/

/-- After the characters `front` of a text stands a sigil that no character of a
name follows. -/
def BareSigil (chars front : List Char) : Prop :=
  ∃ rest, chars = front ++ '@' :: rest ∧ rest.head?.any isNameChar = false

/-- After the characters `front` of a text stands the first bare sigil. -/
structure FirstBareSigil (chars front : List Char) : Prop where
  bare : BareSigil chars front
  first : ∀ front', BareSigil chars front' → front.length ≤ front'.length

theorem not_bareSigil_nil (front : List Char) : ¬ BareSigil [] front := by
  rintro ⟨rest, hnil, -⟩
  exact absurd hnil (by simp)

theorem bareSigil_cons_iff {c : Char} {chars front : List Char} :
    BareSigil (c :: chars) front ↔
      (front = [] ∧ c = '@' ∧ chars.head?.any isNameChar = false) ∨
        ∃ front', front = c :: front' ∧ BareSigil chars front' := by
  constructor
  · rintro ⟨rest, hsplit, hrest⟩
    cases front with
    | nil =>
        cases hsplit
        exact Or.inl ⟨rfl, rfl, hrest⟩
    | cons d front' =>
        cases hsplit
        exact Or.inr ⟨front', rfl, rest, rfl, hrest⟩
  · rintro (⟨rfl, rfl, hrest⟩ | ⟨front', rfl, rest, rfl, hrest⟩)
    · exact ⟨chars, rfl, hrest⟩
    · exact ⟨rest, rfl, hrest⟩

/-- There is no bare sigil, or the search finds the first one. -/
theorem bareSigil?_cases (offset : Nat) (chars : List Char) :
    (bareSigil? offset chars = none ∧ ∀ front, ¬ BareSigil chars front) ∨
      ∃ front, bareSigil? offset chars = some (offset + utf8Width front) ∧
        FirstBareSigil chars front := by
  induction chars generalizing offset with
  | nil => exact Or.inl ⟨rfl, not_bareSigil_nil⟩
  | cons c chars ih =>
      by_cases hbare : c = '@' ∧ chars.head?.any isNameChar = false
      · obtain ⟨rfl, hname⟩ := hbare
        refine Or.inr ⟨[], ?_, ⟨⟨chars, rfl, hname⟩, fun _ _ => Nat.zero_le _⟩⟩
        simp [bareSigil?, hname]
      · have hskip : bareSigil? offset (c :: chars) = bareSigil? (offset + c.utf8Size) chars := by
          rw [bareSigil?]
          refine if_neg ?_
          simpa using hbare
        have hiff (front : List Char) : BareSigil (c :: chars) front ↔
            ∃ front', front = c :: front' ∧ BareSigil chars front' := by
          rw [bareSigil_cons_iff]
          exact or_iff_right fun h => hbare h.2
        rw [hskip]
        rcases ih (offset + c.utf8Size) with ⟨hnone, hall⟩ | ⟨front, hsome, hfirst⟩
        · refine Or.inl ⟨hnone, ?_⟩
          intro front h
          obtain ⟨front', -, hfront'⟩ := (hiff front).1 h
          exact hall front' hfront'
        · refine Or.inr ⟨c :: front, ?_, (hiff _).2 ⟨front, rfl, hfirst.bare⟩, ?_⟩
          · rw [hsome, utf8Width_cons, Nat.add_assoc]
          · intro other h
            obtain ⟨front', rfl, hfront'⟩ := (hiff other).1 h
            exact Nat.succ_le_succ (hfirst.first front' hfront')

/-- The lexer is exact.  It fails precisely in a text with a bare sigil, and then
reports the one byte of the first of them.  Any other text it cuts into its longest
tokens: the slices are not empty, lie one after the other and make up the text, and
each of them is the text of its token or a run of blanks. -/
theorem lex_exact (source : String) :
    (∃ front, FirstBareSigil source.toList front ∧
        lex source = .error (.unrecognizedInput source "@" (utf8Width front)) ∧
        (Problem.unrecognizedInput source "@" (utf8Width front)).label =
          some ⟨utf8Width front, 1, "not a valid notation token"⟩) ∨
      (∀ front, ¬ BareSigil source.toList front) ∧
        ∃ lexemes, lex source = .ok lexemes ∧ Cuts source lexemes := by
  have hsearch := bareSigil?_eq 0 source.toList
  rcases bareSigil?_cases 0 source.toList with ⟨hnone, hall⟩ | ⟨front, hsome, hfirst⟩
  · rw [hnone] at hsearch
    cases hlexFrom : lexFrom 0 source.toList with
    | error offset =>
        rw [hlexFrom] at hsearch
        cases hsearch
    | ok lexemes =>
        have hlex : lex source = .ok lexemes := by rw [lex, hlexFrom]
        exact Or.inr ⟨hall, lexemes, hlex, cuts_of_lex hlex⟩
  · rw [hsome, Nat.zero_add] at hsearch
    cases hlexFrom : lexFrom 0 source.toList with
    | ok lexemes =>
        rw [hlexFrom] at hsearch
        cases hsearch
    | error offset =>
        rw [hlexFrom] at hsearch
        cases hsearch
        exact Or.inl ⟨front, hfirst, by rw [lex, hlexFrom], rfl⟩

end TacticNotation
