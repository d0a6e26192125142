import TacticNotation.Json

/-!
# The grammar of JSON

Which texts are JSON for which value, without a reader.  Blanks may stand around every
sign, a character of a string may be written as itself or as an escape, and a character
beyond U+FFFF as two escapes.  The compact text of a value is one of the texts for it
(`isText_compact`).

Numbers and truth values are left out, because no value of this library is one.  The
other productions are complete.
-/

namespace TacticNotation
namespace Json

/-! ## Characters of a string -/

/-- The blanks that may stand around the signs of a text. -/
def isSpace (c : Char) : Bool := c == ' ' || c == '\t' || c == '\n' || c == '\r'

/-- The number that a hexadecimal digit stands for. -/
def hexValue? (c : Char) : Option Nat :=
  if '0' ≤ c ∧ c ≤ '9' then some (c.toNat - 48)
  else if 'a' ≤ c ∧ c ≤ 'f' then some (c.toNat - 87)
  else if 'A' ≤ c ∧ c ≤ 'F' then some (c.toNat - 55)
  else none

/-- The number that four hexadecimal digits stand for. -/
def unit? (a b c d : Char) : Option Nat := do
  some (((((← hexValue? a) * 16) + (← hexValue? b)) * 16 + (← hexValue? c)) * 16 + (← hexValue? d))

/-- The character that a letter after a backslash stands for. -/
def shortEscape? : Char → Option Char
  | '"' => some '"'
  | '\\' => some '\\'
  | '/' => some '/'
  | 'b' => some '\x08'
  | 'f' => some '\x0c'
  | 'n' => some '\n'
  | 'r' => some '\r'
  | 't' => some '\t'
  | _ => none

/-- The number of the character that two units stand for, if they are a pair. -/
def pair? (high low : Nat) : Option Nat :=
  if 0xD800 ≤ high ∧ high < 0xDC00 ∧ 0xDC00 ≤ low ∧ low < 0xE000 then
    some (0x10000 + (high - 0xD800) * 0x400 + (low - 0xDC00))
  else none

/-- The ways to write one character of a string. -/
inductive Spells : List Char → Char → Prop
  | plain {char : Char} (hquote : char ≠ '"') (hslash : char ≠ '\\') (h : 32 ≤ char.toNat) :
      Spells [char] char
  | short {letter char : Char} (h : shortEscape? letter = some char) :
      Spells ['\\', letter] char
  | unit {a b c d char : Char} (h : unit? a b c d = some char.toNat) :
      Spells ['\\', 'u', a, b, c, d] char
  | pair {a b c d a' b' c' d' char : Char} {high low : Nat} (hhigh : unit? a b c d = some high)
      (hlow : unit? a' b' c' d' = some low) (h : pair? high low = some char.toNat) :
      Spells ['\\', 'u', a, b, c, d, '\\', 'u', a', b', c', d'] char

/-! ## The grammar -/

/-- Nothing but blanks. -/
def Blank (run : List Char) : Prop := ∀ c ∈ run, isSpace c = true

/-- The rest of a string, with the quote that ends it. -/
inductive Quoted : List Char → List Char → Prop
  | close : Quoted ['"'] []
  | next {run rest : List Char} {char : Char} {chars : List Char} (h : Spells run char)
      (hrest : Quoted rest chars) : Quoted (run ++ rest) (char :: chars)

section
variable {α : Type}

/-- The elements after the first, each after a comma, and the sign that closes. -/
inductive More (writes : List Char → α → Prop) (close : Char) : List Char → List α → Prop
  | close {blank : List Char} (hblank : Blank blank) : More writes close (blank ++ [close]) []
  | next {before after run rest : List Char} {element : α} {elements : List α}
      (hbefore : Blank before) (hafter : Blank after) (h : writes run element)
      (hrest : More writes close rest elements) :
      More writes close (before ++ ',' :: (after ++ (run ++ rest))) (element :: elements)

/-- Elements with commas between them, and the sign that closes. -/
inductive Row (writes : List Char → α → Prop) (close : Char) : List Char → List α → Prop
  | empty {blank : List Char} (hblank : Blank blank) : Row writes close (blank ++ [close]) []
  | filled {blank run rest : List Char} {element : α} {elements : List α} (hblank : Blank blank)
      (h : writes run element) (hrest : More writes close rest elements) :
      Row writes close (blank ++ (run ++ rest)) (element :: elements)

end

/-- A key, a colon and a value. -/
inductive Member (writes : List Char → Json → Prop) : List Char → String × Json → Prop
  | mk {name before after run : List Char} {key : String} {value : Json}
      (hname : Quoted name key.toList) (hbefore : Blank before) (hafter : Blank after)
      (h : writes run value) :
      Member writes ('"' :: (name ++ (before ++ ':' :: (after ++ run)))) (key, value)

/-- The ways to write a value, without blanks around it. -/
inductive Writes : List Char → Json → Prop
  | null : Writes ['n', 'u', 'l', 'l'] .null
  | string {run : List Char} {value : String} (h : Quoted run value.toList) :
      Writes ('"' :: run) (.string value)
  | array {run : List Char} {items : List Json} (h : Row Writes ']' run items) :
      Writes ('[' :: run) (.array items)
  | object {run : List Char} {members : List (String × Json)}
      (h : Row (Member Writes) '}' run members) : Writes ('{' :: run) (.object members)

/-- The text is JSON for the value. -/
def IsText (text : List Char) (value : Json) : Prop :=
  ∃ before run after, text = before ++ (run ++ after) ∧ Blank before ∧ Writes run value ∧
    Blank after

/-! ## Compact texts -/

theorem blank_nil : Blank [] := by
  intro c hc
  cases hc

theorem hexValue?_hexDigit {n : Nat} (h : n < 16) : hexValue? (hexDigit n) = some n := by
  have hall : ∀ m < 16, hexValue? (hexDigit m) = some m := by decide
  exact hall n h

/-- A character below U+0020 is written with its number in four digits. -/
theorem unit?_hexDigit {n : Nat} (h : n < 32) :
    unit? '0' '0' (hexDigit (n / 16)) (hexDigit (n % 16)) = some n := by
  have hhigh := hexValue?_hexDigit (show n / 16 < 16 by omega)
  have hlow := hexValue?_hexDigit (show n % 16 < 16 by omega)
  have hzero : hexValue? '0' = some 0 := by decide
  simp only [unit?, hzero, hhigh, hlow, Option.bind_eq_bind, Option.bind_some, Option.some.injEq]
  omega

theorem spells_escapeChar (c : Char) : Spells (escapeChar c) c := by
  unfold escapeChar
  split
  · subst c; exact .short rfl
  split
  · subst c; exact .short rfl
  split
  · subst c; exact .short rfl
  split
  · subst c; exact .short rfl
  split
  · subst c; exact .short rfl
  split
  · subst c; exact .short rfl
  split
  · subst c; exact .short rfl
  split
  · rename_i hlow
    exact .unit (unit?_hexDigit hlow)
  · rename_i hquote hslash _ _ _ _ _ hlow
    exact .plain hquote hslash (by omega)

theorem quoted_flatMap_escapeChar (chars : List Char) :
    Quoted (chars.flatMap escapeChar ++ ['"']) chars := by
  induction chars with
  | nil => exact .close
  | cons c chars ih =>
      rw [List.flatMap_cons, List.append_assoc]
      exact .next (spells_escapeChar c) ih

section
variable {α : Type} {writes : List Char → α → Prop} {close : Char} {text : α → List Char}

theorem more_flatMap {elements : List α} (h : ∀ e ∈ elements, writes (text e) e) :
    More writes close (elements.flatMap (fun e => ',' :: text e) ++ [close]) elements := by
  induction elements with
  | nil => exact .close blank_nil
  | cons e elements ih =>
      obtain ⟨he, hmore⟩ := List.forall_mem_cons.1 h
      simpa using More.next blank_nil blank_nil he (ih hmore)

theorem row_cons {e : α} {elements : List α} (h : ∀ e' ∈ e :: elements, writes (text e') e') :
    Row writes close (text e ++ (elements.flatMap (fun e => ',' :: text e) ++ [close]))
      (e :: elements) := by
  obtain ⟨he, hmore⟩ := List.forall_mem_cons.1 h
  simpa using Row.filled blank_nil he (more_flatMap hmore)

end

theorem toList_quoted (value : String) :
    (quoted value).toList = '"' :: (value.toList.flatMap escapeChar ++ ['"']) := by
  simp [quoted]

theorem toList_moreItems (items : List Json) :
    (moreItems items).toList = items.flatMap fun v => ',' :: v.compact.toList := by
  induction items with
  | nil => rfl
  | cons item items ih => simp [moreItems, ih]

/-- A member of an object in a compact text. -/
def memberText (member : String × Json) : List Char :=
  (quoted member.1).toList ++ ':' :: member.2.compact.toList

theorem toList_moreMembers (members : List (String × Json)) :
    (moreMembers members).toList = members.flatMap fun member => ',' :: memberText member := by
  induction members with
  | nil => rfl
  | cons member members ih => simp [moreMembers, memberText, ih]

theorem member_memberText {member : String × Json}
    (h : Writes member.2.compact.toList member.2) : Member Writes (memberText member) member := by
  have hmember := Member.mk (quoted_flatMap_escapeChar member.1.toList) blank_nil blank_nil h
  simpa [memberText, toList_quoted] using hmember

theorem writes_compact (v : Json) : Writes v.compact.toList v := by
  induction v using Json.induct with
  | null => exact .null
  | string value =>
      rw [compact, toList_quoted]
      exact .string (quoted_flatMap_escapeChar value.toList)
  | array items ih =>
      cases items with
      | nil => exact .array (.empty blank_nil)
      | cons item items => simpa [compact, toList_moreItems] using Writes.array (row_cons ih)
  | object members ih =>
      cases members with
      | nil => exact .object (.empty blank_nil)
      | cons member members =>
          have hrow : Row (Member Writes) '}' _ (member :: members) :=
            row_cons fun m hm => member_memberText (ih m hm)
          simpa [compact, memberText, toList_moreMembers] using Writes.object hrow

/-- The compact text of a value is JSON for it. -/
theorem isText_compact (v : Json) : IsText v.compact.toList v :=
  ⟨[], v.compact.toList, [], by simp, blank_nil, writes_compact v, blank_nil⟩

end Json
end TacticNotation
