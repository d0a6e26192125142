/-!
# Byte offsets

Every position that a report or an answer names is a count of UTF-8 bytes.
The readers of this library walk lists of characters, so an offset is the
summed width of the characters that have been passed.
-/

namespace TacticNotation

/-- The number of bytes that a run of characters occupies. -/
def utf8Width : List Char → Nat
  | [] => 0
  | c :: rest => c.utf8Size + utf8Width rest

@[simp] theorem utf8Width_nil : utf8Width [] = 0 := rfl

@[simp] theorem utf8Width_cons (c : Char) (rest : List Char) :
    utf8Width (c :: rest) = c.utf8Size + utf8Width rest := rfl

@[simp] theorem utf8Width_append (front back : List Char) :
    utf8Width (front ++ back) = utf8Width front + utf8Width back := by
  induction front with
  | nil => simp
  | cons c front ih => simp [ih, Nat.add_assoc]

/-- The bytes of a run are those of the text it makes. -/
theorem utf8ByteSize_ofList (run : List Char) :
    (String.ofList run).utf8ByteSize = utf8Width run := by
  induction run with
  | nil => rfl
  | cons c run ih => simp [String.ofList_cons, ih]

theorem utf8ByteSize_eq (text : String) : text.utf8ByteSize = utf8Width text.toList := by
  rw [← utf8ByteSize_ofList, String.ofList_toList]

/-- A run of characters is empty exactly when it occupies no byte. -/
theorem utf8Width_eq_zero_iff {run : List Char} : utf8Width run = 0 ↔ run = [] := by
  cases run with
  | nil => simp
  | cons c rest =>
      have := c.utf8Size_pos
      simp
      omega

end TacticNotation
