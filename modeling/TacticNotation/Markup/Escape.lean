/-!
# Text inside HTML

Five characters have a meaning in HTML and are written as entities.  `escape`
copies the stretches between them as slices of the source, so the offsets it
cuts at have to be boundaries between characters; `pieces` makes the cuts
visible.
-/

namespace TacticNotation

/-- The entity for a character that has a meaning in HTML. -/
def entity? : Char → Option String
  | '&' => some "&amp;"
  | '>' => some "&gt;"
  | '<' => some "&lt;"
  | '"' => some "&quot;"
  | '\'' => some "&#x27;"
  | _ => none

/-- A part of an escaped text. -/
inductive Piece where
  /-- The bytes of the source from `start` up to `stop`. -/
  | copy (start stop : Nat)
  /-- The entity for one character of the source. -/
  | entity (text : String)
  deriving DecidableEq, Repr

/-- The characters of a piece, given the source that it copies from. -/
def Piece.text (source : String) : Piece → String
  | .copy start stop => String.Pos.Raw.extract source ⟨start⟩ ⟨stop⟩
  | .entity text => text

/-- The pieces of a text of which the characters before byte `offset` have
been looked at and the bytes before `start` have been written. -/
def piecesFrom (start offset : Nat) : List Char → List Piece
  | [] => [.copy start offset]
  | c :: rest =>
      match entity? c with
      | none => piecesFrom start (offset + c.utf8Size) rest
      | some text =>
          .copy start offset :: .entity text ::
            piecesFrom (offset + c.utf8Size) (offset + c.utf8Size) rest

/-- The stretches that are copied and the entities between them. -/
def pieces (source : String) : List Piece :=
  piecesFrom 0 0 source.toList

/-- A text with its special characters written as entities. -/
def escape (source : String) : String :=
  String.join ((pieces source).map (Piece.text source))

end TacticNotation
