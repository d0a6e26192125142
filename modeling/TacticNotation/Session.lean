import TacticNotation.Notation.View

/-!
# Sessions

A session holds the table in use and the notation that was read last.  A
request that fails leaves both as they were, and a request about the notation
has no answer while there is none.
-/

namespace TacticNotation

/-- The state of a session. -/
structure Session where
  table : ShorthandTable
  current : Option Notation
  deriving DecidableEq, Repr

/-- What a session can be asked to do. -/
inductive Request where
  /-- Use the built-in table with these entries after it. -/
  | setTable (extra : List Shorthand)
  /-- Expand the shorthands of a text. -/
  | expand (text : String)
  /-- Read a notation and keep it. -/
  | parse (source : String)
  /-- Read the expanded text of the current notation and keep the result. -/
  | reparse
  /-- Read the placeholder text of the current notation and keep the result. -/
  | reread
  | show (view : View) (anchored : Bool)
  | accepts (text : String)
  | find (text : String) (anchored : Bool)
  | holes
  deriving DecidableEq, Repr

/-- What a session answers. -/
inductive Answer where
  /-- There is no notation to ask about. -/
  | nothing
  | problem (problem : Problem)
  | table (entries : List Shorthand)
  | text (value : String)
  /-- A notation was read that was not in the session before. -/
  | fresh (form : Notation)
  /-- The notation of the session was read again. -/
  | again (form : Notation)
  | flag (value : Bool)
  | range (bytes : Option (Nat × Nat))
  | names (ids : List String)
  deriving DecidableEq, Repr

namespace Session

/-- A session with the built-in table and no notation. -/
def initial : Session := ⟨.builtin, none⟩

/-- Answer with what was computed or with the problem. -/
def answer {α : Type} (result : Except Problem α) (ok : α → Answer) : Answer :=
  match result with
  | .ok value => ok value
  | .error problem => .problem problem

/-- Read a notation; only if that succeeds is it kept. -/
def read (session : Session) (source : String) (ok : Notation → Answer) : Session × Answer :=
  match Notation.parse session.table source with
  | .ok form => ({ session with current := some form }, ok form)
  | .error problem => (session, .problem problem)

/-- Carry out one request. -/
def step (session : Session) (request : Request) : Session × Answer :=
  match request, session.current with
  | .setTable extra, _ =>
      let table := ShorthandTable.withExtra extra
      ({ session with table := table }, .table table)
  | .expand text, _ => (session, .text (session.table.apply text))
  | .parse source, _ => session.read source .fresh
  | _, none => (session, .nothing)
  | .reparse, some form => session.read form.substituted .again
  | .reread, some form => session.read form.placeholder .again
  | .show view anchored, some form => (session, answer (form.show anchored view) .text)
  | .accepts text, some form => (session, answer (form.accepts text) .flag)
  | .find text anchored, some form => (session, answer (form.find anchored text) .range)
  | .holes, some form => (session, .names (Node.holesAll form.root))

/-- Carry out requests one after the other. -/
def run (session : Session) : List Request → List Answer
  | [] => []
  | request :: requests =>
      let (session, answer) := session.step request
      answer :: session.run requests

end Session
end TacticNotation
