import TacticNotation.Toml.Value

/-!
# Building a TOML document

A document is made by its statements one after the other: headers open tables,
assignments add a value to the table that is open.  A table can be opened once
by a header; dotted keys add only to tables that no header has opened, and no
header can open them from then on; arrays and tables that are written as values
are complete.
-/

namespace TacticNotation
namespace Toml

/-- One statement of a document. -/
inductive Statement where
  /-- `[path]`. -/
  | openTable (path : List String)
  /-- `[[path]]`. -/
  | openElement (path : List String)
  /-- `path = value`. -/
  | assign (path : List String) (value : Toml)

/-- A table with the way it came to be. -/
abbrev Table := TableOrigin × Entries

/-- Change the table at the end of a path.  Tables that are missing are made;
of an array that headers have made the path goes through the last element.  A
dotted path does not go through tables that a header has opened, and takes over
those that were only implied. -/
def updateAt (dotted : Bool) (change : Table → Option Table) :
    List String → Table → Option Table
  | [], here => change here
  | key :: path, (origin, entries) =>
      match lookup? key entries with
      | none => do
          let made := if dotted then TableOrigin.dotted else .implied
          let (origin', entries') ← updateAt dotted change path (made, [])
          some (origin, entries ++ [(key, .table origin' entries')])
      | some (.table .inlined _) => none
      | some (.table inner below) =>
          if dotted && inner == .header then none
          else do
            let inner := if dotted then TableOrigin.dotted else inner
            let (origin', entries') ← updateAt dotted change path (inner, below)
            some (origin, replace key (.table origin' entries') entries)
      | some (.array true items) =>
          match items.getLast? with
          | some (.table inner below) => do
              let (origin', entries') ← updateAt dotted change path (inner, below)
              some (origin,
                replace key (.array true (items.dropLast ++ [.table origin' entries'])) entries)
          | _ => none
      | some _ => none

/-- Open the table of the last key of a path. -/
def openLast (key : String) : Table → Option Table
  | (origin, entries) =>
      match lookup? key entries with
      | none => some (origin, entries ++ [(key, .table .header [])])
      | some (.table .implied below) =>
          some (origin, replace key (.table .header below) entries)
      | some _ => none

/-- Open a new element of the array of the last key of a path. -/
def openLastElement (key : String) : Table → Option Table
  | (origin, entries) =>
      match lookup? key entries with
      | none => some (origin, entries ++ [(key, .array true [.table .header []])])
      | some (.array true items) =>
          some (origin, replace key (.array true (items ++ [.table .header []])) entries)
      | some _ => none

/-- Add a value under the last key of a path.  `viaDots` says whether keys come
before it: then the table cannot be one that a header has opened. -/
def addLast (viaDots : Bool) (key : String) (value : Toml) : Table → Option Table
  | (origin, entries) =>
      if viaDots && origin == .header then none
      else
        match lookup? key entries with
        | none => some (origin, entries ++ [(key, value)])
        | some _ => none

/-- Assign a value to a path of keys, seen from a table. -/
def assignIn (path : List String) (value : Toml) (here : Table) : Option Table :=
  match path.getLast? with
  | none => none
  | some key =>
      updateAt true (addLast (path.length > 1) key value) path.dropLast here

/-- The document so far and the path of the table that is open. -/
structure Draft where
  root : Table
  current : List String

/-- Carry out one statement. -/
def Draft.step (draft : Draft) : Statement → Option Draft
  | .openTable path =>
      match path.getLast? with
      | none => none
      | some key =>
          (updateAt false (openLast key) path.dropLast draft.root).map (⟨·, path⟩)
  | .openElement path =>
      match path.getLast? with
      | none => none
      | some key =>
          (updateAt false (openLastElement key) path.dropLast draft.root).map (⟨·, path⟩)
  | .assign path value =>
      (updateAt false (assignIn path value) draft.current draft.root).map (⟨·, draft.current⟩)

/-- The entries of the document that statements make. -/
def build? (statements : List Statement) : Option Entries :=
  (statements.foldlM Draft.step ⟨(.header, []), []⟩).map (·.root.2)

end Toml
end TacticNotation
