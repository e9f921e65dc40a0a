/-!
# TOML documents

The values of a TOML document, and how its tables come about. A table is written once: by a header
or inline, where it may be announced before by the headers of tables inside it, or bit by bit by
dotted keys. Whatever would write a table or a key a second time is an error.
-/

namespace SpoolIndex

/-- How a table was written. -/
inductive TableOrigin where
  /-- Between braces. -/
  | inline
  /-- Under a header of its own. -/
  | header
  /-- Only in headers of tables inside it. -/
  | announced
  /-- By dotted keys. -/
  | dotted
deriving DecidableEq, Inhabited

inductive Toml where
  | string (value : String)
  | integer (value : Int)
  | float
  | boolean (value : Bool)
  /-- A date, a time or both. -/
  | moment
  | array (elements : List Toml)
  | table (origin : TableOrigin) (entries : List (String × Toml))
  /-- Tables that were written under headers in double brackets. -/
  | tables (elements : List (List (String × Toml)))
deriving Inhabited

namespace Toml

abbrev Entries := List (String × Toml)

def find? (name : String) (entries : Entries) : Option Toml := entries.lookup name

/-- The entries with the value of one replaced, or the value added at the end. -/
def put (name : String) (value : Toml) : Entries → Entries
  | [] => [(name, value)]
  | (other, old) :: rest =>
    if other = name then (name, value) :: rest else (other, old) :: put name value rest

abbrev Change := TableOrigin → Entries → Option Entries

/-- Changes the table at a path, creating tables on the way with the origin `fresh`. Dotted keys
do not reach into tables that were written otherwise. -/
def changeAt (fresh : TableOrigin) (change : Change) :
    (path : List String) → (origin : TableOrigin) → Entries → Option Entries
  | [], origin, entries => change origin entries
  | name :: path, _, entries =>
    match find? name entries with
    | none => do
      let inner ← changeAt fresh change path fresh []
      some (put name (.table fresh inner) entries)
    | some (.tables elements) =>
      match elements.reverse with
      | [] => none
      | last :: before => do
        let inner ← changeAt fresh change path .header last
        some (put name (.tables (before.reverse ++ [inner])) entries)
    | some (.table origin inner) =>
      if origin = .inline ∨ (fresh = .dotted ∧ origin = .header) then none
      else do
        let inner ← changeAt fresh change path origin inner
        some (put name (.table origin inner) entries)
    | some _ => none

/-- Adds a key that is not there yet. With a path before it, the table has to be one that dotted
keys write; without, one that they do not. -/
def addNew (dotted : Bool) (name : String) (value : Toml) : Change := fun origin entries =>
  if dotted != (origin == .dotted) || (find? name entries).isSome then none
  else some (entries ++ [(name, value)])

/-- Writes a value under a dotted key. -/
def assign (path : List String) (name : String) (value : Toml) (origin : TableOrigin)
    (entries : Entries) : Option Entries :=
  changeAt .dotted (addNew (!path.isEmpty) name value) path origin entries

/-- A key with its value: the path before the last dot, the name after it and the value. -/
structure Assignment where
  path : List String
  name : String
  value : Toml

def assignAll (assignments : List Assignment) (origin : TableOrigin) (entries : Entries) :
    Option Entries :=
  assignments.foldlM (fun entries a => assign a.path a.name a.value origin entries) entries

/-- Writes the table under a header, which may have been announced before. -/
def writeTable (name : String) (assignments : List Assignment) : Change := fun _ entries =>
  match find? name entries with
  | none => do
    let inner ← assignAll assignments .header []
    some (entries ++ [(name, .table .header inner)])
  | some (.table .announced inner) => do
    let inner ← assignAll assignments .header inner
    some (put name (.table .header inner) entries)
  | some _ => none

/-- Adds a table under a header in double brackets. -/
def appendTable (name : String) (assignments : List Assignment) : Change := fun _ entries =>
  match find? name entries with
  | none => do
    let inner ← assignAll assignments .header []
    some (entries ++ [(name, .tables [inner])])
  | some (.tables elements) => do
    let inner ← assignAll assignments .header []
    some (put name (.tables (elements ++ [inner])) entries)
  | some _ => none

structure Block where
  /-- Whether the header is in double brackets. -/
  repeated : Bool
  path : List String
  name : String
  assignments : List Assignment

def addBlock (entries : Entries) (s : Block) : Option Entries :=
  let change :=
    if s.repeated then appendTable s.name s.assignments else writeTable s.name s.assignments
  changeAt .announced change s.path .header entries

/-- The document of the assignments before the first header and the blocks after it. -/
def ofBlocks (first : List Assignment) (blocks : List Block) : Option Entries := do
  blocks.foldlM addBlock (← assignAll first .header [])

end Toml

end SpoolIndex
