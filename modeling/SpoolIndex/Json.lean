/-!
# JSON values

Values of the attributes of an item and of message payloads. Integers of 64 bits, signed or not,
are exact; any other number is kept as the decimal that was written. The members of an object are
sorted by name, and a name occurs once.
-/

namespace SpoolIndex

inductive Json where
  | null
  | bool (value : Bool)
  | int (value : Int)
  /-- `mantissa * 10 ^ exponent`. -/
  | decimal (mantissa exponent : Int)
  | string (value : String)
  | array (elements : List Json)
  | object (members : List (String × Json))
deriving Inhabited, BEq

namespace Json

/-- Puts a member at its place among sorted members, replacing one of the same name. -/
def insertMember (name : String) (value : α) : List (String × α) → List (String × α)
  | [] => [(name, value)]
  | (other, old) :: rest =>
    if name < other then (name, value) :: (other, old) :: rest
    else if name = other then (name, value) :: rest
    else (other, old) :: insertMember name value rest

/-- Sorts members by name; the last of several with one name counts. -/
def sortMembers (members : List (String × α)) : List (String × α) :=
  members.foldl (fun sorted (name, value) => insertMember name value sorted) []

def member? (x : Json) (name : String) : Option Json :=
  match x with
  | .object members => members.lookup name
  | _ => none

mutual
/-- Changes all strings of a value but the names of members. -/
def mapStrings (f : String → String) : Json → Json
  | .string s => .string (f s)
  | .array xs => .array (mapElements f xs)
  | .object ms => .object (mapMembers f ms)
  | x => x

def mapElements (f : String → String) : List Json → List Json
  | [] => []
  | x :: xs => mapStrings f x :: mapElements f xs

def mapMembers (f : String → String) : List (String × Json) → List (String × Json)
  | [] => []
  | (name, x) :: ms => (name, mapStrings f x) :: mapMembers f ms
end

def ofMembers (members : List (String × Json)) : Json := .object (sortMembers members)

end Json

end SpoolIndex
