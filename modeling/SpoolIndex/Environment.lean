/-!
# Environment

What the program finds around it when it starts: variables, and files that it may read as text.
-/

namespace SpoolIndex

inductive FileError where
  | missing
  | directory
  | notText
deriving DecidableEq, Inhabited

def FileError.message : FileError → String
  | .missing => "No such file or directory (os error 2)"
  | .directory => "Is a directory (os error 21)"
  | .notText => "stream did not contain valid UTF-8"

structure Environment where
  bindings : List (String × String)
  readBytes : String → Except FileError ByteArray

namespace Environment

def empty : Environment := ⟨[], fun _ => .error .missing⟩

instance : Inhabited Environment := ⟨empty⟩

def get? (env : Environment) (name : String) : Option String := env.bindings.lookup name

def readText (env : Environment) (path : String) : Except FileError String := do
  match String.fromUTF8? (← env.readBytes path) with
  | some text => return text
  | none => throw .notText

end Environment

end SpoolIndex
