import SpoolIndex.Database.Address
import SpoolIndex.Database.Basic

/-!
# Connections

A database listens at a socket in a directory of its own, and may refuse to be connected to.
-/

namespace SpoolIndex.Database

/-- The directory of the socket. -/
def socketDirectory : String := "/run/spool"

/-- The URL of the database. -/
def url : String := "postgres:///spool?host=" ++ socketDirectory

def connect (refusal : Option String) (url : String) : Except Error Unit :=
  match Address.parse url with
  | .error e => .error (.storage e)
  | .ok (.network _) => .error (.storage (.link "Connection refused (os error 111)"))
  | .ok (.directory path) =>
    if path ≠ socketDirectory then
      .error (.storage (.link "No such file or directory (os error 2)"))
    else match refusal with
      | some message => .error (.storage (.refused message))
      | none => .ok ()

end SpoolIndex.Database
