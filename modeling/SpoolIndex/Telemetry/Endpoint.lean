import SpoolIndex.Error

/-!
# Endpoints of telemetry

Reports may be exported to an endpoint, which is named by a URI: a scheme, a host and a path, or
a host alone. An empty endpoint stands for the usual one.
-/

namespace SpoolIndex.Telemetry

def isSchemeChar (c : Char) : Bool := c.isAlphanum || c == '+' || c == '-' || c == '.'

def longestScheme : Nat := 64

/-- Splits off a scheme and the colon and slashes after it; `none` where it is too long. -/
def splitScheme (text : List Char) : Option (Bool × List Char) :=
  let scheme := text.takeWhile isSchemeChar
  match text.drop scheme.length with
  | ':' :: '/' :: '/' :: rest => if longestScheme < scheme.length then none else some (true, rest)
  | _ => some (false, text)

def isHostChar (c : Char) : Bool := c.isAlphanum || "!$&'()*+,-.;=_~".toList.contains c

/-- What the scan of a host has seen since its start, or since the user in front of it. -/
structure HostScan where
  colons : Nat
  opened : Bool
  closed : Bool
  escaped : Bool
  endsWithUser : Bool

def HostScan.next? (s : HostScan) (c : Char) : Option HostScan :=
  let s := { s with endsWithUser := false }
  match c with
  | ':' => if 8 ≤ s.colons then none else some { s with colons := s.colons + 1 }
  | '[' => if s.escaped || s.opened then none else some { s with opened := true }
  | ']' =>
    if !s.opened || s.closed then none
    else some { s with closed := true, colons := 0, escaped := false }
  | '@' => some { s with colons := 0, escaped := false, endsWithUser := true }
  | '%' => some { s with escaped := true }
  | c => if isHostChar c then some s else none

def isHost (text : List Char) : Bool :=
  match text.foldlM HostScan.next? ⟨0, false, false, false, false⟩ with
  | none => false
  | some s => s.opened == s.closed && s.colons ≤ 1 && !s.escaped && !s.endsWithUser

def endsHost (c : Char) : Bool := c == '/' || c == '?' || c == '#'

/-- Characters that a path may not hold. -/
def isForbiddenInPath (c : Char) : Bool := c ≤ ' ' || "<>`".toList.contains c

/-- Characters that a query may not hold. -/
def isForbiddenInQuery (c : Char) : Bool := c ≤ ' ' || "\"<>".toList.contains c

def isPath (text : List Char) : Bool :=
  let text := text.takeWhile (· != '#')
  let path := text.takeWhile (· != '?')
  !path.any isForbiddenInPath && !((text.drop (path.length + 1)).any isForbiddenInQuery)

/-- The longest URI there is, in bytes. -/
def longestUri : Nat := 65534

def isUri (text : String) : Bool :=
  if longestUri < text.utf8ByteSize then false
  else match text.toList with
    | [] => false
    | ['*'] => true
    | '/' :: rest => isPath ('/' :: rest)
    | cs =>
      match splitScheme cs with
      | none => false
      | some (hasScheme, rest) =>
        let host := rest.takeWhile fun c => !endsHost c
        let path := rest.drop host.length
        isHost host && (if hasScheme then !host.isEmpty && isPath path else path.isEmpty)

/-- Sets up the export of reports. Only one program-wide recipient of reports can be installed. -/
def start (alreadyInstalled : Bool) (endpoint : Option String) : Except Error Unit :=
  let isUsable := match endpoint with
    | some text => text.isEmpty || isUri text
    | none => true
  if !isUsable then .error (.other "failed to create OTLP span exporter")
  else if alreadyInstalled then
    .error (.other ("failed to init tracing subscriber: " ++
      "a global default trace dispatcher has already been set"))
  else .ok ()

end SpoolIndex.Telemetry
