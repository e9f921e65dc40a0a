import SpoolIndex.Error
import SpoolIndex.Text.Digits

/-!
# Addresses of databases

A database is named by a URL: a scheme, a host with an optional port, and settings after a
question mark. A host that is a path names the directory of a local socket. Text that is no such
URL, or a setting with a value it cannot have, is an error of the settings.
-/

namespace SpoolIndex

inductive Address where
  | directory (path : String)
  | network (host : String)
deriving DecidableEq

namespace Address

structure Parts where
  /-- Empty also where there is none. -/
  authority : List Char
  path : List Char
  query : List Char

def isSchemeChar (c : Char) : Bool := c.isAlphanum || c == '+' || c == '-' || c == '.'

def scheme? (text : List Char) : Option (String × List Char) :=
  let name := text.takeWhile isSchemeChar
  match name, text.drop name.length with
  | c :: _, ':' :: rest =>
    if c.isAlpha then some (String.ofList (name.map Char.toLower), rest) else none
  | _, _ => none

/-- The schemes whose URLs always have a host, after any number of slashes. -/
def hostedSchemes : List String := ["http", "https", "ws", "wss", "ftp"]

/-- Controls and blanks around a URL do not count, nor do tabs and line ends within. -/
def trimmed (text : List Char) : List Char :=
  let isOuter (c : Char) : Bool := c ≤ ' '
  ((text.dropWhile isOuter).reverse.dropWhile isOuter).reverse.filter fun c =>
    c != '\t' && c != '\n' && c != '\r'

def endsAuthority (c : Char) : Bool := c == '/' || c == '?' || c == '#'

/-- What follows the slashes before an authority, if there is one. -/
def afterSlashes? (hosted : Bool) (text : List Char) : Option (List Char) :=
  if hosted then some (text.dropWhile fun c => c == '/' || c == '\\')
  else match text with
    | '/' :: '/' :: rest => some rest
    | _ => none

def parts? (text : List Char) : Option Parts := do
  let (scheme, rest) ← scheme? (trimmed text)
  let hosted := hostedSchemes.contains scheme
  let inAuthority (c : Char) : Bool := !endsAuthority c && !(hosted && c == '\\')
  let (authority, rest) := match afterSlashes? hosted rest with
    | some rest => (rest.takeWhile inAuthority, rest.dropWhile inAuthority)
    | none => ([], rest)
  if hosted && authority.isEmpty then none
  else
    let rest := rest.takeWhile (· != '#')
    let path := rest.takeWhile (· != '?')
    some ⟨authority, path, rest.drop (path.length + 1)⟩

def number? (limit : Nat) (digits : List Char) : Option Nat :=
  if digits.isEmpty || !digits.all Char.isDigit then none
  else if Digits.value digits < limit then some (Digits.value digits) else none

def ports : Nat := 65536

def isForbiddenInHost (c : Char) : Bool :=
  [' ', '#', '/', ':', '<', '>', '?', '@', '[', '\\', ']', '^', '|', '\x00'].contains c

/-- The host of an authority, which may be empty. A user before it needs one after. -/
def host? (authority : List Char) : Option (List Char) :=
  let named := authority.contains '@'
  let hostPort := (authority.reverse.takeWhile (· != '@')).reverse
  let host := hostPort.takeWhile (· != ':')
  let port := hostPort.drop (host.length + 1)
  let portIsFine := port.isEmpty || (number? ports port).isSome
  if host.any isForbiddenInHost || !portIsFine then none
  else if host.isEmpty && (named || hostPort.contains ':') then none
  else some host

/-- The bytes of text with percent escapes; a plus may stand for a blank. -/
def unescape (plusIsBlank : Bool) : List Char → List UInt8
  | '%' :: a :: b :: rest =>
    match Digits.hexNumber? [a, b] with
    | some n => n.toUInt8 :: unescape plusIsBlank rest
    | none => '%'.toUInt8 :: unescape plusIsBlank (a :: b :: rest)
  | '+' :: rest => (if plusIsBlank then 32 else 43) :: unescape plusIsBlank rest
  | c :: rest => (toString c).toUTF8.toList ++ unescape plusIsBlank rest
  | [] => []

def decoded? (text : List Char) : Option String :=
  String.fromUTF8? ⟨(unescape false text).toArray⟩

/-- A name or a value among the settings; bytes that are no text are replaced. -/
def decodedSetting (text : List Char) : String :=
  (String.fromUTF8? ⟨(unescape true text).toArray⟩).getD "\ufffd"

def settings (query : List Char) : List (String × String) :=
  ((String.ofList query).splitOn "&").filterMap fun pair =>
    if pair.isEmpty then none
    else
      let cs := pair.toList
      let name := cs.takeWhile (· != '=')
      some (decodedSetting name, decodedSetting (cs.drop (name.length + 1)))

def encryptionModes : List String :=
  ["disable", "allow", "prefer", "require", "verify-ca", "verify-full"]

def isNumericAddress (text : String) : Bool :=
  let fields := text.splitOn "."
  fields.length == 4 && fields.all fun f => (number? 256 f.toList).isSome

def isValidSetting (name value : String) : Bool :=
  match name with
  | "sslmode" | "ssl-mode" => encryptionModes.contains value.toLower
  | "port" => (number? ports value.toList).isSome
  | "statement-cache-capacity" => (number? UInt64.size value.toList).isSome
  | "hostaddr" => isNumericAddress value
  | _ => true

/-- User and password of an authority, and the path, have to be text. -/
def namesAreText (parts : Parts) : Bool :=
  let user := (parts.authority.reverse.dropWhile (· != '@')).reverse
  (decoded? user).isSome && (decoded? parts.path).isSome

def isDirectory (host : String) : Bool := host.toList.head? == some '/'

/-- The address that a URL names. A directory counts before any other host, and the last one
before the others. -/
def parse (url : String) : Except DatabaseError Address :=
  match (parts? url.toList).bind fun parts => (host? parts.authority).map (parts, ·) with
  | none => .error .settings
  | some (parts, written) =>
    let settings := settings parts.query
    match decoded? written with
    | none => .error .settings
    | some host =>
      if !namesAreText parts || !settings.all fun (name, value) => isValidSetting name value then
        .error .settings
      else
        let host := if host.isEmpty then "localhost" else host
        let hosts := host :: (settings.filter (·.1 == "host")).map (·.2)
        match (hosts.filter isDirectory).getLast? with
        | some path => .ok (.directory path)
        | none => .ok (.network (hosts.getLastD host))

end Address

end SpoolIndex
