import SpoolIndex.Item
import SpoolIndex.Json.Reader
import SpoolIndex.Json.Writer
import SpoolIndex.Time.Rfc3339

/-!
# Records as JSON

The text forms of items, messages and partitions. A record is written with its members in order;
it is read from an object with any order and further members, or from an array of all members.
-/

namespace SpoolIndex

namespace Json

def asText? : Json → Option String
  | .string s => some s
  | _ => none

def asSlice? : Json → Option Slice
  | .int n => Slice.ofInt? n
  | _ => none

def asBucket? : Json → Option Bucket
  | .int n => if 0 ≤ n ∧ n < 4294967296 then some ⟨UInt32.ofNat n.toNat⟩ else none
  | _ => none

def asKey? (x : Json) : Option Key := x.asText?.bind Key.ofText?

def asInstant? (x : Json) : Option Instant := x.asText?.bind Rfc3339.read?

def asOptionalText? : Json → Option (Option String)
  | .null => some none
  | .string s => some (some s)
  | _ => none

def asTexts? : Json → Option (List String)
  | .array xs => xs.mapM asText?
  | _ => none

def asMembers? : Json → Option (List (String × Json))
  | .object ms => some ms
  | _ => none

def ofOptionalText : Option String → Json
  | none => .null
  | some s => .string s

/-- The values of the named members of an object. -/
def pick (names : List String) (x : Json) : List (Option Json) := names.map x.member?

/-- The text of a record with its members in the given order. -/
def recordText (members : List (String × Json)) : String := (Json.object members).render

end Json

namespace Partition

def memberNames : List String := ["queue", "slice", "bucket"]

def members (p : Partition) : List (String × Json) :=
  [("queue", .string p.queue.text), ("slice", .int p.slice.index),
    ("bucket", .int p.bucket.id.toNat)]

def toJson (p : Partition) : Json := .ofMembers p.members

def toJsonText (p : Partition) : String := Json.recordText p.members

def ofValues? : List (Option Json) → Option Partition
  | [some queue, some slice, some bucket] => do
    return ⟨⟨← queue.asText?⟩, ← slice.asSlice?, ← bucket.asBucket?⟩
  | _ => none

def ofJson? (x : Json) : Option Partition := ofValues? (x.pick memberNames)

def ofJsonText? (text : String) : Option Partition :=
  (Json.Reader.recordText? memberNames text).bind ofValues?

end Partition

namespace Message

def memberNames : List String := ["queue", "key", "name", "enqueued_at", "header_ref", "body_ref"]

def members (m : Message) : List (String × Json) :=
  [("queue", .string m.queue.text), ("key", .string m.key.render), ("name", .string m.name),
    ("enqueued_at", .string (Rfc3339.render m.enqueuedAt)),
    ("header_ref", .string m.headerRef.text), ("body_ref", .string m.bodyRef.text)]

def toJson (m : Message) : Json := .ofMembers m.members

def toJsonText (m : Message) : String := Json.recordText m.members

def ofValues? : List (Option Json) → Option Message
  | [some queue, some key, some name, some enqueuedAt, some headerRef, some bodyRef] => do
    return ⟨⟨← queue.asText?⟩, ← key.asKey?, ← name.asText?, ← enqueuedAt.asInstant?,
      ⟨← headerRef.asText?⟩, ⟨← bodyRef.asText?⟩⟩
  | _ => none

def ofJson? (x : Json) : Option Message := ofValues? (x.pick memberNames)

def ofJsonText? (text : String) : Option Message :=
  (Json.Reader.recordText? memberNames text).bind ofValues?

end Message

namespace Item

def memberNames : List String :=
  ["queue", "slice", "bucket", "key", "enqueued_at", "name", "sender", "recipients",
    "header_ref", "body_ref", "attributes"]

def members (x : Item) : List (String × Json) :=
  [("queue", .string x.queue.text), ("slice", .int x.slice.index),
    ("bucket", .int x.bucket.id.toNat), ("key", .string x.key.render),
    ("enqueued_at", .string (Rfc3339.render x.enqueuedAt)), ("name", .string x.name),
    ("sender", .ofOptionalText x.sender), ("recipients", .array (x.recipients.map .string)),
    ("header_ref", .string x.headerRef.text), ("body_ref", .string x.bodyRef.text),
    ("attributes", .object x.attributes)]

def toJson (x : Item) : Json := .ofMembers x.members

def toJsonText (x : Item) : String := Json.recordText x.members

/-- Only the sender may be missing. -/
def ofValues? : List (Option Json) → Option Item
  | [some queue, some slice, some bucket, some key, some enqueuedAt, some name, sender,
      some recipients, some headerRef, some bodyRef, some attributes] => do
    return {
      queue := ⟨← queue.asText?⟩
      slice := ← slice.asSlice?
      bucket := ← bucket.asBucket?
      key := ← key.asKey?
      enqueuedAt := ← enqueuedAt.asInstant?
      name := ← name.asText?
      sender := ← (sender.getD .null).asOptionalText?
      recipients := ← recipients.asTexts?
      headerRef := ⟨← headerRef.asText?⟩
      bodyRef := ⟨← bodyRef.asText?⟩
      attributes := ← attributes.asMembers? }
  | _ => none

def ofJson? (x : Json) : Option Item := ofValues? (x.pick memberNames)

def ofJsonText? (text : String) : Option Item :=
  (Json.Reader.recordText? memberNames text).bind ofValues?

end Item

end SpoolIndex
