import SpoolIndex.Json
import SpoolIndex.Key
import SpoolIndex.Partition

/-!
# Items

An item points to a mail that the transport accepted: who, what and where the content is, never
the content itself. Items are written once. A new item lacks its place, and a message is what the
transport carries.
-/

namespace SpoolIndex

/-- Where the content of a mail is kept. -/
structure ContentRef where
  text : String
deriving DecidableEq, Inhabited

structure Item where
  queue : QueueName
  slice : Slice
  bucket : Bucket
  key : Key
  enqueuedAt : Instant
  name : String
  sender : Option String
  recipients : List String
  headerRef : ContentRef
  bodyRef : ContentRef
  attributes : List (String × Json)

def Item.partition (x : Item) : Partition := ⟨x.queue, x.slice, x.bucket⟩

structure DetailedItem where
  item : Item
  header : List UInt8
  body : List UInt8

structure NewItem where
  /-- Set when the key was chosen elsewhere, as for an item recorded again. -/
  key : Option Key
  name : String
  sender : Option String
  recipients : List String
  headerRef : ContentRef
  bodyRef : ContentRef
  attributes : List (String × Json)

namespace NewItem

def new (name : String) (headerRef bodyRef : ContentRef) : NewItem :=
  ⟨none, name, none, [], headerRef, bodyRef, []⟩

def withKey (x : NewItem) (key : Key) : NewItem := { x with key := some key }

def withSender (x : NewItem) (sender : String) : NewItem := { x with sender := some sender }

def withRecipient (x : NewItem) (recipient : String) : NewItem :=
  { x with recipients := x.recipients ++ [recipient] }

/-- A later attribute of the same name replaces the earlier one. -/
def withAttribute (x : NewItem) (name : String) (value : Json) : NewItem :=
  { x with attributes := Json.insertMember name value x.attributes }

def placed (x : NewItem) (queue : QueueName) (key : Key) (place : Slice × Bucket)
    (moment : Instant) : Item where
  queue := queue
  slice := place.1
  bucket := place.2
  key := key
  enqueuedAt := moment
  name := x.name
  sender := x.sender
  recipients := x.recipients
  headerRef := x.headerRef
  bodyRef := x.bodyRef
  attributes := x.attributes

end NewItem

inductive ItemFilter where
  | name (value : String)
  | sender (value : String)
  | recipient (value : String)
deriving DecidableEq

/-- Texts have to be equal; of the recipients any one may be. -/
def ItemFilter.accepts : ItemFilter → Item → Bool
  | .name value, x => x.name == value
  | .sender value, x => x.sender == some value
  | .recipient value, x => x.recipients.contains value

structure Message where
  queue : QueueName
  key : Key
  name : String
  enqueuedAt : Instant
  headerRef : ContentRef
  bodyRef : ContentRef
deriving DecidableEq

/-- The transport's own name for an accepted message. -/
structure Receipt where
  text : String
deriving DecidableEq, Inhabited

end SpoolIndex
