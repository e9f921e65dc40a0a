import SpoolIndex.Database.Basic

/-!
# The store in a database

Every store call is one statement. A token that is none is found before anything is sent, and a
page limit is cut to what the database can count to.
-/

namespace SpoolIndex

namespace Database

/-- The largest number of rows that can be asked for. -/
def rowLimit (limit : Nat) : Nat := min limit 9223372036854775807

def send (d : Database) (s : Statement) (f : s.Reply → Except Error α) :
    Except Error α × Database :=
  match d.execute s with
  | (.ok reply, d) => (f reply, d)
  | (.error e, d) => (.error (.storage e), d)

def sendAfter (d : Database) (token : Option Token) (s : Option Key → Statement)
    (f : (key : Option Key) → (s key).Reply → Except Error α) : Except Error α × Database :=
  match Token.bound token with
  | .ok key => d.send (s key) (f key)
  | .error e => (.error e, d)

def perform (d : Database) : (call : StoreCall) → Except Error call.Reply × Database
  | .appendItem x => d.send (.insertItem (.ofItem x)) fun _ => .ok ()
  | .scanItems p token limit =>
    d.sendAfter token
      (fun key => .selectItems p.queue p.slice p.bucket.id.toNat key (rowLimit limit))
      fun _ rows => (rows.mapM ItemRow.toItem).map fun xs => .ofRows xs limit Item.key
  | .hasItems p => d.send (.itemsExist p.queue p.slice p.bucket.id.toNat) .ok
  | .putTombstone queue key => d.send (.insertTombstone queue key) fun _ => .ok ()
  | .hasTombstone queue key => d.send (.tombstoneExists queue key) .ok
  | .scanTombstones queue token limit =>
    d.sendAfter token (fun key => .selectTombstones queue key (rowLimit limit))
      fun _ keys => .ok (.ofRows keys limit id)
  | .readStart queue => d.send (.selectStart queue) fun slices => .ok slices.head?
  | .swapStart queue .absent slice => d.send (.insertStart queue slice) fun n => .ok (n == 1)
  | .swapStart queue .below slice => d.send (.raiseStart queue slice) fun n => .ok (n == 1)

def createQueue (d : Database) (queue : QueueName) : Except Error Unit × Database :=
  d.send (.createQueue queue) .ok

def sendMessage (d : Database) (queue : QueueName) (payload : Json) (delay : Int) :
    Except Error Nat × Database :=
  d.send (.sendMessage queue payload delay) .ok

def checkHealth (d : Database) : Except Error Unit × Database := d.send .ping .ok

end Database

end SpoolIndex
