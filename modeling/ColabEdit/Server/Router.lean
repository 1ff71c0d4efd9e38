/-
# ColabEdit.Server.Router -- the request handlers as programs over Redis

The handlers of `app/control/router.py` with the methods of
`app/model/user_order.py` and `app/model/pps.py` they call, written as programs:
one `op` for each Redis command, in the order the source sends them.  An
exception (`KeyError`, `ValueError`, `AttributeError`) is `Prog.raise`, which
Flask answers with status 500.

`lower` is `str.lower()`.  A batch is what the browser puts into
`changesToBePushed`; `Changes.edits` is what the key dispatch of `insertText`
reads from it.
-/
import ColabEdit.Server.Redis
import ColabEdit.Theory.Program
import Mathlib.Data.Nat.Digits.Defs

namespace ColabEdit.Server

open ColabEdit.Theory

set_option autoImplicit false

/-! ## Numbers as strings -/

/-- `str(id)`. -/
def str (n : Nat) : List Char := Nat.toDigits 10 n

/-- `int(s)` of a string of digits; anything else is a `ValueError`. -/
def int (s : List Char) : Option Nat :=
  if s ≠ [] ∧ s.all Char.isDigit then some (Nat.ofDigitChars 10 s 0) else none

/-- The list of `int(id)` for the pieces of `s.split(',')` that are not empty. -/
def ownIds (s : List Char) : Option (List Nat) :=
  ((s.splitOn ',').filter fun piece => piece ≠ []).mapM int

/-! ## What `insertText` reads from a batch -/

/-- One turn of the loop over `pendingChanges.keys()` that does something. -/
inductive DocEdit where
  /-- The key `'insert'`, whose value has a first and a second entry. -/
  | attach (tag x : String)
  /-- The key `'delete'`. -/
  | hide (tag : String)
  /-- The key `'insert'` with a value that cannot be indexed twice. -/
  | malformed

class Changes (Batch : Type) where
  edits : Batch → List DocEdit

/-- A batch of the browser client: its keys are tags.  `Big` writes digits, a
point, a sign and the letter `e`, so no key is `'insert'` or `'delete'`. -/
instance (Tag Code : Type) : Changes (AList fun _ : Tag => Code) where
  edits := fun _ => []

section Handlers

variable {Name Batch : Type} [DecidableEq Name] (lower : Name → Name)

abbrev Handler (Name Batch α : Type) := Prog (@Cmd.Reply Name Batch) α

/-- One command on the keys of the document. -/
abbrev docOp (c : DocCmd) : Handler Name Batch c.Reply := Prog.op (Cmd.doc c)

/-- `hget(key)` of a `Dict` subscript: a missing field is a `KeyError`. -/
abbrev hgetUserChanges (user : Name) : Handler Name Batch (List Char) :=
  Prog.call (.hgetUserChanges user) Prog.orRaise

/-! ## `app/model/pps.py` -/

namespace PPS

variable (Name Batch)

/-- `md5(MAIN_PPS + doc + PPS_STRUCT)` before hashing. -/
def key : String := "main_ppspps"

def init : Handler Name Batch Unit := do
  let keys : List String ← docOp .lrangeKeys
  if keys.count key = 0 then
    docOp (.hsetPps "0" "0")
    docOp (.hsetPps "1" "0")
    docOp (.hsetPersist "0" .yes)
    docOp (.hsetPersist "1" .yes)
    docOp (.rpushTags "0")
    docOp (.rpushTags "1")
    docOp (.rpushKeys key)
  else return

def attach (tag x : String) : Handler Name Batch Unit := do
  docOp (.hsetPps tag x)
  docOp (.rpushTags tag)
  docOp .sortTags
  docOp (.hsetPersist tag .yes)

def hide (tag : String) : Handler Name Batch Unit := do
  let present : Bool ← docOp (.hexistsPps tag)
  if present then
    docOp (.hsetPps tag "0")
    docOp (.hsetPersist tag .no)
  else return

def edit : DocEdit → Handler Name Batch Unit
  | .attach tag x => attach Name Batch tag x
  | .hide tag => hide Name Batch tag
  | .malformed => .raise

/-- The loop of `insertText` over the keys of the batch. -/
def editAll : List DocEdit → Handler Name Batch Unit
  | [] => return
  | e :: rest => do
      edit Name Batch e
      editAll rest

end PPS

/-! ## `app/model/user_order.py` -/

namespace UserOrder

def count : Handler Name Batch Nat := Prog.op Cmd.hlenUsers

def index (user : Name) : Handler Name Batch Int := do
  let keys : List Name ← Prog.op Cmd.hkeysUsers
  if user ∈ keys then
    let position : Nat ← Prog.call (.hgetUsers user) Prog.orRaise
    return (position : Int)
  else return -1

def add (user : Name) : Handler Name Batch Unit := do
  let items : List (Name × Nat) ← Prog.op Cmd.hgetallUsers
  Prog.op (Cmd.hsetUsers (lower user) items.length)
  Prog.op (Cmd.hsetUserChanges (lower user) [])

/-- `hot_redis.Dict` has no `pop` and no `index`, and neither has the Redis
client it forwards them to: an `AttributeError` before any command. -/
def remove (_user : Name) : Handler Name Batch Unit := .raise

def getChangeId : Handler Name Batch Nat := do
  let id : Option Nat ← Prog.op Cmd.getId
  Prog.op (Cmd.setId (intValue id + 1))
  let id : Option Nat ← Prog.op Cmd.getId
  return intValue id

end UserOrder

/-! ## `app/control/router.py` -/

/-- The reply of `/heartbeat`. -/
structure HeartbeatReply (Batch : Type) where
  userCount : Nat
  userPosition : Int
  transactions : List (Nat × Batch)
  deriving DecidableEq

/-- The loop that reads the batches of `ids`. -/
def fetch : List Nat → Handler Name Batch (List (Nat × Batch))
  | [] => return []
  | id :: rest => do
      let batch : Batch ← Prog.call (.hgetChanges id) Prog.orRaise
      let transactions ← fetch rest
      return (id, batch) :: transactions

/-- `set(ids).difference(set(cur_user_ids))`, in ascending order. -/
def newIds (keys : List Nat) (lastReceivedChange : Int) (curUserIds : List Nat) : List Nat :=
  ((keys.filter fun (key : Nat) => lastReceivedChange < key).insertionSort (· ≤ ·)).filter
    fun id => id ∉ curUserIds

def heartbeat (username : Name) (lastGreatestSequenceNumber : Int) :
    Handler Name Batch (HeartbeatReply Batch) := do
  let userCount ← UserOrder.count
  let userPosition ← UserOrder.index (lower username)
  let keys : List Nat ← Prog.op Cmd.hkeysChanges
  let own ← hgetUserChanges (lower username)
  let curUserIds ← Prog.orRaise (ownIds own)
  let transactions ← fetch (newIds keys lastGreatestSequenceNumber curUserIds)
  return { userCount := userCount, userPosition := userPosition, transactions := transactions }

/-- `/login`: the user count and position, or `none` for `'invalid'`. -/
def initialize_ (username : Name) : Handler Name Batch (Option (Nat × Int)) := do
  let present ← UserOrder.index (lower username)
  if present = -1 then
    UserOrder.add lower username
    let userCount ← UserOrder.count
    let userPosition ← UserOrder.index (lower username)
    return some (userCount, userPosition)
  else return none

/-- `/deinitializeCall`: the answer is `'deinitialized successfully'` on every
path.  `empty` is the name `''`. -/
def deinitialize_ (empty username : Name) : Handler Name Batch Unit := do
  let _ ← Prog.attempt (if username ≠ empty then UserOrder.remove username else return)
  return

/-- The end of `insertText`: the ownership of a stored batch, read, tested, read
again and written. -/
def recordOwner (username : Name) (id : Nat) : Handler Name Batch Nat := do
  let ids ← hgetUserChanges (lower username)
  if ids = [] then
    let ids ← hgetUserChanges (lower username)
    Prog.op (Cmd.hsetUserChanges (lower username) (ids ++ str id))
    return id
  else
    let ids ← hgetUserChanges (lower username)
    Prog.op (Cmd.hsetUserChanges (lower username) (ids ++ ',' :: str id))
    return id

/-- `/sendChanges`, with the allocation of the id as a parameter: the source's
`getChangeId`, or `allocate` where it is taken to be atomic. -/
def insertText [Changes Batch] (alloc : Handler Name Batch Nat) (username : Name) (batch : Batch) :
    Handler Name Batch Nat := do
  PPS.init Name Batch
  PPS.editAll Name Batch (Changes.edits batch)
  let id ← alloc
  Prog.op (Cmd.hsetChanges id batch)
  recordOwner lower username id

end Handlers

end ColabEdit.Server
