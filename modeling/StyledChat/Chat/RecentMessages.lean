/-
The most recent message of each sender, for a bounded number of senders.

Every put is stamped with its number, which starts over behind the largest one of 64
bits.  When a put makes the store larger than its capacity, the entries with the
oldest stamps go, a whole batch at once, but never the entry just put.
-/
import StyledChat.Text

namespace StyledChat

/-- A sender's message, stamped with the number of the put that stored it. -/
structure RecentMessage (K : Type) where
  sender : K
  text : Text
  stamp : UInt64

/-- At most one message per sender. -/
structure RecentMessages (K : Type) where
  capacity : Nat
  batch : Nat
  entries : List (RecentMessage K) := []
  /-- The stamp of the next put. -/
  next : UInt64 := 0

namespace RecentMessages

variable {K : Type} [DecidableEq K]

/-- The number of senders above which entries are evicted. -/
def defaultCapacity : Nat := 1000

/-- The number of entries evicted at once. -/
def defaultBatch : Nat := 100

/-- An empty store for about `capacity` senders that evicts `batch` entries, but
at least one, whenever it grows larger. -/
def bounded (capacity batch : Nat) : RecentMessages K := { capacity, batch := max batch 1 }

/-- An empty store with the default bounds. -/
def empty : RecentMessages K := bounded defaultCapacity defaultBatch

def find? (m : RecentMessages K) (sender : K) : Option (RecentMessage K) :=
  m.entries.find? fun e => e.sender == sender

/-- The stored text of a sender. -/
def get? (m : RecentMessages K) (sender : K) : Option Text := (m.find? sender).map (·.text)

def size (m : RecentMessages K) : Nat := m.entries.length

def isEmpty (m : RecentMessages K) : Bool := m.entries.isEmpty

/-- The entries with a message put in: in place of the sender's earlier one, or
at the end. -/
def insert (new : RecentMessage K) : List (RecentMessage K) → List (RecentMessage K)
  | [] => [new]
  | e :: rest => if e.sender = new.sender then new :: rest else e :: insert new rest

/-- The stamp up to which entries go when `count` of the given stamps do. -/
def cutoff? (count : Nat) (stamps : List UInt64) : Option UInt64 :=
  (stamps.mergeSort (· ≤ ·))[count - 1]?

/-- Evicts the oldest entries, a batch of them, but not the one stamped `keep`. -/
def evict (m : RecentMessages K) (keep : UInt64) : RecentMessages K :=
  let stamps := (m.entries.map (·.stamp)).filter (· != keep)
  match cutoff? (min m.batch stamps.length) stamps with
  | none => m
  | some last =>
    { m with entries := m.entries.filter fun e => e.stamp > last || e.stamp == keep }

/-- Stores a message as the latest of its sender. -/
def put (m : RecentMessages K) (sender : K) (text : Text) : RecentMessages K :=
  let stamp := m.next
  let m := { m with entries := insert ⟨sender, text, stamp⟩ m.entries, next := stamp + 1 }
  if m.size > m.capacity then m.evict stamp else m

/-- Forgets a sender, and gives the text that was stored. -/
def remove (m : RecentMessages K) (sender : K) : Option Text × RecentMessages K :=
  (m.get? sender, { m with entries := m.entries.filter fun e => e.sender ≠ sender })

/-- Forgets everybody. -/
def clear (m : RecentMessages K) : RecentMessages K := { m with entries := [] }

end RecentMessages

end StyledChat
