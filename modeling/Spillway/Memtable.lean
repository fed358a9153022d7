import Spillway.KeyMap

/-!
# The memtable

The writes of a partition that are not in a table yet: for each key the last write, with the total
size of keys and values.
-/

namespace Spillway

structure Memtable where
  entries : KeyMap (Option Bytes) := []
  /-- Bytes of all keys and values; a deletion counts its key only. -/
  size : Nat := 0

namespace Memtable

/-- Bytes that an entry takes. -/
def footprint (key : Bytes) (value : Option Bytes) : Nat :=
  key.length + (value.map List.length).getD 0

/-- Records a write; the size grows by the new entry and shrinks by the one it replaces. -/
def write (m : Memtable) (key : Bytes) (value : Option Bytes) : Memtable where
  entries := m.entries.insert key value
  size := m.size + footprint key value - ((m.entries.find? key).map (footprint key)).getD 0

def put (m : Memtable) (key value : Bytes) : Memtable := m.write key (some value)

def delete (m : Memtable) (key : Bytes) : Memtable := m.write key none

/-- Forgets all writes. -/
def clear (_ : Memtable) : Memtable := {}

/-- What is known of a key: `none` when nothing was written, `some none` when it was deleted. -/
def find? (m : Memtable) (key : Bytes) : Option (Option Bytes) := m.entries.find? key

def isEmpty (m : Memtable) : Bool := m.entries.isEmpty

/-- Whether the size has reached a limit. -/
def isFull (m : Memtable) (limit : Nat) : Bool := limit ≤ m.size

end Memtable

end Spillway
