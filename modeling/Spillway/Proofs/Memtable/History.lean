import Mathlib.Data.List.Induction
import Spillway.Proofs.Memtable
import Spillway.Proofs.Table.Guards

/-!
# Histories of a memtable

A memtable is written to and cleared while iterators over it are under way. After any calls its size
is that of its entries, which are the last writes since it was cleared, and an iterator gives what was
there when it was made, whatever was called since (`size_and_entries_of_history`). The size is kept up
to date by a sum and a difference, and both are words.
-/

namespace Spillway.Memtable

open Table (Trap)
open Table.Guarded (plus minus plus_eq minus_eq ok_bind)

/-- A call on a memtable, or on one of the iterators that were made over it. -/
inductive Call where
  | put (key value : Bytes)
  | delete (key : Bytes)
  | clear
  /-- Makes an iterator. -/
  | iter
  /-- Asks the iterator with this number, counted as they were made. -/
  | next (number : Nat)
  deriving DecidableEq

inductive Reply where
  | size (bytes : Nat)
  | done
  /-- The next entry of an iterator, or none at its end. -/
  | given (entry : Option Entry)

/-- A memtable and, for each iterator over it, the entries that it has left to give. -/
structure Session where
  table : Memtable := {}
  iterators : List (List Entry) := []

variable {m : Memtable} {s : Session} {call : Call} {calls front back : List Call} {key : Bytes}
  {value : Option Bytes} {entries : List Entry} {number : Nat}

/-! ## Calls -/

namespace Session

def reply (s : Session) : Call → Reply
  | .put key value => .size (s.table.put key value).size
  | .delete key => .size (s.table.delete key).size
  | .clear | .iter => .done
  | .next number => .given (s.iterators[number]?.bind List.head?)

def after (s : Session) : Call → Session
  | .put key value => { s with table := s.table.put key value }
  | .delete key => { s with table := s.table.delete key }
  | .clear => { s with table := s.table.clear }
  | .iter => { s with iterators := s.iterators ++ [s.table.entries] }
  | .next number => { s with iterators := s.iterators.modify number List.tail }

def afterAll (s : Session) (calls : List Call) : Session := calls.foldl after s

end Session

/-- The entry that a call writes. -/
def Call.entry? : Call → Option Entry
  | put key value => some (key, some value)
  | delete key => some (key, none)
  | clear | iter | next _ => none

/-- Bytes that are handed to the memtable. -/
def Call.bytes (call : Call) : Nat := (call.entry?.map fun entry => footprint entry.1 entry.2).getD 0

/-- The writes since the last clear, the latest first. -/
def written (calls : List Call) : KeyMap (Option Bytes) :=
  (calls.reverse.takeWhile (· ≠ .clear)).filterMap Call.entry?

/-- What was last written to a key since the last clear: a value, or `none` for a deletion. -/
def lastWrite (calls : List Call) (key : Bytes) : Option (Option Bytes) := (written calls).find? key

/-- In the order of their keys, one entry for each key that was written to since the last clear, with
what was last written to it. -/
structure Lists (calls : List Call) (entries : List Entry) : Prop where
  sorted : KeyMap.Sorted entries
  mem_iff : ∀ key value, (key, value) ∈ entries ↔ lastWrite calls key = some value

/-! ## Entries -/

theorem written_concat (calls : List Call) (call : Call) :
    written (calls ++ [call]) =
      if call = .clear then [] else call.entry?.toList ++ written calls := by
  unfold written
  rw [List.reverse_append, List.reverse_singleton, List.singleton_append, List.takeWhile_cons]
  by_cases hclear : call = .clear
  · rw [if_pos hclear, if_neg (by simpa using hclear)]
    rfl
  · rw [if_neg hclear, if_pos (by simpa using hclear), List.filterMap_cons]
    cases call.entry? <;> rfl

theorem lists_iff : Lists calls entries ↔
    KeyMap.Sorted entries ∧ ∀ key, KeyMap.find? entries key = lastWrite calls key := by
  constructor
  · intro h
    refine ⟨h.sorted, fun key => Option.ext fun value => ?_⟩
    rw [h.sorted.find?_eq_some_iff, h.mem_iff]
  · rintro ⟨hsorted, hfind⟩
    exact ⟨hsorted, fun key value => by rw [← hsorted.find?_eq_some_iff, hfind]⟩

theorem lists_nil : Lists [] [] := lists_iff.2 ⟨KeyMap.sorted_nil, fun _ => rfl⟩

theorem Lists.insert (h : Lists calls entries) (hcall : call.entry? = some (key, value)) :
    Lists (calls ++ [call]) (KeyMap.insert entries key value) := by
  have hclear : call ≠ .clear := by
    rintro rfl
    cases hcall
  obtain ⟨hsorted, hfind⟩ := lists_iff.1 h
  refine lists_iff.2 ⟨hsorted.insert, fun k => ?_⟩
  rw [lastWrite, written_concat, if_neg hclear, hcall, KeyMap.find?_insert, hfind, lastWrite]
  exact (KeyMap.find?_cons (key, value)).symm

theorem Lists.skip (h : Lists calls entries) (hclear : call ≠ .clear) (hcall : call.entry? = none) :
    Lists (calls ++ [call]) entries := by
  obtain ⟨hsorted, hfind⟩ := lists_iff.1 h
  refine lists_iff.2 ⟨hsorted, fun k => ?_⟩
  rw [lastWrite, written_concat, if_neg hclear, hcall, hfind]
  rfl

theorem lists_cleared (calls : List Call) : Lists (calls ++ [.clear]) [] :=
  lists_iff.2 ⟨KeyMap.sorted_nil, fun k => by rw [lastWrite, written_concat, if_pos rfl]⟩

namespace Session

theorem lists_after (h : Lists calls s.table.entries) (call : Call) :
    Lists (calls ++ [call]) (s.after call).table.entries := by
  cases call with
  | put key value => exact h.insert rfl
  | delete key => exact h.insert rfl
  | clear => exact lists_cleared calls
  | iter => exact h.skip nofun rfl
  | next number => exact h.skip nofun rfl

theorem afterAll_cons (s : Session) (call : Call) (calls : List Call) :
    s.afterAll (call :: calls) = (s.after call).afterAll calls := rfl

theorem afterAll_concat (s : Session) (calls : List Call) (call : Call) :
    s.afterAll (calls ++ [call]) = (s.afterAll calls).after call := by
  rw [afterAll, List.foldl_append]
  rfl

/-- The entries of a memtable are the last writes. -/
theorem lists_afterAll (calls : List Call) : Lists calls (afterAll {} calls).table.entries := by
  induction calls using List.reverseRecOn with
  | nil => exact lists_nil
  | append_singleton calls call ih =>
    rw [afterAll_concat]
    exact lists_after ih call

/-! ## Size -/

theorem counted_after (h : s.table.Counted) (call : Call) : (s.after call).table.Counted := by
  cases call with
  | put key value => exact h.write
  | delete key => exact h.write
  | clear => exact counted_empty
  | iter => exact h
  | next number => exact h

theorem counted_afterAll (h : s.table.Counted) (calls : List Call) :
    (s.afterAll calls).table.Counted := by
  induction calls generalizing s with
  | nil => exact h
  | cons call calls ih => exact ih (counted_after h call)

/-- A call that writes tells the bytes of all entries after it. -/
theorem reply_of_write (h : s.table.Counted) (hcall : call.entry?.isSome = true) :
    s.reply call = .size (s.after call).table.total := by
  rw [← (counted_after h call).exact]
  cases call with
  | put key value => rfl
  | delete key => rfl
  | clear | iter | next number => cases hcall

/-! ## Iterators -/

theorem length_iterators_after (s : Session) (call : Call) :
    (s.after call).iterators.length = s.iterators.length + if call == .iter then 1 else 0 := by
  cases call <;> simp [after]

theorem length_iterators_afterAll (s : Session) (calls : List Call) :
    (s.afterAll calls).iterators.length = s.iterators.length + calls.count .iter := by
  induction calls generalizing s with
  | nil => rfl
  | cons call calls ih =>
    have hstep := length_iterators_after s call
    rw [afterAll_cons, ih, List.count_cons]
    omega

/-- An iterator loses an entry when it is asked, and by no other call. -/
theorem iterators_after (h : s.iterators[number]? = some entries) (call : Call) :
    (s.after call).iterators[number]? =
      some (entries.drop (if call == .next number then 1 else 0)) := by
  cases call with
  | put key value => exact h
  | delete key => exact h
  | clear => exact h
  | iter =>
    obtain ⟨hlt, -⟩ := List.getElem?_eq_some_iff.1 h
    show (s.iterators ++ [s.table.entries])[number]? = _
    rw [List.getElem?_append_left hlt, h]
    rfl
  | next other =>
    show (s.iterators.modify other List.tail)[number]? = _
    rw [List.getElem?_modify, h]
    by_cases hother : other = number
    · simp [hother]
    · simp [hother]

theorem iterators_afterAll (h : s.iterators[number]? = some entries) (calls : List Call) :
    (s.afterAll calls).iterators[number]? = some (entries.drop (calls.count (.next number))) := by
  induction calls generalizing s entries with
  | nil => exact h
  | cons call calls ih =>
    have hstep := iterators_after h call
    rw [afterAll_cons, ih hstep, List.drop_drop, List.count_cons,
      Nat.add_comm]

/-- An iterator gives one entry after the other of those that were there when it was made. -/
theorem reply_next (front back : List Call) :
    (afterAll {} (front ++ .iter :: back)).reply (.next (front.count .iter)) =
      .given (afterAll {} front).table.entries[back.count (.next (front.count .iter))]? := by
  have hmade : ((afterAll {} front).after .iter).iterators[front.count .iter]? =
      some (afterAll {} front).table.entries := by
    have hlength := length_iterators_afterAll {} front
    rw [List.length_nil, Nat.zero_add] at hlength
    show ((afterAll {} front).iterators ++ [(afterAll {} front).table.entries])[front.count .iter]? = _
    rw [← hlength, List.getElem?_concat_length]
  have hall : afterAll {} (front ++ .iter :: back) =
      ((afterAll {} front).after .iter).afterAll back := by
    rw [afterAll, List.foldl_append]
    rfl
  rw [hall, reply, iterators_afterAll hmade, Option.bind_some, List.head?_drop]

end Session

/-! ## Words -/

namespace Guarded

/-- Bytes that an entry takes. -/
def measure (key : Bytes) (value : Option Bytes) : Except Trap Nat :=
  plus key.length ((value.map List.length).getD 0)

/-- Bytes of the entry that a write to a key replaces. -/
def replaced (m : Memtable) (key : Bytes) : Except Trap Nat :=
  match m.entries.find? key with
  | none => return 0
  | some old => measure key old

/-- Records a write in the way of `Memtable.write`, and gives the size after it. -/
def write (m : Memtable) (key : Bytes) (value : Option Bytes) : Except Trap (Nat × Memtable) := do
  let added ← measure key value
  let removed ← replaced m key
  let sum ← plus m.size added
  let size ← minus sum removed
  return (size, { entries := m.entries.insert key value, size })

def answer (s : Session) : Call → Except Trap (Reply × Session)
  | .put key value => do
    let (size, table) ← write s.table key (some value)
    return (.size size, { s with table })
  | .delete key => do
    let (size, table) ← write s.table key none
    return (.size size, { s with table })
  | call => return (s.reply call, s.after call)

def afterAll (s : Session) : List Call → Except Trap Session
  | [] => return s
  | call :: rest => do
    let (_, s) ← answer s call
    afterAll s rest

theorem measure_eq (h : footprint key value < UInt64.size) :
    measure key value = .ok (footprint key value) := plus_eq h

theorem replaced_eq (h : ((m.entries.find? key).map (footprint key)).getD 0 < UInt64.size) :
    replaced m key = .ok (((m.entries.find? key).map (footprint key)).getD 0) := by
  unfold replaced
  cases hfind : m.entries.find? key with
  | none => rfl
  | some old =>
    rw [hfind] at h
    exact measure_eq h

/-- The entry that is replaced was counted before, so the difference is not below zero. -/
theorem write_eq (h : m.Counted) (hroom : m.total + footprint key value < UInt64.size) :
    write m key value = .ok ((m.write key value).size, m.write key value) := by
  have hweight : (m.write key value).total + ((m.entries.find? key).map (footprint key)).getD 0 =
    m.total + footprint key value := h.sorted.weight_insert
  have hexact := h.exact
  rw [write, measure_eq (by omega), ok_bind, replaced_eq (by omega), ok_bind, plus_eq (by omega),
    ok_bind, minus_eq (by omega)]
  rfl

theorem answer_eq (h : s.table.Counted) (hroom : s.table.total + call.bytes < UInt64.size) :
    answer s call = .ok (s.reply call, s.after call) := by
  cases call with
  | put key value =>
    rw [answer, write_eq h hroom]
    rfl
  | delete key =>
    rw [answer, write_eq h hroom]
    rfl
  | clear | iter | next number => rfl

end Guarded

/-- With what each call hands to it, the memtable holds no more bytes than a word can count. -/
def Roomy (s : Session) : List Call → Prop
  | [] => True
  | call :: rest => s.table.total + call.bytes < UInt64.size ∧ Roomy (s.after call) rest

theorem Session.total_after_le (h : s.table.Counted) (call : Call) :
    (s.after call).table.total ≤ s.table.total + call.bytes := by
  have hwrite (key : Bytes) (value : Option Bytes) :
      (s.table.write key value).total + ((s.table.entries.find? key).map (footprint key)).getD 0 =
        s.table.total + footprint key value := h.sorted.weight_insert
  cases call with
  | put key value => exact Nat.le_of_add_right_le (Nat.le_of_eq (hwrite key (some value)))
  | delete key => exact Nat.le_of_add_right_le (Nat.le_of_eq (hwrite key none))
  | clear => exact Nat.zero_le _
  | iter | next number => exact Nat.le_refl _

/-- That is so as long as a word can count the bytes of all calls together. -/
theorem roomy_of_sum_lt (h : s.table.Counted)
    (hsum : s.table.total + (calls.map Call.bytes).sum < UInt64.size) : Roomy s calls := by
  induction calls generalizing s with
  | nil => trivial
  | cons call calls ih =>
    have hle := Session.total_after_le h call
    rw [List.map_cons, List.sum_cons] at hsum
    exact ⟨by omega, ih (Session.counted_after h call) (by omega)⟩

theorem Guarded.afterAll_eq (h : s.table.Counted) (hroom : Roomy s calls) :
    afterAll s calls = .ok (s.afterAll calls) := by
  induction calls generalizing s with
  | nil => rfl
  | cons call calls ih =>
    rw [afterAll, answer_eq h hroom.1, ok_bind]
    exact ih (Session.counted_after h call) hroom.2

/-- After any calls on a new memtable and on iterators over it, all of which are answered without an
overflow, the size is that of the entries, and these are the last writes since the last clear, in the
order of their keys. The next call is answered without an overflow too, and if it writes, it tells the
bytes of all entries after it. An iterator that was made between some calls and others gives the last
writes of the former in the order of their keys, one each time that it is asked. -/
theorem size_and_entries_of_history (hroom : Roomy {} calls) :
    let s := Session.afterAll {} calls
    Guarded.afterAll {} calls = .ok s ∧ s.table.size = s.table.total ∧ Lists calls s.table.entries ∧
    (∀ call, s.table.total + call.bytes < UInt64.size →
      Guarded.answer s call = .ok (s.reply call, s.after call) ∧
      (call.entry?.isSome → s.reply call = .size (s.after call).table.total)) ∧
    ∀ front back, calls = front ++ .iter :: back → ∃ entries, Lists front entries ∧
      s.reply (.next (front.count .iter)) =
        .given entries[back.count (.next (front.count .iter))]? := by
  intro s
  have hcounted : s.table.Counted := Session.counted_afterAll counted_empty calls
  refine ⟨Guarded.afterAll_eq counted_empty hroom, hcounted.exact, Session.lists_afterAll calls, ?_, ?_⟩
  · intro call hcall
    exact ⟨Guarded.answer_eq hcounted hcall, Session.reply_of_write hcounted⟩
  · rintro front back rfl
    exact ⟨_, Session.lists_afterAll front, Session.reply_next front back⟩

/-- A key is written, and deleted when an iterator has been made. -/
def deleted : List Call := [.put [1] [7, 7], .iter, .delete [1], .put [0] [5]]

/-- A second iterator is asked, the memtable is cleared and written to, and the first is asked. -/
def refilled : List Call := [.next 1, .clear, .put [2] [8], .next 0]

theorem size_and_entries_of_history_refilled :
    ∃ s entries, Guarded.afterAll {} (deleted ++ .iter :: refilled) = .ok s ∧
      s.table.size = s.table.total ∧ Lists (deleted ++ .iter :: refilled) s.table.entries ∧
      Lists deleted entries ∧ ([1], none) ∈ entries ∧ s.reply (.next 1) = .given entries[1]? := by
  have hroom : Roomy {} (deleted ++ .iter :: refilled) := roomy_of_sum_lt counted_empty (by decide)
  obtain ⟨hwords, hexact, hlists, -, hiterators⟩ := size_and_entries_of_history hroom
  obtain ⟨entries, hentries, hreply⟩ := hiterators deleted refilled rfl
  have hmem : ([1], none) ∈ entries := (hentries.mem_iff _ _).2 (by decide)
  exact ⟨_, entries, hwords, hexact, hlists, hentries, hmem, hreply⟩

end Spillway.Memtable
