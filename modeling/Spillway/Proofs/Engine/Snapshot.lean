import Spillway.Proofs.Engine.Scan
import Spillway.Proofs.Engine.Session

/-!
# Scans are snapshots

A scan that is under way reads files that stay as they are, whatever is written, merged, dropped or
closed in the meantime. So it yields what its partition held when it was opened (`scan_is_snapshot`).
-/

namespace Spillway

theorem Source.Gives.mono {d d' : Disk} {s : Source} {entries : List Entry} (h : s.Gives d entries)
    (hd : Disk.Later d d') : s.Gives d' entries := by
  cases s with
  | listed _ => exact h
  | table _ => exact Table.Cursor.Reads.mono h hd

namespace Scan

variable {d d' : Disk} {s : Scan} {pairs : List (Bytes × Bytes)}

/-- These pairs are what a scan has left to give. -/
def Leaves (d : Disk) (s : Scan) (pairs : List (Bytes × Bytes)) : Prop :=
  ∃ entries : List Entry, s.merge.Leaves (Source.Gives d) entries ∧
    pairs = entries.map fun entry => (entry.1, entry.2.getD [])

theorem Leaves.mono (h : s.Leaves d pairs) (hd : Disk.Later d d') : s.Leaves d' pairs := by
  obtain ⟨entries, hmerge, hpairs⟩ := h
  exact ⟨entries, hmerge.mono fun _ _ hgives => hgives.mono hd, hpairs⟩

theorem Leaves.next (h : s.Leaves d pairs) :
    ∃ s', s.next d = (pairs.head?.map .ok, s') ∧ s'.Leaves d pairs.tail := by
  obtain ⟨entries, hmerge, rfl⟩ := h
  obtain ⟨merge', hnext, hmerge'⟩ := hmerge.next (Source.feed_tracks d)
  refine ⟨{ s with merge := merge' }, ?_, entries.tail, hmerge', List.map_tail.symm⟩
  rw [Scan.next, hnext]
  cases entries <;> rfl

end Scan

namespace Engine

variable {e e₀ : Engine} {d d₀ : Disk} {r : Registry} {uses : Nat} {clean : Prop} {name : String}
  {root : Path} {s : Scan} {t t' : Engine × Disk} {pairs : List (Bytes × Bytes)}

/-- What happens while a scan is under way: its next entry is asked for, or something else is called. -/
inductive Event where
  | next
  | call (call : Call)

def Event.isNext : Event → Bool
  | next => true
  | call _ => false

def Event.cost : Event → Nat
  | next => 0
  | call c => c.cost

/-- What a scan gives when it is asked, among other calls on its engine. -/
def watch (s : Scan) (t : Engine × Disk) :
    List Event → List (Option (Except Error (Bytes × Bytes)))
  | [] => []
  | .next :: rest =>
    let (found, s) := s.next t.2
    found :: watch s t rest
  | .call c :: rest => watch s (after c.run t) rest

/-- The first results of asking for one pair after the other, which end with nothing. -/
def firstOf (pairs : List (Bytes × Bytes)) (n : Nat) : List (Option (Except Error (Bytes × Bytes))) :=
  (pairs.map (some ∘ Except.ok) ++ List.replicate n none).take n

theorem firstOf_succ (pairs : List (Bytes × Bytes)) (n : Nat) :
    firstOf pairs (n + 1) = pairs.head?.map .ok :: firstOf pairs.tail n := by
  unfold firstOf
  cases pairs with
  | nil => simp [List.replicate_succ]
  | cons pair pairs =>
    have hmin (length : Nat) : min (n - length) (n + 1) = min (n - length) n := by omega
    simp only [List.map_cons, List.cons_append, List.take_succ_cons, List.tail_cons, List.head?_cons]
    rw [List.take_append, List.take_append, List.take_replicate, List.take_replicate, hmin]
    rfl

/-- Whatever else is called, a scan gives what it had left. -/
theorem watch_eq (events : List Event) (h : t.1.Stands t.2 r uses clean)
    (hleaves : s.Leaves t.2 pairs)
    (hw : 1 + 2 * (uses + (events.map Event.cost).sum) < UInt64.size) :
    watch s t events = firstOf pairs (events.countP Event.isNext) := by
  induction events generalizing s t r uses clean pairs with
  | nil => rfl
  | cons event events ih =>
    rw [List.map_cons, List.sum_cons] at hw
    cases event with
    | next =>
      obtain ⟨s', hnext, hleaves'⟩ := hleaves.next
      rw [List.countP_cons_of_pos rfl, firstOf_succ, watch, hnext]
      exact congrArg _ (ih h hleaves' (by omega))
    | call c =>
      rw [List.countP_cons_of_neg Bool.false_ne_true, watch]
      have hcost : (Event.call c).cost = c.cost := rfl
      obtain ⟨⟨r', hstands⟩, hlater⟩ := h.after_call c (by omega)
      exact ih hstands (hleaves.mono hlater) (by omega)

/-- A scan is a snapshot. In any state of an engine that calls lead to, whether they succeed, are refused
or fail, a scan that is opened yields exactly the pairs that its partition holds then, in the order of
their keys and without a failure, whatever is called between the entries. -/
theorem scan_is_snapshot {config : Config} {disposable : Bool} {before : List Call}
    {events : List Event} (hs : d.Sound) (honest : some .notFound ∉ d.faults)
    (hroot : Disk.Downward root) (hstart : start root config disposable d = .ok e₀ d₀)
    (hbefore : afterAll before (e₀, d₀) = t) (hscan : scan name t = .ok s t')
    (hroom : 1 + 2 * (totalCost before + (events.map Event.cost).sum) < UInt64.size) :
    ∃ p pairs, t.1.partition? name = some p ∧ KeyMap.Sorted pairs ∧
      (∀ key v, (key, v) ∈ pairs ↔ p.find t.2 key = .ok (some v)) ∧
      watch s t' events = firstOf pairs (events.countP Event.isNext) := by
  obtain ⟨hstands₀, -, -⟩ := stands_of_start hs honest hroot hstart
  have hbound : 1 + 2 * (0 + totalCost before) < UInt64.size := by omega
  obtain ⟨⟨r, hstands⟩, -⟩ := hstands₀.afterAll (t := (e₀, d₀)) hbound
  rw [hbefore, Nat.zero_add] at hstands
  obtain ⟨e, d⟩ := t
  obtain ⟨-, hstands', -, value, entries, hvalue, hsorted, hfind, hleaves⟩ :=
    (hstands.ends_scan name).of_ok hscan
  obtain ⟨p, hp, hmember⟩ := hstands.partition?_of_value hvalue
  have hpairs : KeyMap.Sorted (entries.map fun entry => (entry.1, entry.2.getD [])) :=
    hsorted.map fun v : Option Bytes => v.getD []
  refine ⟨p, _, hp, hpairs, fun key v => ?_, watch_eq events hstands' ⟨entries, hleaves, rfl⟩ hroom⟩
  rw [← hpairs.find?_eq_some_iff, KeyMap.find?_map fun v : Option Bytes => v.getD [], hfind key,
    hmember.serves.find key]
  cases value key <;> simp

/-- An engine that was started at an empty root, and flushes each write. -/
def started : Engine × Disk := resultOf (start eager.root eager.config false) eager {}

theorem start_started : start eager.root eager.config false {} = .ok started.1 started.2 :=
  eq_ok_of_succeeds (by decide +kernel) eager

theorem downward_eager : Disk.Downward eager.root :=
  Disk.downward_of_parts (by decide +kernel) (by decide +kernel)

def filled : List Call := [.create "p", .write "p" (.put [1] [7]), .write "p" (.put [2] [8])]

/-- A partition is dropped, made and filled again, and dropped with the whole engine. -/
def recreation : List Event :=
  [.next, .call (.drop "p"), .call (.create "p"), .call (.write "p" (.put [1] [9])), .next,
    .call .close, .next]

theorem scan_is_snapshot_recreation :
    ∃ s t' pairs, scan "p" (afterAll filled started) = .ok s t' ∧ ([1], [7]) ∈ pairs ∧
      watch s t' recreation = firstOf pairs 3 := by
  have hsucceeds : succeeds (scan "p") (afterAll filled started) = true := by decide +kernel
  obtain ⟨s, t', hscan⟩ := exists_of_succeeds hsucceeds
  have hroom : 1 + 2 * (totalCost filled + (recreation.map Event.cost).sum) < UInt64.size := by
    decide +kernel
  obtain ⟨p, pairs, hp, -, hpairs, hwatch⟩ := scan_is_snapshot
    (fun _ hx => absurd hx List.not_mem_nil) List.not_mem_nil downward_eager start_started rfl hscan
    hroom
  have hfind : ((afterAll filled started).1.partition? "p").map
      (fun p => (p.find (afterAll filled started).2 [1]).toOption) = some (some (some [7])) := by
    decide +kernel
  refine ⟨s, t', pairs, hscan, (hpairs _ _).2 ?_, hwatch⟩
  rw [hp, Option.map_some, Option.some.injEq] at hfind
  cases hvalue : p.find (afterAll filled started).2 [1] with
  | ok found =>
    rw [hvalue] at hfind
    cases hfind
    rfl
  | error err =>
    rw [hvalue] at hfind
    cases hfind

end Engine

end Spillway
