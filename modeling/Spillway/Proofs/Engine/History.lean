import Spillway.Proofs.Engine.Start

/-!
# Histories of writes

After any history of calls that write to a partition, a lookup gives what the last write to its key
left there (`find_eq_lastWrite`).
-/

namespace Spillway.Engine

open Table

variable {e : Engine} {d : Disk} {name : String} {allowed : Entry → Prop}
  {value : Bytes → Option Bytes} {writes : Nat}

/-- A call that writes to a partition. -/
inductive Write where
  | put (key value : Bytes)
  | putBatch (batch : List (Bytes × Bytes))
  | delete (key : Bytes)
  | flush

namespace Write

/-- The entries that a call writes, in order. -/
def entries : Write → List Entry
  | put key v => [(key, some v)]
  | putBatch batch => Partition.puts batch
  | delete key => [(key, none)]
  | flush => []

def run (name : String) : Write → EngineM Unit
  | put key v => Engine.put name key v
  | putBatch batch => discard (Engine.putBatch name batch)
  | delete key => Engine.delete name key
  | flush => Engine.flush name

end Write

/-- What the last of some writes to a key left there. -/
def lastWrite (entries : List Entry) (key : Bytes) : Option Bytes :=
  (KeyMap.find? entries.reverse key).join

theorem foldl_record_none (entries : List Entry) :
    entries.foldl record (fun _ => none) = lastWrite entries := by
  funext key
  rw [foldl_record, lastWrite]
  cases KeyMap.find? entries.reverse key <;> rfl

/-- Each call that writes records its entries. -/
theorem ends_run (write : Write) (h : e.Holds d name allowed value writes)
    (hallowed : ∀ entry ∈ write.entries, allowed entry)
    (hw : 1 + 2 * (writes + write.entries.length) < UInt64.size) :
    Ends (write.run name) (e, d)
      (fun _ t => t.1.Holds t.2 name allowed (write.entries.foldl record value)
        (writes + write.entries.length) ∧ Disk.Later d t.2)
      fun err _ => (∀ entry ∈ write.entries, Accepts entry) → Interrupted d allowed err := by
  cases write with
  | put key v =>
    exact (ends_put h (hallowed _ List.mem_cons_self) hw).imp_fail fun _ _ he ha =>
      he.resolve_right fun hn => hn.2 (ha _ List.mem_cons_self)
  | putBatch batch =>
    have hlength : (Write.putBatch batch).entries.length = batch.length := List.length_map _
    rw [hlength] at hw ⊢
    exact Ends.bind ((ends_putBatch h hallowed hw).imp_fail fun _ _ he ha =>
      he.resolve_right fun hn => hn.2 ha) fun _ _ ht => Ends.pure ht
  | delete key =>
    exact (ends_delete h (hallowed _ List.mem_cons_self) hw).imp_fail fun _ _ he ha =>
      he.resolve_right fun hn => hn.2 (ha _ List.mem_cons_self)
  | flush => exact (ends_flush h hw).imp_fail fun _ _ he _ => he

/-- A history of calls records all their entries. It fails only for entries that are not accepted, for a
fault of the disk or for a table of their entries that is too large. -/
theorem ends_history (history : List Write) (h : e.Holds d name allowed value writes)
    (hallowed : ∀ entry ∈ history.flatMap Write.entries, allowed entry)
    (hw : 1 + 2 * (writes + (history.flatMap Write.entries).length) < UInt64.size) :
    Ends (history.forM (Write.run name)) (e, d)
      (fun _ t => t.1.Holds t.2 name allowed ((history.flatMap Write.entries).foldl record value)
        (writes + (history.flatMap Write.entries).length) ∧ Disk.Later d t.2)
      fun err _ => (∀ entry ∈ history.flatMap Write.entries, Accepts entry) →
        Interrupted d allowed err := by
  induction history generalizing e d value writes with
  | nil => exact Ends.pure ⟨h, Disk.later_refl d⟩
  | cons write history ih =>
    rw [List.flatMap_cons, List.length_append] at hw
    rw [List.flatMap_cons, List.forall_mem_append] at hallowed
    simp only [List.flatMap_cons, List.length_append, List.foldl_append, List.forall_mem_append]
    refine Ends.bind ((ends_run write h hallowed.1 (by omega)).imp_fail fun _ _ he ha => he ha.1) ?_
    rintro _ ⟨e₁, d₁⟩ ⟨hholds, hlater⟩
    refine (ih hholds hallowed.2 (by omega)).mono ?_ fun _ _ he ha =>
      (he ha.2).mono hlater fun _ h => h
    rintro _ ⟨e₂, d₂⟩ ⟨hholds₂, hlater₂⟩
    rw [← Nat.add_assoc]
    exact ⟨hholds₂, hlater.trans hlater₂⟩

/-- After any history of calls on a new partition that succeed, whatever tables were written and
merged, the partition gives for each key what the last write left there. So does the engine for
each key that it accepts; the others are too long for a table. -/
theorem find_eq_lastWrite {e' : Engine} {d' : Disk} {history : List Write} (hready : e.Ready d name)
    (hrun : (createPartition name >>= fun _ => history.forM (Write.run name)) (e, d) =
      .ok ⟨⟩ (e', d'))
    (hroom : 1 + 2 * (history.flatMap Write.entries).length < UInt64.size) :
    (∃ p, e'.partition? name = some p ∧
      ∀ key, p.find d' key = .ok (lastWrite (history.flatMap Write.entries) key)) ∧
    ∀ key, key ≠ [] → find name key (e', d') =
      if key.length ≤ maxEntryBytes then
        .ok (lastWrite (history.flatMap Write.entries) key) (e', d')
      else
        .error (.invalidArgument (.tooManyBytes .key key.length maxEntryBytes)) (e', d') := by
  have hends : Ends (createPartition name >>= fun _ => history.forM (Write.run name)) (e, d)
      (fun _ t => t.1.Holds t.2 name (· ∈ history.flatMap Write.entries)
        (lastWrite (history.flatMap Write.entries)) (0 + (history.flatMap Write.entries).length))
      fun _ _ => True := by
    refine Ends.bind ((ends_createPartition (· ∈ history.flatMap Write.entries) hready).imp_fail
      fun _ _ _ => trivial) ?_
    rintro _ ⟨e₁, d₁⟩ ⟨hcreated, -⟩
    refine (ends_history history hcreated (fun _ h => h) (by omega)).mono (fun _ _ ht => ?_)
      fun _ _ _ => trivial
    rw [← foldl_record_none]
    exact ht.1
  have hholds := hends.of_ok hrun
  obtain ⟨p, hp, hpartition⟩ := hholds.partition
  refine ⟨⟨p, hp, hpartition.find⟩, fun key hkey => ?_⟩
  by_cases hlength : key.length ≤ maxEntryBytes
  · rw [if_pos hlength]
    obtain ⟨found, t, hfind, rfl, rfl, -⟩ :=
      (ends_find hholds key).exists_ok fun _ _ hn => hn.2 ⟨hkey, hlength⟩
    exact hfind
  · rw [if_neg hlength]
    unfold find checkBytes
    rw [if_neg hkey, if_pos (Nat.not_le.1 hlength)]
    rfl

theorem find_eq_lastWrite_eager :
    ∃ e' d', find "p" [1] (e', d') = .ok (some [9]) (e', d') ∧
      find "p" [2] (e', d') = .ok none (e', d') := by
  have hsucceeds : succeeds (createPartition "p" >>= fun _ => List.forM
      [.put [1] [7], .putBatch [([2], [8]), ([1], [9])], .delete [2], .put [3] [4], .flush]
      (Write.run "p")) (eager, {}) = true := by decide +kernel
  obtain ⟨_, ⟨e', d'⟩, hrun⟩ := exists_of_succeeds hsucceeds
  have hfind := (find_eq_lastWrite eager_ready hrun (by decide)).2
  exact ⟨e', d', hfind [1] (by decide), hfind [2] (by decide)⟩

end Spillway.Engine
