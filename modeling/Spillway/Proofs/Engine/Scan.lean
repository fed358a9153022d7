import Spillway.Proofs.Engine.History

/-!
# Scans

Scans and lookups read a partition in different ways: a scan merges all entries, a lookup searches the
memtable and then one table after the other. They agree after any history of calls that write
(`scan_agrees_with_find`).
-/

namespace Spillway

namespace Scan

variable {d : Disk} {s s' : Scan}

/-- Calls for the next entry give these pairs one by one, without a failure, and then nothing more. -/
def Yields (d : Disk) (s : Scan) (pairs : List (Bytes × Bytes)) : Prop :=
  ∀ n, (s.nextMany d n).1 = (pairs.map (some ∘ Except.ok) ++ List.replicate n none).take n

theorem toList_eq_cons {found : Except Error (Bytes × Bytes)} (h : s.next d = (some found, s')) :
    s.toList d = found :: s'.toList d := by
  unfold next at h
  cases hnext : s.merge.next (Source.feed d) with
  | mk item? merge =>
    rw [hnext] at h
    cases item? with
    | none => cases h
    | some item =>
      cases h
      rw [toList, Merge.toList_eq_cons hnext]
      rfl

/-- A scan that has ended gives nothing more. -/
theorem toList_eq_nil (h : s.next d = (none, s')) : s.toList d = [] ∧ s'.toList d = [] := by
  unfold next at h
  cases hnext : s.merge.next (Source.feed d) with
  | mk item? merge =>
    rw [hnext] at h
    cases item? with
    | some item => cases h
    | none =>
      cases h
      obtain ⟨hnil, hnil'⟩ := Merge.toList_eq_nil hnext
      simp [toList, hnil, hnil']

theorem nextMany_eq (d : Disk) (s : Scan) (n : Nat) :
    (s.nextMany d n).1 = ((s.toList d).map some ++ List.replicate n none).take n := by
  induction n generalizing s with
  | zero => rfl
  | succ n ih =>
    rw [nextMany]
    cases hnext : s.next d with
    | mk found s' =>
      cases found with
      | none =>
        obtain ⟨hnil, hnil'⟩ := toList_eq_nil hnext
        simp [ih, hnil, hnil', List.replicate_succ]
      | some item =>
        have hmin (length : Nat) : min (n - length) n = min (n - length) (n + 1) := by omega
        simp only [ih, toList_eq_cons hnext, List.map_cons, List.cons_append, List.take_succ_cons]
        rw [List.take_append, List.take_append, List.take_replicate, List.take_replicate, hmin]

theorem yields_of_toList {pairs : List (Bytes × Bytes)} (h : s.toList d = pairs.map .ok) :
    s.Yields d pairs := by
  intro n
  rw [nextMany_eq, h, List.map_map]

end Scan

namespace Engine

variable {e : Engine} {d : Disk} {name : String} {allowed : Entry → Prop}
  {value : Bytes → Option Bytes} {writes : Nat}

/-! ## Entries that were accepted -/

/-- A call that succeeds was given only entries that the engine accepts. -/
theorem ends_run_accepts (write : Write) (s : Engine × Disk) :
    Ends (write.run name) s (fun _ _ => ∀ entry ∈ write.entries, Accepts entry)
      fun _ _ => True := by
  cases write with
  | put key v =>
    refine Ends.bind ((ends_checkBytes .key key).imp_fail fun _ _ _ => trivial) ?_
    rintro _ t ⟨-, hkey⟩
    refine Ends.bind ((ends_checkBytes .value v).imp_fail fun _ _ _ => trivial) ?_
    rintro _ t ⟨-, hv⟩
    refine (Ends.trivial _ t).imp fun _ _ _ => ?_
    simp [Write.entries, Accepts, hkey, hv]
  | putBatch batch =>
    refine Ends.bind (M := fun _ _ => ∀ entry ∈ Partition.puts batch, Accepts entry) ?_
      fun _ _ h => Ends.pure h
    refine Ends.bind ((ends_checkBatch batch).imp_fail fun _ _ _ => trivial) ?_
    rintro _ t ⟨-, haccepts⟩
    exact (Ends.trivial _ t).imp fun _ _ _ => haccepts
  | delete key =>
    refine Ends.bind ((ends_checkBytes .key key).imp_fail fun _ _ _ => trivial) ?_
    rintro _ t ⟨-, hkey⟩
    refine (Ends.trivial _ t).imp fun _ _ _ => ?_
    simp [Write.entries, Accepts, hkey]
  | flush => exact (Ends.trivial _ s).imp fun _ _ _ _ h => absurd h List.not_mem_nil

theorem ends_history_accepts (history : List Write) (s : Engine × Disk) :
    Ends (history.forM (Write.run name)) s
      (fun _ _ => ∀ entry ∈ history.flatMap Write.entries, Accepts entry) fun _ _ => True := by
  induction history generalizing s with
  | nil => exact Ends.pure fun _ h => absurd h List.not_mem_nil
  | cons write history ih =>
    refine Ends.bind (ends_run_accepts write s) fun _ t hwrite => ?_
    refine (ih t).imp fun _ _ hhistory => ?_
    rw [List.flatMap_cons, List.forall_mem_append]
    exact ⟨hwrite, hhistory⟩

theorem mem_of_lastWrite {entries : List Entry} {key v : Bytes}
    (h : lastWrite entries key = some v) : (key, some v) ∈ entries := by
  rw [lastWrite, Option.join_eq_some_iff] at h
  exact List.mem_reverse.1 (KeyMap.mem_of_find? h)

/-! ## What a scan yields -/

/-- The pairs of a partition, in the order of their keys. -/
theorem Holds.exists_pairs (h : e.Holds d name allowed value writes) :
    ∃ pairs : KeyMap Bytes, KeyMap.Sorted pairs ∧ ∀ key, pairs.find? key = value key := by
  obtain ⟨p, -, hholds⟩ := h.partition
  obtain ⟨place, layers, left, -, -, hvalue⟩ := hholds.tables
  refine ⟨(KeyMap.merged false (p.memtable.entries :: layers.map Prod.snd)).map
    fun entry => (entry.1, entry.2.getD []), KeyMap.sorted_merged.map fun v => v.getD [],
    fun key => ?_⟩
  rw [KeyMap.find?_map fun v : Option Bytes => v.getD [], KeyMap.find?_merged_false, hvalue key]
  cases value key <;> rfl

theorem ends_scan_yields {pairs : KeyMap Bytes} (h : e.Holds d name allowed value writes)
    (hsorted : KeyMap.Sorted pairs) (hfind : ∀ key, pairs.find? key = value key) :
    Ends (scan name) (e, d)
      (fun s t => t.1.Holds t.2 name allowed value writes ∧ s.Yields t.2 pairs)
      fun err _ => ∃ cause, err = .engine (.scan name) cause ∧ Faulted d cause := by
  refine (ends_scan h).imp ?_
  rintro s t ⟨hholds, -, pairs', hsorted', hfind', hlist⟩
  have hsame : pairs' = pairs := hsorted'.ext hsorted fun key => (hfind' key).trans (hfind key).symm
  subst hsame
  exact ⟨hholds, Scan.yields_of_toList hlist⟩

/-- After a history on a new partition that succeeds, the keys have the values that were written last, and
all entries were accepted; the partition has no others. -/
theorem holds_of_history {e' : Engine} {d' : Disk} {history : List Write} (hready : e.Ready d name)
    (hrun : (createPartition name >>= fun _ => history.forM (Write.run name)) (e, d) =
      .ok ⟨⟩ (e', d'))
    (hroom : 1 + 2 * (history.flatMap Write.entries).length < UInt64.size) :
    e'.Holds d' name (· ∈ history.flatMap Write.entries)
        (lastWrite (history.flatMap Write.entries)) (history.flatMap Write.entries).length ∧
      Disk.Later d d' ∧ ∀ entry ∈ history.flatMap Write.entries, Accepts entry := by
  have hends : Ends (createPartition name >>= fun _ => history.forM (Write.run name)) (e, d)
      (fun _ t => (t.1.Holds t.2 name (· ∈ history.flatMap Write.entries)
          (lastWrite (history.flatMap Write.entries)) (history.flatMap Write.entries).length ∧
            Disk.Later d t.2) ∧
        ∀ entry ∈ history.flatMap Write.entries, Accepts entry) fun _ _ => True := by
    refine Ends.bind ((ends_createPartition (· ∈ history.flatMap Write.entries) hready).imp_fail
      fun _ _ _ => trivial) ?_
    rintro _ ⟨e₁, d₁⟩ ⟨hcreated, hlater⟩
    have hhistory := ends_history history hcreated (fun _ h => h) (by omega)
    rw [foldl_record_none, Nat.zero_add] at hhistory
    refine (hhistory.and (ends_history_accepts history (e₁, d₁))).mono ?_ fun _ _ _ => trivial
    rintro _ t ⟨⟨hholds, hlater₁⟩, haccepts⟩
    exact ⟨⟨hholds, hlater.trans hlater₁⟩, haccepts⟩
  obtain ⟨⟨hholds, hlater⟩, haccepts⟩ := hends.of_ok hrun
  exact ⟨hholds, hlater, haccepts⟩

/-- After any history of calls on a new partition that succeed, a scan yields exactly the pairs that
lookups find, in the order of their keys, and a second scan yields the same. Only a fault of the disk
keeps a scan from starting, and none ends it early. -/
theorem scan_agrees_with_find {e' : Engine} {d' : Disk} {history : List Write}
    (hready : e.Ready d name)
    (hrun : (createPartition name >>= fun _ => history.forM (Write.run name)) (e, d) =
      .ok ⟨⟩ (e', d'))
    (hroom : 1 + 2 * (history.flatMap Write.entries).length < UInt64.size) :
    ∃ p pairs, e'.partition? name = some p ∧ KeyMap.Sorted pairs ∧
      (∀ key v, (key, v) ∈ pairs ↔ p.find d' key = .ok (some v)) ∧
      (∀ key v, (key, v) ∈ pairs ↔ find name key (e', d') = .ok (some v) (e', d')) ∧
      Ends (scan name) (e', d')
        (fun s t => s.Yields t.2 pairs ∧
          Ends (scan name) t (fun s' t' => s'.Yields t'.2 pairs)
            fun err _ => ∃ cause, err = .engine (.scan name) cause ∧ Faulted t.2 cause)
        fun err _ => ∃ cause, err = .engine (.scan name) cause ∧ Faulted d' cause := by
  obtain ⟨hholds, -, haccepts⟩ := holds_of_history hready hrun hroom
  obtain ⟨p, hp, hpartition⟩ := hholds.partition
  obtain ⟨pairs, hsorted, hfind⟩ := hholds.exists_pairs
  have hmem (key v : Bytes) : (key, v) ∈ pairs ↔
      lastWrite (history.flatMap Write.entries) key = some v := by
    rw [← hsorted.find?_eq_some_iff, hfind]
  refine ⟨p, pairs, hp, hsorted, fun key v => ?_, fun key v => ?_, ?_⟩
  · rw [hmem, hpartition.find, Except.ok.injEq]
  · rw [hmem]
    constructor
    · intro hv
      have hkey : Storable key := (haccepts _ (mem_of_lastWrite hv)).1
      obtain ⟨found, t, hfound, rfl, rfl, -⟩ :=
        (ends_find hholds key).exists_ok fun _ _ hn => hn.2 hkey
      rw [hfound, hv]
    · intro hfound
      exact ((ends_find hholds key).of_ok hfound).1.symm
  · refine (ends_scan_yields hholds hsorted hfind).imp ?_
    rintro s ⟨e₁, d₁⟩ ⟨hholds₁, hyields⟩
    exact ⟨hyields, (ends_scan_yields hholds₁ hsorted hfind).imp fun _ _ h => h.2⟩

/-- A history that overwrites one key and deletes another. -/
def rewritten : List Write :=
  [.put [1] [7], .putBatch [([2], [8]), ([1], [9])], .delete [2], .put [3] [4], .flush]

theorem scan_agrees_with_find_eager :
    ∃ e' d' pairs, ([1], [9]) ∈ pairs ∧ (∀ v, ([2], v) ∉ pairs) ∧
      Ends (scan "p") (e', d') (fun s t => s.Yields t.2 pairs) fun _ _ => False := by
  have hsucceeds : succeeds (createPartition "p" >>= fun _ => rewritten.forM (Write.run "p"))
      (eager, {}) = true := by decide +kernel
  obtain ⟨_, ⟨e', d'⟩, hrun⟩ := exists_of_succeeds hsucceeds
  have hroom : 1 + 2 * (rewritten.flatMap Write.entries).length < UInt64.size := by decide +kernel
  obtain ⟨hholds, hlater, -⟩ := holds_of_history eager_ready hrun hroom
  obtain ⟨p, pairs, -, -, -, hfind, hscan⟩ := scan_agrees_with_find eager_ready hrun hroom
  have hlast : lastWrite (rewritten.flatMap Write.entries) [1] = some [9] ∧
      lastWrite (rewritten.flatMap Write.entries) [2] = none := by decide
  refine ⟨e', d', pairs, (hfind _ _).2 ?_, fun v hmem => ?_, ?_⟩
  · obtain ⟨found, t, hfound, rfl, rfl, -⟩ := (ends_find hholds [1]).exists_ok
      fun _ _ hn => hn.2 ⟨by decide, by decide⟩
    rw [hfound, hlast.1]
  · have hnone := ((ends_find hholds [2]).of_ok ((hfind _ v).1 hmem)).1
    rw [hlast.2] at hnone
    cases hnone
  · refine hscan.mono (fun _ _ h => h.1) ?_
    rintro _ _ ⟨cause, -, hfault⟩
    obtain ⟨fault, -, hfault⟩ := hfault.mono hlater
    cases hfault

end Engine

end Spillway
