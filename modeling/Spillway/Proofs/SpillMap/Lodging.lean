import Spillway.Proofs.Agreement
import Spillway.Proofs.Engine.Lifecycle
import Spillway.Proofs.SpillMap

/-!
# Partitions of shared engines

A map that spills has one partition of an engine, which others may use as well. What the map does to the
engine it does to this partition: `Lodging.Has` says what that holds, and that the rest of the engine is
what it was.
-/

namespace Spillway

open Engine Table

variable {reliable : Prop}

/-- Where the disk fails only for too large a table, storage is excused. -/
theorem Error.excused_of_blamed {d : Disk} {fault : StorageError → Prop} {e : Error}
    (hr : reliable → d.Reliable) (hfault : ∀ cause, fault cause → d.Reliable → cause = .io .fileTooLarge)
    (h : Blamed fault e) : e.Excused reliable := by
  obtain ⟨task, cause, rfl, hcause⟩ := h
  exact ⟨task, cause, rfl, fun hreliable => .inl (hfault cause hcause (hr hreliable))⟩

/-- The engine is open, has so many owners, and its partitions hold what the registry says after so many
uses. -/
def Workspace.Hosts (reliable : Prop) (w : Workspace) (id : EngineId) (r : Registry)
    (uses owners : Nat) : Prop :=
  (reliable → w.disk.Reliable) ∧ ∃ e, w.engines[id]? = some ⟨e, owners⟩ ∧ e.closed = false ∧
    e.Stands w.disk r uses False

/-- A partition of an engine. -/
structure Address where
  engine : EngineId
  partition : String

/-- A spill stage moved to another partition. -/
def Address.house (a : Address) (stage : SpillStage) : SpillStage :=
  { stage with engine := a.engine, partition := a.partition }

/-- A partition of an engine with other partitions and several owners, which may be used so many times
in all. -/
structure Lodging extends Address where
  others : Registry
  owners : Nat
  limit : Nat
  named : isPartitionName partition = true
  room : 1 + 2 * limit < UInt64.size

theorem Workspace.engine?_of_getElem? {w : Workspace} {id : EngineId} {e : Engine} {owners : Nat}
    (he : w.engines[id]? = some ⟨e, owners⟩) : w.engine? id = some e := by
  rw [engine?, he]
  rfl

theorem Workspace.getElem?_putEngine {w : Workspace} {id : EngineId} {e e' : Engine} {d' : Disk}
    {owners : Nat} (he : w.engines[id]? = some ⟨e, owners⟩) :
    (w.putEngine id e' d').engines[id]? = some ⟨e', owners⟩ := by
  show (w.engines.modify id _)[id]? = _
  rw [List.getElem?_modify_eq, he]
  rfl

theorem Workspace.getElem?_modifyOwners {w : Workspace} {id : EngineId} {e : Engine} {owners : Nat}
    (he : w.engines[id]? = some ⟨e, owners⟩) (f : Nat → Nat) :
    (w.modifyOwners id f).engines[id]? = some ⟨e, f owners⟩ := by
  show (w.engines.modify id _)[id]? = _
  rw [List.getElem?_modify_eq, he]
  rfl

theorem Workspace.Hosts.putEngine {w : Workspace} {id : EngineId} {e e' : Engine} {d' : Disk}
    {r : Registry} {uses owners : Nat} (hr : reliable → w.disk.Reliable)
    (he : w.engines[id]? = some ⟨e, owners⟩) (hlater : Disk.Later w.disk d')
    (hopen : e'.closed = false) (hstands : e'.Stands d' r uses False) :
    (w.putEngine id e' d').Hosts reliable id r uses owners :=
  ⟨fun h => hlater.reliable (hr h), e', getElem?_putEngine he, hopen, hstands⟩

theorem Workspace.Hosts.modifyOwners {w : Workspace} {id : EngineId} {r : Registry} {uses owners : Nat}
    (h : w.Hosts reliable id r uses owners) (f : Nat → Nat) :
    (w.modifyOwners id f).Hosts reliable id r uses (f owners) := by
  obtain ⟨hr, e, he, hopen, hstands⟩ := h
  exact ⟨hr, e, getElem?_modifyOwners he f, hopen, hstands⟩

namespace Lodging

variable {α κ ν : Type} {l : Lodging} {w : Workspace} {m : SpillMap κ ν} {stage : SpillStage}
  {more more' : Nat} {value : Bytes → Option Bytes} {value? : Option (Bytes → Option Bytes)}

/-- What the partitions of the engine hold. -/
def registry (l : Lodging) (value? : Option (Bytes → Option Bytes)) : Registry :=
  Function.update l.others l.partition value?

@[simp] theorem registry_partition (l : Lodging) (value? : Option (Bytes → Option Bytes)) :
    l.registry value? l.partition = value? :=
  Function.update_self ..

theorem update_registry (l : Lodging) (value? value'? : Option (Bytes → Option Bytes)) :
    Function.update (l.registry value?) l.partition value'? = l.registry value'? :=
  Function.update_idem ..

/-- The partition has these values, or was not made yet, and the engine can be used so many more
times. -/
def Has (reliable : Prop) (l : Lodging) (w : Workspace) (more : Nat)
    (value? : Option (Bytes → Option Bytes)) : Prop :=
  ∃ uses, w.Hosts reliable l.engine (l.registry value?) uses l.owners ∧ uses + more ≤ l.limit

theorem Has.weaken (h : l.Has reliable w more value?) (hm : more' ≤ more) :
    l.Has reliable w more' value? := by
  obtain ⟨uses, hhosts, hroom⟩ := h
  exact ⟨uses, hhosts, by omega⟩

/-! ## Single actions on the partition -/

theorem Has.answers_find (h : l.Has reliable w more (some value)) (key : Bytes) :
    Answers reliable (SpillMap.onStage (l.house stage) (Engine.find · key)) (m, w)
      ((checkBytes .key key).map fun _ => value key) (· = (m, w)) (· = (m, w)) := by
  obtain ⟨uses, ⟨hr, e, he, -, hstands⟩, -⟩ := h
  have he' := Workspace.engine?_of_getElem? he
  have hsame := Workspace.putEngine_self he'
  have hvalue := l.registry_partition (some value)
  refine Ends.mono (SpillMap.ends_onStage he'
    (hstands.ends_find l.partition key)) ?_ ?_
  · rintro found _ ⟨e', d', rfl, ht, hcheck, value', hvalue', rfl⟩
    cases ht
    rw [hvalue, Option.some.injEq] at hvalue'
    rw [hcheck, ← hvalue']
    exact ⟨rfl, congrArg _ hsame⟩
  · rintro err _ ⟨e', d', rfl, ht, hrefused⟩
    cases ht
    rcases hrefused with hcheck | ⟨hnone, -⟩
    · rw [hcheck]
      exact .inr ⟨rfl, congrArg _ hsame⟩
    · rw [hvalue] at hnone
      cases hnone

/-- A call that writes to the partition is refused for its arguments only. -/
theorem Has.answers_write {act : String → EngineM α} {result : α} (change : Write)
    (h : l.Has reliable w (more + change.cost) (some value))
    (hact : ∀ e d r uses, e.Stands d r uses False → 1 + 2 * (uses + change.cost) < UInt64.size →
      Ends (act l.partition) (e, d)
        (fun a t => a = result ∧ Written change l.partition e d r uses False t)
        (Unwritten change l.partition e d r uses)) :
    Answers reliable (SpillMap.onStage (l.house stage) act) (m, w) (change.check.map fun _ => result)
      (fun t => t.1 = m ∧ l.Has reliable t.2 more (some (change.entries.foldl record value)))
      (· = (m, w)) := by
  obtain ⟨uses, ⟨hr, e, he, hopen, hstands⟩, huses⟩ := h
  have he' := Workspace.engine?_of_getElem? he
  have hsame := Workspace.putEngine_self he'
  have hvalue := l.registry_partition (some value)
  have hroom := l.room
  refine Ends.mono (SpillMap.ends_onStage he'
    (hact e w.disk _ uses hstands (by omega))) ?_ ?_
  · rintro a _ ⟨e', d', rfl, rfl, hcheck, -, hstep, hstands', -⟩
    rw [Registry.write_of_value hvalue, update_registry] at hstands'
    rw [hcheck]
    exact ⟨rfl, rfl, _, .putEngine hr he hstep.toLater (hstep.closed.trans hopen) hstands', by omega⟩
  · rintro err _ ⟨e', d', rfl, ⟨ht, hcheck | ⟨-, hnone, -⟩⟩ | ⟨hblamed, -⟩⟩
    · cases ht
      rw [hcheck]
      exact .inr ⟨rfl, congrArg _ hsame⟩
    · rw [hvalue] at hnone
      cases hnone
    · exact .inl (Error.excused_of_blamed hr (fun _ => Strains.tooLarge) hblamed)

theorem Has.answers_put {k v : Bytes} (h : l.Has reliable w (more + 1) (some value)) :
    Answers reliable (SpillMap.onStage (l.house stage) (Engine.put · k v)) (m, w)
      ((checkBatch [(k, v)]).map fun _ => ())
      (fun t => t.1 = m ∧ l.Has reliable t.2 more (some (record value (k, some v)))) (· = (m, w)) :=
  h.answers_write (.put k v) fun _ _ _ _ hstands hw =>
    (hstands.ends_put hw).imp fun _ _ ht => ⟨rfl, ht⟩

theorem Has.answers_putBatch {batch : List (Bytes × Bytes)}
    (h : l.Has reliable w (more + batch.length) (some value)) :
    Answers reliable (SpillMap.onStage (l.house stage) (Engine.putBatch · batch)) (m, w)
      ((checkBatch batch).map fun _ => batch.length)
      (fun t => t.1 = m ∧ l.Has reliable t.2 more (some ((Partition.puts batch).foldl record value)))
      (· = (m, w)) :=
  h.answers_write (.putBatch batch) fun _ _ _ _ hstands hw => hstands.ends_putBatch hw

theorem Has.answers_delete {k : Bytes} (h : l.Has reliable w (more + 1) (some value)) :
    Answers reliable (SpillMap.onStage (l.house stage) (Engine.delete · k)) (m, w)
      ((checkBytes .key k).map fun _ => ())
      (fun t => t.1 = m ∧ l.Has reliable t.2 more (some (record value (k, none)))) (· = (m, w)) :=
  h.answers_write (.delete k) fun _ _ _ _ hstands hw =>
    (hstands.ends_delete hw).imp fun _ _ ht => ⟨rfl, ht⟩

/-- The partition is made empty. -/
theorem Has.ends_create (h : l.Has reliable w more none) :
    Ends (SpillMap.onStage (l.house stage) createPartition) (m, w)
      (fun _ t => t.1 = m ∧ l.Has reliable t.2 more (some fun _ => none))
      fun e _ => e.Excused reliable := by
  obtain ⟨uses, ⟨hr, e, he, hopen, hstands⟩, huses⟩ := h
  have hnone := l.registry_partition none
  refine (SpillMap.ends_onStage (Workspace.engine?_of_getElem? he)
    (hstands.ends_createPartition l.partition)).mono ?_ ?_
  · rintro serial _ ⟨e', d', rfl, -, -, hstep, ⟨hthere, -⟩ | ⟨-, hstands', -⟩⟩
    · exact absurd hnone hthere
    · rw [update_registry] at hstands'
      exact ⟨rfl, _, .putEngine hr he hstep.toLater (hstep.closed.trans hopen) hstands', huses⟩
  · rintro err _ ⟨e', d', -, ⟨-, -, hclosed | hcheck⟩ | ⟨hblamed, -⟩⟩
    · rw [hopen] at hclosed
      cases hclosed
    · rw [checkName, if_pos l.named] at hcheck
      cases hcheck
    · exact Error.excused_of_blamed hr (fun _ hf hd => absurd hd hf.not_reliable) hblamed

/-- The partition is gone once it was dropped, even if its files could not be deleted. -/
theorem Has.ends_drop {fail : Error → SpillMap κ ν × Workspace → Prop}
    (h : l.Has reliable w more value?) :
    Ends (outcome (SpillMap.onStage (κ := κ) (ν := ν) (l.house stage) dropPartition)) (m, w)
      (fun _ t => t.1 = m ∧ l.Has reliable t.2 more none) fail := by
  obtain ⟨uses, ⟨hr, e, he, hopen, hstands⟩, huses⟩ := h
  have he' := Workspace.engine?_of_getElem? he
  have hsame : w.putEngine (l.house stage).engine e w.disk = w := Workspace.putEngine_self he'
  refine Ends.outcome ((SpillMap.ends_onStage he'
    (hstands.ends_dropPartition l.partition)).mono ?_ ?_)
  · rintro _ _ ⟨e', d', rfl, ⟨hnone, ht⟩ | ⟨-, hdropped⟩⟩
    · cases ht
      rw [registry_partition] at hnone
      rw [hsame, ← hnone]
      exact ⟨rfl, uses, ⟨hr, e, he, hopen, hstands⟩, huses⟩
    · have hstands' := hdropped.stands
      rw [update_registry] at hstands'
      exact ⟨rfl, _, .putEngine hr he hdropped.later (hdropped.closed.trans hopen) hstands', huses⟩
  · rintro err _ ⟨e', d', rfl, -, hdropped⟩
    have hstands' := hdropped.stands
    rw [update_registry] at hstands'
    exact ⟨rfl, _, .putEngine hr he hdropped.later (hdropped.closed.trans hopen) hstands', huses⟩

/-- A scan gives the pairs of the partition in order. -/
theorem Has.ends_scan (h : l.Has reliable w more (some value)) :
    Ends (SpillMap.onStage (l.house stage) Engine.scan) (m, w)
      (fun s t => t.1 = m ∧ l.Has reliable t.2 more (some value) ∧
        ∃ entries : List Entry, KeyMap.Sorted entries ∧
          (∀ key, KeyMap.find? entries key = (value key).map some) ∧
          s.toList t.2.disk = entries.map fun entry => .ok (entry.1, entry.2.getD []))
      fun e _ => e.Excused reliable := by
  obtain ⟨uses, ⟨hr, e, he, hopen, hstands⟩, huses⟩ := h
  have hvalue := l.registry_partition (some value)
  refine (SpillMap.ends_onStage (Workspace.engine?_of_getElem? he)
    (hstands.ends_scan l.partition)).mono ?_ ?_
  · rintro s _ ⟨e', d', rfl, hstep, hstands', -, value', entries, hvalue', hsorted, hfind, hleaves⟩
    rw [hvalue, Option.some.injEq] at hvalue'
    subst hvalue'
    refine ⟨rfl, ⟨_, .putEngine hr he hstep.toLater (hstep.closed.trans hopen) hstands', huses⟩,
      entries, hsorted, hfind, ?_⟩
    show (s.merge.toList (Source.feed d')).map _ = _
    rw [hleaves.toList_eq (Source.feed_tracks d'), List.map_map]
    rfl
  · rintro err _ ⟨e', d', -, ⟨-, hnone, -⟩ | ⟨hblamed, -⟩⟩
    · rw [hvalue] at hnone
      cases hnone
    · exact Error.excused_of_blamed hr (fun _ hf hd => absurd hd hf.not_reliable) hblamed

end Lodging

end Spillway
