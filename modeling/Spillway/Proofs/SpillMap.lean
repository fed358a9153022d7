import Spillway.Proofs.Engine
import Spillway.SpillMap

/-!
# What a map that spills holds

`SpillMap.Holds` says what value each key has in a map, in memory or in its spill stage, and that no
key is in both. Every operation changes the values as it would change those of one plain map,
wherever the keys are and whether or not it moves them.
-/

namespace Spillway

open Engine Table

variable {α κ ν : Type}

/-- An order in which entries are taken out of memory. -/
structure Shuffle where
  arrange : KeyMap Bytes → KeyMap Bytes
  perm : ∀ entries, List.Perm (arrange entries) entries

namespace Shuffle

/-- The order of the keys. -/
def byKey : Shuffle := ⟨id, .refl⟩

/-- From the last entry to the first. -/
def backwards : Shuffle := ⟨List.reverse, List.reverse_perm⟩

theorem mem_puts_arrange (order : Shuffle) (entries : KeyMap Bytes) (entry : Entry) :
    entry ∈ Partition.puts (order.arrange entries) ↔ entry ∈ Partition.puts entries :=
  ((order.perm entries).map _).mem_iff

end Shuffle

namespace Workspace

variable {w : Workspace} {id : EngineId} {e e' : Engine} {d : Disk}

theorem engine?_putEngine (h : w.engine? id = some e) :
    (w.putEngine id e' d).engine? id = some e' := by
  obtain ⟨shared, hshared, -⟩ := Option.map_eq_some_iff.1 h
  show ((w.engines.modify id _)[id]?).map _ = some e'
  rw [List.getElem?_modify_eq, hshared]
  rfl

/-- An engine that did not change is put back as it was. -/
theorem putEngine_self (h : w.engine? id = some e) : w.putEngine id e w.disk = w := by
  obtain ⟨shared, hshared, rfl⟩ := Option.map_eq_some_iff.1 h
  have hsame : (w.engines.modify id fun other => { other with engine := shared.engine }) =
      w.engines := by
    refine List.ext_getElem? fun i => ?_
    rw [List.getElem?_modify]
    by_cases hi : id = i
    · rw [← hi, hshared]
      show some (if id = id then _ else _) = _
      rw [if_pos rfl]
    · cases w.engines[i]? with
      | none => rfl
      | some other =>
        show some (if id = i then _ else _) = _
        rw [if_neg hi]
  unfold putEngine
  rw [hsame]

theorem engine?_modifyOwners (w : Workspace) (id other : EngineId) (f : Nat → Nat) :
    (w.modifyOwners id f).engine? other = w.engine? other := by
  show ((w.engines.modify id _)[other]?).map _ = (w.engines[other]?).map _
  rw [List.getElem?_modify]
  cases w.engines[other]? with
  | none => rfl
  | some shared =>
    show some (if id = other then _ else _ : SharedEngine).engine = some shared.engine
    split <;> rfl

theorem ends_onEngine {act : EngineM α} {post : α → Engine × Disk → Prop}
    {fail : Error → Engine × Disk → Prop} (h : w.engine? id = some e)
    (hact : Ends act (e, w.disk) post fail) :
    Ends (onEngine id act) w (fun a w' => ∃ e' d', w' = w.putEngine id e' d' ∧ post a (e', d'))
      fun err w' => ∃ e' d', w' = w.putEngine id e' d' ∧ fail err (e', d') := by
  unfold onEngine
  refine ends_get_bind ?_
  rw [h]
  exact Ends.zoom (hact.mono (fun a t hpost => ⟨t.1, t.2, rfl, hpost⟩) fun err t hfail =>
    ⟨t.1, t.2, rfl, hfail⟩)

end Workspace

namespace SpillMap

variable {m m' : SpillMap κ ν} {w w' : Workspace} {stage : SpillStage} {e : Engine}
  {allowed : Entry → Prop} {value : Bytes → Option Bytes} {writes calls : Nat} {order : Shuffle}

/-! ## Moving in any order -/

/-- Moves all entries from memory to the spill stage, as `spillMemory` does but in any order. -/
def spillMemoryIn (order : Shuffle) : MapM κ ν Unit := do
  let (m, _) ← get
  match m.spillStage with
  | none => return
  | some stage =>
    unless stage.created do
      let _ ← onStage stage Engine.createPartition
      updateStage fun stage => { stage with created := true }
    moveEntries stage (order.arrange m.memory.entries)

def putBytesIn (order : Shuffle) (key value : Bytes) : MapM κ ν Unit := do
  let (m, _) ← get
  match ← movedBytes key, m.live? with
  | some _, some stage => onStage stage (Engine.put · key value)
  | _, _ =>
    update fun m => { m with memory := m.memory.insert key value }
    let (m, _) ← get
    if m.spillStage.any fun stage => stage.budget < m.memory.tally then spillMemoryIn order

def putIn (order : Shuffle) (key : κ) (value : ν) : MapM κ ν Unit := do
  ensureOpen
  let (m, _) ← get
  let (key, value) ← ofExcept (encodeEntry m.keys m.values key value)
  putBytesIn order key value

def spillIn (order : Shuffle) : MapM κ ν Unit := do
  ensureOpen
  let (m, _) ← get
  if m.isSpillable then spillMemoryIn order else throw (.invalidArgument .cannotSpill)

theorem putIn_byKey (key : κ) (value : ν) : putIn .byKey key value = put key value := rfl

/-! ## The spill stage -/

/-- The values of keys in a spill stage, after so many writes to it, all of them allowed. -/
inductive Spilled (w : Workspace) (allowed : Entry → Prop) :
    Option SpillStage → (Bytes → Option Bytes) → Nat → Prop
  /-- There is no spill stage. -/
  | absent : Spilled w allowed none (fun _ => none) 0
  /-- The partition was not made yet. -/
  | planned {stage : SpillStage} {e : Engine} (hcreated : stage.created = false)
      (he : w.engine? stage.engine = some e) (hready : e.Ready w.disk stage.partition) :
      Spilled w allowed (some stage) (fun _ => none) 0
  | live {stage : SpillStage} {e : Engine} {value : Bytes → Option Bytes} {writes : Nat}
      (hcreated : stage.created = true) (he : w.engine? stage.engine = some e)
      (hholds : e.Holds w.disk stage.partition allowed value writes) :
      Spilled w allowed (some stage) value writes

/-- A spill stage holds nothing until its partition was made. -/
theorem Spilled.live?_cases {spilled : Bytes → Option Bytes}
    (h : Spilled w allowed m.spillStage spilled writes) :
    m.live? = none ∧ spilled = (fun _ => none) ∨
      ∃ stage e, m.spillStage = some stage ∧ m.live? = some stage ∧ stage.created = true ∧
        w.engine? stage.engine = some e ∧ e.Holds w.disk stage.partition allowed spilled writes := by
  unfold live?
  generalize m.spillStage = stage? at h
  cases h with
  | absent => exact .inl ⟨rfl, rfl⟩
  | planned hcreated he hready =>
    rw [Option.filter_some, hcreated]
    exact .inl ⟨rfl, rfl⟩
  | live hcreated he hholds =>
    rw [Option.filter_some, if_pos hcreated]
    exact .inr ⟨_, _, rfl, rfl, hcreated, he, hholds⟩

theorem ends_onStage {act : String → EngineM α} {post : α → Engine × Disk → Prop}
    {fail : Error → Engine × Disk → Prop} (h : w.engine? stage.engine = some e)
    (hact : Ends (act stage.partition) (e, w.disk) post fail) :
    Ends (onStage stage act) (m, w)
      (fun a t => ∃ e' d', t = (m, w.putEngine stage.engine e' d') ∧ post a (e', d'))
      fun err t => ∃ e' d', t = (m, w.putEngine stage.engine e' d') ∧ fail err (e', d') := by
  refine Ends.zoom ((Workspace.ends_onEngine h hact).mono ?_ ?_)
  · rintro a _ ⟨e', d', rfl, hpost⟩
    exact ⟨e', d', rfl, hpost⟩
  · rintro err _ ⟨e', d', rfl, hfail⟩
    exact ⟨e', d', rfl, hfail⟩

theorem hasSpilled_of_live? (h : m.live? = some stage) : m.hasSpilled = true := by
  rw [hasSpilled, h]
  rfl

/-- Looking into the spill stage changes nothing. Once it is live, it is asked only for keys that an
engine accepts. -/
theorem ends_spilledBytes (h : Spilled w allowed m.spillStage value writes) (key : Bytes) :
    Ends (spilledBytes key) (m, w)
      (fun found t => found = value key ∧ t = (m, w) ∧ (m.hasSpilled = true → Storable key))
      fun _ t => t = (m, w) ∧ m.hasSpilled = true ∧ ¬ Storable key := by
  unfold spilledBytes
  refine ends_get_bind ?_
  dsimp only
  rcases h.live?_cases with ⟨hlive, rfl⟩ | ⟨stage, e, -, hlive, -, he, hholds⟩
  · rw [hlive]
    refine Ends.pure ⟨rfl, rfl, fun hspilled => ?_⟩
    rw [hasSpilled, hlive] at hspilled
    cases hspilled
  · have hspilled := hasSpilled_of_live? hlive
    have hsame := Workspace.putEngine_self he
    rw [hlive]
    refine (ends_onStage he (ends_find hholds key)).mono ?_ ?_
    · rintro found _ ⟨e', d', rfl, rfl, ht, hkey⟩
      cases ht
      exact ⟨rfl, by rw [hsame], fun _ => hkey⟩
    · rintro err _ ⟨e', d', rfl, ht, hkey⟩
      cases ht
      exact ⟨by rw [hsame], hspilled, hkey⟩

/-! ## Both stages -/

/-- Each key has the value that `value` says, in memory or in the spill stage but not in both; as
many calls are enough for the writes to the spill stage, those to come from memory included. -/
structure Splits (m : SpillMap κ ν) (w : Workspace) (allowed : Entry → Prop)
    (value spilled : Bytes → Option Bytes) (writes calls : Nat) : Prop where
  stage : Spilled w allowed m.spillStage spilled writes
  room : writes + m.memory.entries.length ≤ calls
  apart : ∀ pair ∈ m.memory.entries, spilled pair.1 = none
  values : ∀ key, value key = (m.memory.entries.find? key).or (spilled key)

/-- The map is open, its keys have the values that `value` says, and it has only entries that are
allowed. -/
structure Holds (m : SpillMap κ ν) (w : Workspace) (allowed : Entry → Prop)
    (value : Bytes → Option Bytes) (calls : Nat) : Prop where
  opened : m.closed = false
  sorted : KeyMap.Sorted m.memory.entries
  memory : ∀ entry ∈ Partition.puts m.memory.entries, allowed entry
  nonempty : ∀ pair ∈ m.memory.entries, pair.1 ≠ [] ∧ pair.2 ≠ []
  keys : ∀ key v, value key = some v → key ≠ []
  splits : ∃ spilled writes, m.Splits w allowed value spilled writes calls

/-- What no call changes. -/
structure Kind (m m' : SpillMap κ ν) : Prop where
  keys : m'.keys = m.keys
  values : m'.values = m.values
  spillable : m'.isSpillable = m.isSpillable

/-- All entries in memory can be moved, if the map has a place to move them to. -/
def Movable (m : SpillMap κ ν) : Prop :=
  m.isSpillable = true → ∀ entry ∈ Partition.puts m.memory.entries, Accepts entry

theorem forall_mem_puts_insert {entries : KeyMap Bytes} {k v : Bytes} {P : Entry → Prop}
    (hentry : P (k, some v)) (h : ∀ entry ∈ Partition.puts entries, P entry) :
    ∀ entry ∈ Partition.puts (entries.insert k v), P entry :=
  List.forall_mem_map.2 (KeyMap.forall_mem_insert hentry (List.forall_mem_map.1 h))

theorem forall_mem_puts_erase {entries : KeyMap Bytes} {k : Bytes} {P : Entry → Prop}
    (h : ∀ entry ∈ Partition.puts entries, P entry) :
    ∀ entry ∈ Partition.puts (entries.erase k), P entry :=
  List.forall_mem_map.2 fun pair hpair => List.forall_mem_map.1 h pair (KeyMap.mem_erase hpair)

theorem Movable.insert {k v : Bytes} (h : m.Movable)
    (ha : m.isSpillable = true → Accepts (k, some v)) :
    ({ m with memory := m.memory.insert k v } : SpillMap κ ν).Movable :=
  fun hspillable => forall_mem_puts_insert (ha hspillable) (h hspillable)

/-- Of two maps of bytes, the other one has all values that this one has. -/
def Under (value' value : Bytes → Option Bytes) : Prop :=
  ∀ key v, value' key = some v → value key = some v

/-- Of the values of a map only those in the spill stage are left. -/
def Drops (m : SpillMap κ ν) (w : Workspace) (allowed : Entry → Prop)
    (value : Bytes → Option Bytes) (calls : Nat) (t : SpillMap κ ν × Workspace) : Prop :=
  ∃ value', (∀ key v, value' key = some v →
      value key = some v ∧ m.memory.entries.find? key = none) ∧
    m.Kind t.1 ∧ t.1.Holds t.2 allowed value' calls ∧ Disk.Later w.disk t.2.disk

/-- The map has kept some of its values, and has no other ones. -/
def Keeps (m : SpillMap κ ν) (w : Workspace) (allowed : Entry → Prop)
    (value : Bytes → Option Bytes) (calls : Nat) (t : SpillMap κ ν × Workspace) : Prop :=
  ∃ value', Under value' value ∧ m.Kind t.1 ∧ t.1.Holds t.2 allowed value' calls ∧
    Disk.Later w.disk t.2.disk

theorem record_none {k : Bytes} (h : value k = none) : record value (k, none) = value := by
  funext key
  unfold record
  split
  · next hkey => rw [hkey, h]
  · rfl

theorem keys_record {k : Bytes} {b : Option Bytes} (h : ∀ key v, value key = some v → key ≠ [])
    (hk : k ≠ []) : ∀ key v, record value (k, b) key = some v → key ≠ [] := by
  intro key v hv
  unfold record at hv
  split at hv
  · next hkey =>
    rw [hkey]
    exact hk
  · exact h key v hv

theorem Splits.insert {spilled : Bytes → Option Bytes} {k v : Bytes}
    (h : m.Splits w allowed value spilled writes calls) (hk : spilled k = none) :
    ({ m with memory := m.memory.insert k v } : SpillMap κ ν).Splits w allowed (record value (k, some v))
      spilled writes (calls + 1) where
  stage := h.stage
  room := by
    have hroom := h.room
    have hlength := KeyMap.length_insert_le m.memory.entries k v
    show writes + (m.memory.entries.insert k v).length ≤ calls + 1
    omega
  apart pair hmem := by
    rcases KeyMap.mem_insert hmem with rfl | hmem
    · exact hk
    · exact h.apart pair hmem
  values key := by
    show (if key = k then some v else value key) =
      ((m.memory.entries.insert k v).find? key).or (spilled key)
    rw [KeyMap.find?_insert, h.values key]
    split <;> rfl

theorem Holds.insert {spilled : Bytes → Option Bytes} {k v : Bytes} (h : m.Holds w allowed value calls)
    (hs : m.Splits w allowed value spilled writes calls) (hk : spilled k = none) (hkey : k ≠ [])
    (hv : v ≠ []) (hallowed : allowed (k, some v)) :
    ({ m with memory := m.memory.insert k v } : SpillMap κ ν).Holds w allowed (record value (k, some v))
      (calls + 1) where
  opened := h.opened
  sorted := h.sorted.insert
  memory := forall_mem_puts_insert hallowed h.memory
  nonempty := KeyMap.forall_mem_insert ⟨hkey, hv⟩ h.nonempty
  keys := keys_record h.keys hkey
  splits := ⟨spilled, writes, hs.insert hk⟩

/-! ## Moving to the spill stage -/

/-- Recording entries with different keys gives each of these its value, in whatever order. -/
theorem foldl_record_puts {entries moved : KeyMap Bytes} (h : KeyMap.Sorted entries)
    (hperm : List.Perm moved entries) (value : Bytes → Option Bytes) (key : Bytes) :
    (Partition.puts moved).foldl record value key = (entries.find? key).or (value key) := by
  rw [foldl_record]
  cases hfind : KeyMap.find? (Partition.puts moved).reverse key with
  | some found =>
    have hmem := List.mem_reverse.1 (KeyMap.mem_of_find? hfind)
    obtain ⟨pair, hpair, heq⟩ := List.mem_map.1 hmem
    obtain ⟨rfl, rfl⟩ := Prod.mk.inj heq
    rw [h.find?_eq_some_iff.2 (hperm.subset hpair)]
    rfl
  | none =>
    cases hentry : entries.find? key with
    | none => rfl
    | some v =>
      have hmem : (key, some v) ∈ (Partition.puts moved).reverse := List.mem_reverse.2
        (List.mem_map_of_mem (hperm.symm.subset (KeyMap.mem_of_find? hentry)))
      exact absurd rfl (KeyMap.find?_eq_none_iff.1 hfind _ hmem)

/-- Moving entries to a partition that is there. Entries that the engine does not accept are not
written, and have left memory all the same. -/
theorem ends_moveEntries {entries : KeyMap Bytes} {made : SpillStage} {spilled : Bytes → Option Bytes}
    (hstage : m.spillStage = some made)
    (hmade : made.engine = stage.engine ∧ made.partition = stage.partition)
    (hcreated : made.created = true) (he : w.engine? stage.engine = some e)
    (hholds : e.Holds w.disk stage.partition allowed spilled writes)
    (hallowed : ∀ entry ∈ Partition.puts entries, allowed entry)
    (hroom : 1 + 2 * (writes + entries.length) < UInt64.size) :
    Ends (moveEntries stage entries) (m, w)
      (fun _ t => t.1 = { m with
          memory := {}, spillStage := some { made with spillCount := made.spillCount + 1 } } ∧
        Spilled t.2 allowed t.1.spillStage ((Partition.puts entries).foldl record spilled)
          (writes + entries.length) ∧
        Disk.Later w.disk t.2.disk)
      fun err t => Interrupted w.disk allowed err ∨
        t = ({ m with memory := {}, spillStage := some made }, w) ∧
          ¬ ∀ entry ∈ Partition.puts entries, Accepts entry := by
  unfold moveEntries
  refine ends_modify_bind (Ends.bind ((ends_onStage he
    (ends_putBatch hholds hallowed hroom)).imp_fail ?_) ?_)
  · rintro err _ ⟨e', d', rfl, hint | ⟨ht, hrefused⟩⟩
    · exact .inl hint
    · cases ht
      rw [Workspace.putEngine_self he, ← hstage]
      exact .inr ⟨rfl, hrefused⟩
  rintro _ _ ⟨e', d', rfl, hholds', hlater⟩
  refine ends_modify ⟨?_, ?_, hlater⟩
  · show ({ m with memory := {}, spillStage := m.spillStage.map _ } : SpillMap κ ν) = _
    rw [hstage]
    rfl
  · show Spilled (w.putEngine stage.engine e' d') _ (m.spillStage.map _) _ _
    rw [hstage]
    refine .live hcreated (e := e') ?_ ?_
    · show (w.putEngine stage.engine e' d').engine? made.engine = some e'
      rw [hmade.1]
      exact Workspace.engine?_putEngine he
    · show e'.Holds d' made.partition _ _ _
      rw [hmade.2]
      exact hholds'

/-- A map without entries in memory has the values of its spill stage. -/
theorem Holds.move {spilled : Bytes → Option Bytes} {moved : Nat} (h : m.Holds w allowed value calls)
    (hmoved : moved ≤ calls) (hkeys : ∀ key v, spilled key = some v → value key = some v)
    (hstage : Spilled w' allowed (some stage) spilled moved) :
    ({ m with memory := {}, spillStage := some stage } : SpillMap κ ν).Holds w' allowed spilled calls where
  opened := h.opened
  sorted := KeyMap.sorted_nil
  memory _ hmem := absurd hmem List.not_mem_nil
  nonempty _ hmem := absurd hmem List.not_mem_nil
  keys key v hv := h.keys key v (hkeys key v hv)
  splits := ⟨_, _, hstage, hmoved, fun _ hmem => absurd hmem List.not_mem_nil, fun _ => rfl⟩

/-- The values in the spill stage are those of keys that are not in memory. -/
theorem Splits.of_spilled {spilled : Bytes → Option Bytes} {key v : Bytes}
    (hs : m.Splits w allowed value spilled writes calls) (hv : spilled key = some v) :
    value key = some v ∧ m.memory.entries.find? key = none := by
  have hnone : m.memory.entries.find? key = none := by
    refine KeyMap.find?_eq_none_iff.2 fun pair hmem heq => ?_
    have hapart := hs.apart pair hmem
    rw [heq, hv] at hapart
    cases hapart
  rw [hs.values key, hnone]
  exact ⟨hv, rfl⟩

/-- Moving all entries to a partition that is there, in a map that may have made it just now. -/
theorem ends_moveMemory (order : Shuffle) {made : SpillStage} {w₁ : Workspace}
    {spilled : Bytes → Option Bytes} (h : m.Holds w allowed value calls) (hs : m.Splits w allowed value spilled writes calls)
    (hroom : 1 + 2 * calls < UInt64.size) (hsome : m.isSpillable = true)
    (hmade : made.engine = stage.engine ∧ made.partition = stage.partition)
    (hcreated : made.created = true) (he : w₁.engine? stage.engine = some e)
    (hholds : e.Holds w₁.disk stage.partition allowed spilled writes)
    (hlater : Disk.Later w.disk w₁.disk) :
    Ends (moveEntries stage (order.arrange m.memory.entries)) ({ m with spillStage := some made }, w₁)
      (fun _ t => m.Kind t.1 ∧ t.1.Holds t.2 allowed value calls ∧ Disk.Later w.disk t.2.disk ∧
        t.1.Movable)
      fun err t => Interrupted w.disk allowed err ∨ ¬ m.Movable ∧ m.Drops w allowed value calls t := by
  have hfits := hs.room
  have hlength := (order.perm m.memory.entries).length_eq
  have hsame := order.mem_puts_arrange m.memory.entries
  have hvalue : (Partition.puts (order.arrange m.memory.entries)).foldl record spilled = value := by
    funext key
    rw [foldl_record_puts h.sorted (order.perm _), hs.values key]
  refine (ends_moveEntries rfl hmade hcreated he hholds
    (fun entry hmem => h.memory entry ((hsame entry).1 hmem)) (by omega)).mono ?_ ?_
  · rintro _ ⟨m', w'⟩ ⟨rfl, hstage', hlater'⟩
    rw [hvalue, hlength] at hstage'
    exact ⟨⟨rfl, rfl, hsome.symm⟩, h.move hs.room (fun _ _ hv => hv) hstage',
      hlater.trans hlater', fun _ _ hmem => absurd hmem List.not_mem_nil⟩
  · rintro err t (hint | ⟨rfl, hrefused⟩)
    · exact .inl (hint.mono hlater fun _ h => h)
    · have hlive : Spilled w₁ allowed (some made) spilled writes :=
        .live hcreated (hmade.1 ▸ he) (hmade.2 ▸ hholds)
      have hwrites : writes ≤ calls := by omega
      exact .inr ⟨fun hm => hrefused fun entry hmem => hm hsome entry ((hsame entry).1 hmem), spilled,
        fun key v hv => hs.of_spilled hv, ⟨rfl, rfl, hsome.symm⟩,
        h.move hwrites (fun key v hv => (hs.of_spilled hv).1) hlive, hlater⟩

theorem isSpillable_of_stage (h : m.spillStage = some stage) : m.isSpillable = true := by
  rw [isSpillable, h]
  rfl

theorem isSpillable_of_hasSpilled (h : m.hasSpilled = true) : m.isSpillable = true := by
  obtain ⟨stage, hstage⟩ := Option.isSome_iff_exists.1 h
  exact isSpillable_of_stage (Option.filter_eq_some_iff.1 hstage).1

/-- Moving entries to the spill stage changes no value. When they can not be moved, only the values
that were there already are left. -/
theorem ends_spillMemoryIn (order : Shuffle) (h : m.Holds w allowed value calls)
    (hroom : 1 + 2 * calls < UInt64.size) :
    Ends (spillMemoryIn order) (m, w)
      (fun _ t => m.Kind t.1 ∧ t.1.Holds t.2 allowed value calls ∧ Disk.Later w.disk t.2.disk ∧
        t.1.Movable)
      fun err t => Interrupted w.disk allowed err ∨ ¬ m.Movable ∧ m.Drops w allowed value calls t := by
  obtain ⟨spilled, writes, hs⟩ := h.splits
  unfold spillMemoryIn
  refine ends_get_bind ?_
  dsimp only
  cases hstage : m.spillStage with
  | none =>
    have hnot : m.isSpillable = false := by
      rw [isSpillable, hstage]
      rfl
    refine Ends.pure ⟨⟨rfl, rfl, rfl⟩, h, Disk.later_refl _, fun hspillable => ?_⟩
    rw [hnot] at hspillable
    cases hspillable
  | some stage =>
    dsimp only
    have hsome := isSpillable_of_stage hstage
    have hspilled := hs.stage
    rw [hstage] at hspilled
    cases hspilled with
    | @live _ e _ _ hcreated he hholds =>
      rw [if_pos hcreated]
      have hsame := ends_moveMemory order h hs hroom hsome ⟨rfl, rfl⟩ hcreated he hholds
        (Disk.later_refl _)
      rwa [← hstage] at hsame
    | @planned _ e hcreated he hready =>
      rw [if_neg (Bool.eq_false_iff.1 hcreated)]
      refine Ends.bind ((ends_onStage he (ends_createPartition allowed hready)).imp_fail ?_) ?_
      · rintro err _ ⟨e', d', rfl, cause, rfl, hfaulted⟩
        exact .inl ⟨_, cause, rfl, .inl hfaulted⟩
      rintro _ _ ⟨e₁, d₁, rfl, hholds, hlater⟩
      dsimp only at hholds hlater
      refine ends_modify_bind ?_
      show Ends _ ({ m with spillStage := m.spillStage.map _ }, _) _ _
      rw [hstage]
      show Ends _ ({ m with spillStage := some { stage with created := true } }, _) _ _
      exact ends_moveMemory order h hs hroom hsome ⟨rfl, rfl⟩ rfl (Workspace.engine?_putEngine he) hholds
        hlater

/-! ## Operations -/

theorem ends_ensureOpen {fail : Error → SpillMap κ ν × Workspace → Prop} (h : m.closed = false) :
    Ends ensureOpen (m, w) (fun _ t => t = (m, w)) fail := by
  unfold ensureOpen
  refine ends_get_bind ?_
  dsimp only
  rw [h]
  exact Ends.pure rfl

/-- A key that was moved is written where it is. -/
theorem Holds.write {spilled : Bytes → Option Bytes} {k old : Bytes} {b : Option Bytes}
    (h : m.Holds w allowed value calls) (hs : m.Splits w allowed value spilled writes calls)
    (hold : spilled k = some old)
    (hstage : Spilled w' allowed m.spillStage (record spilled (k, b)) (writes + 1)) :
    m.Holds w' allowed (record value (k, b)) (calls + 1) where
  opened := h.opened
  sorted := h.sorted
  memory := h.memory
  nonempty := h.nonempty
  keys := keys_record h.keys (h.keys k old (hs.of_spilled hold).1)
  splits := by
    have hroom := hs.room
    refine ⟨_, _, hstage, by omega, fun pair hmem => ?_, fun key => ?_⟩
    · have hnone := hs.apart pair hmem
      rw [record, if_neg, hnone]
      intro hkey
      rw [hkey, hold] at hnone
      cases hnone
    · unfold record
      rw [hs.values key]
      by_cases hkey : key = k
      · rw [if_pos hkey, if_pos hkey, hkey, (hs.of_spilled hold).2]
        rfl
      · rw [if_neg hkey, if_neg hkey]

theorem Holds.mono {more : Nat} (h : m.Holds w allowed value calls) (hm : calls ≤ more) :
    m.Holds w allowed value more := by
  obtain ⟨spilled, writes, hs⟩ := h.splits
  exact { h with splits := ⟨spilled, writes, { hs with room := hs.room.trans hm }⟩ }

/-- A map that did not change keeps all its values. -/
theorem Holds.keeps {more : Nat} (h : m.Holds w allowed value calls) (hm : calls ≤ more) :
    m.Keeps w allowed value more (m, w) :=
  ⟨value, fun _ _ hv => hv, ⟨rfl, rfl, rfl⟩, h.mono hm, Disk.later_refl _⟩

/-- Looking for a key in the spill stage that is not in memory. -/
theorem Splits.spilled_of_contains {spilled : Bytes → Option Bytes} {k : Bytes}
    (hs : m.Splits w allowed value spilled writes calls) (hk : m.memory.entries.contains k = true) :
    spilled k = none := by
  obtain ⟨v, hv⟩ := KeyMap.contains_iff.1 hk
  exact hs.apart _ (KeyMap.mem_of_find? hv)

theorem ends_movedBytes {spilled : Bytes → Option Bytes}
    (hs : m.Splits w allowed value spilled writes calls) (k : Bytes) :
    Ends (movedBytes k) (m, w)
      (fun found t => found = spilled k ∧ t = (m, w) ∧
        (m.hasSpilled = true → m.memory.entries.contains k = true ∨ Storable k))
      fun _ t => t = (m, w) ∧ m.hasSpilled = true ∧ ¬ Storable k := by
  unfold movedBytes
  refine ends_get_bind ?_
  dsimp only
  by_cases hmem : m.memory.entries.contains k = true
  · rw [if_pos hmem]
    exact Ends.pure ⟨(hs.spilled_of_contains hmem).symm, rfl, fun _ => .inl hmem⟩
  · rw [if_neg hmem]
    exact (ends_spilledBytes hs.stage k).imp fun _ _ ⟨hfound, ht, hkey⟩ =>
      ⟨hfound, ht, fun hspilled => .inr (hkey hspilled)⟩

theorem Spilled.exists_live {spilled : Bytes → Option Bytes} {k old : Bytes}
    (h : Spilled w allowed m.spillStage spilled writes) (hold : spilled k = some old) :
    ∃ stage e, m.spillStage = some stage ∧ m.live? = some stage ∧ stage.created = true ∧
      w.engine? stage.engine = some e ∧ e.Holds w.disk stage.partition allowed spilled writes := by
  rcases h.live?_cases with ⟨-, rfl⟩ | hlive
  · cases hold
  · exact hlive

/-- Writing where a key was moved to; an engine that does not accept the entry changes nothing. -/
theorem ends_onLive {act : String → EngineM Unit} {spilled : Bytes → Option Bytes} {k old : Bytes}
    {b : Option Bytes} (h : m.Holds w allowed value calls)
    (hs : m.Splits w allowed value spilled writes calls) (hold : spilled k = some old) (hstage : m.spillStage = some stage)
    (hcreated : stage.created = true) (he : w.engine? stage.engine = some e)
    (hact : Ends (act stage.partition) (e, w.disk)
      (fun _ t => t.1.Holds t.2 stage.partition allowed (record spilled (k, b)) (writes + 1) ∧
        Disk.Later w.disk t.2)
      fun err t => Interrupted w.disk allowed err ∨ t = (e, w.disk) ∧ ¬ Accepts (k, b)) :
    Ends (onStage stage act) (m, w)
      (fun _ t => t.1 = m ∧ t.1.Holds t.2 allowed (record value (k, b)) (calls + 1) ∧
        Disk.Later w.disk t.2.disk)
      fun err t => Interrupted w.disk allowed err ∨ t = (m, w) ∧ ¬ Accepts (k, b) := by
  refine (ends_onStage he hact).mono ?_ ?_
  · rintro _ _ ⟨e', d', rfl, hholds', hlater⟩
    refine ⟨rfl, h.write hs hold ?_, hlater⟩
    rw [hstage]
    exact .live hcreated (Workspace.engine?_putEngine he) hholds'
  · rintro err _ ⟨e', d', rfl, hint | ⟨ht, hrefused⟩⟩
    · exact .inl hint
    · cases ht
      rw [Workspace.putEngine_self he]
      exact .inr ⟨rfl, hrefused⟩

/-- A value that is put is found at its key, and nowhere else anything changes. -/
theorem ends_putBytesIn (order : Shuffle) {k v : Bytes} (h : m.Holds w allowed value calls)
    (hk : k ≠ []) (hv : v ≠ []) (hallowed : allowed (k, some v))
    (hroom : 1 + 2 * (calls + 1) < UInt64.size) :
    Ends (putBytesIn order k v) (m, w)
      (fun _ t => m.Kind t.1 ∧ t.1.Holds t.2 allowed (record value (k, some v)) (calls + 1) ∧
        Disk.Later w.disk t.2.disk ∧
        (m.Movable → (m.isSpillable = true → Accepts (k, some v)) → t.1.Movable))
      fun err t => Interrupted w.disk allowed err ∨ m.Keeps w allowed value (calls + 1) t ∧
        (m.Movable → ¬ (m.isSpillable = true → Accepts (k, some v))) := by
  obtain ⟨spilled, writes, hs⟩ := h.splits
  have hwrites := hs.room
  have hkeeps := h.keeps (Nat.le_succ calls)
  unfold putBytesIn
  refine ends_get_bind ?_
  dsimp only
  refine Ends.bind ((ends_movedBytes hs k).imp_fail ?_) ?_
  · rintro err _ ⟨rfl, hspilled, hrefused⟩
    exact .inr ⟨hkeeps, fun _ ha => hrefused (ha (isSpillable_of_hasSpilled hspilled)).1⟩
  rintro _ _ ⟨rfl, rfl, -⟩
  cases hfound : spilled k with
  | some old =>
    obtain ⟨stage, e, hstage, hlive, hcreated, he, hholds⟩ := hs.stage.exists_live hfound
    have hspillable := isSpillable_of_stage hstage
    rw [hlive]
    refine (ends_onLive h hs hfound hstage hcreated he (ends_put hholds hallowed (by omega))).mono ?_ ?_
    · rintro _ ⟨m', w'⟩ ⟨rfl, hholds', hlater⟩
      exact ⟨⟨rfl, rfl, rfl⟩, hholds', hlater, fun hm _ => hm⟩
    · rintro err _ (hint | ⟨rfl, hrefused⟩)
      · exact .inl hint
      · exact .inr ⟨hkeeps, fun _ ha => hrefused (ha hspillable)⟩
  | none =>
    have hinsert := h.insert hs hfound hk hv hallowed
    refine ends_modify_bind (ends_get_bind ?_)
    dsimp only
    split
    · refine (ends_spillMemoryIn order hinsert hroom).mono ?_ ?_
      · rintro _ ⟨m', w'⟩ ⟨hkind, hholds, hlater, hm⟩
        exact ⟨⟨hkind.keys, hkind.values, hkind.spillable⟩, hholds, hlater, fun _ _ => hm⟩
      · rintro err ⟨m', w'⟩ (hint | ⟨hstuck, value', hvalue', hkind, hholds, hlater⟩)
        · exact .inl hint
        · refine .inr ⟨⟨value', fun key b hb => ?_, ⟨hkind.keys, hkind.values, hkind.spillable⟩,
            hholds, hlater⟩, fun hm ha => hstuck (hm.insert ha)⟩
          -- the key itself was in memory, so it is none of those that are left
          obtain ⟨hrecord, hnone⟩ := hvalue' key b hb
          have hne : key ≠ k := by
            rintro rfl
            have hfind : (m.memory.entries.insert key v).find? key = none := hnone
            rw [KeyMap.find?_insert, if_pos rfl] at hfind
            cases hfind
          rwa [record, if_neg hne] at hrecord
    · exact Ends.pure ⟨⟨rfl, rfl, rfl⟩, hinsert, Disk.later_refl _, fun hm ha => hm.insert ha⟩

/-- Erasing a key that is in memory. -/
theorem Holds.erase {spilled : Bytes → Option Bytes} {k : Bytes} (h : m.Holds w allowed value calls)
    (hs : m.Splits w allowed value spilled writes calls) (hk : spilled k = none) (hkey : k ≠ []) :
    ({ m with memory := m.memory.erase k } : SpillMap κ ν).Holds w allowed (record value (k, none))
      calls where
  opened := h.opened
  sorted := h.sorted.erase
  memory := forall_mem_puts_erase h.memory
  nonempty pair hmem := h.nonempty pair (KeyMap.mem_erase hmem)
  keys := keys_record h.keys hkey
  splits := by
    have hroom := hs.room
    have hlength : (m.memory.entries.erase k).length ≤ m.memory.entries.length :=
      List.length_filter_le _ _
    refine ⟨spilled, writes, hs.stage, ?_, fun pair hmem => hs.apart pair (KeyMap.mem_erase hmem),
      fun key => ?_⟩
    · show writes + (m.memory.entries.erase k).length ≤ calls
      omega
    · show (if key = k then none else value key) =
        ((m.memory.entries.erase k).find? key).or (spilled key)
      rw [KeyMap.find?_erase, hs.values key]
      by_cases hsame : key = k
      · rw [if_pos hsame, if_pos hsame, hsame, hk]
        rfl
      · rw [if_neg hsame, if_neg hsame]

/-- A key that is erased has no value, and nowhere else anything changes. -/
theorem ends_eraseBytes {k : Bytes} (h : m.Holds w allowed value calls) (hk : k ≠ [])
    (hallowed : allowed (k, none)) (hroom : 1 + 2 * (calls + 1) < UInt64.size) :
    Ends (eraseBytes k) (m, w)
      (fun _ t => m.Kind t.1 ∧ t.1.Holds t.2 allowed (record value (k, none)) (calls + 1) ∧
        Disk.Later w.disk t.2.disk ∧ (m.Movable → t.1.Movable))
      fun err t => Interrupted w.disk allowed err ∨ t = (m, w) ∧ m.hasSpilled = true ∧ ¬ Storable k := by
  obtain ⟨spilled, writes, hs⟩ := h.splits
  have hwrites := hs.room
  unfold eraseBytes
  refine ends_get_bind ?_
  dsimp only
  by_cases hmem : m.memory.entries.contains k = true
  · rw [if_pos hmem]
    refine ends_modify ⟨⟨rfl, rfl, rfl⟩,
      (h.erase hs (hs.spilled_of_contains hmem) hk).mono (Nat.le_succ _), Disk.later_refl _,
      fun hm hspillable => forall_mem_puts_erase (hm hspillable)⟩
  · rw [if_neg hmem]
    refine Ends.bind ((ends_spilledBytes hs.stage k).imp_fail fun _ _ he => .inr he) ?_
    rintro _ _ ⟨rfl, rfl, -⟩
    cases hfound : spilled k with
    | some old =>
      obtain ⟨stage, e, hstage, hlive, hcreated, he, hholds⟩ := hs.stage.exists_live hfound
      rw [hlive]
      have hdelete := ends_delete hholds hallowed (by omega)
      refine (ends_onLive h hs hfound hstage hcreated he hdelete).mono ?_ ?_
      · rintro _ ⟨m', w'⟩ ⟨rfl, hholds', hlater⟩
        exact ⟨⟨rfl, rfl, rfl⟩, hholds', hlater, fun hm => hm⟩
      · rintro err _ (hint | ⟨rfl, hrefused⟩)
        · exact .inl hint
        · exact .inr ⟨rfl, hasSpilled_of_live? hlive, fun hk => hrefused ⟨hk, nofun⟩⟩
    | none =>
      have hfind : m.memory.entries.find? k = none := by
        rw [KeyMap.contains, Bool.not_eq_true, Option.isSome_eq_false_iff, Option.isNone_iff_eq_none]
          at hmem
        exact hmem
      have hvalue : value k = none := by
        rw [hs.values k, hfind, hfound]
        rfl
      rw [record_none hvalue]
      exact Ends.pure ⟨⟨rfl, rfl, rfl⟩, h.mono (Nat.le_succ _), Disk.later_refl _, fun hm => hm⟩

theorem Holds.value_nil (h : m.Holds w allowed value calls) : value [] = none := by
  cases hvalue : value [] with
  | none => rfl
  | some v => exact absurd rfl (h.keys [] v hvalue)

/-- Keys that were moved are no longer than a table entry may be. -/
theorem Spilled.length_le {spilled : Bytes → Option Bytes} {k v : Bytes}
    (h : Spilled w allowed m.spillStage spilled writes) (hv : spilled k = some v) :
    k.length ≤ maxEntryBytes := by
  obtain ⟨stage, e, -, -, -, -, hholds⟩ := h.exists_live hv
  exact hholds.length_le hv

/-- A lookup gives the value of a key. It fails only once the map has spilled, and only for keys without
a value, which are too long for the spill stage. -/
theorem ends_valueBytes (h : m.Holds w allowed value calls) (k : Bytes) :
    Ends (valueBytes k) (m, w) (fun found t => found = value k ∧ t = (m, w))
      fun _ t => t = (m, w) ∧ m.hasSpilled = true ∧ maxEntryBytes < k.length ∧ value k = none := by
  obtain ⟨spilled, writes, hs⟩ := h.splits
  unfold valueBytes
  refine ends_get_bind ?_
  dsimp only
  by_cases hempty : k = []
  · rw [if_pos hempty]
    exact Ends.pure ⟨by rw [hempty, h.value_nil], rfl⟩
  · rw [if_neg hempty]
    have hvalue := hs.values k
    cases hfind : m.memory.entries.find? k with
    | some v =>
      rw [hfind] at hvalue
      exact Ends.pure ⟨hvalue.symm, rfl⟩
    | none =>
      rw [hfind, Option.none_or] at hvalue
      refine (ends_spilledBytes hs.stage k).mono ?_ ?_
      · rintro _ _ ⟨rfl, ht, -⟩
        exact ⟨hvalue.symm, ht⟩
      · rintro err t ⟨ht, hspilled, hrefused⟩
        have hlong : maxEntryBytes < k.length :=
          Nat.not_le.1 fun hlength => hrefused ⟨hempty, hlength⟩
        refine ⟨ht, hspilled, hlong, ?_⟩
        rw [hvalue]
        cases hfound : spilled k with
        | none => rfl
        | some v => exact absurd (hs.stage.length_le hfound) (Nat.not_le.2 hlong)

theorem Holds.valueBytes_iff (h : m.Holds w allowed value calls) (k v : Bytes) :
    valueBytes k (m, w) = .ok (some v) (m, w) ↔ value k = some v := by
  constructor
  · intro hrun
    exact ((ends_valueBytes h k).of_ok hrun).1.symm
  · intro hvalue
    cases hrun : valueBytes k (m, w) with
    | ok found t =>
      obtain ⟨rfl, rfl⟩ := (ends_valueBytes h k).of_ok hrun
      rw [hvalue]
    | error err t =>
      have hnone := ((ends_valueBytes h k).of_error hrun).2.2.2
      rw [hvalue] at hnone
      cases hnone

/-! ## Iterating -/

/-- The spill stage has no key that is in memory. -/
theorem Holds.find_eq_none (h : m.Holds w allowed value calls) (hlive : m.live? = some stage) :
    ∃ e p, w.engine? stage.engine = some e ∧ e.partition? stage.partition = some p ∧
      ∀ key, m.memory.entries.contains key = true → p.find w.disk key = .ok none := by
  obtain ⟨spilled, writes, hs⟩ := h.splits
  rcases hs.stage.live?_cases with ⟨hnone, -⟩ | ⟨stage', e, -, hlive', -, he, hholds⟩
  · rw [hlive] at hnone
    cases hnone
  · rw [hlive, Option.some.injEq] at hlive'
    subst hlive'
    obtain ⟨p, hp, hpartition⟩ := hholds.partition
    refine ⟨e, p, he, hp, fun key hkey => ?_⟩
    rw [hpartition.find key, hs.spilled_of_contains hkey]

/-- All entries: those in memory, then those in the spill stage in the order of their keys. Only a fault
of the disk can keep a scan of the spill stage from starting. -/
theorem ends_contents (h : m.Holds w allowed value calls) :
    Ends contents (m, w)
      (fun c _ => ∃ spilled : KeyMap Bytes, c.memory = m.memory.entries.map m.decodeEntry ∧
        c.spilled = spilled.map m.decodeEntry ∧ KeyMap.Sorted spilled ∧
        (∀ pair ∈ m.memory.entries, spilled.find? pair.1 = none) ∧
        ∀ key, value key = (m.memory.entries.find? key).or (spilled.find? key))
      fun err _ => ∃ name cause, err = .engine (.scan name) cause ∧ Faulted w.disk cause := by
  obtain ⟨spilled, writes, hs⟩ := h.splits
  unfold contents
  refine Ends.bind (ends_ensureOpen h.opened) ?_
  rintro _ _ rfl
  refine ends_get_bind ?_
  dsimp only
  rcases hs.stage.live?_cases with ⟨hlive, rfl⟩ | ⟨stage, e, -, hlive, -, he, hholds⟩
  · rw [hlive]
    exact Ends.pure ⟨[], rfl, rfl, KeyMap.sorted_nil, fun _ _ => rfl, hs.values⟩
  · rw [hlive]
    refine Ends.bind ((ends_onStage he (ends_scan hholds)).imp_fail ?_) ?_
    · rintro _ _ ⟨e', d', rfl, cause, rfl, hfault⟩
      exact ⟨_, cause, rfl, hfault⟩
    rintro scan _ ⟨e', d', rfl, -, -, pairs, hsorted, hfind, hlist⟩
    refine ends_get_bind (Ends.pure ⟨pairs, rfl, ?_, hsorted, fun pair hmem => ?_, fun key => ?_⟩)
    · show (scan.toList d').map _ = _
      rw [hlist, List.map_map]
      rfl
    · rw [hfind, hs.apart pair hmem]
    · rw [hfind, hs.values key]

/-! ## New maps -/

/-- A map that was just made, in memory only or over a partition that nobody uses. -/
inductive New : SpillMap κ ν → Workspace → Prop
  | memoryOnly (keys : Codec κ) (values : Codec ν) (w : Workspace) :
      New (SpillMap.memoryOnly keys values) w
  | spillable {budget : Nat} {partition : String} {engine : EngineId} {keys : Codec κ}
      {values : Codec ν} {e : Engine} {before after : Workspace} {made : SpillMap κ ν}
      (he : before.engine? engine = some e) (hready : e.Ready before.disk partition)
      (hmade : SpillMap.spillable budget partition engine keys values before = .ok made after) :
      New made after

theorem ends_spillable {budget : Nat} {partition : String} {engine : EngineId} {keys : Codec κ}
    {values : Codec ν} :
    Ends (spillable budget partition engine keys values) w
      (fun m w' => m = { keys, values, spillStage := some { engine, partition, budget } } ∧
        w' = w.modifyOwners engine (· + 1))
      fun _ _ => True := by
  unfold spillable
  refine Ends.bind (M := fun _ w' => w' = w) (Ends.ofExcept (fun _ _ => rfl) fun _ _ => trivial) ?_
  rintro _ _ rfl
  refine ends_get_bind ?_
  split
  · exact Ends.bind (M := fun _ _ => False) (Ends.throw trivial) fun _ _ hf => hf.elim
  · exact ends_modify_bind (Ends.pure ⟨rfl, rfl⟩)

theorem New.holds (allowed : Entry → Prop) (h : New m w) : m.Holds w allowed (fun _ => none) 0 := by
  cases h with
  | memoryOnly keys values =>
    exact ⟨rfl, KeyMap.sorted_nil, fun _ hmem => absurd hmem List.not_mem_nil,
      fun _ hmem => absurd hmem List.not_mem_nil, nofun, _, 0, .absent, Nat.le_refl _,
      fun _ hmem => absurd hmem List.not_mem_nil, fun _ => rfl⟩
  | spillable he hready hmade =>
    obtain ⟨rfl, rfl⟩ := ends_spillable.of_ok hmade
    exact ⟨rfl, KeyMap.sorted_nil, fun _ hmem => absurd hmem List.not_mem_nil,
      fun _ hmem => absurd hmem List.not_mem_nil, nofun, _, 0,
      .planned rfl ((Workspace.engine?_modifyOwners _ _ _ _).trans he) hready, Nat.le_refl _,
      fun _ hmem => absurd hmem List.not_mem_nil, fun _ => rfl⟩

end SpillMap

end Spillway
