import Mathlib.Data.List.Pairwise
import Spillway.Proofs.Store.Load

/-!
# The files that are taken for tables

A store opens one table for each file whose name spells a number, and looks for it under the name that
the number has (`tableName`). A number can be spelled in other ways too, such as `sstable_5.sst`. As
long as no file does that, and the largest number is not used, the tables that are opened are those in
the directory, each once, whatever else there is; and only then (`discovered_iff`).
-/

namespace Spillway.Store

open Table

variable {s : Store} {d : Disk} {dir : Path} {place : Location} {id : UInt64} {ids : List UInt64}
  {children : List (String × Node)}

/-- The directory has a file under the name of the number. -/
def Has (d : Disk) (place : Location) (id : UInt64) : Prop :=
  ∃ file, d.node? (place ++ [tableName id]) = some (.file file)

/-- A file whose name spells a number has the name of that number's table, and the number has a next
one. -/
def Proper : String × Node → Prop
  | (_, .directory) => True
  | (name, .file _) => ∀ id ∈ tableId? name, name = tableName id ∧ id.toNat + 1 < UInt64.size

-- by the number that is spelled; a search for the instance may go through all numbers instead
instance : DecidablePred Proper
  | (_, .directory) => instDecidableTrue
  | (name, .file _) => Option.decidableForallMem (tableId? name)

/-- No file of the directory is mistaken for a table. -/
def Unmistaken (d : Disk) (place : Location) : Prop := ∀ child ∈ d.childrenAt place, Proper child

instance : Decidable (Unmistaken d place) :=
  inferInstanceAs (Decidable (∀ child ∈ d.childrenAt place, Proper child))

/-- The table is open and reads the file under the name of the number. -/
structure Opened (d : Disk) (dir : Path) (place : Location) (table : Reader) (id : UInt64) :
    Prop where
  path : table.path = tablePath dir id
  node : d.node? (place ++ [tableName id]) = some (.file table.file)
  outline : Outline.ofBytes table.path (d.content table.file) = .ok table.outline

/-- The open tables of a store are those that the directory has, each once, the largest number first,
and the next number is above all of them. -/
structure Discovered (s : Store) (d : Disk) (dir : Path) (place : Location) (ids : List UInt64) :
    Prop where
  home : s.dir = dir
  tables : List.Forall₂ (Opened d dir place) s.tables ids
  order : ids.Pairwise fun a b => b < a
  all : ∀ id, Has d place id → id ∈ ids
  next : ∀ id ∈ ids, id < s.nextId

/-! ## The numbers that are spelled -/

theorem mem_tableIds : id ∈ tableIds children ↔
    ∃ name file, (name, .file file) ∈ children ∧ tableId? name = some id := by
  unfold tableIds
  rw [(foldr_insertId_perm _).mem_iff, List.mem_filterMap]
  constructor
  · rintro ⟨⟨name, node⟩, hmem, hid⟩
    cases node with
    | directory => cases hid
    | file file => exact ⟨name, file, hmem, hid⟩
  · rintro ⟨name, file, hmem, hid⟩
    exact ⟨_, hmem, hid⟩

/-- A number is found twice when two names spell it. -/
theorem nodup_tableIds_iff (h : (children.map Prod.fst).Nodup) :
    (tableIds children).Nodup ↔ ∀ id name file name' file', tableId? name = some id →
      tableId? name' = some id → (name, .file file) ∈ children → (name', .file file') ∈ children →
      name = name' := by
  unfold tableIds
  rw [(foldr_insertId_perm _).nodup_iff, List.Nodup, List.pairwise_filterMap]
  constructor
  · intro hpair id name file name' file' hid hid' hmem hmem'
    by_contra hne
    have hapart := @List.Pairwise.forall _ _ _
      ⟨fun _ _ hab b hb a ha heq => hab a ha b hb heq.symm⟩ hpair
    exact hapart hmem hmem' (fun heq => hne (Prod.mk.inj heq).1) id hid id hid' rfl
  · intro hnames
    refine (List.pairwise_map.1 h).imp_of_mem ?_
    rintro ⟨name, node⟩ ⟨name', node'⟩ hmem hmem' hne id hid id' hid' rfl
    cases node with
    | directory => cases hid
    | file file =>
      cases node' with
      | directory => cases hid'
      | file file' => exact hne (hnames id name file name' file' hid hid' hmem hmem')

theorem mem_tableIds_of_has (h : Has d place id) : id ∈ tableIds (d.childrenAt place) := by
  obtain ⟨file, hnode⟩ := h
  exact mem_tableIds.2 ⟨_, file, Disk.mem_childrenAt_of_node? hnode, tableId?_tableName id⟩

theorem Unmistaken.has (h : Unmistaken d place) (htidy : d.TidyAt place)
    (hid : id ∈ tableIds (d.childrenAt place)) : Has d place id ∧ id.toNat + 1 < UInt64.size := by
  obtain ⟨name, file, hmem, hname⟩ := mem_tableIds.1 hid
  obtain ⟨rfl, hnext⟩ := h _ hmem id hname
  exact ⟨⟨file, htidy.mem_childrenAt_iff.1 hmem⟩, hnext⟩

theorem Unmistaken.nodup (h : Unmistaken d place) (htidy : d.TidyAt place) :
    (tableIds (d.childrenAt place)).Nodup := by
  refine (nodup_tableIds_iff htidy).2 fun id name file name' file' hid hid' hmem hmem' => ?_
  rw [(h _ hmem id hid).1, (h _ hmem' id hid').1]

/-- The numbers that are found fall when none is found twice. -/
theorem pairwise_tableIds (h : (tableIds children).Nodup) :
    (tableIds children).Pairwise fun a b => b < a := by
  have hsorted : (tableIds children).Pairwise fun a b => b ≤ a := pairwise_foldr_insertId _
  exact (hsorted.and h).imp fun hab => UInt64.lt_of_le_of_ne hab.1 (Ne.symm hab.2)

/-! ## Opening what was found -/

/-- Files that make tables are opened. -/
theorem ends_loads_of_ok (ho : d.Opens dir place)
    (h : ∀ id ∈ ids, ∃ file o, d.node? (place ++ [tableName id]) = some (.file file) ∧
      Outline.ofBytes (tablePath dir id) (d.content file) = .ok o) :
    Ends (ids.mapM fun id => Reader.load (tablePath dir id)) d
      (fun tables _ => List.Forall₂ (Opened d dir place) tables ids) fun e _ => Faulted d e := by
  have hitems : List.Forall₂ (fun id id' => id = id' ∧ id ∈ ids) ids ids :=
    List.forall₂_same.2 fun id hid => ⟨rfl, hid⟩
  refine (Ends.mapM (I := d.Ticked) (P := Opened d dir place) hitems ?_ (Disk.ticked_refl d)).imp
    fun _ _ htables => htables.1
  rintro id _ ⟨rfl, hid⟩ d₁ hticked
  obtain ⟨file, o, hnode, hbytes⟩ := h id hid
  have hfind := (hticked.frame.opens ho).find_join (plain_tableName id)
    ((hticked.frame.node _ fun h => h).trans hnode)
  have hcontent : d₁.content file = d.content file := by
    obtain ⟨_, -, rfl⟩ := hticked
    rfl
  refine (ends_load_of_ok hfind (hcontent ▸ hbytes)).mono ?_
    fun _ _ he => he.2.mono hticked.frame.toLater
  rintro _ _ ⟨rfl, rfl⟩
  exact ⟨⟨rfl, hnode, hbytes⟩, hticked.trans (Disk.ticked_tick d₁)⟩

/-- Tables that are opened are known by the paths that were asked for. -/
theorem ends_loads_paths (ids : List UInt64) (d : Disk) :
    Ends (ids.mapM fun id => Reader.load (tablePath dir id)) d
      (fun tables _ => tables.map (·.path) = ids.map (tablePath dir)) fun _ _ => True := by
  have hstep : ∀ id d, Ends (Reader.load (tablePath dir id)) d
      (fun table _ => table.path = tablePath dir id ∧ True) fun _ _ => True := by
    intro id d
    unfold Reader.load
    refine Ends.bind (Ends.trivial _ d) ?_
    rintro (_ | file) d₁ -
    · exact Ends.throw trivial
    refine ends_get_bind ?_
    cases Outline.ofBytes (tablePath dir id) (d₁.content file) with
    | error cause => exact Ends.throw trivial
    | ok o => exact Ends.pure ⟨rfl, trivial⟩
  have hitems : List.Forall₂ Eq ids ids := List.forall₂_same.2 fun _ _ => rfl
  refine (Ends.mapM (I := fun _ => True) hitems ?_ trivial).imp fun _ _ h => map_path_eq h.1
  rintro id _ rfl d -
  exact hstep id d

theorem has_of_opened {tables : List Reader} (h : List.Forall₂ (Opened d dir place) tables ids) :
    ∀ id ∈ ids, Has d place id := by
  induction h with
  | nil => exact fun _ h => absurd h List.not_mem_nil
  | cons hopened _ ih => exact List.forall_mem_cons.2 ⟨⟨_, hopened.node⟩, ih⟩

/-! ## What is opened -/

/-- The tables of a store that was opened are those that the directory has only when no file there is
mistaken for a table. -/
theorem Discovered.unmistaken (h : Discovered s d dir place ids) (htidy : d.TidyAt place)
    (hpaths : s.tables.map (·.path) = (tableIds (d.childrenAt place)).map (tablePath dir)) :
    Unmistaken d place := by
  have hopened := map_path_eq (h.tables.imp fun _ _ hopened => hopened.path)
  rw [hpaths] at hopened
  obtain rfl := List.map_injective_iff.2 (tablePath_injective dir) hopened
  have hnodup : (tableIds (d.childrenAt place)).Nodup :=
    h.order.imp fun hlt => (UInt64.ne_of_lt hlt).symm
  rintro ⟨name, _ | file⟩ hmem
  · exact True.intro
  intro id hid
  have hfound : id ∈ tableIds (d.childrenAt place) := mem_tableIds.2 ⟨name, file, hmem, hid⟩
  constructor
  · -- under another name, the number would be found a second time
    obtain ⟨file', hnode⟩ := has_of_opened h.tables id hfound
    exact (nodup_tableIds_iff htidy).1 hnodup id name file _ file' hid (tableId?_tableName id) hmem
      (Disk.mem_childrenAt_of_node? hnode)
  · have hlt := UInt64.lt_iff_toNat_lt.1 (h.next id hfound)
    exact Nat.lt_of_le_of_lt hlt s.nextId.toNat_lt_size

/-- In a directory whose tables are all intact, a store is opened with exactly these tables, each once,
and with the next number above theirs, if and only if no file is mistaken for a table and no number is the
last. Then only a fault of the disk keeps it from that. -/
theorem discovered_iff (ho : d.Opens dir place) (htidy : d.TidyAt place)
    (hvalid : ∀ id file, d.node? (place ++ [tableName id]) = some (.file file) →
      ∃ o, Outline.ofBytes (tablePath dir id) (d.content file) = .ok o) (interval : Nat) :
    Ends (load dir interval) d
      (fun s _ => (∃ ids, Discovered s d dir place ids) ↔ Unmistaken d place)
      fun e _ => Unmistaken d place → Faulted d e := by
  refine ends_load_of ((ends_storage (Disk.ends_createDirectory_of_opens ho)).imp_fail
    fun _ _ he _ => he.2) (fun _ hd₁ => hd₁ ▸ (Disk.frame_tick d).opens ho) ?_
  rintro _ _ rfl rfl
  by_cases hclear : Unmistaken d place
  · have hhas : ∀ id ∈ tableIds (d.childrenAt place),
        Has d place id ∧ id.toNat + 1 < UInt64.size := fun id hid => hclear.has htidy hid
    refine (ends_loads_of_ok ((Disk.frame_tick d).opens ho) fun id hid => ?_).mono ?_
      fun _ _ he _ => he.mono (Disk.frame_tick d).toLater
    · obtain ⟨⟨file, hnode⟩, -⟩ := hhas id hid
      obtain ⟨o, hbytes⟩ := hvalid id file hnode
      exact ⟨file, o, hnode, hbytes⟩
    · intro tables _ htables
      have horder := pairwise_tableIds (hclear.nodup htidy)
      refine iff_of_true ⟨_, rfl, htables.imp fun _ _ h => ⟨h.path, h.node, h.outline⟩, horder,
        fun id => mem_tableIds_of_has, ?_⟩ hclear
      exact lt_next (horder.imp UInt64.le_of_lt) fun id hid => (hhas id hid).2
  · refine (ends_loads_paths _ _).mono (fun tables _ hpaths => ?_) fun _ _ _ h => absurd h hclear
    refine iff_of_false ?_ hclear
    rintro ⟨ids, hdiscovered⟩
    exact hclear (hdiscovered.unmistaken htidy hpaths)

theorem opens_store (h : d.node? ["store"] = some .directory) : d.Opens "/store" ["store"] := by
  have hlies := ((Disk.lies_nil d).reaches (Disk.node?_nil d)).lies_concat "store"
  exact (Disk.downward_of_parts (by decide) (by decide)).opens (hlies.reaches h)

/-- Beside a table lie other files, and a directory with the name of a table. -/
def littered : Disk where
  nodes := [(["store"], .directory), (["store", "notes.txt"], .file 0),
    (["store", "sstable_x.sst"], .file 0), (["store", "sstable_000009.sst"], .directory),
    (["store", "sstable_000007.sst"], .file 1)]
  contents := [[106, 117, 110, 107], layout 4 [([107], some [97])]]

theorem ends_littered :
    Ends (load "/store" 4) littered (fun s _ => s.tables.length = 1 ∧ s.nextId = 8)
      fun _ _ => False := by decide +kernel

theorem discovered_iff_littered : ∃ s d' ids, load "/store" 4 littered = .ok s d' ∧
    Discovered s littered "/store" ["store"] ids ∧ s.tables.length = 1 ∧ s.nextId = 8 := by
  have hfile : ∀ child ∈ littered.childrenAt ["store"], (tableId? child.1).isSome →
      child.2 = .directory ∨ child.2 = .file 1 := by decide +kernel
  have hvalid : ∀ id file, littered.node? (["store"] ++ [tableName id]) = some (.file file) →
      ∃ o, Outline.ofBytes (tablePath "/store" id) (littered.content file) = .ok o := by
    intro id file hnode
    have hone := hfile _ (Disk.mem_childrenAt_of_node? hnode)
      (by rw [tableId?_tableName, Option.isSome_some])
    obtain rfl := Node.file.inj (hone.resolve_left nofun)
    have hfits : Fits ([107], some [97]) := by unfold Fits; decide
    exact ⟨_, Outline.ofBytes_layout _ 4 (List.forall_mem_singleton.2 hfits) (by decide)⟩
  obtain ⟨s, d', hopened, hone, hnext⟩ := ends_littered.exists_ok fun _ _ hf => hf
  obtain ⟨ids, hdiscovered⟩ :=
    ((discovered_iff (opens_store rfl) (by decide) hvalid 4).of_ok hopened).2 (by decide +kernel)
  exact ⟨s, d', ids, hopened, hdiscovered, hone, hnext⟩

/-- A file in the directory spells a number without its zeros. -/
def strayed : Disk where
  nodes := [(["store"], .directory), (["store", "sstable_5.sst"], .file 0)]
  contents := [[106, 117, 110, 107]]

theorem ends_strayed : Ends (load "/store" 4) strayed (fun _ _ => False)
    fun e _ => e = .io .notFound := by decide +kernel

/-- No file has the name of a table, and yet the directory is not opened. -/
theorem load_strayed : strayed.Opens "/store" ["store"] ∧ strayed.TidyAt ["store"] ∧
    (∀ id, ¬ Has strayed ["store"] id) ∧ strayed.Reliable ∧
    Ends (load "/store" 4) strayed (fun _ _ => False) fun e _ => e = .io .notFound := by
  refine ⟨opens_store rfl, by decide, ?_, fun _ hmem => absurd hmem List.not_mem_nil, ends_strayed⟩
  have hother : ∀ child ∈ strayed.childrenAt ["store"],
      tableId? child.1 = some 5 ∧ child.1 ≠ tableName 5 := by decide +kernel
  rintro id ⟨file, hnode⟩
  obtain ⟨hid, hname⟩ := hother _ (Disk.mem_childrenAt_of_node? hnode)
  rw [tableId?_tableName, Option.some.injEq] at hid
  exact hname (congrArg tableName hid)

end Spillway.Store
