import Spillway.Proofs.Disk.Directories
import Spillway.Proofs.Store.Name
import Spillway.Proofs.Table.Cursor
import Spillway.Proofs.Table.Writer
import Spillway.Store

/-!
# What a store holds

A layer is the number of a table with its entries. `Store.Holds` says of a store and its disk that
the tables show given layers, the newest first, and that the directory has no other tables but those
that were left behind. Lookups then answer what the newest layer says that knows the key
(`Holds.find`).
-/

namespace Spillway

/-- An error that is a fault of the disk. -/
def Faulted (d : Disk) (e : StorageError) : Prop := ∃ cause, e = .io cause ∧ some cause ∈ d.faults

theorem Faulted.not_reliable {d : Disk} {e : StorageError} (h : Faulted d e) : ¬ d.Reliable := by
  obtain ⟨cause, -, hc⟩ := h
  exact Disk.not_reliable hc

theorem Faulted.of_suffix {d d' : Disk} {e : StorageError} (h : Faulted d' e)
    (hd : d'.faults <:+ d.faults) : Faulted d e := by
  obtain ⟨cause, rfl, hc⟩ := h
  exact ⟨cause, rfl, hd.mem hc⟩

theorem Faulted.mono {d d' : Disk} {e : StorageError} (h : Faulted d' e)
    (hd : Disk.Later d d') : Faulted d e :=
  h.of_suffix hd.faults

theorem not_faulted {d : Disk} {e : StorageError} (hd : d.faults = []) : ¬ Faulted d e := by
  rintro ⟨cause, -, hc⟩
  rw [hd] at hc
  cases hc

/-- An error that is a fault of the disk, or due to bytes that are more than a file can have. -/
def Unwritable (d : Disk) (bytes : Bytes) (e : StorageError) : Prop :=
  Faulted d e ∨ e = .io .fileTooLarge ∧ Disk.maxFileBytes < bytes.length

theorem Unwritable.of_suffix {d d' : Disk} {bytes : Bytes} {e : StorageError}
    (h : Unwritable d' bytes e) (hd : d'.faults <:+ d.faults) : Unwritable d bytes e :=
  h.imp_left fun hfaulted => hfaulted.of_suffix hd

/-- A disk without faults takes all bytes that fit into a file. -/
theorem not_unwritable {d : Disk} {bytes : Bytes} {e : StorageError} (hd : d.faults = [])
    (hsmall : bytes.length ≤ Disk.maxFileBytes) : ¬ Unwritable d bytes e := by
  rintro (hfaulted | ⟨-, hlarge⟩)
  · exact not_faulted hd hfaulted
  · exact absurd hsmall (Nat.not_le.2 hlarge)

/-- There are entries in order, all of them allowed, that take more bytes than a file can have. -/
def Oversized (allowed : Entry → Prop) : Prop :=
  ∃ interval entries, KeyMap.Sorted entries ∧ (∀ entry ∈ entries, allowed entry) ∧
    Disk.maxFileBytes < (Table.layout interval entries).length

/-- An error that is a fault of the disk, or due to a table of allowed entries that is too large. -/
def Strained (d : Disk) (allowed : Entry → Prop) (e : StorageError) : Prop :=
  Faulted d e ∨ e = .io .fileTooLarge ∧ Oversized allowed

theorem Strained.tooLarge {d : Disk} {allowed : Entry → Prop} {e : StorageError}
    (h : Strained d allowed e) (hd : d.Reliable) : e = .io .fileTooLarge :=
  h.elim (fun hfaulted => absurd hd hfaulted.not_reliable) And.left

theorem Strained.mono {d d' : Disk} {allowed allowed' : Entry → Prop} {e : StorageError}
    (h : Strained d' allowed e) (hd : Disk.Later d d')
    (hallowed : ∀ entry, allowed entry → allowed' entry) : Strained d allowed' e := by
  rcases h with hfaulted | ⟨rfl, interval, entries, hsorted, hentries, hlarge⟩
  · exact .inl (hfaulted.mono hd)
  · exact .inr ⟨rfl, interval, entries, hsorted, fun entry hentry => hallowed _ (hentries _ hentry),
      hlarge⟩

/-- An error for which a file in the way is to blame, or a fault of the disk. -/
def Hindered (d : Disk) (path : Path) (e : StorageError) : Prop :=
  ∃ cause, e = .io cause ∧ (d.Obstructed [] path.parts ∨ some cause ∈ d.faults)

theorem Hindered.faulted {d : Disk} {path : Path} {e : StorageError} (h : Hindered d path e)
    (hclear : ¬ d.Obstructed [] path.parts) : Faulted d e := by
  obtain ⟨cause, rfl, hcause⟩ := h
  exact ⟨cause, rfl, hcause.resolve_left hclear⟩

theorem ends_storage {α : Type} {act : DiskM IoError α} {d : Disk} {post : α → Disk → Prop}
    {state : Disk → Prop} {fail : IoError → Prop}
    (h : Ends act d post fun e d' => state d' ∧ fail e) :
    Ends act.storage d post fun e d' => state d' ∧ ∃ cause, e = .io cause ∧ fail cause :=
  Ends.adaptExcept (h.imp_fail fun e _ he => ⟨he.1, e, rfl, he.2⟩)

namespace Table

variable {d : Disk} {path : Path} {place : Location} {id : FileId} {entries : List Entry}
  {bytes : Bytes} {o : Outline}

theorem IsFile.ofBytes (h : IsFile entries bytes) (path : Path) :
    ∃ o, Outline.ofBytes path bytes = .ok o := by
  obtain ⟨interval, hlayout⟩ := h.layout
  have hsmall := h.small
  rw [hlayout] at hsmall ⊢
  exact ⟨_, Outline.ofBytes_layout path interval h.fits hsmall⟩

/-- The outline of a table file finds what its entries say of a key. -/
theorem IsFile.find (h : IsFile entries bytes) (ho : Outline.ofBytes path bytes = .ok o)
    (key : Bytes) : o.find bytes key = Outline.answer (KeyMap.find? entries key) := by
  obtain ⟨interval, hlayout⟩ := h.layout
  have hsmall := h.small
  rw [hlayout] at hsmall ho ⊢
  rw [Outline.ofBytes_layout path interval h.fits hsmall] at ho
  cases ho
  exact Outline.find_layout h.sorted h.fits hsmall key

/-- A table file holds one list of entries. -/
theorem IsFile.eq {entries' : List Entry} (h : IsFile entries bytes) (h' : IsFile entries' bytes) :
    entries = entries' := by
  obtain ⟨o, ho⟩ := h.ofBytes ""
  exact h.sorted.ext h'.sorted fun key =>
    Outline.answer_injective ((h.find ho key).symm.trans (h'.find ho key))

theorem IsFile.find?_eq_none (h : IsFile entries bytes)
    (ho : Outline.ofBytes path bytes = .ok o) {key : Bytes} (hr : o.mightContain key = false) :
    KeyMap.find? entries key = none := by
  obtain ⟨interval, hlayout⟩ := h.layout
  have hsmall := h.small
  rw [hlayout] at hsmall ho
  rw [Outline.ofBytes_layout path interval h.fits hsmall] at ho
  cases ho
  exact Outline.find?_eq_none_of_mightContain h.sorted hr

/-- A writer writes its file, unless that is too large. -/
theorem ends_writeImage (w : Writer) :
    Ends (Disk.writeFile w.file w.image).storage d
      (fun _ d' => d' = d.tick.setContent w.file w.image ∧ w.image.length ≤ Disk.maxFileBytes)
      fun e d' => d' = d.tick ∧ Unwritable d w.image e := by
  refine Ends.adaptExcept ((Disk.ends_writeFile w.file w.image).imp_fail ?_)
  intro e d' ⟨hd', he⟩
  refine ⟨hd', ?_⟩
  rcases he with hfault | ⟨rfl, hlarge⟩
  · exact .inl ⟨e, rfl, hfault⟩
  · exact .inr ⟨rfl, hlarge⟩

/-- The file of a writer is a table of the entries that it was given. -/
theorem Writer.Wrote.strained {w : Writer} {e : StorageError} (hw : w.Wrote entries)
    (hsorted : KeyMap.Sorted entries) (h : Unwritable d w.image e) : Strained d (· ∈ entries) e := by
  refine h.imp_right fun ⟨he, hlarge⟩ => ⟨he, w.interval, entries, hsorted, fun _ hentry => hentry, ?_⟩
  rwa [← hw.image]

/-- A file that makes a table is opened where its path leads to it. -/
theorem ends_load_of_ok (hf : d.find path = .ok (place, .file id))
    (ho : Outline.ofBytes path (d.content id) = .ok o) :
    Ends (Reader.load path) d
      (fun table d' => d' = d.tick ∧ table = { path, file := id, outline := o })
      fun e d' => d' = d.tick ∧ Faulted d e := by
  unfold Reader.load
  refine Ends.bind (ends_storage (Disk.ends_openFile hf)) ?_
  rintro handle d' ⟨rfl, rfl⟩
  have ho' : Outline.ofBytes path (d.tick.content id) = .ok o := ho
  refine ends_get_bind ?_
  simp only [ho']
  exact Ends.pure ⟨rfl, rfl⟩

theorem ends_load (hf : d.find path = .ok (place, .file id)) (hb : IsFile entries (d.content id)) :
    Ends (Reader.load path) d
      (fun table d' => d' = d.tick ∧ table.path = path ∧ table.file = id ∧
        Outline.ofBytes path (d.content id) = .ok table.outline)
      fun e d' => d' = d.tick ∧ Faulted d e := by
  obtain ⟨o, ho⟩ := hb.ofBytes path
  refine (ends_load_of_ok hf ho).imp ?_
  rintro _ _ ⟨rfl, rfl⟩
  exact ⟨rfl, rfl, rfl, ho⟩

end Table

namespace Store

open Table

/-- A table's number and its entries. -/
abbrev Layer := UInt64 × List Entry

variable {d d' : Disk} {dir : Path} {place : Location} {table : Reader} {layer : Layer}
  {s : Store} {layers left : List Layer} {touched : Location → Prop}

/-- The entry is in one of the layers. -/
def Lists (layers : List Layer) (entry : Entry) : Prop := ∃ layer ∈ layers, entry ∈ layer.2

theorem forall_lists_cons {allowed : Entry → Prop} :
    (∀ entry, Lists (layer :: layers) entry → allowed entry) ↔
      (∀ entry ∈ layer.2, allowed entry) ∧ ∀ entry, Lists layers entry → allowed entry := by
  simp only [Lists, List.mem_cons, exists_eq_or_imp, or_imp, forall_and]

/-- The directory has a file with the entries under the name of the number. -/
def Stored (d : Disk) (place : Location) (layer : Layer) : Prop :=
  ∃ file, d.node? (place ++ [tableName layer.1]) = some (.file file) ∧ file < d.contents.length ∧
    IsFile layer.2 (d.content file)

/-- The table is open and has this number and these entries. -/
structure Shows (d : Disk) (dir : Path) (place : Location) (table : Reader) (layer : Layer) :
    Prop where
  path : table.path = tablePath dir layer.1
  node : d.node? (place ++ [tableName layer.1]) = some (.file table.file)
  file : table.file < d.contents.length
  isFile : IsFile layer.2 (d.content table.file)
  outline : Outline.ofBytes table.path (d.content table.file) = .ok table.outline

/-- The tables of a store show layers, and besides only the layers that were left behind are in
the directory. -/
structure Holds (s : Store) (d : Disk) (place : Location) (layers left : List Layer) : Prop where
  opens : d.Opens s.dir place
  shows : List.Forall₂ (Shows d s.dir place) s.tables layers
  stored : ∀ layer ∈ left, Stored d place layer
  distinct : ((layers ++ left).map Prod.fst).Nodup
  used : ∀ layer ∈ layers ++ left, layer.1 < s.nextId
  known : ∀ name id node, tableId? name = some id → d.node? (place ++ [name]) = some node →
    ∃ layer ∈ layers ++ left, name = tableName layer.1

/-! ## Single tables -/

theorem tablePath_injective (dir : Path) : Function.Injective (tablePath dir) := by
  intro id id' h
  have hnames := congrArg Path.names h
  exact tableName_inj (List.cons.inj (List.append_cancel_left hnames)).1

theorem map_path_eq {tables : List Reader} {ids : List UInt64}
    (h : List.Forall₂ (fun table id => table.path = tablePath dir id) tables ids) :
    tables.map (·.path) = ids.map (tablePath dir) := by
  induction h with
  | nil => rfl
  | cons hpath _ ih => rw [List.map_cons, List.map_cons, hpath, ih]

theorem Shows.stored (h : Shows d dir place table layer) : Stored d place layer :=
  ⟨table.file, h.node, h.file, h.isFile⟩

theorem Stored.frame (h : Stored d place layer) (hf : Disk.Frame d d' touched)
    (hn : ¬ touched (place ++ [tableName layer.1])) : Stored d' place layer := by
  obtain ⟨file, hnode, hfile, hisFile⟩ := h
  refine ⟨file, (hf.node _ hn).trans hnode, Nat.lt_of_lt_of_le hfile hf.contents.length_le, ?_⟩
  rwa [hf.content hfile]

theorem Shows.frame (h : Shows d dir place table layer) (hf : Disk.Frame d d' touched)
    (hn : ¬ touched (place ++ [tableName layer.1])) : Shows d' dir place table layer := by
  refine ⟨h.path, (hf.node _ hn).trans h.node, Nat.lt_of_lt_of_le h.file hf.contents.length_le,
    ?_, ?_⟩
  · rw [hf.content h.file]
    exact h.isFile
  · rw [hf.content h.file]
    exact h.outline

theorem shows_frame {tables : List Reader} (h : List.Forall₂ (Shows d dir place) tables layers)
    (hf : Disk.Frame d d' touched)
    (hn : ∀ layer ∈ layers, ¬ touched (place ++ [tableName layer.1])) :
    List.Forall₂ (Shows d' dir place) tables layers := by
  induction h with
  | nil => exact .nil
  | cons hshows _ ih =>
    rw [List.forall_mem_cons] at hn
    exact .cons (hshows.frame hf hn.1) (ih hn.2)

theorem stored_of_shows {tables : List Reader} (h : List.Forall₂ (Shows d dir place) tables layers) :
    ∀ layer ∈ layers, Stored d place layer := by
  induction h with
  | nil => exact fun _ h => absurd h List.not_mem_nil
  | cons hshows _ ih => exact List.forall_mem_cons.2 ⟨hshows.stored, ih⟩

theorem Stored.find_tablePath (h : Stored d place layer) (ho : d.Opens dir place) :
    ∃ file, d.find (tablePath dir layer.1) = .ok (place ++ [tableName layer.1], .file file) ∧
      file < d.contents.length ∧ IsFile layer.2 (d.content file) := by
  obtain ⟨file, hnode, hfile⟩ := h
  exact ⟨file, ho.find_join (plain_tableName layer.1) hnode, hfile⟩

/-- A table that the directory has is opened. -/
theorem ends_load_stored (h : Stored d place layer) (ho : d.Opens dir place) :
    Ends (Reader.load (tablePath dir layer.1)) d
      (fun table d' => Shows d dir place table layer ∧ d' = d.tick)
      fun e d' => d' = d.tick ∧ Faulted d e := by
  obtain ⟨file, hnode, hfile, hisFile⟩ := h
  refine (ends_load (ho.find_join (plain_tableName layer.1) hnode) hisFile).imp ?_
  rintro table d' ⟨rfl, hpath, rfl, houtline⟩
  exact ⟨⟨hpath, hnode, hfile, hisFile, hpath ▸ houtline⟩, rfl⟩

theorem Shows.find (h : Shows d dir place table layer) (key : Bytes) :
    table.find d key = Outline.answer (KeyMap.find? layer.2 key) :=
  h.isFile.find h.outline key

theorem Shows.reads (h : Shows d dir place table layer) :
    Cursor.Reads d { handle := .file table.file, stop := table.outline.indexOffset } layer.2 :=
  h.isFile.reads h.file h.outline

theorem ends_cursor (h : Shows d dir place table layer) (ho : d.Opens dir place) :
    Ends (Reader.cursor table) d
      (fun cursor d' =>
        cursor = { handle := .file table.file, stop := table.outline.indexOffset } ∧ d' = d.tick)
      fun e d' => d' = d.tick ∧ Faulted d e := by
  unfold Reader.cursor
  have hfind := ho.find_join (plain_tableName layer.1) h.node
  rw [← tablePath, ← h.path] at hfind
  refine Ends.bind (ends_storage (Disk.ends_openFile hfind)) ?_
  rintro handle d' ⟨rfl, rfl⟩
  exact Ends.pure ⟨rfl, rfl⟩

/-! ## Lookup -/

/-- The first table that knows a key is the newest layer that does. -/
theorem findIn_eq {tables : List Reader} (h : List.Forall₂ (Shows d dir place) tables layers)
    (key : Bytes) :
    findIn d key tables = .ok (KeyMap.newest? (layers.map Prod.snd) key).join := by
  induction h with
  | nil => rfl
  | @cons table layer tables layers hshows _ ih =>
    rw [findIn, List.map_cons, KeyMap.newest?_cons]
    by_cases hrange : table.outline.mightContain key = true
    · rw [if_pos hrange, hshows.find]
      cases KeyMap.find? layer.2 key with
      | none => exact ih
      | some value => rfl
    · rw [if_neg hrange, hshows.isFile.find?_eq_none hshows.outline (Bool.eq_false_iff.2 hrange)]
      exact ih

theorem Holds.find (h : s.Holds d place layers left) (key : Bytes) :
    s.find d key = .ok (KeyMap.newest? (layers.map Prod.snd) key).join :=
  findIn_eq h.shows key

theorem sorted_of_shows {tables : List Reader} (h : List.Forall₂ (Shows d dir place) tables layers) :
    ∀ run ∈ layers.map Prod.snd, KeyMap.Sorted run := by
  induction h with
  | nil => exact fun _ h => absurd h List.not_mem_nil
  | cons hshows _ ih => exact List.forall_mem_cons.2 ⟨hshows.isFile.sorted, ih⟩

theorem fits_of_shows {tables : List Reader} (h : List.Forall₂ (Shows d dir place) tables layers) :
    ∀ run ∈ layers.map Prod.snd, ∀ entry ∈ run, Fits entry := by
  induction h with
  | nil => exact fun _ h => absurd h List.not_mem_nil
  | cons hshows _ ih => exact List.forall_mem_cons.2 ⟨hshows.isFile.fits, ih⟩

/-- What tables hold are the entries of the layers that they show. -/
theorem forall_lists_iff {tables : List Reader} {allowed : Entry → Prop}
    (h : List.Forall₂ (Shows d dir place) tables layers) :
    (∀ entry, Lists layers entry → allowed entry) ↔ ∀ table ∈ tables, ∀ entries,
      IsFile entries (d.content table.file) → ∀ entry ∈ entries, allowed entry := by
  induction h with
  | nil => simp [Lists]
  | @cons table layer tables layers hshows _ ih =>
    rw [List.forall_mem_cons, ← ih]
    constructor
    · intro hall
      refine ⟨fun entries hfile entry hentry => ?_, fun entry ⟨other, hother, hentry⟩ =>
        hall entry ⟨other, List.mem_cons_of_mem _ hother, hentry⟩⟩
      exact hall entry ⟨layer, List.mem_cons_self, hshows.isFile.eq hfile ▸ hentry⟩
    · intro ⟨hhead, hrest⟩ entry ⟨other, hother, hentry⟩
      rcases List.mem_cons.1 hother with rfl | hother
      · exact hhead other.2 hshows.isFile entry hentry
      · exact hrest entry ⟨other, hother, hentry⟩

/-! ## Cursors -/

/-- Cursors over tables read their layers, also on a later disk. -/
theorem ends_cursors {tables : List Reader} (ho : d.Opens dir place)
    (h : List.Forall₂ (Shows d dir place) tables layers) :
    Ends (tables.mapM Reader.cursor) d
      (fun cursors d' => Disk.Frame d d' (fun _ => False) ∧
        List.Forall₂ (Cursor.Reads d') cursors (layers.map Prod.snd))
      fun e d' => Disk.Frame d d' (fun _ => False) ∧ Faulted d e := by
  have hrun : Ends (tables.mapM Reader.cursor) d
      (fun cursors d' => List.Forall₂ (fun cursor layer => cursor.Reads d layer.2) cursors layers ∧
        Disk.Frame d d' fun _ => False)
      fun e d' => Disk.Frame d d' (fun _ => False) ∧ Faulted d e := by
    refine Ends.mapM h (fun table layer hshows d₁ h₁ => ?_) (Disk.frame_refl d)
    refine (ends_cursor (hshows.frame h₁ id) (h₁.opens ho)).mono ?_ ?_
    · rintro cursor d₂ ⟨rfl, rfl⟩
      exact ⟨hshows.reads, h₁.trans (Disk.frame_tick d₁)⟩
    · rintro e d₂ ⟨rfl, he⟩
      exact ⟨h₁.trans (Disk.frame_tick d₁), he.mono h₁.toLater⟩
  refine hrun.imp fun cursors d' h' => ⟨h'.2, ?_⟩
  rw [List.forall₂_map_right_iff]
  exact h'.1.imp fun _ _ hreads => hreads.mono h'.2.toLater

theorem ends_allCursors (ho : d.Opens s.dir place)
    (h : List.Forall₂ (Shows d s.dir place) s.tables layers) :
    Ends cursors (s, d)
      (fun cursors t => ∃ d', t = (s, d') ∧ Disk.Frame d d' (fun _ => False) ∧
        List.Forall₂ (Cursor.Reads d') cursors (layers.map Prod.snd))
      fun e t => ∃ d', t = (s, d') ∧ Disk.Frame d d' (fun _ => False) ∧ Faulted d e :=
  ends_onDisk_exists (ends_cursors ho h)

/-- A merge over cursors gives the newest versions, also when it is read later. -/
theorem exists_merge {cursors : List Cursor} {runs : List (List Entry)}
    (h : List.Forall₂ (Cursor.Reads d) cursors runs) (hs : ∀ run ∈ runs, KeyMap.Sorted run)
    (keepDeletions : Bool) :
    ∃ m, Merge.start (Cursor.feed d) cursors keepDeletions = .ok m ∧ ∀ d', Disk.Later d d' →
      m.toList (Cursor.feed d') = (KeyMap.merged keepDeletions runs).map .ok := by
  obtain ⟨m, hstart, hlist⟩ := Merge.exists_start (Cursor.feed_tracks d) keepDeletions h hs
  exact ⟨m, hstart, fun d' hd => hlist _ _ (Cursor.feed_tracks d') fun _ _ hreads => hreads.mono hd⟩

end Store

end Spillway
