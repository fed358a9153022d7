import Spillway.Proofs.Store.Tables

/-!
# Tables read back

The file of a writer that was given sorted entries is their layout, whatever the interval of the
index. It is opened, the reader and the summary of the writer tell the same of it, and a cursor gives
the entries back one by one (`written_reads_back`).
-/

namespace Spillway

namespace Disk

variable {d : Disk} {path : Path} {place : Location} {node : Node} {id : FileId}

theorem content_setContent (hid : id < d.contents.length) (bytes : Bytes) :
    (d.setContent id bytes).content id = bytes := by
  show ((d.contents.set id bytes)[id]?).getD [] = bytes
  simp [List.getElem?_set_self hid]

/-- Writing to a file changes no name. -/
theorem node?_setContent (d : Disk) (id : FileId) (bytes : Bytes) (p : Location) :
    (d.setContent id bytes).node? p = d.node? p := rfl

theorem find_setContent (id : FileId) (bytes : Bytes) (path : Path) :
    (d.setContent id bytes).find path = d.find path :=
  find_congr (d.node?_setContent id bytes) path

/-- A file can be written at the place: there is none yet, or one that can be written anew. -/
def Writable (d : Disk) (place : Location) : Prop :=
  ∀ node, d.node? place = some node → ∃ id, node = .file id ∧ id < d.contents.length

/-- The file that is made is found where its path leads. -/
theorem ends_createFile_find (hl : d.locate path = .ok place) (hw : d.Writable place) :
    Ends (createFile path) d
      (fun id d' => d'.find path = .ok (place, .file id) ∧ id < d'.contents.length ∧
        d'.faults <:+ d.faults)
      fun e d' => d' = d.tick ∧ some e ∈ d.faults := by
  cases hn : d.node? place with
  | none =>
    refine (ends_createFile hl hn).imp ?_
    rintro id d' ⟨rfl, rfl⟩
    have hnode : d.tick.node? place = none := hn
    have hne : place ≠ [] := ne_nil_of_node? (by rw [hn]; exact nofun)
    have hl' : d.tick.locate path = .ok place := by rw [locate, walk_tick, ← locate, hl]
    have hlies : d.tick.Lies place := (walk_eq_ok (lies_nil d.tick) hl').2
    have hwalk : (d.tick.addFile place []).locate path = .ok place :=
      walk_mono (frame_addFile hlies hnode []).reaches (lies_nil d.tick) hl'
    have hmade : (d.tick.addFile place []).node? place = some (.file d.contents.length) := by
      rw [node?_addFile hne, if_pos rfl]
      rfl
    refine ⟨?_, ?_, List.tail_suffix _⟩
    · unfold Disk.find
      simp only [hwalk, hmade]
    · show d.contents.length < (d.contents ++ [[]]).length
      simp
  | some node =>
    obtain ⟨id, rfl, hid⟩ := hw node hn
    refine ends_attempt_bind (fun e he => ⟨rfl, he⟩) (ends_get_bind ?_)
    have hl' : d.tick.locate path = .ok place := by rw [locate, walk_tick, ← locate, hl]
    have hn' : d.tick.node? place = some (.file id) := hn
    simp only [hl', hn']
    refine ends_set_bind (Ends.pure ⟨?_, ?_, List.tail_suffix _⟩)
    · rw [find_setContent]
      unfold Disk.find
      simp only [hl', hn']
    · show id < (d.contents.set id []).length
      simpa using hid

end Disk

namespace Table

variable {d : Disk} {path : Path} {place : Location} {entries : List Entry} {w : Writer}

/-! ## Writing -/

/-- What is known of a finished table with these entries. -/
def Summary.ofEntries (path : Path) (interval : Nat) (entries : List Entry) : Summary where
  path := path
  entryCount := entries.length
  minKey := (entries.head?.map Prod.fst).getD []
  maxKey := (entries.getLast?.map Prod.fst).getD []
  fileSize := (layout interval entries).length

/-- A new writer has taken nothing yet, for a file that its path leads to. -/
theorem ends_create (hl : d.locate path = .ok place) (hw : d.Writable place) (interval : Nat) :
    Ends (Writer.create path interval) d
      (fun w d' => ∃ file, w = { path, file, interval := max interval 1 } ∧
        d'.find path = .ok (place, .file file) ∧ file < d'.contents.length ∧ d'.faults <:+ d.faults)
      fun e d' => d' = d.tick ∧ Faulted d e := by
  refine Ends.bind (ends_storage (Disk.ends_createFile_find hl hw)) ?_
  rintro file d' ⟨hfind, hfile, hfaults⟩
  exact Ends.pure ⟨file, rfl, hfind, hfile, hfaults⟩

/-- Sorted entries are written when all of them fit, and then the file is their layout. -/
theorem ends_fill_sorted (hw : w.Wrote []) (hsorted : KeyMap.Sorted entries) :
    Ends (w.fill (entries.map .ok)) d
      (fun summary d' => (∀ e ∈ entries, Fits e) ∧ summary = .ofEntries w.path w.interval entries ∧
        d' = d.tick.setContent w.file (layout w.interval entries) ∧
        (layout w.interval entries).length ≤ Disk.maxFileBytes)
      fun e _ => (∀ e ∈ entries, Fits e) → Unwritable d (layout w.interval entries) e := by
  obtain ⟨w', stop, hadd, hpath, hfile, hinterval, hnone, hfit⟩ := hw.addAll hsorted
  unfold Writer.fill
  rw [hadd]
  cases stop with
  | none =>
    obtain ⟨hfits, hwrote⟩ := hnone rfl
    have himage : w'.image = layout w.interval entries := by rw [hwrote.image, hinterval]; rfl
    refine Ends.bind ((ends_writeImage w').imp_fail fun _ _ he _ => himage ▸ he.2) ?_
    rintro _ d' ⟨rfl, hsmall⟩
    rw [himage] at hsmall ⊢
    refine Ends.pure ⟨hfits, ?_, by rw [hfile], hsmall⟩
    simp [Summary.ofEntries, hpath, hwrote.count, hwrote.first, hwrote.map_fst_last]
  | some e =>
    -- an entry was refused, so not all of them fit
    have hnot : ¬ ∀ e ∈ entries, Fits e := fun h => by cases hfit h
    refine Ends.bind (Ends.outcome (M := fun _ _ => True) (Ends.trivial _ _)) ?_
    intro _ _ _
    exact Ends.throw fun h => absurd h hnot

/-- Sorted entries that fit are all written, and the file is their layout. -/
theorem ends_fill_layout (hw : w.Wrote []) (hsorted : KeyMap.Sorted entries)
    (hfits : ∀ e ∈ entries, Fits e) :
    Ends (w.fill (entries.map .ok)) d
      (fun summary d' => summary = .ofEntries w.path w.interval entries ∧
        d' = d.tick.setContent w.file (layout w.interval entries) ∧
        (layout w.interval entries).length ≤ Disk.maxFileBytes)
      fun e _ => Unwritable d (layout w.interval entries) e :=
  (ends_fill_sorted hw hsorted).mono (fun _ _ h => h.2) fun _ _ h => h hfits

/-! ## Reading -/

/-- What a reader tells of a table with these entries. -/
structure Reader.Describes (reader : Reader) (interval : Nat) (entries : List Entry) : Prop where
  entryCount : reader.outline.entryCount = entries.length
  fileSize : reader.outline.fileSize = (layout interval entries).length
  minKey? : reader.outline.minKey? = entries.head?.map Prod.fst
  maxKey? : reader.outline.maxKey? = entries.getLast?.map Prod.fst

theorem describes_of_outline {reader : Reader} {interval : Nat}
    (h : reader.outline = .ofEntries interval entries) : reader.Describes interval entries := by
  constructor
  · simp [h, Outline.ofEntries]
  · simp [h, Outline.ofEntries]
  · rw [h, Outline.minKey?_ofEntries]
  · rw [h, Outline.maxKey?_ofEntries]

/-- A cursor gives the entries of a table file to which the path of the reader leads. -/
theorem ends_cursor_toList {reader : Reader}
    (hf : d.find reader.path = .ok (place, .file reader.file))
    (hid : reader.file < d.contents.length) (hb : IsFile entries (d.content reader.file))
    (ho : Outline.ofBytes reader.path (d.content reader.file) = .ok reader.outline) :
    Ends reader.cursor d (fun cursor d' => (Cursor.feed d').toList cursor = entries.map .ok)
      fun e _ => Faulted d e := by
  unfold Reader.cursor
  refine Ends.bind ((ends_storage (Disk.ends_openFile hf)).imp_fail fun _ _ he => he.2) ?_
  rintro handle d' ⟨rfl, rfl⟩
  refine Ends.pure ((Cursor.feed_tracks _).toList_eq ?_)
  exact (hb.reads hid ho).mono (Disk.frame_tick d).toLater

/-- A table that is written from sorted entries that fit, at a path where a file can be written, is
their layout and is summed up as such. It is opened, its reader tells the same of it, and a cursor
gives the entries in order. Only a fault of the disk can keep it from that, or that the layout is more
than a file can have. -/
theorem written_reads_back (hl : d.locate path = .ok place) (hw : d.Writable place) (interval : Nat)
    (hsorted : KeyMap.Sorted entries) (hfits : ∀ e ∈ entries, Fits e) :
    Ends (Writer.create path interval >>= fun w => w.fill (entries.map .ok)) d
      (fun summary d₁ => summary = .ofEntries path (max interval 1) entries ∧
        d₁.faults <:+ d.faults ∧ ∃ file, d₁.find path = .ok (place, .file file) ∧
          d₁.content file = layout (max interval 1) entries ∧
          Ends (Reader.load path) d₁
            (fun reader d₂ => reader.path = path ∧ reader.file = file ∧
              reader.Describes (max interval 1) entries ∧ d₂.faults <:+ d₁.faults ∧
              Ends reader.cursor d₂
                (fun cursor d₃ => (Cursor.feed d₃).toList cursor = entries.map .ok)
                fun e _ => Faulted d₂ e)
            fun e _ => Faulted d₁ e)
      fun e _ => Unwritable d (layout (max interval 1) entries) e := by
  refine Ends.bind ((ends_create hl hw interval).imp_fail fun _ _ he => .inl he.2) ?_
  rintro _ d₁ ⟨file, rfl, hfind, hfile, hfaults⟩
  have hwrote := Writer.wrote_nil path file (max interval 1)
  generalize max interval 1 = n at hwrote ⊢
  refine (ends_fill_layout hwrote hsorted hfits).mono ?_ fun e _ he => he.of_suffix hfaults
  rintro summary d₂ ⟨rfl, rfl, hsmall⟩
  dsimp only at hsmall ⊢
  have hfind₂ : (d₁.tick.setContent file (layout n entries)).find path = .ok (place, .file file) := by
    rw [Disk.find_setContent, Disk.find_tick, hfind]
  have hcontent : (d₁.tick.setContent file (layout n entries)).content file = layout n entries :=
    Disk.content_setContent hfile _
  have hid : file < (d₁.tick.setContent file (layout n entries)).contents.length := by
    show file < (d₁.contents.set file _).length
    simpa using hfile
  have hfaults₂ : (d₁.tick.setContent file (layout n entries)).faults <:+ d.faults :=
    (List.tail_suffix _).trans hfaults
  have hisFile : IsFile entries (layout n entries) := ⟨hsorted, hfits, hsmall, n, rfl⟩
  refine ⟨rfl, hfaults₂, file, hfind₂, hcontent, ?_⟩
  generalize d₁.tick.setContent file (layout n entries) = d₂ at hfind₂ hcontent hid ⊢
  rw [← hcontent] at hisFile
  refine (ends_load hfind₂ hisFile).mono ?_ fun _ _ he => he.2
  rintro reader d₃ ⟨rfl, hpath, hfile₂, houtline⟩
  rw [← hfile₂] at hid hisFile hfind₂ houtline
  have ho := houtline
  rw [hfile₂, hcontent, Outline.ofBytes_layout _ _ hfits hsmall, Except.ok.injEq] at ho
  refine ⟨hpath, hfile₂, describes_of_outline ho.symm, List.tail_suffix _, ?_⟩
  rw [← hpath] at hfind₂ houtline
  exact ends_cursor_toList (by rw [Disk.find_tick, hfind₂]) hid hisFile houtline

/-- A table with an empty first key, an empty value and a deletion, whose index skips the middle. -/
theorem written_reads_back_sparse :
    ∃ summary d₁ reader d₂ cursor d₃,
      (Writer.create "t.sst" 2 >>= fun w =>
        w.fill [.ok ([], some []), .ok ([1], none), .ok ([1, 2], some [7])]) {} = .ok summary d₁ ∧
      summary.entryCount = 3 ∧ summary.minKey = [] ∧ summary.maxKey = [1, 2] ∧
      Reader.load "t.sst" d₁ = .ok reader d₂ ∧
      reader.outline.minKey? = some [] ∧ reader.outline.maxKey? = some [1, 2] ∧
      reader.cursor d₂ = .ok cursor d₃ ∧ (Cursor.feed d₃).toList cursor =
        [.ok ([], some []), .ok ([1], none), .ok ([1, 2], some [7])] := by
  have hplace : ({} : Disk).locate "t.sst" = .ok ["t.sst"] := by decide +kernel
  have hwritable : ({} : Disk).Writable ["t.sst"] := fun node hnode => by cases hnode
  have hsorted : KeyMap.Sorted ([([], some []), ([1], none), ([1, 2], some [7])] : List Entry) := by
    unfold KeyMap.Sorted
    decide
  have hfits : ∀ e ∈ ([([], some []), ([1], none), ([1, 2], some [7])] : List Entry), Fits e := by
    unfold Fits
    decide
  have hsmall : (layout (max 2 1) [([], some []), ([1], none), ([1, 2], some [7])]).length ≤
      Disk.maxFileBytes := by decide +kernel
  obtain ⟨summary, d₁, hwritten, rfl, hfaults, file, -, -, hload⟩ :=
    (written_reads_back hplace hwritable 2 hsorted hfits).exists_ok fun _ _ => not_unwritable rfl hsmall
  have hreliable := List.suffix_nil.1 hfaults
  obtain ⟨reader, d₂, hloaded, -, -, hdescribes, hfaults₂, hcursor⟩ :=
    hload.exists_ok fun _ _ => not_faulted hreliable
  have hreliable₂ := List.suffix_nil.1 (hreliable ▸ hfaults₂)
  obtain ⟨cursor, d₃, hopened, hlist⟩ := hcursor.exists_ok fun _ _ => not_faulted hreliable₂
  exact ⟨_, d₁, reader, d₂, cursor, d₃, hwritten, rfl, rfl, rfl, hloaded, hdescribes.minKey?,
    hdescribes.maxKey?, hopened, hlist⟩

end Table

end Spillway
