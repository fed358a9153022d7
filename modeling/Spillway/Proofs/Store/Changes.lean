import Spillway.Proofs.Store.Tables

/-!
# Writing and merging tables

A memtable that is flushed becomes the newest layer (`ends_flush`). Merging replaces a run of layers
by the newest version of each key in them (`ends_compact`); a merged table whose name can not be
taken away is left behind.
-/

namespace Spillway

open Table

theorem ends_update {f : Store → Store} {s : Store} {d : Disk} {post : PUnit → Store × Disk → Prop}
    {fail : StorageError → Store × Disk → Prop} (h : post ⟨⟩ (f s, d)) :
    Ends (Store.update f) (s, d) post fail := h

theorem ends_update_bind {α : Type} {f : Store → Store} {act : PUnit → StoreM α} {s : Store} {d : Disk}
    {post : α → Store × Disk → Prop} {fail : StorageError → Store × Disk → Prop}
    (h : Ends (act ⟨⟩) (f s, d) post fail) : Ends (Store.update f >>= act) (s, d) post fail := h

/-! ## Table files -/

/-- The disk after an action that may have given a file other bytes. -/
def Disk.Rewritten (d : Disk) (id : FileId) (d' : Disk) : Prop :=
  d' = d.tick ∨ ∃ bytes, d' = d.tick.setContent id bytes

/-- What may be drawn instead of entries: all of them, or those before a fault of the disk. -/
def Disk.Draws (d : Disk) (items : List (Except StorageError Entry)) (entries : List Entry) : Prop :=
  items = entries.map .ok ∨ ∃ before e, before <+: entries ∧ some e ∈ d.faults ∧
    items = before.map .ok ++ [.error (.io e)]

namespace Table

/-- A writer adds what comes before an item that is no entry. -/
theorem addAll_append_error (w : Writer) (items : List (Except StorageError Entry))
    (e : StorageError) :
    w.addAll (items ++ [.error e]) = ((w.addAll items).1, some ((w.addAll items).2.getD e)) := by
  fun_induction Writer.addAll w items with
  | case1 w => rfl
  | case2 w cause rest => rfl
  | case3 w entry rest w' hadd ih => simp only [List.cons_append, Writer.addAll, hadd, ih]
  | case4 w entry rest cause hadd => simp only [List.cons_append, Writer.addAll, hadd]; rfl

/-- A writer that gives up changes no other file. -/
theorem ends_abandon {α : Type} (w : Writer) (d : Disk) (e : StorageError)
    {post : α → Disk → Prop} {fail : StorageError → Disk → Prop}
    (h : ∀ d', d.Rewritten w.file d' → fail e d') :
    Ends (do
      let _ ← outcome w.abandon
      throw e : DiskM StorageError α) d post fail := by
  refine Ends.bind (M := fun _ d' => d.Rewritten w.file d') (Ends.outcome ?_)
    fun _ d' hd' => Ends.throw (h d' hd')
  refine (ends_storage (Disk.ends_writeFile w.file (header 0 ++ w.data))).mono ?_ ?_
  · intro _ d' hd'
    exact .inr ⟨_, hd'.1⟩
  · intro _ d' hd'
    exact .inl hd'.1

/-- A writer that was just started completes a file with the items that were drawn for it. -/
theorem ends_fill {w : Writer} {d d' : Disk} {items : List (Except StorageError Entry)}
    {entries : List Entry} (hw : w.Wrote []) (hitems : d.Draws items entries)
    (hd : d.Ticked d') (hs : KeyMap.Sorted entries) :
    Ends (w.fill items) d'
      (fun summary d'' => summary.path = w.path ∧ summary.entryCount = entries.length ∧
        ∃ bytes, IsFile entries bytes ∧ d'' = d'.tick.setContent w.file bytes)
      fun e d'' => d'.Rewritten w.file d'' ∧
        ((∀ entry ∈ entries, Fits entry) → Strained d (· ∈ entries) e) := by
  unfold Writer.fill
  rcases hitems with rfl | ⟨before, e, hbefore, he, rfl⟩
  · obtain ⟨w', stop, hadd, hpath, hfile, -, hnone, hfits⟩ := hw.addAll hs
    rw [hadd]
    cases stop with
    | none =>
      obtain ⟨hfit, hwrote⟩ := hnone rfl
      refine Ends.bind ((ends_writeImage w').imp_fail fun e _ he => ⟨hfile ▸ .inl he.1, fun _ =>
        (hwrote.strained hs he.2).mono hd.frame.toLater fun _ h => h⟩) ?_
      rintro _ d'' ⟨rfl, hsmall⟩
      refine Ends.pure ⟨hpath, hwrote.count, w'.image,
        ⟨hs, hfit, hsmall, w'.interval, hwrote.image⟩, ?_⟩
      rw [hfile]
    | some e =>
      -- an entry was refused, so not all of them fit
      have hnot : ¬ ∀ entry ∈ entries, Fits entry := fun h => by cases hfits h
      exact ends_abandon w' d' e fun d'' hd'' => ⟨hfile ▸ hd'', fun h => absurd h hnot⟩
  · obtain ⟨w', stop, hadd, -, hfile, -, -, hfits⟩ := hw.addAll (hs.sublist hbefore.sublist)
    rw [addAll_append_error, hadd]
    refine ends_abandon w' d' _ fun d'' hd'' => ⟨hfile ▸ hd'', fun hall => ?_⟩
    rw [hfits fun entry hentry => hall entry (hbefore.mem hentry)]
    exact .inl ⟨e, rfl, he⟩

end Table

namespace Store

variable {d d' : Disk} {dir : Path} {place : Location} {s : Store} {layers left : List Layer}
  {entries : List Entry} {bytes : Bytes}

/-! ## Changes that keep the layers apart -/

theorem Holds.fresh (h : s.Holds d place layers left) {id : UInt64} (hid : s.nextId ≤ id) :
    d.node? (place ++ [tableName id]) = none := by
  cases hn : d.node? (place ++ [tableName id]) with
  | none => rfl
  | some node =>
    obtain ⟨layer, hmem, hname⟩ := h.known _ id node (tableId?_tableName id) hn
    have hlt := h.used layer hmem
    rw [← tableName_inj hname] at hlt
    exact absurd hid (UInt64.not_le.2 hlt)

theorem toNat_add_one {n : UInt64} (h : n.toNat + 1 < UInt64.size) : (n + 1).toNat = n.toNat + 1 := by
  rw [UInt64.toNat_add]
  exact Nat.mod_eq_of_lt h

theorem lt_add_one {n id : UInt64} (h : n.toNat + 1 < UInt64.size) : id < n + 1 ↔ id ≤ n := by
  rw [UInt64.lt_iff_toNat_lt, UInt64.le_iff_toNat_le, toNat_add_one h]
  exact Nat.lt_succ_iff

theorem place_concat_inj {id id' : UInt64} (h : place ++ [tableName id] = place ++ [tableName id']) :
    id = id' :=
  tableName_inj (List.cons.inj (List.append_cancel_left h)).1

/-- Layers that are rearranged need tables that show them. -/
theorem Holds.rearrange {tables : List Reader} {layers' left' : List Layer}
    (h : s.Holds d place layers left) (hs : List.Forall₂ (Shows d s.dir place) tables layers')
    (hl : ∀ layer ∈ left', Stored d place layer) (hp : (layers' ++ left').Perm (layers ++ left)) :
    { s with tables }.Holds d place layers' left' where
  opens := h.opens
  shows := hs
  stored := hl
  distinct := (hp.map Prod.fst).nodup_iff.2 h.distinct
  used layer hmem := h.used layer (hp.mem_iff.1 hmem)
  known name id node hname hnode := by
    obtain ⟨layer, hmem, heq⟩ := h.known name id node hname hnode
    exact ⟨layer, hp.mem_iff.2 hmem, heq⟩

theorem Holds.frame (h : s.Holds d place layers left) (hf : Disk.Frame d d' fun _ => False) :
    s.Holds d' place layers left where
  opens := hf.opens h.opens
  shows := h.shows.imp fun _ _ hshows => hshows.frame hf id
  stored layer hmem := (h.stored layer hmem).frame hf id
  distinct := h.distinct
  used := h.used
  known name id node hname hnode := h.known name id node hname (hf.node _ (fun h => h) ▸ hnode)

/-- A new file under the next number is a layer that is left behind at first. -/
theorem Holds.create (h : s.Holds d place layers left) (hid : s.nextId.toNat + 1 < UInt64.size)
    (hframe : Disk.Frame d d' (· = place ++ [tableName s.nextId]))
    (hnew : Stored d' place (s.nextId, entries)) :
    { s with nextId := s.nextId + 1 }.Holds d' place layers ((s.nextId, entries) :: left) := by
  have hne : ∀ layer ∈ layers ++ left,
      ¬ place ++ [tableName layer.1] = place ++ [tableName s.nextId] := by
    intro layer hmem heq
    have hlt := h.used layer hmem
    rw [place_concat_inj heq] at hlt
    exact UInt64.lt_irrefl _ hlt
  have hperm : (layers ++ (s.nextId, entries) :: left).Perm ((s.nextId, entries) :: (layers ++ left)) :=
    List.perm_middle
  refine ⟨hframe.opens h.opens, ?_, ?_, ?_, ?_, ?_⟩
  · exact shows_frame h.shows hframe fun layer hmem => hne layer (List.mem_append_left _ hmem)
  · exact List.forall_mem_cons.2 ⟨hnew, fun layer hmem =>
      (h.stored layer hmem).frame hframe (hne layer (List.mem_append_right _ hmem))⟩
  · refine (hperm.map Prod.fst).nodup_iff.2 (List.nodup_cons.2 ⟨fun hmem => ?_, h.distinct⟩)
    obtain ⟨layer, hlayer, heq⟩ := List.mem_map.1 hmem
    have hlt := h.used layer hlayer
    rw [heq] at hlt
    exact UInt64.lt_irrefl _ hlt
  · intro layer hmem
    rw [lt_add_one hid]
    rcases List.mem_cons.1 (hperm.mem_iff.1 hmem) with rfl | hmem
    · exact UInt64.le_refl _
    · exact UInt64.le_of_lt (h.used layer hmem)
  · intro name id node hname hn
    by_cases hnew : name = tableName s.nextId
    · exact ⟨_, hperm.mem_iff.2 List.mem_cons_self, hnew⟩
    · rw [hframe.node _ fun heq => hnew (List.cons.inj (List.append_cancel_left heq)).1] at hn
      obtain ⟨layer, hmem, heq⟩ := h.known name id node hname hn
      exact ⟨layer, hperm.mem_iff.2 (List.mem_cons_of_mem _ hmem), heq⟩

/-- A layer that was left behind is gone when its name is taken away. -/
theorem Holds.dropTree {layer : Layer} (h : s.Holds d place layers (layer :: left)) :
    s.Holds (d.dropTree (place ++ [tableName layer.1])) place layers left := by
  obtain ⟨file, hnode, -⟩ := h.stored layer List.mem_cons_self
  have hframe := Disk.frame_dropTree hnode
  have hperm : (layers ++ layer :: left).Perm (layer :: (layers ++ left)) := List.perm_middle
  have hdistinct := (hperm.map Prod.fst).nodup_iff.1 h.distinct
  rw [List.map_cons, List.nodup_cons] at hdistinct
  have hsame : ∀ name, place ++ [tableName layer.1] <+: place ++ [name] → name = tableName layer.1 := by
    intro name hpre
    have := hpre.eq_of_length (by rw [List.length_append, List.length_append]; rfl)
    exact (List.cons.inj (List.append_cancel_left this)).1.symm
  have hne : ∀ other ∈ layers ++ left,
      ¬ place ++ [tableName layer.1] <+: place ++ [tableName other.1] := by
    intro other hmem hpre
    exact hdistinct.1 (List.mem_map.2 ⟨other, hmem, tableName_inj (hsame _ hpre)⟩)
  refine ⟨hframe.opens h.opens, ?_, fun other hmem => ?_, hdistinct.2, fun other hmem => ?_, ?_⟩
  · exact shows_frame h.shows hframe fun other hmem => hne other (List.mem_append_left _ hmem)
  · exact (h.stored other (List.mem_cons_of_mem _ hmem)).frame hframe
      (hne other (List.mem_append_right _ hmem))
  · exact h.used other (hperm.mem_iff.2 (List.mem_cons_of_mem _ hmem))
  · intro name id node hname hn
    by_cases hgone : place ++ [tableName layer.1] <+: place ++ [name]
    · rw [Disk.node?_dropTree (List.concat_ne_nil _ _), if_pos hgone] at hn
      cases hn
    · rw [hframe.node _ hgone] at hn
      obtain ⟨other, hmem, heq⟩ := h.known name id node hname hn
      rcases List.mem_cons.1 (hperm.mem_iff.1 hmem) with rfl | hmem
      · exact absurd (heq ▸ List.prefix_rfl) hgone
      · exact ⟨other, hmem, heq⟩

/-! ## Actions -/

/-- Entries that are drawn from the disk or from a later one; it loses no more than faults by that. -/
def Supplies (d : Disk) (items : DiskM StorageError (List (Except StorageError Entry)))
    (entries : List Entry) : Prop :=
  ∀ d', Disk.Later d d' →
    Ends items d' (fun drawn d'' => d'.Draws drawn entries ∧ d'.Ticked d'') fun _ _ => False

theorem supplies_pure (d : Disk) (entries : List Entry) :
    Supplies d (pure (entries.map .ok)) entries :=
  fun d' _ => Ends.pure ⟨.inl rfl, Disk.ticked_refl d'⟩

/-- Entries that are read one after the other come up to the first fault. -/
theorem ends_readEach (entries : List Entry) (d : Disk) :
    Ends (readEach (entries.map .ok)) d (fun drawn d' => d.Draws drawn entries ∧ d.Ticked d')
      fun _ _ => False := by
  induction entries generalizing d with
  | nil => exact Ends.pure ⟨.inl rfl, Disk.ticked_refl d⟩
  | cons entry entries ih =>
    rw [List.map_cons, readEach]
    refine Ends.bind (M := fun result d' => d' = d.tick ∧
      ∀ e, result = .error e → some e ∈ d.faults) (Ends.outcome ?_) ?_
    · exact (Disk.ends_attempt d).mono (fun _ _ hd' => ⟨hd', nofun⟩)
        fun e _ he => ⟨he.1, fun _ hresult => Except.error.inj hresult ▸ he.2⟩
    intro result d' ⟨hd', hfault⟩
    subst hd'
    cases result with
    | error e =>
      exact Ends.pure ⟨.inr ⟨[], e, List.nil_prefix, hfault e rfl, rfl⟩, Disk.ticked_tick d⟩
    | ok _ =>
      refine Ends.bind (ih d.tick) fun drawn d' ⟨hdrawn, hticked⟩ => ?_
      refine Ends.pure ⟨?_, (Disk.ticked_tick d).trans hticked⟩
      rcases hdrawn with rfl | ⟨before, e, hbefore, he, rfl⟩
      · exact .inl rfl
      · exact .inr ⟨entry :: before, e, List.cons_prefix_cons.2 ⟨rfl, hbefore⟩,
          List.mem_of_mem_tail he, rfl⟩

/-- A merge supplies the entries that it lists. -/
theorem supplies_merge {merge : Merge Cursor}
    (h : ∀ d', Disk.Later d d' → merge.toList (Cursor.feed d') = entries.map .ok) :
    Supplies d (do readEach (merge.toList (Cursor.feed (← get)))) entries := by
  intro d' hlater
  refine ends_get_bind ?_
  rw [h d' hlater]
  exact ends_readEach entries d'

/-- A file that was just made and then written is a new file with other bytes. -/
theorem frame_rewritten {target : Location} (hl : d.Lies target) (hn : d.node? target = none)
    (h : (d.addFile target []).Rewritten d.contents.length d') : Disk.Frame d d' (· = target) := by
  rcases h with rfl | ⟨bytes, rfl⟩
  · exact (Disk.frame_addFile hl hn []).trans (Disk.frame_tick_of _ _)
  · rw [Disk.setContent_addFile]
    exact (Disk.frame_tick_of d _).trans (Disk.frame_addFile (d := d.tick) hl hn bytes)

theorem stored_rewritten {id : UInt64} {bytes : Bytes} (h : IsFile entries bytes) :
    Stored (((d.addFile (place ++ [tableName id]) []).tick).setContent d.contents.length bytes) place
      (id, entries) := by
  rw [Disk.setContent_addFile]
  refine ⟨d.contents.length, ?_, ?_, ?_⟩
  · rw [Disk.node?_addFile (List.concat_ne_nil _ _), if_pos rfl]
    rfl
  · show d.contents.length < (d.contents ++ [bytes]).length
    simp
  · exact (Disk.content_addFile (d := d.tick) _ bytes).symm ▸ h

/-- A new table is written where nothing was, and touches nothing else, however that ends. -/
theorem ends_writeTable_stored (ho : d.Opens s.dir place)
    (hfresh : d.node? (place ++ [tableName s.nextId]) = none)
    {items : DiskM StorageError (List (Except StorageError Entry))}
    (hitems : Supplies d items entries) (hs : KeyMap.Sorted entries) :
    Ends (writeTable items) (s, d)
      (fun summary t => summary.path = tablePath s.dir s.nextId ∧
        summary.entryCount = entries.length ∧ t.1 = { s with nextId := s.nextId + 1 } ∧
        Disk.Frame d t.2 (· = place ++ [tableName s.nextId]) ∧ Stored t.2 place (s.nextId, entries))
      fun e t => t.1 = { s with nextId := s.nextId + 1 } ∧
        Disk.Frame d t.2 (· = place ++ [tableName s.nextId]) ∧
        ((∀ entry ∈ entries, Fits entry) → Strained d (· ∈ entries) e) := by
  have hlies : d.Lies (place ++ [tableName s.nextId]) := ho.reaches.lies_concat _
  unfold writeTable
  refine ends_get_bind (ends_modify_bind (ends_onDisk ?_))
  unfold Writer.create
  refine Ends.bind (M := fun writer d' => writer.Wrote [] ∧
    writer.path = tablePath s.dir s.nextId ∧ writer.file = d.contents.length ∧
    d' = d.tick.addFile (place ++ [tableName s.nextId]) []) ?_ ?_
  · refine Ends.bind ((ends_storage (Disk.ends_createFile
      (ho.locate_join (plain_tableName _)) hfresh)).imp_fail ?_) ?_
    · rintro e d' ⟨rfl, he⟩
      exact ⟨rfl, Disk.frame_tick_of d _, fun _ => .inl he⟩
    · rintro file d' ⟨rfl, rfl⟩
      exact Ends.pure ⟨Writer.wrote_nil _ _ _, rfl, rfl, rfl⟩
  intro writer d' ⟨hwrote, hpath, hfile, hd'⟩
  subst hd'
  have hlater : Disk.Later d (d.tick.addFile (place ++ [tableName s.nextId]) []) :=
    (Disk.frame_tick d).toLater.trans (Disk.frame_addFile (d := d.tick) hlies hfresh []).toLater
  refine Ends.bind ((hitems _ hlater).imp_fail fun _ _ h => h.elim) ?_
  intro drawn d' ⟨hdrawn, hticked⟩
  -- the faults might as well have been taken before the file was made
  obtain ⟨faults, hfaults, rfl⟩ := hticked
  let d₁ : Disk := { d with faults }
  have hstart : Disk.Frame d d₁ (· = place ++ [tableName s.nextId]) :=
    (Disk.Ticked.frame ⟨faults, hfaults.trans (List.tail_suffix _), rfl⟩).mono fun _ h => h.elim
  refine (ends_fill hwrote hdrawn ⟨faults, hfaults, rfl⟩ hs).mono ?_ ?_
  · rintro summary d'' ⟨hsummary, hcount, bytes, hbytes, rfl⟩
    rw [hfile]
    have hframe := frame_rewritten (d := d₁) hlies hfresh (.inr ⟨bytes, rfl⟩)
    exact ⟨hsummary.trans hpath, hcount, rfl, hstart.trans hframe, stored_rewritten (d := d₁) hbytes⟩
  · intro e d'' ⟨hrewritten, he⟩
    rw [hfile] at hrewritten
    exact ⟨rfl, hstart.trans (frame_rewritten (d := d₁) hlies hfresh hrewritten),
      fun hfits => (he hfits).mono hlater fun _ h => h⟩

/-- A new table is left behind until the store opens it. -/
theorem ends_writeTable (h : s.Holds d place layers left) (hid : s.nextId.toNat + 1 < UInt64.size)
    {items : DiskM StorageError (List (Except StorageError Entry))}
    (hitems : Supplies d items entries) (hs : KeyMap.Sorted entries) :
    Ends (writeTable items) (s, d)
      (fun summary t => summary.path = tablePath s.dir s.nextId ∧
        summary.entryCount = entries.length ∧ t.1 = { s with nextId := s.nextId + 1 } ∧
        t.1.Holds t.2 place layers ((s.nextId, entries) :: left) ∧ Disk.Later d t.2)
      fun e _ => (∀ entry ∈ entries, Fits entry) → Strained d (· ∈ entries) e := by
  refine (ends_writeTable_stored h.opens (h.fresh (UInt64.le_refl _)) hitems hs).mono ?_
    fun _ _ he => he.2.2
  rintro summary ⟨s₁, d₁⟩ ⟨hpath, hcount, rfl, hframe, hstored⟩
  exact ⟨hpath, hcount, rfl, h.create hid hframe hstored, hframe.toLater⟩

/-- A table that was left behind can be opened. -/
theorem ends_load_left {layer : Layer} {path : Path} (h : s.Holds d place layers left)
    (hl : layer ∈ left) (hpath : path = tablePath s.dir layer.1) :
    Ends (onDisk (Reader.load path)) (s, d)
      (fun table t => t.1 = s ∧ Shows t.2 s.dir place table layer ∧
        s.Holds t.2 place layers left ∧ Disk.Later d t.2)
      fun e _ => Faulted d e := by
  subst hpath
  refine ends_onDisk ((ends_load_stored (h.stored layer hl) h.opens).mono ?_ fun e _ he => he.2)
  rintro table d' ⟨hshows, rfl⟩
  exact ⟨rfl, hshows.frame (Disk.frame_tick d) id, h.frame (Disk.frame_tick d),
    (Disk.frame_tick d).toLater⟩

/-- A memtable that is flushed becomes the newest layer. -/
theorem ends_flush (h : s.Holds d place layers left) (hid : s.nextId.toNat + 1 < UInt64.size)
    {m : Memtable} (hm : m.isEmpty = false) (hs : KeyMap.Sorted m.entries) :
    Ends (flush m) (s, d)
      (fun _ t => t.1.dir = s.dir ∧ t.1.nextId = s.nextId + 1 ∧
        t.1.Holds t.2 place ((s.nextId, m.entries) :: layers) left ∧ Disk.Later d t.2)
      fun e _ => (∀ entry ∈ m.entries, Fits entry) → Strained d (· ∈ m.entries) e := by
  unfold flush
  rw [hm]
  refine Ends.bind (ends_writeTable h hid (supplies_pure d _) hs) ?_
  rintro summary ⟨s₁, d₁⟩ ⟨hpath, -, hs₁, hholds, hlater⟩
  dsimp only at hs₁ hholds hlater
  have hdir : s₁.dir = s.dir := by rw [hs₁]
  have hpath₁ : summary.path = tablePath s₁.dir s.nextId := by rw [hpath, hdir]
  refine Ends.bind ((ends_load_left hholds List.mem_cons_self hpath₁).imp_fail fun e _ he _ =>
    .inl (he.mono hlater)) ?_
  rintro table ⟨s₂, d₂⟩ ⟨hs₂, hshows, hholds₂, hlater₂⟩
  dsimp only at hs₂ hshows hholds₂ hlater₂
  subst hs₂
  refine ends_modify_bind (Ends.pure ⟨hdir, by rw [hs₁], ?_, hlater.trans hlater₂⟩)
  refine hholds₂.rearrange (.cons hshows hholds₂.shows)
    (fun layer hmem => hholds₂.stored layer (List.mem_cons_of_mem _ hmem)) ?_
  exact List.perm_middle.symm

/-! ## Merging -/

/-- What merging a run of layers leaves of it, under a new number. -/
def mergedLayers (id : UInt64) (keepDeletions : Bool) (inner : List Layer) : List Layer :=
  if KeyMap.merged keepDeletions (inner.map Prod.snd) = [] then []
  else [(id, KeyMap.merged keepDeletions (inner.map Prod.snd))]

/-- A run of neighbouring layers was replaced by their merge; deletions may only be left out of the
oldest run. -/
inductive Merged (n : UInt64) : List Layer → List Layer → Prop
  | intro (front inner back : List Layer) (keepDeletions : Bool)
      (h : keepDeletions = true ∨ back = []) :
      Merged n (front ++ inner ++ back) (front ++ mergedLayers n keepDeletions inner ++ back)

theorem newest?_mergedLayers (id : UInt64) (keepDeletions : Bool) (front inner back : List Layer)
    (key : Bytes) :
    KeyMap.newest? ((front ++ mergedLayers id keepDeletions inner ++ back).map Prod.snd) key =
      KeyMap.newest? (front.map Prod.snd ++
        KeyMap.merged keepDeletions (inner.map Prod.snd) :: back.map Prod.snd) key := by
  unfold mergedLayers
  split
  · next hempty =>
    rw [hempty, KeyMap.newest?_append_nil_cons, List.append_nil, List.map_append]
  · rw [List.append_assoc, List.map_append]
    rfl

/-- Merging layers changes no value. -/
theorem Merged.join_newest? {id : UInt64} {layers layers' : List Layer} (h : Merged id layers layers')
    (key : Bytes) :
    (KeyMap.newest? (layers'.map Prod.snd) key).join =
      (KeyMap.newest? (layers.map Prod.snd) key).join := by
  obtain ⟨front, inner, back, keepDeletions, hkeep⟩ := h
  rw [newest?_mergedLayers, KeyMap.join_newest?_merged, List.map_append, List.map_append]
  rcases hkeep with rfl | rfl
  · exact .inl rfl
  · exact .inr rfl

/-- The entries of a merge are those of its layers. -/
theorem lists_of_mem_merged {keepDeletions : Bool} {entry : Entry}
    (h : entry ∈ KeyMap.merged keepDeletions (layers.map Prod.snd)) : Lists layers entry := by
  obtain ⟨run, hrun, hmem⟩ := KeyMap.mem_of_mem_merged h
  obtain ⟨layer, hlayer, rfl⟩ := List.mem_map.1 hrun
  exact ⟨layer, hlayer, hmem⟩

/-- Merging layers makes no entries. -/
theorem Merged.lists {id : UInt64} {layers layers' : List Layer} (h : Merged id layers layers')
    {entry : Entry} (hentry : Lists layers' entry) : Lists layers entry := by
  obtain ⟨front, inner, back, keepDeletions, -⟩ := h
  obtain ⟨layer, hlayer, hentry⟩ := hentry
  rw [List.mem_append, List.mem_append] at hlayer
  rcases hlayer with (hlayer | hlayer) | hlayer
  · exact ⟨layer, List.mem_append_left _ (List.mem_append_left _ hlayer), hentry⟩
  · unfold mergedLayers at hlayer
    split at hlayer
    · cases hlayer
    · rw [List.mem_singleton.1 hlayer] at hentry
      obtain ⟨other, hother, hmem⟩ := lists_of_mem_merged hentry
      exact ⟨other, List.mem_append_left _ (List.mem_append_right _ hother), hmem⟩
  · exact ⟨layer, List.mem_append_right _ hlayer, hentry⟩

/-- The layers that were left behind are in no order. -/
theorem Holds.perm {left' : List Layer} (h : s.Holds d place layers left) (hp : left'.Perm left) :
    s.Holds d place layers left' :=
  h.rearrange h.shows (fun layer hmem => h.stored layer (hp.mem_iff.1 hmem)) (hp.append_left layers)

/-- Taking the name of a layer away that was left behind; when that fails it stays there. -/
theorem ends_removeLeft {layer : Layer} {path : Path} {fail : StorageError → Store × Disk → Prop}
    (h : s.Holds d place layers (layer :: left)) (hpath : path = tablePath s.dir layer.1) :
    Ends (outcome (onDisk (Disk.removeFile path))) (s, d)
      (fun _ t => t.1 = s ∧ Disk.Later d t.2 ∧ (s.Holds t.2 place layers left ∨
        ¬ d.Reliable ∧ s.Holds t.2 place layers (layer :: left)))
      fail := by
  subst hpath
  obtain ⟨file, hfind, -⟩ := (h.stored layer List.mem_cons_self).find_tablePath h.opens
  refine Ends.outcome (ends_onDisk ((Disk.ends_removeFile hfind).mono ?_ ?_))
  · rintro _ d' rfl
    have hnode := (h.frame (Disk.frame_tick d)).stored layer List.mem_cons_self
    obtain ⟨file', hnode', -⟩ := hnode
    exact ⟨rfl, (Disk.frame_tick d).toLater.trans (Disk.frame_dropTree hnode').toLater,
      .inl (h.frame (Disk.frame_tick d)).dropTree⟩
  · rintro _ d' ⟨rfl, hr⟩
    exact ⟨rfl, (Disk.frame_tick d).toLater, .inr ⟨hr, h.frame (Disk.frame_tick d)⟩⟩

/-- The tables that are still to be removed show layers that were left behind. -/
def Removing (s : Store) (d : Disk) (place : Location) (layers left : List Layer)
    (tables : List Reader) (t : Store × Disk) : Prop :=
  t.1 = s ∧ Disk.Later d t.2 ∧ ∃ inner left' : List Layer,
    List.Forall₂ (fun table layer => table.path = tablePath s.dir layer.1) tables inner ∧
      s.Holds t.2 place layers (inner ++ left') ∧ (d.Reliable → left' = left)

/-- Taking the names of many layers away. -/
theorem ends_removeTables {tables : List Reader} {inner : List Layer}
    {fail : StorageError → Store × Disk → Prop}
    (hpaths : List.Forall₂ (fun table layer => table.path = tablePath s.dir layer.1) tables inner)
    (h : s.Holds d place layers (inner ++ left)) :
    Ends (removeTables tables) (s, d)
      (fun _ t => t.1 = s ∧ Disk.Later d t.2 ∧ ∃ left', s.Holds t.2 place layers left' ∧
        (d.Reliable → left' = left))
      fail := by
  unfold removeTables
  refine Ends.bind (Ends.forIn (I := Removing s d place layers left) ?_
    ⟨rfl, Disk.later_refl d, inner, left, hpaths, h, fun _ => rfl⟩) ?_
  · rintro table rest ⟨_, d₁⟩ ⟨rfl, hlater, inner, left', hpaths, h, hleft⟩
    dsimp only at hlater h hpaths
    cases hpaths with
    | @cons _ layer _ inner hpath hpaths =>
      refine Ends.bind (ends_removeLeft h hpath) ?_
      rintro _ ⟨_, d₂⟩ ⟨rfl, hlater', hholds⟩
      refine Ends.pure ⟨rfl, rfl, hlater.trans hlater', ?_⟩
      rcases hholds with hholds | ⟨hr, hholds⟩
      · exact ⟨inner, left', hpaths, hholds, hleft⟩
      · exact ⟨inner, layer :: left', hpaths, hholds.perm List.perm_middle,
          fun hd => absurd (hlater.reliable hd) hr⟩
  · rintro _ t ⟨hs, hlater, inner, left', hpaths, hholds, hleft⟩
    cases hpaths
    exact Ends.pure ⟨hs, hlater, left', hholds, hleft⟩

/-- Whether the tables of a tier are followed by older ones. -/
def keeps (tier : Tier) (s : Store) : Bool := decide (tier.start + tier.count ≠ s.tables.length)

/-- The merge of a tier is written to a new table, and touches nothing else, however that ends. -/
theorem ends_mergeTier_stored (ho : d.Opens s.dir place)
    (hs : List.Forall₂ (Shows d s.dir place) s.tables layers)
    (hfresh : d.node? (place ++ [tableName s.nextId]) = none) (tier : Tier) :
    Ends (mergeTier tier) (s, d)
      (fun summary t => summary.path = tablePath s.dir s.nextId ∧
        summary.entryCount = (KeyMap.merged (keeps tier s)
          (((layers.drop tier.start).take tier.count).map Prod.snd)).length ∧
        t.1 = { s with nextId := s.nextId + 1 } ∧
        Disk.Frame d t.2 (· = place ++ [tableName s.nextId]) ∧
        Stored t.2 place (s.nextId, KeyMap.merged (keeps tier s)
          (((layers.drop tier.start).take tier.count).map Prod.snd)))
      fun e t => (t.1 = s ∧ Disk.Frame d t.2 (fun _ => False) ∨
          t.1 = { s with nextId := s.nextId + 1 } ∧
            Disk.Frame d t.2 (· = place ++ [tableName s.nextId])) ∧
        Strained d (Lists layers) e := by
  have hinner := List.forall₂_take tier.count (List.forall₂_drop tier.start hs)
  have hsub : (layers.drop tier.start).take tier.count ⊆ layers :=
    List.Subset.trans (List.take_subset _ _) (List.drop_subset _ _)
  generalize (layers.drop tier.start).take tier.count = inner at hinner hsub ⊢
  unfold mergeTier
  refine ends_get_bind ?_
  refine Ends.bind ((ends_onDisk_exists (ends_cursors ho hinner)).imp_fail ?_) ?_
  · rintro e _ ⟨d', rfl, hframe, he⟩
    exact ⟨.inl ⟨rfl, hframe⟩, .inl he⟩
  rintro cursors _ ⟨d₀, rfl, hframe₀, hreads₀⟩
  refine Ends.bind ((ends_onDisk_exists (ends_storage (Disk.ends_attempt d₀))).imp_fail ?_) ?_
  · rintro e _ ⟨d', rfl, rfl, he⟩
    exact ⟨.inl ⟨rfl, hframe₀.trans (Disk.frame_tick d₀)⟩,
      .inl (Faulted.mono he hframe₀.toLater)⟩
  rintro _ _ ⟨d₁, rfl, rfl⟩
  have hframe := hframe₀.trans (Disk.frame_tick d₀)
  have hreads := hreads₀.imp fun _ _ hreads => hreads.mono (Disk.frame_tick d₀).toLater
  generalize d₀.tick = d₁ at hframe hreads ⊢
  obtain ⟨m, hstart, hitems⟩ := exists_merge hreads (sorted_of_shows hinner) (keeps tier s)
  rw [keeps] at hstart
  refine ends_get_bind ?_
  refine Ends.bind (M := fun merge t => merge = m ∧ t = (s, d₁)) ?_ ?_
  · refine Ends.ofExcept (fun merge hmerge => ?_) fun e he => ?_
    · rw [hstart] at hmerge
      exact ⟨(Except.ok.inj hmerge).symm, rfl⟩
    · rw [hstart] at he
      cases he
  rintro merge _ ⟨rfl, rfl⟩
  have htouched : Disk.Frame d d₁ (· = place ++ [tableName s.nextId]) :=
    hframe.mono fun _ h => h.elim
  refine (ends_writeTable_stored (hframe.opens ho) ((hframe.node _ id).trans hfresh)
    (supplies_merge hitems) KeyMap.sorted_merged).mono ?_ ?_
  · rintro summary t ⟨hpath, hcount, ht, hframe', hstored⟩
    exact ⟨hpath, hcount, ht, htouched.trans hframe', hstored⟩
  · rintro e t ⟨ht, hframe', he⟩
    refine ⟨.inr ⟨ht, htouched.trans hframe'⟩,
      (he fun entry hentry => ?_).mono hframe.toLater fun entry hentry => ?_⟩
    · obtain ⟨run, hrun, hmem⟩ := KeyMap.mem_of_mem_merged hentry
      exact fits_of_shows hinner run hrun entry hmem
    · obtain ⟨layer, hlayer, hmem⟩ := lists_of_mem_merged hentry
      exact ⟨layer, hsub hlayer, hmem⟩

/-- The merge of a tier is left behind until the store opens it. -/
theorem ends_mergeTier (h : s.Holds d place layers left) (hid : s.nextId.toNat + 1 < UInt64.size)
    (tier : Tier) :
    Ends (mergeTier tier) (s, d)
      (fun summary t => summary.path = tablePath s.dir s.nextId ∧
        summary.entryCount = (KeyMap.merged (keeps tier s)
          (((layers.drop tier.start).take tier.count).map Prod.snd)).length ∧
        t.1 = { s with nextId := s.nextId + 1 } ∧
        t.1.Holds t.2 place layers ((s.nextId, KeyMap.merged (keeps tier s)
          (((layers.drop tier.start).take tier.count).map Prod.snd)) :: left) ∧
        Disk.Later d t.2)
      fun e _ => Strained d (Lists layers) e := by
  refine (ends_mergeTier_stored h.opens h.shows (h.fresh (UInt64.le_refl _)) tier).mono ?_
    fun _ _ he => he.2
  rintro summary ⟨s₁, d₁⟩ ⟨hpath, hcount, rfl, hframe, hstored⟩
  exact ⟨hpath, hcount, rfl, h.create hid hframe hstored, hframe.toLater⟩

/-- The layers before a tier, in it and behind it. -/
theorem layers_eq (tier : Tier) (layers : List Layer) : layers = layers.take tier.start ++
    (layers.drop tier.start).take tier.count ++ layers.drop (tier.start + tier.count) := by
  rw [List.append_assoc, ← List.drop_drop, List.take_append_drop, List.take_append_drop]

/-- Replacing a run of layers leaves the run behind. -/
theorem perm_replaced (front inner back new others left : List Layer) :
    ((front ++ new ++ back) ++ (others ++ (inner ++ left))).Perm
      ((front ++ inner ++ back) ++ (new ++ (others ++ left))) := by
  have hinner : (new ++ (back ++ (others ++ (inner ++ left)))).Perm
      (inner ++ (back ++ (new ++ (others ++ left)))) :=
    calc new ++ (back ++ (others ++ (inner ++ left)))
      _ |>.Perm (new ++ (back ++ (inner ++ (others ++ left)))) :=
        ((List.perm_append_comm_assoc _ _ _).append_left _).append_left _
      _ |>.Perm (new ++ (inner ++ (back ++ (others ++ left)))) :=
        (List.perm_append_comm_assoc _ _ _).append_left _
      _ |>.Perm (inner ++ (new ++ (back ++ (others ++ left)))) := List.perm_append_comm_assoc _ _ _
      _ |>.Perm (inner ++ (back ++ (new ++ (others ++ left)))) :=
        (List.perm_append_comm_assoc _ _ _).append_left _
  simp only [List.append_assoc]
  exact hinner.append_left front

/-- The tables with those of a tier replaced. -/
theorem Holds.replaceTier (tier : Tier) {replacement : List Reader} (new others : List Layer)
    (h : s.Holds d place layers (new ++ (others ++ left)))
    (hnew : List.Forall₂ (Shows d s.dir place) replacement new) :
    { s with tables := replaceTier tier replacement s.tables }.Holds d place
      (layers.take tier.start ++ new ++ layers.drop (tier.start + tier.count))
      (others ++ ((layers.drop tier.start).take tier.count ++ left)) := by
  have hfront := List.forall₂_take tier.start h.shows
  have hback := List.forall₂_drop (tier.start + tier.count) h.shows
  have hinner := List.forall₂_take tier.count (List.forall₂_drop tier.start h.shows)
  have hperm := perm_replaced (layers.take tier.start) ((layers.drop tier.start).take tier.count)
    (layers.drop (tier.start + tier.count)) new others left
  rw [← layers_eq tier layers] at hperm
  refine h.rearrange (List.rel_append (List.rel_append hfront hnew) hback) (fun layer hmem => ?_) hperm
  rcases List.mem_append.1 hmem with hmem | hmem
  · exact h.stored layer (List.mem_append_right _ (List.mem_append_left _ hmem))
  · rcases List.mem_append.1 hmem with hmem | hmem
    · exact stored_of_shows hinner layer hmem
    · exact h.stored layer (List.mem_append_right _ (List.mem_append_right _ hmem))

/-- A new table takes the place of a tier, whose layers are left behind; without entries there is no
new table. -/
theorem ends_install {tier : Tier} {id : UInt64} {keepDeletions : Bool} {summary : Summary}
    {inner : List Layer} (hinner : (layers.drop tier.start).take tier.count = inner)
    (h : s.Holds d place layers ((id, KeyMap.merged keepDeletions (inner.map Prod.snd)) :: left))
    (hpath : summary.path = tablePath s.dir id)
    (hcount : summary.entryCount = (KeyMap.merged keepDeletions (inner.map Prod.snd)).length) :
    Ends (install tier summary) (s, d)
      (fun output t => t.1.dir = s.dir ∧ t.1.nextId = s.nextId ∧ Disk.Later d t.2 ∧
        (∃ replacement, t.1.tables = Store.replaceTier tier replacement s.tables) ∧
        (output = none ↔ KeyMap.merged keepDeletions (inner.map Prod.snd) = []) ∧
        ∃ left', t.1.Holds t.2 place (layers.take tier.start ++
          mergedLayers id keepDeletions inner ++ layers.drop (tier.start + tier.count))
          (inner ++ left') ∧ (d.Reliable → left' = left))
      fun e _ => Faulted d e := by
  unfold mergedLayers
  generalize KeyMap.merged keepDeletions (inner.map Prod.snd) = entries at h hcount ⊢
  unfold install
  rw [hcount]
  by_cases hempty : entries = []
  · rw [if_neg (by rw [hempty]; exact Nat.lt_irrefl 0), if_pos hempty]
    have hholds := Holds.replaceTier tier [] [(id, entries)] h .nil
    rw [hinner] at hholds
    refine ends_update_bind (Ends.bind (ends_removeLeft hholds hpath) ?_)
    rintro _ ⟨s₁, d₁⟩ ⟨rfl, hlater, hleft⟩
    refine Ends.pure ⟨rfl, rfl, hlater, ⟨_, rfl⟩, iff_of_true rfl hempty, ?_⟩
    rcases hleft with hleft | ⟨hr, hleft⟩
    · exact ⟨left, hleft, fun _ => rfl⟩
    · exact ⟨(id, entries) :: left, hleft.perm List.perm_middle, fun hd => absurd hd hr⟩
  · rw [if_pos (List.length_pos_iff.2 hempty), if_neg hempty]
    refine Ends.bind (ends_load_left h List.mem_cons_self hpath) ?_
    rintro table ⟨s₁, d₁⟩ ⟨rfl, hshows, hholds, hlater⟩
    dsimp only at hshows hholds hlater
    have hreplaced := Holds.replaceTier tier [(id, entries)] [] hholds (.cons hshows .nil)
    rw [hinner] at hreplaced
    exact ends_update_bind (Ends.pure ⟨rfl, rfl, hlater, ⟨_, rfl⟩, iff_of_false nofun hempty, left,
      hreplaced, fun _ => rfl⟩)

/-- Compaction does nothing when there is nothing to pick. -/
theorem ends_compact_none {fail : StorageError → Store × Disk → Prop}
    (hpick : Tier.pick? (s.tables.map (·.outline.fileSize)) = none) :
    Ends compact (s, d) (fun _ t => t = (s, d)) fail := by
  unfold compact
  refine ends_get_bind ?_
  dsimp only
  rw [hpick]
  exact Ends.pure rfl

/-- Compaction replaces the tier that is picked by its merge. -/
theorem ends_compact_tier {tier : Tier} (h : s.Holds d place layers left)
    (hid : s.nextId.toNat + 1 < UInt64.size)
    (hpick : Tier.pick? (s.tables.map (·.outline.fileSize)) = some tier) :
    Ends compact (s, d)
      (fun output t => t.1.dir = s.dir ∧ t.1.nextId = s.nextId + 1 ∧ Disk.Later d t.2 ∧
        (∃ replacement, t.1.tables = Store.replaceTier tier replacement s.tables) ∧
        (output = none ↔ KeyMap.merged (keeps tier s)
          (((layers.drop tier.start).take tier.count).map Prod.snd) = []) ∧
        ∃ left', t.1.Holds t.2 place (layers.take tier.start ++
          mergedLayers s.nextId (keeps tier s) ((layers.drop tier.start).take tier.count) ++
          layers.drop (tier.start + tier.count)) left' ∧ (d.Reliable → left' = left))
      fun e _ => Strained d (Lists layers) e := by
  have hpaths : List.Forall₂ (fun table layer => table.path = tablePath s.dir layer.1)
      (inputs tier s.tables) ((layers.drop tier.start).take tier.count) :=
    (List.forall₂_take tier.count (List.forall₂_drop tier.start h.shows)).imp fun _ _ hs => hs.path
  unfold compact
  refine ends_get_bind ?_
  dsimp only
  rw [hpick]
  refine Ends.bind (ends_mergeTier h hid tier) ?_
  rintro summary ⟨s₁, d₁⟩ ⟨hpath, hcount, hs₁, hholds, hlater⟩
  dsimp only at hs₁ hholds hlater
  subst hs₁
  refine Ends.bind ((ends_install rfl hholds hpath hcount).imp_fail fun e _ he =>
    .inl (he.mono hlater)) ?_
  rintro output ⟨s₂, d₂⟩ ⟨hdir, hnext, hlater₂, htables, houtput, left₂, hholds₂, hleft₂⟩
  dsimp only at hdir hnext hlater₂ htables hholds₂
  rw [← hdir] at hpaths
  refine Ends.bind (ends_removeTables hpaths hholds₂) ?_
  rintro _ ⟨_, d₃⟩ ⟨rfl, hlater₃, left₃, hholds₃, hleft₃⟩
  dsimp only at hlater₃ hholds₃
  refine ends_update_bind (Ends.pure ⟨hdir, hnext, (hlater.trans hlater₂).trans hlater₃, htables,
    houtput, left₃, ?_, ?_⟩)
  · exact ⟨hholds₃.opens, hholds₃.shows, hholds₃.stored, hholds₃.distinct, hholds₃.used,
      hholds₃.known⟩
  · intro hr
    have hr₁ := hlater.reliable hr
    rw [hleft₃ (hlater₂.reliable hr₁), hleft₂ hr₁]

/-- Deletions are only left out of a tier when there are no older tables. -/
theorem Holds.keeps_or (h : s.Holds d place layers left) (tier : Tier) :
    keeps tier s = true ∨ layers.drop (tier.start + tier.count) = [] := by
  by_cases hall : tier.start + tier.count = s.tables.length
  · rw [hall, h.shows.length_eq]
    exact .inr List.drop_length
  · exact .inl (decide_eq_true hall)

/-- Compaction does nothing, or it replaces a run of layers by their merge. -/
theorem ends_compact (h : s.Holds d place layers left) (hid : s.nextId.toNat + 1 < UInt64.size) :
    Ends compact (s, d)
      (fun _ t => t.1.dir = s.dir ∧ Disk.Later d t.2 ∧ ∃ layers' left',
        t.1.Holds t.2 place layers' left' ∧ (d.Reliable → left' = left) ∧
        (t.1.nextId = s.nextId ∧ layers' = layers ∨
          t.1.nextId = s.nextId + 1 ∧ Merged s.nextId layers layers'))
      fun e _ => Strained d (Lists layers) e := by
  cases hpick : Tier.pick? (s.tables.map (·.outline.fileSize)) with
  | none =>
    refine (ends_compact_none hpick).imp ?_
    rintro _ _ rfl
    exact ⟨rfl, Disk.later_refl d, layers, left, h, fun _ => rfl, .inl ⟨rfl, rfl⟩⟩
  | some tier =>
    have hmerged := Merged.intro (layers.take tier.start) ((layers.drop tier.start).take tier.count)
      (layers.drop (tier.start + tier.count)) (keeps tier s) (h.keeps_or tier) (n := s.nextId)
    rw [← layers_eq tier layers] at hmerged
    refine (ends_compact_tier h hid hpick).imp ?_
    rintro output t ⟨hdir, hnext, hlater, -, -, left', hholds, hleft⟩
    exact ⟨hdir, hlater, _, left', hholds, hleft, .inr ⟨hnext, hmerged⟩⟩

end Store

end Spillway
