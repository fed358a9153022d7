import Spillway.Proofs.Store.Changes

/-!
# Stores that go on after a failure

`Store.Serves` is what every action of a store keeps, also one that fails half-way: its tables show
their layers, and no file has a number that is still to come. A failure may leave a file behind that
is no table. As long as there was none, the directory has exactly the files of the tables (`exact`).
-/

namespace Spillway

namespace Store

open Table

variable {s s' s'' : Store} {d d' d'' : Disk} {place : Location} {layers : List Layer}
  {left : List UInt64} {id : UInt64} {clean : Prop} {more more' : Nat}

/-- The places of tables in a directory, and all below them. -/
def TableNames (place p : Location) : Prop := ∃ id, place ++ [tableName id] <+: p

theorem tableNames_of_eq {p : Location} (h : p = place ++ [tableName id]) : TableNames place p :=
  ⟨id, h ▸ List.prefix_rfl⟩

/-- What every action of a store leaves: it takes up to `more` new numbers, and touches tables only. -/
structure Step (place : Location) (more : Nat) (s s' : Store) (d d' : Disk) : Prop
    extends Disk.Frame d d' (TableNames place) where
  dir : s'.dir = s.dir
  next : s'.nextId.toNat ≤ s.nextId.toNat + more

theorem Step.trans (h : Step place more s s' d d') (h' : Step place more' s' s'' d' d'') :
    Step place (more + more') s s'' d d'' where
  toFrame := h.toFrame.trans h'.toFrame
  dir := h'.dir.trans h.dir
  next := by
    have := h.next
    have := h'.next
    omega

theorem Step.mono (h : Step place more s s' d d') (hm : more ≤ more') :
    Step place more' s s' d d' :=
  { h with next := h.next.trans (Nat.add_le_add_left hm _) }

theorem step_of_frame (h : Disk.Frame d d' fun _ => False) : Step place 0 s s d d' where
  toFrame := h.mono fun _ h => h.elim
  dir := rfl
  next := Nat.le_refl _

/-- Its tables show their layers, no file has a number to come, and besides the tables only files under
`left` are still in the directory. -/
structure Serves (s : Store) (d : Disk) (place : Location) (layers : List Layer)
    (left : List UInt64) (clean : Prop) : Prop where
  opens : d.Opens s.dir place
  shows : List.Forall₂ (Shows d s.dir place) s.tables layers
  leaves : ∀ id ∈ left, ∃ file, d.node? (place ++ [tableName id]) = some (.file file)
  distinct : (layers.map Prod.fst ++ left).Nodup
  used : ∀ id ∈ layers.map Prod.fst ++ left, id < s.nextId
  fresh : ∀ id, s.nextId ≤ id → d.node? (place ++ [tableName id]) = none
  exact : clean → ∀ name, d.node? (place ++ [name]) ≠ none →
    ∃ id ∈ layers.map Prod.fst ++ left, name = tableName id

/-! ## Changes of the directory -/

theorem Serves.weaken {clean' : Prop} (h : s.Serves d place layers left clean)
    (hc : clean' → clean) : s.Serves d place layers left clean' :=
  { h with exact := fun hclean => h.exact (hc hclean) }

/-- Files that are not known of any more are no table's. -/
theorem Serves.forget (h : s.Serves d place layers (id :: left) clean) (hc : ¬ clean) :
    s.Serves d place layers left clean where
  opens := h.opens
  shows := h.shows
  leaves other hmem := h.leaves other (List.mem_cons_of_mem _ hmem)
  distinct := h.distinct.sublist ((List.sublist_cons_self id left).append_left _)
  used other hmem := h.used other (((List.sublist_cons_self id left).append_left _).subset hmem)
  fresh := h.fresh
  exact hclean := absurd hclean hc

/-- What happens elsewhere does not matter. -/
theorem Serves.spares (h : s.Serves d place layers left clean) (hd : Disk.Spares d d' place)
    (ho : d'.Opens s.dir place) : s.Serves d' place layers left clean where
  opens := ho
  shows := h.shows.imp fun table layer hshows => {
    hshows with
    node := (hd.node _ (List.prefix_append _ _)).trans hshows.node
    file := Nat.lt_of_lt_of_le hshows.file hd.contents.length_le
    isFile := by
      rw [hd.content hshows.file]
      exact hshows.isFile
    outline := by
      rw [hd.content hshows.file]
      exact hshows.outline }
  leaves id hmem := by
    rw [hd.node _ (List.prefix_append _ _)]
    exact h.leaves id hmem
  distinct := h.distinct
  used := h.used
  fresh id hid := (hd.node _ (List.prefix_append _ _)).trans (h.fresh id hid)
  exact hclean name hn := by
    rw [hd.node _ (List.prefix_append _ _)] at hn
    exact h.exact hclean name hn

theorem Serves.frame (h : s.Serves d place layers left clean)
    (hf : Disk.Frame d d' fun _ => False) : s.Serves d' place layers left clean :=
  h.spares (hf.spares fun _ htouched => htouched.elim) (hf.opens h.opens)

/-- The number of a file that may have been made is used up. -/
theorem Serves.skip (h : s.Serves d place layers left clean) (hid : s.nextId.toNat + 1 < UInt64.size)
    (hf : Disk.Frame d d' (· = place ++ [tableName s.nextId])) :
    { s with nextId := s.nextId + 1 }.Serves d' place layers left False := by
  have hne : ∀ id ∈ layers.map Prod.fst ++ left,
      ¬ place ++ [tableName id] = place ++ [tableName s.nextId] := by
    intro id hmem heq
    have hlt := h.used id hmem
    rw [place_concat_inj heq] at hlt
    exact UInt64.lt_irrefl _ hlt
  refine ⟨hf.opens h.opens, ?_, fun id hmem => ?_, h.distinct, fun id hmem => ?_, fun id hle => ?_,
    False.elim⟩
  · exact shows_frame h.shows hf fun layer hmem =>
      hne layer.1 (List.mem_append_left _ (List.mem_map_of_mem hmem))
  · rw [hf.node _ (hne id (List.mem_append_right _ hmem))]
    exact h.leaves id hmem
  · rw [lt_add_one hid]
    exact UInt64.le_of_lt (h.used id hmem)
  · have hlt : s.nextId < id := UInt64.lt_of_lt_of_le ((lt_add_one hid).2 (UInt64.le_refl _)) hle
    rw [hf.node _ fun heq => UInt64.lt_irrefl _ (place_concat_inj heq ▸ hlt)]
    exact h.fresh id (UInt64.le_of_lt hlt)

/-- A new file is left in the directory until it is a table. -/
theorem Serves.create (h : s.Serves d place layers left clean)
    (hid : s.nextId.toNat + 1 < UInt64.size)
    (hf : Disk.Frame d d' (· = place ++ [tableName s.nextId]))
    (hnode : ∃ file, d'.node? (place ++ [tableName s.nextId]) = some (.file file)) :
    { s with nextId := s.nextId + 1 }.Serves d' place layers (s.nextId :: left) clean := by
  have hskip := h.skip hid hf
  have hperm : (layers.map Prod.fst ++ s.nextId :: left).Perm
      (s.nextId :: (layers.map Prod.fst ++ left)) := List.perm_middle
  refine ⟨hskip.opens, hskip.shows, List.forall_mem_cons.2 ⟨hnode, hskip.leaves⟩, ?_, fun id hmem => ?_,
    hskip.fresh, fun hclean name hn => ?_⟩
  · exact hperm.nodup_iff.2 (List.nodup_cons.2
      ⟨fun hmem => UInt64.lt_irrefl _ (h.used _ hmem), h.distinct⟩)
  · rcases List.mem_cons.1 (hperm.mem_iff.1 hmem) with rfl | hmem
    · exact (lt_add_one hid).2 (UInt64.le_refl _)
    · exact hskip.used id hmem
  · by_cases hnew : name = tableName s.nextId
    · exact ⟨_, hperm.mem_iff.2 List.mem_cons_self, hnew⟩
    · rw [hf.node _ fun heq => hnew (List.cons.inj (List.append_cancel_left heq)).1] at hn
      obtain ⟨id, hmem, hname⟩ := h.exact hclean name hn
      exact ⟨id, hperm.mem_iff.2 (List.mem_cons_of_mem _ hmem), hname⟩

theorem Serves.rearrange {tables : List Reader} {layers' : List Layer} {left' : List UInt64}
    (h : s.Serves d place layers left clean)
    (hs : List.Forall₂ (Shows d s.dir place) tables layers')
    (hl : ∀ id ∈ left', ∃ file, d.node? (place ++ [tableName id]) = some (.file file))
    (hp : (layers'.map Prod.fst ++ left').Perm (layers.map Prod.fst ++ left)) :
    { s with tables }.Serves d place layers' left' clean where
  opens := h.opens
  shows := hs
  leaves := hl
  distinct := hp.nodup_iff.2 h.distinct
  used id hmem := h.used id (hp.mem_iff.1 hmem)
  fresh := h.fresh
  exact hclean name hn := by
    obtain ⟨id, hmem, hname⟩ := h.exact hclean name hn
    exact ⟨id, hp.mem_iff.2 hmem, hname⟩

theorem prefix_concat_concat {name name' : String} (h : place ++ [name] <+: place ++ [name']) :
    name' = name := by
  have heq := h.eq_of_length (by simp)
  exact (List.cons.inj (List.append_cancel_left heq)).1.symm

/-- A file that was left is gone when its name is taken away. -/
theorem Serves.dropTree (h : s.Serves d place layers (id :: left) clean) :
    s.Serves (d.dropTree (place ++ [tableName id])) place layers left clean := by
  obtain ⟨file, hnode⟩ := h.leaves id List.mem_cons_self
  have hframe := Disk.frame_dropTree hnode
  have hperm : (layers.map Prod.fst ++ id :: left).Perm (id :: (layers.map Prod.fst ++ left)) :=
    List.perm_middle
  have hdistinct := List.nodup_cons.1 (hperm.nodup_iff.1 h.distinct)
  have hne : ∀ other ∈ layers.map Prod.fst ++ left,
      ¬ place ++ [tableName id] <+: place ++ [tableName other] := by
    intro other hmem hpre
    exact hdistinct.1 (tableName_inj (prefix_concat_concat hpre) ▸ hmem)
  refine ⟨hframe.opens h.opens, ?_, fun other hmem => ?_, hdistinct.2, fun other hmem => ?_,
    fun other hle => ?_, fun hclean name hn => ?_⟩
  · exact shows_frame h.shows hframe fun layer hmem =>
      hne layer.1 (List.mem_append_left _ (List.mem_map_of_mem hmem))
  · rw [hframe.node _ (hne other (List.mem_append_right _ hmem))]
    exact h.leaves other (List.mem_cons_of_mem _ hmem)
  · exact h.used other (hperm.mem_iff.2 (List.mem_cons_of_mem _ hmem))
  · rw [Disk.node?_dropTree (List.concat_ne_nil _ _)]
    split
    · rfl
    · exact h.fresh other hle
  · rw [Disk.node?_dropTree (List.concat_ne_nil _ _)] at hn
    split at hn
    · exact absurd rfl hn
    · next hkept =>
      obtain ⟨other, hmem, rfl⟩ := h.exact hclean name hn
      rcases List.mem_cons.1 (hperm.mem_iff.1 hmem) with rfl | hmem
      · exact absurd List.prefix_rfl hkept
      · exact ⟨other, hmem, rfl⟩

/-! ## Actions -/

theorem Serves.find (h : s.Serves d place layers left clean) (key : Bytes) :
    s.find d key = .ok (KeyMap.newest? (layers.map Prod.snd) key).join :=
  findIn_eq h.shows key

/-- A table that was written can be opened. -/
theorem Serves.ends_load {entries : List Entry} {path : Path}
    (h : s.Serves d place layers left clean) (hstored : Stored d place (id, entries))
    (hpath : path = tablePath s.dir id) :
    Ends (onDisk (Reader.load path)) (s, d)
      (fun table t => ∃ d', t = (s, d') ∧ Disk.Frame d d' (fun _ => False) ∧
        Shows d' s.dir place table (id, entries))
      fun e t => ∃ d', t = (s, d') ∧ Disk.Frame d d' (fun _ => False) ∧ Faulted d e := by
  subst hpath
  refine ends_onDisk ((ends_load_stored hstored h.opens).mono ?_ ?_)
  · rintro table d' ⟨hshows, rfl⟩
    exact ⟨_, rfl, Disk.frame_tick d, hshows.frame (Disk.frame_tick d) fun h => h⟩
  · rintro e d' ⟨rfl, he⟩
    exact ⟨_, rfl, Disk.frame_tick d, he⟩

/-- A memtable that is flushed becomes the newest layer; otherwise the layers stay as they are. -/
theorem Serves.ends_flush (h : s.Serves d place layers [] clean)
    (hid : s.nextId.toNat + 1 < UInt64.size) {m : Memtable} (hm : m.isEmpty = false)
    (hs : KeyMap.Sorted m.entries) (hfits : ∀ entry ∈ m.entries, Fits entry) :
    Ends (flush m) (s, d)
      (fun _ t => Step place 1 s t.1 d t.2 ∧
        t.1.Serves t.2 place ((s.nextId, m.entries) :: layers) [] clean)
      fun e t => Step place 1 s t.1 d t.2 ∧ t.1.Serves t.2 place layers [] False ∧
        Strained d (· ∈ m.entries) e := by
  have hnext : (s.nextId + 1).toNat ≤ s.nextId.toNat + 1 := (toNat_add_one hid).le
  have hstep {d' : Disk} (hf : Disk.Frame d d' (· = place ++ [tableName s.nextId])) :
      Step place 1 s { s with nextId := s.nextId + 1 } d d' :=
    ⟨hf.mono fun _ hp => tableNames_of_eq hp, rfl, hnext⟩
  unfold flush
  rw [hm]
  refine Ends.bind ((ends_writeTable_stored h.opens (h.fresh _ (UInt64.le_refl _))
    (supplies_pure d _) hs).imp_fail ?_) ?_
  · rintro e ⟨s₁, d₁⟩ ⟨rfl, hf, he⟩
    exact ⟨hstep hf, h.skip hid hf, he hfits⟩
  rintro summary ⟨s₁, d₁⟩ ⟨hpath, -, rfl, hf, hstored⟩
  have hcreated := h.create hid hf (hstored.imp fun _ hnode => hnode.1)
  refine Ends.bind ((hcreated.ends_load hstored hpath).imp_fail ?_) ?_
  · rintro e _ ⟨d₂, rfl, hf₂, he⟩
    exact ⟨(hstep hf).trans (step_of_frame hf₂),
      ((hcreated.weaken False.elim).forget fun h => h).frame hf₂, .inl (he.mono hf.toLater)⟩
  · rintro table _ ⟨d₂, rfl, hf₂, hshows⟩
    have hserves := hcreated.frame hf₂
    have hstep₂ := (hstep hf).trans (step_of_frame hf₂)
    refine ends_modify_bind (Ends.pure ⟨⟨hstep₂.toFrame, hstep₂.dir, hstep₂.next⟩, ?_⟩)
    exact hserves.rearrange (.cons hshows hserves.shows) (fun _ hmem => absurd hmem List.not_mem_nil)
      (List.append_nil (s.nextId :: layers.map Prod.fst) ▸ (List.perm_append_singleton _ _).symm)

/-- The name of a file that was left is taken away; if that fails, the disk is not reliable. -/
theorem Serves.ends_removeLeft {path : Path} {fail : StorageError → Store × Disk → Prop}
    (h : s.Serves d place layers (id :: left) clean) (hr : clean → d.Reliable)
    (hpath : path = tablePath s.dir id) :
    Ends (outcome (onDisk (Disk.removeFile path))) (s, d)
      (fun _ t => t.1 = s ∧ Disk.Frame d t.2 (TableNames place) ∧
        s.Serves t.2 place layers left clean)
      fail := by
  subst hpath
  have hticked := h.frame (Disk.frame_tick d)
  obtain ⟨file, hnode⟩ := h.leaves id List.mem_cons_self
  refine Ends.outcome (ends_onDisk ((Disk.ends_removeFile
    (h.opens.find_join (plain_tableName id) hnode)).mono ?_ ?_))
  · rintro _ d' rfl
    refine ⟨rfl, (Disk.frame_tick_of d _).trans ?_, hticked.dropTree⟩
    exact (Disk.frame_dropTree (d := d.tick) hnode).mono fun p hp => ⟨id, hp⟩
  · rintro _ d' ⟨rfl, hbroken⟩
    exact ⟨rfl, Disk.frame_tick_of d _, hticked.forget fun hclean => hbroken (hr hclean)⟩

theorem Serves.ends_removeTables {tables : List Reader} {fail : StorageError → Store × Disk → Prop}
    (hpaths : List.Forall₂ (fun table id => table.path = tablePath s.dir id) tables left)
    (h : s.Serves d place layers left clean) (hr : clean → d.Reliable) :
    Ends (removeTables tables) (s, d)
      (fun _ t => t.1 = s ∧ Disk.Frame d t.2 (TableNames place) ∧
        s.Serves t.2 place layers [] clean)
      fail := by
  unfold removeTables
  refine Ends.bind (M := fun _ t => t.1 = s ∧ Disk.Frame d t.2 (TableNames place) ∧
    s.Serves t.2 place layers [] clean) ?_ fun _ t ht => Ends.pure ht
  refine (Ends.forIn (I := fun rest t => t.1 = s ∧ Disk.Frame d t.2 (TableNames place) ∧
    ∃ left', List.Forall₂ (fun table id => table.path = tablePath s.dir id) rest left' ∧
      s.Serves t.2 place layers left' clean) ?_
    ⟨rfl, (Disk.frame_refl d).mono fun _ h => h.elim, left, hpaths, h⟩).imp ?_
  · rintro table rest ⟨s₁, d₁⟩ ⟨rfl, hf, left', hrest, hserves⟩
    cases hrest with
    | cons hpath hrest =>
      refine Ends.bind (hserves.ends_removeLeft (fun hclean => hf.reliable (hr hclean)) hpath) ?_
      rintro _ ⟨_, d₂⟩ ⟨rfl, hf₂, hserves₂⟩
      exact Ends.pure ⟨rfl, rfl, hf.trans hf₂, _, hrest, hserves₂⟩
  · rintro _ t ⟨ht, hf, left', hrest, hserves⟩
    cases hrest
    exact ⟨ht, hf, hserves⟩

theorem Serves.ends_mergeTier (h : s.Serves d place layers [] clean)
    (hid : s.nextId.toNat + 1 < UInt64.size) (tier : Tier) :
    Ends (mergeTier tier) (s, d)
      (fun summary t => summary.path = tablePath s.dir s.nextId ∧
        summary.entryCount = (KeyMap.merged (keeps tier s)
          (((layers.drop tier.start).take tier.count).map Prod.snd)).length ∧
        t.1 = { s with nextId := s.nextId + 1 } ∧ Step place 1 s t.1 d t.2 ∧
        Stored t.2 place (s.nextId, KeyMap.merged (keeps tier s)
          (((layers.drop tier.start).take tier.count).map Prod.snd)) ∧
        t.1.Serves t.2 place layers [s.nextId] clean)
      fun e t => Step place 1 s t.1 d t.2 ∧ t.1.Serves t.2 place layers [] False ∧
        Strained d (Lists layers) e := by
  have hnext : (s.nextId + 1).toNat ≤ s.nextId.toNat + 1 := (toNat_add_one hid).le
  refine (ends_mergeTier_stored h.opens h.shows (h.fresh _ (UInt64.le_refl _)) tier).mono ?_ ?_
  · rintro summary ⟨s₁, d₁⟩ ⟨hpath, hcount, rfl, hf, hstored⟩
    exact ⟨hpath, hcount, rfl, ⟨hf.mono fun _ hp => tableNames_of_eq hp, rfl, hnext⟩, hstored,
      h.create hid hf (hstored.imp fun _ hnode => hnode.1)⟩
  · rintro e ⟨s₁, d₁⟩ ⟨⟨rfl, hf⟩ | ⟨rfl, hf⟩, he⟩
    · exact ⟨(step_of_frame hf).mono (Nat.zero_le 1), (h.frame hf).weaken False.elim, he⟩
    · exact ⟨⟨hf.mono fun _ hp => tableNames_of_eq hp, rfl, hnext⟩, h.skip hid hf, he⟩

/-- Tables that replace those of a tier show the layers that replace its layers. -/
theorem shows_replaceTier {tables replacement : List Reader} {new : List Layer} {dir : Path}
    (h : List.Forall₂ (Shows d dir place) tables layers)
    (hnew : List.Forall₂ (Shows d dir place) replacement new) (tier : Tier) :
    List.Forall₂ (Shows d dir place) (replaceTier tier replacement tables)
      (layers.take tier.start ++ new ++ layers.drop (tier.start + tier.count)) :=
  List.rel_append (List.rel_append (List.forall₂_take _ h) hnew) (List.forall₂_drop _ h)

/-- The files of the tables that were replaced are left. -/
theorem Serves.replaceTier {replacement : List Reader} {inner : List Layer} {tier : Tier}
    (new others : List Layer) (hinner : (layers.drop tier.start).take tier.count = inner)
    (h : s.Serves d place layers ((new ++ others).map Prod.fst) clean)
    (hnew : List.Forall₂ (Shows d s.dir place) replacement new) :
    { s with tables := Store.replaceTier tier replacement s.tables }.Serves d place
      (layers.take tier.start ++ new ++ layers.drop (tier.start + tier.count))
      ((others ++ inner).map Prod.fst) clean := by
  have hinner' : List.Forall₂ (Shows d s.dir place) ((s.tables.drop tier.start).take tier.count)
      inner := hinner ▸ List.forall₂_take _ (List.forall₂_drop _ h.shows)
  refine h.rearrange (shows_replaceTier h.shows hnew tier) (fun id hmem => ?_) ?_
  · rw [List.map_append, List.mem_append] at hmem
    rcases hmem with hmem | hmem
    · refine h.leaves id ?_
      rw [List.map_append]
      exact List.mem_append_right _ hmem
    · obtain ⟨layer, hlayer, rfl⟩ := List.mem_map.1 hmem
      exact (stored_of_shows hinner' layer hlayer).imp fun _ hnode => hnode.1
  · have hperm := perm_replaced (layers.take tier.start) inner
      (layers.drop (tier.start + tier.count)) new others []
    rw [← hinner, ← layers_eq tier layers, List.append_nil, List.append_nil] at hperm
    rw [← hinner, ← List.map_append, ← List.map_append]
    exact hperm.map Prod.fst

/-- A new table takes the place of a tier, whose files are left; without entries there is no new
table. -/
theorem Serves.ends_install {tier : Tier} {keepDeletions : Bool} {summary : Summary}
    {inner : List Layer} (hinner : (layers.drop tier.start).take tier.count = inner)
    (h : s.Serves d place layers [id] clean) (hr : clean → d.Reliable)
    (hstored : Stored d place (id, KeyMap.merged keepDeletions (inner.map Prod.snd)))
    (hpath : summary.path = tablePath s.dir id)
    (hcount : summary.entryCount = (KeyMap.merged keepDeletions (inner.map Prod.snd)).length) :
    Ends (install tier summary) (s, d)
      (fun _ t => Step place 0 s t.1 d t.2 ∧ t.1.Serves t.2 place (layers.take tier.start ++
        mergedLayers id keepDeletions inner ++ layers.drop (tier.start + tier.count))
        (inner.map Prod.fst) clean)
      fun e t => Step place 0 s t.1 d t.2 ∧ t.1.Serves t.2 place layers [] False ∧ Faulted d e := by
  unfold mergedLayers
  generalize KeyMap.merged keepDeletions (inner.map Prod.snd) = entries at hstored hcount ⊢
  unfold install
  rw [hcount]
  by_cases hempty : entries = []
  · rw [if_neg (by rw [hempty]; exact Nat.lt_irrefl 0), if_pos hempty]
    have hserves := Serves.replaceTier [] [(id, entries)] hinner h .nil
    refine ends_update_bind (Ends.bind (hserves.ends_removeLeft hr hpath) ?_)
    rintro _ ⟨s₁, d₁⟩ ⟨rfl, hf, hserves₁⟩
    exact Ends.pure ⟨⟨hf, rfl, Nat.le_refl _⟩, hserves₁⟩
  · rw [if_pos (List.length_pos_iff.2 hempty), if_neg hempty]
    refine Ends.bind ((h.ends_load hstored hpath).imp_fail ?_) ?_
    · rintro e _ ⟨d₁, rfl, hf, he⟩
      exact ⟨step_of_frame hf, ((h.weaken False.elim).forget fun h => h).frame hf, he⟩
    · rintro table _ ⟨d₁, rfl, hf, hshows⟩
      have hserves := Serves.replaceTier [(id, entries)] [] hinner (h.frame hf) (.cons hshows .nil)
      have hstep : Step place 0 s s d d₁ := step_of_frame hf
      exact ends_update_bind (Ends.pure ⟨⟨hstep.toFrame, rfl, Nat.le_refl _⟩, hserves⟩)

/-- Compaction does nothing, or it replaces a run of layers by their merge; otherwise the layers stay
as they are. -/
theorem Serves.ends_compact (h : s.Serves d place layers [] clean) (hr : clean → d.Reliable)
    (hid : s.nextId.toNat + 1 < UInt64.size) :
    Ends compact (s, d)
      (fun _ t => Step place 1 s t.1 d t.2 ∧ ∃ layers', t.1.Serves t.2 place layers' [] clean ∧
        (layers' = layers ∨ Merged s.nextId layers layers'))
      fun e t => Step place 1 s t.1 d t.2 ∧ t.1.Serves t.2 place layers [] False ∧
        Strained d (Lists layers) e := by
  unfold compact
  refine ends_get_bind ?_
  dsimp only
  cases Tier.pick? (s.tables.map (·.outline.fileSize)) with
  | none =>
    exact Ends.pure ⟨(step_of_frame (Disk.frame_refl d)).mono (Nat.zero_le 1), layers, h, .inl rfl⟩
  | some tier =>
    have hpaths : List.Forall₂ (fun table id => table.path = tablePath s.dir id)
        (inputs tier s.tables) (((layers.drop tier.start).take tier.count).map Prod.fst) :=
      List.forall₂_map_right_iff.2 ((List.forall₂_take tier.count
        (List.forall₂_drop tier.start h.shows)).imp fun _ _ hshows => hshows.path)
    have hkeeps : keeps tier s = true ∨ layers.drop (tier.start + tier.count) = [] := by
      by_cases hall : tier.start + tier.count = s.tables.length
      · rw [hall, h.shows.length_eq]
        exact .inr List.drop_length
      · exact .inl (decide_eq_true hall)
    refine Ends.bind (h.ends_mergeTier hid tier) ?_
    rintro summary ⟨s₁, d₁⟩ ⟨hpath, hcount, rfl, hstep₁, hstored, hserves₁⟩
    have hr₁ : clean → d₁.Reliable := fun hclean => hstep₁.reliable (hr hclean)
    refine Ends.bind ((hserves₁.ends_install rfl hr₁ hstored hpath hcount).imp_fail ?_) ?_
    · rintro e t ⟨hstep₂, hserves₂, he⟩
      exact ⟨hstep₁.trans hstep₂, hserves₂, .inl (he.mono hstep₁.toLater)⟩
    rintro output ⟨s₂, d₂⟩ ⟨hstep₂, hserves₂⟩
    dsimp only at hstep₂ hserves₂
    rw [← (hstep₂.dir : s₂.dir = s.dir)] at hpaths
    refine Ends.bind (hserves₂.ends_removeTables hpaths fun hclean => hstep₂.reliable (hr₁ hclean)) ?_
    rintro _ ⟨_, d₃⟩ ⟨rfl, hf₃, hserves₃⟩
    have hstep := hstep₁.trans hstep₂
    refine ends_update_bind (Ends.pure ⟨⟨hstep.toFrame.trans hf₃, hstep.dir, hstep.next⟩, _,
      { hserves₃ with }, .inr ?_⟩)
    have hmerged := Merged.intro (layers.take tier.start) ((layers.drop tier.start).take tier.count)
      (layers.drop (tier.start + tier.count)) (keeps tier s) hkeeps (n := s.nextId)
    rwa [← layers_eq tier layers] at hmerged

end Store

end Spillway
