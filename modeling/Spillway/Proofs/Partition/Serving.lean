import Spillway.Proofs.Partition
import Spillway.Proofs.Store.Serving

/-!
# Partitions that go on after a failure

`Partition.Serves` says what value each key has in a partition, also after writes that failed: such a
write is recorded in the memtable before it fails. The number of writes and flushes bounds the next
number of a table, whether or not they succeed.
-/

namespace Spillway.Partition

open Table

variable {p p' p'' : Partition} {d d' d'' : Disk} {place : Location}
  {value : Bytes → Option Bytes} {uses : Nat} {clean : Prop}

/-- What every action of a partition leaves: it touches nothing but tables. -/
structure Step (place : Location) (p p' : Partition) (d d' : Disk) : Prop
    extends Disk.Frame d d' (Store.TableNames place) where
  name : p'.name = p.name
  dir : p'.dir = p.dir

theorem Step.trans (h : Step place p p' d d') (h' : Step place p' p'' d' d'') :
    Step place p p'' d d'' where
  toFrame := h.toFrame.trans h'.toFrame
  name := h'.name.trans h.name
  dir := h'.dir.trans h.dir

theorem step_refl (place : Location) (p : Partition) (d : Disk) : Step place p p d d where
  toFrame := (Disk.frame_refl d).mono fun _ h => h.elim
  name := rfl
  dir := rfl

/-- Each key has the value that `value` says; so many writes and flushes were enough for the numbers
that its tables used up. -/
structure Serves (p : Partition) (d : Disk) (place : Location) (value : Bytes → Option Bytes)
    (uses : Nat) (clean : Prop) : Prop where
  dir : p.store.dir = p.dir
  sorted : KeyMap.Sorted p.memtable.entries
  fits : ∀ entry ∈ p.memtable.entries, Fits entry
  numbered : p.store.nextId.toNat ≤ 1 + 2 * uses
  tables : ∃ layers, p.store.Serves d place layers [] clean ∧
    ∀ key, (KeyMap.newest? (p.memtable.entries :: layers.map Prod.snd) key).join = value key

theorem Serves.weaken {uses' : Nat} {clean' : Prop} (h : p.Serves d place value uses clean)
    (hu : uses ≤ uses') (hc : clean' → clean) : p.Serves d place value uses' clean' := by
  obtain ⟨layers, hstore, hvalue⟩ := h.tables
  have hnumbered := h.numbered
  exact ⟨h.dir, h.sorted, h.fits, by omega, layers, hstore.weaken hc, hvalue⟩

theorem Serves.spares (h : p.Serves d place value uses clean) (hd : Disk.Spares d d' place)
    (ho : d'.Opens p.dir place) : p.Serves d' place value uses clean := by
  obtain ⟨layers, hstore, hvalue⟩ := h.tables
  exact ⟨h.dir, h.sorted, h.fits, h.numbered, layers, hstore.spares hd (h.dir ▸ ho), hvalue⟩

theorem Serves.opens (h : p.Serves d place value uses clean) : d.Opens p.dir place := by
  obtain ⟨layers, hstore, -⟩ := h.tables
  exact h.dir ▸ hstore.opens

theorem Serves.find (h : p.Serves d place value uses clean) (key : Bytes) :
    p.find d key = .ok (value key) := by
  obtain ⟨layers, hstore, hvalue⟩ := h.tables
  have hkey := hvalue key
  rw [KeyMap.newest?_cons] at hkey
  unfold Partition.find Memtable.find?
  cases hm : KeyMap.find? p.memtable.entries key with
  | none =>
    rw [hm] at hkey
    rw [← hkey]
    exact hstore.find key
  | some found =>
    rw [hm] at hkey
    rw [← hkey]
    rfl

/-! ## Entries -/

/-- All entries of the memtable and of the tables are allowed. -/
def Only (allowed : Entry → Prop) (p : Partition) (d : Disk) : Prop :=
  (∀ entry ∈ p.memtable.entries, allowed entry) ∧ ∀ table ∈ p.store.tables, ∀ entries,
    IsFile entries (d.content table.file) → ∀ entry ∈ entries, allowed entry

/-- Besides the entries that were there, a partition has these only. -/
def Adds (entries : List Entry) (p : Partition) (d : Disk) (t : Partition × Disk) : Prop :=
  ∀ allowed, p.Only allowed d → (∀ entry ∈ entries, allowed entry) → t.1.Only allowed t.2

/-- The disk is to blame for an error in writing these entries: it would have been a table of them and
of those that were there that was too large. -/
def Strains (entries : List Entry) (p : Partition) (d : Disk) (e : StorageError) : Prop :=
  ∀ allowed, p.Only allowed d → (∀ entry ∈ entries, allowed entry) → Strained d allowed e

theorem Adds.trans {entries entries' : List Entry} {t : Partition × Disk}
    (h : Adds entries p d (p', d')) (h' : Adds entries' p' d' t) : Adds (entries ++ entries') p d t :=
  fun allowed honly hentries =>
    h' allowed (h allowed honly fun entry hmem => hentries entry (List.mem_append_left _ hmem))
      fun entry hmem => hentries entry (List.mem_append_right _ hmem)

theorem Adds.strains {entries entries' : List Entry} {e : StorageError}
    (h : Adds entries p d (p', d')) (hlater : Disk.Later d d') (h' : Strains entries' p' d' e) :
    Strains (entries ++ entries') p d e :=
  fun allowed honly hentries =>
    (h' allowed (h allowed honly fun entry hmem => hentries entry (List.mem_append_left _ hmem))
      fun entry hmem => hentries entry (List.mem_append_right _ hmem)).mono hlater fun _ h => h

theorem only_iff {allowed : Entry → Prop} {layers : List Store.Layer}
    (h : p.store.Serves d place layers [] clean) :
    p.Only allowed d ↔ (∀ entry ∈ p.memtable.entries, allowed entry) ∧
      ∀ entry, Store.Lists layers entry → allowed entry := by
  rw [Store.forall_lists_iff h.shows]
  rfl

theorem Only.write {allowed : Entry → Prop} {key : Bytes} {v : Option Bytes} (h : p.Only allowed d)
    (hentry : allowed (key, v)) : { p with memtable := p.memtable.write key v }.Only allowed d :=
  ⟨KeyMap.forall_mem_insert hentry h.1, h.2⟩

/-! ## Opening -/

/-- Where nothing was, a directory that was made is empty. -/
theorem empty_of_built {dir : Path} (h : Disk.Built d d' (Disk.trail [] dir.parts))
    (hvacant : ∀ x ∈ d.nodes, ¬ Disk.target dir <+: x.1)
    (houtside : ∀ q ∈ Disk.trail [] dir.parts, Disk.target dir <+: q → q = Disk.target dir)
    (name : String) : d'.node? (Disk.target dir ++ [name]) = none := by
  have hnone : d.node? (Disk.target dir ++ [name]) = none := by
    by_contra hn
    obtain ⟨node, hnode⟩ := Option.ne_none_iff_exists'.1 hn
    exact hvacant _ (Disk.mem_of_node? (List.concat_ne_nil _ _) hnode) (List.prefix_append _ _)
  refine (h.frame.node _ fun hway => ?_).trans hnone
  have hlength := congrArg List.length (houtside _ hway.1 (List.prefix_append _ _))
  rw [List.length_append, List.length_singleton] at hlength
  omega

/-- Where nothing is, an empty partition is opened. -/
theorem ends_load_vacant {serial : Nat} {name : String} {dir : Path} {config : Config}
    (hclear : ¬ d.Obstructed [] dir.parts)
    (hvacant : ∀ x ∈ d.nodes, ¬ Disk.target dir <+: x.1)
    (houtside : ∀ q ∈ Disk.trail [] dir.parts, Disk.target dir <+: q → q = Disk.target dir) :
    Ends (load serial name dir config) d
      (fun p d' => Disk.Built d.tick d' (Disk.trail [] dir.parts) ∧ p.serial = serial ∧
        p.name = name ∧ p.dir = dir ∧ p.memtable.entries = [] ∧ p.store.tables = [] ∧
        p.store.nextId = 1 ∧ p.Serves d' (Disk.target dir) (fun _ => none) 0 True)
      fun e d' => d' = d.tick ∧ Faulted d e := by
  unfold load Store.load
  refine Ends.bind (M := fun s d' => Disk.Built d.tick d' (Disk.trail [] dir.parts) ∧
    d'.Opens dir (Disk.target dir) ∧ (∀ name, d'.node? (Disk.target dir ++ [name]) = none) ∧
    s = { dir, interval := max config.indexInterval 1 }) ?_ ?_
  · refine Ends.bind (Ends.adaptExcept ((Disk.ends_createDirectory dir).imp_fail ?_)) ?_
    · rintro e d' (hob | ⟨rfl, he⟩)
      · exact absurd hob hclear
      · exact ⟨rfl, e, rfl, he⟩
    rintro _ d' ⟨hbuilt, hopens⟩
    have hempty := empty_of_built hbuilt hvacant houtside
    have hchildren : d'.children dir = .ok [] := by
      rw [Disk.children, hopens.find]
      refine congrArg Except.ok (List.eq_nil_iff_forall_not_mem.2 ?_)
      rintro ⟨name, node⟩ hmem
      exact Disk.node?_ne_none (Disk.mem_childrenAt.1 hmem) (hempty name)
    refine ends_get_bind (Ends.bind (M := fun children t => children = [] ∧ t = d') ?_ ?_)
    · rw [hchildren]
      exact Ends.pure ⟨rfl, rfl⟩
    · rintro _ _ ⟨rfl, rfl⟩
      exact Ends.pure ⟨hbuilt, hopens, hempty, rfl⟩
  · rintro s d' ⟨hbuilt, hopens, hempty, rfl⟩
    refine Ends.pure ⟨hbuilt, rfl, rfl, rfl, rfl, rfl, rfl, rfl, KeyMap.sorted_nil,
      fun _ hmem => absurd hmem List.not_mem_nil, Nat.le_refl 1, [], ⟨hopens, .nil,
        fun _ hmem => absurd hmem List.not_mem_nil, List.nodup_nil,
        fun _ hmem => absurd hmem List.not_mem_nil, fun _ _ => hempty _,
        fun _ name hn => absurd (hempty name) hn⟩, fun _ => rfl⟩

/-! ## Writing -/

/-- A partition without a memtable has the values of its tables. -/
theorem serves_of_store {store : Store} {layers : List Store.Layer} (hdir : store.dir = p.dir)
    (hstore : store.Serves d place layers [] clean) (hnumbered : store.nextId.toNat ≤ 1 + 2 * uses)
    (hvalue : ∀ key, (KeyMap.newest? (layers.map Prod.snd) key).join = value key) :
    { p with store, memtable := {} }.Serves d place value uses clean := by
  refine ⟨hdir, KeyMap.sorted_nil, fun _ h => absurd h List.not_mem_nil, hnumbered, layers, hstore,
    fun key => ?_⟩
  rw [KeyMap.newest?_cons, ← hvalue key]
  rfl

/-- Merging tables changes no value, however it ends. It takes one number at most. -/
theorem Serves.ends_compact (h : p.Serves d place value uses clean) (hr : clean → d.Reliable)
    (hnext : p.store.nextId.toNat < 1 + 2 * uses) (hw : 1 + 2 * uses < UInt64.size) :
    Ends (onStore Store.compact) (p, d)
      (fun _ t => Step place p t.1 d t.2 ∧ t.1.Serves t.2 place value uses clean ∧ Adds [] p d t)
      fun e t => Step place p t.1 d t.2 ∧ t.1.Serves t.2 place value uses False ∧
        Strains [] p d e := by
  obtain ⟨layers, hstore, hvalue⟩ := h.tables
  refine (ends_onStore (hstore.ends_compact hr (by omega))).mono ?_ ?_
  · rintro output _ ⟨s, d', rfl, hstep, layers', hstore', hlayers⟩
    dsimp only at hstep hstore'
    have hnext' := hstep.next
    refine ⟨⟨hstep.toFrame, rfl, rfl⟩, ⟨hstep.dir.trans h.dir, h.sorted, h.fits,
      show s.nextId.toNat ≤ _ by omega, layers', hstore', fun key => ?_⟩, fun allowed honly _ => ?_⟩
    · rw [← hvalue key]
      rcases hlayers with rfl | hmerged
      · rfl
      · rw [KeyMap.newest?_cons, KeyMap.newest?_cons]
        cases KeyMap.find? p.memtable.entries key with
        | some found => rfl
        | none => exact hmerged.join_newest? key
    · obtain ⟨hmemory, hlisted⟩ := (only_iff hstore).1 honly
      refine (only_iff hstore').2 ⟨hmemory, fun entry hentry => hlisted entry ?_⟩
      rcases hlayers with rfl | hmerged
      · exact hentry
      · exact hmerged.lists hentry
  · rintro e _ ⟨s, d', rfl, hstep, hstore', he⟩
    have hnext' := hstep.next
    exact ⟨⟨hstep.toFrame, rfl, rfl⟩, ⟨hstep.dir.trans h.dir, h.sorted, h.fits,
      show s.nextId.toNat ≤ _ by dsimp only at hnext'; omega, layers, hstore', hvalue⟩,
      fun _ honly _ => he.mono (Disk.later_refl d) ((only_iff hstore).1 honly).2⟩

/-- Flushing and merging change no value, however they end. -/
theorem Serves.ends_flush (h : p.Serves d place value uses clean) (hr : clean → d.Reliable)
    (hw : 1 + 2 * (uses + 1) < UInt64.size) :
    Ends flush (p, d)
      (fun _ t => Step place p t.1 d t.2 ∧ t.1.Serves t.2 place value (uses + 1) clean ∧
        Adds [] p d t)
      fun e t => Step place p t.1 d t.2 ∧ t.1.Serves t.2 place value (uses + 1) False ∧
        Strains [] p d e := by
  obtain ⟨layers, hstore, hvalue⟩ := h.tables
  have hnumbered := h.numbered
  unfold flush
  refine ends_get_bind ?_
  dsimp only
  by_cases hempty : p.memtable.isEmpty = true
  · rw [if_pos hempty]
    exact Ends.pure ⟨step_refl place p d, h.weaken (Nat.le_succ _) id, fun _ honly _ => honly⟩
  rw [if_neg hempty]
  refine Ends.bind ((ends_onStore (hstore.ends_flush (by omega) (Bool.eq_false_iff.2 hempty)
    h.sorted h.fits)).imp_fail ?_) ?_
  · rintro e _ ⟨s₁, d₁, rfl, hstep, hstore₁, he⟩
    have hnext := hstep.next
    exact ⟨⟨hstep.toFrame, rfl, rfl⟩, ⟨hstep.dir.trans h.dir, h.sorted, h.fits,
      show s₁.nextId.toNat ≤ _ by dsimp only at hnext; omega, layers, hstore₁, hvalue⟩,
      fun _ honly _ => he.mono (Disk.later_refl d) honly.1⟩
  rintro summary _ ⟨s₁, d₁, rfl, hstep, hstore₁⟩
  dsimp only at hstep hstore₁
  have hnext := hstep.next
  have hstep₁ : Step place p { p with store := s₁, memtable := {} } d d₁ :=
    ⟨hstep.toFrame, rfl, rfl⟩
  have hserves₁ : Serves { p with store := s₁, memtable := {} } d₁ place value (uses + 1) clean :=
    serves_of_store (hstep.dir.trans h.dir) hstore₁ (by omega) hvalue
  -- the entries of the new layer were in the memtable
  have hadds₁ : Adds [] p d ({ p with store := s₁, memtable := {} }, d₁) := by
    intro allowed honly _
    refine (only_iff hstore₁).2 ⟨fun _ hmem => absurd hmem List.not_mem_nil, ?_⟩
    rintro entry ⟨layer, hlayer, hentry⟩
    rcases List.mem_cons.1 hlayer with rfl | hlayer
    · exact honly.1 entry hentry
    · exact ((only_iff hstore).1 honly).2 entry ⟨layer, hlayer, hentry⟩
  refine ends_update_bind (ends_get_bind ?_)
  dsimp only
  by_cases hmany : p.maxTables < s₁.tables.length
  · rw [if_pos hmany]
    refine Ends.bind ((hserves₁.ends_compact (fun hclean => hstep.reliable (hr hclean))
      (show s₁.nextId.toNat < _ by omega) hw).imp_fail ?_) ?_
    · rintro e t ⟨hstep₂, hserves₂, he⟩
      exact ⟨hstep₁.trans hstep₂, hserves₂, hadds₁.strains hstep.toLater he⟩
    · rintro output t ⟨hstep₂, hserves₂, hadds₂⟩
      exact Ends.pure ⟨hstep₁.trans hstep₂, hserves₂, hadds₁.trans hadds₂⟩
  · rw [if_neg hmany]
    exact Ends.pure ⟨hstep₁, hserves₁, hadds₁⟩

theorem Serves.record {key : Bytes} {v : Option Bytes} (h : p.Serves d place value uses clean)
    (hfit : Fits (key, v)) :
    { p with memtable := p.memtable.write key v }.Serves d place (record value (key, v)) uses
      clean := by
  obtain ⟨layers, hstore, hvalue⟩ := h.tables
  refine ⟨h.dir, h.sorted.insert, KeyMap.forall_mem_insert hfit h.fits, h.numbered, layers, hstore,
    fun k => ?_⟩
  have hk := hvalue k
  rw [KeyMap.newest?_cons] at hk
  show (KeyMap.newest? (p.memtable.entries.insert key v :: _) k).join = if k = key then v else value k
  rw [KeyMap.newest?_cons, KeyMap.find?_insert]
  by_cases hkey : k = key
  · rw [if_pos hkey, if_pos hkey]
    rfl
  · rw [if_neg hkey, if_neg hkey]
    exact hk

/-- A write is recorded, also when flushing it fails. -/
theorem Serves.ends_write {key : Bytes} {v : Option Bytes} (h : p.Serves d place value uses clean)
    (hr : clean → d.Reliable) (hfit : Fits (key, v)) (hw : 1 + 2 * (uses + 1) < UInt64.size) :
    Ends (write key v) (p, d)
      (fun _ t => Step place p t.1 d t.2 ∧
        t.1.Serves t.2 place (Spillway.record value (key, v)) (uses + 1) clean ∧
        Adds [(key, v)] p d t)
      fun e t => Step place p t.1 d t.2 ∧
        t.1.Serves t.2 place (Spillway.record value (key, v)) (uses + 1) False ∧
        Strains [(key, v)] p d e := by
  have hwritten := h.record hfit
  unfold write
  refine ends_update_bind (ends_get_bind ?_)
  dsimp only
  by_cases hfull : (p.memtable.write key v).isFull p.writeBufferBytes = true
  · rw [if_pos hfull]
    refine (hwritten.ends_flush hr hw).mono ?_ ?_
    · intro _ t ⟨hstep, hserves, hadds⟩
      exact ⟨{ hstep with }, hserves, fun allowed honly hentry =>
        hadds allowed (honly.write (List.forall_mem_singleton.1 hentry)) nofun⟩
    · intro e t ⟨hstep, hserves, he⟩
      exact ⟨{ hstep with }, hserves, fun allowed honly hentry =>
        he allowed (honly.write (List.forall_mem_singleton.1 hentry)) nofun⟩
  · rw [if_neg hfull]
    exact Ends.pure ⟨{ step_refl place p d with }, hwritten.weaken (Nat.le_succ _) id,
      fun _ honly hentry => honly.write (List.forall_mem_singleton.1 hentry)⟩

/-- A batch stopped when it failed to flush an entry: this one was recorded, and the entries before it had
been written. -/
def Stopped (p : Partition) (d : Disk) (batch : List (Bytes × Bytes)) (recorded : List Entry)
    (e : StorageError) (t : Partition × Disk) : Prop :=
  ∃ front pair back t₁, batch = front ++ pair :: back ∧ recorded = puts (front ++ [pair]) ∧
    putBatch front (p, d) = .ok ⟨⟩ t₁ ∧ put pair.1 pair.2 t₁ = .error e t

theorem putBatch_cons {pair : Bytes × Bytes} {t t₁ : Partition × Disk}
    (h : put pair.1 pair.2 t = .ok ⟨⟩ t₁) (batch : List (Bytes × Bytes)) :
    putBatch (pair :: batch) t = putBatch batch t₁ := by
  show EStateM.bind (put pair.1 pair.2) (fun _ => putBatch batch) t = _
  unfold EStateM.bind
  rw [h]

theorem Stopped.cons {pair : Bytes × Bytes} {batch : List (Bytes × Bytes)} {recorded : List Entry}
    {e : StorageError} {t : Partition × Disk} (hput : put pair.1 pair.2 (p, d) = .ok ⟨⟩ (p', d'))
    (h : Stopped p' d' batch recorded e t) :
    Stopped p d (pair :: batch) ((pair.1, some pair.2) :: recorded) e t := by
  obtain ⟨front, last, back, t₁, rfl, rfl, hfront, hlast⟩ := h
  exact ⟨pair :: front, last, back, t₁, rfl, rfl, (putBatch_cons hput front).trans hfront, hlast⟩

/-- The entries of a batch are recorded in order, up to the one that fails. -/
theorem Serves.ends_putBatch {batch : List (Bytes × Bytes)}
    (h : p.Serves d place value uses clean) (hr : clean → d.Reliable)
    (hfits : ∀ entry ∈ puts batch, Fits entry) (hw : 1 + 2 * (uses + batch.length) < UInt64.size) :
    Ends (putBatch batch) (p, d)
      (fun _ t => Step place p t.1 d t.2 ∧
        t.1.Serves t.2 place ((puts batch).foldl Spillway.record value) (uses + batch.length) clean ∧
        Adds (puts batch) p d t)
      fun e t => Step place p t.1 d t.2 ∧ Strains (puts batch) p d e ∧
        ∃ recorded, Stopped p d batch recorded e t ∧ t.1.Serves t.2 place
          (recorded.foldl Spillway.record value) (uses + batch.length) False := by
  induction batch generalizing p d value uses with
  | nil => exact Ends.pure ⟨step_refl place p d, h, fun _ honly _ => honly⟩
  | cons pair batch ih =>
    rw [puts, List.map_cons, List.forall_mem_cons] at hfits
    rw [List.length_cons] at hw
    have hsum : uses + (pair :: batch).length = uses + 1 + batch.length := by
      rw [List.length_cons]
      omega
    rw [hsum]
    refine Ends.bind ((h.ends_write hr hfits.1 (by omega)).run.imp_fail ?_) ?_
    · rintro e t ⟨hrun, hstep, hserves, he⟩
      refine ⟨hstep, fun allowed honly hentries => he allowed honly ?_, [(pair.1, some pair.2)],
        ⟨[], pair, batch, (p, d), rfl, rfl, rfl, hrun⟩, hserves.weaken (by omega) id⟩
      exact List.forall_mem_singleton.2 (List.forall_mem_cons.1 hentries).1
    rintro _ ⟨p₁, d₁⟩ ⟨hrun, hstep, hserves, hadds⟩
    dsimp only at hstep hserves
    refine (ih hserves (fun hclean => hstep.reliable (hr hclean)) hfits.2 (by omega)).mono ?_ ?_
    · rintro _ t ⟨hstep₁, hserves₁, hadds₁⟩
      exact ⟨hstep.trans hstep₁, hserves₁, hadds.trans hadds₁⟩
    · rintro e t ⟨hstep₁, he, recorded, hstopped, hserves₁⟩
      exact ⟨hstep.trans hstep₁, hadds.strains hstep.toLater he, _, hstopped.cons hrun, hserves₁⟩

/-! ## Scanning -/

/-- A scan is left with the value of each key that has one, in order; only a fault of the disk keeps it
from that. -/
theorem Serves.ends_scan (h : p.Serves d place value uses clean) :
    Ends scan (p, d)
      (fun merge t => ∃ d', t = (p, d') ∧ Disk.Frame d d' (fun _ => False) ∧
        ∃ entries, KeyMap.Sorted entries ∧
          (∀ key, KeyMap.find? entries key = (value key).map some) ∧
          merge.Leaves (Source.Gives d') entries)
      fun e t => ∃ d', t = (p, d') ∧ Disk.Frame d d' (fun _ => False) ∧ Faulted d e := by
  obtain ⟨layers, hstore, hvalue⟩ := h.tables
  unfold scan
  refine Ends.bind ((ends_onStore (Store.ends_allCursors hstore.opens hstore.shows)).imp_fail ?_) ?_
  · rintro e _ ⟨_, d₁, rfl, _, ht, hframe, he⟩
    cases ht
    exact ⟨d₁, rfl, hframe, he⟩
  rintro cursors _ ⟨_, d₁, rfl, d₁', ht, hframe, hreads⟩
  cases ht
  refine ends_get_bind ?_
  dsimp only
  have hgives : List.Forall₂ (Source.Gives d₁)
      (.listed p.memtable.entries :: cursors.map .table)
      (p.memtable.entries :: layers.map Prod.snd) :=
    .cons rfl (List.forall₂_map_left_iff.2 hreads)
  have hsorted : ∀ run ∈ p.memtable.entries :: layers.map Prod.snd, KeyMap.Sorted run :=
    List.forall_mem_cons.2 ⟨h.sorted, Store.sorted_of_shows hstore.shows⟩
  obtain ⟨m, hstart, hleaves⟩ :=
    Merge.exists_start_leaves (Source.feed_tracks d₁) false hgives hsorted
  rw [hstart]
  refine Ends.pure ⟨d₁, rfl, hframe, _, KeyMap.sorted_merged, fun key => ?_, hleaves⟩
  rw [KeyMap.find?_merged_false, hvalue key]

end Spillway.Partition
