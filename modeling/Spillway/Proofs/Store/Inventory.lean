import Mathlib.Data.List.Dedup
import Mathlib.Data.List.Perm.Subperm
import Spillway.Proofs.Store.Compaction

/-!
# The files of a store

However a store flushes, merges and is opened again, the table files in its directory are those of its
open tables, one for each, and the next number is free (`inventory_of_events`). A store that is opened
again counts on from the largest number that it finds, so numbers may be given twice; they are still
bounded by how many different ones there were (`Numbered`).
-/

namespace Spillway.Store

open Table

variable {s : Store} {d : Disk} {dir : Path} {place : Location} {layers left : List Layer}
  {used : List UInt64} {next : UInt64} {clean : Prop}

/-! ## Events -/

/-- Opens the tables of the directory again, in place of those that are open. -/
def reopen (interval : Nat) : StoreM Unit := do
  let (s, _) ← get
  let s ← onDisk (load s.dir interval)
  update fun _ => s

/-- What happens to the tables of a store. -/
inductive Event where
  | change (call : Change)
  | reopen (interval : Nat)

namespace Event

def run : Event → StoreM Unit
  | .change call => call.run
  | .reopen interval => Store.reopen interval

/-- The numbers that an event gives to a table: one, if it writes a table at all. -/
def gives (s : Store) : Event → List UInt64
  | .change (.flush _) => [s.nextId]
  | .change .compact =>
    if (Tier.pick? (s.tables.map (·.outline.fileSize))).isSome then [s.nextId] else []
  | .reopen _ => []

end Event

/-- All numbers that are given in some events. -/
def given : List Event → Store × Disk → List UInt64
  | [], _ => []
  | event :: events, t => event.gives t.1 ++
    match event.run t with
    | .ok _ t' => given events t'
    | .error .. => []

theorem given_cons {event : Event} {events : List Event} {t t' : Store × Disk}
    (h : event.run t = .ok ⟨⟩ t') : given (event :: events) t = event.gives t.1 ++ given events t' := by
  rw [given, h]

/-- An event gives one number at most. -/
theorem Event.length_gives_le (event : Event) (s : Store) : (event.gives s).length ≤ 1 := by
  unfold Event.gives
  split
  · exact Nat.le_refl 1
  · split
    · exact Nat.le_refl 1
    · exact Nat.zero_le 1
  · exact Nat.zero_le 1

theorem length_given_le (events : List Event) (t : Store × Disk) :
    (given events t).length ≤ events.length := by
  induction events generalizing t with
  | nil => exact Nat.le_refl 0
  | cons event events ih =>
    have hevent := event.length_gives_le t.1
    rw [given, List.length_append, List.length_cons]
    split
    · next t' _ =>
      have hrest := ih t'
      omega
    · rw [List.length_nil]
      omega

/-! ## Numbers -/

/-- The numbers that were given are those up to some number, and the next is no larger than the one
behind it. -/
def Numbered (used : List UInt64) (next : UInt64) : Prop :=
  ∃ top : Nat, (∀ n : Nat, n ∈ used.map UInt64.toNat ↔ 1 ≤ n ∧ n ≤ top) ∧
    1 ≤ next.toNat ∧ next.toNat ≤ top + 1

theorem numbered_nil : Numbered [] 1 :=
  ⟨0, fun n => iff_of_false List.not_mem_nil (by omega), Nat.le_refl 1, Nat.le_refl 1⟩

/-- There are as many different numbers as the largest of them says. -/
theorem length_dedup_eq {top : Nat} (h : ∀ n : Nat, n ∈ used.map UInt64.toNat ↔ 1 ≤ n ∧ n ≤ top) :
    used.dedup.length = top := by
  have hnodup : (used.dedup.map UInt64.toNat).Nodup :=
    (List.nodup_dedup used).map fun _ _ => UInt64.toNat_inj.1
  have hperm : (used.dedup.map UInt64.toNat).Perm (List.range' 1 top) := by
    refine (List.perm_ext_iff_of_nodup hnodup List.nodup_range').2 fun n => ?_
    have hmem : n ∈ used.dedup.map UInt64.toNat ↔ n ∈ used.map UInt64.toNat := by
      simp only [List.mem_map, List.mem_dedup]
    rw [hmem, h n, List.mem_range'_1]
    omega
  rw [← List.length_map UInt64.toNat, hperm.length_eq, List.length_range']

theorem length_dedup_le_append (used more : List UInt64) :
    used.dedup.length ≤ (used ++ more).dedup.length := by
  refine ((List.nodup_dedup used).subperm fun id hid => ?_).length_le
  rw [List.mem_dedup] at hid ⊢
  exact List.mem_append_left more hid

/-- As long as there were fewer different numbers than words, the next number has a successor. -/
theorem Numbered.give (h : Numbered used next)
    (hroom : (used ++ [next]).dedup.length < UInt64.size - 1) :
    next.toNat + 1 < UInt64.size ∧ Numbered (used ++ [next]) (next + 1) := by
  obtain ⟨top, hused, hfirst, hnext⟩ := h
  have hgiven : ∀ n : Nat, n ∈ (used ++ [next]).map UInt64.toNat ↔
      1 ≤ n ∧ n ≤ max top next.toNat := by
    intro n
    rw [List.map_append, List.mem_append, hused n, List.map_singleton, List.mem_singleton]
    omega
  -- no number was left out, so the largest one is how many there are
  rw [length_dedup_eq hgiven] at hroom
  have hsucc : next.toNat + 1 < UInt64.size := by omega
  refine ⟨hsucc, max top next.toNat, hgiven, ?_, ?_⟩ <;>
  · rw [toNat_add_one hsucc]
    omega

/-- The number behind the largest of those that are left is no larger than the next one. -/
theorem Numbered.reopen {ids : List UInt64} (h : Numbered used next) (hids : ∀ id ∈ ids, id < next) :
    Numbered used (ids.head?.elim 1 (· + 1)) := by
  obtain ⟨top, hused, hfirst, hnext⟩ := h
  cases ids with
  | nil => exact ⟨top, hused, Nat.le_refl 1, Nat.le_trans hfirst hnext⟩
  | cons id ids =>
    have hlt := UInt64.lt_iff_toNat_lt.1 (hids id List.mem_cons_self)
    have hsize := next.toNat_lt_size
    have hsucc : (id + 1).toNat = id.toNat + 1 := toNat_add_one (by omega)
    refine ⟨top, hused, ?_, ?_⟩ <;>
    · rw [List.head?_cons, Option.elim_some, hsucc]
      omega

/-! ## What events keep -/

/-- What a store and its directory keep, after some numbers were given. On a disk that does not fail no
table is left behind, and all tables have entries. -/
structure Kept (dir : Path) (clean : Prop) (used : List UInt64) (s : Store) (d : Disk) : Prop where
  home : s.dir = dir
  tidy : d.TidyAt (Disk.target dir)
  reliable : clean → d.Reliable
  numbered : Numbered used s.nextId
  holds : ∃ layers left, s.Holds d (Disk.target dir) layers left ∧
    (clean → left = [] ∧ ∀ layer ∈ layers, layer.2 ≠ [])

/-- A layer that is not empty takes the place of others, or none does. -/
theorem ne_nil_of_mem_merged {front inner back : List Layer} {id : UInt64} {keepDeletions : Bool}
    (h : ∀ layer ∈ front ++ inner ++ back, layer.2 ≠ []) :
    ∀ layer ∈ front ++ mergedLayers id keepDeletions inner ++ back, layer.2 ≠ [] := by
  intro layer hlayer
  rw [List.mem_append, List.mem_append] at hlayer
  rcases hlayer with (hlayer | hlayer) | hlayer
  · exact h layer (List.mem_append_left _ (List.mem_append_left _ hlayer))
  · unfold mergedLayers at hlayer
    split at hlayer
    · cases hlayer
    · next hne =>
      rw [List.mem_singleton.1 hlayer]
      exact hne
  · exact h layer (List.mem_append_right _ hlayer)

theorem Kept.ends_flush (h : Kept dir clean used s d) (writes : List Entry)
    (hroom : (used ++ [s.nextId]).dedup.length < UInt64.size - 1) :
    Ends (Change.run (.flush writes)) (s, d)
      (fun _ t => Kept dir clean (used ++ [s.nextId]) t.1 t.2) fun _ _ => True := by
  obtain ⟨hsucc, hnumbered⟩ := h.numbered.give hroom
  obtain ⟨layers, left, hholds, hclean⟩ := h.holds
  by_cases hm : (filled writes).isEmpty = true
  · exact Ends.bind (ends_flush_empty hm) fun _ _ hf => hf.elim
  have hfull := Bool.eq_false_iff.2 hm
  refine Ends.bind ((Store.ends_flush hholds hsucc hfull (sorted_filled writes)).imp_fail
    fun _ _ _ => trivial) ?_
  rintro _ t ⟨hdir, hnext, hholds', hlater⟩
  refine Ends.pure ⟨hdir.trans h.home, hlater.tidy _ h.tidy, fun hc => hlater.reliable (h.reliable hc),
    hnext ▸ hnumbered, _, left, hholds', fun hc => ⟨(hclean hc).1, ?_⟩⟩
  refine List.forall_mem_cons.2 ⟨fun hnil => hm ?_, (hclean hc).2⟩
  exact List.isEmpty_iff.2 hnil

theorem Kept.ends_compact (h : Kept dir clean used s d)
    (hroom : (used ++ Event.gives s (.change .compact)).dedup.length < UInt64.size - 1) :
    Ends (Change.run .compact) (s, d)
      (fun _ t => Kept dir clean (used ++ Event.gives s (.change .compact)) t.1 t.2)
      fun _ _ => True := by
  obtain ⟨layers, left, hholds, hclean⟩ := h.holds
  unfold Event.gives at hroom ⊢
  cases hpick : Tier.pick? (s.tables.map (·.outline.fileSize)) with
  | none =>
    refine Ends.bind (ends_compact_none hpick) ?_
    rintro _ _ rfl
    refine Ends.pure ?_
    rw [Option.isSome_none, if_neg Bool.false_ne_true, List.append_nil]
    exact h
  | some tier =>
    rw [hpick, Option.isSome_some, if_pos rfl] at hroom
    rw [Option.isSome_some, if_pos rfl]
    obtain ⟨hsucc, hnumbered⟩ := h.numbered.give hroom
    refine Ends.bind ((ends_compact_tier hholds hsucc hpick).imp_fail fun _ _ _ => trivial) ?_
    rintro _ t ⟨hdir, hnext, hlater, -, -, left', hholds', hleft⟩
    refine Ends.pure ⟨hdir.trans h.home, hlater.tidy _ h.tidy,
      fun hc => hlater.reliable (h.reliable hc), hnext ▸ hnumbered, _, left', hholds', fun hc => ?_⟩
    refine ⟨(hleft (h.reliable hc)).trans (hclean hc).1, ne_nil_of_mem_merged ?_⟩
    rw [← layers_eq]
    exact (hclean hc).2

theorem Kept.ends_reopen (h : Kept dir clean used s d) (interval : Nat) :
    Ends (reopen interval) (s, d) (fun _ t => Kept dir clean used t.1 t.2) fun _ _ => True := by
  obtain ⟨rfl, htidy, hreliable, hnumbered, layers, left, hholds, hclean⟩ := h
  have hroom : ∀ layer ∈ layers ++ left, layer.1.toNat + 1 < UInt64.size := by
    intro layer hmem
    have hused := UInt64.lt_iff_toNat_lt.1 (hholds.used layer hmem)
    have hsize := s.nextId.toNat_lt_size
    omega
  -- tables that were left behind are opened with the others
  have hmem : ∀ layer, layer ∈ byNumber (layers ++ left) ↔ layer ∈ layers ++ left :=
    fun layer => (byNumber_perm _).mem_iff
  unfold reopen
  refine ends_get_bind ?_
  refine Ends.bind ((ends_onDisk_exists (ends_load (hholds.found htidy) hroom interval)).imp_fail
    fun _ _ _ => trivial) ?_
  rintro s' _ ⟨d', rfl, hdir, hnext, hholds', hlater⟩
  refine ends_update ?_
  refine ⟨hdir, hlater.tidy _ htidy, fun hc => hlater.reliable (hreliable hc), ?_, _, [], hholds',
    fun hc => ⟨rfl, fun layer hlayer => ?_⟩⟩
  · rw [hnext]
    refine hnumbered.reopen fun id hid => ?_
    obtain ⟨layer, hlayer, rfl⟩ := List.mem_map.1 hid
    exact hholds.used layer ((hmem layer).1 hlayer)
  · obtain ⟨rfl, hfull⟩ := hclean hc
    rw [hmem, List.append_nil] at hlayer
    exact hfull layer hlayer

theorem Kept.ends_event (h : Kept dir clean used s d) (event : Event)
    (hroom : (used ++ event.gives s).dedup.length < UInt64.size - 1) :
    Ends event.run (s, d) (fun _ t => Kept dir clean (used ++ event.gives s) t.1 t.2)
      fun _ _ => True := by
  cases event with
  | reopen interval =>
    rw [Event.gives, List.append_nil]
    exact h.ends_reopen interval
  | change call =>
    cases call with
    | flush writes => exact h.ends_flush writes hroom
    | compact => exact h.ends_compact hroom

theorem Kept.ends_events (events : List Event) (h : Kept dir clean used s d)
    (hroom : (used ++ given events (s, d)).dedup.length < UInt64.size - 1) :
    Ends (events.forM Event.run) (s, d)
      (fun _ t => Kept dir clean (used ++ given events (s, d)) t.1 t.2) fun _ _ => True := by
  induction events generalizing used s d with
  | nil =>
    refine Ends.pure ?_
    rw [given, List.append_nil]
    exact h
  | cons event events ih =>
    have hfirst : (used ++ event.gives s).dedup.length < UInt64.size - 1 := by
      rw [given, ← List.append_assoc] at hroom
      exact Nat.lt_of_le_of_lt (length_dedup_le_append _ _) hroom
    refine Ends.bind ((h.ends_event event hfirst).run.imp_fail fun _ _ _ => trivial) ?_
    rintro _ ⟨s₁, d₁⟩ ⟨hevent, hkept⟩
    rw [given_cons hevent, ← List.append_assoc] at hroom ⊢
    exact ih hkept hroom

/-! ## What is in the directory -/

/-- What a directory holds under names that spell a number. -/
def tableFiles (children : List (String × Node)) : List (String × Node) :=
  children.filter fun child => (tableId? child.1).isSome

/-- What is in the directory of a store: the files of its open tables, under the names of `ids`, and
those in `left`, which the disk did not give up. The entries of each table, in `runs`, are what its
file spells. -/
structure Inventory (s : Store) (d : Disk) (ids : List UInt64) (runs : List (List Entry))
    (left : List (String × Node)) : Prop where
  paths : s.tables.map (·.path) = ids.map (tablePath s.dir)
  files : ∃ children, d.children s.dir = .ok children ∧ (tableFiles children).Perm
    (List.zipWith (fun id table => (tableName id, .file table.file)) ids s.tables ++ left)
  distinct : ids.Nodup
  used : ∀ id ∈ ids, id < s.nextId
  /-- No file is under the name of a table that is still to be written. -/
  free : ∀ id, s.nextId ≤ id → d.find (tablePath s.dir id) = .error .notFound
  serves : List.Forall₂ (fun table entries =>
    IsFile entries (d.content table.file) ∧ table.Lists d entries) s.tables runs

/-- The name of a layer's table, with what it leads to. -/
def named (d : Disk) (place : Location) (layer : Layer) : String × Node :=
  (tableName layer.1, (d.node? (place ++ [tableName layer.1])).getD .directory)

theorem zipWith_eq_map_named {tables : List Reader}
    (h : List.Forall₂ (Shows d dir place) tables layers) :
    List.zipWith (fun id table => (tableName id, Node.file table.file)) (layers.map Prod.fst) tables =
      layers.map (named d place) := by
  induction h with
  | nil => rfl
  | cons hshows _ ih =>
    rw [List.map_cons, List.zipWith_cons_cons, ih, List.map_cons, named, hshows.node,
      Option.getD_some]

/-- The tables in a directory are those of the layers. -/
theorem Found.tableFiles_perm {files : List Layer} (h : Found d dir files) :
    (tableFiles (d.childrenAt (Disk.target dir))).Perm (files.map (named d (Disk.target dir))) := by
  have hnames : ((files.map (named d (Disk.target dir))).map Prod.fst).Nodup := by
    rw [List.map_map]
    have hinj := h.distinct.map (f := tableName) fun _ _ => tableName_inj
    rwa [List.map_map] at hinj
  have hchildren : (d.childrenAt (Disk.target dir)).Nodup := h.tidy.of_map
  refine (List.perm_ext_iff_of_nodup (hchildren.filter _) hnames.of_map).2 ?_
  rintro ⟨name, node⟩
  rw [List.mem_filter, h.tidy.mem_childrenAt_iff, List.mem_map]
  constructor
  · rintro ⟨hnode, hspells⟩
    obtain ⟨id, hid⟩ := Option.isSome_iff_exists.1 hspells
    obtain ⟨layer, hlayer, rfl⟩ := h.known name id node hid hnode
    exact ⟨layer, hlayer, by rw [named, hnode, Option.getD_some]⟩
  · rintro ⟨layer, hlayer, hnamed⟩
    obtain ⟨file, hnode, -⟩ := h.stored layer hlayer
    rw [named, hnode, Option.getD_some, Prod.mk.injEq] at hnamed
    obtain ⟨rfl, rfl⟩ := hnamed
    exact ⟨hnode, by rw [tableId?_tableName, Option.isSome_some]⟩

theorem Holds.inventory (h : s.Holds d (Disk.target s.dir) layers left)
    (htidy : d.TidyAt (Disk.target s.dir)) :
    Inventory s d (layers.map Prod.fst) (layers.map Prod.snd)
      (left.map (named d (Disk.target s.dir))) where
  paths := map_path_eq (List.forall₂_map_right_iff.2 (h.shows.imp fun _ _ hshows => hshows.path))
  files := by
    refine ⟨_, h.opens.children, ?_⟩
    rw [zipWith_eq_map_named h.shows, ← List.map_append]
    exact (h.found htidy).tableFiles_perm
  distinct := by
    have hdistinct := h.distinct
    rw [List.map_append] at hdistinct
    exact hdistinct.of_append_left
  used id hid := by
    obtain ⟨layer, hlayer, rfl⟩ := List.mem_map.1 hid
    exact h.used layer (List.mem_append_left left hlayer)
  free id hid := h.opens.find_join_of_none (plain_tableName id) (h.fresh hid)
  serves := List.forall₂_map_right_iff.2 (h.shows.imp fun _ _ hshows =>
    ⟨hshows.isFile, hshows.lists h.opens⟩)

/-- After any events that succeed, on a directory that was without tables at first, the table files in
it are the files of the open tables, one for each, under different numbers below the next; what a
table serves is what its file spells. No other table is left there, and none without entries, unless
the disk fails. -/
theorem inventory_of_events {events : List Event} {interval : Nat} {s₀ : Store} {d₀ d₁ : Disk}
    (hempty : Found d dir []) (hopened : load dir interval d = .ok s₀ d₀)
    (hrun : events.forM Event.run (s₀, d₀) = .ok ⟨⟩ (s, d₁))
    (hroom : (given events (s₀, d₀)).dedup.length < UInt64.size - 1) :
    s.dir = dir ∧ ∃ ids runs left, Inventory s d₁ ids runs left ∧
      (d.Reliable → left = [] ∧ [] ∉ runs) := by
  obtain ⟨rfl, hnext, hholds, hlater⟩ :=
    (ends_load hempty (fun _ hmem => absurd hmem List.not_mem_nil) interval).of_ok hopened
  rw [byNumber, List.mergeSort_nil] at hnext hholds
  have hkept : Kept s₀.dir d.Reliable [] s₀ d₀ := by
    refine ⟨rfl, hlater.tidy _ hempty.tidy, hlater.reliable, ?_, [], [], hholds,
      fun _ => ⟨rfl, fun _ hmem => absurd hmem List.not_mem_nil⟩⟩
    rw [hnext]
    exact numbered_nil
  obtain ⟨hdir, htidy, -, -, layers, left, hholds', hclean⟩ :=
    (hkept.ends_events events hroom).of_ok hrun
  rw [← hdir] at htidy hholds'
  refine ⟨hdir, _, _, _, hholds'.inventory htidy, fun hr => ?_⟩
  obtain ⟨rfl, hfull⟩ := hclean hr
  refine ⟨rfl, fun hmem => ?_⟩
  obtain ⟨layer, hlayer, hnil⟩ := List.mem_map.1 hmem
  exact hfull layer hlayer hnil

/-- Everything is deleted and merged away, so that the numbers start again when the store is opened
again; then tables are merged behind a newer one. -/
def recycled : List Event :=
  [.change (.flush [([107], some [97])]), .change (.flush [([107], none)]), .change .compact,
    .reopen 1, .change (.flush [([107], some [98])]), .change (.flush [([107], some [99])]),
    .change (.flush [([107], some []), ([108], some []), ([109], some []), ([110], some [])]),
    .change .compact]

theorem ends_recycled :
    Ends (load "/store" 1) {}
      (fun s₀ d₀ => Ends (recycled.forM Event.run) (s₀, d₀)
        (fun _ t => t.1.tables.length = 2 ∧ t.1.nextId = 5) fun _ _ => False)
      fun _ _ => False := by decide +kernel

theorem inventory_of_events_recycled :
    ∃ s d ids runs, Inventory s d ids runs [] ∧ [] ∉ runs ∧ ids.length = 2 ∧ s.nextId = 5 := by
  obtain ⟨s₀, d₀, hopened, hends⟩ := ends_recycled.exists_ok fun _ _ hf => hf
  obtain ⟨_, ⟨s, d⟩, hrun, htwo, hnext⟩ := hends.exists_ok fun _ _ hf => hf
  have hroom : (given recycled (s₀, d₀)).dedup.length < UInt64.size - 1 :=
    Nat.lt_of_le_of_lt ((List.dedup_sublist _).length_le.trans (length_given_le _ _)) (by decide)
  obtain ⟨-, ids, runs, left, hinventory, hclean⟩ :=
    inventory_of_events found_empty hopened hrun hroom
  obtain ⟨rfl, hfull⟩ := hclean fun _ hmem => absurd hmem List.not_mem_nil
  refine ⟨s, d, ids, runs, hinventory, hfull, ?_, hnext⟩
  have hlength := congrArg List.length hinventory.paths
  rw [List.length_map, List.length_map] at hlength
  rw [← hlength, htwo]

end Spillway.Store
