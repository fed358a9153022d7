import Spillway.Proofs.Store.Reopen
import Spillway.Proofs.Store.Tier

/-!
# What compaction does

Compaction replaces neighbouring tables, in their place, by one table with the newest version of each of
their keys (`compact_replaces_tier`). Deletions are left out only when no table is older than those
that are merged, so lookups and the merge of all tables give what they gave before.
-/

namespace Spillway

open Table

/-- What a table holds, as lookups in it find it and cursors over it list it. -/
structure Table.Reader.Lists (d : Disk) (table : Reader) (entries : List Entry) : Prop where
  sorted : KeyMap.Sorted entries
  find : ∀ key, table.find d key = Outline.answer (KeyMap.find? entries key)
  listed : Ends table.cursor d (fun cursor d' => (Cursor.feed d').toList cursor = entries.map .ok)
    fun e _ => Faulted d e

namespace Store

variable {s s' : Store} {d d' : Disk} {dir : Path} {place : Location} {layers left left' : List Layer}
  {table : Reader} {layer : Layer}

theorem Shows.lists (h : Shows d dir place table layer) (ho : d.Opens dir place) :
    table.Lists d layer.2 where
  sorted := h.isFile.sorted
  find := h.find
  listed := by
    refine (ends_cursor h ho).mono ?_ fun _ _ he => he.2
    rintro _ d' ⟨rfl, rfl⟩
    exact (Cursor.feed_tracks _).toList_eq (h.reads.mono (Disk.frame_tick d).toLater)

theorem Holds.lists (h : s.Holds d place layers left) :
    List.Forall₂ (Reader.Lists d) s.tables (layers.map Prod.snd) :=
  List.forall₂_map_right_iff.2 (h.shows.imp fun _ _ hshows => hshows.lists h.opens)

theorem map_mergedLayers (id : UInt64) (keepDeletions : Bool) (inner : List Layer) :
    (mergedLayers id keepDeletions inner).map Prod.snd =
      if KeyMap.merged keepDeletions (inner.map Prod.snd) = [] then []
      else [KeyMap.merged keepDeletions (inner.map Prod.snd)] := by
  unfold mergedLayers
  split <;> rfl

/-- A store has a tier of tables replaced, in their place, by one table with the newest version of each
of their keys. Deletions are left out exactly when no older table is left, and there is no table when
no entry is left. -/
structure Replaced (s : Store) (d : Disk) (s' : Store) (d' : Disk) (tier : Tier)
    (front run back : List (List Entry)) (merged : List Entry) : Prop where
  start : front.length = tier.start
  count : run.length = tier.count
  before : List.Forall₂ (Reader.Lists d) s.tables (front ++ run ++ back)
  sorted : KeyMap.Sorted merged
  newest : ∀ key, KeyMap.find? merged key =
    (KeyMap.newest? run key).filter fun value => value.isSome || decide (back ≠ [])
  tables : ∃ replacement, s'.tables = replaceTier tier replacement s.tables
  after : List.Forall₂ (Reader.Lists d') s'.tables
    (front ++ (if merged = [] then [] else [merged]) ++ back)

/-- A tier inside the tables is followed by older ones exactly when not all layers are in it or before
it. -/
theorem Holds.keeps_eq (h : s.Holds d place layers left) {tier : Tier}
    (hinside : tier.start + tier.count ≤ s.tables.length) :
    keeps tier s = decide ((layers.drop (tier.start + tier.count)).map Prod.snd ≠ []) := by
  have hlength := h.shows.length_eq
  simp only [keeps, ne_eq, List.map_eq_nil_iff, List.drop_eq_nil_iff, decide_eq_decide]
  omega

theorem Holds.replaced {tier : Tier} (h : s.Holds d place layers left)
    (hinside : tier.start + tier.count ≤ s.tables.length)
    (h' : s'.Holds d' place (layers.take tier.start ++
      mergedLayers s.nextId (keeps tier s) ((layers.drop tier.start).take tier.count) ++
      layers.drop (tier.start + tier.count)) left')
    (htables : ∃ replacement, s'.tables = Store.replaceTier tier replacement s.tables) :
    Replaced s d s' d' tier ((layers.take tier.start).map Prod.snd)
      (((layers.drop tier.start).take tier.count).map Prod.snd)
      ((layers.drop (tier.start + tier.count)).map Prod.snd)
      (KeyMap.merged (keeps tier s) (((layers.drop tier.start).take tier.count).map Prod.snd)) where
  start := by
    rw [h.shows.length_eq] at hinside
    simp only [List.length_map, List.length_take]
    omega
  count := by
    rw [h.shows.length_eq] at hinside
    simp only [List.length_map, List.length_take, List.length_drop]
    omega
  before := by
    rw [← List.map_append, ← List.map_append, ← layers_eq tier layers]
    exact h.lists
  sorted := KeyMap.sorted_merged
  newest key := by rw [KeyMap.find?_merged, h.keeps_eq hinside]
  tables := htables
  after := by
    rw [← map_mergedLayers s.nextId, ← List.map_append, ← List.map_append]
    exact h'.lists

/-- After any history of calls that succeed on a directory without tables, a compaction of two or more
tables that succeeds replaces two or more neighbours by their merge. Every lookup then finds what it
found before, and the merge of all tables without the deletions lists what it listed before. -/
theorem compact_replaces_tier {history : List Change} {interval : Nat} {s₀ : Store} {d₀ d₁ : Disk}
    {output : Option Summary} (hempty : Found d dir []) (hopened : load dir interval d = .ok s₀ d₀)
    (hrun : history.forM Change.run (s₀, d₀) = .ok ⟨⟩ (s, d₁))
    (hroom : 2 + history.length < UInt64.size) (htwo : 2 ≤ s.tables.length)
    (hcompact : compact (s, d₁) = .ok output (s', d')) :
    ∃ tier front run back merged,
      Tier.pick? (s.tables.map (·.outline.fileSize)) = some tier ∧ 2 ≤ tier.count ∧
      Replaced s d₁ s' d' tier front run back merged ∧ (output = none ↔ merged = []) ∧
      (∀ key, s'.find d' key = s.find d₁ key) ∧
      ∃ listed,
        Ends (entries false) (s, d₁) (fun l _ => l = listed) (fun e _ => Faulted d₁ e) ∧
        Ends (entries false) (s', d') (fun l _ => l = listed) fun e _ => Faulted d' e := by
  obtain ⟨rfl, -, layers, left, hholds, -, hnumbered⟩ :=
    exists_holds_of_history hempty hopened hrun (by omega)
  have hsizes : (s.tables.map (·.outline.fileSize)).length = s.tables.length := List.length_map _
  obtain ⟨tier, hpick, hmany, hinside⟩ := Tier.exists_pick? (hsizes ▸ htwo)
  rw [hsizes] at hinside
  obtain ⟨-, -, -, htables, houtput, left', hholds', -⟩ :=
    (ends_compact_tier hholds (by omega) hpick).of_ok hcompact
  have hvalue (key : Bytes) := (Merged.intro (n := s.nextId) (layers.take tier.start)
    ((layers.drop tier.start).take tier.count) (layers.drop (tier.start + tier.count)) (keeps tier s)
    (hholds.keeps_or tier)).join_newest? key
  rw [← layers_eq tier layers] at hvalue
  refine ⟨tier, _, _, _, _, hpick, hmany, hholds.replaced hinside hholds' htables, houtput,
    fun key => ?_, _, ends_entries hholds false, ?_⟩
  · rw [hholds'.find, hholds.find, hvalue key]
  · rw [← KeyMap.merged_false_eq_iff.2 hvalue]
    exact ends_entries hholds' false

/-- Two small tables over a large one, whose value of a key they delete. -/
def covered : List Change :=
  [.flush [([107], some [97]), ([108], some []), ([109], some []), ([110], some [])],
    .flush [([107], none)], .flush [([106], some [1])]]

theorem ends_covered :
    Ends (load "/store" 1) {}
      (fun s₀ d₀ => Ends (covered.forM Change.run) (s₀, d₀)
        (fun _ t => 2 ≤ t.1.tables.length ∧ t.1.find t.2 [107] = .ok none ∧
          Ends compact t (fun output _ => output.isSome = true) fun _ _ => False)
        fun _ _ => False)
      fun _ _ => False := by decide +kernel

theorem compact_replaces_tier_covered :
    ∃ s d s' d' tier front run back merged, Replaced s d s' d' tier front run back merged ∧
      2 ≤ tier.count ∧ merged ≠ [] ∧ s'.find d' [107] = .ok none := by
  obtain ⟨s₀, d₀, hopened, hends⟩ := ends_covered.exists_ok fun _ _ hf => hf
  obtain ⟨_, ⟨s, d⟩, hrun, htwo, hfind, hends⟩ := hends.exists_ok fun _ _ hf => hf
  obtain ⟨output, ⟨s', d'⟩, hcompact, hsome⟩ := hends.exists_ok fun _ _ hf => hf
  obtain ⟨tier, front, run, back, merged, -, hmany, hreplaced, houtput, hsame, -⟩ :=
    compact_replaces_tier found_empty hopened hrun (by decide) htwo hcompact
  refine ⟨s, d, s', d', tier, front, run, back, merged, hreplaced, hmany, fun hnil => ?_, ?_⟩
  · rw [houtput.2 hnil] at hsome
    cases hsome
  · rw [hsame, hfind]

end Store

end Spillway
