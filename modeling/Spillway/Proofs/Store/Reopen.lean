import Mathlib.Data.List.Nodup
import Spillway.Proofs.Store.Load

/-!
# Reopening a store

The tables of a store are in the order of their age, those of a store that is opened in the order of
their numbers. A table that takes the place of a tier has the largest number but the age of the tier,
so the two orders may differ. What a store holds survives exactly when, of the table files that know a
key, the one with the largest number says what the store says (`reopened_iff`).
-/

namespace Spillway

open Table

namespace Store

variable {s s' : Store} {d d' : Disk} {dir : Path} {place : Location} {files layers left : List Layer}
  {key : Bytes} {v : Option Bytes}

/-! ## Histories -/

/-- A call that changes the tables of a store. -/
inductive Change where
  /-- Flushes a memtable after some writes to it. -/
  | flush (writes : List Entry)
  | compact

/-- A memtable after some writes. -/
def filled (writes : List Entry) : Memtable :=
  writes.foldl (fun m entry => m.write entry.1 entry.2) {}

def Change.run : Change → StoreM Unit
  | flush writes => discard (Store.flush (filled writes))
  | compact => discard Store.compact

theorem sorted_filled (writes : List Entry) : KeyMap.Sorted (filled writes).entries := by
  have hfold : ∀ m : Memtable, KeyMap.Sorted m.entries →
      KeyMap.Sorted (writes.foldl (fun m entry => m.write entry.1 entry.2) m).entries := by
    induction writes with
    | nil => exact fun m hm => hm
    | cons entry writes ih => exact fun m hm => ih _ hm.insert
  exact hfold {} KeyMap.sorted_nil

/-- An empty memtable is not flushed. -/
theorem ends_flush_empty {m : Memtable} (hm : m.isEmpty = true) :
    Ends (flush m) (s, d) (fun _ _ => False) fun _ _ => True := by
  unfold flush
  rw [if_pos hm]
  exact Ends.bind (M := fun _ _ => False) (Ends.throw trivial) fun _ _ hf => hf.elim

/-- The numbers of the tables fall with their age, and no table was left behind. -/
def InOrder (layers left : List Layer) : Prop :=
  left = [] ∧ layers.Pairwise fun a b => b.1 ≤ a.1

/-- A change uses up one number at most. A flush keeps the tables in order, for its table is the
newest and has the largest number. -/
theorem ends_change (change : Change) (h : s.Holds d place layers left)
    (hid : s.nextId.toNat + 1 < UInt64.size) :
    Ends change.run (s, d)
      (fun _ t => t.1.dir = s.dir ∧ t.1.nextId.toNat ≤ s.nextId.toNat + 1 ∧ Disk.Later d t.2 ∧
        ∃ layers' left', t.1.Holds t.2 place layers' left' ∧
          (change ≠ .compact → InOrder layers left → InOrder layers' left'))
      fun _ _ => True := by
  have hsucc : (s.nextId + 1).toNat ≤ s.nextId.toNat + 1 := (toNat_add_one hid).le
  cases change with
  | flush writes =>
    by_cases hm : (filled writes).isEmpty = true
    · exact Ends.bind (ends_flush_empty hm) fun _ _ hf => hf.elim
    · refine Ends.bind ((ends_flush h hid (Bool.eq_false_iff.2 hm) (sorted_filled writes)).imp_fail
        fun _ _ _ => trivial) ?_
      rintro _ t ⟨hdir, hnext, hholds, hlater⟩
      refine Ends.pure ⟨hdir, hnext ▸ hsucc, hlater, _, _, hholds, fun _ horder => ⟨horder.1, ?_⟩⟩
      refine List.pairwise_cons.2 ⟨fun layer hmem => UInt64.le_of_lt ?_, horder.2⟩
      exact h.used layer (List.mem_append_left left hmem)
  | compact =>
    refine Ends.bind ((ends_compact h hid).imp_fail fun _ _ _ => trivial) ?_
    rintro _ t ⟨hdir, hlater, layers', left', hholds, -, hnext⟩
    refine Ends.pure ⟨hdir, ?_, hlater, _, _, hholds, fun hne _ => absurd rfl hne⟩
    rcases hnext with ⟨hsame, -⟩ | ⟨hnew, -⟩
    · rw [hsame]
      exact Nat.le_succ _
    · rw [hnew]
      exact hsucc

theorem ends_changes (history : List Change) (h : s.Holds d place layers left)
    (hroom : s.nextId.toNat + history.length < UInt64.size) :
    Ends (history.forM Change.run) (s, d)
      (fun _ t => t.1.dir = s.dir ∧ t.1.nextId.toNat ≤ s.nextId.toNat + history.length ∧
        Disk.Later d t.2 ∧ ∃ layers' left', t.1.Holds t.2 place layers' left' ∧
          ((∀ change ∈ history, change ≠ .compact) → InOrder layers left → InOrder layers' left'))
      fun _ _ => True := by
  induction history generalizing s d layers left with
  | nil => exact Ends.pure ⟨rfl, Nat.le_refl _, Disk.later_refl d, _, _, h, fun _ horder => horder⟩
  | cons change history ih =>
    rw [List.length_cons] at hroom
    refine Ends.bind (ends_change change h (by omega)) ?_
    rintro _ ⟨s₁, d₁⟩ ⟨hdir, hnext, hlater, layers₁, left₁, hholds, horder⟩
    dsimp only at hdir hnext hlater hholds
    refine (ih hholds (by omega)).imp ?_
    rintro _ t ⟨hdir₁, hnext₁, hlater₁, layers₂, left₂, hholds₁, horder₁⟩
    refine ⟨hdir₁.trans hdir, ?_, hlater.trans hlater₁, layers₂, left₂, hholds₁, fun hflush hstart => ?_⟩
    · rw [List.length_cons]
      omega
    rw [List.forall_mem_cons] at hflush
    exact horder₁ hflush.2 (horder hflush.1 hstart)

/-- A history of a store that was opened in a directory without tables. -/
theorem exists_holds_of_history {history : List Change} {interval : Nat} {s₀ : Store} {d₀ d₁ : Disk}
    (hempty : Found d dir []) (hopened : load dir interval d = .ok s₀ d₀)
    (hrun : history.forM Change.run (s₀, d₀) = .ok ⟨⟩ (s, d₁))
    (hroom : 1 + history.length < UInt64.size) :
    s.dir = dir ∧ d₁.TidyAt (Disk.target dir) ∧
      ∃ layers left, s.Holds d₁ (Disk.target dir) layers left ∧
        ((∀ change ∈ history, change ≠ .compact) → InOrder layers left) ∧
        s.nextId.toNat ≤ 1 + history.length := by
  obtain ⟨rfl, hnext, hholds₀, hlater₀⟩ :=
    (ends_load hempty (fun _ hmem => absurd hmem List.not_mem_nil) interval).of_ok hopened
  have hone : s₀.nextId.toNat = 1 := by
    rw [hnext, byNumber, List.mergeSort_nil]
    rfl
  obtain ⟨hdir, hnumbered, hlater, layers, left, hholds, horder⟩ :=
    (ends_changes history hholds₀ (by omega)).of_ok hrun
  rw [hone] at hnumbered
  refine ⟨hdir, hlater.tidy _ (hlater₀.tidy _ hempty.tidy), layers, left, hholds, fun hflush => ?_,
    hnumbered⟩
  rw [byNumber, List.mergeSort_nil] at horder
  exact horder hflush ⟨rfl, .nil⟩

/-! ## What reopening finds -/

/-- A store is found again where it was, with the tables that were left behind. -/
theorem Holds.found (h : s.Holds d (Disk.target s.dir) layers left)
    (htidy : d.TidyAt (Disk.target s.dir)) : Found d s.dir (layers ++ left) where
  stored layer hmem := by
    rcases List.mem_append.1 hmem with hmem | hmem
    · exact stored_of_shows h.shows layer hmem
    · exact h.stored layer hmem
  distinct := h.distinct
  known := h.known
  tidy := htidy
  way name id _ hmem := by
    rw [h.opens.directory_of_trail _ hmem]
    exact nofun

theorem Found.mem_iff (h : Found d dir files) {layer : Layer} :
    layer ∈ files ↔ Stored d (Disk.target dir) layer := by
  constructor
  · exact h.stored layer
  · rintro ⟨file, hnode, -, hfile⟩
    obtain ⟨other, hmem, hname⟩ := h.known _ _ _ (tableId?_tableName layer.1) hnode
    obtain ⟨file', hnode', -, hfile'⟩ := h.stored other hmem
    have hid := tableName_inj hname
    rw [← hid, hnode, Option.some.injEq, Node.file.injEq] at hnode'
    subst hnode'
    have hsame : layer = other := Prod.ext hid (hfile.eq hfile')
    rwa [hsame]

/-- Of the table files that know a key, the one with the largest number says this of it. -/
def Latest (d : Disk) (place : Location) (key : Bytes) (v : Option Bytes) : Prop :=
  ∃ layer, Stored d place layer ∧ KeyMap.find? layer.2 key = some v ∧
    ∀ other, Stored d place other → KeyMap.find? other.2 key ≠ none → other.1 ≤ layer.1

theorem Found.latest_of_newest? (h : Found d dir files)
    (hnewest : KeyMap.newest? ((byNumber files).map Prod.snd) key = some v) :
    Latest d (Disk.target dir) key v := by
  have hsorted := pairwise_byNumber files
  rw [KeyMap.newest?, List.findSome?_map, List.findSome?_eq_some_iff] at hnewest
  obtain ⟨larger, layer, smaller, hsplit, hlayer, hnone⟩ := hnewest
  have hmem : ∀ other, other ∈ larger ++ layer :: smaller ↔ Stored d (Disk.target dir) other := by
    intro other
    rw [← hsplit, (byNumber_perm files).mem_iff, h.mem_iff]
  rw [hsplit, List.pairwise_append, List.pairwise_cons] at hsorted
  refine ⟨layer, (hmem layer).1 (by simp), hlayer, fun other hstored hknows => ?_⟩
  rcases List.mem_append.1 ((hmem other).2 hstored) with hlarger | hrest
  · exact absurd (hnone other hlarger) hknows
  · rcases List.mem_cons.1 hrest with rfl | hsmaller
    · exact UInt64.le_refl _
    · exact hsorted.2.1.1 other hsmaller

/-- The largest number among the table files that know a key belongs to one file. -/
theorem Found.latest_unique (h : Found d dir files) {v' : Option Bytes}
    (hv : Latest d (Disk.target dir) key v) (hv' : Latest d (Disk.target dir) key v') : v = v' := by
  obtain ⟨layer, hstored, hfind, hmax⟩ := hv
  obtain ⟨layer', hstored', hfind', hmax'⟩ := hv'
  have hid : layer.1 = layer'.1 := UInt64.le_antisymm
    (hmax' layer hstored (by rw [hfind]; exact nofun))
    (hmax layer' hstored' (by rw [hfind']; exact nofun))
  have hsame := List.inj_on_of_nodup_map h.distinct (h.mem_iff.2 hstored) (h.mem_iff.2 hstored') hid
  rw [hsame, hfind'] at hfind
  exact (Option.some.inj hfind).symm

/-- What the tables say of each key when they are in the order of their numbers. -/
theorem Found.newest?_iff (h : Found d dir files) :
    KeyMap.newest? ((byNumber files).map Prod.snd) key = some v ↔
      Latest d (Disk.target dir) key v := by
  refine ⟨h.latest_of_newest?, fun hlatest => ?_⟩
  cases hnewest : KeyMap.newest? ((byNumber files).map Prod.snd) key with
  | some v' => rw [h.latest_unique (h.latest_of_newest? hnewest) hlatest]
  | none =>
    obtain ⟨layer, hstored, hfind, -⟩ := hlatest
    rw [KeyMap.newest?, List.findSome?_map, List.findSome?_eq_none_iff] at hnewest
    have hnone := hnewest layer ((byNumber_perm files).mem_iff.2 (h.mem_iff.2 hstored))
    rw [Function.comp_apply, hfind] at hnone
    cases hnone

/-! ## Reopening -/

/-- What the table file with the largest number says of a key is what the store says. -/
def Faithful (s : Store) (d : Disk) : Prop :=
  ∀ key v, Latest d (Disk.target s.dir) key v → s.find d key = .ok v

theorem Holds.faithful_iff (h : s.Holds d (Disk.target s.dir) layers left)
    (htidy : d.TidyAt (Disk.target s.dir)) :
    s.Faithful d ↔ ∀ key, (KeyMap.newest? ((byNumber (layers ++ left)).map Prod.snd) key).join =
      (KeyMap.newest? (layers.map Prod.snd) key).join := by
  have hfound := h.found htidy
  constructor
  · intro hfaithful key
    cases hnewest : KeyMap.newest? ((byNumber (layers ++ left)).map Prod.snd) key with
    | some v =>
      have hfind := hfaithful key v (hfound.newest?_iff.1 hnewest)
      rw [h.find, Except.ok.injEq] at hfind
      exact hfind.symm
    | none =>
      rw [KeyMap.newest?, List.findSome?_map, List.findSome?_eq_none_iff] at hnewest
      have hnone : KeyMap.newest? (layers.map Prod.snd) key = none := by
        rw [KeyMap.newest?, List.findSome?_map, List.findSome?_eq_none_iff]
        exact fun layer hmem => hnewest layer
          ((byNumber_perm _).mem_iff.2 (List.mem_append_left left hmem))
      rw [hnone]
  · intro hsame key v hlatest
    rw [h.find, ← hsame key, hfound.newest?_iff.2 hlatest]
    rfl

/-- A store that is opened again has all tables that its directory has; only a fault of the disk
keeps it from that. -/
theorem ends_reload (h : s.Holds d (Disk.target s.dir) layers left)
    (htidy : d.TidyAt (Disk.target s.dir)) (interval : Nat) :
    Ends (load s.dir interval) d
      (fun s' d' => s'.Holds d' (Disk.target s.dir) (byNumber (layers ++ left)) [] ∧ Disk.Later d d')
      fun e _ => Faulted d e := by
  have hroom : ∀ layer ∈ layers ++ left, layer.1.toNat + 1 < UInt64.size := by
    intro layer hmem
    have hused := UInt64.lt_iff_toNat_lt.1 (h.used layer hmem)
    have hsize := s.nextId.toNat_lt_size
    omega
  refine (ends_load (h.found htidy) hroom interval).mono ?_ fun e _ he =>
    he.faulted h.opens.not_obstructed
  rintro s' d' ⟨-, -, hholds, hlater⟩
  exact ⟨hholds, hlater⟩

/-- The merge of all tables. -/
theorem ends_entries (h : s.Holds d place layers left) (keepDeletions : Bool) :
    Ends (entries keepDeletions) (s, d)
      (fun listed _ => listed = (KeyMap.merged keepDeletions (layers.map Prod.snd)).map .ok)
      fun e _ => Faulted d e := by
  unfold entries
  refine Ends.bind ((ends_allCursors h.opens h.shows).imp_fail ?_) ?_
  · rintro e _ ⟨d', -, -, he⟩
    exact he
  rintro cursors _ ⟨d₁, rfl, -, hreads⟩
  obtain ⟨m, hstart, hlist⟩ := exists_merge hreads (sorted_of_shows h.shows) keepDeletions
  refine ends_get_bind (Ends.bind (M := fun merge t => merge = m ∧ t = (s, d₁)) ?_ ?_)
  · rw [hstart]
    exact Ends.pure ⟨rfl, rfl⟩
  · rintro _ _ ⟨rfl, rfl⟩
    exact Ends.pure (hlist d₁ (Disk.later_refl d₁))

theorem Holds.faithful_of_inOrder (h : s.Holds d (Disk.target s.dir) layers left)
    (htidy : d.TidyAt (Disk.target s.dir)) (horder : InOrder layers left) : s.Faithful d := by
  obtain ⟨rfl, hsorted⟩ := horder
  have hsame : byNumber (layers ++ []) = layers := by
    rw [List.append_nil, byNumber]
    exact List.mergeSort_of_pairwise (hsorted.imp fun hle => decide_eq_true hle)
  refine (h.faithful_iff htidy).2 fun key => ?_
  rw [hsame]

/-- After any history of calls that succeed on a directory without tables, a store that is opened
again answers every lookup as before, and its merge has the same entries, exactly when, for each key,
the table file with the largest number says what the store says. -/
theorem reopened_iff {history : List Change} {interval interval' : Nat} {s₀ : Store} {d₀ d₁ : Disk}
    (hempty : Found d dir []) (hopened : load dir interval d = .ok s₀ d₀)
    (hrun : history.forM Change.run (s₀, d₀) = .ok ⟨⟩ (s, d₁))
    (hroom : 1 + history.length < UInt64.size) :
    Ends (load dir interval') d₁
      (fun s' d' => ((∀ key, s'.find d' key = s.find d₁ key) ↔ s.Faithful d₁) ∧
        ∃ listed listed',
          Ends (entries false) (s, d₁) (fun l _ => l = listed) (fun e _ => Faulted d₁ e) ∧
          Ends (entries false) (s', d') (fun l _ => l = listed') (fun e _ => Faulted d₁ e) ∧
          (listed' = listed ↔ s.Faithful d₁))
      fun e _ => Faulted d₁ e := by
  obtain ⟨rfl, htidy, layers, left, hholds, -⟩ := exists_holds_of_history hempty hopened hrun hroom
  have hfaithful := hholds.faithful_iff htidy
  refine (ends_reload hholds htidy interval').imp ?_
  rintro s' d' ⟨hholds', hlater'⟩
  refine ⟨?_, _, _, ends_entries hholds false,
    (ends_entries hholds' false).imp_fail fun e _ he => he.mono hlater', ?_⟩
  · rw [hfaithful]
    refine forall_congr' fun key => ?_
    rw [hholds.find, hholds'.find, Except.ok.injEq]
  · rw [hfaithful, ← KeyMap.merged_false_eq_iff]
    exact (List.map_injective_iff.2 fun _ _ => Except.ok.inj).eq_iff

/-- Nothing is lost as long as no tables are merged. -/
theorem faithful_of_flushes {history : List Change} {interval : Nat} {s₀ : Store} {d₀ d₁ : Disk}
    (hempty : Found d dir []) (hopened : load dir interval d = .ok s₀ d₀)
    (hrun : history.forM Change.run (s₀, d₀) = .ok ⟨⟩ (s, d₁))
    (hroom : 1 + history.length < UInt64.size) (hflush : ∀ change ∈ history, change ≠ .compact) :
    s.Faithful d₁ := by
  obtain ⟨rfl, htidy, layers, left, hholds, horder, -⟩ :=
    exists_holds_of_history hempty hopened hrun hroom
  exact hholds.faithful_of_inOrder htidy (horder hflush)

/-! ## A store that loses a write -/

/-- Two tables are merged behind a newer one; their merge has a larger number. -/
def overtaken : List Change :=
  [.flush [([107], some [97])], .flush [([107], some [98])],
    .flush [([107], some [99]), ([108], some []), ([109], some []), ([110], some [])], .compact]

theorem ends_overtaken :
    Ends (load "/store" 1) {}
      (fun s₀ d₀ => Ends (overtaken.forM Change.run) (s₀, d₀)
        (fun _ t => t.1.find t.2 [107] = .ok (some [99]) ∧ Ends (load "/store" 1) t.2
          (fun s' d' => s'.find d' [107] = .ok (some [98])) fun _ _ => False)
        fun _ _ => False)
      fun _ _ => False := by decide +kernel

/-- The value that was put last is not found any more. -/
theorem find_reopened_overtaken :
    ∃ s₀ d₀ s d s' d', load "/store" 1 {} = .ok s₀ d₀ ∧
      overtaken.forM Change.run (s₀, d₀) = .ok ⟨⟩ (s, d) ∧ load "/store" 1 d = .ok s' d' ∧
      s.find d [107] = .ok (some [99]) ∧ s'.find d' [107] = .ok (some [98]) := by
  obtain ⟨s₀, d₀, hopened, hends⟩ := ends_overtaken.exists_ok fun _ _ hf => hf
  obtain ⟨_, ⟨s, d⟩, hrun, hfind, hends⟩ := hends.exists_ok fun _ _ hf => hf
  obtain ⟨s', d', hreopened, hfind'⟩ := hends.exists_ok fun _ _ hf => hf
  exact ⟨s₀, d₀, s, d, s', d', hopened, hrun, hreopened, hfind, hfind'⟩

theorem found_empty : Found {} "/store" [] :=
  found_of_vacant (fun _ hx => absurd hx List.not_mem_nil) (by decide +kernel)

theorem reopened_iff_overtaken : ∃ s₀ d₀ s d, load "/store" 1 {} = .ok s₀ d₀ ∧
    overtaken.forM Change.run (s₀, d₀) = .ok ⟨⟩ (s, d) ∧ ¬ s.Faithful d := by
  obtain ⟨s₀, d₀, hopened, hends⟩ := ends_overtaken.exists_ok fun _ _ hf => hf
  obtain ⟨_, ⟨s, d⟩, hrun, hfind, hends⟩ := hends.exists_ok fun _ _ hf => hf
  obtain ⟨s', d', hreopened, hfind'⟩ := hends.exists_ok fun _ _ hf => hf
  have hiff := ((reopened_iff found_empty hopened hrun (by decide)).of_ok hreopened).1
  refine ⟨s₀, d₀, s, d, hopened, hrun, fun hfaithful => ?_⟩
  have hsame := hiff.2 hfaithful [107]
  rw [hfind', hfind] at hsame
  cases hsame

end Store

end Spillway
