import Spillway.Proofs.Table.RoundTrip

/-!
# Lookups in a table

A lookup goes through the sparse index of a table and reads a few of its entries. It answers what
reading all entries from the first on would answer (`find_eq_scan`), and the ranges that a reader and
a summary know of are those of the keys that were written.
-/

namespace Spillway.Table

variable {d : Disk} {path : Path} {place : Location} {entries : List Entry} {key : Bytes}

/-- Reads entries from the first on until the key is found. -/
def scan (key : Bytes) : List Entry → Except StorageError (Option Bytes)
  | [] => .error .keyNotFound
  | entry :: rest => if entry.1 = key then .ok entry.2 else scan key rest

/-- There are entries, and the key is neither before the first nor behind the last of them. -/
def InRange (entries : List Entry) (key : Bytes) : Prop :=
  ∃ first last, entries.head? = some first ∧ entries.getLast? = some last ∧
    first.1 ≤ key ∧ key ≤ last.1

theorem scan_eq_answer (key : Bytes) (entries : List Entry) :
    scan key entries = Outline.answer (KeyMap.find? entries key) := by
  induction entries with
  | nil => rfl
  | cons entry rest ih =>
    rw [scan, KeyMap.find?_cons, ih]
    by_cases hkey : entry.1 = key
    · rw [if_pos hkey, if_pos hkey.symm]
      rfl
    · rw [if_neg hkey, if_neg (Ne.symm hkey)]

/-- The first and the last key, each with a bound on the other side, make the range. -/
theorem inRange_iff : InRange entries key ↔
    (match entries.head?.map Prod.fst, entries.getLast?.map Prod.fst with
      | some least, some greatest => decide (least ≤ key) && decide (key ≤ greatest)
      | _, _ => false) = true := by
  unfold InRange
  cases entries.head? <;> cases entries.getLast? <;> simp

theorem Outline.mightContain_ofEntries (interval : Nat) (entries : List Entry) (key : Bytes) :
    (ofEntries interval entries).mightContain key = true ↔ InRange entries key := by
  rw [mightContain, minKey?_ofEntries, maxKey?_ofEntries]
  exact inRange_iff.symm

theorem Summary.mightContain_ofEntries (path : Path) (interval : Nat) (entries : List Entry)
    (key : Bytes) :
    (ofEntries path interval entries).mightContain key = true ↔ InRange entries key := by
  rw [inRange_iff]
  cases entries with
  | nil => rfl
  | cons entry rest => simp [mightContain, ofEntries, List.getLast?_cons]

/-- What the reader of a table says of a key is what all its entries say. -/
theorem Reader.find_of_outline {reader : Reader} {interval : Nat} (hsorted : KeyMap.Sorted entries)
    (hfits : ∀ e ∈ entries, Fits e) (hsmall : (layout interval entries).length ≤ Disk.maxFileBytes)
    (houtline : reader.outline = .ofEntries interval entries)
    (hcontent : d.content reader.file = layout interval entries) (key : Bytes) :
    reader.find d key = scan key entries := by
  rw [Reader.find, houtline, hcontent, Outline.find_layout hsorted hfits hsmall, scan_eq_answer]

/-- A table is written from entries with increasing keys, if it can be: all of them fit, the disk does
not fail and the layout is no more than a file can have. However far apart the samples of its index are, a
lookup of any key then answers like a search through all entries, and the ranges of the summary and of the
reader are those of the entries. -/
theorem find_eq_scan (hl : d.locate path = .ok place) (hw : d.Writable place) (interval : Nat)
    (hsorted : KeyMap.Sorted entries) :
    Ends (Writer.create path interval >>= fun w => w.fill (entries.map .ok)) d
      (fun summary d₁ => (∀ key, summary.mightContain key = true ↔ InRange entries key) ∧
        d₁.faults <:+ d.faults ∧ Ends (Reader.load path) d₁
          (fun reader d₂ => ∀ key, reader.find d₂ key = scan key entries ∧
            (reader.outline.mightContain key = true ↔ InRange entries key))
          fun e _ => Faulted d₁ e)
      fun e _ => (∀ e ∈ entries, Fits e) → Unwritable d (layout (max interval 1) entries) e := by
  refine Ends.bind ((ends_create hl hw interval).imp_fail fun _ _ he _ => .inl he.2) ?_
  rintro _ d₁ ⟨file, rfl, hfind, hfile, hfaults⟩
  refine (ends_fill_sorted (Writer.wrote_nil path file (max interval 1)) hsorted).mono ?_
    fun e _ he hfits => (he hfits).of_suffix hfaults
  rintro summary d₂ ⟨hfits, rfl, hd₂, hsmall⟩
  dsimp only at hd₂ hsmall
  have hfind₂ : d₂.find path = .ok (place, .file file) := by
    rw [hd₂, Disk.find_setContent, Disk.find_tick, hfind]
  have hcontent : d₂.content file = layout (max interval 1) entries := by
    rw [hd₂]
    exact Disk.content_setContent hfile _
  have hfaults₂ : d₂.faults <:+ d.faults := by
    rw [hd₂]
    exact (List.tail_suffix _).trans hfaults
  have hisFile : IsFile entries (d₂.content file) := by
    rw [hcontent]
    exact ⟨hsorted, hfits, hsmall, _, rfl⟩
  refine ⟨Summary.mightContain_ofEntries _ _ entries, hfaults₂, ?_⟩
  refine (ends_load hfind₂ hisFile).mono ?_ fun _ _ he => he.2
  rintro reader d₃ ⟨rfl, -, hreader, ho⟩ key
  rw [hcontent, Outline.ofBytes_layout _ _ hfits hsmall, Except.ok.injEq] at ho
  refine ⟨Reader.find_of_outline hsorted hfits hsmall ho.symm ?_ key, ?_⟩
  · rw [hreader, ← hcontent]
    rfl
  · rw [← ho, Outline.mightContain_ofEntries]

/-- Four entries. The index of a table with two of them for each sample lists all but the second. -/
def sparse : List Entry := [([1], some [7]), ([2], none), ([2, 0], some []), ([4], some [8])]

/-- Keys before the first entry, at a deletion between two samples, between the last two samples, at the
last entry and behind it. -/
theorem find_eq_scan_sparse :
    ∃ summary d₁ reader d₂,
      (Writer.create "t.sst" 2 >>= fun w => w.fill (sparse.map .ok)) {} = .ok summary d₁ ∧
      summary.mightContain [3] = true ∧ summary.mightContain [6] ≠ true ∧
      Reader.load "t.sst" d₁ = .ok reader d₂ ∧ reader.find d₂ [] = .error .keyNotFound ∧
      reader.find d₂ [2] = .ok none ∧ reader.find d₂ [3] = .error .keyNotFound ∧
      reader.find d₂ [4] = .ok (some [8]) ∧ reader.find d₂ [6] = .error .keyNotFound ∧
      reader.outline.mightContain [6] ≠ true := by
  have hplace : ({} : Disk).locate "t.sst" = .ok ["t.sst"] := by decide +kernel
  have hwritable : ({} : Disk).Writable ["t.sst"] := fun node hnode => by cases hnode
  have hsorted : KeyMap.Sorted sparse := by
    unfold KeyMap.Sorted
    decide
  have hfits : ∀ e ∈ sparse, Fits e := by
    unfold Fits
    decide
  have hsmall : (layout (max 2 1) sparse).length ≤ Disk.maxFileBytes := by decide +kernel
  have hinside : InRange sparse [3] := inRange_iff.2 (by decide)
  have houtside : ¬ InRange sparse [6] := by
    rw [inRange_iff]
    decide
  obtain ⟨summary, d₁, hwritten, hrange, hfaults, hload⟩ :=
    (find_eq_scan hplace hwritable 2 hsorted).exists_ok fun _ _ he =>
      not_unwritable rfl hsmall (he hfits)
  obtain ⟨reader, d₂, hloaded, hreader⟩ :=
    hload.exists_ok fun _ _ => not_faulted (List.suffix_nil.1 hfaults)
  exact ⟨summary, d₁, reader, d₂, hwritten, (hrange [3]).2 hinside, (hrange [6]).not.2 houtside,
    hloaded, (hreader []).1, (hreader [2]).1, (hreader [3]).1, (hreader [4]).1, (hreader [6]).1,
    (hreader [6]).2.not.2 houtside⟩

end Spillway.Table
