import Mathlib.Data.Finset.Card
import Spillway.Dedup
import Spillway.Proofs.Row.Decoding
import Spillway.Proofs.SpillMap.Calls
import Spillway.Proofs.Table.Size

/-!
# Lines and their entries

Each line has a key of its own in the set (`lineKey_injective`), and the entries of all lines of an
input fit into one table (`not_oversized_lines`).
-/

namespace Spillway.Dedup

open Table

/-! ## Lines -/

theorem length_chomp_le (line : Bytes) : (chomp line).length ≤ line.length := by
  unfold chomp
  split
  · rw [List.length_dropLast]
    omega
  · exact Nat.le_refl _

theorem sum_length_linesFrom_le (line input : Bytes) :
    ((linesFrom line input).map fun line => line.length + 1).sum ≤ line.length + input.length + 1 := by
  induction input generalizing line with
  | nil =>
    rw [linesFrom]
    split
    · exact Nat.zero_le _
    · simp
  | cons b rest ih =>
    rw [linesFrom]
    split
    · have hrest := ih []
      have hline := length_chomp_le line.reverse
      rw [List.length_reverse] at hline
      simp only [List.map_cons, List.sum_cons, List.length_cons, List.length_nil] at hrest ⊢
      omega
    · have hrest := ih (b :: line)
      simp only [List.length_cons] at hrest ⊢
      omega

/-- Lines have no more bytes than the input, with one more for the end of each. -/
theorem sum_length_lines_le (input : Bytes) :
    ((lines input).map fun line => line.length + 1).sum ≤ input.length + 1 := by
  have hsum := sum_length_linesFrom_le [] input
  rwa [List.length_nil, Nat.zero_add] at hsum

theorem length_lines_le (input : Bytes) : (lines input).length ≤ input.length + 1 := by
  have hcount : (lines input).length ≤ ((lines input).map fun line => line.length + 1).sum := by
    induction lines input with
    | nil => exact Nat.zero_le _
    | cons line rest ih =>
      rw [List.length_cons, List.map_cons, List.sum_cons]
      omega
  exact hcount.trans (sum_length_lines_le input)

/-- Bytes without a line feed are one line. -/
theorem linesFrom_of_unended {line input : Bytes} (hne : line ≠ []) (h : ∀ b ∈ input, b ≠ 10) :
    linesFrom line input = [line.reverse ++ input] := by
  induction input generalizing line with
  | nil => rw [linesFrom, if_neg hne, List.append_nil]
  | cons b rest ih =>
    obtain ⟨hb, hrest⟩ := List.forall_mem_cons.1 h
    rw [linesFrom, if_neg hb, ih (List.cons_ne_nil b line) hrest, List.reverse_cons, List.append_assoc]
    rfl

theorem lines_of_unended {b : UInt8} {input : Bytes} (h : ∀ other ∈ b :: input, other ≠ 10) :
    lines (b :: input) = [b :: input] := by
  obtain ⟨hb, hrest⟩ := List.forall_mem_cons.1 h
  rw [lines, linesFrom, if_neg hb, linesFrom_of_unended (List.cons_ne_nil b []) hrest]
  rfl

/-! ## Keys -/

/-- The key of a line in the set. -/
def lineKey (line : Bytes) : Bytes := 1 :: Row.escape line

/-- The entry of a line. -/
def lineEntry (line : Bytes) : Entry := (lineKey line, some [SpillSet.mark])

theorem encode_line (text : String) :
    (Codec.ofSchema lineSchema).encode ⟨[.string text]⟩ = .ok (lineKey (Utf8.encode text)) := by
  have hrow : Row.encode lineSchema ⟨[.string text]⟩ = .ok (lineKey (Utf8.encode text)) := by
    refine Row.encode_eq_ok_iff.2 ⟨.cons ?_ .nil, ?_⟩
    · exact ⟨rfl, nofun⟩
    · rw [List.flatMap_singleton]
      rfl
  show (Row.encode lineSchema ⟨[.string text]⟩).mapError .rowEncode = _
  rw [hrow]
  rfl

theorem encodeEntry_line (text : String) :
    SpillMap.encodeEntry (.ofSchema lineSchema) SpillSet.marks ⟨[.string text]⟩ SpillSet.mark =
      .ok (lineKey (Utf8.encode text), [SpillSet.mark]) := by
  rw [SpillMap.encodeEntry_eq, encode_line]
  rfl

theorem lineKey_injective {line line' : Bytes} (h : lineKey line = lineKey line') : line = line' := by
  have hescape : Row.escape line = Row.escape line' := (List.cons.inj h).2
  have hline := Row.unescape_escape line []
  rw [hescape, Row.unescape_escape] at hline
  cases hline
  rfl

theorem length_escape_le (bytes : Bytes) : (Row.escape bytes).length ≤ 2 * bytes.length + 2 := by
  induction bytes with
  | nil => exact Nat.le_refl _
  | cons b bytes ih =>
    by_cases hb : b = 0
    · rw [hb, Row.escape_zero]
      simp only [List.length_cons]
      omega
    · rw [Row.escape_cons hb]
      simp only [List.length_cons]
      omega

theorem length_le_escape (bytes : Bytes) : bytes.length ≤ (Row.escape bytes).length := by
  induction bytes with
  | nil => exact Nat.zero_le _
  | cons b bytes ih =>
    by_cases hb : b = 0
    · rw [hb, Row.escape_zero]
      simp only [List.length_cons]
      omega
    · rw [Row.escape_cons hb]
      simp only [List.length_cons]
      omega

theorem length_lt_lineKey (line : Bytes) : line.length < (lineKey line).length :=
  Nat.lt_succ_of_le (length_le_escape line)

/-- A zero byte takes two, and each entry has two headers. -/
theorem share_lineEntry_le (line : Bytes) : share (lineEntry line) ≤ 27 * (line.length + 1) := by
  have hescape := length_escape_le line
  simp only [share, lineEntry, length_entryBytes, lineKey, Memtable.footprint, entryHeaderSize,
    List.length_cons, List.length_nil, Option.map_some, Option.getD_some]
  omega

/-- How long an input may be for its lines to fit into one table. -/
def maxInput : Nat := 2 ^ 58

theorem not_oversized_lines {input : Bytes} (h : input.length ≤ maxInput) :
    ¬ Oversized (· ∈ (lines input).map lineEntry) := by
  refine not_oversized ?_
  have hshares : (((lines input).map lineEntry).map share).sum ≤
      27 * ((lines input).map fun line => line.length + 1).sum := by
    rw [List.map_map]
    induction lines input with
    | nil => exact Nat.zero_le _
    | cons line rest ih =>
      have hline := share_lineEntry_le line
      simp only [List.map_cons, List.sum_cons, Function.comp_apply] at ih ⊢
      omega
  have hlines := sum_length_lines_le input
  unfold maxInput at h
  unfold headerSize footerSize Disk.maxFileBytes
  omega

/-! ## First appearances -/

/-- A line that comes again is left out. -/
theorem eraseDups_concat (seen : List Bytes) (line : Bytes) :
    (seen ++ [line]).eraseDups = seen.eraseDups ++ if line ∈ seen then [] else [line] := by
  rw [List.eraseDups_append]
  by_cases h : line ∈ seen <;> simp [List.removeAll, h, List.eraseDups_cons]

theorem nodup_eraseDups (seen : List Bytes) : seen.eraseDups.Nodup := by
  induction seen using List.reverseRecOn with
  | nil => exact List.nodup_nil
  | append_singleton seen line ih =>
    rw [eraseDups_concat]
    split
    · rwa [List.append_nil]
    · next h =>
      refine List.nodup_append.2 ⟨ih, List.nodup_singleton line, ?_⟩
      intro other hother same hsame heq
      rw [List.mem_singleton.1 hsame] at heq
      exact h (List.mem_eraseDups.1 (heq ▸ hother))

theorem length_eraseDups (seen : List Bytes) : seen.eraseDups.length = seen.toFinset.card := by
  rw [← List.toFinset_card_of_nodup (nodup_eraseDups seen)]
  congr 1
  ext line
  rw [List.mem_toFinset, List.mem_toFinset, List.mem_eraseDups]

end Spillway.Dedup
