import Mathlib.Data.List.Basic
import Spillway.Proofs.Disk.Tree
import Spillway.Store.Name

/-!
# Names of tables are read back

The name of a table spells its number (`tableId?_tableName`), so different tables have different
names.
-/

namespace Spillway

namespace Numeral

theorem digit?_of_isDigit {c : Char} (h : c.isDigit = true) :
    digit? c = some (c.toNat - '0'.toNat) := by
  unfold digit?
  rw [Char.isDigit, Bool.and_eq_true, decide_eq_true_eq, decide_eq_true_eq] at h
  exact if_pos h

theorem digitsFrom?_eq {digits : List Char} (h : ∀ c ∈ digits, c.isDigit = true) (n : Nat) :
    digitsFrom? n digits = some (Nat.ofDigitChars 10 digits n) := by
  induction digits generalizing n with
  | nil => rfl
  | cons c digits ih =>
    rw [List.forall_mem_cons] at h
    rw [digitsFrom?, digit?_of_isDigit h.1, Nat.ofDigitChars_cons]
    exact ih h.2 _

theorem unsigned?_cons {bound : Nat} {c : Char} (hplus : c ≠ '+') (rest : List Char) :
    unsigned? bound (c :: rest) = (digitsFrom? 0 (c :: rest)).filter (· < bound) := by
  simp [unsigned?, hplus]

/-- A number that is filled up with zeros is read back. -/
theorem unsigned?_padded {bound width n : Nat} (h : n < bound) :
    unsigned? bound (padded 10 width n).toList = some n := by
  rw [padded, String.toList_ofList]
  have hdigits : ∀ c ∈ List.replicate (width - (Nat.toDigits 10 n).length) '0' ++
      Nat.toDigits 10 n, c.isDigit = true := by
    intro c hc
    rcases List.mem_append.1 hc with hc | hc
    · rw [(List.mem_replicate.1 hc).2]
      rfl
    · exact Nat.isDigit_of_mem_toDigits (by decide) (by decide) hc
  have hvalue : Nat.ofDigitChars 10 (List.replicate (width - (Nat.toDigits 10 n).length) '0' ++
      Nat.toDigits 10 n) 0 = n := by
    rw [Nat.ofDigitChars_append, Nat.ofDigitChars_replicate_zero, Nat.mul_zero,
      Nat.ofDigitChars_toDigits (by decide) (by decide)]
  generalize hall : List.replicate (width - (Nat.toDigits 10 n).length) '0' ++ Nat.toDigits 10 n =
    digits at hdigits hvalue
  cases digits with
  | nil => exact absurd (List.append_eq_nil_iff.1 hall).2 Nat.toDigits_ne_nil
  | cons c rest =>
    have hplus : c ≠ '+' := by
      rintro rfl
      exact absurd (hdigits _ List.mem_cons_self) (by decide)
    have hread : digitsFrom? 0 (c :: rest) = some n := by rw [digitsFrom?_eq hdigits, hvalue]
    rw [unsigned?_cons hplus, hread, Option.filter_some, if_pos (decide_eq_true h)]

end Numeral

namespace Store

theorem tableId?_tableName (id : UInt64) : tableId? (tableName id) = some id := by
  have hname : (tableName id).toList =
      "sstable_".toList ++ ((Numeral.padded 10 6 id.toNat).toList ++ ".sst".toList) := by
    rw [tableName, String.toList_append, String.toList_append, List.append_assoc]
  have hfront : "sstable_".toList.isPrefixOf? (tableName id).toList =
      some ((Numeral.padded 10 6 id.toNat).toList ++ ".sst".toList) := by
    rw [hname, List.isPrefixOf?_eq_some_iff_append_eq]
  have hback : ".sst".toList.isSuffixOf?
      ((Numeral.padded 10 6 id.toNat).toList ++ ".sst".toList) =
        some (Numeral.padded 10 6 id.toNat).toList := by
    rw [List.isSuffixOf?_eq_some_iff_append_eq]
  rw [tableId?, hfront]
  simp only [hback]
  rw [Numeral.unsigned?_padded id.toNat_lt, Option.map_some, UInt64.ofNat_toNat]

theorem tableName_inj {id id' : UInt64} (h : tableName id = tableName id') : id = id' := by
  have := tableId?_tableName id
  rw [h, tableId?_tableName] at this
  exact (Option.some.inj this).symm

theorem plain_tableName (id : UInt64) : Disk.Plain (tableName id) := by
  have hlength : 8 ≤ (tableName id).toList.length := by
    rw [tableName, String.toList_append, String.toList_append, List.length_append,
      List.length_append]
    have : "sstable_".toList.length = 8 := rfl
    omega
  refine ⟨?_, ?_, ?_⟩ <;>
  · intro h
    rw [h] at hlength
    exact absurd hlength (by decide)

end Store

end Spillway
