import Spillway.Text.Numeral

/-!
# Names of table files

A table file is named by the number of its table, in six digits or as many as it takes.
-/

namespace Spillway.Store

def tableName (id : UInt64) : String :=
  "sstable_" ++ Numeral.padded 10 6 id.toNat ++ ".sst"

/-- The number that the name of a file spells, if it is named like a table. -/
def tableId? (name : String) : Option UInt64 :=
  match "sstable_".toList.isPrefixOf? name.toList with
  | none => none
  | some rest =>
    match ".sst".toList.isSuffixOf? rest with
    | none => none
    | some digits => (Numeral.unsigned? UInt64.size digits).map UInt64.ofNat

end Spillway.Store
