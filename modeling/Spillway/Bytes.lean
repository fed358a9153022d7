/-!
# Byte strings

Keys, values and the contents of files are lists of bytes. Their order is the order `<` of lists:
byte by byte from the left, a proper prefix first.
-/

namespace Spillway

abbrev Bytes := List UInt8

namespace Bytes

/-- The first `n` bytes and the rest, or `none` when there are fewer than `n`. -/
def split? (n : Nat) (bytes : Bytes) : Option (Bytes × Bytes) :=
  let head := bytes.take n
  if head.length = n then some (head, bytes.drop n) else none

theorem split?_eq_some_iff {n : Nat} {bytes head rest : Bytes} :
    split? n bytes = some (head, rest) ↔ bytes = head ++ rest ∧ head.length = n := by
  simp only [split?, Option.ite_none_right_eq_some, Option.some.injEq, Prod.mk.injEq]
  constructor
  · rintro ⟨hn, rfl, rfl⟩
    exact ⟨(List.take_append_drop n bytes).symm, hn⟩
  · rintro ⟨rfl, rfl⟩
    simp

theorem split?_eq_none_iff {n : Nat} {bytes : Bytes} :
    split? n bytes = none ↔ bytes.length < n := by
  simp only [split?, ite_eq_right_iff, reduceCtorEq, imp_false, List.length_take]
  omega

theorem split?_append {head rest : Bytes} :
    split? head.length (head ++ rest) = some (head, rest) :=
  split?_eq_some_iff.2 ⟨rfl, rfl⟩

end Bytes

end Spillway
