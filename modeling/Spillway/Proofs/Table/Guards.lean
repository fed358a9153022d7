import Spillway.Proofs.Table.Reader

/-!
# Opening a file with guards

`Outline.ofBytes` is written with lists and numbers that have no bounds. `Guarded.outline` opens a file
in the same order of steps, but computes with words of 64 bits, cuts slices that have to lie inside their
bytes, reads no more bytes than the file has and goes around each loop a limited number of times. Whatever
the bytes are, none of these guards ever traps, and what comes out is the same (`Guarded.outline_eq`).
-/

namespace Spillway.Table

/-- What a guard finds wrong. -/
inductive Trap where
  /-- A sum or a difference is not a word. -/
  | overflow
  /-- A slice or a position lies outside. -/
  | outside
  /-- There are fewer bytes than are read. -/
  | endOfFile
  /-- A loop goes around too often. -/
  | exhausted
  deriving DecidableEq, Repr

namespace Guarded

variable {a b start stop position count rounds remaining : Nat} {bytes file data : Bytes} {path : Path}

/-! ## Guards -/

def plus (a b : Nat) : Except Trap Nat :=
  if a + b < UInt64.size then .ok (a + b) else .error .overflow

def minus (a b : Nat) : Except Trap Nat :=
  if b ≤ a then .ok (a - b) else .error .overflow

/-- The bytes from one position to another. -/
def slice (bytes : Bytes) (start stop : Nat) : Except Trap Bytes :=
  if start ≤ stop ∧ stop ≤ bytes.length then .ok ((bytes.drop start).take (stop - start))
  else .error .outside

/-- So many bytes of a file from a position on, no fewer. -/
def readAt (file : Bytes) (position count : Nat) : Except Trap Bytes :=
  if position + count ≤ file.length then .ok ((file.drop position).take count)
  else .error .endOfFile

theorem plus_eq (h : a + b < UInt64.size) : plus a b = .ok (a + b) := if_pos h

theorem minus_eq (h : b ≤ a) : minus a b = .ok (a - b) := if_pos h

theorem slice_eq {count : Nat} (h : start + count = stop) (h' : stop ≤ bytes.length) :
    slice bytes start stop = .ok ((bytes.drop start).take count) := by
  subst h
  unfold slice
  rw [if_pos ⟨Nat.le_add_right _ _, h'⟩, Nat.add_sub_cancel_left]

theorem readAt_eq (h : position + count ≤ file.length) :
    readAt file position count = .ok ((file.drop position).take count) := if_pos h

/-- A slice of what was read is a slice of the file. -/
theorem slice_take {n count : Nat} (h : start + count = stop) (hn : stop ≤ n)
    (hfile : n ≤ file.length) :
    slice (file.take n) start stop = .ok ((file.drop start).take count) := by
  rw [slice_eq h (by rw [List.length_take]; omega), List.drop_take, List.take_take,
    Nat.min_eq_left (by omega)]

theorem ok_bind {ε α β : Type} (a : α) (f : α → Except ε β) : (Except.ok a >>= f) = f a := rfl

/-! ## The checksum -/

/-- Takes the checksum of so many bytes from a position on, chunk by chunk. -/
def checksum (file : Bytes) : Nat → Checksum → Nat → Nat → Except Trap Checksum
  | rounds, c, position, remaining =>
    if remaining = 0 then return c
    else
      match rounds with
      | 0 => throw .exhausted
      | rounds + 1 => do
        let count := min remaining Checksum.chunkSize
        let chunk ← readAt file position count
        let remaining ← minus remaining count
        checksum file rounds (c.update chunk) (position + count) remaining

theorem checksum_eq (hrounds : remaining ≤ rounds) (hinside : position + remaining ≤ file.length)
    (c : Checksum) : checksum file rounds c position remaining =
      .ok (c.update ((file.drop position).take remaining)) := by
  induction rounds generalizing c position remaining with
  | zero =>
    obtain rfl : remaining = 0 := by omega
    rfl
  | succ rounds ih =>
    unfold checksum
    by_cases hzero : remaining = 0
    · subst hzero
      rfl
    rw [if_neg hzero]
    dsimp only
    generalize hcount : min remaining Checksum.chunkSize = count
    have hpos : 0 < count := by
      rw [← hcount]
      exact Nat.lt_min.2 ⟨Nat.pos_of_ne_zero hzero, by decide⟩
    have hle : count ≤ remaining := hcount ▸ Nat.min_le_left _ _
    rw [readAt_eq (by omega), minus_eq hle, ok_bind, ok_bind, ih (by omega) (by omega),
      Checksum.update_update]
    have hsplit : remaining = count + (remaining - count) := by omega
    conv_rhs => rw [hsplit, List.take_add, List.drop_drop]

/-! ## The index -/

/-- Reads the samples of an index from a position on. -/
def parseIndex (path : Path) (data : Bytes) : Nat → Nat → Except Trap (Except Corruption (List Sample))
  | rounds, position =>
    if position < data.length then
      match rounds with
      | 0 => throw .exhausted
      | rounds + 1 => do
        let keyStart ← plus position 12
        if data.length < keyStart then return .error (.truncatedIndexEntry path)
        let keyLength ← slice data position (position + 4)
        let offset ← slice data (position + 4) keyStart
        let keyStop ← plus keyStart (LittleEndian.decode keyLength)
        if data.length < keyStop then return .error (.truncatedIndexKey path)
        let key ← slice data keyStart keyStop
        match ← parseIndex path data rounds keyStop with
        | .error cause => return .error cause
        | .ok samples => return .ok ((key, LittleEndian.decode offset) :: samples)
    else return .ok []

/-- Four bytes spell no more than a length can be. -/
theorem decode_take_four_lt (bytes : Bytes) : LittleEndian.decode (bytes.take 4) < 4294967296 :=
  Nat.lt_of_lt_of_le (LittleEndian.decode_lt _)
    (Nat.pow_le_pow_right (by decide) (List.length_take_le 4 bytes))

/-- What is split off from a position on lies there. -/
theorem split?_drop {n : Nat} {head rest : Bytes}
    (h : Bytes.split? n (data.drop position) = some (head, rest)) :
    head = (data.drop position).take n ∧ rest = data.drop (position + n) ∧
      n ≤ data.length - position := by
  obtain ⟨hsplit, hlength⟩ := Bytes.split?_eq_some_iff.1 h
  have hsum := congrArg List.length hsplit
  rw [List.length_drop, List.length_append] at hsum
  refine ⟨?_, ?_, by omega⟩
  · rw [hsplit, ← hlength, List.take_left]
  · rw [← List.drop_drop, hsplit, ← hlength, List.drop_left]

/-- Reading samples from what is left is reading them from a position on. -/
theorem parseIndex_drop (path : Path) (h : position < data.length) :
    Outline.parseIndex path (data.drop position) =
      let keyStart := position + 12
      let keyStop := keyStart + LittleEndian.decode ((data.drop position).take 4)
      if data.length < keyStart then .error (.truncatedIndexEntry path)
      else if data.length < keyStop then .error (.truncatedIndexKey path)
      else
        match Outline.parseIndex path (data.drop keyStop) with
        | .error cause => .error cause
        | .ok samples =>
          .ok (((data.drop keyStart).take (LittleEndian.decode ((data.drop position).take 4)),
            LittleEndian.decode ((data.drop (position + 4)).take 8)) :: samples) := by
  have hne : data.drop position ≠ [] := mt List.drop_eq_nil_iff.1 (Nat.not_le.2 h)
  have hkey : ((data.drop position).take 12).take 4 = (data.drop position).take 4 := List.take_take
  have hoffset : ((data.drop position).take 12).drop 4 = (data.drop (position + 4)).take 8 := by
    rw [List.drop_take, List.drop_drop]
  rw [Outline.parseIndex, if_neg hne]
  dsimp only
  split
  · next hsplit =>
    rw [Bytes.split?_eq_none_iff, List.length_drop] at hsplit
    rw [if_pos (by omega)]
  · next head rest hsplit =>
    obtain ⟨rfl, rfl, hlong⟩ := split?_drop hsplit
    rw [if_neg (by omega), hkey, hoffset]
    generalize LittleEndian.decode ((data.drop position).take 4) = keyLength
    split
    · next hsplit' =>
      rw [Bytes.split?_eq_none_iff, List.length_drop] at hsplit'
      rw [if_pos (by omega)]
    · next key rest' hsplit' =>
      obtain ⟨rfl, rfl, hlong'⟩ := split?_drop hsplit'
      rw [if_neg (by omega)]
      cases Outline.parseIndex path (data.drop (position + 12 + keyLength)) <;> rfl

theorem parseIndex_eq (hrounds : data.length ≤ position + rounds)
    (hsmall : data.length < Outline.offsetLimit) (path : Path) :
    parseIndex path data rounds position = .ok (Outline.parseIndex path (data.drop position)) := by
  induction rounds generalizing position with
  | zero =>
    have hend : data.length ≤ position := hrounds
    unfold parseIndex
    rw [if_neg (Nat.not_lt.2 hend), List.drop_eq_nil_of_le hend, Outline.parseIndex_nil]
    rfl
  | succ rounds ih =>
    unfold parseIndex
    by_cases hinside : position < data.length
    · have hword : Outline.offsetLimit + (12 + 4294967296) ≤ UInt64.size := by decide
      have hkey := decode_take_four_lt (data.drop position)
      rw [if_pos hinside, parseIndex_drop path hinside]
      dsimp only
      rw [plus_eq (by omega), ok_bind]
      by_cases hentry : data.length < position + 12
      · rw [if_pos hentry, if_pos hentry]
        rfl
      have hkeyLength : slice data position (position + 4) = .ok ((data.drop position).take 4) :=
        slice_eq rfl (by omega)
      have hoffset : slice data (position + 4) (position + 12) =
          .ok ((data.drop (position + 4)).take 8) := slice_eq rfl (by omega)
      rw [if_neg hentry, if_neg hentry, hkeyLength, hoffset, ok_bind, ok_bind]
      generalize LittleEndian.decode ((data.drop position).take 4) = keyLength at hkey ⊢
      rw [plus_eq (by omega), ok_bind]
      by_cases hlong : data.length < position + 12 + keyLength
      · rw [if_pos hlong, if_pos hlong]
        rfl
      rw [if_neg hlong, if_neg hlong, slice_eq rfl (Nat.not_lt.1 hlong), ok_bind, ih (by omega), ok_bind]
      cases Outline.parseIndex path (data.drop (position + 12 + keyLength)) <;> rfl
    · rw [if_neg hinside, List.drop_eq_nil_of_le (Nat.not_lt.1 hinside), Outline.parseIndex_nil]
      rfl

/-! ## The whole file -/

/-- Checks a file and reads its index, in the order of `Outline.ofBytes`. -/
def outline (path : Path) (file : Bytes) : Except Trap (Except Corruption Outline) := do
  let size := file.length
  if size < headerSize + footerSize then return .error (.truncated path size)
  let head ← readAt file 0 headerSize
  let found ← slice head 0 4
  if found ≠ magic then return .error (.badMagic found)
  let foundVersion ← slice head 4 6
  if LittleEndian.decode foundVersion ≠ version then
    return .error (.badVersion (LittleEndian.decode foundVersion))
  let entryCount ← slice head 6 headerSize
  let footStart ← minus size footerSize
  let foot ← readAt file footStart footerSize
  let indexOffset ← slice foot 0 8
  let indexOffset := LittleEndian.decode indexOffset
  let expected ← slice foot 8 12
  let expected := UInt32.ofNat (LittleEndian.decode expected)
  if indexOffset < headerSize ∨ footStart < indexOffset then
    return .error (.indexOutside path indexOffset)
  let dataSize ← minus indexOffset headerSize
  let sum ← checksum file dataSize Checksum.start headerSize dataSize
  if sum.value ≠ expected then return .error (.checksumMismatch path expected sum.value)
  let indexSize ← minus footStart indexOffset
  let data ← readAt file indexOffset indexSize
  match ← parseIndex path data indexSize 0 with
  | .error cause => return .error cause
  | .ok index =>
    return .ok { entryCount := LittleEndian.decode entryCount, indexOffset, index, fileSize := size }

/-- No guard traps, whatever the bytes are, and the guards change nothing of what comes out. -/
theorem outline_eq (hsmall : file.length < Outline.offsetLimit) (path : Path) :
    outline path file = .ok (Outline.ofBytes path file) := by
  unfold outline Outline.ofBytes
  dsimp only
  by_cases hsize : file.length < headerSize + footerSize
  · rw [if_pos hsize, if_pos hsize]
    rfl
  have hlong : headerSize + footerSize ≤ file.length := Nat.not_lt.1 hsize
  have hheader : headerSize ≤ file.length := by omega
  have hfound : slice (file.take headerSize) 0 4 = .ok (file.take 4) :=
    slice_take rfl (by decide) hheader
  have hversioned : slice (file.take headerSize) 4 6 = .ok ((file.drop 4).take 2) :=
    slice_take rfl (by decide) hheader
  have hcount : slice (file.take headerSize) 6 headerSize = .ok ((file.drop 6).take 8) :=
    slice_take rfl (Nat.le_refl _) hheader
  rw [if_neg hsize, if_neg hsize, readAt_eq (by omega), ok_bind, List.drop_zero, hfound, ok_bind]
  by_cases hmagic : file.take 4 ≠ magic
  · rw [if_pos hmagic, if_pos hmagic]
    rfl
  rw [if_neg hmagic, if_neg hmagic, hversioned, ok_bind]
  by_cases hversion : LittleEndian.decode ((file.drop 4).take 2) ≠ version
  · rw [if_pos hversion, if_pos hversion]
    rfl
  rw [if_neg hversion, if_neg hversion, hcount, ok_bind, minus_eq (by omega), ok_bind,
    readAt_eq (by omega), ok_bind]
  generalize hfoot : file.drop (file.length - footerSize) = foot
  have hsixteen : footerSize ≤ foot.length := by
    rw [← hfoot, List.length_drop]
    omega
  have hplaced : slice (foot.take footerSize) 0 8 = .ok (foot.take 8) :=
    slice_take rfl (by decide) hsixteen
  have hsum : slice (foot.take footerSize) 8 12 = .ok ((foot.drop 8).take 4) :=
    slice_take rfl (by decide) hsixteen
  rw [hplaced, hsum, ok_bind, ok_bind]
  generalize LittleEndian.decode (foot.take 8) = indexOffset
  by_cases houtside : indexOffset < headerSize ∨ file.length - footerSize < indexOffset
  · rw [if_pos houtside, if_pos houtside]
    rfl
  have hplace : headerSize ≤ indexOffset ∧ indexOffset ≤ file.length - footerSize := by omega
  have hdata : (file.drop headerSize).take (indexOffset - headerSize) =
      (file.take indexOffset).drop headerSize := List.drop_take.symm
  have hindex : (file.drop indexOffset).take (file.length - footerSize - indexOffset) =
      (file.take (file.length - footerSize)).drop indexOffset := List.drop_take.symm
  rw [if_neg houtside, if_neg houtside, minus_eq hplace.1, ok_bind,
    checksum_eq (Nat.le_refl _) (by omega), ok_bind, hdata, Checksum.ofChunks_eq, Checksum.ofBytes]
  generalize (Checksum.start.update ((file.take indexOffset).drop headerSize)).value = actual
  by_cases hmismatch : actual ≠ UInt32.ofNat (LittleEndian.decode ((foot.drop 8).take 4))
  · rw [if_pos hmismatch, if_pos hmismatch]
    rfl
  rw [if_neg hmismatch, if_neg hmismatch, minus_eq hplace.2, ok_bind, readAt_eq (by omega), ok_bind,
    hindex]
  have hsize' : ((file.take (file.length - footerSize)).drop indexOffset).length =
      file.length - footerSize - indexOffset := by
    rw [List.length_drop, List.length_take]
    omega
  rw [parseIndex_eq (by omega) (by omega), ok_bind, List.drop_zero]
  cases Outline.parseIndex path ((file.take (file.length - footerSize)).drop indexOffset) <;> rfl

end Guarded

end Spillway.Table
