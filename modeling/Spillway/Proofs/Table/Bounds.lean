import Spillway.Proofs.Table.Damage
import Spillway.Proofs.Table.Guards

/-!
# Bounds on reading any file

A table file may hold anything that its checksum happens to fit: the offsets of its index and the lengths
of its entries need not make sense. Opening it nevertheless ends with an outline or a cause of corruption,
and a lookup and a cursor take no more steps than entries can lie between two offsets, without a sum
that is not a word (`reading_is_bounded`).
-/

namespace Spillway.Table

/-- How many entries can begin between two offsets: each takes at least its header. -/
def mostEntries (start stop : Nat) : Nat :=
  (stop - start + (entryHeaderSize - 1)) / entryHeaderSize

theorem le_mostEntries (start stop : Nat) :
    stop ≤ start + entryHeaderSize * mostEntries start stop := by
  unfold mostEntries entryHeaderSize
  omega

namespace Guarded

variable {d : Disk} {c : Cursor} {o : Outline} {key bytes head : Bytes}
  {stop offset rounds n : Nat} {items : List (Except StorageError Entry)}

/-! ## Lookup -/

/-- The lengths in the header of an entry. -/
def lengths (head : Bytes) : Except Trap (Nat × Option Nat) := do
  let keyLength ← slice head 0 4
  let valueLength ← slice head 4 8
  let length := LittleEndian.decode valueLength
  return (LittleEndian.decode keyLength, if length = deletionMark then none else some length)

theorem take_drop_four (h : head.length = entryHeaderSize) : (head.drop 4).take 4 = head.drop 4 :=
  List.take_of_length_le (by rw [List.length_drop, h]; decide)

theorem lengths_eq (h : head.length = entryHeaderSize) : lengths head = .ok (Outline.lengths head) := by
  have hkey : slice head 0 4 = .ok (head.take 4) := slice_eq rfl (by rw [h]; decide)
  have hvalue : slice head 4 8 = .ok ((head.drop 4).take 4) := slice_eq rfl (Nat.le_of_eq h.symm)
  unfold lengths Outline.lengths
  rw [hkey, hvalue, ok_bind, ok_bind, take_drop_four h]
  rfl

/-- Lengths are less than `2 ^ 32`. -/
theorem lengths_lt (h : head.length = entryHeaderSize) :
    (Outline.lengths head).1 < 4294967296 ∧ (Outline.lengths head).2.getD 0 < 4294967296 := by
  have hvalue := decode_take_four_lt (head.drop 4)
  rw [take_drop_four h] at hvalue
  refine ⟨decode_take_four_lt head, ?_⟩
  unfold Outline.lengths
  dsimp only
  split
  · exact Nat.zero_lt_succ _
  · exact hvalue

/-- Examines so many entries at most. -/
def search (key : Bytes) (stop : Nat) :
    Nat → Nat → Bytes → Except Trap (Except StorageError (Option Bytes))
  | rounds, offset, bytes =>
    if offset < stop then
      match rounds with
      | 0 => throw .exhausted
      | rounds + 1 =>
        match Bytes.split? entryHeaderSize bytes with
        | none => return .error (.io .unexpectedEof)
        | some (head, rest) => do
          let (keyLength, valueLength?) ← lengths head
          match Bytes.split? keyLength rest with
          | none => return .error (.io .unexpectedEof)
          | some (found, rest) =>
            if found = key then
              match valueLength? with
              | none => return .ok none
              | some valueLength =>
                match Bytes.split? valueLength rest with
                | none => return .error (.io .unexpectedEof)
                | some (value, _) => return .ok (some value)
            else if key < found then return .error .keyNotFound
            else do
              let valueLength := valueLength?.getD 0
              let size ← plus entryHeaderSize keyLength
              let size ← plus size valueLength
              let offset ← plus offset size
              search key stop rounds offset (rest.drop valueLength)
    else return .error .keyNotFound

theorem search_eq (hrounds : stop ≤ offset + entryHeaderSize * rounds)
    (hstop : stop ≤ Outline.offsetLimit) :
    search key stop rounds offset bytes = .ok (Outline.search key stop offset bytes) := by
  induction rounds generalizing offset bytes with
  | zero =>
    have hend : ¬ offset < stop := Nat.not_lt.2 hrounds
    unfold search Outline.search
    rw [if_neg hend, if_neg hend]
    rfl
  | succ rounds ih =>
    unfold search Outline.search
    by_cases hinside : offset < stop
    · rw [if_pos hinside, if_pos hinside]
      dsimp only
      cases hhead : Bytes.split? entryHeaderSize bytes with
      | none => rfl
      | some parts =>
        obtain ⟨head, rest⟩ := parts
        have hlength := (Bytes.split?_eq_some_iff.1 hhead).2
        have hsmall := lengths_lt hlength
        dsimp only
        rw [lengths_eq hlength, ok_bind]
        generalize Outline.lengths head = found at hsmall ⊢
        obtain ⟨keyLength, valueLength?⟩ := found
        dsimp only at hsmall ⊢
        cases Bytes.split? keyLength rest with
        | none => rfl
        | some parts =>
          obtain ⟨found, rest⟩ := parts
          dsimp only
          by_cases hfound : found = key
          · rw [if_pos hfound, if_pos hfound]
            cases valueLength? with
            | none => rfl
            | some valueLength =>
              dsimp only
              cases Bytes.split? valueLength rest <;> rfl
          rw [if_neg hfound, if_neg hfound]
          by_cases hpassed : key < found
          · rw [if_pos hpassed, if_pos hpassed]
            rfl
          · have hword : Outline.offsetLimit + (8 + 4294967296 + 4294967296) ≤ UInt64.size := by decide
            have hheader : entryHeaderSize = 8 := rfl
            have hnext : entryHeaderSize * (rounds + 1) = entryHeaderSize * rounds + entryHeaderSize :=
              Nat.mul_succ _ _
            rw [if_neg hpassed, if_neg hpassed, plus_eq (by omega), ok_bind, plus_eq (by omega), ok_bind,
              plus_eq (by omega), ok_bind, ih (by omega), ← Nat.add_assoc, ← Nat.add_assoc]
    · rw [if_neg hinside, if_neg hinside]
      rfl

/-- Looks a key up: the entries that are examined begin at a place that the index gives, and how many
there may be depends on it. -/
def find (rounds : Nat → Nat) (o : Outline) (bytes key : Bytes) :
    Except Trap (Except StorageError (Option Bytes)) :=
  if o.mightContain key then
    if o.slot key = 0 then return .error .keyNotFound
    else do
      let last ← minus (o.slot key) 1
      match o.index[last]? with
      | none => throw .outside
      | some (_, start) =>
        if Outline.offsetLimit ≤ start then return .error (.io .invalidInput)
        else search key o.indexOffset (rounds start) start (bytes.drop start)
  else return .error .keyNotFound

/-- Halving stays inside the positions that it halves. -/
theorem bisect_le (test : Nat → Bool) (base size : Nat) :
    Outline.bisect test base size ≤ base + size := by
  fun_induction Outline.bisect test base size with
  | case1 base => exact Nat.le_refl _
  | case2 base htest => exact Nat.le_refl _
  | case3 base htest => exact Nat.le_succ _
  | case4 base size hsize hone half ih =>
    refine Nat.le_trans ih ?_
    split <;> omega

/-- A lookup examines no more entries than begin between the place that the index gives and the end. -/
theorem find_eq (hstop : o.indexOffset ≤ Outline.offsetLimit) (bytes key : Bytes) :
    find (fun start => mostEntries start o.indexOffset) o bytes key = .ok (o.find bytes key) := by
  unfold find Outline.find
  by_cases hmight : o.mightContain key = true
  · rw [if_pos hmight, if_pos hmight]
    have hslot : o.slot key ≤ 0 + o.index.length := bisect_le _ _ _
    cases hlast : o.slot key with
    | zero => rfl
    | succ last =>
      have hinside : o.index[last]? = some o.index[last] := List.getElem?_eq_getElem (by omega)
      have hminus : minus (last + 1) 1 = .ok last := minus_eq (Nat.succ_pos last)
      rw [if_neg (Nat.succ_ne_zero last), hminus, ok_bind, hinside]
      dsimp only
      rw [hinside]
      obtain ⟨least, start⟩ := o.index[last]
      dsimp only
      by_cases hfar : Outline.offsetLimit ≤ start
      · rw [if_pos hfar, if_pos hfar]
        rfl
      · rw [if_neg hfar, if_neg hfar, search_eq (le_mostEntries start o.indexOffset) hstop]
  · rw [if_neg hmight, if_neg hmight]
    rfl

/-! ## Iteration -/

/-- What is taken has the length that was asked for. -/
theorem length_of_take {c' : Cursor} (h : c.take d n = .ok (bytes, c')) : bytes.length = n := by
  unfold Cursor.take at h
  dsimp only at h
  split at h
  · next hready =>
    cases h
    exact hready
  · split at h
    · cases h
    · split at h
      · cases h
      · next hblock =>
        cases h
        rw [List.length_append, List.length_take_of_le (Nat.not_lt.1 hblock)]
        have hready : (c.ahead.take n).length ≤ n := List.length_take_le _ _
        omega

/-- The next entry, with its size and the offset behind it as words. -/
def readEntry (d : Disk) (c : Cursor) : Except Trap (Except IoError (Entry × Cursor)) :=
  match c.take d entryHeaderSize with
  | .error e => return .error e
  | .ok (head, c') => do
    let (keyLength, valueLength?) ← lengths head
    match c'.take d keyLength with
    | .error e => return .error e
    | .ok (key, c') => do
      let size ← plus entryHeaderSize keyLength
      match valueLength? with
      | none => do
        let offset ← plus c.offset size
        return .ok ((key, none), { c' with offset })
      | some valueLength =>
        match c'.take d valueLength with
        | .error e => return .error e
        | .ok (value, c') => do
          let size ← plus size valueLength
          let offset ← plus c.offset size
          return .ok ((key, some value), { c' with offset })

theorem readEntry_eq (h : c.offset < Outline.offsetLimit) (d : Disk) :
    readEntry d c = .ok (c.readEntry d) := by
  have hword : Outline.offsetLimit + (8 + 4294967296 + 4294967296) ≤ UInt64.size := by decide
  have hheader : entryHeaderSize = 8 := rfl
  unfold readEntry Cursor.readEntry
  cases hhead : c.take d entryHeaderSize with
  | error e => rfl
  | ok taken =>
    obtain ⟨head, c₁⟩ := taken
    have hlength := length_of_take hhead
    have hsmall := lengths_lt hlength
    rw [ok_bind]
    dsimp only
    rw [lengths_eq hlength, ok_bind]
    generalize Outline.lengths head = found at hsmall ⊢
    obtain ⟨keyLength, valueLength?⟩ := found
    dsimp only at hsmall ⊢
    cases c₁.take d keyLength with
    | error e => rfl
    | ok taken =>
      obtain ⟨key, c₂⟩ := taken
      rw [ok_bind]
      dsimp only
      rw [plus_eq (by omega), ok_bind]
      cases valueLength? with
      | none =>
        dsimp only
        rw [plus_eq (by omega), ok_bind, ← Nat.add_assoc]
        rfl
      | some valueLength =>
        rw [Option.getD_some] at hsmall
        dsimp only
        cases c₂.take d valueLength with
        | error e => rfl
        | ok taken =>
          obtain ⟨value, c₃⟩ := taken
          rw [ok_bind]
          dsimp only
          rw [plus_eq (by omega), ok_bind, plus_eq (by omega), ok_bind, ← Nat.add_assoc, ← Nat.add_assoc]
          rfl

/-- An entry takes its header at least. -/
theorem readEntry_offset {c' : Cursor} {entry : Entry} (h : c.readEntry d = .ok (entry, c')) :
    c.offset + entryHeaderSize ≤ c'.offset := by
  simp only [Cursor.readEntry, bind, Except.bind, pure, Except.pure] at h
  split at h
  · cases h
  split at h
  · cases h
  split at h
  · cases h
    exact Nat.le_add_right _ _
  split at h
  · cases h
  · cases h
    rw [Nat.add_assoc]
    exact Nat.le_add_right _ _

/-- Reads so many entries at most. -/
def drain (d : Disk) : Nat → Cursor → Except Trap (List (Except StorageError Entry))
  | rounds, c =>
    if c.failed || c.stop ≤ c.offset then return []
    else
      match rounds with
      | 0 => throw .exhausted
      | rounds + 1 => do
        match ← readEntry d c with
        | .ok (entry, c') => return .ok entry :: (← drain d rounds c')
        | .error e => return .error (.io e) :: (← drain d rounds { c with failed := true })

theorem toList_end (h : c.next d = none) : (Cursor.feed d).toList c = [] := by
  rw [Feed.toList]
  split
  · rfl
  · next hp => cases h.symm.trans hp

theorem toList_next {c' : Cursor} {item : Except StorageError Entry} (h : c.next d = some (item, c')) :
    (Cursor.feed d).toList c = item :: (Cursor.feed d).toList c' := by
  rw [Feed.toList]
  split
  · next hp => cases h.symm.trans hp
  · next hp =>
    cases h.symm.trans hp
    rfl

/-- After a failure there is nothing more. -/
theorem drain_failed (d : Disk) (rounds : Nat) : drain d rounds { c with failed := true } = .ok [] := by
  unfold drain
  rfl

/-- A cursor gives no more items than entries begin between where it is and the end. -/
theorem drain_eq (hrounds : c.stop ≤ c.offset + entryHeaderSize * rounds)
    (hstop : c.stop ≤ Outline.offsetLimit) (d : Disk) :
    drain d rounds c = .ok ((Cursor.feed d).toList c) := by
  induction rounds generalizing c with
  | zero =>
    have hend : (c.failed || decide (c.stop ≤ c.offset)) = true :=
      Bool.or_eq_true_iff.2 (.inr (decide_eq_true hrounds))
    have hnext : c.next d = none := by rw [Cursor.next, if_pos hend]
    unfold drain
    rw [if_pos hend, toList_end hnext]
    rfl
  | succ rounds ih =>
    unfold drain
    by_cases hend : (c.failed || decide (c.stop ≤ c.offset)) = true
    · have hnext : c.next d = none := by rw [Cursor.next, if_pos hend]
      rw [if_pos hend, toList_end hnext]
      rfl
    have hinside : c.offset < c.stop :=
      Nat.not_le.1 fun hle => hend (Bool.or_eq_true_iff.2 (.inr (decide_eq_true hle)))
    have hmore : entryHeaderSize * (rounds + 1) = entryHeaderSize * rounds + entryHeaderSize :=
      Nat.mul_succ _ _
    rw [if_neg hend]
    dsimp only
    rw [readEntry_eq (by omega), ok_bind]
    cases hread : c.readEntry d with
    | error e =>
      have hnext : c.next d = some (.error (.io e), { c with failed := true }) := by
        rw [Cursor.next, if_neg hend, hread]
      dsimp only
      rw [drain_failed, ok_bind, toList_next hnext, toList_end rfl]
      rfl
    | ok read =>
      obtain ⟨entry, c'⟩ := read
      have hnext : c.next d = some (.ok entry, c') := by
        rw [Cursor.next, if_neg hend, hread]
      have hoffset := readEntry_offset hread
      obtain ⟨-, hsame, -⟩ := Cursor.readEntry_fields hread
      dsimp only
      rw [ih (by omega) (by omega), ok_bind, toList_next hnext]
      rfl

theorem drain_zero (h : drain d 0 c = .ok items) : items = [] := by
  unfold drain at h
  split at h <;> cases h
  rfl

/-- Items end, go on with an entry, or end with a failure. -/
theorem drain_succ (h : drain d (rounds + 1) c = .ok items) :
    items = [] ∨ (∃ entry c' rest, drain d rounds c' = .ok rest ∧ items = .ok entry :: rest) ∨
      ∃ e, items = [.error e] := by
  unfold drain at h
  by_cases hend : (c.failed || decide (c.stop ≤ c.offset)) = true
  · rw [if_pos hend] at h
    cases h
    exact .inl rfl
  rw [if_neg hend] at h
  dsimp only at h
  cases hread : readEntry d c with
  | error trap =>
    rw [hread] at h
    cases h
  | ok read =>
    rw [hread, ok_bind] at h
    cases read with
    | error e =>
      dsimp only at h
      rw [drain_failed, ok_bind] at h
      cases h
      exact .inr (.inr ⟨_, rfl⟩)
    | ok read =>
      obtain ⟨entry, c'⟩ := read
      dsimp only at h
      cases hrest : drain d rounds c' with
      | error trap =>
        rw [hrest] at h
        cases h
      | ok rest =>
        rw [hrest, ok_bind] at h
        cases h
        exact .inr (.inl ⟨entry, c', rest, hrest, rfl⟩)

theorem length_drain_le (h : drain d rounds c = .ok items) : items.length ≤ rounds := by
  induction rounds generalizing c items with
  | zero => rw [drain_zero h, List.length_nil]
  | succ rounds ih =>
    rcases drain_succ h with rfl | ⟨entry, c', rest, hrest, rfl⟩ | ⟨e, rfl⟩
    · exact Nat.zero_le _
    · exact Nat.succ_le_succ (ih hrest)
    · exact Nat.succ_le_succ (Nat.zero_le rounds)

/-- Nothing comes after a failure. -/
theorem eq_nil_of_drain {front back : List (Except StorageError Entry)} {e : StorageError}
    (h : drain d rounds c = .ok (front ++ .error e :: back)) : back = [] := by
  induction rounds generalizing c front with
  | zero => exact absurd (drain_zero h) (by simp)
  | succ rounds ih =>
    rcases drain_succ h with hnil | ⟨entry, c', rest, hrest, hitems⟩ | ⟨e', hitems⟩
    · exact absurd hnil (by simp)
    · cases front with
      | nil => cases hitems
      | cons item front =>
        obtain ⟨-, rfl⟩ := List.cons.inj hitems
        exact ih hrest
    · cases front with
      | nil => exact (List.cons.inj hitems).2
      | cons item front => exact absurd (List.cons.inj hitems).2 (by simp)

end Guarded

/-! ## Any file -/

section Any

variable {d : Disk} {path : Path} {place : Location} {file : FileId}

/-- The index of a file that is accepted lies inside it. -/
theorem indexOffset_le {bytes : Bytes} {o : Outline} (h : Outline.ofBytes path bytes = .ok o) :
    o.indexOffset ≤ bytes.length := by
  unfold Outline.ofBytes at h
  dsimp only at h
  split at h
  · cases h
  split at h
  · cases h
  split at h
  · cases h
  split at h
  · cases h
  next hinside =>
  split at h
  · cases h
  split at h
  · cases h
  · cases h
    dsimp only
    omega

/-- Opening a file ends with its outline or with the cause that its bytes are refused for, unless the
disk fails first. -/
theorem ends_load_any (hfind : d.find path = .ok (place, .file file)) :
    Ends (Reader.load path) d
      (fun reader _ => Outline.ofBytes path (d.content file) = .ok reader.outline)
      fun e _ => (∃ cause, Outline.ofBytes path (d.content file) = .error cause ∧ e = .corrupt cause) ∨
        Faulted d e := by
  cases hbytes : Outline.ofBytes path (d.content file) with
  | error cause =>
    refine (ends_load_refused hfind hbytes).mono (fun _ _ h => h.elim) ?_
    rintro e _ (rfl | hfault)
    · exact .inl ⟨cause, rfl, rfl⟩
    · exact .inr hfault
  | ok o =>
    refine (ends_load_of_ok hfind hbytes).mono ?_ fun _ _ he => .inr he.2
    rintro _ _ ⟨-, rfl⟩
    rfl

/-- Whatever bytes a table file holds, opening it goes through without a slice out of range, a sum that
is not a word or a read beyond the end, and ends with an outline or as corrupt. With an outline, a lookup
of any key examines no more entries than begin between the offset that the index gives it and the index,
and a cursor gives no more items than entries begin between the header and the index, the last of them
a failure at most. That holds whatever the file has become when it is read. -/
theorem reading_is_bounded (hfind : d.find path = .ok (place, .file file))
    (hsize : (d.content file).length < Outline.offsetLimit) :
    Guarded.outline path (d.content file) = .ok (Outline.ofBytes path (d.content file)) ∧
    Ends (Reader.load path) d
      (fun reader _ => Outline.ofBytes path (d.content file) = .ok reader.outline ∧
        (∀ (d₁ : Disk) key,
          Guarded.find (fun start => mostEntries start reader.outline.indexOffset) reader.outline
            (d₁.content reader.file) key = .ok (reader.find d₁ key)) ∧
        ∀ d₁, Ends reader.cursor d₁
          (fun c _ => ∀ d₂,
            let items := (Cursor.feed d₂).toList c
            let most := mostEntries headerSize reader.outline.indexOffset
            Guarded.drain d₂ most c = .ok items ∧ items.length ≤ most ∧
              ∀ front e back, items = front ++ .error e :: back → back = [])
          fun _ _ => True)
      fun e _ => (∃ cause, Outline.ofBytes path (d.content file) = .error cause ∧ e = .corrupt cause) ∨
        Faulted d e := by
  refine ⟨Guarded.outline_eq hsize path, (ends_load_any hfind).imp ?_⟩
  intro reader _ hreader
  have hplace := indexOffset_le hreader
  have hstop : reader.outline.indexOffset ≤ Outline.offsetLimit := by omega
  refine ⟨hreader, fun d₁ key => Guarded.find_eq hstop _ key, fun d₁ => ?_⟩
  unfold Reader.cursor
  refine Ends.bind ((Ends.trivial _ d₁).mono (fun _ _ _ => trivial) fun _ _ _ => trivial) ?_
  intro handle d' _
  refine Ends.pure fun d₂ => ?_
  have hdrain := Guarded.drain_eq (c := { handle, stop := reader.outline.indexOffset })
    (le_mostEntries headerSize reader.outline.indexOffset) hstop d₂
  exact ⟨hdrain, Guarded.length_drain_le hdrain, fun front e back hitems =>
    Guarded.eq_nil_of_drain (hitems ▸ hdrain)⟩

/-- A file with a checksum that fits, an entry followed by bytes that are none, and an index that leads
into the middle of the entry. -/
def wild : Bytes :=
  Outline.sealed (List.replicate 8 0xFF) (entryBytes ([5], some [6]) ++ [9, 9, 9])
    (sampleBytes ([5], 14) ++ sampleBytes ([7], 15)) [0, 0, 0, 0]

def wildDisk : Disk where
  nodes := [(["t.sst"], .file 0)]
  contents := [wild]

/-- It is opened; the entries that can begin in front of its index are two. -/
theorem reading_is_bounded_wild :
    ∃ reader t, Reader.load "t.sst" wildDisk = .ok reader t ∧
      Guarded.find (fun start => mostEntries start 27) reader.outline (t.content reader.file) [7] =
        .ok (reader.find t [7]) ∧
      Ends reader.cursor t (fun c t' => ((Cursor.feed t').toList c).length ≤ 2) fun _ _ => True := by
  have hfind : wildDisk.find "t.sst" = .ok (["t.sst"], .file 0) := by decide +kernel
  have hsize : (wildDisk.content 0).length < Outline.offsetLimit := by decide +kernel
  have hload : Ends (Reader.load "t.sst") wildDisk (fun reader _ => reader.outline.indexOffset = 27)
      fun _ _ => False := by decide +kernel
  obtain ⟨reader, t, hrun, hplace⟩ := hload.exists_ok fun _ _ h => h
  obtain ⟨-, hlookup, hcursor⟩ := (reading_is_bounded hfind hsize).2.of_ok hrun
  rw [hplace] at hlookup hcursor
  refine ⟨reader, t, hrun, hlookup t [7], (hcursor t).imp fun c t' hitems => ?_⟩
  exact (hitems t').2.1

end Any

end Spillway.Table
