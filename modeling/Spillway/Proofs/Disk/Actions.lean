import Mathlib.Data.List.Nodup
import Spillway.Proofs.Action
import Spillway.Proofs.Disk.Tree

/-!
# What disk actions do

How each action on a disk ends: what it changes when it succeeds, and that it fails only for a fault of
the disk where its path is in order. `Frame` says what a change elsewhere in the tree leaves as it was.
-/

namespace Spillway

section OnDisk

variable {σ ε α : Type} {act : DiskM ε α} {s : σ} {d : Disk}

theorem ends_onDisk {post : α → σ × Disk → Prop} {fail : ε → σ × Disk → Prop}
    (h : Ends act d (fun a d' => post a (s, d')) fun e d' => fail e (s, d')) :
    Ends (onDisk act) (s, d) post fail := Ends.zoom h

/-- The same, read off from what is known of the action on the disk. -/
theorem ends_onDisk_exists {post : α → Disk → Prop} {fail : ε → Disk → Prop}
    (h : Ends act d post fail) :
    Ends (onDisk act) (s, d) (fun a t => ∃ d', t = (s, d') ∧ post a d')
      fun e t => ∃ d', t = (s, d') ∧ fail e d' :=
  ends_onDisk (h.mono (fun _ d' hp => ⟨d', rfl, hp⟩) fun _ d' hf => ⟨d', rfl, hf⟩)

end OnDisk

namespace Disk

variable {d d' d'' : Disk} {place p q : Location} {node : Node} {id : FileId} {path : Path}

/-! ## Faults -/

/-- No fault is to come. -/
def Reliable (d : Disk) : Prop := ∀ fault ∈ d.faults, fault = none

/-- The disk after its next fault was taken. -/
def tick (d : Disk) : Disk := { d with faults := d.faults.tail }

theorem ends_attempt (d : Disk) :
    Ends attempt d (fun _ d' => d' = d.tick) fun e d' => d' = d.tick ∧ some e ∈ d.faults := by
  unfold attempt
  refine ends_get_bind ?_
  cases hf : d.faults with
  | nil =>
    refine Ends.pure ?_
    rw [tick, hf, List.tail_nil, ← hf]
  | cons fault rest =>
    have htick : d.tick = { d with faults := rest } := by rw [tick, hf, List.tail_cons]
    cases fault with
    | none => exact htick.symm
    | some e =>
      exact ends_set_bind (Ends.throw ⟨htick.symm, List.mem_cons_self⟩)

theorem node?_tick (d : Disk) (p : Location) : d.tick.node? p = d.node? p := rfl

theorem walk_tick (d : Disk) (here : Location) (parts : List String) :
    d.tick.walk here parts = d.walk here parts :=
  walk_congr d.node?_tick here parts

theorem find_tick (d : Disk) (path : Path) : d.tick.find path = d.find path :=
  find_congr d.node?_tick path

/-- An action that first takes a fault. -/
theorem ends_attempt_bind {α : Type} {act : PUnit → DiskM IoError α} {post : α → Disk → Prop}
    {fail : IoError → Disk → Prop} (hfail : ∀ e, some e ∈ d.faults → fail e d.tick)
    (h : Ends (act ⟨⟩) d.tick post fail) : Ends (attempt >>= act) d post fail := by
  refine Ends.bind ((ends_attempt d).imp_fail fun e d' he => ?_) fun _ d' hd' => ?_
  · rw [he.1]
    exact hfail e he.2
  · rw [hd']
    exact h

theorem not_reliable {e : IoError} (h : some e ∈ d.faults) : ¬ d.Reliable := fun hr => by
  cases hr _ h

/-! ## What stays -/

/-- The names in the directory at a place are different. -/
def TidyAt (d : Disk) (place : Location) : Prop := ((d.childrenAt place).map Prod.fst).Nodup

instance : Decidable (d.TidyAt place) :=
  inferInstanceAs (Decidable ((d.childrenAt place).map Prod.fst).Nodup)

/-- A tidy directory lists what its names lead to. -/
theorem TidyAt.mem_childrenAt_iff {name : String} (h : d.TidyAt place) :
    (name, node) ∈ d.childrenAt place ↔ d.node? (place ++ [name]) = some node := by
  refine ⟨fun hmem => ?_, mem_childrenAt_of_node?⟩
  obtain ⟨found, hfound⟩ := Option.ne_none_iff_exists'.1 (node?_ne_none (mem_childrenAt.1 hmem))
  have hsame := List.inj_on_of_nodup_map h hmem (mem_childrenAt_of_node? hfound) rfl
  rw [hfound, (Prod.mk.inj hsame).2]

theorem tidyAt_filter (h : d.TidyAt q) (keep : Location × Node → Bool) :
    { d with nodes := d.nodes.filter keep }.TidyAt q := by
  unfold TidyAt at h ⊢
  rw [childrenAt_eq] at h ⊢
  exact h.sublist ((List.filter_sublist.filterMap _).map _)

theorem tidyAt_put (h : d.TidyAt q) : (d.put place node).TidyAt q := by
  have hrest := tidyAt_filter h fun x => decide (x.1 ≠ place)
  generalize hd : { d with nodes := d.nodes.filter fun x => decide (x.1 ≠ place) } = others at hrest
  have hput : (d.put place node).nodes = (place, node) :: others.nodes := by
    rw [← hd]
    rfl
  unfold TidyAt at hrest ⊢
  rw [childrenAt_eq, hput, List.filterMap_cons]
  rcases List.eq_nil_or_concat place with rfl | ⟨above, name, rfl⟩
  · exact hrest
  rw [List.concat_eq_append] at hd ⊢
  rw [List.getLast?_concat, List.dropLast_concat]
  by_cases habove : above = q
  · simp only [habove, if_true]
    rw [← childrenAt_eq]
    refine List.nodup_cons.2 ⟨fun hmem => ?_, hrest⟩
    -- the filter took the node away that the new one replaces
    obtain ⟨⟨name', node'⟩, hx, rfl⟩ := List.mem_map.1 hmem
    rw [mem_childrenAt, ← hd, habove] at hx
    exact absurd rfl (of_decide_eq_true (List.mem_filter.1 hx).2)
  · simp only [habove, if_false]
    exact hrest

theorem tidyAt_dropTree (h : d.TidyAt q) : (d.dropTree place).TidyAt q :=
  tidyAt_filter h fun x => !place.isPrefixOf x.1

/-- Names are in directories. -/
def Sound (d : Disk) : Prop := ∀ x ∈ d.nodes, d.Lies x.1

theorem Sound.lies (h : d.Sound) (hn : d.node? p ≠ none) : d.Lies p := by
  by_cases hp : p = []
  · rw [hp]
    exact lies_nil d
  · obtain ⟨node, hnode⟩ := Option.ne_none_iff_exists'.1 hn
    exact h _ (mem_of_node? hp hnode)

theorem reaches_put (hn : d.node? place = none) (hr : d.Reaches p) : (d.put place node).Reaches p := by
  intro q hq
  have hplace : place ≠ [] := ne_nil_of_node? (by rw [hn]; exact nofun)
  rw [node?_put hplace, if_neg, hr q hq]
  rintro rfl
  have hdir := hr q hq
  rw [hn] at hdir
  cases hdir

theorem sound_put (h : d.Sound) (hl : d.Lies place) (hn : d.node? place = none) :
    (d.put place node).Sound := by
  intro x hx
  rcases List.mem_cons.1 hx with rfl | hx
  · exact hl.mono fun _ hr => reaches_put hn hr
  · exact (h x (List.mem_filter.1 hx).1).mono fun _ hr => reaches_put hn hr

theorem sound_dropTree (h : d.Sound) (place : Location) : (d.dropTree place).Sound := by
  intro x hx p hp hne
  obtain ⟨hmem, hnot⟩ := mem_dropTree.1 hx
  have hplace : place ≠ [] := by
    rintro rfl
    exact hnot List.nil_prefix
  rw [node?_dropTree hplace, if_neg fun hpre => hnot (hpre.trans hp)]
  exact h x hmem p hp hne

/-- Files keep their bytes, and what is sound about a disk stays so. -/
structure Later (d d' : Disk) : Prop where
  contents : d.contents <+: d'.contents
  tidy : ∀ p, d.TidyAt p → d'.TidyAt p
  faults : d'.faults <:+ d.faults
  sound : d.Sound → d'.Sound

theorem later_refl (d : Disk) : Later d d :=
  ⟨List.prefix_rfl, fun _ h => h, List.suffix_rfl, fun h => h⟩

/-- Trees that are taken away leave all bytes. -/
theorem later_dropTree (d : Disk) (place : Location) : Later d (d.dropTree place) :=
  ⟨List.prefix_rfl, fun _ ht => tidyAt_dropTree ht, List.suffix_rfl, fun h => sound_dropTree h place⟩

theorem Later.reliable (h : Later d d') (hr : d.Reliable) : d'.Reliable :=
  fun fault hf => hr fault (h.faults.mem hf)

theorem Later.trans (h : Later d d') (h' : Later d' d'') : Later d d'' :=
  ⟨h.contents.trans h'.contents, fun p ht => h'.tidy p (h.tidy p ht),
    h'.faults.trans h.faults, fun hs => h'.sound (h.sound hs)⟩

theorem Later.content (h : Later d d') (hid : id < d.contents.length) :
    d'.content id = d.content id := by
  obtain ⟨more, hmore⟩ := h.contents
  rw [Disk.content, Disk.content, ← hmore, List.getElem?_append_left hid]

/-- Besides, directories stay, and so do the nodes that are not touched. -/
structure Frame (d d' : Disk) (touched : Location → Prop) : Prop extends Later d d' where
  node : ∀ p, ¬ touched p → d'.node? p = d.node? p
  reaches : ∀ p, d.Reaches p → d'.Reaches p

theorem Frame.opens {touched : Location → Prop} {dir : Path} (h : Frame d d' touched)
    (ho : d.Opens dir place) : d'.Opens dir place :=
  ho.mono h.reaches

/-- Nothing is touched by taking a fault. -/
theorem frame_tick (d : Disk) : Frame d d.tick fun _ => False where
  toLater := ⟨List.prefix_rfl, fun _ h => h, List.tail_suffix _, fun h => h⟩
  node _ _ := rfl
  reaches _ h := h

theorem frame_refl (d : Disk) : Frame d d fun _ => False where
  toLater := later_refl d
  node _ _ := rfl
  reaches _ h := h

theorem Frame.trans {touched : Location → Prop} (h : Frame d d' touched) (h' : Frame d' d'' touched) :
    Frame d d'' touched where
  toLater := h.toLater.trans h'.toLater
  node p hp := (h'.node p hp).trans (h.node p hp)
  reaches p hr := h'.reaches p (h.reaches p hr)

theorem Frame.mono {touched touched' : Location → Prop} (h : Frame d d' touched)
    (ht : ∀ p, touched p → touched' p) : Frame d d' touched' where
  toLater := h.toLater
  node p hp := h.node p fun h' => hp (ht p h')
  reaches := h.reaches

/-- Whatever may be touched, taking a fault touches none of it. -/
theorem frame_tick_of (d : Disk) (touched : Location → Prop) : Frame d d.tick touched :=
  (frame_tick d).mono fun _ h => h.elim

/-- Nothing happened to the disk but that faults were taken. -/
def Ticked (d d' : Disk) : Prop := ∃ faults, faults <:+ d.faults ∧ d' = { d with faults }

theorem ticked_refl (d : Disk) : d.Ticked d := ⟨d.faults, List.suffix_rfl, rfl⟩

theorem ticked_tick (d : Disk) : d.Ticked d.tick := ⟨d.faults.tail, List.tail_suffix _, rfl⟩

theorem Ticked.trans (h : d.Ticked d') (h' : d'.Ticked d'') : d.Ticked d'' := by
  obtain ⟨faults, hfaults, rfl⟩ := h
  obtain ⟨faults', hfaults', rfl⟩ := h'
  exact ⟨faults', hfaults'.trans hfaults, rfl⟩

theorem Ticked.frame (h : d.Ticked d') : Frame d d' fun _ => False := by
  obtain ⟨faults, hfaults, rfl⟩ := h
  exact ⟨⟨List.prefix_rfl, fun _ h => h, hfaults, fun h => h⟩, fun _ _ => rfl, fun _ h => h⟩

/-- Nothing at or below the place changes, and it stays where it is. -/
structure Spares (d d' : Disk) (place : Location) : Prop extends Later d d' where
  node : ∀ p, place <+: p → d'.node? p = d.node? p
  reaches : d.Reaches place → d'.Reaches place

theorem spares_refl (d : Disk) (place : Location) : Spares d d place :=
  ⟨later_refl d, fun _ _ => rfl, fun h => h⟩

theorem Frame.spares {touched : Location → Prop} (h : Frame d d' touched)
    (ht : ∀ p, touched p → ¬ place <+: p) : Spares d d' place where
  toLater := h.toLater
  node p hp := h.node p fun htouched => ht p htouched hp
  reaches := h.reaches place

/-! ## New files -/

/-- The disk with a new file at a place. -/
def addFile (d : Disk) (place : Location) (bytes : Bytes) : Disk :=
  { d with contents := d.contents ++ [bytes] }.put place (.file d.contents.length)

theorem node?_addFile (hp : place ≠ []) (bytes : Bytes) :
    (d.addFile place bytes).node? p =
      if p = place then some (.file d.contents.length) else d.node? p := by
  rw [addFile, node?_put hp]
  rfl

theorem content_addFile (place : Location) (bytes : Bytes) :
    (d.addFile place bytes).content d.contents.length = bytes := by
  show ((d.contents ++ [bytes])[d.contents.length]?).getD [] = bytes
  rw [List.getElem?_append_right (Nat.le_refl _), Nat.sub_self]
  rfl

/-- Writing to a file that was just made. -/
theorem setContent_addFile (place : Location) (bytes : Bytes) :
    (d.addFile place []).tick.setContent d.contents.length bytes = d.tick.addFile place bytes := by
  have hset : (d.contents ++ [[]]).set d.contents.length bytes = d.contents ++ [bytes] := by
    rw [List.set_append_right _ _ (Nat.le_refl _), Nat.sub_self, List.set_cons_zero]
  unfold addFile setContent tick put
  simp only [hset]

theorem frame_addFile (hl : d.Lies place) (hn : d.node? place = none) (bytes : Bytes) :
    Frame d (d.addFile place bytes) (· = place) where
  toLater := ⟨List.prefix_append _ _, fun _ ht => tidyAt_put ht, List.suffix_rfl, fun h =>
    sound_put (d := { d with contents := d.contents ++ [bytes] }) h hl hn⟩
  node p hp := by
    have hplace : place ≠ [] := ne_nil_of_node? (by rw [hn]; exact nofun)
    rw [node?_addFile hplace, if_neg hp]
  reaches p hr := reaches_put (d := { d with contents := d.contents ++ [bytes] }) hn hr

theorem ends_createFile (hl : d.locate path = .ok place) (hn : d.node? place = none) :
    Ends (createFile path) d
      (fun id d' => id = d.contents.length ∧ d' = d.tick.addFile place [])
      fun e d' => d' = d.tick ∧ some e ∈ d.faults := by
  refine ends_attempt_bind (fun e he => ⟨rfl, he⟩) (ends_get_bind ?_)
  have hl' : d.tick.locate path = .ok place := by rw [locate, walk_tick, ← locate, hl]
  have hn' : d.tick.node? place = none := hn
  simp only [hl', hn']
  exact ends_set_bind (Ends.pure ⟨rfl, rfl⟩)

theorem ends_writeFile (id : FileId) (bytes : Bytes) :
    Ends (writeFile id bytes) d
      (fun _ d' => d' = d.tick.setContent id bytes ∧ bytes.length ≤ maxFileBytes)
      fun e d' => d' = d.tick ∧
        (some e ∈ d.faults ∨ e = .fileTooLarge ∧ maxFileBytes < bytes.length) := by
  refine ends_attempt_bind (fun e he => ⟨rfl, .inl he⟩) ?_
  by_cases hlarge : maxFileBytes < bytes.length
  · rw [if_pos hlarge]
    exact Ends.throw ⟨rfl, .inr ⟨rfl, hlarge⟩⟩
  · rw [if_neg hlarge]
    exact ends_modify ⟨rfl, Nat.not_lt.1 hlarge⟩

/-! ## Names of files -/

theorem ends_openFile (hf : d.find path = .ok (place, node)) :
    Ends (openFile path) d (fun handle d' => handle = node ∧ d' = d.tick)
      fun e d' => d' = d.tick ∧ some e ∈ d.faults := by
  refine ends_attempt_bind (fun e he => ⟨rfl, he⟩) (ends_get_bind ?_)
  rw [find_tick, hf]
  exact Ends.pure ⟨rfl, rfl⟩

/-- A file whose name can not be taken away keeps it. -/
theorem ends_removeFile (hf : d.find path = .ok (place, .file id)) :
    Ends (removeFile path) d (fun _ d' => d' = d.tick.dropTree place)
      fun _ d' => d' = d.tick ∧ ¬ d.Reliable := by
  refine ends_attempt_bind (fun e he => ⟨rfl, not_reliable he⟩) (ends_get_bind ?_)
  rw [find_tick, hf]
  exact ends_modify rfl

theorem frame_dropTree (hn : d.node? place = some (.file id)) :
    Frame d (d.dropTree place) (place <+: ·) where
  toLater := later_dropTree d place
  node p hp := by
    rw [node?_dropTree (ne_nil_of_node? (by rw [hn]; exact nofun)), if_neg hp]
  reaches p hr q hq := by
    rw [node?_dropTree (ne_nil_of_node? (by rw [hn]; exact nofun)), if_neg, hr q hq]
    intro hpre
    have hdir := hr place (hpre.trans hq)
    rw [hn] at hdir
    cases hdir

end Disk

end Spillway
