import Spillway.Proofs.Disk.Actions

/-!
# Making and removing directories

A directory can be made at a path unless a file is in the way (`Obstructed`), and the path then
leads where its parts spell (`createDirectory_ends`). Removing a tree of directories takes names
away and adds none.
-/

namespace Spillway.Disk

variable {d d' d'' : Disk} {here place p : Location} {node : Node} {id : FileId} {path : Path}

/-- The place that a path spells, whether it is there or not. -/
def target (path : Path) : Location := path.parts.foldl step []

/-- The places that the parts lead through from `here`, both ends included. -/
def trail (here : Location) : List String → List Location
  | [] => [here]
  | part :: rest => here :: trail (step here part) rest

/-- A file is where the parts lead from `here`, or on the way. -/
def Obstructed (d : Disk) (here : Location) (parts : List String) : Prop :=
  ∃ p ∈ trail here parts, ∃ id, d.node? p = some (.file id)

theorem mem_trail_start (here : Location) (parts : List String) : here ∈ trail here parts := by
  cases parts <;> exact List.mem_cons_self

theorem Obstructed.start (h : d.node? here = some (.file id)) (parts : List String) :
    d.Obstructed here parts := ⟨here, mem_trail_start here parts, id, h⟩

theorem Obstructed.step {part : String} {rest : List String} (h : d.Obstructed (step here part) rest) :
    d.Obstructed here (part :: rest) := by
  obtain ⟨p, hp, hfile⟩ := h
  exact ⟨p, List.mem_cons_of_mem _ hp, hfile⟩

/-- Fewer files are less in the way. -/
theorem Obstructed.mono (hd : ∀ p id, d'.node? p = some (.file id) → d.node? p = some (.file id))
    {parts : List String} (h : d'.Obstructed here parts) : d.Obstructed here parts := by
  obtain ⟨p, hp, id, hid⟩ := h
  exact ⟨p, hp, id, hd p id hid⟩

/-- A walk without a file in its way only fails where something is missing. -/
theorem walk_error {parts : List String} {e : IoError} (hclear : ¬ d.Obstructed here parts)
    (h : d.walk here parts = .error e) : e = .notFound := by
  induction parts generalizing here with
  | nil => cases h
  | cons part rest ih =>
    rw [walk_cons] at h
    split at h
    · cases h
      rfl
    · next id hid => exact absurd (.start hid _) hclear
    · exact ih (fun ho => hclear ho.step) h

theorem obstructed_of_walk {parts : List String} (h : d.walk here parts = .ok p)
    (hp : d.node? p = some (.file id)) : d.Obstructed here parts := by
  induction parts generalizing here with
  | nil =>
    cases h
    exact .start hp []
  | cons part rest ih =>
    rw [walk_cons_of_directory (directory_of_walk h)] at h
    exact (ih h).step

theorem directory_of_trail {parts : List String} (h : d.walk here parts = .ok p)
    (hp : d.node? p = some .directory) : ∀ q ∈ trail here parts, d.node? q = some .directory := by
  induction parts generalizing here with
  | nil =>
    cases h
    exact List.forall_mem_cons.2 ⟨hp, fun _ hq => absurd hq List.not_mem_nil⟩
  | cons part rest ih =>
    have hn := directory_of_walk h
    rw [walk_cons_of_directory hn] at h
    exact List.forall_mem_cons.2 ⟨hn, ih h⟩

theorem Opens.directory_of_trail (h : d.Opens path place) :
    ∀ q ∈ trail [] path.parts, d.node? q = some .directory :=
  Disk.directory_of_trail h.locate h.reaches.node?

/-- Nothing is in the way to a directory that is there. -/
theorem Opens.not_obstructed (h : d.Opens path place) : ¬ d.Obstructed [] path.parts := by
  rintro ⟨p, hp, id, hfile⟩
  rw [h.directory_of_trail p hp] at hfile
  cases hfile

/-! ## Paths that lead down -/

theorem trail_concat (here : Location) (parts : List String) (part : String) :
    trail here (parts ++ [part]) =
      trail here parts ++ [Disk.step (parts.foldl Disk.step here) part] := by
  induction parts generalizing here with
  | nil => rfl
  | cons first parts ih => exact congrArg (here :: ·) (ih (Disk.step here first))

theorem prefix_step {part : String} (h : part ≠ "..") (here : Location) :
    here <+: Disk.step here part := by
  unfold Disk.step
  rw [if_neg h]
  split
  · exact List.prefix_rfl
  · exact List.prefix_append _ _

theorem prefix_foldl_step {parts : List String} (h : ".." ∉ parts) (here : Location) :
    here <+: parts.foldl Disk.step here := by
  induction parts generalizing here with
  | nil => exact List.prefix_rfl
  | cons part parts ih =>
    rw [List.mem_cons, not_or] at h
    exact (prefix_step (Ne.symm h.1) here).trans (ih h.2 _)

/-- Without a step up, the way to a place stays above it. -/
theorem prefix_of_mem_trail {parts : List String} (h : ".." ∉ parts) (hp : p ∈ trail here parts) :
    p <+: parts.foldl Disk.step here := by
  induction parts generalizing here with
  | nil =>
    rw [List.mem_singleton.1 hp]
    exact List.prefix_rfl
  | cons part parts ih =>
    rcases List.mem_cons.1 hp with rfl | hp
    · exact prefix_foldl_step h p
    · rw [List.mem_cons, not_or] at h
      exact ih h.2 hp

/-- Without a step up, a path leads to its place when that can be reached. -/
theorem walk_of_reaches {parts : List String} (h : ".." ∉ parts)
    (hr : d.Reaches (parts.foldl Disk.step here)) :
    d.walk here parts = .ok (parts.foldl Disk.step here) := by
  induction parts generalizing here with
  | nil => rfl
  | cons part parts ih =>
    rw [walk_cons_of_directory (hr here (prefix_foldl_step h here))]
    rw [List.mem_cons, not_or] at h
    exact ih h.2 hr

/-! ## Making directories -/

/-- Directories were added, and only on the way. -/
structure Built (d d' : Disk) (way : List Location) : Prop extends Later d d' where
  same : d'.contents = d.contents
  kept : ∀ p node, d.node? p = some node → d'.node? p = some node
  added : ∀ x ∈ d'.nodes, x ∈ d.nodes ∨ x.2 = .directory ∧ x.1 ∈ way

variable {way : List Location}

theorem built_refl (d : Disk) (way : List Location) : Built d d way :=
  ⟨later_refl d, rfl, fun _ _ h => h, fun _ h => .inl h⟩

theorem Built.trans (h : Built d d' way) (h' : Built d' d'' way) : Built d d'' way where
  toLater := h.toLater.trans h'.toLater
  same := h'.same.trans h.same
  kept p node hn := h'.kept p node (h.kept p node hn)
  added x hx := by
    rcases h'.added x hx with hx | hx
    · exact h.added x hx
    · exact .inr hx

theorem Built.cons (h : Built d d' way) (p : Location) : Built d d' (p :: way) :=
  { h with added := fun x hx => (h.added x hx).imp_right fun hdir =>
      ⟨hdir.1, List.mem_cons_of_mem _ hdir.2⟩ }

theorem built_put (hl : d.Lies p) (hn : d.node? p = none) (way : List Location) :
    Built d (d.put p .directory) (p :: way) where
  toLater := ⟨List.prefix_rfl, fun _ h => tidyAt_put h, List.suffix_rfl, fun h => sound_put h hl hn⟩
  same := rfl
  kept q node hq := by
    rw [node?_put (ne_nil_of_node? (by rw [hn]; exact nofun)), if_neg, hq]
    rintro rfl
    rw [hn] at hq
    cases hq
  added x hx := by
    rcases List.mem_cons.1 hx with rfl | hx
    · exact .inr ⟨rfl, List.mem_cons_self⟩
    · exact .inl (List.mem_filter.1 hx).1

theorem Built.file (h : Built d d' way) (hp : d'.node? p = some (.file id)) :
    d.node? p = some (.file id) := by
  have hne : p ≠ [] := ne_nil_of_node? (by rw [hp]; exact nofun)
  cases hn : d.node? p with
  | some node => rw [h.kept p node hn] at hp; exact hp
  | none =>
    rcases h.added _ (mem_of_node? hne hp) with hmem | hdir
    · exact absurd hn (node?_ne_none hmem)
    · cases hdir.1

/-- Only places on the way that were missing are touched. -/
theorem Built.frame (h : Built d d' way) : Frame d d' fun p => p ∈ way ∧ d.node? p = none where
  toLater := h.toLater
  reaches p hr q hq := h.kept q _ (hr q hq)
  node p hp := by
    cases hn : d.node? p with
    | some node => exact h.kept p node hn
    | none =>
      have hne : p ≠ [] := ne_nil_of_node? (by rw [hn]; exact nofun)
      cases hn' : d'.node? p with
      | none => rfl
      | some node =>
        rcases h.added _ (mem_of_node? hne hn') with hmem | hdir
        · exact absurd hn (node?_ne_none hmem)
        · exact absurd ⟨hdir.2, hn⟩ hp

/-- The place itself is made when it is missing. -/
theorem reaches_made (hl : d.Lies here) (hn : d.node? here = none) :
    (d.put here .directory).Reaches here := by
  refine Lies.reaches (hl.mono (built_put hl hn []).frame.reaches) ?_
  rw [node?_put (ne_nil_of_node? (by rw [hn]; exact nofun)), if_pos rfl]

theorem makeDirectories_step (here : Location) (part : String) (rest : List String) :
    (if part = "" ∨ part = "." then makeDirectories here rest
      else if part = ".." then makeDirectories here.dropLast rest
      else makeDirectories (here ++ [part]) rest) = makeDirectories (step here part) rest := by
  unfold step
  split
  · rfl
  · split <;> rfl

theorem ends_makeDirectories {parts : List String} (hl : d.Lies here) :
    Ends (makeDirectories here parts) d
      (fun _ d' => Built d d' (trail here parts) ∧
        d'.walk here parts = .ok (parts.foldl step here) ∧ d'.Reaches (parts.foldl step here))
      fun _ _ => d.Obstructed here parts := by
  induction parts generalizing here d with
  | nil =>
    unfold makeDirectories
    refine ends_get_bind ?_
    cases hn : d.node? here with
    | none => exact ends_modify ⟨built_put hl hn [], rfl, reaches_made hl hn⟩
    | some node =>
      cases node with
      | directory => exact Ends.pure ⟨built_refl d _, rfl, hl.reaches hn⟩
      | file id => exact Ends.throw (.start hn [])
  | cons part rest ih =>
    -- what is left to do once there is a directory here
    have next : ∀ d₁, Built d d₁ (trail here (part :: rest)) → d₁.Reaches here →
        Ends (if part = "" ∨ part = "." then makeDirectories here rest
          else if part = ".." then makeDirectories here.dropLast rest
          else makeDirectories (here ++ [part]) rest) d₁
          (fun _ d' => Built d d' (trail here (part :: rest)) ∧
            d'.walk here (part :: rest) = .ok (rest.foldl step (step here part)) ∧
            d'.Reaches (rest.foldl step (step here part)))
          fun _ _ => d.Obstructed here (part :: rest) := by
      intro d₁ hb hr
      rw [makeDirectories_step]
      refine (ih (hr.lies_step part)).mono ?_ fun _ _ ho => (ho.mono fun p id => hb.file).step
      rintro _ d' ⟨hb', hw, hr'⟩
      refine ⟨hb.trans (hb'.cons here), ?_, hr'⟩
      rw [walk_cons_of_directory (hb'.frame.reaches _ hr).node?, hw]
    unfold makeDirectories
    refine ends_get_bind ?_
    cases hn : d.node? here with
    | none => exact ends_modify_bind (next _ (built_put hl hn _) (reaches_made hl hn))
    | some node =>
      cases node with
      | directory => exact next d (built_refl d _) (hl.reaches hn)
      | file id => exact Ends.throw (.start hn _)

theorem ends_createDirectory (path : Path) :
    Ends (createDirectory path) d
      (fun _ d' => Built d.tick d' (trail [] path.parts) ∧ d'.Opens path (target path))
      fun e d' => d.Obstructed [] path.parts ∨ d' = d.tick ∧ some e ∈ d.faults := by
  refine ends_attempt_bind (fun e he => .inr ⟨rfl, he⟩) ?_
  have htick : ∀ p id, d.tick.node? p = some (.file id) → d.node? p = some (.file id) :=
    fun _ _ h => h
  refine (ends_makeDirectories (lies_nil d.tick)).mono ?_ fun _ _ ho => .inl (ho.mono htick)
  rintro _ d' ⟨hb, hw, hr⟩
  exact ⟨hb, hw, hr⟩

theorem ends_makeDirectories_of_walk {parts : List String} {fail : IoError → Disk → Prop}
    (h : d.walk here parts = .ok p) (hp : d.node? p = some .directory) :
    Ends (makeDirectories here parts) d (fun _ d' => d' = d) fail := by
  induction parts generalizing here with
  | nil =>
    cases h
    unfold makeDirectories
    refine ends_get_bind ?_
    rw [hp]
    exact Ends.pure rfl
  | cons part rest ih =>
    have hn := directory_of_walk h
    rw [walk_cons_of_directory hn] at h
    unfold makeDirectories
    refine ends_get_bind ?_
    rw [hn, makeDirectories_step]
    exact ih h

/-- Making a directory that is there changes nothing. -/
theorem ends_createDirectory_of_opens (h : d.Opens path place) :
    Ends (createDirectory path) d (fun _ d' => d' = d.tick)
      fun e d' => d' = d.tick ∧ some e ∈ d.faults := by
  refine ends_attempt_bind (fun e he => ⟨rfl, he⟩) ?_
  have hopens : d.tick.Opens path place := (frame_tick d).opens h
  exact ends_makeDirectories_of_walk hopens.locate hopens.reaches.node?

/-! ## Removing directories -/

/-- What is found where the parts spell it, or why nothing is found. -/
theorem find_error {e : IoError} (h : d.find path = .error e) :
    e = .notFound ∨ d.Obstructed [] path.parts := by
  by_cases hclear : d.Obstructed [] path.parts
  · exact .inr hclear
  · unfold Disk.find at h
    split at h
    · next e' hw =>
      cases h
      exact .inl (walk_error hclear hw)
    · split at h
      · cases h
        exact .inl rfl
      · cases h

theorem find_eq_ok (h : d.find path = .ok (place, node)) :
    place = target path ∧ (node = .directory ∨ d.Obstructed [] path.parts) := by
  unfold Disk.find at h
  split at h
  · cases h
  · next p hw =>
    split at h
    · cases h
    · next found hn =>
      cases h
      refine ⟨(walk_eq_ok (lies_nil d) hw).1, ?_⟩
      cases node with
      | directory => exact .inl rfl
      | file id => exact .inr (obstructed_of_walk hw hn)

/-- A tree is not removed when it is not found, when it is a file, or for a fault of the disk. -/
theorem ends_removeTree (path : Path) :
    Ends (removeTree path) d (fun _ d' => d' = d.tick.dropTree (target path))
      fun e d' => d' = d.tick ∧ (d.find path = .error e ∨
        e = .notADirectory ∧ d.Obstructed [] path.parts ∨ some e ∈ d.faults) := by
  refine ends_attempt_bind (fun e he => ⟨rfl, .inr (.inr he)⟩) (ends_get_bind ?_)
  rw [find_tick]
  cases hfind : d.find path with
  | error e => exact Ends.throw ⟨rfl, .inl rfl⟩
  | ok found =>
    obtain ⟨place, node⟩ := found
    obtain ⟨hplace, hnode⟩ := find_eq_ok hfind
    cases node with
    | directory => exact ends_modify (by rw [hplace])
    | file id => exact Ends.throw ⟨rfl, .inr (.inl ⟨rfl, hnode.resolve_left nofun⟩)⟩

/-- Nothing is below a place that was removed, or that was not found. -/
theorem not_prefix_of_removed (hs : d.Sound) (h : ".." ∉ path.parts)
    (hd : d' = d.tick.dropTree (target path) ∨ d' = d.tick ∧ d.find path = .error .notFound)
    {x : Location × Node} (hx : x ∈ d'.nodes) (hne : x.1 ≠ target path) : ¬ target path <+: x.1 := by
  intro hpre
  rcases hd with rfl | ⟨rfl, hfind⟩
  · exact (mem_dropTree.1 hx).2 hpre
  · -- all above the name are directories, so the path leads to its place
    have hr : d.Reaches (target path) := fun q hq =>
      hs x hx q (hq.trans hpre) fun he =>
        hne (List.IsPrefix.eq_of_length_le (he ▸ hq) hpre.length_le)
    have hopens : d.Opens path (target path) := ⟨walk_of_reaches h hr, hr⟩
    rw [hopens.find] at hfind
    cases hfind

theorem node?_of_dropTree (h : (d.dropTree place).node? p = some (.file id)) :
    d.node? p = some (.file id) := by
  by_cases hp : p = []
  · rw [hp, node?_nil] at h
    cases h
  rw [node?_of_ne_nil _ hp] at h ⊢
  have h' : (d.nodes.filter fun x => !place.isPrefixOf x.1).lookup p = some (.file id) := h
  rw [lookup_filter d.nodes (fun at_ => !place.isPrefixOf at_) p] at h'
  split at h'
  · exact h'
  · cases h'

/-! ## Ways that lead down -/

theorem foldl_step_mem_trail (here : Location) (parts : List String) :
    parts.foldl step here ∈ trail here parts := by
  induction parts generalizing here with
  | nil => exact List.mem_cons_self
  | cons part parts ih => exact List.mem_cons_of_mem _ (ih _)

theorem walk_of_trail {parts : List String}
    (h : ∀ q ∈ trail here parts, d.node? q = some .directory) :
    d.walk here parts = .ok (parts.foldl step here) := by
  induction parts generalizing here with
  | nil => rfl
  | cons part parts ih =>
    rw [walk_cons_of_directory (h here (mem_trail_start here _))]
    exact ih fun q hq => h q (List.mem_cons_of_mem _ hq)

/-- A walk on which nothing is missing does not miss anything. -/
theorem walk_ne_notFound {parts : List String} (h : ∀ q ∈ trail here parts, d.node? q ≠ none) :
    d.walk here parts ≠ .error .notFound := by
  induction parts generalizing here with
  | nil => exact nofun
  | cons part parts ih =>
    rw [walk_cons]
    split
    · next hn => exact absurd hn (h here (mem_trail_start here _))
    · exact nofun
    · exact ih fun q hq => h q (List.mem_cons_of_mem _ hq)

/-- The path leads to a place below the top, and all places on the way are above it. -/
structure Downward (path : Path) : Prop where
  below : target path ≠ []
  way : ∀ q ∈ trail [] path.parts, q <+: target path

theorem downward_of_parts (h : ".." ∉ path.parts) (hp : target path ≠ []) : Downward path where
  below := hp
  way _ hq := prefix_of_mem_trail h hq

theorem target_join {name : String} (h : Plain name) (path : Path) :
    target (path.join name) = target path ++ [name] := by
  rw [target, parts_join, List.foldl_append, ← target]
  exact h.step _

theorem Downward.join {name : String} (h : Downward path) (hname : Plain name) :
    Downward (path.join name) where
  below := by
    rw [target_join hname]
    exact List.concat_ne_nil _ _
  way q hq := by
    rw [parts_join, trail_concat, List.mem_append, List.mem_singleton, ← target, hname.step] at hq
    rw [target_join hname]
    rcases hq with hq | rfl
    · exact (h.way q hq).trans (List.prefix_append _ _)
    · exact List.prefix_rfl

theorem Downward.opens (h : Downward path) (hr : d.Reaches (target path)) :
    d.Opens path (target path) :=
  ⟨walk_of_trail fun q hq => hr q (h.way q hq), hr⟩

/-- Where nothing is found, nothing is. -/
theorem Downward.vacant (h : Downward path) (hs : d.Sound)
    (hfind : d.find path = .error .notFound) (hp : target path <+: p) : d.node? p = none := by
  by_contra hn
  have hway : ∀ q ∈ trail [] path.parts, d.node? q ≠ none := by
    intro q hq
    by_cases hqp : q = p
    · rwa [hqp]
    · rw [hs.lies hn q ((h.way q hq).trans hp) hqp]
      exact nofun
  unfold Disk.find at hfind
  split at hfind
  · next e hwalk =>
    cases hfind
    exact walk_ne_notFound hway hwalk
  · next place hwalk =>
    split at hfind
    · next hnone =>
      rw [(walk_eq_ok (lies_nil d) hwalk).1] at hnone
      exact hway _ (foldl_step_mem_trail _ _) hnone
    · cases hfind

/-- A disk without faults on which a directory can be made at the path, where nothing is yet. -/
structure Vacant (d : Disk) (path : Path) : Prop where
  sound : d.Sound
  reliable : d.Reliable
  downward : Downward path
  clear : ¬ d.Obstructed [] path.parts
  empty : ∀ p, target path <+: p → d.node? p = none

/-- Without faults there is none that takes a directory for missing. -/
theorem Vacant.honest (h : d.Vacant path) : some .notFound ∉ d.faults := fun hfault =>
  not_reliable hfault h.reliable

/-- A disk that has nothing yet has room everywhere. -/
theorem vacant_empty (h : Downward path) : ({} : Disk).Vacant path where
  sound := nofun
  reliable := nofun
  downward := h
  clear := by
    intro ⟨p, _, id, hfile⟩
    rw [node?_of_ne_nil _ (ne_nil_of_node? (by rw [hfile]; nofun))] at hfile
    cases hfile
  empty p hp := node?_of_ne_nil _ (hp.ne_nil h.below)

theorem Vacant.not_obstructed_join {name : String} (h : d.Vacant path) (hname : Plain name) :
    ¬ d.Obstructed [] (path.join name).parts := by
  rintro ⟨q, hq, id, hfile⟩
  rw [parts_join, trail_concat, List.mem_append, List.mem_singleton, ← target, hname.step] at hq
  rcases hq with hq | rfl
  · exact h.clear ⟨q, hq, id, hfile⟩
  · rw [h.empty _ (List.prefix_append _ _)] at hfile
    cases hfile

/-! ## Changes in one place -/

/-- Nothing is at or below the place any more, and all else is as it was. -/
structure Cleared (d d' : Disk) (place : Location) : Prop extends Later d d' where
  gone : ∀ p, place <+: p → d'.node? p = none
  node : ∀ p, ¬ place <+: p → d'.node? p = d.node? p

theorem cleared_dropTree (hp : place ≠ []) : Cleared d (d.dropTree place) place where
  toLater := later_dropTree d place
  gone p h := by rw [node?_dropTree hp, if_pos h]
  node p h := by rw [node?_dropTree hp, if_neg h]

theorem cleared_of_vacant (h : ∀ p, place <+: p → d.node? p = none) : Cleared d d place where
  toLater := later_refl d
  gone := h
  node _ _ := rfl

theorem Cleared.of_tick (h : Cleared d.tick d' place) : Cleared d d' place where
  toLater := (frame_tick d).toLater.trans h.toLater
  gone := h.gone
  node := h.node

/-- Taking names away puts no file in the way. -/
theorem Cleared.obstructed {parts : List String} (h : Cleared d d' place)
    (hob : d'.Obstructed here parts) : d.Obstructed here parts := by
  refine hob.mono fun p id hfile => ?_
  by_cases hpre : place <+: p
  · rw [h.gone p hpre] at hfile
    cases hfile
  · rwa [← h.node p hpre]

/-- Only the place and what is below it changes; directories may be made on the way to it. -/
structure Confined (d d' : Disk) (place : Location) : Prop extends Later d d' where
  kept : ∀ p, ¬ place <+: p → d.node? p ≠ none → d'.node? p = d.node? p
  made : ∀ p, ¬ place <+: p → d'.node? p ≠ none →
    d.node? p ≠ none ∨ p <+: place ∧ d'.node? p = some .directory
  file : ∀ id, d'.node? place = some (.file id) → d.node? place = some (.file id)

theorem confined_refl (d : Disk) (place : Location) : Confined d d place :=
  ⟨later_refl d, fun _ _ _ => rfl, fun _ _ h => .inl h, fun _ h => h⟩

theorem Confined.trans (h : Confined d d' place) (h' : Confined d' d'' place) :
    Confined d d'' place where
  toLater := h.toLater.trans h'.toLater
  kept p hp hn := by
    have hkept := h.kept p hp hn
    exact (h'.kept p hp (hkept ▸ hn)).trans hkept
  made p hp hn := by
    rcases h'.made p hp hn with hn' | hdir
    · refine (h.made p hp hn').imp_right fun hdir => ⟨hdir.1, ?_⟩
      rw [h'.kept p hp hn', hdir.2]
    · exact .inr hdir
  file id hid := h.file id (h'.file id hid)

theorem Cleared.confined (h : Cleared d d' place) : Confined d d' place where
  toLater := h.toLater
  kept p hp _ := h.node p hp
  made p hp hn := .inl (h.node p hp ▸ hn)
  file id hid := by
    rw [h.gone place List.prefix_rfl] at hid
    cases hid

theorem Frame.confined {touched : Location → Prop} (h : Frame d d' touched)
    (ht : ∀ p, touched p → place <+: p ∧ p ≠ place) : Confined d d' place where
  toLater := h.toLater
  kept p hp _ := h.node p fun htouched => hp (ht p htouched).1
  made p hp hn := .inl (h.node p (fun htouched => hp (ht p htouched).1) ▸ hn)
  file _ hid := h.node place (fun htouched => (ht place htouched).2 rfl) ▸ hid

theorem Built.confined (h : Built d d' way) (hway : ∀ q ∈ way, q <+: place) :
    Confined d d' place where
  toLater := h.toLater
  kept p _ hn := by
    obtain ⟨node, hnode⟩ := Option.ne_none_iff_exists'.1 hn
    rw [hnode, h.kept p node hnode]
  made p hp hn := by
    obtain ⟨node, hnode⟩ := Option.ne_none_iff_exists'.1 hn
    by_cases htop : p = []
    · rw [htop, node?_nil]
      exact .inl nofun
    · rcases h.added _ (mem_of_node? htop hnode) with hmem | ⟨hdir, hmem⟩
      · exact .inl (node?_ne_none hmem)
      · exact .inr ⟨hway p hmem, hnode.trans (congrArg some hdir)⟩
  file _ hid := h.file hid

/-- Nothing is lost or written: what is new are names in one place, and directories on the way. -/
structure Grown (d d' : Disk) (place : Location) : Prop extends Confined d d' place where
  same : d'.contents = d.contents
  stays : ∀ p node, d.node? p = some node → d'.node? p = some node

theorem grown_refl (d : Disk) (place : Location) : Grown d d place where
  toConfined := confined_refl d place
  same := rfl
  stays _ _ h := h

theorem Grown.find {found : Location × Node} (h : Grown d d' place) (hf : d.find path = .ok found) :
    d'.find path = .ok found :=
  find_of_kept h.stays hf

theorem Grown.content (h : Grown d d' place) (id : FileId) : d'.content id = d.content id := by
  rw [Disk.content, Disk.content, h.same]

/-- Nothing is left in the place; at most directories were made on the way to it. -/
structure Swept (d d' : Disk) (place : Location) : Prop extends Confined d d' place where
  gone : ∀ p, place <+: p → d'.node? p = none

/-- A change in one place is a change in every place above it. -/
theorem Confined.widen {above : Location} (h : Confined d d' place) (hpre : above <+: place) :
    Confined d d' above where
  toLater := h.toLater
  kept p hp hn := h.kept p (fun hplace => hp (hpre.trans hplace)) hn
  made p hp hn := by
    refine (h.made p (fun hplace => hp (hpre.trans hplace)) hn).imp_right fun ⟨hway, hdir⟩ => ⟨?_, hdir⟩
    exact (List.prefix_or_prefix_of_prefix hway hpre).resolve_right hp
  file id hid := by
    by_cases hplace : place <+: above
    · have hsame := hpre.eq_of_length_le hplace.length_le
      rw [hsame] at hid ⊢
      exact h.file id hid
    · by_cases hn : d.node? above = none
      · rcases h.made above hplace (by rw [hid]; exact nofun) with hn' | ⟨-, hdir⟩
        · exact absurd hn hn'
        · rw [hid] at hdir
          cases hdir
      · rw [← h.kept above hplace hn, hid]

/-- What is neither above nor below the place is spared. -/
theorem Confined.spares {other : Location} (h : Confined d d' place) (hne : ¬ other <+: place)
    (hne' : ¬ place <+: other) : Spares d d' other where
  toLater := h.toLater
  node p hp := by
    have hapart : ¬ place <+: p := fun hplace =>
      (List.prefix_or_prefix_of_prefix hp hplace).elim hne hne'
    by_cases hn : d.node? p = none
    · rw [hn]
      by_contra hn'
      rcases h.made p hapart hn' with hmem | ⟨habove, -⟩
      · exact hmem hn
      · exact hne (hp.trans habove)
    · exact h.kept p hapart hn
  reaches hr p hp := by
    have hdir := hr p hp
    rw [h.kept p (fun hplace => hne' (hplace.trans hp)) (by rw [hdir]; exact nofun), hdir]

end Spillway.Disk
