import Mathlib.Data.List.Infix
import Spillway.Disk
import Spillway.Proofs.KeyMap

/-!
# Finding the way in a tree

Following a path passes through directories only (`walk_eq_ok`), so it leads to the same place as
long as these stay (`walk_mono`). `Opens` says of a path that it leads to a directory; what a name
in it leads to is then decided by one node (`Opens.find_join`).
-/

namespace Spillway.Disk

variable {d d' : Disk} {here p q : Location} {node : Node} {name part : String}

/-! ## Nodes -/

theorem node?_nil (d : Disk) : d.node? [] = some .directory := if_pos rfl

theorem node?_of_ne_nil (d : Disk) (h : p ≠ []) : d.node? p = d.nodes.lookup p := if_neg h

theorem ne_nil_of_node? (h : d.node? p ≠ some .directory) : p ≠ [] := by
  rintro rfl
  exact h (node?_nil d)

theorem node?_put (hq : q ≠ []) :
    (d.put q node).node? p = if p = q then some node else d.node? p := by
  by_cases hp : p = []
  · rw [hp, node?_nil, node?_nil, if_neg (Ne.symm hq)]
  rw [node?_of_ne_nil _ hp, node?_of_ne_nil _ hp, put, List.lookup_cons]
  by_cases h : p = q
  · rw [if_pos h, beq_iff_eq.2 h]
  · rw [if_neg h, beq_eq_false_iff_ne.2 h,
      lookup_filter d.nodes (fun at_ => decide (at_ ≠ q)) p, if_pos (decide_eq_true h)]

theorem mem_dropTree {x : Location × Node} :
    x ∈ (d.dropTree q).nodes ↔ x ∈ d.nodes ∧ ¬ q <+: x.1 := by
  show x ∈ d.nodes.filter (fun x => !q.isPrefixOf x.1) ↔ _
  rw [List.mem_filter, Bool.not_eq_true', Bool.eq_false_iff, Ne, List.isPrefixOf_iff_prefix]

theorem node?_dropTree (hq : q ≠ []) :
    (d.dropTree q).node? p = if q <+: p then none else d.node? p := by
  by_cases hp : p = []
  · rw [hp, node?_nil, node?_nil, if_neg fun h => hq (List.prefix_nil.1 h)]
  rw [node?_of_ne_nil _ hp, node?_of_ne_nil _ hp]
  show (d.nodes.filter fun pair => !q.isPrefixOf pair.1).lookup p = _
  rw [lookup_filter d.nodes (fun at_ => !q.isPrefixOf at_) p]
  by_cases h : q <+: p
  · rw [if_pos h, List.isPrefixOf_iff_prefix.2 h, Bool.not_true, if_neg Bool.false_ne_true]
  · rw [if_neg h, if_pos]
    rw [Bool.not_eq_true', Bool.eq_false_iff]
    exact fun h' => h (List.isPrefixOf_iff_prefix.1 h')

/-! ## Directories all the way -/

/-- All places above are directories. -/
def Lies (d : Disk) (place : Location) : Prop :=
  ∀ p, p <+: place → p ≠ place → d.node? p = some .directory

/-- The place and all above it are directories. -/
def Reaches (d : Disk) (place : Location) : Prop := ∀ p, p <+: place → d.node? p = some .directory

theorem lies_nil (d : Disk) : d.Lies [] := fun _ h hne => absurd (List.prefix_nil.1 h) hne

theorem Lies.reaches (h : d.Lies here) (hn : d.node? here = some .directory) : d.Reaches here := by
  intro p hp
  by_cases he : p = here
  · rw [he, hn]
  · exact h p hp he

theorem Reaches.node? (h : d.Reaches here) : d.node? here = some .directory := h here List.prefix_rfl

theorem Reaches.lies (h : d.Reaches here) : d.Lies here := fun p hp _ => h p hp

theorem Reaches.lies_concat (h : d.Reaches here) (name : String) : d.Lies (here ++ [name]) := by
  intro p hp hne
  rcases List.prefix_concat_iff.1 hp with he | hp
  · exact absurd he hne
  · exact h p hp

theorem Reaches.dropLast (h : d.Reaches here) : d.Reaches here.dropLast :=
  fun p hp => h p (hp.trans (List.dropLast_prefix here))

theorem Lies.mono (h : d.Lies here) (hd : ∀ p, d.Reaches p → d'.Reaches p) : d'.Lies here := by
  intro p hp hne
  refine (hd p fun q hq => h q (hq.trans hp) fun he => hne ?_).node?
  rw [← he] at hp
  exact (hp.eq_of_length_le hq.length_le).trans he

/-! ## Following a path -/

/-- Where a part of a path leads from a directory. -/
def step (here : Location) (part : String) : Location :=
  if part = "" ∨ part = "." then here
  else if part = ".." then here.dropLast
  else here ++ [part]

theorem Reaches.lies_step (h : d.Reaches here) (part : String) : d.Lies (step here part) := by
  unfold step
  split
  · exact h.lies
  · split
    · exact h.dropLast.lies
    · exact h.lies_concat part

theorem walk_cons (d : Disk) (here : Location) (part : String) (rest : List String) :
    d.walk here (part :: rest) =
      match d.node? here with
      | none => .error .notFound
      | some (.file _) => .error .notADirectory
      | some .directory => d.walk (step here part) rest := by
  rw [walk, step]
  cases d.node? here with
  | none => rfl
  | some node =>
    cases node with
    | file id => rfl
    | directory =>
      simp only
      split
      · rfl
      · split <;> rfl

theorem walk_cons_of_directory (h : d.node? here = some .directory) (part : String)
    (rest : List String) : d.walk here (part :: rest) = d.walk (step here part) rest := by
  rw [walk_cons, h]

theorem directory_of_walk {rest : List String} (h : d.walk here (part :: rest) = .ok p) :
    d.node? here = some .directory := by
  rw [walk_cons] at h
  split at h
  · cases h
  · cases h
  · assumption

/-- A walk ends at the place that its parts spell, and all above it are directories. -/
theorem walk_eq_ok {parts : List String} (hl : d.Lies here) (h : d.walk here parts = .ok p) :
    p = parts.foldl step here ∧ d.Lies p := by
  induction parts generalizing here with
  | nil =>
    cases h
    exact ⟨rfl, hl⟩
  | cons part rest ih =>
    have hn := directory_of_walk h
    rw [walk_cons_of_directory hn] at h
    exact ih ((hl.reaches hn).lies_step part) h

/-- As long as the directories stay, a walk leads to the same place. -/
theorem walk_mono (hd : ∀ p, d.Reaches p → d'.Reaches p) {parts : List String} (hl : d.Lies here)
    (h : d.walk here parts = .ok p) : d'.walk here parts = .ok p := by
  induction parts generalizing here with
  | nil => exact h
  | cons part rest ih =>
    have hn := directory_of_walk h
    have hr := hl.reaches hn
    rw [walk_cons_of_directory hn] at h
    rw [walk_cons_of_directory (hd here hr).node?]
    exact ih (hr.lies_step part) h

/-- As long as all names stay, a path leads to the same node. -/
theorem find_of_kept (hd : ∀ p node, d.node? p = some node → d'.node? p = some node) {path : Path}
    {found : Location × Node} (h : d.find path = .ok found) : d'.find path = .ok found := by
  unfold Disk.find at h ⊢
  split at h
  · cases h
  · next place hplace =>
    rw [locate, walk_mono (fun p hr q hq => hd q _ (hr q hq)) (lies_nil d) hplace]
    split at h
    · cases h
    · next node hnode =>
      simp only [hd place node hnode]
      exact h

theorem walk_append {front : List String} (h : d.walk here front = .ok p) (back : List String) :
    d.walk here (front ++ back) = d.walk p back := by
  induction front generalizing here with
  | nil =>
    cases h
    rfl
  | cons part front ih =>
    have hn := directory_of_walk h
    rw [walk_cons_of_directory hn] at h
    rw [List.cons_append, walk_cons_of_directory hn]
    exact ih h

/-- What a path leads to is decided by the names alone. -/
theorem walk_congr (hd : ∀ p, d'.node? p = d.node? p) (here : Location) (parts : List String) :
    d'.walk here parts = d.walk here parts := by
  induction parts generalizing here with
  | nil => rfl
  | cons part rest ih => rw [walk_cons, walk_cons, hd, ih]

theorem find_congr (hd : ∀ p, d'.node? p = d.node? p) (path : Path) :
    d'.find path = d.find path := by
  simp only [Disk.find, locate, walk_congr hd, hd]

/-! ## Paths of directories -/

/-- The name leads down, not up or nowhere. -/
def Plain (name : String) : Prop := name ≠ "" ∧ name ≠ "." ∧ name ≠ ".."

theorem Plain.step (h : Plain name) (here : Location) : step here name = here ++ [name] := by
  rw [Disk.step, if_neg (not_or.2 ⟨h.1, h.2.1⟩), if_neg h.2.2]

/-- The path leads to a directory at a place. -/
structure Opens (d : Disk) (dir : Path) (place : Location) : Prop where
  locate : d.locate dir = .ok place
  reaches : d.Reaches place

theorem Opens.mono {dir : Path} {place : Location} (h : d.Opens dir place)
    (hd : ∀ p, d.Reaches p → d'.Reaches p) : d'.Opens dir place :=
  ⟨walk_mono hd (lies_nil d) h.locate, hd place h.reaches⟩

theorem Opens.find {dir : Path} {place : Location} (h : d.Opens dir place) :
    d.find dir = .ok (place, .directory) := by
  rw [Disk.find, h.locate]
  simp only [h.reaches.node?]

theorem parts_join (dir : Path) (name : String) : (dir.join name).parts = dir.parts ++ [name] :=
  (List.append_assoc _ _ _).symm

/-- A name in a directory is looked for below its place. -/
theorem Opens.locate_join {dir : Path} {place : Location} (h : d.Opens dir place)
    (hname : Plain name) : d.locate (dir.join name) = .ok (place ++ [name]) := by
  rw [Disk.locate, parts_join, walk_append h.locate, walk_cons_of_directory h.reaches.node?,
    hname.step, walk]

theorem Opens.find_join {dir : Path} {place : Location} (h : d.Opens dir place)
    (hname : Plain name) (hn : d.node? (place ++ [name]) = some node) :
    d.find (dir.join name) = .ok (place ++ [name], node) := by
  rw [Disk.find, h.locate_join hname]
  simp only [hn]

theorem Opens.find_join_of_none {dir : Path} {place : Location} (h : d.Opens dir place)
    (hname : Plain name) (hn : d.node? (place ++ [name]) = none) :
    d.find (dir.join name) = .error .notFound := by
  rw [Disk.find, h.locate_join hname]
  simp only [hn]

theorem Opens.children {dir : Path} {place : Location} (h : d.Opens dir place) :
    d.children dir = .ok (d.childrenAt place) := by
  rw [Disk.children, h.find]

/-! ## Names in a directory -/

theorem childrenAt_eq (d : Disk) (place : Location) : d.childrenAt place =
    d.nodes.filterMap fun at_ =>
      match at_.1.getLast? with
      | some name => if at_.1.dropLast = place then some (name, at_.2) else none
      | none => none := rfl

theorem mem_childrenAt {place : Location} :
    (name, node) ∈ d.childrenAt place ↔ (place ++ [name], node) ∈ d.nodes := by
  rw [childrenAt_eq, List.mem_filterMap]
  constructor
  · rintro ⟨⟨at_, node'⟩, hmem, h⟩
    rcases List.eq_nil_or_concat at_ with rfl | ⟨above, last, rfl⟩
    · cases h
    · simp only [List.concat_eq_append, List.getLast?_concat, List.dropLast_concat,
        Option.ite_none_right_eq_some, Option.some.injEq, Prod.mk.injEq] at h
      obtain ⟨rfl, rfl, rfl⟩ := h
      rwa [List.concat_eq_append] at hmem
  · intro hmem
    refine ⟨_, hmem, ?_⟩
    simp only [List.getLast?_concat, List.dropLast_concat, if_true]

theorem mem_of_node? (hp : p ≠ []) (h : d.node? p = some node) : (p, node) ∈ d.nodes := by
  rw [node?_of_ne_nil _ hp, List.lookup_eq_some_iff] at h
  obtain ⟨front, back, hnodes, -⟩ := h
  rw [hnodes]
  exact List.mem_append_right _ List.mem_cons_self

theorem node?_ne_none (h : (p, node) ∈ d.nodes) : d.node? p ≠ none := by
  by_cases hp : p = []
  · rw [hp, node?_nil]
    exact nofun
  · rw [node?_of_ne_nil _ hp, Ne, List.lookup_eq_none_iff]
    intro hnone
    have := hnone _ h
    rw [bne_self_eq_false] at this
    cases this

theorem mem_childrenAt_of_node? {place : Location} (h : d.node? (place ++ [name]) = some node) :
    (name, node) ∈ d.childrenAt place :=
  mem_childrenAt.2 (mem_of_node? (List.concat_ne_nil _ _) h)

end Spillway.Disk
