import Mathlib.Logic.Function.Basic
import Spillway.Proofs.Engine.Start
import Spillway.Proofs.Partition.Serving

/-!
# Engines that go on after a failure

`Engine.Stands` is what every call on an engine keeps, whether it succeeds, is refused or fails: the
partitions that are registered have the values of a registry of keyspaces (`Registry`), and as long
as nothing failed (`clean`) there is nothing else in the directory for partitions. One lemma for each
call says what it does to the registry and that it stays out of all other partitions.
-/

namespace Spillway.Engine

open Table
open Function (update_self update_of_ne)

/-- The values of the keys in each partition that there is. -/
abbrev Registry := String → Option (Bytes → Option Bytes)

variable {e e' : Engine} {d d' : Disk} {r : Registry} {uses uses' : Nat} {clean : Prop}
  {name other : String} {p : Partition} {value : Bytes → Option Bytes} {root path : Path} {α : Type}

/-! ## Places -/

/-- The place of a partition. -/
def home (root : Path) (name : String) : Location := Disk.target (partitionsDir root) ++ [name]

theorem target_partitionDir_eq (root : Path) (h : isPartitionName name = true) :
    Disk.target (partitionDir root name) = home root name :=
  target_partitionDir root (plain_of_isPartitionName h)

theorem home_prefix_home (h : home root name <+: home root other) : other = name :=
  Store.prefix_concat_concat h

theorem root_prefix_home (root : Path) (name : String) : Disk.target root <+: home root name := by
  rw [home, target_partitionsDir, List.append_assoc]
  exact List.prefix_append _ _

theorem downward_partitionsDir (h : Disk.Downward root) : Disk.Downward (partitionsDir root) :=
  h.join plain_partitions

theorem downward_partitionDir (h : Disk.Downward root) (hname : isPartitionName name = true) :
    Disk.Downward (partitionDir root name) :=
  (downward_partitionsDir h).join (plain_of_isPartitionName hname)

/-! ## The registry -/

/-- A partition that is registered has its directory and its values. -/
structure Member (root : Path) (d : Disk) (uses : Nat) (clean : Prop) (name : String) (p : Partition)
    (value : Bytes → Option Bytes) : Prop where
  named : isPartitionName name = true
  dir : p.dir = partitionDir root name
  serves : p.Serves d (home root name) value uses clean

/-- The partitions of the engine are those of the registry. The disk is in order, and no file is where
directories of partitions belong. -/
structure Stands (e : Engine) (d : Disk) (r : Registry) (uses : Nat) (clean : Prop) : Prop where
  downward : Disk.Downward e.root
  honest : some .notFound ∉ d.faults
  sound : d.Sound
  clear : ∀ name, isPartitionName name = true → ¬ d.Obstructed [] (partitionDir e.root name).parts
  members : ∀ name, Option.Rel (Member e.root d uses clean name) (e.partition? name) (r name)
  reliable : clean → d.Reliable
  exact : clean → ∀ name, d.node? (home e.root name) ≠ none → (r name).isSome = true
  gone : e.closed = true →
    e.partitions = [] ∧ (clean → ∀ q, Disk.target e.root <+: q → d.node? q = none)

/-- What a call on one partition leaves: the engine stays as it is but for this partition, and the disk
but for the place of it. -/
structure Step (name : String) (e e' : Engine) (d d' : Disk) : Prop
    extends Disk.Confined d d' (home e.root name) where
  root : e'.root = e.root
  disposable : e'.disposable = e.disposable
  closed : e'.closed = e.closed
  others : ∀ other, other ≠ name → e'.partition? other = e.partition? other

/-- All partitions but one are as they were, and so is what is in their directories. -/
def Spared (name : String) (e : Engine) (d : Disk) (t : Engine × Disk) : Prop :=
  ∀ other p, other ≠ name → e.partition? other = some p →
    t.1.partition? other = some p ∧ Disk.Spares d t.2 (home e.root other)

theorem step_refl (name : String) (e : Engine) (d : Disk) : Step name e e d d :=
  ⟨Disk.confined_refl d _, rfl, rfl, rfl, fun _ _ => rfl⟩

theorem spared_refl (name : String) (e : Engine) (d : Disk) : Spared name e d (e, d) :=
  fun _ _ _ hp => ⟨hp, Disk.spares_refl d _⟩

theorem Step.spared (h : Step name e e' d d') : Spared name e d (e', d') := fun other _ hne hp =>
  ⟨(h.others other hne).trans hp, h.spares (fun hpre => hne (home_prefix_home hpre).symm)
    fun hpre => hne (home_prefix_home hpre)⟩

theorem Stands.value_of_partition? (h : e.Stands d r uses clean) (hp : e.partition? name = some p) :
    ∃ value, r name = some value ∧ Member e.root d uses clean name p value := by
  have hmember := h.members name
  rw [hp] at hmember
  generalize r name = value? at hmember
  cases hmember with
  | some hm => exact ⟨_, rfl, hm⟩

theorem Stands.partition?_of_value (h : e.Stands d r uses clean) (hv : r name = some value) :
    ∃ p, e.partition? name = some p ∧ Member e.root d uses clean name p value := by
  have hmember := h.members name
  rw [hv] at hmember
  generalize e.partition? name = p? at hmember
  cases hmember with
  | some hm => exact ⟨_, rfl, hm⟩

theorem Stands.partition?_eq_none (h : e.Stands d r uses clean) :
    e.partition? name = none ↔ r name = none := by
  have hmember := h.members name
  generalize e.partition? name = p? at hmember
  generalize r name = value? at hmember
  cases hmember with
  | some _ => simp
  | none => simp

theorem Stands.unused_of_closed (h : e.Stands d r uses clean) (hc : e.closed = true)
    (name : String) : r name = none := by
  rw [← h.partition?_eq_none]
  exact partition?_of_nil (h.gone hc).1 name

/-- An engine that stands is ready for each partition that it does not have. -/
theorem Stands.ready (h : e.Stands d r uses clean) (hopen : e.closed = false)
    (hname : isPartitionName name = true) (hnone : r name = none) : e.Ready d name where
  opened := hopen
  named := hname
  unused := h.partition?_eq_none.2 hnone
  honest := h.honest
  clear := h.clear name hname
  vacant hfind _ hx hpre := Disk.node?_ne_none hx
    ((downward_partitionDir h.downward hname).vacant h.sound hfind hpre)
  outside q hq hpre :=
    ((downward_partitionDir h.downward hname).way q hq).eq_of_length_le hpre.length_le

theorem Member.weaken {clean' : Prop} (h : Member root d uses clean name p value)
    (hu : uses ≤ uses') (hc : clean' → clean) : Member root d uses' clean' name p value :=
  ⟨h.named, h.dir, h.serves.weaken hu hc⟩

theorem Member.spares (hroot : Disk.Downward root) (h : Member root d uses clean name p value)
    (hd : Disk.Spares d d' (home root name)) : Member root d' uses clean name p value := by
  refine ⟨h.named, h.dir, h.serves.spares hd ?_⟩
  have hreaches := hd.reaches h.serves.opens.reaches
  rw [h.dir, ← target_partitionDir_eq root h.named]
  rw [← target_partitionDir_eq root h.named] at hreaches
  exact (downward_partitionDir hroot h.named).opens hreaches

theorem Stands.weaken {clean' : Prop} (h : e.Stands d r uses clean) (hu : uses ≤ uses')
    (hc : clean' → clean) : e.Stands d r uses' clean' where
  downward := h.downward
  honest := h.honest
  sound := h.sound
  clear := h.clear
  members name := by
    have hmember := h.members name
    generalize e.partition? name = p? at hmember
    generalize r name = value? at hmember
    cases hmember with
    | some hm => exact .some (hm.weaken hu hc)
    | none => exact .none
  reliable hclean := h.reliable (hc hclean)
  exact hclean := h.exact (hc hclean)
  gone hclosed := ⟨(h.gone hclosed).1, fun hclean => (h.gone hclosed).2 (hc hclean)⟩

theorem Stands.honest_later (h : e.Stands d r uses clean) (hd : Disk.Later d d') :
    some .notFound ∉ d'.faults := fun hmem => h.honest (hd.faults.mem hmem)

/-- A call on one partition leaves an engine standing that says what is left of that partition. -/
theorem Stands.step {clean' : Prop} {value? : Option (Bytes → Option Bytes)}
    (h : e.Stands d r uses clean) (hs : Step name e e' d d') (hopen : e.closed = false) (hu : uses ≤ uses')
    (hc : clean' → clean)
    (hmember : Option.Rel (Member e.root d' uses' clean' name) (e'.partition? name) value?)
    (hexact : clean' → d'.node? (home e.root name) ≠ none → value?.isSome = true) :
    e'.Stands d' (Function.update r name value?) uses' clean' where
  downward := hs.root ▸ h.downward
  honest := h.honest_later hs.toLater
  sound := hs.sound h.sound
  clear other hother := by
    rw [hs.root]
    rintro ⟨q, hq, id, hfile⟩
    refine h.clear other hother ⟨q, hq, id, ?_⟩
    by_cases hpre : home e.root name <+: q
    · have habove := (downward_partitionDir h.downward hother).way q hq
      rw [target_partitionDir_eq e.root hother] at habove
      have hsame := home_prefix_home (hpre.trans habove)
      rw [hsame] at habove
      have hq' := habove.eq_of_length_le hpre.length_le
      rw [hq'] at hfile ⊢
      exact hs.file id hfile
    · rcases hs.made q hpre (by rw [hfile]; exact nofun) with hn | ⟨-, hdir⟩
      · rw [← hs.kept q hpre hn, hfile]
      · rw [hfile] at hdir
        cases hdir
  members other := by
    rw [hs.root]
    by_cases hother : other = name
    · rw [hother, update_self]
      exact hmember
    · rw [update_of_ne hother, hs.others other hother]
      have hrel := h.members other
      generalize hp : e.partition? other = p? at hrel
      generalize r other = v? at hrel
      cases hrel with
      | some hm =>
        exact .some ((hm.weaken hu hc).spares h.downward (hs.spared other _ hother hp).2)
      | none => exact .none
  reliable hclean := hs.reliable (h.reliable (hc hclean))
  exact hclean other hn := by
    rw [hs.root] at hn
    by_cases hother : other = name
    · rw [hother, update_self]
      exact hexact hclean (hother ▸ hn)
    · rw [update_of_ne hother]
      refine h.exact (hc hclean) other ?_
      rcases hs.made _ (fun hpre => hother (home_prefix_home hpre)) hn with hn | ⟨hpre, -⟩
      · exact hn
      · exact absurd (home_prefix_home hpre).symm hother
  gone hclosed := by
    rw [hs.closed, hopen] at hclosed
    cases hclosed

end Spillway.Engine
