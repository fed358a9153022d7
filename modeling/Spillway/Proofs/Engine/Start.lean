import Spillway.Proofs.Engine

/-!
# Starting an engine

An engine that was just started at a path without steps up is ready for every partition
(`ready_of_start`): what was at its root is gone.
-/

namespace Spillway.Engine

variable {e : Engine} {d d' : Disk} {root : Path} {name : String}

theorem plain_of_isPartitionName (h : isPartitionName name = true) : Disk.Plain name := by
  unfold isPartitionName at h
  simp only [Bool.and_eq_true, decide_eq_true_iff] at h
  obtain ⟨⟨⟨hne, -⟩, hhead⟩, -⟩ := h
  refine ⟨?_, ?_, ?_⟩
  · rintro rfl
    exact hne rfl
  · rintro rfl
    exact hhead rfl
  · rintro rfl
    exact hhead rfl

theorem plain_partitions : Disk.Plain "partitions" := ⟨by decide, by decide, by decide⟩

theorem target_partitionsDir (root : Path) :
    Disk.target (partitionsDir root) = Disk.target root ++ ["partitions"] :=
  Disk.target_join plain_partitions root

theorem target_partitionDir (root : Path) (h : Disk.Plain name) :
    Disk.target (partitionDir root name) = Disk.target (partitionsDir root) ++ [name] :=
  Disk.target_join h (partitionsDir root)

theorem mem_trail_partitionDir {q : Location} (h : Disk.Plain name)
    (hq : q ∈ Disk.trail [] (partitionDir root name).parts) :
    q ∈ Disk.trail [] (partitionsDir root).parts ∨ q = Disk.target (partitionDir root name) := by
  rw [partitionDir, Disk.parts_join, Disk.trail_concat, List.mem_append, List.mem_singleton] at hq
  rwa [target_partitionDir root h, ← h.step (Disk.target (partitionsDir root))]

/-- Without steps up, the way to all partitions does not lead through one of them. -/
theorem not_prefix_of_mem_trail {q : Location} (h : Disk.Plain name) (hroot : ".." ∉ root.parts)
    (hq : q ∈ Disk.trail [] (partitionsDir root).parts) :
    ¬ Disk.target (partitionDir root name) <+: q := by
  have hdots : ".." ∉ (partitionsDir root).parts := by
    rw [partitionsDir, Disk.parts_join, List.mem_append, not_or]
    exact ⟨hroot, by decide⟩
  have habove : q <+: Disk.target (partitionsDir root) := Disk.prefix_of_mem_trail hdots hq
  intro hpre
  have hlength := (hpre.trans habove).length_le
  rw [target_partitionDir root h, List.length_append, List.length_singleton] at hlength
  omega

/-- Starting clears the root and makes the directory for partitions. -/
theorem ends_prepareRoot (honest : some .notFound ∉ d.faults) (root : Path) :
    Ends (prepareRoot root) d
      (fun _ d' => d'.Opens (partitionsDir root) (Disk.target (partitionsDir root)) ∧ ∃ d₁ : Disk,
        (d₁ = d.tick.dropTree (Disk.target root) ∨ d₁ = d.tick ∧ d.find root = .error .notFound) ∧
        Disk.Built d₁.tick d' (Disk.trail [] (partitionsDir root).parts))
      fun _ _ => True := by
  unfold prepareRoot
  refine Ends.bind ((ends_removeDirectory honest root).imp_fail fun _ _ _ => True.intro) ?_
  intro _ d₁ hd₁
  refine Ends.adaptExcept ((Disk.ends_createDirectory (partitionsDir root)).mono ?_
    fun _ _ _ => True.intro)
  rintro _ d' ⟨hbuilt, hopens⟩
  exact ⟨hopens, d₁, hd₁, hbuilt⟩

theorem ends_start {post : Unit → Disk → Prop} {config : Config} {disposable : Bool}
    (h : Ends (prepareRoot root) d post fun _ _ => True) :
    Ends (start root config disposable) d
      (fun e d' => e = { root, config, disposable } ∧ post () d')
      fun err _ => ∃ cause, err = .engine (.openEngine root) cause := by
  unfold start
  refine Ends.bind (Ends.outcome (M := fun x d' => match x with
    | .ok _ => post () d'
    | .error _ => True) h) ?_
  rintro x d' hx
  cases x with
  | ok _ => exact Ends.pure ⟨rfl, hx⟩
  | error err =>
    exact Ends.bind (M := fun _ _ => True) (Ends.outcome (Ends.trivial _ _)) fun _ _ _ =>
      Ends.throw ⟨_, rfl⟩

/-- An engine that was just started is ready for every partition, whatever was on the disk. -/
theorem ready_of_start {config : Config} {disposable : Bool} (hs : d.Sound)
    (honest : some .notFound ∉ d.faults) (hroot : ".." ∉ root.parts)
    (hstart : start root config disposable d = .ok e d') (hname : isPartitionName name = true) :
    e.Ready d' name := by
  obtain ⟨rfl, hopens, d₁, hd₁, hbuilt⟩ := (ends_start (ends_prepareRoot honest root)).of_ok hstart
  have hplain := plain_of_isPartitionName hname
  have hroot' : Disk.target root ++ ["partitions", name] = Disk.target (partitionDir root name) := by
    rw [target_partitionDir root hplain, target_partitionsDir, List.append_assoc]
    rfl
  have hbelow : ∀ x ∈ d'.nodes, ¬ Disk.target (partitionDir root name) <+: x.1 := by
    intro x hx hpre
    rcases hbuilt.added x hx with hx | ⟨-, hx⟩
    · rw [← hroot'] at hpre
      refine Disk.not_prefix_of_removed hs hroot hd₁ hx ?_ ((List.prefix_append _ _).trans hpre)
      intro hsame
      have hlength := hpre.length_le
      rw [hsame, List.length_append] at hlength
      simp only [List.length_cons, List.length_nil] at hlength
      omega
    · exact not_prefix_of_mem_trail hplain hroot hx hpre
  have hfaults : d'.faults <:+ d.faults := by
    refine hbuilt.faults.trans ((List.tail_suffix _).trans ?_)
    rcases hd₁ with rfl | ⟨rfl, -⟩ <;> exact List.tail_suffix _
  refine ⟨rfl, hname, rfl, fun hmem => honest (hfaults.mem hmem), ?_, fun _ => hbelow, ?_⟩
  · rintro ⟨q, hq, id, hfile⟩
    rcases mem_trail_partitionDir hplain hq with hq | rfl
    · rw [hopens.directory_of_trail q hq] at hfile
      cases hfile
    · have hne : Disk.target (partitionDir root name) ≠ [] :=
        Disk.ne_nil_of_node? (by rw [hfile]; exact nofun)
      exact hbelow _ (Disk.mem_of_node? hne hfile) List.prefix_rfl
  · intro q hq hpre
    rcases mem_trail_partitionDir hplain hq with hq | hq
    · exact absurd hpre (not_prefix_of_mem_trail hplain hroot hq)
    · exact hq

/-- An engine whose partitions flush each write and merge all tables. -/
def eager : Engine where
  root := "/db"
  disposable := false
  config := { writeBufferBytes := 0, maxTables := 0, indexInterval := 0 }

theorem eager_ready : eager.Ready {} "p" where
  opened := rfl
  named := by decide +kernel
  unused := rfl
  honest := List.not_mem_nil
  clear := by
    rintro ⟨p, -, id, hfile⟩
    have hne : p ≠ [] := Disk.ne_nil_of_node? (by rw [hfile]; exact nofun)
    exact absurd (Disk.mem_of_node? hne hfile) List.not_mem_nil
  vacant _ _ hx := absurd hx List.not_mem_nil
  outside := by decide +kernel

end Spillway.Engine
