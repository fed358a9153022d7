import Spillway.Factory
import Spillway.Proofs.SpillMap.Twins

/-!
# Making and discarding maps

A factory with a budget and a name for partitions numbers the maps and sets it makes, so no two of them
share a partition (`partitionName_inj`). Each becomes an owner of the engine and holds nothing at first.
One that is discarded gives its partition and the engine up.
-/

namespace Spillway

open Engine

variable {reliable : Prop} {κ ν : Type} {w : Workspace} {id : EngineId} {r : Registry}
  {uses owners : Nat}

/-! ## Engines with several owners -/

namespace Workspace

/-- An engine that was just opened holds nothing. -/
theorem ends_addEngine {root : Path} {config : Config} {disposable : Bool} (hs : w.disk.Sound)
    (honest : some .notFound ∉ w.disk.faults) (hroot : Disk.Downward root)
    (hr : reliable → w.disk.Reliable) :
    Ends (addEngine (Engine.start root config disposable)) w
      (fun id w' => w'.Hosts reliable id (fun _ => none) 0 1) fun err _ => err.Excused reliable := by
  unfold addEngine
  refine Ends.bind (M := fun e w' => (reliable → w'.disk.Reliable) ∧ e.closed = false ∧
    e.Stands w'.disk (fun _ => none) 0 False) (Ends.zoom ?_) ?_
  · have hends : Ends (Engine.start root config disposable) w.disk _ _ :=
      ends_start (ends_prepareRoot honest root)
    unfold Ends
    cases hstart : Engine.start root config disposable w.disk with
    | ok e d' =>
      obtain ⟨hstands, hlater, rfl⟩ := stands_of_start hs honest hroot hstart
      exact ⟨fun h => hlater.reliable (hr h), rfl, hstands.weaken (Nat.le_refl 0) False.elim⟩
    | error err d' =>
      obtain ⟨cause, rfl⟩ := hends.of_error hstart
      exact ⟨_, cause, rfl, fun _ => .inr ⟨root, rfl⟩⟩
  · rintro e w' ⟨hr', hopen, hstands⟩
    refine ⟨hr', e, ?_, hopen, hstands⟩
    show (w'.engines ++ [_])[w'.engines.length]? = _
    rw [List.getElem?_concat_length]

theorem ends_release (h : w.Hosts reliable id r uses owners) (hmany : 1 < owners) :
    Ends (release id) w (fun _ w' => w'.Hosts reliable id r uses (owners - 1)) fun _ _ => False := by
  unfold release
  have hhosts := h.modifyOwners (· - 1)
  refine ends_modify_bind (ends_get_bind ?_)
  have ⟨_, e, he, _⟩ := hhosts
  have hleft : ¬ ((w.modifyOwners id (· - 1)).engines[id]?.map (·.owners)) = some 0 := by
    rw [he, Option.map_some, Option.some.injEq]
    show ¬ owners - 1 = 0
    omega
  rw [if_neg hleft]
  exact Ends.pure hhosts

end Workspace

/-! ## Single maps -/

namespace SpillMap

variable {m : SpillMap κ ν} {l : Lodging} {more budget : Nat} {keys : Codec κ} {values : Codec ν}
  {value? : Option (Bytes → Option Bytes)}

/-- A map that holds nothing, wherever it spills to. -/
def blank (keys : Codec κ) (values : Codec ν) (budget : Nat) : SpillMap κ ν where
  keys := keys
  values := values
  spillStage := some { engine := 0, partition := "", budget }

theorem spills_blank : (blank keys values budget).Spills none :=
  ⟨_, rfl, rfl⟩

/-- A new map becomes an owner of its engine. Only a bad name is refused. -/
theorem ends_spillable_named {partition : String} {e : Engine} (he : w.engine? id = some e)
    (hopen : e.closed = false) :
    Ends (spillable budget partition id keys values) w
      (fun m w' => isPartitionName partition = true ∧
        m = { keys, values, spillStage := some { engine := id, partition, budget } } ∧
        w' = w.modifyOwners id (· + 1))
      fun err w' => checkName partition = .error err ∧ w' = w := by
  have hengine : (w.engine? id).elim true (·.closed) = false := by
    rw [he]
    exact hopen
  unfold spillable
  refine ends_checked (fun hcheck => ?_) fun err herr => ⟨herr, rfl⟩
  refine ends_get_bind ?_
  rw [hengine, if_neg Bool.false_ne_true]
  exact ends_modify_bind (Ends.pure ⟨isPartitionName_of_checkName hcheck, rfl, rfl⟩)

theorem ends_spillable_hosted {partition : String} (h : w.Hosts reliable id r uses owners) :
    Ends (spillable budget partition id keys values) w
      (fun m w' => isPartitionName partition = true ∧
        m = (blank keys values budget).lodged ⟨id, partition⟩ ∧
        w'.Hosts reliable id r uses (owners + 1))
      fun err w' => checkName partition = .error err ∧ w' = w := by
  have ⟨_, e, he, hopen, _⟩ := h
  refine (ends_spillable_named (Workspace.engine?_of_getElem? he) hopen).imp ?_
  rintro _ _ ⟨hnamed, rfl, rfl⟩
  exact ⟨hnamed, rfl, h.modifyOwners (· + 1)⟩

/-- A map that is discarded leaves all other partitions. -/
theorem ends_discard (hm : m.Spills value?) (h : l.Has reliable w more value?) (hmany : 1 < l.owners) :
    Ends (m.lodged l.toAddress).discard w
      (fun _ w' => ∃ value'? uses,
        w'.Hosts reliable l.engine (l.registry value'?) uses (l.owners - 1) ∧ uses + more ≤ l.limit)
      fun _ _ => False := by
  obtain ⟨stage, hstage, -⟩ := id hm
  unfold discard
  refine Ends.bind (M := fun _ w' => l.Has reliable w' more (if m.closed then value? else none))
    (Ends.outcome (Ends.zoom ((ends_close hm h).mono (fun _ _ ht => ht.2) fun _ _ hf => hf.elim))) ?_
  rintro _ w₁ ⟨uses, hhosts, huses⟩
  rw [lodged_spillStage hstage]
  exact (Workspace.ends_release hhosts hmany).imp fun _ w' hhosts' => ⟨_, uses, hhosts', huses⟩

end SpillMap

/-! ## Factories -/

namespace Factory

variable {f : Factory} {token identifier partition : String} {budget n : Nat}

/-- What the factory calls the partition of the map or set with a number. -/
def partitionName (identifier : String) (n : Nat) : String := s!"{identifier}-{n}"

theorem toList_partitionName (identifier : String) (n : Nat) :
    (partitionName identifier n).toList = identifier.toList ++ '-' :: Nat.toDigits 10 n := by
  simp [partitionName, toString, Nat.repr]

theorem partitionName_inj {i j : Nat} (h : partitionName identifier i = partitionName identifier j) :
    i = j := by
  have hlist := congrArg String.toList h
  rw [toList_partitionName, toList_partitionName] at hlist
  have hdigits : Nat.toDigits 10 i = Nat.toDigits 10 j :=
    (List.cons.inj (List.append_cancel_left hlist)).2
  have hi := Nat.ofDigitChars_toDigits (b := 10) (n := i) (by decide) (by decide)
  rw [hdigits, Nat.ofDigitChars_toDigits (by decide) (by decide)] at hi
  exact hi.symm

/-- The factory when it has given a number away. -/
def next (f : Factory) : Factory := { f with nextInstance := f.nextInstance + 1 }

/-- A workspace in which the factory can open an engine under the token. -/
structure Fit (config : Config) (w : Workspace) (token : String) : Prop where
  sound : w.disk.Sound
  honest : some .notFound ∉ w.disk.faults
  downward : Disk.Downward ((config.baseDir.getD w.tempDir).join (disposableName token))

/-- The engine of the factory, which it may have yet to open. -/
inductive Provided (reliable : Prop) (f : Factory) (w : Workspace) (token : String) :
    Registry → Nat → Nat → Prop
  | lazily (hnone : f.engine = none) (hfit : Fit f.config w token) (hr : reliable → w.disk.Reliable) :
      Provided reliable f w token (fun _ => none) 0 1
  | given {id : EngineId} {r : Registry} {uses owners : Nat} (hsome : f.engine = some id)
      (hhosts : w.Hosts reliable id r uses owners) : Provided reliable f w token r uses owners

/-- The factory has this engine, and has no other one before. -/
def Settles (f : Factory) (id : EngineId) (f' : Factory) : Prop :=
  f' = { f with engine := some id } ∧ (f.engine = none ∨ f.engine = some id)

theorem Provided.next (h : f.Provided reliable w token r uses owners) :
    f.next.Provided reliable w token r uses owners := by
  cases h with
  | lazily hnone hfit hr => exact .lazily hnone hfit hr
  | given hsome hhosts => exact .given hsome hhosts

theorem Provided.ends_getEngine (h : f.Provided reliable w token r uses owners) :
    Ends (getEngine token) (f, w)
      (fun id t => f.Settles id t.1 ∧ t.2.Hosts reliable id r uses owners)
      fun err _ => err.Excused reliable := by
  unfold getEngine
  refine ends_get_bind ?_
  dsimp only
  cases h with
  | lazily hnone hfit hr =>
    rw [hnone]
    refine Ends.bind (M := fun id t => t.1 = f ∧ t.2.Hosts reliable id (fun _ => none) 0 1)
      (Ends.zoom ?_) ?_
    · exact ends_get_bind ((Workspace.ends_addEngine hfit.sound hfit.honest hfit.downward hr).imp
        fun _ _ hhosts => ⟨rfl, hhosts⟩)
    · rintro id ⟨f', w'⟩ ⟨rfl, hhosts⟩
      exact ends_modify_bind (Ends.pure ⟨⟨rfl, .inl hnone⟩, hhosts⟩)
  | @given id _ _ _ hsome hhosts =>
    rw [hsome]
    refine Ends.pure ⟨⟨?_, .inr hsome⟩, hhosts⟩
    cases f
    cases hsome
    rfl

/-- Something was made over a partition of the engine, which has one owner more. -/
def Granted {α : Type} (reliable : Prop) (f : Factory) (partition : String) (r : Registry)
    (uses owners : Nat) (made : Address → α) (a : α) (t : Factory × Workspace) : Prop :=
  ∃ id, f.Settles id t.1 ∧ isPartitionName partition = true ∧ a = made ⟨id, partition⟩ ∧
    t.2.Hosts reliable id r uses (owners + 1)

/-- The partition can not be named so, or the engine could not be opened. -/
def Denied (reliable : Prop) (f : Factory) (partition : String) (r : Registry) (uses owners : Nat)
    (err : Error) (t : Factory × Workspace) : Prop :=
  err.Excused reliable ∨
    ∃ id, f.Settles id t.1 ∧ checkName partition = .error err ∧ t.2.Hosts reliable id r uses owners

/-- What is granted may be wrapped up. -/
theorem ends_wrap {α β : Type} {act : FactoryM α} {made : Address → α} {t : Factory × Workspace}
    {fail : Error → Factory × Workspace → Prop}
    (h : Ends act t (f.Granted reliable partition r uses owners made) fail) (wrap : α → β) :
    Ends (act >>= fun a => pure (wrap a)) t
      (f.Granted reliable partition r uses owners fun a => wrap (made a)) fail := by
  refine Ends.bind h ?_
  rintro _ t' ⟨id, hsettles, hnamed, rfl, hhosts⟩
  exact Ends.pure ⟨id, hsettles, hnamed, rfl, hhosts⟩

/-- A map or set over the engine of the factory. -/
theorem Provided.ends_make {α : Type} {act : EngineId → WorkspaceM α} {made : Address → α}
    (h : f.Provided reliable w token r uses owners)
    (hact : ∀ id w, w.Hosts reliable id r uses owners → Ends (act id) w
      (fun a w' => isPartitionName partition = true ∧ a = made ⟨id, partition⟩ ∧
        w'.Hosts reliable id r uses (owners + 1))
      fun err w' => checkName partition = .error err ∧ w' = w) :
    Ends
      (do
        let engine ← getEngine token
        inWorkspace (act engine))
      (f, w) (f.Granted reliable partition r uses owners made)
      (f.Denied reliable partition r uses owners) := by
  refine Ends.bind (h.ends_getEngine.imp_fail fun _ _ he => .inl he) ?_
  rintro id ⟨f', w'⟩ ⟨hsettles, hhosts⟩
  refine Ends.zoom ((hact id w' hhosts).mono ?_ ?_)
  · rintro a w₁ ⟨hnamed, ha, hhosts₁⟩
    exact ⟨id, hsettles, hnamed, ha, hhosts₁⟩
  · rintro err _ ⟨hcheck, rfl⟩
    exact .inr ⟨id, hsettles, hcheck, hhosts⟩

theorem ends_nextTarget (hbudget : f.config.maxInMemoryBytes = some budget)
    (hidentifier : f.config.mapIdentifier = some identifier)
    {fail : Error → Factory × Workspace → Prop} :
    Ends nextTarget (f, w)
      (fun target t => target = some (budget, partitionName identifier f.nextInstance) ∧
        t = (f.next, w)) fail := by
  unfold nextTarget
  refine ends_get_bind ?_
  dsimp only
  rw [hbudget, hidentifier]
  exact ends_modify_bind (Ends.pure ⟨rfl, rfl⟩)

end Factory

end Spillway
