import Spillway.Proofs.SpillMap.Endurance

/-!
# Puts that fail

A map is reached by any calls on it and by other users of its engine, whether the calls succeed or fail,
on a disk that may fail at any point (`Reached`). When a put fails there, nothing changed if that was
before it wrote; otherwise entries that were being moved may be lost, but no key is in both stages and
no key has a value that it did not have before, except for the one that was put (`failed_put`).
-/

namespace Spillway

open Engine

namespace SpillMap

variable {κ ν : Type} {m : SpillMap κ ν} {w : Workspace} {spilled : Bytes → Option Bytes}
  {calls : Nat} {key : κ} {v : ν} {order : Shuffle}

/-! ## Histories -/

/-- What happens to a map, or to the engine that it shares. -/
inductive Event (κ ν : Type) where
  | own (order : Shuffle) (call : Call κ ν)
  | inMemory (key : κ)
  | inSpill (key : κ)
  | contents
  /-- Another user of the engine calls it. -/
  | elsewhere (call : Engine.Call)

namespace Event

def run : Event κ ν → MapM κ ν Unit
  | own order call => Functor.discard (call.runIn order)
  | inMemory key => Functor.discard (SpillMap.inMemory key)
  | inSpill key => Functor.discard (SpillMap.inSpill key)
  | contents => Functor.discard SpillMap.contents
  | elsewhere call => do
    let (m, _) ← get
    match m.spillStage with
    | none => return
    | some stage => onStage stage fun _ => call.run

def cost : Event κ ν → Nat
  | elsewhere call => call.cost
  | _ => 1

/-- Other users of the engine do not alter the partition of the map. -/
def Apart (m : SpillMap κ ν) : Event κ ν → Prop
  | elsewhere call => ∀ stage, m.spillStage = some stage → call.altered? ≠ some stage.partition
  | _ => True

end Event

/-- The partition of a map, once it was made, is registered in an open engine. -/
def Registered (t : SpillMap κ ν × Workspace) : Prop :=
  ∀ stage, t.1.live? = some stage →
    ∃ e, t.2.engine? stage.engine = some e ∧ e.closed = false ∧ e.hasPartition stage.partition = true

/-- Events lead to this state of a map and its workspace, and may have used up so many numbers of tables,
in pairs. The map is in memory only, or over an unused partition of an engine that had other users
before. -/
inductive Reached : SpillMap κ ν × Workspace → Nat → Prop
  | memoryOnly (keys : Codec κ) (values : Codec ν) (w : Workspace) :
      Reached (SpillMap.memoryOnly keys values, w) 0
  | spillable {root : Path} {config : Config} {disposable : Bool} {d d₀ : Disk} {e₀ e : Engine}
      {before : List Engine.Call} {budget : Nat} {partition : String} {engine : EngineId}
      {keys : Codec κ} {values : Codec ν} {w₀ w : Workspace} {made : SpillMap κ ν}
      (hs : d.Sound) (honest : some .notFound ∉ d.faults) (hroot : Disk.Downward root)
      (hstart : start root config disposable d = .ok e₀ d₀)
      (hbefore : afterAll before (e₀, d₀) = (e, w₀.disk)) (he : w₀.engine? engine = some e)
      (hunused : e.partition? partition = none)
      (hmade : SpillMap.spillable budget partition engine keys values w₀ = .ok made w) :
      Reached (made, w) (totalCost before)
  | step {t : SpillMap κ ν × Workspace} {calls : Nat} (event : Event κ ν) (h : Reached t calls)
      (hapart : event.Apart t.1) (hregistered : Registered (after event.run t)) :
      Reached (after event.run t) (calls + event.cost)

/-! ## What lasts -/

/-- What other users do to the engine leaves the partition alone, unless they close the engine. -/
theorem leaves_elsewhere {stage : SpillStage} {value? : Option (Bytes → Option Bytes)} {uses : Nat}
    {call : Engine.Call} (h : stage.Serves w value? uses)
    (hapart : call.altered? ≠ some stage.partition)
    (hw : 1 + 2 * (uses + call.cost) < UInt64.size) :
    Leaves (onStage stage fun _ => call.run) (m, w) fun t => t.1 = m ∧
      (stage.Serves t.2 value? (uses + call.cost) ∨ stage.Serves t.2 none (uses + call.cost) ∧
        ∃ e, t.2.engine? stage.engine = some e ∧ e.closed = true) := by
  obtain ⟨e, r, he, hstands, hvalue⟩ := h
  have hserves (t : SpillMap κ ν × Workspace)
      (ht : ∃ e' d', t = (m, w.putEngine stage.engine e' d') ∧ call.LeavesOthers r uses (e', d')) :
      t.1 = m ∧ (stage.Serves t.2 value? (uses + call.cost) ∨
        stage.Serves t.2 none (uses + call.cost) ∧
          ∃ e, t.2.engine? stage.engine = some e ∧ e.closed = true) := by
    obtain ⟨e', d', rfl, r', hstands', hothers⟩ := ht
    have he' : (w.putEngine stage.engine e' d').engine? stage.engine = some e' :=
      Workspace.engine?_putEngine he
    refine ⟨rfl, ?_⟩
    rcases hothers with hclosed | hsame
    · exact .inr ⟨⟨e', r', he', hstands', hstands'.unused_of_closed hclosed _⟩, e', he', hclosed⟩
    · exact .inl ⟨e', r', he', hstands', (hsame _ hapart).trans hvalue⟩
  have hends : Ends (onStage stage fun _ => call.run) (m, w) _ _ :=
    ends_onStage he (hstands.leaves_others call hw)
  exact hends.leaves (fun _ => hserves) fun _ => hserves

/-- A map goes on after what other users did to its engine, while its partition stays registered. -/
theorem Endures.lasts_elsewhere {call : Engine.Call} (h : m.Endures w spilled calls)
    (hapart : (Event.elsewhere call).Apart m)
    (hregistered : Registered (after (Event.elsewhere call).run (m, w)))
    (hw : 1 + 2 * (calls + call.cost) < UInt64.size) :
    Lasts (calls + call.cost) (after (Event.elsewhere call).run (m, w)) := by
  have hleft : Leaves (Event.elsewhere call).run (m, w) fun t => Registered t →
      Lasts (calls + call.cost) t := by
    obtain ⟨uses, hstored, hroom⟩ := h.stored
    have hgoes {w' : Workspace} (hstored' : Stored w' m.spillStage spilled (uses + call.cost)) :
        Lasts (calls + call.cost) (m, w') :=
      ⟨spilled, h.opened, h.sorted, h.apart, _, hstored', by dsimp only; omega⟩
    unfold Event.run
    apply ends_get_bind
    dsimp only
    cases hstage : m.spillStage with
    | none => exact Leaves.pure fun _ => ⟨spilled, h.mono (Nat.le_add_right _ _)⟩
    | some stage =>
      have hname := hapart stage hstage
      rw [hstage] at hstored
      cases hstored with
      | planned hcreated hserves =>
        apply (leaves_elsewhere hserves hname (by omega)).imp
        intro ⟨m', w'⟩ ⟨ht, hserves'⟩ _
        dsimp only at ht
        subst ht
        have hnone := hserves'.elim id And.left
        exact hgoes (hstage ▸ .planned hcreated hnone)
      | live hcreated hserves =>
        apply (leaves_elsewhere hserves hname (by omega)).imp
        intro ⟨m', w'⟩ ⟨ht, hserves'⟩ hregistered'
        dsimp only at ht
        subst ht
        rcases hserves' with hkept | ⟨-, e, he, hclosed⟩
        · exact hgoes (hstage ▸ .live hcreated hkept)
        · have hlive : m'.live? = some stage := by
            rw [live?, hstage, Option.filter_some, if_pos hcreated]
          obtain ⟨e', he', hopen, -⟩ := hregistered' stage hlive
          rw [Option.some.inj (he'.symm.trans he), hclosed] at hopen
          cases hopen
  exact hleft.after hregistered

/-- Every event leaves a map that goes on. -/
theorem Endures.lasts_event (event : Event κ ν) (h : m.Endures w spilled calls)
    (hapart : event.Apart m) (hregistered : Registered (after event.run (m, w)))
    (hw : 1 + 2 * (calls + event.cost) < UInt64.size) :
    Lasts (calls + event.cost) (after event.run (m, w)) := by
  cases event with
  | own order call => exact (h.leaves_call order call hw).discarded.after
  | inMemory key =>
    have hbytes := (leaves_keyBytes m w key).imp fun t ht => ht ▸ h.lasts
    exact (Leaves.bind hbytes fun _ _ ht => ends_get_bind (Leaves.pure ht)).discarded.after
  | inSpill key => exact ((leaves_inSpill m w key).imp fun t ht => ht ▸ h.lasts).discarded.after
  | contents => exact h.leaves_contents.discarded.after
  | elsewhere call => exact h.lasts_elsewhere hapart hregistered hw

/-- Whatever happens to a map, no key is in both stages. -/
theorem Reached.lasts {t : SpillMap κ ν × Workspace} (h : Reached t calls)
    (hroom : 1 + 2 * calls < UInt64.size) : Lasts calls t := by
  induction h with
  | memoryOnly keys values w =>
    exact ⟨_, rfl, KeyMap.sorted_nil, fun _ hmem => absurd hmem List.not_mem_nil, 0, .absent,
      Nat.le_refl 0⟩
  | @spillable root config disposable d d₀ e₀ e before budget partition engine keys values w₀ w made
      hs honest hroot hstart hbefore he hunused hmade =>
    obtain ⟨hstands₀, -, -⟩ := stands_of_start hs honest hroot hstart
    have hbound : 1 + 2 * (0 + totalCost before) < UInt64.size := by omega
    obtain ⟨⟨r, hstands⟩, -⟩ := hstands₀.afterAll (t := (e₀, d₀)) hbound
    rw [hbefore, Nat.zero_add] at hstands
    obtain ⟨rfl, rfl⟩ := ends_spillable.of_ok hmade
    refine ⟨_, rfl, KeyMap.sorted_nil, fun _ hmem => absurd hmem List.not_mem_nil, _,
      .planned rfl ⟨e, r, (Workspace.engine?_modifyOwners _ _ _ _).trans he, hstands,
        hstands.partition?_eq_none.1 hunused⟩, Nat.le_refl _⟩
  | step event h hapart hregistered ih =>
    obtain ⟨spilled, hendures⟩ := ih (by omega)
    exact hendures.lasts_event event hapart hregistered hroom

/-! ## Failed puts -/

/-- The values in the spill stage: none before its partition was made, and afterwards those that are found
there, as long as it is registered in an open engine. -/
def StageHas (m : SpillMap κ ν) (w : Workspace) (spilled : Bytes → Option Bytes) : Prop :=
  (m.live? = none → spilled = fun _ => none) ∧ ∀ stage, m.live? = some stage →
    ∃ e p, w.engine? stage.engine = some e ∧ e.closed = false ∧
      e.partition? stage.partition = some p ∧ ∀ key, p.find w.disk key = .ok (spilled key)

theorem Endures.stageHas (h : m.Endures w spilled calls) : m.StageHas w spilled := by
  rcases h.live?_cases with ⟨hnone, rfl⟩ | ⟨stage, uses, -, hlive, -, ⟨e, r, he, hstands, hvalue⟩, -⟩
  · refine ⟨fun _ => rfl, fun stage hlive => ?_⟩
    rw [hnone] at hlive
    cases hlive
  · constructor
    · intro hnone
      rw [hlive] at hnone
      cases hnone
    · intro stage' hlive'
      rw [hlive, Option.some.injEq] at hlive'
      subst hlive'
      obtain ⟨p, hp, hmember⟩ := hstands.partition?_of_value hvalue
      refine ⟨e, p, he, ?_, hp, hmember.serves.find⟩
      rw [← Bool.not_eq_true]
      intro hclosed
      rw [hstands.unused_of_closed hclosed] at hvalue
      cases hvalue

/-- A put comes to an end before it changes anything: the key or the value has no bytes, or it has empty
ones, or the lookup of the key in the spill stage fails. -/
def Unstarted (key : κ) (v : ν) (t : SpillMap κ ν × Workspace) (err : Error) : Prop :=
  encodeEntry t.1.keys t.1.values key v = .error err ∨
    ∃ k b t', encodeEntry t.1.keys t.1.values key v = .ok (k, b) ∧ movedBytes k t = .error err t'

/-- In any state, what does not start changes nothing. -/
theorem leaves_putIn_of_unstarted {t : SpillMap κ ν × Workspace} {err : Error}
    (h : Unstarted key v t err) : Leaves (putIn order key v) t (· = t) := by
  obtain ⟨m, w⟩ := t
  unfold putIn
  refine Leaves.bind (leaves_ensureOpen m w) fun _ t ht => ?_
  subst ht
  apply ends_get_bind
  rcases h with hentry | ⟨k, b, t', hentry, hmoved⟩
  · dsimp only at hentry ⊢
    rw [hentry]
    exact Leaves.throw rfl
  · dsimp only at hentry ⊢
    rw [hentry]
    have hstill := leaves_movedBytes m w k
    unfold Leaves at hstill
    show Leaves (putBytesIn order k b) (m, w) _
    unfold putBytesIn
    apply ends_get_bind
    refine Ends.leaves_bind (hstill.run.imp_fail fun _ _ ht => ht.2) fun found t ht => ?_
    cases hmoved.symm.trans ht.1

/-- What is seen in either stage is what its key has. -/
theorem Endures.held_eq {k x : Bytes} (h : m.Endures w spilled calls)
    (hx : m.memory.entries.find? k = some x ∨ spilled k = some x) : m.held spilled k = some x := by
  unfold held
  rcases hx with hmemory | hspilled
  · rw [hmemory]
    rfl
  · rw [h.find?_of_spilled hspilled, hspilled]
    rfl

/-- A put that fails, in any state that calls lead to and wherever the disk fails it. If it did not start,
in any state at all, both stages are as before. However it failed, no key is in both stages afterwards.
Each other key has the value that it had or, if entries were being moved, none; the key that was put has
the value that it had, the new one or, if entries were being moved, none. Nothing else is seen in either
stage. -/
theorem failed_put {m' : SpillMap κ ν} {w' : Workspace} {err : Error}
    (hreached : Reached (m, w) calls) (hroom : 1 + 2 * (calls + 1) < UInt64.size)
    (hput : putIn order key v (m, w) = .error err (m', w')) :
    (∀ t t' cause, Unstarted key v t cause → putIn order key v t = .error cause t' → t' = t) ∧
    ∃ spilled spilled', m.StageHas w spilled ∧ m'.StageHas w' spilled' ∧
      (∀ k, m'.memory.entries.contains k = true → spilled' k = none) ∧
      ∀ k b, encodeEntry m.keys m.values key v = .ok (k, b) →
        (∀ other, other ≠ k → m'.held spilled' other = m.held spilled other ∨
          m.Overflows spilled k b ∧ m'.held spilled' other = none) ∧
        (m'.held spilled' k = m.held spilled k ∨ m'.held spilled' k = some b ∨
          m.Overflows spilled k b ∧ m'.held spilled' k = none) ∧
        ∀ other x, m'.memory.entries.find? other = some x ∨ spilled' other = some x →
          m.held spilled other = some x ∨ other = k ∧ x = b := by
  refine ⟨fun t t' cause hunstarted hrun => (leaves_putIn_of_unstarted hunstarted).of_error hrun, ?_⟩
  obtain ⟨spilled, hendures⟩ := hreached.lasts (by omega)
  obtain ⟨spilled', hendures', htakes⟩ := (hendures.leaves_putIn order key v hroom).of_error hput
  refine ⟨spilled, spilled', hendures.stageHas, hendures'.stageHas,
    fun k hk => hendures'.spilled_of_contains hk, fun k b hentry => ?_⟩
  have hothers : ∀ other, other ≠ k → m'.held spilled' other = m.held spilled other ∨
      m.Overflows spilled k b ∧ m'.held spilled' other = none := by
    intro other hne
    have hother := htakes k b hentry other
    rwa [record, if_neg hne, ← or_assoc, or_self_iff] at hother
  have hown := htakes k b hentry k
  rw [record, if_pos rfl] at hown
  refine ⟨hothers, hown, fun other x hx => ?_⟩
  have hheld := hendures'.held_eq hx
  by_cases hother : other = k
  · subst hother
    rcases hown with hsame | hnew | ⟨-, hnone⟩
    · exact .inl (hsame.symm.trans hheld)
    · exact .inr ⟨rfl, Option.some.inj (hheld.symm.trans hnew)⟩
    · cases hnone.symm.trans hheld
  · rcases hothers other hother with hsame | ⟨-, hnone⟩
    · exact .inl (hsame.symm.trans hheld)
    · cases hnone.symm.trans hheld

/-- An engine on a disk that will fail to write the table of the second entry that is moved. -/
def faulty : Engine × Disk :=
  resultOf (start eager.root eager.config false) eager
    { faults := List.replicate 12 none ++ [some .storageFull] }

/-- A map with room for the values of two keys. -/
def cramped : SpillMap Bytes Bytes × Workspace :=
  resultOf (SpillMap.spillable 2 "p" 0 .raw .raw) (SpillMap.memoryOnly .raw .raw)
    { disk := faulty.2, engines := [⟨faulty.1, 1⟩] }

def putting (key value : Bytes) : Event Bytes Bytes := .own .backwards (.put key value)

/-- The map with two keys, which are in memory. -/
def crammed : SpillMap Bytes Bytes × Workspace :=
  after (putting [2] [8]).run (after (putting [1] [7]).run cramped)

theorem registered_of_not_live {t : SpillMap κ ν × Workspace} (h : t.1.live?.isNone = true) :
    Registered t := by
  intro stage hlive
  rw [hlive] at h
  cases h

theorem reached_crammed : Reached crammed 2 := by
  have hstart : start eager.root eager.config false
      { faults := List.replicate 12 none ++ [some .storageFull] } = .ok faulty.1 faulty.2 :=
    eq_ok_of_succeeds (by decide +kernel) eager
  have hmade : SpillMap.spillable 2 "p" 0 .raw .raw
      { disk := faulty.2, engines := [⟨faulty.1, 1⟩] } = .ok cramped.1 cramped.2 :=
    eq_ok_of_succeeds (by decide +kernel) (SpillMap.memoryOnly .raw .raw)
  have hcramped : Reached cramped (Engine.totalCost []) :=
    .spillable (fun _ hx => absurd hx List.not_mem_nil) (by decide) downward_eager hstart rfl rfl
      (by decide +kernel) hmade
  have hone := hcramped.step (putting [1] [7]) trivial (registered_of_not_live (by decide +kernel))
  exact hone.step (putting [2] [8]) trivial (registered_of_not_live (by decide +kernel))

theorem fails_crammed : Ends (putIn .backwards [3] [9]) crammed (fun _ _ => False)
    fun err t => err = .engine (.putBatch "p") (.io .storageFull) ∧ t.1.memory.entries = [] := by
  decide +kernel

/-- What was to be moved is in the spill stage or lost, and so is the entry that was put. -/
theorem failed_put_crammed :
    ∃ t spilled', putIn .backwards [3] [9] crammed =
        .error (.engine (.putBatch "p") (.io .storageFull)) t ∧
      t.1.StageHas t.2 spilled' ∧ (spilled' [1] = some [7] ∨ spilled' [1] = none) ∧
      (spilled' [3] = some [9] ∨ spilled' [3] = none) := by
  have hlive : crammed.1.live? = none := Option.isNone_iff_eq_none.1 (by decide +kernel)
  have hone : crammed.1.memory.entries.find? [1] = some [7] := by decide +kernel
  have hthree : crammed.1.memory.entries.find? [3] = none := by decide +kernel
  have hentry : encodeEntry crammed.1.keys crammed.1.values [3] [9] = .ok ([3], [9]) := by
    rw [encodeEntry_eq]
    rfl
  cases hrun : putIn .backwards [3] [9] crammed with
  | ok a t => exact (fails_crammed.of_ok hrun).elim
  | error err t =>
    obtain ⟨rfl, hempty⟩ := fails_crammed.of_error hrun
    obtain ⟨-, spilled, spilled', hspilled, hspilled', -, hvalues⟩ :=
      failed_put (m := crammed.1) (w := crammed.2) reached_crammed (by decide) hrun
    obtain rfl := hspilled.1 hlive
    have hheld (k : Bytes) : t.1.held spilled' k = spilled' k := by
      rw [held, hempty]
      rfl
    obtain ⟨hothers, hown, -⟩ := hvalues [3] [9] hentry
    have hother := hothers [1] (by decide)
    rw [hheld, held, hone] at hother
    rw [hheld, held, hthree] at hown
    refine ⟨t, spilled', rfl, hspilled', hother.imp_right And.right, ?_⟩
    rcases hown with hnone | hnew | ⟨-, hnone⟩
    · exact .inr hnone
    · exact .inl hnew
    · exact .inr hnone

end SpillMap

end Spillway
