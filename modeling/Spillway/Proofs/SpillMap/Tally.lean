import Spillway.Proofs.Agreement
import Spillway.Proofs.Memtable
import Spillway.Proofs.SpillMap.Endurance

/-!
# The tally of a map

After any successful calls the tally of a map is what was written to memory since the last spill, those
bytes included that were overwritten or deleted since. It stays within the budget: the put that would
exceed it spills everything, and no other put does (`tally_is_sinceSpill`).
-/

namespace Spillway

namespace KeyMap

variable {α : Type} {weigh : Bytes × α → Nat}

theorem weight_insert_le (m : KeyMap α) (key : Bytes) (value : α) :
    weight weigh (m.insert key value) ≤ weight weigh m + weigh (key, value) := by
  induction m with
  | nil => exact Nat.le_of_eq (Nat.add_comm _ _)
  | cons pair rest ih =>
    obtain ⟨k, v⟩ := pair
    unfold KeyMap.insert
    split
    · rw [weight_cons]
      omega
    · split <;> rw [weight_cons, weight_cons] <;> omega

theorem weight_erase_le (m : KeyMap α) (key : Bytes) :
    weight weigh (m.erase key) ≤ weight weigh m := by
  induction m with
  | nil => exact Nat.le_refl _
  | cons pair rest ih =>
    unfold KeyMap.erase at ih ⊢
    rw [List.filter_cons]
    split
    · rw [weight_cons, weight_cons]
      omega
    · rw [weight_cons]
      omega

end KeyMap

/-- Bytes of the values in memory. -/
def MemoryStage.payload (memory : MemoryStage) : Nat := memory.entries.weight fun pair => pair.2.length

namespace SpillMap

variable {κ ν : Type} {m m' m₀ : SpillMap κ ν} {w w' : Workspace} {stage : SpillStage} {order : Shuffle}
  {key : κ} {v : ν} {k b : Bytes} {answer : Answer ν}

/-! ## What calls write to memory -/

/-- A put of the key goes to the spill stage: the key is there, and not in memory. -/
def redirects (key : κ) (t : SpillMap κ ν × Workspace) : Bool :=
  match inMemory key t, inSpill key t with
  | .ok false _, .ok true _ => true
  | _, _ => false

/-- The bytes of values that a call writes to memory when it succeeds. -/
def Call.written (t : SpillMap κ ν × Workspace) : Call κ ν → Nat
  | put key v => if redirects key t then 0 else ((t.1.values.encode v).toOption.map List.length).getD 0
  | _ => 0

/-! ## Moving everything -/

/-- The map after everything was moved. -/
def moved (m : SpillMap κ ν) : SpillMap κ ν :=
  { m with
    memory := {}
    spillStage := m.spillStage.map fun stage =>
      { stage with created := true, spillCount := stage.spillCount + 1 } }

theorem ends_onStage_same {α : Type} (stage : SpillStage) (act : String → EngineM α)
    (m : SpillMap κ ν) (w : Workspace) :
    Ends (onStage stage act) (m, w) (fun _ t => t.1 = m) fun _ _ => True :=
  Ends.zoom ((Ends.trivial _ w).mono (fun _ _ _ => rfl) fun _ _ _ => trivial)

theorem ends_moveEntries_same (stage : SpillStage) (entries : KeyMap Bytes) (m : SpillMap κ ν)
    (w : Workspace) :
    Ends (moveEntries stage entries) (m, w)
      (fun _ t => t.1 = { m with
        memory := {}
        spillStage := m.spillStage.map fun stage =>
          { stage with spillCount := stage.spillCount + 1 } })
      fun _ _ => True := by
  unfold moveEntries
  refine ends_modify_bind (Ends.bind (ends_onStage_same ..) ?_)
  rintro _ ⟨m₁, w₁⟩ rfl
  exact ends_modify rfl

theorem ends_spillMemoryIn_moved (order : Shuffle) (hstage : m.spillStage = some stage) (w : Workspace) :
    Ends (spillMemoryIn order) (m, w) (fun _ t => t.1 = m.moved) fun _ _ => True := by
  unfold spillMemoryIn
  apply ends_get_bind
  dsimp only
  rw [hstage]
  dsimp only
  cases hcreated : stage.created with
  | true =>
    refine (ends_moveEntries_same ..).imp fun _ t ht => ?_
    rw [ht, moved, hstage, Option.map_some, Option.map_some, hcreated]
  | false =>
    refine Ends.bind (ends_onStage_same ..) ?_
    rintro _ ⟨m₁, w₁⟩ rfl
    refine ends_modify_bind ((ends_moveEntries_same ..).imp fun _ t ht => ?_)
    rw [ht, moved]
    dsimp only
    rw [Option.map_map]
    rfl

/-! ## Redirected puts -/

theorem movedBytes_eq (m : SpillMap κ ν) (w : Workspace) (k : Bytes) :
    movedBytes k (m, w) =
      if m.memory.entries.contains k then .ok none (m, w) else spilledBytes k (m, w) := by
  show (if m.memory.entries.contains k then pure none else spilledBytes k : MapM κ ν _) (m, w) = _
  split <;> rfl

/-- What is found in the spill stage is found where that is live. -/
theorem exists_live_of_movedBytes {old : Bytes} {t : SpillMap κ ν × Workspace}
    (h : movedBytes k (m, w) = .ok (some old) t) : ∃ stage, m.live? = some stage := by
  cases hlive : m.live? with
  | some stage => exact ⟨stage, rfl⟩
  | none =>
    have hnone : Ends (spilledBytes k) (m, w) (fun found _ => found = none) fun _ _ => True := by
      unfold spilledBytes
      apply ends_get_bind
      dsimp only
      rw [hlive]
      exact Ends.pure rfl
    rw [movedBytes_eq] at h
    split at h
    · cases h
    · cases hnone.of_ok h

theorem redirects_iff (hopen : m.closed = false) (hkey : m.keys.encode key = .ok k) (hne : k ≠ []) :
    redirects key (m, w) = true ↔ ∃ old, movedBytes k (m, w) = .ok (some old) (m, w) := by
  have hopened : (ensureOpen : MapM κ ν Unit) (m, w) = .ok ⟨⟩ (m, w) := by
    show (if m.closed then _ else pure ⟨⟩ : MapM κ ν Unit) (m, w) = _
    rw [hopen]
    rfl
  have hbytes : keyBytes key (m, w) = .ok k (m, w) := by
    show coded (m.keys.encode key) (m, w) = _
    rw [hkey]
    rfl
  have hmemory : inMemory key (m, w) = .ok (m.memory.entries.contains k) (m, w) :=
    bind_eq_ok_iff.2 ⟨k, (m, w), hbytes, rfl⟩
  have hspill : inSpill key (m, w) = (spilledBytes k >>= fun found => pure found.isSome) (m, w) := by
    unfold inSpill
    rw [bind_of_ok hopened, bind_of_ok hbytes, if_neg hne]
  have hstill := leaves_spilledBytes m w k
  rw [redirects, hmemory, hspill, movedBytes_eq]
  cases m.memory.entries.contains k with
  | true => simp
  | false =>
    cases hrun : spilledBytes k (m, w) with
    | ok found t =>
      obtain rfl : t = (m, w) := hstill.of_ok hrun
      rw [bind_of_ok hrun]
      cases found <;> simp [Pure.pure, EStateM.pure]
    | error err t =>
      rw [bind_of_error hrun]
      simp

/-! ## What calls do to memory -/

/-- The map has only its memory replaced, to which so many bytes of values were written. -/
def Fills (m : SpillMap κ ν) (written : Nat) (m' : SpillMap κ ν) : Prop :=
  ∃ memory : MemoryStage, m' = { m with memory } ∧ memory.tally = m.memory.tally + written ∧
    memory.payload ≤ m.memory.payload + written

theorem fills_self (m : SpillMap κ ν) : m.Fills 0 m := ⟨m.memory, rfl, rfl, Nat.le_refl _⟩

theorem fills_insert (m : SpillMap κ ν) (k b : Bytes) :
    m.Fills b.length { m with memory := m.memory.insert k b } :=
  ⟨m.memory.insert k b, rfl, rfl, KeyMap.weight_insert_le ..⟩

theorem fills_erase (m : SpillMap κ ν) (k : Bytes) :
    m.Fills 0 { m with memory := m.memory.erase k } :=
  ⟨m.memory.erase k, rfl, rfl, KeyMap.weight_erase_le ..⟩

/-- The tally would be above the budget with so many bytes more. -/
def Exceeds (m : SpillMap κ ν) (more : Nat) : Prop :=
  ∃ stage, m.spillStage = some stage ∧ stage.budget < m.memory.tally + more

theorem any_budget_iff (stage? : Option SpillStage) (tally : Nat) :
    (stage?.any fun stage => decide (stage.budget < tally)) = true ↔
      ∃ stage, stage? = some stage ∧ stage.budget < tally := by
  cases stage? <;> simp

/-- A call that succeeds moves everything: it is there to do so, or what it writes exceeds the budget. -/
def Moves (m : SpillMap κ ν) (w : Workspace) (call : Call κ ν) : Prop :=
  call = .spill ∨ m.Exceeds (call.written (m, w))

/-- What a call that succeeds makes of a map. -/
def Becomes (m : SpillMap κ ν) (w : Workspace) (call : Call κ ν) (m' : SpillMap κ ν) : Prop :=
  m.Moves w call ∧ m.isSpillable = true ∧ m' = m.moved ∨
    ¬ m.Moves w call ∧ m.Fills (call.written (m, w)) m'

/-- A call that writes nothing to memory and is no spill. -/
theorem becomes_of_fills {call : Call κ ν} (h : ¬ m.Exceeds 0) (hwritten : call.written (m, w) = 0)
    (hspill : call ≠ .spill) (hfills : m.Fills 0 m') : m.Becomes w call m' := by
  right
  rw [Moves, hwritten]
  exact ⟨fun hmoves => hmoves.elim hspill h, hfills⟩

/-- The entry is in memory, from where everything was moved if that exceeds the budget. -/
def Stows (m : SpillMap κ ν) (k b : Bytes) (m' : SpillMap κ ν) : Prop :=
  m.Exceeds b.length ∧ m' = m.moved ∨
    ¬ m.Exceeds b.length ∧ m' = { m with memory := m.memory.insert k b }

/-- Only moving can fail for an entry that goes to memory. -/
theorem ends_insert_stows (order : Shuffle) (k b : Bytes) (m : SpillMap κ ν) (w : Workspace) :
    Ends (do
      update fun m => { m with memory := m.memory.insert k b }
      let (m, _) ← get
      if m.spillStage.any fun stage => stage.budget < m.memory.tally then spillMemoryIn order) (m, w)
      (fun _ t => m.Stows k b t.1) fun _ _ => m.Exceeds b.length := by
  have hover := any_budget_iff m.spillStage (m.memory.insert k b).tally
  apply ends_modify_bind
  apply ends_get_bind
  dsimp only
  split
  · next hany =>
    obtain ⟨stage, hstage, hbudget⟩ := hover.1 hany
    have hexceeds : m.Exceeds b.length := ⟨stage, hstage, hbudget⟩
    exact (ends_spillMemoryIn_moved order (m := { m with memory := m.memory.insert k b }) hstage w).mono
      (fun _ _ ht => .inl ⟨hexceeds, ht⟩) fun _ _ _ => hexceeds
  · next hany => exact Ends.pure (.inr ⟨fun hexceeds => hany (hover.2 hexceeds), rfl⟩)

/-- A put overwrites a key that was moved where it is. Any other goes to memory. -/
theorem ends_putBytesIn_becomes (order : Shuffle) (k b : Bytes) (m : SpillMap κ ν) (w : Workspace) :
    Ends (putBytesIn order k b) (m, w)
      (fun _ t => (∃ old, movedBytes k (m, w) = .ok (some old) (m, w)) ∧ t.1 = m ∨
        (¬ ∃ old, movedBytes k (m, w) = .ok (some old) (m, w)) ∧ m.Stows k b t.1)
      fun _ _ => True := by
  have hmoved : Ends (movedBytes k) (m, w) _ _ := leaves_movedBytes m w k
  unfold putBytesIn
  apply ends_get_bind
  refine Ends.bind (hmoved.run.imp_fail fun _ _ _ => trivial) ?_
  rintro found _ ⟨hrun, rfl⟩
  cases found with
  | some old =>
    obtain ⟨stage, hlive⟩ := exists_live_of_movedBytes hrun
    dsimp only
    rw [hlive]
    exact (ends_onStage_same ..).imp fun _ t ht => .inl ⟨⟨old, hrun⟩, ht⟩
  | none =>
    have hapart : ¬ ∃ old, movedBytes k (m, w) = .ok (some old) (m, w) := by simp [hrun]
    exact (ends_insert_stows order k b m w).mono (fun _ _ ht => .inr ⟨hapart, ht⟩) fun _ _ _ => trivial

/-- A put of a key that has no value goes to memory. It fails only in a map that has spilled, or does so
now. -/
theorem ends_putIn_new {allowed : Entry → Prop} {value : Bytes → Option Bytes} {calls : Nat}
    (order : Shuffle) (h : m.Holds w allowed value calls)
    (hentry : encodeEntry m.keys m.values key v = .ok (k, b)) (hnew : value k = none) :
    Ends (putIn order key v) (m, w)
      (fun _ t => (m.hasSpilled = true → Engine.Storable k) ∧ m.Stows k b t.1)
      fun _ _ => m.hasSpilled = true ∨ m.Exceeds b.length := by
  obtain ⟨spilled, writes, hs⟩ := h.splits
  have hnone := hs.values k
  rw [hnew, eq_comm, Option.or_eq_none_iff] at hnone
  unfold putIn
  refine Ends.bind (ends_ensureOpen h.opened) ?_
  rintro _ _ rfl
  apply ends_get_bind
  dsimp only
  rw [hentry]
  show Ends (putBytesIn order k b) (m, w) _ _
  unfold putBytesIn
  apply ends_get_bind
  refine Ends.bind ((ends_movedBytes hs k).imp_fail fun _ _ ht => .inl ht.2.1) ?_
  rintro _ _ ⟨rfl, rfl, hkey⟩
  rw [hnone.2]
  refine (ends_insert_stows order k b m w).mono (fun _ _ ht => ⟨fun hspilled => ?_, ht⟩) fun _ _ => .inr
  refine (hkey hspilled).resolve_left fun hmem => ?_
  obtain ⟨old, hold⟩ := KeyMap.contains_iff.1 hmem
  rw [hnone.1] at hold
  cases hold

theorem ends_ensureOpen_opened (m : SpillMap κ ν) (w : Workspace) :
    Ends ensureOpen (m, w) (fun _ t => t = (m, w) ∧ m.closed = false) fun _ _ => True := by
  unfold ensureOpen
  apply ends_get_bind
  dsimp only
  cases m.closed with
  | true => exact Ends.throw trivial
  | false => exact Ends.pure ⟨rfl, rfl⟩

theorem ends_putIn_becomes (order : Shuffle) (key : κ) (v : ν) (h : ¬ m.Exceeds 0) (w : Workspace) :
    Ends (putIn order key v) (m, w) (fun _ t => m.Becomes w (.put key v) t.1) fun _ _ => True := by
  unfold putIn
  refine Ends.bind (ends_ensureOpen_opened m w) ?_
  rintro _ _ ⟨rfl, hopen⟩
  apply ends_get_bind
  dsimp only
  cases hentry : encodeEntry m.keys m.values key v with
  | error err => exact Ends.throw trivial
  | ok entry =>
    obtain ⟨k, b⟩ := entry
    obtain ⟨hkey, hvalue, hne, -⟩ := encodeEntry_eq_ok hentry
    have hredirects := redirects_iff (w := w) hopen hkey hne
    refine (ends_putBytesIn_becomes order k b m w).imp ?_
    rintro _ t (⟨hthere, ht⟩ | ⟨hapart, ht⟩)
    · have hwritten : (Call.put key v).written (m, w) = 0 := by
        rw [Call.written, hredirects.2 hthere, if_pos rfl]
      exact becomes_of_fills h hwritten nofun (ht ▸ fills_self m)
    · have hwritten : (Call.put key v).written (m, w) = b.length := by
        rw [Call.written, if_neg fun hyes => hapart (hredirects.1 hyes), hvalue]
        rfl
      rw [Becomes, Moves, hwritten]
      rcases ht with ⟨hexceeds, ht⟩ | ⟨hfits, ht⟩
      · obtain ⟨stage, hstage, -⟩ := id hexceeds
        exact .inl ⟨.inr hexceeds, isSpillable_of_stage hstage, ht⟩
      · exact .inr ⟨fun hmoves => hmoves.elim nofun hfits, ht ▸ fills_insert m k b⟩

theorem ends_erase_fills (key : κ) (m : SpillMap κ ν) (w : Workspace) :
    Ends (SpillMap.erase key) (m, w) (fun _ t => m.Fills 0 t.1) fun _ _ => True := by
  unfold SpillMap.erase
  refine Ends.bind (ends_ensureOpen_opened m w) ?_
  rintro _ _ ⟨rfl, -⟩
  refine Ends.bind ((ends_keyBytes key).imp_fail fun _ _ _ => trivial) ?_
  rintro k _ ⟨-, rfl⟩
  split
  · exact Ends.pure (fills_self m)
  · unfold eraseBytes
    apply ends_get_bind
    dsimp only
    split
    · exact ends_modify (fills_erase m k)
    · have hstill : Ends (spilledBytes k) (m, w) _ _ := leaves_spilledBytes m w k
      refine Ends.bind (hstill.imp_fail fun _ _ _ => trivial) ?_
      rintro found _ rfl
      split
      · exact (ends_onStage_same ..).imp fun _ t ht => ht ▸ fills_self m
      · exact Ends.pure (fills_self m)

theorem ends_spillIn_moved (order : Shuffle) (m : SpillMap κ ν) (w : Workspace) :
    Ends (spillIn order) (m, w) (fun _ t => m.isSpillable = true ∧ t.1 = m.moved) fun _ _ => True := by
  unfold spillIn
  refine Ends.bind (ends_ensureOpen_opened m w) ?_
  rintro _ _ ⟨rfl, -⟩
  apply ends_get_bind
  dsimp only
  split
  · next hspillable =>
    obtain ⟨stage, hstage⟩ := Option.isSome_iff_exists.1 hspillable
    exact (ends_spillMemoryIn_moved order hstage w).imp fun _ t ht => ⟨hspillable, ht⟩
  · exact Ends.throw trivial

/-- What each call makes of a map whose tally is within its budget. -/
theorem ends_runIn_becomes (order : Shuffle) (call : Call κ ν) (h : ¬ m.Exceeds 0) (w : Workspace) :
    Ends (call.runIn order) (m, w) (fun _ t => m.Becomes w call t.1) fun _ _ => True := by
  have hfound (key : κ) : Ends (find key) (m, w) (fun _ t => t = (m, w)) fun _ _ => True :=
    Ends.imp_fail (leaves_find m w key) fun _ _ _ => trivial
  have hsame {call : Call κ ν} (hwritten : call.written (m, w) = 0) (hspill : call ≠ .spill) :
      m.Becomes w call m := becomes_of_fills h hwritten hspill (fills_self m)
  cases call with
  | put key v => exact Ends.bind (ends_putIn_becomes order key v h w) fun _ _ ht => Ends.pure ht
  | find key => exact Ends.bind (hfound key) fun _ _ ht => Ends.pure (ht ▸ hsame rfl nofun)
  | contains key =>
    refine Ends.bind (M := fun _ t => t = (m, w)) ?_ fun _ _ ht => Ends.pure (ht ▸ hsame rfl nofun)
    exact Ends.bind (hfound key) fun _ _ ht => Ends.pure ht
  | erase key =>
    exact Ends.bind (ends_erase_fills key m w) fun _ _ ht => Ends.pure (becomes_of_fills h rfl nofun ht)
  | spill =>
    exact Ends.bind (ends_spillIn_moved order m w) fun _ _ ht => Ends.pure (.inl ⟨.inl rfl, ht⟩)

/-! ## Histories -/

/-- What is kept in mind of a call that succeeded: the bytes of values that it wrote to memory, and
whether the number of spills has changed. -/
structure Mark where
  written : Nat
  spilled : Bool

/-- What was written to memory since the last spill. The latest call is the first in the list. -/
def sinceSpill : List Mark → Nat
  | [] => 0
  | mark :: earlier => if mark.spilled then 0 else sinceSpill earlier + mark.written

theorem sinceSpill_le (marks : List Mark) : sinceSpill marks ≤ (marks.map Mark.written).sum := by
  induction marks with
  | nil => exact Nat.le_refl 0
  | cons mark earlier ih =>
    rw [sinceSpill, List.map_cons, List.sum_cons]
    split <;> omega

/-- Calls that succeed make a map out of another. Between them anything may happen to the workspace, and
entries are moved in any order. -/
inductive Past (m₀ : SpillMap κ ν) : List Mark → SpillMap κ ν → Prop
  | start : Past m₀ [] m₀
  | call {marks : List Mark} {m m' : SpillMap κ ν} {w w' : Workspace} {answer : Answer ν}
      (order : Shuffle) (call : Call κ ν) (h : Past m₀ marks m)
      (hrun : call.runIn order (m, w) = .ok answer (m', w')) :
      Past m₀ (⟨call.written (m, w), m'.spillCount ≠ m.spillCount⟩ :: marks) m'

/-- A new map, with its budget if it may spill. -/
inductive Made : SpillMap κ ν → Option Nat → Prop
  | memoryOnly (keys : Codec κ) (values : Codec ν) : Made (SpillMap.memoryOnly keys values) none
  | spillable {budget : Nat} {partition : String} {engine : EngineId} {keys : Codec κ}
      {values : Codec ν} {w w' : Workspace} {made : SpillMap κ ν}
      (h : SpillMap.spillable budget partition engine keys values w = .ok made w') :
      Made made (some budget)

theorem Made.new {budget? : Option Nat} (h : Made m₀ budget?) :
    m₀.memory = {} ∧ m₀.spillStage.map (·.budget) = budget? := by
  cases h with
  | memoryOnly keys values => exact ⟨rfl, rfl⟩
  | spillable h =>
    obtain ⟨rfl, -⟩ := ends_spillable.of_ok h
    exact ⟨rfl, rfl⟩

theorem spillCount_moved (h : m.isSpillable = true) : m.moved.spillCount = m.spillCount + 1 := by
  obtain ⟨stage, hstage⟩ := Option.isSome_iff_exists.1 h
  rw [spillCount, spillCount, moved, hstage]
  rfl

/-- The number of spills tells when everything was moved. -/
theorem Becomes.spillCount_iff {call : Call κ ν} (h : m.Becomes w call m') :
    m'.spillCount ≠ m.spillCount ↔ m.Moves w call := by
  rcases h with ⟨hmoves, hspillable, rfl⟩ | ⟨hstays, memory, rfl, -⟩
  · rw [spillCount_moved hspillable]
    exact iff_of_true (Nat.succ_ne_self _) hmoves
  · exact iff_of_false (fun hne => hne rfl) hstays

/-- The tally of a map is what was written since the last spill. -/
structure Tallied (budget? : Option Nat) (marks : List Mark) (m : SpillMap κ ν) : Prop where
  exact : m.memory.tally = sinceSpill marks
  payload : m.memory.payload ≤ m.memory.tally
  within : ¬ m.Exceeds 0
  budget : m.spillStage.map (·.budget) = budget?
  stays : budget? = none → ∀ mark ∈ marks, mark.spilled = false

theorem Made.tallied {budget? : Option Nat} (h : Made m₀ budget?) : m₀.Tallied budget? [] := by
  obtain ⟨hmemory, hbudget⟩ := h.new
  refine ⟨by rw [hmemory]; rfl, by rw [hmemory]; exact Nat.le_refl 0, ?_, hbudget,
    fun _ _ hmem => absurd hmem List.not_mem_nil⟩
  rintro ⟨stage, -, hover⟩
  rw [hmemory] at hover
  exact Nat.not_lt_zero _ hover

/-- Every call that succeeds keeps the tally what was written since the last spill. -/
theorem Tallied.step {budget? : Option Nat} {marks : List Mark} {call : Call κ ν}
    (h : m.Tallied budget? marks) (hbecomes : m.Becomes w call m') :
    m'.Tallied budget? (⟨call.written (m, w), m'.spillCount ≠ m.spillCount⟩ :: marks) := by
  have hcount := hbecomes.spillCount_iff
  rcases hbecomes with ⟨hmoves, hspillable, rfl⟩ | ⟨hstays, memory, rfl, htally, hpayload⟩
  · have hspilled : decide (m.moved.spillCount ≠ m.spillCount) = true := decide_eq_true (hcount.2 hmoves)
    refine ⟨?_, Nat.le_refl 0, ?_, ?_, fun hnone => ?_⟩
    · rw [sinceSpill, if_pos hspilled]
      rfl
    · rintro ⟨stage, -, hover⟩
      exact Nat.not_lt_zero _ hover
    · rw [← h.budget, moved, Option.map_map]
      rfl
    · obtain ⟨stage, hstage⟩ := Option.isSome_iff_exists.1 hspillable
      have hbudget := h.budget
      rw [hstage, hnone] at hbudget
      cases hbudget
  · have hkept : decide (m.spillCount ≠ m.spillCount) = false := by simp
    have hexact := h.exact
    have hheld := h.payload
    refine ⟨?_, ?_, ?_, h.budget, fun hnone mark hmark => ?_⟩
    · show memory.tally = if decide (m.spillCount ≠ m.spillCount) then 0
        else sinceSpill marks + call.written (m, w)
      rw [hkept, if_neg Bool.false_ne_true]
      omega
    · show memory.payload ≤ memory.tally
      omega
    · rintro ⟨stage, hstage, hover⟩
      refine hstays (.inr ⟨stage, hstage, ?_⟩)
      rw [← htally]
      exact hover
    · rcases List.mem_cons.1 hmark with rfl | hmark
      · exact hkept
      · exact h.stays hnone mark hmark

theorem Past.tallied {budget? : Option Nat} {marks : List Mark} (hmade : Made m₀ budget?)
    (h : Past m₀ marks m) : m.Tallied budget? marks := by
  induction h with
  | start => exact hmade.tallied
  | call order call _ hrun ih => exact ih.step ((ends_runIn_becomes order call ih.within _).of_ok hrun)

/-- After any calls on a new map that succeed, its tally is what they wrote to memory since the last
spill, so no more than all they ever wrote. What was overwritten or deleted since is included, and what
a put wrote to a key in the spill stage is not. The values in memory take no more bytes. The tally is
within the budget, and the next call that succeeds spills if it is there to do so or if what it writes
would bring the tally above the budget. Then memory is empty and the tally zero, and there is one spill
more. A map without a budget never spills. -/
theorem tally_is_sinceSpill {budget? : Option Nat} {marks : List Mark} (hmade : Made m₀ budget?)
    (hpast : Past m₀ marks m) :
    m.memory.tally = sinceSpill marks ∧ m.memory.tally ≤ (marks.map Mark.written).sum ∧
    m.memory.payload ≤ m.memory.tally ∧
    (budget? = none → m.spillCount = 0 ∧ ∀ mark ∈ marks, mark.spilled = false) ∧
    ∀ budget, budget? = some budget → m.memory.tally ≤ budget ∧
      ∀ (order : Shuffle) (call : Call κ ν) (w : Workspace) (answer : Answer ν)
        (m' : SpillMap κ ν) (w' : Workspace), call.runIn order (m, w) = .ok answer (m', w') →
        (m'.spillCount ≠ m.spillCount ↔
          call = .spill ∨ budget < m.memory.tally + call.written (m, w)) ∧
        (m'.spillCount ≠ m.spillCount → m'.memory = {} ∧ m'.spillCount = m.spillCount + 1) := by
  have htallied := hpast.tallied hmade
  refine ⟨htallied.exact, htallied.exact ▸ sinceSpill_le marks, htallied.payload, ?_, ?_⟩
  · intro hnone
    refine ⟨?_, htallied.stays hnone⟩
    rw [spillCount, Option.map_eq_none_iff.1 (htallied.budget.trans hnone)]
    rfl
  · intro budget hbudget
    obtain ⟨stage, hstage, rfl⟩ := Option.map_eq_some_iff.1 (htallied.budget.trans hbudget)
    have hexceeds (more : Nat) : m.Exceeds more ↔ stage.budget < m.memory.tally + more := by
      simp [Exceeds, hstage]
    refine ⟨Nat.not_lt.1 fun hover => htallied.within ((hexceeds 0).2 hover), ?_⟩
    intro order call w answer m' w' hrun
    have hbecomes := (ends_runIn_becomes order call htallied.within w).of_ok hrun
    rw [hbecomes.spillCount_iff, Moves, hexceeds]
    refine ⟨Iff.rfl, fun hmoves => ?_⟩
    rcases hbecomes with ⟨-, hspillable, rfl⟩ | ⟨hstays, -⟩
    · exact ⟨rfl, spillCount_moved hspillable⟩
    · exact absurd (hmoves.imp_right (hexceeds _).2) hstays

/-- A call that succeeds comes next. -/
theorem Past.next {marks : List Mark} {t : SpillMap κ ν × Workspace} (h : Past m₀ marks t.1)
    (call : Call κ ν) (hsucceeds : succeeds (call.runIn .byKey) t = true) :
    Past m₀ (⟨call.written t, (after (call.runIn .byKey) t).1.spillCount ≠ t.1.spillCount⟩ :: marks)
      (after (call.runIn .byKey) t).1 := by
  obtain ⟨answer, t', hrun⟩ := exists_of_succeeds hsucceeds
  have hafter : after (call.runIn .byKey) t = t' := by rw [after, hrun]
  rw [hafter]
  exact .call .byKey call h hrun

/-- A map with a budget of two bytes, over an engine that flushes each write. -/
def narrow : SpillMap Bytes Bytes × Workspace :=
  resultOf (SpillMap.spillable 2 "p" 0 .raw .raw) (SpillMap.memoryOnly .raw .raw)
    { disk := Engine.started.2, engines := [⟨Engine.started.1, 1⟩] }

/-- One value was overwritten and deleted before the map spilled, and the key that was moved was put
again. -/
def narrowed : SpillMap Bytes Bytes × Workspace :=
  [.put [1] [7], .put [1] [8], .erase [1], .put [2] [9], .put [2] [5, 5, 5]].foldl
    (fun t call => after (Call.runIn .byKey call) t) narrow

theorem tally_is_sinceSpill_narrowed :
    narrowed.1.memory.tally = 0 ∧ narrowed.1.memory.payload ≤ 0 ∧
      ∃ answer t, (Call.put [3] [6, 6, 6]).runIn .byKey narrowed = .ok answer t ∧
        t.1.memory = {} ∧ t.1.spillCount = 2 := by
  have hmade : Made narrow.1 (some 2) :=
    .spillable (eq_ok_of_succeeds (by decide +kernel) (SpillMap.memoryOnly .raw .raw))
  have hone := Past.start.next (t := narrow) (.put [1] [7]) (by decide +kernel)
  have htwo := hone.next (.put [1] [8]) (by decide +kernel)
  have hthree := htwo.next (.erase [1]) (by decide +kernel)
  have hfour := hthree.next (.put [2] [9]) (by decide +kernel)
  have hfive := hfour.next (.put [2] [5, 5, 5]) (by decide +kernel)
  obtain ⟨htally, -, hpayload, -, hnext⟩ := tally_is_sinceSpill hmade hfive
  have hsum : narrowed.1.memory.tally = 0 := htally.trans (by decide +kernel)
  have hsucceeds : succeeds ((Call.put [3] [6, 6, 6]).runIn .byKey) narrowed = true := by
    decide +kernel
  obtain ⟨answer, t, hrun⟩ := exists_of_succeeds hsucceeds
  obtain ⟨hspills, hspilled⟩ := (hnext 2 rfl).2 .byKey _ narrowed.2 answer t.1 t.2 hrun
  have hwritten : (Call.put [3] [6, 6, 6]).written narrowed = 3 := by decide +kernel
  have hover : 2 < narrowed.1.memory.tally + (Call.put [3] [6, 6, 6]).written narrowed := by
    rw [hsum, hwritten]
    decide
  obtain ⟨hmemory, hmore⟩ := hspilled (hspills.2 (.inr hover))
  have hcount : narrowed.1.spillCount = 1 := by decide +kernel
  exact ⟨hsum, hpayload.trans_eq hsum, answer, t, hrun, hmemory, hmore.trans (congrArg (· + 1) hcount)⟩

end SpillMap

end Spillway
