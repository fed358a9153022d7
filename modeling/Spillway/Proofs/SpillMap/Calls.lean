import Spillway.Proofs.Engine.Start
import Spillway.Proofs.SpillMap

/-!
# Calls on a map that spills

A history of calls is answered as a plain map of bytes would answer it (`answers_eq_plain`), whatever
the budget and the configuration of the engine are and in whatever order entries are moved, and iterating
gives what the plain map holds (`ends_contents_of_history`).
-/

namespace Spillway.SpillMap

open Engine

variable {κ ν : Type} {m : SpillMap κ ν} {w : Workspace} {allowed : Entry → Prop}
  {value : Bytes → Option Bytes} {n : Nat}

/-! ## Calls -/

inductive Call (κ ν : Type) where
  | put (key : κ) (value : ν)
  | find (key : κ)
  | contains (key : κ)
  | erase (key : κ)
  | spill

/-- The result of a call that succeeds. -/
inductive Answer (ν : Type) where
  | done
  | value (found : Option ν)
  | known (found : Bool)

namespace Call

def run : Call κ ν → MapM κ ν (Answer ν)
  | put key value => do
    SpillMap.put key value
    return .done
  | find key => return .value (← SpillMap.find key)
  | contains key => return .known (← SpillMap.contains key)
  | erase key => do
    SpillMap.erase key
    return .done
  | spill => do
    SpillMap.spill
    return .done

/-- The call, where entries are moved in another order than that of their keys. -/
def runIn (order : Shuffle) : Call κ ν → MapM κ ν (Answer ν)
  | put key value => do
    putIn order key value
    return .done
  | spill => do
    spillIn order
    return .done
  | call => call.run

theorem runIn_byKey (call : Call κ ν) : call.runIn .byKey = call.run := by
  cases call <;> rfl

/-- The entry is one that the call may write. -/
def Writes (keys : Codec κ) (values : Codec ν) : Call κ ν → Entry → Prop
  | put key value, entry =>
    ∃ k b, encodeEntry keys values key value = .ok (k, b) ∧ entry = (k, some b)
  | erase key, entry => ∃ k, keys.encode key = .ok k ∧ entry = (k, none)
  | _, _ => False

/-- A value out of its bytes, if there is one. -/
def decodeFound (values : Codec ν) : Option Bytes → Except Error (Option ν)
  | none => .ok none
  | some v => ((values.decode v).mapError .serialization).map some

/-- The value of a key in a plain map of bytes. -/
def plainFind (keys : Codec κ) (values : Codec ν) (value : Bytes → Option Bytes) (key : κ) :
    Except Error (Option ν) :=
  match keys.encode key with
  | .ok key => decodeFound values (value key)
  | .error e => .error (.serialization e)

/-- The answer of a plain map of bytes that can be asked to spill or not, and the map afterwards. -/
def plain (keys : Codec κ) (values : Codec ν) (spillable : Bool) (value : Bytes → Option Bytes) :
    Call κ ν → Except Error (Answer ν) × (Bytes → Option Bytes)
  | put key v =>
    match keys.encode key, values.encode v with
    | .error e, _ => (.error (.serialization e), value)
    | .ok _, .error e => (.error (.serialization e), value)
    | .ok key, .ok v =>
      if key = [] then (.error (.invalidArgument (.emptyEncoding .key)), value)
      else if v = [] then (.error (.invalidArgument (.emptyEncoding .value)), value)
      else (.ok .done, record value (key, some v))
  | find key => ((plainFind keys values value key).map .value, value)
  | contains key => ((plainFind keys values value key).map fun found => .known found.isSome, value)
  | erase key =>
    match keys.encode key with
    | .ok key => (.ok .done, record value (key, none))
    | .error e => (.error (.serialization e), value)
  | spill => (if spillable then .ok .done else .error (.invalidArgument .cannotSpill), value)

end Call

/-- The bytes of something are no more than a table entry can hold. -/
def Within {α : Type} (codec : Codec α) (x : α) : Prop :=
  ∀ bytes, codec.encode x = .ok bytes → bytes.length ≤ Table.maxEntryBytes

/-- The bytes of what a call is given are no more than a table entry can hold. -/
def Call.Within (keys : Codec κ) (values : Codec ν) : Call κ ν → Prop
  | put key v => SpillMap.Within keys key ∧ SpillMap.Within values v
  | find key => SpillMap.Within keys key
  | contains key => SpillMap.Within keys key
  | erase key => SpillMap.Within keys key
  | spill => True

theorem encodeEntry_eq (keys : Codec κ) (values : Codec ν) (key : κ) (v : ν) :
    encodeEntry keys values key v =
      match keys.encode key, values.encode v with
      | .error e, _ => .error (.serialization e)
      | .ok _, .error e => .error (.serialization e)
      | .ok k, .ok b =>
        if k = [] then .error (.invalidArgument (.emptyEncoding .key))
        else if b = [] then .error (.invalidArgument (.emptyEncoding .value))
        else .ok (k, b) := by
  unfold encodeEntry
  cases keys.encode key with
  | error e => rfl
  | ok k =>
    cases values.encode v with
    | error e => rfl
    | ok b =>
      show (do checkEncoding .key k; checkEncoding .value b; return (k, b)) = _
      unfold checkEncoding
      dsimp only
      by_cases hk : k = []
      · rw [if_pos hk, if_pos hk]
        rfl
      · rw [if_neg hk, if_neg hk]
        by_cases hb : b = []
        · rw [if_pos hb, if_pos hb]
          rfl
        · rw [if_neg hb, if_neg hb]
          rfl

theorem encodeEntry_eq_ok {keys : Codec κ} {values : Codec ν} {key : κ} {v : ν} {k b : Bytes}
    (h : encodeEntry keys values key v = .ok (k, b)) :
    keys.encode key = .ok k ∧ values.encode v = .ok b ∧ k ≠ [] ∧ b ≠ [] := by
  rw [encodeEntry_eq] at h
  split at h <;> try cases h
  next k' b' hk hb =>
    split at h
    · cases h
    · split at h
      · cases h
      · cases h
        exact ⟨hk, hb, ‹_›, ‹_›⟩

/-- A plain map refuses what has no bytes. -/
theorem Call.plain_put (keys : Codec κ) (values : Codec ν) (spillable : Bool)
    (value : Bytes → Option Bytes) (key : κ) (v : ν) :
    (Call.put key v).plain keys values spillable value =
      match encodeEntry keys values key v with
      | .ok (k, b) => (.ok .done, record value (k, some b))
      | .error e => (.error e, value) := by
  rw [Call.plain, encodeEntry_eq]
  cases keys.encode key with
  | error e => rfl
  | ok k =>
    cases values.encode v with
    | error e => rfl
    | ok b =>
      dsimp only
      split
      · rfl
      · split <;> rfl

/-! ## Single calls -/

theorem ends_keyBytes (key : κ) :
    Ends (keyBytes key) (m, w) (fun k t => m.keys.encode key = .ok k ∧ t = (m, w))
      fun err t => ∃ e, m.keys.encode key = .error e ∧ err = .serialization e ∧ t = (m, w) := by
  unfold keyBytes
  refine ends_get_bind ?_
  dsimp only
  unfold coded
  cases m.keys.encode key with
  | ok k => exact Ends.pure ⟨rfl, rfl⟩
  | error e => exact Ends.throw ⟨e, rfl, rfl, rfl⟩

theorem ends_putIn (order : Shuffle) (key : κ) (v : ν) (h : m.Holds w allowed value n)
    (hallowed : ∀ entry, (Call.put key v).Writes m.keys m.values entry → allowed entry)
    (hroom : 1 + 2 * (n + 1) < UInt64.size) :
    Ends (putIn order key v) (m, w)
      (fun _ t => ∃ k b, encodeEntry m.keys m.values key v = .ok (k, b) ∧ m.Kind t.1 ∧
        t.1.Holds t.2 allowed (record value (k, some b)) (n + 1) ∧ Disk.Later w.disk t.2.disk ∧
        (m.Movable → (m.isSpillable = true → Within m.keys key ∧ Within m.values v) → t.1.Movable))
      fun err t => Interrupted w.disk allowed err ∨ m.Keeps w allowed value (n + 1) t ∧
        (m.Movable → (m.isSpillable = true → Within m.keys key ∧ Within m.values v) →
          encodeEntry m.keys m.values key v = .error err ∧ t = (m, w)) := by
  unfold putIn
  refine Ends.bind (ends_ensureOpen h.opened) ?_
  rintro _ _ rfl
  refine ends_get_bind ?_
  dsimp only
  cases hentry : encodeEntry m.keys m.values key v with
  | error err => exact Ends.throw (.inr ⟨h.keeps (Nat.le_succ n), fun _ _ => ⟨rfl, rfl⟩⟩)
  | ok entry =>
    obtain ⟨k, b⟩ := entry
    obtain ⟨hk, hb, hkne, hbne⟩ := encodeEntry_eq_ok hentry
    have haccepts : (m.isSpillable = true → Within m.keys key ∧ Within m.values v) →
        m.isSpillable = true → Accepts (k, some b) := fun hwithin hspillable =>
      ⟨⟨hkne, (hwithin hspillable).1 k hk⟩, fun _ hv =>
        Option.mem_some.1 hv ▸ ⟨hbne, (hwithin hspillable).2 b hb⟩⟩
    refine Ends.bind (M := fun found t => found = (k, b) ∧ t = (m, w)) (Ends.pure ⟨rfl, rfl⟩) ?_
    rintro _ _ ⟨rfl, rfl⟩
    refine (ends_putBytesIn order h hkne hbne (hallowed _ ⟨k, b, hentry, rfl⟩) hroom).mono ?_ ?_
    · rintro _ t ⟨hkind, hholds, hlater, hmovable⟩
      exact ⟨k, b, rfl, hkind, hholds, hlater, fun hm hwithin => hmovable hm (haccepts hwithin)⟩
    · rintro err t (hint | ⟨hkeeps, hrefused⟩)
      · exact .inl hint
      · exact .inr ⟨hkeeps, fun hm hwithin => absurd (haccepts hwithin) (hrefused hm)⟩

theorem ends_find (key : κ) (h : m.Holds w allowed value n) :
    Ends (find key) (m, w)
      (fun found t => Call.plainFind m.keys m.values value key = .ok found ∧ t = (m, w))
      fun err t => t = (m, w) ∧ ((m.hasSpilled = true → Within m.keys key) →
        Call.plainFind m.keys m.values value key = .error err) := by
  unfold find
  refine Ends.bind (ends_ensureOpen h.opened) ?_
  rintro _ _ rfl
  refine ends_get_bind ?_
  dsimp only
  unfold Call.plainFind
  refine Ends.bind ((ends_keyBytes key).imp_fail ?_) ?_
  · rintro _ _ ⟨e, hk, rfl, rfl⟩
    rw [hk]
    exact ⟨rfl, fun _ => rfl⟩
  rintro k _ ⟨hk, rfl⟩
  refine Ends.bind ((ends_valueBytes h k).imp_fail ?_) ?_
  · rintro err t ⟨rfl, hspilled, hlong, -⟩
    exact ⟨rfl, fun hwithin => absurd (hwithin hspilled k hk) (Nat.not_le.2 hlong)⟩
  rw [hk]
  rintro _ _ ⟨rfl, rfl⟩
  dsimp only
  cases value k with
  | none => exact Ends.pure ⟨rfl, rfl⟩
  | some v =>
    unfold Call.decodeFound coded
    dsimp only
    cases m.values.decode v with
    | ok x => exact Ends.pure ⟨rfl, rfl⟩
    | error e => exact Ends.throw ⟨rfl, fun _ => rfl⟩

theorem ends_contains (key : κ) (h : m.Holds w allowed value n) :
    Ends (contains key) (m, w)
      (fun b t => ∃ found, Call.plainFind m.keys m.values value key = .ok found ∧
        b = found.isSome ∧ t = (m, w))
      fun err t => t = (m, w) ∧ ((m.hasSpilled = true → Within m.keys key) →
        Call.plainFind m.keys m.values value key = .error err) := by
  unfold contains
  refine Ends.bind (ends_find key h) ?_
  rintro found t ⟨hfind, ht⟩
  exact Ends.pure ⟨found, hfind, rfl, ht⟩

theorem ends_erase (key : κ) (h : m.Holds w allowed value n)
    (hallowed : ∀ entry, (Call.erase key : Call κ ν).Writes m.keys m.values entry → allowed entry)
    (hroom : 1 + 2 * (n + 1) < UInt64.size) :
    Ends (erase key) (m, w)
      (fun _ t => ∃ k, m.keys.encode key = .ok k ∧ m.Kind t.1 ∧
        t.1.Holds t.2 allowed (record value (k, none)) (n + 1) ∧ Disk.Later w.disk t.2.disk ∧
        (m.Movable → t.1.Movable))
      fun err t => Interrupted w.disk allowed err ∨ t = (m, w) ∧
        ((m.hasSpilled = true → Within m.keys key) →
          ∃ e, m.keys.encode key = .error e ∧ err = .serialization e) := by
  unfold erase
  refine Ends.bind (ends_ensureOpen h.opened) ?_
  rintro _ _ rfl
  refine Ends.bind ((ends_keyBytes key).imp_fail ?_) ?_
  · rintro err t ⟨e, hk, herr, ht⟩
    exact .inr ⟨ht, fun _ => ⟨e, hk, herr⟩⟩
  rintro k _ ⟨hk, rfl⟩
  by_cases hempty : k = []
  · rw [if_pos hempty]
    refine Ends.pure ⟨k, hk, ⟨rfl, rfl, rfl⟩, ?_, Disk.later_refl _, fun hm => hm⟩
    rw [hempty, record_none h.value_nil]
    exact h.mono (Nat.le_succ n)
  · rw [if_neg hempty]
    refine (ends_eraseBytes h hempty (hallowed _ ⟨k, hk, rfl⟩) hroom).mono ?_ ?_
    · rintro _ t hpost
      exact ⟨k, hk, hpost⟩
    · rintro err t (hint | ⟨ht, hspilled, hrefused⟩)
      · exact .inl hint
      · exact .inr ⟨ht, fun hwithin => absurd ⟨hempty, hwithin hspilled k hk⟩ hrefused⟩

theorem ends_spillIn (order : Shuffle) (h : m.Holds w allowed value n)
    (hroom : 1 + 2 * n < UInt64.size) :
    Ends (spillIn order) (m, w)
      (fun _ t => m.isSpillable = true ∧ m.Kind t.1 ∧ t.1.Holds t.2 allowed value n ∧
        Disk.Later w.disk t.2.disk ∧ t.1.Movable)
      fun err t => Interrupted w.disk allowed err ∨ m.Keeps w allowed value n t ∧
        (m.Movable → m.isSpillable = false ∧ err = .invalidArgument .cannotSpill ∧ t = (m, w)) := by
  unfold spillIn
  refine Ends.bind (ends_ensureOpen h.opened) ?_
  rintro _ _ rfl
  refine ends_get_bind ?_
  dsimp only
  cases hspillable : m.isSpillable with
  | true =>
    refine (ends_spillMemoryIn order h hroom).mono (fun _ _ hp => ⟨rfl, hp⟩) ?_
    rintro err t (hint | ⟨hstuck, value', hvalue', hpost⟩)
    · exact .inl hint
    · exact .inr ⟨⟨value', fun key v hv => (hvalue' key v hv).1, hpost⟩, fun hm => absurd hm hstuck⟩
  | false => exact Ends.throw (.inr ⟨h.keeps (Nat.le_refl n), fun _ => ⟨rfl, rfl, rfl⟩⟩)

/-- A call that succeeds is answered as a plain map would answer it. One that fails, without being
interrupted, has no other values afterwards; where nothing is too long for a table entry it fails as on a
plain map, and changes nothing. -/
theorem ends_call (order : Shuffle) (call : Call κ ν) (h : m.Holds w allowed value n)
    (hallowed : ∀ entry, call.Writes m.keys m.values entry → allowed entry)
    (hroom : 1 + 2 * (n + 1) < UInt64.size) :
    Ends (call.runIn order) (m, w)
      (fun a t => (call.plain m.keys m.values m.isSpillable value).1 = .ok a ∧ m.Kind t.1 ∧
        t.1.Holds t.2 allowed (call.plain m.keys m.values m.isSpillable value).2 (n + 1) ∧
        Disk.Later w.disk t.2.disk ∧
        (m.Movable → (m.isSpillable = true → call.Within m.keys m.values) → t.1.Movable))
      fun err t => Interrupted w.disk allowed err ∨ m.Keeps w allowed value (n + 1) t ∧
        (m.Movable → (m.isSpillable = true → call.Within m.keys m.values) →
          call.plain m.keys m.values m.isSpillable value = (.error err, value) ∧ t = (m, w)) := by
  have hholds := h.mono (Nat.le_succ n)
  have hkeeps := h.keeps (Nat.le_succ n)
  cases call with
  | put key v =>
    rw [Call.plain_put]
    refine Ends.bind ((ends_putIn order key v h hallowed hroom).imp_fail ?_) ?_
    · rintro err t (hint | ⟨hkept, hexact⟩)
      · exact .inl hint
      · refine .inr ⟨hkept, fun hm hwithin => ?_⟩
        obtain ⟨hentry, ht⟩ := hexact hm hwithin
        rw [hentry]
        exact ⟨rfl, ht⟩
    · rintro _ t ⟨k, b, hentry, hpost⟩
      rw [hentry]
      exact Ends.pure ⟨rfl, hpost⟩
  | find key =>
    rw [Call.plain]
    refine Ends.bind ((ends_find key h).imp_fail ?_) ?_
    · rintro err _ ⟨rfl, hexact⟩
      refine .inr ⟨hkeeps, fun _ hwithin => ⟨?_, rfl⟩⟩
      rw [hexact fun hspilled => hwithin (isSpillable_of_hasSpilled hspilled)]
      rfl
    · rintro found _ ⟨hfind, rfl⟩
      rw [hfind]
      exact Ends.pure ⟨rfl, ⟨rfl, rfl, rfl⟩, hholds, Disk.later_refl _, fun hm _ => hm⟩
  | contains key =>
    rw [Call.plain]
    refine Ends.bind ((ends_contains key h).imp_fail ?_) ?_
    · rintro err _ ⟨rfl, hexact⟩
      refine .inr ⟨hkeeps, fun _ hwithin => ⟨?_, rfl⟩⟩
      rw [hexact fun hspilled => hwithin (isSpillable_of_hasSpilled hspilled)]
      rfl
    · rintro _ _ ⟨found, hfind, rfl, rfl⟩
      rw [hfind]
      exact Ends.pure ⟨rfl, ⟨rfl, rfl, rfl⟩, hholds, Disk.later_refl _, fun hm _ => hm⟩
  | erase key =>
    rw [Call.plain]
    refine Ends.bind ((ends_erase key h hallowed hroom).imp_fail ?_) ?_
    · rintro err t (hint | ⟨rfl, hexact⟩)
      · exact .inl hint
      · refine .inr ⟨hkeeps, fun _ hwithin => ?_⟩
        obtain ⟨e, hk, rfl⟩ := hexact fun hspilled => hwithin (isSpillable_of_hasSpilled hspilled)
        rw [hk]
        exact ⟨rfl, rfl⟩
    · rintro _ t ⟨k, hk, hkind, hpost, hlater, hmovable⟩
      rw [hk]
      exact Ends.pure ⟨rfl, hkind, hpost, hlater, fun hm _ => hmovable hm⟩
  | spill =>
    rw [Call.plain]
    refine Ends.bind ((ends_spillIn order h (by omega)).imp_fail ?_) ?_
    · rintro err t (hint | ⟨⟨value', hvalue', hkind, hpost, hlater⟩, hexact⟩)
      · exact .inl hint
      · refine .inr ⟨⟨value', hvalue', hkind, hpost.mono (Nat.le_succ n), hlater⟩, fun hm _ => ?_⟩
        obtain ⟨hspillable, rfl, rfl⟩ := hexact hm
        rw [hspillable]
        exact ⟨rfl, rfl⟩
    · rintro _ t ⟨hspillable, hkind, hpost, hlater, hmovable⟩
      rw [hspillable]
      exact Ends.pure ⟨rfl, hkind, hpost.mono (Nat.le_succ n), hlater, fun _ _ => hmovable⟩

/-! ## Histories -/

/-- Calls, each with the order in which it moves entries if it moves any. -/
abbrev History (κ ν : Type) := List (Shuffle × Call κ ν)

/-- The calls of a history. -/
def History.calls (history : History κ ν) : List (Call κ ν) := history.map Prod.snd

/-- The entry is one that a call may write. -/
def History.Writes (keys : Codec κ) (values : Codec ν) (history : History κ ν) (entry : Entry) : Prop :=
  ∃ call ∈ history.calls, call.Writes keys values entry

/-- The answer of a call, and what it leaves. -/
def perform (order : Shuffle) (call : Call κ ν) (s : SpillMap κ ν × Workspace) :
    Except Error (Answer ν) × SpillMap κ ν × Workspace :=
  match call.runIn order s with
  | .ok a s => (.ok a, s)
  | .error e s => (.error e, s)

/-- The answers of calls one after the other, whether they succeed or not. -/
def performAll : History κ ν → SpillMap κ ν × Workspace →
    List (Except Error (Answer ν)) × SpillMap κ ν × Workspace
  | [], s => ([], s)
  | (order, call) :: rest, s =>
    let (answer, s) := perform order call s
    let (answers, s) := performAll rest s
    (answer :: answers, s)

/-- The answers of a plain map to the same calls. -/
def plainAll (keys : Codec κ) (values : Codec ν) (spillable : Bool) :
    List (Call κ ν) → (Bytes → Option Bytes) → List (Except Error (Answer ν)) × (Bytes → Option Bytes)
  | [], value => ([], value)
  | call :: rest, value =>
    let (answer, value) := call.plain keys values spillable value
    let (answers, value) := plainAll keys values spillable rest value
    (answer :: answers, value)

theorem performAll_cons (order : Shuffle) (call : Call κ ν) (rest : History κ ν)
    (s : SpillMap κ ν × Workspace) :
    performAll ((order, call) :: rest) s =
      ((perform order call s).1 :: (performAll rest (perform order call s).2).1,
        (performAll rest (perform order call s).2).2) := rfl

theorem plainAll_cons (keys : Codec κ) (values : Codec ν) (spillable : Bool) (call : Call κ ν)
    (rest : List (Call κ ν)) (value : Bytes → Option Bytes) :
    plainAll keys values spillable (call :: rest) value =
      ((call.plain keys values spillable value).1 ::
          (plainAll keys values spillable rest (call.plain keys values spillable value).2).1,
        (plainAll keys values spillable rest (call.plain keys values spillable value).2).2) := rfl

/-- No call was interrupted: the disk did not fail it, and no table of allowed entries was too large. -/
def Uninterrupted (d : Disk) (allowed : Entry → Prop) (answers : List (Except Error (Answer ν))) :
    Prop :=
  ∀ err, .error err ∈ answers → ¬ Interrupted d allowed err

/-- The values of a plain map after a call of which the answer is known: one that failed changed
nothing. -/
def Call.after (keys : Codec κ) (values : Codec ν) (spillable : Bool) (value : Bytes → Option Bytes) :
    Call κ ν × Except Error (Answer ν) → (Bytes → Option Bytes)
  | (call, .ok _) => (call.plain keys values spillable value).2
  | (_, .error _) => value

/-- The values of a plain map after calls of which the answers are known. -/
def acknowledged (keys : Codec κ) (values : Codec ν) (spillable : Bool) (history : List (Call κ ν))
    (answers : List (Except Error (Answer ν))) (value : Bytes → Option Bytes) :
    Bytes → Option Bytes :=
  (history.zip answers).foldl (Call.after keys values spillable) value

theorem Under.write {value' : Bytes → Option Bytes} (h : Under value' value) (entry : Entry) :
    Under (record value' entry) (record value entry) := by
  intro key v hv
  unfold record at hv ⊢
  split at hv
  · next hkey => rwa [if_pos hkey]
  · next hkey =>
    rw [if_neg hkey]
    exact h key v hv

theorem Under.plain {value' : Bytes → Option Bytes} {keys : Codec κ} {values : Codec ν}
    {spillable : Bool} (h : Under value' value) (call : Call κ ν) :
    Under (call.plain keys values spillable value').2 (call.plain keys values spillable value).2 := by
  cases call with
  | put key v =>
    rw [Call.plain_put, Call.plain_put]
    cases encodeEntry keys values key v with
    | ok entry => exact h.write (entry.1, some entry.2)
    | error err => exact h
  | find key => exact h
  | contains key => exact h
  | erase key =>
    rw [Call.plain, Call.plain]
    cases keys.encode key with
    | ok k => exact h.write (k, none)
    | error err => exact h
  | spill => exact h

theorem Under.after {value' : Bytes → Option Bytes} {keys : Codec κ} {values : Codec ν}
    {spillable : Bool} (h : Under value' value) (call : Call κ ν)
    (answer : Except Error (Answer ν)) :
    Under (Call.after keys values spillable value' (call, answer))
      (Call.after keys values spillable value (call, answer)) := by
  cases answer with
  | ok a => exact h.plain call
  | error err => exact h

/-- A call that is not interrupted leaves no values that it should not. Where nothing is too long for
a table entry it does what it does to a plain map. -/
theorem perform_spec (order : Shuffle) (call : Call κ ν) (h : m.Holds w allowed value n)
    (hallowed : ∀ entry, call.Writes m.keys m.values entry → allowed entry)
    (hroom : 1 + 2 * (n + 1) < UInt64.size)
    (hio : ∀ err, (perform order call (m, w)).1 = .error err → ¬ Interrupted w.disk allowed err) :
    ∃ value', m.Kind (perform order call (m, w)).2.1 ∧
      (perform order call (m, w)).2.1.Holds (perform order call (m, w)).2.2 allowed value' (n + 1) ∧
      Disk.Later w.disk (perform order call (m, w)).2.2.disk ∧
      Under value'
        (Call.after m.keys m.values m.isSpillable value (call, (perform order call (m, w)).1)) ∧
      (m.Movable → (m.isSpillable = true → call.Within m.keys m.values) →
        ((perform order call (m, w)).1, value') = call.plain m.keys m.values m.isSpillable value ∧
        (perform order call (m, w)).2.1.Movable) := by
  have hends := ends_call order call h hallowed hroom
  unfold perform at hio ⊢
  cases hrun : call.runIn order (m, w) with
  | ok a t =>
    obtain ⟨hanswer, hkind, hholds, hlater, hmovable⟩ := hends.of_ok hrun
    exact ⟨_, hkind, hholds, hlater, fun _ _ hv => hv, fun hm hwithin =>
      ⟨Prod.ext hanswer.symm rfl, hmovable hm hwithin⟩⟩
  | error err t =>
    rw [hrun] at hio
    rcases hends.of_error hrun with hint | ⟨⟨value', hunder, hkind, hholds, hlater⟩, hexact⟩
    · exact absurd hint (hio err rfl)
    · by_cases hwell : m.Movable ∧ (m.isSpillable = true → call.Within m.keys m.values)
      · obtain ⟨hplain, rfl⟩ := hexact hwell.1 hwell.2
        exact ⟨value, ⟨rfl, rfl, rfl⟩, h.mono (Nat.le_succ n), Disk.later_refl _, fun _ _ hv => hv,
          fun hm _ => ⟨hplain.symm, hm⟩⟩
      · exact ⟨value', hkind, hholds, hlater, hunder, fun hm hwithin => absurd ⟨hm, hwithin⟩ hwell⟩

theorem Kind.trans {m₁ m₂ : SpillMap κ ν} (h : m.Kind m₁) (h' : m₁.Kind m₂) : m.Kind m₂ where
  keys := h'.keys.trans h.keys
  values := h'.values.trans h.values
  spillable := h'.spillable.trans h.spillable

/-- The same for histories of calls. -/
theorem performAll_spec (history : History κ ν) {bound : Bytes → Option Bytes}
    (h : m.Holds w allowed value n)
    (hallowed : ∀ entry, history.Writes m.keys m.values entry → allowed entry)
    (hbound : Under value bound) (hroom : 1 + 2 * (n + history.length) < UInt64.size)
    (hio : Uninterrupted w.disk allowed (performAll history (m, w)).1) :
    ∃ value', m.Kind (performAll history (m, w)).2.1 ∧
      (performAll history (m, w)).2.1.Holds (performAll history (m, w)).2.2 allowed value'
        (n + history.length) ∧
      Disk.Later w.disk (performAll history (m, w)).2.2.disk ∧
      Under value' (acknowledged m.keys m.values m.isSpillable history.calls
        (performAll history (m, w)).1 bound) ∧
      (m.Movable → (m.isSpillable = true → ∀ call ∈ history.calls, call.Within m.keys m.values) →
        ((performAll history (m, w)).1, value') =
          plainAll m.keys m.values m.isSpillable history.calls value) := by
  induction history generalizing m w value n bound with
  | nil => exact ⟨value, ⟨rfl, rfl, rfl⟩, h, Disk.later_refl _, hbound, fun _ _ => rfl⟩
  | cons step history ih =>
    obtain ⟨order, call⟩ := step
    have hcalls : History.calls ((order, call) :: history) = call :: History.calls history := rfl
    unfold History.Writes at hallowed
    rw [hcalls] at hallowed ⊢
    rw [List.length_cons] at hroom
    rw [performAll_cons] at hio ⊢
    rw [plainAll_cons]
    dsimp only at hio ⊢
    obtain ⟨value₁, hkind, hholds, hlater, hunder, hexact⟩ := perform_spec order call h
      (fun entry hentry => hallowed entry ⟨call, List.mem_cons_self, hentry⟩) (by omega)
      fun err herr => hio err (herr ▸ List.mem_cons_self)
    generalize perform order call (m, w) = t at hio hkind hholds hlater hunder hexact ⊢
    obtain ⟨answer, m₁, w₁⟩ := t
    dsimp only at hio hkind hholds hlater hunder hexact ⊢
    have hbound₁ : Under value₁ (Call.after m.keys m.values m.isSpillable bound (call, answer)) :=
      fun key v hv => hbound.after call answer key v (hunder key v hv)
    have hallowed₁ : ∀ entry, History.Writes m₁.keys m₁.values history entry → allowed entry := by
      rw [hkind.keys, hkind.values]
      exact fun entry ⟨other, hother, hentry⟩ =>
        hallowed entry ⟨other, List.mem_cons_of_mem call hother, hentry⟩
    obtain ⟨value₂, hkind₂, hholds₂, hlater₂, hunder₂, hexact₂⟩ := ih hholds hallowed₁ hbound₁
      (by omega) fun err herr hint =>
        hio err (List.mem_cons_of_mem _ herr) (hint.mono hlater fun _ h => h)
    rw [hkind.keys, hkind.values, hkind.spillable] at hunder₂ hexact₂
    refine ⟨value₂, hkind.trans hkind₂, ?_, hlater.trans hlater₂, hunder₂, fun hm hwithin => ?_⟩
    · rw [List.length_cons, Nat.add_comm history.length 1, ← Nat.add_assoc]
      exact hholds₂
    · obtain ⟨hplain, hm₁⟩ := hexact hm fun hs => hwithin hs call List.mem_cons_self
      have hrest := hexact₂ hm₁ fun hs other hother =>
        hwithin hs other (List.mem_cons_of_mem call hother)
      rw [← hplain]
      dsimp only
      rw [← hrest]

theorem New.movable (h : New m w) : m.Movable := by
  cases h with
  | memoryOnly keys values => exact fun _ _ hmem => absurd hmem List.not_mem_nil
  | spillable he hready hmade =>
    obtain ⟨rfl, -⟩ := ends_spillable.of_ok hmade
    exact fun _ _ hmem => absurd hmem List.not_mem_nil

/-- A new map answers every history of calls as a plain map would, whatever its budget, its engine
and what is on the disk, and in whatever order each call moves entries: only the answer to an explicit
spill tells whether it has a spill stage. -/
theorem answers_eq_plain {history : History κ ν} (hnew : New m w)
    (hcalls : ∀ call ∈ history.calls, call.Within m.keys m.values)
    (hroom : 1 + 2 * history.length < UInt64.size)
    (hio : Uninterrupted w.disk (history.Writes m.keys m.values) (performAll history (m, w)).1) :
    (performAll history (m, w)).1 =
      (plainAll m.keys m.values m.isSpillable history.calls fun _ => none).1 := by
  obtain ⟨value, -, -, -, -, hexact⟩ := performAll_spec history (hnew.holds _) (fun _ h => h)
    (fun _ _ hv => hv) (by omega) hio
  rw [← hexact hnew.movable fun _ => hcalls]

/-- A map with room for the value of one key, over an engine that flushes every write and merges all
tables. -/
def restless : SpillMap Bytes Bytes where
  keys := .raw
  values := .raw
  spillStage := some { engine := 0, partition := "p", budget := 1 }

def aside : Workspace where
  engines := [⟨eager, 2⟩]

theorem restless_new : New restless aside := by
  have hmade : SpillMap.spillable 1 "p" 0 .raw .raw { engines := [⟨eager, 1⟩] } =
      .ok restless aside := rfl
  have he : Workspace.engine? { engines := [⟨eager, 1⟩] } 0 = some eager := rfl
  exact .spillable he eager_ready hmade

/-- Calls that all succeed are not interrupted. -/
theorem uninterrupted_of_isOk {d : Disk} {answers : List (Except Error (Answer ν))}
    (h : answers.all Except.isOk = true) : Uninterrupted d allowed answers := by
  intro err herr
  cases List.all_eq_true.1 h _ herr

/-- The second call moves two entries, from the last one to the first. -/
def rewriting : History Bytes Bytes :=
  [(.byKey, .put [1] [7]), (.backwards, .put [2] [8]), (.byKey, .put [1] [9]), (.byKey, .erase [2]),
    (.byKey, .put [3] [5]), (.byKey, .spill), (.byKey, .find [1]), (.byKey, .contains [2])]

theorem within_rewriting : ∀ call ∈ rewriting.calls, call.Within .raw .raw := by
  simp [rewriting, History.calls, Call.Within, Within, Codec.raw, Table.maxEntryBytes,
    Table.deletionMark]

theorem uninterrupted_rewriting (d : Disk) (allowed : Entry → Prop) :
    Uninterrupted d allowed (performAll rewriting (restless, aside)).1 :=
  uninterrupted_of_isOk (by decide +kernel)

theorem answers_eq_plain_restless :
    (performAll rewriting (restless, aside)).1 =
      [.ok .done, .ok .done, .ok .done, .ok .done, .ok .done, .ok .done, .ok (.value (some [9])),
        .ok (.known false)] :=
  answers_eq_plain restless_new within_rewriting (by decide) (uninterrupted_rewriting _ _)

/-- After a history of calls the spill stage has no key that is in memory. Iterating gives the entries
that a lookup would find, each once: those in memory and then, in the order of their keys, those of
the spill stage. Each was put by a call that succeeded and not overwritten or erased since; where
nothing is too long for a table entry they are all entries of the plain map. Only a fault of the disk can
keep a scan of the spill stage from starting. -/
theorem ends_contents_of_history {history : History κ ν}
    {answers : List (Except Error (Answer ν))} {m' : SpillMap κ ν} {w' : Workspace}
    (hnew : New m w) (hroom : 1 + 2 * history.length < UInt64.size)
    (hrun : performAll history (m, w) = (answers, m', w'))
    (hio : Uninterrupted w.disk (history.Writes m.keys m.values) answers) :
    (∀ stage, m'.live? = some stage →
      ∃ e p, w'.engine? stage.engine = some e ∧ e.partition? stage.partition = some p ∧
        ∀ key, m'.memory.entries.contains key = true → p.find w'.disk key = .ok none) ∧
    Ends contents (m', w')
      (fun c _ => ∃ spilled : KeyMap Bytes, c.memory = m'.memory.entries.map m'.decodeEntry ∧
        c.spilled = spilled.map m'.decodeEntry ∧ KeyMap.Sorted spilled ∧
        ((m'.memory.entries ++ spilled).map Prod.fst).Nodup ∧
        (∀ key v, (key, v) ∈ m'.memory.entries ++ spilled ↔
          valueBytes key (m', w') = .ok (some v) (m', w')) ∧
        (∀ key v, (key, v) ∈ m'.memory.entries ++ spilled →
          acknowledged m.keys m.values m.isSpillable history.calls answers (fun _ => none) key =
            some v) ∧
        ((m.isSpillable = true → ∀ call ∈ history.calls, call.Within m.keys m.values) →
          ∀ key v, (key, v) ∈ m'.memory.entries ++ spilled ↔
            (plainAll m.keys m.values m.isSpillable history.calls fun _ => none).2 key = some v))
      fun err _ => ∃ name cause, err = .engine (.scan name) cause ∧ Faulted w.disk cause := by
  have hspec := performAll_spec history (hnew.holds _) (fun _ h => h) (fun _ _ hv => hv)
    (by omega) (by rwa [hrun])
  rw [hrun] at hspec
  obtain ⟨value, -, hholds, hlater, hunder, hexact⟩ := hspec
  dsimp only at hholds hlater hunder hexact
  refine ⟨fun stage => hholds.find_eq_none, (ends_contents hholds).mono ?_
    fun _ _ ⟨name, cause, herr, hfault⟩ => ⟨name, cause, herr, hfault.mono hlater⟩⟩
  rintro c _ ⟨spilled, hmemory, hspilled, hsorted, hapart, hvalues⟩
  have hmem : ∀ key v, (key, v) ∈ m'.memory.entries ++ spilled ↔ value key = some v := by
    intro key v
    rw [hvalues key]
    exact hholds.sorted.mem_append hsorted hapart
  refine ⟨spilled, hmemory, hspilled, hsorted, hholds.sorted.nodup_append hsorted hapart,
    fun key v => ?_, fun key v hentry => hunder key v ((hmem key v).1 hentry),
    fun hwithin key v => ?_⟩
  · rw [hmem, hholds.valueBytes_iff]
  · rw [hmem, ← hexact hnew.movable hwithin]

theorem ends_contents_of_history_restless :
    ∃ answers m w c t, performAll rewriting (restless, aside) = (answers, m, w) ∧
      contents (m, w) = .ok c t ∧
      ∃ spilled : KeyMap Bytes, c.memory = m.memory.entries.map m.decodeEntry ∧
        c.spilled = spilled.map m.decodeEntry ∧ ([1], [9]) ∈ m.memory.entries ++ spilled ∧
        ([3], [5]) ∈ m.memory.entries ++ spilled ∧ ∀ v, ([2], v) ∉ m.memory.entries ++ spilled := by
  have hio := uninterrupted_rewriting aside.disk (rewriting.Writes restless.keys restless.values)
  rcases hrun : performAll rewriting (restless, aside) with ⟨answers, m, w⟩
  rw [hrun] at hio
  obtain ⟨-, hcontents⟩ := ends_contents_of_history restless_new (by decide) hrun hio
  obtain ⟨c, t, hiterated, spilled, hmemory, hspilled, -, -, -, -, hplain⟩ :=
    hcontents.exists_ok fun _ _ ⟨_, _, _, hfault⟩ => not_faulted rfl hfault
  have hentries := hplain fun _ => within_rewriting
  refine ⟨answers, m, w, c, t, rfl, hiterated, spilled, hmemory, hspilled, (hentries [1] [9]).2 rfl,
    (hentries [3] [5]).2 rfl, fun v hv => ?_⟩
  cases (hentries [2] v).1 hv

end Spillway.SpillMap
