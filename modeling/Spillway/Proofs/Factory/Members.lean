import Spillway.Proofs.Factory.Making

/-!
# The maps and sets of one factory

A session makes maps and sets with one factory, calls them in any order and discards them. Apart from
each other, each of them has a workspace, a factory and so an engine to itself. A member of a session and
the one that is apart reply alike as long as they differ only in where they spill to (`Member.Alike`).
-/

namespace Spillway.Factory

open Engine

variable {reliable : Prop} {ν : Type}

/-! ## Maps and sets -/

/-- A map or a set that a factory made. -/
inductive Member (ν : Type) where
  | map (m : SpillMap Row ν)
  | set (s : SpillSet Row)

/-- What a factory is asked to make. -/
inductive Request (ν : Type) where
  | map (schema : Schema) (values : Codec ν)
  | set (schema : Schema)

/-- What a map or a set is asked for. -/
inductive Call (ν : Type) where
  | map (call : SpillMap.Call Row ν)
  | add (key : Row)
  | has (key : Row)
  | remove (key : Row)
  | contents
  | close

inductive Reply (ν : Type) where
  | answer (a : SpillMap.Answer ν)
  | entries (contents : Contents (Row × ν))
  | members (contents : Contents Row)
  /-- Nobody is there to answer the call. -/
  | nobody

def Request.make (token : String) : Request ν → FactoryM (Member ν)
  | map schema values => return .map (← newMap token schema values)
  | set schema => return .set (← newSet token schema)

/-- How an action ended, as the reply of a map or a set and what became of it. -/
def conclude {σ α : Type} (wrap : σ → Member ν) (reply : α → Reply ν) :
    EStateM.Result Error (σ × Workspace) α → Except Error (Reply ν) × Member ν × Workspace
  | .ok a (s, w) => (.ok (reply a), wrap s, w)
  | .error e (s, w) => (.error e, wrap s, w)

namespace Member

/-- The reply to a call, and what becomes of the member and the workspace. -/
def perform (w : Workspace) : Call ν → Member ν → Except Error (Reply ν) × Member ν × Workspace
  | .map call, .map m => conclude .map .answer (call.run (m, w))
  | .contents, .map m => conclude .map .entries (SpillMap.contents (m, w))
  | .close, .map m => conclude .map (fun _ => .answer .done) (SpillMap.close (m, w))
  | .add key, .set s => conclude .set (fun _ => .answer .done) (SpillSet.add key (s, w))
  | .has key, .set s => conclude .set (fun b => .answer (.known b)) (SpillSet.contains key (s, w))
  | .remove key, .set s => conclude .set (fun _ => .answer .done) (SpillSet.remove key (s, w))
  | .contents, .set s => conclude .set .members (SpillSet.contents (s, w))
  | .close, .set s => conclude .set (fun _ => .answer .done) (SpillSet.close (s, w))
  | _, member => (.ok .nobody, member, w)

def discard : Member ν → WorkspaceM Unit
  | map m => m.discard
  | set s => s.discard

end Member

/-! ## Together and apart -/

/-- What happens in a session. Maps and sets are numbered in the order in which they are asked for. -/
inductive Command (ν : Type) where
  | make (token : String) (request : Request ν)
  | call (i : Nat) (call : Call ν)
  | discard (i : Nat)

/-- Maps and sets of one factory in one workspace; there is none where one was refused or was
discarded. -/
structure Session (ν : Type) where
  factory : Factory
  workspace : Workspace
  members : List (Option (Member ν)) := []

/-- Maps and sets that have a workspace each. -/
abbrev Apart (ν : Type) := List (Option (Member ν × Workspace))

def Session.step (command : Command ν) (s : Session ν) : Except Error (Reply ν) × Session ν :=
  match command with
  | .make token request =>
    match request.make token (s.factory, s.workspace) with
    | .ok member (factory, workspace) =>
      (.ok (.answer .done), { factory, workspace, members := s.members ++ [some member] })
    | .error e (factory, workspace) =>
      (.error e, { factory, workspace, members := s.members ++ [none] })
  | .call i call =>
    match s.members[i]?.join with
    | none => (.ok .nobody, s)
    | some member =>
      let (reply, member, workspace) := member.perform s.workspace call
      (reply, { s with workspace, members := s.members.set i (some member) })
  | .discard i =>
    match s.members[i]?.join with
    | none => (.ok .nobody, s)
    | some member =>
      match member.discard s.workspace with
      | .ok _ workspace =>
        (.ok (.answer .done), { s with workspace, members := s.members.set i none })
      | .error e workspace => (.error e, { s with workspace, members := s.members.set i none })

/-- The same when each map or set is made by a factory of its own, under the same number, in a workspace
of its own. -/
def Apart.step (config : Config) (place : Nat → Workspace) (command : Command ν) (own : Apart ν) :
    Except Error (Reply ν) × Apart ν :=
  match command with
  | .make token request =>
    match request.make token ({ config, nextInstance := own.length }, place own.length) with
    | .ok member (_, workspace) => (.ok (.answer .done), own ++ [some (member, workspace)])
    | .error e _ => (.error e, own ++ [none])
  | .call i call =>
    match own[i]?.join with
    | none => (.ok .nobody, own)
    | some (member, workspace) =>
      let (reply, member, workspace) := member.perform workspace call
      (reply, own.set i (some (member, workspace)))
  | .discard i =>
    match own[i]?.join with
    | none => (.ok .nobody, own)
    | some (member, workspace) =>
      match member.discard workspace with
      | .ok _ _ => (.ok (.answer .done), own.set i none)
      | .error e _ => (.error e, own.set i none)

/-- The replies to commands one after the other. -/
def replies {σ : Type} (step : Command ν → σ → Except Error (Reply ν) × σ) :
    List (Command ν) → σ → List (Except Error (Reply ν))
  | [], _ => []
  | command :: rest, s => (step command s).1 :: replies step rest (step command s).2

/-! ## Making -/

variable {f : Factory} {w : Workspace} {token identifier : String} {budget : Nat} {r : Registry}
  {uses owners : Nat}

/-- What is made of a request. -/
def Request.member (budget : Nat) (a : Address) : Request ν → Member ν
  | map schema values => .map ((SpillMap.blank (.ofSchema schema) values budget).lodged a)
  | set schema => .set ⟨(SpillMap.blank (.ofSchema schema) SpillSet.marks budget).lodged a⟩

/-- A factory makes what it is asked for over its engine, unless the name it has for that is bad. -/
theorem Provided.ends_request (hbudget : f.config.maxInMemoryBytes = some budget)
    (hidentifier : f.config.mapIdentifier = some identifier) (request : Request ν)
    (h : f.Provided reliable w token r uses owners) :
    Ends (request.make token) (f, w)
      (f.next.Granted reliable (partitionName identifier f.nextInstance) r uses owners
        (request.member budget))
      (f.next.Denied reliable (partitionName identifier f.nextInstance) r uses owners) := by
  cases request with
  | map schema values =>
    have hmap : Ends (newMap token schema values) (f, w)
        (f.next.Granted reliable (partitionName identifier f.nextInstance) r uses owners
          (SpillMap.blank (.ofSchema schema) values budget).lodged)
        (f.next.Denied reliable (partitionName identifier f.nextInstance) r uses owners) := by
      refine Ends.bind (ends_nextTarget hbudget hidentifier) ?_
      rintro _ _ ⟨rfl, rfl⟩
      exact h.next.ends_make fun id w hhosts => SpillMap.ends_spillable_hosted hhosts
    exact ends_wrap hmap Member.map
  | set schema =>
    have hset : Ends (newSet token schema) (f, w)
        (f.next.Granted reliable (partitionName identifier f.nextInstance) r uses owners
          fun a => ⟨(SpillMap.blank (.ofSchema schema) SpillSet.marks budget).lodged a⟩)
        (f.next.Denied reliable (partitionName identifier f.nextInstance) r uses owners) := by
      refine Ends.bind (ends_nextTarget hbudget hidentifier) ?_
      rintro _ _ ⟨rfl, rfl⟩
      refine h.next.ends_make fun id w hhosts => ?_
      refine Ends.bind (SpillMap.ends_spillable_hosted hhosts) ?_
      rintro _ w' ⟨hnamed, rfl, hhosts'⟩
      exact Ends.pure ⟨hnamed, rfl, hhosts'⟩
    exact ends_wrap hset Member.set

/-! ## Members that are alike -/

namespace Member

variable {l l' : Lodging} {m : SpillMap Row ν} {member : Member ν} {own : Member ν × Workspace}
  {value? : Option (Bytes → Option Bytes)} {more : Nat} {a : Address}

/-- What is held in memory. -/
def memory : Member ν → KeyMap Bytes
  | map m => m.memory.entries
  | set s => s.map.memory.entries

/-- Two members that differ only in where they spill to. The second one has a workspace to itself, in
which it finds in its partition what the first has in its own. -/
inductive Alike (reliable : Prop) (a : Address) (value? : Option (Bytes → Option Bytes)) (more : Nat) :
    Member ν → Member ν × Workspace → Prop
  | map {m : SpillMap Row ν} {l : Lodging} {w : Workspace}
      (named : isPartitionName a.partition = true) (hm : m.Spills value?)
      (has : l.Has reliable w (m.memory.entries.length + more) value?) (many : 1 < l.owners) :
      Alike reliable a value? more (map (m.lodged a)) (map (m.lodged l.toAddress), w)
  | set {m : SpillMap Row UInt8} {l : Lodging} {w : Workspace}
      (named : isPartitionName a.partition = true) (hm : m.Spills value?)
      (has : l.Has reliable w (m.memory.entries.length + more) value?) (many : 1 < l.owners) :
      Alike reliable a value? more (set ⟨m.lodged a⟩) (set ⟨m.lodged l.toAddress⟩, w)

theorem Alike.weaken (h : Alike reliable a value? (more + 1) member own) :
    Alike reliable a value? more member own := by
  cases h with
  | map named hm has many => exact .map named hm (has.weaken (by omega)) many
  | set named hm has many => exact .set named hm (has.weaken (by omega)) many

theorem Alike.named (h : Alike reliable a value? more member own) :
    isPartitionName a.partition = true := by
  cases h <;> assumption

/-- Two calls have the same reply and leave members that are alike, unless storage fails. -/
def Agreed (reliable : Prop) (l : Lodging) (more : Nat)
    (here apart : Except Error (Reply ν) × Member ν × Workspace) : Prop :=
  (∃ e, here.1 = .error e ∧ e.Excused reliable) ∨ (∃ e, apart.1 = .error e ∧ e.Excused reliable) ∨
    apart.1 = here.1 ∧ ∃ value?, Alike reliable l.toAddress value? more here.2.1 apart.2 ∧
      l.Has reliable here.2.2 (here.2.1.memory.length + more) value?

/-- An action that can not tell twins apart. -/
theorem agreed_conclude {ω α : Type} {act : MapM Row ω α} {m : SpillMap Row ω}
    {wrap : SpillMap Row ω → Member ν} {w w' : Workspace} (hact : SpillMap.Blind act)
    (hwrap : ∀ (m : SpillMap Row ω) value? w', m.Spills value? →
      l'.Has reliable w' (m.memory.entries.length + more) value? →
        Alike reliable l.toAddress value? more (wrap (m.lodged l.toAddress))
          (wrap (m.lodged l'.toAddress), w'))
    (hmemory : ∀ m, (wrap m).memory = m.memory.entries) (reply : α → Reply ν) (hm : m.Spills value?)
    (h : l.Has reliable w (m.memory.entries.length + (more + 1)) value?)
    (h' : l'.Has reliable w' (m.memory.entries.length + (more + 1)) value?) :
    Agreed reliable l more (conclude wrap reply (act (m.lodged l.toAddress, w)))
      (conclude wrap reply (act (m.lodged l'.toAddress, w'))) := by
  have htwins : ∀ s t, SpillMap.Twins reliable l l' more s t → ∃ value?,
      Alike reliable l.toAddress value? more (wrap s.1) (wrap t.1, t.2) ∧
        l.Has reliable s.2 ((wrap s.1).memory.length + more) value? := by
    rintro ⟨_, w₁⟩ ⟨_, w₁'⟩ ⟨m₁, value?, rfl, rfl, hm₁, hhas, hhas'⟩
    refine ⟨value?, hwrap m₁ value? w₁' hm₁ hhas', ?_⟩
    rw [hmemory]
    exact hhas
  have hagrees := hact reliable l l' more _ _ (SpillMap.twins_lodged hm h h')
  rcases hagrees.cases with ⟨e, s, hrun, he⟩ | ⟨e, t, hrun', he⟩ | ⟨x, s, y, t, hrun, hrun', rfl, ht⟩ |
    ⟨e, s, t, hrun, hrun', ht⟩
  · rw [hrun]
    exact .inl ⟨e, rfl, he⟩
  · rw [hrun']
    exact .inr (.inl ⟨e, rfl, he⟩)
  · rw [hrun, hrun']
    exact .inr (.inr ⟨rfl, htwins s t ht⟩)
  · rw [hrun, hrun']
    exact .inr (.inr ⟨rfl, htwins s t ht⟩)

theorem conclude_onMap {α : Type} (act : MapM Row UInt8 α) (reply : α → Reply ν)
    (m : SpillMap Row UInt8) (w : Workspace) :
    conclude .set reply (SpillSet.onMap act (⟨m⟩, w)) =
      conclude (fun m => .set ⟨m⟩) reply (act (m, w)) := by
  unfold SpillSet.onMap zoom
  dsimp only
  cases act (m, w) <;> rfl

theorem conclude_contents (m : SpillMap Row UInt8) (w : Workspace) :
    conclude (ν := ν) .set .members (SpillSet.contents (⟨m⟩, w)) =
      conclude (fun m => .set ⟨m⟩)
        (fun c => .members
          { memory := c.memory.map (·.map Prod.fst), spilled := c.spilled.map (·.map Prod.fst) })
        (SpillMap.contents (m, w)) := by
  have hrun : SpillSet.contents (⟨m⟩, w) = (SpillSet.onMap SpillMap.contents >>= fun c =>
      pure { memory := c.memory.map (·.map Prod.fst), spilled := c.spilled.map (·.map Prod.fst) })
        (⟨m⟩, w) := rfl
  rw [← conclude_onMap, hrun]
  cases hact : SpillSet.onMap SpillMap.contents (⟨m⟩, w) with
  | ok c t =>
    rw [bind_of_ok hact]
    rfl
  | error e t =>
    rw [bind_of_error hact]
    rfl

/-- Members that are alike reply alike to every call. -/
theorem Alike.perform {w : Workspace} (h : Alike reliable l.toAddress value? (more + 1) member own)
    (hhas : l.Has reliable w (member.memory.length + (more + 1)) value?) (call : Call ν) :
    Agreed reliable l more (member.perform w call) (own.1.perform own.2 call) := by
  have hnobody : Agreed reliable l more (.ok .nobody, member, w) (.ok .nobody, own.1, own.2) := by
    refine .inr (.inr ⟨rfl, value?, h.weaken, hhas.weaken ?_⟩)
    show member.memory.length + more ≤ member.memory.length + (more + 1)
    omega
  have hnamed := h.named
  cases h with
  | @map m l' w' _ hm has many =>
    have hmap {α : Type} {act : MapM Row ν α} (hact : SpillMap.Blind act) (reply : α → Reply ν) :
        Agreed reliable l more (conclude Member.map reply (act (m.lodged l.toAddress, w)))
          (conclude Member.map reply (act (m.lodged l'.toAddress, w'))) :=
      agreed_conclude hact (fun _ _ _ hm has => .map hnamed hm has many) (fun _ => rfl) reply hm
        hhas has
    cases call with
    | map call => exact hmap (SpillMap.blind_call call) .answer
    | contents => exact hmap SpillMap.blind_contents .entries
    | close => exact hmap SpillMap.blind_close fun _ => .answer .done
    | add key => exact hnobody
    | has key => exact hnobody
    | remove key => exact hnobody
  | @set m l' w' _ hm has many =>
    have hset {α : Type} {act : MapM Row UInt8 α} (hact : SpillMap.Blind act) (reply : α → Reply ν) :
        Agreed reliable l more
          (conclude (fun m => Member.set ⟨m⟩) reply (act (m.lodged l.toAddress, w)))
          (conclude (fun m => Member.set ⟨m⟩) reply (act (m.lodged l'.toAddress, w'))) :=
      agreed_conclude hact (fun _ _ _ hm has => .set hnamed hm has many) (fun _ => rfl) reply hm
        hhas has
    have honMap {α : Type} {act : MapM Row UInt8 α} (hact : SpillMap.Blind act)
        (reply : α → Reply ν) :
        Agreed reliable l more
          (conclude Member.set reply (SpillSet.onMap act (⟨m.lodged l.toAddress⟩, w)))
          (conclude Member.set reply (SpillSet.onMap act (⟨m.lodged l'.toAddress⟩, w'))) := by
      rw [conclude_onMap, conclude_onMap]
      exact hset hact reply
    cases call with
    | map call => exact hnobody
    | contents =>
      show Agreed reliable l more (conclude Member.set _ (SpillSet.contents _))
        (conclude Member.set _ (SpillSet.contents _))
      rw [conclude_contents, conclude_contents]
      exact hset SpillMap.blind_contents _
    | close => exact honMap SpillMap.blind_close fun _ => .answer .done
    | add key => exact honMap (SpillMap.blind_put key SpillSet.mark) fun _ => .answer .done
    | has key => exact honMap (SpillMap.blind_contains key) fun b => .answer (.known b)
    | remove key => exact honMap (SpillMap.blind_erase key) fun _ => .answer .done

/-- Discarding a member touches its own partition only. -/
theorem Alike.ends_discard {w : Workspace}
    (h : Alike reliable l.toAddress value? more member own)
    (hhas : l.Has reliable w (member.memory.length + more) value?) (hmany : 1 < l.owners) :
    Ends member.discard w
      (fun _ w' => ∃ value'? uses,
        w'.Hosts reliable l.engine (l.registry value'?) uses (l.owners - 1) ∧
          uses + (member.memory.length + more) ≤ l.limit) fun _ _ => False := by
  cases h with
  | map named hm has many => exact SpillMap.ends_discard hm hhas hmany
  | set named hm has many => exact SpillMap.ends_discard hm hhas hmany

theorem Alike.ends_discard_own (h : Alike reliable l.toAddress value? more member own) :
    Ends own.1.discard own.2 (fun _ _ => True) fun _ _ => False := by
  cases h with
  | map named hm has many => exact (SpillMap.ends_discard hm has many).imp fun _ _ _ => trivial
  | set named hm has many => exact (SpillMap.ends_discard hm has many).imp fun _ _ _ => trivial

end Member

end Spillway.Factory
