import Spillway.Proofs.Factory.Members

/-!
# Maps and sets that share an engine

The members of a session get the same replies as when each has an engine to itself
(`replies_eq_apart`): the session and the members that are apart go in lockstep.
-/

namespace Spillway.Factory

open Engine

variable {ν : Type}

/-! ## Beginnings -/

/-- How the session begins: with a factory that opens an engine when it needs one, or with one that is
given an engine which was just opened. -/
inductive Begins (config : Config) : Factory → Workspace → List String → Prop
  | lazily {w : Workspace} {tokens : List String} (hfit : ∀ token ∈ tokens, Fit config w token) :
      Begins config (ofConfig config) w tokens
  | supplied {w₀ w₁ w : Workspace} {root : Path} {settings : Config} {disposable : Bool}
      {id : EngineId} {f : Factory} {tokens : List String} (hs : w₀.disk.Sound)
      (honest : some .notFound ∉ w₀.disk.faults) (hroot : Disk.Downward root)
      (hopen : Workspace.addEngine (Engine.start root settings disposable) w₀ = .ok id w₁)
      (hfactory : withEngine id config w₁ = .ok f w) : Begins config f w tokens

/-! ## All members of a session -/

section Lists

variable {α : Type} {xs : List (Option α)} {x : Option α} {i : Nat}

theorem join_getElem?_set (h : i < xs.length) (x : Option α) (j : Nat) :
    (xs.set i x)[j]?.join = if j = i then x else xs[j]?.join := by
  by_cases hj : j = i
  · rw [if_pos hj, hj, List.getElem?_set_self h]
    rfl
  · rw [if_neg hj, List.getElem?_set_ne (Ne.symm hj)]

theorem join_getElem?_concat (xs : List (Option α)) (x : Option α) (j : Nat) :
    (xs ++ [x])[j]?.join = if j = xs.length then x else xs[j]?.join := by
  by_cases hj : j = xs.length
  · rw [if_pos hj, hj, List.getElem?_concat_length]
    rfl
  · rw [if_neg hj, List.getElem?_append]
    split
    · rfl
    · next hle =>
      have hnone : [x][j - xs.length]? = none := by
        rw [List.getElem?_eq_none_iff, List.length_singleton]
        omega
      rw [hnone, List.getElem?_eq_none (Nat.not_lt.1 hle)]

theorem lt_length_of_join {y : α} (h : xs[i]?.join = some y) : i < xs.length := by
  by_contra hn
  rw [List.getElem?_eq_none (Nat.not_lt.1 hn)] at h
  cases h

theorem sum_map_set {β : Type} (f : β → Nat) {ys : List β} {i : Nat} (h : i < ys.length) (y : β) :
    ((ys.set i y).map f).sum + f ys[i] = (ys.map f).sum + f y := by
  induction ys generalizing i with
  | nil => simp at h
  | cons z ys ih =>
    cases i with
    | zero =>
      simp only [List.set_cons_zero, List.map_cons, List.sum_cons, List.getElem_cons_zero]
      omega
    | succ j =>
      have hj : j < ys.length := Nat.lt_of_succ_lt_succ h
      have hsum := ih hj
      simp only [List.set_cons_succ, List.map_cons, List.sum_cons, List.getElem_cons_succ]
      omega

end Lists

/-- How many entries a member holds in memory. -/
def held : Option (Member ν) → Nat
  | some member => member.memory.length
  | none => 0

/-- Each member is an owner of the engine. -/
def present : Option (Member ν) → Nat
  | some _ => 1
  | none => 0

/-- What is the same throughout a session: how its factory is configured, the tokens for engines, a
workspace to open one in, the workspaces that members have when they are apart, and a bound on the
number of commands. When disks are said to be reliable they are. -/
structure Setting where
  config : Config
  identifier : String
  budget : Nat
  tokens : List String
  start : Workspace
  place : Nat → Workspace
  total : Nat
  reliable : Prop
  identified : config.mapIdentifier = some identifier
  budgeted : config.maxInMemoryBytes = some budget
  fit_start : ∀ token ∈ tokens, Fit config start token
  fit_place : ∀ n, ∀ token ∈ tokens, Fit config (place n) token
  room : 1 + 2 * total < UInt64.size
  reliable_start : reliable → start.disk.Reliable
  reliable_place : reliable → ∀ n, (place n).disk.Reliable

variable {c : Setting} {f : Factory} {w w' : Workspace} {token : String} {id : EngineId} {r : Registry}
  {uses uses' owners owners' i more rest : Nat} {members : List (Option (Member ν))} {own : Apart ν}
  {value? : Option (Bytes → Option Bytes)} {member? : Option (Member ν)}
  {own? : Option (Member ν × Workspace)} {s : Session ν}

/-- The partition of the member with a number. -/
abbrev Setting.address (c : Setting) (id : EngineId) (i : Nat) : Address :=
  ⟨id, partitionName c.identifier i⟩

/-- A member of a session and the one apart are alike, or there is neither. -/
abbrev Setting.Pair (c : Setting) (a : Address) (value? : Option (Bytes → Option Bytes)) (more : Nat) :
    Option (Member ν) → Option (Member ν × Workspace) → Prop :=
  Option.Rel (Member.Alike c.reliable a value? more)

theorem pair_weaken {a : Address} (h : c.Pair a value? (more + 1) member? own?) :
    c.Pair a value? more member? own? := by
  cases h with
  | some h => exact .some h.weaken
  | none => exact .none

/-- The members of a session and those that are apart are alike. -/
def Paired (c : Setting) (id : EngineId) (r : Registry) (more : Nat)
    (members : List (Option (Member ν))) (own : Apart ν) : Prop :=
  ∀ i, c.Pair (c.address id i) (r (partitionName c.identifier i)) more members[i]?.join own[i]?.join

/-- One member changes, together with its own partition. -/
theorem Paired.set (h : Paired c id r (more + 1) members own) (hi : i < members.length)
    (hi' : i < own.length) (hnew : c.Pair (c.address id i) value? more member? own?) :
    Paired c id (Function.update r (partitionName c.identifier i) value?) more
      (members.set i member?) (own.set i own?) := by
  intro j
  rw [join_getElem?_set hi, join_getElem?_set hi']
  by_cases hj : j = i
  · rw [if_pos hj, if_pos hj, hj, Function.update_self]
    exact hnew
  · rw [if_neg hj, if_neg hj, Function.update_of_ne fun heq => hj (partitionName_inj heq)]
    exact pair_weaken (h j)

theorem Paired.concat (h : Paired c id r (more + 1) members own)
    (hlength : own.length = members.length)
    (hnew : c.Pair (c.address id members.length) (r (partitionName c.identifier members.length)) more
      member? own?) :
    Paired c id r more (members ++ [member?]) (own ++ [own?]) := by
  intro j
  rw [join_getElem?_concat, join_getElem?_concat, hlength]
  by_cases hj : j = members.length
  · rw [if_pos hj, if_pos hj, hj]
    exact hnew
  · rw [if_neg hj, if_neg hj]
    exact pair_weaken (h j)

/-- The engine of a session has an owner besides the members, room for what they hold in memory and for
the rest of the session, and no partition with a name that was not given yet. -/
structure Linked (c : Setting) (rest : Nat) (id : EngineId) (r : Registry) (uses owners : Nat)
    (members : List (Option (Member ν))) (w : Workspace) (own : Apart ν) : Prop where
  hosts : w.Hosts c.reliable id r uses owners
  owned : (members.map present).sum < owners
  room : uses + (members.map held).sum + rest ≤ c.total
  unused : ∀ n, members.length ≤ n → r (partitionName c.identifier n) = none
  paired : Paired c id r rest members own

/-- Both ways to have the members are at the same point, with at most so many commands to come. -/
structure Lockstep (c : Setting) (rest : Nat) (s : Session ν) (own : Apart ν) : Prop where
  config : s.factory.config = c.config
  count : s.factory.nextInstance = s.members.length
  length : own.length = s.members.length
  room : rest ≤ c.total
  engine : (s.factory.engine = none ∧ s.workspace = c.start ∧ s.members = []) ∨
    ∃ id r uses owners, s.factory.engine = some id ∧
      Linked c rest id r uses owners s.members s.workspace own

/-- The partition of a member as its lodging. -/
theorem Linked.exists_lodging {member : Member ν} {own' : Member ν × Workspace}
    (h : Linked c (rest + 1) id r uses owners members w own)
    (hmember : members[i]?.join = some member) (hown : own[i]?.join = some own') :
    ∃ l : Lodging, l.toAddress = c.address id i ∧ l.others = r ∧ l.owners = owners ∧ 1 < owners ∧
      (members.map held).sum + l.limit = c.total + member.memory.length ∧
      Member.Alike c.reliable l.toAddress (r (partitionName c.identifier i)) (rest + 1) member own' ∧
      l.Has c.reliable w (member.memory.length + (rest + 1)) (r (partitionName c.identifier i)) := by
  have hi := lt_length_of_join hmember
  have hget : members[i] = some member := by
    rw [List.getElem?_eq_getElem hi] at hmember
    exact hmember
  have hheld := sum_map_set held hi none
  have hpresent := sum_map_set present hi none
  rw [hget] at hheld hpresent
  simp only [held, present] at hheld hpresent
  have hpair := h.paired i
  rw [hmember, hown] at hpair
  cases hpair with
  | some halike =>
    have hroom := h.room
    have howned := h.owned
    have htotal := c.room
    let l : Lodging :=
      { engine := id
        partition := partitionName c.identifier i
        others := r
        owners := owners
        limit := c.total + member.memory.length - (members.map held).sum
        named := halike.named
        room := by omega }
    refine ⟨l, rfl, rfl, rfl, by omega, ?_, halike, uses, ?_, ?_⟩
    · show (members.map held).sum + (c.total + member.memory.length - (members.map held).sum) = _
      omega
    · show w.Hosts c.reliable id (Function.update r _ _) uses owners
      rw [Function.update_eq_self]
      exact h.hosts
    · show uses + (member.memory.length + (rest + 1)) ≤
        c.total + member.memory.length - (members.map held).sum
      omega

/-- What happens to one member leaves the others alone. -/
theorem Linked.set (h : Linked c (rest + 1) id r uses owners members w own) (hi : i < members.length)
    (hlength : own.length = members.length)
    (hhosts : w'.Hosts c.reliable id (Function.update r (partitionName c.identifier i) value?) uses'
      owners')
    (howned : ((members.set i member?).map present).sum < owners')
    (hroom : uses' + ((members.set i member?).map held).sum + rest ≤ c.total)
    (hnew : c.Pair (c.address id i) value? rest member? own?) :
    Linked c rest id (Function.update r (partitionName c.identifier i) value?) uses' owners'
      (members.set i member?) w' (own.set i own?) where
  hosts := hhosts
  owned := howned
  room := hroom
  unused n hn := by
    rw [List.length_set] at hn
    rw [Function.update_of_ne fun heq => absurd (partitionName_inj heq) (by omega)]
    exact h.unused n hn
  paired := h.paired.set hi (hlength ▸ hi) hnew

/-! ## Steps -/

/-- The reply says that storage failed, with an excuse. -/
def Failed (reliable : Prop) (reply : Except Error (Reply ν)) : Prop :=
  ∃ e, reply = .error e ∧ e.Excused reliable

/-- Two replies are the same, and so is all that can follow, unless storage failed. -/
def Same (c : Setting) (rest : Nat) (here : Except Error (Reply ν) × Session ν)
    (apart : Except Error (Reply ν) × Apart ν) : Prop :=
  Failed c.reliable here.1 ∨ Failed c.reliable apart.1 ∨
    apart.1 = here.1 ∧ Lockstep c rest here.2 apart.2

theorem Lockstep.nobody (h : Lockstep c (rest + 1) s own) : Lockstep c rest s own where
  config := h.config
  count := h.count
  length := h.length
  room := Nat.le_of_succ_le h.room
  engine := by
    refine h.engine.imp_right ?_
    rintro ⟨id, r, uses, owners, hid, hlinked⟩
    have hroom := hlinked.room
    exact ⟨id, r, uses, owners, hid, hlinked.hosts, hlinked.owned, by omega, hlinked.unused,
      fun i => pair_weaken (hlinked.paired i)⟩

/-- A number has a member in the session when it has one that is apart. -/
theorem Lockstep.join_cases (h : Lockstep c rest s own) (i : Nat) :
    (s.members[i]?.join = none ∧ own[i]?.join = none) ∨
      ∃ member own' id r uses owners, s.members[i]?.join = some member ∧ own[i]?.join = some own' ∧
        s.factory.engine = some id ∧ Linked c rest id r uses owners s.members s.workspace own := by
  rcases h.engine with ⟨-, -, hnil⟩ | ⟨id, r, uses, owners, hid, hlinked⟩
  · have hlength := h.length
    rw [hnil, List.length_nil, List.length_eq_zero_iff] at hlength
    rw [hnil, hlength]
    exact .inl ⟨rfl, rfl⟩
  · have hpair := hlinked.paired i
    generalize hm : s.members[i]?.join = member? at hpair
    generalize ho : own[i]?.join = own? at hpair
    cases hpair with
    | some _ => exact .inr ⟨_, _, id, r, uses, owners, rfl, rfl, hid, hlinked⟩
    | none => exact .inl ⟨rfl, rfl⟩

/-- One member changes, or is gone, and both go on. -/
theorem Lockstep.set {member : Member ν} (h : Lockstep c (rest + 1) s own)
    (hid : s.factory.engine = some id)
    (hlinked : Linked c (rest + 1) id r uses owners s.members s.workspace own)
    (hm : s.members[i]?.join = some member)
    (hhosts : w'.Hosts c.reliable id (Function.update r (partitionName c.identifier i) value?) uses'
      owners')
    (howners : owners + present member? ≤ owners' + 1)
    (huses : uses' + (s.members.map held).sum + held member? + rest ≤
      c.total + member.memory.length)
    (hnew : c.Pair (c.address id i) value? rest member? own?) :
    Lockstep c rest { s with workspace := w', members := s.members.set i member? }
      (own.set i own?) := by
  have hi := lt_length_of_join hm
  have hget : s.members[i] = some member := by
    rw [List.getElem?_eq_getElem hi] at hm
    exact hm
  have hpresent := sum_map_set present hi member?
  have hheld := sum_map_set held hi member?
  rw [hget] at hpresent hheld
  have howned := hlinked.owned
  have hone : present (some member) = 1 := rfl
  have hmemory : held (some member) = member.memory.length := rfl
  refine ⟨h.config, ?_, ?_, Nat.le_of_succ_le h.room, .inr ⟨id, _, uses', owners', hid,
    hlinked.set hi h.length hhosts (by omega) (by omega) hnew⟩⟩
  · rw [List.length_set]
    exact h.count
  · rw [List.length_set, List.length_set]
    exact h.length

theorem Lockstep.step_call (h : Lockstep c (rest + 1) s own) (i : Nat) (call : Call ν) :
    Same c rest (s.step (.call i call)) (Apart.step c.config c.place (.call i call) own) := by
  unfold Session.step Apart.step
  dsimp only
  rcases h.join_cases i with ⟨hm, ho⟩ |
    ⟨member, ⟨member', w'⟩, id, r, uses, owners, hm, ho, hid, hlinked⟩
  · rw [hm, ho]
    exact .inr (.inr ⟨rfl, h.nobody⟩)
  rw [hm, ho]
  obtain ⟨⟨⟨_, _⟩, _, _, limit, _, _⟩, haddress, rfl, rfl, -, hlimit, halike, hhas⟩ :=
    hlinked.exists_lodging hm ho
  cases haddress
  -- all that the call can touch is the lodging of this member
  have hagreed := halike.perform hhas call
  dsimp only at hagreed ⊢
  generalize member.perform s.workspace call = here at hagreed ⊢
  generalize member'.perform w' call = apart at hagreed ⊢
  obtain ⟨reply, member₁, w₁⟩ := here
  obtain ⟨reply', member₁', w₁'⟩ := apart
  rcases hagreed with hfailed | hfailed | ⟨hreply, value?, halike', uses', hhosts, huses⟩
  · exact .inl hfailed
  · exact .inr (.inl hfailed)
  dsimp only at hlimit hreply halike' hhosts huses ⊢
  have hmemory : held (some member₁) = member₁.memory.length := rfl
  exact .inr (.inr ⟨hreply, h.set hid hlinked hm hhosts (Nat.le_refl _) (by omega) (.some halike')⟩)

theorem Lockstep.step_discard (h : Lockstep c (rest + 1) s own) (i : Nat) :
    Same c rest (s.step (.discard i)) (Apart.step c.config c.place (.discard i) own) := by
  unfold Session.step Apart.step
  dsimp only
  rcases h.join_cases i with ⟨hm, ho⟩ |
    ⟨member, ⟨member', w'⟩, id, r, uses, owners, hm, ho, hid, hlinked⟩
  · rw [hm, ho]
    exact .inr (.inr ⟨rfl, h.nobody⟩)
  rw [hm, ho]
  obtain ⟨⟨⟨_, _⟩, _, _, limit, _, _⟩, haddress, rfl, rfl, hmany, hlimit, halike, hhas⟩ :=
    hlinked.exists_lodging hm ho
  cases haddress
  obtain ⟨⟨⟩, w₁, hrun, value?, uses', hhosts, huses⟩ :=
    (halike.ends_discard hhas hmany).exists_ok fun _ _ hf => hf
  obtain ⟨⟨⟩, w₁', hrun', -⟩ := halike.ends_discard_own.exists_ok fun _ _ hf => hf
  dsimp only at hrun' ⊢
  rw [hrun, hrun']
  have hgone : held (none : Option (Member ν)) = 0 := rfl
  have hgone' : present (none : Option (Member ν)) = 0 := rfl
  exact .inr (.inr ⟨rfl, h.set hid hlinked hm hhosts (by omega) (by omega) .none⟩)

/-- What a request makes is the same wherever it spills to. -/
theorem alike_request {id' : EngineId} (request : Request ν) (budget : Nat)
    (hnamed : isPartitionName (c.address id i).partition = true) (hroom : rest ≤ c.total)
    (hhosts : w'.Hosts c.reliable id' (fun _ => none) 0 2) :
    Member.Alike c.reliable (c.address id i) none rest (request.member budget (c.address id i))
      (request.member budget (c.address id' i), w') := by
  let l : Lodging :=
    { toAddress := c.address id' i
      others := fun _ => none
      owners := 2
      limit := c.total
      named := hnamed
      room := c.room }
  have hhas : l.Has c.reliable w' (0 + rest) none := by
    refine ⟨0, ?_, (Nat.zero_add _).trans_le ((Nat.zero_add _).trans_le hroom)⟩
    have hregistry : l.registry none = fun _ => none := Function.update_eq_self l.partition _
    rw [hregistry]
    exact hhosts
  cases request with
  | map schema values => exact .map (l := l) hnamed SpillMap.spills_blank hhas Nat.one_lt_two
  | set schema => exact .set (l := l) hnamed SpillMap.spills_blank hhas Nat.one_lt_two

theorem held_request (request : Request ν) (budget : Nat) (a : Address) :
    held (some (request.member budget a)) = 0 := by
  cases request <;> rfl

/-- What a factory needs for the next member, in either case. -/
theorem Lockstep.provided (h : Lockstep c (rest + 1) s own) (htoken : token ∈ c.tokens) :
    ∃ r uses owners, s.factory.Provided c.reliable s.workspace token r uses owners ∧
      ∀ id, (s.factory.engine = none ∨ s.factory.engine = some id) →
        (s.members.map present).sum < owners ∧
        uses + (s.members.map held).sum + (rest + 1) ≤ c.total ∧
        (∀ n, s.members.length ≤ n → r (partitionName c.identifier n) = none) ∧
        Paired c id r (rest + 1) s.members own := by
  rcases h.engine with ⟨hnone, hstart, hnil⟩ | ⟨id, r, uses, owners, hid, hlinked⟩
  · have hlength := h.length
    have hroom := h.room
    rw [hnil, List.length_nil, List.length_eq_zero_iff] at hlength
    have hfit : Fit s.factory.config s.workspace token :=
      h.config.symm ▸ hstart.symm ▸ c.fit_start token htoken
    refine ⟨_, _, _, .lazily hnone hfit (hstart.symm ▸ c.reliable_start), fun id _ => ?_⟩
    rw [hnil, hlength]
    refine ⟨Nat.zero_lt_one, ?_, fun _ _ => rfl, fun i => .none⟩
    show 0 + 0 + (rest + 1) ≤ c.total
    omega
  · refine ⟨r, uses, owners, .given hid hlinked.hosts, fun id' hid' => ?_⟩
    rw [hid] at hid'
    have hsame : id = id' := by simpa using hid'
    rw [← hsame]
    exact ⟨hlinked.owned, hlinked.room, hlinked.unused, hlinked.paired⟩

/-- One more member, or a number without one. -/
theorem Lockstep.concat {f' : Factory} (h : Lockstep c (rest + 1) s own)
    (hsettles : s.factory.next.Settles id f')
    (hhosts : w'.Hosts c.reliable id r uses owners')
    (howned : (s.members.map present).sum + present member? < owners')
    (hroom : uses + ((s.members.map held).sum + held member?) + rest ≤ c.total)
    (hunused : ∀ n, s.members.length ≤ n → r (partitionName c.identifier n) = none)
    (hpaired : Paired c id r (rest + 1) s.members own)
    (hnew : c.Pair (c.address id s.members.length) none rest member? own?) :
    Lockstep c rest { factory := f', workspace := w', members := s.members ++ [member?] }
      (own ++ [own?]) := by
  obtain ⟨rfl, -⟩ := hsettles
  refine ⟨h.config, ?_, ?_, Nat.le_of_succ_le h.room, .inr ⟨id, r, uses, owners', rfl, hhosts, ?_, ?_,
    fun n hn => ?_, hpaired.concat h.length ?_⟩⟩
  · rw [List.length_append, List.length_singleton, ← h.count]
    rfl
  · rw [List.length_append, List.length_append, h.length]
    rfl
  · simp only [List.map_append, List.map_cons, List.map_nil, List.sum_append, List.sum_cons,
      List.sum_nil]
    exact howned
  · simp only [List.map_append, List.map_cons, List.map_nil, List.sum_append, List.sum_cons,
      List.sum_nil]
    exact hroom
  · rw [List.length_append, List.length_singleton] at hn
    exact hunused n (by omega)
  · rw [hunused s.members.length (Nat.le_refl _)]
    exact hnew

theorem not_refused {partition : String} {e : Error} (hnamed : isPartitionName partition = true) :
    checkName partition ≠ .error e := by
  rw [checkName, if_pos hnamed]
  intro heq
  cases heq

theorem Lockstep.step_make (h : Lockstep c (rest + 1) s own) (htoken : token ∈ c.tokens)
    (request : Request ν) :
    Same c rest (s.step (.make token request))
      (Apart.step c.config c.place (.make token request) own) := by
  obtain ⟨r, uses, owners, hprovided, hlinked⟩ := h.provided htoken
  have hown : Provided c.reliable { config := c.config, nextInstance := own.length }
      (c.place own.length) token (fun _ => none) 0 1 :=
    .lazily rfl (c.fit_place own.length token htoken) fun hr => c.reliable_place hr own.length
  have hends := hprovided.ends_request (h.config.symm ▸ c.budgeted) (h.config.symm ▸ c.identified)
    request
  have hends' := hown.ends_request c.budgeted c.identified request
  have hlength : own.length = s.factory.nextInstance := h.length.trans h.count.symm
  unfold Session.step Apart.step
  dsimp only at hends' ⊢
  rw [hlength] at hends' ⊢
  cases hrun : request.make token (s.factory, s.workspace) with
  | ok member t =>
    obtain ⟨id, hsettles, hnamed, rfl, hhosts⟩ := hends.of_ok hrun
    cases hrun' : request.make token
        ({ config := c.config, nextInstance := s.factory.nextInstance },
          c.place s.factory.nextInstance) with
    | ok member' t' =>
      obtain ⟨id', -, -, rfl, hhosts'⟩ := hends'.of_ok hrun'
      obtain ⟨howned, hroom, hunused, hpaired⟩ := hlinked id hsettles.2
      refine .inr (.inr ⟨rfl, h.concat hsettles hhosts (Nat.succ_lt_succ howned) ?_ hunused hpaired
        (.some ?_)⟩)
      · rw [held_request]
        omega
      · rw [← h.count]
        exact alike_request request c.budget hnamed (Nat.le_of_succ_le h.room) hhosts'
    | error e t' =>
      rcases hends'.of_error hrun' with hexcused | ⟨-, -, hcheck, -⟩
      · exact .inr (.inl ⟨e, rfl, hexcused⟩)
      · exact absurd hcheck (not_refused hnamed)
  | error e t =>
    rcases hends.of_error hrun with hexcused | ⟨id, hsettles, hcheck, hhosts⟩
    · exact .inl ⟨e, rfl, hexcused⟩
    cases hrun' : request.make token
        ({ config := c.config, nextInstance := s.factory.nextInstance },
          c.place s.factory.nextInstance) with
    | ok member' t' =>
      obtain ⟨-, -, hnamed, -⟩ := hends'.of_ok hrun'
      exact absurd hcheck (not_refused hnamed)
    | error e' t' =>
      rcases hends'.of_error hrun' with hexcused | ⟨-, -, hcheck', -⟩
      · exact .inr (.inl ⟨e', rfl, hexcused⟩)
      obtain ⟨howned, hroom, hunused, hpaired⟩ := hlinked id hsettles.2
      rw [hcheck, Except.error.injEq] at hcheck'
      refine .inr (.inr ⟨congrArg _ hcheck'.symm, h.concat hsettles hhosts howned ?_ hunused hpaired
        .none⟩)
      show uses + ((s.members.map held).sum + 0) + rest ≤ c.total
      omega

/-! ## Whole sessions -/

/-- The tokens under which engines may be opened. -/
def tokens (commands : List (Command ν)) : List String :=
  commands.filterMap fun
    | .make token _ => some token
    | .call _ _ => none
    | .discard _ => none

theorem Lockstep.step (h : Lockstep c (rest + 1) s own) (command : Command ν)
    (htokens : ∀ token ∈ tokens [command], token ∈ c.tokens) :
    Same c rest (s.step command) (Apart.step c.config c.place command own) := by
  cases command with
  | make token request => exact h.step_make (htokens token List.mem_cons_self) request
  | call i call => exact h.step_call i call
  | discard i => exact h.step_discard i

theorem Lockstep.replies_eq {commands : List (Command ν)} (h : Lockstep c commands.length s own)
    (htokens : ∀ token ∈ tokens commands, token ∈ c.tokens)
    (hio : ∀ reply ∈ replies Session.step commands s, ¬ Failed c.reliable reply)
    (hio' : ∀ reply ∈ replies (Apart.step c.config c.place) commands own,
      ¬ Failed c.reliable reply) :
    replies Session.step commands s = replies (Apart.step c.config c.place) commands own := by
  -- a command uses up one of those to come, so the room that is left shrinks with the list
  induction commands generalizing s own with
  | nil => rfl
  | cons command commands ih =>
    have hcons : tokens (command :: commands) = tokens [command] ++ tokens commands :=
      List.filterMap_append (l := [command])
    rw [hcons, List.forall_mem_append] at htokens
    rw [replies, List.forall_mem_cons] at hio hio'
    rcases h.step command htokens.1 with hfailed | hfailed | ⟨hreply, hstep⟩
    · exact absurd hfailed hio.1
    · exact absurd hfailed hio'.1
    · rw [replies, replies, hreply, ih hstep htokens.2 hio.2 hio'.2]

/-- An engine that is not there yet can be opened where the session begins. -/
theorem Begins.exists_start {config : Config} {tokens : List String} {w₀ : Workspace}
    (h : Begins config f w tokens) (hfit : ∀ token ∈ tokens, Fit config w₀ token) :
    ∃ start, (∀ token ∈ tokens, Fit config start token) ∧ (f.engine = none → w = start) ∧
      (start = w ∨ start = w₀) := by
  cases h with
  | lazily hfit' => exact ⟨w, hfit', fun _ => rfl, .inl rfl⟩
  | supplied hs honest hroot hopen hfactory =>
    refine ⟨w₀, hfit, fun hnone => ?_, .inr rfl⟩
    cases hfactory
    cases hnone

/-- At the beginning there are no members. -/
theorem Begins.lockstep (h : Begins c.config f w c.tokens) (hr : c.reliable → w.disk.Reliable)
    (hstart : f.engine = none → w = c.start) :
    Lockstep c c.total ({ factory := f, workspace := w } : Session ν) [] := by
  cases h with
  | lazily hfit => exact ⟨rfl, rfl, rfl, Nat.le_refl _, .inl ⟨rfl, hstart rfl, rfl⟩⟩
  | @supplied w₀ w₁ _ root settings disposable id _ _ hs honest hroot hopen hfactory =>
    have hhosts : w₁.Hosts False id (fun _ => none) 0 1 :=
      (Workspace.ends_addEngine hs honest hroot False.elim).of_ok hopen
    have hrun : withEngine id c.config w₁ =
        .ok { config := c.config, engine := some id } (w₁.modifyOwners id (· + 1)) := rfl
    rw [hrun] at hfactory
    cases hfactory
    -- the owner that opened the engine keeps it, and the factory is a second one
    refine ⟨rfl, rfl, rfl, Nat.le_refl _, .inr ⟨id, _, 0, 2, rfl,
      ⟨hr, (hhosts.modifyOwners (· + 1)).2⟩, Nat.zero_lt_two, ?_, fun _ _ => rfl, fun i => .none⟩⟩
    show 0 + 0 + c.total ≤ c.total
    omega

/-- All maps and sets that a factory with a budget and a name makes reply as if each had an engine of its
own, which opens in a workspace with nobody else. That others are made, called, closed or discarded in
between makes no difference to any of them. Only sessions in which storage fails with an excuse are left
out: on reliable disks no call fails because a root was deleted or a partition dropped. -/
theorem replies_eq_apart {config : Config} {identifier : String} {budget : Nat}
    {place : Nat → Workspace} {commands : List (Command ν)}
    (hbudget : config.maxInMemoryBytes = some budget)
    (hidentifier : config.mapIdentifier = some identifier)
    (hbegins : Begins config f w (tokens commands))
    (hplace : ∀ n, ∀ token ∈ tokens commands, Fit config (place n) token)
    (hroom : 1 + 2 * commands.length < UInt64.size)
    (hio : ∀ reply ∈ replies Session.step commands { factory := f, workspace := w },
      ¬ Failed (w.disk.Reliable ∧ ∀ n, (place n).disk.Reliable) reply)
    (hio' : ∀ reply ∈ replies (Apart.step config place) commands [],
      ¬ Failed (w.disk.Reliable ∧ ∀ n, (place n).disk.Reliable) reply) :
    replies Session.step commands { factory := f, workspace := w } =
      replies (Apart.step config place) commands [] := by
  obtain ⟨start, hfit, hstart, hsame⟩ := hbegins.exists_start (hplace 0)
  let c : Setting :=
    { config
      identifier
      budget
      tokens := tokens commands
      start
      place
      total := commands.length
      reliable := w.disk.Reliable ∧ ∀ n, (place n).disk.Reliable
      identified := hidentifier
      budgeted := hbudget
      fit_start := hfit
      fit_place := hplace
      room := hroom
      reliable_start := by
        intro h
        rcases hsame with rfl | rfl
        · exact h.1
        · exact h.2 0
      reliable_place := And.right }
  have hlockstep : Lockstep c commands.length ({ factory := f, workspace := w } : Session ν) [] :=
    Begins.lockstep hbegins And.left hstart
  exact hlockstep.replies_eq (fun _ htoken => htoken) hio hio'

/-- Whether the reply does not say that storage failed. -/
def unfailing : Except Error (Reply ν) → Bool
  | .error (.engine _ _) => false
  | _ => true

theorem not_failed {reliable : Prop} {reply : Except Error (Reply ν)} (h : unfailing reply = true) :
    ¬ Failed reliable reply := by
  rintro ⟨_, rfl, task, cause, rfl, -⟩
  cases h

/-- Whatever is put somewhere is spilled. -/
def thrifty : Config := { maxInMemoryBytes := some 0, mapIdentifier := some "m" }

def numbers : Schema := ⟨[⟨1, "n", .int, true⟩]⟩

/-- A map and a set give their partitions up, and with them the root of the engine, before another map
spills. -/
def sharing : List (Command UInt8) :=
  [.make "a" (.map numbers SpillSet.marks), .make "b" (.set numbers),
    .call 0 (.map (.put ⟨[.int 1]⟩ 7)), .call 1 (.add ⟨[.int 1]⟩),
    .call 0 (.map (.find ⟨[.int 1]⟩)), .discard 0, .call 1 .contents, .call 1 .close,
    .make "c" (.map numbers SpillSet.marks), .call 2 (.map (.put ⟨[.int 1]⟩ 9)),
    .call 2 (.map (.find ⟨[.int 1]⟩)), .call 2 .contents, .call 1 (.has ⟨[.int 1]⟩)]

theorem fit_sharing : ∀ token ∈ tokens sharing, Fit thrifty {} token := by
  intro token hmem
  refine ⟨fun _ hx => absurd hx List.not_mem_nil, List.not_mem_nil,
    Disk.downward_of_parts ?_ ?_⟩ <;> revert token <;> decide +kernel

theorem replies_eq_apart_sharing :
    (replies Session.step sharing { factory := ofConfig thrifty, workspace := {} }).all unfailing =
        true ∧
      replies Session.step sharing { factory := ofConfig thrifty, workspace := {} } =
        replies (Apart.step thrifty fun _ => {}) sharing [] := by
  have hunfailing : (replies Session.step sharing
      { factory := ofConfig thrifty, workspace := {} }).all unfailing = true := by
    decide +kernel
  have hunfailing' : (replies (Apart.step thrifty fun _ => {}) sharing []).all unfailing = true := by
    decide +kernel
  exact ⟨hunfailing, replies_eq_apart rfl rfl (.lazily fit_sharing) (fun _ => fit_sharing) (by decide)
    (fun reply hmem => not_failed (List.all_eq_true.1 hunfailing reply hmem))
    (fun reply hmem => not_failed (List.all_eq_true.1 hunfailing' reply hmem))⟩

end Spillway.Factory
