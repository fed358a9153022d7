import Spillway.Proofs.Dedup.Counting
import Spillway.Proofs.Factory.Making

/-!
# A run of the line counter

A run opens an engine only when it has a budget (`ends_begin`). The engine then has two owners, the
factory and the set: counting gives up the first, whatever comes of it, and the run the second, which
closes the engine (`ends_count`). So a run tells of its input what is to be printed and leaves nothing of
its engine (`run_prints_distinct`).
-/

namespace Spillway.Dedup

open Engine Table

variable {l : Lease} {w : Workspace} {s : SpillSet Row}

/-! ## Making the set -/

/-- The root of the engine of a run. -/
def Options.root (options : Options) (baseDir : Option String) (tempDir : Path) (token : String) :
    Path :=
  ((options.config baseDir).baseDir.getD tempDir).join (disposableName token)

/-- The partition of the set. -/
def Options.place (options : Options) : String := Factory.partitionName options.partition 0

section Making

variable {options : Options} {baseDir : Option String} {token : String} {budget : Nat}

theorem ends_getEngine {f : Factory} (hconfig : f.config = options.config baseDir)
    (hnone : f.engine = none) (h : w.disk.Vacant (options.root baseDir w.tempDir token)) :
    Ends (Factory.getEngine token) (f, w)
      (fun id t => t.1.engine = some id ∧
        Lease.Opened (options.root baseDir w.tempDir token) w t.2 id)
      fun _ _ => False := by
  have hopened : Ends (Workspace.openDisposableEngine (options.config baseDir) token) w
      (fun id w' => Lease.Opened (options.root baseDir w.tempDir token) w w' id) fun _ _ => False :=
    ends_get_bind (Lease.ends_addEngine h)
  unfold Factory.getEngine
  refine ends_get_bind ?_
  dsimp only
  rw [hnone, hconfig]
  refine Ends.bind (M := fun id t => Lease.Opened (options.root baseDir w.tempDir token) w t.2 id)
    (Ends.zoom hopened) ?_
  intro id t ht
  exact ends_modify_bind (Ends.pure ⟨rfl, ht⟩)

/-- With a budget, an engine is opened for the set. -/
theorem ends_newSet (hbudget : options.budget = some budget)
    (h : w.disk.Vacant (options.root baseDir w.tempDir token)) :
    Ends (Factory.newSet token lineSchema) (Factory.ofConfig (options.config baseDir), w)
      (fun s t => ∃ id w₁, t.1.engine = some id ∧
        Lease.Opened (options.root baseDir w.tempDir token) w w₁ id ∧
        SpillMap.spillable budget options.place id (.ofSchema lineSchema) SpillSet.marks w₁ =
          .ok s.map t.2)
      fun _ t => ∃ id, t.1.engine = some id ∧
        Lease.Opened (options.root baseDir w.tempDir token) w t.2 id ∧
        isPartitionName options.place = false := by
  unfold Factory.newSet
  refine Ends.bind (M := fun target t => target = some (budget, options.place) ∧ t.2 = w ∧
    t.1.config = options.config baseDir ∧ t.1.engine = none) ?_ ?_
  · have hmax : (Factory.ofConfig (options.config baseDir)).config.maxInMemoryBytes = some budget :=
      hbudget
    have hname : (Factory.ofConfig (options.config baseDir)).config.mapIdentifier =
        some options.partition := by
      show options.budget.map _ = _
      rw [hbudget]
      rfl
    unfold Factory.nextTarget
    refine ends_get_bind ?_
    dsimp only
    rw [hmax, hname]
    exact ends_modify_bind (Ends.pure ⟨rfl, rfl, rfl, rfl⟩)
  · rintro _ ⟨f, _⟩ ⟨rfl, rfl, hconfig, hnone⟩
    refine Ends.bind ((ends_getEngine hconfig hnone h).imp_fail fun _ _ hf => hf.elim) ?_
    rintro id ⟨f', w₁⟩ ⟨hid, hopened⟩
    obtain ⟨e, he, hopen, -⟩ := hopened.ready
    refine Ends.zoom (Ends.bind ((SpillMap.ends_spillable_named he hopen).run.imp_fail ?_) ?_)
    · rintro err _ ⟨-, hcheck, rfl⟩
      refine ⟨id, hid, hopened, Bool.eq_false_iff.2 fun hname => ?_⟩
      rw [checkName, if_pos hname] at hcheck
      cases hcheck
    · rintro m w' ⟨hmade, -⟩
      exact Ends.pure ⟨id, w₁, hid, hopened, hmade⟩

/-- How making the set ends. -/
inductive Began (options : Options) (root : Path) (w : Workspace) :
    Except Error (SpillSet Row) → Factory → Workspace → Prop
  /-- Without a budget the set stays in memory. -/
  | idle {f : Factory} (hbudget : options.budget = none) (hnone : f.engine = none) :
      Began options root w (.ok (.memoryOnly (.ofSchema lineSchema))) f w
  /-- The partition has a bad name. -/
  | refused {err : Error} {f : Factory} {w' : Workspace} {id : EngineId}
      (hbudget : options.budget.isSome = true) (hname : isPartitionName options.place = false)
      (hid : f.engine = some id) (hopened : Lease.Opened root w w' id) :
      Began options root w (.error err) f w'
  | spilling {s : SpillSet Row} {f : Factory} {w₁ w' : Workspace} {id : EngineId} {budget : Nat}
      (hbudget : options.budget = some budget) (hid : f.engine = some id)
      (hopened : Lease.Opened root w w₁ id)
      (hmade : SpillMap.spillable budget options.place id (.ofSchema lineSchema) SpillSet.marks w₁ =
        .ok s.map w') : Began options root w (.ok s) f w'

theorem ends_begin (h : w.disk.Vacant (options.root baseDir w.tempDir token)) :
    Ends (outcome (Factory.newSet token lineSchema) : FactoryM _)
      (Factory.ofConfig (options.config baseDir), w)
      (fun s t => Began options (options.root baseDir w.tempDir token) w s t.1 t.2)
      fun _ _ => False := by
  refine Ends.outcome ?_
  cases hbudget : options.budget with
  | none =>
    have hmax : (Factory.ofConfig (options.config baseDir)).config.maxInMemoryBytes = none := hbudget
    unfold Factory.newSet
    refine Ends.bind (M := fun target t => target = none ∧
      t = (Factory.ofConfig (options.config baseDir), w)) ?_ ?_
    · unfold Factory.nextTarget
      refine ends_get_bind ?_
      dsimp only
      rw [hmax]
      exact Ends.pure ⟨rfl, rfl⟩
    · rintro _ _ ⟨rfl, rfl⟩
      exact Ends.pure (.idle hbudget rfl)
  | some budget =>
    refine (ends_newSet hbudget h).mono ?_ ?_
    · intro s t ⟨id, w₁, hid, hopened, hmade⟩
      exact .spilling hbudget hid hopened hmade
    · intro err t ⟨id, hid, hopened, hname⟩
      refine .refused ?_ hname hid hopened
      rw [hbudget]
      rfl

end Making

/-! ## The run -/

/-- The run has room for its engine, of which nothing is there yet, and no input is too long. -/
structure Usable (options : Options) (baseDir : Option String) (token : String) (stdin : Bytes)
    (w : Workspace) : Prop where
  vacant : w.disk.Vacant (options.root baseDir w.tempDir token)
  stdin : stdin.length ≤ maxInput
  files : ∀ bytes ∈ w.disk.contents, bytes.length ≤ maxInput

/-- With a budget, the partition has a good name. -/
def Options.Named (options : Options) : Prop :=
  options.budget.isSome = true → isPartitionName options.place = true

/-- The bytes that are read, if any. -/
def Options.read (options : Options) (stdin : Bytes) (d : Disk) : Bytes :=
  (options.source stdin d).getD []

variable {options : Options} {baseDir : Option String} {token : String} {stdin : Bytes} {d d' : Disk}
  {w₁ : Workspace} {id : EngineId}

theorem Usable.length_read (h : Usable options baseDir token stdin w)
    (hsame : d.contents = w.disk.contents) : (options.read stdin d).length ≤ maxInput := by
  unfold Options.read Options.source
  split
  · exact h.stdin
  · split
    · next id _ =>
      show (d.content id).length ≤ maxInput
      unfold Disk.content
      rw [hsame]
      cases hid : w.disk.contents[id]? with
      | none => exact Nat.zero_le _
      | some bytes => exact h.files bytes (List.mem_of_getElem? hid)
    · exact Nat.zero_le _

/-- What can be read before the engine is opened can be read after it. -/
theorem source_of_grown {place : Location} {input : Bytes} (h : Disk.Grown d d' place)
    (hsource : options.source stdin d = some input) : options.source stdin d' = some input := by
  unfold Options.source at hsource ⊢
  cases hinput : options.input with
  | none =>
    rw [hinput] at hsource
    exact hsource
  | some path =>
    rw [hinput] at hsource
    dsimp only at hsource ⊢
    split at hsource
    · next found id hfind =>
      rw [h.find hfind]
      dsimp only
      rw [h.content]
      exact hsource
    · cases hsource

/-- The set may have the entries of the lines that are read. -/
def Usable.lease (h : Usable options baseDir token stdin w) (hsame : d.contents = w.disk.contents)
    (id : EngineId) (owners : Nat) : Lease where
  engine := id
  partition := options.place
  root := options.root baseDir w.tempDir token
  owners := owners
  before := w.disk
  allowed := (· ∈ (lines (options.read stdin d)).map lineEntry)
  small := not_oversized_lines (h.length_read hsame)

theorem tracks_memoryOnly : Tracks l (some w) none 0 [] (.memoryOnly (.ofSchema lineSchema)) w := by
  have hnew : SpillMap.New (SpillMap.memoryOnly (.ofSchema lineSchema) SpillSet.marks) w :=
    .memoryOnly _ _ w
  refine ⟨rfl, rfl, rfl, ⟨fun _ hmem => absurd hmem List.not_mem_nil, .idle rfl⟩, ?_, hasRoom_nil none,
    fun _ => rfl, nofun⟩
  rw [marked_nil]
  exact hnew.holds l.allowed

theorem tracks_of_made {budget : Nat} {w₂ : Workspace} (h : Usable options baseDir token stdin w)
    (hopened : Lease.Opened (options.root baseDir w.tempDir token) w w₁ id)
    (hmade : SpillMap.spillable budget options.place id (.ofSchema lineSchema) SpillSet.marks w₁ =
      .ok s.map w₂) :
    isPartitionName options.place = true ∧
      Disk.Grown w.disk w₂.disk (Disk.target (options.root baseDir w.tempDir token)) ∧
      ∃ hsame : w₂.disk.contents = w.disk.contents,
        Tracks (h.lease hsame id 2) none (some budget) 0 [] s w₂ := by
  obtain ⟨e, he, hopen, hready⟩ := hopened.ready
  obtain ⟨hnamed, hmap, rfl⟩ := (SpillMap.ends_spillable_named he hopen).of_ok hmade
  have hnew := SpillMap.New.spillable he (hready _ hnamed) hmade
  have hholds := (hopened.leased (h.lease hopened.grown.same id 1) rfl rfl rfl rfl).withOwners (· + 1)
  obtain ⟨m⟩ := s
  subst hmap
  refine ⟨hnamed, hopened.grown, hopened.grown.same, rfl, rfl, rfl, ?_, ?_, hasRoom_nil _, fun _ => rfl,
    nofun⟩
  · have hstage : some { engine := id, partition := options.place, budget } =
        some ((h.lease hopened.grown.same id 2).house
          { engine := id, partition := options.place, budget }) := rfl
    exact SpillMap.leased_of_holds hholds hstage (SpillMap.allowed_of_empty rfl) (Nat.le_refl 0)
  · rw [marked_nil]
    exact hnew.holds _

/-- What a run reports of an input that it can read: what is told of its lines, unless the partition has a bad
name. -/
structure Reports (options : Options) (source : Option Bytes) (report : Report) : Prop where
  refused : ¬ options.Named → report = ⟨1, []⟩
  told : ∀ input, source = some input → options.Named →
    Tells options.printUnique options.budget (lines input) report

/-- A set that has no lines yet counts those of the input. -/
theorem ends_countWith_usable {place : Location} {idle : Option Workspace}
    (h : Usable options baseDir token stdin w) (hgrown : Disk.Grown w.disk w₁.disk place)
    (hsame : w₁.disk.contents = w.disk.contents) (hnamed : options.Named)
    (htracks : Tracks (h.lease hsame id 2) idle options.budget 0 [] s w₁) :
    Ends (countWith options stdin s) w₁
      (fun report w' => Reports options (options.source stdin w.disk) report ∧
        (h.lease hsame id 2).Returned w' idle)
      fun _ _ => False := by
  have hlength := h.length_read hsame
  have hmany := length_lines_le (options.read stdin w₁.disk)
  have hroom : 1 + 2 * (lines (options.read stdin w₁.disk)).length < UInt64.size := by
    unfold maxInput at hlength
    unfold UInt64.size
    omega
  refine (ends_countWith (fun read hread => ?_) htracks (fun line hline => List.mem_map_of_mem hline)
    Nat.one_lt_two hroom).imp ?_
  · rw [Options.read, hread]
    rfl
  · intro report w' ⟨hreturned, htold⟩
    refine ⟨⟨fun hnot => absurd hnamed hnot, fun input hsource _ => ?_⟩, hreturned⟩
    have hread := source_of_grown hgrown hsource
    rw [Options.read, hread] at htold
    exact htold rfl

theorem ends_count (h : Usable options baseDir token stdin w) :
    Ends (count options baseDir token stdin) w
      (fun report w' => Reports options (options.source stdin w.disk) report ∧
        Disk.Swept w.disk w'.disk (Disk.target (options.root baseDir w.tempDir token)))
      fun _ _ => False := by
  unfold count Factory.discard
  dsimp only
  refine Ends.bind (M := fun r w' =>
    Began options (options.root baseDir w.tempDir token) w r.1 r.2 w') (Ends.zoom ?_) ?_
  · exact Ends.bind (ends_begin h.vacant) fun _ _ hbegan => ends_get_bind (Ends.pure hbegan)
  · intro ⟨seen, f⟩ w₁ hbegan
    cases hbegan with
    | idle hbudget hnone =>
      dsimp only at hnone ⊢
      rw [hnone]
      have hnamed : options.Named := by
        rw [Options.Named, hbudget]
        exact nofun
      refine Ends.bind (ends_countWith_usable h (Disk.grown_refl w.disk []) rfl hnamed
        (hbudget ▸ tracks_memoryOnly (l := h.lease rfl 0 2))) ?_
      intro report _ ⟨hreport, rfl⟩
      exact Ends.pure ⟨hreport, Disk.confined_refl _ _, h.vacant.empty⟩
    | @refused err f w₁ id hbudget hname hid hopened =>
      dsimp only at hid ⊢
      rw [hid]
      have hleft := hopened.leased (h.lease hopened.grown.same id 1) rfl rfl rfl rfl
      rw [pure_bind]
      refine Ends.bind (hleft.ends_release_last rfl) fun _ w' hswept => Ends.pure ⟨?_, hswept⟩
      refine ⟨fun _ => rfl, fun input _ hnamed => ?_⟩
      rw [hnamed hbudget] at hname
      cases hname
    | spilling hbudget hid hopened hmade =>
      dsimp only at hid ⊢
      rw [hid]
      obtain ⟨hnamed, hgrown, hsame, htracks⟩ := tracks_of_made h hopened hmade
      refine Ends.bind (ends_countWith_usable h hgrown hsame (fun _ => hnamed) (hbudget ▸ htracks)) ?_
      intro report w' ⟨hreport, uses, hleft⟩
      exact Ends.bind (hleft.ends_release_last rfl) fun _ _ hswept => Ends.pure ⟨hreport, hswept⟩

/-- A run does what is asked for. -/
theorem ends_run {arguments : List String} (hrequest : request? arguments = some (.count options))
    (h : Usable options baseDir token stdin w) :
    Ends (run arguments baseDir token stdin) w
      (fun report w' => Reports options (options.source stdin w.disk) report ∧
        Disk.Swept w.disk w'.disk (Disk.target (options.root baseDir w.tempDir token)))
      fun _ _ => False := by
  unfold run
  rw [hrequest]
  exact ends_count h

/-- A run prints the distinct lines of its input, or their number. With a budget that is so as long as there
are no more distinct lines than the budget has bytes, or none of them is too long for a key; otherwise the
run fails where that ends. Whether the run succeeds or not, nothing of its engine is left. -/
theorem run_prints_distinct {arguments : List String}
    (hrequest : request? arguments = some (.count options))
    (h : Usable options baseDir token stdin w) :
    ∃ report w', run arguments baseDir token stdin w = .ok report w' ∧
      (∀ input, options.source stdin w.disk = some input → options.Named →
        (Countable options.budget (lines input) →
          report = ⟨0, printed options.printUnique (lines input)⟩) ∧
        (¬ Countable options.budget (lines input) →
          ∃ front line rest, lines input = front ++ line :: rest ∧
            Countable options.budget front ∧ ¬ Countable options.budget (front ++ [line]) ∧
            report = ⟨1, if options.printUnique then printed true front else []⟩)) ∧
      (¬ options.Named → report = ⟨1, []⟩) ∧
      Disk.Swept w.disk w'.disk (Disk.target (options.root baseDir w.tempDir token)) := by
  obtain ⟨report, w', hrun, hreport, hswept⟩ := (ends_run hrequest h).exists_ok fun _ _ => id
  refine ⟨report, w', hrun, fun input hsource hnamed => ?_, hreport.refused, hswept⟩
  have htold := hreport.told input hsource hnamed
  exact ⟨htold.complete, htold.stopped⟩

/-! A run whose set spills with every line. -/

def restless : Options := { budget := some 0, printUnique := true }

/-- Lines that come again, one of them with a carriage return, an empty line, and at the end one that is
not ended. -/
def verses : Bytes := Utf8.encode "b\na\n\nb\r\né\na"

theorem lines_verses : lines verses = ["b", "a", "", "b", "é", "a"].map Utf8.encode := by
  decide +kernel

theorem countable_verses : Countable restless.budget (lines verses) where
  texts line hline := by
    rw [lines_verses] at hline
    obtain ⟨text, -, rfl⟩ := List.mem_map.1 hline
    exact ⟨text, Utf8.decode_encode text⟩
  room bytes _ := by
    rw [lines_verses]
    exact .inr (by decide +kernel)

theorem vacant_root : ({} : Disk).Vacant (Options.root {} none "/tmp" "0") :=
  Disk.vacant_empty (Disk.downward_of_parts (by decide +kernel) (by decide +kernel))

theorem usable_restless : Usable restless none "0" verses {} where
  vacant := vacant_root
  stdin := by decide +kernel
  files := nofun

theorem run_prints_distinct_restless :
    request? ["--budget-bytes", "0", "--print-unique"] = some (.count restless) ∧
      Usable restless none "0" verses {} ∧
      ∃ w, run ["--budget-bytes", "0", "--print-unique"] none "0" verses {} =
          .ok ⟨0, Utf8.encode "b\na\n\né\n"⟩ w ∧
        Disk.Swept {} w.disk (Disk.target (restless.root none "/tmp" "0")) := by
  have hrequest : request? ["--budget-bytes", "0", "--print-unique"] = some (.count restless) := by
    decide +kernel
  obtain ⟨report, w, hrun, hreport, -, hswept⟩ := run_prints_distinct hrequest usable_restless
  obtain rfl := (hreport verses rfl fun _ => by decide +kernel).1 countable_verses
  have hprinted : printed restless.printUnique (lines verses) = Utf8.encode "b\na\n\né\n" := by
    decide +kernel
  rw [hprinted] at hrun
  exact ⟨hrequest, usable_restless, w, hrun, hswept⟩

/-- A line that is no text stops a run. Of what it made, only the base directory is left. -/
example : (match run ["--budget-bytes", "0"] none "0" [98, 10, 255] {} with
    | .ok report w => (report, w.disk.nodes)
    | .error _ w => (⟨0, []⟩, w.disk.nodes)) = (⟨1, []⟩, [(["tmp"], .directory)]) := by
  decide +kernel

/-! A line that is too long for a key, which a set can count only in memory. -/

def sparing : Options := { budget := some 0 }

theorem encode_replicate (n : Nat) :
    Utf8.encode (String.ofList (List.replicate n 'a')) = List.replicate n 97 := by
  induction n with
  | zero => rfl
  | succ n ih =>
    rw [Utf8.encode, String.toByteArray_ofList] at ih ⊢
    rw [List.replicate_succ, List.utf8Encode_cons, ByteArray.data_append, Array.toList_append, ih]
    rfl

theorem lines_replicate (n : Nat) : lines (List.replicate (n + 1) 97) = [List.replicate (n + 1) 97] := by
  refine lines_of_unended fun b hb => ?_
  rw [List.eq_of_mem_replicate (n := n + 1) hb]
  decide

theorem isText_replicate (n : Nat) : IsText (List.replicate n 97) :=
  ⟨String.ofList (List.replicate n 'a'), encode_replicate n ▸ Utf8.decode_encode _⟩

theorem printed_single (line : Bytes) : printed false [line] = Utf8.encode "1\n" := by
  have hcard : [line].toFinset.card = 1 := List.toFinset_card_of_nodup (List.nodup_singleton line)
  rw [printed, if_neg Bool.false_ne_true, hcard]
  decide +kernel

/-- With a budget of no bytes every line is moved, which a line with too long a key can not be. -/
theorem not_countable_of_long {line : Bytes} (h : maxEntryBytes < (lineKey line).length) :
    ¬ Countable (some 0) [line] := by
  intro hcountable
  refine absurd (hcountable.room.short rfl ?_ line List.mem_cons_self) (Nat.not_le.2 h)
  exact Finset.card_pos.2 ⟨line, List.mem_toFinset.2 List.mem_cons_self⟩

theorem run_sparing_of_long {line : Bytes} (hlines : lines line = [line])
    (hlong : maxEntryBytes < (lineKey line).length) (h : Usable sparing none "0" line {}) :
    ∃ w, run ["--budget-bytes", "0"] none "0" line {} = .ok ⟨1, []⟩ w := by
  have hrequest : request? ["--budget-bytes", "0"] = some (.count sparing) := by decide +kernel
  obtain ⟨report, w, hrun, hreport, -⟩ := (ends_run hrequest h).exists_ok fun _ _ => id
  have hstopped := (hreport.told line rfl fun _ => by decide +kernel).stopped
  rw [hlines] at hstopped
  obtain ⟨_, _, _, -, -, -, rfl⟩ := hstopped (not_countable_of_long hlong)
  exact ⟨w, hrun⟩

/-- In memory a line may have any length. -/
theorem run_plain_of_single {line : Bytes} (hlines : lines line = [line]) (htext : IsText line)
    (h : Usable {} none "0" line {}) :
    ∃ w, run [] none "0" line {} = .ok ⟨0, Utf8.encode "1\n"⟩ w := by
  have hrequest : request? [] = some (.count {}) := by decide +kernel
  obtain ⟨report, w, hrun, hreport, -⟩ := (ends_run hrequest h).exists_ok fun _ _ => id
  have htold := (hreport.told line rfl nofun).complete
  rw [hlines] at htold
  obtain rfl := htold ⟨List.forall_mem_singleton.2 htext, hasRoom_none _⟩
  rw [← printed_single line]
  exact ⟨w, hrun⟩

/-- The number of lines is printed without a budget, but not with one. -/
theorem long_line_not_counted :
    IsText (List.replicate maxEntryBytes 97) ∧
      lines (List.replicate maxEntryBytes 97) = [List.replicate maxEntryBytes 97] ∧
      isPartitionName sparing.place = true ∧
      Usable sparing none "0" (List.replicate maxEntryBytes 97) {} ∧
      (∃ w, run ["--budget-bytes", "0"] none "0" (List.replicate maxEntryBytes 97) {} = .ok ⟨1, []⟩ w) ∧
      ∃ w, run [] none "0" (List.replicate maxEntryBytes 97) {} = .ok ⟨0, Utf8.encode "1\n"⟩ w := by
  have hlength : (List.replicate maxEntryBytes (97 : UInt8)).length = maxEntryBytes :=
    List.length_replicate
  have hkey := length_lt_lineKey (List.replicate maxEntryBytes 97)
  rw [hlength] at hkey
  have hlines : lines (List.replicate maxEntryBytes 97) = _ := lines_replicate (maxEntryBytes - 1)
  have htext := isText_replicate maxEntryBytes
  have hmax : (List.replicate maxEntryBytes (97 : UInt8)).length ≤ maxInput := by
    rw [hlength]
    decide +kernel
  have hsparing : Usable sparing none "0" (List.replicate maxEntryBytes 97) {} :=
    ⟨vacant_root, hmax, nofun⟩
  exact ⟨htext, hlines, by decide +kernel, hsparing, run_sparing_of_long hlines hkey hsparing,
    run_plain_of_single hlines htext ⟨vacant_root, hmax, nofun⟩⟩

end Spillway.Dedup
