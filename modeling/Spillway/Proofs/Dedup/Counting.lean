import Spillway.Proofs.Dedup.Lines
import Spillway.Proofs.SpillMap.Lease
import Spillway.Proofs.SpillMap.Tally

/-!
# Counting distinct lines

The loop over the lines keeps a set that holds exactly the lines seen so far (`Tracks`), wherever the set
has its members. The lines that are new to it are those that appear first. It stops before the first line
that is no text, or for which the set has no room (`Tracks.ends_collect`), and what is printed until then
is the same for every set with as much room (`ends_countWith`).
-/

namespace Spillway.Dedup

open Engine Table

variable {l : Lease} {idle : Option Workspace} {w : Workspace} {s : SpillSet Row} {calls : Nat}
  {budget : Option Nat} {seen : List Bytes} {text : String}

/-! ## Room for lines -/

/-- A set with this budget has room for the lines: they are so few that they stay in memory, or none of
them is too long to be moved from there. -/
def HasRoom (budget : Option Nat) (lines : List Bytes) : Prop :=
  ∀ bytes ∈ budget, lines.toFinset.card ≤ bytes ∨ ∀ line ∈ lines, (lineKey line).length ≤ maxEntryBytes

theorem hasRoom_nil (budget : Option Nat) : HasRoom budget [] := fun _ _ => .inl (Nat.zero_le _)

theorem hasRoom_none (lines : List Bytes) : HasRoom none lines := nofun

/-- Lines that are too many for memory are all short. -/
theorem HasRoom.short {lines : List Bytes} {bytes : Nat} (h : HasRoom budget lines)
    (hbudget : budget = some bytes) (hmany : bytes < lines.toFinset.card) :
    ∀ line ∈ lines, (lineKey line).length ≤ maxEntryBytes :=
  (h bytes hbudget).resolve_left (Nat.not_le.2 hmany)

theorem hasRoom_of_subset {lines more : List Bytes} (h : HasRoom budget more)
    (hsub : ∀ line ∈ lines, line ∈ more) : HasRoom budget lines := by
  intro bytes hbytes
  refine (h bytes hbytes).imp (fun hfew => ?_) fun hshort line hline => hshort line (hsub line hline)
  refine (Finset.card_le_card fun line hline => ?_).trans hfew
  exact List.mem_toFinset.2 (hsub line (List.mem_toFinset.1 hline))

/-- A line that is new is one more. -/
theorem card_concat {line : Bytes} (h : line ∉ seen) :
    (seen ++ [line]).toFinset.card = seen.toFinset.card + 1 := by
  rw [← length_eraseDups, ← length_eraseDups, eraseDups_concat, if_neg h, List.length_append]
  rfl

/-- A line that was seen already changes nothing. -/
theorem mem_concat_of_mem {line other : Bytes} (h : line ∈ seen) :
    other ∈ seen ++ [line] ↔ other ∈ seen := by
  rw [List.mem_append, List.mem_singleton]
  exact or_iff_left_of_imp fun heq => heq ▸ h

theorem card_concat_of_mem {line : Bytes} (h : line ∈ seen) :
    (seen ++ [line]).toFinset.card = seen.toFinset.card := by
  rw [← length_eraseDups, ← length_eraseDups, eraseDups_concat, if_pos h, List.append_nil]

/-! ## The set -/

/-- What a set of lines has for a key. -/
def marked (seen : List Bytes) (key : Bytes) : Option Bytes :=
  if ∃ line ∈ seen, lineKey line = key then some [SpillSet.mark] else none

theorem marked_nil : marked [] = fun _ => none := by
  funext key
  exact if_neg fun ⟨_, hline, _⟩ => absurd hline List.not_mem_nil

theorem marked_lineKey (seen : List Bytes) (line : Bytes) :
    marked seen (lineKey line) = if line ∈ seen then some [SpillSet.mark] else none := by
  have hiff : (∃ other ∈ seen, lineKey other = lineKey line) ↔ line ∈ seen :=
    ⟨fun ⟨other, hother, hkey⟩ => lineKey_injective hkey ▸ hother, fun h => ⟨line, h, rfl⟩⟩
  unfold marked
  by_cases h : line ∈ seen
  · rw [if_pos h, if_pos (hiff.2 h)]
  · rw [if_neg h, if_neg (mt hiff.1 h)]

theorem marked_concat (seen : List Bytes) (line : Bytes) :
    marked (seen ++ [line]) = record (marked seen) (lineEntry line) := by
  funext key
  show marked (seen ++ [line]) key = if key = lineKey line then some [SpillSet.mark] else marked seen key
  by_cases hkey : key = lineKey line
  · rw [hkey, marked_lineKey, if_pos (List.mem_append_right seen List.mem_cons_self), if_pos rfl]
  · rw [if_neg hkey]
    unfold marked
    congr 1
    simp only [List.mem_append, List.mem_singleton, or_and_right, exists_or, exists_eq_left,
      Ne.symm hkey, or_false]

theorem marked_concat_of_mem {line : Bytes} (h : line ∈ seen) :
    marked (seen ++ [line]) = marked seen := by
  funext key
  simp only [marked, mem_concat_of_mem h]

/-- The set holds the lines that were seen, for which it has room. Each of them counts once while all are in
memory, and they leave it only when they are too many. -/
structure Tracks (l : Lease) (idle : Option Workspace) (budget : Option Nat) (calls : Nat)
    (seen : List Bytes) (s : SpillSet Row) (w : Workspace) : Prop where
  keys : s.map.keys = .ofSchema lineSchema
  values : s.map.values = SpillSet.marks
  stage : s.map.spillStage.map (·.budget) = budget
  leased : s.map.Leased l idle calls w
  holds : s.map.Holds w l.allowed (marked seen) calls
  room : HasRoom budget seen
  tally : s.map.hasSpilled = false → s.map.memory.tally = seen.toFinset.card
  many : s.map.hasSpilled = true → ∀ bytes ∈ budget, bytes < seen.toFinset.card

theorem ends_onMap {α : Type} {act : MapM Row UInt8 α} {post : α → SpillSet Row × Workspace → Prop}
    {fail : Error → SpillSet Row × Workspace → Prop}
    (h : Ends act (s.map, w) (fun a t => post a (⟨t.1⟩, t.2)) fun err t => fail err (⟨t.1⟩, t.2)) :
    Ends (SpillSet.onMap act) (s, w) post fail := Ends.zoom h

theorem Tracks.plainFind (h : Tracks l idle budget calls seen s w) (text : String) :
    SpillMap.Call.plainFind s.map.keys s.map.values (marked seen) ⟨[.string text]⟩ =
      .ok (if Utf8.encode text ∈ seen then some SpillSet.mark else none) := by
  rw [SpillMap.Call.plainFind, h.keys, h.values, encode_line]
  dsimp only
  rw [marked_lineKey]
  split <;> rfl

/-- A map that has spilled has a budget. -/
theorem exists_budget {m : SpillMap Row UInt8} (hstage : m.spillStage.map (·.budget) = budget)
    (h : m.isSpillable = true) : ∃ bytes, budget = some bytes := by
  obtain ⟨stage, hsome⟩ := Option.isSome_iff_exists.1 h
  rw [hsome] at hstage
  exact ⟨stage.budget, hstage.symm⟩

/-- Once the set has spilled, it has room only for lines that are short. -/
theorem Tracks.short (h : Tracks l idle budget calls seen s w) {more : List Bytes}
    (hspilled : s.map.hasSpilled = true) (hroom : HasRoom budget (seen ++ more)) :
    ∀ line ∈ seen ++ more, (lineKey line).length ≤ maxEntryBytes := by
  obtain ⟨bytes, hbudget⟩ := exists_budget h.stage (SpillMap.isSpillable_of_hasSpilled hspilled)
  refine hroom.short hbudget ((h.many hspilled bytes hbudget).trans_le (Finset.card_le_card ?_))
  exact fun line hline => List.mem_toFinset.2 (List.mem_append_left more (List.mem_toFinset.1 hline))

theorem within_line {m : SpillMap Row UInt8} (hkeys : m.keys = .ofSchema lineSchema)
    (h : (lineKey (Utf8.encode text)).length ≤ maxEntryBytes) :
    SpillMap.Within m.keys ⟨[.string text]⟩ := by
  intro bytes hbytes
  rw [hkeys, encode_line] at hbytes
  cases hbytes
  exact h

theorem within_mark {m : SpillMap Row UInt8} (hvalues : m.values = SpillSet.marks) :
    SpillMap.Within m.values SpillSet.mark := by
  intro bytes hbytes
  rw [hvalues] at hbytes
  cases hbytes
  decide

/-- A set is asked for a line, which changes nothing. -/
theorem Tracks.ends_contains (h : Tracks l idle budget calls seen s w) (text : String) :
    Ends (SpillSet.contains ⟨[.string text]⟩) (s, w)
      (fun known t => known = decide (Utf8.encode text ∈ seen) ∧ t = (s, w))
      fun _ t => t = (s, w) ∧ ¬ HasRoom budget (seen ++ [Utf8.encode text]) := by
  refine ends_onMap ((SpillMap.ends_contains _ h.holds).mono ?_ ?_)
  · rintro known _ ⟨found, hfound, rfl, rfl⟩
    rw [h.plainFind, Except.ok.injEq] at hfound
    subst hfound
    refine ⟨?_, rfl⟩
    split <;> simp [*]
  · rintro err _ ⟨rfl, hexact⟩
    refine ⟨rfl, fun hroom => ?_⟩
    have herr := hexact fun hspilled => within_line h.keys
      (h.short hspilled hroom _ (List.mem_append_right seen List.mem_cons_self))
    rw [h.plainFind] at herr
    cases herr

/-- What is in memory can be moved when all lines are short. -/
theorem Tracks.movable (h : Tracks l idle budget calls seen s w)
    (hshort : ∀ line ∈ seen, (lineKey line).length ≤ maxEntryBytes) : s.map.Movable := by
  obtain ⟨spilled, writes, hs⟩ := h.holds.splits
  intro _ entry hentry
  obtain ⟨pair, hpair, rfl⟩ := List.mem_map.1 hentry
  have hvalue := hs.values pair.1
  rw [h.holds.sorted.find?_eq_some_iff.2 hpair, Option.some_or, marked] at hvalue
  obtain ⟨hkey, hne⟩ := h.holds.nonempty pair hpair
  split at hvalue
  · next hline =>
    obtain ⟨line, hline, hsame⟩ := hline
    refine ⟨⟨hkey, hsame ▸ hshort line hline⟩, fun v hv => ?_⟩
    obtain rfl := Option.mem_some.1 hv
    rw [← Option.some.inj hvalue]
    exact ⟨List.cons_ne_nil _ _, by decide⟩
  · cases hvalue

/-- Lines that have left memory are short. -/
theorem short_of_empty {m : SpillMap Row UInt8} {allowed : Entry → Prop} {line : Bytes}
    (h : m.Holds w allowed (marked seen) calls) (hempty : m.memory.entries = []) (hline : line ∈ seen) :
    (lineKey line).length ≤ maxEntryBytes := by
  obtain ⟨spilled, writes, hs⟩ := h.splits
  have hvalue := hs.values (lineKey line)
  rw [hempty, marked_lineKey, if_pos hline] at hvalue
  exact hs.stage.length_le hvalue.symm

/-- What the tally exceeds with one line more is the budget. -/
theorem Tracks.many_of_exceeds (h : Tracks l idle budget calls seen s w) {line : Bytes}
    (hnew : line ∉ seen) (hmany : s.map.hasSpilled = true ∨ s.map.Exceeds 1) :
    ∃ bytes, budget = some bytes ∧ bytes < (seen ++ [line]).toFinset.card := by
  rw [card_concat hnew]
  cases hspilled : s.map.hasSpilled with
  | true =>
    obtain ⟨bytes, hbudget⟩ := exists_budget h.stage (SpillMap.isSpillable_of_hasSpilled hspilled)
    exact ⟨bytes, hbudget, (h.many hspilled bytes hbudget).trans (Nat.lt_succ_self _)⟩
  | false =>
    obtain ⟨stage, hstage, hexceeds⟩ := hmany.resolve_left (Bool.eq_false_iff.1 hspilled)
    have hbudget := h.stage
    rw [hstage] at hbudget
    rw [h.tally hspilled] at hexceeds
    exact ⟨stage.budget, hbudget.symm, hexceeds⟩

/-- A new line has gone to memory, where there is room for it. -/
theorem Tracks.room_of_kept (h : Tracks l idle budget calls seen s w) {line : Bytes} (hnew : line ∉ seen)
    (hkey : s.map.hasSpilled = true → Storable (lineKey line)) (hfew : ¬ s.map.Exceeds 1) :
    HasRoom budget (seen ++ [line]) := by
  intro bytes hbytes
  cases hspilled : s.map.hasSpilled with
  | true =>
    have hshort := h.room.short hbytes (h.many hspilled bytes hbytes)
    exact .inr (List.forall_mem_append.2 ⟨hshort, List.forall_mem_singleton.2 (hkey hspilled).2⟩)
  | false =>
    have hstage := h.stage
    rw [Option.mem_def.1 hbytes, Option.map_eq_some_iff] at hstage
    obtain ⟨stage, hstage, rfl⟩ := hstage
    refine .inl (Nat.not_lt.1 fun hmany => hfew ⟨stage, hstage, ?_⟩)
    rwa [h.tally hspilled, ← card_concat hnew]

/-- A new line is in the set, in memory or moved from there with all others. -/
theorem Tracks.stow {m : SpillMap Row UInt8} {w' : Workspace} {line : Bytes}
    (h : Tracks l idle budget calls seen s w) (hnew : line ∉ seen) (hkind : s.map.Kind m)
    (hleased : m.Leased l idle (calls + 1) w')
    (hholds : m.Holds w' l.allowed (marked (seen ++ [line])) (calls + 1))
    (hkey : s.map.hasSpilled = true → Storable (lineKey line))
    (hstows : s.map.Stows (lineKey line) [SpillSet.mark] m) :
    Tracks l idle budget (calls + 1) (seen ++ [line]) ⟨m⟩ w' := by
  have hkeys := hkind.keys.trans h.keys
  have hvalues := hkind.values.trans h.values
  rcases hstows with ⟨hexceeds, rfl⟩ | ⟨hfew, rfl⟩
  · obtain ⟨stage, hstage, -⟩ := id hexceeds
    obtain ⟨bytes, rfl, hmany⟩ := h.many_of_exceeds hnew (.inr hexceeds)
    have hspilled : s.map.moved.hasSpilled = true := by
      rw [SpillMap.hasSpilled, SpillMap.live?, SpillMap.moved, hstage]
      rfl
    refine ⟨hkeys, hvalues, ?_, hleased, hholds, ?_, ?_, ?_⟩
    · rw [← h.stage]
      exact Option.map_map ..
    · exact fun _ _ => .inr fun other hother => short_of_empty hholds rfl hother
    · exact fun hnot => absurd hspilled (Bool.eq_false_iff.1 hnot)
    · exact fun _ other hother => Option.some.inj hother ▸ hmany
  · refine ⟨hkeys, hvalues, h.stage, hleased, hholds, h.room_of_kept hnew hkey hfew, ?_, ?_⟩
    · intro hspilled
      rw [card_concat hnew, ← h.tally hspilled]
      rfl
    · intro hspilled bytes hbytes
      exact card_concat hnew ▸ (h.many hspilled bytes hbytes).trans (Nat.lt_succ_self _)

/-- Whatever a new line makes a set move has room in the partition, if there is room for the line. -/
theorem Tracks.fits_of_room (h : Tracks l idle budget calls seen s w) (hnew : Utf8.encode text ∉ seen)
    (hmany : s.map.hasSpilled = true ∨ s.map.Exceeds 1)
    (hroom : HasRoom budget (seen ++ [Utf8.encode text])) :
    s.map.Movable ∧ SpillMap.Within s.map.keys ⟨[.string text]⟩ ∧
      SpillMap.Within s.map.values SpillSet.mark := by
  obtain ⟨bytes, hbudget, hcard⟩ := h.many_of_exceeds hnew hmany
  have hshort := hroom.short hbudget hcard
  exact ⟨h.movable fun line hline => hshort line (List.mem_append_left _ hline),
    within_line h.keys (hshort _ (List.mem_append_right seen List.mem_cons_self)),
    within_mark h.values⟩

/-- A line that is new is added. -/
theorem Tracks.ends_add (h : Tracks l idle budget calls seen s w) (hnew : Utf8.encode text ∉ seen)
    (hallowed : l.allowed (lineEntry (Utf8.encode text)))
    (hroom : 1 + 2 * (calls + 1) < UInt64.size) :
    Ends (SpillSet.add ⟨[.string text]⟩) (s, w)
      (fun _ t => Tracks l idle budget (calls + 1) (seen ++ [Utf8.encode text]) t.1 t.2)
      fun _ t => t.1.map.Leased l idle (calls + 1) t.2 ∧
        ¬ HasRoom budget (seen ++ [Utf8.encode text]) := by
  have hentry := encodeEntry_line text
  rw [← h.keys, ← h.values] at hentry
  have hnone : marked seen (lineKey (Utf8.encode text)) = none := by rw [marked_lineKey, if_neg hnew]
  have hwrites : ∀ k b, SpillMap.encodeEntry s.map.keys s.map.values ⟨[.string text]⟩ SpillSet.mark =
      .ok (k, b) → l.allowed (k, some b) := by
    intro k b hkb
    rw [hentry] at hkb
    cases hkb
    exact hallowed
  have hput := SpillMap.ends_putIn .byKey ⟨[.string text]⟩ SpillSet.mark h.holds
    (fun entry ⟨k, b, hkb, heq⟩ => heq ▸ hwrites k b hkb) hroom
  have hleased : Ends (SpillMap.put ⟨[.string text]⟩ SpillSet.mark) (s.map, w) _ _ :=
    SpillMap.ends_put_leased h.leased hwrites hroom
  refine ends_onMap (((hput.and hleased).and
    (SpillMap.ends_putIn_new .byKey h.holds hentry hnone)).mono ?_ ?_)
  · rintro _ ⟨m, w'⟩ ⟨⟨⟨k, b, hkb, hkind, hholds, -⟩, hleased'⟩, hkey, hstows⟩
    rw [hentry] at hkb
    cases hkb
    exact h.stow hnew hkind hleased' (marked_concat seen _ ▸ hholds) hkey hstows
  · rintro err ⟨m, w'⟩ ⟨⟨hint | ⟨-, hexact⟩, hleased', hstorage⟩, hmany⟩
    · obtain ⟨task, cause, rfl, -⟩ := hint
      exact absurd ⟨task, _, rfl⟩ hstorage
    · refine ⟨hleased', fun hroom' => ?_⟩
      obtain ⟨hmovable, hfits⟩ := h.fits_of_room hnew hmany hroom'
      have herr := (hexact hmovable fun _ => hfits).1
      rw [hentry] at herr
      cases herr

/-! ## The loop -/

theorem Tracks.mono {more : Nat} (h : Tracks l idle budget calls seen s w) (hm : calls ≤ more) :
    Tracks l idle budget more seen s w :=
  { h with leased := h.leased.mono hm, holds := h.holds.mono hm }

/-- A line that comes again. -/
theorem Tracks.again {line : Bytes} (h : Tracks l idle budget calls seen s w) (hline : line ∈ seen) :
    Tracks l idle budget calls (seen ++ [line]) s w where
  keys := h.keys
  values := h.values
  stage := h.stage
  leased := h.leased
  holds := (marked_concat_of_mem hline).symm ▸ h.holds
  room := hasRoom_of_subset h.room fun _ => (mem_concat_of_mem hline).1
  tally := (card_concat_of_mem hline).symm ▸ h.tally
  many := (card_concat_of_mem hline).symm ▸ h.many

/-- A line is new when it was not seen before, and then it was. -/
theorem Tracks.ends_addLine (h : Tracks l idle budget calls seen s w)
    (hallowed : l.allowed (lineEntry (Utf8.encode text)))
    (hroom : 1 + 2 * (calls + 1) < UInt64.size) :
    Ends (addLine text) (s, w)
      (fun isNew t => isNew = decide (Utf8.encode text ∉ seen) ∧
        Tracks l idle budget (calls + 1) (seen ++ [Utf8.encode text]) t.1 t.2)
      fun _ t => t.1.map.Leased l idle (calls + 1) t.2 ∧
        ¬ HasRoom budget (seen ++ [Utf8.encode text]) := by
  have hmore := h.mono (Nat.le_succ calls)
  unfold addLine
  dsimp only
  refine Ends.bind ((h.ends_contains text).imp_fail ?_) ?_
  · rintro err _ ⟨rfl, hlong⟩
    exact ⟨hmore.leased, hlong⟩
  rintro known _ ⟨rfl, rfl⟩
  by_cases hseen : Utf8.encode text ∈ seen
  · rw [if_pos (decide_eq_true hseen)]
    exact Ends.pure ⟨(decide_eq_false (not_not.2 hseen)).symm, hmore.again hseen⟩
  · rw [if_neg (by simpa using hseen)]
    refine Ends.bind (h.ends_add hseen hallowed hroom) ?_
    intro _ t ht
    exact Ends.pure ⟨(decide_eq_true hseen).symm, ht⟩

/-- The line is a text. -/
def IsText (line : Bytes) : Prop := ∃ text, Utf8.decode line = .ok text

/-- A set with this budget can count the lines: they are texts, and it has room for them. -/
structure Countable (budget : Option Nat) (lines : List Bytes) : Prop where
  texts : ∀ line ∈ lines, IsText line
  room : HasRoom budget lines

theorem Countable.of_subset {lines more : List Bytes} (h : Countable budget more)
    (hsub : ∀ line ∈ lines, line ∈ more) : Countable budget lines :=
  ⟨fun line hline => h.texts line (hsub line hline), hasRoom_of_subset h.room hsub⟩

/-- A line is found when it was not seen before. -/
theorem found_concat {found : List String}
    (h : found.reverse.map Utf8.encode = seen.eraseDups) (text : String) :
    (if decide (Utf8.encode text ∉ seen) = true then text :: found else found).reverse.map
      Utf8.encode = (seen ++ [Utf8.encode text]).eraseDups := by
  rw [eraseDups_concat, ← h]
  by_cases hseen : Utf8.encode text ∈ seen <;> simp [hseen]

/-- The lines that were counted, after which there are no more, or one with which they can not be
counted. -/
inductive Counted (budget : Option Nat) (all : List Bytes) : List Bytes → Bool → Prop
  | complete (h : Countable budget all) : Counted budget all all true
  | stopped {front rest : List Bytes} {line : Bytes} (hall : all = front ++ line :: rest)
      (h : Countable budget front) (hnot : ¬ Countable budget (front ++ [line])) :
      Counted budget all front false

/-- The loop comes to its end, or stops before the first line that is no text or for which the set has no
room. The lines that it found are those that appear first. -/
theorem Tracks.ends_collect (found : List String) {rest : List Bytes}
    (h : Tracks l idle budget calls seen s w) (htexts : ∀ line ∈ seen, IsText line)
    (hfound : found.reverse.map Utf8.encode = seen.eraseDups)
    (hallowed : ∀ line ∈ rest, l.allowed (lineEntry line))
    (hroom : 1 + 2 * (calls + rest.length) < UInt64.size) :
    Ends (collect found rest) (s, w)
      (fun r t => t.1.map.Leased l idle (calls + rest.length) t.2 ∧
        ∃ front, Counted budget (seen ++ rest) front r.2 ∧ r.1.map Utf8.encode = front.eraseDups)
      fun _ _ => False := by
  induction rest generalizing found seen s w calls with
  | nil =>
    refine Ends.pure ⟨h.leased, seen, ?_, hfound⟩
    rw [List.append_nil]
    exact .complete ⟨htexts, h.room⟩
  | cons line rest ih =>
    rw [List.length_cons] at hroom ⊢
    have hleft := (h.mono (Nat.le_add_right calls (rest.length + 1))).leased
    have hmore : calls + 1 + rest.length = calls + (rest.length + 1) := by omega
    have hstop (hnot : ¬ Countable budget (seen ++ [line])) :
        Counted budget (seen ++ line :: rest) seen false := .stopped rfl ⟨htexts, h.room⟩ hnot
    unfold collect
    cases hdecode : Utf8.decode line with
    | error fault =>
      refine Ends.pure ⟨hleft, seen, hstop fun hcountable => ?_, hfound⟩
      obtain ⟨text, htext⟩ := hcountable.texts line (List.mem_append_right seen List.mem_cons_self)
      rw [hdecode] at htext
      cases htext
    | ok text =>
      obtain ⟨hline, hothers⟩ := List.forall_mem_cons.1 hallowed
      have htexts' : ∀ other ∈ seen ++ [line], IsText other :=
        List.forall_mem_append.2 ⟨htexts, List.forall_mem_singleton.2 ⟨text, hdecode⟩⟩
      obtain rfl := Utf8.eq_encode_of_decode hdecode
      dsimp only
      refine Ends.bind (Ends.outcome (M := fun added t => match added with
        | .ok isNew => isNew = decide (Utf8.encode text ∉ seen) ∧
          Tracks l idle budget (calls + 1) (seen ++ [Utf8.encode text]) t.1 t.2
        | .error _ => t.1.map.Leased l idle (calls + 1) t.2 ∧
          ¬ HasRoom budget (seen ++ [Utf8.encode text]))
        (h.ends_addLine hline (by omega))) ?_
      rintro (err | isNew) ⟨s', w'⟩ ht
      · exact Ends.pure ⟨ht.1.mono (by omega), seen, hstop fun hcountable => ht.2 hcountable.room, hfound⟩
      · obtain ⟨rfl, htracks⟩ := ht
        have hrest := ih _ htracks htexts' (found_concat hfound text) hothers (by omega)
        rwa [hmore, List.append_assoc, List.singleton_append] at hrest

/-! ## The report -/

/-- What is printed of lines: each distinct line once, in the order in which they appear first, or their
number. -/
def printed (unique : Bool) (lines : List Bytes) : Bytes :=
  if unique then lines.eraseDups.flatMap (· ++ [10])
  else Utf8.encode (toString lines.toFinset.card) ++ [10]

/-- What is told of lines. When they can not all be counted, distinct lines are printed before the first
one with which they can not, but no number is. -/
structure Tells (unique : Bool) (budget : Option Nat) (lines : List Bytes) (report : Report) : Prop where
  complete : Countable budget lines → report = ⟨0, printed unique lines⟩
  stopped : ¬ Countable budget lines → ∃ front line rest, lines = front ++ line :: rest ∧
    Countable budget front ∧ ¬ Countable budget (front ++ [line]) ∧
    report = ⟨1, if unique then printed true front else []⟩

theorem output_unique {options : Options} {found : List String} {front : List Bytes}
    (hunique : options.printUnique = true) (h : found.map Utf8.encode = front.eraseDups)
    (complete : Bool) : options.output found complete = printed true front := by
  rw [Options.output, if_pos hunique, printed, if_pos rfl, ← h, List.flatMap_map]

theorem tells_of_counted {options : Options} {found : List String} {all front : List Bytes}
    {complete : Bool} (h : Counted budget all front complete) (hfound : found.map Utf8.encode = front.eraseDups) :
    Tells options.printUnique budget all
      ⟨if complete then 0 else 1, options.output found complete⟩ := by
  have hunique (hopt : options.printUnique = true) := output_unique hopt hfound complete
  cases h with
  | complete hcountable =>
    refine ⟨fun _ => ?_, fun hnot => absurd hcountable hnot⟩
    cases hopt : options.printUnique with
    | true => rw [hunique hopt, if_pos rfl]
    | false =>
      have hcount : found.length = all.toFinset.card := by
        rw [← length_eraseDups, ← hfound, List.length_map]
      rw [Options.output, hopt, hcount]
      rfl
  | @stopped _ rest line hall hcountable hnot =>
    have hsub : ∀ other ∈ front ++ [line], other ∈ all := by
      intro other hother
      rw [hall, List.mem_append, List.mem_cons]
      rw [List.mem_append, List.mem_singleton] at hother
      exact hother.imp_right .inl
    refine ⟨fun hyes => absurd (hyes.of_subset hsub) hnot,
      fun _ => ⟨front, line, rest, hall, hcountable, hnot, ?_⟩⟩
    cases hopt : options.printUnique with
    | true =>
      rw [hunique hopt]
      rfl
    | false =>
      rw [Options.output, hopt]
      rfl

/-- The set is given up, whether or not the input can be read and counted. -/
theorem ends_countWith {options : Options} {stdin : Bytes} {input : Bytes}
    (hinput : ∀ read, options.source stdin w.disk = some read → read = input)
    (h : Tracks l idle budget 0 [] s w) (hallowed : ∀ line ∈ lines input, l.allowed (lineEntry line))
    (hmany : 1 < l.owners) (hroom : 1 + 2 * (lines input).length < UInt64.size) :
    Ends (countWith options stdin s) w
      (fun report w' => l.Returned w' idle ∧ (options.source stdin w.disk = some input →
        Tells options.printUnique budget (lines input) report))
      fun _ _ => False := by
  unfold countWith
  refine ends_get_bind ?_
  cases hsource : options.source stdin w.disk with
  | none =>
    refine Ends.bind (SpillMap.ends_discard_leased h.leased hmany) fun _ w' hreturned => ?_
    exact Ends.pure ⟨hreturned, nofun⟩
  | some read =>
    obtain rfl := hinput read hsource
    dsimp only
    refine Ends.bind (M := fun r w' => r.2.2.map.Leased l idle (lines read).length w' ∧
      ∃ front, Counted budget (lines read) front r.2.1 ∧ r.1.map Utf8.encode = front.eraseDups)
      (Ends.zoom ?_) ?_
    · refine Ends.bind (h.ends_collect [] (fun _ hline => absurd hline List.not_mem_nil) rfl hallowed
        (by omega)) ?_
      intro ⟨found, complete⟩ t ⟨hleased, hcounted⟩
      rw [Nat.zero_add] at hleased
      exact ends_get_bind (Ends.pure ⟨hleased, hcounted⟩)
    · intro ⟨found, complete, s'⟩ w' ⟨hleased, front, hcounted, hfound⟩
      refine Ends.bind (SpillMap.ends_discard_leased hleased hmany) fun _ w'' hreturned => ?_
      exact Ends.pure ⟨hreturned, fun _ => tells_of_counted hcounted hfound⟩

end Spillway.Dedup
