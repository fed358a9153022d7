import Spillway.Proofs.Store.Changes

/-!
# Opening a store

A store that is opened has the tables that are found in its directory, in the order of their
numbers (`ends_load`).
-/

namespace Spillway.Store

open Table

variable {d d' : Disk} {dir : Path} {place : Location} {files : List Layer}

/-- The tables in a directory, which may be missing, are those that show the layers. -/
structure Found (d : Disk) (dir : Path) (files : List Layer) : Prop where
  stored : ∀ layer ∈ files, Stored d (Disk.target dir) layer
  distinct : (files.map Prod.fst).Nodup
  known : ∀ name id node, tableId? name = some id →
    d.node? (Disk.target dir ++ [name]) = some node → ∃ layer ∈ files, name = tableName layer.1
  tidy : d.TidyAt (Disk.target dir)
  /-- Making the directory makes no name of a table. -/
  way : ∀ name id, tableId? name = some id → Disk.target dir ++ [name] ∈ Disk.trail [] dir.parts →
    d.node? (Disk.target dir ++ [name]) ≠ none

/-- A directory in which nothing is has no tables. -/
theorem found_of_vacant (hvacant : ∀ x ∈ d.nodes, ¬ Disk.target dir <+: x.1)
    (houtside : ∀ p ∈ Disk.trail [] dir.parts, Disk.target dir <+: p → p = Disk.target dir) :
    Found d dir [] := by
  have hnone : ∀ name node, (Disk.target dir ++ [name], node) ∉ d.nodes :=
    fun name node hmem => hvacant _ hmem (List.prefix_append _ _)
  refine ⟨fun _ h => absurd h List.not_mem_nil, List.nodup_nil, fun name id node _ hnode => ?_, ?_,
    fun name id _ hmem => ?_⟩
  · exact absurd (Disk.mem_of_node? (List.concat_ne_nil _ _) hnode) (hnone name node)
  · have hchildren : d.childrenAt (Disk.target dir) = [] :=
      List.eq_nil_iff_forall_not_mem.2 fun child hmem =>
        hnone child.1 child.2 (Disk.mem_childrenAt.1 hmem)
    unfold Disk.TidyAt
    rw [hchildren]
    exact List.nodup_nil
  · have hlength := congrArg List.length (houtside _ hmem (List.prefix_append _ _))
    rw [List.length_append, List.length_cons, List.length_nil] at hlength
    omega

/-- Making the directory changes none of its tables. -/
theorem Found.built (h : Found d dir files) (hb : Disk.Built d d' (Disk.trail [] dir.parts)) :
    Found d' dir files := by
  have hsame : ∀ name id, tableId? name = some id →
      d'.node? (Disk.target dir ++ [name]) = d.node? (Disk.target dir ++ [name]) :=
    fun name id hname => hb.frame.node _ fun htouched => h.way name id hname htouched.1 htouched.2
  refine ⟨fun layer hmem => ?_, h.distinct, fun name id node hname hnode => ?_, hb.tidy _ h.tidy,
    fun name id hname hmem => ?_⟩
  · refine (h.stored layer hmem).frame hb.frame fun htouched => ?_
    exact h.way _ _ (tableId?_tableName layer.1) htouched.1 htouched.2
  · rw [hsame name id hname] at hnode
    exact h.known name id node hname hnode
  · rw [hsame name id hname]
    exact h.way name id hname hmem

theorem Shows.of_frame {table : Reader} {layer : Layer} (h : Shows d' dir place table layer)
    (hs : Stored d place layer) (hf : Disk.Frame d d' fun _ => False) :
    Shows d dir place table layer := by
  obtain ⟨file, hnode, hfile, hisFile⟩ := hs
  have hsame := h.node
  rw [hf.node _ id, hnode, Option.some.injEq, Node.file.injEq] at hsame
  subst hsame
  have houtline := h.outline
  rw [hf.content hfile] at houtline
  exact ⟨h.path, hnode, hfile, hisFile, houtline⟩

/-- A name in the directory that spells a number is the name of a table. -/
theorem Found.name (h : Found d dir files) {name : String} {node : Node} {id : UInt64}
    (hmem : (name, node) ∈ d.childrenAt (Disk.target dir)) (hid : tableId? name = some id) :
    name = tableName id ∧ id ∈ files.map Prod.fst := by
  obtain ⟨found, hfound⟩ :=
    Option.ne_none_iff_exists'.1 (Disk.node?_ne_none (Disk.mem_childrenAt.1 hmem))
  obtain ⟨layer, hlayer, rfl⟩ := h.known name id found hid hfound
  rw [tableId?_tableName] at hid
  rw [← Option.some.inj hid]
  exact ⟨rfl, List.mem_map_of_mem hlayer⟩

theorem insertId_perm (id : UInt64) (ids : List UInt64) : (insertId id ids).Perm (id :: ids) := by
  induction ids with
  | nil => exact .refl _
  | cons other rest ih =>
    rw [insertId]
    split
    · exact .refl _
    · exact (ih.cons other).trans (.swap id other rest)

theorem foldr_insertId_perm (ids : List UInt64) : (ids.foldr insertId []).Perm ids := by
  induction ids with
  | nil => exact .refl _
  | cons id ids ih => exact (insertId_perm id _).trans (ih.cons id)

theorem pairwise_insertId {id : UInt64} {ids : List UInt64} (h : ids.Pairwise fun a b => b ≤ a) :
    (insertId id ids).Pairwise fun a b => b ≤ a := by
  induction ids with
  | nil => exact List.pairwise_singleton _ _
  | cons other rest ih =>
    rw [insertId]
    split
    · next hle =>
      refine List.pairwise_cons.2 ⟨List.forall_mem_cons.2 ⟨hle, fun x hx => ?_⟩, h⟩
      exact UInt64.le_trans ((List.pairwise_cons.1 h).1 x hx) hle
    · next hlt =>
      refine List.pairwise_cons.2 ⟨fun x hx => ?_, ih (List.pairwise_cons.1 h).2⟩
      rcases List.mem_cons.1 ((insertId_perm id rest).mem_iff.1 hx) with rfl | hx
      · exact (UInt64.le_total other x).resolve_left hlt
      · exact (List.pairwise_cons.1 h).1 x hx

theorem pairwise_foldr_insertId (ids : List UInt64) :
    (ids.foldr insertId []).Pairwise fun a b => b ≤ a := by
  induction ids with
  | nil => exact .nil
  | cons id ids ih => exact pairwise_insertId ih

/-- The numbers that are found are those of the layers. -/
theorem tableIds_perm (h : Found d dir files) :
    (tableIds (d.childrenAt (Disk.target dir))).Perm (files.map Prod.fst) := by
  unfold tableIds
  refine (foldr_insertId_perm _).trans ((List.perm_ext_iff_of_nodup ?_ h.distinct).2 fun id => ?_)
  · -- different names spell different numbers
    refine List.pairwise_filterMap.2 ((List.pairwise_map.1 h.tidy).imp_of_mem ?_)
    rintro ⟨name, node⟩ ⟨name', node'⟩ hmem hmem' hne id hid id' hid' rfl
    cases node with
    | directory => cases hid
    | file file =>
      cases node' with
      | directory => cases hid'
      | file file' => exact hne ((h.name hmem hid).1.trans (h.name hmem' hid').1.symm)
  · rw [List.mem_filterMap]
    constructor
    · rintro ⟨⟨name, node⟩, hmem, hid⟩
      cases node with
      | directory => cases hid
      | file file => exact (h.name hmem hid).2
    · intro hid
      obtain ⟨layer, hlayer, rfl⟩ := List.mem_map.1 hid
      obtain ⟨file, hnode, -⟩ := h.stored layer hlayer
      exact ⟨_, Disk.mem_childrenAt_of_node? hnode, tableId?_tableName layer.1⟩

/-- Layers in the order of their numbers, the largest first. -/
def byNumber (files : List Layer) : List Layer := files.mergeSort fun a b => decide (b.1 ≤ a.1)

theorem byNumber_perm (files : List Layer) : (byNumber files).Perm files := List.mergeSort_perm _ _

theorem pairwise_byNumber (files : List Layer) :
    (byNumber files).Pairwise fun a b => b.1 ≤ a.1 := by
  refine (List.pairwise_mergeSort (fun a b c => ?_) (fun a b => ?_) files).imp of_decide_eq_true
  · rw [decide_eq_true_iff, decide_eq_true_iff, decide_eq_true_iff]
    exact fun hab hbc => UInt64.le_trans hbc hab
  · rw [Bool.or_eq_true, decide_eq_true_iff, decide_eq_true_iff]
    exact UInt64.le_total b.1 a.1

theorem tableIds_eq (h : Found d dir files) :
    tableIds (d.childrenAt (Disk.target dir)) = (byNumber files).map Prod.fst := by
  have hids : (tableIds (d.childrenAt (Disk.target dir))).Pairwise fun a b : UInt64 => b ≤ a :=
    pairwise_foldr_insertId _
  have hlayers : ((byNumber files).map Prod.fst).Pairwise fun a b : UInt64 => b ≤ a :=
    List.pairwise_map.2 (pairwise_byNumber files)
  exact List.Perm.eq_of_pairwise (fun _ _ _ _ hab hba => UInt64.le_antisymm hba hab) hids hlayers
    ((tableIds_perm h).trans ((byNumber_perm files).map _).symm)

/-- Of numbers that fall none is larger than the first, so the number behind that is free. -/
theorem lt_next {ids : List UInt64} (horder : ids.Pairwise fun a b => b ≤ a)
    (hroom : ∀ id ∈ ids, id.toNat + 1 < UInt64.size) :
    ∀ id ∈ ids, id < ids.head?.elim 1 (· + 1) := by
  cases ids with
  | nil => exact fun _ h => absurd h List.not_mem_nil
  | cons first rest =>
    have hlt : ∀ id, id ≤ first → id < first + 1 :=
      fun id hid => (lt_add_one (hroom first List.mem_cons_self)).2 hid
    exact List.forall_mem_cons.2 ⟨hlt _ (UInt64.le_refl _), fun id hid =>
      hlt _ ((List.pairwise_cons.1 horder).1 id hid)⟩

theorem lt_nextId (hroom : ∀ layer ∈ files, layer.1.toNat + 1 < UInt64.size) :
    ∀ layer ∈ byNumber files, layer.1 < ((byNumber files).map Prod.fst).head?.elim 1 (· + 1) := by
  intro layer hlayer
  refine lt_next (List.pairwise_map.2 (pairwise_byNumber files)) (fun id hid => ?_) layer.1
    (List.mem_map_of_mem hlayer)
  obtain ⟨other, hother, rfl⟩ := List.mem_map.1 hid
  exact hroom other ((byNumber_perm files).mem_iff.1 hother)

/-- All tables of a directory are opened. -/
theorem ends_loads {layers : List Layer} (ho : d.Opens dir place)
    (hs : ∀ layer ∈ layers, Stored d place layer) :
    Ends ((layers.map Prod.fst).mapM fun id => Reader.load (tablePath dir id)) d
      (fun tables d' => List.Forall₂ (Shows d' dir place) tables layers ∧
        Disk.Frame d d' fun _ => False)
      fun e _ => Faulted d e := by
  have hitems : List.Forall₂ (fun id (layer : Layer) => id = layer.1 ∧ layer ∈ layers)
      (layers.map Prod.fst) layers := by
    rw [List.forall₂_map_left_iff, List.forall₂_same]
    exact fun layer hmem => ⟨rfl, hmem⟩
  have hrun : Ends ((layers.map Prod.fst).mapM fun id => Reader.load (tablePath dir id)) d
      (fun tables d' => List.Forall₂ (Shows d dir place) tables layers ∧
        Disk.Frame d d' fun _ => False)
      fun e _ => Faulted d e := by
    refine Ends.mapM hitems ?_ (Disk.frame_refl d)
    rintro _ layer ⟨rfl, hmem⟩ d₁ hframe
    refine (ends_load_stored ((hs layer hmem).frame hframe id) (hframe.opens ho)).mono ?_
      fun e _ he => he.2.mono hframe.toLater
    rintro table _ ⟨hshows, rfl⟩
    exact ⟨hshows.of_frame (hs layer hmem) hframe, hframe.trans (Disk.frame_tick d₁)⟩
  exact hrun.imp fun tables d' h => ⟨shows_frame h.1 h.2 fun _ _ => id, h.2⟩

/-- A store looks for the tables whose numbers it finds in the directory that was made for it. -/
theorem ends_load_of {M : Disk → Prop} {interval : Nat} {post : Store → Disk → Prop}
    {fail : StorageError → Disk → Prop}
    (hmade : Ends (Disk.createDirectory dir).storage d (fun _ d₁ => M d₁) fail)
    (hopens : ∀ d₁, M d₁ → d₁.Opens dir place)
    (hload : ∀ d₁ ids, M d₁ → tableIds (d₁.childrenAt place) = ids →
      Ends (ids.mapM fun id => Reader.load (tablePath dir id)) d₁
        (fun tables d' =>
          post { dir, tables, nextId := ids.head?.elim 1 (· + 1), interval := max interval 1 } d')
        fail) :
    Ends (load dir interval) d post fail := by
  unfold load
  refine Ends.bind hmade fun _ d₁ hd₁ => ends_get_bind ?_
  rw [(hopens d₁ hd₁).children]
  refine Ends.bind (M := fun children d' => children = d₁.childrenAt place ∧ d' = d₁)
    (Ends.pure ⟨rfl, rfl⟩) ?_
  rintro _ _ ⟨rfl, rfl⟩
  exact Ends.bind (hload _ _ hd₁ rfl) fun _ _ hpost => Ends.pure hpost

/-- A store is opened with the tables of its directory, unless a file is in the way. -/
theorem ends_load (h : Found d dir files)
    (hroom : ∀ layer ∈ files, layer.1.toNat + 1 < UInt64.size) (interval : Nat) :
    Ends (load dir interval) d
      (fun s d' => s.dir = dir ∧ s.nextId = ((byNumber files).map Prod.fst).head?.elim 1 (· + 1) ∧
        s.Holds d' (Disk.target dir) (byNumber files) [] ∧ Disk.Later d d')
      fun e _ => Hindered d dir e := by
  refine ends_load_of (Ends.adaptExcept ((Disk.ends_createDirectory dir).imp_fail
    fun e _ he => ⟨e, rfl, he.imp_right And.right⟩)) (fun _ hd₁ => hd₁.2) ?_
  rintro d₁ _ ⟨hbuilt, hopens⟩ rfl
  have hlater : Disk.Later d d₁ := (Disk.frame_tick d).toLater.trans hbuilt.toLater
  have hfound : Found d₁ dir files :=
    Found.built (d := d.tick) ⟨h.stored, h.distinct, h.known, h.tidy, h.way⟩ hbuilt
  have hmem : ∀ layer, layer ∈ byNumber files ↔ layer ∈ files :=
    fun layer => (byNumber_perm files).mem_iff
  rw [tableIds_eq hfound]
  refine (ends_loads hopens fun layer hl => hfound.stored layer ((hmem layer).1 hl)).mono ?_ ?_
  · rintro tables d₂ ⟨hshows, hframe⟩
    refine ⟨rfl, rfl, ⟨hframe.opens hopens, hshows, fun _ hl => absurd hl List.not_mem_nil,
      ?_, ?_, ?_⟩, hlater.trans hframe.toLater⟩
    · rw [List.append_nil]
      exact ((byNumber_perm files).map Prod.fst).nodup_iff.2 h.distinct
    · rw [List.append_nil]
      exact lt_nextId hroom
    · intro name id node hname hnode
      rw [hframe.node _ fun h => h] at hnode
      obtain ⟨layer, hlayer, heq⟩ := hfound.known name id node hname hnode
      exact ⟨layer, List.mem_append_left _ ((hmem layer).2 hlayer), heq⟩
  · intro e _ he
    obtain ⟨cause, rfl, hcause⟩ := he.mono hlater
    exact ⟨cause, rfl, .inr hcause⟩

end Spillway.Store
