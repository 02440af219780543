import Mizzle.Lib.Outcome
import Mizzle.Pack.Selection

/-!
# The selection of objects in the databases

`build_pack` on a cache miss is the same sequence of steps in `mizzle/src/backend/sql/objects.rs`
and in `mizzle/src/backend/kv/build_pack.rs`: the commits of the wants without those of the haves,
the trees of these commits, then the same for the haves, and the difference; what is not stored is
left out when the objects are fetched. The two backends differ in how they walk and read, which is
what a `Database` has to say. The options of the request are not read.
-/

namespace Mizzle.Pack

open Lib

/-- What `build_pack` asks of the backend. -/
structure Database where
  /-- `reachable_excluding`, with `usize::MAX` as the cap. -/
  reachableExcluding : List ObjectId → List ObjectId → Outcome ReachableError (List ObjectId)
  /-- The tree of a commit, if the oid is stored and its data reads as a commit. -/
  commitTree : ObjectId → Except String (Option ObjectId)
  /-- `collect_tree_oids`. -/
  collectTreeOids : Finset ObjectId → ObjectId → Outcome String (Finset ObjectId)
  /-- The kind and the data of a stored object. -/
  fetch : ObjectId → Option (ObjectType × Bytes)

/-- An object as it goes into a pack. -/
structure PackedObject where
  oid : ObjectId
  kind : ObjectType
  data : Bytes
deriving DecidableEq

namespace Database

variable (d : Database)

/-- One commit: its tree, if it has one. -/
def addCommit (set : Finset ObjectId) (commitOid : ObjectId) :
    Outcome String (Finset ObjectId) := do
  match ← d.commitTree commitOid with
  | some treeOid => d.collectTreeOids set treeOid
  | none => return set

/-- The have side: commits, trees and blobs. -/
def haveOids (haves : List ObjectId) : Outcome String (Finset ObjectId) := do
  let haveCommits ← (d.reachableExcluding haves []).mapError fun e => "have-side walk: " ++ e.message
  haveCommits.foldlM d.addCommit haveCommits.toFinset

/-- The oids that `build_pack` needs. -/
def neededOids (wants haves : List ObjectId) : Outcome String (Finset ObjectId) := do
  let wantCommits ← (d.reachableExcluding wants haves).mapError fun e => "reachable walk for build_pack: " ++ e.message
  let needed ← wantCommits.foldlM d.addCommit (wantCommits.toFinset ∪ wants.toFinset)
  if haves = [] then return needed
  let had ← d.haveOids haves
  return needed \ had

/-- The objects of the pack: those of the needed oids that are stored. -/
def selectObjects (wants haves : List ObjectId) : Outcome String (Finset ObjectId) := do
  let needed ← d.neededOids wants haves
  return needed.filter fun oid => (d.fetch oid).isSome

def fetchAll (needed : Finset ObjectId) : Finset PackedObject :=
  needed.biUnion fun oid =>
    ((d.fetch oid).map fun (kind, data) => (⟨oid, kind, data⟩ : PackedObject)).toFinset

/-- What `build_pack` puts into the pack on a cache miss. -/
def packObjects (wants haves : List ObjectId) : Outcome String (Finset PackedObject) := do
  let needed ← d.neededOids wants haves
  return d.fetchAll needed

theorem mem_fetchAll {needed : Finset ObjectId} {x : PackedObject} :
    x ∈ d.fetchAll needed ↔ x.oid ∈ needed ∧ d.fetch x.oid = some (x.kind, x.data) := by
  simp only [fetchAll, Finset.mem_biUnion, Option.mem_toFinset, Option.mem_def, Option.map_eq_some_iff]
  constructor
  · rintro ⟨oid, hoid, ⟨kind, data⟩, hfetch, rfl⟩
    exact ⟨hoid, hfetch⟩
  · rintro ⟨hoid, hfetch⟩
    exact ⟨x.oid, hoid, _, hfetch, rfl⟩

theorem packObjects_of_selected {wants haves : List ObjectId} {selected : Finset ObjectId}
    (h : d.selectObjects wants haves = Outcome.done selected) :
    ∃ pack, d.packObjects wants haves = Outcome.done pack ∧
      ∀ x, x ∈ pack ↔ x.oid ∈ selected ∧ d.fetch x.oid = some (x.kind, x.data) := by
  obtain ⟨needed, hneeded, hselected⟩ := Outcome.bind_eq_done_iff.mp h
  obtain rfl : (needed.filter fun oid => (d.fetch oid).isSome) = selected :=
    Except.ok.inj (Option.some.inj hselected)
  refine ⟨d.fetchAll needed, Outcome.bind_of_done hneeded _, fun x => ?_⟩
  rw [mem_fetchAll, Finset.mem_filter, and_assoc]
  refine and_congr_right fun _ => (and_iff_right_of_imp fun hfetch => ?_).symm
  rw [hfetch, Option.isSome_some]

/-! ### Through one tree -/

section Tree

variable {o : Objects} {items : ObjectId → Except String (List (Item ObjectId))}

theorem closedSet_insert (hclosed : o.Closed) (hitems : ∀ oid, items oid = .ok (o.items oid))
    (t : ObjectId) : ClosedSet items (insert t (o.oids.filter o.IsTree)) := by
  intro x _
  refine ⟨o.items x, hitems x, fun y hy => ?_⟩
  obtain ⟨es, hes⟩ := (hclosed.separates x y).1 hy
  exact Finset.mem_insert_of_mem (Finset.mem_filter.mpr ⟨o.mem_oids y _ hes, es, hes⟩)

theorem card_insert_trees (t : ObjectId) :
    (insert t (o.oids.filter o.IsTree)).card ≤ o.oids.card + 1 :=
  (Finset.card_insert_le _ _).trans (Nat.add_le_add_right (Finset.card_filter_le _ _) 1)

theorem listed_items (hitems : ∀ oid, items oid = .ok (o.items oid)) : listed items = o.items :=
  funext fun x => listed_ok (hitems x)

theorem collect_rootItem (hclosed : o.Closed) (hitems : ∀ oid, items oid = .ok (o.items oid))
    {fuel : Nat} (hfuel : o.oids.card + 1 < fuel) (t : ObjectId) (marks : Finset ObjectId) :
    ∃ marks', collect items fuel t marks = some (.ok marks') ∧
      Visits o.items ∅ [o.rootItem t] marks marks' := by
  by_cases htree : o.IsTree t
  · have hcard := (Finset.card_le_card (Finset.sdiff_subset : insert t (o.oids.filter o.IsTree) \ marks ⊆ _)).trans
      (card_insert_trees t)
    obtain ⟨marks', hcollect⟩ := collect_answers (closedSet_insert hclosed hitems t) (Finset.mem_insert_self _ _)
      (hcard.trans_lt hfuel)
    have hrun := collect_visits hcollect (.done marks')
    rw [listed_items hitems] at hrun
    exact ⟨marks', hcollect, by rwa [Objects.rootItem, if_pos htree]⟩
  · obtain ⟨fuel, rfl⟩ : ∃ n, fuel = n + 1 := ⟨fuel - 1, by omega⟩
    refine ⟨insert t marks, ?_, ?_⟩
    · rw [collect, hitems, Objects.items_eq_nil htree]
      split
      · rename_i hmarked
        rw [Finset.insert_eq_of_mem hmarked]
      · rfl
    · rw [Objects.rootItem, if_neg htree]
      exact .take (Finset.notMem_empty t) (.done _)

theorem walk_rootItem (hclosed : o.Closed) (hitems : ∀ oid, items oid = .ok (o.items oid))
    {fuel : Nat} (hfuel : o.oids.card + 1 < fuel) (t : ObjectId) (marks : Finset ObjectId) :
    ∃ marks', Outcome.walk items ∅ lifo fuel [.node t] marks = Outcome.done marks' ∧
      Visits o.items ∅ [o.rootItem t] marks marks' := by
  by_cases htree : o.IsTree t
  · have hnodes : ∀ x, .node x ∈ [Item.node t] → x ∈ insert t (o.oids.filter o.IsTree) := by
      intro x hx
      obtain rfl : x = t := by simpa using hx
      exact Finset.mem_insert_self _ _
    obtain ⟨marks', hwalk, hrun⟩ := Outcome.walk_done ∅ lifo_perm (closedSet_insert hclosed hitems t)
      ((card_insert_trees t).trans hfuel.le) hnodes marks
    rw [listed_items hitems] at hrun
    exact ⟨marks', hwalk, by rwa [Objects.rootItem, if_pos htree]⟩
  · obtain ⟨fuel, rfl⟩ : ∃ n, fuel = n + 1 := ⟨fuel - 1, by omega⟩
    refine ⟨insert t marks, ?_, ?_⟩
    · rw [Outcome.walk, visitItems, visitItem, visitItems]
      by_cases hmarked : t ∈ marks
      · simp [hmarked, drain, Outcome.done, Except.map]
      · simp [hmarked, drain, hitems, Objects.items_eq_nil htree, visitItems, lifo, never, Outcome.done, Except.map]
    · rw [Objects.rootItem, if_neg htree]
      exact .take (Finset.notMem_empty t) (.done _)

end Tree

/-! ### What is selected -/

/-- The database holds the store: its walks are those of the parent graph, a commit gives its tree,
`collect_tree_oids` goes through a tree, and an object is found exactly if it is stored. -/
structure Serves (p : Parser) (o : Objects) (wants haves : List ObjectId) : Prop where
  wantWalk : ∃ oids, d.reachableExcluding wants haves = Outcome.done oids ∧ ∀ c, c ∈ oids ↔ o.Fresh wants haves c
  haveWalk : ∃ oids, d.reachableExcluding haves [] = Outcome.done oids ∧ ∀ c, c ∈ oids ↔ Reach o.parents haves c
  commitTree : ∀ c, d.commitTree c = .ok (o.rootOf p c)
  collect : ∀ t marks, ∃ marks', d.collectTreeOids marks t = Outcome.done marks' ∧
    Visits o.items ∅ [o.rootItem t] marks marks'
  fetch : ∀ x, (d.fetch x).isSome ↔ o.find x ≠ none

variable {d} {p : Parser} {o : Objects} {wants haves : List ObjectId}

namespace Serves

theorem addCommits_done (h : d.Serves p o wants haves) (commits : List ObjectId)
    (marks : Finset ObjectId) :
    ∃ marks', commits.foldlM d.addCommit marks = Outcome.done marks' ∧
      Visits o.items ∅ (o.pending (o.rootOf p) commits) marks marks' := by
  have hround : ∀ c ∈ commits, ∀ marks, ∃ marks', d.addCommit marks c = Outcome.done marks' ∧
      Visits o.items ∅ (o.pending (o.rootOf p) [c]) marks marks' := by
    intro c _ marks
    have hpending : ∀ root, o.rootOf p c = root → o.pending (o.rootOf p) [c] = (root.map o.rootItem).toList := by
      rintro root rfl
      cases hroot : o.rootOf p c <;> simp [Objects.pending, hroot]
    cases hroot : o.rootOf p c with
    | none =>
      refine ⟨marks, ?_, ?_⟩
      · rw [addCommit, h.commitTree, hroot]
        rfl
      · rw [hpending none hroot]
        exact .done marks
    | some t =>
      obtain ⟨marks', hcollect, hrun⟩ := h.collect t marks
      refine ⟨marks', ?_, ?_⟩
      · rw [addCommit, h.commitTree, hroot]
        exact hcollect
      · rw [hpending (some t) hroot]
        exact hrun
  obtain ⟨marks', hloop, hrun⟩ := Outcome.foldlM_visits marks hround
  have hflat : commits.flatMap (fun c => o.pending (o.rootOf p) [c]) = o.pending (o.rootOf p) commits := by
    clear hround hloop hrun
    induction commits with
    | nil => rfl
    | cons c commits ih => rw [List.flatMap_cons, ih, ← Objects.pending_append, List.singleton_append]
  exact ⟨marks', hloop, hflat ▸ hrun⟩

theorem haveOids_done (h : d.Serves p o wants haves) (hclosed : o.Closed)
    (hhaves : ∀ c ∈ haves, o.IsCommit c) :
    ∃ had, d.haveOids haves = Outcome.done had ∧ ∀ x, x ∈ had ↔ o.Had haves x := by
  obtain ⟨commits, hwalk, hcommits⟩ := h.haveWalk
  obtain ⟨had, hloop, hrun⟩ := h.addCommits_done commits commits.toFinset
  refine ⟨had, ?_, hclosed.mem_had (Objects.findsTrees_rootOf p) hhaves hcommits hrun⟩
  rw [haveOids, Outcome.bind_of_done (Outcome.mapError_of_done hwalk _), hloop]

/-- **What `build_pack` of the databases selects** for have commits, whatever is wanted. -/
theorem selectObjects_done (h : d.Serves p o wants haves) (hclosed : o.Closed)
    (hhaves : ∀ c ∈ haves, o.IsCommit c) :
    ∃ selected, d.selectObjects wants haves = Outcome.done selected ∧ ∀ x, x ∈ selected ↔
      o.SelectedDb p wants haves x := by
  obtain ⟨commits, hwalk, hcommits⟩ := h.wantWalk
  obtain ⟨needed, hloop, hrun⟩ := h.addCommits_done commits (commits.toFinset ∪ wants.toFinset)
  obtain ⟨had, hhad, hmem⟩ := h.haveOids_done hclosed hhaves
  have hneeded : d.neededOids wants haves = Outcome.done (needed \ had) := by
    rw [neededOids, Outcome.bind_of_done (Outcome.mapError_of_done hwalk _), Outcome.bind_of_done hloop]
    split
    · rename_i hnil
      -- without haves there is nothing to take away
      have hempty : had = ∅ := Finset.eq_empty_of_forall_notMem fun x hx => by
        have hx := (hmem x).mp hx
        simp [Objects.Had, hnil] at hx
      rw [hempty, Finset.sdiff_empty]
      rfl
    · rw [Outcome.bind_of_done hhad]
      rfl
  refine ⟨(needed \ had).filter fun oid => (d.fetch oid).isSome, ?_, fun x => ?_⟩
  · rw [selectObjects, Outcome.bind_of_done hneeded]
    rfl
  · rw [Finset.mem_filter, h.fetch]
    exact hclosed.mem_selectedDb hcommits hmem hrun x

end Serves

end Database

end Mizzle.Pack
