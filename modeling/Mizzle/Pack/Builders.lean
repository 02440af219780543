import Mizzle.Pack.Holding

/-!
# The three pack builders

What `objects_for_fetch_filtered` (gitoxide) and `build_pack` on a cache miss (SQL and KV) select,
for a closed store and without a depth and a filter.

For wanted commits and without submodules all three select what the wants reach and the haves do not
(`builders_select_exactly`).
-/

namespace Mizzle.Pack

open Lib

variable {p : Parser} {o : Objects} {wants haves : List ObjectId}

theorem fetch_ends (hclosed : o.Closed) (hwants : ∀ w ∈ wants, o.find w ≠ none)
    (hhaves : ∀ c ∈ haves, o.IsCommit c) {odb : Odb} (h : odb.Stores p o) :
    Outcome.Ends (fun fuel => objectsForFetchFiltered p odb fuel wants haves none none)
      fun r => ∀ x, x ∈ r.objects ↔ o.SelectedGit wants haves x :=
  ⟨o.oids.card, fun _ hfuel => h.objectsForFetchFiltered_done hclosed hfuel hwants hhaves⟩

theorem sql_ends (hclosed : o.Closed) (hacyclic : Acyclic o.parents)
    (hhaves : ∀ c ∈ haves, o.IsCommit c) {db : Sql.Db} {repo : Int} (h : Sql.Stores p o db repo) :
    Outcome.Ends (fun fuel => (Sql.database p fuel db repo).selectObjects wants haves)
      fun selected => ∀ x, x ∈ selected ↔ o.SelectedDb p wants haves x := by
  obtain ⟨enough, hserves⟩ := h.serves hclosed hacyclic wants haves
  exact ⟨enough, fun fuel hfuel => (hserves fuel hfuel).selectObjects_done hclosed hhaves⟩

theorem kv_ends (hclosed : o.Closed) (hhaves : ∀ c ∈ haves, o.IsCommit c) {s : Kv.Store}
    {repo : UInt64} (h : Kv.Stores p o s repo) :
    Outcome.Ends (fun fuel => (Kv.database p fuel s repo).selectObjects wants haves)
      fun selected => ∀ x, x ∈ selected ↔ o.SelectedDb p wants haves x := by
  obtain ⟨enough, hserves⟩ := h.serves hclosed wants haves
  exact ⟨enough, fun fuel hfuel => (hserves fuel hfuel).selectObjects_done hclosed hhaves⟩

/-! ### Wanted commits without submodules -/

namespace Objects

theorem had_iff_reach (hno : o.NoGitlinks) {x : ObjectId} : o.Had haves x ↔ Reach o.refs haves x :=
  or_iff_left fun ⟨_, _, es, hfind, he⟩ => hno _ es hfind _ he rfl

theorem contains_iff_inTree (hno : o.NoGitlinks) {t x : ObjectId} :
    o.Contains t x ↔ o.InTree t x := by
  rw [contains_iff]
  exact or_iff_left fun ⟨_, _, es, hfind, he⟩ => hno _ es hfind _ he rfl

theorem Closed.fresh_or_below_iff (h : o.Closed) (hno : o.NoGitlinks)
    {root : ObjectId → Option ObjectId} (hroot : o.FindsTrees root)
    (hwants : ∀ w ∈ wants, o.IsCommit w) (hhaves : ∀ c ∈ haves, o.IsCommit c) {x : ObjectId} :
    (o.Fresh wants haves x ∨ ¬ o.Had haves x ∧ o.Below root wants haves x) ↔
      Reach o.refs wants x ∧ ¬ Reach o.refs haves x := by
  simp only [had_iff_reach hno, h.below_iff hroot hwants, contains_iff_inTree hno]
  constructor
  · rintro (hfresh | ⟨hnot, c, t, hc, htree, hin⟩)
    · exact ⟨reach_refs_of_parents hfresh.1, h.not_reach_of_fresh hwants hhaves hfresh⟩
    · exact ⟨(h.reach_commits_iff hwants).mpr (Or.inr ⟨c, t, hc.1, htree, hin⟩), hnot⟩
  · rintro ⟨hreach, hnot⟩
    exact (h.fresh_of_reach hwants hhaves hreach hnot).imp id fun hin => ⟨hnot, hin⟩

theorem Closed.selectedGit_iff (h : o.Closed) (hno : o.NoGitlinks)
    (hwants : ∀ w ∈ wants, o.IsCommit w) (hhaves : ∀ c ∈ haves, o.IsCommit c) {x : ObjectId} :
    o.SelectedGit wants haves x ↔ Reach o.refs wants x ∧ ¬ Reach o.refs haves x := by
  rw [SelectedGit, h.fresh_or_below_iff hno findsTrees_treeOf hwants hhaves]
  exact or_iff_right fun hx => hx.2 (hwants x hx.1)

theorem Closed.selectedDb_iff (h : o.Closed) (hno : o.NoGitlinks)
    (hwants : ∀ w ∈ wants, o.IsCommit w) (hhaves : ∀ c ∈ haves, o.IsCommit c) {x : ObjectId} :
    o.SelectedDb p wants haves x ↔ Reach o.refs wants x ∧ ¬ Reach o.refs haves x := by
  have hexact := @fresh_or_below_iff _ wants haves h hno _ (findsTrees_rootOf p) hwants hhaves x
  have hstored := fun hx : Reach o.refs wants x => h.find_ne_none_of_commits hwants hx
  rw [SelectedDb]
  rw [had_iff_reach hno] at hexact ⊢
  constructor
  · rintro ⟨-, hnot, hx | hx | hx⟩
    · exact ⟨reach_self hx, hnot⟩
    · exact hexact.mp (Or.inl hx)
    · exact hexact.mp (Or.inr ⟨hnot, hx⟩)
  · rintro ⟨hreach, hnot⟩
    exact ⟨hstored hreach, hnot, (hexact.mpr ⟨hreach, hnot⟩).elim (fun hx => Or.inr (Or.inl hx))
      fun hx => Or.inr (Or.inr hx.2)⟩

end Objects

/-- The selection is what the wants reach and the haves do not. -/
def Exact (o : Objects) (wants haves : List ObjectId) (selected : Finset ObjectId) : Prop :=
  ∀ x, x ∈ selected ↔ Reach o.refs wants x ∧ ¬ Reach o.refs haves x

/-- **The three builders select exactly what the wants reach and the haves do not**, for wanted
commits in a closed store without submodules. That commits do not reach themselves along parents,
since they are named by their content, is needed for the recursive query of the SQL backend
to end. -/
theorem builders_select_exactly (hclosed : o.Closed) (hno : o.NoGitlinks)
    (hacyclic : Acyclic o.parents) (hwants : ∀ w ∈ wants, o.IsCommit w)
    (hhaves : ∀ c ∈ haves, o.IsCommit c) :
    (∀ odb : Odb, odb.Stores p o → Outcome.Ends (fun fuel =>
      objectsForFetchFiltered p odb fuel wants haves none none)
        fun r => Exact o wants haves r.objects) ∧
      (∀ (db : Sql.Db) (repo : Int), Sql.Stores p o db repo →
        Outcome.Ends (fun fuel => (Sql.database p fuel db repo).selectObjects wants haves) (Exact o wants haves)) ∧
      ∀ (s : Kv.Store) (repo : UInt64), Kv.Stores p o s repo →
        Outcome.Ends (fun fuel => (Kv.database p fuel s repo).selectObjects wants haves) (Exact o wants haves) := by
  have hfound : ∀ w ∈ wants, o.find w ≠ none := fun w hw => (hwants w hw).find_ne_none
  refine ⟨fun odb h => ?_, fun db repo h => ?_, fun s repo h => ?_⟩
  · exact (fetch_ends hclosed hfound hhaves h).imp fun r hr x =>
      (hr x).trans (hclosed.selectedGit_iff hno hwants hhaves)
  · exact (sql_ends hclosed hacyclic hhaves h).imp fun r hr x =>
      (hr x).trans (hclosed.selectedDb_iff hno hwants hhaves)
  · exact (kv_ends hclosed hhaves h).imp fun r hr x => (hr x).trans (hclosed.selectedDb_iff hno hwants hhaves)

/-- Two commits; the tree of the second one has that of the first as a directory. -/
def linearEntries : List (ObjectId × GitObject) :=
  [(.fill 2, .commit (.fill 4) [.fill 1]), (.fill 1, .commit (.fill 3) []),
    (.fill 4, .tree [⟨.tree, .fill 3⟩, ⟨.blob, .fill 6⟩]), (.fill 3, .tree [⟨.blob, .fill 5⟩]),
    (.fill 5, .blob []), (.fill 6, .blob [1])]

def linearStore : Objects := .ofList linearEntries

def linearTables : Sql.Db :=
  Sql.ingestPack linearStore.content Sql.emptyTables 1 (linearEntries.map Prod.fst)

def linearKeys : Kv.Store := Kv.ingestPack linearStore.content ∅ 1 (linearEntries.map Prod.fst)

theorem closed_linearStore : linearStore.Closed := Objects.closed_of_closedAt (by decide +kernel)

theorem noGitlinks_linearStore : linearStore.NoGitlinks :=
  Objects.noGitlinks_of_forall (by decide +kernel)

theorem acyclic_linearStore : Acyclic linearStore.parents :=
  Objects.acyclic_of_rank (fun c => (c.bytes.headD 0).toNat) (by decide +kernel)

theorem length_parents_linearStore (c : ObjectId) : (linearStore.parents c).length ≤ 1 :=
  Objects.length_parents_le (by decide +kernel) c

theorem stores_linearTables : Sql.Stores linearStore.parser linearStore linearTables 1 :=
  Sql.stores_ingestPack (fun _ => Objects.mem_keys_ofList)
    (fun c => (length_parents_linearStore c).trans (by decide)) 1

theorem stores_linearKeys : Kv.Stores linearStore.parser linearStore linearKeys 1 :=
  Kv.stores_ingestPack (fun _ => Objects.mem_keys_ofList)
    (fun c => (length_parents_linearStore c).trans (by decide)) 1

theorem builders_select_linearStore :
    Outcome.Ends (fun fuel => objectsForFetchFiltered linearStore.parser linearStore.odb fuel
      [.fill 2] [.fill 1] none none)
        (fun r => Exact linearStore [.fill 2] [.fill 1] r.objects) ∧
      Outcome.Ends (fun fuel =>
        (Sql.database linearStore.parser fuel linearTables 1).selectObjects [.fill 2] [.fill 1])
        (Exact linearStore [.fill 2] [.fill 1]) ∧
      Outcome.Ends (fun fuel => (Kv.database linearStore.parser fuel linearKeys 1).selectObjects [.fill 2] [.fill 1])
        (Exact linearStore [.fill 2] [.fill 1]) := by
  obtain ⟨hgit, hsql, hkv⟩ := @builders_select_exactly linearStore.parser linearStore [.fill 2]
    [.fill 1] closed_linearStore noGitlinks_linearStore acyclic_linearStore (by decide +kernel)
    (by decide +kernel)
  exact ⟨hgit _ (Objects.stores_odb closed_linearStore), hsql _ _ stores_linearTables,
    hkv _ _ stores_linearKeys⟩

end Mizzle.Pack
