import Mizzle.Pack.Builders

/-!
# A store inside a larger object database

An object database may hold other objects beside those of a closed store. A fetch of wants and haves
in the store reads nothing else, so it is what it is on the database with the store alone
(`objectsForFetchFiltered_eq`).
-/

namespace Mizzle.Pack

open Lib

variable {p : Parser} {odb : Odb} {o : Objects}

/-- The database with the store alone. -/
def Odb.restrict (odb : Odb) (o : Objects) : Odb where
  tryFind oid := if (o.find oid).isSome then odb.tryFind oid else .ok none
  findTreeIter oid := if o.IsTree oid then odb.findTreeIter oid else .error "not a tree"
  hide := odb.hide
  simple := odb.simple

theorem tryFind_restrict {oid : ObjectId} (h : o.find oid ≠ none) :
    (odb.restrict o).tryFind oid = odb.tryFind oid :=
  if_pos (Option.isSome_iff_ne_none.mpr h)

theorem findTreeIter_restrict {oid : ObjectId} (h : o.IsTree oid) :
    (odb.restrict o).findTreeIter oid = odb.findTreeIter oid :=
  if_pos h

namespace Odb.Holds

theorem stores_restrict (h : odb.Holds p o) : (odb.restrict o).Stores p o where
  found hfind := by
    rw [tryFind_restrict (by simp [hfind])]
    exact h.found hfind
  absent hfind := if_neg (by simp [hfind])
  tree hfind := by
    rw [findTreeIter_restrict ⟨_, hfind⟩]
    exact h.tree hfind
  notTree hnot := ⟨_, if_neg hnot⟩
  hide := h.hide
  simple := h.simple

theorem nodes_shown (h : odb.Holds p o) (hclosed : o.Closed) {t : ObjectId} (ht : o.IsTree t)
    {is : List (Item ObjectId)} (his : (odb.findTreeIter t).map (shown false) = .ok is)
    {y : ObjectId} (hy : .node y ∈ is) : o.IsTree y := by
  obtain ⟨es, hes⟩ := ht
  rw [h.tree hes] at his
  obtain rfl := Except.ok.inj his
  refine (hclosed.separates t y).1 ?_
  simpa [Objects.items, hes, GitObject.entries, shown] using hy

theorem addCommit_eq (h : odb.Holds p o) (hclosed : o.Closed) (side : String)
    (known : Finset ObjectId) (fuel : Nat) (objects : Finset ObjectId) {c : ObjectId}
    (hc : o.IsCommit c) :
    addCommit p odb side false known fuel objects c =
      addCommit p (odb.restrict o) side false known fuel objects c := by
  obtain ⟨t, ps, hfind⟩ := hc
  obtain ⟨es, hes⟩ := hclosed.root hfind
  have htreeId : treeIdOf p odb side c = treeIdOf p (odb.restrict o) side c := by
    rw [treeIdOf, treeIdOf, tryFind_restrict (by simp [hfind])]
  have hroot : rootEntries p odb side t = rootEntries p (odb.restrict o) side t := by
    rw [rootEntries, rootEntries, tryFind_restrict (by simp [hes])]
  have hwalk : ∀ marks, breadthfirst odb false known fuel es marks =
      breadthfirst (odb.restrict o) false known fuel es marks := by
    intro marks
    have hnodes : ∀ y, .node y ∈ shown false es → o.IsTree y := fun y hy =>
      h.nodes_shown hclosed ⟨es, hes⟩ (by rw [h.tree hes]; rfl) hy
    rw [breadthfirst, breadthfirst, Outcome.walk, Outcome.walk]
    congr 1
    exact drain_congr fifo_perm (fun x hx => by
      rw [findTreeIter_restrict hx]) (fun x is hx his y hy => h.nodes_shown hclosed hx his hy)
      fuel _ _ fun y hy => hnodes y (node_of_mem_visitItems hy)
  rw [addCommit, addCommit, htreeId, h.stores_restrict.treeIdOf_eq side ⟨ps, hfind⟩]
  by_cases hseen : t ∈ insert c objects ∨ t ∈ known
  · exact (if_pos hseen).trans (if_pos hseen).symm
  · refine (if_neg hseen).trans (Eq.trans ?_ (if_neg hseen).symm)
    rw [hroot, h.stores_restrict.rootEntries_eq side hes]
    exact congrArg (Outcome.mapError _) (hwalk _)

theorem addCommits_eq (h : odb.Holds p o) (hclosed : o.Closed) (side : String)
    (known : Finset ObjectId) (fuel : Nat) (objects : Finset ObjectId) {commits : List ObjectId}
    (hcommits : ∀ c ∈ commits, o.IsCommit c) :
    commits.foldlM (addCommit p odb side false known fuel) objects =
      commits.foldlM (addCommit p (odb.restrict o) side false known fuel) objects :=
  Outcome.foldlM_congr
    (fun c hc objects => h.addCommit_eq hclosed side known fuel objects (hcommits c hc)) objects

theorem isCommit_of_simple (h : odb.Holds p o) (hclosed : o.Closed)
    {tips hidden ids : List ObjectId} (htips : ∀ c ∈ tips, o.IsCommit c)
    (hhidden : ∀ c ∈ hidden, o.IsCommit c) (hids : odb.simple tips hidden = .ok ids) :
    ∀ c ∈ ids, o.IsCommit c := by
  obtain ⟨ids', hids', -, hmem⟩ := h.simple htips hhidden
  obtain rfl := Except.ok.inj (hids.symm.trans hids')
  exact fun c hc => hclosed.isCommit_of_reach htips ((hmem c).mp hc).1

theorem buildHaveSet_eq (h : odb.Holds p o) (hclosed : o.Closed) (fuel : Nat)
    {haves : List ObjectId} (hhaves : ∀ c ∈ haves, o.IsCommit c) :
    buildHaveSet p odb fuel haves = buildHaveSet p (odb.restrict o) fuel haves := by
  obtain ⟨ids, hids, -⟩ := h.simple hhaves (fun c hc => absurd hc List.not_mem_nil)
  have hcommits := h.isCommit_of_simple hclosed hhaves (fun c hc => absurd hc List.not_mem_nil) hids
  rw [buildHaveSet, buildHaveSet, show (odb.restrict o).simple = odb.simple from rfl, hids]
  exact h.addCommits_eq hclosed "have " ∅ fuel ∅ hcommits

/-- **A fetch from the store reads the store only.** -/
theorem objectsForFetchFiltered_eq (h : odb.Holds p o) (hclosed : o.Closed) (fuel : Nat)
    {wants haves : List ObjectId} (hwants : ∀ w ∈ wants, o.IsCommit w)
    (hhaves : ∀ c ∈ haves, o.IsCommit c) :
    objectsForFetchFiltered p odb fuel wants haves none none =
      objectsForFetchFiltered p (odb.restrict o) fuel wants haves none none := by
  have hkind : ∀ w ∈ wants, isCommitWant odb w = isCommitWant (odb.restrict o) w := fun w hw => by
    obtain ⟨t, ps, hfind⟩ := hwants w hw
    rw [isCommitWant, isCommitWant, tryFind_restrict (by simp [hfind])]
  have hdirect : wants.filter (fun id => !isCommitWant odb id) = wants.filter fun id =>
      !isCommitWant (odb.restrict o) id :=
    List.filter_congr fun w hw => by rw [hkind w hw]
  have htips : wants.filter (isCommitWant odb) = wants.filter (isCommitWant (odb.restrict o)) :=
    List.filter_congr hkind
  rw [objectsForFetchFiltered, objectsForFetchFiltered, h.buildHaveSet_eq hclosed fuel hhaves]
  refine bind_congr fun haveSet => ?_
  rw [objectsForFetchWithHaveSet, objectsForFetchWithHaveSet, objectsForFetchAs, objectsForFetchAs, hdirect, htips]
  have hcommit : ∀ w ∈ wants.filter (isCommitWant (odb.restrict o)), o.IsCommit w :=
    fun w hw => hwants w (List.mem_filter.mp hw).1
  obtain ⟨commits, hwalk, hfresh⟩ := h.stores_restrict.wantCommits_done fuel hcommit hhaves
  have hwalk' : wantCommits p odb fuel (wants.filter (isCommitWant (odb.restrict o))) haves none =
    Outcome.done (commits, []) := hwalk
  rw [Outcome.bind_of_done hwalk, Outcome.bind_of_done hwalk']
  exact congrArg (· >>= _) (h.addCommits_eq hclosed "" haveSet fuel _ fun c hc =>
    hclosed.isCommit_of_reach hcommit ((hfresh c).mp hc).1)

end Odb.Holds

end Mizzle.Pack
