import Mizzle.Lib.Outcome
import Mizzle.Pack.Selection

/-!
# The selection of objects in gitoxide

`mizzle/src/pack.rs`: `objects_for_fetch_filtered` builds the set of what the haves have and then
selects what the wants need beyond it. The object database is a parameter, with the commit walk of
gitoxide (`gix::traverse::commit::Simple`) and the lookup of a tree; the tree walk
(`gix::traverse::tree::breadthfirst`) is the work list of `Mizzle.Lib.Visit`, which visits every
entry of a tree and goes into the trees that the visitor lets it. `HaveVisitor` is the visitor that
knows nothing beforehand, `WantVisitor` the one that knows the have set.

A `HashSet` is a `Finset`: the order in which it is turned into a `Vec` is left open.
-/

namespace Mizzle.Pack

open Lib

/-- `mizzle_proto::pack::Filter`. -/
inductive Filter where
  | blobNone
  | treeNone
deriving DecidableEq

/-- `PackOptions`. -/
structure PackOptions where
  deepen : Option UInt32 := none
  filter : Option Filter := none
  thinPack : Bool := false
deriving DecidableEq

/-- The object database and what gitoxide does on it. -/
structure Odb where
  /-- `Find::try_find`: the kind and the data. -/
  tryFind : ObjectId → Except String (Option (ObjectType × Bytes))
  /-- `FindExt::find_tree_iter`, to the end of the tree. -/
  findTreeIter : ObjectId → Except String (List TreeEntry)
  /-- `Simple::hide`: the tips and the hidden tips. -/
  hide : List ObjectId → List ObjectId → Except String Unit
  /-- The ids that the `Simple` walk from the tips yields, the hidden ones left out. -/
  simple : List ObjectId → List ObjectId → Except String (List ObjectId)

/-- The `objects` are a `Vec` in the source; mostly the set of them is all that matters. -/
structure PackObjects (Objs : Type := Finset ObjectId) where
  objects : Objs
  haveSet : Finset ObjectId
  shallow : List ObjectId

variable (p : Parser) (odb : Odb)

/-! ### Trees -/

/-- What a visitor is shown of a tree: `visit_nontree` does nothing if blobs are skipped. -/
def shown (skipBlobs : Bool) (entries : List TreeEntry) : List (Item ObjectId) :=
  if skipBlobs then (entries.filter fun e => e.mode = .tree).map TreeEntry.item else entries.map TreeEntry.item

/-- `breadthfirst` from the entries of a root tree. -/
def breadthfirst (skipBlobs : Bool) (known : Finset ObjectId) (fuel : Nat) (root : List TreeEntry)
    (marks : Finset ObjectId) : Outcome String (Finset ObjectId) :=
  Outcome.walk (fun oid => (odb.findTreeIter oid).map (shown skipBlobs)) known fifo fuel (shown skipBlobs root) marks

/-- The tree of a commit. The messages of the have side have the word `have` in them. -/
def treeIdOf (side : String) (commitId : ObjectId) : Except String ObjectId :=
  match odb.tryFind commitId with
  | .error e => .error ("find " ++ side ++ "commit " ++ commitId.toHexString ++ ": " ++ e)
  | .ok none => .error (side ++ "commit " ++ commitId.toHexString ++ " not found")
  | .ok (some (_, data)) => (p.treeId data).mapError ("read tree id from " ++ side ++ "commit: " ++ ·)

/-- The entries of a root tree; an entry that does not parse ends the walk. -/
def rootEntries (side : String) (treeId : ObjectId) : Except String (List TreeEntry) :=
  match odb.tryFind treeId with
  | .error e => .error ("find " ++ side ++ "tree " ++ treeId.toHexString ++ ": " ++ e)
  | .ok none => .error (side ++ "tree " ++ treeId.toHexString ++ " not found")
  | .ok (some (_, data)) => (p.treeEntries data).mapError (side ++ "tree walk: " ++ ·)

/-- One round of the loop over commits, the same on both sides: the commit, then its tree if it is
new. -/
def addCommit (side : String) (skipBlobs : Bool) (known : Finset ObjectId) (fuel : Nat)
    (objects : Finset ObjectId) (commitId : ObjectId) : Outcome String (Finset ObjectId) := do
  let treeId ← treeIdOf p odb side commitId
  if treeId ∈ insert commitId objects ∨ treeId ∈ known then return insert commitId objects
  let root ← rootEntries p odb side treeId
  (breadthfirst odb skipBlobs known fuel root (insert treeId (insert commitId objects))).mapError
    (side ++ "tree walk: " ++ ·)

/-! ### Commits -/

/-- `build_have_set`. -/
def buildHaveSet (fuel : Nat) (haves : List ObjectId) : Outcome String (Finset ObjectId) := do
  let haveCommits ← (odb.simple haves []).mapError ("have commit traversal: " ++ ·)
  haveCommits.foldlM (addCommit p odb "have " false ∅ fuel) ∅

/-- The parents of a commit in `depth_limited_commits`. -/
def parentsOf (commitId : ObjectId) : Except String (List ObjectId) :=
  match odb.tryFind commitId with
  | .error e => .error ("find commit " ++ commitId.toHexString ++ ": " ++ e)
  | .ok none => .error ("commit " ++ commitId.toHexString ++ " not found")
  | .ok (some (_, data)) => .ok (p.parentIds data)

/-- The loop of `depth_limited_commits`: the queue with depths, the visited commits, the result and
the boundary. -/
def depthLoop (haves : List ObjectId) (depth : Nat) :
    Nat → List (ObjectId × Nat) → Finset ObjectId → List ObjectId → List ObjectId →
      Outcome String (List ObjectId × List ObjectId)
  | _, [], _, result, shallow => Outcome.done (result, shallow)
  | 0, _ :: _, _, _, _ => none
  | fuel + 1, (commitId, current) :: queue, visited, result, shallow =>
    if commitId ∈ haves then depthLoop haves depth fuel queue visited result shallow
    else do
      let parents ← parentsOf p odb commitId
      if depth ≤ current then
        depthLoop haves depth fuel queue visited (result ++ [commitId])
          (if parents = [] then shallow else shallow ++ [commitId])
      else
        let new := visitItems ∅ (parents.map .node) visited
        depthLoop haves depth fuel (queue ++ new.2.map (·, current + 1)) new.1 (result ++ [commitId]) shallow

/-- `depth_limited_commits`: the commits and the boundary. -/
def depthLimitedCommits (fuel : Nat) (wants haves : List ObjectId) (depth : Nat) :
    Outcome String (List ObjectId × List ObjectId) :=
  let tips := visitItems ∅ (wants.map .node) ∅
  depthLoop p odb haves depth fuel (tips.2.map (·, 1)) tips.1 [] []

/-- A want goes through the commit walk if it is a commit, or if the lookup fails: the walk then
reports the error. -/
def isCommitWant (id : ObjectId) : Bool :=
  match odb.tryFind id with
  | .ok (some (kind, _)) => kind = .commit
  | _ => true

/-- The commits of the want side, and the boundary of a shallow clone. -/
def wantCommits (fuel : Nat) (commitWants haves : List ObjectId) (deepen : Option Nat) :
    Outcome String (List ObjectId × List ObjectId) :=
  match deepen with
  | some depth => depthLimitedCommits p odb fuel commitWants haves depth
  | none =>
    if commitWants = [] then Outcome.done ([], [])
    else do
      odb.hide commitWants haves
      let commits ← (odb.simple commitWants haves).mapError ("commit traversal: " ++ ·)
      return (commits, [])

/-- `objects_for_fetch_with_have_set`, given how a list is extended with a set, and how a set is
listed. -/
def objectsForFetchAs {Objs : Type} (extend : List ObjectId → Finset ObjectId → Objs)
    (collect : Finset ObjectId → Objs) (fuel : Nat) (wants haves : List ObjectId)
    (deepen : Option Nat) (filter : Option Filter) (haveSet : Finset ObjectId) :
    Outcome String (PackObjects Objs) := do
  let directObjects := (wants.filter fun id => !isCommitWant odb id).toFinset
  let (commits, shallow) ← wantCommits p odb fuel (wants.filter (isCommitWant odb)) haves deepen
  if filter = some .treeNone then return ⟨extend commits directObjects, haveSet, shallow⟩
  let objects ← commits.foldlM (addCommit p odb "" (filter = some .blobNone) haveSet fuel) directObjects
  return ⟨collect objects, haveSet, shallow⟩

/-- `objects_for_fetch_with_have_set`, with the set of the objects. -/
def objectsForFetchWithHaveSet (fuel : Nat) (wants haves : List ObjectId) (deepen : Option Nat)
    (filter : Option Filter) (haveSet : Finset ObjectId) : Outcome String PackObjects :=
  objectsForFetchAs p odb (fun commits direct => commits.toFinset ∪ direct) id fuel wants haves deepen filter haveSet

/-- `objects_for_fetch_filtered`. -/
def objectsForFetchFiltered (fuel : Nat) (wants haves : List ObjectId) (deepen : Option Nat)
    (filter : Option Filter) : Outcome String PackObjects := do
  let haveSet ← buildHaveSet p odb fuel haves
  objectsForFetchWithHaveSet p odb fuel wants haves deepen filter haveSet

/-! ### What is selected -/

/-- The database holds at least the store, and the walks of gitoxide do what they are documented to
do on it: a tree is found with its entries, and the commit walk yields each commit that the tips
reach and the hidden tips do not, once. -/
structure Odb.Holds (o : Objects) : Prop where
  found : ∀ {oid obj}, o.find oid = some obj →
    ∃ kind data, odb.tryFind oid = .ok (some (kind, data)) ∧ p.Reads obj kind data
  tree : ∀ {oid es}, o.find oid = some (.tree es) → odb.findTreeIter oid = .ok es
  hide : ∀ {tips hidden}, (∀ c ∈ tips, o.IsCommit c) → (∀ c ∈ hidden, o.IsCommit c) →
    odb.hide tips hidden = .ok ()
  simple : ∀ {tips hidden}, (∀ c ∈ tips, o.IsCommit c) → (∀ c ∈ hidden, o.IsCommit c) →
    ∃ ids, odb.simple tips hidden = .ok ids ∧ ids.Nodup ∧
      ∀ c, c ∈ ids ↔ Reach o.parents tips c ∧ ¬ Reach o.parents hidden c

/-- The database holds the store and nothing else. -/
structure Odb.Stores (o : Objects) : Prop extends Odb.Holds p odb o where
  absent : ∀ {oid}, o.find oid = none → odb.tryFind oid = .ok none
  notTree : ∀ {oid}, ¬ o.IsTree oid → ∃ e, odb.findTreeIter oid = .error e

variable {p odb} {o : Objects}

/-- What a visitor is shown of a stored tree. -/
def Objects.shownItems (o : Objects) (skipBlobs : Bool) (oid : ObjectId) : List (Item ObjectId) :=
  shown skipBlobs (((o.find oid).map GitObject.entries).getD [])

theorem mem_shown {skipBlobs : Bool} {es : List TreeEntry} {i : Item ObjectId} :
    i ∈ shown skipBlobs es ↔ i ∈ es.map TreeEntry.item ∧ (skipBlobs = true → ∃ x, i = .node x) := by
  cases skipBlobs with
  | false => simp [shown]
  | true =>
    simp only [shown, ↓reduceIte, List.mem_map, List.mem_filter, decide_eq_true_eq, forall_const]
    constructor
    · rintro ⟨e, ⟨he, hmode⟩, rfl⟩
      exact ⟨⟨e, he, rfl⟩, e.oid, if_pos hmode⟩
    · rintro ⟨⟨e, he, rfl⟩, x, hx⟩
      refine ⟨e, ⟨he, ?_⟩, rfl⟩
      by_contra hmode
      rw [TreeEntry.item, if_neg hmode] at hx
      cases hx

theorem Objects.mem_shownItems {skipBlobs : Bool} {oid : ObjectId} {i : Item ObjectId} :
    i ∈ o.shownItems skipBlobs oid ↔ i ∈ o.items oid ∧ (skipBlobs = true → ∃ x, i = .node x) :=
  mem_shown

theorem Objects.Closed.separates_shown (h : o.Closed) (skipBlobs : Bool) (x : ObjectId) :
    Separates o.IsTree (o.shownItems skipBlobs x) := fun y =>
  ⟨fun hy => (h.separates x y).1 (Objects.mem_shownItems.mp hy).1, fun hy =>
    (h.separates x y).2 (Objects.mem_shownItems.mp hy).1⟩

namespace Odb.Stores

theorem treeIdOf_eq (h : odb.Stores p o) (side : String) {c t : ObjectId} (hc : o.Root c t) :
    treeIdOf p odb side c = .ok t := by
  obtain ⟨ps, hfind⟩ := hc
  obtain ⟨kind, data, htry, -, -, htree, -⟩ := h.found hfind
  rw [treeIdOf, htry]
  simp [htree, Except.mapError]

theorem rootEntries_eq (h : odb.Stores p o) (side : String) {t : ObjectId} {es : List TreeEntry}
    (ht : o.find t = some (.tree es)) : rootEntries p odb side t = .ok es := by
  obtain ⟨kind, data, htry, -, -, hentries⟩ := h.found ht
  rw [rootEntries, htry]
  simp [hentries, Except.mapError]

theorem listed_eq (h : odb.Stores p o) (skipBlobs : Bool) :
    listed (fun oid => (odb.findTreeIter oid).map (shown skipBlobs)) = o.shownItems skipBlobs := by
  funext oid
  by_cases htree : o.IsTree oid
  · obtain ⟨es, hes⟩ := htree
    simp [listed, h.tree hes, Except.map, Objects.shownItems, hes, GitObject.entries]
  · obtain ⟨e, he⟩ := h.notTree htree
    have hnone : o.shownItems skipBlobs oid = [] := List.eq_nil_iff_forall_not_mem.mpr fun i hi => by
      rw [Objects.mem_shownItems, Objects.items_eq_nil htree] at hi
      exact absurd hi.1 List.not_mem_nil
    rw [hnone]
    simp [listed, he, Except.map]

theorem closedSet (h : odb.Stores p o) (hclosed : o.Closed) (skipBlobs : Bool) :
    ClosedSet (fun oid => (odb.findTreeIter oid).map (shown skipBlobs))
      (o.oids.filter o.IsTree) := by
  intro oid hoid
  obtain ⟨es, hes⟩ := (Finset.mem_filter.mp hoid).2
  refine ⟨shown skipBlobs es, by simp [h.tree hes, Except.map], fun y hy => ?_⟩
  have hitem : .node y ∈ o.shownItems skipBlobs oid := by simpa [Objects.shownItems, hes, GitObject.entries] using hy
  obtain ⟨es', hes'⟩ := (hclosed.separates_shown skipBlobs oid y).1 hitem
  exact Finset.mem_filter.mpr ⟨o.mem_oids y _ hes', ⟨es', hes'⟩⟩

theorem addCommit_done (h : odb.Stores p o) (hclosed : o.Closed) (side : String) (skipBlobs : Bool)
    {fuel : Nat} (hfuel : o.oids.card ≤ fuel) (known objects : Finset ObjectId) {c t : ObjectId}
    (hc : o.Root c t) :
    ∃ objects', addCommit p odb side skipBlobs known fuel objects c = Outcome.done objects' ∧
      Visits (o.shownItems skipBlobs) known [.node t] (insert c objects) objects' := by
  have htree : treeIdOf p odb side c = .ok t := h.treeIdOf_eq side hc
  by_cases hseen : t ∈ insert c objects ∨ t ∈ known
  · refine ⟨insert c objects, ?_, .skip hseen.symm (.done _)⟩
    rw [addCommit, htree]
    exact if_pos hseen
  · obtain ⟨ps, hfind⟩ := hc
    obtain ⟨es, hes⟩ := hclosed.root hfind
    have hnodes : ∀ x, .node x ∈ shown skipBlobs es → x ∈ o.oids.filter o.IsTree := by
      obtain ⟨is, his, hsub⟩ := h.closedSet hclosed skipBlobs t (Finset.mem_filter.mpr ⟨o.mem_oids t _ hes, es, hes⟩)
      simp only [h.tree hes, Except.map, Except.ok.injEq] at his
      rwa [← his] at hsub
    obtain ⟨objects', hwalk, hrun⟩ := Outcome.walk_done known fifo_perm (h.closedSet hclosed skipBlobs)
      ((Finset.card_filter_le _ _).trans hfuel) hnodes (insert t (insert c objects))
    rw [h.listed_eq] at hrun
    push Not at hseen
    refine ⟨objects', ?_, .enter hseen.2 hseen.1 ?_⟩
    · rw [addCommit, htree]
      refine (if_neg (by push Not; exact hseen)).trans ?_
      rw [h.rootEntries_eq side hes]
      exact Outcome.mapError_of_done hwalk _
    · have hitems : o.shownItems skipBlobs t = shown skipBlobs es := by
        simp [Objects.shownItems, hes, GitObject.entries]
      rwa [List.append_nil, hitems]

/-- **The loop over commits** goes through the trees of all of them. -/
theorem addCommits_done (h : odb.Stores p o) (hclosed : o.Closed) (side : String) (skipBlobs : Bool)
    {fuel : Nat} (hfuel : o.oids.card ≤ fuel) (known objects : Finset ObjectId)
    {commits : List ObjectId} (hcommits : ∀ c ∈ commits, o.IsCommit c) :
    ∃ objects', commits.foldlM (addCommit p odb side skipBlobs known fuel) objects =
      Outcome.done objects' ∧
      Visits (o.shownItems skipBlobs) known (o.pending o.treeOf commits) (objects ∪ commits.toFinset) objects' := by
  induction commits generalizing objects with
  | nil => exact ⟨objects, rfl, by simpa [Objects.pending] using .done objects⟩
  | cons c commits ih =>
    obtain ⟨t, ps, hfind⟩ := hcommits c List.mem_cons_self
    have hrest : ∀ x ∈ commits, o.IsCommit x := fun x hx => hcommits x (List.mem_cons_of_mem _ hx)
    obtain ⟨middle, hround, hfirst⟩ := h.addCommit_done hclosed side skipBlobs hfuel known objects ⟨ps, hfind⟩
    obtain ⟨objects', hloop, hrun⟩ := ih middle hrest
    refine ⟨objects', by rw [List.foldlM_cons, Outcome.bind_of_done hround, hloop], ?_⟩
    have hnode := hclosed.pending_singleton Objects.findsTrees_treeOf ⟨ps, hfind⟩
    have hpending : Separates o.IsTree [.node t] := hnode ▸ Objects.separates_pending o.treeOf [c]
    -- the commits still to come may be marked from the start, since they are no trees
    have hextra : ∀ x ∈ commits.toFinset, ¬ o.IsTree x := fun x hx => (hrest x (List.mem_toFinset.mp hx)).not_isTree
    have hboth := (hfirst.union (hclosed.separates_shown skipBlobs) hpending hextra).append hrun
    have hmarks : insert c objects ∪ commits.toFinset = objects ∪ (c :: commits).toFinset := by
      rw [List.toFinset_cons, Finset.insert_union, Finset.union_insert]
    rwa [hmarks, ← hnode, ← Objects.pending_append, List.singleton_append] at hboth

/-- **The have set** of a closed store. -/
theorem buildHaveSet_done (h : odb.Stores p o) (hclosed : o.Closed) {fuel : Nat}
    (hfuel : o.oids.card ≤ fuel) {haves : List ObjectId} (hhaves : ∀ c ∈ haves, o.IsCommit c) :
    ∃ haveSet, buildHaveSet p odb fuel haves = Outcome.done haveSet ∧ ∀ x, x ∈ haveSet ↔
      o.Had haves x := by
  obtain ⟨commits, hsimple, -, hmem⟩ := h.simple hhaves (fun c hc => absurd hc List.not_mem_nil)
  have hreach : ∀ c, c ∈ commits ↔ Reach o.parents haves c := fun c => by simp [hmem]
  obtain ⟨haveSet, hloop, hrun⟩ := h.addCommits_done hclosed "have " false hfuel ∅ ∅
    fun c hc => hclosed.isCommit_of_reach hhaves ((hreach c).mp hc)
  rw [Finset.empty_union] at hrun
  refine ⟨haveSet, ?_, hclosed.mem_had Objects.findsTrees_treeOf hhaves hreach hrun⟩
  rw [buildHaveSet, hsimple]
  exact hloop

theorem isCommitWant_iff (h : odb.Stores p o) {w : ObjectId} (hw : o.find w ≠ none) :
    isCommitWant odb w = true ↔ o.IsCommit w := by
  obtain ⟨obj, hobj⟩ := Option.ne_none_iff_exists'.mp hw
  obtain ⟨kind, data, htry, hreads⟩ := h.found hobj
  rw [isCommitWant, htry, Objects.IsCommit, hobj]
  simp only [hreads.kind_eq, decide_eq_true_eq, Option.some.injEq]
  cases obj <;> simp [GitObject.kind]

theorem wantCommits_done (h : odb.Stores p o) (fuel : Nat) {tips haves : List ObjectId}
    (htips : ∀ c ∈ tips, o.IsCommit c) (hhaves : ∀ c ∈ haves, o.IsCommit c) :
    ∃ commits, wantCommits p odb fuel tips haves none = Outcome.done (commits, []) ∧
      ∀ c, c ∈ commits ↔ o.Fresh tips haves c := by
  rw [wantCommits]
  split
  · rename_i hnil
    exact ⟨[], rfl, fun c => by simp [Objects.Fresh, hnil]⟩
  · obtain ⟨commits, hsimple, -, hmem⟩ := h.simple htips hhaves
    refine ⟨commits, ?_, hmem⟩
    rw [h.hide htips hhaves, hsimple]
    rfl

theorem fresh_commitWants_iff (h : odb.Stores p o) (hclosed : o.Closed)
    {wants haves : List ObjectId} (hwants : ∀ w ∈ wants, o.find w ≠ none) {c : ObjectId} :
    o.Fresh (wants.filter (isCommitWant odb)) haves c ↔ o.Fresh wants haves c ∧ o.IsCommit c := by
  have hcommit : ∀ w ∈ wants.filter (isCommitWant odb), o.IsCommit w := fun w hw => by
    obtain ⟨hw, hkind⟩ := List.mem_filter.mp hw
    exact (h.isCommitWant_iff (hwants w hw)).mp hkind
  rw [Objects.Fresh, Objects.Fresh, and_right_comm, and_congr_left_iff]
  intro _
  constructor
  · intro hreach
    refine ⟨?_, hclosed.isCommit_of_reach hcommit hreach⟩
    obtain ⟨w, hw, hpath⟩ := hreach
    exact ⟨w, (List.mem_filter.mp hw).1, hpath⟩
  · rintro ⟨⟨w, hw, hpath⟩, hc⟩
    -- a path from a want to a commit starts at a commit
    have hstart : o.IsCommit w := by
      cases hpath using Relation.ReflTransGen.head_induction_on with
      | refl => exact hc
      | head hedge _ _ =>
        obtain ⟨t, ps, hfind, -⟩ := Objects.find_of_mem_parents hedge
        exact ⟨t, ps, hfind⟩
    exact ⟨w, List.mem_filter.mpr ⟨hw, (h.isCommitWant_iff (hwants w hw)).mpr hstart⟩, hpath⟩

/-- **What `objects_for_fetch_filtered` selects** for stored wants and have commits, without a depth
and a filter. -/
theorem objectsForFetchFiltered_done (h : odb.Stores p o) (hclosed : o.Closed) {fuel : Nat}
    (hfuel : o.oids.card ≤ fuel) {wants haves : List ObjectId}
    (hwants : ∀ w ∈ wants, o.find w ≠ none) (hhaves : ∀ c ∈ haves, o.IsCommit c) :
    ∃ selected, objectsForFetchFiltered p odb fuel wants haves none none = Outcome.done selected ∧
      ∀ x, x ∈ selected.objects ↔ o.SelectedGit wants haves x := by
  obtain ⟨haveSet, hhaveSet, hhad⟩ := h.buildHaveSet_done hclosed hfuel hhaves
  have htips : ∀ w ∈ wants.filter (isCommitWant odb), o.IsCommit w := fun w hw => by
    obtain ⟨hw, hkind⟩ := List.mem_filter.mp hw
    exact (h.isCommitWant_iff (hwants w hw)).mp hkind
  obtain ⟨commits, hwalk, hfresh⟩ := h.wantCommits_done fuel htips hhaves
  have hcommits : ∀ c, c ∈ commits ↔ o.Fresh wants haves c ∧ o.IsCommit c := fun c =>
    (hfresh c).trans (h.fresh_commitWants_iff hclosed hwants)
  have hdirect : ∀ x, x ∈ (wants.filter fun id => !isCommitWant odb id).toFinset ↔ x ∈ wants ∧ ¬ o.IsCommit x := by
    intro x
    rw [List.mem_toFinset, List.mem_filter]
    refine and_congr_right fun hx => ?_
    rw [← h.isCommitWant_iff (hwants x hx)]
    simp
  obtain ⟨objects, hloop, hrun⟩ := h.addCommits_done hclosed "" false hfuel haveSet
    (wants.filter fun id => !isCommitWant odb id).toFinset fun c hc => ((hcommits c).mp hc).2
  refine ⟨⟨objects, haveSet, []⟩, ?_, hclosed.mem_selectedGit hdirect hcommits hhad hrun⟩
  rw [objectsForFetchFiltered, Outcome.bind_of_done hhaveSet, objectsForFetchWithHaveSet, objectsForFetchAs,
    Outcome.bind_of_done hwalk]
  exact Outcome.bind_of_done hloop _

end Odb.Stores

end Mizzle.Pack
