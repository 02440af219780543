import Mizzle.Pack.Depth

/-!
# Fetches with a filter

`objects_for_fetch_filtered` with `blob:none` or `tree:0`. The commits are those of the fetch
without a filter; a filter decides what of their trees is taken along (`selection_done`). So what is
returned is what the fetch without a filter returns, restricted to the kinds that the filter leaves,
and the objects that are wanted by themselves (`filters_exact`).

`objects` is a `Vec` in the source. With `tree:0` the wanted objects are put behind the commits, and
otherwise it is made from a `HashSet`, so that it has no duplicates; `objectsForFetchVec` keeps the
list, given the order in which a set is listed.
-/

namespace Mizzle.Pack

open Lib

variable {p : Parser} {odb : Odb} {o : Objects} {wants haves : List ObjectId}

variable {x : ObjectId} {commits : List ObjectId}

variable {avoid : ObjectId → Prop}

namespace Objects

def IsBlob (o : Objects) (oid : ObjectId) : Prop := ∃ content, o.find oid = some (.blob content)

/-- What a filter lets through of the contents of a tree. -/
def Passes (o : Objects) : Option Filter → ObjectId → Prop
  | none, _ => True
  | some .blobNone, x => o.IsTree x
  | some .treeNone, _ => False

def Direct (o : Objects) (wants : List ObjectId) (x : ObjectId) : Prop := x ∈ wants ∧ ¬ o.IsCommit x

/-- The trees of the commits have it, on a way that does not go into a tree that is wanted by
itself. -/
def UnderCommits (o : Objects) (wants commits : List ObjectId) (x : ObjectId) : Prop :=
  Met o.items (o.Direct wants) (o.pending o.treeOf commits) x

theorem node_of_mem_pending (hclosed : o.Closed) (hcommits : ∀ c ∈ commits, o.IsCommit c)
    {i : Item ObjectId} (hi : i ∈ o.pending o.treeOf commits) : ∃ t, i = .node t := by
  obtain ⟨t, ht, rfl⟩ := List.mem_map.mp hi
  obtain ⟨c, hc, hroot⟩ := List.mem_filterMap.mp ht
  obtain ⟨t', ps, hfind⟩ := hcommits c hc
  obtain rfl : t' = t := Option.some.inj ((findsTrees_treeOf c t' ⟨ps, hfind⟩).symm.trans hroot)
  exact ⟨t', if_pos (hclosed.root hfind)⟩

theorem entered_shown_iff {skipBlobs : Bool} {is : List (Item ObjectId)} :
    Entered (o.shownItems skipBlobs) avoid is x ↔ Entered o.items avoid is x := by
  have hnode : ∀ a b, .node b ∈ o.shownItems skipBlobs a ↔ .node b ∈ o.items a := fun a b => by
    rw [mem_shownItems, and_iff_left_iff_imp]
    exact fun _ _ => ⟨b, rfl⟩
  have hinto : Into (o.shownItems skipBlobs) avoid = Into o.items avoid := by
    funext a b
    rw [Into, Into, hnode]
  rw [Entered, Entered, hinto]

theorem Closed.isTree_of_entered (h : o.Closed)
    (hx : Entered o.items avoid (o.pending o.treeOf commits) x) : o.IsTree x := by
  obtain ⟨r, hr, -, hpath⟩ := hx
  cases hpath with
  | refl => exact (separates_pending o.treeOf commits x).1 hr
  | tail _ hedge => exact (h.separates _ x).1 hedge.1

theorem Closed.met_shown_iff (h : o.Closed) (hcommits : ∀ c ∈ commits, o.IsCommit c) :
    Met (o.shownItems true) avoid (o.pending o.treeOf commits) x ↔
      Met o.items avoid (o.pending o.treeOf commits) x ∧ o.IsTree x := by
  have hleaf : ∀ {y}, .leaf y ∉ o.pending o.treeOf commits := fun hy => by
    obtain ⟨t, ht⟩ := node_of_mem_pending h hcommits hy
    cases ht
  constructor
  · rintro (hx | hx | ⟨d, -, hd⟩)
    · have hx := entered_shown_iff.mp hx
      exact ⟨Or.inl hx, h.isTree_of_entered hx⟩
    · exact absurd hx hleaf
    · obtain ⟨y, hy⟩ := (mem_shownItems.mp hd).2 rfl
      cases hy
  · rintro ⟨hx | hx | ⟨d, -, hd⟩, hxtree⟩
    · exact Or.inl (entered_shown_iff.mpr hx)
    · exact absurd hx hleaf
    · exact absurd hxtree ((h.separates d x).2 hd)

theorem Closed.not_isCommit_of_underCommits (h : o.Closed) (hno : o.NoGitlinks)
    (hcommits : ∀ c ∈ commits, o.IsCommit c) (hx : o.UnderCommits wants commits x) :
    ¬ o.IsCommit x := by
  intro hcommit
  rcases hx with hx | hx | ⟨d, -, hd⟩
  · exact hcommit.not_isTree (h.isTree_of_entered hx)
  · obtain ⟨t, ht⟩ := node_of_mem_pending h hcommits hx
    cases ht
  · obtain ⟨t, ps, hfind⟩ := hcommit
    rcases leaf_iff.mp hd with ⟨es, hes, hfile⟩ | ⟨es, hes, hlink⟩
    · obtain ⟨content, hcontent⟩ := h.file hes _ hfile rfl
      simp [hfind] at hcontent
    · exact hno d es hes _ hlink rfl

end Objects

namespace Odb.Stores

theorem mem_direct (h : odb.Stores p o) (hwants : ∀ w ∈ wants, o.find w ≠ none) :
    x ∈ (wants.filter fun id => !isCommitWant odb id).toFinset ↔ o.Direct wants x := by
  rw [List.mem_toFinset, List.mem_filter, Objects.Direct]
  refine and_congr_right fun hx => ?_
  rw [← h.isCommitWant_iff (hwants x hx)]
  simp

/-- **What `objects_for_fetch_filtered` selects**, given the commits of the want side. -/
theorem selection_done (h : odb.Stores p o) (hclosed : o.Closed) {fuel : Nat}
    (hfuel : o.oids.card ≤ fuel) (hwants : ∀ w ∈ wants, o.find w ≠ none)
    (hhaves : ∀ c ∈ haves, o.IsCommit c) {deepen : Option Nat} {commits shallow : List ObjectId}
    (hwalk : wantCommits p odb fuel (wants.filter (isCommitWant odb)) haves deepen =
      Outcome.done (commits, shallow)) (hcommits : ∀ c ∈ commits, o.IsCommit c)
    (filter : Option Filter) :
    ∃ r, objectsForFetchFiltered p odb fuel wants haves deepen filter = Outcome.done r ∧
      r.shallow = shallow ∧
      ∀ x, x ∈ r.objects ↔ o.Direct wants x ∨ x ∈ commits ∨
        o.Passes filter x ∧ ¬ o.Had haves x ∧ o.UnderCommits wants commits x := by
  obtain ⟨haveSet, hhaveSet, hhad⟩ := h.buildHaveSet_done hclosed hfuel hhaves
  rw [objectsForFetchFiltered, Outcome.bind_of_done hhaveSet, objectsForFetchWithHaveSet, objectsForFetchAs,
    Outcome.bind_of_done hwalk]
  by_cases htree : filter = some .treeNone
  · subst htree
    refine ⟨_, if_pos rfl, rfl, fun x => ?_⟩
    rw [Finset.mem_union, List.mem_toFinset, h.mem_direct hwants, or_comm]
    simp [Objects.Passes]
  · obtain ⟨objects, hloop, hrun⟩ := h.addCommits_done hclosed "" (filter = some .blobNone) hfuel haveSet
      (wants.filter fun id => !isCommitWant odb id).toFinset hcommits
    refine ⟨⟨objects, haveSet, shallow⟩, (if_neg htree).trans (Outcome.bind_of_done hloop _), rfl, fun x => ?_⟩
    have hknown : ∀ y ∈ haveSet, ∀ z, .node z ∈ o.shownItems (filter = some .blobNone) y ∨
        .leaf z ∈ o.shownItems (filter = some .blobNone) y → z ∈ haveSet := fun y hy z hz =>
      (hhad z).mpr (hclosed.had_item ((hhad y).mp hy) (hz.imp (fun hz => (Objects.mem_shownItems.mp hz).1)
        fun hz => (Objects.mem_shownItems.mp hz).1))
    -- the marked commits are no trees, so only the trees that are wanted by themselves are not gone into
    have havoid : ∀ {skipBlobs : Bool},
        Met (o.shownItems skipBlobs) (· ∈ (wants.filter fun id => !isCommitWant odb id).toFinset ∪ commits.toFinset)
            (o.pending o.treeOf commits) x ↔
          Met (o.shownItems skipBlobs) (o.Direct wants) (o.pending o.treeOf commits) x := fun {skipBlobs} => by
      have hsame : ∀ t, o.IsTree t →
          (t ∈ (wants.filter fun id => !isCommitWant odb id).toFinset ∪ commits.toFinset ↔
            o.Direct wants t) := fun t ht => by
        rw [Finset.mem_union, h.mem_direct hwants, List.mem_toFinset, or_iff_left]
        exact fun hc => (hcommits t hc).not_isTree ht
      exact ⟨Met.congr (hclosed.separates_shown skipBlobs) (Objects.separates_pending _ _)
        fun t ht => (hsame t ht).mpr,
        Met.congr (hclosed.separates_shown skipBlobs) (Objects.separates_pending _ _) fun t ht => (hsame t ht).mp⟩
    rw [mem_of_visits_closed (hclosed.separates_shown _) hknown
      (Objects.separates_pending o.treeOf commits) hrun, havoid,
      Finset.mem_union, h.mem_direct hwants, List.mem_toFinset, hhad, or_assoc]
    refine or_congr_right (or_congr_right ?_)
    cases filter with
    | none => exact (and_iff_right trivial).symm
    | some named =>
      cases named with
      | blobNone =>
        rw [show (decide (some Filter.blobNone = some .blobNone)) = true from rfl, hclosed.met_shown_iff hcommits]
        exact and_rotate.symm
      | treeNone => exact absurd rfl htree

theorem commits_done (h : odb.Stores p o) (hclosed : o.Closed)
    (hwants : ∀ w ∈ wants, o.find w ≠ none) (hhaves : ∀ c ∈ haves, o.IsCommit c) :
    ∃ commits, (∀ fuel, wantCommits p odb fuel (wants.filter (isCommitWant odb)) haves none =
      Outcome.done (commits, [])) ∧
      commits.Nodup ∧ ∀ c, c ∈ commits ↔ o.Fresh wants haves c ∧ o.IsCommit c := by
  have htips : ∀ w ∈ wants.filter (isCommitWant odb), o.IsCommit w := fun w hw => by
    obtain ⟨hw, hkind⟩ := List.mem_filter.mp hw
    exact (h.isCommitWant_iff (hwants w hw)).mp hkind
  by_cases hnil : wants.filter (isCommitWant odb) = []
  · refine ⟨[], fun fuel => if_pos hnil, List.nodup_nil, fun c => ?_⟩
    rw [← h.fresh_commitWants_iff hclosed hwants, hnil, Objects.Fresh]
    simp
  · obtain ⟨commits, hsimple, hnodup, hmem⟩ := h.simple htips hhaves
    refine ⟨commits, fun fuel => (if_neg hnil).trans ?_, hnodup, fun c =>
      (hmem c).trans (h.fresh_commitWants_iff hclosed hwants)⟩
    rw [h.hide htips hhaves, hsimple]
    rfl

end Odb.Stores

/-! ### The list of objects -/

/-- A `HashSet` is listed in some order, every element once. -/
structure Lists (collect : Finset ObjectId → List ObjectId) : Prop where
  mem : ∀ s x, x ∈ collect s ↔ x ∈ s
  nodup : ∀ s, (collect s).Nodup

/-- The `objects` that `objects_for_fetch_filtered` returns. -/
def objectsForFetchVec (collect : Finset ObjectId → List ObjectId) (p : Parser) (odb : Odb)
    (fuel : Nat) (wants haves : List ObjectId) (deepen : Option Nat) (filter : Option Filter) :
    Outcome String (List ObjectId) := do
  let haveSet ← buildHaveSet p odb fuel haves
  let r ← objectsForFetchAs p odb
    (fun commits direct => commits ++ collect direct) collect fuel wants haves deepen filter haveSet
  return r.objects

theorem objectsForFetchVec_done (h : odb.Stores p o) (hclosed : o.Closed) {fuel : Nat}
    (hfuel : o.oids.card ≤ fuel) (hwants : ∀ w ∈ wants, o.find w ≠ none)
    (hhaves : ∀ c ∈ haves, o.IsCommit c) {collect : Finset ObjectId → List ObjectId}
    (hcollect : Lists collect) {deepen : Option Nat} {commits shallow : List ObjectId}
    (hwalk : wantCommits p odb fuel (wants.filter (isCommitWant odb)) haves deepen =
      Outcome.done (commits, shallow)) (hcommits : ∀ c ∈ commits, o.IsCommit c)
    (hnodup : commits.Nodup) (filter : Option Filter) {r : PackObjects}
    (hr : objectsForFetchFiltered p odb fuel wants haves deepen filter = Outcome.done r) :
    ∃ objects, objectsForFetchVec collect p odb fuel wants haves deepen filter =
      Outcome.done objects ∧ objects.Nodup ∧
      ∀ x, x ∈ objects ↔ x ∈ r.objects := by
  obtain ⟨haveSet, hhaveSet, -⟩ := h.buildHaveSet_done hclosed hfuel hhaves
  rw [objectsForFetchFiltered, Outcome.bind_of_done hhaveSet, objectsForFetchWithHaveSet, objectsForFetchAs,
    Outcome.bind_of_done hwalk] at hr
  rw [objectsForFetchVec, Outcome.bind_of_done hhaveSet, objectsForFetchAs, Outcome.bind_of_done hwalk]
  by_cases htree : filter = some .treeNone
  · obtain rfl := Except.ok.inj (Option.some.inj ((if_pos htree).symm.trans hr))
    refine ⟨_, Outcome.bind_of_done (if_pos htree) _,
      List.nodup_append.mpr ⟨hnodup, hcollect.nodup _, ?_⟩, fun x => ?_⟩
    · rintro c hc _ hdirect rfl
      exact ((h.mem_direct hwants).mp ((hcollect.mem _ _).mp hdirect)).2 (hcommits c hc)
    · rw [List.mem_append, hcollect.mem, Finset.mem_union, @List.mem_toFinset _ _ commits]
  · obtain ⟨objects, hloop, -⟩ := h.addCommits_done hclosed "" (filter = some .blobNone) hfuel haveSet
      (wants.filter fun id => !isCommitWant odb id).toFinset hcommits
    obtain rfl := Except.ok.inj (Option.some.inj
      (((if_neg htree).trans (Outcome.bind_of_done hloop _)).symm.trans hr))
    simp only [if_neg htree, Outcome.bind_of_done hloop]
    exact ⟨collect objects, rfl, hcollect.nodup _, hcollect.mem _⟩

/-- **A filter removes exactly what it names**, from a fetch of commits and blobs in a closed store
without submodules. -/
theorem filters_exact (h : odb.Stores p o) (hclosed : o.Closed) (hno : o.NoGitlinks)
    (hwants : ∀ w ∈ wants, o.IsCommit w ∨ o.IsBlob w) (hhaves : ∀ c ∈ haves, o.IsCommit c)
    {collect : Finset ObjectId → List ObjectId} (hcollect : Lists collect) :
    Outcome.Ends (fun fuel => objectsForFetchVec collect p odb fuel wants haves none none)
      fun all =>
      Outcome.Ends (fun fuel => objectsForFetchVec collect p odb fuel wants haves none (some .blobNone)) (fun objects =>
        objects.Nodup ∧ ∀ x, x ∈ objects ↔ x ∈ all ∧ (o.IsCommit x ∨ o.IsTree x) ∨ x ∈ wants ∧ o.IsBlob x) ∧
      Outcome.Ends (fun fuel => objectsForFetchVec collect p odb fuel wants haves none (some .treeNone)) fun objects =>
        objects.Nodup ∧ ∀ x, x ∈ objects ↔ x ∈ all ∧ o.IsCommit x ∨ x ∈ wants ∧ o.IsBlob x := by
  have hfound : ∀ w ∈ wants, o.find w ≠ none := fun w hw => by
    rcases hwants w hw with ⟨t, ps, hfind⟩ | ⟨content, hfind⟩ <;> simp [hfind]
  have hdirect : ∀ x, o.Direct wants x ↔ x ∈ wants ∧ o.IsBlob x := fun x => by
    refine and_congr_right fun hx => ⟨fun hnot => (hwants x hx).resolve_left hnot, ?_⟩
    rintro ⟨content, hblob⟩ ⟨t, ps, hcommit⟩
    simp [hblob] at hcommit
  obtain ⟨commits, hwalk, hnodup, hcommits⟩ := h.commits_done hclosed hfound hhaves
  have hcommit : ∀ c ∈ commits, o.IsCommit c := fun c hc => ((hcommits c).mp hc).2
  -- every run has these commits, and what the filter lets through of their trees
  have hrun : ∀ filter, Outcome.Ends (fun fuel =>
    objectsForFetchVec collect p odb fuel wants haves none filter)
      fun objects => objects.Nodup ∧ ∀ x, x ∈ objects ↔ x ∈ wants ∧ o.IsBlob x ∨ x ∈ commits ∨
        o.Passes filter x ∧ ¬ o.Had haves x ∧ o.UnderCommits wants commits x := by
    refine fun filter => ⟨o.oids.card, fun fuel hfuel => ?_⟩
    obtain ⟨r, hr, -, hmem⟩ := h.selection_done hclosed hfuel hfound hhaves (hwalk fuel) hcommit filter
    obtain ⟨objects, hobjects, hlist, hsame⟩ :=
      objectsForFetchVec_done h hclosed hfuel hfound hhaves hcollect (hwalk fuel) hcommit hnodup filter hr
    exact ⟨objects, hobjects, hlist, fun x => by rw [hsame, hmem, hdirect]⟩
  -- so a commit is there only as one of them
  have hunder : ∀ {x}, o.UnderCommits wants commits x → ¬ o.IsCommit x :=
    hclosed.not_isCommit_of_underCommits hno hcommit
  refine (hrun none).imp fun all hrun' => ?_
  have hall := hrun'.2
  refine ⟨(hrun (some .blobNone)).imp ?_, (hrun (some .treeNone)).imp ?_⟩
  · rintro objects ⟨hlist, hmem⟩
    refine ⟨hlist, fun x => ?_⟩
    rw [hmem, hall, Objects.Passes, Objects.Passes]
    constructor
    · rintro (hx | hc | ⟨htree, hx⟩)
      · exact Or.inr hx
      · exact Or.inl ⟨Or.inr (Or.inl hc), Or.inl (hcommit x hc)⟩
      · exact Or.inl ⟨Or.inr (Or.inr ⟨trivial, hx⟩), Or.inr htree⟩
    · rintro (⟨hx | hc | ⟨-, hx⟩, hkind⟩ | hx)
      · exact Or.inl hx
      · exact Or.inr (Or.inl hc)
      · exact Or.inr (Or.inr ⟨hkind.resolve_left (hunder hx.2), hx⟩)
      · exact Or.inl hx
  · rintro objects ⟨hlist, hmem⟩
    refine ⟨hlist, fun x => ?_⟩
    rw [hmem, hall, Objects.Passes, Objects.Passes]
    constructor
    · rintro (hx | hc | ⟨hnone, -⟩)
      · exact Or.inr hx
      · exact Or.inl ⟨Or.inr (Or.inl hc), hcommit x hc⟩
      · exact hnone.elim
    · rintro (⟨hx | hc | ⟨-, hx⟩, hkind⟩ | hx)
      · exact Or.inl hx
      · exact Or.inr (Or.inl hc)
      · exact absurd hkind (hunder hx.2)
      · exact Or.inl hx

/-- The second commit and a file, with the first commit had. -/
theorem filters_exact_linearStore :
    Outcome.Ends (fun fuel => objectsForFetchVec Finset.toList linearStore.parser linearStore.odb
      fuel [.fill 2, .fill 5] [.fill 1]
        none none) fun all =>
      Outcome.Ends (fun fuel => objectsForFetchVec Finset.toList linearStore.parser linearStore.odb
        fuel [.fill 2, .fill 5] [.fill 1]
        none (some .blobNone)) (fun objects => objects.Nodup ∧
          ∀ x, x ∈ objects ↔ x ∈ all ∧ (linearStore.IsCommit x ∨ linearStore.IsTree x) ∨
            x ∈ [ObjectId.fill 2, .fill 5] ∧ linearStore.IsBlob x) ∧
      Outcome.Ends (fun fuel => objectsForFetchVec Finset.toList linearStore.parser linearStore.odb
        fuel [.fill 2, .fill 5] [.fill 1]
        none (some .treeNone)) fun objects => objects.Nodup ∧
          ∀ x, x ∈ objects ↔ x ∈ all ∧ linearStore.IsCommit x ∨ x ∈ [ObjectId.fill 2, .fill 5] ∧
            linearStore.IsBlob x := by
  refine filters_exact (Objects.stores_odb closed_linearStore) closed_linearStore
    noGitlinks_linearStore (fun w hw => ?_) (by decide +kernel) ⟨fun _ _ => Finset.mem_toList, Finset.nodup_toList⟩
  rcases List.mem_cons.mp hw with rfl | hw
  · exact Or.inl (by decide +kernel)
  · obtain rfl := List.mem_singleton.mp hw
    exact Or.inr ⟨[], by decide +kernel⟩

end Mizzle.Pack
