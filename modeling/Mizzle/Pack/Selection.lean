import Mizzle.Pack.Objects

/-!
# What the pack builders select

Every builder walks the commits of the wants without those of the haves, goes through the trees of
these commits with a set of marks, and leaves out what the haves have. What it selects is described
here without the order of the walks: `SelectedGit` for gitoxide, `SelectedDb` for the two databases.
The two descriptions differ in what becomes of the wants themselves and in what counts as the tree
of a commit.

`Had` is what the have side of all three collects: what the haves reach, and the gitlinks in their
trees. `Below` is what the want side comes to in the trees of the fresh commits if it does not go
into a tree that is itself wanted.
-/

namespace Mizzle.Pack.Objects

open Lib

variable {o : Objects}

def treeOf (o : Objects) (c : ObjectId) : Option ObjectId :=
  match o.find c with
  | some (.commit root _) => some root
  | _ => none

/-- The tree that the databases find in the data of an object, whatever its kind. -/
def rootOf (o : Objects) (p : Parser) (c : ObjectId) : Option ObjectId := (o.find c).bind p.root

/-- A tree to go into. What is no tree is taken along. -/
def rootItem (o : Objects) (t : ObjectId) : Item ObjectId := if o.IsTree t then .node t else .leaf t

/-- What a walk over commits puts before the walk over trees. -/
def pending (o : Objects) (root : ObjectId → Option ObjectId) (commits : List ObjectId) :
    List (Item ObjectId) :=
  (commits.filterMap root).map o.rootItem

/-- The tree of every commit is found. -/
def FindsTrees (o : Objects) (root : ObjectId → Option ObjectId) : Prop :=
  ∀ c t, o.Root c t → root c = some t

theorem findsTrees_treeOf : o.FindsTrees o.treeOf := by
  rintro c t ⟨ps, hc⟩
  rw [treeOf, hc]

theorem findsTrees_rootOf (p : Parser) : o.FindsTrees (o.rootOf p) := by
  rintro c t ⟨ps, hc⟩
  rw [rootOf, hc]
  rfl

theorem pending_append (root : ObjectId → Option ObjectId) (commits more : List ObjectId) :
    o.pending root (commits ++ more) = o.pending root commits ++ o.pending root more := by
  rw [pending, List.filterMap_append, List.map_append, pending, pending]

theorem separates_pending (root : ObjectId → Option ObjectId) (commits : List ObjectId) :
    Separates o.IsTree (o.pending root commits) := by
  intro x
  simp only [pending, List.mem_map, rootItem]
  constructor
  · rintro ⟨t, -, ht⟩
    split at ht
    · rename_i htree
      exact Item.node.inj ht ▸ htree
    · simp at ht
  · rintro ⟨t, -, ht⟩
    split at ht
    · simp at ht
    · rename_i htree
      exact Item.leaf.inj ht ▸ htree

variable {x : ObjectId} {root : ObjectId → Option ObjectId}

theorem met_pending_iff {avoid : ObjectId → Prop} {commits : List ObjectId} :
    Met o.items avoid (o.pending root commits) x ↔ ∃ c ∈ commits,
      Met o.items avoid (o.pending root [c]) x := by
  rw [met_iff_exists]
  constructor
  · rintro ⟨i, hi, hx⟩
    obtain ⟨t, ht, rfl⟩ := List.mem_map.mp hi
    obtain ⟨c, hc, hroot⟩ := List.mem_filterMap.mp ht
    refine ⟨c, hc, ?_⟩
    simpa [pending, hroot] using hx
  · rintro ⟨c, hc, hx⟩
    obtain ⟨i, hi, hmet⟩ := met_iff_exists.mp hx
    obtain ⟨t, ht, rfl⟩ := List.mem_map.mp hi
    obtain ⟨c', hc', hroot⟩ := List.mem_filterMap.mp ht
    obtain rfl := List.mem_singleton.mp hc'
    exact ⟨o.rootItem t, List.mem_map.mpr ⟨t, List.mem_filterMap.mpr ⟨c', hc, hroot⟩, rfl⟩, hmet⟩

/-! ### What is in a tree -/

/-- The tree has the object, or a gitlink for it. -/
def Contains (o : Objects) (t x : ObjectId) : Prop :=
  ∃ d, Relation.ReflTransGen (fun a b => .node b ∈ o.items a) t d ∧ (x = d ∨ .leaf x ∈ o.items d)

theorem contains_iff {t x : ObjectId} :
    o.Contains t x ↔ o.InTree t x ∨
      ∃ d, Relation.ReflTransGen (fun a b => .node b ∈ o.items a) t d ∧ o.GitlinkIn d x := by
  simp only [Contains, leaf_iff, InTree]
  constructor
  · rintro ⟨d, hd, rfl | hfile | hlink⟩
    · exact Or.inl ⟨x, hd, Or.inl rfl⟩
    · exact Or.inl ⟨d, hd, Or.inr hfile⟩
    · exact Or.inr ⟨d, hd, hlink⟩
  · rintro (⟨d, hd, rfl | hfile⟩ | ⟨d, hd, hlink⟩)
    · exact ⟨x, hd, Or.inl rfl⟩
    · exact ⟨d, hd, Or.inr (Or.inl hfile)⟩
    · exact ⟨d, hd, Or.inr (Or.inr hlink)⟩

namespace Closed

theorem pending_singleton (h : o.Closed) (hroot : o.FindsTrees root) {c t : ObjectId}
    (hc : o.Root c t) : o.pending root [c] = [.node t] := by
  have htree : o.IsTree t := by
    obtain ⟨ps, hps⟩ := hc
    exact h.root hps
  simp [pending, hroot c t hc, rootItem, htree]

theorem met_commit_iff (h : o.Closed) (hroot : o.FindsTrees root) {avoid : ObjectId → Prop}
    (havoid : ∀ x, avoid x → ¬ o.IsTree x) {c t x : ObjectId} (hc : o.Root c t) :
    Met o.items avoid (o.pending root [c]) x ↔ o.Contains t x := by
  have hfree : ∀ d, Entered o.items avoid [.node t] d ↔
      Relation.ReflTransGen (fun a b => .node b ∈ o.items a) t d := by
    intro d
    have hpath : Entered o.items avoid [.node t] d ↔ Entered o.items (fun _ => False) [.node t] d := by
      have ht : o.IsTree t := by
        obtain ⟨ps, hps⟩ := hc
        exact h.root hps
      constructor
      · exact Entered.mono fun _ => False.elim
      · rintro ⟨r, hr, -, hpath⟩
        refine ⟨r, hr, fun ha => havoid r ha ?_, ?_⟩
        · obtain rfl : r = t := by simpa using hr
          exact ht
        · refine Relation.ReflTransGen.mono (fun a b hab => ⟨hab.1, fun hb => ?_⟩) _ _ hpath
          exact havoid b hb ((h.separates a b).1 hab.1)
    rw [hpath, entered_iff_of_closed fun _ _ hfalse _ => hfalse.elim]
    simp
  rw [h.pending_singleton hroot hc, Met, Contains]
  simp only [hfree, List.mem_singleton, reduceCtorEq, false_or]
  constructor
  · rintro (hx | ⟨d, hd, hleaf⟩)
    · exact ⟨x, hx, Or.inl rfl⟩
    · exact ⟨d, hd, Or.inr hleaf⟩
  · rintro ⟨d, hd, rfl | hleaf⟩
    · exact Or.inl hd
    · exact Or.inr ⟨d, hd, hleaf⟩

end Closed

/-! ### The have side -/

/-- What the haves reach, and the gitlinks in their trees. -/
def Had (o : Objects) (haves : List ObjectId) (x : ObjectId) : Prop :=
  Reach o.refs haves x ∨ ∃ t, Reach o.refs haves t ∧ o.GitlinkIn t x

variable {tips : List ObjectId} {c : ObjectId}

namespace Closed

theorem reach_isTree (h : o.Closed) (htips : ∀ tip ∈ tips, o.IsCommit tip) {d : ObjectId}
    (hd : o.IsTree d) (hreach : Reach o.refs tips d) :
    ∃ c t, Reach o.parents tips c ∧ o.Root c t ∧
      Relation.ReflTransGen (fun a b => .node b ∈ o.items a) t d := by
  rcases (h.reach_commits_iff htips).mp hreach with hcommit | ⟨c, t, hc, hroot, d', hpath, rfl | ⟨es, hfind, hfile⟩⟩
  · exact absurd hd (h.isCommit_of_reach htips hcommit).not_isTree
  · exact ⟨c, t, hc, hroot, hpath⟩
  · obtain ⟨content, hcontent⟩ := h.file hfind _ hfile rfl
    obtain ⟨es', hes'⟩ := hd
    simp [hcontent] at hes'

theorem had_iff (h : o.Closed) {haves : List ObjectId} (hhaves : ∀ c ∈ haves, o.IsCommit c) :
    o.Had haves x ↔ Reach o.parents haves x ∨ ∃ c t, Reach o.parents haves c ∧ o.Root c t ∧
      o.Contains t x := by
  constructor
  · rintro (hreach | ⟨d, hd, hlink⟩)
    · rcases (h.reach_commits_iff hhaves).mp hreach with hcommit | ⟨c, t, hc, hroot, hin⟩
      · exact Or.inl hcommit
      · exact Or.inr ⟨c, t, hc, hroot, contains_iff.mpr (Or.inl hin)⟩
    · have htree : o.IsTree d := by
        obtain ⟨es, hes, -⟩ := hlink
        exact ⟨es, hes⟩
      obtain ⟨c, t, hc, hroot, hpath⟩ := h.reach_isTree hhaves htree hd
      exact Or.inr ⟨c, t, hc, hroot, contains_iff.mpr (Or.inr ⟨d, hpath, hlink⟩)⟩
  · rintro (hcommit | ⟨c, t, hc, hroot, hin⟩)
    · exact Or.inl (reach_refs_of_parents hcommit)
    · rcases contains_iff.mp hin with hin | ⟨d, hpath, hlink⟩
      · exact Or.inl ((h.reach_commits_iff hhaves).mpr (Or.inr ⟨c, t, hc, hroot, hin⟩))
      · exact Or.inr ⟨d, (h.reach_commits_iff hhaves).mpr (Or.inr ⟨c, t, hc, hroot, d, hpath, Or.inl rfl⟩), hlink⟩

theorem had_item (h : o.Closed) {haves : List ObjectId} {x y : ObjectId} (hx : o.Had haves x)
    (hy : .node y ∈ o.items x ∨ .leaf y ∈ o.items x) : o.Had haves y := by
  have htree : o.IsTree x := by
    rcases hy with hy | hy
    · obtain ⟨es, hes, -⟩ := node_mem_items.mp hy
      exact ⟨es, hes⟩
    · obtain ⟨es, hes, -⟩ := leaf_mem_items.mp hy
      exact ⟨es, hes⟩
  rcases hx with hreach | ⟨t, -, hlink⟩
  · obtain ⟨es, hes⟩ := htree
    rcases hy with hy | hy
    · exact Or.inl (reach_step hreach ((mem_refs_tree hes).mpr (Or.inl hy)))
    · rcases leaf_iff.mp hy with ⟨es', hes', hfile⟩ | hlink
      · obtain rfl : es = es' := by simpa using hes.symm.trans hes'
        exact Or.inl (reach_step hreach ((mem_refs_tree hes).mpr (Or.inr hfile)))
      · exact Or.inr ⟨x, hreach, hlink⟩
  · exact absurd htree (h.not_isTree_gitlink hlink)

/-- **What the have side of a builder collects.** -/
theorem mem_had (h : o.Closed) (hroot : o.FindsTrees root) {haves : List ObjectId}
    (hhaves : ∀ c ∈ haves, o.IsCommit c) {commits : List ObjectId}
    (hcommits : ∀ c, c ∈ commits ↔ Reach o.parents haves c) {collected : Finset ObjectId}
    (hrun : Visits o.items ∅ (o.pending root commits) commits.toFinset collected) (x : ObjectId) :
    x ∈ collected ↔ o.Had haves x := by
  have hcommit : ∀ c ∈ commits, o.IsCommit c := fun c hc => h.isCommit_of_reach hhaves ((hcommits c).mp hc)
  rw [mem_of_visits_closed h.separates (fun y hy => absurd hy (Finset.notMem_empty y)) (separates_pending root commits)
    hrun, met_pending_iff, h.had_iff hhaves]
  simp only [List.mem_toFinset, Finset.notMem_empty, not_false_eq_true, true_and, hcommits]
  refine or_congr_right ⟨?_, ?_⟩
  · rintro ⟨c, hc, hx⟩
    obtain ⟨t, ps, hfind⟩ := h.isCommit_of_reach hhaves hc
    exact ⟨c, t, hc, ⟨ps, hfind⟩, (h.met_commit_iff hroot (fun y hy => (hcommit y ((hcommits y).mpr hy)).not_isTree)
      ⟨ps, hfind⟩).mp hx⟩
  · rintro ⟨c, t, hc, htree, hx⟩
    exact ⟨c, hc, (h.met_commit_iff hroot (fun y hy => (hcommit y ((hcommits y).mpr hy)).not_isTree) htree).mpr hx⟩

end Closed

/-! ### The want side -/

/-- The wants reach it along parents and the haves do not. -/
def Fresh (o : Objects) (wants haves : List ObjectId) (c : ObjectId) : Prop :=
  Reach o.parents wants c ∧ ¬ Reach o.parents haves c

/-- The walk over the trees of the fresh commits comes to it. A tree that is wanted itself has been
marked before. -/
def Below (o : Objects) (root : ObjectId → Option ObjectId) (wants haves : List ObjectId)
    (x : ObjectId) : Prop :=
  ∃ c, o.Fresh wants haves c ∧ Met o.items (· ∈ wants) (o.pending root [c]) x

/-- The selection of gitoxide: what is wanted and no commit is selected in any case. -/
def SelectedGit (o : Objects) (wants haves : List ObjectId) (x : ObjectId) : Prop :=
  (x ∈ wants ∧ ¬ o.IsCommit x) ∨ o.Fresh wants haves x ∨ ¬ o.Had haves x ∧ o.Below o.treeOf wants haves x

/-- The selection of the databases: what is stored, and not on the have side. -/
def SelectedDb (o : Objects) (p : Parser) (wants haves : List ObjectId) (x : ObjectId) : Prop :=
  o.find x ≠ none ∧ ¬ o.Had haves x ∧ (x ∈ wants ∨ o.Fresh wants haves x ∨ o.Below (o.rootOf p) wants haves x)

theorem selectedDb_perm {p : Parser} {wants wants' haves haves' : List ObjectId}
    (hwants : wants.Perm wants') (hhaves : haves.Perm haves') :
    o.SelectedDb p wants haves x ↔ o.SelectedDb p wants' haves' x := by
  simp only [SelectedDb, Had, Fresh, Below, Reach, hwants.mem_iff, hhaves.mem_iff]

theorem met_iff_below (hclosed : o.Closed) {wants haves commits : List ObjectId}
    (hcommits : ∀ c, root c ≠ none → (c ∈ commits ↔ o.Fresh wants haves c))
    {marks : Finset ObjectId} (hmarks : ∀ t, o.IsTree t → (t ∈ marks ↔ t ∈ wants)) :
    Met o.items (· ∈ marks) (o.pending root commits) x ↔ o.Below root wants haves x := by
  have hfound : ∀ {avoid : ObjectId → Prop} {c : ObjectId},
      Met o.items avoid (o.pending root [c]) x → root c ≠ none := by
    intro avoid c hx hnone
    obtain ⟨i, hi, -⟩ := met_iff_exists.mp hx
    simp [pending, hnone] at hi
  rw [met_pending_iff]
  constructor
  · rintro ⟨c, hc, hx⟩
    exact ⟨c, (hcommits c (hfound hx)).mp hc,
      hx.congr hclosed.separates (separates_pending root [c]) fun t ht hw => (hmarks t ht).mpr hw⟩
  · rintro ⟨c, hc, hx⟩
    exact ⟨c, (hcommits c (hfound hx)).mpr hc,
      hx.congr hclosed.separates (separates_pending root [c]) fun t ht hm => (hmarks t ht).mp hm⟩

namespace Closed

theorem reach_parents_cases (h : o.Closed) {wants : List ObjectId}
    (hreach : Reach o.parents wants c) : c ∈ wants ∨ o.IsCommit c := by
  obtain ⟨t, ht, hpath⟩ := hreach
  cases hpath with
  | refl => exact Or.inl ht
  | tail _ hedge => exact Or.inr (h.isCommit_parent hedge)

/-- **What gitoxide selects**, from the runs of its two sides. -/
theorem mem_selectedGit (h : o.Closed) {wants haves commits : List ObjectId}
    {direct had selected : Finset ObjectId} (hdirect : ∀ x, x ∈ direct ↔ x ∈ wants ∧ ¬ o.IsCommit x)
    (hcommits : ∀ c, c ∈ commits ↔ o.Fresh wants haves c ∧ o.IsCommit c)
    (hhad : ∀ x, x ∈ had ↔ o.Had haves x)
    (hrun : Visits o.items had (o.pending o.treeOf commits) (direct ∪ commits.toFinset) selected)
    (x : ObjectId) : x ∈ selected ↔ o.SelectedGit wants haves x := by
  have hfound : ∀ c, o.treeOf c ≠ none → (c ∈ commits ↔ o.Fresh wants haves c) := by
    intro c hc
    rw [hcommits, and_iff_left_iff_imp]
    intro _
    rw [treeOf] at hc
    split at hc
    · rename_i t ps hfind
      exact ⟨t, ps, hfind⟩
    · exact absurd rfl hc
  have hmarks : ∀ t, o.IsTree t → (t ∈ direct ∪ commits.toFinset ↔ t ∈ wants) := by
    intro t ht
    have hnot : ¬ o.IsCommit t := fun hc => hc.not_isTree ht
    rw [Finset.mem_union, hdirect, List.mem_toFinset, hcommits]
    tauto
  rw [mem_of_visits_closed h.separates (fun y hy z hz => (hhad z).mpr (h.had_item ((hhad y).mp hy) hz))
    (separates_pending o.treeOf commits) hrun, met_iff_below h hfound hmarks, SelectedGit, hhad,
      Finset.mem_union, hdirect,
    List.mem_toFinset, hcommits, or_assoc]
  have hcases := fun hfresh : o.Fresh wants haves x => h.reach_parents_cases hfresh.1
  tauto

/-- **What the databases select**, from the runs of their two sides. -/
theorem mem_selectedDb (h : o.Closed) {p : Parser} {wants haves commits : List ObjectId}
    {had needed : Finset ObjectId} (hcommits : ∀ c, c ∈ commits ↔ o.Fresh wants haves c)
    (hhad : ∀ x, x ∈ had ↔ o.Had haves x)
    (hrun : Visits o.items ∅ (o.pending (o.rootOf p) commits)
      (commits.toFinset ∪ wants.toFinset) needed) (x : ObjectId) :
    x ∈ needed \ had ∧ o.find x ≠ none ↔ o.SelectedDb p wants haves x := by
  have hmarks : ∀ t, o.IsTree t → (t ∈ commits.toFinset ∪ wants.toFinset ↔ t ∈ wants) := by
    intro t ht
    rw [Finset.mem_union, List.mem_toFinset, List.mem_toFinset, hcommits, or_iff_right_iff_imp]
    intro hfresh
    exact (h.reach_parents_cases hfresh.1).resolve_right fun hc => hc.not_isTree ht
  rw [Finset.mem_sdiff, mem_of_visits_closed h.separates (fun y hy => absurd hy (Finset.notMem_empty y))
    (separates_pending (o.rootOf p) commits) hrun, met_iff_below h (fun c _ => hcommits c) hmarks, SelectedDb, hhad,
    Finset.mem_union, List.mem_toFinset, List.mem_toFinset, hcommits]
  have hnone := Finset.notMem_empty x
  tauto

/-! ### Wanted commits -/

variable {wants haves : List ObjectId}

theorem isCommit_of_fresh (h : o.Closed) (hwants : ∀ w ∈ wants, o.IsCommit w)
    (hc : o.Fresh wants haves c) : o.IsCommit c :=
  h.isCommit_of_reach hwants hc.1

theorem below_iff (h : o.Closed) (hroot : o.FindsTrees root) (hwants : ∀ w ∈ wants, o.IsCommit w) :
    o.Below root wants haves x ↔ ∃ c t, o.Fresh wants haves c ∧ o.Root c t ∧ o.Contains t x := by
  have havoid : ∀ w ∈ wants, ¬ o.IsTree w := fun w hw => (hwants w hw).not_isTree
  constructor
  · rintro ⟨c, hc, hx⟩
    obtain ⟨t, ps, hfind⟩ := h.isCommit_of_fresh hwants hc
    exact ⟨c, t, hc, ⟨ps, hfind⟩, (h.met_commit_iff hroot havoid ⟨ps, hfind⟩).mp hx⟩
  · rintro ⟨c, t, hc, htree, hx⟩
    exact ⟨c, hc, (h.met_commit_iff hroot havoid htree).mpr hx⟩

theorem fresh_of_reach (h : o.Closed) (hwants : ∀ w ∈ wants, o.IsCommit w)
    (hhaves : ∀ c ∈ haves, o.IsCommit c) (hreach : Reach o.refs wants x)
    (hnot : ¬ Reach o.refs haves x) :
    o.Fresh wants haves x ∨ ∃ c t, o.Fresh wants haves c ∧ o.Root c t ∧ o.InTree t x := by
  rcases (h.reach_commits_iff hwants).mp hreach with hcommit | ⟨c, t, hc, hroot, hin⟩
  · exact Or.inl ⟨hcommit, fun hhave => hnot (reach_refs_of_parents hhave)⟩
  · refine Or.inr ⟨c, t, ⟨hc, fun hhave => hnot ?_⟩, hroot, hin⟩
    exact (h.reach_commits_iff hhaves).mpr (Or.inr ⟨c, t, hhave, hroot, hin⟩)

theorem not_reach_of_fresh (h : o.Closed) (hwants : ∀ w ∈ wants, o.IsCommit w)
    (hhaves : ∀ c ∈ haves, o.IsCommit c) (hc : o.Fresh wants haves c) : ¬ Reach o.refs haves c :=
  fun hreach => hc.2 (h.reach_parents_of_isCommit hhaves (h.isCommit_of_fresh hwants hc) hreach)

theorem not_gitlink_of_inTree (h : o.Closed) {t d x : ObjectId} (ht : o.IsTree t)
    (hin : o.InTree t x) : ¬ o.GitlinkIn d x := by
  intro hlink
  obtain ⟨d', hpath, rfl | ⟨es, hfind, hfile⟩⟩ := hin
  · exact h.not_isTree_gitlink hlink (h.isTree_of_path ht hpath)
  · obtain ⟨content, hcontent⟩ := h.file hfind _ hfile rfl
    obtain ⟨es', hd, he⟩ := hlink
    rcases h.gitlink hd _ he rfl with hnone | ⟨root, ps, hcommit⟩
    · simp [hcontent] at hnone
    · simp [hcontent] at hcommit

theorem reach_of_had_inTree (h : o.Closed) {t x : ObjectId} (ht : o.IsTree t) (hin : o.InTree t x)
    (hhad : o.Had haves x) : Reach o.refs haves x :=
  hhad.resolve_right fun ⟨_, _, hlink⟩ => h.not_gitlink_of_inTree ht hin hlink

theorem find_ne_none_of_reach (h : o.Closed) (htips : ∀ t ∈ tips, o.find t ≠ none)
    (hreach : Reach o.refs tips x) : o.find x ≠ none := by
  obtain ⟨t, ht, hpath⟩ := hreach
  cases hpath with
  | refl => exact htips _ ht
  | @tail y _ _ hedge =>
    rw [Edge] at hedge
    cases hy : o.find y with
    | none => simp [refs, hy] at hedge
    | some obj =>
      rw [refs_of_find hy] at hedge
      cases obj with
      | commit root ps =>
        rcases List.mem_cons.mp hedge with rfl | hp
        · obtain ⟨es, hes⟩ := h.root hy
          simp [hes]
        · exact (h.parent hy _ hp).find_ne_none
      | tree es =>
        obtain ⟨e, he, rfl⟩ := List.mem_map.mp hedge
        obtain ⟨he, hmode⟩ := List.mem_filter.mp he
        cases hkind : e.mode with
        | tree =>
          obtain ⟨es', hes'⟩ := h.subtree hy e he hkind
          simp [hes']
        | blob =>
          obtain ⟨content, hcontent⟩ := h.file hy e he hkind
          simp [hcontent]
        | gitlink => simp [hkind] at hmode
      | blob => exact absurd hedge List.not_mem_nil
      | tag target =>
        obtain rfl := List.mem_singleton.mp hedge
        exact h.target hy

theorem find_ne_none_of_commits (h : o.Closed) (htips : ∀ c ∈ tips, o.IsCommit c)
    (hx : Reach o.refs tips x) : o.find x ≠ none :=
  h.find_ne_none_of_reach (fun c hc => (htips c hc).find_ne_none) hx

end Closed

end Mizzle.Pack.Objects
