import Mizzle.Pack.Builders

/-!
# Wants of any kind

A client may want tags, trees and blobs beside commits. A wanted object that is not walked from is
marked as selected at the start, and the walk over trees does not go into what is marked: below a
wanted tree nothing is looked at, and the target of a wanted tag is not followed at all. So the
selection may lack something that a wanted commit or the target of a wanted tag reaches.

`Covered` is what is selected or known to the client in the end. It is everything needed exactly if
the places where the walk stops short lead to covered objects only (`complete_iff`).
-/

namespace Mizzle.Pack

open Lib

variable {p : Parser} {o : Objects} {wants haves : List ObjectId}

variable {x : ObjectId} {root : ObjectId → Option ObjectId}

namespace Objects

/-- What the client relies on: wanted commits, and the targets of wanted tags. -/
def sources (o : Objects) (wants : List ObjectId) : List ObjectId :=
  wants.flatMap fun w =>
    match o.find w with
    | some (.commit ..) => [w]
    | some (.tag target) => [target]
    | _ => []

/-- The haves reach it, or it is wanted, or a wanted commit reaches it without passing through a
wanted tree. -/
def Covered (o : Objects) (root : ObjectId → Option ObjectId) (wants haves : List ObjectId)
    (x : ObjectId) : Prop :=
  Reach o.refs haves x ∨ x ∈ wants ∨ Reach o.parents wants x ∨
    ∃ c, Reach o.parents wants c ∧ Met o.items (· ∈ wants) (o.pending root [c]) x

/-- The walk takes it without going on: a wanted tree, or what is no tree and stands for one in a
wanted blob. -/
def Stop (o : Objects) (root : ObjectId → Option ObjectId) (wants : List ObjectId) (x : ObjectId) :
    Prop :=
  (x ∈ wants ∧ o.IsTree x) ∨ (∃ w ∈ wants, root w = some x) ∧ ¬ o.IsTree x

/-- Where the walk does not go on, what comes next is covered otherwise. -/
structure StopsCovered (o : Objects) (root : ObjectId → Option ObjectId)
    (wants haves : List ObjectId) : Prop where
  tag : ∀ g x, g ∈ wants → o.find g = some (.tag x) → o.Covered root wants haves x
  stop : ∀ d, o.Stop root wants d → Reach o.refs (o.sources wants) d → ∀ x ∈ o.refs d, o.Covered root wants haves x

theorem mem_sources :
    x ∈ o.sources wants ↔ (x ∈ wants ∧ o.IsCommit x) ∨ ∃ g ∈ wants, o.find g = some (.tag x) := by
  simp only [sources, List.mem_flatMap]
  constructor
  · rintro ⟨w, hw, hx⟩
    split at hx
    · rename_i t ps hfind
      obtain rfl := List.mem_singleton.mp hx
      exact Or.inl ⟨hw, t, ps, hfind⟩
    · rename_i target hfind
      obtain rfl := List.mem_singleton.mp hx
      exact Or.inr ⟨w, hw, hfind⟩
    · simp at hx
  · rintro (⟨hw, t, ps, hfind⟩ | ⟨g, hg, hfind⟩)
    · exact ⟨x, hw, by simp [hfind]⟩
    · exact ⟨g, hg, by simp [hfind]⟩

namespace Closed

theorem covered_commit (h : o.Closed) (hroot : o.FindsTrees root) {c x : ObjectId}
    (hc : Reach o.parents wants c) (hcommit : o.IsCommit c) (hx : x ∈ o.refs c) :
    o.Covered root wants haves x := by
  obtain ⟨t, ps, hfind⟩ := hcommit
  rw [refs_of_find hfind] at hx
  rcases List.mem_cons.mp hx with rfl | hparent
  · by_cases hwanted : x ∈ wants
    · exact Or.inr (Or.inl hwanted)
    · refine Or.inr (Or.inr (Or.inr ⟨c, hc, Or.inl ?_⟩))
      rw [h.pending_singleton hroot ⟨ps, hfind⟩]
      exact ⟨x, List.mem_singleton_self _, hwanted, .refl⟩
  · refine Or.inr (Or.inr (Or.inl (reach_step hc ?_)))
    rwa [parents_of_find hfind]

theorem covered_entered (h : o.Closed) {c d x : ObjectId} (hc : Reach o.parents wants c)
    (hd : Entered o.items (· ∈ wants) (o.pending root [c]) d) (hx : x ∈ o.refs d) :
    o.Covered root wants haves x := by
  have htree : o.IsTree d := by
    obtain ⟨r, hr, -, hpath⟩ := hd
    cases hpath with
    | refl => exact (separates_pending root [c] d).1 hr
    | tail _ hstep => exact (h.separates _ d).1 hstep.1
  obtain ⟨es, hes⟩ := htree
  rcases (mem_refs_tree hes).mp hx with hnode | hfile
  · by_cases hwanted : x ∈ wants
    · exact Or.inr (Or.inl hwanted)
    · obtain ⟨r, hr, hnot, hpath⟩ := hd
      exact Or.inr (Or.inr (Or.inr ⟨c, hc, Or.inl ⟨r, hr, hnot, hpath.tail ⟨hnode, hwanted⟩⟩⟩))
  · refine Or.inr (Or.inr (Or.inr ⟨c, hc, Or.inr (Or.inr ⟨d, hd, ?_⟩)⟩))
    exact leaf_iff.mpr (Or.inl ⟨es, hes, hfile⟩)

theorem refs_leaf (h : o.Closed) (hno : o.NoGitlinks) {d x : ObjectId} (hx : .leaf x ∈ o.items d) :
    o.refs x = [] := by
  rcases leaf_iff.mp hx with ⟨es, hes, hfile⟩ | ⟨es, hes, hlink⟩
  · obtain ⟨content, hcontent⟩ := h.file hes _ hfile rfl
    rw [refs_of_find hcontent]
    rfl
  · exact absurd rfl (hno d es hes _ hlink)

/-- **Everything that is relied on is covered exactly if the stops are.** -/
theorem complete_iff (h : o.Closed) (hno : o.NoGitlinks) (hroot : o.FindsTrees root) :
    (∀ x, Reach o.refs (o.sources wants) x → o.Covered root wants haves x) ↔
      o.StopsCovered root wants haves := by
  constructor
  · intro hall
    exact ⟨fun g x hg hfind => hall x (reach_self (mem_sources.mpr (Or.inr ⟨g, hg, hfind⟩))),
      fun d _ hd x hx => hall x (reach_step hd hx)⟩
  · rintro hstops x ⟨s, hs, hpath⟩
    induction hpath with
    | refl =>
      rcases mem_sources.mp hs with ⟨hwanted, -⟩ | ⟨g, hg, hfind⟩
      · exact Or.inr (Or.inl hwanted)
      · exact hstops.tag g s hg hfind
    | @tail y z hpath hedge ih =>
      have hreach : Reach o.refs (o.sources wants) y := ⟨s, hs, hpath⟩
      -- a wanted object that the walk does not start from is a stop
      have hwant : y ∈ wants → o.Covered root wants haves z := by
        intro hy
        rw [Edge] at hedge
        cases hfind : o.find y with
        | none => simp [refs, hfind] at hedge
        | some obj =>
          cases obj with
          | commit t ps => exact h.covered_commit hroot (reach_self hy) ⟨t, ps, hfind⟩ hedge
          | tree es => exact hstops.stop y (Or.inl ⟨hy, es, hfind⟩) hreach z hedge
          | blob => simp [refs_of_find hfind, GitObject.refs] at hedge
          | tag target =>
            rw [refs_of_find hfind] at hedge
            obtain rfl := List.mem_singleton.mp hedge
            exact hstops.tag y z hy hfind
      rcases ih with hhave | hy | hwalked | ⟨c, hc, hentered | hitem | ⟨d, -, hleaf⟩⟩
      · exact Or.inl (reach_step hhave hedge)
      · exact hwant hy
      · exact (h.reach_parents_cases hwalked).elim hwant fun hcommit => h.covered_commit hroot hwalked hcommit hedge
      · exact h.covered_entered hc hentered hedge
      · have hnot : ¬ o.IsTree y := (separates_pending root [c] y).2 hitem
        obtain ⟨t, ht, hty⟩ := List.mem_map.mp hitem
        obtain ⟨c', hc', hfound⟩ := List.mem_filterMap.mp ht
        obtain rfl := List.mem_singleton.mp hc'
        obtain rfl : t = y := by
          rw [rootItem] at hty
          split at hty
          · simp at hty
          · exact Item.leaf.inj hty
        -- a commit has a tree, so this is a wanted blob
        rcases h.reach_parents_cases hc with hw | ⟨t', ps, hfind⟩
        · exact hstops.stop t (Or.inr ⟨⟨c', hw, hfound⟩, hnot⟩) hreach z hedge
        · obtain rfl : t' = t := by simpa [hroot c' t' ⟨ps, hfind⟩] using hfound
          exact absurd (h.root hfind) hnot
      · rw [Edge, h.refs_leaf hno hleaf] at hedge
        exact absurd hedge List.not_mem_nil

theorem reach_of_met (h : o.Closed) (hno : o.NoGitlinks) (hroot : o.FindsTrees root)
    (hhaves : ∀ c ∈ haves, o.IsCommit c) {avoid : ObjectId → Prop} {c x : ObjectId}
    (hc : Reach o.parents haves c) (hx : Met o.items avoid (o.pending root [c]) x) :
    Reach o.refs haves x := by
  obtain ⟨t, ps, hfind⟩ := h.isCommit_of_reach hhaves hc
  have hfree : Met o.items (fun _ => False) (o.pending root [c]) x :=
    hx.congr h.separates (separates_pending root [c]) fun _ _ hfalse => hfalse.elim
  have hin := (h.met_commit_iff hroot (fun _ hfalse => hfalse.elim) ⟨ps, hfind⟩).mp hfree
  exact (h.reach_commits_iff hhaves).mpr (Or.inr ⟨c, t, hc, ⟨ps, hfind⟩, (contains_iff_inTree hno).mp hin⟩)

theorem below_or_reach_iff (h : o.Closed) (hno : o.NoGitlinks) (hroot : o.FindsTrees root)
    (hhaves : ∀ c ∈ haves, o.IsCommit c) : o.Covered root wants haves x ↔
      Reach o.refs haves x ∨ x ∈ wants ∨ o.Fresh wants haves x ∨ o.Below root wants haves x := by
  constructor
  · rintro (hx | hx | hx | ⟨c, hc, hx⟩)
    · exact Or.inl hx
    · exact Or.inr (Or.inl hx)
    · by_cases hhave : Reach o.parents haves x
      · exact Or.inl (reach_refs_of_parents hhave)
      · exact Or.inr (Or.inr (Or.inl ⟨hx, hhave⟩))
    · by_cases hhave : Reach o.parents haves c
      · exact Or.inl (h.reach_of_met hno hroot hhaves hhave hx)
      · exact Or.inr (Or.inr (Or.inr ⟨c, ⟨hc, hhave⟩, hx⟩))
  · rintro (hx | hx | hx | ⟨c, hc, hx⟩)
    · exact Or.inl hx
    · exact Or.inr (Or.inl hx)
    · exact Or.inr (Or.inr (Or.inl hx.1))
    · exact Or.inr (Or.inr (Or.inr ⟨c, hc.1, hx⟩))

theorem selectedGit_or_iff (h : o.Closed) (hno : o.NoGitlinks)
    (hhaves : ∀ c ∈ haves, o.IsCommit c) :
    (o.SelectedGit wants haves x ∨ Reach o.refs haves x) ↔ o.Covered o.treeOf wants haves x := by
  rw [h.below_or_reach_iff hno findsTrees_treeOf hhaves, SelectedGit, had_iff_reach hno]
  have hwanted : x ∈ wants → ¬ Reach o.refs haves x → o.Fresh wants haves x := fun hx hnot =>
    ⟨reach_self hx, fun hhave => hnot (reach_refs_of_parents hhave)⟩
  tauto

theorem selectedDb_or_iff (h : o.Closed) (hno : o.NoGitlinks) (hhaves : ∀ c ∈ haves, o.IsCommit c)
    (hx : o.find x ≠ none) :
    (o.SelectedDb p wants haves x ∨ Reach o.refs haves x) ↔
      o.Covered (o.rootOf p) wants haves x := by
  rw [h.below_or_reach_iff hno (findsTrees_rootOf p) hhaves, SelectedDb, had_iff_reach hno]
  tauto

end Closed

end Objects

/-- Everything that a wanted commit or the target of a wanted tag reaches is selected or reached by
the haves. -/
def Complete (o : Objects) (wants haves : List ObjectId) (selected : Finset ObjectId) : Prop :=
  ∀ x, Reach o.refs (o.sources wants) x → x ∈ selected ∨ Reach o.refs haves x

section Builders

variable (hclosed : o.Closed) (hno : o.NoGitlinks) (hwants : ∀ w ∈ wants, o.find w ≠ none)
  (hhaves : ∀ c ∈ haves, o.IsCommit c)

include hclosed hwants in
theorem find_ne_none_of_sources (hx : Reach o.refs (o.sources wants) x) : o.find x ≠ none := by
  refine hclosed.find_ne_none_of_reach (fun s hs => ?_) hx
  rcases Objects.mem_sources.mp hs with ⟨hw, -⟩ | ⟨g, -, hfind⟩
  · exact hwants s hw
  · exact hclosed.target hfind

include hclosed hno hhaves in
theorem complete_git_iff {selected : Finset ObjectId}
    (hselected : ∀ x, x ∈ selected ↔ o.SelectedGit wants haves x) :
    Complete o wants haves selected ↔ o.StopsCovered o.treeOf wants haves := by
  rw [← hclosed.complete_iff hno Objects.findsTrees_treeOf]
  refine forall₂_congr fun x _ => ?_
  rw [hselected, hclosed.selectedGit_or_iff hno hhaves]

include hclosed hno hwants hhaves in
theorem complete_db_iff {selected : Finset ObjectId}
    (hselected : ∀ x, x ∈ selected ↔ o.SelectedDb p wants haves x) :
    Complete o wants haves selected ↔ o.StopsCovered (o.rootOf p) wants haves := by
  rw [← hclosed.complete_iff hno (Objects.findsTrees_rootOf p)]
  refine forall₂_congr fun x hx => ?_
  rw [hselected, hclosed.selectedDb_or_iff hno hhaves (find_ne_none_of_sources hclosed hwants hx)]

end Builders

/-- **When a fetch with wants of any kind is complete.** -/
theorem mixedWants_complete_iff (hclosed : o.Closed) (hno : o.NoGitlinks)
    (hacyclic : Acyclic o.parents) (hwants : ∀ w ∈ wants, o.find w ≠ none)
    (hhaves : ∀ c ∈ haves, o.IsCommit c) :
    (∀ odb : Odb, odb.Stores p o →
        (Outcome.Ends (fun fuel => objectsForFetchFiltered p odb fuel wants haves none none)
          (fun r => Complete o wants haves r.objects) ↔ o.StopsCovered o.treeOf wants haves)) ∧
      (∀ (db : Sql.Db) (repo : Int), Sql.Stores p o db repo →
        (Outcome.Ends (fun fuel => (Sql.database p fuel db repo).selectObjects wants haves) (Complete o wants haves) ↔
          o.StopsCovered (o.rootOf p) wants haves)) ∧
      ∀ (s : Kv.Store) (repo : UInt64), Kv.Stores p o s repo →
        (Outcome.Ends (fun fuel => (Kv.database p fuel s repo).selectObjects wants haves) (Complete o wants haves) ↔
          o.StopsCovered (o.rootOf p) wants haves) := by
  refine ⟨fun odb h => ?_, fun db repo h => ?_, fun s repo h => ?_⟩
  · exact (fetch_ends hclosed hwants hhaves h).ends_iff fun r hr => complete_git_iff hclosed hno hhaves hr
  · exact (sql_ends hclosed hacyclic hhaves h).ends_iff fun r hr => complete_db_iff hclosed hno hwants hhaves hr
  · exact (kv_ends hclosed hhaves h).ends_iff fun r hr => complete_db_iff hclosed hno hwants hhaves hr

/-! ### A tree or a tag beside a commit -/

/-- A commit, its tree with one file, and a tag of the commit. -/
def taggedEntries : List (ObjectId × GitObject) :=
  [(.fill 1, .commit (.fill 3) []), (.fill 3, .tree [⟨.blob, .fill 5⟩]), (.fill 5, .blob []), (.fill 7, .tag (.fill 1))]

def taggedStore : Objects := .ofList taggedEntries

def taggedTables : Sql.Db :=
  Sql.ingestPack taggedStore.content Sql.emptyTables 1 (taggedEntries.map Prod.fst)

def taggedKeys : Kv.Store := Kv.ingestPack taggedStore.content ∅ 1 (taggedEntries.map Prod.fst)

theorem closed_taggedStore : taggedStore.Closed := Objects.closed_of_closedAt (by decide +kernel)

theorem noGitlinks_taggedStore : taggedStore.NoGitlinks :=
  Objects.noGitlinks_of_forall (by decide +kernel)

theorem parents_taggedStore (c : ObjectId) : taggedStore.parents c = [] :=
  List.eq_nil_of_length_eq_zero (Nat.le_zero.mp (Objects.length_parents_le (by decide +kernel) c))

theorem acyclic_taggedStore : Acyclic taggedStore.parents :=
  Objects.acyclic_of_rank (fun _ => 0) fun c _ q hq => by simp [parents_taggedStore] at hq

theorem few_taggedStore (n : Nat) (c : ObjectId) : (taggedStore.parents c).length ≤ n := by
  simp [parents_taggedStore]

theorem stores_taggedTables : Sql.Stores taggedStore.parser taggedStore taggedTables 1 :=
  Sql.stores_ingestPack (fun _ => Objects.mem_keys_ofList) (few_taggedStore _) 1

theorem stores_taggedKeys : Kv.Stores taggedStore.parser taggedStore taggedKeys 1 :=
  Kv.stores_ingestPack (fun _ => Objects.mem_keys_ofList) (few_taggedStore _) 1

/-- **A wanted tree hides its files from a wanted commit, and a wanted tag does not bring its
target**: the three builders end without the file that the wanted commit reaches, and without the
commit that the wanted tag points to. -/
theorem mixedWants_incomplete :
    ((objectsForFetchFiltered taggedStore.parser taggedStore.odb 9
      [.fill 3, .fill 1] [] none none).Gives
        (fun r => .fill 5 ∉ r.objects) ∧
      ((Sql.database taggedStore.parser 9 taggedTables 1).selectObjects [.fill 3, .fill 1] []).Gives (.fill 5 ∉ ·) ∧
      ((Kv.database taggedStore.parser 9 taggedKeys 1).selectObjects [.fill 3, .fill 1] []).Gives (.fill 5 ∉ ·) ∧
      Reach taggedStore.refs (taggedStore.sources [.fill 3, .fill 1]) (.fill 5) ∧
        ¬ Reach taggedStore.refs [] (.fill 5)) ∧
    ((objectsForFetchFiltered taggedStore.parser taggedStore.odb 9 [.fill 7] [] none none).Gives
        (fun r => .fill 1 ∉ r.objects) ∧
      ((Sql.database taggedStore.parser 9 taggedTables 1).selectObjects [.fill 7] []).Gives (.fill 1 ∉ ·) ∧
      ((Kv.database taggedStore.parser 9 taggedKeys 1).selectObjects [.fill 7] []).Gives (.fill 1 ∉ ·) ∧
      Reach taggedStore.refs (taggedStore.sources [.fill 7]) (.fill 1) ∧ ¬ Reach taggedStore.refs [] (.fill 1)) := by
  refine ⟨⟨by decide +kernel, by decide +kernel, by decide +kernel, ?_, by simp⟩, by decide +kernel, by decide +kernel,
    by decide +kernel, reach_self (by decide +kernel), by simp⟩
  have htree : Reach taggedStore.refs (taggedStore.sources [.fill 3, .fill 1]) (.fill 3) :=
    reach_step (reach_self (c := .fill 1) (by decide +kernel)) (by decide +kernel)
  exact reach_step htree (by decide +kernel)

/-- A commit and a tag of it, both wanted. -/
theorem mixedWants_complete_taggedStore :
    Outcome.Ends (fun fuel => objectsForFetchFiltered taggedStore.parser taggedStore.odb fuel
      [.fill 1, .fill 7] [] none none)
        (fun r => Complete taggedStore [.fill 1, .fill 7] [] r.objects) ∧
      Outcome.Ends (fun fuel =>
        (Sql.database taggedStore.parser fuel taggedTables 1).selectObjects [.fill 1, .fill 7] [])
        (Complete taggedStore [.fill 1, .fill 7] []) ∧
      Outcome.Ends (fun fuel => (Kv.database taggedStore.parser fuel taggedKeys 1).selectObjects [.fill 1, .fill 7] [])
        (Complete taggedStore [.fill 1, .fill 7] []) := by
  obtain ⟨hgit, hsql, hkv⟩ := @mixedWants_complete_iff taggedStore.parser taggedStore [.fill 1, .fill 7] []
    closed_taggedStore noGitlinks_taggedStore acyclic_taggedStore (by decide +kernel)
    fun c hc => absurd hc List.not_mem_nil
  have hstops : ∀ root : ObjectId → Option ObjectId, root (.fill 1) = some (.fill 3) → root (.fill 7) = none →
      taggedStore.StopsCovered root [.fill 1, .fill 7] [] := by
    intro root hcommit htag
    refine ⟨fun g x hg hfind => Or.inr (Or.inl ?_), fun d hd _ => ?_⟩
    · rcases List.mem_pair.mp hg with rfl | rfl
      · have hkind : taggedStore.find (.fill 1) = some (.commit (.fill 3) []) := by decide +kernel
        simp [hkind] at hfind
      · have htarget : taggedStore.find (.fill 7) = some (.tag (.fill 1)) := by decide +kernel
        obtain rfl : ObjectId.fill 1 = x := by simpa [htarget] using hfind
        exact List.mem_cons_self
    · -- neither want is a tree, and the root of the commit is one
      have hwanted : ∀ w ∈ [ObjectId.fill 1, .fill 7], ¬ taggedStore.IsTree w := by decide +kernel
      have hroot : taggedStore.IsTree (.fill 3) := by decide +kernel
      rcases hd with ⟨hw, htree⟩ | ⟨⟨w, hw, hfound⟩, hnot⟩
      · exact absurd htree (hwanted d hw)
      · rcases List.mem_pair.mp hw with rfl | rfl
        · obtain rfl : ObjectId.fill 3 = d := by simpa [hcommit] using hfound
          exact absurd hroot hnot
        · simp [htag] at hfound
  exact ⟨(hgit _ (Objects.stores_odb closed_taggedStore)).mpr (hstops _ (by decide +kernel) (by decide +kernel)),
    (hsql _ _ stores_taggedTables).mpr (hstops _ (by decide +kernel) (by decide +kernel)),
    (hkv _ _ stores_taggedKeys).mpr (hstops _ (by decide +kernel) (by decide +kernel))⟩

end Mizzle.Pack
