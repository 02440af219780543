import Mizzle.Pack.Builders

/-!
# Submodules

A gitlink names a commit of another repository, and may by accident name a commit of this one. The
visitors treat it as a file: on the want side it is selected, stored or not, and on the have side it
counts as known. So gitoxide may hand an oid to the pack writer that names no stored object
(`allStored_iff`), and the databases may leave out a wanted commit that is a gitlink in a tree of
the haves (`keepsNeeded_iff`). Gitoxide leaves out nothing that is needed, since it takes the
commits of the wants without a look at the have set; the databases look up every oid, so they hand
over nothing that is not stored.
-/

namespace Mizzle.Pack

open Lib

variable {p : Parser} {o : Objects} {wants haves : List ObjectId}

/-- Every selected oid names a stored object. -/
def AllStored (o : Objects) (selected : Finset ObjectId) : Prop := ∀ x ∈ selected, o.find x ≠ none

/-- What the wants reach and the haves do not is selected. -/
def KeepsNeeded (o : Objects) (wants haves : List ObjectId) (selected : Finset ObjectId) : Prop :=
  ∀ x, Reach o.refs wants x → ¬ Reach o.refs haves x → x ∈ selected

/-- Every gitlink in a tree that only the wants reach is stored, or is also in a tree of the
haves. -/
def NewGitlinksStored (o : Objects) (wants haves : List ObjectId) : Prop :=
  ∀ d x, Reach o.refs wants d → ¬ Reach o.refs haves d → o.GitlinkIn d x →
    o.find x ≠ none ∨ ∃ t, Reach o.refs haves t ∧ o.GitlinkIn t x

/-- Every gitlink in a tree of the haves that the wants reach, the haves reach as well. -/
def OldGitlinksHad (o : Objects) (wants haves : List ObjectId) : Prop :=
  ∀ t x, Reach o.refs haves t → o.GitlinkIn t x → Reach o.refs wants x → Reach o.refs haves x

namespace Objects.Closed

theorem below_cases (h : o.Closed) (hwants : ∀ w ∈ wants, o.IsCommit w) {x : ObjectId}
    (hx : o.Below o.treeOf wants haves x) :
    Reach o.refs wants x ∨ o.Had haves x ∨ ∃ d, Reach o.refs wants d ∧ ¬ Reach o.refs haves d ∧
      o.GitlinkIn d x := by
  obtain ⟨c, t, hc, hroot, hin⟩ := (h.below_iff findsTrees_treeOf hwants).mp hx
  rcases contains_iff.mp hin with hin | ⟨d, hpath, hlink⟩
  · exact Or.inl ((h.reach_commits_iff hwants).mpr (Or.inr ⟨c, t, hc.1, hroot, hin⟩))
  · have hd : Reach o.refs wants d :=
      (h.reach_commits_iff hwants).mpr (Or.inr ⟨c, t, hc.1, hroot, d, hpath, Or.inl rfl⟩)
    by_cases hhave : Reach o.refs haves d
    · exact Or.inr (Or.inl (Or.inr ⟨d, hhave, hlink⟩))
    · exact Or.inr (Or.inr ⟨d, hd, hhave, hlink⟩)

theorem below_of_gitlink (h : o.Closed) (hwants : ∀ w ∈ wants, o.IsCommit w)
    (hhaves : ∀ c ∈ haves, o.IsCommit c) {d x : ObjectId} (hd : Reach o.refs wants d)
    (hnot : ¬ Reach o.refs haves d) (hlink : o.GitlinkIn d x) : o.Below o.treeOf wants haves x := by
  have htree : o.IsTree d := by
    obtain ⟨es, hes, -⟩ := hlink
    exact ⟨es, hes⟩
  obtain ⟨c, t, hc, hroot, hpath⟩ := h.reach_isTree hwants htree hd
  refine (h.below_iff findsTrees_treeOf hwants).mpr ⟨c, t, ⟨hc, fun hhave => hnot ?_⟩, hroot, ?_⟩
  · exact (h.reach_commits_iff hhaves).mpr (Or.inr ⟨c, t, hhave, hroot, d, hpath, Or.inl rfl⟩)
  · exact contains_iff.mpr (Or.inr ⟨d, hpath, hlink⟩)

/-- **When gitoxide selects stored objects only.** -/
theorem allStored_iff (h : o.Closed) (hwants : ∀ w ∈ wants, o.IsCommit w)
    (hhaves : ∀ c ∈ haves, o.IsCommit c) {selected : Finset ObjectId}
    (hselected : ∀ x, x ∈ selected ↔ o.SelectedGit wants haves x) :
    AllStored o selected ↔ NewGitlinksStored o wants haves := by
  constructor
  · intro hall d x hd hnot hlink
    by_cases hhad : o.Had haves x
    · rcases hhad with hreach | hgitlink
      · exact Or.inl (h.find_ne_none_of_commits hhaves hreach)
      · exact Or.inr hgitlink
    · exact Or.inl (hall x ((hselected x).mpr (Or.inr (Or.inr ⟨hhad, h.below_of_gitlink hwants hhaves hd hnot hlink⟩))))
  · intro hstored x hx
    rcases (hselected x).mp hx with ⟨hw, hnot⟩ | hfresh | ⟨hnot, hbelow⟩
    · exact absurd (hwants x hw) hnot
    · exact h.find_ne_none_of_commits hwants (reach_refs_of_parents hfresh.1)
    · rcases h.below_cases hwants hbelow with hreach | hhad | ⟨d, hd, hnew, hlink⟩
      · exact h.find_ne_none_of_commits hwants hreach
      · exact absurd hhad hnot
      · exact (hstored d x hd hnew hlink).resolve_right fun hold => hnot (Or.inr hold)

theorem keepsNeeded_git (h : o.Closed) (hwants : ∀ w ∈ wants, o.IsCommit w)
    (hhaves : ∀ c ∈ haves, o.IsCommit c) {selected : Finset ObjectId}
    (hselected : ∀ x, x ∈ selected ↔ o.SelectedGit wants haves x) :
    KeepsNeeded o wants haves selected := by
  intro x hreach hnot
  refine (hselected x).mpr (Or.inr ?_)
  refine (h.fresh_of_reach hwants hhaves hreach hnot).imp id fun ⟨c, t, hc, hroot, hin⟩ => ⟨fun hhad => hnot ?_, ?_⟩
  · have htree : o.IsTree t := by
      obtain ⟨ps, hps⟩ := hroot
      exact h.root hps
    exact h.reach_of_had_inTree htree hin hhad
  · exact (h.below_iff findsTrees_treeOf hwants).mpr ⟨c, t, hc, hroot, contains_iff.mpr (Or.inl hin)⟩

/-- **When the databases leave out nothing that is needed.** -/
theorem keepsNeeded_iff (h : o.Closed) (hwants : ∀ w ∈ wants, o.IsCommit w)
    (hhaves : ∀ c ∈ haves, o.IsCommit c) {selected : Finset ObjectId}
    (hselected : ∀ x, x ∈ selected ↔ o.SelectedDb p wants haves x) :
    KeepsNeeded o wants haves selected ↔ OldGitlinksHad o wants haves := by
  constructor
  · intro hall t x ht hlink hreach
    by_contra hnot
    exact ((hselected x).mp (hall x hreach hnot)).2.1 (Or.inr ⟨t, ht, hlink⟩)
  · intro hold x hreach hnot
    refine (hselected x).mpr ⟨h.find_ne_none_of_commits hwants hreach, ?_, Or.inr ?_⟩
    · rintro (hhave | ⟨t, ht, hlink⟩)
      · exact hnot hhave
      · exact hnot (hold t x ht hlink hreach)
    · refine (h.fresh_of_reach hwants hhaves hreach hnot).imp id fun ⟨c, t, hc, hroot, hin⟩ => ?_
      exact (h.below_iff (findsTrees_rootOf p) hwants).mpr ⟨c, t, hc, hroot, contains_iff.mpr (Or.inl hin)⟩

end Objects.Closed

/-- **When submodules do not disturb a fetch.** -/
theorem gitlinks_harmless_iff (hclosed : o.Closed) (hacyclic : Acyclic o.parents)
    (hwants : ∀ w ∈ wants, o.IsCommit w) (hhaves : ∀ c ∈ haves, o.IsCommit c) :
    (∀ odb : Odb, odb.Stores p o →
        (Outcome.Ends (fun fuel => objectsForFetchFiltered p odb fuel wants haves none none)
          (fun r => AllStored o r.objects ∧ KeepsNeeded o wants haves r.objects) ↔ NewGitlinksStored o wants haves)) ∧
      (∀ (db : Sql.Db) (repo : Int), Sql.Stores p o db repo →
        (Outcome.Ends (fun fuel => (Sql.database p fuel db repo).selectObjects wants haves)
          (KeepsNeeded o wants haves) ↔
          OldGitlinksHad o wants haves)) ∧
      ∀ (s : Kv.Store) (repo : UInt64), Kv.Stores p o s repo →
        (Outcome.Ends (fun fuel => (Kv.database p fuel s repo).selectObjects wants haves) (KeepsNeeded o wants haves) ↔
          OldGitlinksHad o wants haves) := by
  have hfound : ∀ w ∈ wants, o.find w ≠ none := fun w hw => (hwants w hw).find_ne_none
  refine ⟨fun odb h => ?_, fun db repo h => ?_, fun s repo h => ?_⟩
  · refine (fetch_ends hclosed hfound hhaves h).ends_iff fun r hr => ?_
    rw [hclosed.allStored_iff hwants hhaves hr, and_iff_left (hclosed.keepsNeeded_git hwants hhaves hr)]
  · exact (sql_ends hclosed hacyclic hhaves h).ends_iff fun r hr => hclosed.keepsNeeded_iff hwants hhaves hr
  · exact (kv_ends hclosed hhaves h).ends_iff fun r hr => hclosed.keepsNeeded_iff hwants hhaves hr

/-! ### A commit that is a gitlink of another -/

/-- Two commits; the tree of the first has a gitlink for the second, that of the second one for a
commit elsewhere. -/
def submoduleEntries : List (ObjectId × GitObject) :=
  [(.fill 1, .commit (.fill 3) []), (.fill 3, .tree [⟨.gitlink, .fill 2⟩]), (.fill 2, .commit (.fill 4) []),
    (.fill 4, .tree [⟨.gitlink, .fill 9⟩])]

def submoduleStore : Objects := .ofList submoduleEntries

def submoduleTables : Sql.Db :=
  Sql.ingestPack submoduleStore.content Sql.emptyTables 1 (submoduleEntries.map Prod.fst)

def submoduleKeys : Kv.Store :=
  Kv.ingestPack submoduleStore.content ∅ 1 (submoduleEntries.map Prod.fst)

theorem closed_submoduleStore : submoduleStore.Closed :=
  Objects.closed_of_closedAt (by decide +kernel)

theorem parents_submoduleStore (c : ObjectId) : submoduleStore.parents c = [] :=
  List.eq_nil_of_length_eq_zero (Nat.le_zero.mp (Objects.length_parents_le (by decide +kernel) c))

theorem few_submoduleStore (n : Nat) (c : ObjectId) : (submoduleStore.parents c).length ≤ n := by
  simp [parents_submoduleStore]

theorem reach_submoduleStore {x : ObjectId} (h : Reach submoduleStore.refs [.fill 1] x) :
    x ∈ [ObjectId.fill 1, .fill 3] :=
  Objects.mem_of_reach (by decide +kernel) (by decide +kernel) h

/-- With the second commit wanted and the first had, gitoxide hands over the oid that is stored
nowhere, and the databases leave out the wanted commit. -/
theorem gitlinks_disturb :
    (objectsForFetchFiltered submoduleStore.parser submoduleStore.odb 9 [.fill 2] [.fill 1]
      none none).Gives
        (fun r => .fill 9 ∈ r.objects) ∧ submoduleStore.find (.fill 9) = none ∧
      ((Sql.database submoduleStore.parser 9 submoduleTables 1).selectObjects [.fill 2] [.fill 1]).Gives (.fill 2 ∉ ·) ∧
      ((Kv.database submoduleStore.parser 9 submoduleKeys 1).selectObjects [.fill 2] [.fill 1]).Gives (.fill 2 ∉ ·) ∧
      Reach submoduleStore.refs [.fill 2] (.fill 2) ∧ ¬ Reach submoduleStore.refs [.fill 1] (.fill 2) := by
  refine ⟨by decide +kernel, by decide +kernel, by decide +kernel, by
    decide +kernel, reach_self (by decide), fun h => ?_⟩
  exact absurd (reach_submoduleStore h) (by decide)

/-- With the first commit wanted and the second had, all three are right. -/
theorem gitlinks_harmless_submoduleStore :
    Outcome.Ends (fun fuel => objectsForFetchFiltered submoduleStore.parser submoduleStore.odb fuel
      [.fill 1] [.fill 2]
        none none) (fun r => AllStored submoduleStore r.objects ∧
          KeepsNeeded submoduleStore [.fill 1] [.fill 2] r.objects) ∧
      Outcome.Ends (fun fuel => (Sql.database submoduleStore.parser fuel submoduleTables
        1).selectObjects [.fill 1] [.fill 2])
        (KeepsNeeded submoduleStore [.fill 1] [.fill 2]) ∧
      Outcome.Ends (fun fuel =>
        (Kv.database submoduleStore.parser fuel submoduleKeys 1).selectObjects [.fill 1] [.fill 2])
        (KeepsNeeded submoduleStore [.fill 1] [.fill 2]) := by
  obtain ⟨hgit, hsql, hkv⟩ := @gitlinks_harmless_iff submoduleStore.parser submoduleStore [.fill 1] [.fill 2]
    closed_submoduleStore (Objects.acyclic_of_rank (fun _ => 0) fun c _ q hq => by simp [parents_submoduleStore] at hq)
    (by decide +kernel) (by decide +kernel)
  have hfirst : submoduleStore.find (.fill 1) = some (.commit (.fill 3) []) := by decide +kernel
  have htree : submoduleStore.find (.fill 3) = some (.tree [⟨.gitlink, .fill 2⟩]) := by decide +kernel
  have hnew : NewGitlinksStored submoduleStore [.fill 1] [.fill 2] := by
    rintro d x hd - ⟨es, hes, he⟩
    rcases List.mem_pair.mp (reach_submoduleStore hd) with rfl | rfl
    · simp [hfirst] at hes
    · obtain rfl : [⟨.gitlink, .fill 2⟩] = es := by simpa [htree] using hes
      obtain rfl : x = .fill 2 := by simpa using he
      exact Or.inl (by decide +kernel)
  have hold : OldGitlinksHad submoduleStore [.fill 1] [.fill 2] := by
    rintro t x ht ⟨es, hes, he⟩ hx
    -- the first commit reaches itself and a tree, and neither is a gitlink
    have hlink : ∀ t ∈ submoduleStore.oids, ∀ e ∈ ((submoduleStore.find t).map GitObject.entries).getD [],
        e.oid ∉ [ObjectId.fill 1, .fill 3] := by decide +kernel
    refine absurd (reach_submoduleStore hx) (hlink t (submoduleStore.mem_oids t _ hes) ⟨.gitlink, x⟩ ?_)
    simpa [hes, GitObject.entries] using he
  have hoids : ∀ x, x ∈ submoduleEntries.map Prod.fst ↔ submoduleStore.find x ≠ none := fun x => Objects.mem_keys_ofList
  exact ⟨(hgit _ (Objects.stores_odb closed_submoduleStore)).mpr hnew,
    (hsql _ _ (Sql.stores_ingestPack hoids (few_submoduleStore _) 1)).mpr hold,
    (hkv _ _ (Kv.stores_ingestPack hoids (few_submoduleStore _) 1)).mpr hold⟩

end Mizzle.Pack
