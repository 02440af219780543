import Mizzle.Pack.Filters

/-!
# The options of a fetch on the three backends

The server advertises `shallow filter` whatever the backend is. gitoxide reads the depth and the
filter; `build_pack` of the two databases uses its options for the name of the cached file only,
packs everything and reports no shallow commit.

So the backends agree on a request exactly if its options have nothing to do (`options_agree_iff`):
nothing is cut off at the depth, the commits within it are those of the fetch without a depth, and
there is nothing that the filter would remove.
-/

namespace Mizzle.Pack

open Lib

/-- What `build_pack` packs on a cache miss, and the shallow commits that it reports. -/
def Database.buildPack (d : Database) (wants haves : List ObjectId) (_opts : PackOptions) :
    Outcome String (Finset ObjectId × List ObjectId) := do
  let selected ← d.selectObjects wants haves
  return (selected, [])

/-- `objects_for_fetch_filtered` with the options of a request. -/
def objectsForFetchWith (p : Parser) (odb : Odb) (fuel : Nat) (wants haves : List ObjectId)
    (opts : PackOptions) : Outcome String PackObjects :=
  objectsForFetchFiltered p odb fuel wants haves (opts.deepen.map UInt32.toNat) opts.filter

variable {p : Parser} {odb : Odb} {o : Objects} {wants haves : List ObjectId}

/-- The two runs come to the same objects and the same shallow commits. -/
def Agree (git : Nat → Outcome String PackObjects)
    (build : Nat → Outcome String (Finset ObjectId × List ObjectId)) : Prop :=
  Outcome.Ends git fun r => Outcome.Ends build fun out => out.1 = r.objects ∧ out.2 = r.shallow

namespace Objects

/-- The commits of a fetch with this depth. A depth of `0` is one of `1`. -/
def InDepth (o : Objects) (wants haves : List ObjectId) : Option Nat → ObjectId → Prop
  | none, c => o.Fresh wants haves c
  | some depth, c => Within o wants haves (max depth 1) c

/-- No commit at the last level has parents. -/
def Uncut (o : Objects) (wants haves : List ObjectId) : Option Nat → Prop
  | none => True
  | some depth => ∀ c, Away o.parents (· ∈ haves) wants (max depth 1 - 1) c → o.parents c = []

/-- There is nothing to send that the filter names. -/
def Unfiltered (o : Objects) (wants haves : List ObjectId) : Option Filter → Prop
  | none => True
  | some .blobNone => ∀ x, o.IsBlob x → Reach o.refs wants x → Reach o.refs haves x
  | some .treeNone => ∀ x, Reach o.refs wants x → ¬ Reach o.refs haves x → o.IsCommit x

end Objects

/-! ### The commits -/

theorem depthLoop_zero (fuel : Nat) {queue : List (ObjectId × Nat)} (hqueue : ∀ e ∈ queue, 1 ≤ e.2)
    (visited : Finset ObjectId) (result shallow : List ObjectId) :
    depthLoop p odb haves 0 fuel queue visited result shallow =
      depthLoop p odb haves 1 fuel queue visited result shallow := by
  induction fuel generalizing queue visited result shallow with
  | zero => cases queue <;> rfl
  | succ fuel ih =>
    match queue with
    | [] => rfl
    | (c, k) :: queue =>
      obtain ⟨hk, hrest⟩ := List.forall_mem_cons.mp hqueue
      rw [depthLoop, depthLoop, ih hrest]
      by_cases hhave : c ∈ haves
      · rw [if_pos hhave, if_pos hhave]
      · rw [if_neg hhave, if_neg hhave]
        refine bind_congr fun parents => ?_
        rw [if_pos (Nat.zero_le k), if_pos hk, ih hrest]

theorem depthLimitedCommits_max (fuel : Nat) (depth : Nat) :
    depthLimitedCommits p odb fuel wants haves depth =
      depthLimitedCommits p odb fuel wants haves (max depth 1) := by
  cases depth with
  | zero =>
    refine depthLoop_zero fuel (fun e he => ?_) _ _ _
    obtain ⟨x, -, rfl⟩ := List.mem_map.mp he
    exact le_rfl
  | succ depth => rw [max_eq_left (Nat.le_add_left 1 depth)]

namespace Odb.Stores

theorem wantCommits_inDepth (h : odb.Stores p o) (hclosed : o.Closed) {fuel : Nat}
    (hfuel : o.oids.card ≤ fuel) (hwants : ∀ w ∈ wants, o.IsCommit w)
    (hhaves : ∀ c ∈ haves, o.IsCommit c) (deepen : Option Nat) :
    ∃ commits shallow, wantCommits p odb fuel wants haves deepen = Outcome.done (commits, shallow) ∧
      (∀ c, c ∈ commits ↔ o.InDepth wants haves deepen c) ∧ (shallow = [] ↔ o.Uncut wants haves deepen) := by
  cases deepen with
  | none =>
    obtain ⟨commits, hwalk, hfresh⟩ := h.wantCommits_done fuel hwants hhaves
    exact ⟨commits, [], hwalk, hfresh, iff_of_true rfl trivial⟩
  | some depth =>
    have hone : 1 ≤ max depth 1 := le_max_right depth 1
    obtain ⟨done, seen, hrun, hend⟩ := h.depthLimitedCommits_done hclosed hwants hone hfuel
    refine ⟨_, _, (depthLimitedCommits_max fuel depth).trans hrun, fun c => SearchEnd.mem_returned_iff hend, ?_⟩
    rw [List.eq_nil_iff_forall_not_mem, Objects.Uncut]
    refine forall_congr' fun c => ?_
    rw [SearchEnd.mem_marked_iff hend hone]
    tauto

end Odb.Stores

namespace Objects

theorem Closed.isCommit_of_inDepth (h : o.Closed) (hwants : ∀ w ∈ wants, o.IsCommit w)
    {deepen : Option Nat} {c : ObjectId} (hc : o.InDepth wants haves deepen c) : o.IsCommit c := by
  cases deepen with
  | none => exact h.isCommit_of_fresh hwants hc
  | some depth =>
    obtain ⟨n, -, hpath⟩ := hc
    exact h.isCommit_of_reach hwants hpath.reach

/-! ### The objects -/

theorem Closed.isTree_or_isBlob (h : o.Closed) {t x : ObjectId} (ht : o.IsTree t)
    (hx : o.InTree t x) : o.IsTree x ∨ o.IsBlob x := by
  obtain ⟨d, hpath, rfl | ⟨es, hfind, hfile⟩⟩ := hx
  · exact Or.inl (h.isTree_of_path ht hpath)
  · exact Or.inr (h.file hfind _ hfile rfl)

theorem Closed.underCommits_iff (h : o.Closed) (hno : o.NoGitlinks)
    (hwants : ∀ w ∈ wants, o.IsCommit w) {commits : List ObjectId}
    (hcommits : ∀ c ∈ commits, o.IsCommit c) {x : ObjectId} :
    o.UnderCommits wants commits x ↔ ∃ c ∈ commits, ∃ t, o.Root c t ∧ o.InTree t x := by
  have havoid : ∀ y, o.Direct wants y → ¬ o.IsTree y := fun y hy => absurd (hwants y hy.1) hy.2
  rw [UnderCommits, met_pending_iff]
  refine exists_congr fun c => and_congr_right fun hc => ?_
  obtain ⟨t, ps, hfind⟩ := hcommits c hc
  rw [h.met_commit_iff findsTrees_treeOf havoid ⟨ps, hfind⟩, contains_iff_inTree hno]
  constructor
  · exact fun hx => ⟨t, ⟨ps, hfind⟩, hx⟩
  · rintro ⟨t', ⟨ps', hfind'⟩, hx⟩
    obtain ⟨rfl, -⟩ := GitObject.commit.inj (Option.some.inj (hfind.symm.trans hfind'))
    exact hx

/-- **When the selection with options is the one without**: the commits are the fresh ones, and the
filter has nothing to remove. -/
theorem Closed.selection_eq_iff (h : o.Closed) (hno : o.NoGitlinks)
    (hwants : ∀ w ∈ wants, o.IsCommit w) (hhaves : ∀ c ∈ haves, o.IsCommit c)
    {commits : List ObjectId} (hcommits : ∀ c ∈ commits, o.IsCommit c) {filter : Option Filter} :
    (∀ x, Reach o.refs wants x ∧ ¬ Reach o.refs haves x ↔
        o.Direct wants x ∨ x ∈ commits ∨ o.Passes filter x ∧ ¬ o.Had haves x ∧ o.UnderCommits wants commits x) ↔
      (∀ c, c ∈ commits ↔ o.Fresh wants haves c) ∧ o.Unfiltered wants haves filter := by
  have hall := @Closed.fresh_or_below_iff o wants haves h hno _ findsTrees_treeOf hwants hhaves
  simp only [had_iff_reach hno, h.below_iff findsTrees_treeOf hwants, contains_iff_inTree hno] at hall
  simp only [had_iff_reach hno, h.underCommits_iff hno hwants hcommits]
  have hdirect : ∀ x, ¬ o.Direct wants x := fun x hx => hx.2 (hwants x hx.1)
  have hin : ∀ {c t x}, o.Root c t → o.InTree t x → (o.IsTree x ∨ o.IsBlob x) ∧ ¬ o.IsCommit x := by
    rintro c t x ⟨ps, hfind⟩ hx
    have hkind := h.isTree_or_isBlob (h.root hfind) hx
    refine ⟨hkind, ?_⟩
    rintro ⟨t', ps', hcommit⟩
    rcases hkind with ⟨es, htree⟩ | ⟨content, hblob⟩
    · simp [hcommit] at htree
    · simp [hcommit] at hblob
  constructor
  · intro hsame
    have hfresh : ∀ c, c ∈ commits ↔ o.Fresh wants haves c := by
      intro c
      constructor
      · intro hc
        rcases (hall (x := c)).mpr ((hsame c).mpr (Or.inr (Or.inl hc))) with hfresh | ⟨-, b, t, -, hroot, hc'⟩
        · exact hfresh
        · exact absurd (hcommits c hc) (hin hroot hc').2
      · intro hc
        rcases (hsame c).mp (hall.mp (Or.inl hc)) with hdir | hmem | ⟨-, -, b, -, t, hroot, hc'⟩
        · exact absurd hdir (hdirect c)
        · exact hmem
        · exact absurd (h.isCommit_of_fresh hwants hc) (hin hroot hc').2
    refine ⟨hfresh, ?_⟩
    cases filter with
    | none => exact trivial
    | some named =>
      cases named with
      | blobNone =>
        rintro x ⟨content, hblob⟩ hreach
        by_contra hnot
        rcases (hsame x).mp ⟨hreach, hnot⟩ with hdir | hmem | ⟨⟨es, htree⟩, -⟩
        · exact hdirect x hdir
        · obtain ⟨t, ps, hcommit⟩ := hcommits x hmem
          simp [hblob] at hcommit
        · simp [hblob] at htree
      | treeNone =>
        intro x hreach hnot
        rcases (hsame x).mp ⟨hreach, hnot⟩ with hdir | hmem | ⟨hfalse, -⟩
        · exact absurd hdir (hdirect x)
        · exact hcommits x hmem
        · exact hfalse.elim
  · rintro ⟨hfresh, hfilter⟩ x
    rw [or_iff_right (hdirect x), ← hall, hfresh]
    refine or_congr_right ?_
    constructor
    · rintro ⟨hnot, c, t, hc, hroot, hx⟩
      refine ⟨?_, hnot, c, (hfresh c).mpr hc, t, hroot, hx⟩
      have hreach := (hall.mp (Or.inr ⟨hnot, c, t, hc, hroot, hx⟩)).1
      cases filter with
      | none => exact trivial
      | some named =>
        cases named with
        | blobNone => exact (hin hroot hx).1.resolve_right fun hblob => hnot (hfilter x hblob hreach)
        | treeNone => exact absurd (hfilter x hreach hnot) (hin hroot hx).2
    · rintro ⟨-, hnot, c, hc, t, hroot, hx⟩
      exact ⟨hnot, c, t, (hfresh c).mp hc, hroot, hx⟩

end Objects

theorem fetchWith_ends (h : odb.Stores p o) (hclosed : o.Closed)
    (hwants : ∀ w ∈ wants, o.IsCommit w) (hhaves : ∀ c ∈ haves, o.IsCommit c) (opts : PackOptions) :
    Outcome.Ends (fun fuel => objectsForFetchWith p odb fuel wants haves opts) fun r =>
      ∃ commits : List ObjectId, (∀ c, c ∈ commits ↔ o.InDepth wants haves (opts.deepen.map UInt32.toNat) c) ∧
        (r.shallow = [] ↔ o.Uncut wants haves (opts.deepen.map UInt32.toNat)) ∧
        ∀ x, x ∈ r.objects ↔ o.Direct wants x ∨ x ∈ commits ∨
          o.Passes opts.filter x ∧ ¬ o.Had haves x ∧ o.UnderCommits wants commits x := by
  have hfound : ∀ w ∈ wants, o.find w ≠ none := fun w hw => (hwants w hw).find_ne_none
  have hall : wants.filter (isCommitWant odb) = wants := List.filter_eq_self.mpr fun w hw =>
    (h.isCommitWant_iff (hfound w hw)).mpr (hwants w hw)
  refine ⟨o.oids.card, fun fuel hfuel => ?_⟩
  obtain ⟨commits, shallow, hwalk, hcommits, hcut⟩ :=
    h.wantCommits_inDepth hclosed hfuel hwants hhaves (opts.deepen.map UInt32.toNat)
  rw [← hall] at hwalk
  obtain ⟨r, hr, hshallow, hmem⟩ := h.selection_done hclosed hfuel hfound hhaves hwalk
    (fun c hc => hclosed.isCommit_of_inDepth hwants ((hcommits c).mp hc)) opts.filter
  exact ⟨r, hr, commits, hcommits, hshallow ▸ hcut, hmem⟩

theorem agree_iff (h : odb.Stores p o) (hclosed : o.Closed) (hno : o.NoGitlinks)
    (hwants : ∀ w ∈ wants, o.IsCommit w) (hhaves : ∀ c ∈ haves, o.IsCommit c) (opts : PackOptions)
    {database : Nat → Database}
    (hselect : Outcome.Ends (fun fuel => (database fuel).selectObjects wants haves)
      (Exact o wants haves)) :
    Agree (fun fuel => objectsForFetchWith p odb fuel wants haves opts) (fun fuel =>
      (database fuel).buildPack wants haves opts) ↔
      (∀ c, o.InDepth wants haves (opts.deepen.map UInt32.toNat) c ↔ o.Fresh wants haves c) ∧
        o.Uncut wants haves (opts.deepen.map UInt32.toNat) ∧ o.Unfiltered wants haves opts.filter := by
  have hbuild : Outcome.Ends (fun fuel => (database fuel).buildPack wants haves opts) fun out =>
      Exact o wants haves out.1 ∧ out.2 = [] := by
    obtain ⟨enough, hends⟩ := hselect
    refine ⟨enough, fun fuel hfuel => ?_⟩
    obtain ⟨selected, hselected, hexact⟩ := hends fuel hfuel
    exact ⟨(selected, []), Outcome.bind_of_done hselected _, hexact, rfl⟩
  refine (fetchWith_ends h hclosed hwants hhaves opts).ends_iff ?_
  rintro r ⟨commits, hcommits, hcut, hmem⟩
  refine hbuild.ends_iff ?_
  rintro ⟨selected, _⟩ ⟨hexact, rfl⟩
  have hsame := @Objects.Closed.selection_eq_iff o wants haves hclosed hno hwants hhaves commits
    (fun c hc => hclosed.isCommit_of_inDepth hwants ((hcommits c).mp hc)) opts.filter
  have hobjects : selected = r.objects ↔
      (∀ c, c ∈ commits ↔ o.Fresh wants haves c) ∧ o.Unfiltered wants haves opts.filter := by
    rw [← hsame, Finset.ext_iff]
    exact forall_congr' fun x => by rw [hexact x, hmem]
  rw [hobjects, ← hcut, eq_comm (a := ([] : List ObjectId))]
  simp only [hcommits]
  tauto

/-- **When the options mean the same on every backend**, for wanted commits in a closed store
without submodules. -/
theorem options_agree_iff (hclosed : o.Closed) (hno : o.NoGitlinks) (hacyclic : Acyclic o.parents)
    (hwants : ∀ w ∈ wants, o.IsCommit w) (hhaves : ∀ c ∈ haves, o.IsCommit c)
    (hodb : odb.Stores p o) (opts : PackOptions) :
    (∀ (db : Sql.Db) (repo : Int), Sql.Stores p o db repo →
      (Agree (fun fuel => objectsForFetchWith p odb fuel wants haves opts)
          (fun fuel => (Sql.database p fuel db repo).buildPack wants haves opts) ↔
        (∀ c, o.InDepth wants haves (opts.deepen.map UInt32.toNat) c ↔ o.Fresh wants haves c) ∧
          o.Uncut wants haves (opts.deepen.map UInt32.toNat) ∧ o.Unfiltered wants haves opts.filter)) ∧
    ∀ (s : Kv.Store) (repo : UInt64), Kv.Stores p o s repo →
      (Agree (fun fuel => objectsForFetchWith p odb fuel wants haves opts)
          (fun fuel => (Kv.database p fuel s repo).buildPack wants haves opts) ↔
        (∀ c, o.InDepth wants haves (opts.deepen.map UInt32.toNat) c ↔ o.Fresh wants haves c) ∧
          o.Uncut wants haves (opts.deepen.map UInt32.toNat) ∧ o.Unfiltered wants haves opts.filter) := by
  refine ⟨fun db repo h => agree_iff hodb hclosed hno hwants hhaves opts ?_,
    fun s repo h => agree_iff hodb hclosed hno hwants hhaves opts ?_⟩
  · exact (sql_ends hclosed hacyclic hhaves h).imp fun r hr x => (hr x).trans (hclosed.selectedDb_iff hno hwants hhaves)
  · exact (kv_ends hclosed hhaves h).imp fun r hr x => (hr x).trans (hclosed.selectedDb_iff hno hwants hhaves)

/-- A first commit has nothing beyond any depth. -/
theorem options_agree_linearStore :
    Agree (fun fuel => objectsForFetchWith linearStore.parser linearStore.odb fuel [.fill 1] []
      { deepen := some 1 })
        (fun fuel => (Sql.database linearStore.parser fuel linearTables 1).buildPack [.fill 1] []
          { deepen := some 1 }) ∧
      Agree (fun fuel => objectsForFetchWith linearStore.parser linearStore.odb fuel [.fill 1] [] { deepen := some 1 })
        (fun fuel => (Kv.database linearStore.parser fuel linearKeys 1).buildPack [.fill 1] []
          { deepen := some 1 }) := by
  obtain ⟨hsql, hkv⟩ := @options_agree_iff linearStore.parser linearStore.odb linearStore [.fill 1] []
    closed_linearStore noGitlinks_linearStore acyclic_linearStore (by decide +kernel)
    (by decide +kernel) (Objects.stores_odb closed_linearStore) { deepen := some 1 }
  have hroot : linearStore.parents (.fill 1) = [] := by decide +kernel
  have hfresh : ∀ c, linearStore.Fresh [.fill 1] [] c ↔ c = .fill 1 := fun c => by
    rw [Objects.Fresh, and_iff_left reach_nil]
    constructor
    · rintro ⟨t, ht, hpath⟩
      obtain rfl := List.mem_singleton.mp ht
      induction hpath with
      | refl => rfl
      | tail _ hedge ih =>
        rw [ih, Edge, hroot] at hedge
        exact absurd hedge List.not_mem_nil
    · rintro rfl
      exact reach_self List.mem_cons_self
  have hcond : (∀ c, linearStore.InDepth [.fill 1] [] (some 1) c ↔ linearStore.Fresh [.fill 1] [] c) ∧
      linearStore.Uncut [.fill 1] [] (some 1) ∧ linearStore.Unfiltered [.fill 1] [] none := by
    refine ⟨fun c => ?_, fun c haway => ?_, trivial⟩
    · rw [hfresh]
      constructor
      · rintro ⟨n, hn, hpath⟩
        obtain rfl : n = 0 := by simpa using hn
        exact List.mem_singleton.mp (openPath_iff.mp hpath).1
      · rintro rfl
        exact ⟨0, by decide, .tip List.mem_cons_self List.not_mem_nil⟩
    · obtain rfl : c = .fill 1 := List.mem_singleton.mp (openPath_iff.mp haway.1).1
      exact hroot
  exact ⟨(hsql _ _ stores_linearTables).mpr hcond, (hkv _ _ stores_linearKeys).mpr hcond⟩

/-- **Options that the databases do not honour**: with `blob:none` they pack a blob, with `tree:0` a
tree, and with a depth of one the parent of the wanted commit, without a shallow commit. -/
theorem options_ignored :
    ((objectsForFetchWith linearStore.parser linearStore.odb 9 [.fill 2] []
      { filter := some .blobNone }).Gives
        (fun r => .fill 6 ∉ r.objects) ∧
      ((Sql.database linearStore.parser 9 linearTables 1).buildPack [.fill 2] [] { filter := some .blobNone }).Gives
        (fun out => .fill 6 ∈ out.1) ∧
      ((Kv.database linearStore.parser 9 linearKeys 1).buildPack [.fill 2] [] { filter := some .blobNone }).Gives
        (fun out => .fill 6 ∈ out.1)) ∧
    ((objectsForFetchWith linearStore.parser linearStore.odb 9 [.fill 2] [] { filter := some .treeNone }).Gives
        (fun r => .fill 4 ∉ r.objects) ∧
      ((Sql.database linearStore.parser 9 linearTables 1).buildPack [.fill 2] [] { filter := some .treeNone }).Gives
        (fun out => .fill 4 ∈ out.1) ∧
      ((Kv.database linearStore.parser 9 linearKeys 1).buildPack [.fill 2] [] { filter := some .treeNone }).Gives
        (fun out => .fill 4 ∈ out.1)) ∧
    ((objectsForFetchWith linearStore.parser linearStore.odb 9 [.fill 2] [] { deepen := some 1 }).Gives
        (fun r => .fill 1 ∉ r.objects ∧ r.shallow = [.fill 2]) ∧
      ((Sql.database linearStore.parser 9 linearTables 1).buildPack [.fill 2] [] { deepen := some 1 }).Gives
        (fun out => .fill 1 ∈ out.1 ∧ out.2 = []) ∧
      ((Kv.database linearStore.parser 9 linearKeys 1).buildPack [.fill 2] [] { deepen := some 1 }).Gives
        (fun out => .fill 1 ∈ out.1 ∧ out.2 = [])) := by
  refine ⟨⟨?_, ?_, ?_⟩, ⟨?_, ?_, ?_⟩, ?_, ?_, ?_⟩
  all_goals decide +kernel

end Mizzle.Pack
