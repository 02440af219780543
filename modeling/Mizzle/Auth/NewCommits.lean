import Mizzle.Auth.Comparison
import Mizzle.Backend.RefMap
import Mizzle.Lib.Reach
import Mizzle.Serve.PushRefs

/-!
# Which commits `new_commits` reports

For a push that names every ref once, `new_commits` on the command at position `i` reports what the
new tip at `i` reaches and neither the existing tips nor an earlier new tip does: `Listed` of
`Mizzle.Lib.Reach` (`mem_newCommits`).

Two results follow. The reports of a push are a partition of what its new tips reach outside the
existing tips, each commit under the first command that reaches it (`newCommits_partition`). And
since the existing tips leave out every ref that the push names, a report may contain commits that
such a ref already holds: `newCommits_introduced_iff` says when it does not.

The walk is the backend's; what it returns is an assumption about the backend here.
-/

namespace Mizzle.Auth

open Lib

variable {i : Nat} {r : PushRef} {infos : List CommitInfo}

namespace Comparison

/-- A walk that succeeds returns what the tips reach and the excluded tips do not. -/
def WalksRight (c : Comparison) (parents : ObjectId → List ObjectId) : Prop :=
  ∀ tips excluded oids, c.backend.reachableExcluding tips excluded c.maxReachableCommits = .ok oids →
    ∀ x, x ∈ oids ↔ Reach parents tips x ∧ ¬ Reach parents excluded x

/-- The metadata that a read returns is that of the oid asked for. -/
def ReadsOwn (c : Comparison) : Prop :=
  ∀ oid info, c.backend.readCommitInfo oid = .ok info → info.oid = oid

/-- The new tips in the order of the commands; a deletion has none. -/
def newTips (c : Comparison) : List (Option ObjectId) :=
  c.refs.map fun r => RefUpdate.value r.newOid

variable {c : Comparison} {parents : ObjectId → List ObjectId}

theorem newTips_eq_some {t : ObjectId} :
    c.newTips[i]? = some (some t) ↔ ∃ r, c.refs[i]? = some r ∧ r.newOid ≠ .null ∧ r.newOid = t := by
  rw [newTips, List.getElem?_map, Option.map_eq_some_iff]
  refine exists_congr fun r => and_congr_right fun _ => ?_
  by_cases hnull : r.newOid = .null
  · simp [hnull]
  · simp [RefUpdate.value_of_ne hnull, hnull]

theorem filter_newOid_eq (refs : List PushRef) :
    (refs.map (·.newOid)).filter (fun oid => !oid.isNull)
      = (refs.map fun r => RefUpdate.value r.newOid).reduceOption := by
  induction refs with
  | nil => rfl
  | cons r refs ih =>
    by_cases hnull : r.newOid = .null
    · simpa [hnull] using ih
    · simpa [hnull, RefUpdate.value_of_ne hnull] using ih

theorem excluding_eq (c : Comparison) (idx : Nat) :
    c.excluding idx = c.existingRefTips ++ (c.newTips.take idx).reduceOption := by
  rw [excluding, filter_newOid_eq, newTips, List.map_take]

/-! ### One report -/

theorem lookupCommit_oid (hown : c.ReadsOwn) (oid : ObjectId) (info : CommitInfo)
    (h : c.lookupCommit oid = .ok info) : info.oid = oid := by
  rw [lookupCommit] at h
  split at h
  · rename_i found hfound
    exact Except.ok.inj h ▸ PackMetadata.findCommit_oid hfound
  · rw [readCommit] at h
    cases hread : c.backend.readCommitInfo oid with
    | error e => simp [hread, Except.mapError] at h
    | ok info' =>
      obtain rfl : info' = info := by simpa [hread, Except.mapError] using h
      exact hown oid info' hread

theorem walk_of_computeNewCommits (hnew : r.newOid ≠ .null)
    (h : c.computeNewCommits i r = .ok infos) :
    ∃ oids, c.backend.reachableExcluding [r.newOid] (c.excluding i) c.maxReachableCommits =
      .ok oids ∧
      oids.mapM c.lookupCommit = .ok infos := by
  rw [computeNewCommits_ne hnew] at h
  cases hwalk : c.backend.reachableExcluding [r.newOid] (c.excluding i) c.maxReachableCommits with
  | error e => simp [hwalk, Except.mapError, Except.bind] at h
  | ok oids => exact ⟨oids, rfl, by simpa [hwalk, Except.mapError, Except.bind] using h⟩

/-- **What a report contains**: the commits that the new tip reaches and neither an existing tip nor
an earlier new tip does. -/
theorem mem_newCommits (hwalk : c.WalksRight parents) (hown : c.ReadsOwn) (hi : c.refs[i]? = some r)
    (h : c.computeNewCommits i r = .ok infos) (x : ObjectId) :
    x ∈ infos.map (·.oid) ↔ Listed parents c.existingRefTips c.newTips i x := by
  by_cases hnew : r.newOid = .null
  · rw [computeNewCommits_null hnew] at h
    obtain rfl := Except.ok.inj h
    refine iff_of_false (by simp) ?_
    rintro ⟨⟨t, ht, -⟩, -⟩
    obtain ⟨r', hr', hne, -⟩ := newTips_eq_some.mp ht
    exact hne (Option.some.inj (hr'.symm.trans hi) ▸ hnew)
  · obtain ⟨oids, hoids, hread⟩ := walk_of_computeNewCommits hnew h
    have htip : c.newTips[i]? = some (some r.newOid) := newTips_eq_some.mpr ⟨r, hi, hnew, rfl⟩
    rw [map_of_mapM_ok (lookupCommit_oid hown) hread, hwalk _ _ _ hoids, excluding_eq, Listed]
    refine and_congr_left fun _ => ?_
    constructor
    · intro hreach
      exact ⟨r.newOid, htip, hreach⟩
    · rintro ⟨t, ht, hreach⟩
      rw [Option.some.inj (Option.some.inj (htip.symm.trans ht))]
      exact hreach

/-! ### Asking in any order -/

/-- Some sequence of calls in which `new_commits` on the command at position `i` returns these
commits. -/
def Returns (c : Comparison) (i : Nat) (infos : List CommitInfo) : Prop :=
  ∃ (calls : List (Accessor × Nat)) (answers : List Answer) (n : Nat),
    c.answers calls = some answers ∧ calls[n]? = some (.newCommits, i) ∧
    answers[n]? = some (.commits (.ok infos))

theorem repeatsDelete_of_nodup {refs : List PushRef} (hnames : (refs.map (·.refname)).Nodup) :
    RepeatsDelete refs := by
  intro i j r r' hij hi hj hname
  have hi' : (refs.map (·.refname))[i]? = some r.refname := by rw [List.getElem?_map, hi]; rfl
  have hj' : (refs.map (·.refname))[j]? = some r.refname := by rw [List.getElem?_map, hj, hname]; rfl
  have hlt := (List.getElem?_eq_some_iff.mp hi').1
  exact absurd ((List.getElem?_inj hlt hnames).mp (hi'.trans hj'.symm)) (by omega)

theorem returns_iff (hnames : (c.refs.map (·.refname)).Nodup) :
    c.Returns i infos ↔ ∃ r, c.refs[i]? = some r ∧ c.computeNewCommits i r = .ok infos := by
  have hspec := answers_eq_spec (repeatsDelete_of_nodup hnames)
  constructor
  · rintro ⟨calls, answers, n, hanswers, hcall, hanswer⟩
    rw [hspec] at hanswers
    have hn := congrArg (·[n]?) (map_some_of_mapM hanswers)
    simp only [List.getElem?_map, hcall, hanswer, Option.map_some, Option.some.injEq] at hn
    obtain ⟨r, hr, hcompute⟩ := Option.map_eq_some_iff.mp hn.symm
    exact ⟨r, hr, by simpa [compute] using hcompute⟩
  · rintro ⟨r, hr, hcompute⟩
    exact ⟨[(.newCommits, i)], [.commits (.ok infos)], 0, by simp [hspec, spec, hr, compute, hcompute], rfl, rfl⟩

/-! ### The reports of a push are a partition -/

/-- The new tips of the push, deletions left out. -/
def pushedTips (c : Comparison) : List ObjectId :=
  (c.refs.map (·.newOid)).filter fun oid => !oid.isNull

theorem reach_pushedTips {x : ObjectId} :
    Reach parents c.pushedTips x ↔ ∃ i, ReachAt parents c.newTips i x := by
  constructor
  · rintro ⟨t, ht, hpath⟩
    obtain ⟨hmem, hnull⟩ := List.mem_filter.mp ht
    obtain ⟨r, hr, rfl⟩ := List.mem_map.mp hmem
    obtain ⟨i, hi⟩ := List.mem_iff_getElem?.mp hr
    exact ⟨i, r.newOid, newTips_eq_some.mpr ⟨r, hi, by simpa using hnull, rfl⟩, reach_singleton.mpr hpath⟩
  · rintro ⟨i, t, ht, hreach⟩
    obtain ⟨r, hr, hnull, rfl⟩ := newTips_eq_some.mp ht
    refine ⟨r.newOid, List.mem_filter.mpr ⟨List.mem_map_of_mem (List.mem_of_getElem? hr), ?_⟩,
      reach_singleton.mp hreach⟩
    simpa using hnull

/-- The walk returns, without duplicates, exactly what the tips reach and the excluded tips do
not. -/
def WalksExactly (c : Comparison) (parents : ObjectId → List ObjectId) : Prop :=
  ∀ tips excluded, ∃ oids, c.backend.reachableExcluding tips excluded c.maxReachableCommits = .ok oids ∧
    oids.Nodup ∧ ∀ x, x ∈ oids ↔ Reach parents tips x ∧ ¬ Reach parents excluded x

theorem WalksExactly.walksRight (h : c.WalksExactly parents) : c.WalksRight parents := by
  intro tips excluded oids hoids
  obtain ⟨oids', hoids', -, hmem⟩ := h tips excluded
  obtain rfl := Except.ok.inj (hoids'.symm.trans hoids)
  exact hmem

theorem lookupCommit_source (hown : c.ReadsOwn) {oid : ObjectId} {info : CommitInfo}
    (h : c.lookupCommit oid = .ok info) :
    c.pack.findCommit info.oid = some info ∨
      c.pack.findCommit info.oid = none ∧ c.backend.readCommitInfo info.oid = .ok info := by
  rw [lookupCommit_oid hown oid info h]
  rw [lookupCommit] at h
  split at h
  · rename_i found hfound
    exact Or.inl (hfound.trans (congrArg some (Except.ok.inj h)))
  · rename_i hnone
    refine Or.inr ⟨hnone, ?_⟩
    rw [readCommit] at h
    cases hread : c.backend.readCommitInfo oid with
    | error e => simp [hread, Except.mapError] at h
    | ok info' => simpa [hread, Except.mapError] using h

theorem exists_newCommits (hwalk : c.WalksExactly parents) (hown : c.ReadsOwn)
    (hread : ∀ x, Reach parents c.pushedTips x → ∃ info, c.backend.readCommitInfo x = .ok info)
    (hi : c.refs[i]? = some r) :
    ∃ infos, c.computeNewCommits i r = .ok infos ∧ (infos.map (·.oid)).Nodup ∧
      ∀ info ∈ infos, c.pack.findCommit info.oid = some info ∨
        c.pack.findCommit info.oid = none ∧ c.backend.readCommitInfo info.oid = .ok info := by
  by_cases hnew : r.newOid = .null
  · exact ⟨[], computeNewCommits_null hnew i, by simp⟩
  · obtain ⟨oids, hoids, hnodup, hmem⟩ := hwalk [r.newOid] (c.excluding i)
    have hlookup : ∀ x ∈ oids, ∃ info, c.lookupCommit x = .ok info := by
      intro x hx
      rw [lookupCommit]
      split
      · exact ⟨_, rfl⟩
      · have hreach : ReachAt parents c.newTips i x :=
          ⟨r.newOid, newTips_eq_some.mpr ⟨r, hi, hnew, rfl⟩, ((hmem x).mp hx).1⟩
        obtain ⟨info, hinfo⟩ := hread x (reach_pushedTips.mpr ⟨i, hreach⟩)
        exact ⟨info, by rw [readCommit, hinfo]; rfl⟩
    obtain ⟨infos, hinfos⟩ := exists_mapM_ok hlookup
    refine ⟨infos, by rw [computeNewCommits_ne hnew, hoids]; exact hinfos, ?_, fun info hinfo => ?_⟩
    · rw [map_of_mapM_ok (lookupCommit_oid hown) hinfos]
      exact hnodup
    · obtain ⟨x, -, hx⟩ := mem_of_mapM_ok hinfos hinfo
      exact lookupCommit_source hown hx

/-- **No commit slips past the authoriser and none is reported twice.** For a push that names every
ref once, there is one report for each command, returned by `new_commits` in whatever order the
commands are asked about. The reports have no duplicates and are disjoint; together they are exactly
the commits that some new tip reaches and no existing tip does; each commit is reported under the
first command that reaches it, with its metadata from the staged pack or else from the object
store. -/
theorem newCommits_partition (c : Comparison) (parents : ObjectId → List ObjectId)
    (hnames : (c.refs.map (·.refname)).Nodup) (hwalk : c.WalksExactly parents) (hown : c.ReadsOwn)
    (hread : ∀ x, Reach parents c.pushedTips x → ∃ info, c.backend.readCommitInfo x = .ok info) :
    ∃ report : Nat → List CommitInfo,
      (∀ order : List Nat, (∀ i ∈ order, i < c.refs.length) →
        c.answers (order.map fun i => (.newCommits, i)) = some (order.map fun i => .commits (.ok (report i)))) ∧
      (∀ i < c.refs.length, ((report i).map (·.oid)).Nodup) ∧
      (∀ i < c.refs.length, ∀ j < c.refs.length, i ≠ j →
        ((report i).map (·.oid)).Disjoint ((report j).map (·.oid))) ∧
      (∀ x, (∃ i < c.refs.length, x ∈ (report i).map (·.oid)) ↔
        Reach parents c.pushedTips x ∧ ¬ Reach parents c.existingRefTips x) ∧
      (∀ i < c.refs.length, ∀ x ∈ (report i).map (·.oid),
        ReachAt parents c.newTips i x ∧ ∀ j < i, ¬ ReachAt parents c.newTips j x) ∧
      (∀ i < c.refs.length, ∀ info ∈ report i, c.pack.findCommit info.oid = some info ∨
        c.pack.findCommit info.oid = none ∧ c.backend.readCommitInfo info.oid = .ok info) := by
  have hex : ∀ i : Nat, ∃ infos, ∀ r, c.refs[i]? = some r → c.computeNewCommits i r = .ok infos ∧
      (infos.map (·.oid)).Nodup ∧ ∀ info ∈ infos, c.pack.findCommit info.oid = some info ∨
        c.pack.findCommit info.oid = none ∧ c.backend.readCommitInfo info.oid = .ok info := by
    intro i
    cases hi : c.refs[i]? with
    | none => exact ⟨[], fun r hr => by simp at hr⟩
    | some r =>
      obtain ⟨infos, hinfos⟩ := exists_newCommits hwalk hown hread hi
      exact ⟨infos, fun r' hr' => Option.some.inj hr' ▸ hinfos⟩
  choose report hreport using hex
  have hat : ∀ i < c.refs.length, ∃ r, c.refs[i]? = some r := fun i hi => ⟨_, List.getElem?_eq_getElem hi⟩
  have hlisted : ∀ i < c.refs.length, ∀ x,
      x ∈ (report i).map (·.oid) ↔ Listed parents c.existingRefTips c.newTips i x := by
    intro i hi x
    obtain ⟨r, hr⟩ := hat i hi
    exact mem_newCommits hwalk.walksRight hown hr (hreport i r hr).1 x
  refine ⟨report, fun order horder => ?_, fun i hi => ?_, fun i hi j hj hij => ?_, fun x => ?_,
    fun i hi x hx => ?_, fun i hi => ?_⟩
  · rw [answers_eq_spec (repeatsDelete_of_nodup hnames), List.mapM_map]
    refine mapM_of_some fun i hi => ?_
    obtain ⟨r, hr⟩ := hat i (horder i hi)
    simp [spec, hr, compute, (hreport i r hr).1]
  · obtain ⟨r, hr⟩ := hat i hi
    exact (hreport i r hr).2.1
  · intro x hxi hxj
    exact hij (listed_unique ((hlisted i hi x).mp hxi) ((hlisted j hj x).mp hxj))
  · rw [reach_pushedTips, ← exists_listed_iff]
    constructor
    · rintro ⟨i, hi, hx⟩
      exact ⟨i, (hlisted i hi x).mp hx⟩
    · rintro ⟨i, hx⟩
      have hi : i < c.refs.length := by
        obtain ⟨⟨t, ht, -⟩, -⟩ := hx
        obtain ⟨r, hr, -⟩ := newTips_eq_some.mp ht
        exact (List.getElem?_eq_some_iff.mp hr).1
      exact ⟨i, hi, (hlisted i hi x).mpr hx⟩
  · exact (listed_iff_first.mp ((hlisted i hi x).mp hx)).2
  · obtain ⟨r, hr⟩ := hat i hi
    exact (hreport i r hr).2.2

/-! ### A small history -/

/-- The parents in the history of `forkBackend`. -/
def forkParents (oid : ObjectId) : List ObjectId :=
  if oid = .fill 2 ∨ oid = .fill 3 then [.fill 1] else []

theorem edge_fork {oid parent : ObjectId} (h : Edge forkParents oid parent) :
    (oid = .fill 2 ∨ oid = .fill 3) ∧ parent = .fill 1 := by
  rw [Edge, forkParents] at h
  split at h
  · rename_i hchild
    exact ⟨hchild, List.mem_singleton.mp h⟩
  · exact absurd h List.not_mem_nil

theorem fork_root {oid : ObjectId} (h : Relation.ReflTransGen (Edge forkParents) (.fill 1) oid) :
    oid = .fill 1 := by
  rcases Relation.ReflTransGen.cases_head h with heq | ⟨_, hedge, -⟩
  · exact heq.symm
  · exact absurd (edge_fork hedge).1 (by decide)

theorem acyclic_fork : Acyclic forkParents := by
  intro oid hcycle
  obtain ⟨next, hedge, hpath⟩ := Relation.TransGen.head'_iff.mp hcycle
  obtain ⟨hchild, rfl⟩ := edge_fork hedge
  rw [fork_root hpath] at hchild
  exact absurd hchild (by decide)

theorem mem_forkAncestors {tip oid : ObjectId} :
    oid ∈ forkAncestors tip ↔ Relation.ReflTransGen (Edge forkParents) tip oid := by
  rw [forkAncestors]
  constructor
  · split
    · rename_i hchild
      intro hmem
      rcases List.mem_cons.mp hmem with rfl | hmem
      · exact .refl
      · refine .single ?_
        rw [Edge, forkParents, if_pos hchild]
        exact hmem
    · intro hmem
      rw [List.mem_singleton.mp hmem]
  · intro hpath
    rcases Relation.ReflTransGen.cases_head hpath with rfl | ⟨_, hedge, hrest⟩
    · split <;> exact List.mem_cons_self
    · obtain ⟨hchild, rfl⟩ := edge_fork hedge
      rw [if_pos hchild, fork_root hrest]
      simp

theorem walksExactly_fork (hbackend : c.backend = forkBackend) : c.WalksExactly forkParents := by
  intro tips excluded
  have hreach : ∀ ts : List ObjectId, ∀ x, x ∈ ts.flatMap forkAncestors ↔ Reach forkParents ts x := by
    intro ts x
    rw [List.mem_flatMap]
    exact exists_congr fun t => and_congr_right fun _ => mem_forkAncestors
  rw [hbackend]
  refine ⟨_, rfl, (List.nodup_dedup _).filter _, fun x => ?_⟩
  rw [List.mem_filter, List.mem_dedup, hreach, decide_eq_true_iff, hreach]

theorem readsOwn_fork (hbackend : c.backend = forkBackend) : c.ReadsOwn := by
  intro oid info h
  rw [hbackend] at h
  rw [← Except.ok.inj h]
  rfl

/-- Two branches with a common root, created in one push. -/
def createTwo : Comparison where
  backend := forkBackend
  pack := ⟨[]⟩
  refs := [⟨"refs/heads/main", .create, .null, .fill 2⟩, ⟨"refs/heads/dev", .create, .null, .fill 3⟩]
  existingRefTips := []

/-- Asked in reverse order, the two reports cover the three commits. -/
theorem newCommits_partition_createTwo :
    ∃ report : Nat → List CommitInfo,
      createTwo.answers [(.newCommits, 1), (.newCommits, 0)]
        = some [.commits (.ok (report 1)), .commits (.ok (report 0))] ∧
      ∀ x, (∃ i < 2, x ∈ (report i).map (·.oid)) ↔
        Reach forkParents [.fill 2, .fill 3] x ∧ ¬ Reach forkParents [] x := by
  obtain ⟨report, hany, -, -, hunion, -⟩ := newCommits_partition createTwo forkParents (by decide)
    (walksExactly_fork rfl) (readsOwn_fork rfl) (fun x _ => ⟨bareInfo x, rfl⟩)
  exact ⟨report, hany [1, 0] (by decide), hunion⟩

/-! ### Reports and the refs that the push names -/

/-- No reported commit is reachable from a ref of the snapshot. -/
def ReportsIntroduced (c : Comparison) (parents : ObjectId → List ObjectId)
    (snapshot : RefsSnapshot) : Prop :=
  ∀ i infos, c.Returns i infos →
    ∀ info ∈ infos, ¬ Reach parents (snapshot.refs.flatMap Serve.refTips) info.oid

/-- What the push's new tips share with the refs that it names is reachable from a ref that it does
not name. -/
def SharedCovered (c : Comparison) (parents : ObjectId → List ObjectId) (snapshot : RefsSnapshot) :
    Prop :=
  ∀ x, Reach parents c.pushedTips x →
    (∃ r ∈ snapshot.refs, r.name ∈ c.refs.map (·.refname) ∧ Reach parents (Serve.refTips r) x) →
    ∃ r ∈ snapshot.refs, r.name ∉ c.refs.map (·.refname) ∧ Reach parents (Serve.refTips r) x

theorem reach_existingRefTips {snapshot : RefsSnapshot} {pushRefs : List PushRef} {x : ObjectId} :
    Reach parents (Serve.existingRefTips (.ok snapshot) pushRefs) x ↔
      ∃ r ∈ snapshot.refs, r.name ∉ pushRefs.map (·.refname) ∧ Reach parents (Serve.refTips r) x := by
  constructor
  · rintro ⟨t, ht, hpath⟩
    obtain ⟨r, hr, hname, hmem⟩ := Serve.mem_existingRefTips.mp ht
    exact ⟨r, hr, hname, t, hmem, hpath⟩
  · rintro ⟨r, hr, hname, t, hmem, hpath⟩
    exact ⟨t, Serve.mem_existingRefTips.mpr ⟨r, hr, hname, hmem⟩, hpath⟩

/-- **When reports contain only what the push introduces.** For a push that names every ref once,
with the existing tips taken from a snapshot of the refs: the reports stay clear of every ref of the
snapshot if whatever the new tips share with a ref that the push names is reachable from a ref that
it does not name; and when every report succeeds, only then. -/
theorem newCommits_introduced_iff (c : Comparison) (parents : ObjectId → List ObjectId)
    (snapshot : RefsSnapshot)
    (htips : c.existingRefTips = Serve.existingRefTips (.ok snapshot) c.refs)
    (hnames : (c.refs.map (·.refname)).Nodup) (hwalk : c.WalksRight parents) (hown : c.ReadsOwn) :
    (c.SharedCovered parents snapshot → c.ReportsIntroduced parents snapshot) ∧
    ((∀ i < c.refs.length, ∃ infos, c.Returns i infos) → c.ReportsIntroduced parents snapshot →
      c.SharedCovered parents snapshot) := by
  constructor
  · intro hcovered i infos hreturns info hinfo hold
    obtain ⟨r, hr, hcompute⟩ := (returns_iff hnames).mp hreturns
    have hlisted := (mem_newCommits hwalk hown hr hcompute info.oid).mp (List.mem_map_of_mem hinfo)
    obtain ⟨hbase, hat, -⟩ := listed_iff_first.mp hlisted
    rw [htips, reach_existingRefTips] at hbase
    obtain ⟨t, ht, hpath⟩ := hold
    obtain ⟨ref, href, hmem⟩ := List.mem_flatMap.mp ht
    by_cases hnamed : ref.name ∈ c.refs.map (·.refname)
    · exact hbase (hcovered _ (reach_pushedTips.mpr ⟨i, hat⟩) ⟨ref, href, hnamed, t, hmem, hpath⟩)
    · exact hbase ⟨ref, href, hnamed, t, hmem, hpath⟩
  · intro hall hintroduced x hnew hnamed
    by_contra hcovered
    rw [← reach_existingRefTips, ← htips] at hcovered
    obtain ⟨i, hlisted⟩ := exists_listed_iff.mpr ⟨reach_pushedTips.mp hnew, hcovered⟩
    obtain ⟨t, ht, -⟩ := hlisted.1
    obtain ⟨r, hr, -⟩ := newTips_eq_some.mp ht
    obtain ⟨infos, hreturns⟩ := hall i (List.getElem?_eq_some_iff.mp hr).1
    obtain ⟨r', hr', hcompute⟩ := (returns_iff hnames).mp hreturns
    obtain ⟨info, hinfo, rfl⟩ := List.mem_map.mp ((mem_newCommits hwalk hown hr' hcompute x).mpr hlisted)
    obtain ⟨ref, href, -, tip, htip, hpath⟩ := hnamed
    exact hintroduced i infos hreturns info hinfo ⟨tip, List.mem_flatMap.mpr ⟨ref, href, htip⟩, hpath⟩

/-- A branch is created while another one holds the root. -/
def createBeside : Comparison where
  backend := forkBackend
  pack := ⟨[]⟩
  refs := [⟨"refs/heads/dev", .create, .null, .fill 3⟩]
  existingRefTips := Serve.existingRefTips (.ok ⟨none, [⟨"refs/heads/main", .fill 2, none, none⟩]⟩)
    [⟨"refs/heads/dev", .create, .null, .fill 3⟩]

theorem newCommits_introduced_createBeside :
    createBeside.ReportsIntroduced forkParents ⟨none,
      [⟨"refs/heads/main", .fill 2, none, none⟩]⟩ := by
  refine (newCommits_introduced_iff createBeside forkParents _ rfl (by decide)
    (walksExactly_fork rfl).walksRight (readsOwn_fork rfl)).1 ?_
  rintro x - ⟨r, hr, hnamed, -⟩
  rw [List.mem_singleton.mp hr] at hnamed
  exact absurd hnamed (by decide)

/-- The only branch is fast-forwarded from the root to a child. -/
def fastForwardOnly : Comparison where
  backend := forkBackend
  pack := ⟨[]⟩
  refs := [⟨"refs/heads/main", .fastForward, .fill 1, .fill 2⟩]
  existingRefTips := Serve.existingRefTips (.ok ⟨none, [⟨"refs/heads/main", .fill 1, none, none⟩]⟩)
    [⟨"refs/heads/main", .fastForward, .fill 1, .fill 2⟩]

/-- Its report has the child and the root, which the branch already holds. -/
theorem fastForwardOnly_reports_old :
    Acyclic forkParents ∧ fastForwardOnly.WalksExactly forkParents ∧
    fastForwardOnly.answers [(.newCommits, 0)]
      = some [.commits (.ok [bareInfo (.fill 2), bareInfo (.fill 1)])] ∧
    ¬ fastForwardOnly.ReportsIntroduced forkParents ⟨none, [⟨"refs/heads/main", .fill 1, none, none⟩]⟩ := by
  have hanswers : fastForwardOnly.answers [(.newCommits, 0)]
      = some [.commits (.ok [bareInfo (.fill 2), bareInfo (.fill 1)])] := by decide +kernel
  refine ⟨acyclic_fork, walksExactly_fork rfl, hanswers, fun hintroduced => ?_⟩
  refine hintroduced 0 _ ⟨_, _, 0, hanswers, rfl, rfl⟩ (bareInfo (.fill 1)) (by simp) ?_
  exact reach_self (by simp [Serve.refTips, bareInfo])

end Comparison

end Mizzle.Auth
