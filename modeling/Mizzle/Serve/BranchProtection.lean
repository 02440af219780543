import Mizzle.Backend.RefMap
import Mizzle.Lib.Runs
import Mizzle.Serve.PushBackends

/-!
# Branch protection over interleaved pushes

An authoriser that refuses every forced move and every deletion of a ref protects it, however
receive-pack runs interleave: once the ref has a value it keeps existing, and it only moves to
descendants of that value.

The argument has three parts. The kind that a run computes is a fact about the stored parent graph,
and stays one, since the graph only grows (`KindSound`, `Grows`). So when a run is authorised, each
of its commands for the ref is a creation or a move to a descendant (`Safe`). And when the ref
transaction goes through, every command found the value that it was classified against, so the ref
has moved along the graph. `StoreView` collects what is needed of a backend for this,
`move_protects` is the step and `run_protects` the run; both backends are instances.
-/

namespace Mizzle.Serve

open Lib

variable {σ ρ ι Probe Ctx View : Type} [DecidableEq ι] [DecidableEq ρ]

/-- The authoriser refuses every push in which the ref is to be forced or deleted. -/
def Access.Protects (access : Access ρ Ctx View) (name : String) : Prop :=
  ∀ ctx refs view, (∃ r ∈ refs, r.refname = name ∧ (r.kind = .forcePush ∨ r.kind = .delete)) →
    ∃ e, access.authorizePush ctx refs view = .error e

/-- What a kind says about the command, given which commits are ancestors of which. -/
def KindSound (ancestor : ObjectId → ObjectId → Prop) (u : RefUpdate) : PushKind → Prop
  | .create => u.oldOid = .null
  | .fastForward => u.newOid ≠ .null ∧ ancestor u.oldOid u.newOid
  | .delete => True
  | .forcePush => True

/-- A command that cannot move an existing ref except to a descendant. -/
def Safe (ancestor : ObjectId → ObjectId → Prop) (u : RefUpdate) : Prop :=
  u.oldOid = .null ∨ u.newOid ≠ .null ∧ ancestor u.oldOid u.newOid

variable {u : RefUpdate} {repo : ρ} {name : String} {store : σ} {kind : PushKind}
  {access : ι → Access ρ Ctx View}

theorem KindSound.mono {anc anc' : ObjectId → ObjectId → Prop} (hle : ∀ a c, anc a c → anc' a c)
    (h : KindSound anc u kind) : KindSound anc' u kind := by
  cases kind with
  | create => exact h
  | fastForward => exact ⟨h.1, hle _ _ h.2⟩
  | delete => trivial
  | forcePush => trivial

theorem Safe.mono {anc anc' : ObjectId → ObjectId → Prop} (hle : ∀ a c, anc a c → anc' a c)
    (h : Safe anc u) : Safe anc' u := h.imp_right fun hmove => ⟨hmove.1, hle _ _ hmove.2⟩

theorem KindSound.safe {anc : ObjectId → ObjectId → Prop} (h : KindSound anc u kind)
    (hkind : kind ≠ .forcePush ∧ kind ≠ .delete) : Safe anc u := by
  cases kind with
  | create => exact Or.inl h
  | fastForward => exact Or.inr h
  | delete => exact absurd rfl hkind.2
  | forcePush => exact absurd rfl hkind.1

/-- The refs and the ancestor relation that a store holds, with what the backend's operations do to
them. `Found` is what a classification under way has established. -/
structure StoreView (b : PushBackend σ ρ Probe) where
  Wf : σ → Prop
  refs : σ → RefMap ρ
  /-- The first commit is the second or one of its ancestors. -/
  Ancestor : σ → ρ → ObjectId → ObjectId → Prop
  Found : σ → ρ → RefUpdate → Probe → Prop
  refl : ∀ s repo a, Ancestor s repo a a
  trans : ∀ s repo {a c d}, Ancestor s repo a c → Ancestor s repo c d → Ancestor s repo a d
  found_mono : ∀ {s s' repo u probe}, (∀ a c, Ancestor s repo a c → Ancestor s' repo a c) →
    Found s repo u probe → Found s' repo u probe
  wf_ingest : ∀ {s} repo oids, Wf s → Wf (b.ingest s repo oids)
  refs_ingest : ∀ s repo oids, refs (b.ingest s repo oids) = refs s
  ancestor_ingest : ∀ {s repo a c} repo' oids, Wf s → Ancestor s repo a c → Ancestor (b.ingest s repo' oids) repo a c
  start_probe : ∀ s repo {u probe}, b.startKind u = .inl probe → Found s repo u probe
  start_kind : ∀ s repo {u kind}, b.startKind u = .inr kind → KindSound (Ancestor s repo) u kind
  resume_probe : ∀ {budget s repo u probe probe'}, Found s repo u probe →
    b.resumeKind budget s repo u probe = some (.inl probe') → Found s repo u probe'
  resume_kind : ∀ {budget s repo u probe kind}, Found s repo u probe →
    b.resumeKind budget s repo u probe = some (.inr kind) → KindSound (Ancestor s repo) u kind
  wf_updateRefs : ∀ {s} repo us, Wf s → Wf (b.updateRefs s repo us).1
  ancestor_updateRefs : ∀ {s repo a c} repo' us, Wf s → Ancestor s repo a c →
    Ancestor (b.updateRefs s repo' us).1 repo a c
  /-- A transaction leaves the refs, or every command found the value it expects. -/
  updateRefs_follows : ∀ {s} repo us, Wf s → refs (b.updateRefs s repo us).1 = refs s ∨
    RefMap.Follows repo (refs s) (refs s) us ∧ refs (b.updateRefs s repo us).1 = (refs s).applyAll repo us

/-! ### One step -/

namespace StoreView

variable {b : PushBackend σ ρ Probe} (v : StoreView b)

/-- Every ancestor of a commit stays one. -/
def Grows (s s' : σ) : Prop := ∀ repo a c, v.Ancestor s repo a c → v.Ancestor s' repo a c

/-- What a run on the repository has established when it is in a phase. -/
def PhaseSafe (store : σ) (repo : ρ) (name : String) : Phase Probe Ctx → Prop
  | .classifying _ done probe todo =>
    (∀ p ∈ done, KindSound (v.Ancestor store repo) p.1 p.2) ∧ ∀ pr ∈ probe, ∀ u ∈ todo.head?, v.Found store repo u pr
  | .authorized updates => ∀ u ∈ updates, u.refname = name → Safe (v.Ancestor store repo) u
  | _ => True

/-- The ref exists, and its value is `A` or a descendant of it. -/
def Descends (repo : ρ) (name : String) (A : ObjectId) (store : σ) : Prop :=
  ∃ B, v.refs store repo name = some B ∧ v.Ancestor store repo A B

/-- The invariant of a protected ref. -/
structure Inv (access : ι → Access ρ Ctx View) (repo : ρ) (name : String)
    (s : State σ ι Probe Ctx) : Prop where
  wf : v.Wf s.store
  phase : ∀ i, (access i).repoId = repo → v.PhaseSafe s.store repo name (s.phase i)

variable {v}

theorem PhaseSafe.mono {s s' : σ} (hgrows : v.Grows s s') {phase : Phase Probe Ctx}
    (h : v.PhaseSafe s repo name phase) : v.PhaseSafe s' repo name phase := by
  cases phase with
  | classifying ctx done probe todo =>
    exact ⟨fun p hp => (h.1 p hp).mono (hgrows repo),
      fun pr hpr u hu => v.found_mono (hgrows repo) (h.2 pr hpr u hu)⟩
  | authorized updates => exact fun u hu hname => (h u hu hname).mono (hgrows repo)
  | start => trivial
  | parsed updates => trivial
  | admitted ctx updates => trivial
  | finished ok => trivial

theorem Inv.move {s : State σ ι Probe Ctx} {i : ι} {phase : Phase Probe Ctx}
    (h : v.Inv access repo name s) (hwf : v.Wf store) (hgrows : v.Grows s.store store)
    (hphase : (access i).repoId = repo → v.PhaseSafe store repo name phase) :
    v.Inv access repo name (s.move i store phase) := by
  refine ⟨hwf, fun j hj => ?_⟩
  by_cases hij : j = i
  · subst hij
    simpa [State.move] using hphase hj
  · simpa [State.move, hij] using (h.phase j hj).mono hgrows

theorem phaseSafe_classified {ctx : Ctx} {done : List (RefUpdate × PushKind)}
    {todo : List RefUpdate} {result : Probe ⊕ PushKind}
    (hdone : ∀ p ∈ done, KindSound (v.Ancestor store repo) p.1 p.2)
    (hprobe : ∀ probe, result = .inl probe → v.Found store repo u probe)
    (hkind : ∀ kind, result = .inr kind → KindSound (v.Ancestor store repo) u kind) :
    v.PhaseSafe store repo name (classified ctx done u todo result) := by
  cases result with
  | inl probe =>
    refine ⟨hdone, fun pr hpr u' hu' => ?_⟩
    obtain rfl := Option.some.inj hpr
    obtain rfl := Option.some.inj hu'
    exact hprobe _ rfl
  | inr kind =>
    refine ⟨fun p hp => ?_, fun pr hpr => by simp at hpr⟩
    rcases List.mem_append.mp hp with hp | hp
    · exact hdone p hp
    · obtain rfl := List.mem_singleton.mp hp
      exact hkind kind rfl

theorem phaseSafe_authorized {access : Access ρ Ctx View} (hprotects : access.Protects name)
    {ctx : Ctx} {done : List (RefUpdate × PushKind)} {view : View}
    (hdone : ∀ p ∈ done, KindSound (v.Ancestor store repo) p.1 p.2)
    (hok : access.authorizePush ctx (done.map fun (u, kind) => pushRef kind u) view = .ok ()) :
    v.PhaseSafe store repo name (.authorized (done.map (·.1)) : Phase Probe Ctx) := by
  intro u hu hname
  obtain ⟨⟨u', kind⟩, hmem, rfl⟩ := List.mem_map.mp hu
  refine (hdone _ hmem).safe ?_
  rw [← not_or]
  intro hbad
  have hrefused := hprotects ctx (done.map fun (u, kind) => pushRef kind u) view
    ⟨pushRef kind u', List.mem_map.mpr ⟨_, hmem, rfl⟩, hname, hbad⟩
  obtain ⟨e, he⟩ := hrefused
  rw [hok] at he
  simp at he

theorem other_updateRefs {s : σ} {repo repo' : ρ} (hwf : v.Wf s) (hrepo : repo ≠ repo')
    (us : List RefUpdate) (name : String) :
    v.refs (b.updateRefs s repo' us).1 repo name = v.refs s repo name := by
  rcases v.updateRefs_follows repo' us hwf with hsame | ⟨-, hafter⟩
  · rw [hsame]
  · rw [hafter, RefMap.applyAll_of_notMem repo' _ us fun u _ hboth => hrepo hboth.1]

theorem safe_updateRefs {s : σ} {us : List RefUpdate} {A : ObjectId} (hwf : v.Wf s)
    (hA : v.refs s repo name = some A)
    (hsafe : ∀ u ∈ us, u.refname = name → Safe (v.Ancestor s repo) u) :
    ∃ B, v.refs (b.updateRefs s repo us).1 repo name = some B ∧ v.Ancestor s repo A B := by
  rcases v.updateRefs_follows repo us hwf with hsame | ⟨hfollows, hafter⟩
  · exact ⟨A, hsame ▸ hA, v.refl ..⟩
  · rw [hafter]
    exact hfollows.moves_along (P := v.Ancestor s repo) (v.trans s repo) hA hA (v.refl ..) (v.refl ..) hsafe

/-- **One step of any run** keeps the invariant, and an existing protected ref stays or moves to a
descendant. -/
theorem move_protects (hprotects : ∀ i, (access i).repoId = repo → (access i).Protects name)
    {s s' : State σ ι Probe Ctx} {i : ι} (hinv : v.Inv access repo name s)
    (h : Moves b access s i s') : v.Inv access repo name s' ∧ v.Grows s.store s'.store ∧
      ∀ A, v.refs s.store repo name = some A → v.Descends repo name A s'.store := by
  have hstay : v.Grows s.store s.store := fun _ _ _ => id
  have hkeep : ∀ A, v.refs s.store repo name = some A → v.Descends repo name A s.store :=
    fun A hA => ⟨A, hA, v.refl ..⟩
  cases h with
  | parsed updates => exact ⟨hinv.move hinv.wf hstay fun _ => trivial, hstay, hkeep⟩
  | admitted ctx updates => exact ⟨hinv.move hinv.wf hstay fun _ => trivial, hstay, hkeep⟩
  | stopped => exact ⟨hinv.move hinv.wf hstay fun _ => trivial, hstay, hkeep⟩
  | ingested ctx updates oids =>
    have hgrows : v.Grows s.store (b.ingest s.store (access i).repoId oids) :=
      fun _ _ _ => v.ancestor_ingest _ oids hinv.wf
    refine ⟨hinv.move (v.wf_ingest _ oids hinv.wf) hgrows fun _ => ?_, hgrows, fun A hA => ⟨A, ?_, v.refl ..⟩⟩
    · exact ⟨fun p hp => absurd hp List.not_mem_nil, fun pr hpr => by simp at hpr⟩
    · exact (congrFun (congrFun (v.refs_ingest ..) repo) name).trans hA
  | @started ctx done u todo hphase =>
    refine ⟨hinv.move hinv.wf hstay fun hrepo => ?_, hstay, hkeep⟩
    have hsafe := hphase ▸ hinv.phase i hrepo
    exact phaseSafe_classified hsafe.1 (fun _ => v.start_probe _ _) fun _ => v.start_kind _ _
  | @resumed ctx done probe u todo budget result hphase hresult =>
    refine ⟨hinv.move hinv.wf hstay fun hrepo => ?_, hstay, hkeep⟩
    subst hrepo
    have hsafe := hphase ▸ hinv.phase i rfl
    have hfound : v.Found s.store (access i).repoId u probe := hsafe.2 probe rfl u rfl
    exact phaseSafe_classified hsafe.1 (fun _ hr => v.resume_probe hfound (hr ▸ hresult))
      fun _ hr => v.resume_kind hfound (hr ▸ hresult)
  | @accessFailed ctx done probe u todo hphase =>
    refine ⟨hinv.move hinv.wf hstay fun hrepo => ?_, hstay, hkeep⟩
    have hsafe := hphase ▸ hinv.phase i hrepo
    refine phaseSafe_classified hsafe.1 (fun _ hr => by simp at hr) fun kind hr => ?_
    obtain rfl := Sum.inr.inj hr
    trivial
  | authorized hphase hok =>
    refine ⟨hinv.move hinv.wf hstay fun hrepo => ?_, hstay, hkeep⟩
    have hsafe := hphase ▸ hinv.phase i hrepo
    exact phaseSafe_authorized (hprotects i hrepo) hsafe.1 hok
  | @updated updates hphase =>
    have hgrows : v.Grows s.store (b.updateRefs s.store (access i).repoId updates).1 :=
      fun _ _ _ => v.ancestor_updateRefs _ updates hinv.wf
    refine ⟨hinv.move (v.wf_updateRefs _ updates hinv.wf) hgrows fun _ => trivial, hgrows, fun A hA => ?_⟩
    by_cases hrepo : (access i).repoId = repo
    · subst hrepo
      have hsafe := hphase ▸ hinv.phase i rfl
      obtain ⟨B, hB, hanc⟩ := safe_updateRefs hinv.wf hA hsafe
      exact ⟨B, hB, hgrows _ _ _ hanc⟩
    · exact ⟨A, (other_updateRefs hinv.wf (Ne.symm hrepo) updates name).trans hA, v.refl ..⟩

/-! ### Whole runs -/

omit [DecidableEq ι] in
theorem inv_init (hwf : v.Wf store) : v.Inv access repo name (.init store) :=
  ⟨hwf, fun _ _ => trivial⟩

/-- **A protected ref only moves to descendants**, from any state of any interleaving of runs to any
later one. -/
theorem run_protects (hprotects : ∀ i, (access i).repoId = repo → (access i).Protects name)
    (hwf : v.Wf store) {past later : List (ι × Event View)} {s₁ s₂ : State σ ι Probe Ctx}
    (hpast : run b access (.init store) past = some s₁) (hlater : run b access s₁ later = some s₂)
    {A : ObjectId} (hA : v.refs s₁.store repo name = some A) : v.Descends repo name A s₂.store := by
  have hinv₁ : v.Inv access repo name s₁ :=
    run_invariant (fun _ _ _ hinv hmove => (move_protects hprotects hinv hmove).1) (inv_init hwf) hpast
  -- from `s₁` on, the value of the ref descends from `A` as well
  have hstep : ∀ s i s', v.Inv access repo name s ∧ v.Descends repo name A s.store → Moves b access s i s' →
      v.Inv access repo name s' ∧ v.Descends repo name A s'.store := by
    rintro s i s' ⟨hinv, X, hX, hAX⟩ hmove
    obtain ⟨hinv', hgrows, hvalue⟩ := move_protects hprotects hinv hmove
    obtain ⟨Y, hY, hXY⟩ := hvalue X hX
    exact ⟨hinv', Y, hY, v.trans _ _ (hgrows _ _ _ hAX) hXY⟩
  exact (run_invariant hstep ⟨hinv₁, A, hA, v.refl ..⟩ hlater).2

end StoreView

/-! ### The two backends -/

theorem startKind_inl {Probe : Type} {otherwise : Probe ⊕ PushKind} {probe : Probe}
    (h : startKind otherwise u = .inl probe) : otherwise = .inl probe ∧ u.newOid ≠ .null := by
  rw [startKind] at h
  split at h
  · simp at h
  · split at h
    · simp at h
    · rename_i hnew
      exact ⟨h, by simpa using hnew⟩

theorem startKind_inr {Probe : Type} {otherwise : Probe ⊕ PushKind}
    {anc : ObjectId → ObjectId → Prop} (h : startKind otherwise u = .inr kind)
    (hsound : u.newOid ≠ .null → otherwise = .inr kind → KindSound anc u kind) :
    KindSound anc u kind := by
  rw [startKind] at h
  split at h
  · rename_i hold
    obtain rfl := Sum.inr.inj h
    exact ObjectId.isNull_iff.mp hold
  · split at h
    · obtain rfl := Sum.inr.inj h
      trivial
    · rename_i hnew
      exact hsound (by simpa using hnew) h

/-- The parent graph of the SQL backend is the `commit_parents` table. -/
def sqlView (content : ObjectId → ObjectContent) : StoreView (sqlBackend content) where
  Wf db := Sql.Represents db.refs (Sql.refMap db.refs) ∧ (Sql.refMap db.refs).NonNull
  refs db := Sql.refMap db.refs
  Ancestor db repo a c := Reach (Sql.parentOids db repo) [c.bytes] a.bytes
  Found _ _ u _ := u.newOid ≠ .null
  refl _ _ _ := reach_self (List.mem_singleton_self _)
  trans _ _ _ _ _ hac hcd := reach_trans hcd hac
  found_mono _ h := h
  wf_ingest repo oids h := by rwa [sqlBackend_ingest, Sql.refs_ingestPack]
  refs_ingest db repo oids := by rw [sqlBackend_ingest, Sql.refs_ingestPack]
  ancestor_ingest repo' oids _ h :=
    reach_mono (fun _ _ hp => Sql.mem_parentOids_ingestPack content hp repo' oids) h
  start_probe _ _ _ _ h := (startKind_inl h).2
  start_kind _ _ _ _ h := startKind_inr h fun _ hother => by simp at hother
  resume_probe _ h := by
    obtain ⟨_, -, hr⟩ := Option.map_eq_some_iff.mp h
    simp at hr
  resume_kind hnew h := by
    obtain ⟨answer, hquery, hr⟩ := Option.map_eq_some_iff.mp h
    obtain rfl := Sum.inr.inj hr
    cases answer with
    | false => trivial
    | true => exact ⟨hnew, enumerate_true hquery⟩
  wf_updateRefs repo us h := by
    rw [sqlBackend_updateRefs]
    rcases Sql.updateRefsOwned_follows h.1 h.2 repo us with hsame | ⟨-, table, hafter, hrep⟩
    · rwa [hsame]
    · rw [hafter, Sql.refMap_eq hrep]
      exact ⟨hrep, h.2.applyAll repo us⟩
  ancestor_updateRefs repo' us hwf h := by
    rw [sqlBackend_updateRefs]
    rcases Sql.updateRefsOwned_follows hwf.1 hwf.2 repo' us with hsame | ⟨-, table, hafter, -⟩
    · rwa [hsame]
    · rw [hafter]
      exact h
  updateRefs_follows repo us h := by
    rw [sqlBackend_updateRefs]
    rcases Sql.updateRefsOwned_follows h.1 h.2 repo us with hsame | ⟨hfollows, table, hafter, hrep⟩
    · exact Or.inl (by rw [hsame])
    · exact Or.inr ⟨hfollows, by rw [hafter, Sql.refMap_eq hrep]⟩

/-- The frontier of a KV search holds ancestors of the new commit only. -/
def Frontier (s : Kv.Store) (repo : UInt64) (u : RefUpdate)
    (probe : List ObjectId × List ObjectId) : Prop :=
  u.newOid ≠ .null ∧ ∀ x ∈ probe.2, Reach (Kv.parents s repo) [u.newOid] x

theorem frontier_round {s : Kv.Store} {repo : UInt64} {probe probe' : List ObjectId × List ObjectId}
    (h : Frontier s repo u probe) (hround : kvRound s repo u probe = .inl probe') :
    Frontier s repo u probe' := by
  rw [kvRound] at hround
  split at hround
  · rename_i seen queue hstep
    obtain rfl := Sum.inl.inj hround
    refine ⟨h.1, fun y hy => ?_⟩
    rcases searchStep_queue hstep hy with hy | ⟨x, hx, hedge⟩
    · exact h.2 y hy
    · exact reach_trans (h.2 x hx) (reach_singleton.mpr (.single hedge))
  · simp at hround

theorem kindSound_round {s : Kv.Store} {repo : UInt64} {probe : List ObjectId × List ObjectId}
    (h : Frontier s repo u probe) (hround : kvRound s repo u probe = .inr kind) :
    KindSound (fun a c => Reach (Kv.parents s repo) [c] a) u kind := by
  rw [kvRound] at hround
  split at hround
  · simp at hround
  · rename_i answer hstep
    obtain rfl := Sum.inr.inj hround
    rcases answer with e | _ | _
    · trivial
    · trivial
    · obtain ⟨x, hx, hedge⟩ := searchStep_done_true hstep
      exact ⟨h.1, reach_trans (h.2 x hx) (reach_singleton.mpr (.single hedge))⟩

/-- The parent graph of the KV backend is what `fetch_parents` reads. -/
def kvView (mode : Lock.LockRead) (content : ObjectId → ObjectContent) :
    StoreView (kvBackend mode content) where
  Wf s := (Kv.Represents s (Kv.refMap s) ∧ (Kv.refMap s).NonNull) ∧ Kv.Stored content s
  refs := Kv.refMap
  Ancestor s repo a c := Reach (Kv.parents s repo) [c] a
  Found := Frontier
  refl _ _ _ := reach_self (List.mem_singleton_self _)
  trans _ _ _ _ _ hac hcd := reach_trans hcd hac
  found_mono hgrows h := ⟨h.1, fun x hx => hgrows _ _ (h.2 x hx)⟩
  wf_ingest repo oids h := by
    rw [kvBackend_ingest, Kv.refMap_ingestPack]
    exact ⟨⟨fun r n => (Kv.refs_ingestPack content _ repo oids r n).trans (h.1.1 r n), h.1.2⟩,
      Kv.stored_ingestPack content h.2 repo oids⟩
  refs_ingest s repo oids := by rw [kvBackend_ingest, Kv.refMap_ingestPack]
  ancestor_ingest repo' oids hwf h :=
    reach_mono (fun _ _ hp => Kv.mem_parents_ingestPack content hwf.2 repo' oids hp) h
  start_probe s repo u probe h := by
    obtain ⟨hother, hnew⟩ := startKind_inl h
    split at hother
    · simp at hother
    · obtain rfl := Sum.inl.inj hother
      refine ⟨hnew, fun x hx => reach_self hx⟩
  start_kind s repo u kind h := by
    refine startKind_inr h fun hnew hother => ?_
    split at hother
    · rename_i hsame
      obtain rfl := Sum.inr.inj hother
      exact ⟨hnew, hsame ▸ reach_self (List.mem_singleton_self _)⟩
    · simp at hother
  resume_probe hfound h := frontier_round hfound (Option.some.inj h)
  resume_kind hfound h := kindSound_round hfound (Option.some.inj h)
  wf_updateRefs repo us h := by
    rw [kvBackend_updateRefs]
    rcases Kv.updateRefs_follows mode h.1.1 repo us with hsame | ⟨-, hafter⟩
    · rwa [hsame]
    · have hrep := Kv.represents_batchWrites h.1.1 repo us
      rw [hafter, Kv.refMap_eq hrep]
      exact ⟨⟨hrep, h.1.2.applyAll repo us⟩, Kv.stored_batchWrites content h.2 repo us⟩
  ancestor_updateRefs repo' us hwf h := by
    rw [kvBackend_updateRefs]
    rcases Kv.updateRefs_follows mode hwf.1.1 repo' us with hsame | ⟨-, hafter⟩
    · rwa [hsame]
    · rw [hafter]
      exact reach_mono (fun _ _ hp => by rwa [Kv.parents_batchWrites]) h
  updateRefs_follows repo us h := by
    rw [kvBackend_updateRefs]
    rcases Kv.updateRefs_follows mode h.1.1 repo us with hsame | ⟨hfollows, hafter⟩
    · exact Or.inl (by rw [hsame])
    · exact Or.inr ⟨hfollows, by rw [hafter, Kv.refMap_eq (Kv.represents_batchWrites h.1.1 repo us)]⟩

/-- **Branch protection.** On a store that begins with well-formed refs, with any number of runs
whose authorisers refuse to force or delete the ref `name` of a repository, interleaved in any order
and with any commands: if the ref has the value `A` at some point, it exists at every later point,
and `A` is its value or an ancestor of it. -/
theorem protectedRef_descends (content : ObjectId → ObjectContent) (name : String) (A : ObjectId) :
    (∀ (access : ι →
      Access Int Ctx View) (repo : Int) (db : Sql.Db) (past later : List (ι × Event View))
        (s₁ s₂ : State Sql.Db ι Unit Ctx),
      (∀ i, (access i).repoId = repo → (access i).Protects name) →
      Sql.WellFormed db.refs → (Sql.refMap db.refs).NonNull →
      run (sqlBackend content) access (.init db) past = some s₁ → run (sqlBackend content) access s₁ later = some s₂ →
      Sql.refMap s₁.store.refs repo name = some A →
      ∃ B, Sql.refMap s₂.store.refs repo name = some B ∧ Reach (Sql.parentOids s₂.store repo) [B.bytes] A.bytes) ∧
    ∀ (mode : Lock.LockRead) (access : ι → Access UInt64 Ctx View) (repo : UInt64) (store : Kv.Store)
        (past later : List (ι × Event View)) (s₁ s₂ : State Kv.Store ι (List ObjectId × List ObjectId) Ctx),
      (∀ i, (access i).repoId = repo → (access i).Protects name) →
      Kv.WellFormed store → (Kv.refMap store).NonNull → Kv.Stored content store →
      run (kvBackend mode content) access (.init store) past = some s₁ →
      run (kvBackend mode content) access s₁ later = some s₂ →
      Kv.refMap s₁.store repo name = some A →
      ∃ B, Kv.refMap s₂.store repo name = some B ∧ Reach (Kv.parents s₂.store repo) [B] A := by
  constructor
  · intro access repo db past later s₁ s₂ hprotects hwf hnonnull hpast hlater hA
    exact StoreView.run_protects (v := sqlView content) hprotects ⟨Sql.represents_refMap hwf, hnonnull⟩ hpast hlater hA
  · intro mode access repo store past later s₁ s₂ hprotects hwf hnonnull hstored hpast hlater hA
    exact StoreView.run_protects (v := kvView mode content) hprotects
      ⟨⟨Kv.represents_refMap hwf, hnonnull⟩, hstored⟩ hpast hlater hA

/-! A created branch that is fast-forwarded while a stale push is under way. -/

/-- Commit `2` has commit `1` as its parent, commit `3` has none. -/
def sampleContent (oid : ObjectId) : ObjectContent :=
  ⟨.commit, [], if oid = .fill 2 then [.fill 1] else []⟩

/-- An access that refuses to force or delete any ref. -/
def guardedAccess {ρ : Type} (repo : ρ) : Access ρ Unit Unit where
  repoId := repo
  authorizePreliminary _ := .ok ()
  authorizePush _ refs _ :=
    if refs.any fun r => r.kind = .forcePush ∨ r.kind = .delete then .error "protected" else .ok ()

theorem guardedAccess_protects {ρ : Type} (repo : ρ) (name : String) :
    (guardedAccess repo).Protects name := by
  rintro ctx refs view ⟨r, hr, -, hkind⟩
  refine ⟨"protected", if_pos (List.any_eq_true.mpr ⟨r, hr, by simpa using hkind⟩)⟩

local instance (priority := 2000) neZeroThree : NeZero 3 := ⟨by decide⟩

/-- Run `0` creates the branch. -/
def creatingPush : List (Fin 3 × Event Unit) :=
  [(0, .parse [⟨.null, .fill 1, "refs/heads/main"⟩]), (0, .preliminary), (0, .ingest [.fill 1]), (0, .classify 9),
    (0, .authorize ()), (0, .updateRefs)]

/-- Run `1` moves it forward; run `2` wants commit `3`, which is not a descendant, and is
refused. -/
def concurrentPushes : List (Fin 3 × Event Unit) :=
  [(1, .parse [⟨.fill 1, .fill 2, "refs/heads/main"⟩]), (2, .parse [⟨.fill 1, .fill 3, "refs/heads/main"⟩]),
    (2, .preliminary), (1, .preliminary), (1, .ingest [.fill 2]), (2, .ingest [.fill 3]), (1, .classify 9),
    (2, .classify 9), (2, .classify 9), (1, .classify 9), (1, .authorize ()), (1, .updateRefs)]

theorem protectedRef_descends_concurrent :
    ∃ (s₁ s₂ : State Sql.Db (Fin 3) Unit Unit) (t₁ t₂ : State Kv.Store (Fin 3) (List ObjectId ×
      List ObjectId) Unit),
      run (sqlBackend sampleContent) (fun _ => guardedAccess 1) (.init ⟨.empty, .empty, .empty⟩) creatingPush
        = some s₁ ∧
      run (sqlBackend sampleContent) (fun _ => guardedAccess 1) s₁ concurrentPushes = some s₂ ∧
      run (kvBackend .committed sampleContent) (fun _ => guardedAccess 1) (.init ∅) creatingPush = some t₁ ∧
      run (kvBackend .committed sampleContent) (fun _ => guardedAccess 1) t₁ concurrentPushes = some t₂ ∧
      (∃ B, Sql.refMap s₂.store.refs 1 "refs/heads/main" = some B ∧
        Reach (Sql.parentOids s₂.store 1) [B.bytes] (ObjectId.fill 1).bytes) ∧
      ∃ B, Kv.refMap t₂.store 1 "refs/heads/main" = some B ∧ Reach (Kv.parents t₂.store 1) [B] (.fill 1) := by
  have hsqlRun : (run (sqlBackend sampleContent) (fun _ => guardedAccess 1)
      (.init ⟨.empty, .empty, .empty⟩ : State Sql.Db (Fin 3) Unit Unit) creatingPush).any fun s₁ =>
        Sql.refMap s₁.store.refs 1 "refs/heads/main" = some (.fill 1) ∧
        (run (sqlBackend sampleContent) (fun _ => guardedAccess 1) s₁ concurrentPushes).isSome := by decide +kernel
  have hkvRun : (run (kvBackend .committed sampleContent) (fun _ => guardedAccess 1)
      (.init ∅ : State Kv.Store (Fin 3) _ Unit) creatingPush).any fun t₁ =>
        Kv.refMap t₁.store 1 "refs/heads/main" = some (.fill 1) ∧
        (run (kvBackend .committed sampleContent) (fun _ => guardedAccess 1) t₁ concurrentPushes).isSome := by
    decide +kernel
  obtain ⟨s₁, hs₁, hsqlNext⟩ := (Option.any_eq_true _ _).mp hsqlRun
  obtain ⟨hsqlRef, hs₂⟩ := of_decide_eq_true hsqlNext
  obtain ⟨s₂, hs₂⟩ := Option.isSome_iff_exists.mp hs₂
  obtain ⟨t₁, ht₁, hkvNext⟩ := (Option.any_eq_true _ _).mp hkvRun
  obtain ⟨hkvRef, ht₂⟩ := of_decide_eq_true hkvNext
  obtain ⟨t₂, ht₂⟩ := Option.isSome_iff_exists.mp ht₂
  obtain ⟨hsql, hkv⟩ := @protectedRef_descends (Fin 3) Unit Unit _ sampleContent "refs/heads/main" (.fill 1)
  refine ⟨s₁, s₂, t₁, t₂, hs₁, hs₂, ht₁, ht₂, ?_, ?_⟩
  · exact hsql _ 1 _ _ _ _ _ (fun _ _ => guardedAccess_protects 1 _) (fun r hr => absurd hr List.not_mem_nil)
      (fun repo name => by simp [Sql.refMap, Sql.oidAt, Table.lookup, Table.empty]) hs₁ hs₂ hsqlRef
  · exact hkv .committed _ 1 _ _ _ _ _ (fun _ _ => guardedAccess_protects 1 _) (fun repo name v hv => by simp at hv)
      (fun repo name => by simp [Kv.refMap]) (fun repo c => Or.inl fun key _ => by simp) ht₁ ht₂ hkvRef

end Mizzle.Serve
