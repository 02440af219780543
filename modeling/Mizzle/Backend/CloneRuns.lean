import Mizzle.Backend.Agreement
import Mizzle.Pack.Builders
import Mizzle.Pack.Cache

/-!
# A clone among other requests

A client lists the refs of a repository, and asks for a pack of what it was told later on. In
between, anything that is specified may be asked of the backend: pushes move and delete refs of the
same repository, and ingest objects; clones of others fill the cache. No request takes an object
away (`run_objects`), so the pack is the one that could have been built at the time of the listing
(`clone_undisturbed`).
-/

namespace Mizzle.Storage

open Lib Pack

variable {content : ObjectId → ObjectContent} {codec : Codec} {cause : String}
  {mode : Lock.LockRead} {io : Stream' CacheIo}
  {repos : Repositories} {path : String} {r : Repository}

theorem after_objects (hpath : repos path = some r) (request : Request) :
    ∃ r', request.after repos path = some r' ∧ r.objects ⊆ r'.objects := by
  cases request with
  | initRepo path' =>
    by_cases hsame : path' = path
    · refine ⟨r, ?_, Finset.Subset.refl _⟩
      rw [hsame, Enumerates.initRepo_known (by simp [hpath]), hpath]
    · exact ⟨r, (Function.update_of_ne (Ne.symm hsame) ..).trans hpath, Finset.Subset.refl _⟩
  | on path' op =>
    by_cases hsame : path' = path
    · refine ⟨r.after op, ?_, r.objects_subset_after op⟩
      rw [hsame, Request.after, Function.update_self, hpath, Option.map_some]
    · exact ⟨r, (Function.update_of_ne (Ne.symm hsame) ..).trans hpath, Finset.Subset.refl _⟩

/-- **No run takes an object away.** -/
theorem run_objects (hpath : repos path = some r) (requests : List Request) :
    ∃ r', (spec content codec).run repos requests path = some r' ∧ r.objects ⊆ r'.objects := by
  induction requests generalizing repos r with
  | nil => exact ⟨r, hpath, Finset.Subset.refl _⟩
  | cons request requests ih =>
    obtain ⟨middle, hmiddle, hfirst⟩ := after_objects hpath request
    obtain ⟨last, hlast, hrest⟩ := ih hmiddle
    exact ⟨last, hlast, hfirst.trans hrest⟩

section Clone

/-- The requests of a client that clones, among others. -/
def cloneRequests (before between : List Request) (path : String) (request : Pack.Request) :
    List Request :=
  before ++ .on path .listRefs :: (between ++ [.on path (.buildPack request)])

variable {before between : List Request} {request : Pack.Request}

theorem after_listRefs (repos : Repositories) :
    (spec content codec).after repos (.on path .listRefs) = repos := by
  show Function.update repos path _ = repos
  exact Function.update_eq_self_iff.mpr (by cases repos path <;> rfl)

theorem admitsAll_cloneRequests (hadmits : (spec content codec).AdmitsAll repos (before ++ between))
    (hpath : (spec content codec).run repos before path = some r)
    (hlisting : r.Admits content codec .listRefs) {o : Objects}
    (hinside : r.Inside content codec.parser request.wants request.haves o)
    (hnamed : ∀ last, (spec content codec).run repos (before ++ between) path = some last →
      last.Named codec request) :
    (spec content codec).AdmitsAll repos (cloneRequests before between path request) := by
  obtain ⟨hbefore, hbetween⟩ := Spec.admitsAll_append.mp hadmits
  refine Spec.admitsAll_append.mpr ⟨hbefore, ?_, ?_⟩
  · intro r' hr'
    rw [hpath] at hr'
    exact Option.some.inj hr' ▸ hlisting
  · rw [after_listRefs]
    refine Spec.admitsAll_append.mpr ⟨hbetween, ?_, trivial⟩
    intro r' hr'
    obtain ⟨last, hlast, hsub⟩ := run_objects hpath between
    rw [Spec.run, List.foldl_append] at hnamed
    have hown := hnamed r' hr'
    rw [hlast] at hr'
    obtain rfl := Option.some.inj hr'
    exact ⟨⟨o, hinside.mono hsub⟩, hown⟩

variable (content) in
/-- The pack has what the wants reach and the haves do not, and each object with its own data. -/
def Carries (o : Objects) (request : Pack.Request) (pack : Finset PackedObject) : Prop :=
  Exact o request.wants request.haves (pack.image PackedObject.oid) ∧
    ∀ x ∈ pack, x.kind = (content x.oid).kind ∧ x.data = (content x.oid).data

theorem carries_of_packOf {o : Objects} (hclosed : o.Closed) (hno : o.NoGitlinks)
    (hwants : ∀ w ∈ request.wants, o.IsCommit w) (hhaves : ∀ c ∈ request.haves, o.IsCommit c)
    {pack : Finset PackedObject} (h : Repository.PackOf content codec.parser o request pack) :
    Carries content o request pack := by
  refine ⟨fun oid => ?_, fun x hx => ((h x).mp hx).2⟩
  rw [← hclosed.selectedDb_iff hno hwants hhaves, Finset.mem_image]
  constructor
  · rintro ⟨x, hx, rfl⟩
    exact ((h x).mp hx).1
  · intro hselected
    exact ⟨⟨oid, (content oid).kind, (content oid).data⟩, (h _).mpr ⟨hselected, rfl, rfl⟩, rfl⟩

variable (content) in
/-- The answers of a backend to a client that clones, among others: the refs as they are in the
repository `r`, and what the store `o` has for the request. -/
def Clones {σ : Type} (serve : Service σ Request Reply) (s : σ) (before between : List Request)
    (path : String) (r : Repository) (o : Objects) (request : Pack.Request) : Prop :=
  ∃ s' replies snapshot replies' pack,
    serve.AnswersAll s (cloneRequests before between path request) s'
      (replies ++ .refs snapshot :: (replies' ++ [.pack pack])) ∧
    replies.length = before.length ∧ replies'.length = between.length ∧ r.Lists snapshot ∧
    Carries content o request pack

theorem clones_of_implements {σ : Type} {serve : Service σ Request Reply}
    {stands : σ → Repositories → Prop} (himplements : serve.Implements (spec content codec) stands)
    {s : σ} (hs : stands s repos)
    (hadmits : (spec content codec).AdmitsAll repos (before ++ between))
    (hpath : (spec content codec).run repos before path = some r)
    (hlisting : r.Admits content codec .listRefs) {o : Objects}
    (hbacks : r.Backs content codec.parser o) (hno : o.NoGitlinks)
    (hwants : ∀ w ∈ request.wants, o.IsCommit w) (hhaves : ∀ c ∈ request.haves, o.IsCommit c)
    (hnamed : ∀ last, (spec content codec).run repos (before ++ between) path = some last →
      last.Named codec request) : Clones content serve s before between path r o request := by
  have hinside : r.Inside content codec.parser request.wants request.haves o :=
    ⟨hbacks, fun w hw => (hwants w hw).find_ne_none, hhaves⟩
  obtain ⟨s', replies, hanswers, -, hreplies⟩ :=
    himplements.run_answers hs (admitsAll_cloneRequests hadmits hpath hlisting hinside hnamed)
  obtain ⟨first, rest, rfl, hfirst, hrest⟩ := hreplies.exists_append
  cases hrest with
  | cons hlist hrest =>
    obtain ⟨snapshot, rfl, hlists⟩ := hlist.1 r hpath
    obtain ⟨middle, last, rfl, hmiddle, hlast⟩ := hrest.exists_append
    cases hlast with
    | cons hpack hnil =>
      cases hnil
      rw [after_listRefs] at hpack
      obtain ⟨r', hr', hsub⟩ := run_objects hpath between
      obtain ⟨pack, rfl, hpackOf⟩ := hpack.1 r' hr'
      have hcarries := carries_of_packOf hbacks.sealed.closed hno hwants hhaves
        (hpackOf o (hinside.mono hsub))
      exact ⟨s', first, snapshot, middle, pack, hanswers, hfirst.length_eq, hmiddle.length_eq,
        hlists, hcarries⟩

end Clone

def cloneRequest : Pack.Request := ⟨[.fill 2], [.fill 1], ⟨none, none, false⟩⟩

/-- The branch is created before the clone. It is deleted before its pack is built, and another
client has got the pack by then. -/
def pushes : List Request × List Request :=
  ([.initRepo "a.git", .on "a.git" (.ingestPack (linearEntries.map Prod.fst)),
      .on "a.git" (.updateRefs [⟨.null, .fill 2, "refs/heads/main"⟩])],
    [.on "a.git" (.buildPack cloneRequest), .on "a.git" (.updateRefs [⟨.fill 2, .null, "refs/heads/main"⟩]),
      .on "a.git" (.ingestPack [.fill 9])])

/-- The repository when it is listed. -/
def pushedRepository : Repository where
  objects := ∅ ∪ (linearEntries.map Prod.fst).toFinset
  refs := RefMap.applyAll () (fun _ _ => none) [⟨.null, .fill 2, "refs/heads/main"⟩] ()
  asked := []

def linearCodec : Codec :=
  ⟨linearStore.parser, fun _ _ => .error "no commit", fun _ _ _ => .error "no tree", id⟩

theorem run_pushes :
    (spec linearStore.content linearCodec).run noRepositories pushes.1 "a.git" =
      some pushedRepository := rfl

theorem listRefs_pushedRepository :
    pushedRepository.Admits linearStore.content linearCodec .listRefs := by
  have hnew : ObjectId.fill 2 ≠ .null := by decide
  have hnames : {name | pushedRepository.refs name ≠ none} = {"refs/heads/main"} := by
    ext name
    by_cases hname : name = "refs/heads/main" <;>
      simp [pushedRepository, RefMap.applyAll, RefMap.apply, RefMap.set, hname, RefUpdate.value, hnew]
  rw [Repository.Admits, hnames, Set.ncard_singleton]
  exact ⟨by decide, Set.finite_singleton _⟩

theorem backs_pushedRepository :
    pushedRepository.Backs linearStore.content linearStore.parser linearStore where
  sealed := sealed_linearStore
  stored {oid obj} hfind := by
    rw [Objects.content_of_find hfind]
    refine ⟨?_, Objects.reads_data hfind, rfl⟩
    rw [pushedRepository, Finset.empty_union, List.mem_toFinset, Objects.mem_keys_ofList]
    exact hfind ▸ Option.some_ne_none obj

theorem inside_pushedRepository :
    pushedRepository.Inside linearStore.content linearStore.parser cloneRequest.wants
    cloneRequest.haves linearStore :=
  ⟨backs_pushedRepository, by decide +kernel, by decide +kernel⟩

theorem admitsAll_pushes :
    (spec linearStore.content linearCodec).AdmitsAll noRepositories (pushes.1 ++ pushes.2) := by
  have hnew : ObjectId.fill 2 ≠ .null := by decide
  refine Spec.admitsAll_append.mpr ⟨?_, ?_, ?_⟩
  · simp [pushes, Spec.AdmitsAll, spec, Request.Admitted, noRepositories, Repository.Admits, hnew]
  · intro r hr
    obtain rfl := Option.some.inj (run_pushes.symm.trans hr)
    exact ⟨⟨linearStore, inside_pushedRepository⟩, fun earlier hearlier => absurd hearlier List.not_mem_nil⟩
  · simp [Spec.AdmitsAll, spec, Request.Admitted, Repository.Admits, hnew]

theorem named_pushes {last : Repository}
    (h : (spec linearStore.content linearCodec).run noRepositories (pushes.1 ++ pushes.2) "a.git" =
      some last) : last.Named linearCodec cloneRequest := by
  intro earlier hearlier id _
  obtain rfl := Option.some.inj h
  have hsame : earlier = cloneRequest := List.mem_singleton.mp hearlier
  rw [hsame]
  exact ⟨.refl _, .refl _⟩

end Mizzle.Storage
