import Mizzle.Backend.Ancestry
import Mizzle.Backend.Operation
import Mizzle.Backend.RefMap
import Mizzle.Backend.TreeDiff
import Mizzle.Pack.Partial

/-!
# What a storage backend is for

`StorageBackend` of `mizzle/src/backend/mod.rs`, without a word on how things are stored. A
repository is the oids of its objects and the values of its refs; what an oid stands for is given by
`content`, since objects are addressed by their content. The storage as a whole gives a repository
to each path that was initialised.

`Storage.spec` says for every operation of the trait when a backend has to answer it, what the
answer is, and what the repository is afterwards. It leaves open the order of the listed refs and
the texts of errors, and nothing else (`Reply.Alike`). The conditions under which an answer is
specified (`Repository.Admits`) are those under which the backends with databases agree: refs are
named once in a batch, no command has two null oids, and a cap is not met by the excluded side
alone. A pack is asked for when all that the request leads to is stored, and no pack was asked for
before under the same name in the cache but for other objects. It does not matter then whether the
pack is a cached one, so the specification has no cache.
-/

namespace Mizzle

open Lib Pack

/-- A repository, apart from how it is stored, and the packs that it was asked for. -/
structure Repository where
  objects : Finset ObjectId
  refs : String → Option ObjectId
  asked : List Pack.Request

open Storage

theorem Walked.listed_unique {parents : ObjectId → List ObjectId}
    {tips excluding listed listed' : List ObjectId} {exclude exclude' : Finset ObjectId}
    {enough enough' : Nat} (h : Walked parents tips excluding exclude listed enough)
    (h' : Walked parents tips excluding exclude' listed' enough') : listed = listed' := by
  obtain rfl : exclude = exclude' := Finset.ext fun x => (h.mem_exclude x).trans (h'.mem_exclude x).symm
  have hwalk := h.walk (max enough enough') (le_max_left _ _)
  rw [h'.walk (max enough enough') (le_max_right _ _)] at hwalk
  exact (Except.ok.inj (Option.some.inj hwalk)).symm

/-! ### One repository -/

namespace Repository

/-- The branch that `HEAD` names; no operation sets another one. -/
def mainBranch : String := "refs/heads/main"

def empty : Repository := ⟨∅, fun _ => none, []⟩

/-- The refs alone, as the transactions see them. -/
def refMap (r : Repository) : RefMap Unit := fun _ => r.refs

variable (content : ObjectId → ObjectContent)

/-- The parents of the stored commits. -/
def parents (r : Repository) (c : ObjectId) : List ObjectId :=
  if c ∈ r.objects then (content c).parents else []

/-- The snapshot has every ref once. -/
structure Lists (r : Repository) (snapshot : RefsSnapshot) : Prop where
  nodup : snapshot.refs.Nodup
  mem : ∀ info, info ∈ snapshot.refs ↔ r.refs info.name = some info.oid ∧ info.peeled = none ∧ info.symrefTarget = none
  head : snapshot.head = (r.refs mainBranch).map fun oid => ⟨oid, some mainBranch⟩

variable (p : Parser)

/-- A part of the repository that nothing leads out of. -/
structure Backs (r : Repository) (o : Objects) : Prop where
  sealed : o.Sealed p
  stored : ∀ {oid obj}, o.find oid = some obj →
    oid ∈ r.objects ∧ p.Reads obj (content oid).kind (content oid).data ∧ obj.parents = (content oid).parents

/-- The request for a pack stays in a part that nothing leads out of. -/
def Inside (r : Repository) (wants haves : List ObjectId) (o : Objects) : Prop :=
  r.Backs content p o ∧ (∀ w ∈ wants, o.find w ≠ none) ∧ ∀ c ∈ haves, o.IsCommit c

/-- The data of an object, unless it is longer than `cap`. -/
def read (r : Repository) (oid : ObjectId) (cap : Nat) : Option Bytes :=
  if oid ∈ r.objects ∧ (content oid).data.length ≤ cap then some (content oid).data else none

def trees (r : Repository) (oid : ObjectId) : Option Bytes :=
  if oid ∈ r.objects ∧ (content oid).kind = .tree then some (content oid).data else none

/-- The pack that a request gets from a store: what is selected, with its data. -/
def PackOf (o : Objects) (request : Pack.Request) (pack : Finset PackedObject) : Prop :=
  ∀ x, x ∈ pack ↔ o.SelectedDb p request.wants request.haves x.oid ∧
    x.kind = (content x.oid).kind ∧ x.data = (content x.oid).data

/-- Every file of the cache is the pack of a request that was made, in a part that nothing leads out
of. -/
def Caches (r : Repository) (files : Bytes → Option (Finset PackedObject))
    (name : Pack.Request → Bytes) : Prop :=
  ∀ key pack, files key = some pack → ∃ request ∈ r.asked, name request = key ∧
    ∃ o, r.Inside content p request.wants request.haves o ∧ PackOf content p o request pack

variable (codec : Codec)

/-- In the cache, the request has the name of no earlier one for other objects. -/
def Named (r : Repository) (request : Pack.Request) : Prop :=
  ∀ earlier ∈ r.asked, ∀ id, cacheKey codec.sha256 id earlier = cacheKey codec.sha256 id request →
    earlier.wants.Perm request.wants ∧ earlier.haves.Perm request.haves

/-- The operations whose answer is specified. -/
def Admits (r : Repository) : Operation → Prop
  | .listRefs => {name | r.refs name ≠ none}.ncard < 2 ^ 32 ∧ {name | r.refs name ≠ none}.Finite
  | .updateRefs updates => (updates.map (·.refname)).Nodup ∧ ∀ u ∈ updates, u.oldOid = .null → u.newOid ≠ .null
  | .readCommitInfo oid => oid ∈ r.objects → (content oid).kind = .commit
  | .reachableExcluding tips excluding cap => tips = [] ∨ ∀ limit, cap = some limit →
    {x | Reach (r.parents content) excluding x}.ncard ≤ limit ∨
      limit < {x | Reach (r.parents content) tips x ∧ ¬ Reach (r.parents content) excluding x}.ncard
  | .buildPack request =>
    (∃ o, r.Inside content codec.parser request.wants request.haves o) ∧ r.Named codec request
  | _ => True

def after (r : Repository) : Operation → Repository
  | .updateRefs updates => (r.refMap.cas () updates).elim r fun refs => { r with refs := refs () }
  | .ingestPack oids => { r with objects := r.objects ∪ oids.toFinset }
  | .buildPack request => { r with asked := request :: r.asked }
  | _ => r

def Replies (r : Repository) (reply : Reply) : Operation → Prop
  | .listRefs => ∃ snapshot, reply = .refs snapshot ∧ r.Lists snapshot
  | .resolveRef refname => reply = .ref (r.refs refname)
  | .updateRefs updates => if ∀ u ∈ updates, r.refMap.Expects () u then reply = .done
    else ∃ message, reply = .error message
  | .hasObject oid => reply = .found [decide (oid ∈ r.objects)]
  | .hasObjects oids => reply = .found (oids.map fun oid => decide (oid ∈ r.objects))
  | .readBlob oid cap => reply = .data (if (content oid).kind = .blob then r.read content oid cap else none)
  | .readObjectRaw oid cap => reply = .data (r.read content oid cap)
  | .readCommitInfo oid =>
    if oid ∈ r.objects then reply = .ofResult .commit (codec.parseCommitInfo (content oid).data oid)
    else ∃ message, reply = .error message
  | .ingestPack _ => reply = .done
  | .computePushKind oldOid newOid => ∃ kind, reply = .kind kind ∧ KindTells (r.parents content) oldOid newOid kind
  | .reachableExcluding tips excluding cap => ∃ exclude listed enough,
    Walked (r.parents content) tips excluding exclude listed enough ∧ reply =
      .commits (withinCap cap listed.length listed)
  | .buildPack request => ∃ pack, reply = .pack pack ∧
    ∀ o, r.Inside content codec.parser request.wants request.haves o → PackOf content codec.parser o request pack
  | .treeDiff parentTree childTree => ∃ result, reply = .ofResult .diff result ∧
    DiffTells codec.parser (r.trees content) codec.treeDiff (parentTree.getD .emptyTree) childTree result

end Repository

variable {path : String} {o : Objects} {i : Nat} {request : Pack.Request}

namespace Repository

variable {content : ObjectId → ObjectContent} {p : Parser} {codec : Codec} {r : Repository}

theorem Lists.perm {snapshot snapshot' : RefsSnapshot} (h : r.Lists snapshot)
    (h' : r.Lists snapshot') : snapshot.refs.Perm snapshot'.refs :=
  (List.perm_ext_iff_of_nodup h.nodup h'.nodup).mpr fun info => (h.mem info).trans (h'.mem info).symm

theorem head_of_find {refs : List RefInfo}
    (h : ∀ info, info ∈ refs ↔ r.refs info.name = some info.oid ∧ info.peeled = none ∧
      info.symrefTarget = none) :
    ((refs.find? fun info => info.name = mainBranch).map fun info =>
      (⟨info.oid, some mainBranch⟩ : HeadInfo)) =
      (r.refs mainBranch).map fun oid => ⟨oid, some mainBranch⟩ := by
  cases hfind : refs.find? fun info => info.name = mainBranch with
  | none =>
    cases hmain : r.refs mainBranch with
    | none => rfl
    | some oid =>
      have hnone := List.find?_eq_none.mp hfind ⟨mainBranch, oid, none, none⟩ ((h _).mpr ⟨hmain, rfl, rfl⟩)
      simp at hnone
  | some info =>
    have hname : info.name = mainBranch := by simpa using List.find?_some hfind
    have hinfo := ((h info).mp (List.mem_of_find?_eq_some hfind)).1
    rw [hname] at hinfo
    rw [hinfo, Option.map_some, Option.map_some]

theorem PackOf.unique {pack pack' : Finset PackedObject} (h : PackOf content p o request pack)
    (h' : PackOf content p o request pack') : pack = pack' :=
  Finset.ext fun x => (h x).trans (h' x).symm

theorem Replies.alike {op : Operation} {reply reply' : Reply} (h : r.Replies content codec reply op)
    (hadmits : r.Admits content codec op) (h' : r.Replies content codec reply' op) :
    reply.Alike reply' := by
  cases op with
  | listRefs =>
    obtain ⟨snapshot, rfl, hlists⟩ := h
    obtain ⟨snapshot', rfl, hlists'⟩ := h'
    exact .refs (hlists.head.trans hlists'.head.symm) (hlists.perm hlists')
  | updateRefs updates =>
    rw [Replies] at h h'
    split at h
    · rename_i hall
      rw [if_pos hall] at h'
      rw [h, h']
      exact .same _
    · rename_i hall
      rw [if_neg hall] at h'
      obtain ⟨message, rfl⟩ := h
      obtain ⟨message', rfl⟩ := h'
      exact .error message message'
  | readCommitInfo oid =>
    rw [Replies] at h h'
    split at h
    · rename_i hstored
      rw [if_pos hstored] at h'
      rw [h, h']
      exact .same _
    · rename_i hstored
      rw [if_neg hstored] at h'
      obtain ⟨message, rfl⟩ := h
      obtain ⟨message', rfl⟩ := h'
      exact .error message message'
  | computePushKind oldOid newOid =>
    obtain ⟨kind, rfl, htells⟩ := h
    obtain ⟨kind', rfl, htells'⟩ := h'
    rw [htells.unique htells']
    exact .same _
  | reachableExcluding tips excluding cap =>
    obtain ⟨exclude, listed, enough, hw, rfl⟩ := h
    obtain ⟨exclude', listed', enough', hw', rfl⟩ := h'
    rw [hw.listed_unique hw']
    exact .same _
  | buildPack request =>
    obtain ⟨pack, rfl, hpack⟩ := h
    obtain ⟨pack', rfl, hpack'⟩ := h'
    obtain ⟨⟨o, ho⟩, -⟩ := hadmits
    rw [(hpack o ho).unique (hpack' o ho)]
    exact .same _
  | treeDiff parentTree childTree =>
    obtain ⟨result, rfl, htells⟩ := h
    obtain ⟨result', rfl, htells'⟩ := h'
    rw [DiffTells] at htells htells'
    split at htells
    · rename_i hall
      rw [if_pos hall] at htells'
      rw [htells, htells']
      exact .same _
    · rename_i hall
      rw [if_neg hall] at htells'
      obtain ⟨message, rfl⟩ := htells
      obtain ⟨message', rfl⟩ := htells'
      exact .error message message'
  | _ =>
    obtain rfl := Eq.trans h (Eq.symm h')
    exact .same _

theorem applyAll_self {ρ : Type} [DecidableEq ρ] (refs : RefMap ρ) (repo : ρ)
    (us : List RefUpdate) :
    RefMap.applyAll repo refs us repo = RefMap.applyAll () (fun _ => refs repo) us () := by
  induction us generalizing refs with
  | nil => rfl
  | cons u us ih =>
    have hone : (fun _ : Unit => RefMap.apply repo refs u repo) = RefMap.apply () (fun _ => refs repo) u := by
      funext _ n
      simp [RefMap.apply, RefMap.set]
    rw [RefMap.applyAll, List.foldl_cons, ← RefMap.applyAll, ih, hone]
    rfl

theorem updateRefs_spec {ρ σ ε : Type} [DecidableEq ρ] {represents : σ → RefMap ρ → Prop}
    {refs : RefMap ρ} {repo : ρ} {us : List RefUpdate} {s : σ} {run : σ × Except ε Unit}
    (himpl : RefMap.Implements represents refs repo us s run) (hs : represents s refs)
    (hr : refs repo = r.refs) :
    ∃ refs', represents run.1 refs' ∧ refs' repo = (r.after (.updateRefs us)).refs ∧
      (∀ id, id ≠ repo → refs' id = refs id) ∧
      ((∀ u ∈ us, r.refMap.Expects () u) → run.2 = .ok ()) ∧
      (¬ (∀ u ∈ us, r.refMap.Expects () u) → run.1 = s ∧ ∃ e, run.2 = .error e) := by
  have hexpects : ∀ u, refs.Expects repo u ↔ r.refMap.Expects () u := fun u => by
    rw [RefMap.Expects, RefMap.Expects, hr, refMap]
  by_cases hall : ∀ u ∈ us, r.refMap.Expects () u
  · have hcas := RefMap.cas_of_expects fun u hu => (hexpects u).mpr (hall u hu)
    obtain ⟨hok, hrep⟩ := himpl.accepted _ hcas
    refine ⟨_, hrep, ?_, fun id hid => ?_, fun _ => hok, fun hnot => absurd hall hnot⟩
    · rw [after, RefMap.cas_of_expects hall, applyAll_self, hr]
      rfl
    · funext n
      exact RefMap.applyAll_of_notMem repo refs us fun u _ hsame => hid hsame.1
  · have hnot : ¬ ∀ u ∈ us, refs.Expects repo u := fun hyes => hall fun u hu => (hexpects u).mp (hyes u hu)
    obtain ⟨herror, hsame⟩ := himpl.refused (RefMap.cas_of_not_expects hnot)
    refine ⟨refs, hsame ▸ hs, ?_, fun _ _ => rfl, fun hyes => absurd hyes hall, fun _ => ⟨hsame, herror⟩⟩
    rw [after, RefMap.cas_of_not_expects hall, hr]
    rfl

theorem objects_updateRefs (us : List RefUpdate) :
    (r.after (.updateRefs us)).objects = r.objects := by
  rw [after]
  cases r.refMap.cas () us <;> rfl

theorem acyclic_parents (h : Acyclic fun c => (content c).parents) (r : Repository) :
    Acyclic (r.parents content) := by
  intro c hcycle
  refine h c (Relation.TransGen.mono (fun a b hab => ?_) c c hcycle)
  rw [Edge, parents] at hab
  split at hab
  · exact hab
  · exact absurd hab List.not_mem_nil

theorem objects_subset_after (r : Repository) (op : Operation) :
    r.objects ⊆ (r.after op).objects := by
  cases op with
  | updateRefs updates => rw [objects_updateRefs]
  | ingestPack oids => exact Finset.subset_union_left
  | _ => exact Finset.Subset.refl _

theorem asked_subset_after (r : Repository) (op : Operation) : r.asked ⊆ (r.after op).asked := by
  cases op with
  | updateRefs updates =>
    rw [after]
    cases r.refMap.cas () updates <;> exact List.Subset.refl _
  | buildPack request => exact List.subset_cons_self _ _
  | _ => exact List.Subset.refl _

theorem mem_objects_of_trees {oid : ObjectId} (h : r.trees content oid ≠ none) :
    oid ∈ r.objects := by
  rw [trees] at h
  split at h
  · rename_i hstored
    exact hstored.1
  · exact absurd rfl h

theorem Inside.mono {r' : Repository} (hsub : r.objects ⊆ r'.objects) {wants haves : List ObjectId}
    (h : r.Inside content p wants haves o) : r'.Inside content p wants haves o := by
  obtain ⟨hbacks, hwants, hhaves⟩ := h
  refine ⟨⟨hbacks.sealed, fun hfind => ?_⟩, hwants, hhaves⟩
  obtain ⟨hstored, hreads, hparents⟩ := hbacks.stored hfind
  exact ⟨hsub hstored, hreads, hparents⟩

/-! ### Packs -/

theorem Inside.packObjects_ends {d : Nat → Database}
    (h : r.Inside content p request.wants request.haves o)
    (hselect : Outcome.Ends (fun fuel => (d fuel).selectObjects request.wants request.haves)
      fun selected => ∀ x, x ∈ selected ↔ o.SelectedDb p request.wants request.haves x)
    (hfetch : ∀ fuel oid, (d fuel).fetch oid =
      if oid ∈ r.objects then some ((content oid).kind, (content oid).data) else none) :
    Outcome.Ends (fun fuel => (d fuel).packObjects request.wants request.haves)
      (PackOf content p o request) := by
  obtain ⟨enough, hends⟩ := hselect
  refine ⟨enough, fun fuel hfuel => ?_⟩
  obtain ⟨selected, hdone, hselected⟩ := hends fuel hfuel
  obtain ⟨pack, hpack, hmem⟩ := (d fuel).packObjects_of_selected hdone
  refine ⟨pack, hpack, fun x => ?_⟩
  rw [hmem, hselected, hfetch]
  refine and_congr_right fun hx => ?_
  obtain ⟨obj, hobj⟩ := Option.ne_none_iff_exists'.mp hx.1
  rw [if_pos (h.1.stored hobj).1, Option.some.injEq, Prod.mk.injEq, eq_comm, @eq_comm _ (content x.oid).data]

theorem Caches.after {files : Bytes → Option (Finset PackedObject)} {name : Pack.Request → Bytes}
    (h : r.Caches content p files name) (op : Operation) :
    (r.after op).Caches content p files name := by
  intro key pack hfile
  obtain ⟨request, hasked, hname, o, hinside, hpack⟩ := h key pack hfile
  exact ⟨request, r.asked_subset_after op hasked, hname, o, hinside.mono (r.objects_subset_after op), hpack⟩

variable (content codec) in
/-- The directory of the repository is right after the operation, and the others are left alone. -/
structure CacheMoves (dir dir' : CacheDir) (id : UInt64) (r' : Repository) : Prop where
  caches : r'.Caches content codec.parser (dir'.files id) (cacheKey codec.sha256 id)
  frame : ∀ id', id' ≠ id → dir'.files id' = dir.files id'

theorem CacheMoves.refl {dir : CacheDir} {id : UInt64}
    (h : r.Caches content codec.parser (dir.files id) (cacheKey codec.sha256 id)) (op : Operation) :
    CacheMoves content codec dir dir id (r.after op) := ⟨h.after op, fun _ _ => rfl⟩

/-- **A pack is the one that is specified**, whether it is cached or not. -/
theorem Caches.buildPack {dir : CacheDir} {id : UInt64}
    {build : Nat → Outcome String (Finset PackedObject)}
    (h : r.Caches content codec.parser (dir.files id) (cacheKey codec.sha256 id))
    (hadmits : r.Admits content codec (.buildPack request))
    (hends : ∀ o, r.Inside content codec.parser request.wants request.haves o →
      Outcome.Ends build (PackOf content codec.parser o request)) :
    ∃ dir' pack enough, (∀ fuel, enough ≤ fuel →
        dir.buildPack id (cacheKey codec.sha256 id request) (build fuel) = some (dir', .ok pack)) ∧
      CacheMoves content codec dir dir' id (r.after (.buildPack request)) ∧
      r.Replies content codec (.pack pack) (.buildPack request) := by
  obtain ⟨hinside, hnames⟩ := hadmits
  obtain ⟨pack, enough, hbuild, hpack⟩ := Outcome.exists_of_ends
    (P := fun o => PackOf content codec.parser o request) (fun _ _ _ => PackOf.unique) hends hinside
  have hafter := h.after (.buildPack request)
  cases hhit : dir.tryHit id (cacheKey codec.sha256 id request) with
  | some cached =>
    have hfile : dir.files id (cacheKey codec.sha256 id request) = some cached := by
      rw [CacheDir.tryHit] at hhit
      split at hhit
      · exact hhit
      · cases hhit
    obtain ⟨earlier, hasked, hname, o, ⟨hbacks, hwants, hhaves⟩, hcached⟩ := h _ cached hfile
    obtain ⟨hpermWants, hpermHaves⟩ := hnames earlier hasked id hname
    have hsame : PackOf content codec.parser o request cached := fun x => by
      rw [hcached, Objects.selectedDb_perm hpermWants hpermHaves]
    obtain rfl := hsame.unique (hpack o ⟨hbacks, fun w hw => hwants w (hpermWants.mem_iff.mpr hw),
      fun c hc => hhaves c (hpermHaves.mem_iff.mpr hc)⟩)
    exact ⟨{ dir with io := dir.io.tail }, cached, 0, fun _ _ => by
      rw [CacheDir.buildPack, hhit], ⟨hafter, fun _ _ => rfl⟩,
      cached, rfl, hpack⟩
  | none =>
    refine ⟨⟨dir.write id (cacheKey codec.sha256 id request) pack, dir.io.tail⟩, pack, enough, fun fuel hfuel => ?_,
      ⟨fun key cached hfile => ?_, fun id' hne => CacheDir.write_of_ne hne pack⟩, pack, rfl, hpack⟩
    · rw [CacheDir.buildPack, hhit, hbuild fuel hfuel]
      rfl
    · rcases CacheDir.write_eq_some hfile with hold | ⟨rfl, rfl⟩
      · exact hafter key cached hold
      · obtain ⟨o, ho⟩ := hinside
        exact ⟨request, List.mem_cons_self, rfl, o, ho.mono (r.objects_subset_after _), hpack o ho⟩

theorem Backs.parents_eq (h : r.Backs content p o) {c : ObjectId} (hc : o.find c ≠ none) :
    o.parents c = r.parents content c := by
  obtain ⟨obj, hobj⟩ := Option.ne_none_iff_exists'.mp hc
  obtain ⟨hstored, -, hparents⟩ := h.stored hobj
  rw [Objects.parents, hobj, Option.map_some, Option.getD_some, hparents, parents, if_pos hstored]

theorem Replies.updateRefs {us : List RefUpdate} {result : Except String Unit}
    (hyes : (∀ u ∈ us, r.refMap.Expects () u) → result = .ok ())
    (hno : ¬ (∀ u ∈ us, r.refMap.Expects () u) → ∃ e, result = .error e) :
    r.Replies content codec (.ofResult (fun _ => .done) result) (.updateRefs us) := by
  rw [Replies]
  split
  · rename_i hall
    rw [hyes hall]
    rfl
  · rename_i hall
    obtain ⟨e, he⟩ := hno hall
    rw [he]
    exact ⟨_, rfl⟩

end Repository

/-! ### All repositories -/

namespace Storage

/-- The repositories by their paths. -/
abbrev Repositories := String → Option Repository

variable (content : ObjectId → ObjectContent) (codec : Codec)

/-- The requests whose answer is specified; ids of repositories have 63 bits. -/
def Request.Admitted (repos : Repositories) : Request → Prop
  | .initRepo path => repos path ≠ none ∨ {path | repos path ≠ none}.ncard + 1 < 2 ^ 63
  | .on path op => ∀ r, repos path = some r → r.Admits content codec op

def Request.after (repos : Repositories) : Request → Repositories
  | .initRepo path => Function.update repos path (some ((repos path).getD .empty))
  | .on path op => Function.update repos path ((repos path).map fun r => r.after op)

def Request.Replies (repos : Repositories) (reply : Reply) : Request → Prop
  | .initRepo _ => reply = .done
  | .on path op => (∀ r, repos path = some r → r.Replies content codec reply op) ∧
    (repos path = none → ∃ message, reply = .error message)

/-- What every backend is to do. -/
def spec : Spec Repositories Request Reply where
  admits repos request := request.Admitted content codec repos
  after repos request := request.after repos
  replies repos request reply := request.Replies content codec repos reply

variable {content codec}

/-- **The specification leaves open** the order of refs and the texts of errors only. -/
theorem spec_alike (repos : Repositories) (request : Request) (reply reply' : Reply)
    (hadmits : (spec content codec).admits repos request)
    (h : (spec content codec).replies repos request reply)
    (h' : (spec content codec).replies repos request reply') : reply.Alike reply' := by
  cases request with
  | initRepo path =>
    obtain rfl : reply = .done := h
    obtain rfl : reply' = .done := h'
    exact .same _
  | on path op =>
    cases hrepo : repos path with
    | none =>
      obtain ⟨message, rfl⟩ := h.2 hrepo
      obtain ⟨message', rfl⟩ := h'.2 hrepo
      exact .error message message'
    | some r => exact (h.1 r hrepo).alike (hadmits r hrepo) (h'.1 r hrepo)

/-! ### Repositories in the order of their creation -/

structure Enumerates (paths : List String) (repos : Repositories) : Prop where
  few : paths.length < 2 ^ 63
  nodup : paths.Nodup
  mem : ∀ path, repos path ≠ none ↔ path ∈ paths

/-- The repository with a given number; an empty one if there is none yet. -/
def repoAt (repos : Repositories) (paths : List String) (i : Nat) : Repository :=
  (paths[i]?.bind repos).getD .empty

namespace Enumerates

variable {paths : List String} {repos : Repositories}

theorem nil : Enumerates [] fun _ => none := ⟨by decide, List.nodup_nil, fun _ => by simp⟩

theorem repoAt_eq {r : Repository} (hi : paths[i]? = some path) (hr : repos path = some r) :
    repoAt repos paths i = r := by rw [repoAt, hi, Option.bind_some, hr, Option.getD_some]

theorem ncard (h : Enumerates paths repos) : {path | repos path ≠ none}.ncard = paths.length := by
  have hset : {path | repos path ≠ none} = ↑paths.toFinset := by
    ext path
    simp [h.mem]
  rw [hset, Set.ncard_coe_finset, List.toFinset_card_of_nodup h.nodup]

theorem initRepo_known (hpath : repos path ≠ none) :
    (Request.initRepo path).after repos = repos := by
  obtain ⟨r, hr⟩ := Option.ne_none_iff_exists'.mp hpath
  rw [Request.after, hr, Option.getD_some, ← hr, Function.update_eq_self]

theorem initRepo_new (h : Enumerates paths repos) (hpath : repos path = none)
    (hroom : (Request.initRepo path).Admitted content codec repos) :
    Enumerates (paths ++ [path]) ((Request.initRepo path).after repos) ∧
      ∀ i, repoAt ((Request.initRepo path).after repos) (paths ++ [path]) i = repoAt repos paths i := by
  have hnew : path ∉ paths := fun hmem => (h.mem path).mpr hmem hpath
  have hafter : (Request.initRepo path).after repos = Function.update repos path (some .empty) := by
    rw [Request.after, hpath, Option.getD_none]
  rw [hafter]
  refine ⟨⟨?_, ?_, fun path' => ?_⟩, fun i => ?_⟩
  · have hlength := hroom.resolve_left (by simp [hpath])
    rwa [h.ncard, ← List.length_singleton, ← List.length_append] at hlength
  · rw [List.nodup_append]
    refine ⟨h.nodup, List.nodup_singleton _, fun a ha b hb hab => hnew ?_⟩
    rwa [← List.mem_singleton.mp hb, ← hab]
  · by_cases hsame : path' = path
    · simp [hsame]
    · simp [hsame, h.mem]
  · rcases Nat.lt_trichotomy i paths.length with hlt | rfl | hgt
    · have hother : paths[i] ≠ path := fun heq => hnew (heq ▸ List.getElem_mem hlt)
      rw [repoAt, repoAt, List.getElem?_append_left hlt, List.getElem?_eq_getElem hlt,
        Option.bind_some, Option.bind_some,
        Function.update_of_ne hother]
    · rw [repoAt, repoAt, List.getElem?_concat_length, Option.bind_some, Function.update_self, Option.getD_some,
        List.getElem?_eq_none le_rfl, Option.bind_none, Option.getD_none]
    · rw [repoAt, repoAt, List.getElem?_eq_none (by simp; omega), List.getElem?_eq_none (by omega), Option.bind_none,
        Option.bind_none]

theorem on (h : Enumerates paths repos) (hi : paths[i]? = some path) {r : Repository}
    (hr : repos path = some r) (op : Operation) :
    Enumerates paths ((Request.on path op).after repos) ∧ ∀ j,
      repoAt ((Request.on path op).after repos) paths j =
      if j = i then r.after op else repoAt repos paths j := by
  have hafter : (Request.on path op).after repos = Function.update repos path (some (r.after op)) := by
    rw [Request.after, hr, Option.map_some]
  rw [hafter]
  refine ⟨⟨h.few, h.nodup, fun path' => ?_⟩, fun j => ?_⟩
  · by_cases hsame : path' = path
    · simp [hsame, ← h.mem, hr]
    · rw [Function.update_of_ne hsame, h.mem]
  · split
    · rename_i hj
      rw [hj]
      exact repoAt_eq hi (Function.update_self ..)
    · rename_i hj
      have hother : paths[j]? ≠ some path := by
        intro heq
        obtain ⟨hlt, hat⟩ := List.getElem?_eq_some_iff.mp hi
        obtain ⟨hlt', hat'⟩ := List.getElem?_eq_some_iff.mp heq
        exact hj (h.nodup.getElem_inj_iff.mp (hat'.trans hat.symm))
      rw [repoAt, repoAt]
      cases hpath : paths[j]? with
      | none => rfl
      | some path' =>
        have hne : path' ≠ path := fun heq => hother (hpath.trans (congrArg some heq))
        rw [Option.bind_some, Option.bind_some, Function.update_of_ne hne]

theorem on_unknown (hr : repos path = none) (op : Operation) :
    (Request.on path op).after repos = repos := by
  rw [Request.after, hr, Option.map_none, ← hr, Function.update_eq_self]

end Enumerates

/-! ### Repositories in a database -/

/-- The id of the repository with a given number. -/
def idAt (i : Nat) : UInt64 := UInt64.ofNat (i + 1)

theorem toNat_idAt (hi : i < 2 ^ 63) : (idAt i).toNat = i + 1 := by
  rw [idAt, UInt64.toNat_ofNat_of_lt' (by simp [UInt64.size]; omega)]

theorem idAt_inj {i j : Nat} (hi : i < 2 ^ 63) (hj : j < 2 ^ 63) (h : idAt i = idAt j) : i = j := by
  have hnat := congrArg UInt64.toNat h
  rw [toNat_idAt hi, toNat_idAt hj] at hnat
  omega

variable (content codec) in
/-- The cache has packs of the repositories, which were initialised in the order of `paths`. -/
def CachesAll (dir : CacheDir) (repos : Repositories) (paths : List String) : Prop :=
  ∀ i, i < 2 ^ 63 → (repoAt repos paths i).Caches content codec.parser (dir.files (idAt i))
    (cacheKey codec.sha256 (idAt i))

theorem CachesAll.empty {repos : Repositories} {paths : List String} (io : Stream' CacheIo) :
    CachesAll content codec (.empty io) repos paths := fun _ _ _ _ hfile => nomatch hfile

theorem CachesAll.moves {dir dir' : CacheDir} {repos : Repositories} {paths : List String}
    (h : CachesAll content codec dir repos paths) (henum : Enumerates paths repos)
    (hi : paths[i]? = some path) {r : Repository} (hr : repos path = some r) {op : Operation}
    (hmoves : Repository.CacheMoves content codec dir dir' (idAt i) (r.after op)) :
    CachesAll content codec dir' ((Request.on path op).after repos) paths := by
  intro j hj
  rw [(henum.on hi hr op).2]
  split
  · rename_i hsame
    rw [hsame]
    exact hmoves.caches
  · rename_i hne
    have hlt : i < 2 ^ 63 := (List.getElem?_eq_some_iff.mp hi).1.trans henum.few
    rw [hmoves.frame _ fun heq => hne (idAt_inj hj hlt heq)]
    exact h j hj

section Implements

variable {σ ρ : Type} {initRepo : σ → String → σ × Reply} {openRepo : σ → String → Except String ρ}
  {run : Nat → CacheDir → ρ → Operation → σ → σ × Option (CacheDir × Reply)}
  {stands : σ → Repositories → List String → Prop}

variable (content codec run stands) in
/-- The operations on one repository do what is specified, with any cache that is right. -/
def RunsAt (s : σ) (repos : Repositories) (paths : List String) (path : String) (r : Repository)
    (i : Nat) (repo : ρ) : Prop :=
  ∀ op dir, r.Admits content codec op →
    r.Caches content codec.parser (dir.files (idAt i)) (cacheKey codec.sha256 (idAt i)) →
    ∃ s' dir' reply enough, (∀ fuel, enough ≤ fuel → run fuel dir repo op s = (s', some (dir', reply))) ∧
      stands s' ((Request.on path op).after repos) paths ∧
      Repository.CacheMoves content codec dir dir' (idAt i) (r.after op) ∧ r.Replies content codec reply op

variable (content codec stands) in
/-- The store and the cache stand for the repositories. -/
def Backend.Stands (s : Backend σ) (repos : Repositories) : Prop :=
  ∃ paths, stands s.store repos paths ∧ CachesAll content codec s.dir repos paths

theorem Backend.Stands.empty {s : σ} {repos : Repositories} {paths : List String}
    (h : stands s repos paths) (io : Stream' CacheIo) :
    Backend.Stands content codec stands ⟨s, .empty io⟩ repos := ⟨paths, h, .empty io⟩

theorem implements_of (henum : ∀ {s repos paths}, stands s repos paths → Enumerates paths repos)
    (hinit : ∀ {s repos paths path}, stands s repos paths → (Request.initRepo path).Admitted content codec repos → (initRepo s path).2 = .done ∧ ∃ paths', stands (initRepo s path).1 ((Request.initRepo path).after repos) paths' ∧ ∀ i, repoAt ((Request.initRepo path).after repos) paths' i = repoAt repos paths i)
    (hunknown : ∀ {s repos paths path}, stands s repos paths → repos path = none → ∃ message,
      openRepo s path = .error message)
    (hknown : ∀ {s repos paths path r}, stands s repos paths → repos path = some r → ∃ i repo,
      paths[i]? = some path ∧ openRepo s path = .ok repo ∧
        RunsAt content codec run stands s repos paths path r i repo) :
    (serveWith initRepo openRepo run).Implements (spec content codec)
      (Backend.Stands content codec stands) := by
  rintro ⟨s, dir⟩ repos request ⟨paths, h, hcaches⟩ hadmits
  cases request with
  | initRepo path =>
    obtain ⟨hreply, paths', hstands, hsame⟩ := hinit h hadmits
    refine ⟨⟨(initRepo s path).1, dir⟩, .done, ⟨0, fun _ _ => by rw [serveWith, hreply]⟩,
      ⟨paths', hstands, fun i hi => ?_⟩, rfl⟩
    exact (hsame i).symm ▸ hcaches i hi
  | on path op =>
    cases hpath : repos path with
    | none =>
      obtain ⟨message, hopen⟩ := hunknown h hpath
      have hsame : (spec content codec).after repos (.on path op) = repos := Enumerates.on_unknown hpath op
      refine ⟨⟨s, dir⟩, .error message, ⟨0, fun _ _ => by rw [serveWith, hopen]⟩, hsame.symm ▸ ⟨paths, h, hcaches⟩,
        fun r hr => ?_, fun _ => ⟨message, rfl⟩⟩
      rw [hpath] at hr
      cases hr
    | some r =>
      obtain ⟨i, repo, hi, hopen, hruns⟩ := hknown h hpath
      have hlt : i < 2 ^ 63 := (List.getElem?_eq_some_iff.mp hi).1.trans (henum h).few
      have hown := hcaches i hlt
      rw [Enumerates.repoAt_eq hi hpath] at hown
      obtain ⟨s', dir', reply, enough, hrun, hstands, hmoves, hreply⟩ := hruns op dir (hadmits r hpath) hown
      refine ⟨⟨s', dir'⟩, reply, ⟨enough, fun fuel hfuel => ?_⟩,
        ⟨paths, hstands, hcaches.moves (henum h) hi hpath hmoves⟩,
        fun r' hr' => ?_, fun hnone => ?_⟩
      · rw [serveWith, hopen]
        simp only [hrun fuel hfuel, Option.map_some]
      · rw [hpath] at hr'
        exact Option.some.inj hr' ▸ hreply
      · rw [hpath] at hnone
        cases hnone

end Implements

end Storage

end Mizzle
