import Mizzle.Backend.Kv.Objects
import Mizzle.Backend.Sql.Objects
import Mizzle.Serve.ReceivePack

/-!
# The SQL and the KV backend under a push driver

The two backends as a receive-pack run sees them. The SQL ancestor test is one query. The KV test
fetches the parents of one commit at a time, each in a transaction of its own, so other runs may act
between two rounds; with no other run in between the rounds come to `compute_push_kind`
(`settle_kvBackend`, `settle_sqlBackend`).
-/

namespace Mizzle.Serve

open Lib

variable {σ ρ Probe : Type}

/-- The null tests that `compute_push_kind` begins with on both backends. -/
def startKind (otherwise : Probe ⊕ PushKind) (u : RefUpdate) : Probe ⊕ PushKind :=
  if u.oldOid.isNull then .inr .create
  else if u.newOid.isNull then .inr .delete
  else otherwise

/-- The SQL backend; nothing is kept between the null tests and the query. -/
def sqlBackend (content : ObjectId → ObjectContent) : PushBackend Sql.Db Int Unit where
  ingest := Sql.ingestPack content
  startKind := startKind (.inl ())
  resumeKind budget db repo u _ := (Sql.isAncestor budget db repo u.oldOid u.newOid).map fun isAncestor =>
    .inr (if isAncestor then .fastForward else .forcePush)
  updateRefs db repo us := ((Sql.updateRefsOwned db repo us).1, (Sql.updateRefsOwned db repo us).2.isOk)

/-- The kind for an answer of the KV ancestor test; an error counts as no. -/
def answerKind : Except String Bool → PushKind
  | .ok true => .fastForward
  | _ => .forcePush

def kvRound (s : Kv.Store) (repo : UInt64) (u : RefUpdate) (probe : List ObjectId × List ObjectId) :
    (List ObjectId × List ObjectId) ⊕ PushKind :=
  match searchStep (Kv.fetchParents s repo) u.oldOid probe.1 probe.2 with
  | .more seen queue => .inl (seen, queue)
  | .done answer => .inr (answerKind answer)

/-- The KV backend; between two rounds the visited commits and the frontier are kept. -/
def kvBackend (mode : Lock.LockRead) (content : ObjectId → ObjectContent) :
    PushBackend Kv.Store UInt64 (List ObjectId × List ObjectId) where
  ingest := Kv.ingestPack content
  startKind u := startKind (if u.oldOid = u.newOid then .inr .fastForward else .inl ([u.newOid], [u.newOid])) u
  resumeKind _ s repo u probe := some (kvRound s repo u probe)
  updateRefs s repo us := ((Kv.updateRefs mode s repo us).1, (Kv.updateRefs mode s repo us).2.isOk)

theorem sqlBackend_ingest (content : ObjectId → ObjectContent) :
    (sqlBackend content).ingest = Sql.ingestPack content := rfl

theorem sqlBackend_updateRefs (content : ObjectId → ObjectContent) (db : Sql.Db) (repo : Int)
    (us : List RefUpdate) :
    ((sqlBackend content).updateRefs db repo us).1 = (Sql.updateRefsOwned db repo us).1 := rfl

theorem kvBackend_ingest (mode : Lock.LockRead) (content : ObjectId → ObjectContent) :
    (kvBackend mode content).ingest = Kv.ingestPack content := rfl

theorem kvBackend_updateRefs (mode : Lock.LockRead) (content : ObjectId → ObjectContent)
    (s : Kv.Store) (repo : UInt64) (us : List RefUpdate) :
    ((kvBackend mode content).updateRefs s repo us).1 = (Kv.updateRefs mode s repo us).1 := rfl

/-- `compute_push_kind` with no other run in between: at most `n` accesses to one and the same
store. -/
def settle (b : PushBackend σ ρ Probe) (budget : Nat) (s : σ) (repo : ρ) (u : RefUpdate) :
    Nat → Probe ⊕ PushKind → Option PushKind
  | _, .inr kind => some kind
  | 0, .inl _ => none
  | n + 1, .inl probe => (b.resumeKind budget s repo u probe).bind (settle b budget s repo u n)

theorem settle_inr (b : PushBackend σ ρ Probe) (budget : Nat) (s : σ) (repo : ρ) (u : RefUpdate)
    (n : Nat) (kind : PushKind) : settle b budget s repo u n (.inr kind) = some kind := by
  cases n <;> rfl

/-- **The SQL classification under a driver is `compute_push_kind`.** -/
theorem settle_sqlBackend (content : ObjectId → ObjectContent) (budget : Nat) (db : Sql.Db)
    (repo : Int) (u : RefUpdate) :
    settle (sqlBackend content) budget db repo u 1 ((sqlBackend content).startKind u)
      = Sql.computePushKind budget db repo u.oldOid u.newOid := by
  by_cases hold : u.oldOid = .null
  · simp [sqlBackend, startKind, settle, Sql.computePushKind, PushKind.classify, hold]
  · by_cases hnew : u.newOid = .null
    · simp [sqlBackend, startKind, settle, Sql.computePushKind, PushKind.classify, hold, hnew]
    · simp only [sqlBackend, startKind, settle, Sql.computePushKind, ObjectId.isNull_iff, hold, hnew, or_self,
        if_false]
      cases Sql.isAncestor budget db repo u.oldOid u.newOid with
      | none => rfl
      | some answer =>
        simp only [Option.map_some, Option.bind_some, settle, PushKind.classify_of_ne hold hnew]

theorem settle_search (mode : Lock.LockRead) (content : ObjectId → ObjectContent) (budget : Nat)
    (s : Kv.Store) (repo : UInt64) (u : RefUpdate) {n : Nat} {seen queue : List ObjectId}
    {answer : Except String Bool}
    (h : search (Kv.fetchParents s repo) u.oldOid n seen queue = some answer) :
    settle (kvBackend mode content) budget s repo u n (.inl (seen, queue))
      = some (answerKind answer) := by
  induction n generalizing seen queue with
  | zero => simp [search] at h
  | succ n ih =>
    rw [search] at h
    rw [settle, kvBackend, Option.bind_some, ← kvBackend, kvRound]
    cases hround : searchStep (Kv.fetchParents s repo) u.oldOid seen queue with
    | more seen' queue' =>
      rw [hround] at h
      exact ih h
    | done result =>
      rw [hround] at h
      obtain rfl := Option.some.inj h
      exact settle_inr ..

/-- **The rounds of the KV classification come to `compute_push_kind`.** -/
theorem settle_kvBackend (mode : Lock.LockRead) (content : ObjectId → ObjectContent) (budget : Nat)
    (s : Kv.Store) (repo : UInt64) (u : RefUpdate) :
    settle (kvBackend mode content) budget s repo u (s.size + 2)
      ((kvBackend mode content).startKind u)
      = some (Kv.computePushKind s repo u.oldOid u.newOid) := by
  by_cases hold : u.oldOid = .null
  · simp [kvBackend, startKind, settle_inr, Kv.computePushKind, PushKind.classify, hold]
  · by_cases hnew : u.newOid = .null
    · simp [kvBackend, startKind, settle_inr, Kv.computePushKind, PushKind.classify, hold, hnew]
    · have hstart : (kvBackend mode content).startKind u
          = if u.oldOid = u.newOid then .inr .fastForward else .inl ([u.newOid], [u.newOid]) := by
        simp [kvBackend, startKind, hold, hnew]
      rw [hstart, Kv.computePushKind, PushKind.classify_of_ne hold hnew, Kv.isAncestor]
      by_cases hsame : u.oldOid = u.newOid
      · rw [if_pos hsame, if_pos hsame, settle_inr]
        rfl
      · obtain ⟨answer, hanswer⟩ := Option.ne_none_iff_exists'.mp
          (Kv.isAncestor_answers s repo u.oldOid u.newOid)
        rw [if_neg hsame, if_neg hsame, settle_search mode content budget s repo u hanswer, hanswer,
          Option.getD_some]
        rcases answer with e | _ | _ <;> rfl

end Mizzle.Serve
