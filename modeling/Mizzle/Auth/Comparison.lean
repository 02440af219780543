import Mizzle.Backend.Types
import Mizzle.Lib.Traverse
import Mizzle.Proto.Receive

/-!
# The comparison that the authoriser sees

`ConcreteComparison` of `mizzle/src/auth.rs`: a lazy view of a push with three accessors that walk
the commit graph or diff trees on their first call and answer from a cell afterwards. There is one
cell for each accessor and each command. A call finds its cell by looking for the first command with
the refname of the `PushRef` it is asked about, and fills it with what it computes from that
`PushRef`.

The backend is read through three methods (`Backend`); its state does not change while an authoriser
runs. `Comparison.spec` is the answer without cells: what the accessor computes from the command at
position `i`. `answers_eq_spec_iff` says for which pushes the cells make no difference.
-/

namespace Mizzle.Auth

open Lib

/-- The methods of the storage backend that the accessors call, at a fixed state of the
repository. -/
structure Backend where
  reachableExcluding : List ObjectId → List ObjectId → Nat → Except ReachableError (List ObjectId)
  readCommitInfo : ObjectId → Except String CommitInfo
  treeDiff : Option ObjectId → ObjectId → Except String RefDiff

inductive ComparisonError where
  | capExceeded (what : String) (limit : Nat)
  | backend (message : String)
deriving DecidableEq

def ComparisonError.message : ComparisonError → String
  | .capExceeded what limit => what ++ s!" exceeded the configured limit of {limit}"
  | .backend msg => "backend error: " ++ msg

structure Comparison where
  backend : Backend
  pack : PackMetadata
  refs : List PushRef
  existingRefTips : List ObjectId
  maxReachableCommits : Nat := 50000

inductive Accessor where
  | newCommits
  | droppedCommits
  | refDiff
deriving DecidableEq

inductive Answer where
  | commits (result : Except ComparisonError (List CommitInfo))
  | diff (result : Except ComparisonError RefDiff)
deriving DecidableEq

/-- The vectors of `OnceCell`s, one for each accessor. -/
abbrev Cells := Accessor → List (Option Answer)

variable {r : PushRef} {cells : Cells} {i j : Nat}

namespace Comparison

/-! ### What the accessors compute -/

def mapReachableError (what : String) : ReachableError → ComparisonError
  | .capExceeded limit => .capExceeded what limit
  | .other message => .backend message

/-- `read_commit_info` with its error mapped. -/
def readCommit (c : Comparison) (oid : ObjectId) : Except ComparisonError CommitInfo :=
  (c.backend.readCommitInfo oid).mapError .backend

/-- A commit from the staged pack, or else from the object store. -/
def lookupCommit (c : Comparison) (oid : ObjectId) : Except ComparisonError CommitInfo :=
  match c.pack.findCommit oid with
  | some info => .ok info
  | none => c.readCommit oid

/-- The oids left out of the walk for the cell `idx`: the existing tips and the new tips of the
earlier commands. -/
def excluding (c : Comparison) (idx : Nat) : List ObjectId :=
  c.existingRefTips ++ ((c.refs.take idx).map (·.newOid)).filter fun oid => !oid.isNull

/-- The closure of `new_commits` for the cell `idx`. -/
def computeNewCommits (c : Comparison) (idx : Nat) (r : PushRef) :
    Except ComparisonError (List CommitInfo) := do
  if r.newOid.isNull then return []
  let oids ← (c.backend.reachableExcluding [r.newOid] (c.excluding idx) c.maxReachableCommits).mapError
    (mapReachableError "new_commits walk")
  oids.mapM c.lookupCommit

/-- The closure of `dropped_commits`. -/
def computeDroppedCommits (c : Comparison) (r : PushRef) :
    Except ComparisonError (List CommitInfo) := do
  if r.oldOid.isNull then return []
  let excluded := if r.newOid.isNull then [] else [r.newOid]
  let oids ← (c.backend.reachableExcluding [r.oldOid] excluded c.maxReachableCommits).mapError
    (mapReachableError "dropped_commits walk")
  oids.mapM c.readCommit

/-- The tree of the new tip, from the pack or from the store. -/
def newTree (c : Comparison) (newOid : ObjectId) : Except ComparisonError ObjectId :=
  match c.pack.findCommit newOid with
  | some info => .ok info.tree
  | none =>
    match c.backend.readCommitInfo newOid with
    | .ok info => .ok info.tree
    | .error _ => .error (.backend ("new tip " ++ newOid.toHexString ++ " not found"))

/-- The closure of `ref_diff`. -/
def computeRefDiff (c : Comparison) (r : PushRef) : Except ComparisonError RefDiff := do
  if r.newOid.isNull then
    let old ← c.readCommit r.oldOid
    (c.backend.treeDiff (some old.tree) .emptyTree).mapError .backend
  else
    let tree ← c.newTree r.newOid
    let parentTree ←
      if r.oldOid.isNull then pure none
      else do
        let old ← c.readCommit r.oldOid
        pure (some old.tree)
    (c.backend.treeDiff parentTree tree).mapError .backend

def compute (c : Comparison) (idx : Nat) (r : PushRef) : Accessor → Answer
  | .newCommits => .commits (c.computeNewCommits idx r)
  | .droppedCommits => .commits (c.computeDroppedCommits r)
  | .refDiff => .diff (c.computeRefDiff r)

/-! ### The cells -/

/-- `ref_index`: the first command with this refname; `none` is the panic. -/
def refIndex (c : Comparison) (r : PushRef) : Option Nat :=
  c.refs.findIdx? fun p => p.refname == r.refname

def freshCells (c : Comparison) : Cells := fun _ => List.replicate c.refs.length none

/-- One call of an accessor: answer from the cell, or compute and fill it (`get_or_init`). -/
def call (c : Comparison) (cells : Cells) (accessor : Accessor) (r : PushRef) :
    Option (Answer × Cells) := do
  let idx ← c.refIndex r
  match ← (cells accessor)[idx]? with
  | some answer => return (answer, cells)
  | none =>
    let answer := c.compute idx r accessor
    return (answer, Function.update cells accessor ((cells accessor).set idx (some answer)))

/-- A sequence of calls on the comparison's own commands, given by position. -/
def runCalls (c : Comparison) (cells : Cells) : List (Accessor × Nat) → Option (List Answer)
  | [] => some []
  | (accessor, i) :: rest => do
    let r ← c.refs[i]?
    let (answer, cells) ← c.call cells accessor r
    let answers ← c.runCalls cells rest
    return answer :: answers

def answers (c : Comparison) (calls : List (Accessor × Nat)) : Option (List Answer) :=
  c.runCalls c.freshCells calls

/-- The answer about the command at position `i`, from its own oids. -/
def spec (c : Comparison) (accessor : Accessor) (i : Nat) : Option Answer :=
  c.refs[i]?.map fun r => c.compute i r accessor

/-! ### Small facts -/

variable {c : Comparison}

theorem computeNewCommits_null (h : r.newOid = .null) (idx : Nat) :
    c.computeNewCommits idx r = .ok [] := by
  rw [computeNewCommits, if_pos (by simp [h])]
  rfl

theorem computeNewCommits_ne (h : r.newOid ≠ .null) (idx : Nat) : c.computeNewCommits idx r =
      ((c.backend.reachableExcluding [r.newOid] (c.excluding idx) c.maxReachableCommits).mapError
        (mapReachableError "new_commits walk")).bind (List.mapM c.lookupCommit) := by
  rw [computeNewCommits, if_neg (by simp [h])]
  rfl

theorem refIndex_of_getElem? {i : Nat} (hi : c.refs[i]? = some r) :
    ∃ k r₀, c.refIndex r = some k ∧ k ≤ i ∧ c.refs[k]? = some r₀ ∧ r₀.refname = r.refname := by
  obtain ⟨hlt, hget⟩ := List.getElem?_eq_some_iff.mp hi
  have hsome : (c.refIndex r).isSome := by
    rw [refIndex, List.findIdx?_isSome, List.any_eq_true]
    exact ⟨r, List.mem_of_getElem? hi, by simp⟩
  obtain ⟨k, hk⟩ := Option.isSome_iff_exists.mp hsome
  obtain ⟨hklt, hpred, hfirst⟩ := List.findIdx?_eq_some_iff_getElem.mp hk
  refine ⟨k, c.refs[k], hk, ?_, List.getElem?_eq_getElem hklt, by simpa using hpred⟩
  by_contra hlt'
  have hno := hfirst i (by omega)
  simp [hget] at hno

theorem refIndex_congr {r r' : PushRef} (h : r.refname = r'.refname) :
    c.refIndex r = c.refIndex r' := by
  rw [refIndex, h, refIndex]

theorem call_filled {accessor : Accessor} {k : Nat} {answer : Answer} (hk : c.refIndex r = some k)
    (hcell : (cells accessor)[k]? = some (some answer)) :
    c.call cells accessor r = some (answer, cells) := by simp [call, hk, hcell]

theorem call_empty {accessor : Accessor} {k : Nat} (hk : c.refIndex r = some k)
    (hcell : (cells accessor)[k]? = some none) :
    c.call cells accessor r = some (c.compute k r accessor,
      Function.update cells accessor ((cells accessor).set k (some (c.compute k r accessor)))) := by
  simp [call, hk, hcell]

/-! ### Pushes for which the cells make no difference -/

/-- Commands that share a refname are deletions from the same old oid. -/
def RepeatsDelete (refs : List PushRef) : Prop :=
  ∀ (i j : Nat) (r r' : PushRef), i < j → refs[i]? = some r → refs[j]? = some r' → r.refname = r'.refname →
    r.oldOid = r'.oldOid ∧ r.newOid = .null ∧ r'.newOid = .null

theorem compute_of_deletes {r r' : PushRef} (hold : r.oldOid = r'.oldOid) (hnew : r.newOid = .null)
    (hnew' : r'.newOid = .null) (i j : Nat) (accessor : Accessor) :
    c.compute i r accessor = c.compute j r' accessor := by
  cases accessor with
  | newCommits => rw [compute, compute, computeNewCommits_null hnew, computeNewCommits_null hnew']
  | droppedCommits => rw [compute, compute, computeDroppedCommits, computeDroppedCommits, hold, hnew, hnew']
  | refDiff => rw [compute, compute, computeRefDiff, computeRefDiff, hold, hnew, hnew']

/-- Every filled cell holds the answer for every command that is looked up there. -/
def CellsRight (c : Comparison) (cells : Cells) : Prop :=
  ∀ accessor, (cells accessor).length = c.refs.length ∧
    ∀ k answer, (cells accessor)[k]? = some (some answer) →
      ∀ i r, c.refs[i]? = some r → c.refIndex r = some k → answer = c.compute i r accessor

theorem freshCells_right (c : Comparison) : CellsRight c c.freshCells := by
  intro accessor
  refine ⟨by simp [freshCells], fun k answer hanswer => ?_⟩
  simp [freshCells, List.getElem?_replicate] at hanswer

variable (hdup : RepeatsDelete c.refs)

include hdup

theorem compute_same {r r' : PushRef} (hi : c.refs[i]? = some r) (hj : c.refs[j]? = some r')
    (hname : r.refname = r'.refname) (accessor : Accessor) :
    c.compute i r accessor = c.compute j r' accessor := by
  rcases Nat.lt_trichotomy i j with hlt | rfl | hlt
  · obtain ⟨hold, hnew, hnew'⟩ := hdup i j r r' hlt hi hj hname
    exact compute_of_deletes hold hnew hnew' i j accessor
  · rw [Option.some.inj (hi.symm.trans hj)]
  · obtain ⟨hold, hnew, hnew'⟩ := hdup j i r' r hlt hj hi hname.symm
    exact compute_of_deletes hold.symm hnew' hnew i j accessor

theorem compute_own {i k : Nat} {r r₀ : PushRef} (hi : c.refs[i]? = some r)
    (hk : c.refs[k]? = some r₀) (hname : r₀.refname = r.refname) (accessor : Accessor) :
    c.compute k r accessor = c.compute i r accessor := by
  by_cases heq : k = i
  · rw [heq]
  · have hnew : r.newOid = .null := by
      rcases Nat.lt_or_gt_of_ne heq with hlt | hlt
      · exact (hdup k i r₀ r hlt hk hi hname).2.2
      · exact (hdup i k r r₀ hlt hi hk hname.symm).2.1
    exact compute_of_deletes rfl hnew hnew k i accessor

theorem call_right (hcells : CellsRight c cells) {i : Nat} (hi : c.refs[i]? = some r)
    (accessor : Accessor) :
    ∃ cells', c.call cells accessor r = some (c.compute i r accessor, cells') ∧
      CellsRight c cells' := by
  obtain ⟨k, r₀, hk, -, hr₀, hname⟩ := refIndex_of_getElem? hi
  have hlt : k < (cells accessor).length := by
    rw [(hcells accessor).1]
    exact (List.getElem?_eq_some_iff.mp hr₀).1
  cases hcell : (cells accessor)[k] with
  | some answer =>
    have hget : (cells accessor)[k]? = some (some answer) := by rw [List.getElem?_eq_getElem hlt, hcell]
    rw [← (hcells accessor).2 k answer hget i r hi hk]
    exact ⟨cells, call_filled hk hget, hcells⟩
  | none =>
    have hget : (cells accessor)[k]? = some none := by rw [List.getElem?_eq_getElem hlt, hcell]
    rw [← compute_own hdup hi hr₀ hname accessor]
    refine ⟨_, call_empty hk hget, fun accessor' => ?_⟩
    by_cases hsame : accessor' = accessor
    · subst hsame
      rw [Function.update_self]
      refine ⟨by rw [List.length_set, (hcells accessor').1], fun k' answer hanswer j r' hj hk' => ?_⟩
      by_cases hkk : k' = k
      · -- the cell just filled: `r` and `r'` have the refname of its first command
        subst hkk
        rw [List.getElem?_set_self hlt] at hanswer
        obtain ⟨k₁, r₁, hk₁, -, hr₁, hname₁⟩ := refIndex_of_getElem? hj
        obtain rfl := Option.some.inj (hk'.symm.trans hk₁)
        obtain rfl := Option.some.inj (hr₀.symm.trans hr₁)
        rw [← Option.some.inj (Option.some.inj hanswer), compute_own hdup hi hr₀ hname accessor']
        exact compute_same hdup hi hj (hname.symm.trans hname₁) accessor'
      · rw [List.getElem?_set_ne (fun heq => hkk heq.symm)] at hanswer
        exact (hcells accessor').2 k' answer hanswer j r' hj hk'
    · rw [Function.update_of_ne hsame]
      exact hcells accessor'

theorem runCalls_right (hcells : CellsRight c cells) (calls : List (Accessor × Nat)) :
    c.runCalls cells calls = calls.mapM fun p => c.spec p.1 p.2 := by
  induction calls generalizing cells with
  | nil => rfl
  | cons p calls ih =>
    obtain ⟨accessor, i⟩ := p
    rw [runCalls, List.mapM_cons]
    cases hi : c.refs[i]? with
    | none => simp [spec, hi]
    | some r =>
      obtain ⟨cells', hcall, hcells'⟩ := call_right hdup hcells hi accessor
      simp [spec, hi, hcall, ih hcells']

theorem answers_eq_spec (calls : List (Accessor × Nat)) :
    c.answers calls = calls.mapM fun p => c.spec p.1 p.2 :=
  runCalls_right hdup (freshCells_right c) calls

omit hdup

/-! ### Pushes for which they do -/

theorem answers_pair {i j k : Nat} {r r' : PushRef} (hi : c.refs[i]? = some r)
    (hj : c.refs[j]? = some r') (hname : r.refname = r'.refname) (hk : c.refIndex r = some k)
    (hlt : k < c.refs.length) (accessor : Accessor) :
    c.answers [(accessor, i), (accessor, j)] =
      some [c.compute k r accessor, c.compute k r accessor] := by
  have hfresh : (c.freshCells accessor)[k]? = some none := by simp [freshCells, hlt]
  have hfilled : (Function.update c.freshCells accessor
      ((c.freshCells accessor).set k (some (c.compute k r accessor))) accessor)[k]?
      = some (some (c.compute k r accessor)) := by
    rw [Function.update_self, List.getElem?_set_self (by simpa [freshCells] using hlt)]
  have hsecond := call_filled ((refIndex_congr hname).symm.trans hk) hfilled
  simp [answers, runCalls, hi, hj, call_empty hk hfresh, hsecond]

/-- The metadata of a commit about which only its oid is known. -/
def bareInfo (oid : ObjectId) : CommitInfo :=
  ⟨oid, .null, [], ⟨[], [], []⟩, ⟨[], [], []⟩, [], none, none⟩

/-- A push to a backend whose walks return their arguments, so that the answers show what was
asked. -/
def echo (refs : List PushRef) : Comparison where
  backend :=
    { reachableExcluding := fun tips excluded _ => .ok (tips ++ excluded)
      readCommitInfo := fun oid => .ok (bareInfo oid)
      treeDiff := fun _ _ => .ok ⟨[]⟩ }
  pack := ⟨[]⟩
  refs := refs
  existingRefTips := []

theorem echo_newCommits {refs : List PushRef} (h : r.newOid ≠ .null) (idx : Nat) :
    (echo refs).computeNewCommits idx r =
      .ok (([r.newOid] ++ (echo refs).excluding idx).map bareInfo) := by
  rw [computeNewCommits_ne h]
  exact mapM_of_ok fun _ _ => rfl

theorem echo_droppedCommits {refs : List PushRef} (hnew : r.newOid = .null) :
    (echo refs).computeDroppedCommits r =
      .ok (if r.oldOid.isNull then [] else [bareInfo r.oldOid]) := by
  rw [computeDroppedCommits, hnew]
  by_cases hold : r.oldOid.isNull = true
  · simp [hold, pure, Except.pure]
  · simp only [hold]
    rfl

theorem excluding_lt {i j k : Nat} (hi : c.refs[i]? = some r) (hnew : r.newOid ≠ .null)
    (hki : k ≤ i) (hij : i < j) : (c.excluding k).length < (c.excluding j).length := by
  have hmono : ∀ m n, m ≤ n → (((c.refs.take m).map (·.newOid)).filter fun oid => !oid.isNull).length
      ≤ (((c.refs.take n).map (·.newOid)).filter fun oid => !oid.isNull).length :=
    fun m n hmn => (((List.take_sublist_take_left hmn).map _).filter _).length_le
  have hsucc : (((c.refs.take (i + 1)).map (·.newOid)).filter fun oid => !oid.isNull).length
      = (((c.refs.take i).map (·.newOid)).filter fun oid => !oid.isNull).length + 1 := by
    rw [List.take_add_one, hi]
    simp [hnew]
  have hk := hmono k i hki
  have hj := hmono (i + 1) j hij
  simp only [excluding, List.length_append]
  omega

section Echo

variable {refs : List PushRef}
  (hspec : ∀ calls, (echo refs).answers calls = calls.mapM fun p => (echo refs).spec p.1 p.2)

include hspec

theorem echo_pair {r r' : PushRef} (hi : refs[i]? = some r) (hj : refs[j]? = some r')
    (hname : r.refname = r'.refname) (accessor : Accessor) {k : Nat}
    (hk : (echo refs).refIndex r = some k) :
    (echo refs).compute k r accessor = (echo refs).compute j r' accessor := by
  obtain ⟨k', r₀, hk', -, hr₀, -⟩ := refIndex_of_getElem? (c := echo refs) hi
  obtain rfl := Option.some.inj (hk.symm.trans hk')
  have hpair := answers_pair (c := echo refs) hi hj hname hk (List.getElem?_eq_some_iff.mp hr₀).1 accessor
  rw [hspec] at hpair
  have hi' : (echo refs).refs[i]? = some r := hi
  have hj' : (echo refs).refs[j]? = some r' := hj
  simp [spec, hi', hj'] at hpair
  exact hpair.2.symm

theorem echo_new_null {r r' : PushRef} (hi : refs[i]? = some r) (hj : refs[j]? = some r')
    (hname : r.refname = r'.refname) (hnew : r.newOid = .null) : r'.newOid = .null := by
  by_contra hnew'
  obtain ⟨k, -, hk, -⟩ := refIndex_of_getElem? (c := echo refs) hi
  have hsame := echo_pair hspec hi hj hname .newCommits hk
  rw [compute, compute, computeNewCommits_null hnew, echo_newCommits hnew'] at hsame
  simp at hsame

theorem echo_not_both {r r' : PushRef} (hij : i < j) (hi : refs[i]? = some r)
    (hj : refs[j]? = some r') (hname : r.refname = r'.refname) : r.newOid = .null := by
  by_contra hnew
  have hnew' : r'.newOid ≠ .null := fun hnull => hnew (echo_new_null hspec hj hi hname.symm hnull)
  obtain ⟨k, -, hk, hki, -⟩ := refIndex_of_getElem? (c := echo refs) hi
  have hsame := echo_pair hspec hj hj rfl .newCommits ((refIndex_congr hname).symm.trans hk)
  rw [compute, compute, echo_newCommits hnew', echo_newCommits hnew'] at hsame
  simp only [Answer.commits.injEq, Except.ok.injEq] at hsame
  have hlen := congrArg List.length hsame
  simp only [List.length_map, List.length_append] at hlen
  have hlt := excluding_lt (c := echo refs) hi hnew hki hij
  omega

theorem repeatsDelete_of_echo : RepeatsDelete refs := by
  intro i j r r' hij hi hj hname
  have hnew := echo_not_both hspec hij hi hj hname
  have hnew' := echo_new_null hspec hi hj hname hnew
  refine ⟨?_, hnew, hnew'⟩
  obtain ⟨k, -, hk, -⟩ := refIndex_of_getElem? (c := echo refs) hi
  have hsame := echo_pair hspec hi hj hname .droppedCommits hk
  rw [compute, compute, echo_droppedCommits hnew, echo_droppedCommits hnew'] at hsame
  simp only [Answer.commits.injEq, Except.ok.injEq] at hsame
  by_cases hold : r.oldOid = .null <;> by_cases hold' : r'.oldOid = .null
  · rw [hold, hold']
  · simp [hold, hold'] at hsame
  · simp [hold, hold'] at hsame
  · simpa [hold, hold', bareInfo] using hsame

end Echo

/-- **When an accessor answers about the command it is asked about.** For a push with the commands
`refs`, every sequence of accessor calls, on every backend state and with every pack and every list
of existing tips, is answered from the commands asked about, if and only if all commands that share
a refname are deletions from the same old oid. -/
theorem answers_eq_spec_iff (refs : List PushRef) :
    (∀ c : Comparison, c.refs = refs → ∀ calls,
      c.answers calls = calls.mapM fun p => c.spec p.1 p.2) ↔ RepeatsDelete refs := by
  constructor
  · intro h
    exact repeatsDelete_of_echo (h (echo refs) rfl)
  · rintro hdup c rfl calls
    exact answers_eq_spec hdup calls

/-- A history of three commits: a root with two children. -/
def forkAncestors (oid : ObjectId) : List ObjectId :=
  if oid = .fill 2 ∨ oid = .fill 3 then [oid, .fill 1] else [oid]

/-- A store with that history. -/
def forkBackend : Backend where
  reachableExcluding tips excluded _ :=
    .ok ((tips.flatMap forkAncestors).dedup.filter fun oid => oid ∉ excluded.flatMap forkAncestors)
  readCommitInfo oid := .ok (bareInfo oid)
  treeDiff _ _ := .ok ⟨[]⟩

/-- A push that creates a branch at the root and moves it to a child, in two commands. -/
def createThenMove : Comparison where
  backend := forkBackend
  pack := ⟨[]⟩
  refs := [⟨"refs/heads/main", .create, .null, .fill 1⟩, ⟨"refs/heads/main", .fastForward, .fill 1, .fill 2⟩]
  existingRefTips := []

/-- Its request is parsed, and the authoriser who asks for the new commits of both commands in order
is shown the first commit twice and the second one never. -/
theorem createThenMove_hides_commit :
    Receive.readReceiveRequest {} (utf8 "0065" ++ ObjectId.null.toHex ++ utf8 " "
        ++ (ObjectId.fill 1).toHex ++ utf8 " refs/heads/main" ++ utf8 "0065"
        ++ (ObjectId.fill 1).toHex ++ utf8 " " ++ (ObjectId.fill 2).toHex
        ++ utf8 " refs/heads/main" ++ utf8 "0000")
      = .ok ([⟨.null, .fill 1, "refs/heads/main"⟩, ⟨.fill 1, .fill 2, "refs/heads/main"⟩], []) ∧
    createThenMove.spec .newCommits 1 = some (.commits (.ok [bareInfo (.fill 2)])) ∧
    createThenMove.answers [(.newCommits, 0), (.newCommits, 1)]
      = some [.commits (.ok [bareInfo (.fill 1)]), .commits (.ok [bareInfo (.fill 1)])] ∧
    createThenMove.answers [(.newCommits, 0), (.newCommits, 1)]
      ≠ [(Accessor.newCommits, 0), (.newCommits, 1)].mapM fun p => createThenMove.spec p.1 p.2 := by
  decide +kernel

end Comparison

end Mizzle.Auth
