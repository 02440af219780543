import Mizzle.Backend.Types
import Mizzle.Lib.NodeWalk
import Mizzle.Pack.Objects

/-!
# The tree diff of the databases

`tree_diff` of `mizzle/src/backend/sql/objects.rs` and of `mizzle/src/backend/kv/build_pack.rs`: the
trees below both sides are fetched into memory, and gitoxide compares them there. The two backends
differ in the read of one tree, and in the text if it fails.

What comes out depends on the trees that can be read only (`treeDiff_tells`): the call fails if a
tree below one of the sides is missing, and the comparison sees exactly the trees below them
otherwise.
-/

namespace Mizzle.Storage

open Lib Pack

section Code

variable (p : Parser) (read : ObjectId → Except String Bytes)

/-- The subtrees of a tree. The empty tree is known without a read. -/
def subtreesOf (oid : ObjectId) : Except String (List ObjectId) :=
  if oid = .emptyTree then .ok []
  else do
    let data ← read oid
    match p.treeEntries data with
    | .ok entries => .ok ((entries.filter fun e => e.mode = .tree).map TreeEntry.oid)
    | .error _ => .error ("parsing tree " ++ oid.toHexString)

/-- `fetch_trees_recursive`; the `MemObjectStore` is given by the oids of its trees. -/
def fetchTreesRecursive (fuel : Nat) (oid : ObjectId) (store : Finset ObjectId) :
    Outcome String (Finset ObjectId) :=
  collect (nodesOf (subtreesOf p read)) fuel oid store

/-- `MemObjectStore::try_find`. -/
def tryFind (store : Finset ObjectId) (oid : ObjectId) : Option Bytes :=
  if oid ∈ store then if oid = .emptyTree then some [] else (read oid).toOption else none

/-- `tree_diff`; `diff` is `gix_diff::tree` with its recorder. -/
def treeDiff (diff : (ObjectId → Option Bytes) → ObjectId → ObjectId → Except String RefDiff)
    (fuel : Nat) (parentTree : Option ObjectId) (childTree : ObjectId) :
    Outcome String RefDiff := do
  let lhs := parentTree.getD .emptyTree
  let store ← fetchTreesRecursive p read fuel lhs ∅
  let store ← fetchTreesRecursive p read fuel childTree store
  diff (tryFind read store) lhs childTree

end Code

/-! ### What is compared -/

section Spec

variable (p : Parser) (tree : ObjectId → Option Bytes)

/-- The data of a tree; the empty tree is there in any case. -/
def treeAt (oid : ObjectId) : Option Bytes := if oid = .emptyTree then some [] else tree oid

/-- The subtrees of a tree that is there and can be parsed. -/
def subtrees (oid : ObjectId) : Option (List ObjectId) :=
  if oid = .emptyTree then some []
  else (tree oid).bind fun data => (p.treeEntries data).toOption.map fun entries =>
    (entries.filter fun e => e.mode = .tree).map TreeEntry.oid

/-- The trees that the two sides lead to. -/
def TreesBelow (lhs rhs : ObjectId) : ObjectId → Prop :=
  Reach (fun oid => (subtrees p tree oid).getD []) [lhs, rhs]

open Classical in
/-- The result is the difference of the two sides, if all trees below them can be read, and an error
if not. -/
def DiffTells (diff : (ObjectId → Option Bytes) → ObjectId → ObjectId → Except String RefDiff)
    (lhs rhs : ObjectId) (result : Except String RefDiff) : Prop :=
  if ∀ x, TreesBelow p tree lhs rhs x → subtrees p tree x ≠ none then
    result = diff (fun x => if TreesBelow p tree lhs rhs x then treeAt tree x else none) lhs rhs
  else ∃ message, result = .error message

end Spec

variable {p : Parser} {read : ObjectId → Except String Bytes} {tree : ObjectId → Option Bytes}
  {diff : (ObjectId → Option Bytes) → ObjectId → ObjectId → Except String RefDiff}

theorem toOption_subtreesOf (hread : ∀ oid, (read oid).toOption = tree oid) (oid : ObjectId) :
    (subtreesOf p read oid).toOption = subtrees p tree oid := by
  rw [subtreesOf, subtrees]
  split
  · rfl
  · rw [← hread]
    cases read oid with
    | error e => rfl
    | ok data =>
      simp only [bind, Except.bind, Except.toOption, Option.bind_some]
      cases p.treeEntries data <;> rfl

theorem okOrNil_subtreesOf (hread : ∀ oid, (read oid).toOption = tree oid) :
    okOrNil (subtreesOf p read) = fun oid => (subtrees p tree oid).getD [] := by
  funext oid
  rw [← toOption_subtreesOf hread, okOrNil]
  cases subtreesOf p read oid <;> rfl

theorem treeDiff_eq (fuel : Nat) (parentTree : Option ObjectId) (childTree : ObjectId) :
    treeDiff p read diff fuel parentTree childTree =
      collectFrom (subtreesOf p read) fuel [parentTree.getD .emptyTree, childTree] >>= fun store =>
        (diff (tryFind read store) (parentTree.getD .emptyTree) childTree : Outcome String RefDiff) := by
  rw [treeDiff, collectFrom, List.map_cons, List.map_cons, List.map_nil, visitAll, fetchTreesRecursive]
  rcases collect (nodesOf (subtreesOf p read)) fuel (parentTree.getD .emptyTree) ∅ with _ | _ | store
  · rfl
  · rfl
  · change (collect (nodesOf (subtreesOf p read)) fuel childTree store >>= fun store => _) = _
    simp only [visitAll]
    rcases collect (nodesOf (subtreesOf p read)) fuel childTree store with _ | _ | _ <;> rfl

/-- **The trees are compared, or the call fails**, from some fuel on. -/
theorem treeDiff_tells (hread : ∀ oid, (read oid).toOption = tree oid) {R : Finset ObjectId}
    (hR : ∀ oid, tree oid ≠ none → oid ∈ R) (parentTree : Option ObjectId) (childTree : ObjectId) :
    ∃ result enough,
      (∀ fuel, enough ≤ fuel → treeDiff p read diff fuel parentTree childTree = some result) ∧
      DiffTells p tree diff (parentTree.getD .emptyTree) childTree result := by
  classical
  generalize hlhs : parentTree.getD .emptyTree = lhs
  have hfinite : ∀ x xs, subtreesOf p read x = .ok xs → x ∈ insert .emptyTree R := by
    intro x xs hok
    refine Finset.mem_insert.mpr (or_iff_not_imp_left.mpr fun hne => hR x fun hnone => ?_)
    have hsubtrees := toOption_subtreesOf (p := p) hread x
    rw [hok, subtrees, if_neg hne, hnone] at hsubtrees
    cases hsubtrees
  have hsome : ∀ {x}, subtrees p tree x ≠ none ↔ ∃ xs, subtreesOf p read x = .ok xs := by
    intro x
    rw [← toOption_subtreesOf hread]
    cases subtreesOf p read x <;> simp [Except.toOption]
  have hbelow : Reach (okOrNil (subtreesOf p read)) [lhs, childTree] = TreesBelow p tree lhs childTree := by
    rw [okOrNil_subtreesOf hread]
    rfl
  obtain ⟨fetched, hfetched, hcases⟩ := collectFrom_ends hfinite [lhs, childTree]
  rw [hbelow] at hcases
  rcases hcases with ⟨store, rfl, hmem, hall⟩ | ⟨e, x, rfl, hx, he⟩
  · have hdata : tryFind read store =
        fun x => if TreesBelow p tree lhs childTree x then treeAt tree x else none := by
      funext x
      rw [tryFind, treeAt, hread]
      exact if_congr (hmem x) rfl rfl
    refine ⟨diff (tryFind read store) lhs childTree, (insert .emptyTree R).card + 1, fun fuel hfuel => ?_, ?_⟩
    · rw [treeDiff_eq, hlhs, hfetched fuel hfuel]
      rfl
    · rw [DiffTells, if_pos fun x hx => hsome.mpr (hall x hx), hdata]
  · refine ⟨.error e, (insert .emptyTree R).card + 1, fun fuel hfuel => ?_, ?_⟩
    · rw [treeDiff_eq, hlhs, hfetched fuel hfuel]
      rfl
    · rw [DiffTells, if_neg fun hall => ?_]
      · exact ⟨e, rfl⟩
      · obtain ⟨xs, hxs⟩ := hsome.mp (hall x hx)
        rw [he] at hxs
        cases hxs

end Mizzle.Storage
