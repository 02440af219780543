import Mizzle.Backend.Kv.Graph
import Mizzle.Backend.Types
import Mizzle.Lib.NodeWalk
import Mizzle.Lib.Outcome

/-!
# The bounded walk of the KV backend

`reachable_excluding` of `mizzle/src/backend/kv/graph.rs`. Both passes are breadth-first walks over
`fetch_parents`; the first one shares one set among the excluded oids, so that an ancestor is
expanded once, and both observe `cap`. As in the SQL backend `cap` is `none` for `usize::MAX`.
-/

namespace Mizzle.Kv

open Lib

/-- The parents of a commit, with the message of the pass that asks for them. -/
def parentsFor (pass : String) (s : Store) (repoId : UInt64) (oid : ObjectId) :
    Except ReachableError (List ObjectId) :=
  (fetchParents s repoId oid).mapError fun e => .other (pass ++ e)

/-- `collect_ancestors`: the set must not grow beyond `cap`. -/
def collectAncestors (fuel : Nat) (s : Store) (repoId : UInt64) (cap : Option Nat)
    (set : Finset ObjectId) (oid : ObjectId) : Outcome ReachableError (Finset ObjectId) :=
  markFrom (parentsFor "collecting ancestors: " s repoId)
    (fun set _ => cap.bind fun limit => if limit < set.card then some (.capExceeded limit) else none) fuel set oid

/-- `reachable_excluding`. -/
def reachableExcluding (fuel : Nat) (s : Store) (repoId : UInt64) (tips excluding : List ObjectId)
    (cap : Option Nat) : Outcome ReachableError (List ObjectId) := do
  if tips = [] then return []
  let exclude ← excluding.foldlM (collectAncestors fuel s repoId cap) ∅
  walkFrom (parentsFor "fetching parents: " s repoId) exclude
    (fun _ taken => cap.bind fun limit => if limit ≤ taken.length then some (.capExceeded limit) else none) fuel tips

/-! ### A store with a given parent graph -/

/-- The parent keys are those of the parent graph. -/
def ParentsAre (s : Store) (repoId : UInt64) (parents : ObjectId → List ObjectId) : Prop :=
  ∀ c, ∃ ps, fetchParents s repoId c = .ok ps ∧ ∀ q, q ∈ ps ↔ q ∈ parents c

variable {s : Store} {repo : UInt64} {parents : ObjectId → List ObjectId}

namespace ParentsAre

theorem parentsFor_ok (h : ParentsAre s repo parents) (pass : String) (c : ObjectId) :
    ∃ ps, parentsFor pass s repo c = .ok ps ∧ ∀ q, q ∈ ps ↔ q ∈ parents c := by
  obtain ⟨ps, hps, hmem⟩ := h c
  exact ⟨ps, by rw [parentsFor, hps]; rfl, hmem⟩

/-- **The walk lists what the tips reach and the excluded oids do not**, on any finite graph. -/
theorem reachableExcluding_done (h : ParentsAre s repo parents) {R : Finset ObjectId}
    (hR : ∀ c q, q ∈ parents c → q ∈ R) (tips excluding : List ObjectId) :
    ∃ enough, ∀ fuel, enough ≤ fuel → ∃ oids, reachableExcluding fuel s repo tips excluding none =
      Outcome.done oids ∧
      ∀ x, x ∈ oids ↔ Reach parents tips x ∧ ¬ Reach parents excluding x := by
  refine ⟨(R ∪ (tips.toFinset ∪ excluding.toFinset)).card, fun fuel hfuel => ?_⟩
  rw [reachableExcluding]
  split
  · rename_i hnil
    exact ⟨[], rfl, fun x => by simp [hnil]⟩
  · obtain ⟨oids, hwalk, -, hmem⟩ := walkExcluding_done (h.parentsFor_ok "collecting ancestors: ")
      (h.parentsFor_ok "fetching parents: ") (fun c q hq => Finset.mem_union_left _ (hR c q hq)) hfuel
      (fun x hx => by simp [hx] : ∀ x ∈ tips, x ∈ R ∪ (tips.toFinset ∪ excluding.toFinset))
      (fun x hx => by simp [hx] : ∀ x ∈ excluding, x ∈ R ∪ (tips.toFinset ∪ excluding.toFinset))
    exact ⟨oids, hwalk, hmem⟩

end ParentsAre

end Mizzle.Kv
