import Mizzle.Backend.Types

/-!
# What the push drivers hand to the authoriser

The helpers of `mizzle/src/serve.rs` that both push drivers use: the commands of a request with
their kinds, and the existing ref tips that `new_commits` leaves out of its walks.
-/

namespace Mizzle.Serve

def pushRef (kind : PushKind) (u : RefUpdate) : PushRef := ⟨u.refname, kind, u.oldOid, u.newOid⟩

/-- `build_push_refs`: the commands with the kinds that a classifier gives them. -/
def buildPushRefs (kind : RefUpdate → PushKind) (updates : List RefUpdate) : List PushRef :=
  updates.map fun u => pushRef (kind u) u

/-- The oids at which a ref of the snapshot can be walked from. -/
def refTips (r : RefInfo) : List ObjectId := r.oid :: r.peeled.toList

/-- `existing_ref_tips`: the tips of every ref that the push does not name. A failed listing gives
none. -/
def existingRefTips (snapshot : Except String RefsSnapshot) (pushRefs : List PushRef) :
    List ObjectId :=
  match snapshot with
  | .error _ => []
  | .ok snapshot => snapshot.refs.flatMap fun r => if r.name ∈ pushRefs.map (·.refname) then [] else refTips r

theorem mem_existingRefTips {snapshot : RefsSnapshot} {pushRefs : List PushRef} {oid : ObjectId} :
    oid ∈ existingRefTips (.ok snapshot) pushRefs ↔
      ∃ r ∈ snapshot.refs, r.name ∉ pushRefs.map (·.refname) ∧ oid ∈ refTips r := by
  rw [existingRefTips, List.mem_flatMap]
  refine exists_congr fun r => and_congr_right fun _ => ?_
  split
  · rename_i hnamed
    simp [hnamed]
  · rename_i hnamed
    simp only [hnamed, not_false_eq_true, true_and]

end Mizzle.Serve
