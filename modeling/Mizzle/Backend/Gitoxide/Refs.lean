import Mathlib.Logic.Relation
import Mizzle.Proto.Types

/-!
# Ref transactions of the gitoxide backend

`update_refs_sync` and `compute_push_kind_sync` of `mizzle/src/backend/fs_gitoxide.rs`. The commands
become edits of one `gix-ref` transaction; each edit carries the constraint that the current value
of its ref has to meet.

The library is not part of the repository. Its constraints are taken to mean what they are called
(`PreviousValue.admits`), and a transaction names every ref once, applies all its edits or none, and
does not follow symbolic refs (`deref: false`). Which names are valid, and which commits a traversal
from a tip yields, are parameters.
-/

namespace Mizzle.Gitoxide

inductive Target where
  | object (oid : ObjectId)
  | symbolic (name : String)
deriving DecidableEq

inductive PreviousValue where
  | mustExist
  | mustExistAndMatch (target : Target)
  | mustNotExist
deriving DecidableEq

/-- The constraint on the current value. -/
def PreviousValue.admits : PreviousValue → Option Target → Bool
  | .mustExist, current => current.isSome
  | .mustExistAndMatch target, current => current == some target
  | .mustNotExist, current => current.isNone

inductive Change where
  | delete (expected : PreviousValue)
  | update (expected : PreviousValue) (new : Target)
deriving DecidableEq

def Change.expected : Change → PreviousValue
  | .delete expected => expected
  | .update expected _ => expected

/-- The value of the ref after the change. -/
def Change.result : Change → Option Target
  | .delete _ => none
  | .update _ new => some new

structure RefEdit where
  change : Change
  name : String
deriving DecidableEq

abbrev RefStore := String → Option Target

def RefEdit.apply (refs : RefStore) (edit : RefEdit) : RefStore :=
  fun n => if n = edit.name then edit.change.result else refs n

/-- `transaction().prepare(edits).commit()`; `none` is an error of either. -/
def transaction (refs : RefStore) (edits : List RefEdit) : Option RefStore :=
  if (edits.map (·.name)).Nodup ∧ ∀ e ∈ edits, e.change.expected.admits (refs e.name) then
    some (edits.foldl RefEdit.apply refs)
  else none

/-- The change of a command: deletion is tested first. -/
def changeOf (u : RefUpdate) : Change :=
  if u.newOid.isNull then
    .delete (if u.oldOid.isNull then .mustExist else .mustExistAndMatch (.object u.oldOid))
  else if u.oldOid.isNull then .update .mustNotExist (.object u.newOid)
  else .update (.mustExistAndMatch (.object u.oldOid)) (.object u.newOid)

def refEdit (validName : String → Bool) (u : RefUpdate) : Except String RefEdit :=
  if validName u.refname then .ok ⟨changeOf u, u.refname⟩ else .error ("invalid ref name " ++ u.refname)

/-- `update_refs_sync`: the refs afterwards and the result. -/
def updateRefsSync (validName : String → Bool) (refs : RefStore) (updates : List RefUpdate) :
    RefStore × Except String Unit :=
  match updates.mapM (refEdit validName) with
  | .error e => (refs, .error e)
  | .ok edits =>
    match transaction refs edits with
    | none => (refs, .error "preparing ref transaction")
    | some refs' => (refs', .ok ())

/-- `compute_push_kind_sync`: the ancestor test looks for the old oid in the traversal from the new
one, and an entry that is an error does not count. -/
def computePushKindSync (traverse : ObjectId → List (Except String ObjectId)) (u : RefUpdate) :
    PushKind :=
  PushKind.classify u.oldOid u.newOid
    ((traverse u.newOid).any fun entry =>
      match entry with
      | .ok id => id == u.oldOid
      | .error _ => false)

theorem updateRefsSync_singleton (validName : String → Bool) (refs : RefStore) (u : RefUpdate) :
    ((updateRefsSync validName refs [u]).2 = .ok () ↔
      validName u.refname = true ∧ (changeOf u).expected.admits (refs u.refname) = true) ∧
    ((updateRefsSync validName refs [u]).2 = .ok () →
      (updateRefsSync validName refs [u]).1 = RefEdit.apply refs ⟨changeOf u, u.refname⟩) := by
  by_cases hname : validName u.refname = true
  · have hedits : [u].mapM (refEdit validName) = .ok [⟨changeOf u, u.refname⟩] := by
      simp [refEdit, hname, bind, Except.bind, pure, Except.pure]
    by_cases hadmits : (changeOf u).expected.admits (refs u.refname) = true
    · have htx : transaction refs [⟨changeOf u, u.refname⟩] = some (RefEdit.apply refs ⟨changeOf u, u.refname⟩) := by
        simp [transaction, hadmits]
      simp [updateRefsSync, hedits, htx, hname, hadmits]
    · have htx : transaction refs [⟨changeOf u, u.refname⟩] = none := by simp [transaction, hadmits]
      simp [updateRefsSync, hedits, htx, hadmits]
  · have hedits : [u].mapM (refEdit validName) = .error ("invalid ref name " ++ u.refname) := by
      simp [refEdit, hname, bind, Except.bind]
    simp [updateRefsSync, hedits, hname]

/-! ### Batches that go through -/

def editOf (u : RefUpdate) : RefEdit := ⟨changeOf u, u.refname⟩

variable {us : List RefUpdate} {refs refs' : RefStore} {u : RefUpdate}

theorem mapM_refEdit {validName : String → Bool} {edits : List RefEdit}
    (h : us.mapM (refEdit validName) = .ok edits) : edits = us.map editOf := by
  induction us generalizing edits with
  | nil => exact (Except.ok.inj h).symm
  | cons u us ih =>
    rw [List.mapM_cons, refEdit] at h
    split at h
    · cases hrest : us.mapM (refEdit validName) with
      | error e => simp [hrest, bind, Except.bind] at h
      | ok rest =>
        simp only [hrest, bind, Except.bind, pure, Except.pure, Except.ok.injEq] at h
        rw [← h, ih hrest]
        rfl
    · simp [bind, Except.bind] at h

theorem foldl_apply_of_notMem (refs : RefStore) (us : List RefUpdate) {n : String}
    (h : ∀ u ∈ us, u.refname ≠ n) : (us.map editOf).foldl RefEdit.apply refs n = refs n := by
  induction us generalizing refs with
  | nil => rfl
  | cons u us ih =>
    have hrest := ih (RefEdit.apply refs (editOf u)) fun v hv => h v (List.mem_cons_of_mem _ hv)
    exact hrest.trans (if_neg fun heq => h u List.mem_cons_self heq.symm)

theorem foldl_apply_of_mem (refs : RefStore) (hnames : (us.map (·.refname)).Nodup) (hu : u ∈ us) :
    (us.map editOf).foldl RefEdit.apply refs u.refname = (changeOf u).result := by
  induction us generalizing refs with
  | nil => exact absurd hu List.not_mem_nil
  | cons v us ih =>
    rw [List.map_cons, List.nodup_cons] at hnames
    rcases List.mem_cons.mp hu with rfl | hu
    · have hrest := foldl_apply_of_notMem (RefEdit.apply refs (editOf u)) us (n := u.refname)
        fun w hw heq => hnames.1 (heq ▸ List.mem_map_of_mem hw)
      exact hrest.trans (if_pos rfl)
    · exact ih _ hnames.2 hu

/-- What a batch that went through has found and left. -/
structure WentThrough (refs refs' : RefStore) (us : List RefUpdate) : Prop where
  admitted : ∀ u ∈ us, (changeOf u).expected.admits (refs u.refname) = true
  changed : ∀ u ∈ us, refs' u.refname = (changeOf u).result
  kept : ∀ n, (∀ u ∈ us, u.refname ≠ n) → refs' n = refs n

theorem updateRefsSync_wentThrough {validName : String → Bool} {refs : RefStore}
    (h : (updateRefsSync validName refs us).2 = .ok ()) :
    WentThrough refs (updateRefsSync validName refs us).1 us := by
  rw [updateRefsSync] at h ⊢
  cases hedits : us.mapM (refEdit validName) with
  | error e => simp [hedits] at h
  | ok edits =>
    obtain rfl := mapM_refEdit hedits
    simp only [hedits, transaction] at h ⊢
    split_ifs at h ⊢ with hcond
    obtain ⟨hnames, hadmits⟩ := hcond
    have hnodup : (us.map (·.refname)).Nodup := by simpa [Function.comp_def, editOf] using hnames
    refine ⟨fun u hu => ?_, fun u hu => foldl_apply_of_mem refs hnodup hu, fun n hn =>
      foldl_apply_of_notMem refs us hn⟩
    exact hadmits (editOf u) (List.mem_map_of_mem hu)

theorem WentThrough.newOid_of_symbolic (h : WentThrough refs refs' us) (hu : u ∈ us) {m : String}
    (hsymbolic : refs u.refname = some (.symbolic m)) : u.newOid = .null := by
  have hadmitted := h.admitted u hu
  by_contra hnew
  rw [changeOf, if_neg (by simpa using hnew), hsymbolic] at hadmitted
  split at hadmitted <;> simp [Change.expected, PreviousValue.admits] at hadmitted

theorem WentThrough.deleted (h : WentThrough refs refs' us) (hu : u ∈ us)
    (hnull : u.newOid = .null) :
    refs' u.refname = none := by
  rw [h.changed u hu, changeOf, if_pos (by simpa using hnull)]
  rfl

theorem WentThrough.updated {refs refs' : RefStore} {us : List RefUpdate}
    (h : WentThrough refs refs' us) {u : RefUpdate} (hu : u ∈ us) (hnew : u.newOid ≠ .null) :
    refs' u.refname = some (.object u.newOid) := by
  rw [h.changed u hu, changeOf, if_neg (by simpa using hnew)]
  split <;> rfl

/-! ### Refs that name stored objects -/

/-- The ref, or the one at the end of its symbolic refs, holds the oid of a stored object. -/
inductive Names (stored : ObjectId → Prop) (refs : RefStore) : String → Prop where
  | object {n : String} {oid : ObjectId} (h : refs n = some (.object oid)) (hstored : stored oid) : Names stored refs n
  | symbolic {n m : String} (h : refs n = some (.symbolic m)) (hm : Names stored refs m) : Names stored refs n

/-- Every ref names a stored object; `HEAD` may name a branch that does not exist. -/
def AllNamed (stored : ObjectId → Prop) (refs : RefStore) : Prop :=
  ∀ n, n ≠ "HEAD" → refs n ≠ none → Names stored refs n

def Links (refs : RefStore) (n m : String) : Prop := refs n = some (.symbolic m)

/-- Each command that a staying ref reaches through symbolic refs (itself included) sets a stored
object. -/
def KeepsNames (stored : ObjectId → Prop) (refs : RefStore) (us : List RefUpdate) : Prop :=
  ∀ n, n ≠ "HEAD" → (∀ u ∈ us, u.refname = n → u.newOid ≠ .null) →
    ∀ m, Relation.ReflTransGen (Links refs) n m → ∀ u ∈ us, u.refname = m → u.newOid ≠ .null ∧ stored u.newOid

theorem names_ne_none {stored : ObjectId → Prop} {refs : RefStore} {n : String}
    (h : Names stored refs n) : refs n ≠ none := by
  cases h with
  | object h _ | symbolic h _ => simp [h]

theorem Names.of_wentThrough {stored stored' : ObjectId → Prop}
    (hmono : ∀ oid, stored oid → stored' oid) (hwent : WentThrough refs refs' us) {n : String}
    (h : Names stored refs n)
    (hway : ∀ m, Relation.ReflTransGen (Links refs) n m → ∀ u ∈ us, u.refname = m →
      u.newOid ≠ .null ∧ stored' u.newOid) : Names stored' refs' n := by
  induction h with
  | @object n oid hn hstored =>
    by_cases hnamed : ∃ u ∈ us, u.refname = n
    · obtain ⟨u, hu, rfl⟩ := hnamed
      obtain ⟨hnew, hstored'⟩ := hway _ .refl u hu rfl
      exact .object (hwent.updated hu hnew) hstored'
    · push Not at hnamed
      exact .object ((hwent.kept n hnamed).trans hn) (hmono oid hstored)
  | @symbolic n m hn _ ih =>
    by_cases hnamed : ∃ u ∈ us, u.refname = n
    · obtain ⟨u, hu, rfl⟩ := hnamed
      exact absurd (hwent.newOid_of_symbolic hu hn) (hway _ .refl u hu rfl).1
    · push Not at hnamed
      exact .symbolic ((hwent.kept n hnamed).trans hn) (ih fun k hk => hway k (.head hn hk))

theorem Names.on_the_way {stored : ObjectId → Prop} (hwent : WentThrough refs refs' us)
    {n m : String} (h : Names stored refs' n) (hway : Relation.ReflTransGen (Links refs) n m)
    (hu : u ∈ us) (hm : u.refname = m) : u.newOid ≠ .null ∧ stored u.newOid := by
  induction hway using Relation.ReflTransGen.head_induction_on with
  | refl =>
    subst hm
    have hnew : u.newOid ≠ .null := fun hnull => names_ne_none h (hwent.deleted hu hnull)
    refine ⟨hnew, ?_⟩
    have hvalue := hwent.updated hu hnew
    cases h with
    | object h hstored => rwa [Target.object.inj (Option.some.inj (hvalue.symm.trans h))]
    | symbolic h => simp [hvalue] at h
  | @head n k hlink _ ih =>
    -- a symbolic ref that is still there has not been touched
    have huntouched : ∀ v ∈ us, v.refname ≠ n := by
      rintro v hv rfl
      exact names_ne_none h (hwent.deleted hv (hwent.newOid_of_symbolic hv hlink))
    have hkept := (hwent.kept n huntouched).trans hlink
    cases h with
    | object h => simp [hkept] at h
    | symbolic h hk =>
      obtain rfl := Target.symbolic.inj (Option.some.inj (hkept.symm.trans h))
      exact ih hk

/-- **Whether every ref names a stored object after a batch**, if every ref does before. -/
theorem allNamed_iff {stored stored' : ObjectId → Prop} (hmono : ∀ oid, stored oid → stored' oid)
    (hwent : WentThrough refs refs' us) (hbefore : AllNamed stored refs) :
    AllNamed stored' refs' ↔ KeepsNames stored' refs us := by
  constructor
  · intro hafter n hhead hstays m hway u hu hm
    have hthere : refs' n ≠ none := by
      by_cases hnamed : ∃ v ∈ us, v.refname = n
      · obtain ⟨v, hv, rfl⟩ := hnamed
        simp [hwent.updated hv (hstays v hv rfl)]
      · push Not at hnamed
        rw [hwent.kept n hnamed]
        intro hnone
        rcases Relation.ReflTransGen.cases_head hway with rfl | ⟨k, hlink, -⟩
        · exact hnamed u hu hm
        · simp [Links, hnone] at hlink
    exact Names.on_the_way hwent (hafter n hhead hthere) hway hu hm
  · intro hkeeps n hhead hthere
    have hstays : ∀ u ∈ us, u.refname = n → u.newOid ≠ .null := by
      rintro u hu rfl hnull
      exact hthere (hwent.deleted hu hnull)
    by_cases hnamed : ∃ u ∈ us, u.refname = n
    · obtain ⟨u, hu, rfl⟩ := hnamed
      obtain ⟨hnew, hstored⟩ := hkeeps _ hhead hstays _ .refl u hu rfl
      exact .object (hwent.updated hu hnew) hstored
    · push Not at hnamed
      rw [hwent.kept n hnamed] at hthere
      exact Names.of_wentThrough hmono hwent (hbefore n hhead hthere) (hkeeps n hhead hstays)

end Mizzle.Gitoxide
