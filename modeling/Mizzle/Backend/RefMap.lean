import Mizzle.Proto.Types

/-!
# What a ref transaction is for

The refs of every repository as one function, and the all-or-nothing compare-and-swap that
`StorageBackend::update_refs` promises in its documentation (`mizzle/src/backend/mod.rs`): a
command's `old_oid` must be what the ref holds (a null `old_oid` meaning that the ref does not
exist), and then every ref takes its `new_oid` (a null `new_oid` removing it). The backends are
compared with this definition.
-/

namespace Mizzle

/-- The value of every ref of every repository. -/
abbrev RefMap (ρ : Type) := ρ → String → Option ObjectId

/-- What a command's oid says about a ref: null says that there is none. -/
def RefUpdate.value (oid : ObjectId) : Option ObjectId := if oid.isNull then none else some oid

@[simp] theorem RefUpdate.value_null : RefUpdate.value .null = none := by simp [RefUpdate.value]

theorem RefUpdate.value_of_ne {oid : ObjectId} (h : oid ≠ .null) :
    RefUpdate.value oid = some oid := by
  rw [RefUpdate.value, if_neg (by simpa using h)]

namespace RefMap

variable {ρ : Type} [DecidableEq ρ]

def set (refs : RefMap ρ) (repo : ρ) (name : String) (v : Option ObjectId) : RefMap ρ :=
  fun r n => if r = repo ∧ n = name then v else refs r n

/-- The condition a command puts on the map it is applied to. -/
def Expects (refs : RefMap ρ) (repo : ρ) (u : RefUpdate) : Prop :=
  refs repo u.refname = RefUpdate.value u.oldOid

instance (refs : RefMap ρ) (repo : ρ) (u : RefUpdate) : Decidable (refs.Expects repo u) :=
  inferInstanceAs (Decidable (_ = _))

/-- The map after one command. -/
def apply (repo : ρ) (refs : RefMap ρ) (u : RefUpdate) : RefMap ρ :=
  refs.set repo u.refname (RefUpdate.value u.newOid)

def applyAll (repo : ρ) (refs : RefMap ρ) (us : List RefUpdate) : RefMap ρ :=
  us.foldl (apply repo) refs

/-- The transaction: every condition is about the initial map; `none` is a refused batch. -/
def cas (refs : RefMap ρ) (repo : ρ) (us : List RefUpdate) : Option (RefMap ρ) :=
  if ∀ u ∈ us, refs.Expects repo u then some (refs.applyAll repo us) else none

/-- A run of a stored transaction (the state afterwards and the result) carries out the
compare-and-swap of the map that its initial state `s` represents. -/
structure Implements {σ ε : Type} (represents : σ → RefMap ρ → Prop) (refs : RefMap ρ) (repo : ρ)
    (us : List RefUpdate) (s : σ) (run : σ × Except ε Unit) : Prop where
  accepted : ∀ refs', refs.cas repo us = some refs' → run.2 = .ok () ∧ represents run.1 refs'
  refused : refs.cas repo us = none → (∃ e, run.2 = .error e) ∧ run.1 = s

@[simp] theorem set_self (refs : RefMap ρ) (repo : ρ) (name : String) (v : Option ObjectId) :
    refs.set repo name v repo name = v := by simp [set]

theorem set_ne (refs : RefMap ρ) {repo r : ρ} {name n : String} (v : Option ObjectId)
    (h : ¬ (r = repo ∧ n = name)) : refs.set repo name v r n = refs r n := by simp [set, h]

variable {refs : RefMap ρ} {repo : ρ} {us : List RefUpdate}

theorem cas_of_expects (h : ∀ u ∈ us, refs.Expects repo u) :
    refs.cas repo us = some (refs.applyAll repo us) :=
  if_pos h

theorem cas_of_not_expects (h : ¬ ∀ u ∈ us, refs.Expects repo u) : refs.cas repo us = none := if_neg h

theorem Implements.of_expects {σ ε : Type} {represents : σ → RefMap ρ → Prop} {s : σ}
    {run : σ × Except ε Unit}
    (hyes : (∀ u ∈ us, refs.Expects repo u) → run.2 = .ok () ∧ represents run.1 (refs.applyAll repo us))
    (hno : (¬ ∀ u ∈ us, refs.Expects repo u) → (∃ e, run.2 = .error e) ∧ run.1 = s) :
    Implements represents refs repo us s run := by
  by_cases hall : ∀ u ∈ us, refs.Expects repo u
  · refine ⟨fun refs' hcas => ?_, fun hcas => ?_⟩
    · rw [cas_of_expects hall] at hcas
      exact Option.some.inj hcas ▸ hyes hall
    · rw [cas_of_expects hall] at hcas
      simp at hcas
  · refine ⟨fun refs' hcas => ?_, fun _ => hno hall⟩
    rw [cas_of_not_expects hall] at hcas
    simp at hcas

theorem applyAll_of_notMem (repo : ρ) (refs : RefMap ρ) (us : List RefUpdate) {r : ρ} {n : String}
    (h : ∀ u ∈ us, ¬ (r = repo ∧ n = u.refname)) : refs.applyAll repo us r n = refs r n := by
  induction us generalizing refs with
  | nil => rfl
  | cons u us ih =>
    have hrest := ih (refs.apply repo u) (fun v hv => h v (List.mem_cons_of_mem _ hv))
    exact hrest.trans (set_ne refs _ (h u List.mem_cons_self))

theorem expects_apply_of_ne {u v : RefUpdate} (h : v.refname ≠ u.refname) :
    (refs.apply repo u).Expects repo v ↔ refs.Expects repo v := by
  rw [Expects, apply, set_ne _ _ fun hsame => h hsame.2, Expects]

theorem applyAll_of_mem (repo : ρ) (refs : RefMap ρ) (hnames : (us.map (·.refname)).Nodup)
    {u : RefUpdate} (hu : u ∈ us) :
    refs.applyAll repo us repo u.refname = RefUpdate.value u.newOid := by
  induction us generalizing refs with
  | nil => exact absurd hu List.not_mem_nil
  | cons v us ih =>
    rw [List.map_cons, List.nodup_cons] at hnames
    rcases List.mem_cons.mp hu with rfl | hu
    · have hfresh : ∀ w ∈ us, ¬ (repo = repo ∧ u.refname = w.refname) := by
        rintro w hw ⟨-, heq⟩
        exact hnames.1 (heq ▸ List.mem_map_of_mem hw)
      have hrest := applyAll_of_notMem repo (refs.apply repo u) us hfresh
      exact hrest.trans (set_self ..)
    · exact ih (refs.apply repo v) hnames.2 hu

/-! ### Batches that name a ref more than once -/

def NonNull (refs : RefMap ρ) : Prop := ∀ repo name, refs repo name ≠ some .null

theorem NonNull.applyAll (h : refs.NonNull) (repo : ρ) (us : List RefUpdate) :
    (refs.applyAll repo us).NonNull := by
  induction us generalizing refs with
  | nil => exact h
  | cons u us ih =>
    have hone : (refs.apply repo u).NonNull := by
      intro r n
      by_cases hsame : r = repo ∧ n = u.refname
      · obtain ⟨rfl, rfl⟩ := hsame
        rw [apply, set_self]
        by_cases hnew : u.newOid = .null
        · simp [hnew]
        · simpa [RefUpdate.value_of_ne hnew] using hnew
      · rw [apply, set_ne _ _ hsame]
        exact h r n
    exact ih hone

/-- Every command of the batch found the value it expects, in the map `refs₀` before the batch or in
the map that the commands before it left. -/
def Follows (repo : ρ) (refs₀ : RefMap ρ) : RefMap ρ → List RefUpdate → Prop
  | _, [] => True
  | refs, u :: us => (refs₀.Expects repo u ∨ refs.Expects repo u) ∧ Follows repo refs₀ (refs.apply repo u) us

/-- If every command for a ref either creates it or moves it along `P`, a batch that went through
has moved an existing ref along `P`, whatever the batch does to other refs and however often it
names this one. -/
theorem Follows.moves_along {P : ObjectId → ObjectId → Prop}
    (htrans : ∀ {a b c}, P a b → P b c → P a c) {name : String} {refs₀ refs : RefMap ρ}
    {A X : ObjectId} (hA : refs₀ repo name = some A) (hX : refs repo name = some X) (hAA : P A A)
    (hAX : P A X)
    (hsafe : ∀ u ∈ us, u.refname = name → u.oldOid = .null ∨ u.newOid ≠ .null ∧ P u.oldOid u.newOid)
    (hfollows : Follows repo refs₀ refs us) :
    ∃ B, refs.applyAll repo us repo name = some B ∧ P A B := by
  induction us generalizing refs X with
  | nil => exact ⟨X, hX, hAX⟩
  | cons u us ih =>
    obtain ⟨hexp, hrest⟩ := hfollows
    have hsafe' := fun v hv => hsafe v (List.mem_cons_of_mem _ hv)
    by_cases hname : u.refname = name
    · subst hname
      rcases hsafe u List.mem_cons_self rfl with hold | ⟨hnew, hmove⟩
      · -- a creation expects that there is no ref
        simp [Expects, hA, hX, hold] at hexp
      · have hnext : refs.apply repo u repo u.refname = some u.newOid := by
          rw [apply, set_self, RefUpdate.value_of_ne hnew]
        by_cases hold : u.oldOid = .null
        · simp [Expects, hA, hX, hold] at hexp
        · have hfrom : P A u.oldOid := by
            rcases hexp with hexp | hexp
            · rw [Expects, hA, RefUpdate.value_of_ne hold] at hexp
              exact Option.some.inj hexp ▸ hAA
            · rw [Expects, hX, RefUpdate.value_of_ne hold] at hexp
              exact Option.some.inj hexp ▸ hAX
          exact ih hnext (htrans hfrom hmove) hsafe' hrest
    · have hnext : refs.apply repo u repo name = some X := by
        rw [apply, set_ne _ _ fun hsame => hname hsame.2.symm, hX]
      exact ih hnext hAX hsafe' hrest

/-- Every command is acceptable to the map that the commands before it left. -/
def InTurn (accepts : RefMap ρ → RefUpdate → Prop) (repo : ρ) : RefMap ρ → List RefUpdate → Prop
  | _, [] => True
  | refs, u :: us => accepts refs u ∧ InTurn accepts repo (refs.apply repo u) us

theorem exists_last_command {n : String} (hnamed : ∃ u ∈ us, u.refname = n) :
    ∃ before u after, us = before ++ u :: after ∧ u.refname = n ∧ ∀ v ∈ after,
      v.refname ≠ u.refname := by
  induction us with
  | nil => simp at hnamed
  | cons w us ih =>
    by_cases hlater : ∃ u ∈ us, u.refname = n
    · obtain ⟨before, u, after, rfl, hname, hlast⟩ := ih hlater
      exact ⟨w :: before, u, after, rfl, hname, hlast⟩
    · obtain ⟨u, hu, hname⟩ := hnamed
      rcases List.mem_cons.mp hu with rfl | hu
      · exact ⟨[], u, us, rfl, hname, fun v hv heq => hlater ⟨v, hv, heq.trans hname⟩⟩
      · exact absurd ⟨u, hu, hname⟩ hlater

theorem applyAll_last (repo : ρ) (refs : RefMap ρ) (before : List RefUpdate) {u : RefUpdate}
    {after : List RefUpdate} (hlast : ∀ v ∈ after, v.refname ≠ u.refname) :
    refs.applyAll repo (before ++ u :: after) repo u.refname = RefUpdate.value u.newOid := by
  rw [applyAll, List.foldl_append, List.foldl_cons]
  have hrest := applyAll_of_notMem repo ((refs.applyAll repo before).apply repo u) after (n := u.refname) (r := repo)
    fun v hv heq => hlast v hv heq.2.symm
  exact hrest.trans (set_self ..)

theorem applyAll_forall_iff {P : ObjectId → Prop} (h : ∀ n oid, refs repo n = some oid → P oid)
    (us : List RefUpdate) : (∀ n oid, refs.applyAll repo us repo n = some oid → P oid) ↔
      ∀ before u after, us = before ++ u :: after → (∀ v ∈ after, v.refname ≠ u.refname) →
        u.newOid = .null ∨ P u.newOid := by
  constructor
  · rintro hall before u after rfl hlast
    by_cases hnull : u.newOid = .null
    · exact Or.inl hnull
    · refine Or.inr (hall u.refname u.newOid ?_)
      rw [applyAll_last repo refs before hlast, RefUpdate.value_of_ne hnull]
  · intro hlasts n oid hvalue
    by_cases hnamed : ∃ u ∈ us, u.refname = n
    · obtain ⟨before, u, after, rfl, rfl, hlast⟩ := exists_last_command hnamed
      rw [applyAll_last repo refs before hlast] at hvalue
      rcases hlasts before u after rfl hlast with hnull | hP
      · simp [hnull] at hvalue
      · have hne : u.newOid ≠ .null := by
          rintro hnull
          simp [hnull] at hvalue
        rw [RefUpdate.value_of_ne hne] at hvalue
        exact Option.some.inj hvalue ▸ hP
    · rw [applyAll_of_notMem repo refs us fun u hu heq => hnamed ⟨u, hu, heq.2.symm⟩] at hvalue
      exact h n oid hvalue

end RefMap

theorem RefUpdate.value_injective {a b : ObjectId} (h : RefUpdate.value a = RefUpdate.value b) :
    a = b := by
  by_cases ha : a = .null <;> by_cases hb : b = .null
  · rw [ha, hb]
  · rw [ha, value_null, value_of_ne hb] at h
    exact absurd h.symm (by simp)
  · rw [hb, value_null, value_of_ne ha] at h
    exact absurd h (by simp)
  · rw [value_of_ne ha, value_of_ne hb] at h
    exact Option.some.inj h

theorem RefMap.applyAll_all_iff {ρ : Type} [DecidableEq ρ] (repo : ρ) (refs : RefMap ρ)
    (us : List RefUpdate) :
    (∀ u ∈ us, refs.applyAll repo us repo u.refname = RefUpdate.value u.newOid) ↔
      ∀ u ∈ us, ∀ v ∈ us, u.refname = v.refname → u.newOid = v.newOid := by
  constructor
  · intro h u hu v hv hname
    have hvalue := h u hu
    rw [hname, h v hv] at hvalue
    exact RefUpdate.value_injective hvalue.symm
  · intro h u hu
    obtain ⟨before, v, after, rfl, hname, hlast⟩ := exists_last_command ⟨u, hu, rfl⟩
    rw [← hname, applyAll_last repo refs before hlast, h v (by simp) u hu hname]

end Mizzle
