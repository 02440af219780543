import Mathlib

/-!
# Pessimistic transactions

A transaction program is a list of accesses. An access locks a key, reads it, and from the value
read either fails or buffers a write of the same key; a program that gets through all its accesses
commits its buffer. `runAtomic` runs a program alone. `step` interleaves any number of programs: a
lock is taken when it is free or already held by the same program, and everything a program holds is
released only by its commit, its rollback or its abort.

Since locks are held to the end, whatever a program has read is still in the store when it commits.
That is the invariant (`Inv`): re-running the finished accesses of a live program against the
present store gives its buffer. So the store is always the one obtained by running the committed
programs alone, in commit order, with every one of them succeeding (`run_serial`).
-/

set_option linter.unusedSectionVars false

namespace Mizzle.Lib.Lock

/-- A store of optional values under keys; writing `none` removes the key. -/
class KeyStore (σ : Type*) (κ ν : outParam (Type*)) where
  get : σ → κ → Option ν
  set : σ → κ → Option ν → σ
  get_set_self : ∀ s k v, get (set s k v) k = v
  get_set_ne : ∀ s k v k', k' ≠ k → get (set s k v) k' = get s k'

open KeyStore

/-- What a locking read answers for a key that the transaction itself has written: the latest
committed value or the buffered one. -/
inductive LockRead where
  | committed
  | buffered
deriving DecidableEq

/-- One access: the key, and what to do with the value read. -/
structure Access (κ ν ε : Type*) where
  key : κ
  act : Option ν → Except ε (Option ν)

variable {σ κ ν ε ι : Type*} [KeyStore σ κ ν]

/-! ### Running alone -/

/-- The store after a buffer of writes, oldest first. -/
def applyWrites (s : σ) (writes : List (κ × Option ν)) : σ :=
  writes.foldl (fun s w => set s w.1 w.2) s

theorem get_applyWrites_of_notMem (s : σ) (writes : List (κ × Option ν)) (k : κ)
    (h : ∀ w ∈ writes, w.1 ≠ k) : get (applyWrites s writes) k = get s k := by
  induction writes generalizing s with
  | nil => rfl
  | cons w ws ih =>
    have hrest := ih (set s w.1 w.2) (fun x hx => h x (List.mem_cons_of_mem _ hx))
    have hne : k ≠ w.1 := fun heq => h w List.mem_cons_self heq.symm
    exact hrest.trans (get_set_ne s w.1 w.2 k hne)

variable {k : κ} {writes : List (κ × Option ν)}

theorem get_applyWrites_congr {s s' : σ} (h : get s k = get s' k) (writes : List (κ × Option ν)) :
    get (applyWrites s writes) k = get (applyWrites s' writes) k := by
  induction writes generalizing s s' with
  | nil => exact h
  | cons w ws ih =>
    refine ih ?_
    by_cases hk : k = w.1
    · subst hk
      rw [get_set_self, get_set_self]
    · rw [get_set_ne _ _ _ _ hk, get_set_ne _ _ _ _ hk, h]

theorem exists_last_write (s : σ) (h : ∃ w ∈ writes, w.1 = k) :
    ∃ before v after, writes = before ++ (k, v) :: after ∧ (∀ w ∈ after, w.1 ≠ k) ∧
      get (applyWrites s writes) k = v := by
  induction writes generalizing s with
  | nil =>
    obtain ⟨w, hw, -⟩ := h
    exact absurd hw List.not_mem_nil
  | cons w ws ih =>
    by_cases hlater : ∃ w' ∈ ws, w'.1 = k
    · obtain ⟨before, v, after, rfl, hafter, hget⟩ := ih (set s w.1 w.2) hlater
      exact ⟨w :: before, v, after, rfl, hafter, hget⟩
    · obtain ⟨w', hw', hkey⟩ := h
      obtain rfl : w' = w := (List.mem_cons.mp hw').resolve_right fun hmem => hlater ⟨w', hmem, hkey⟩
      push Not at hlater
      refine ⟨[], w'.2, ws, by rw [← hkey]; rfl, hlater, ?_⟩
      rw [applyWrites, List.foldl_cons, ← hkey]
      exact (get_applyWrites_of_notMem _ ws w'.1 fun x hx => hkey ▸ hlater x hx).trans (get_set_self ..)

theorem get_applyWrites_of_mem (s s' : σ) (h : ∃ w ∈ writes, w.1 = k) :
    get (applyWrites s writes) k = get (applyWrites s' writes) k := by
  obtain ⟨w, hw, rfl⟩ := h
  obtain ⟨before, after, rfl⟩ := List.append_of_mem hw
  rw [applyWrites, applyWrites, List.foldl_append, List.foldl_append, List.foldl_cons, List.foldl_cons]
  exact get_applyWrites_congr ((get_set_self ..).trans (get_set_self ..).symm) after

def lockRead (mode : LockRead) (s : σ) (writes : List (κ × Option ν)) (k : κ) : Option ν :=
  match mode with
  | .committed => get s k
  | .buffered => get (applyWrites s writes) k

theorem lockRead_congr {s s' : σ} (mode : LockRead) (h : get s k = get s' k)
    (writes : List (κ × Option ν)) : lockRead mode s writes k = lockRead mode s' writes k := by
  cases mode with
  | committed => exact h
  | buffered => exact get_applyWrites_congr h writes

theorem lockRead_of_notMem (mode : LockRead) (s : σ) (writes : List (κ × Option ν)) (k : κ)
    (h : ∀ w ∈ writes, w.1 ≠ k) : lockRead mode s writes k = get s k := by
  cases mode with
  | committed => rfl
  | buffered => exact get_applyWrites_of_notMem s writes k h

/-- The accesses one after the other, with the store fixed, extending the buffer. -/
def runBody (mode : LockRead) (s : σ) : List (Access κ ν ε) → List (κ × Option ν) →
    Except ε (List (κ × Option ν))
  | [], writes => .ok writes
  | a :: rest, writes =>
    match a.act (lockRead mode s writes a.key) with
    | .error e => .error e
    | .ok v => runBody mode s rest (writes ++ [(a.key, v)])

/-- Body, then commit of the buffer or rollback. -/
def runAtomic (mode : LockRead) (s : σ) (prog : List (Access κ ν ε)) : σ × Except ε Unit :=
  match runBody mode s prog [] with
  | .ok writes => (applyWrites s writes, .ok ())
  | .error e => (s, .error e)

theorem runBody_append (mode : LockRead) (s : σ) (as bs : List (Access κ ν ε))
    (writes : List (κ × Option ν)) :
    runBody mode s (as ++ bs) writes = (runBody mode s as writes).bind (runBody mode s bs) := by
  induction as generalizing writes with
  | nil => rfl
  | cons a as ih =>
    rw [List.cons_append, runBody, runBody]
    split
    · rfl
    · exact ih _

theorem runBody_congr {s s' : σ} (mode : LockRead) (as : List (Access κ ν ε))
    (writes : List (κ × Option ν)) (h : ∀ a ∈ as, get s a.key = get s' a.key) :
    runBody mode s as writes = runBody mode s' as writes := by
  induction as generalizing writes with
  | nil => rfl
  | cons a as ih =>
    have hread := lockRead_congr mode (h a List.mem_cons_self) writes
    rw [runBody, runBody, hread]
    split
    · rfl
    · exact ih _ (fun b hb => h b (List.mem_cons_of_mem _ hb))

theorem runBody_keys {s : σ} {mode : LockRead} {as : List (Access κ ν ε)}
    {writes writes' : List (κ × Option ν)} (h : runBody mode s as writes = .ok writes') :
    ∀ w ∈ writes', w ∈ writes ∨ ∃ a ∈ as, a.key = w.1 := by
  induction as generalizing writes with
  | nil =>
    intro w hw
    rw [runBody, Except.ok.injEq] at h
    exact Or.inl (h ▸ hw)
  | cons a as ih =>
    intro w hw
    rw [runBody] at h
    split at h
    · simp at h
    · rcases ih h w hw with hmem | ⟨b, hb, hkey⟩
      · rcases List.mem_append.mp hmem with hmem | hmem
        · exact Or.inl hmem
        · rw [List.mem_singleton] at hmem
          exact Or.inr ⟨a, List.mem_cons_self, by rw [hmem]⟩
      · exact Or.inr ⟨b, List.mem_cons_of_mem _ hb, hkey⟩

theorem runAtomic_of_body {mode : LockRead} {s : σ} {prog : List (Access κ ν ε)}
    (h : runBody mode s prog [] = .ok writes) :
    runAtomic mode s prog = (applyWrites s writes, .ok ()) := by
  rw [runAtomic, h]

/-- Programs one after the other, each of which has to succeed. -/
def runSerial (mode : LockRead) (prog : ι → List (Access κ ν ε)) (s : σ) : List ι → Option σ
  | [] => some s
  | i :: rest =>
    match runAtomic mode s (prog i) with
    | (s', .ok ()) => runSerial mode prog s' rest
    | (_, .error _) => none

theorem runSerial_append (mode : LockRead) (prog : ι → List (Access κ ν ε)) (s : σ)
    (is js : List ι) :
    runSerial mode prog s (is ++ js) =
      (runSerial mode prog s is).bind (runSerial mode prog · js) := by
  induction is generalizing s with
  | nil => rfl
  | cons i is ih =>
    rw [List.cons_append, runSerial, runSerial]
    split
    · exact ih _
    · rfl

/-! ### Interleaved runs -/

/-- Where a program is: about to lock its next key, holding the value it has read, stopped by a
failed check, or returned. -/
inductive Phase (ν ε : Type*) where
  | ready
  | locked (v : Option ν)
  | failed (e : ε)
  | returned (r : Except ε Unit)

structure Client (κ ν ε : Type*) where
  todo : List (Access κ ν ε)
  writes : List (κ × Option ν)
  phase : Phase ν ε

/-- The committed store, the lock table, the programs' local states and, as a ghost, the commit
order. -/
structure State (σ κ ν ε ι : Type*) where
  store : σ
  holder : κ → Option ι
  client : ι → Client κ ν ε
  log : List ι

/-- What a program does next. An abort stands for any request that fails. -/
inductive Action (ε : Type*) where
  | lock
  | write
  | commit
  | rollback
  | abort (e : ε)

variable [DecidableEq κ] [DecidableEq ι]

/-- Nothing is locked and no program has done anything. -/
def State.init (s : σ) (prog : ι → List (Access κ ν ε)) : State σ κ ν ε ι where
  store := s
  holder := fun _ => none
  client := fun i => ⟨prog i, [], .ready⟩
  log := []

/-- The lock table without the locks of `i`. -/
def release (holder : κ → Option ι) (i : ι) : κ → Option ι :=
  fun k => if holder k = some i then none else holder k

def State.setClient (s : State σ κ ν ε ι) (i : ι) (c : Client κ ν ε) : State σ κ ν ε ι :=
  { s with client := Function.update s.client i c }

/-- Program `i` ends without a commit. -/
def State.giveUp (s : State σ κ ν ε ι) (i : ι) (e : ε) : State σ κ ν ε ι :=
  { s.setClient i { s.client i with phase := .returned (.error e) } with holder := release s.holder i }

def step (mode : LockRead) (s : State σ κ ν ε ι) (i : ι) : Action ε → Option (State σ κ ν ε ι)
  | .lock =>
    match (s.client i).phase, (s.client i).todo with
    | .ready, a :: _ =>
      -- a key that another program holds is waited for
      if s.holder a.key = none ∨ s.holder a.key = some i then
        some { s.setClient i { s.client i with
                phase := .locked (lockRead mode s.store (s.client i).writes a.key) } with
          holder := Function.update s.holder a.key (some i) }
      else none
    | _, _ => none
  | .write =>
    match (s.client i).phase, (s.client i).todo with
    | .locked v, a :: rest =>
      match a.act v with
      | .ok w => some (s.setClient i ⟨rest, (s.client i).writes ++ [(a.key, w)], .ready⟩)
      | .error e => some (s.setClient i { s.client i with phase := .failed e })
    | _, _ => none
  | .commit =>
    match (s.client i).phase, (s.client i).todo with
    | .ready, [] =>
      some { s.setClient i { s.client i with phase := .returned (.ok ()) } with
        store := applyWrites s.store (s.client i).writes
        holder := release s.holder i
        log := s.log ++ [i] }
    | _, _ => none
  | .rollback =>
    match (s.client i).phase with
    | .failed e => some (s.giveUp i e)
    | _ => none
  | .abort e =>
    match (s.client i).phase with
    | .returned _ => none
    | _ => some (s.giveUp i e)

/-- A schedule names the program that moves and what it does. -/
def run (mode : LockRead) (s : State σ κ ν ε ι) : List (ι × Action ε) → Option (State σ κ ν ε ι)
  | [] => some s
  | (i, act) :: rest => (step mode s i act).bind (run mode · rest)

/-! ### What a step can do -/

theorem step_lock {mode : LockRead} {s s' : State σ κ ν ε ι} {i : ι}
    (h : step mode s i .lock = some s') :
    ∃ a rest, (s.client i).phase = .ready ∧ (s.client i).todo = a :: rest ∧
      (s.holder a.key = none ∨ s.holder a.key = some i) ∧
      s' = { s.setClient i { s.client i with
              phase := .locked (lockRead mode s.store (s.client i).writes a.key) } with
        holder := Function.update s.holder a.key (some i) } := by
  rw [step] at h
  split at h
  · rename_i a rest hphase htodo
    split at h
    · rename_i hfree
      exact ⟨a, rest, hphase, htodo, hfree, (Option.some.inj h).symm⟩
    · simp at h
  · simp at h

theorem step_write {mode : LockRead} {s s' : State σ κ ν ε ι} {i : ι}
    (h : step mode s i .write = some s') :
    ∃ v a rest, (s.client i).phase = .locked v ∧ (s.client i).todo = a :: rest ∧
      ((∃ w, a.act v = .ok w ∧
          s' = s.setClient i ⟨rest, (s.client i).writes ++ [(a.key, w)], .ready⟩) ∨
        ∃ e, s' = s.setClient i { s.client i with phase := .failed e }) := by
  rw [step] at h
  split at h
  · rename_i v a rest hphase htodo
    refine ⟨v, a, rest, hphase, htodo, ?_⟩
    split at h
    · rename_i w hact
      exact Or.inl ⟨w, hact, (Option.some.inj h).symm⟩
    · rename_i e hact
      exact Or.inr ⟨e, (Option.some.inj h).symm⟩
  · simp at h

theorem step_commit {mode : LockRead} {s s' : State σ κ ν ε ι} {i : ι}
    (h : step mode s i .commit = some s') :
    (s.client i).phase = .ready ∧ (s.client i).todo = [] ∧
      s' = { s.setClient i { s.client i with phase := .returned (.ok ()) } with
        store := applyWrites s.store (s.client i).writes
        holder := release s.holder i
        log := s.log ++ [i] } := by
  rw [step] at h
  split at h
  · rename_i hphase htodo
    exact ⟨hphase, htodo, (Option.some.inj h).symm⟩
  · simp at h

theorem step_giveUp {mode : LockRead} {s s' : State σ κ ν ε ι} {i : ι} {act : Action ε}
    (hact : act = .rollback ∨ ∃ e, act = .abort e) (h : step mode s i act = some s') :
    (∀ r, (s.client i).phase ≠ .returned r) ∧ ∃ e, s' = s.giveUp i e := by
  rcases hact with rfl | ⟨e, rfl⟩
  · rw [step] at h
    split at h
    · rename_i e hphase
      exact ⟨fun r hr => by simp [hphase] at hr, e, (Option.some.inj h).symm⟩
    · simp at h
  · rw [step] at h
    split at h
    · simp at h
    · rename_i hphase
      exact ⟨hphase, e, (Option.some.inj h).symm⟩

/-! ### The invariant -/

/-- The finished accesses of a live program, re-run against the present store, give its buffer, and
all their keys are locked by it. -/
def Held (mode : LockRead) (prog : ι → List (Access κ ν ε)) (s : State σ κ ν ε ι) (i : ι) : Prop :=
  ∃ done, prog i = done ++ (s.client i).todo ∧
    runBody mode s.store done [] = .ok (s.client i).writes ∧ ∀ a ∈ done, s.holder a.key = some i

/-- What holds of a program in each phase. -/
def ClientInv (mode : LockRead) (prog : ι → List (Access κ ν ε)) (s : State σ κ ν ε ι) (i : ι) :
    Prop :=
  match (s.client i).phase with
  | .ready => Held mode prog s i
  | .locked v => Held mode prog s i ∧ ∀ a rest, (s.client i).todo = a :: rest →
      s.holder a.key = some i ∧ v = lockRead mode s.store (s.client i).writes a.key
  | .failed _ => True
  | .returned _ => True

structure Inv (mode : LockRead) (prog : ι → List (Access κ ν ε)) (s₀ : σ) (s : State σ κ ν ε ι) :
    Prop where
  serial : runSerial mode prog s₀ s.log = some s.store
  clients : ∀ i, ClientInv mode prog s i
  logged : ∀ i, i ∈ s.log ↔ (s.client i).phase = .returned (.ok ())
  nodup : s.log.Nodup

section Invariant

variable {mode : LockRead} {prog : ι → List (Access κ ν ε)} {s₀ : σ} {s s' : State σ κ ν ε ι} {i j : ι}

theorem inv_init (s₀ : σ) : Inv mode prog s₀ (State.init s₀ prog : State σ κ ν ε ι) where
  serial := rfl
  clients := fun i => ⟨[], rfl, rfl, fun a ha => absurd ha List.not_mem_nil⟩
  logged := fun i => by simp [State.init]
  nodup := List.nodup_nil

theorem clientInv_frame (h : ClientInv mode prog s j) (hclient : s'.client j = s.client j)
    (hkeys : ∀ k, s.holder k = some j → s'.holder k = some j ∧ get s'.store k = get s.store k) :
    ClientInv mode prog s' j := by
  have hheld : Held mode prog s j → Held mode prog s' j := by
    rintro ⟨done, hprog, hrun, hlocks⟩
    refine ⟨done, by rw [hclient]; exact hprog, ?_, fun a ha => (hkeys _ (hlocks a ha)).1⟩
    rw [hclient, ← hrun]
    exact runBody_congr mode done [] (fun a ha => (hkeys _ (hlocks a ha)).2)
  rw [ClientInv] at h ⊢
  rw [hclient]
  cases hphase : (s.client j).phase with
  | ready =>
    rw [hphase] at h
    exact hheld h
  | locked v =>
    rw [hphase] at h
    refine ⟨hheld h.1, fun a rest htodo => ?_⟩
    obtain ⟨hlock, hv⟩ := h.2 a rest htodo
    obtain ⟨hlock', hget⟩ := hkeys _ hlock
    exact ⟨hlock', hv.trans (lockRead_congr mode hget.symm _)⟩
  | failed e => trivial
  | returned r => trivial

theorem setClient_ne (c : Client κ ν ε) (hne : j ≠ i) : (s.setClient i c).client j = s.client j :=
  Function.update_of_ne hne ..

theorem release_ne {holder : κ → Option ι} (hne : j ≠ i) (h : holder k = some j) :
    release holder i k = some j := by
  rw [release, if_neg (by rw [h]; exact fun heq => hne (Option.some.inj heq)), h]

theorem logged_of_step (h : Inv mode prog s₀ s) (hlog : s'.log = s.log)
    (hother : ∀ j, j ≠ i → s'.client j = s.client j)
    (hbefore : (s.client i).phase ≠ .returned (.ok ()))
    (hafter : (s'.client i).phase ≠ .returned (.ok ())) :
    ∀ j, j ∈ s'.log ↔ (s'.client j).phase = .returned (.ok ()) := by
  intro j
  rw [hlog, h.logged j]
  by_cases hji : j = i
  · subst hji
    exact ⟨fun hp => absurd hp hbefore, fun hp => absurd hp hafter⟩
  · rw [hother j hji]

theorem inv_giveUp (h : Inv mode prog s₀ s) (hlive : ∀ r, (s.client i).phase ≠ .returned r)
    (e : ε) : Inv mode prog s₀ (s.giveUp i e) where
  serial := h.serial
  clients := fun j => by
    by_cases hji : j = i
    · subst hji
      rw [ClientInv]
      simp only [State.giveUp, State.setClient, Function.update_self]
    · refine clientInv_frame (h.clients j) (setClient_ne _ hji) (fun k hk => ⟨?_, rfl⟩)
      exact release_ne hji hk
  logged := logged_of_step h rfl (fun j hji => setClient_ne _ hji) (hlive _)
    (by simp [State.giveUp, State.setClient])
  nodup := h.nodup

theorem inv_lock (h : Inv mode prog s₀ s) (hstep : step mode s i .lock = some s') :
    Inv mode prog s₀ s' := by
  obtain ⟨a, rest, hphase, htodo, hfree, rfl⟩ := step_lock hstep
  have hheld : Held mode prog s i := by
    have hi := h.clients i
    rwa [ClientInv, hphase] at hi
  refine ⟨h.serial, fun j => ?_, ?_, h.nodup⟩
  · by_cases hji : j = i
    · subst hji
      rw [ClientInv]
      simp only [State.setClient, Function.update_self]
      refine ⟨?_, fun b rest' htodo' => ?_⟩
      · obtain ⟨done, hprog, hrun, hlocks⟩ := hheld
        refine ⟨done, by simpa [Held] using hprog, by simpa using hrun, fun b hb => ?_⟩
        by_cases hkey : b.key = a.key
        · simp only [hkey, Function.update_self]
        · simp only [Function.update_of_ne hkey]
          exact hlocks b hb
      · rw [htodo, List.cons.injEq] at htodo'
        obtain ⟨rfl, -⟩ := htodo'
        exact ⟨Function.update_self .., rfl⟩
    · refine clientInv_frame (h.clients j) (setClient_ne _ hji) (fun k hk => ⟨?_, rfl⟩)
      -- the key just locked was not held by `j`
      have hne : k ≠ a.key := by
        rintro rfl
        rcases hfree with hnone | hself
        · rw [hk] at hnone
          exact absurd hnone (by simp)
        · rw [hk] at hself
          exact hji (Option.some.inj hself)
      simp only [Function.update_of_ne hne]
      exact hk
  · exact logged_of_step h rfl (fun j hji => setClient_ne _ hji) (by simp [hphase])
      (by simp [State.setClient])

theorem inv_write (h : Inv mode prog s₀ s) (hstep : step mode s i .write = some s') :
    Inv mode prog s₀ s' := by
  obtain ⟨v, a, rest, hphase, htodo, hcase⟩ := step_write hstep
  have hi := h.clients i
  rw [ClientInv, hphase] at hi
  obtain ⟨⟨done, hprog, hrun, hlocks⟩, hlocked⟩ := hi
  obtain ⟨hlock, hv⟩ := hlocked a rest htodo
  rcases hcase with ⟨w, hact, rfl⟩ | ⟨e, rfl⟩
  · refine ⟨h.serial, fun j => ?_, ?_, h.nodup⟩
    · by_cases hji : j = i
      · subst hji
        rw [ClientInv]
        simp only [State.setClient, Function.update_self]
        refine ⟨done ++ [a], ?_, ?_, fun b hb => ?_⟩
        · simp only [Function.update_self, List.append_assoc, List.singleton_append]
          rw [hprog, htodo]
        · rw [runBody_append, hrun]
          simp only [Except.bind, runBody, ← hv, hact, Function.update_self]
        · rcases List.mem_append.mp hb with hb | hb
          · exact hlocks b hb
          · rw [List.mem_singleton] at hb
            rw [hb]
            exact hlock
      · exact clientInv_frame (h.clients j) (setClient_ne _ hji) (fun k hk => ⟨hk, rfl⟩)
    · exact logged_of_step h rfl (fun j hji => setClient_ne _ hji) (by simp [hphase])
        (by simp [State.setClient])
  · refine ⟨h.serial, fun j => ?_, ?_, h.nodup⟩
    · by_cases hji : j = i
      · subst hji
        rw [ClientInv]
        simp only [State.setClient, Function.update_self]
      · exact clientInv_frame (h.clients j) (setClient_ne _ hji) (fun k hk => ⟨hk, rfl⟩)
    · exact logged_of_step h rfl (fun j hji => setClient_ne _ hji) (by simp [hphase])
        (by simp [State.setClient])

theorem inv_commit (h : Inv mode prog s₀ s) (hstep : step mode s i .commit = some s') :
    Inv mode prog s₀ s' := by
  obtain ⟨hphase, htodo, rfl⟩ := step_commit hstep
  have hi := h.clients i
  rw [ClientInv, hphase] at hi
  obtain ⟨done, hprog, hrun, hlocks⟩ := hi
  rw [htodo, List.append_nil] at hprog
  subst hprog
  have hnew : i ∉ s.log := fun hmem => by simp [(h.logged i).mp hmem] at hphase
  refine ⟨?_, fun j => ?_, fun j => ?_, ?_⟩
  · -- the whole program, run alone against the store it commits to, gives the same buffer
    show runSerial mode prog s₀ (s.log ++ [i]) = some (applyWrites s.store (s.client i).writes)
    rw [runSerial_append, h.serial, Option.bind_some, runSerial, runAtomic_of_body hrun]
    rfl
  · by_cases hji : j = i
    · subst hji
      rw [ClientInv]
      simp only [State.setClient, Function.update_self]
    · refine clientInv_frame (h.clients j) (setClient_ne _ hji) (fun k hk => ⟨release_ne hji hk, ?_⟩)
      -- every write of `i` is under a key that `i` holds, and `j` holds `k`
      refine get_applyWrites_of_notMem _ _ _ (fun w hw hwk => ?_)
      rcases runBody_keys hrun w hw with hmem | ⟨a, ha, hkey⟩
      · exact List.not_mem_nil hmem
      · have hheld := hlocks a ha
        rw [hkey, hwk, hk] at hheld
        exact hji (Option.some.inj hheld)
  · show j ∈ s.log ++ [i] ↔ _
    rw [List.mem_append, List.mem_singleton]
    by_cases hji : j = i
    · subst hji
      simp [State.setClient]
    · rw [setClient_ne _ hji, ← h.logged j]
      simp [hji]
  · exact List.nodup_append.mpr ⟨h.nodup, List.nodup_singleton i, fun a ha b hb hab => by
      rw [List.mem_singleton] at hb
      exact hnew (hb ▸ hab ▸ ha)⟩

theorem inv_step {act : Action ε} (h : Inv mode prog s₀ s) (hstep : step mode s i act = some s') :
    Inv mode prog s₀ s' := by
  cases act with
  | lock => exact inv_lock h hstep
  | write => exact inv_write h hstep
  | commit => exact inv_commit h hstep
  | rollback =>
    obtain ⟨hlive, e, rfl⟩ := step_giveUp (Or.inl rfl) hstep
    exact inv_giveUp h hlive e
  | abort e =>
    obtain ⟨hlive, e', rfl⟩ := step_giveUp (Or.inr ⟨e, rfl⟩) hstep
    exact inv_giveUp h hlive e'

theorem inv_run {sched : List (ι × Action ε)} (h : Inv mode prog s₀ s)
    (hrun : run mode s sched = some s') : Inv mode prog s₀ s' := by
  induction sched generalizing s with
  | nil =>
    rw [run, Option.some.injEq] at hrun
    exact hrun ▸ h
  | cons x sched ih =>
    rw [run, Option.bind_eq_some_iff] at hrun
    obtain ⟨mid, hstep, hrest⟩ := hrun
    exact ih (inv_step h hstep) hrest

theorem run_serial {sched : List (ι × Action ε)}
    (hrun : run mode (State.init s₀ prog) sched = some s) :
    runSerial mode prog s₀ s.log = some s.store ∧ s.log.Nodup ∧
      ∀ i, i ∈ s.log ↔ (s.client i).phase = .returned (.ok ()) := by
  have h := inv_run (inv_init s₀) hrun
  exact ⟨h.serial, h.nodup, h.logged⟩

end Invariant

end Mizzle.Lib.Lock
