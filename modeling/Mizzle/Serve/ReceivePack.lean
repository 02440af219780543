import Mizzle.Proto.Receive
import Mizzle.Serve.PushRefs

/-!
# Receive-pack runs on a shared store

The push driver of `mizzle/src/serve.rs` (`serve_receive_pack`; `recv_pack_post` runs the same
steps): parse the commands, preliminary authorisation, ingest of the pack, classification of every
command, full authorisation, and the ref transaction. Any number of runs, each with its own access
value, work on one store; `step` moves one of them by one event, and a schedule is a list of such
moves.

The commands, the pack, and what an authoriser sees beyond the commands (the answers of the
comparison's accessors, at whatever moment it asks) come with the events, so they are arbitrary. A
run may also end with an error at any point, and an access of `compute_push_kind` may fail, which
makes the command a forced one on both backends. `rollback_ingest` does nothing on the SQL and KV
backends, so a rejected run only stops.
-/

namespace Mizzle.Serve

/-- What a run calls on its storage backend. `σ` is the stored state of all repositories. The
classification of a command may take several accesses to the store; `Probe` is its state between two
of them. -/
structure PushBackend (σ ρ Probe : Type) where
  /-- `ingest_pack`, for a pack with these objects. -/
  ingest : σ → ρ → List ObjectId → σ
  /-- `compute_push_kind` up to its first access. -/
  startKind : RefUpdate → Probe ⊕ PushKind
  /-- One access of `compute_push_kind`; `none` if it has not returned within the budget. -/
  resumeKind : Nat → σ → ρ → RefUpdate → Probe → Option (Probe ⊕ PushKind)
  /-- `update_refs`: the state afterwards, and whether it returned `Ok`. -/
  updateRefs : σ → ρ → List RefUpdate → σ × Bool

/-- `RepoAccess`: the repository and the two authorisation calls. `Ctx` is the push context, `View`
what the comparison shows besides the commands. -/
structure Access (ρ Ctx View : Type) where
  repoId : ρ
  authorizePreliminary : List PushRef → Except String Ctx
  authorizePush : Ctx → List PushRef → View → Except String Unit

inductive Phase (Probe Ctx : Type) where
  | start
  | parsed (updates : List RefUpdate)
  | admitted (ctx : Ctx) (updates : List RefUpdate)
  /-- The kinds of the first commands are known; `probe` belongs to the next one. -/
  | classifying (ctx : Ctx) (done : List (RefUpdate × PushKind)) (probe : Option Probe) (todo : List RefUpdate)
  | authorized (updates : List RefUpdate)
  | finished (ok : Bool)

inductive Event (View : Type) where
  | parse (updates : List RefUpdate)
  | preliminary
  | ingest (oids : List ObjectId)
  | classify (budget : Nat)
  | accessFails
  | authorize (view : View)
  | updateRefs
  | fail

structure State (σ ι Probe Ctx : Type) where
  store : σ
  phase : ι → Phase Probe Ctx

variable {σ ρ ι Probe Ctx View : Type} [DecidableEq ι]

def State.init (store : σ) : State σ ι Probe Ctx := ⟨store, fun _ => .start⟩

/-- Run `i` enters a phase; the store is as given. -/
def State.move (s : State σ ι Probe Ctx) (i : ι) (store : σ) (phase : Phase Probe Ctx) :
    State σ ι Probe Ctx :=
  ⟨store, Function.update s.phase i phase⟩

/-- The classification of the command `u` goes on, or its kind is known. -/
def classified (ctx : Ctx) (done : List (RefUpdate × PushKind)) (u : RefUpdate)
    (todo : List RefUpdate) : Probe ⊕ PushKind → Phase Probe Ctx
  | .inl probe => .classifying ctx done (some probe) (u :: todo)
  | .inr kind => .classifying ctx (done ++ [(u, kind)]) none todo

def step (b : PushBackend σ ρ Probe) (access : ι → Access ρ Ctx View) (s : State σ ι Probe Ctx)
    (i : ι) : Event View → Option (State σ ι Probe Ctx)
  | .parse updates =>
    match s.phase i with
    | .start => some (s.move i s.store (.parsed updates))
    | _ => none
  | .preliminary =>
    match s.phase i with
    | .parsed updates =>
      match (access i).authorizePreliminary (buildPushRefs Receive.preliminaryPushKind updates) with
      | .ok ctx => some (s.move i s.store (.admitted ctx updates))
      | .error _ => some (s.move i s.store (.finished false))
    | _ => none
  | .ingest oids =>
    match s.phase i with
    | .admitted ctx updates =>
      some (s.move i (b.ingest s.store (access i).repoId oids) (.classifying ctx [] none updates))
    | _ => none
  | .classify budget =>
    match s.phase i with
    | .classifying ctx done none (u :: todo) =>
      some (s.move i s.store (classified ctx done u todo (b.startKind u)))
    | .classifying ctx done (some probe) (u :: todo) =>
      (b.resumeKind budget s.store (access i).repoId u probe).map fun result =>
        s.move i s.store (classified ctx done u todo result)
    | _ => none
  | .accessFails =>
    match s.phase i with
    | .classifying ctx done (some _) (u :: todo) =>
      some (s.move i s.store (classified ctx done u todo (.inr .forcePush)))
    | _ => none
  | .authorize view =>
    match s.phase i with
    | .classifying ctx done none [] =>
      match (access i).authorizePush ctx (done.map fun (u, kind) => pushRef kind u) view with
      | .ok () => some (s.move i s.store (.authorized (done.map (·.1))))
      | .error _ => some (s.move i s.store (.finished false))
    | _ => none
  | .updateRefs =>
    match s.phase i with
    | .authorized updates =>
      let (store, ok) := b.updateRefs s.store (access i).repoId updates
      some (s.move i store (.finished ok))
    | _ => none
  | .fail =>
    match s.phase i with
    | .finished _ => none
    | _ => some (s.move i s.store (.finished false))

def run (b : PushBackend σ ρ Probe) (access : ι → Access ρ Ctx View) (s : State σ ι Probe Ctx) :
    List (ι × Event View) → Option (State σ ι Probe Ctx)
  | [] => some s
  | (i, event) :: rest => (step b access s i event).bind (run b access · rest)

/-! ### What a step can do -/

/-- The moves of run `i`: it enters a phase in which nothing is at stake, ingests, classifies, is
authorised, or carries out its ref transaction. -/
inductive Moves (b : PushBackend σ ρ Probe) (access : ι → Access ρ Ctx View)
    (s : State σ ι Probe Ctx) (i : ι) : State σ ι Probe Ctx → Prop where
  | parsed (updates : List RefUpdate) : Moves b access s i (s.move i s.store (.parsed updates))
  | admitted (ctx : Ctx) (updates : List RefUpdate) : Moves b access s i (s.move i s.store (.admitted ctx updates))
  | stopped : Moves b access s i (s.move i s.store (.finished false))
  | ingested (ctx : Ctx) (updates : List RefUpdate) (oids : List ObjectId) :
      Moves b access s i
        (s.move i (b.ingest s.store (access i).repoId oids) (.classifying ctx [] none updates))
  | started {ctx : Ctx} {done : List (RefUpdate × PushKind)} {u : RefUpdate} {todo : List RefUpdate}
      (hphase : s.phase i = .classifying ctx done none (u :: todo)) :
      Moves b access s i (s.move i s.store (classified ctx done u todo (b.startKind u)))
  | resumed {ctx : Ctx} {done : List (RefUpdate × PushKind)} {probe : Probe} {u : RefUpdate}
      {todo : List RefUpdate} {budget : Nat} {result : Probe ⊕ PushKind}
      (hphase : s.phase i = .classifying ctx done (some probe) (u :: todo))
      (hresult : b.resumeKind budget s.store (access i).repoId u probe = some result) :
      Moves b access s i (s.move i s.store (classified ctx done u todo result))
  | accessFailed {ctx : Ctx} {done : List (RefUpdate × PushKind)} {probe : Probe} {u : RefUpdate}
      {todo : List RefUpdate} (hphase : s.phase i = .classifying ctx done (some probe) (u :: todo)) :
      Moves b access s i (s.move i s.store (classified ctx done u todo (.inr .forcePush)))
  | authorized {ctx : Ctx} {done : List (RefUpdate × PushKind)} {view : View}
      (hphase : s.phase i = .classifying ctx done none [])
      (hok : (access i).authorizePush ctx (done.map fun (u, kind) => pushRef kind u) view = .ok ()) :
      Moves b access s i (s.move i s.store (.authorized (done.map (·.1))))
  | updated {updates : List RefUpdate} (hphase : s.phase i = .authorized updates) :
      Moves b access s i (s.move i (b.updateRefs s.store (access i).repoId updates).1
        (.finished (b.updateRefs s.store (access i).repoId updates).2))

theorem step_moves {b : PushBackend σ ρ Probe} {access : ι → Access ρ Ctx View}
    {s s' : State σ ι Probe Ctx} {i : ι} {event : Event View}
    (h : step b access s i event = some s') : Moves b access s i s' := by
  cases event with
  | parse updates =>
    simp only [step] at h
    split at h
    · exact Option.some.inj h ▸ .parsed updates
    · simp at h
  | preliminary =>
    simp only [step] at h
    split at h
    · split at h
      · exact Option.some.inj h ▸ .admitted _ _
      · exact Option.some.inj h ▸ .stopped
    · simp at h
  | ingest oids =>
    simp only [step] at h
    split at h
    · exact Option.some.inj h ▸ .ingested _ _ oids
    · simp at h
  | classify budget =>
    simp only [step] at h
    split at h
    · rename_i hphase
      exact Option.some.inj h ▸ .started hphase
    · rename_i hphase
      obtain ⟨result, hresult, hs⟩ := Option.map_eq_some_iff.mp h
      exact hs ▸ .resumed hphase hresult
    · simp at h
  | accessFails =>
    simp only [step] at h
    split at h
    · rename_i hphase
      exact Option.some.inj h ▸ .accessFailed hphase
    · simp at h
  | authorize view =>
    simp only [step] at h
    split at h
    · rename_i hphase
      split at h
      · rename_i hok
        exact Option.some.inj h ▸ .authorized hphase hok
      · exact Option.some.inj h ▸ .stopped
    · simp at h
  | updateRefs =>
    simp only [step] at h
    split at h
    · rename_i hphase
      exact Option.some.inj h ▸ .updated hphase
    · simp at h
  | fail =>
    simp only [step] at h
    split at h
    · simp at h
    · exact Option.some.inj h ▸ .stopped

theorem run_invariant {b : PushBackend σ ρ Probe} {access : ι → Access ρ Ctx View}
    {Inv : State σ ι Probe Ctx → Prop} (hstep : ∀ s i s', Inv s → Moves b access s i s' → Inv s')
    {s s' : State σ ι Probe Ctx} {schedule : List (ι × Event View)} (hinv : Inv s)
    (h : run b access s schedule = some s') : Inv s' := by
  induction schedule generalizing s with
  | nil => exact Option.some.inj h ▸ hinv
  | cons move rest ih =>
    obtain ⟨s₁, hone, hrest⟩ := Option.bind_eq_some_iff.mp h
    exact ih (hstep s move.1 s₁ hinv (step_moves hone)) hrest

end Mizzle.Serve
