import Mizzle.Lfs.Store

/-!
# What a failed upload leaves behind

One call of `FsLfs::write`, by itself, with the outcomes of its system calls as its actions. The
temporary file is taken out of the care of `tempfile` as soon as it is there (`keep`), and from then
on only the failed checks remove it. So a call that fails leaves the files as they were exactly if
none of the reads of the body, the writes, the flush and the rename has failed
(`failed_upload_clean_iff`).
-/

namespace Mizzle.Lfs

open Lib

/-- The outcome of a system call that ends the upload with its temporary file in place. -/
def Action.Strands : Action → Prop
  | .readFails | .writeFails _ _ | .flushFails | .renameFails => True
  | _ => False

instance (a : Action) : Decidable a.Strands := by
  unfold Action.Strands
  split <;> infer_instance

variable {ι : Type}

/-- The content of the file with a name. -/
def State.file (s : State ι) (path : Path) : Option Bytes := (s.names path).map s.data

def SameFiles (s s' : State ι) : Prop := ∀ path, s'.file path = s.file path

section Call

variable [DecidableEq ι] (root : Path) (sha256 : Bytes → LfsOid)

/-- A call of process `i`. -/
def call (i : ι) (s : State ι) (actions : List Action) : Option (State ι) :=
  actions.foldlM (fun s action => procStep root sha256 s i action) s

/-- Where a call that has not returned is, compared with the state at its start. -/
inductive InFlight (i : ι) (oid : LfsOid) (s₀ s : State ι) : Prop where
  | before (size : UInt64) (hproc : s.procs i = .requested oid size ∨ s.procs i = .absent oid size)
      (hnames : s.names = s₀.names) (hdata : s.data = s₀.data) (hnext : s.next = s₀.next)
  | writing (size : UInt64) (temp : Temp) (stage : Stage) (hproc : s.procs i = .upload oid size temp stage)
      (hinode : temp.inode = s₀.next) (hfree : s₀.names temp.path = none)
      (hnames : s.names = Function.update s₀.names temp.path (some s₀.next))
      (hdata : ∀ inode < s₀.next, s.data inode = s₀.data inode)

/-- What a step of the call comes to: the call goes on, or returns; if it returns an error, the
files are as they were exactly if the step was no failure that strands the temporary file. -/
inductive Comes (i : ι) (oid : LfsOid) (s₀ s : State ι) (action : Action) : Prop where
  | goesOn (h : InFlight i oid s₀ s) (hquiet : ¬ action.Strands)
  | stored (hproc : s.procs i = .uploaded oid (.ok ()))
  | failed (e : LfsWriteError) (hproc : s.procs i =
    .uploaded oid (.error e)) (hfiles : SameFiles s₀ s ↔ ¬ action.Strands)

variable {root sha256} {i : ι} {oid : LfsOid} {s₀ s s' : State ι}

omit [DecidableEq ι] in
theorem sameFiles_of_data (hused : ∀ path inode, s₀.names path = some inode → inode < s₀.next)
    (hnames : s.names = s₀.names) (hdata : ∀ inode < s₀.next, s.data inode = s₀.data inode) :
    SameFiles s₀ s := by
  intro path
  rw [State.file, State.file, hnames]
  cases hname : s₀.names path with
  | none => rfl
  | some inode => rw [Option.map_some, Option.map_some, hdata inode (hused path inode hname)]

omit [DecidableEq ι] in
theorem not_sameFiles {path : Path} (hfree : s₀.names path = none) (hname : s.names path ≠ none) :
    ¬ SameFiles s₀ s := by
  intro hsame
  obtain ⟨inode, hinode⟩ := Option.ne_none_iff_exists'.mp hname
  have hpath := hsame path
  rw [State.file, State.file, hinode, hfree] at hpath
  simp at hpath

theorem InFlight.step_before {size : UInt64}
    (hproc : s.procs i = .requested oid size ∨ s.procs i = .absent oid size)
    (hnames : s.names = s₀.names) (hdata : s.data = s₀.data) (hnext : s.next = s₀.next)
    (hused : ∀ path inode, s₀.names path = some inode → inode < s₀.next) {action : Action}
    (hfresh : ∀ name, action = .create name → s₀.names (objectDir root oid ++ [name]) = none)
    (hstep : procStep root sha256 s i action = some s') : Comes i oid s₀ s' action := by
  have hself : ∀ p, (s.setProc i p).procs i = p := fun p => Function.update_self ..
  have hgoes : ∀ {action : Action}, ¬ action.Strands → Comes i oid s₀ (s.setProc i (.absent oid size)) action :=
    fun hquiet => .goesOn (.before size (Or.inr (hself _)) hnames hdata hnext) hquiet
  unfold procStep at hstep
  rcases hproc with hproc | hproc
  · rw [hproc] at hstep
    cases action with
    | test =>
      cases hstep
      split
      · exact .stored (hself _)
      · exact hgoes id
    | testFails =>
      cases hstep
      exact hgoes id
    | _ => simp at hstep
  · rw [hproc] at hstep
    cases action with
    | prepareFails =>
      cases hstep
      refine .failed .io (hself _) (iff_of_true (sameFiles_of_data hused hnames fun inode _ => ?_) id)
      exact congrFun hdata inode
    | create name =>
      cases hstep
      refine .goesOn (.writing size _ .receiving (Function.update_self ..) hnext (hfresh name rfl)
        ?_ fun inode hinode => ?_) id
      · rw [← hnames, ← hnext]
        rfl
      · rw [← hdata]
        exact Function.update_of_ne (Nat.ne_of_lt (hnext ▸ hinode)) _ _
    | _ => simp at hstep

theorem InFlight.step_writing {size : UInt64} {temp : Temp} {stage : Stage}
    (hproc : s.procs i = .upload oid size temp stage) (hinode : temp.inode = s₀.next)
    (hfree : s₀.names temp.path = none)
    (hnames : s.names = Function.update s₀.names temp.path (some s₀.next))
    (hdata : ∀ inode < s₀.next, s.data inode = s₀.data inode)
    (hused : ∀ path inode, s₀.names path = some inode → inode < s₀.next) {action : Action}
    (hremove : action ≠ .removeFails) (hstep : procStep root sha256 s i action = some s') :
    Comes i oid s₀ s' action := by
  have hself : ∀ (t : State ι) p, (t.setProc i p).procs i = p := fun t p => Function.update_self ..
  have hgoes : ∀ {action : Action} {stage}, ¬ action.Strands →
      Comes i oid s₀ (s.setProc i (.upload oid size temp stage)) action :=
    fun hquiet => .goesOn (.writing size temp _ (hself _ _) hinode hfree hnames hdata) hquiet
  -- the file is left where it is
  have hleft : ∀ {action : Action} {t : State ι}, action.Strands → t.names = s.names →
      Comes i oid s₀ (t.setProc i (.uploaded oid (.error .io))) action := fun hstrands hsame =>
    .failed .io (hself _ _) (iff_of_false (not_sameFiles hfree (by
      show _ ≠ none
      rw [State.setProc, hsame, hnames, Function.update_self]
      simp)) (not_not.mpr hstrands))
  have happend : ∀ chunk, ∀ inode < s₀.next, (s.append temp.inode chunk).data inode = s₀.data inode :=
    fun chunk inode hlt => (Function.update_of_ne (by omega) _ _).trans (hdata inode hlt)
  unfold procStep at hstep
  rw [hproc] at hstep
  cases stage with
  | receiving =>
    cases action with
    | receive chunk =>
      cases hstep
      exact .goesOn (.writing size _ .receiving (hself _ _) hinode hfree hnames (happend chunk)) id
    | readFails =>
      cases hstep
      exact hleft trivial rfl
    | writeFails chunk n =>
      cases hstep
      exact hleft trivial rfl
    | endOfBody =>
      cases hstep
      exact hgoes id
    | _ => simp at hstep
  | received =>
    cases action with
    | flush =>
      cases hstep
      exact hgoes id
    | flushFails =>
      cases hstep
      exact hleft trivial rfl
    | _ => simp at hstep
  | flushed =>
    cases action with
    | checkSize =>
      cases hstep
      exact hgoes id
    | _ => simp at hstep
  | sizeChecked =>
    cases action with
    | checkHash =>
      cases hstep
      exact .goesOn (.writing size temp _ (hself _ _) hinode hfree hnames hdata) id
    | _ => simp at hstep
  | verified =>
    cases action with
    | rename =>
      cases hstep
      exact .stored (hself _ _)
    | renameFails =>
      cases hstep
      exact hleft trivial rfl
    | _ => simp at hstep
  | refused e =>
    cases action with
    | remove =>
      cases hstep
      refine .failed e (hself _ _) (iff_of_true (sameFiles_of_data hused ?_ hdata) id)
      show Function.update s.names temp.path none = s₀.names
      rw [hnames, Function.update_idem, ← hfree, Function.update_eq_self]
    | removeFails => exact absurd rfl hremove
    | _ => simp at hstep

/-- **One step of a call.** -/
theorem InFlight.step (h : InFlight i oid s₀ s)
    (hused : ∀ path inode, s₀.names path = some inode → inode < s₀.next) {action : Action}
    (hremove : action ≠ .removeFails)
    (hfresh : ∀ name, action = .create name → s₀.names (objectDir root oid ++ [name]) = none)
    (hstep : procStep root sha256 s i action = some s') : Comes i oid s₀ s' action := by
  cases h with
  | before size hproc hnames hdata hnext => exact step_before hproc hnames hdata hnext hused hfresh hstep
  | writing size temp stage hproc hinode hfree hnames hdata =>
    exact step_writing hproc hinode hfree hnames hdata hused hremove hstep

theorem call_uploaded {result : Except LfsWriteError Unit}
    (hproc : s.procs i = .uploaded oid result) {actions : List Action}
    (hcall : call root sha256 i s actions = some s') : actions = [] ∧ s' = s := by
  cases actions with
  | nil => exact ⟨rfl, (Option.some.inj hcall).symm⟩
  | cons action actions =>
    rw [call, List.foldlM_cons] at hcall
    obtain ⟨t, hstep, -⟩ := Option.bind_eq_some_iff.mp hcall
    cases action <;> simp [procStep, hproc] at hstep

theorem InFlight.sameFiles_iff (h : InFlight i oid s₀ s)
    (hused : ∀ path inode, s₀.names path = some inode → inode < s₀.next) {actions : List Action}
    (hremove : Action.removeFails ∉ actions)
    (hfresh : ∀ name, .create name ∈ actions → s₀.names (objectDir root oid ++ [name]) = none)
    (hcall : call root sha256 i s actions = some s') {e : LfsWriteError}
    (hfailed : s'.procs i = .uploaded oid (.error e)) :
    SameFiles s₀ s' ↔ ∀ action ∈ actions, ¬ action.Strands := by
  induction actions generalizing s with
  | nil =>
    cases hcall
    rcases h with ⟨size, hproc | hproc, -⟩ | ⟨size, temp, stage, hproc⟩
    · simp [hproc] at hfailed
    · simp [hproc] at hfailed
    · simp [hproc] at hfailed
  | cons action actions ih =>
    rw [call, List.foldlM_cons] at hcall
    obtain ⟨t, hstep, hrest⟩ := Option.bind_eq_some_iff.mp hcall
    rw [List.forall_mem_cons]
    have hcomes := h.step hused (fun heq => hremove (heq ▸ List.mem_cons_self))
      (fun name heq => hfresh name (heq ▸ List.mem_cons_self)) hstep
    cases hcomes with
    | goesOn hnext hquiet =>
      rw [ih hnext (fun hmem => hremove (List.mem_cons_of_mem _ hmem))
        (fun name hmem => hfresh name (List.mem_cons_of_mem _ hmem)) hrest, and_iff_right hquiet]
    | stored hproc =>
      obtain ⟨-, rfl⟩ := call_uploaded hproc hrest
      simp [hproc] at hfailed
    | failed e' hproc hfiles =>
      obtain ⟨rfl, rfl⟩ := call_uploaded hproc hrest
      simpa using hfiles

/-- **A failed upload leaves the files as they were** exactly if no read of the body, no write, no
flush and no rename has failed. Removing a file does not fail here, and the name of a temporary file
is free. -/
theorem failed_upload_clean_iff {size : UInt64} (hproc : s.procs i = .requested oid size)
    (hused : ∀ path inode, s.names path = some inode → inode < s.next) {actions : List Action}
    (hremove : Action.removeFails ∉ actions)
    (hfresh : ∀ name, .create name ∈ actions → s.names (objectDir root oid ++ [name]) = none)
    (hcall : call root sha256 i s actions = some s') {e : LfsWriteError}
    (hfailed : s'.procs i = .uploaded oid (.error e)) :
    SameFiles s s' ↔ ∀ action ∈ actions, ¬ action.Strands :=
  (InFlight.before size (Or.inl hproc) rfl rfl rfl).sameFiles_iff hused hremove hfresh hcall hfailed

end Call

/-- An upload of the object with the SHA-256 of `[1, 2]` into an empty store. -/
def requestedStore : State Unit :=
  ⟨fun _ => none, fun _ => [], 0, [], fun _ => .requested (paddedHash [1, 2]) 2⟩

theorem failed_upload_clean_short_body : ∃ s' : State Unit,
    call [] paddedHash () requestedStore [.test, .create [97], .receive [1], .endOfBody, .flush,
      .checkSize, .remove] = some s' ∧
      SameFiles requestedStore s' := by
  have hsome : ((call [] paddedHash () requestedStore
      [.test, .create [97], .receive [1], .endOfBody, .flush, .checkSize, .remove]).map fun s' => s'.procs ()) =
      some (.uploaded (paddedHash [1, 2]) (.error (.sizeMismatch 2 1))) := by decide +kernel
  obtain ⟨s', hcall, hproc⟩ := Option.map_eq_some_iff.mp hsome
  have hused : ∀ path inode, requestedStore.names path = some inode → inode < requestedStore.next :=
    fun _ _ hname => by
    simp [requestedStore] at hname
  exact ⟨s', hcall, (failed_upload_clean_iff rfl hused (by simp) (fun _ _ => rfl) hcall hproc).mpr (by decide)⟩

/-- A client that goes away in the middle of the body leaves a file with what it has sent. -/
theorem broken_upload_leaves_file : ∃ s' : State Unit,
    call [] paddedHash () requestedStore [.test, .create [97], .receive [1], .readFails] = some s' ∧
      s'.procs () = .uploaded (paddedHash [1, 2]) (.error .io) ∧
      requestedStore.file (objectDir [] (paddedHash [1, 2]) ++ [[97]]) = none ∧
      s'.file (objectDir [] (paddedHash [1, 2]) ++ [[97]]) = some [1] := by
  have hsome : ((call [] paddedHash () requestedStore [.test, .create [97], .receive [1], .readFails]).map fun s' =>
      (s'.procs (), s'.file (objectDir [] (paddedHash [1, 2]) ++ [[97]]))) =
      some (.uploaded (paddedHash [1, 2]) (.error .io), some [1]) := by decide +kernel
  obtain ⟨s', hcall, hend⟩ := Option.map_eq_some_iff.mp hsome
  obtain ⟨hproc, hfile⟩ := Prod.mk.inj hend
  exact ⟨s', hcall, hproc, rfl, hfile⟩

end Mizzle.Lfs
