import Mizzle.Lfs.Failures
import Mizzle.Lfs.Http

/-!
# The LFS server

Any number of requests to the LFS endpoints of one repository at once, with the store on a file
system. A request is taken apart when it comes (`Mizzle.Lfs.Http`); its handler then asks the store
for one object after the other, or does a transfer step by step as a process of `Mizzle.Lfs.Store`,
while other requests are at theirs.

An answer may say that an object is stored: an upload or a verification that succeeds, a batch
answer that offers a download or sees no need for an upload. The object is then there, with the
right content, and stays (`answers_hold`). Objects come there by the last step of an upload that was
allowed (`stored_allowed`).
-/

namespace Mizzle.Lfs.Http

open Lib

/-- A request, with the authoriser that the framework made for it. -/
structure Asked where
  access : Access
  path : String
  request : Request

/-- What is left of a task. -/
inductive Work where
  | batch (baseUrl : String) (operation : Operation) (todo : List BatchRequestObject) (done : List BatchResponseObject)
  | verify (oid : LfsOid) (size : UInt64)
  /-- `FsLfs::write` is at work. -/
  | upload (oid : LfsOid) (size : UInt64)
  /-- The object is looked for, and then read. -/
  | download (oid : LfsOid)

inductive Handler where
  | idle
  | working (asked : Asked) (work : Work)
  | answered (asked : Asked) (response : Response)

structure Server (ι : Type) where
  files : State ι
  handlers : ι → Handler

inductive Event where
  | request (asked : Asked)
  /-- `FsLfs::stat` at a given time. -/
  | stat (now : Nat)
  | statFails (e : String)
  /-- A step of a transfer. -/
  | transfer (action : Action)

/-- The actions that begin a transfer, which only a request does. -/
def Action.Begins : Action → Prop
  | .put _ _ | .get _ => True
  | _ => False

instance (action : Action) : Decidable (Action.Begins action) := by
  unfold Action.Begins
  split <;> infer_instance

abbrev Stored {ι : Type} (root : Path) (files : State ι) (oid : LfsOid) : Prop :=
  files.names (objectPath root oid) ≠ none

/-- The size of the stored object. -/
def sizeOf {ι : Type} (root : Path) (files : State ι) (oid : LfsOid) : Option UInt64 :=
  (files.file (objectPath root oid)).map fun bytes => UInt64.ofNat bytes.length

section Step

variable {ι : Type} [DecidableEq ι] (root : Path) (sha256 : Bytes → LfsOid) (bodies : Bodies)

def Server.set (s : Server ι) (i : ι) (h : Handler) : Server ι :=
  { s with handlers := Function.update s.handlers i h }

/-- The next object of a batch request, or the answer if there is none. -/
def nextObject (asked : Asked) (baseUrl : String) (operation : Operation)
    (todo : List BatchRequestObject) (done : List BatchResponseObject) : Handler :=
  if todo = [] then .answered asked (.batch ⟨"basic", done⟩) else .working asked (.batch baseUrl operation todo done)

/-- The store has answered for an object, or has failed to. -/
def afterStat (now : Nat) (asked : Asked) (stat : LfsOid → Except String (Option UInt64)) :
    Work → Option Handler
  | .batch baseUrl operation (object :: todo) done =>
    some (nextObject asked baseUrl operation todo
      (done ++ [respond fsLfs now baseUrl operation object (stat object.oid)]))
  | .verify oid size => some (.answered asked (.status (verifyStatus size (stat oid))))
  | _ => none

/-- A transfer has come to its end, or goes on. -/
def afterTransfer (asked : Asked) (action : Action) (work : Work) : Proc → Handler
  | .uploaded _ result => .answered asked (.status (uploadStatus result))
  | .notServed => .answered asked (.status (match action with | .stat => 404 | _ => 500))
  | .served _ bytes => .answered asked (.object bytes)
  | _ => .working asked work

/-- A request comes. -/
def begin (s : Server ι) (i : ι) (asked : Asked) : Option (Server ι) :=
  match serveLfs asked.access fsLfs bodies asked.path asked.request with
  | .error response => some (s.set i (.answered asked response))
  | .ok (.batch baseUrl request) => some (s.set i (nextObject asked baseUrl request.operation request.objects []))
  | .ok (.verify oid size) => some (s.set i (.working asked (.verify oid size)))
  | .ok (.upload oid size) =>
    (procStep root sha256 s.files i (.put oid size)).map fun files =>
      Server.set { s with files } i (.working asked (.upload oid size))
  | .ok (.download oid) =>
    (procStep root sha256 s.files i (.get oid)).map fun files =>
      Server.set { s with files } i (.working asked (.download oid))

/-- One step of the handler of request `i`. -/
def handlerStep (s : Server ι) (i : ι) (event : Event) : Option (Server ι) :=
  match s.handlers i, event with
  | .idle, .request asked => begin root sha256 bodies s i asked
  | .working asked work, .stat now =>
    (afterStat now asked (fun oid => .ok (sizeOf root s.files oid)) work).map (s.set i)
  | .working asked work, .statFails e => (afterStat 0 asked (fun _ => .error e) work).map (s.set i)
  | .working asked work, .transfer action =>
    if Action.Begins action then none
    else (procStep root sha256 s.files i action).map fun files =>
      Server.set { s with files } i (afterTransfer asked action work (files.procs i))
  | _, _ => none

def serverStep (s : Server ι) (e : ι × Event) : Option (Server ι) :=
  handlerStep root sha256 bodies s e.1 e.2

end Step

/-- What the request comes to. -/
def Asked.task (bodies : Bodies) (asked : Asked) : Except Response Task :=
  serveLfs asked.access fsLfs bodies asked.path asked.request

/-- Names of temporary files are fresh. -/
def FreshTransfer {ι : Type} (root : Path) (s : Server ι) : ι × Event → Prop
  | (i, .transfer action) => FreshNames root s.files (i, action)
  | _ => True

/-! ### Transfers -/

section Transfers

variable {ι : Type} [DecidableEq ι] {root : Path} {sha256 : Bytes → LfsOid} {s s' : State ι} {i : ι} {action : Action}
  {oid : LfsOid} {size : UInt64}

theorem procs_setProc (s : State ι) (i : ι) (p : Proc) : (s.setProc i p).procs i = p :=
  Function.update_self ..

/-- An upload that has not returned; behind the check of the size, the size is what was stated. -/
def Uploading (oid : LfsOid) (size : UInt64) (p : Proc) : Prop :=
  p = .requested oid size ∨ p = .absent oid size ∨ ∃ temp stage, p = .upload oid size temp stage ∧
    (stage = .sizeChecked ∨ stage = .verified → UInt64.ofNat temp.received.length = size)

def Uploaded (root : Path) (s : State ι) (oid : LfsOid) (p : Proc) : Prop :=
  ∃ result, p = .uploaded oid result ∧ (result = .ok () → Stored root s oid)

theorem Uploading.step (h : Uploading oid size (s.procs i)) (hinv : Inv root sha256 s)
    (hstep : procStep root sha256 s i action = some s') :
    Uploading oid size (s'.procs i) ∨ Uploaded root s' oid (s'.procs i) := by
  have hset : ∀ {t : State ι} {p : Proc}, Uploading oid size p ∨ Uploaded root t oid p →
      Uploading oid size ((t.setProc i p).procs i) ∨ Uploaded root (t.setProc i p) oid ((t.setProc i p).procs i) := by
    intro t p hp
    rw [procs_setProc]
    exact hp
  have hfails : ∀ {t : State ι} {e : LfsWriteError}, Uploading oid size (.uploaded oid (.error e)) ∨
      Uploaded root t oid (.uploaded oid (.error e)) := Or.inr ⟨_, rfl, fun he => by cases he⟩
  have hgoes : ∀ {t : State ι} {temp : Temp} {stage : Stage}, stage ≠ .sizeChecked → stage ≠ .verified →
      Uploading oid size (.upload oid size temp stage) ∨ Uploaded root t oid (.upload oid size temp stage) :=
    fun hsize hhash => Or.inl (Or.inr (Or.inr ⟨_, _, rfl, fun hstage => (hstage.elim hsize hhash).elim⟩))
  unfold procStep at hstep
  rcases h with h | h | ⟨temp, stage, h, hsize⟩
  · rw [h] at hstep
    cases action <;> simp only [reduceCtorEq, Option.some.injEq] at hstep
    all_goals subst hstep
    · refine hset ?_
      split
      · rename_i hpresent
        exact Or.inr ⟨_, rfl, fun _ => Option.isSome_iff_ne_none.mp hpresent⟩
      · exact Or.inl (Or.inr (Or.inl rfl))
    · exact hset (Or.inl (Or.inr (Or.inl rfl)))
  · rw [h] at hstep
    cases action <;> simp only [reduceCtorEq, Option.some.injEq] at hstep
    all_goals subst hstep
    · exact hset hfails
    · exact hset (hgoes Stage.noConfusion Stage.noConfusion)
  · have hproc := hinv.proc i
    rw [h] at hstep hproc
    have hpath := hproc.held.path oid
    cases stage <;> cases action <;> simp only [reduceCtorEq, Option.some.injEq] at hstep
    all_goals subst hstep
    -- the two checks and the rename; the other actions fail, or go on with the transfer
    case flushed.checkSize =>
      refine hset ?_
      split
      · rename_i htotal
        exact Or.inl (Or.inr (Or.inr ⟨_, _, rfl, fun _ => htotal⟩))
      · exact hgoes Stage.noConfusion Stage.noConfusion
    case sizeChecked.checkHash =>
      refine hset ?_
      split
      · exact Or.inl (Or.inr (Or.inr ⟨_, _, rfl, fun _ => hsize (Or.inl rfl)⟩))
      · exact hgoes Stage.noConfusion Stage.noConfusion
    case verified.rename =>
      refine hset (Or.inr ⟨_, rfl, fun _ hnone => ?_⟩)
      have hname : (s.rename temp.inode temp.path (objectPath root oid)).names
          (objectPath root oid) = some temp.inode :=
        (Function.update_of_ne hpath.symm ..).trans (Function.update_self ..)
      exact Option.some_ne_none _ (hname.symm.trans hnone)
    all_goals first | exact hset hfails | exact hset (hgoes Stage.noConfusion Stage.noConfusion)

variable (root) in
/-- A download that has not ended; the object has been found, if the handler has looked for it. -/
def Fetching (s : State ι) (oid : LfsOid) (p : Proc) : Prop :=
  p = .wanted oid ∨ Stored root s oid ∧ (p = .found oid ∨ ∃ inode got, p = .reading oid inode got)

theorem Fetching.step (h : Fetching root s oid (s.procs i)) (hinv : Inv root sha256 s)
    (hstep : procStep root sha256 s i action = some s') :
    Fetching root s' oid (s'.procs i) ∨ s'.procs i = .notServed ∨
      ∃ bytes, s'.procs i = .served oid bytes ∧ Stored root s' oid ∧ sha256 bytes = oid ∧ bytes ∈ s'.hashed := by
  have hset := procs_setProc s i
  have hproc := hinv.proc i
  unfold procStep at hstep
  rcases h with h | ⟨hstored, h | ⟨inode, got, h⟩⟩
  · rw [h] at hstep
    cases action <;> simp only [reduceCtorEq, Option.some.injEq] at hstep
    all_goals subst hstep
    · split
      · rename_i hpresent
        exact Or.inl (Or.inr ⟨Option.isSome_iff_ne_none.mp hpresent, Or.inl (hset _)⟩)
      · exact Or.inr (Or.inl (hset _))
    · exact Or.inr (Or.inl (hset _))
  · rw [h] at hstep
    cases action <;> simp only [reduceCtorEq, Option.some.injEq] at hstep
    · obtain ⟨inode, -, rfl⟩ := Option.map_eq_some_iff.mp hstep
      exact Or.inl (Or.inr ⟨hstored, Or.inr ⟨inode, [], hset _⟩⟩)
    · subst hstep
      exact Or.inr (Or.inl (hset _))
  · rw [h] at hstep hproc
    obtain ⟨hpub, hgot⟩ := hproc
    cases action <;> simp only [reduceCtorEq, Option.some.injEq] at hstep
    · subst hstep
      exact Or.inl (Or.inr ⟨hstored, Or.inr ⟨_, _, hset _⟩⟩)
    · obtain ⟨hend, hstep⟩ := Option.ite_none_right_eq_some.mp hstep
      cases hstep
      have hall : got = s.data inode := hgot.eq_of_length_le hend
      exact Or.inr (Or.inr ⟨got, hset _, hstored, hall ▸ hpub.hash, hall ▸ hpub.hashed⟩)

end Transfers

/-! ### What answers say -/

/-- The part of a batch answer says that the object is stored: it can be downloaded, or need not be
uploaded. -/
def BatchResponseObject.SaysStored (operation : Operation) (object : BatchResponseObject) : Prop :=
  match operation with
  | .download => object.actions ≠ none
  | .upload => object.actions = none ∧ object.error = none

/-- The answer says that the object is stored. -/
inductive Says (bodies : Bodies) : Handler → LfsOid → Prop
  | upload {asked : Asked} {oid : LfsOid} {size : UInt64} (task : asked.task bodies = .ok (.upload oid size)) :
      Says bodies (.answered asked (.status 200)) oid
  | verify {asked : Asked} {oid : LfsOid} {size : UInt64} (task : asked.task bodies = .ok (.verify oid size)) :
      Says bodies (.answered asked (.status 200)) oid
  | download {asked : Asked} {oid : LfsOid} {bytes : Bytes} (task : asked.task bodies = .ok (.download oid)) :
      Says bodies (.answered asked (.object bytes)) oid
  | batch {asked : Asked} {baseUrl : String} {request : BatchRequest} {response : BatchResponse}
    {object : BatchResponseObject}
      (task : asked.task bodies = .ok (.batch baseUrl request)) (mem : object ∈ response.objects)
      (stored : object.SaysStored request.operation) : Says bodies (.answered asked (.batch response)) object.oid

variable {handler : Handler} {now : Nat} {baseUrl : String} {operation : Operation}

theorem stat_of_saysStored {object : BatchRequestObject} {stat : Except String (Option UInt64)}
    (h : (respond fsLfs now baseUrl operation object stat).SaysStored operation) :
    ∃ size, stat = .ok (some size) := by
  cases stat with
  | error e => cases operation <;> simp [respond, failed, BatchResponseObject.SaysStored] at h
  | ok stat =>
    cases stat with
    | some size => exact ⟨size, rfl⟩
    | none => cases operation <;> simp [respond, failed, fsLfs, BatchResponseObject.SaysStored] at h

theorem oid_respond {object : BatchRequestObject} {stat : Except String (Option UInt64)} :
    (respond fsLfs now baseUrl operation object stat).oid = object.oid := by
  unfold respond
  split
  · rfl
  · split <;> rfl

/-! ### The invariant -/

section Invariant

variable {ι : Type} (root : Path) (sha256 : Bytes → LfsOid) (bodies : Bodies)

def Verified (files : State ι) (oid : LfsOid) (content : Bytes) : Prop :=
  sha256 content = oid ∧ content ∈ files.hashed

/-- The objects of a batch answer that are said to be stored are. -/
def DoneInv (files : State ι) (operation : Operation) (done : List BatchResponseObject) : Prop :=
  ∀ object ∈ done, object.SaysStored operation → Stored root files object.oid

/-- What an answer says is so. -/
def AnswerInv (files : State ι) (asked : Asked) (response : Response) : Prop :=
  match asked.task bodies with
  | .ok (.batch _ request) => ∀ answer, response = .batch answer → DoneInv root files request.operation answer.objects
  | .ok (.upload oid _) => response = .status 200 → Stored root files oid
  | .ok (.verify oid size) => response = .status 200 → Stored root files oid ∧
    ∃ content, Verified sha256 files oid content ∧ UInt64.ofNat content.length = size
  | .ok (.download oid) => ∀ bytes, response = .object bytes → Stored root files oid ∧ Verified sha256 files oid bytes
  | .error _ => True

def HandlerInv (files : State ι) (p : Proc) : Handler → Prop
  | .idle => p = .idle
  | .working asked (.batch baseUrl operation _ done) => p = .idle ∧
    (∃ request, asked.task bodies = .ok (.batch baseUrl request) ∧ request.operation = operation) ∧
      DoneInv root files operation done
  | .working asked (.verify oid size) => p = .idle ∧ asked.task bodies = .ok (.verify oid size)
  | .working asked (.upload oid size) => asked.task bodies = .ok (.upload oid size) ∧ Uploading oid size p
  | .working asked (.download oid) => asked.task bodies = .ok (.download oid) ∧ Fetching root files oid p
  | .answered asked response => AnswerInv root sha256 bodies files asked response

structure ServerInv (s : Server ι) : Prop where
  files : Inv root sha256 s.files
  handler : ∀ i, HandlerInv root sha256 bodies s.files (s.files.procs i) (s.handlers i)

variable {root sha256 bodies} {files files' : State ι} {asked : Asked} {response : Response} {s s' : Server ι} {i : ι}

theorem Keeps.rfl {files : State ι} : Keeps root files files := ⟨fun _ h => h, List.Subset.refl _⟩

theorem Verified.mono {oid : LfsOid} {content : Bytes} (h : Verified sha256 files oid content)
    (hkeeps : Keeps root files files') : Verified sha256 files' oid content :=
  ⟨h.1, hkeeps.hashed h.2⟩

theorem DoneInv.mono {done : List BatchResponseObject} (h : DoneInv root files operation done)
    (hkeeps : Keeps root files files') : DoneInv root files' operation done :=
  fun object hobject htold => hkeeps.object _ (h object hobject htold)

theorem AnswerInv.mono (h : AnswerInv root sha256 bodies files asked response)
    (hkeeps : Keeps root files files') : AnswerInv root sha256 bodies files' asked response := by
  unfold AnswerInv at h ⊢
  split
  · rename_i htask
    rw [htask] at h
    exact fun answer hanswer => (h answer hanswer).mono hkeeps
  · rename_i htask
    rw [htask] at h
    exact fun hresponse => hkeeps.object _ (h hresponse)
  · rename_i htask
    rw [htask] at h
    intro hresponse
    obtain ⟨hstored, content, hcontent, hsize⟩ := h hresponse
    exact ⟨hkeeps.object _ hstored, content, hcontent.mono hkeeps, hsize⟩
  · rename_i htask
    rw [htask] at h
    exact fun bytes hbytes => (h bytes hbytes).imp (hkeeps.object _) fun hserved => hserved.mono hkeeps
  · trivial

theorem HandlerInv.mono {p : Proc} {h : Handler} (hinv : HandlerInv root sha256 bodies files p h)
    (hkeeps : Keeps root files files') : HandlerInv root sha256 bodies files' p h := by
  cases h with
  | idle => exact hinv
  | answered asked response => exact AnswerInv.mono hinv hkeeps
  | working asked work =>
    cases work with
    | batch baseUrl operation todo done => exact ⟨hinv.1, hinv.2.1, hinv.2.2.mono hkeeps⟩
    | verify oid size => exact hinv
    | upload oid size => exact hinv
    | download oid => exact ⟨hinv.1, hinv.2.imp_right fun h => ⟨hkeeps.object oid h.1, h.2⟩⟩

theorem AnswerInv.stored (h : AnswerInv root sha256 bodies files asked response) {oid : LfsOid}
    (htold : Says bodies (.answered asked response) oid) : Stored root files oid := by
  unfold AnswerInv at h
  cases htold with
  | upload task =>
    rw [task] at h
    exact h rfl
  | verify task =>
    rw [task] at h
    exact (h rfl).1
  | download task =>
    rw [task] at h
    exact (h _ rfl).1
  | batch task mem stored =>
    rw [task] at h
    exact h _ rfl _ mem stored

/-! ### Steps -/

theorem HandlerInv.nextObject {p : Proc} (hp : p = .idle) {request : BatchRequest}
    (htask : asked.task bodies = .ok (.batch baseUrl request)) {todo : List BatchRequestObject}
    {done : List BatchResponseObject} (hdone : DoneInv root files request.operation done) :
    HandlerInv root sha256 bodies files p
      (nextObject asked baseUrl request.operation todo done) := by
  rw [Http.nextObject]
  split
  · rw [HandlerInv, AnswerInv, htask]
    rintro answer ⟨⟩
    exact hdone
  · exact ⟨hp, ⟨request, htask, rfl⟩, hdone⟩

theorem exists_of_sizeOf (hinv : Inv root sha256 files) {oid : LfsOid} {size : UInt64}
    (h : sizeOf root files oid = some size) :
    Stored root files oid ∧ ∃ content, Verified sha256 files oid content ∧
      UInt64.ofNat content.length = size := by
  obtain ⟨content, hfile, hsize⟩ := Option.map_eq_some_iff.mp h
  obtain ⟨inode, hname, rfl⟩ := Option.map_eq_some_iff.mp hfile
  have hpub := hinv.object oid inode hname
  exact ⟨by simp [hname], _, ⟨hpub.hash, hpub.hashed⟩, hsize⟩

variable [DecidableEq ι]

theorem ServerInv.set (h : ServerInv root sha256 bodies s) (hfiles : Inv root sha256 files')
    (hkeeps : Keeps root s.files files') (hother : ∀ j, j ≠ i → files'.procs j = s.files.procs j)
    (hi : HandlerInv root sha256 bodies files' (files'.procs i) handler) :
    ServerInv root sha256 bodies (Server.set ⟨files', s.handlers⟩ i handler) where
  files := hfiles
  handler j := by
    by_cases hj : j = i
    · subst hj
      have hset : (Server.set ⟨files', s.handlers⟩ j handler).handlers j = handler := Function.update_self ..
      rw [hset]
      exact hi
    · have hset : (Server.set ⟨files', s.handlers⟩ i handler).handlers j = s.handlers j := Function.update_of_ne hj ..
      have hprocs : (Server.set ⟨files', s.handlers⟩ i handler).files.procs j = s.files.procs j := hother j hj
      rw [hset, hprocs]
      exact (h.handler j).mono hkeeps

variable (root sha256) in
/-- What a step does to the files is a step of the process of its handler, which has not
answered. -/
def FilesStep (s : Server ι) (i : ι) (files' : State ι) : Prop :=
  files' = s.files ∨ (∀ asked response, s.handlers i ≠ .answered asked response) ∧
    ∃ action, FreshNames root s.files (i, action) ∧ procStep root sha256 s.files i action = some files'

theorem FilesStep.keeps (hfiles : FilesStep root sha256 s i files')
    (h : ServerInv root sha256 bodies s) : Keeps root s.files files' := by
  rcases hfiles with rfl | ⟨-, action, hok, hstep⟩
  · exact Keeps.rfl
  · obtain ⟨p, hmoves, -⟩ := h.files.moves hok hstep
    exact hmoves.keeps

theorem ServerInv.set_handler (h : ServerInv root sha256 bodies s)
    (hi : HandlerInv root sha256 bodies s.files (s.files.procs i) handler) :
    ServerInv root sha256 bodies (s.set i handler) ∧
      FilesStep root sha256 s i (s.set i handler).files :=
  ⟨h.set h.files Keeps.rfl (fun _ _ => rfl) hi, Or.inl rfl⟩

theorem ServerInv.set_transfer (h : ServerInv root sha256 bodies s)
    (hopen : ∀ asked response, s.handlers i ≠ .answered asked response) {action : Action}
    (hok : FreshNames root s.files (i, action))
    (hstep : procStep root sha256 s.files i action = some files')
    (hi : HandlerInv root sha256 bodies files' (files'.procs i) handler) :
    ServerInv root sha256 bodies (Server.set ⟨files', s.handlers⟩ i handler) ∧
      FilesStep root sha256 s i files' := by
  obtain ⟨p, hmoves, hp⟩ := h.files.moves hok hstep
  exact ⟨h.set (hmoves.inv h.files hp) hmoves.keeps (fun j hj => hmoves.procs_of_ne hj) hi,
    Or.inr ⟨hopen, action, hok, hstep⟩⟩

theorem ServerInv.begin (h : ServerInv root sha256 bodies s) (hidle : s.handlers i = .idle)
    (hstep : begin root sha256 bodies s i asked = some s') :
    ServerInv root sha256 bodies s' ∧ FilesStep root sha256 s i s'.files := by
  have hopen : ∀ asked response, s.handlers i ≠ .answered asked response := fun _ _ => hidle ▸ Handler.noConfusion
  have hp := h.handler i
  rw [hidle] at hp
  have hproc : s.files.procs i = .idle := hp
  rw [Http.begin] at hstep
  split at hstep
  · rename_i response htask
    cases hstep
    refine h.set_handler ?_
    rw [HandlerInv, AnswerInv, Asked.task, htask]
    trivial
  · rename_i baseUrl request htask
    cases hstep
    exact h.set_handler (.nextObject hproc htask fun object hobject => absurd hobject List.not_mem_nil)
  · rename_i oid size htask
    cases hstep
    exact h.set_handler ⟨hproc, htask⟩
  · rename_i oid size htask
    obtain ⟨files', hput, rfl⟩ := Option.map_eq_some_iff.mp hstep
    have hfresh : FreshNames root s.files (i, .put oid size) := trivial
    refine h.set_transfer hopen hfresh hput ⟨htask, Or.inl ?_⟩
    unfold procStep at hput
    rw [hproc] at hput
    cases hput
    exact procs_setProc ..
  · rename_i oid htask
    obtain ⟨files', hget, rfl⟩ := Option.map_eq_some_iff.mp hstep
    have hfresh : FreshNames root s.files (i, .get oid) := trivial
    refine h.set_transfer hopen hfresh hget ⟨htask, Or.inl ?_⟩
    unfold procStep at hget
    rw [hproc] at hget
    cases hget
    exact procs_setProc ..

theorem ServerInv.stat (h : ServerInv root sha256 bodies s) {work : Work}
    (hwork : s.handlers i = .working asked work) {stat : LfsOid → Except String (Option UInt64)}
    (hstat : ∀ oid size, stat oid = .ok (some size) → sizeOf root s.files oid = some size)
    (hafter : afterStat now asked stat work = some handler) :
    ServerInv root sha256 bodies (s.set i handler) ∧
      FilesStep root sha256 s i (s.set i handler).files := by
  refine h.set_handler ?_
  have hi := h.handler i
  rw [hwork] at hi
  unfold afterStat at hafter
  split at hafter
  · rename_i baseUrl operation object todo done
    cases hafter
    obtain ⟨hproc, ⟨request, htask, rfl⟩, hdone⟩ := hi
    refine .nextObject hproc htask fun answer hanswer htold => ?_
    rcases List.mem_append.mp hanswer with hold | hnew
    · exact hdone answer hold htold
    · obtain rfl := List.mem_singleton.mp hnew
      obtain ⟨size, hsize⟩ := stat_of_saysStored htold
      rw [oid_respond]
      exact (exists_of_sizeOf h.files (hstat _ _ hsize)).1
  · rename_i oid size
    cases hafter
    rw [HandlerInv, AnswerInv, hi.2]
    refine fun hcode => exists_of_sizeOf h.files (hstat _ _ ?_)
    have hcode := Response.status.inj hcode
    unfold verifyStatus at hcode
    split at hcode
    · simp at hcode
    · rename_i actual hactual
      split at hcode
      · rename_i hsame
        rw [hactual, hsame]
      · simp at hcode
    · simp at hcode
  · cases hafter

theorem ServerInv.transfer (h : ServerInv root sha256 bodies s) {work : Work}
    (hwork : s.handlers i = .working asked work) {action : Action}
    (hbegins : ¬ Action.Begins action) (hok : FreshNames root s.files (i, action))
    (hstep : procStep root sha256 s.files i action = some files') :
    ServerInv root sha256 bodies (Server.set ⟨files',
      s.handlers⟩ i (afterTransfer asked action work (files'.procs i))) ∧
      FilesStep root sha256 s i files' := by
  refine h.set_transfer (fun _ _ => hwork ▸ Handler.noConfusion) hok hstep ?_
  have hi := h.handler i
  rw [hwork] at hi
  have hquiet : s.files.procs i ≠ .idle := by
    intro hidle
    unfold procStep at hstep
    rw [hidle] at hstep
    cases action <;> simp [Action.Begins] at hstep hbegins
  cases work with
  | batch baseUrl operation todo done => exact absurd hi.1 hquiet
  | verify oid size => exact absurd hi.1 hquiet
  | upload oid size =>
    obtain ⟨htask, huploading⟩ := hi
    rcases huploading.step h.files hstep with hgoes | ⟨result, hdone, hstored⟩
    · have hafter : afterTransfer asked action (.upload oid size) (files'.procs i) =
          .working asked (.upload oid size) := by
        rcases hgoes with hp | hp | ⟨temp, stage, hp, -⟩ <;> rw [hp] <;> rfl
      rw [hafter]
      exact ⟨htask, hgoes⟩
    · rw [hdone, afterTransfer, HandlerInv, AnswerInv, htask]
      refine fun hcode => hstored ?_
      cases result with
      | ok => rfl
      | error e => cases e <;> simp [uploadStatus] at hcode
  | download oid =>
    obtain ⟨htask, hfetching⟩ := hi
    rcases hfetching.step h.files hstep with hgoes | hdone | ⟨bytes, hdone, hserved⟩
    · have hafter : afterTransfer asked action (.download oid) (files'.procs i) = .working asked (.download oid) := by
        rcases hgoes with hp | ⟨-, hp | ⟨inode, got, hp⟩⟩ <;> rw [hp] <;> rfl
      rw [hafter]
      exact ⟨htask, hgoes⟩
    · have hmissing : ∀ code, AnswerInv root sha256 bodies files' asked (.status code) := by
        intro code
        rw [AnswerInv, htask]
        exact fun bytes hbytes => by cases hbytes
      rw [hdone]
      exact hmissing _
    · rw [hdone, afterTransfer, HandlerInv, AnswerInv, htask]
      rintro bytes' ⟨⟩
      exact hserved

/-- **A step keeps the invariant.** -/
theorem ServerInv.step (h : ServerInv root sha256 bodies s) {e : ι × Event}
    (hok : FreshTransfer root s e) (hstep : serverStep root sha256 bodies s e = some s') :
    ServerInv root sha256 bodies s' ∧ FilesStep root sha256 s e.1 s'.files := by
  obtain ⟨i, event⟩ := e
  unfold serverStep handlerStep at hstep
  split at hstep
  · rename_i asked hidle _
    exact h.begin hidle hstep
  · rename_i asked work now hwork _
    obtain ⟨handler, hafter, rfl⟩ := Option.map_eq_some_iff.mp hstep
    exact h.stat hwork (fun oid size hsize => Except.ok.inj hsize) hafter
  · rename_i asked work e hwork _
    obtain ⟨handler, hafter, rfl⟩ := Option.map_eq_some_iff.mp hstep
    exact h.stat hwork (fun oid size hsize => by cases hsize) hafter
  · rename_i asked work action hwork hevent
    obtain rfl : event = .transfer action := hevent
    split at hstep
    · cases hstep
    · rename_i hbegins
      obtain ⟨files', hproc, rfl⟩ := Option.map_eq_some_iff.mp hstep
      exact h.transfer hwork hbegins hok hproc
  · cases hstep

/-! ### Where objects come from -/

theorem ServerInv.publishes (h : ServerInv root sha256 bodies s)
    (hopen : ∀ asked response, s.handlers i ≠ .answered asked response) {action : Action}
    (hok : FreshNames root s.files (i, action))
    (hstep : procStep root sha256 s.files i action = some files') {oid : LfsOid}
    (hnew : ¬ Stored root s.files oid) (hstored : Stored root files' oid) :
    ∃ asked content, s.handlers i = .working asked (.upload oid (UInt64.ofNat content.length)) ∧
      asked.task bodies = .ok (.upload oid (UInt64.ofNat content.length)) ∧
      files'.file (objectPath root oid) = some content ∧ Verified sha256 s.files oid content := by
  obtain ⟨p, hmoves, -⟩ := h.files.moves hok hstep
  rcases hmoves.object oid with hsame | ⟨size, temp, hproc, hname, -, hdata⟩
  · exact absurd (fun hnone => hstored (hsame.trans hnone)) hnew
  · have hverified := h.files.proc i
    rw [hproc] at hverified
    have hfile : files'.file (objectPath root oid) = some temp.received := by
      rw [State.file, hname, Option.map_some, hdata, hverified.1.data]
    have hi := h.handler i
    rw [hproc] at hi
    cases hhandler : s.handlers i with
    | idle =>
      rw [hhandler] at hi
      cases hi
    | answered asked response => exact absurd hhandler (hopen asked response)
    | working asked work =>
      rw [hhandler] at hi
      cases work with
      | batch baseUrl operation todo done => cases hi.1
      | verify oid' size' => cases hi.1
      | download oid' =>
        rcases hi.2 with hp | ⟨-, hp | ⟨inode, got, hp⟩⟩ <;> cases hp
      | upload oid' size' =>
        obtain ⟨htask, hp | hp | ⟨temp', stage, hp, hsize⟩⟩ := hi
        · cases hp
        · cases hp
        · obtain ⟨rfl, rfl, rfl, rfl⟩ := Proc.upload.inj hp
          have hlength := hsize (Or.inr rfl)
          exact ⟨asked, temp.received, by rw [hlength], by rw [hlength]; exact htask, hfile, hverified.2⟩

end Invariant

/-! ### Runs -/

section Runs

variable {ι : Type} [DecidableEq ι] {root : Path} {sha256 : Bytes → LfsOid} {bodies : Bodies} {s₀ s s' : Server ι}

/-- The store is in order, and no request has come. -/
structure ServerStart (root : Path) (sha256 : Bytes → LfsOid) (s : Server ι) : Prop where
  files : Start root sha256 s.files
  handlers : ∀ i, s.handlers i = .idle

omit [DecidableEq ι] in
theorem ServerStart.inv (h : ServerStart root sha256 s) : ServerInv root sha256 bodies s where
  files := h.files.inv
  handler i := by
    rw [h.handlers]
    exact h.files.procs i

theorem ServerInv.runs (h : ServerInv root sha256 bodies s)
    (hrun : Runs (serverStep root sha256 bodies) (FreshTransfer root) s s') :
    ServerInv root sha256 bodies s' ∧ Keeps root s.files s'.files := by
  refine hrun.invariant (fun t => ServerInv root sha256 bodies t ∧
    Keeps root s.files t.files) (fun ⟨ht, hkeeps⟩ hok hstep => ?_)
    ⟨h, Keeps.rfl⟩
  obtain ⟨hnext, hfiles⟩ := ht.step hok hstep
  have hmore := hfiles.keeps ht
  exact ⟨hnext, fun oid hstored => hmore.object oid (hkeeps.object oid hstored),
    List.Subset.trans hkeeps.hashed hmore.hashed⟩

omit [DecidableEq ι] in
theorem ServerInv.file_of_stored (h : ServerInv root sha256 bodies s) {oid : LfsOid}
    (hstored : Stored root s.files oid) :
    ∃ bytes, s.files.file (objectPath root oid) = some bytes ∧
      Verified sha256 s.files oid bytes := by
  obtain ⟨inode, hname⟩ := Option.ne_none_iff_exists'.mp hstored
  have hpub := h.files.object oid inode hname
  exact ⟨s.files.data inode, by rw [State.file, hname, Option.map_some], hpub.hash, hpub.hashed⟩

omit [DecidableEq ι] in
theorem ServerInv.answer (h : ServerInv root sha256 bodies s) {i : ι} {asked : Asked}
    {response : Response} (hi : s.handlers i = .answered asked response) :
    AnswerInv root sha256 bodies s.files asked response := by
  have hhandler := h.handler i
  rw [hi] at hhandler
  exact hhandler

/-- **What an answer says holds from then on.** If an upload or a verification has succeeded, or a
batch answer offers a download or sees no need for an upload, then the object is stored, with
content that has the SHA-256 it is named by; it has the size that was verified, and what was
downloaded is the content. All this is still so after any other requests, unless contents that were
hashed collide. -/
theorem answers_hold (hstart : ServerStart root sha256 s₀)
    (hrun : Runs (serverStep root sha256 bodies) (FreshTransfer root) s₀ s)
    (hrun' : Runs (serverStep root sha256 bodies) (FreshTransfer root) s s')
    (hcollision : ∀ a ∈ s'.files.hashed, ∀ b ∈ s'.files.hashed, sha256 a = sha256 b → a = b) :
    (∀ i oid, Says bodies (s.handlers i) oid → ∃ bytes, sha256 bytes = oid ∧
      s.files.file (objectPath root oid) = some bytes ∧ s'.files.file (objectPath root oid) = some bytes) ∧
    (∀ i asked oid size, s.handlers i = .answered asked (.status 200) → asked.task bodies = .ok (.verify oid size) →
      ∃ bytes, s'.files.file (objectPath root oid) = some bytes ∧ UInt64.ofNat bytes.length = size) ∧
    ∀ i asked oid bytes, s.handlers i = .answered asked (.object bytes) → asked.task bodies = .ok (.download oid) →
      s'.files.file (objectPath root oid) = some bytes := by
  have hinv := (hstart.inv.runs hrun).1
  obtain ⟨hinv', hkeeps⟩ := hinv.runs hrun'
  -- the content later on is any content with the hash that was hashed before
  have hcontent : ∀ oid bytes, Stored root s.files oid → Verified sha256 s.files oid bytes →
      s'.files.file (objectPath root oid) = some bytes := by
    intro oid bytes hstored hverified
    obtain ⟨bytes', hfile', hhash', hhashed'⟩ := hinv'.file_of_stored (hkeeps.object oid hstored)
    obtain ⟨hhash, hhashed⟩ := hverified.mono hkeeps
    rw [hfile', hcollision bytes' hhashed' bytes hhashed (hhash'.trans hhash.symm)]
  refine ⟨fun i oid htold => ?_, fun i asked oid size hi htask => ?_, fun i asked oid bytes hi htask => ?_⟩
  · have hstored : Stored root s.files oid := by
      cases hi : s.handlers i with
      | answered asked response => exact (hinv.answer hi).stored (hi ▸ htold)
      | _ =>
        rw [hi] at htold
        cases htold
    obtain ⟨bytes, hfile, hverified⟩ := hinv.file_of_stored hstored
    exact ⟨bytes, hverified.1, hfile, hcontent oid bytes hstored hverified⟩
  · have hanswer := hinv.answer hi
    rw [AnswerInv, htask] at hanswer
    obtain ⟨hstored, content, hverified, hsize⟩ := hanswer rfl
    exact ⟨content, hcontent oid content hstored hverified, hsize⟩
  · have hanswer := hinv.answer hi
    rw [AnswerInv, htask] at hanswer
    obtain ⟨hstored, hverified⟩ := hanswer bytes rfl
    exact hcontent oid bytes hstored hverified

/-- **Objects come from uploads that were allowed.** If a step of any run makes an object appear,
the step is one of an upload that the authoriser has let through; its content has been verified, and
has the length that the request has stated. -/
theorem stored_allowed (hstart : ServerStart root sha256 s₀)
    (hrun : Runs (serverStep root sha256 bodies) (FreshTransfer root) s₀ s) {e : ι × Event}
    (hok : FreshTransfer root s e) (hstep : serverStep root sha256 bodies s e = some s')
    {oid : LfsOid} (hnew : ¬ Stored root s.files oid) (hstored : Stored root s'.files oid) :
    ∃ asked content, s.handlers e.1 = .working asked (.upload oid (UInt64.ofNat content.length)) ∧
      asked.access.authorizeLfs .upload none = .ok () ∧ statedLength asked.request = UInt64.ofNat content.length ∧
      s'.files.file (objectPath root oid) = some content ∧ sha256 content = oid ∧ content ∈ s.files.hashed := by
  have hinv := (hstart.inv.runs hrun).1
  rcases (hinv.step hok hstep).2 with hsame | ⟨hopen, action, hfresh, hproc⟩
  · exact absurd (hsame ▸ hstored) hnew
  · obtain ⟨asked, content, hworking, htask, hverified⟩ := hinv.publishes hopen hfresh hproc hnew hstored
    obtain ⟨hallowed, hlength⟩ := serveLfs_eq_ok htask
    exact ⟨asked, content, hworking, hallowed, (hlength _ _ rfl).symm, hverified⟩

end Runs

/-! ### Three requests -/

def noBodies : Bodies := ⟨fun _ => .error "no batch request", fun _ => none⟩

local instance (priority := 2000) neZeroThree : NeZero 3 := ⟨by decide⟩

def emptyServer : Server (Fin 3) := ⟨emptyStore, fun _ => .idle⟩

def putPair : Asked :=
  ⟨openAccess, objectEndpoint "a".toList pair, ⟨"PUT", none, none, some "2", none⟩⟩

def getPair : Asked :=
  ⟨openAccess, objectEndpoint "a".toList pair, ⟨"GET", none, none, none, none⟩⟩

theorem start_emptyServer : ServerStart [] paddedHash emptyServer :=
  ⟨⟨fun _ _ hname => by simp [emptyServer, emptyStore] at hname, fun _ => rfl⟩, fun _ => rfl⟩

/-- The upload up to its last step, and the last step with a download. -/
def uploadEvents : List (Fin 3 × Event) :=
  [(0, .request putPair), (0, .transfer .test), (0, .transfer (.create [97])), (0, .transfer (.receive [1, 2])),
    (0, .transfer .endOfBody), (0, .transfer .flush), (0, .transfer .checkSize), (0, .transfer .checkHash)]

def downloadEvents : List (Fin 3 × Event) :=
  [(2, .request getPair), (2, .transfer .stat), (2, .transfer .open), (2, .transfer (.read 2)), (2, .transfer .eof)]

/-- Names of temporary files are short. -/
def ShortTransfer {ι : Type} (root : Path) (s : Server ι) : ι × Event → Prop
  | (i, .transfer action) => ShortNames root s.files (i, action)
  | _ => True

instance {ι : Type} (root : Path) (s : Server ι) (e : ι × Event) : Decidable (ShortTransfer root s e) := by
  unfold ShortTransfer
  split <;> infer_instance

theorem runs_of_short {es : List (Fin 3 × Event)} {s s' : Server (Fin 3)}
    (h : runList (serverStep [] paddedHash noBodies) (ShortTransfer []) s es = some s') :
    Runs (serverStep [] paddedHash noBodies) (FreshTransfer []) s s' := by
  refine (Runs.of_runList h).mono fun t e hok => ?_
  obtain ⟨i, event⟩ := e
  cases event with
  | transfer action => exact FreshNames.of_shortNames hok
  | _ => trivial

def uploadedBy (h : Handler) : Option LfsOid :=
  match h with
  | .answered asked (.status 200) =>
    match asked.task noBodies with
    | .ok (.upload oid _) => some oid
    | _ => none
  | _ => none

theorem says_of_uploadedBy {h : Handler} {oid : LfsOid} (hoid : uploadedBy h = some oid) :
    Says noBodies h oid := by
  unfold uploadedBy at hoid
  split at hoid
  · split at hoid
    · rename_i htask
      exact Option.some.inj hoid ▸ .upload htask
    · cases hoid
  · cases hoid

theorem exists_uploaded : ∃ t s s' : Server (Fin 3),
    runList (serverStep [] paddedHash noBodies) (ShortTransfer []) emptyServer uploadEvents = some t ∧
    serverStep [] paddedHash noBodies t (0, .transfer .rename) = some s ∧
    runList (serverStep [] paddedHash noBodies) (ShortTransfer []) s downloadEvents = some s' ∧
    t.files.names (objectPath [] pair) = none ∧ uploadedBy (s.handlers 0) = some pair ∧
    s.files.names (objectPath [] pair) = some 0 ∧ s'.files.hashed = [[1, 2]] := by
  have hevents : ((runList (serverStep [] paddedHash noBodies) (ShortTransfer []) emptyServer
    uploadEvents).bind fun t =>
      (serverStep [] paddedHash noBodies t (0, .transfer .rename)).bind fun s =>
      (runList (serverStep [] paddedHash noBodies) (ShortTransfer []) s downloadEvents).map fun s' =>
        (t.files.names (objectPath [] pair), uploadedBy (s.handlers 0),
          s.files.names (objectPath [] pair), s'.files.hashed)) =
      some (none, some pair, some 0, [[1, 2]]) := by decide +kernel
  obtain ⟨t, hfirst, hrest⟩ := Option.bind_eq_some_iff.mp hevents
  obtain ⟨s, hlast, hrest⟩ := Option.bind_eq_some_iff.mp hrest
  obtain ⟨s', hsecond, hend⟩ := Option.map_eq_some_iff.mp hrest
  simp only [Prod.mk.injEq] at hend
  exact ⟨t, s, s', hfirst, hlast, hsecond, hend⟩

theorem answers_hold_pair :
    ∃ s s' : Server (Fin 3), Says noBodies (s.handlers 0) pair ∧ ∃ bytes, paddedHash bytes = pair ∧
    s.files.file (objectPath [] pair) = some bytes ∧ s'.files.file (objectPath [] pair) = some bytes := by
  obtain ⟨t, s, s', hfirst, hlast, hsecond, -, huploaded, -, hhashed⟩ := exists_uploaded
  have hfresh : FreshTransfer [] t (0, .transfer .rename) := trivial
  have hall := answers_hold start_emptyServer ((runs_of_short hfirst).tail hfresh hlast) (runs_of_short hsecond)
    (by rw [hhashed]; decide)
  exact ⟨s, s', says_of_uploadedBy huploaded, hall.1 0 pair (says_of_uploadedBy huploaded)⟩

theorem stored_allowed_pair : ∃ (t s : Server (Fin 3)) (asked : Asked) (content : Bytes),
    serverStep [] paddedHash noBodies t (0, .transfer .rename) = some s ∧ ¬ Stored [] t.files pair ∧
      Stored [] s.files pair ∧
      t.handlers 0 = .working asked (.upload pair (UInt64.ofNat content.length)) ∧
      asked.access.authorizeLfs .upload none = .ok () ∧ statedLength asked.request = UInt64.ofNat content.length := by
  obtain ⟨t, s, s', hfirst, hlast, -, hnone, -, hname, -⟩ := exists_uploaded
  have hnew : ¬ Stored [] t.files pair := fun h => h hnone
  have hstored : Stored [] s.files pair := by simp [Stored, hname]
  have hfresh : FreshTransfer [] t (0, .transfer .rename) := trivial
  obtain ⟨asked, content, hworking, hallowed, hlength, -⟩ :=
    stored_allowed start_emptyServer (runs_of_short hfirst) hfresh hlast hnew hstored
  exact ⟨t, s, asked, content, hlast, hnew, hstored, hworking, hallowed, hlength⟩

end Mizzle.Lfs.Http
