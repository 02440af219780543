import Mizzle.Lib.Bytes
import Mizzle.Lib.Runs

/-!
# The LFS store on a file system

`FsLfs::write` and `FsLfs::read` of `mizzle/src/lfs/fs.rs`, for any number of uploads and downloads
at once. A name leads to an inode, and an inode has the bytes; an open file stays with its inode
whatever happens to its name. An upload writes a temporary file, checks the size and the SHA-256 of
what it has received, and renames the file to the path of the object.

The invariant (`Inv`) keeps the inodes that uploads write to apart from those at the path of an
object: what is at such a path has been verified, and nobody has it open for writing. So an object
is never served corrupted, and its bytes are the same for ever (`objects_sound`).
-/

namespace Mizzle.Lfs

open Lib

/-- The SHA-256 of an object. -/
@[ext] structure LfsOid where
  bytes : Bytes
  length_eq : bytes.length = 32
deriving DecidableEq

def LfsOid.toHex (oid : LfsOid) : Bytes := hexEncode oid.bytes

abbrev Path := List Bytes

/-- Directory that contains a stored object, under the root of the repository. -/
def objectDir (root : Path) (oid : LfsOid) : Path :=
  root ++ [oid.toHex.take 2, (oid.toHex.drop 2).take 2]

/-- Canonical path for a stored object. -/
def objectPath (root : Path) (oid : LfsOid) : Path := objectDir root oid ++ [oid.toHex]

theorem objectPath_inj {root : Path} {oid oid' : LfsOid}
    (h : objectPath root oid = objectPath root oid') : oid = oid' := by
  obtain ⟨-, hlast⟩ := List.append_inj' h rfl
  have hbytes := congrArg hexDecode (List.cons.inj hlast).1
  simp only [LfsOid.toHex, hexDecode_hexEncode, Option.some.injEq] at hbytes
  exact LfsOid.ext hbytes

/-! ### Uploads and downloads -/

inductive LfsWriteError where
  | hashMismatch (expected actual : Bytes)
  | sizeMismatch (expected actual : UInt64)
  | io
deriving DecidableEq

/-- The temporary file of an upload: what has been received so far has been hashed and written to
it. -/
structure Temp where
  path : Path
  inode : Nat
  received : Bytes
deriving DecidableEq

/-- How far an upload with a temporary file is. -/
inductive Stage where
  | receiving
  /-- The end of the body has come. -/
  | received
  /-- The file is flushed and closed. -/
  | flushed
  | sizeChecked
  | verified
  /-- A check has failed. -/
  | refused (e : LfsWriteError)
deriving DecidableEq

inductive Proc where
  | idle
  | requested (oid : LfsOid) (size : UInt64)
  /-- The object is not there. -/
  | absent (oid : LfsOid) (size : UInt64)
  | upload (oid : LfsOid) (size : UInt64) (temp : Temp) (stage : Stage)
  | uploaded (oid : LfsOid) (result : Except LfsWriteError Unit)
  | wanted (oid : LfsOid)
  /-- `stat` has found the object. -/
  | found (oid : LfsOid)
  | reading (oid : LfsOid) (inode : Nat) (got : Bytes)
  /-- The reader is at the end. -/
  | served (oid : LfsOid) (bytes : Bytes)
  | notServed
deriving DecidableEq

def Proc.temp : Proc → Option Temp
  | .upload _ _ temp _ => some temp
  | _ => none

inductive Action where
  | put (oid : LfsOid) (size : UInt64)
  | test
  /-- Any error of the test counts as absence. -/
  | testFails
  /-- The directory or the temporary file cannot be created. -/
  | prepareFails
  | create (name : Bytes)
  | receive (chunk : Bytes)
  | readFails
  /-- Only the first `n` bytes of the chunk are written. -/
  | writeFails (chunk : Bytes) (n : Nat)
  | endOfBody
  | flush
  | flushFails
  | checkSize
  | checkHash
  | remove
  | removeFails
  | rename
  | renameFails
  | get (oid : LfsOid)
  | stat
  | statFails
  | open
  | openFails
  | read (n : Nat)
  | eof

structure State (ι : Type) where
  names : Path → Option Nat
  data : Nat → Bytes
  /-- Inodes from here on have not been used. -/
  next : Nat
  /-- The contents that have been hashed to the end, those of the objects at the start included. -/
  hashed : List Bytes
  procs : ι → Proc

variable {ι : Type}

section Step

variable [DecidableEq ι] (root : Path) (sha256 : Bytes → LfsOid)

def State.setProc (s : State ι) (i : ι) (p : Proc) : State ι :=
  { s with procs := Function.update s.procs i p }

/-- Bytes are written at the end of a file. -/
def State.append (s : State ι) (inode : Nat) (chunk : Bytes) : State ι :=
  { s with data := Function.update s.data inode (s.data inode ++ chunk) }

/-- `tokio::fs::remove_file`. -/
def State.remove (s : State ι) (path : Path) : State ι :=
  { s with names := Function.update s.names path none }

/-- `tokio::fs::rename` of a file. -/
def State.rename (s : State ι) (inode : Nat) (source dest : Path) : State ι :=
  { s with names := Function.update (Function.update s.names dest (some inode)) source none }

/-- One step of process `i`. -/
def procStep (s : State ι) (i : ι) (action : Action) : Option (State ι) :=
  match s.procs i, action with
  | .idle, .put oid size => some (s.setProc i (.requested oid size))
  | .requested oid size, .test =>
    some (s.setProc i (if (s.names (objectPath root oid)).isSome then .uploaded oid (.ok ()) else .absent oid size))
  | .requested oid size, .testFails => some (s.setProc i (.absent oid size))
  | .absent oid _, .prepareFails => some (s.setProc i (.uploaded oid (.error .io)))
  | .absent oid size, .create name =>
    let path := objectDir root oid ++ [name]
    some ({ s with
      names := Function.update s.names path (some s.next)
      data := Function.update s.data s.next []
      next := s.next + 1 }.setProc i (.upload oid size ⟨path, s.next, []⟩ .receiving))
  | .upload oid size temp .receiving, .receive chunk =>
    some ((s.append temp.inode chunk).setProc i
      (.upload oid size { temp with received := temp.received ++ chunk } .receiving))
  | .upload oid _ _ .receiving, .readFails => some (s.setProc i (.uploaded oid (.error .io)))
  | .upload oid _ temp .receiving, .writeFails chunk n =>
    some ((s.append temp.inode (chunk.take n)).setProc i (.uploaded oid (.error .io)))
  | .upload oid size temp .receiving, .endOfBody => some (s.setProc i (.upload oid size temp .received))
  | .upload oid size temp .received, .flush => some (s.setProc i (.upload oid size temp .flushed))
  | .upload oid _ _ .received, .flushFails => some (s.setProc i (.uploaded oid (.error .io)))
  | .upload oid size temp .flushed, .checkSize =>
    let total := UInt64.ofNat temp.received.length
    some (s.setProc i (.upload oid size temp (if total = size then .sizeChecked
      else .refused (.sizeMismatch size total))))
  | .upload oid size temp .sizeChecked, .checkHash =>
    let actual := sha256 temp.received
    some ({ s with hashed := temp.received :: s.hashed }.setProc i (.upload oid size temp
      (if actual = oid then .verified else .refused (.hashMismatch oid.toHex actual.toHex))))
  | .upload oid _ temp (.refused e), .remove => some ((s.remove temp.path).setProc i (.uploaded oid (.error e)))
  | .upload oid _ _ (.refused e), .removeFails => some (s.setProc i (.uploaded oid (.error e)))
  | .upload oid _ temp .verified, .rename =>
    some ((s.rename temp.inode temp.path (objectPath root oid)).setProc i (.uploaded oid (.ok ())))
  | .upload oid _ _ .verified, .renameFails => some (s.setProc i (.uploaded oid (.error .io)))
  | .idle, .get oid => some (s.setProc i (.wanted oid))
  | .wanted oid, .stat =>
    some (s.setProc i (if (s.names (objectPath root oid)).isSome then .found oid else .notServed))
  | .wanted _, .statFails => some (s.setProc i .notServed)
  | .found oid, .open => (s.names (objectPath root oid)).map fun inode => s.setProc i (.reading oid inode [])
  | .found _, .openFails => some (s.setProc i .notServed)
  | .reading oid inode got, .read n =>
    some (s.setProc i (.reading oid inode (got ++ ((s.data inode).drop got.length).take n)))
  | .reading oid inode got, .eof =>
    if (s.data inode).length ≤ got.length then some (s.setProc i (.served oid got)) else none
  | _, _ => none

def step (s : State ι) (e : ι × Action) : Option (State ι) := procStep root sha256 s e.1 e.2

end Step

/-- Names of temporary files are fresh, and no path of an object. -/
def FreshNames (root : Path) (s : State ι) : ι × Action → Prop
  | (i, .create name) => ∀ oid size, s.procs i = .absent oid size →
    s.names (objectDir root oid ++ [name]) = none ∧ ∀ oid', objectDir root oid ++ [name] ≠ objectPath root oid'
  | _ => True

/-! ### The invariant -/

variable {temp : Temp} {oid : LfsOid} {size : UInt64} {j : ι}

section Invariant

variable (root : Path) (sha256 : Bytes → LfsOid)

/-- The inode has verified bytes of the object, and nobody writes to it. -/
structure Published (s : State ι) (oid : LfsOid) (inode : Nat) : Prop where
  used : inode < s.next
  hash : sha256 (s.data inode) = oid
  hashed : s.data inode ∈ s.hashed
  unheld : ∀ i temp, (s.procs i).temp = some temp → temp.inode ≠ inode

/-- The temporary file has what has been received. -/
structure Held (s : State ι) (temp : Temp) : Prop where
  name : s.names temp.path = some temp.inode
  used : temp.inode < s.next
  data : s.data temp.inode = temp.received
  path : ∀ oid, temp.path ≠ objectPath root oid

def ProcInv (s : State ι) : Proc → Prop
  | .upload oid _ temp .verified => Held root s temp ∧ sha256 temp.received = oid ∧ temp.received ∈ s.hashed
  | .upload _ _ temp _ => Held root s temp
  | .reading oid inode got => Published sha256 s oid inode ∧ got <+: s.data inode
  | .served oid bytes => sha256 bytes = oid
  | _ => True

structure Inv (s : State ι) : Prop where
  proc : ∀ i, ProcInv root sha256 s (s.procs i)
  object : ∀ oid inode, s.names (objectPath root oid) = some inode → Published sha256 s oid inode
  apart : ∀ i j temp temp', i ≠ j → (s.procs i).temp = some temp → (s.procs j).temp = some temp' →
    temp.inode ≠ temp'.inode

/-- What a step of process `i`, which takes it to `p`, does to the files. It writes to its own
temporary file only, and a name of an object is only ever set, to a file that is verified. -/
structure Moves [DecidableEq ι] (s s' : State ι) (i : ι) (p : Proc) : Prop where
  procs : s'.procs = Function.update s.procs i p
  next : s.next ≤ s'.next
  hashed : s.hashed ⊆ s'.hashed
  data : ∀ inode < s.next, (∀ temp, (s.procs i).temp = some temp → temp.inode ≠ inode) → s'.data inode = s.data inode
  names : ∀ path inode, s.names path = some inode → (∀ temp, (s.procs i).temp = some temp → temp.path ≠ path) →
    (∀ oid, path ≠ objectPath root oid) → s'.names path = some inode
  object : ∀ oid, s'.names (objectPath root oid) = s.names (objectPath root oid) ∨ ∃ size temp,
    s.procs i = .upload oid size temp .verified ∧ s'.names (objectPath root oid) = some temp.inode ∧ p.temp = none ∧
      s'.data temp.inode = s.data temp.inode
  temp : ∀ temp, p.temp = some temp → temp.inode = s.next ∨ ∃ old, (s.procs i).temp = some old ∧ temp.inode = old.inode

variable {root sha256} {s s' : State ι} {i : ι} {p : Proc}

theorem ProcInv.held {stage : Stage} (h : ProcInv root sha256 s (.upload oid size temp stage)) :
    Held root s temp := by
  cases stage with
  | verified => exact h.1
  | _ => exact h

theorem Inv.held (h : Inv root sha256 s) (htemp : (s.procs i).temp = some temp) :
    Held root s temp := by
  have hproc := h.proc i
  cases hcall : s.procs i with
  | upload oid size temp' stage =>
    rw [hcall] at hproc htemp
    cases htemp
    exact hproc.held
  | _ => simp [hcall, Proc.temp] at htemp

namespace Moves

variable [DecidableEq ι]

theorem procs_of_ne (h : Moves root s s' i p) (hj : j ≠ i) : s'.procs j = s.procs j := by
  rw [h.procs, Function.update_of_ne hj]

theorem temp_cases (h : Moves root s s' i p) (htemp : (s'.procs j).temp = some temp) :
    j = i ∧ temp.inode = s.next ∨ ∃ old, (s.procs j).temp = some old ∧ temp.inode = old.inode := by
  by_cases hj : j = i
  · subst hj
    rw [h.procs, Function.update_self] at htemp
    rcases h.temp temp htemp with hnew | hold
    · exact Or.inl ⟨rfl, hnew⟩
    · exact Or.inr hold
  · rw [h.procs_of_ne hj] at htemp
    exact Or.inr ⟨temp, htemp, rfl⟩

theorem published (h : Moves root s s' i p) {inode : Nat} (hpub : Published sha256 s oid inode) :
    Published sha256 s' oid inode := by
  have hdata : s'.data inode = s.data inode := h.data inode hpub.used fun temp htemp => hpub.unheld i temp htemp
  refine ⟨hpub.used.trans_le h.next, hdata ▸ hpub.hash, hdata ▸ h.hashed hpub.hashed, fun j temp htemp => ?_⟩
  rcases h.temp_cases htemp with ⟨-, hnew⟩ | ⟨old, hold, heq⟩
  · have hused := hpub.used
    omega
  · exact heq ▸ hpub.unheld j old hold

theorem held (h : Moves root s s' i p) (hinv : Inv root sha256 s) (hj : j ≠ i)
    (htemp : (s.procs j).temp = some temp) : Held root s' temp := by
  have hheld := hinv.held htemp
  have hinode : ∀ mine, (s.procs i).temp = some mine → mine.inode ≠ temp.inode :=
    fun mine hmine => hinv.apart i j mine temp (Ne.symm hj) hmine htemp
  refine ⟨h.names _ _ hheld.name (fun mine hmine hpath => hinode mine hmine ?_) hheld.path, hheld.used.trans_le h.next,
    (h.data _ hheld.used hinode).trans hheld.data, hheld.path⟩
  exact Option.some.inj ((hinv.held hmine).name.symm.trans (hpath ▸ hheld.name))

theorem procInv (h : Moves root s s' i p) (hinv : Inv root sha256 s) (hj : j ≠ i) :
    ProcInv root sha256 s' (s.procs j) := by
  have hproc := hinv.proc j
  have hheld : ∀ temp, (s.procs j).temp = some temp → Held root s' temp := fun temp => h.held hinv hj
  cases hcall : s.procs j with
  | upload oid size temp stage =>
    rw [hcall] at hproc hheld
    cases stage with
    | verified => exact ⟨hheld temp rfl, hproc.2.1, h.hashed hproc.2.2⟩
    | _ => exact hheld temp rfl
  | reading oid inode got =>
    rw [hcall] at hproc
    obtain ⟨hpub, hgot⟩ := hproc
    exact ⟨h.published hpub, h.data inode hpub.used (fun temp htemp => hpub.unheld i temp htemp) ▸ hgot⟩
  | served oid bytes =>
    rw [hcall] at hproc
    exact hproc
  | _ => trivial

/-- **A step keeps the invariant**, if it holds of the process that moves. -/
theorem inv (h : Moves root s s' i p) (hinv : Inv root sha256 s) (hp : ProcInv root sha256 s' p) :
    Inv root sha256 s' where
  proc j := by
    by_cases hj : j = i
    · rw [hj, h.procs, Function.update_self]
      exact hp
    · rw [h.procs_of_ne hj]
      exact h.procInv hinv hj
  object oid inode hname := by
    rcases h.object oid with hsame | ⟨size, temp, hcall, hset, hnone, hdata⟩
    · exact h.published (hinv.object oid inode (hsame ▸ hname))
    · -- the temporary file has been renamed
      obtain rfl : temp.inode = inode := Option.some.inj (hset.symm.trans hname)
      have htemp : (s.procs i).temp = some temp := by rw [hcall, Proc.temp]
      have hproc := hinv.proc i
      rw [hcall] at hproc
      obtain ⟨hheld, hhash, hhashed⟩ := hproc
      refine ⟨hheld.used.trans_le h.next, ?_, ?_, fun j temp' htemp' => ?_⟩
      · rw [hdata, hheld.data, hhash]
      · rw [hdata, hheld.data]
        exact h.hashed hhashed
      · by_cases hj : j = i
        · rw [hj, h.procs, Function.update_self, hnone] at htemp'
          simp at htemp'
        · rw [h.procs_of_ne hj] at htemp'
          exact hinv.apart j i temp' temp hj htemp' htemp
  apart j k temp temp' hjk htemp htemp' := by
    rcases h.temp_cases htemp with ⟨rfl, hnew⟩ | ⟨old, hold, heq⟩
    · rcases h.temp_cases htemp' with ⟨rfl, -⟩ | ⟨old', hold', heq'⟩
      · exact absurd rfl hjk
      · have hused := (hinv.held hold').used
        omega
    · rcases h.temp_cases htemp' with ⟨rfl, hnew⟩ | ⟨old', hold', heq'⟩
      · have hused := (hinv.held hold).used
        omega
      · rw [heq, heq']
        exact hinv.apart j k old old' hjk hold hold'

theorem setProc {hashed : List Bytes} (hhashed : s.hashed ⊆ hashed)
    (htemp : p.temp = none ∨ p.temp = (s.procs i).temp) :
    Moves root s ({ s with hashed }.setProc i p) i p where
  procs := rfl
  next := le_rfl
  hashed := hhashed
  data _ _ _ := rfl
  names _ _ hname _ _ := hname
  object _ := Or.inl rfl
  temp temp hsome := by
    rcases htemp with hnone | hsame
    · simp [hnone] at hsome
    · exact Or.inr ⟨temp, hsame ▸ hsome, rfl⟩

theorem append {stage : Stage} (hcall : s.procs i = .upload oid size temp stage) (chunk : Bytes)
    (htemp : ∀ temp', p.temp = some temp' → temp'.inode = temp.inode) :
    Moves root s ((s.append temp.inode chunk).setProc i p) i p where
  procs := rfl
  next := le_rfl
  hashed := List.Subset.refl _
  data inode _ hother := Function.update_of_ne (hother temp (by rw [hcall, Proc.temp])).symm _ _
  names _ _ hname _ _ := hname
  object _ := Or.inl rfl
  temp temp' hsome := Or.inr ⟨temp, by rw [hcall, Proc.temp], htemp temp' hsome⟩

theorem create {path : Path} (hfree : s.names path = none)
    (hpath : ∀ oid, path ≠ objectPath root oid) : Moves root s ({ s with
      names := Function.update s.names path (some s.next)
      data := Function.update s.data s.next []
      next := s.next + 1 }.setProc i (.upload oid size ⟨path, s.next, []⟩ .receiving)) i
      (.upload oid size ⟨path, s.next, []⟩ .receiving) where
  procs := rfl
  next := Nat.le_succ _
  hashed := List.Subset.refl _
  data inode hused _ := Function.update_of_ne (Nat.ne_of_lt hused) _ _
  names path' inode hname _ _ := by
    have hne : path' ≠ path := by
      rintro rfl
      simp [hfree] at hname
    exact (Function.update_of_ne hne _ _).trans hname
  object oid := Or.inl (Function.update_of_ne (hpath oid).symm _ _)
  temp temp hsome := by
    cases hsome
    exact Or.inl rfl

theorem remove {stage : Stage} (hcall : s.procs i = .upload oid size temp stage)
    (hpath : ∀ oid, temp.path ≠ objectPath root oid) (hnone : p.temp = none) :
    Moves root s ((s.remove temp.path).setProc i p) i p where
  procs := rfl
  next := le_rfl
  hashed := List.Subset.refl _
  data _ _ _ := rfl
  names path inode hname hother _ :=
    (Function.update_of_ne (hother temp (by rw [hcall, Proc.temp])).symm _ _).trans hname
  object oid := Or.inl (Function.update_of_ne (hpath oid).symm _ _)
  temp temp hsome := by simp [hnone] at hsome

theorem rename (hcall : s.procs i = .upload oid size temp .verified)
    (hpath : ∀ oid, temp.path ≠ objectPath root oid) (hnone : p.temp = none) :
    Moves root s ((s.rename temp.inode temp.path (objectPath root oid)).setProc i p) i p where
  procs := rfl
  next := le_rfl
  hashed := List.Subset.refl _
  data _ _ _ := rfl
  names path inode hname hother hobject := by
    have hne := (hother temp (by rw [hcall, Proc.temp])).symm
    exact (Function.update_of_ne hne _ _).trans ((Function.update_of_ne (hobject oid) _ _).trans hname)
  object oid' := by
    have htemp := Function.update_of_ne (hpath oid').symm none
      (Function.update s.names (objectPath root oid) (some temp.inode))
    by_cases hoid : oid' = oid
    · subst hoid
      exact Or.inr ⟨size, temp, hcall, htemp.trans (Function.update_self ..), hnone, rfl⟩
    · exact Or.inl (htemp.trans (Function.update_of_ne (fun heq => hoid (objectPath_inj heq)) _ _))
  temp temp hsome := by simp [hnone] at hsome

end Moves

variable [DecidableEq ι]

theorem Inv.moves (h : Inv root sha256 s) {action : Action} (hok : FreshNames root s (i, action))
    (hstep : procStep root sha256 s i action = some s') :
    ∃ p, Moves root s s' i p ∧ ProcInv root sha256 s' p := by
  have hi := h.proc i
  have hquiet : ∀ {p : Proc}, (p.temp = none ∨ p.temp = (s.procs i).temp) → ProcInv root sha256 (s.setProc i p) p →
      ∃ p', Moves root s (s.setProc i p) i p' ∧ ProcInv root sha256 (s.setProc i p) p' :=
    fun htemp hp => ⟨_, .setProc (List.Subset.refl _) htemp, hp⟩
  have hlater : ∀ {oid size temp stage stage'}, s.procs i = .upload oid size temp stage → stage' ≠ .verified →
      ∃ p', Moves root s (s.setProc i (.upload oid size temp stage')) i p' ∧
        ProcInv root sha256 (s.setProc i (.upload oid size temp stage')) p' := by
    intro oid size temp stage stage' hcall hstage
    rw [hcall] at hi
    have hheld := hi.held
    refine hquiet (Or.inr (by rw [hcall]; rfl)) ?_
    cases stage' with
    | verified => exact absurd rfl hstage
    | _ => exact ⟨hheld.name, hheld.used, hheld.data, hheld.path⟩
  unfold procStep at hstep
  split at hstep
  -- steps of a process without a temporary file, and failures
  case h_1 | h_3 | h_4 | h_7 | h_11 | h_15 | h_17 | h_18 | h_20 | h_22 =>
    cases hstep
    exact hquiet (Or.inl rfl) trivial
  case h_2 | h_19 =>
    cases hstep
    split
    · exact hquiet (Or.inl rfl) trivial
    · exact hquiet (Or.inl rfl) trivial
  -- `create`
  case h_5 oid size name hcall =>
    cases hstep
    obtain ⟨hfree, hpath⟩ := hok oid size hcall
    refine ⟨_, .create hfree hpath, ?_⟩
    exact ⟨Function.update_self .., Nat.lt_succ_self _, Function.update_self .., hpath⟩
  -- `receive` and `writeFails`
  case h_6 oid size temp chunk hcall =>
    cases hstep
    rw [hcall] at hi
    refine ⟨_, .append hcall chunk fun temp' hsome => by rw [← Option.some.inj hsome], ?_⟩
    exact ⟨hi.held.name, hi.held.used, (Function.update_self ..).trans (by rw [hi.held.data]), hi.held.path⟩
  case h_8 oid size temp chunk n hcall =>
    cases hstep
    exact ⟨_, .append hcall (chunk.take n) fun _ hsome => (by simp [Proc.temp] at hsome), trivial⟩
  -- `endOfBody` and `flush`
  case h_9 oid size temp hcall =>
    cases hstep
    exact hlater hcall (by decide)
  case h_10 oid size temp hcall =>
    cases hstep
    exact hlater hcall (by decide)
  -- `checkSize` and `checkHash`
  case h_12 oid size temp hcall =>
    cases hstep
    refine hlater hcall ?_
    split
    · decide
    · simp
  case h_13 oid size temp hcall =>
    cases hstep
    rw [hcall] at hi
    have hheld := hi.held
    refine ⟨_, .setProc (List.subset_cons_self _ _) (Or.inr (by rw [hcall]; rfl)), ?_⟩
    split
    · rename_i hhash
      exact ⟨⟨hheld.name, hheld.used, hheld.data, hheld.path⟩, hhash, List.mem_cons_self⟩
    · exact ⟨hheld.name, hheld.used, hheld.data, hheld.path⟩
  -- `remove` and `rename`
  case h_14 oid size temp e hcall =>
    cases hstep
    rw [hcall] at hi
    exact ⟨_, .remove hcall hi.held.path rfl, trivial⟩
  case h_16 oid size temp hcall =>
    cases hstep
    rw [hcall] at hi
    exact ⟨_, .rename hcall hi.held.path rfl, trivial⟩
  -- `open`, `read` and `eof` of a download
  case h_21 oid hcall =>
    obtain ⟨inode, hname, rfl⟩ := Option.map_eq_some_iff.mp hstep
    have hmoves := @Moves.setProc _ root s i (.reading oid inode []) _ s.hashed (List.Subset.refl _) (Or.inl rfl)
    exact ⟨_, hmoves, hmoves.published (h.object oid inode hname), List.nil_prefix⟩
  case h_23 oid inode got n hcall =>
    cases hstep
    rw [hcall] at hi
    obtain ⟨hpub, rest, hrest⟩ := hi
    have hmoves := @Moves.setProc _ root s i (.reading oid inode (got ++ ((s.data inode).drop got.length).take n)) _
      s.hashed (List.Subset.refl _) (Or.inl rfl)
    refine ⟨_, hmoves, hmoves.published hpub, ?_⟩
    rw [← hrest, List.drop_left]
    show _ <+: s.data inode
    rw [← hrest, List.prefix_append_right_inj]
    exact List.take_prefix n rest
  case h_24 oid inode got hcall =>
    obtain ⟨hend, hstep⟩ := Option.ite_none_right_eq_some.mp hstep
    cases hstep
    rw [hcall] at hi
    obtain ⟨hpub, hgot⟩ := hi
    refine hquiet (Or.inl rfl) ?_
    rw [ProcInv, hgot.eq_of_length_le hend, hpub.hash]
  case h_25 => simp at hstep

/-- What a run keeps from the state `s` on: the objects that are there stay. -/
structure Keeps (root : Path) (s s' : State ι) : Prop where
  object : ∀ oid, s.names (objectPath root oid) ≠ none → s'.names (objectPath root oid) ≠ none
  hashed : s.hashed ⊆ s'.hashed

theorem Moves.keeps (h : Moves root s s' i p) : Keeps root s s' where
  object oid hpresent := by
    rcases h.object oid with hsame | ⟨size, temp, -, hset, -⟩
    · rwa [hsame]
    · simp [hset]
  hashed := h.hashed

end Invariant

/-- The files at the paths of objects are objects whose bytes have been hashed, and no request has
begun. -/
structure Start (root : Path) (sha256 : Bytes → LfsOid) (s : State ι) : Prop where
  object : ∀ oid inode, s.names (objectPath root oid) = some inode →
    inode < s.next ∧ sha256 (s.data inode) = oid ∧ s.data inode ∈ s.hashed
  procs : ∀ i, s.procs i = .idle

theorem Start.inv {root : Path} {sha256 : Bytes → LfsOid} {s : State ι} (h : Start root sha256 s) :
    Inv root sha256 s where
  proc i := by
    rw [h.procs]
    trivial
  object oid inode hname := by
    obtain ⟨hused, hhash, hhashed⟩ := h.object oid inode hname
    exact ⟨hused, hhash, hhashed, fun i temp htemp => by simp [h.procs, Proc.temp] at htemp⟩
  apart i j temp temp' _ htemp := by simp [h.procs, Proc.temp] at htemp

section Runs

variable [DecidableEq ι] {root : Path} {sha256 : Bytes → LfsOid} {s₀ s s' : State ι}

theorem inv_of_runs (hstart : Inv root sha256 s₀)
    (hrun : Runs (step root sha256) (FreshNames root) s₀ s) : Inv root sha256 s := by
  refine hrun.invariant (Inv root sha256) (fun h hok hstep => ?_) hstart
  obtain ⟨p, hmoves, hp⟩ := h.moves hok hstep
  exact hmoves.inv h hp

theorem keeps_of_runs (hinv : Inv root sha256 s)
    (hrun : Runs (step root sha256) (FreshNames root) s s') : Keeps root s s' := by
  have hboth : Inv root sha256 s' ∧ Keeps root s s' := by
    refine hrun.invariant (fun t => Inv root sha256 t ∧ Keeps root s t) (fun ⟨h, hkeeps⟩ hok hstep => ?_)
      ⟨hinv, ⟨fun _ h => h, List.Subset.refl _⟩⟩
    obtain ⟨p, hmoves, hp⟩ := h.moves hok hstep
    exact ⟨hmoves.inv h hp, fun oid hpresent => hmoves.keeps.object oid (hkeeps.object oid hpresent),
      List.Subset.trans hkeeps.hashed hmoves.keeps.hashed⟩
  exact hboth.2

/-- **Objects are never served corrupted.** In every run of uploads and downloads, the file at the
path of an object has the SHA-256 that its path says, and so has whatever a download delivers; and
in every continuation of the run the object is still there, with the same bytes, unless two of the
contents that were hashed collide. -/
theorem objects_sound (hstart : Start root sha256 s₀)
    (hrun : Runs (step root sha256) (FreshNames root) s₀ s)
    (hrun' : Runs (step root sha256) (FreshNames root) s s')
    (hcollision : ∀ a ∈ s'.hashed, ∀ b ∈ s'.hashed, sha256 a = sha256 b → a = b) :
    (∀ oid inode, s.names (objectPath root oid) = some inode → sha256 (s.data inode) = oid ∧
      ∃ inode', s'.names (objectPath root oid) = some inode' ∧ s'.data inode' = s.data inode) ∧
    ∀ i oid bytes, s.procs i = .served oid bytes → sha256 bytes = oid := by
  have hinv := inv_of_runs hstart.inv hrun
  refine ⟨fun oid inode hname => ?_, fun i oid bytes hserved => ?_⟩
  · have hpub := hinv.object oid inode hname
    have hkeeps := keeps_of_runs hinv hrun'
    obtain ⟨inode', hname'⟩ := Option.ne_none_iff_exists'.mp (hkeeps.object oid (by simp [hname]))
    have hpub' := (inv_of_runs hinv hrun').object oid inode' hname'
    refine ⟨hpub.hash, inode', hname', ?_⟩
    exact hcollision _ hpub'.hashed _ (hkeeps.hashed hpub.hashed) (hpub'.hash.trans hpub.hash.symm)
  · have hproc := hinv.proc i
    rwa [hserved] at hproc

end Runs

/-! ### Two uploads of one object -/

/-- The names that `tempfile` gives are shorter than the name of an object, and it tries another one
if the name is taken. -/
def ShortNames (root : Path) (s : State ι) : ι × Action → Prop
  | (i, .create name) => name.length < 64 ∧
    match s.procs i with
    | .absent oid _ => s.names (objectDir root oid ++ [name]) = none
    | _ => True
  | _ => True

instance (root : Path) (s : State ι) (e : ι × Action) : Decidable (ShortNames root s e) := by
  unfold ShortNames
  split
  · refine @instDecidableAnd _ _ inferInstance ?_
    split <;> infer_instance
  · infer_instance

theorem FreshNames.of_shortNames {root : Path} {s : State ι} {e : ι × Action}
    (h : ShortNames root s e) : FreshNames root s e := by
  obtain ⟨i, action⟩ := e
  cases action with
  | create name =>
    obtain ⟨hshort, hfree⟩ := h
    intro oid size hcall
    rw [hcall] at hfree
    refine ⟨hfree, fun oid' heq => ?_⟩
    obtain ⟨-, hlast⟩ := List.append_inj' heq rfl
    have hlength : name.length = 64 := by
      rw [(List.cons.inj hlast).1, LfsOid.toHex, length_hexEncode, oid'.length_eq]
    omega
  | _ => trivial

/-- A hash for short contents: the content with zeros behind it. -/
def paddedHash (content : Bytes) : LfsOid := ⟨content.takeD 32 0, List.takeD_length ..⟩

local instance (priority := 2000) neZeroThree : NeZero 3 := ⟨by decide⟩

def emptyStore : State (Fin 3) := ⟨fun _ => none, fun _ => [], 0, [], fun _ => .idle⟩

/-- Uploads `0` and `1` of the same object pass the test; upload `0` is renamed into place. -/
def firstUpload : List (Fin 3 × Action) :=
  [(0, .put (paddedHash [1, 2]) 2), (1, .put (paddedHash [1, 2]) 2), (0, .test), (1, .test), (0, .create [97]),
    (1, .create [98]), (0, .receive [1, 2]), (1, .receive [1]), (0, .endOfBody), (0, .flush),
    (0, .checkSize), (0, .checkHash),
    (0, .rename)]

/-- Upload `1` is renamed over it while download `2` has the first file open. -/
def secondUpload : List (Fin 3 × Action) :=
  [(2, .get (paddedHash [1, 2])), (2, .stat), (2, .open), (2, .read 1), (1, .receive [2]),
    (1, .endOfBody), (1, .flush),
    (1, .checkSize), (1, .checkHash), (1, .rename), (2, .read 1), (2, .eof)]

theorem objects_sound_two_uploads :
    ∃ s s' : State (Fin 3), s.names (objectPath [] (paddedHash [1, 2])) = some 0 ∧
    s'.names (objectPath [] (paddedHash [1, 2])) = some 1 ∧ s'.procs 2 = .served (paddedHash [1, 2]) [1, 2] ∧
    s'.data 1 = s.data 0 := by
  have hevents : ((runList (step [] paddedHash) (ShortNames []) emptyStore firstUpload).bind fun s =>
      (runList (step [] paddedHash) (ShortNames []) s secondUpload).map fun s' =>
        (s.names (objectPath [] (paddedHash [1, 2])), s'.names (objectPath [] (paddedHash [1, 2])), s'.procs 2,
          s'.hashed)) = some (some 0, some 1, .served (paddedHash [1, 2]) [1, 2],
            [[1, 2], [1, 2]]) := by decide +kernel
  obtain ⟨s, hfirst, hrest⟩ := Option.bind_eq_some_iff.mp hevents
  obtain ⟨s', hsecond, hend⟩ := Option.map_eq_some_iff.mp hrest
  simp only [Prod.mk.injEq] at hend
  obtain ⟨hname, hname', hserved, hhashed⟩ := hend
  have hstart : Start [] paddedHash emptyStore := ⟨fun _ _ hname => by simp [emptyStore] at hname, fun _ => rfl⟩
  have hruns : ∀ {t t' : State (Fin 3)} {es}, runList (step [] paddedHash) (ShortNames []) t es = some t' →
      Runs (step [] paddedHash) (FreshNames []) t t' :=
    fun hrun => (Runs.of_runList hrun).mono fun _ _ => FreshNames.of_shortNames
  obtain ⟨hobjects, -⟩ := objects_sound hstart (hruns hfirst) (hruns hsecond) (by rw [hhashed]; decide)
  obtain ⟨-, inode', hinode, hdata⟩ := hobjects _ _ hname
  obtain rfl : inode' = 1 := Option.some.inj (hinode.symm.trans hname')
  exact ⟨s, s', hname, hname', hserved, hdata⟩

end Mizzle.Lfs
