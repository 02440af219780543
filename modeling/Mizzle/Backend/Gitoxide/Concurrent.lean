import Mizzle.Backend.Gitoxide.Ingest

/-!
# Concurrent ingests and rollbacks of the gitoxide backend

Pushes to one repository that run at the same time. In `ingest_pack_sync` the test for a name and
the move to it are two steps, and a rollback removes the index and the pack in two steps; `step`
takes one such step of one push. Names embed the content hash: `content` is what a file name stands
for, so pushes of the same bytes have the same file names. An accepted push goes on to its ref
transaction and never removes a file.

A push that finds its files in place relies on files of another push, and nothing keeps that other
push from removing them. `step_relied_iff` says when a step takes away a file that an accepted push
relies on, and `accepted_files_stay` that the files of accepted pushes stay as long as no step
does.
-/

namespace Mizzle.Gitoxide

open Lib

/-- The names of the two files that a push has in its temporary directory. -/
structure StagedFiles where
  pack : String
  index : String

/-- What a push does next. The flags say which files it has moved. -/
inductive Pc where
  | testPack
  | movePack
  | testIndex (packOwned : Bool)
  | moveIndex (packOwned : Bool)
  | ingested (w : FsWrittenPack)
  | removeIndex (w : FsWrittenPack)
  | removePack (w : FsWrittenPack)
  | accepted
  | rejected
deriving DecidableEq

structure State (ι : Type) where
  dir : PackDir
  pc : ι → Pc

variable {ι : Type} [DecidableEq ι]

def State.init (dir : PackDir) : State ι := ⟨dir, fun _ => .testPack⟩

def State.move (s : State ι) (i : ι) (dir : PackDir) (pc : Pc) : State ι :=
  ⟨dir, Function.update s.pc i pc⟩

/-- Everything that a run of pushes is about: their files, what file names stand for, and which
pushes the authoriser accepts. -/
structure Pushes (ι : Type) where
  staged : ι → StagedFiles
  content : String → Bytes
  accepts : ι → Bool

variable (p : Pushes ι)

/-- One step of push `i`; `none` when it has finished. -/
def step (s : State ι) (i : ι) : Option (State ι) :=
  let files := p.staged i
  match s.pc i with
  | .testPack => some (s.move i s.dir (if (s.dir files.pack).isSome then .testIndex false else .movePack))
  | .movePack => some (s.move i (s.dir.write files.pack (p.content files.pack)) (.testIndex true))
  | .testIndex packOwned =>
    some (s.move i s.dir
      (if (s.dir files.index).isSome then .ingested ⟨files.pack, files.index, packOwned, false⟩
        else .moveIndex packOwned))
  | .moveIndex packOwned =>
    some (s.move i (s.dir.write files.index (p.content files.index))
      (.ingested ⟨files.pack, files.index, packOwned, true⟩))
  | .ingested w => some (s.move i s.dir (if p.accepts i then .accepted else .removeIndex w))
  | .removeIndex w => some (s.move i (s.dir.undo w.index w.indexOwned) (.removePack w))
  | .removePack w => some (s.move i (s.dir.undo w.pack w.packOwned) .rejected)
  | .accepted => none
  | .rejected => none

def run (s : State ι) : List ι → Option (State ι)
  | [] => some s
  | i :: rest => (step p s i).bind (run · rest)


/-- What a step of push `i` can be: it only looks, it writes one of its own files, it removes a file
that it owns, or it is accepted. -/
inductive Moves (s : State ι) (i : ι) : State ι → Prop where
  | foundPack (hpc : s.pc i = .testPack) (hin : (s.dir (p.staged i).pack).isSome) :
      Moves s i (s.move i s.dir (.testIndex false))
  | missedPack (hpc : s.pc i = .testPack) : Moves s i (s.move i s.dir .movePack)
  | movedPack (hpc : s.pc i = .movePack) :
      Moves s i (s.move i (s.dir.write (p.staged i).pack (p.content (p.staged i).pack)) (.testIndex true))
  | foundIndex {packOwned : Bool} (hpc : s.pc i = .testIndex packOwned) (hin : (s.dir (p.staged i).index).isSome) :
      Moves s i (s.move i s.dir (.ingested ⟨(p.staged i).pack, (p.staged i).index, packOwned, false⟩))
  | missedIndex {packOwned : Bool} (hpc : s.pc i = .testIndex packOwned) :
      Moves s i (s.move i s.dir (.moveIndex packOwned))
  | movedIndex {packOwned : Bool} (hpc : s.pc i = .moveIndex packOwned) :
      Moves s i (s.move i (s.dir.write (p.staged i).index (p.content (p.staged i).index))
        (.ingested ⟨(p.staged i).pack, (p.staged i).index, packOwned, true⟩))
  | accepted {w : FsWrittenPack} (hpc : s.pc i = .ingested w) (haccepts : p.accepts i) :
      Moves s i (s.move i s.dir .accepted)
  | refused {w : FsWrittenPack} (hpc : s.pc i = .ingested w) : Moves s i (s.move i s.dir (.removeIndex w))
  | removedIndex {w : FsWrittenPack} (hpc : s.pc i = .removeIndex w) :
      Moves s i (s.move i (s.dir.undo w.index w.indexOwned) (.removePack w))
  | removedPack {w : FsWrittenPack} (hpc : s.pc i = .removePack w) :
      Moves s i (s.move i (s.dir.undo w.pack w.packOwned) .rejected)

variable {i : ι} {dir : PackDir} {s s' : State ι} {pc : Pc}

variable {p} in
theorem step_moves (hstep : step p s i = some s') : Moves p s i s' := by
  cases hpc : s.pc i with
  | testPack =>
    simp only [step, hpc] at hstep
    cases hstep
    split
    · exact .foundPack hpc (by assumption)
    · exact .missedPack hpc
  | movePack =>
    simp only [step, hpc] at hstep
    exact Option.some.inj hstep ▸ .movedPack hpc
  | testIndex packOwned =>
    simp only [step, hpc] at hstep
    cases hstep
    split
    · exact .foundIndex hpc (by assumption)
    · exact .missedIndex hpc
  | moveIndex packOwned =>
    simp only [step, hpc] at hstep
    exact Option.some.inj hstep ▸ .movedIndex hpc
  | ingested w =>
    simp only [step, hpc] at hstep
    cases hstep
    split
    · exact .accepted hpc (by assumption)
    · exact .refused hpc
  | removeIndex w =>
    simp only [step, hpc] at hstep
    exact Option.some.inj hstep ▸ .removedIndex hpc
  | removePack w =>
    simp only [step, hpc] at hstep
    exact Option.some.inj hstep ▸ .removedPack hpc
  | accepted => simp [step, hpc] at hstep
  | rejected => simp [step, hpc] at hstep

/-! ### A push that runs alone -/

theorem run_append (s : State ι) (first rest : List ι) :
    run p s (first ++ rest) = (run p s first).bind (run p · rest) := by
  induction first generalizing s with
  | nil => rfl
  | cons i first ih =>
    rw [List.cons_append, run, run, Option.bind_assoc]
    exact congrArg _ (funext ih)

theorem run_installPack (s : State ι) (hpc : s.pc i = .testPack) :
    ∃ n, run p s (List.replicate n i) =
      some (s.move i (s.dir.install ((p.staged i).pack, p.content (p.staged i).pack)).1
        (.testIndex (s.dir.install ((p.staged i).pack, p.content (p.staged i).pack)).2)) := by
  by_cases hpresent : (s.dir (p.staged i).pack).isSome
  · exact ⟨1, by simp [run, step, hpc, hpresent, PackDir.install]⟩
  · exact ⟨2, by simp [run, step, hpc, hpresent, PackDir.install, State.move]⟩

theorem run_installIndex (s : State ι) {packOwned : Bool} (hpc : s.pc i = .testIndex packOwned) :
    ∃ n, run p s (List.replicate n i) =
      some (s.move i (s.dir.install ((p.staged i).index, p.content (p.staged i).index)).1
        (.ingested ⟨(p.staged i).pack, (p.staged i).index, packOwned,
          (s.dir.install ((p.staged i).index, p.content (p.staged i).index)).2⟩)) := by
  by_cases hpresent : (s.dir (p.staged i).index).isSome
  · exact ⟨1, by simp [run, step, hpc, hpresent, PackDir.install]⟩
  · exact ⟨2, by simp [run, step, hpc, hpresent, PackDir.install, State.move]⟩

/-- **With no other push in between, the steps come to `ingest_pack_sync`.** -/
theorem run_alone (s : State ι) (hpc : s.pc i = .testPack) : ∃ n, run p s (List.replicate n i) =
      some (s.move i
        (installFiles s.dir ((p.staged i).pack, p.content (p.staged i).pack)
          ((p.staged i).index, p.content (p.staged i).index)).1
        (.ingested (installFiles s.dir ((p.staged i).pack, p.content (p.staged i).pack)
          ((p.staged i).index, p.content (p.staged i).index)).2)) := by
  obtain ⟨n, hpack⟩ := run_installPack p s hpc
  obtain ⟨m, hindex⟩ := run_installIndex p (s.move i
    (s.dir.install ((p.staged i).pack, p.content (p.staged i).pack)).1
    (.testIndex (s.dir.install ((p.staged i).pack, p.content (p.staged i).pack)).2)) (Function.update_self ..)
  refine ⟨n + m, ?_⟩
  rw [List.replicate_add, run_append, hpack, Option.bind_some, hindex]
  simp [State.move, installFiles]

theorem run_rollback (s : State ι) {w : FsWrittenPack} (hpc : s.pc i = .ingested w)
    (hreject : p.accepts i = false) :
    run p s [i, i, i] = some (s.move i (rollbackIngest s.dir w) .rejected) := by
  simp [run, step, hpc, hreject, State.move, rollbackIngest]

/-! ### Files that a push relies on -/

/-- The push has found its pack in place or moved it there, and does not roll back. -/
def Pc.settledPack : Pc → Bool
  | .testIndex _ | .moveIndex _ | .ingested _ | .accepted => true
  | _ => false

/-- The same for its index. -/
def Pc.settledIndex : Pc → Bool
  | .ingested _ | .accepted => true
  | _ => false

/-- The files that accepted pushes have settled are in place. -/
structure Relied (s : State ι) : Prop where
  pack : ∀ j, p.accepts j → (s.pc j).settledPack → (s.dir (p.staged j).pack).isSome
  index : ∀ j, p.accepts j → (s.pc j).settledIndex → (s.dir (p.staged j).index).isSome

/-- No accepted push has settled a file of this name. -/
def Unneeded (s : State ι) (name : String) : Prop :=
  ∀ j, p.accepts j → ((p.staged j).pack = name → (s.pc j).settledPack = false) ∧
    ((p.staged j).index = name → (s.pc j).settledIndex = false)

/-- The file that the next step of a push removes. -/
def Pc.removes : Pc → Option String
  | .removeIndex w => if w.indexOwned then some w.index else none
  | .removePack w => if w.packOwned then some w.pack else none
  | _ => none

/-- The next step of push `i` removes no file that an accepted push has settled. -/
def RemovalSafe (s : State ι) (i : ι) : Prop := ∀ name ∈ (s.pc i).removes, Unneeded p s name

/-- Every step of the run is one whose removal is safe in the state before it. -/
def Guarded (s : State ι) : List ι → Prop
  | [] => True
  | i :: rest => RemovalSafe p s i ∧ ∀ s' ∈ step p s i, Guarded s' rest

section Decidable

variable [Fintype ι]

instance (s : State ι) (name : String) : Decidable (Unneeded p s name) :=
  inferInstanceAs (Decidable (∀ j, p.accepts j → _ ∧ _))

instance (s : State ι) (i : ι) : Decidable (RemovalSafe p s i) :=
  inferInstanceAs (Decidable (∀ name ∈ (s.pc i).removes, Unneeded p s name))

instance decidableGuarded (s : State ι) : (schedule : List ι) → Decidable (Guarded p s schedule)
  | [] => isTrue trivial
  | i :: rest =>
    have (s' : State ι) : Decidable (Guarded p s' rest) := decidableGuarded s' rest
    inferInstanceAs (Decidable (RemovalSafe p s i ∧ ∀ s' ∈ step p s i, Guarded p s' rest))

end Decidable

variable {p}

theorem Relied.move {s : State ι} (h : Relied p s)
    (hkeeps : ∀ name, (s.dir name).isSome → (dir name).isSome)
    (hpack : p.accepts i → pc.settledPack → (dir (p.staged i).pack).isSome)
    (hindex : p.accepts i → pc.settledIndex → (dir (p.staged i).index).isSome) :
    Relied p (s.move i dir pc) := by
  constructor
  · intro j hj hsettled
    by_cases hji : j = i
    · subst hji
      exact hpack hj (by simpa [State.move] using hsettled)
    · exact hkeeps _ (h.pack j hj (by simpa [State.move, hji] using hsettled))
  · intro j hj hsettled
    by_cases hji : j = i
    · subst hji
      exact hindex hj (by simpa [State.move] using hsettled)
    · exact hkeeps _ (h.index j hj (by simpa [State.move, hji] using hsettled))

theorem isSome_write (name : String) (bytes : Bytes) {n : String} (h : (dir n).isSome) :
    (dir.write name bytes n).isSome := by
  by_cases hn : n = name
  · simp [hn]
  · rwa [PackDir.write_ne _ _ hn]

theorem relied_remove_iff {s : State ι} (h : Relied p s)
    (hbefore : (s.pc i).settledPack = false ∧ (s.pc i).settledIndex = false)
    (hafter : pc.settledPack = false ∧ pc.settledIndex = false) (name : String) :
    Relied p (s.move i (s.dir.remove name) pc) ↔ Unneeded p s name := by
  have hsame : ∀ j, ((s.move i (s.dir.remove name) pc).pc j).settledPack = (s.pc j).settledPack ∧
      ((s.move i (s.dir.remove name) pc).pc j).settledIndex = (s.pc j).settledIndex := by
    intro j
    by_cases hji : j = i
    · subst hji
      simp [State.move, hbefore, hafter]
    · simp [State.move, hji]
  constructor
  · intro hrelied j hj
    constructor
    · rintro rfl
      by_contra hsettled
      have hin := hrelied.pack j hj ((hsame j).1.trans (by simpa using hsettled))
      simp [State.move] at hin
    · rintro rfl
      by_contra hsettled
      have hin := hrelied.index j hj ((hsame j).2.trans (by simpa using hsettled))
      simp [State.move] at hin
  · intro hfree
    constructor
    · intro j hj hsettled
      rw [(hsame j).1] at hsettled
      have hne : (p.staged j).pack ≠ name := fun heq => by simp [(hfree j hj).1 heq] at hsettled
      exact (congrArg Option.isSome (PackDir.remove_ne s.dir hne)).trans (h.pack j hj hsettled)
    · intro j hj hsettled
      rw [(hsame j).2] at hsettled
      have hne : (p.staged j).index ≠ name := fun heq => by simp [(hfree j hj).2 heq] at hsettled
      exact (congrArg Option.isSome (PackDir.remove_ne s.dir hne)).trans (h.index j hj hsettled)

theorem relied_undo_iff {s : State ι} (h : Relied p s)
    (hbefore : (s.pc i).settledPack = false ∧ (s.pc i).settledIndex = false)
    (hafter : pc.settledPack = false ∧ pc.settledIndex = false) (name : String) (owned : Bool) :
    Relied p (s.move i (s.dir.undo name owned) pc) ↔ (owned → Unneeded p s name) := by
  cases owned with
  | false =>
    refine iff_of_true (h.move (fun _ => id) (fun _ hsettled => ?_) fun _ hsettled => ?_) (by simp)
    · simp [hafter] at hsettled
    · simp [hafter] at hsettled
  | true => simpa [PackDir.undo] using relied_remove_iff h hbefore hafter name

/-- **Exactly the unsafe removals take away a file** that an accepted push relies on. -/
theorem step_relied_iff (h : Relied p s) (hstep : step p s i = some s') :
    Relied p s' ↔ RemovalSafe p s i := by
  -- a push that is not rolling back removes nothing
  have hkeeps : (s.pc i).removes = none → Relied p s' → (Relied p s' ↔ RemovalSafe p s i) := by
    intro hnone hrelied
    exact iff_of_true hrelied (by simp [RemovalSafe, hnone])
  cases step_moves hstep with
  | foundPack hpc hin =>
    exact hkeeps (by simp [hpc, Pc.removes]) (h.move (fun _ => id) (fun _ _ => hin) (by simp [Pc.settledIndex]))
  | missedPack hpc =>
    exact hkeeps (by simp [hpc, Pc.removes])
      (h.move (fun _ => id) (by simp [Pc.settledPack]) (by simp [Pc.settledIndex]))
  | movedPack hpc =>
    exact hkeeps (by simp [hpc, Pc.removes])
      (h.move (fun _ => isSome_write _ _) (fun _ _ => by simp) (by simp [Pc.settledIndex]))
  | foundIndex hpc hin =>
    exact hkeeps (by simp [hpc, Pc.removes])
      (h.move (fun _ => id) (fun hi _ => h.pack i hi (by simp [hpc, Pc.settledPack])) fun _ _ => hin)
  | missedIndex hpc =>
    exact hkeeps (by simp [hpc, Pc.removes])
      (h.move (fun _ => id) (fun hi _ => h.pack i hi (by simp [hpc, Pc.settledPack])) (by simp [Pc.settledIndex]))
  | movedIndex hpc =>
    exact hkeeps (by simp [hpc, Pc.removes])
      (h.move (fun _ => isSome_write _ _)
        (fun hi _ => isSome_write _ _ (h.pack i hi (by simp [hpc, Pc.settledPack]))) fun _ _ => by simp)
  | accepted hpc haccepts =>
    exact hkeeps (by simp [hpc, Pc.removes])
      (h.move (fun _ => id) (fun hi _ => h.pack i hi (by simp [hpc, Pc.settledPack]))
        fun hi _ => h.index i hi (by simp [hpc, Pc.settledIndex]))
  | refused hpc =>
    exact hkeeps (by simp [hpc, Pc.removes])
      (h.move (fun _ => id) (by simp [Pc.settledPack]) (by simp [Pc.settledIndex]))
  | removedIndex hpc =>
    rw [relied_undo_iff h (by simp [hpc, Pc.settledPack, Pc.settledIndex]) ⟨rfl, rfl⟩]
    simp [RemovalSafe, hpc, Pc.removes]
  | removedPack hpc =>
    rw [relied_undo_iff h (by simp [hpc, Pc.settledPack, Pc.settledIndex]) ⟨rfl, rfl⟩]
    simp [RemovalSafe, hpc, Pc.removes]

/-! ### Whole runs -/

variable (p) in
/-- Every file holds what its name stands for, and only accepted pushes end as accepted. -/
structure Addressed (s : State ι) : Prop where
  content : ∀ name bytes, s.dir name = some bytes → bytes = p.content name
  accepted : ∀ i, s.pc i = .accepted → p.accepts i

theorem Addressed.move {s : State ι} (h : Addressed p s)
    (hdir : ∀ name bytes, dir name = some bytes → s.dir name = some bytes ∨ bytes = p.content name)
    (hpc : pc = .accepted → p.accepts i) : Addressed p (s.move i dir pc) := by
  constructor
  · intro name bytes hname
    rcases hdir name bytes hname with hold | hnew
    · exact h.content name bytes hold
    · exact hnew
  · intro j hj
    by_cases hji : j = i
    · subst hji
      exact hpc (by simpa [State.move] using hj)
    · exact h.accepted j (by simpa [State.move, hji] using hj)

omit [DecidableEq ι] in
theorem write_content {file name : String} {bytes : Bytes}
    (h : dir.write file (p.content file) name = some bytes) :
    dir name = some bytes ∨ bytes = p.content name := by
  by_cases hname : name = file
  · subst hname
    exact Or.inr (by simpa using h.symm)
  · rw [PackDir.write_ne _ _ hname] at h
    exact Or.inl h

theorem of_undo {file name : String} {owned : Bool} {bytes : Bytes}
    (h : dir.undo file owned name = some bytes) : dir name = some bytes := by
  rw [PackDir.undo] at h
  split at h
  · by_cases hname : name = file
    · simp [hname] at h
    · rwa [PackDir.remove_ne _ hname] at h
  · exact h

theorem addressed_step (h : Addressed p s) (hstep : step p s i = some s') : Addressed p s' := by
  cases step_moves hstep with
  | foundPack => exact h.move (fun _ _ => Or.inl) (by simp)
  | missedPack => exact h.move (fun _ _ => Or.inl) (by simp)
  | movedPack => exact h.move (fun _ _ => write_content) (by simp)
  | foundIndex => exact h.move (fun _ _ => Or.inl) (by simp)
  | missedIndex => exact h.move (fun _ _ => Or.inl) (by simp)
  | movedIndex => exact h.move (fun _ _ => write_content) (by simp)
  | accepted _ haccepts => exact h.move (fun _ _ => Or.inl) fun _ => haccepts
  | refused => exact h.move (fun _ _ => Or.inl) (by simp)
  | removedIndex => exact h.move (fun _ _ hname => Or.inl (of_undo hname)) (by simp)
  | removedPack => exact h.move (fun _ _ hname => Or.inl (of_undo hname)) (by simp)

theorem run_relied {schedule : List ι} (haddr : Addressed p s) (hrelied : Relied p s)
    (hguard : Guarded p s schedule) (hrun : run p s schedule = some s') :
    Addressed p s' ∧ Relied p s' := by
  induction schedule generalizing s with
  | nil => exact Option.some.inj hrun ▸ ⟨haddr, hrelied⟩
  | cons i rest ih =>
    obtain ⟨s₁, hone, hrest⟩ := Option.bind_eq_some_iff.mp hrun
    exact ih (addressed_step haddr hone) ((step_relied_iff hrelied hone).mpr hguard.1) (hguard.2 s₁ hone) hrest

/-- **The files of accepted pushes stay.** In every state that a run reaches, if no step of the run
removes a file that an accepted push has settled, then the pack and the index of every push that
ended as accepted are in place. -/
theorem accepted_files_stay (p : Pushes ι) {dir : PackDir}
    (hdir : ∀ name bytes, dir name = some bytes → bytes = p.content name) {schedule : List ι}
    {s : State ι} (hguard : Guarded p (.init dir) schedule)
    (hrun : run p (.init dir) schedule = some s) (i : ι) (hi : s.pc i = .accepted) :
    s.dir (p.staged i).pack = some (p.content (p.staged i).pack) ∧
      s.dir (p.staged i).index = some (p.content (p.staged i).index) := by
  have haddr₀ : Addressed p (.init dir) := ⟨hdir, fun j hj => by simp [State.init] at hj⟩
  have hrelied₀ : Relied p (.init dir) :=
    ⟨fun j _ hj => by simp [State.init, Pc.settledPack] at hj,
      fun j _ hj => by simp [State.init, Pc.settledIndex] at hj⟩
  obtain ⟨haddr, hrelied⟩ := run_relied haddr₀ hrelied₀ hguard hrun
  have haccepts := haddr.accepted i hi
  obtain ⟨pack, hpack⟩ := Option.isSome_iff_exists.mp (hrelied.pack i haccepts (by simp [hi, Pc.settledPack]))
  obtain ⟨index, hindex⟩ := Option.isSome_iff_exists.mp (hrelied.index i haccepts (by simp [hi, Pc.settledIndex]))
  exact ⟨hpack.trans (congrArg some (haddr.content _ _ hpack)),
    hindex.trans (congrArg some (haddr.content _ _ hindex))⟩

/-- Two pushes of the same bytes; the first is rejected, the second accepted. -/
def samePush : Pushes (Fin 2) where
  staged _ := ⟨"pack-1f.pack", "pack-1f.idx"⟩
  content name := utf8 name
  accepts i := i = 1

/-- The rejected push moves its files in and out again while the accepted one has tested for the
name only. -/
theorem accepted_files_stay_late :
    ∃ s, run samePush (.init fun _ => none) [1, 0, 0, 0, 0, 0, 0, 0, 1, 1, 1, 1] = some s ∧
      s.pc 1 = .accepted ∧
      s.dir "pack-1f.pack" = some (utf8 "pack-1f.pack") ∧ s.dir "pack-1f.idx" = some (utf8 "pack-1f.idx") := by
  have hrun : (run samePush (.init fun _ => none) [1, 0, 0, 0, 0, 0, 0, 0, 1, 1, 1, 1]).any
      fun s => s.pc 1 = .accepted := by decide +kernel
  have hguard : Guarded samePush (.init fun _ => none) [1, 0, 0, 0, 0, 0, 0, 0, 1, 1, 1, 1] := by
    decide +kernel
  obtain ⟨s, hs, hdone⟩ := (Option.any_eq_true _ _).mp hrun
  have haccepted : s.pc 1 = .accepted := of_decide_eq_true hdone
  exact ⟨s, hs, haccepted, accepted_files_stay samePush (by simp) hguard hs 1 haccepted⟩

/-- The accepted push finds the files of the rejected one in place, and then they are removed. -/
theorem rollback_unlinks_accepted :
    ∃ s, run samePush (.init fun _ => none) [0, 0, 0, 0, 1, 1, 1, 0, 0, 0] = some s ∧
      s.pc 0 = .rejected ∧ s.pc 1 = .accepted ∧ s.dir "pack-1f.pack" = none ∧ s.dir "pack-1f.idx" = none := by
  have hrun : (run samePush (.init fun _ => none) [0, 0, 0, 0, 1, 1, 1, 0, 0, 0]).any fun s =>
      s.pc 0 = .rejected ∧ s.pc 1 = .accepted ∧ s.dir "pack-1f.pack" = none ∧ s.dir "pack-1f.idx" = none := by
    decide +kernel
  obtain ⟨s, hs, hend⟩ := (Option.any_eq_true _ _).mp hrun
  exact ⟨s, hs, of_decide_eq_true hend⟩

end Mizzle.Gitoxide
