import Mizzle.Lib.Bytes
import Mizzle.Lib.Runs

/-!
# The file of a cached pack

`try_hit` and `write` of `mizzle/src/backend/pack_cache.rs`, for any number of `build_pack` calls
with one key at once. A call tests whether the file exists and opens it; or it builds its pack,
creates or truncates the file, and writes the bytes at its own offset, in chunks, until it is
through or an error stops it, which nobody hears of. A reader reads chunks until it meets the end of
the file.

There is neither a lock nor a rename, so a reader may meet the end of a file that is still being
written (`torn_hit`). Every hit is a complete pack in the runs in which a file is truncated only
while nobody has it open, and a reader meets the end of the file only when the write has come to
its end (`hits_complete`).
-/

namespace Mizzle.Pack.CacheFile

open Lib

inductive Call where
  | started
  /-- `path.exists()`. -/
  | found
  | missed
  /-- The pack is built. -/
  | holding (pack : Bytes)
  /-- In `std::fs::write`. -/
  | writing (written rest : Bytes)
  /-- Has returned its own pack. -/
  | returned
  /-- Has returned the open file; this has been read. -/
  | reading (got : Bytes)
  /-- The reader is at the end. -/
  | delivered (bytes : Bytes)
deriving DecidableEq

structure State (ι : Type) where
  file : Option Bytes
  /-- The last write that was begun has come to its end. -/
  complete : Bool
  /-- The packs that have been built for the key. -/
  built : List Bytes
  calls : ι → Call

inductive Action where
  | test
  | open
  /-- An error on opening is a miss. -/
  | openFails
  | build (pack : Bytes)
  | create
  /-- The directory or the file cannot be created. -/
  | createFails
  | append (n : Nat)
  | finish
  | stop
  | read (n : Nat)
  | eof
deriving DecidableEq

/-- A write at an offset; what is not there yet before it reads as zeros. -/
def writeAt (content : Bytes) (offset : Nat) (chunk : Bytes) : Bytes :=
  content.takeD offset 0 ++ chunk ++ content.drop (offset + chunk.length)

variable {ι : Type}

def State.setCall [DecidableEq ι] (s : State ι) (i : ι) (c : Call) : State ι :=
  { s with calls := Function.update s.calls i c }

/-- One step of call `i`. -/
def callStep [DecidableEq ι] (s : State ι) (i : ι) (action : Action) : Option (State ι) :=
  match s.calls i, action with
  | .started, .test => some (s.setCall i (if s.file.isSome then .found else .missed))
  | .found, .open => if s.file.isSome then some (s.setCall i (.reading [])) else none
  | .found, .openFails => some (s.setCall i .missed)
  | .missed, .build pack => some ({ s with built := pack :: s.built }.setCall i (.holding pack))
  | .holding pack, .create => some ({ s with file := some [], complete := false }.setCall i (.writing [] pack))
  | .holding _, .createFails => some (s.setCall i .returned)
  | .writing written rest, .append n =>
    some ({ s with file := s.file.map fun content => writeAt content written.length (rest.take n) }.setCall i
      (.writing (written ++ rest.take n) (rest.drop n)))
  | .writing _ [], .finish => some ({ s with complete := true }.setCall i .returned)
  | .writing _ _, .stop => some (s.setCall i .returned)
  | .reading got, .read n => s.file.map fun content => s.setCall i (.reading (got ++ (content.drop got.length).take n))
  | .reading got, .eof =>
    s.file.bind fun content => if content.length ≤ got.length then some (s.setCall i (.delivered got)) else none
  | _, _ => none

def step [DecidableEq ι] (s : State ι) (e : ι × Action) : Option (State ι) := callStep s e.1 e.2

/-- The start: no file, or one that has been written before. -/
def State.init (file : Option Bytes) : State ι :=
  ⟨file, file.isSome, file.toList, fun _ => .started⟩

def Call.HasOpen : Call → Prop
  | .writing _ _ | .reading _ => True
  | _ => False

instance (c : Call) : Decidable c.HasOpen := by
  cases c <;> unfold Call.HasOpen <;> infer_instance

/-- A file is truncated only while nobody has it open, and a reader meets its end only when the
write has come to its end. -/
def Undisturbed (s : State ι) : ι × Action → Prop
  | (_, .create) => ∀ j, ¬ (s.calls j).HasOpen
  | (_, .eof) => s.complete = true
  | _ => True

instance [Fintype ι] (s : State ι) (e : ι × Action) : Decidable (Undisturbed s e) := by
  unfold Undisturbed
  split <;> infer_instance

/-! ### What holds in undisturbed runs -/

def CallInv (s : State ι) (i : ι) : Prop :=
  match s.calls i with
  | .holding pack => pack ∈ s.built
  | .writing written rest => s.file = some written ∧ written ++ rest ∈ s.built ∧ s.complete = false ∧
    ∀ j written' rest', s.calls j = .writing written' rest' → j = i
  | .reading got => ∃ content, s.file = some content ∧ got <+: content
  | .delivered bytes => bytes ∈ s.built
  | _ => True

structure Inv (s : State ι) : Prop where
  call : ∀ i, CallInv s i
  complete : s.complete = true → ∃ pack ∈ s.built, s.file = some pack

theorem inv_init (file : Option Bytes) : Inv (State.init file : State ι) where
  call _ := trivial
  complete h := by
    obtain ⟨content, rfl⟩ := Option.isSome_iff_exists.mp h
    exact ⟨content, by simp [State.init], rfl⟩

theorem writeAt_length (written chunk : Bytes) :
    writeAt written written.length chunk = written ++ chunk := by
  simp [writeAt, List.takeD_eq_take]

variable {s s' : State ι} {i : ι}

theorem calls_setCall_of_ne [DecidableEq ι] {c : Call} {j : ι} (hj : j ≠ i) :
    (s.setCall i c).calls j = s.calls j :=
  Function.update_of_ne hj _ _

theorem CallInv.frame {j : ι} (h : CallInv s j) (hcalls : s'.calls j = s.calls j)
    (hbuilt : s.built ⊆ s'.built)
    (hread : ∀ content got, s.file = some content → got <+: content → ∃ content', s'.file =
      some content' ∧ got <+: content')
    (hwrite : ∀ written rest, s.calls j = .writing written rest → s'.file = s.file ∧ s'.complete =
      s.complete ∧ ∀ k written' rest', s'.calls k = .writing written' rest' → s.calls k =
        .writing written' rest') : CallInv s' j := by
  unfold CallInv at h ⊢
  rw [hcalls]
  cases hcall : s.calls j with
  | writing written rest =>
    rw [hcall] at h
    obtain ⟨hfile, hmem, hcomplete, hunique⟩ := h
    obtain ⟨hfile', hcomplete', hcalls'⟩ := hwrite written rest hcall
    exact ⟨hfile'.trans hfile, hbuilt hmem, hcomplete'.trans hcomplete,
      fun k written' rest' hk => hunique k written' rest' (hcalls' k written' rest' hk)⟩
  | reading got =>
    rw [hcall] at h
    obtain ⟨content, hfile, hprefix⟩ := h
    exact hread content got hfile hprefix
  | holding pack => exact hbuilt (by simpa [hcall] using h)
  | delivered bytes => exact hbuilt (by simpa [hcall] using h)
  | _ => trivial

theorem Inv.other_not_writing (h : Inv s) {written rest : Bytes}
    (hcall : s.calls i = .writing written rest) {j : ι} (hj : j ≠ i) (written' rest' : Bytes) :
    s.calls j ≠ .writing written' rest' := by
  have hwriter := h.call i
  rw [CallInv, hcall] at hwriter
  exact fun hother => hj (hwriter.2.2.2 j written' rest' hother)

variable [DecidableEq ι]

theorem Inv.setCall (h : Inv s) {built : List Bytes} (hbuilt : s.built ⊆ built) {c : Call}
    (hc : CallInv ({ s with built }.setCall i c) i)
    (hwriting : ∀ written rest, c ≠ .writing written rest) :
    Inv ({ s with built }.setCall i c) where
  call j := by
    by_cases hj : j = i
    · exact hj ▸ hc
    · refine (h.call j).frame (calls_setCall_of_ne hj) hbuilt (fun content got hfile hgot => ⟨content, hfile, hgot⟩)
        fun _ _ _ => ⟨rfl, rfl, fun k written rest hk => ?_⟩
      by_cases hk' : k = i
      · subst hk'
        exact absurd ((Function.update_self ..).symm.trans hk) (hwriting written rest)
      · rwa [calls_setCall_of_ne hk'] at hk
  complete hcomplete := by
    obtain ⟨pack, hpack, hfile⟩ := h.complete hcomplete
    exact ⟨pack, hbuilt hpack, hfile⟩

theorem Inv.create (h : Inv s) {pack : Bytes} (hcall : s.calls i = .holding pack)
    (hfree : ∀ j, ¬ (s.calls j).HasOpen) :
    Inv ({ s with file := some [], complete := false }.setCall i (.writing [] pack)) where
  call j := by
    by_cases hj : j = i
    · subst hj
      have hpack := h.call j
      rw [CallInv, hcall] at hpack
      simp only [CallInv, State.setCall, Function.update_self, List.nil_append, true_and]
      refine ⟨hpack, fun k written rest hk => ?_⟩
      by_contra hne
      rw [Function.update_of_ne hne] at hk
      exact hfree k (hk ▸ trivial)
    · have hinv := h.call j
      have hnot := hfree j
      unfold CallInv at hinv ⊢
      rw [calls_setCall_of_ne hj]
      cases hcall : s.calls j with
      | writing written rest => exact absurd (hcall ▸ trivial) hnot
      | reading got => exact absurd (hcall ▸ trivial) hnot
      | holding pack => simpa [hcall, State.setCall] using hinv
      | delivered bytes => simpa [hcall, State.setCall] using hinv
      | _ => trivial
  complete hcomplete := absurd hcomplete Bool.false_ne_true

theorem Inv.append (h : Inv s) {written rest : Bytes} (hcall : s.calls i = .writing written rest)
    (n : Nat) :
    Inv ({ s with file := s.file.map fun content => writeAt content written.length (rest.take
      n) }.setCall i
      (.writing (written ++ rest.take n) (rest.drop n))) := by
  have hwriter := h.call i
  rw [CallInv, hcall] at hwriter
  obtain ⟨hfile, hmem, hcomplete, -⟩ := hwriter
  have hfile' : s.file.map (fun content =>
      writeAt content written.length (rest.take n)) = some (written ++ rest.take n) := by
    rw [hfile, Option.map_some, writeAt_length]
  refine ⟨fun j => ?_, fun htrue => absurd (hcomplete.symm.trans htrue) Bool.false_ne_true⟩
  by_cases hj : j = i
  · subst hj
    simp only [CallInv, State.setCall, Function.update_self]
    refine ⟨hfile', by rwa [List.append_assoc, List.take_append_drop], hcomplete, fun k written' rest' hk => ?_⟩
    by_contra hne
    rw [Function.update_of_ne hne] at hk
    exact h.other_not_writing hcall hne _ _ hk
  · refine (h.call j).frame (calls_setCall_of_ne hj) (List.Subset.refl _) (fun content got hcontent hgot => ?_)
      fun _ _ hother => absurd hother (h.other_not_writing hcall hj _ _)
    obtain rfl : written = content := Option.some.inj (hfile.symm.trans hcontent)
    exact ⟨written ++ rest.take n, hfile', hgot.trans (List.prefix_append _ _)⟩

theorem Inv.finish (h : Inv s) {written : Bytes} (hcall : s.calls i = .writing written []) :
    Inv ({ s with complete := true }.setCall i .returned) := by
  have hwriter := h.call i
  rw [CallInv, hcall] at hwriter
  obtain ⟨hfile, hmem, -, -⟩ := hwriter
  refine ⟨fun j => ?_, fun _ => ⟨written, List.append_nil written ▸ hmem, hfile⟩⟩
  by_cases hj : j = i
  · subst hj
    simp only [CallInv, State.setCall, Function.update_self]
  · exact (h.call j).frame (calls_setCall_of_ne hj) (List.Subset.refl _)
      (fun content got hcontent hgot => ⟨content, hcontent, hgot⟩)
      fun _ _ hother => absurd hother (h.other_not_writing hcall hj _ _)

/-- **A step keeps the invariant.** -/
theorem Inv.callStep (h : Inv s) {action : Action} (hok : Undisturbed s (i, action))
    (hstep : callStep s i action = some s') : Inv s' := by
  have hi := h.call i
  unfold CacheFile.callStep at hstep
  have hsame : ∀ {c : Call}, CallInv (s.setCall i c) i →
      (∀ written rest, c ≠ .writing written rest) → Inv (s.setCall i c) :=
    fun hc hwriting => h.setCall (List.Subset.refl _) hc hwriting
  split at hstep
  case h_1 hcall =>
    cases hstep
    split
    · exact hsame (by simp [CallInv, State.setCall]) (by simp)
    · exact hsame (by simp [CallInv, State.setCall]) (by simp)
  case h_2 hcall =>
    obtain ⟨hfile, hstep⟩ := Option.ite_none_right_eq_some.mp hstep
    cases hstep
    obtain ⟨content, hcontent⟩ := Option.isSome_iff_exists.mp hfile
    exact hsame (by simp [CallInv, State.setCall, hcontent]) (by simp)
  case h_3 hcall =>
    cases hstep
    exact hsame (by simp [CallInv, State.setCall]) (by simp)
  case h_4 pack hcall =>
    cases hstep
    exact h.setCall (List.subset_cons_self _ _) (by simp [CallInv, State.setCall]) (by simp)
  case h_5 pack hcall =>
    cases hstep
    exact h.create hcall hok
  case h_6 pack hcall =>
    cases hstep
    exact hsame (by simp [CallInv, State.setCall]) (by simp)
  case h_7 written rest n hcall =>
    cases hstep
    exact h.append hcall n
  case h_8 written hcall =>
    cases hstep
    exact h.finish hcall
  case h_9 written rest hcall =>
    cases hstep
    exact hsame (by simp [CallInv, State.setCall]) (by simp)
  case h_10 got n hcall =>
    rw [CallInv, hcall] at hi
    obtain ⟨content, hcontent, hgot⟩ := hi
    rw [hcontent, Option.map_some] at hstep
    cases hstep
    refine hsame ?_ (by simp)
    simp only [CallInv, State.setCall, Function.update_self]
    refine ⟨content, hcontent, ?_⟩
    obtain ⟨rest, rfl⟩ := hgot
    rw [List.drop_left, List.prefix_append_right_inj]
    exact List.take_prefix n rest
  case h_11 got hcall =>
    rw [CallInv, hcall] at hi
    obtain ⟨content, hcontent, hgot⟩ := hi
    rw [hcontent, Option.bind_some] at hstep
    obtain ⟨hend, hstep⟩ := Option.ite_none_right_eq_some.mp hstep
    cases hstep
    obtain ⟨pack, hpack, hfile⟩ := h.complete hok
    -- at the end of the file all of it has been read
    obtain rfl : got = content := hgot.eq_of_length_le hend
    obtain rfl : pack = got := Option.some.inj (hfile.symm.trans hcontent)
    exact hsame (by simpa [CallInv, State.setCall] using hpack) (by simp)
  case h_12 => simp at hstep

/-- **When a hit is never torn.** In every run in which the file is truncated only while nobody has
it open, and readers meet its end only when the write has come to its end, every hit delivers a pack
that was built for the key. -/
theorem hits_complete (file : Option Bytes) {s : State ι}
    (hrun : Runs step Undisturbed (.init file) s) (i : ι) (bytes : Bytes)
    (hhit : s.calls i = .delivered bytes) : bytes ∈ s.built := by
  have hinv : Inv s := hrun.invariant Inv (fun h hok hstep => h.callStep hok hstep) (inv_init file)
  have hi := hinv.call i
  rwa [CallInv, hhit] at hi

/-- Call `0` misses and writes its pack; call `1` finds the file, opens it while it is written, and
reads on when it is complete. -/
theorem hits_complete_two_calls : ∃ s : State (Fin 2), Runs step Undisturbed (.init none) s ∧
    s.calls 1 = .delivered [1, 2] ∧ [1, 2] ∈ s.built := by
  obtain ⟨s, hrun, hhit⟩ : ∃ s, runList step Undisturbed (.init none : State (Fin 2))
      [(0, .test), (0, .build [1, 2]), (0, .create), (0, .append 1), (1, .test), (1, .open),
        (1, .read 8), (0, .append 1),
        (0, .finish), (1, .read 8), (1, .eof)] = some s ∧ s.calls 1 = .delivered [1, 2] := ⟨_, rfl, by decide⟩
  exact ⟨s, .of_runList hrun, hhit, hits_complete none (.of_runList hrun) 1 [1, 2] hhit⟩

/-- **A torn hit.** A reader meets the end of the file between two chunks of the writer; and when
the writer stops on an error, every later hit is torn. -/
theorem torn_hit :
    (∃ s : State (Fin 2), Runs step (fun _ _ => True) (.init none) s ∧ s.calls 1 = .delivered [1] ∧
      s.built = [[1, 2]] ∧
      s.calls 0 = .writing [1] [2]) ∧
    ∃ s : State (Fin 2), Runs step (fun _ _ => True) (.init none) s ∧ s.calls 1 = .delivered [1] ∧ s.built = [[1, 2]] ∧
      s.calls 0 = .returned := by
  constructor
  · obtain ⟨s, hrun, hend⟩ : ∃ s : State (Fin 2), runList step (fun _ _ => True) (.init none)
        [(0, .test), (0, .build [1, 2]), (0, .create), (0, .append 1), (1, .test), (1, .open), (1, .read 8),
          (1, .eof)] = some s ∧ s.calls 1 = .delivered [1] ∧ s.built = [[1, 2]] ∧ s.calls 0 = .writing [1] [2] :=
      ⟨_, rfl, by decide⟩
    exact ⟨s, .of_runList hrun, hend⟩
  · obtain ⟨s, hrun, hend⟩ : ∃ s : State (Fin 2), runList step (fun _ _ => True) (.init none)
        [(0, .test), (0, .build [1, 2]), (0, .create), (0, .append 1), (0, .stop), (1, .test),
          (1, .open), (1, .read 8),
          (1, .eof)] = some s ∧ s.calls 1 = .delivered [1] ∧ s.built = [[1, 2]] ∧ s.calls 0 = .returned :=
      ⟨_, rfl, by decide⟩
    exact ⟨s, .of_runList hrun, hend⟩

end Mizzle.Pack.CacheFile
