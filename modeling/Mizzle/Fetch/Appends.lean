import Mizzle.Fetch.Perform

/-!
# Responses do not look back

Every computation that writes a response adds to the log and decides nothing by it (`Appends`),
whether it succeeds or fails. So a response that is written behind others is the response that is
written alone.
-/

namespace Mizzle.Fetch

open Lib Pack

instance : Append FetchLog := ⟨fun a b => ⟨a.packets ++ b.packets, a.calls ++ b.calls⟩⟩

namespace FetchLog

theorem append_def (a b : FetchLog) : a ++ b = ⟨a.packets ++ b.packets, a.calls ++ b.calls⟩ := rfl

@[simp] theorem empty_append (a : FetchLog) : ({} : FetchLog) ++ a = a := by
  obtain ⟨packets, calls⟩ := a
  simp [append_def]

@[simp] theorem append_empty (a : FetchLog) : a ++ ({} : FetchLog) = a := by
  obtain ⟨packets, calls⟩ := a
  simp [append_def]

theorem append_assoc (a b c : FetchLog) : a ++ b ++ c = a ++ (b ++ c) := by
  simp [append_def]

end FetchLog

/-- The computation adds to the log what it adds to the empty one, with the same result. -/
def Appends {α : Type} (m : FetchM α) : Prop :=
  ∀ log : FetchLog, m.runFrom log = (m.exec.1, log ++ m.exec.2)

namespace Appends

variable {α β γ : Type} {m : FetchM α} {f : α → FetchM β}

theorem pure (a : α) : Appends (Pure.pure a : FetchM α) := by
  intro log
  rw [show (Pure.pure a : FetchM α).exec = (.ok a, {}) from rfl, FetchLog.append_empty]
  rfl

theorem throw (e : String) : Appends (throw e : FetchM α) := by
  intro log
  rw [show (MonadExcept.throw e : FetchM α).exec = (.error e, {}) from rfl, FetchLog.append_empty]
  rfl

theorem lift (x : Except String α) : Appends (liftM x : FetchM α) := by
  cases x with
  | error e => exact throw e
  | ok a => exact pure a

theorem packet (p : PacketLine) : Appends (writePacket p) := by
  rintro ⟨packets, calls⟩
  rw [FetchM.exec, Writes.packet p {}, Writes.packet p ⟨packets, calls⟩]
  rfl

theorem call (c : BuildCall) :
    Appends (modify fun log : FetchLog =>
      { log with calls := log.calls ++ [c] } : FetchM PUnit) := by
  rintro ⟨packets, calls⟩
  have hexec : (modify fun log : FetchLog => { log with calls := log.calls ++ [c] } : FetchM PUnit).exec =
      (.ok (), ⟨[], [c]⟩) := rfl
  rw [hexec, FetchLog.append_def, List.append_nil]
  rfl

theorem bind (h : Appends m) (hf : ∀ a, Appends (f a)) : Appends (m >>= f) := by
  intro log
  rw [FetchM.exec, runFrom_bind, runFrom_bind, h log, h {}, FetchLog.empty_append]
  cases m.exec.1 with
  | error e => rfl
  | ok a => simp only [hf a (log ++ m.exec.2), hf a m.exec.2, FetchLog.append_assoc]

theorem ite {c : Prop} [Decidable c] {m' : FetchM α} (h : Appends m) (h' : Appends m') :
    Appends (if c then m else m') := by
  split
  · exact h
  · exact h'

theorem forM {act : γ → FetchM PUnit} (h : ∀ x, Appends (act x)) (xs : List γ) :
    Appends (xs.forM act) := by
  induction xs with
  | nil => exact pure ()
  | cons x xs ih => exact (h x).bind fun _ => ih

end Appends

/-! ### The parts of a response -/

theorem appends_dataToWrite (before payload after : Bytes) :
    Appends (dataToWrite before payload after) :=
  .ite (.throw _) (.ite (.throw _) (.packet _))

theorem appends_text (text : Bytes) : Appends (textToWrite text) := appends_dataToWrite _ _ _

theorem appends_drain (progress : Option (Nat → List Bytes)) (round : Nat) :
    Appends (drain progress round) := by
  cases progress with
  | none => exact .pure ()
  | some pending => exact .forM (fun m => appends_dataToWrite _ m _) _

theorem appends_streamChunks (progress : Option (Nat → List Bytes)) (failure : Option String)
    (chunks : List Bytes) (round : Nat) : Appends (streamChunks progress failure round chunks) := by
  induction chunks generalizing round with
  | nil =>
    refine (appends_drain progress round).bind fun _ => ?_
    cases failure with
    | none => exact .pure _
    | some e => exact .throw e
  | cons chunk chunks ih =>
    exact (appends_drain progress round).bind fun _ => (appends_dataToWrite _ _ _).bind fun _ => ih (round + 1)

theorem appends_sendPack (args : FetchArgs) (output : PackOutput) :
    Appends (sendPack args output) := by
  exact .bind (.bind (appends_streamChunks _ _ _ _) fun round => appends_drain _ round) fun _ => .packet .flush

theorem appends_callBuildPack (backend : FetchBackend) (args : FetchArgs) (haves : List ObjectId) :
    Appends (callBuildPack backend args haves) :=
  (Appends.lift _).bind fun _ => (Appends.call _).bind fun _ => .lift _

theorem appends_acknowledge (args : FetchArgs) (haves : List ObjectId) :
    Appends (acknowledge args haves) := by
  have hacks : Appends (sendAcks haves) := .ite (appends_text _) (.forM (fun _ => appends_text _) _)
  have hend : ∀ ready, Appends (endAcks ready) := fun _ =>
    .ite ((appends_text _).bind fun _ => .packet .delimiter) (.packet .flush)
  exact (appends_text _).bind fun _ => hacks.bind fun _ => (hend _).bind fun _ => .pure _

theorem appends_shallowInfo (shallow : List ObjectId) : Appends (shallowInfo shallow) :=
  .ite ((appends_text _).bind fun _ => (Appends.forM (fun _ => appends_text _) _).bind fun _ =>
    .packet .delimiter) (.pure ())

/-- **A v2 response does not depend on what has been written before it.** -/
theorem appends_performFetch (backend : FetchBackend) (args : FetchArgs) :
    Appends (performFetch backend args) := by
  have hpack : ∀ haves (goOn : Bool), Appends (if goOn then do
      let output ← callBuildPack backend args haves
      shallowInfo output.shallow
      textToWrite (utf8 "packfile")
      sendPack args output
    else pure () : FetchM Unit) := fun haves _ =>
    .ite ((appends_callBuildPack backend args haves).bind fun output =>
      (appends_shallowInfo output.shallow).bind fun _ =>
      (appends_text _).bind fun _ => appends_sendPack args output) (.pure ())
  refine (Appends.lift _).bind fun known => ?_
  exact .ite ((Appends.pure true).bind (hpack _)) ((appends_acknowledge args _).bind (hpack _))

theorem appends_performFetchV1 (backend : FetchBackend) (args : FetchArgs) :
    Appends (performFetchV1 backend args) := by
  refine (Appends.lift _).bind fun known => ?_
  exact (appends_callBuildPack backend args _).bind fun output =>
    (Appends.forM (fun _ => appends_text _) _).bind fun _ =>
    (appends_text _).bind fun _ => appends_sendPack args output

end Mizzle.Fetch
