import Mizzle.Lib.Lines
import Mizzle.Proto.Receive

/-!
# Ref transactions of the git command-line backend

`update_refs_sync` of `mizzle/src/backend/fs_git_cli.rs` writes one line for each command to the
standard input of `git update-ref --stdin` and reports the exit status. Refnames go into the line as
they came from the client, and the request parser rules out no byte of them: a refname may hold
spaces, line feeds and NULs.

`parseEdit` is the line grammar of git: `create SP ref SP new`, `update SP ref SP new SP old`,
`delete SP ref SP old`. A space in a refname gives a line with too many fields, which git refuses. A
line feed ends the line, and what follows is read as a command of its own.
`stdinText_unambiguous_iff` says for which batches git reads what was meant or refuses the whole
input.
-/

namespace Mizzle.GitCli

open Lib

/-- The space. -/
def sp : UInt8 := 32

/-- The line of one command, without its line feed. -/
def commandLine (u : RefUpdate) : Bytes :=
  if u.newOid.isNull then utf8 "delete" ++ sp :: (utf8 u.refname ++ sp :: u.oldOid.toHex)
  else if u.oldOid.isNull then utf8 "create" ++ sp :: (utf8 u.refname ++ sp :: u.newOid.toHex)
  else utf8 "update" ++ sp :: (utf8 u.refname ++ sp :: (u.newOid.toHex ++ sp :: u.oldOid.toHex))

/-- What the loop writes to the child's standard input. -/
def stdinText (updates : List RefUpdate) : Bytes := Lines.text commandLine updates

/-- `update_refs_sync`; `updateRef` is `git update-ref --stdin` on the refs `σ`: it takes the input
and gives the refs afterwards, with its error output when it fails. An empty batch does not start
it. -/
def updateRefsSync {σ : Type} (updateRef : σ → Bytes → σ × Except String Unit) (refs : σ)
    (updates : List RefUpdate) : σ × Except String Unit :=
  if updates.isEmpty then (refs, .ok ())
  else
    match updateRef refs (stdinText updates) with
    | (refs', .ok ()) => (refs', .ok ())
    | (refs', .error stderr) => (refs', .error ("git update-ref failed: " ++ stderr))

/-! ### git's side -/

inductive Edit where
  | create (ref : Bytes) (new : ObjectId)
  | update (ref : Bytes) (new old : ObjectId)
  | delete (ref : Bytes) (old : ObjectId)
deriving DecidableEq

/-- One line: exactly the fields of its verb, single spaces between them, and a ref that is not
empty. -/
def parseEdit (line : Bytes) : Option Edit :=
  match line.splitOn sp with
  | [verb, ref, oid] =>
    if ref = [] then none
    else if verb = utf8 "create" then (ObjectId.fromHex oid).map (.create ref)
    else if verb = utf8 "delete" then (ObjectId.fromHex oid).map (.delete ref)
    else none
  | [verb, ref, new, old] =>
    if ref = [] ∨ verb ≠ utf8 "update" then none
    else
      match ObjectId.fromHex new, ObjectId.fromHex old with
      | some new, some old => some (.update ref new old)
      | _, _ => none
  | _ => none

/-- The whole input, or nothing. -/
def decodeStdin (input : Bytes) : Option (List Edit) := Lines.decode parseEdit input

/-- The edit that a command stands for. -/
def editOf (u : RefUpdate) : Edit :=
  if u.newOid.isNull then .delete (utf8 u.refname) u.oldOid
  else if u.oldOid.isNull then .create (utf8 u.refname) u.newOid
  else .update (utf8 u.refname) u.newOid u.oldOid

/-! ### One line -/

theorem sp_notMem_toHex (oid : ObjectId) : sp ∉ oid.toHex :=
  fun hmem => (ObjectId.mem_toHex hmem).2.2 rfl

theorem lf_notMem_toHex (oid : ObjectId) : Lines.lf ∉ oid.toHex :=
  fun hmem => (ObjectId.mem_toHex hmem).2.1 rfl

theorem splitOn_toHex (oid : ObjectId) : oid.toHex.splitOn sp = [oid.toHex] :=
  List.splitOn_eq_singleton (sp_notMem_toHex oid)

theorem splitOn_refname (name : Bytes) :
    name.splitOn sp = [name] ∨ ∃ a b rest, name.splitOn sp = a :: b :: rest := by
  by_cases hmem : sp ∈ name
  · obtain ⟨first, last, rfl⟩ := List.append_of_mem hmem
    rw [List.splitOn_append_cons_self]
    obtain ⟨a, as, ha⟩ := List.exists_cons_of_ne_nil (List.splitOn_ne_nil sp first)
    obtain ⟨b, bs, hb⟩ := List.exists_cons_of_ne_nil (List.splitOn_ne_nil sp last)
    right
    cases as with
    | nil => exact ⟨a, b, bs, by rw [ha, hb]; rfl⟩
    | cons c cs => exact ⟨a, c, cs ++ b :: bs, by rw [ha, hb]; rfl⟩
  · exact Or.inl (List.splitOn_eq_singleton hmem)

theorem splitOn_line {verb : Bytes} (hverb : sp ∉ verb) (name rest : Bytes) :
    (verb ++ sp :: (name ++ sp :: rest)).splitOn sp =
      verb :: (name.splitOn sp ++ rest.splitOn sp) := by
  rw [List.splitOn_append_cons_self, List.splitOn_append_cons_self, List.splitOn_eq_singleton hverb]
  rfl

theorem parseEdit_one_oid {verb name : Bytes} {oid : ObjectId} {e : Edit} (hsp : sp ∉ verb)
    (hverb : verb ≠ utf8 "update")
    (h : parseEdit (verb ++ sp :: (name ++ sp :: oid.toHex)) = some e) :
    (verb = utf8 "create" ∧ e = .create name oid) ∨
      (verb = utf8 "delete" ∧ e = .delete name oid) := by
  rw [parseEdit, splitOn_line hsp, splitOn_toHex] at h
  rcases splitOn_refname name with hone | ⟨a, b, rest, hmany⟩
  · simp only [hone, List.singleton_append, ObjectId.fromHex_toHex, Option.map_some] at h
    split at h
    · simp at h
    · split at h
      · exact Or.inl ⟨‹_›, (Option.some.inj h).symm⟩
      · split at h
        · exact Or.inr ⟨‹_›, (Option.some.inj h).symm⟩
        · simp at h
  · -- two fields of the refname make four, and then only `update` is read
    cases rest <;> simp [hmany, hverb] at h

theorem parseEdit_two_oids {verb name : Bytes} {new old : ObjectId} {e : Edit} (hsp : sp ∉ verb)
    (h : parseEdit (verb ++ sp :: (name ++ sp :: (new.toHex ++ sp :: old.toHex))) = some e) :
    e = .update name new old := by
  rw [parseEdit, splitOn_line hsp, List.splitOn_append_cons_self, splitOn_toHex, splitOn_toHex] at h
  rcases splitOn_refname name with hone | ⟨a, b, rest, hmany⟩
  · simp only [hone, List.singleton_append, ObjectId.fromHex_toHex] at h
    split at h
    · simp at h
    · exact (Option.some.inj h).symm
  · cases rest <;> simp [hmany] at h

theorem parseEdit_commandLine (u : RefUpdate) (e : Edit) (h : parseEdit (commandLine u) = some e) :
    e = editOf u := by
  rw [commandLine] at h
  rw [editOf]
  split at h
  · rename_i hnew
    rw [if_pos hnew]
    rcases parseEdit_one_oid (by decide) (by decide) h with ⟨hverb, -⟩ | ⟨-, he⟩
    · exact absurd hverb (by decide)
    · exact he
  · rename_i hnew
    rw [if_neg hnew]
    split at h
    · rename_i hold
      rw [if_pos hold]
      rcases parseEdit_one_oid (by decide) (by decide) h with ⟨-, he⟩ | ⟨hverb, -⟩
      · exact he
      · exact absurd hverb (by decide)
    · rename_i hold
      rw [if_neg hold]
      exact parseEdit_two_oids (by decide) h

theorem lf_mem_commandLine (u : RefUpdate) :
    Lines.lf ∈ commandLine u ↔ Lines.lf ∈ utf8 u.refname := by
  have hsp : Lines.lf ≠ sp := by decide
  have hdelete : Lines.lf ∉ utf8 "delete" := by decide
  have hcreate : Lines.lf ∉ utf8 "create" := by decide
  have hupdate : Lines.lf ∉ utf8 "update" := by decide
  rw [commandLine]
  split
  · simp [hsp, hdelete, lf_notMem_toHex]
  · split
    · simp [hsp, hcreate, lf_notMem_toHex]
    · simp [hsp, hupdate, lf_notMem_toHex]

/-! ### The batch -/

/-- **When the encoding of a batch is unambiguous**: git refuses the whole input or reads exactly
the batch's edits in order, if and only if no refname has a line feed, or the lines that some
command comes apart into are not all commands. -/
theorem stdinText_unambiguous_iff (updates : List RefUpdate) :
    (decodeStdin (stdinText updates) = none ∨ decodeStdin (stdinText updates) =
      some (updates.map editOf)) ↔
      (∀ u ∈ updates, Lines.lf ∉ utf8 u.refname) ∨
        ∃ u ∈ updates, ∃ line ∈ (commandLine u).splitOn Lines.lf, parseEdit line = none := by
  simp only [← lf_mem_commandLine]
  exact Lines.decode_text_iff parseEdit_commandLine updates

/-- `git update-ref --stdin`: one transaction of all the edits that it reads, or of none. -/
def updateRefStdin {σ : Type} (transaction : σ → List Edit → σ × Except String Unit)
    (refused : String) (refs : σ) (input : Bytes) : σ × Except String Unit :=
  match decodeStdin input with
  | some edits => transaction refs edits
  | none => (refs, .error refused)

/-- **What git is handed**: without line feeds in refnames, nothing or the transaction of the
batch. -/
theorem updateRefsSync_updateRefStdin {σ : Type}
    (transaction : σ → List Edit → σ × Except String Unit) (refused : String) (refs : σ)
    {updates : List RefUpdate} (hne : updates ≠ [])
    (hnames : ∀ u ∈ updates, Lines.lf ∉ utf8 u.refname) :
    updateRefsSync (updateRefStdin transaction refused) refs updates =
        (refs, .error ("git update-ref failed: " ++ refused)) ∨
      updateRefsSync (updateRefStdin transaction refused) refs updates =
        (transaction refs (updates.map editOf)).map id (Except.mapError ("git update-ref failed: " ++ ·)) := by
  have hread : decodeStdin (stdinText updates) = none ∨ decodeStdin (stdinText updates) = some (updates.map editOf) :=
    (Lines.decode_text_iff parseEdit_commandLine updates).mpr
      (Or.inl fun u hu => (lf_mem_commandLine u).not.mpr (hnames u hu))
  have hempty : updates.isEmpty = false := List.isEmpty_eq_false_iff.mpr hne
  rcases hread with hnone | hsome
  · refine Or.inl ?_
    simp [updateRefsSync, hempty, updateRefStdin, hnone]
  · refine Or.inr ?_
    simp only [updateRefsSync, hempty, updateRefStdin, hsome]
    rcases transaction refs (updates.map editOf) with ⟨refs', _ | _⟩ <;> rfl

/-- A refname that completes the line it stands in, adds a line of its own and begins a third
one. -/
def injectingName : String :=
  "refs/heads/x " ++ (ObjectId.fill 2).toHexString ++ "\ndelete refs/heads/main "
    ++ (ObjectId.fill 1).toHexString ++ "\ncreate refs/heads/y"

/-- A request that creates one ref, of that name, is parsed, and git reads three commands: among
them the deletion of a branch that the request does not name. -/
theorem stdinText_injects_delete :
    Receive.readReceiveRequest {} (utf8 "00df" ++ ObjectId.null.toHex ++
      sp :: (ObjectId.fill 3).toHex ++ sp ::
        utf8 injectingName ++ utf8 "0000") = .ok ([⟨.null, .fill 3, injectingName⟩], []) ∧
    decodeStdin (stdinText [⟨.null, .fill 3, injectingName⟩]) = some [.create (utf8 "refs/heads/x") (.fill 2),
      .delete (utf8 "refs/heads/main") (.fill 1), .create (utf8 "refs/heads/y") (.fill 3)] ∧
    ¬ (decodeStdin (stdinText [⟨.null, .fill 3, injectingName⟩]) = none ∨
      decodeStdin (stdinText [⟨.null, .fill 3, injectingName⟩])
        = some ([⟨.null, .fill 3, injectingName⟩].map editOf)) := by
  decide +kernel

end Mizzle.GitCli
