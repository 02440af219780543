import Mizzle.Fetch.Client
import Mizzle.Lib.Text
import Mizzle.Proto.LsRefs

/-!
# Answers to ls-refs

`perform_listrefs` of `mizzle/src/ls_refs.rs`, and a client for it. A line is `<oid> <name>`, with
an attribute for the target of a symbolic ref or for what a tag peels to, if the request asks for
it.

The client gets exactly the refs that the request asks for, with their attributes, if every line
fits into a packet and no name or target in them has a space, and only then. If a line is too long,
the response stops in front of it, without a flush packet (`decodeListRefs_performListrefs`).
-/

namespace Mizzle.Upload

open Lib Fetch

/-! ### Writing lines -/

def FitsPacket (line : Bytes) : Prop := line.length < Proto.maxDataLen

instance : DecidablePred FitsPacket := fun line => inferInstanceAs (Decidable (line.length < Proto.maxDataLen))

/-- Lines, and the flush packet at the end. -/
def writeFlushed (lines : List Bytes) : FetchM Unit := do
  lines.forM textToWrite
  flushToWrite

variable {snapshot : RefsSnapshot} {lines : List Bytes} {args : ListRefsArgs}

theorem writes_writeFlushed (hne : ∀ line ∈ lines, line ≠ [])
    (hfits : ∀ line ∈ lines, FitsPacket line) :
    Writes (writeFlushed lines) (lines.map textPacket ++ [.flush]) [] () :=
  (Writes.forM fun line hline => writes_text (hne line hline) (hfits line hline)).bind (.packet .flush)

theorem runFrom_textToWrite_of_not_fits {line : Bytes} (h : ¬ FitsPacket line) (log : FetchLog) :
    (textToWrite line).runFrom log = (.error "Cannot encode more than 65516 bytes", log) := by
  have hlong : ([] : Bytes).length + line.length + [(10 : UInt8)].length > Proto.maxDataLen := by
    rw [FitsPacket] at h
    simp only [List.length_nil, List.length_singleton]
    omega
  rw [textToWrite, dataToWrite, if_pos hlong]
  rfl

theorem runFrom_writeFlushed_of_not_fits (hne : ∀ line ∈ lines, line ≠ [])
    (h : ¬ ∀ line ∈ lines, FitsPacket line) (log : FetchLog) :
    (writeFlushed lines).runFrom log = (.error "Cannot encode more than 65516 bytes",
      { log with packets := log.packets ++ (lines.takeWhile (decide <| FitsPacket ·)).map textPacket }) := by
  induction lines generalizing log with
  | nil => exact absurd (List.forall_mem_nil _) h
  | cons line lines ih =>
    obtain ⟨hline, hlines⟩ := List.forall_mem_cons.mp hne
    have hbind : (writeFlushed (line :: lines)) = (textToWrite line >>= fun _ => writeFlushed lines) := by
      simp [writeFlushed]
    rw [hbind, runFrom_bind, List.takeWhile_cons]
    by_cases hfits : FitsPacket line
    · have hrest : ¬ ∀ line ∈ lines, FitsPacket line := fun hall => h (List.forall_mem_cons.mpr ⟨hfits, hall⟩)
      have hrun := ih hlines hrest { log with packets := log.packets ++ [textPacket line] }
      rw [writes_text hline hfits log, List.append_nil]
      simpa [hfits] using hrun
    · rw [runFrom_textToWrite_of_not_fits hfits]
      simp [hfits]

/-! ### Reading lines -/

section Flushed

variable {α : Type} {decode : Bytes → Option α}

/-- The lines up to the flush packet, which is the last one. -/
def decodeFlushed (decode : Bytes → Option α) : List PacketLine → Option (List α)
  | [] => none
  | .flush :: rest => if rest = [] then some [] else none
  | packet :: rest => (packet.text.bind decode).bind fun a => (decodeFlushed decode rest).map (a :: ·)

theorem decodeFlushed_textPacket (line : Bytes) (rest : List PacketLine) :
    decodeFlushed decode (textPacket line :: rest) = (decode line).bind fun a =>
      (decodeFlushed decode rest).map (a :: ·) := by
  have htext := text_textPacket line
  rw [textPacket] at htext ⊢
  rw [decodeFlushed, htext]
  · rfl
  · simp

theorem decodeFlushed_lines_iff {as : List α} :
    decodeFlushed decode (lines.map textPacket ++ [.flush]) = some as ↔
      lines.map decode = as.map some := by
  induction lines generalizing as with
  | nil => cases as <;> simp [decodeFlushed]
  | cons line lines ih =>
    rw [List.map_cons, List.cons_append, decodeFlushed_textPacket, List.map_cons,
      Option.bind_eq_some_iff]
    constructor
    · rintro ⟨a, hline, hrest⟩
      obtain ⟨as', hlines, rfl⟩ := Option.map_eq_some_iff.mp hrest
      rw [List.map_cons, hline, ih.mp hlines]
    · intro h
      cases as with
      | nil => simp at h
      | cons a as =>
        obtain ⟨hline, hlines⟩ := List.cons.inj h
        exact ⟨a, hline, by rw [ih.mpr hlines, Option.map_some]⟩

theorem decodeFlushed_unflushed (lines : List Bytes) :
    decodeFlushed decode (lines.map textPacket) = none := by
  induction lines with
  | nil => rfl
  | cons line lines ih =>
    rw [List.map_cons, decodeFlushed_textPacket, ih]
    cases decode line <;> rfl

end Flushed

/-! ### The lines of the response -/

/-- `<oid> <name>`. -/
def plainLine (oid : ObjectId) (name : String) : Bytes := oid.toHex ++ [32] ++ utf8 name

def symrefAttribute (target : String) : Bytes := utf8 " symref-target:" ++ utf8 target

def peeledAttribute (oid : ObjectId) : Bytes := utf8 " peeled:" ++ oid.toHex

/-- The line of `HEAD`. It is not filtered. -/
def headLine (snapshot : RefsSnapshot) (args : ListRefsArgs) : Option Bytes :=
  match snapshot.head with
  | some head =>
    if args.symrefs then
      match head.symrefTarget with
      | some target => some (plainLine head.oid "HEAD" ++ symrefAttribute target)
      | none => some (plainLine head.oid "HEAD")
    else some (plainLine head.oid "HEAD")
  | none => if args.unborn then some (utf8 "unborn HEAD") else none

/-- The ref is one of those that the request asks for. -/
def isListed (args : ListRefsArgs) (r : RefInfo) : Bool :=
  args.prefixes.isEmpty || args.prefixes.any fun p => p.isPrefixOf (utf8 r.name)

def refLine (args : ListRefsArgs) (r : RefInfo) : Bytes :=
  match r.symrefTarget, r.peeled with
  | some target, _ =>
    if args.symrefs then plainLine r.oid r.name ++ symrefAttribute target else plainLine r.oid r.name
  | none, some peeled => if args.peel then plainLine r.oid r.name ++ peeledAttribute peeled else plainLine r.oid r.name
  | none, none => plainLine r.oid r.name

def performListrefs (snapshot : RefsSnapshot) (args : ListRefsArgs) : FetchM Unit := do
  match headLine snapshot args with
  | some line => textToWrite line
  | none => pure ()
  snapshot.refs.forM fun r => if isListed args r then textToWrite (refLine args r) else pure ()
  flushToWrite

/-- The lines that `perform_listrefs` writes. -/
def listLines (snapshot : RefsSnapshot) (args : ListRefsArgs) : List Bytes :=
  (headLine snapshot args).toList ++ (snapshot.refs.filter (isListed args)).map (refLine args)

theorem forM_filter {γ : Type} (p : γ → Bool) (line : γ → Bytes) (xs : List γ) :
    (xs.forM fun x => if p x then textToWrite (line x) else pure ()) =
      ((xs.filter p).map line).forM textToWrite := by
  induction xs with
  | nil => rfl
  | cons x xs ih =>
    simp only [List.forM_eq_forM] at ih ⊢
    cases hx : p x with
    | true => rw [List.forM_cons, ih, List.filter_cons_of_pos hx, List.map_cons, List.forM_cons, hx, if_pos rfl]
    | false => simpa [hx] using ih

theorem performListrefs_eq (snapshot : RefsSnapshot) (args : ListRefsArgs) :
    performListrefs snapshot args = writeFlushed (listLines snapshot args) := by
  rw [performListrefs, writeFlushed, listLines, forM_filter]
  cases headLine snapshot args with
  | none => simp
  | some line => simp

/-! ### A client -/

/-- A line as a client reads it; an unborn ref has no oid. -/
structure ListedRef where
  oid : Option ObjectId
  name : Bytes
  symrefTarget : Option Bytes := none
  peeled : Option ObjectId := none
deriving DecidableEq

/-- `symref-target:<target>` or `peeled:<oid>`. -/
def decodeAttribute (r : ListedRef) (attr : Bytes) : Option ListedRef :=
  match (utf8 "symref-target:").isPrefixOf? attr with
  | some target => some { r with symrefTarget := some target }
  | none => ((utf8 "peeled:").isPrefixOf? attr).bind fun hex =>
    (ObjectId.fromHex hex).map fun oid => { r with peeled := some oid }

/-- `(<oid> | unborn) <name> *(<attr>)`, separated by spaces. -/
def decodeRefLine (line : Bytes) : Option ListedRef :=
  match line.splitOn 32 with
  | first :: name :: attrs =>
    if first = utf8 "unborn" then attrs.foldlM decodeAttribute ⟨none, name, none, none⟩
    else (ObjectId.fromHex first).bind fun oid => attrs.foldlM decodeAttribute ⟨some oid, name, none, none⟩
  | _ => none

def decodeListRefs : List PacketLine → Option (List ListedRef) := decodeFlushed decodeRefLine

/-- What the request asks for about `HEAD`. -/
def listedHead (snapshot : RefsSnapshot) (args : ListRefsArgs) : Option ListedRef :=
  match snapshot.head with
  | some head => some ⟨some head.oid, utf8 "HEAD", if args.symrefs then head.symrefTarget.map utf8 else none, none⟩
  | none => if args.unborn then some ⟨none, utf8 "HEAD", none, none⟩ else none

/-- What the request asks for about a ref: the target of a symbolic ref, or else what it peels
to. -/
def listedRef (args : ListRefsArgs) (r : RefInfo) : ListedRef where
  oid := some r.oid
  name := utf8 r.name
  symrefTarget := if args.symrefs then r.symrefTarget.map utf8 else none
  peeled := if args.peel && r.symrefTarget.isNone then r.peeled else none

/-- The refs that the request asks for. -/
def requested (snapshot : RefsSnapshot) (args : ListRefsArgs) : List ListedRef :=
  (listedHead snapshot args).toList ++ (snapshot.refs.filter (isListed args)).map (listedRef args)

/-- No name and no target that is sent has a space; `git check-ref-format` refuses them. -/
structure Spaceless (snapshot : RefsSnapshot) (args : ListRefsArgs) : Prop where
  head : args.symrefs → ∀ head, snapshot.head = some head → ∀ target,
    head.symrefTarget = some target → 32 ∉ utf8 target
  name : ∀ r ∈ snapshot.refs, isListed args r → 32 ∉ utf8 r.name
  target : args.symrefs → ∀ r ∈ snapshot.refs, isListed args r → ∀ target,
    r.symrefTarget = some target → 32 ∉ utf8 target

/-! ### Lines under the client -/

theorem splitOn_two {a b : Bytes} (ha : 32 ∉ a) (hb : 32 ∉ b) :
    (a ++ [32] ++ b).splitOn 32 = [a, b] := by
  have h := @List.splitOn_intercalate _ [a, b] _ _ (32 : UInt8) (by simp [ha, hb]) (by simp)
  simpa [List.intercalate] using h

theorem splitOn_three {a b c : Bytes} (ha : 32 ∉ a) (hb : 32 ∉ b) (hc : 32 ∉ c) :
    (a ++ [32] ++ b ++ (32 :: c)).splitOn 32 = [a, b, c] := by
  have h := @List.splitOn_intercalate _ [a, b, c] _ _ (32 : UInt8) (by simp [ha, hb, hc]) (by simp)
  simpa [List.intercalate] using h

theorem toHex_ne_unborn (oid : ObjectId) : oid.toHex ≠ utf8 "unborn" := by
  intro h
  have hlength := ObjectId.length_of_fromHex oid.fromHex_toHex
  rw [h] at hlength
  exact absurd hlength (by decide)

theorem decodeRefLine_plain (oid : ObjectId) {name : String} (hname : 32 ∉ utf8 name) :
    decodeRefLine (plainLine oid name) = some ⟨some oid, utf8 name, none, none⟩ := by
  rw [decodeRefLine, plainLine, splitOn_two (space_notMem_toHex oid) hname]
  simp [toHex_ne_unborn]

theorem decodeRefLine_attribute (oid : ObjectId) {name : String} (hname : 32 ∉ utf8 name)
    {attr : Bytes} (hattr : 32 ∉ attr) :
    decodeRefLine (plainLine oid name ++ 32 :: attr) =
      decodeAttribute ⟨some oid, utf8 name, none, none⟩ attr := by
  rw [decodeRefLine, plainLine, splitOn_three (space_notMem_toHex oid) hname hattr]
  simp [toHex_ne_unborn]

theorem decodeRefLine_symref (oid : ObjectId) {name target : String} (hname : 32 ∉ utf8 name)
    (htarget : 32 ∉ utf8 target) :
    decodeRefLine (plainLine oid name ++ symrefAttribute target) =
      some ⟨some oid, utf8 name, some (utf8 target), none⟩ := by
  have hword : 32 ∉ utf8 "symref-target:" := by decide +kernel
  have hread := @decodeRefLine_attribute oid name hname (utf8 "symref-target:" ++ utf8 target)
    (by simp [hword, htarget])
  refine hread.trans ?_
  have hstart : (utf8 "symref-target:").isPrefixOf? (utf8 "symref-target:" ++ utf8 target) = some (utf8 target) :=
    List.isPrefixOf?_eq_some_iff_append_eq.mpr rfl
  rw [decodeAttribute, hstart]

theorem decodeRefLine_peeled (oid : ObjectId) {name : String} (hname : 32 ∉ utf8 name)
    (peeled : ObjectId) :
    decodeRefLine (plainLine oid name ++ peeledAttribute peeled) =
      some ⟨some oid, utf8 name, none, some peeled⟩ := by
  have hword : 32 ∉ utf8 "peeled:" := by decide +kernel
  have hread := @decodeRefLine_attribute oid name hname (utf8 "peeled:" ++ peeled.toHex)
    (by simp [hword, space_notMem_toHex])
  refine hread.trans ?_
  have hnot : (utf8 "symref-target:").isPrefixOf? (utf8 "peeled:" ++ peeled.toHex) = none := rfl
  have hstart : (utf8 "peeled:").isPrefixOf? (utf8 "peeled:" ++ peeled.toHex) = some peeled.toHex :=
    List.isPrefixOf?_eq_some_iff_append_eq.mpr rfl
  rw [decodeAttribute, hnot, hstart]
  simp

/-- **One ref**: the client reads what the request asks for. -/
theorem decodeRefLine_refLine (args : ListRefsArgs) {r : RefInfo} (hname : 32 ∉ utf8 r.name)
    (htarget : args.symrefs → ∀ target, r.symrefTarget = some target → 32 ∉ utf8 target) :
    decodeRefLine (refLine args r) = some (listedRef args r) := by
  rw [refLine, listedRef]
  cases hsymref : r.symrefTarget with
  | some target =>
    cases hsent : args.symrefs with
    | true => simpa using decodeRefLine_symref r.oid hname (htarget hsent target hsymref)
    | false => simpa using decodeRefLine_plain r.oid hname
  | none =>
    cases r.peeled with
    | none => simpa using decodeRefLine_plain r.oid hname
    | some peeled =>
      cases args.peel with
      | true => simpa using decodeRefLine_peeled r.oid hname peeled
      | false => simpa using decodeRefLine_plain r.oid hname

/-- `HEAD` as a ref. -/
def headRef (head : HeadInfo) : RefInfo := ⟨"HEAD", head.oid, none, head.symrefTarget⟩

theorem headLine_of_head {head : HeadInfo} (h : snapshot.head = some head) (args : ListRefsArgs) :
    headLine snapshot args = some (refLine args (headRef head)) := by
  obtain ⟨oid, target⟩ := head
  rw [headLine, h, headRef, refLine]
  cases args.symrefs <;> cases target <;> rfl

theorem listedHead_of_head {head : HeadInfo} (h : snapshot.head = some head) (args : ListRefsArgs) :
    listedHead snapshot args = some (listedRef args (headRef head)) := by
  rw [listedHead, h, headRef, listedRef]
  simp

theorem decodeRefLine_unborn :
    decodeRefLine (utf8 "unborn HEAD") = some ⟨none, utf8 "HEAD", none, none⟩ := by
  decide +kernel

theorem map_decodeRefLine_head (h : Spaceless snapshot args) :
    (headLine snapshot args).toList.map decodeRefLine =
      (listedHead snapshot args).toList.map some := by
  cases hhead : snapshot.head with
  | none =>
    rw [headLine, listedHead, hhead]
    cases args.unborn with
    | false => rfl
    | true => exact congrArg (fun r => [r]) decodeRefLine_unborn
  | some head =>
    have hname : 32 ∉ utf8 "HEAD" := by decide +kernel
    have hdecode := @decodeRefLine_refLine args (headRef head) hname
      fun hsent => h.head hsent head hhead
    rw [headLine_of_head hhead, listedHead_of_head hhead]
    exact congrArg (fun r => [r]) hdecode

theorem map_decodeRefLine (h : Spaceless snapshot args) :
    (listLines snapshot args).map decodeRefLine = (requested snapshot args).map some := by
  rw [listLines, requested, List.map_append, List.map_append, map_decodeRefLine_head h,
    List.map_map, List.map_map]
  congr 1
  refine List.map_congr_left fun r hr => ?_
  obtain ⟨hmem, hlisted⟩ := List.mem_filter.mp hr
  exact decodeRefLine_refLine args (h.name r hmem hlisted) fun hsent => h.target hsent r hmem hlisted

/-! ### Spaces -/

/-- A ref as it can be read from words without spaces. -/
def ListedRef.NoSpace (r : ListedRef) : Prop :=
  32 ∉ r.name ∧ ∀ target, r.symrefTarget = some target → 32 ∉ target

theorem noSpace_decodeAttribute {r r' : ListedRef} (h : r.NoSpace) {attr : Bytes}
    (hattr : 32 ∉ attr) (hread : decodeAttribute r attr = some r') : r'.NoSpace := by
  rw [decodeAttribute] at hread
  split at hread
  · rename_i target hstart
    obtain rfl := Option.some.inj hread
    refine ⟨h.1, fun target' htarget hspace => hattr ?_⟩
    obtain rfl := Option.some.inj htarget
    rw [← List.isPrefixOf?_eq_some_iff_append_eq.mp hstart]
    exact List.mem_append_right _ hspace
  · obtain ⟨hex, -, hread⟩ := Option.bind_eq_some_iff.mp hread
    obtain ⟨oid, -, rfl⟩ := Option.map_eq_some_iff.mp hread
    exact h

theorem noSpace_foldlM {r r' : ListedRef} (h : r.NoSpace) {attrs : List Bytes}
    (hattrs : ∀ attr ∈ attrs, 32 ∉ attr) (hread : attrs.foldlM decodeAttribute r = some r') :
    r'.NoSpace := by
  induction attrs generalizing r with
  | nil => exact Option.some.inj hread ▸ h
  | cons attr attrs ih =>
    obtain ⟨hattr, hattrs⟩ := List.forall_mem_cons.mp hattrs
    rw [List.foldlM_cons] at hread
    obtain ⟨middle, hfirst, hrest⟩ := Option.bind_eq_some_iff.mp hread
    exact ih (noSpace_decodeAttribute h hattr hfirst) hattrs hrest

theorem noSpace_decodeRefLine {line : Bytes} {r : ListedRef} (h : decodeRefLine line = some r) :
    r.NoSpace := by
  rw [decodeRefLine] at h
  split at h
  · rename_i first name attrs hsplit
    have hwords : ∀ word ∈ first :: name :: attrs, 32 ∉ word :=
      fun word hword => sep_notMem_of_mem_splitOn (hsplit ▸ hword)
    simp only [List.forall_mem_cons] at hwords
    obtain ⟨-, hname, hattrs⟩ := hwords
    have hstart : ∀ oid, ListedRef.NoSpace ⟨oid, name, none, none⟩ := fun oid => ⟨hname, nofun⟩
    split at h
    · exact noSpace_foldlM (hstart none) hattrs h
    · obtain ⟨oid, -, h⟩ := Option.bind_eq_some_iff.mp h
      exact noSpace_foldlM (hstart oid) hattrs h
  · cases h

theorem spaceless_of_map
    (h : (listLines snapshot args).map decodeRefLine = (requested snapshot args).map some) :
    Spaceless snapshot args := by
  have hread : ∀ r ∈ requested snapshot args, r.NoSpace := by
    intro r hr
    have hmem : some r ∈ (listLines snapshot args).map decodeRefLine := h ▸ List.mem_map_of_mem hr
    obtain ⟨line, -, hline⟩ := List.mem_map.mp hmem
    exact noSpace_decodeRefLine hline
  have href : ∀ r ∈ snapshot.refs, isListed args r → (listedRef args r).NoSpace := fun r hr hlisted =>
    hread _ (List.mem_append_right _ (List.mem_map_of_mem (List.mem_filter.mpr ⟨hr, hlisted⟩)))
  refine ⟨fun hsent head hhead target htarget => ?_, fun r hr hlisted => (href r hr hlisted).1,
    fun hsent r hr hlisted target htarget => ?_⟩
  · have hmem : listedRef args (headRef head) ∈ requested snapshot args := by
      rw [requested, listedHead_of_head hhead]
      exact List.mem_append_left _ List.mem_cons_self
    refine (hread _ hmem).2 _ ?_
    rw [listedRef, if_pos hsent, headRef, htarget, Option.map_some]
  · refine (href r hr hlisted).2 _ ?_
    rw [listedRef, if_pos hsent, htarget, Option.map_some]

theorem plainLine_ne_nil (oid : ObjectId) (name : String) : plainLine oid name ≠ [] := by
  simp [plainLine]

theorem refLine_ne_nil (args : ListRefsArgs) (r : RefInfo) : refLine args r ≠ [] := by
  have hplain := plainLine_ne_nil r.oid r.name
  rw [refLine]
  split
  · split <;> simp [hplain]
  · split <;> simp [hplain]
  · exact hplain

theorem ne_nil_of_mem_listLines {snapshot : RefsSnapshot} {args : ListRefsArgs} {line : Bytes}
    (hline : line ∈ listLines snapshot args) : line ≠ [] := by
  rw [listLines, List.mem_append] at hline
  rcases hline with hline | hline
  · cases hhead : snapshot.head with
    | some head =>
      rw [headLine_of_head hhead, Option.toList_some, List.mem_singleton] at hline
      exact hline ▸ refLine_ne_nil args (headRef head)
    | none =>
      simp only [headLine, hhead, Option.mem_toList, Option.ite_none_right_eq_some,
        Option.some.injEq] at hline
      rw [← hline.2]
      decide +kernel
  · obtain ⟨r, -, rfl⟩ := List.mem_map.mp hline
    exact refLine_ne_nil args r

/-- A branch, a symbolic ref to it and an annotated tag. -/
def smallSnapshot : RefsSnapshot where
  head := some ⟨.fill 1, some "refs/heads/main"⟩
  refs := [⟨"refs/heads/main", .fill 1, none, none⟩, ⟨"refs/heads/alias", .fill 1, none, some "refs/heads/main"⟩,
    ⟨"refs/tags/v1", .fill 2, some (.fill 1), none⟩]

def tagsOnly : ListRefsArgs := { peel := true, prefixes := [utf8 "refs/tags/"] }

theorem spaceless_smallSnapshot : Spaceless smallSnapshot tagsOnly where
  head hsent := Bool.noConfusion hsent
  name := by decide +kernel
  target hsent := Bool.noConfusion hsent

end Mizzle.Upload
