import Mizzle.Auth.Comparison
import Mizzle.Auth.Sigverify

/-!
# Signature checks

`verify`, `verify_tag` and `keys` of `ConcreteComparison` (`mizzle/src/auth.rs`), with
`verify_native` of `sigverify.rs`.

The keys of a push are asked for once, for a batch of signers, at the first check that needs them,
and every check selects its keys from the answer. The batch has the signers of the commits and tags
of the staged pack (`mem_signers_iff`), while the commits that a forge is shown may also come from
the object store. So a check uses the keys the forge holds for a signer exactly if the pack has an
object of that signer, in whatever order the accessors are called (`verify_uses_forge_keys_iff`).
-/

namespace Mizzle.Auth

open Lib Sigverify

/-- What `verify_tag` reads of a tag. -/
structure TagInfo where
  oid : ObjectId
  tagger : Option Identity
  signature : Option SignatureBlob
deriving DecidableEq

/-- `Signer`, and `SignerKey`, its owned form. -/
structure Signer where
  email : Bytes
  format : SignatureFormat
  identifier : Option Bytes := none
deriving DecidableEq

structure VerificationKey where
  format : SignatureFormat
  keyData : Bytes
deriving DecidableEq

inductive SignedIdentity where
  | pgp (keyId : String) (email : Bytes)
  | ssh (fingerprint : String) (principal : Option Bytes)
  | x509 (subject : String) (san : Option String)
  | other (description : String)
deriving DecidableEq

inductive VerificationStatus where
  | verified (identity : SignedIdentity) (format : SignatureFormat)
  | badSignature
  | unknownKey
  | unsupportedFormat
  | unsigned
deriving DecidableEq

structure ExternalSig where
  format : SignatureFormat
  signature : Bytes
  signedPayload : Bytes
  signerEmail : Bytes

/-- `VerificationKeys`, as the list of the entries of the map. -/
abbrev VerificationKeys := List (Signer × List VerificationKey)

/-- The methods of `RepoAccess` that a check calls. -/
structure Access where
  verificationKeys : List Signer → VerificationKeys
  verifyExternal : ExternalSig → Option VerificationStatus

/-- A push, with the tags of its pack and the objects of the repository. -/
structure SignedPush where
  comparison : Comparison
  tags : List TagInfo
  readObjectRaw : ObjectId → Nat → Except String (Option Bytes)

/-! ### The batch -/

/-- The two locals of `keys`. -/
structure Batch where
  signers : List Signer := []
  seen : List (Bytes × SignatureFormat) := []

def Batch.add (b : Batch) (email : Bytes) (format : SignatureFormat) : Batch :=
  if (email, format) ∈ b.seen then b
  else { signers := b.signers ++ [{ email, format }], seen := (email, format) :: b.seen }

/-- The signer of a commit is its committer. -/
def commitSigner (c : CommitInfo) : Option (Bytes × SignatureBlob) :=
  c.signature.map fun blob => (c.committer.email, blob)

/-- The signer of a tag is its tagger. -/
def tagSigner (t : TagInfo) : Option (Bytes × SignatureBlob) :=
  match t.signature, t.tagger with
  | some blob, some tagger => some (tagger.email, blob)
  | _, _ => none

def Batch.addSigner (b : Batch) : Option (Bytes × SignatureBlob) → Batch
  | some (email, blob) => b.add email blob.format
  | none => b

/-! ### The checks -/

/-- `verify_native`. -/
def verifyNative (format : SignatureFormat) (_signature _signedPayload : Bytes)
    (keys : List VerificationKey) : VerificationStatus :=
  match format with
  | .openPgp | .ssh | .x509Cms => if keys.isEmpty then .unknownKey else .unsupportedFormat
  | .unknown => .unsupportedFormat

def selectKeys (keys : VerificationKeys) (email : Bytes) (format : SignatureFormat) :
    List VerificationKey :=
  (keys.filter fun entry => entry.1.email = email && entry.1.format = format).flatMap (·.2)

/-- The cells of a comparison, the two of the signature checks among them, and the batches that were
asked for. -/
structure VerifyState where
  cells : Cells
  keysCache : Option VerificationKeys := none
  verifyCache : ObjectId → Option VerificationStatus := fun _ => none
  asked : List (List Signer) := []

def rawCap : Nat := 16 * 1024 * 1024

namespace SignedPush

variable (p : SignedPush) (access : Access)

/-- The batch: the commits of the pack, then its tags. -/
def signers : List Signer :=
  ((p.tags.map tagSigner).foldl Batch.addSigner
    ((p.comparison.pack.commits.map commitSigner).foldl Batch.addSigner {})).signers

/-- `keys`. -/
def keys (s : VerifyState) : VerificationKeys × VerifyState :=
  match s.keysCache with
  | some keys => (keys, s)
  | none =>
    let keys := access.verificationKeys p.signers
    (keys, { s with keysCache := some keys, asked := s.asked ++ [p.signers] })

/-- `run_verify`. -/
def runVerify (s : VerifyState) (signerEmail : Bytes) (format : SignatureFormat)
    (signature signedPayload : Bytes) : VerificationStatus × VerifyState :=
  let (keys, s) := p.keys access s
  let native := verifyNative format signature signedPayload (selectKeys keys signerEmail format)
  let external := access.verifyExternal { format, signature, signedPayload, signerEmail }
  (external.getD native, s)

/-- The body of `verify` and `verify_tag`. An object that cannot be read is bad, and that is not
kept. -/
def verifyWith (s : VerifyState) (oid : ObjectId) (signer : Option (Bytes × SignatureBlob))
    (strip : Bytes → Bytes) : VerificationStatus × VerifyState :=
  match s.verifyCache oid with
  | some cached => (cached, s)
  | none =>
    match signer with
    | none => (.unsigned, { s with verifyCache := Function.update s.verifyCache oid (some .unsigned) })
    | some (email, blob) =>
      match p.readObjectRaw oid rawCap with
      | .ok (some raw) =>
        let (status, s) := p.runVerify access s email blob.format blob.bytes (strip raw)
        (status, { s with verifyCache := Function.update s.verifyCache oid (some status) })
      | _ => (.badSignature, s)

/-- `verify`. -/
def verify (s : VerifyState) (c : CommitInfo) : VerificationStatus × VerifyState :=
  p.verifyWith access s c.oid (commitSigner c) stripGpgsig

/-- `verify_tag`. -/
def verifyTag (s : VerifyState) (t : TagInfo) : VerificationStatus × VerifyState :=
  p.verifyWith access s t.oid (tagSigner t) stripTagSignature

end SignedPush

inductive Call where
  | access (accessor : Accessor) (i : Nat)
  | verify (c : CommitInfo)
  | verifyTag (t : TagInfo)

namespace SignedPush

variable (p : SignedPush) (access : Access)

def step (s : VerifyState) : Call → Option VerifyState
  | .access accessor i => do
    let r ← p.comparison.refs[i]?
    let (_, cells) ← p.comparison.call s.cells accessor r
    return { s with cells }
  | .verify c => some (p.verify access s c).2
  | .verifyTag t => some (p.verifyTag access s t).2

/-- The state after a sequence of calls. -/
def run (calls : List Call) : Option VerifyState :=
  calls.foldlM (p.step access) { cells := p.comparison.freshCells }

end SignedPush

/-! ### What is in the batch -/

/-- A signer without an identifier. -/
def plainSigner (signer : Bytes × SignatureFormat) : Signer :=
  { email := signer.1, format := signer.2 }

/-- The set that was seen has the signers, each once. -/
structure Batch.Right (b : Batch) : Prop where
  signers_eq : b.signers = b.seen.reverse.map plainSigner
  nodup : b.seen.Nodup

theorem Batch.Right.addSigner {b : Batch} (h : b.Right) (signer : Option (Bytes × SignatureBlob)) :
    (b.addSigner signer).Right := by
  rcases signer with - | ⟨email, blob⟩
  · exact h
  · rw [Batch.addSigner, Batch.add]
    split
    · exact h
    · rename_i hnew
      exact ⟨by simp [h.signers_eq, plainSigner], List.nodup_cons.mpr ⟨hnew, h.nodup⟩⟩

theorem Batch.mem_seen_addSigner {b : Batch} {signer : Option (Bytes × SignatureBlob)}
    {x : Bytes × SignatureFormat} :
    x ∈ (b.addSigner signer).seen ↔ x ∈ b.seen ∨
      signer.map (fun s => (s.1, s.2.format)) = some x := by
  rcases signer with - | ⟨email, blob⟩
  · simp [Batch.addSigner]
  · rw [Batch.addSigner, Batch.add]
    split
    · rename_i hseen
      constructor
      · exact Or.inl
      · rintro (h | h)
        · exact h
        · exact Option.some.inj h ▸ hseen
    · simp only [List.mem_cons, Option.map_some, Option.some.injEq]
      tauto

theorem Batch.foldl_addSigner (signers : List (Option (Bytes × SignatureBlob))) {b : Batch}
    (h : b.Right) :
    (signers.foldl Batch.addSigner b).Right ∧ ∀ x, x ∈ (signers.foldl Batch.addSigner b).seen ↔
      x ∈ b.seen ∨ ∃ signer ∈ signers, signer.map (fun s => (s.1, s.2.format)) = some x := by
  induction signers generalizing b with
  | nil => exact ⟨h, by simp⟩
  | cons signer signers ih =>
    obtain ⟨hright, hmem⟩ := ih (h.addSigner signer)
    refine ⟨hright, fun x => ?_⟩
    rw [List.foldl_cons, hmem, Batch.mem_seen_addSigner, or_assoc]
    simp

def PackSigner (p : SignedPush) (email : Bytes) (format : SignatureFormat) : Prop :=
  (∃ c ∈ p.comparison.pack.commits, ∃ blob, commitSigner c = some (email, blob) ∧ blob.format = format) ∨
  ∃ t ∈ p.tags, ∃ blob, tagSigner t = some (email, blob) ∧ blob.format = format

namespace SignedPush

variable {p : SignedPush}

theorem signers_spec (p : SignedPush) :
    ∃ seen : List (Bytes × SignatureFormat), p.signers = seen.map plainSigner ∧ seen.Nodup ∧
    ∀ email format, (email, format) ∈ seen ↔ PackSigner p email format := by
  obtain ⟨hcommits, hmemCommits⟩ :=
    @Batch.foldl_addSigner (p.comparison.pack.commits.map commitSigner) {} ⟨rfl, List.nodup_nil⟩
  obtain ⟨htags, hmemTags⟩ := Batch.foldl_addSigner (p.tags.map tagSigner) hcommits
  refine ⟨_, htags.signers_eq, List.nodup_reverse.mpr htags.nodup, fun email format => ?_⟩
  rw [List.mem_reverse, hmemTags, hmemCommits]
  simp only [List.not_mem_nil, false_or, List.mem_map, exists_exists_and_eq_and,
    Option.map_eq_some_iff, Prod.exists, Prod.mk.injEq,
    PackSigner]
  constructor
  · rintro (⟨c, hc, email', blob, hsigner, rfl, hformat⟩ | ⟨t, ht, email', blob, hsigner, rfl, hformat⟩)
    · exact Or.inl ⟨c, hc, blob, hsigner, hformat⟩
    · exact Or.inr ⟨t, ht, blob, hsigner, hformat⟩
  · rintro (⟨c, hc, blob, hsigner, hformat⟩ | ⟨t, ht, blob, hsigner, hformat⟩)
    · exact Or.inl ⟨c, hc, email, blob, hsigner, rfl, hformat⟩
    · exact Or.inr ⟨t, ht, email, blob, hsigner, rfl, hformat⟩

/-- **The batch has the signers of the pack.** -/
theorem mem_signers_iff {email : Bytes} {format : SignatureFormat} :
    { email, format } ∈ p.signers ↔ PackSigner p email format := by
  obtain ⟨seen, hsigners, -, hmem⟩ := p.signers_spec
  rw [hsigners, ← hmem, List.mem_map]
  constructor
  · rintro ⟨⟨email', format'⟩, hseen, heq⟩
    obtain ⟨rfl, rfl, -⟩ := Signer.mk.inj heq
    exact hseen
  · intro hseen
    exact ⟨(email, format), hseen, rfl⟩

end SignedPush

/-! ### A forge with a table of keys -/

/-- A forge that answers a batch from its table. -/
def Access.ofTable (table : Bytes → SignatureFormat → List VerificationKey)
    (external : ExternalSig → Option VerificationStatus) : Access where
  verificationKeys signers := signers.map fun s => (s, table s.email s.format)
  verifyExternal := external

theorem SignedPush.selectKeys_ofTable (p : SignedPush)
    (table : Bytes → SignatureFormat → List VerificationKey)
    (external : ExternalSig → Option VerificationStatus) {email : Bytes} {format : SignatureFormat}
    (h : PackSigner p email format) :
    selectKeys ((Access.ofTable table external).verificationKeys p.signers) email format =
      table email format := by
  obtain ⟨seen, hsigners, hnodup, hmem⟩ := p.signers_spec
  have hfilter : seen.filter (fun x => x.1 = email && x.2 = format) = [(email, format)] := by
    have heq : seen.filter (fun x => x.1 = email && x.2 = format) = seen.filter (· == (email, format)) := by
      refine List.filter_congr fun x _ => ?_
      rw [Bool.eq_iff_iff]
      simp [Prod.ext_iff]
    rw [heq, List.filter_beq, hnodup.count, if_pos ((hmem email format).mpr h), List.replicate_one]
  rw [selectKeys, Access.ofTable, hsigners]
  simp only [List.map_map, List.filter_map, Function.comp_def, plainSigner]
  rw [hfilter]
  simp

/-- What a check comes to with the keys of a signer, without caches. -/
def verdict (keysFor : Bytes → SignatureFormat → List VerificationKey)
    (external : ExternalSig → Option VerificationStatus) (raw : Except String (Option Bytes))
    (signer : Option (Bytes × SignatureBlob)) (strip : Bytes → Bytes) : VerificationStatus :=
  match signer with
  | none => .unsigned
  | some (email, blob) =>
    match raw with
    | .ok (some raw) =>
      (external { format := blob.format, signature := blob.bytes, signedPayload := strip raw, signerEmail := email }).getD
        (verifyNative blob.format blob.bytes (strip raw) (keysFor email blob.format))
    | _ => .badSignature

/-! ### Runs -/

namespace SignedPush

variable {p : SignedPush} {access : Access}

/-- Keys are asked for once at most, for the whole batch. -/
def KeysRight (p : SignedPush) (access : Access) (s : VerifyState) : Prop :=
  s.keysCache = none ∧ s.asked = [] ∨ s.keysCache = some (access.verificationKeys p.signers) ∧ s.asked = [p.signers]

theorem keys_of_right {s : VerifyState} (h : KeysRight p access s) :
    p.keys access s = (access.verificationKeys p.signers,
      { s with keysCache := some (access.verificationKeys p.signers), asked := [p.signers] }) := by
  rw [keys]
  rcases h with ⟨hnone, hasked⟩ | ⟨hsome, hasked⟩
  · rw [hnone, hasked]
    rfl
  · rw [hsome]
    simp only [Prod.mk.injEq, true_and]
    rw [← hsome, ← hasked]

/-- The keys that a check selects. -/
def selected (p : SignedPush) (access : Access) : Bytes → SignatureFormat → List VerificationKey :=
  selectKeys (access.verificationKeys p.signers)

theorem verifyWith_spec {s : VerifyState} (h : KeysRight p access s) (oid : ObjectId)
    (signer : Option (Bytes × SignatureBlob)) (strip : Bytes → Bytes) :
    (p.verifyWith access s oid signer strip).1 = (s.verifyCache oid).getD
      (verdict (p.selected access) access.verifyExternal (p.readObjectRaw oid rawCap) signer strip) ∧
    KeysRight p access (p.verifyWith access s oid signer strip).2 ∧
    ∀ x, (p.verifyWith access s oid signer strip).2.verifyCache x = s.verifyCache x ∨
      x = oid ∧ (p.verifyWith access s oid signer strip).2.verifyCache x =
        some (verdict (p.selected access) access.verifyExternal (p.readObjectRaw oid rawCap) signer strip) := by
  unfold verifyWith
  cases hcache : s.verifyCache oid with
  | some cached => exact ⟨rfl, h, fun x => Or.inl rfl⟩
  | none =>
    have hupdate : ∀ (cache : ObjectId → Option VerificationStatus) (status : VerificationStatus) (x : ObjectId),
        Function.update cache oid (some status) x = cache x ∨ x = oid ∧
          Function.update cache oid (some status) x = some status := by
      intro cache status x
      by_cases hx : x = oid
      · exact Or.inr ⟨hx, by rw [hx, Function.update_self]⟩
      · exact Or.inl (Function.update_of_ne hx _ _)
    rcases signer with - | ⟨email, blob⟩
    · exact ⟨rfl, h, hupdate s.verifyCache _⟩
    · simp only [verdict, Option.getD_none]
      split
      · rw [runVerify, keys_of_right h]
        exact ⟨rfl, Or.inr ⟨rfl, rfl⟩, hupdate s.verifyCache _⟩
      · exact ⟨rfl, h, fun x => Or.inl rfl⟩

/-- The calls so far left the keys right, and the status of an object that is named by its oid
alone. -/
structure RunRight (p : SignedPush) (access : Access) (c : CommitInfo) (s : VerifyState) :
    Prop where
  keys : KeysRight p access s
  status : ∀ status, s.verifyCache c.oid = some status → status =
    verdict (p.selected access) access.verifyExternal (p.readObjectRaw c.oid rawCap) (commitSigner c) stripGpgsig

end SignedPush

/-- The call does not check another object under the oid of this commit. -/
def Call.Names (c : CommitInfo) : Call → Prop
  | .access _ _ => True
  | .verify c' => c'.oid = c.oid → c' = c
  | .verifyTag t => t.oid ≠ c.oid

namespace SignedPush

variable {p : SignedPush} {access : Access} {c : CommitInfo}

theorem RunRight.step {s s' : VerifyState} {call : Call} (h : RunRight p access c s)
    (hnames : call.Names c) (hstep : p.step access s call = some s') : RunRight p access c s' := by
  cases call with
  | access accessor i =>
    rw [SignedPush.step] at hstep
    obtain ⟨r, -, hstep⟩ := Option.bind_eq_some_iff.mp hstep
    obtain ⟨⟨answer, cells⟩, -, hstep⟩ := Option.bind_eq_some_iff.mp hstep
    obtain rfl := Option.some.inj hstep
    exact ⟨h.keys, h.status⟩
  | verify c' =>
    obtain rfl := Option.some.inj hstep
    obtain ⟨-, hkeys, hcache⟩ := verifyWith_spec h.keys c'.oid (commitSigner c') stripGpgsig
    refine ⟨hkeys, fun status hstatus => ?_⟩
    rcases hcache c.oid with hsame | ⟨hoid, hnew⟩
    · exact h.status status (hsame.symm.trans hstatus)
    · obtain rfl := hnames hoid.symm
      exact (Option.some.inj (hnew.symm.trans hstatus)).symm
  | verifyTag t =>
    obtain rfl := Option.some.inj hstep
    obtain ⟨-, hkeys, hcache⟩ := verifyWith_spec h.keys t.oid (tagSigner t) stripTagSignature
    refine ⟨hkeys, fun status hstatus => ?_⟩
    rcases hcache c.oid with hsame | ⟨hoid, -⟩
    · exact h.status status (hsame.symm.trans hstatus)
    · exact absurd hoid.symm hnames

theorem RunRight.run {calls : List Call} {s : VerifyState} (hnames : ∀ call ∈ calls, call.Names c)
    (hrun : p.run access calls = some s) : RunRight p access c s := by
  have hfold : ∀ (calls : List Call) (s₀ : VerifyState), (∀ call ∈ calls, call.Names c) → RunRight p access c s₀ →
      calls.foldlM (p.step access) s₀ = some s → RunRight p access c s := by
    intro calls
    induction calls with
    | nil =>
      intro s₀ _ hright hrun
      exact Option.some.inj hrun ▸ hright
    | cons call calls ih =>
      intro s₀ hnames hright hrun
      obtain ⟨hcall, hcalls⟩ := List.forall_mem_cons.mp hnames
      obtain ⟨s₁, hstep, hrun⟩ := Option.bind_eq_some_iff.mp hrun
      exact ih s₁ hcalls (hright.step hcall hstep) hrun
  refine hfold calls _ hnames ⟨Or.inl ⟨rfl, rfl⟩, ?_⟩ hrun
  intro status hstatus
  cases hstatus

/-- **A check uses the keys that the forge holds for the signer of a commit exactly if the pack has
an object of that signer**: then, after any calls, the signer is in the batch, the keys selected are
those of the forge's table, and the status is the verdict with these keys, whether the commit itself
was in the pack or not. -/
theorem verify_uses_forge_keys_iff (p : SignedPush) {c : CommitInfo} {blob : SignatureBlob}
    (hsigned : c.signature = some blob) :
    (∀ (table : Bytes → SignatureFormat → List VerificationKey) (external : ExternalSig →
      Option VerificationStatus)
        (calls : List Call) (s : VerifyState), (∀ call ∈ calls, call.Names c) →
          p.run (.ofTable table external) calls = some s →
      (∀ batch ∈ (p.keys (.ofTable table external) s).2.asked,
        { email := c.committer.email, format := blob.format } ∈ batch) ∧
      selectKeys (p.keys (.ofTable table external) s).1 c.committer.email blob.format =
        table c.committer.email blob.format ∧
      (p.verify (.ofTable table external) s c).1 =
        verdict table external (p.readObjectRaw c.oid rawCap) (some (c.committer.email, blob)) stripGpgsig) ↔
    PackSigner p c.committer.email blob.format := by
  have hsigner : commitSigner c = some (c.committer.email, blob) := by rw [commitSigner, hsigned, Option.map_some]
  constructor
  · intro h
    obtain ⟨hbatch, -⟩ := h (fun _ _ => []) (fun _ => none) [] _ (by simp) rfl
    exact mem_signers_iff.mp (hbatch p.signers (List.mem_singleton_self _))
  · intro hpack table external calls s hnames hrun
    have hright := RunRight.run hnames hrun
    have hselected : p.selected (.ofTable table external) c.committer.email blob.format =
        table c.committer.email blob.format :=
      p.selectKeys_ofTable table external hpack
    have hverdict : verdict (p.selected (.ofTable table external)) external
      (p.readObjectRaw c.oid rawCap) (commitSigner c)
        stripGpgsig = verdict table external (p.readObjectRaw c.oid rawCap)
          (some (c.committer.email, blob)) stripGpgsig := by
      simp only [hsigner, verdict, hselected]
    refine ⟨?_, ?_, ?_⟩
    · rw [keys_of_right hright.keys]
      exact List.forall_mem_singleton.mpr (mem_signers_iff.mpr hpack)
    · rw [keys_of_right hright.keys]
      exact hselected
    · rw [verify, (verifyWith_spec hright.keys c.oid (commitSigner c) stripGpgsig).1]
      cases hcache : s.verifyCache c.oid with
      | none => exact hverdict
      | some status =>
        rw [Option.getD_some, hright.status status hcache]
        exact hverdict

/-- A commit with a signature, and a push of it with a pack that has it or not. It is in the store
in either case. -/
def signedCommit : CommitInfo :=
  { Comparison.bareInfo (.fill 1) with
    committer := ⟨utf8 "A", utf8 "a@x", utf8 "1 +0000"⟩
    signature := some ⟨.ssh, utf8 "-----BEGIN SSH SIGNATURE-----"⟩ }

def signedPush (pack : List PackObject) : SignedPush where
  comparison :=
    { backend :=
        { reachableExcluding := fun _ _ _ => .ok [.fill 1]
          readCommitInfo := fun _ => .ok signedCommit
          treeDiff := fun _ _ => .ok ⟨[]⟩ }
      pack := ⟨pack⟩
      refs := [⟨"refs/heads/main", .create, .null, .fill 1⟩]
      existingRefTips := [] }
  tags := []
  readObjectRaw := fun _ _ => .ok (some (utf8 "tree abc\ngpgsig -----BEGIN SSH SIGNATURE-----\n\nHello\n"))

/-- A forge with a key for the committer. -/
def oneKey (email : Bytes) (format : SignatureFormat) : List VerificationKey :=
  if email = utf8 "a@x" ∧ format = .ssh then [⟨.ssh, utf8 "a@x ssh-ed25519 AAAA"⟩] else []

theorem verify_shipped :
    ((signedPush [⟨.fill 1, .commit signedCommit, 200⟩]).verify (.ofTable oneKey fun _ => none)
    { cells := (signedPush [⟨.fill 1, .commit signedCommit, 200⟩]).comparison.freshCells }
      signedCommit).1 = .unsupportedFormat := by
  have hpack : PackSigner (signedPush [⟨.fill 1, .commit signedCommit, 200⟩]) signedCommit.committer.email .ssh :=
    Or.inl ⟨signedCommit, List.mem_singleton_self _, ⟨.ssh, utf8 "-----BEGIN SSH SIGNATURE-----"⟩, rfl, rfl⟩
  refine ((verify_uses_forge_keys_iff _ rfl).mpr hpack oneKey (fun _ => none) [] _ (by simp) rfl).2.2.trans ?_
  decide +kernel

/-- The commit of a push that ships nothing is shown to the forge, and its key is not found. -/
theorem verify_not_shipped :
    (signedPush []).comparison.answers [(.newCommits, 0)] = some [.commits (.ok [signedCommit])] ∧
    oneKey signedCommit.committer.email .ssh ≠ [] ∧
    (signedPush []).signers = [] ∧
    ((signedPush []).verify (.ofTable oneKey fun _ => none)
      { cells := (signedPush []).comparison.freshCells } signedCommit).1 = .unknownKey := by
  decide +kernel

end SignedPush

end Mizzle.Auth
