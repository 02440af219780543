import Mizzle.Lib.Utf8
import Mizzle.Upload.ListRefs

/-!
# Advertisements

What a client gets before its first request: the refs and the capabilities in protocol v1, and the
capabilities alone in v2. The refs that v1 advertises are those that `ls-refs` lists with the prefix
`refs/` (`requested_refsOnly`).
-/

namespace Mizzle.Upload

open Lib Fetch

/-! ### The lines -/

/-- The lines of a v1 advertisement: the first one carries the capabilities. -/
def advertisementLines (caps : Bytes) : List (ObjectId × String) → List Bytes
  | [] => [ObjectId.null.toHex ++ utf8 " capabilities^\x7b\x7d" ++ [0] ++ caps]
  | (oid, name) :: rest => (plainLine oid name ++ [0] ++ caps) :: rest.map fun r => plainLine r.1 r.2

def uploadPackCaps : Bytes := utf8 "side-band-64k ofs-delta shallow filter agent=mizzle/dev"

def uploadPackV1Refs (refs : List (ObjectId × String)) : FetchM Unit :=
  writeFlushed (advertisementLines uploadPackCaps refs)

/-- `RefsSnapshot::as_upload_pack_v1`. -/
def asUploadPackV1 (snapshot : RefsSnapshot) : List (ObjectId × String) :=
  (snapshot.head.map fun head => (head.oid, "HEAD")).toList ++
    (snapshot.refs.filter fun r => r.name.startsWith "refs/").map fun r => (r.oid, r.name)

def capabilityAdvertisementV2 : FetchM Unit :=
  writeFlushed [utf8 "version 2", utf8 "agent=mizzle/dev", utf8 "ls-refs=unborn",
    utf8 "fetch=ref-in-want wait-for-done shallow filter"]

def withPreamble (service : Bytes) (advertisement : FetchM Unit) : FetchM Unit := do
  textToWrite (utf8 "# service=" ++ service)
  flushToWrite
  advertisement

def infoRefsUploadPackV1Task (refs : List (ObjectId × String)) : FetchM Unit :=
  withPreamble (utf8 "git-upload-pack") (uploadPackV1Refs refs)

def infoRefsTask : FetchM Unit := withPreamble (utf8 "git-upload-pack") capabilityAdvertisementV2

/-! ### Both versions -/

theorem length_plainLine (oid : ObjectId) (name : String) :
    (plainLine oid name).length = 41 + (utf8 name).length := by
  have hhex := ObjectId.length_of_fromHex oid.fromHex_toHex
  simp only [plainLine, List.length_append, List.length_singleton, hhex]

theorem startsWith_refs_iff (name : String) :
    name.startsWith "refs/" = (utf8 "refs/").isPrefixOf (utf8 name) := by
  have hpat : utf8 "refs/" = utf8 "refs" ++ [47] := by decide +kernel
  rw [Bool.eq_iff_iff, startsWith_iff_utf8 (by decide) hpat, List.isPrefixOf_iff_prefix]

/-- What the two clients ask for. -/
def refsOnly : ListRefsArgs := { prefixes := [utf8 "refs/"] }

/-- Names of refs that git accepts, of a length that fits. -/
structure WellNamed (snapshot : RefsSnapshot) : Prop extends Spaceless snapshot refsOnly where
  short : ∀ r ∈ snapshot.refs, isListed refsOnly r → (utf8 r.name).length ≤ 65000

theorem isListed_refsOnly (r : RefInfo) : isListed refsOnly r = r.name.startsWith "refs/" := by
  rw [startsWith_refs_iff]
  simp [isListed, refsOnly]

theorem refLine_refsOnly (r : RefInfo) : refLine refsOnly r = plainLine r.oid r.name := by
  rw [refLine]
  cases r.symrefTarget <;> cases r.peeled <;> rfl

theorem requested_refsOnly (snapshot : RefsSnapshot) :
    (requested snapshot refsOnly).map (fun r => (r.oid, r.name)) =
      (asUploadPackV1 snapshot).map fun r => (some r.1, utf8 r.2) := by
  rw [requested, asUploadPackV1, List.map_append, List.map_append, List.map_map, List.map_map,
    List.filter_congr fun r _ => isListed_refsOnly r]
  congr 1
  cases hhead : snapshot.head with
  | none => simp [listedHead, hhead, refsOnly]
  | some head => simp [listedHead, hhead]

theorem WellNamed.listed_fits {snapshot : RefsSnapshot} (h : WellNamed snapshot) :
    ∀ line ∈ listLines snapshot refsOnly, FitsPacket line := by
  intro line hline
  rw [listLines, List.mem_append] at hline
  rcases hline with hline | hline
  · cases hhead : snapshot.head with
    | none => simp [headLine, hhead, refsOnly] at hline
    | some head =>
      rw [headLine_of_head hhead, refLine_refsOnly] at hline
      obtain rfl := Option.some.inj (Option.mem_toList.mp hline)
      have hname : (utf8 (headRef head).name).length = 4 := by
        change (utf8 "HEAD").length = 4
        decide +kernel
      rw [FitsPacket, length_plainLine, hname]
      decide
  · obtain ⟨r, hr, rfl⟩ := List.mem_map.mp hline
    obtain ⟨hmem, hlisted⟩ := List.mem_filter.mp hr
    have hshort := h.short r hmem hlisted
    rw [refLine_refsOnly, FitsPacket, length_plainLine, Proto.maxDataLen]
    omega

end Mizzle.Upload
