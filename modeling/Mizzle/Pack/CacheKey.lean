import Mizzle.Lib.Blocks
import Mizzle.Pack.Cache

/-!
# The names of cached packs

What `pack_cache::key` feeds to its hash, as a name for the request. The oids are sorted, so that
the order a client sends them in does not matter. They are written without their number around a
separator of one byte, so that wants may be read as haves: requests that differ in a block of oids
moved by one byte over the separator feed the same bytes (`Slides`), and no others do
(`keyInput_eq_iff`).
-/

namespace Mizzle.Pack

open Lib

/-- The same request, up to the order of its oids. -/
structure SameRequest (repoId repoId' : UInt64) (r r' : Request) : Prop where
  repo : repoId = repoId'
  wants : r.wants.Perm r'.wants
  haves : r.haves.Perm r'.haves
  opts : r.opts = r'.opts

/-- The second request has more wants and the first one more haves: the wants that sort last, moved
by a byte, are the haves that sort first. -/
structure Slides (repoId repoId' : UInt64) (r r' : Request) : Prop where
  repo : repoId = repoId'
  opts : r.opts = r'.opts
  moved : ∃ wants haves : List ObjectId, wants ≠ [] ∧ sortOids r'.wants = sortOids r.wants ++ wants ∧
    sortOids r.haves = haves ++ sortOids r'.haves ∧ 0 :: haves.flatMap ObjectId.bytes =
      wants.flatMap ObjectId.bytes ++ [0]

/-! ### Sorting -/

theorem sortOids_eq_iff {oids oids' : List ObjectId} :
    sortOids oids = sortOids oids' ↔ oids.Perm oids' := by
  have hperm : ∀ oids, (sortOids oids).Perm oids := fun oids => List.mergeSort_perm oids _
  have hsorted : ∀ oids, (sortOids oids).Pairwise fun a b => (compare a.bytes b.bytes).isLE = true := by
    refine List.pairwise_mergeSort (fun a b c => Std.TransCmp.isLE_trans) fun a b => ?_
    rw [@Std.OrientedCmp.eq_swap _ compare _ a.bytes b.bytes]
    cases compare b.bytes a.bytes <;> rfl
  constructor
  · intro h
    exact (hperm oids).symm.trans (h ▸ hperm oids')
  · intro h
    refine List.Perm.eq_of_pairwise (fun a b _ _ hab hba => ?_) (hsorted oids) (hsorted oids')
      ((hperm oids).trans (h.trans (hperm oids').symm))
    exact ObjectId.ext_bytes (Std.LawfulEqCmp.eq_of_compare (Std.OrientedCmp.isLE_antisymm hab hba))

/-! ### The bytes -/

theorem bytes_injective : Function.Injective ObjectId.bytes := fun _ _ => ObjectId.ext_bytes

theorem littleEndian_injective {w n m : Nat} (hn : n < 256 ^ w) (hm : m < 256 ^ w)
    (h : littleEndian w n = littleEndian w m) : n = m :=
  bigEndian_injective hn hm (List.reverse_injective h)

theorem filterTag_injective {filter filter' : Option Filter}
    (h : filterTag filter = filterTag filter') : filter = filter' := by
  rcases filter with _ | ⟨_ | _⟩ <;> rcases filter' with _ | ⟨_ | _⟩ <;> first | rfl | exact absurd h (by decide)

/-- What follows the haves. -/
def optionBytes (opts : PackOptions) : Bytes :=
  littleEndian 4 (opts.deepen.getD 0).toNat ++ [filterTag opts.filter] ++ [if opts.thinPack then 1 else 0]

theorem optionBytes_injective {opts opts' : PackOptions} (hdeepen : opts.deepen ≠ some 0)
    (hdeepen' : opts'.deepen ≠ some 0) (h : optionBytes opts = optionBytes opts') :
    opts = opts' := by
  obtain ⟨hfront, hthin⟩ := List.append_inj' h rfl
  obtain ⟨hdepth, hfilter⟩ := List.append_inj' hfront rfl
  have hdepth := UInt32.toNat_inj.mp (littleEndian_injective (UInt32.toNat_lt _) (UInt32.toNat_lt _) hdepth)
  obtain ⟨deepen, filter, thinPack⟩ := opts
  obtain ⟨deepen', filter', thinPack'⟩ := opts'
  obtain rfl : deepen = deepen' := by
    cases deepen <;> cases deepen' <;> simp_all
  obtain rfl := filterTag_injective (List.cons.inj hfilter).1
  obtain rfl : thinPack = thinPack' := by
    cases thinPack <;> cases thinPack' <;> simp_all
  rfl

theorem keyInput_eq (repoId : UInt64) (r : Request) :
    keyInput repoId r = littleEndian 8 repoId.toNat ++
    ((sortOids r.wants).flatMap ObjectId.bytes ++ 0 :: (sortOids r.haves).flatMap ObjectId.bytes ++
      (1 :: optionBytes r.opts)) := by
  simp [keyInput, optionBytes]

variable {repoId repoId' : UInt64} {r r' : Request}

theorem keyInput_parts (hdeepen : r.opts.deepen ≠ some 0) (hdeepen' : r'.opts.deepen ≠ some 0)
    (h : keyInput repoId r = keyInput repoId' r') : repoId = repoId' ∧ r.opts = r'.opts ∧
    (sortOids r.wants).flatMap ObjectId.bytes ++ 0 :: (sortOids r.haves).flatMap ObjectId.bytes =
      (sortOids r'.wants).flatMap ObjectId.bytes ++ 0 :: (sortOids r'.haves).flatMap ObjectId.bytes := by
  have hwidth : ∀ w n, (littleEndian w n).length = w := fun w n => by
    rw [littleEndian, List.length_reverse, length_bigEndian]
  rw [keyInput_eq, keyInput_eq] at h
  obtain ⟨hrepo, hrest⟩ := List.append_inj h (by rw [hwidth, hwidth])
  obtain ⟨hoids, hopts⟩ := List.append_inj' hrest (by simp [optionBytes, hwidth])
  refine ⟨UInt64.toNat_inj.mp (littleEndian_injective (UInt64.toNat_lt _) (UInt64.toNat_lt _) hrepo), ?_, hoids⟩
  exact optionBytes_injective hdeepen hdeepen' (List.cons.inj hopts).2

theorem keyInput_of_same (h : SameRequest repoId repoId' r r') :
    keyInput repoId r = keyInput repoId' r' := by
  rw [keyInput_eq, keyInput_eq, h.repo, h.opts, sortOids_eq_iff.mpr h.wants, sortOids_eq_iff.mpr h.haves]

theorem keyInput_of_slides (h : Slides repoId repoId' r r') :
    keyInput repoId r = keyInput repoId' r' := by
  obtain ⟨wants, haves, -, hwants, hhaves, hmoved⟩ := h.moved
  rw [keyInput_eq, keyInput_eq, h.repo, h.opts, hwants, hhaves, List.flatMap_append,
    List.flatMap_append, ← List.cons_append, hmoved]
  simp only [List.append_assoc, List.cons_append, List.nil_append]

theorem not_same_of_slides (h : Slides repoId repoId' r r') :
    ¬ SameRequest repoId repoId' r r' := by
  intro hsame
  obtain ⟨wants, haves, hne, hwants, -, -⟩ := h.moved
  rw [sortOids_eq_iff.mpr hsame.wants] at hwants
  exact hne (List.self_eq_append_right.mp hwants)

theorem slides_or_same (hrepo : repoId = repoId') (hopts : r.opts = r'.opts)
    (hle : (sortOids r.wants).length ≤ (sortOids r'.wants).length)
    (h : (sortOids r.wants).flatMap ObjectId.bytes ++
      0 :: (sortOids r.haves).flatMap ObjectId.bytes = (sortOids r'.wants).flatMap ObjectId.bytes ++
        0 :: (sortOids r'.haves).flatMap ObjectId.bytes) :
    SameRequest repoId repoId' r r' ∨ Slides repoId repoId' r r' := by
  obtain ⟨wants, haves, hwants, hhaves, hmoved⟩ :=
    flatMap_separated ObjectId.length_eq bytes_injective (by decide) hle h
  by_cases hnil : wants = []
  · subst hnil
    have hlength := congrArg List.length hmoved
    simp only [List.length_cons, length_flatMap_width ObjectId.length_eq, List.length_append,
      List.flatMap_nil, List.length_nil]
      at hlength
    obtain rfl : haves = [] := List.eq_nil_of_length_eq_zero (by omega)
    rw [List.append_nil] at hwants
    exact Or.inl ⟨hrepo, sortOids_eq_iff.mp hwants.symm, sortOids_eq_iff.mp hhaves, hopts⟩
  · exact Or.inr ⟨hrepo, hopts, wants, haves, hnil, hwants, hhaves, hmoved⟩

/-- **Two requests feed the same bytes if they are the same, or if wants of one slide into the haves
of the other.** -/
theorem keyInput_eq_iff (hdeepen : r.opts.deepen ≠ some 0) (hdeepen' : r'.opts.deepen ≠ some 0) :
    keyInput repoId r = keyInput repoId' r' ↔
      SameRequest repoId repoId' r r' ∨ Slides repoId repoId' r r' ∨ Slides repoId' repoId r' r := by
  constructor
  · intro h
    obtain ⟨hrepo, hopts, hoids⟩ := keyInput_parts hdeepen hdeepen' h
    rcases Nat.le_total (sortOids r.wants).length (sortOids r'.wants).length with hle | hle
    · exact (slides_or_same hrepo hopts hle hoids).imp_right Or.inl
    · rcases slides_or_same hrepo.symm hopts.symm hle hoids.symm with hsame | hslides
      · exact Or.inl ⟨hrepo, hsame.wants.symm, hsame.haves.symm, hopts⟩
      · exact Or.inr (Or.inr hslides)
  · rintro (h | h | h)
    · exact keyInput_of_same h
    · exact keyInput_of_slides h
    · exact (keyInput_of_slides h).symm

/-- **The input does not depend on the order of the oids, and it identifies a request exactly if no
block of oids slides.** -/
theorem keyInput_identifies_iff {repoId repoId' : UInt64} {r r' : Request}
    (hdeepen : r.opts.deepen ≠ some 0) (hdeepen' : r'.opts.deepen ≠ some 0) :
    (∀ wants haves, wants.Perm r.wants → haves.Perm r.haves →
      keyInput repoId { r with wants, haves } = keyInput repoId r) ∧
    ((keyInput repoId r = keyInput repoId' r' → SameRequest repoId repoId' r r') ↔
      ¬ Slides repoId repoId' r r' ∧ ¬ Slides repoId' repoId r' r) := by
  refine ⟨fun wants haves hwants hhaves => keyInput_of_same ⟨rfl, hwants, hhaves, rfl⟩, ?_⟩
  rw [keyInput_eq_iff hdeepen hdeepen']
  constructor
  · intro h
    refine ⟨fun hslides => not_same_of_slides hslides (h (Or.inr (Or.inl hslides))), fun hslides => ?_⟩
    have hsame := h (Or.inr (Or.inr hslides))
    exact not_same_of_slides hslides ⟨hsame.repo.symm, hsame.wants.symm, hsame.haves.symm, hsame.opts.symm⟩
  · rintro ⟨hno, hno'⟩ (hsame | hslides | hslides)
    · exact hsame
    · exact absurd hslides hno
    · exact absurd hslides hno'

def sampleRequest : Request :=
  { wants := [.fill 1, .fill 2], haves := [.fill 3], opts := { deepen := some 1 } }

theorem keyInput_identifies_sample :
    keyInput 1 { sampleRequest with wants := [.fill 2, .fill 1], haves := [.fill 3] } =
      keyInput 1 sampleRequest ∧
    ¬ Slides 1 2 sampleRequest sampleRequest := by
  obtain ⟨hperm, hidentifies⟩ := @keyInput_identifies_iff 1 2 sampleRequest sampleRequest (by decide) (by decide)
  exact ⟨hperm [.fill 2, .fill 1] [.fill 3] (by decide) (by decide),
    (hidentifies.mp fun h => absurd h (by decide +kernel)).1⟩

/-- An oid that begins with a zero byte, and one that ends with one. -/
def leadingZero (b : UInt8) : ObjectId := ⟨0 :: List.replicate 19 b, by simp⟩

def trailingZero (b : UInt8) : ObjectId := ⟨List.replicate 19 b ++ [0], by simp⟩

/-- Two wants, and one want with a have, feed the same bytes. -/
theorem keyInput_collision :
    keyInput 1 { wants := [leadingZero 1], haves := [trailingZero 2], opts := {} } =
      keyInput 1 { wants := [leadingZero 1, leadingZero 2], haves := [], opts := {} } ∧
    ¬ SameRequest 1 1 { wants := [leadingZero 1], haves := [trailingZero 2], opts := {} }
      { wants := [leadingZero 1, leadingZero 2], haves := [], opts := {} } := by
  have hsorted : sortOids [leadingZero 1, leadingZero 2] = sortOids [leadingZero 1] ++ [leadingZero 2] := by
    rw [sortOids, List.mergeSort_of_pairwise (by decide +kernel), sortOids, List.mergeSort_singleton]
    rfl
  have hslides : Slides 1 1 { wants := [leadingZero 1], haves := [trailingZero 2], opts := {} }
      { wants := [leadingZero 1, leadingZero 2], haves := [], opts := {} } :=
    ⟨rfl, rfl, [leadingZero 2], [trailingZero 2], by simp, hsorted, by simp [sortOids], by decide⟩
  exact ⟨keyInput_of_slides hslides, not_same_of_slides hslides⟩

end Mizzle.Pack
