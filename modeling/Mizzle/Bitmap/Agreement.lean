import Mizzle.Bitmap.Reuse
import Mizzle.Pack.PartialOdb

/-!
# Bitmaps and the walk agree

For a pack that is closed under references and has no submodules, with a bitmap whose entries stand
for what their commits reach, both uses of the bitmap give what the walk gives: a pack is found to
be exactly what is asked for if and only if it is what the walk selects, and a have set from the
bitmap is the one that the walk computes (`fast_paths_agree`). The database may hold other objects
beside those of the pack.
-/

namespace Mizzle.Bitmap

open Lib Pack PackBitmap

/-- The positions, in the order of offsets, of the objects in a set. -/
def positions (index : List ObjectId) (rev : List Nat) (X : Set ObjectId) : Set Nat :=
  {k | ∃ v x, rev[k]? = some v ∧ index[v]? = some x ∧ x ∈ X}

/-- What the oids reach. -/
def closure (o : Objects) (oids : List ObjectId) : Set ObjectId := {x | Reach o.refs oids x}

/-- The index has the objects of the pack, `.rev` lists its positions in another order, and the
entries are commits with the positions of what they reach. -/
structure ValidBitmap (o : Objects) (index : List ObjectId) (rev : List Nat)
    (entries : List Entry) : Prop where
  objects : ∀ x, x ∈ index ↔ o.find x ≠ none
  rev_perm : rev.Perm (List.range index.length)
  ewah : ∀ e ∈ entries, ∀ bit ∈ e.ewah.bits, bit < e.ewah.numBits
  commit : ∀ e ∈ entries, ∃ c, index[e.idxPos]? = some c ∧ o.IsCommit c
  bits : ∀ {i e c}, entries[i]? = some e → index[e.idxPos]? = some c →
    Resolves Entry.bits entries i (positions index rev (closure o [c]))

variable {p : Parser} {o : Objects} {index : List ObjectId} {rev : List Nat} {entries : List Entry} {bm : PackBitmap}

variable {oids : List ObjectId}

theorem mem_closure_iff {x : ObjectId} : x ∈ closure o oids ↔ ∃ c ∈ oids, x ∈ closure o [c] := by
  constructor
  · rintro ⟨c, hc, hpath⟩
    exact ⟨c, hc, c, List.mem_cons_self, hpath⟩
  · rintro ⟨c, hc, c', hc', hpath⟩
    exact ⟨c', List.mem_singleton.mp hc' ▸ hc, hpath⟩

namespace ValidBitmap

theorem mem_rev (h : ValidBitmap o index rev entries) {v : Nat} : v ∈ rev ↔ v < index.length := by
  rw [h.rev_perm.mem_iff, List.mem_range]

theorem length_rev (h : ValidBitmap o index rev entries) : rev.length = index.length := by
  rw [h.rev_perm.length_eq, List.length_range]

theorem indexed (h : ValidBitmap o index rev entries) :
    ∃ bm, (parsed rev entries index.length).buildOidIndex (oidAtIndex index) = .ok bm ∧
      Indexed index rev entries bm := by
  obtain ⟨bm, hbm⟩ := buildOidIndex_ok_iff.mpr ⟨fun v hv => h.mem_rev.mp hv, fun e he => by
    obtain ⟨c, hc, -⟩ := h.commit e he
    exact (List.getElem?_eq_some_iff.mp hc).1⟩
  exact ⟨bm, hbm, buildOidIndex_spec hbm⟩

theorem exists_position (h : ValidBitmap o index rev entries) {x : ObjectId} (hx : x ∈ index) :
    ∃ k v, k < index.length ∧ rev[k]? = some v ∧ index[v]? = some x := by
  obtain ⟨v, hv⟩ := List.mem_iff_getElem?.mp hx
  obtain ⟨k, hk⟩ := List.mem_iff_getElem?.mp (h.mem_rev.mpr (List.getElem?_eq_some_iff.mp hv).1)
  exact ⟨k, v, h.length_rev ▸ (List.getElem?_eq_some_iff.mp hk).1, hk, hv⟩

theorem exists_object (h : ValidBitmap o index rev entries) {k : Nat} (hk : k < index.length) :
    ∃ v x, rev[k]? = some v ∧ index[v]? = some x := by
  have hk' : k < rev.length := h.length_rev ▸ hk
  have hv := h.mem_rev.mp (List.getElem_mem hk')
  exact ⟨rev[k], index[rev[k]], List.getElem?_eq_getElem hk', List.getElem?_eq_getElem hv⟩

theorem isCommit_of_lastEntry (h : ValidBitmap o index rev entries) {oid : ObjectId} {i : Nat}
    (hi : LastEntry index entries oid i) : o.IsCommit oid := by
  obtain ⟨⟨e, he, hoid⟩, -⟩ := hi
  obtain ⟨c, hc, hcommit⟩ := h.commit e (List.mem_of_getElem? he)
  rwa [Option.some.inj (hoid.symm.trans hc)]

theorem resolves (h : ValidBitmap o index rev entries) (hbm : Indexed index rev entries bm)
    {oid : ObjectId} {i : Nat} (hi : LastEntry index entries oid i) :
    Resolves bm.stored bm.entries i (positions index rev (closure o [oid])) := by
  obtain ⟨⟨e, he, hoid⟩, -⟩ := hi
  rw [hbm.entries_eq]
  exact (h.bits he hoid).congr fun e' he' => stored_eq_bits fun bit hbit =>
    (h.ewah e' he' bit hbit).trans_le (le_max_left _ _)

theorem union_eq (h : ValidBitmap o index rev entries) (hbm : Indexed index rev entries bm)
    {is : List Nat} (his : oids.mapM bm.oidToEntry = some is) :
    bm.Union is = positions index rev (closure o oids) := by
  obtain ⟨hforth, hback⟩ := mapM_option_spec his
  ext k
  constructor
  · rintro ⟨i, hi, S, hS, hk⟩
    obtain ⟨oid, hoid, hfound⟩ := hback i hi
    rw [hS.unique (h.resolves hbm ((hbm.table oid i).mp hfound))] at hk
    obtain ⟨v, x, hv, hx, hreach⟩ := hk
    exact ⟨v, x, hv, hx, mem_closure_iff.mpr ⟨oid, hoid, hreach⟩⟩
  · rintro ⟨v, x, hv, hx, hreach⟩
    obtain ⟨oid, hoid, hreach⟩ := mem_closure_iff.mp hreach
    obtain ⟨i, hi, hfound⟩ := hforth oid hoid
    exact ⟨i, hi, _, h.resolves hbm ((hbm.table oid i).mp hfound), v, x, hv, hx, hreach⟩

theorem unionBitmap_spec (h : ValidBitmap o index rev entries) (hbm : Indexed index rev entries bm)
    {b : DenseBitmap} (hunion : bm.unionBitmap oids = .ok (some b)) :
    (∀ oid ∈ oids, ∃ i, LastEntry index entries oid i) ∧ b.toSet =
      positions index rev (closure o oids) ∧
      index.length ≤ b.numBits := by
  obtain ⟨is, his, hset, hbits⟩ := unionBitmap_eq_some hunion
  refine ⟨fun oid hoid => ?_, by rw [hset, h.union_eq hbm his], hbm.count_eq ▸ hbits⟩
  obtain ⟨i, -, hfound⟩ := (mapM_option_spec his).1 oid hoid
  exact ⟨i, (hbm.table oid i).mp hfound⟩

theorem unionBitmap_of_entries (h : ValidBitmap o index rev entries)
    (hbm : Indexed index rev entries bm)
    (hoids : ∀ oid ∈ oids, ∃ i, LastEntry index entries oid i) :
    ∃ b, bm.unionBitmap oids = .ok (some b) := by
  obtain ⟨is, his⟩ := mapM_option_of_forall fun oid hoid => by
    obtain ⟨i, hi⟩ := hoids oid hoid
    exact ⟨i, (hbm.table oid i).mpr hi⟩
  obtain ⟨state, hloop⟩ := @addEntries_of_resolves bm is (fun i hi => by
    obtain ⟨oid, -, hfound⟩ := (mapM_option_spec his).2 i hi
    exact ⟨_, h.resolves hbm ((hbm.table oid i).mp hfound)⟩) (fun _ => none, .new bm.packObjectCount)
  refine ⟨state.2, ?_⟩
  rw [unionBitmap_of_some his, hloop]
  rfl

theorem coversAll_iff (h : ValidBitmap o index rev entries) (hbm : Indexed index rev entries bm)
    {b : DenseBitmap} {X : Set ObjectId} (hb : b.toSet = positions index rev X) :
    bm.coversAll b = true ↔ ∀ x ∈ index, x ∈ X := by
  rw [coversAll, beq_iff_eq, hbm.count_eq, DenseBitmap.popcountInRange_eq_self_iff, hb]
  constructor
  · intro hall x hx
    obtain ⟨k, v, hk, hv, hvx⟩ := h.exists_position hx
    obtain ⟨v', x', hv', hx', hmem⟩ := hall k hk
    obtain rfl := Option.some.inj (hv.symm.trans hv')
    rwa [Option.some.inj (hvx.symm.trans hx')]
  · intro hall k hk
    obtain ⟨v, x, hv, hvx⟩ := h.exists_object hk
    exact ⟨v, x, hv, hvx, hall x (List.mem_of_getElem? hvx)⟩

theorem positions_sdiff (X Y : Set ObjectId) :
    positions index rev X \ positions index rev Y = positions index rev (X \ Y) := by
  ext k
  constructor
  · rintro ⟨⟨v, x, hv, hx, hX⟩, hnot⟩
    exact ⟨v, x, hv, hx, hX, fun hY => hnot ⟨v, x, hv, hx, hY⟩⟩
  · rintro ⟨v, x, hv, hx, hX, hY⟩
    refine ⟨⟨v, x, hv, hx, hX⟩, ?_⟩
    rintro ⟨v', x', hv', hx', hY'⟩
    obtain rfl := Option.some.inj (hv.symm.trans hv')
    exact hY (Option.some.inj (hx.symm.trans hx') ▸ hY')

theorem closure_nil : closure o [] = ∅ := by
  ext x
  exact ⟨fun ⟨_, hc, _⟩ => absurd hc List.not_mem_nil, fun hx => absurd hx (Set.notMem_empty x)⟩

theorem unions_of_coversExactly {want haves : List ObjectId} (hwant : want ≠ []) {answer : Bool}
    (h : bm.coversExactly want haves = .ok (some answer)) :
    ∃ covered, bm.unionBitmap want = .ok (some covered) ∧
      ∃ had, bm.unionBitmap haves = .ok (some had) := by
  rw [coversExactly, if_neg (by simpa using hwant)] at h
  obtain ⟨covered, hcovered, h⟩ := bind_eq_ok_iff.mp h
  cases covered with
  | none => cases h
  | some covered =>
    refine ⟨covered, hcovered, ?_⟩
    by_cases hnone : haves = []
    · subst hnone
      exact ⟨_, rfl⟩
    · have h := (if_neg (by simpa using hnone)).symm.trans h
      obtain ⟨had, hhad, h⟩ := bind_eq_ok_iff.mp h
      cases had with
      | none => cases h
      | some had => exact ⟨had, hhad⟩

theorem coversExactly_of_unions (h : ValidBitmap o index rev entries)
    (hbm : Indexed index rev entries bm) {want haves : List ObjectId} (hwant : want ≠ [])
    {covered had : DenseBitmap} (hcovered : bm.unionBitmap want = .ok (some covered))
    (hhad : bm.unionBitmap haves = .ok (some had)) :
    ∃ answer, bm.coversExactly want haves = .ok (some answer) ∧
      (answer = true ↔ ∀ x ∈ index, x ∈ closure o want \ closure o haves) := by
  obtain ⟨-, hcoveredSet, -⟩ := h.unionBitmap_spec hbm hcovered
  obtain ⟨-, hhadSet, -⟩ := h.unionBitmap_spec hbm hhad
  rw [coversExactly, if_neg (by simpa using hwant), hcovered, hhad]
  by_cases hnone : haves = []
  · subst hnone
    refine ⟨bm.coversAll covered, rfl, h.coversAll_iff hbm ?_⟩
    rw [hcoveredSet, closure_nil, Set.sdiff_empty]
  · refine ⟨bm.coversAll (covered.andnotWith had), if_neg (by simpa using hnone), h.coversAll_iff hbm ?_⟩
    rw [DenseBitmap.toSet_andnotWith, hcoveredSet, hhadSet, positions_sdiff]

/-- **What `covers_exactly` answers.** -/
theorem coversExactly_iff (h : ValidBitmap o index rev entries) (hbm : Indexed index rev entries bm)
    {want haves : List ObjectId} :
    bm.coversExactly want haves = .ok (some true) ↔
      want ≠ [] ∧ (∀ oid ∈ want ++ haves, ∃ i, LastEntry index entries oid i) ∧
        ∀ x ∈ index, x ∈ closure o want \ closure o haves := by
  constructor
  · intro hcovers
    have hwant : want ≠ [] := by
      rintro rfl
      cases hcovers
    obtain ⟨covered, hcovered, had, hhad⟩ := unions_of_coversExactly hwant hcovers
    obtain ⟨answer, hanswer, htrue⟩ := h.coversExactly_of_unions hbm hwant hcovered hhad
    obtain rfl : answer = true := Option.some.inj (Except.ok.inj (hanswer.symm.trans hcovers))
    exact ⟨hwant, List.forall_mem_append.mpr ⟨(h.unionBitmap_spec hbm hcovered).1, (h.unionBitmap_spec hbm hhad).1⟩,
      htrue.mp rfl⟩
  · rintro ⟨hwant, hentries, hall⟩
    obtain ⟨hwants, hhaves⟩ := List.forall_mem_append.mp hentries
    obtain ⟨covered, hcovered⟩ := h.unionBitmap_of_entries hbm hwants
    obtain ⟨had, hhad⟩ := h.unionBitmap_of_entries hbm hhaves
    obtain ⟨answer, hanswer, htrue⟩ := h.coversExactly_of_unions hbm hwant hcovered hhad
    rw [hanswer, htrue.mpr hall]

theorem insertOids_eq (hbm : Indexed index rev entries bm) {ks : List Nat}
    (hks : ∀ k ∈ ks, ∃ v x, rev[k]? = some v ∧ index[v]? = some x) (out : Finset ObjectId) :
    ∃ out', ks.foldlM bm.insertOid out = .ok out' ∧
      ∀ x, x ∈ out' ↔ x ∈ out ∨ ∃ k ∈ ks, ∃ v, rev[k]? = some v ∧ index[v]? = some x := by
  induction ks generalizing out with
  | nil => exact ⟨out, rfl, fun x => by simp⟩
  | cons k ks ih =>
    obtain ⟨⟨v, y, hv, hy⟩, hrest⟩ := List.forall_mem_cons.mp hks
    obtain ⟨out', hloop, hmem⟩ := ih hrest (insert y out)
    refine ⟨out', ?_, fun x => ?_⟩
    · have hfirst : bm.insertOid out k = .ok (insert y out) := by
        rw [insertOid, hbm.oids_eq, List.getElem?_map, hv, Option.map_some, hy]
      rw [List.foldlM_cons, hfirst]
      exact hloop
    · rw [hmem, Finset.mem_insert, List.exists_mem_cons_iff, or_comm (a := x = y), or_assoc]
      refine or_congr_right (or_congr_left ⟨?_, ?_⟩)
      · rintro rfl
        exact ⟨v, hv, hy⟩
      · rintro ⟨v', hv', hx⟩
        obtain rfl := Option.some.inj (hv.symm.trans hv')
        exact Option.some.inj (hx.symm.trans hy)

/-- **What `have_reachable` answers.** -/
theorem haveReachable_spec (h : ValidBitmap o index rev entries)
    (hbm : Indexed index rev entries bm) (hclosed : o.Closed) {haves : List ObjectId}
    {S : Finset ObjectId} (hset : bm.haveReachable haves = .ok (some S)) :
    (∀ c ∈ haves, o.IsCommit c) ∧ ∀ x, x ∈ S ↔ x ∈ closure o haves := by
  obtain ⟨union, hunion, hset⟩ := bind_eq_ok_iff.mp hset
  obtain ⟨b, rfl, hS⟩ := Option.map_eq_some_iff.mp (Except.ok.inj hset)
  obtain ⟨hentries, hb, hbits⟩ := h.unionBitmap_spec hbm hunion
  have hcommits : ∀ c ∈ haves, o.IsCommit c := fun c hc => by
    obtain ⟨i, hi⟩ := hentries c hc
    exact h.isCommit_of_lastEntry hi
  have hpositions : ∀ k ∈ b.members, ∃ v x, rev[k]? = some v ∧ index[v]? = some x := fun k hk => by
    obtain ⟨v, x, hv, hx, -⟩ := hb ▸ (DenseBitmap.mem_members.mp hk).2
    exact ⟨v, x, hv, hx⟩
  obtain ⟨out, hloop, hmem⟩ := insertOids_eq hbm hpositions ∅
  rw [DenseBitmap.forEachSetBit_eq, hloop] at hS
  subst hS
  refine ⟨hcommits, fun x => ?_⟩
  rw [hmem]
  constructor
  · rintro (hx | ⟨k, hk, v, hv, hx⟩)
    · exact absurd hx (Finset.notMem_empty x)
    · obtain ⟨v', x', hv', hx', hreach⟩ := hb ▸ (DenseBitmap.mem_members.mp hk).2
      obtain rfl := Option.some.inj (hv.symm.trans hv')
      rwa [Option.some.inj (hx.symm.trans hx')]
  · intro hreach
    have hfound : o.find x ≠ none := hclosed.find_ne_none_of_commits hcommits hreach
    obtain ⟨k, v, hk, hv, hx⟩ := h.exists_position ((h.objects x).mpr hfound)
    refine Or.inr ⟨k, DenseBitmap.mem_members.mpr ⟨hk.trans_le hbits, ?_⟩, v, hv, hx⟩
    rw [hb]
    exact ⟨v, x, hv, hx, hreach⟩

end ValidBitmap

/-! ### The walk -/

section Walk

variable {odb : Odb} {wants haves : List ObjectId}

theorem walk_ends (hclosed : o.Closed) (hno : o.NoGitlinks) (hodb : odb.Holds p o)
    (hwants : ∀ w ∈ wants, o.IsCommit w) (hhaves : ∀ c ∈ haves, o.IsCommit c) :
    Outcome.Ends (fun fuel => objectsForFetchFiltered p odb fuel wants haves none none)
      fun r => ∀ x, x ∈ r.objects ↔ x ∈ closure o wants \ closure o haves := by
  have hfound : ∀ w ∈ wants, o.find w ≠ none := fun w hw => (hwants w hw).find_ne_none
  have hends := (fetch_ends hclosed hfound hhaves hodb.stores_restrict).imp fun r hr x =>
    (hr x).trans (hclosed.selectedGit_iff hno hwants hhaves)
  simp only [hodb.objectsForFetchFiltered_eq hclosed _ hwants hhaves]
  exact hends

theorem haveSet_ends (hclosed : o.Closed) (hno : o.NoGitlinks) (hodb : odb.Holds p o)
    (hhaves : ∀ c ∈ haves, o.IsCommit c) :
    Outcome.Ends (fun fuel => buildHaveSet p odb fuel haves)
      fun S => ∀ x, x ∈ S ↔ x ∈ closure o haves := by
  refine ⟨o.oids.card, fun fuel hfuel => ?_⟩
  obtain ⟨S, hS, hmem⟩ := hodb.stores_restrict.buildHaveSet_done hclosed hfuel hhaves
  exact ⟨S, (hodb.buildHaveSet_eq hclosed fuel hhaves).trans hS, fun x => (hmem x).trans (Objects.had_iff_reach hno)⟩

end Walk

def SelectsPack (p : Parser) (odb : Odb) (index want haves : List ObjectId) : Prop :=
  Outcome.Ends (fun fuel => objectsForFetchFiltered p odb fuel want haves none none)
    fun r => ∀ x, x ∈ r.objects ↔ x ∈ index

/-- **The bitmap agrees with the walk.** -/
theorem fast_paths_agree (hclosed : o.Closed) (hno : o.NoGitlinks)
    (hvalid : ValidBitmap o index rev entries) {odb : Odb} (hodb : odb.Holds p o) :
    ∃ bm, (parsed rev entries index.length).buildOidIndex (oidAtIndex index) = .ok bm ∧
      (∀ want haves, bm.coversExactly want haves = .ok (some true) → SelectsPack p odb index want haves) ∧
      (∀ want haves, want ≠ [] → (∀ oid ∈ want ++ haves, ∃ i, LastEntry index entries oid i) →
        SelectsPack p odb index want haves → bm.coversExactly want haves = .ok (some true)) ∧
      ∀ haves S, bm.haveReachable haves = .ok (some S) →
        Outcome.Ends (fun fuel => buildHaveSet p odb fuel haves) (· = S) := by
  obtain ⟨bm, hbuild, hbm⟩ := hvalid.indexed
  have hcommits : ∀ {want haves : List ObjectId}, (∀ oid ∈ want ++ haves, ∃ i, LastEntry index entries oid i) →
      (∀ w ∈ want, o.IsCommit w) ∧ ∀ c ∈ haves, o.IsCommit c := fun hentries =>
    List.forall_mem_append.mp fun oid hoid => by
      obtain ⟨i, hi⟩ := hentries oid hoid
      exact hvalid.isCommit_of_lastEntry hi
  refine ⟨bm, hbuild, fun want haves hcovers => ?_,
    fun want haves hwant hentries hselects => ?_, fun haves S hset => ?_⟩
  · obtain ⟨-, hentries, hall⟩ := (hvalid.coversExactly_iff hbm).mp hcovers
    obtain ⟨hwants, hhaves⟩ := hcommits hentries
    refine (walk_ends hclosed hno hodb hwants hhaves).imp fun r hr x => (hr x).trans ⟨fun hx => ?_, hall x⟩
    exact (hvalid.objects x).mpr (hclosed.find_ne_none_of_commits hwants hx.1)
  · obtain ⟨hwants, hhaves⟩ := hcommits hentries
    have hiff := (walk_ends hclosed hno hodb hwants hhaves).ends_iff (Q := fun r => ∀ x, x ∈ r.objects ↔ x ∈ index)
      (C := ∀ x, x ∈ closure o want \ closure o haves ↔ x ∈ index) fun r hr => by simp only [hr]
    exact (hvalid.coversExactly_iff hbm).mpr ⟨hwant, hentries, fun x hx => (hiff.mp hselects x).mpr hx⟩
  · obtain ⟨hhaves, hmem⟩ := hvalid.haveReachable_spec hbm hclosed hset
    exact (haveSet_ends hclosed hno hodb hhaves).imp fun T hT => Finset.ext fun x => (hT x).trans (hmem x).symm

/-! ### A pack of two commits -/

def linearIndex : List ObjectId := linearEntries.map Prod.fst

/-- The first commit is at the lower offset. -/
def linearRev : List Nat := [1, 0, 2, 3, 4, 5]

/-- The second commit is stored as the difference to the first one. -/
def linearBits : List Entry := [⟨1, 0, ⟨6, [0, 3, 4]⟩⟩, ⟨0, 1, ⟨6, [1, 2, 5]⟩⟩]

theorem closure_first :
    closure linearStore [.fill 1] = {x | x ∈ [ObjectId.fill 1, .fill 3, .fill 5]} := by
  ext x
  refine ⟨Objects.mem_of_reach (by decide +kernel) (by decide +kernel), fun hx => ?_⟩
  have hcommit : Reach linearStore.refs [.fill 1] (.fill 1) := reach_self (by decide)
  have htree : Reach linearStore.refs [.fill 1] (.fill 3) := reach_step hcommit (by decide +kernel)
  have hfile : Reach linearStore.refs [.fill 1] (.fill 5) := reach_step htree (by decide +kernel)
  simp only [Set.mem_ofPred_eq, List.mem_cons, List.not_mem_nil, or_false] at hx
  rcases hx with rfl | rfl | rfl
  exacts [hcommit, htree, hfile]

theorem closure_second : closure linearStore [.fill 2] = {x | x ∈ linearIndex} := by
  ext x
  refine ⟨Objects.mem_of_reach (by decide +kernel) (by decide +kernel), fun hx => ?_⟩
  have hcommit : Reach linearStore.refs [.fill 2] (.fill 2) := reach_self (by decide)
  have hparent : Reach linearStore.refs [.fill 2] (.fill 1) := reach_step hcommit (by decide +kernel)
  have hroot : Reach linearStore.refs [.fill 2] (.fill 4) := reach_step hcommit (by decide +kernel)
  have htree : Reach linearStore.refs [.fill 2] (.fill 3) := reach_step hroot (by decide +kernel)
  have hfile : Reach linearStore.refs [.fill 2] (.fill 5) := reach_step htree (by decide +kernel)
  have hfile' : Reach linearStore.refs [.fill 2] (.fill 6) := reach_step hroot (by decide +kernel)
  simp only [Set.mem_ofPred_eq, linearIndex, linearEntries, List.map_cons, List.map_nil,
    List.mem_cons, List.not_mem_nil,
    or_false] at hx
  rcases hx with rfl | rfl | rfl | rfl | rfl | rfl
  exacts [hcommit, hparent, hroot, htree, hfile, hfile']

theorem positions_list (xs : List ObjectId) :
    positions linearIndex linearRev {x | x ∈ xs} =
      {k | k ∈ (List.range 6).filter fun k => decide (((linearRev[k]?).bind (linearIndex[·]?)).any (· ∈ xs))} := by
  ext k
  simp only [positions, Set.mem_ofPred_eq, List.mem_filter, List.mem_range]
  constructor
  · rintro ⟨v, x, hv, hx, hmem⟩
    exact ⟨(List.getElem?_eq_some_iff.mp hv).1, by simp [hv, hx, hmem]⟩
  · rintro ⟨-, hany⟩
    obtain ⟨x, hx, hmem⟩ := (Option.any_eq_true _ _).mp (by simpa using hany)
    obtain ⟨v, hv, hvx⟩ := Option.bind_eq_some_iff.mp hx
    exact ⟨v, x, hv, hvx, by simpa using hmem⟩

theorem resolves_first :
    Resolves Entry.bits linearBits 0
      (positions linearIndex linearRev (closure linearStore [.fill 1])) := by
  have hbase : Resolves Entry.bits linearBits 0 {k | k ∈ [0, 3, 4]} := .base (e := ⟨1, 0, ⟨6, [0, 3, 4]⟩⟩) rfl rfl
  rw [closure_first, positions_list]
  exact hbase

theorem resolves_second :
    Resolves Entry.bits linearBits 1
      (positions linearIndex linearRev (closure linearStore [.fill 2])) := by
  have hchain : Resolves Entry.bits linearBits 1 (symmDiff {k | k ∈ [1, 2, 5]} {k | k ∈ [0, 3, 4]}) :=
    .step (e := ⟨0, 1, ⟨6, [1, 2, 5]⟩⟩) rfl (by decide) (by decide) (.base (e := ⟨1, 0, ⟨6, [0, 3, 4]⟩⟩) rfl rfl)
  have hall : ∀ k, k ∈ ([0, 1, 2, 3, 4, 5] : List Nat) ↔ k ∈ symmDiff {k | k ∈ [1, 2, 5]} {k | k ∈ [0, 3, 4]} := by
    intro k
    simp only [Set.mem_symmDiff, Set.mem_ofPred_eq, List.mem_cons, List.not_mem_nil, or_false]
    omega
  rw [closure_second, positions_list]
  exact (Set.ext hall : {k | k ∈ [0, 1, 2, 3, 4, 5]} = _) ▸ hchain

theorem validBitmap_linearBits : ValidBitmap linearStore linearIndex linearRev linearBits where
  objects _ := Objects.mem_keys_ofList
  rev_perm := by decide
  ewah := by decide
  commit e he := by
    rcases List.mem_cons.mp he with rfl | he
    · exact ⟨.fill 1, rfl, by decide +kernel⟩
    · obtain rfl := List.mem_singleton.mp he
      exact ⟨.fill 2, rfl, by decide +kernel⟩
  bits {i e c} he hc := by
    match i with
    | 0 =>
      obtain rfl := Option.some.inj he
      obtain rfl := Option.some.inj hc
      exact resolves_first
    | 1 =>
      obtain rfl := Option.some.inj he
      obtain rfl := Option.some.inj hc
      exact resolves_second
    | i + 2 => cases he

/-- The pack is what a clone of the second commit asks for, and the bitmap has what the first commit
has. -/
theorem fast_paths_agree_linearStore :
    SelectsPack linearStore.parser linearStore.odb linearIndex [.fill 2] [] ∧
      ∃ S, ((parsed linearRev linearBits 6).buildOidIndex (oidAtIndex linearIndex) >>=
        (·.haveReachable [.fill 1])) = .ok (some S) ∧
        Outcome.Ends (fun fuel => buildHaveSet linearStore.parser linearStore.odb fuel [.fill 1]) (· = S) := by
  obtain ⟨bm, hbm, hcovers, -, hset⟩ := fast_paths_agree closed_linearStore noGitlinks_linearStore
    validBitmap_linearBits (Objects.stores_odb closed_linearStore).toHolds
  have hcover : ((parsed linearRev linearBits 6).buildOidIndex (oidAtIndex linearIndex) >>=
    (·.coversExactly [.fill 2] [])) =
      .ok (some true) := by decide +kernel
  have hanswer : ((parsed linearRev linearBits 6).buildOidIndex (oidAtIndex linearIndex) >>=
    (·.haveReachable [.fill 1])).map
      Option.isSome = .ok true := by decide +kernel
  have hbm' : (parsed linearRev linearBits 6).buildOidIndex (oidAtIndex linearIndex) = .ok bm := hbm
  rw [hbm'] at hcover hanswer ⊢
  obtain ⟨answer, hreach, hsome⟩ := map_eq_ok_iff.mp hanswer
  obtain ⟨S, rfl⟩ := Option.isSome_iff_exists.mp hsome
  exact ⟨hcovers _ _ hcover, S, hreach, hset _ _ hreach⟩

end Mizzle.Bitmap
