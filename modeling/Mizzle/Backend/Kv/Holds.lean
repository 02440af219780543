import Mizzle.Backend.Kv.BuildPack
import Mizzle.Pack.Partial

/-!
# A store among the keys of the KV backend

As for the SQL backend: `Holds` says that the keys have a store in them, what `build_pack` selects
for a request inside the store is determined by the store (`Holds.selectObjects_ends`), and an
ingest does not change it (`Holds.ingestPack`). An ingest overwrites keys here, so the objects of
the store have to be as an ingest of them would write them.
-/

namespace Mizzle.Kv

open Lib Pack

variable (content : ObjectId → ObjectContent) (p : Parser)

/-- The keys have each object of the store and its parents, and an ingest of the object would change
nothing. -/
structure Holds (o : Objects) (s : Store) (repoId : UInt64) : Prop where
  found : ∀ {oid obj'}, o.find oid = some obj' →
    ∃ kind data, s[obj repoId oid]? = some (encodeObject kind data) ∧ p.Reads obj' kind data
  parents : ∀ c, o.find c ≠ none → ∃ ps, fetchParents s repoId c = .ok ps ∧ ∀ q, q ∈ ps ↔ q ∈ o.parents c
  written : ∀ c, o.find c ≠ none → ∀ key : Bytes, (Lock.applyWrites s (objectWrites content repoId c))[key]? = s[key]?

/-! ### The keys of the store alone -/

/-- The key is that of an object of the store, or of a parent of one. -/
def InStore (o : Objects) (repoId : UInt64) (key : Bytes) : Prop :=
  ∃ x ∈ o.oids, (o.find x).isSome ∧ (key = obj repoId x ∨ parentsPrefixStart repoId x <+: key)

instance (o : Objects) (repoId : UInt64) (key : Bytes) : Decidable (InStore o repoId key) :=
  inferInstanceAs (Decidable (∃ x ∈ o.oids, _))

/-- The keys without those of other objects. -/
def restrict (o : Objects) (repoId : UInt64) (s : Store) : Store :=
  s.filter fun key _ => InStore o repoId key

variable {content p} {o : Objects} {s : Store} {repo : UInt64}

variable {c : ObjectId} {key : Bytes}

theorem get_restrict (h : InStore o repo key) : (restrict o repo s)[key]? = s[key]? := by
  rw [restrict, Std.ExtTreeMap.getElem?_filter']
  cases s[key]? <;> simp [h]

theorem get_restrict_none (h : ¬ InStore o repo key) : (restrict o repo s)[key]? = none := by
  rw [restrict, Std.ExtTreeMap.getElem?_filter']
  cases s[key]? <;> simp [h]

theorem inStore_obj {x : ObjectId} : InStore o repo (obj repo x) ↔ o.find x ≠ none := by
  constructor
  · rintro ⟨y, -, hy, heq | hprefix⟩
    · obtain ⟨-, rfl⟩ := obj_inj.mp heq
      exact Option.isSome_iff_ne_none.mp hy
    · exact absurd hprefix (prefixPar_ne (by decide))
  · intro hx
    obtain ⟨obj', hobj⟩ := Option.ne_none_iff_exists'.mp hx
    exact ⟨x, o.mem_oids x _ hobj, by simp [hobj], Or.inl rfl⟩

theorem get_obj_restrict {x : ObjectId} (hx : o.find x ≠ none) :
    (restrict o repo s)[obj repo x]? = s[obj repo x]? :=
  get_restrict (inStore_obj.mpr hx)

theorem inStore_parents (hkey : parentsPrefixStart repo c <+: key) :
    InStore o repo key ↔ o.find c ≠ none := by
  constructor
  · rintro ⟨y, -, hy, rfl | hprefix⟩
    · exact absurd hkey (prefixPar_ne (by decide))
    · -- both prefixes have the same length
      have hlength : (parentsPrefixStart repo c).length = (parentsPrefixStart repo y).length := by
        simp [parentsPrefixStart, c.length_eq, y.length_eq]
      have heq := (List.prefix_of_prefix_length_le hkey hprefix hlength.le).eq_of_length hlength
      rw [parentsPrefixStart, parentsPrefixStart] at heq
      obtain rfl := ObjectId.ext_bytes (List.append_cancel_left heq)
      exact Option.isSome_iff_ne_none.mp hy
  · intro hc
    obtain ⟨obj', hobj⟩ := Option.ne_none_iff_exists'.mp hc
    exact ⟨c, o.mem_oids c _ hobj, by simp [hobj], Or.inr hkey⟩

theorem fetchParents_restrict (hc : o.find c ≠ none) :
    fetchParents (restrict o repo s) repo c = fetchParents s repo c :=
  fetchParents_congr fun _ hkey => get_restrict ((inStore_parents hkey).mpr hc)

theorem fetchParents_restrict_none (hc : o.find c = none) :
    fetchParents (restrict o repo s) repo c = .ok [] :=
  fetchParents_of_absent fun _ hkey => get_restrict_none fun hin => (inStore_parents hkey).mp hin hc

theorem treeItems_restrict {t : ObjectId} (ht : o.find t ≠ none) :
    treeItems p (restrict o repo s) repo t = treeItems p s repo t := by
  rw [treeItems, readObjectOfKind, get_obj_restrict ht, treeItems, readObjectOfKind]

/-! ### Walks inside the store -/

namespace Holds

theorem stores (h : Holds content p o s repo) : Stores p o (restrict o repo s) repo where
  found hfind := by
    obtain ⟨kind, data, hvalue, hreads⟩ := h.found hfind
    exact ⟨kind, data, (get_obj_restrict (by simp [hfind])).trans hvalue, hreads⟩
  absent hfind := get_restrict_none fun hin => inStore_obj.mp hin hfind
  parents c := by
    by_cases hc : o.find c = none
    · exact ⟨[], fetchParents_restrict_none hc, fun q => by simp [Objects.parents, hc]⟩
    · rw [fetchParents_restrict hc]
      exact h.parents c hc

theorem mem_parentsFor (h : Holds content p o s repo) (hclosed : o.Closed) {pass : String}
    (hc : o.find c ≠ none) {ps : List ObjectId} (hps : parentsFor pass s repo c = .ok ps)
    {q : ObjectId} (hq : q ∈ ps) : o.find q ≠ none := by
  obtain ⟨ps', hps', hmem⟩ := h.parents c hc
  rw [parentsFor, hps'] at hps
  obtain rfl := Except.ok.inj hps
  obtain ⟨t, ps'', hfind⟩ := hclosed.isCommit_parent ((hmem q).mp hq)
  simp [hfind]

theorem parentsFor_restrict {pass : String} (hc : o.find c ≠ none) :
    parentsFor pass s repo c = parentsFor pass (restrict o repo s) repo c := by
  rw [parentsFor, ← fetchParents_restrict hc, parentsFor]

theorem reachableExcluding_eq (h : Holds content p o s repo) (hclosed : o.Closed) (fuel : Nat)
    {tips excluding : List ObjectId} (htips : ∀ c ∈ tips, o.find c ≠ none)
    (hexcluding : ∀ c ∈ excluding, o.find c ≠ none) :
    reachableExcluding fuel s repo tips excluding none =
      reachableExcluding fuel (restrict o repo s) repo tips excluding none := by
  have hcollect : ∀ set, excluding.foldlM (collectAncestors fuel s repo none) set
      = excluding.foldlM (collectAncestors fuel (restrict o repo s) repo none) set := by
    refine Outcome.foldlM_congr fun c hc set => ?_
    exact markFrom_congr (fun x hx => parentsFor_restrict hx)
      (fun x ps hx hps q hq => h.mem_parentsFor hclosed hx hps hq) fuel (hexcluding c hc) set
  have hwalk := fun exclude => @walkFrom_congr _ _ _
    (fun _ taken => (none : Option Nat).bind fun limit =>
      if limit ≤ taken.length then some (.capExceeded limit) else none)
    (parentsFor "fetching parents: " s repo) _ _ (fun c hc => parentsFor_restrict hc)
    (fun c ps hc hps q hq => h.mem_parentsFor hclosed hc hps hq) exclude fuel tips htips
  rw [reachableExcluding, reachableExcluding, hcollect]
  simp only [hwalk]

theorem agreeOn (h : Holds content p o s repo) (hclosed : o.Closed) (fuel : Nat)
    {wants haves : List ObjectId} (hwants : ∀ w ∈ wants, o.find w ≠ none)
    (hhaves : ∀ c ∈ haves, o.find c ≠ none) :
    Database.AgreeOn (database p fuel (restrict o repo s) repo) (database p fuel s repo) o
      wants haves where
  wantWalk := h.reachableExcluding_eq hclosed fuel hwants hhaves
  haveWalk := h.reachableExcluding_eq hclosed fuel hhaves fun c hc => absurd hc List.not_mem_nil
  commitTree c hc := by
    simp only [database]
    rw [readCommitTree, readObjectRaw, ← get_obj_restrict hc, readCommitTree, readObjectRaw]
  collect set t ht := by
    have hnodes : ∀ x ∈ (visitItems ∅ [.node t] set).2, o.find x ≠ none := by
      intro x hx
      obtain rfl : x = t := by simpa using node_of_mem_visitItems hx
      exact ht
    refine congrArg (Option.map (Except.map Prod.fst)) ?_
    refine drain_congr lifo_perm (fun x hx => (treeItems_restrict hx).symm)
      (fun x is hx his y hy => ?_) fuel _ _ hnodes
    rw [← treeItems_restrict hx, h.stores.treeItems_eq] at his
    obtain rfl := Except.ok.inj his
    obtain ⟨es, hes⟩ := (hclosed.separates x y).1 hy
    simp [hes]
  fetch x hx := by
    simp only [database, readObjectWithGixKind]
    rw [get_obj_restrict hx]

/-- **What is selected is what the store says**, whatever other keys there are. -/
theorem selectObjects_ends (h : Holds content p o s repo) (hsealed : o.Sealed p)
    {wants haves : List ObjectId} (hwants : ∀ w ∈ wants, o.find w ≠ none)
    (hhaves : ∀ c ∈ haves, o.IsCommit c) :
    Outcome.Ends (fun fuel => (database p fuel s repo).selectObjects wants haves)
      fun selected => ∀ x, x ∈ selected ↔ o.SelectedDb p wants haves x :=
  Database.AgreeOn.selectObjects_ends hsealed (h.stores.serves hsealed.closed wants haves)
    (fun fuel => h.agreeOn hsealed.closed fuel hwants fun c hc => (hhaves c hc).find_ne_none)
    hwants hhaves

end Holds

/-! ### Ingests -/

theorem eq_of_objectWrites {c y : ObjectId} {w w' : Bytes × Option Bytes}
    (hw : w ∈ objectWrites content repo c) (hw' : w' ∈ objectWrites content repo y)
    (hkey : w.1 = w'.1) : c = y := by
  rcases key_of_mem_objectWrites content hw with hobj | hpar
  · rcases key_of_mem_objectWrites content hw' with hobj' | hpar'
    · exact (obj_inj.mp (hobj.symm.trans (hkey.trans hobj'))).2
    · obtain ⟨pos, hpos⟩ := key_of_mem_parentWrites content hpar'
      exact absurd (hobj.symm.trans (hkey.trans hpos)) (obj_ne_par _ _ _ _ _)
  · obtain ⟨pos, hpos⟩ := key_of_mem_parentWrites content hpar
    rcases key_of_mem_objectWrites content hw' with hobj' | hpar'
    · exact absurd (hobj'.symm.trans (hkey.symm.trans hpos)) (obj_ne_par _ _ _ _ _)
    · obtain ⟨pos', hpos'⟩ := key_of_mem_parentWrites content hpar'
      have hprefix : parentsPrefixStart repo c <+: par repo y pos' :=
        hpos' ▸ hkey ▸ hpos ▸ parentsPrefixStart_prefix_par.mpr ⟨rfl, rfl⟩
      exact (parentsPrefixStart_prefix_par.mp hprefix).2

theorem get_objectWrites_of_written
    (hwritten : ∀ key : Bytes, (Lock.applyWrites s (objectWrites content repo c))[key]? = s[key]?)
    (y : ObjectId) (hkey : key = obj repo c ∨ parentsPrefixStart repo c <+: key) :
    (Lock.applyWrites s (objectWrites content repo y))[key]? = s[key]? := by
  by_cases hy : y = c
  · exact hy ▸ hwritten key
  · refine Lock.get_applyWrites_of_notMem s _ key fun w hw heq => hy ?_
    rcases key_of_mem_objectWrites content hw with hobj | hpar
    · rcases hkey with hkey | hkey
      · exact (obj_inj.mp (hobj.symm.trans (heq.trans hkey))).2
      · rw [← heq, hobj] at hkey
        exact absurd hkey (prefixPar_ne (by decide))
    · obtain ⟨pos, hpos⟩ := key_of_mem_parentWrites content hpar
      rcases hkey with hkey | hkey
      · exact absurd (hkey.symm.trans (heq.symm.trans hpos)) (obj_ne_par _ _ _ _ _)
      · rw [← heq, hpos] at hkey
        exact (parentsPrefixStart_prefix_par.mp hkey).2.symm

theorem Holds.applyObjectWrites (h : Holds content p o s repo) (y : ObjectId) :
    Holds content p o (Lock.applyWrites s (objectWrites content repo y)) repo where
  found {oid obj'} hfind := by
    obtain ⟨kind, data, hvalue, hreads⟩ := h.found hfind
    refine ⟨kind, data, ?_, hreads⟩
    rw [get_objectWrites_of_written (h.written oid (by simp [hfind])) y (Or.inl rfl), hvalue]
  parents c hc := by
    rw [fetchParents_congr fun key hkey => get_objectWrites_of_written (h.written c hc) y (Or.inr hkey)]
    exact h.parents c hc
  written c hc key := by
    have hnot : (∀ w ∈ objectWrites content repo c, w.1 ≠ key) →
        (Lock.applyWrites (Lock.applyWrites s (objectWrites content repo y)) (objectWrites content repo c))[key]?
          = (Lock.applyWrites s (objectWrites content repo y))[key]? :=
      fun hw => Lock.get_applyWrites_of_notMem (Lock.applyWrites s (objectWrites content repo y)) _ key hw
    by_cases hmem : ∃ w ∈ objectWrites content repo c, w.1 = key
    · -- what an ingest of the object writes does not depend on the store
      have hsame := Lock.get_applyWrites_of_mem (Lock.applyWrites s (objectWrites content repo y)) s hmem
      rw [get_eq, get_eq] at hsame
      by_cases hy : y = c
      · rw [hsame, hy]
      · have hother : ∀ w' ∈ objectWrites content repo y, w'.1 ≠ key := by
          obtain ⟨w, hw, rfl⟩ := hmem
          exact fun w' hw' heq => hy (eq_of_objectWrites hw' hw heq)
        have hkept := Lock.get_applyWrites_of_notMem s _ key hother
        rw [get_eq, get_eq] at hkept
        rw [hsame, hkept, h.written c hc]
    · push Not at hmem
      exact hnot hmem

/-- **A store that is there stays as it is.** -/
theorem Holds.ingestPack (h : Holds content p o s repo) (oids : List ObjectId) :
    Holds content p o (ingestPack content s repo oids) repo := by
  induction oids generalizing s with
  | nil => exact h
  | cons y oids ih =>
    rw [ingestPack_cons]
    exact ih (h.applyObjectWrites y)

end Mizzle.Kv
