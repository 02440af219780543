import Mizzle.Lib.Reach

/-!
# Orders in which children come first

The nodes that tips reach in a finite graph without cycles, listed so that no node comes before one
of its children. The sets of first nodes of such lists are the sets that have with a node also its
children (`Graph.childClosed_take`, `Graph.exists_childFirst`), and there are such sets of every
size between two of them (`Graph.exists_between`).
-/

namespace Mizzle.Lib

open Relation

variable {α : Type} [DecidableEq α]

/-- The nodes that the tips reach, each once, none of them before one of its children. -/
structure ChildFirst (parents : α → List α) (tips l : List α) : Prop where
  nodup : l.Nodup
  mem : ∀ c, c ∈ l ↔ Reach parents tips c
  ordered : l.Pairwise fun x y => x ∉ parents y

/-- A set of nodes in which no child is missing. -/
structure ChildClosed (parents : α → List α) (R F : Finset α) : Prop where
  subset : F ⊆ R
  child : ∀ c ∈ R, ∀ q ∈ parents c, q ∈ F → c ∈ F

/-- The graph that the tips reach, as a finite set. -/
structure Graph (parents : α → List α) (tips : List α) (R : Finset α) : Prop where
  acyclic : Acyclic parents
  mem : ∀ c, c ∈ R ↔ Reach parents tips c

variable {parents : α → List α} {tips : List α} {R F : Finset α}

omit [DecidableEq α] in
theorem childFirst_of_closed {l : List α} (hnodup : l.Nodup)
    (hordered : l.Pairwise fun x y => x ∉ parents y) (htips : ∀ t ∈ tips, t ∈ l)
    (hparents : ∀ c ∈ l, ∀ q ∈ parents c, q ∈ l) (hreach : ∀ c ∈ l, Reach parents tips c) :
    ChildFirst parents tips l := by
  refine ⟨hnodup, fun c => ⟨hreach c, ?_⟩, hordered⟩
  rintro ⟨t, ht, hpath⟩
  induction hpath with
  | refl => exact htips t ht
  | tail _ hedge ih => exact hparents _ ih _ hedge

namespace ChildClosed

omit [DecidableEq α] in
theorem up (h : ChildClosed parents R F) (hR : ∀ c ∈ R, ∀ q ∈ parents c, q ∈ R) {x y : α}
    (hpath : ReflTransGen (Edge parents) x y) (hx : x ∈ R) (hy : y ∈ F) : x ∈ F := by
  induction hpath using ReflTransGen.head_induction_on with
  | refl => exact hy
  | head hedge _ ih => exact h.child _ hx _ hedge (ih (hR _ hx _ hedge))

theorem exists_cut {x y : α} (hpath : ReflTransGen (Edge parents) x y) (hx : x ∈ F) (hy : y ∉ F) :
    ∃ c ∈ F, ∃ q ∈ parents c, q ∉ F := by
  induction hpath using ReflTransGen.head_induction_on with
  | refl => exact absurd hx hy
  | @head x z hedge _ ih =>
    by_cases hz : z ∈ F
    · exact ih hz
    · exact ⟨x, hx, z, hedge, hz⟩

end ChildClosed

namespace Graph

variable (h : Graph parents tips R)

include h

omit [DecidableEq α] in
theorem parent_mem : ∀ c ∈ R, ∀ q ∈ parents c, q ∈ R :=
  fun c hc _ hq => (h.mem _).mpr (reach_step ((h.mem c).mp hc) hq)

omit [DecidableEq α] in
theorem mem_of_path {x y : α} (hx : x ∈ R) (hpath : ReflTransGen (Edge parents) x y) : y ∈ R := by
  obtain ⟨t, ht, hpath'⟩ := (h.mem x).mp hx
  exact (h.mem y).mpr ⟨t, ht, hpath'.trans hpath⟩

omit [DecidableEq α] in
theorem exists_rank : ∃ rank : α → Nat, ∀ c ∈ R, ∀ q ∈ parents c, rank q < rank c := by
  classical
  refine ⟨fun c => (R.filter fun x => ReflTransGen (Edge parents) c x).card, fun c hc q hq => Finset.card_lt_card ?_⟩
  refine Finset.ssubset_iff_of_subset (fun x hx => ?_) |>.mpr ⟨c, ?_, fun hback => ?_⟩
  · obtain ⟨hxR, hpath⟩ := Finset.mem_filter.mp hx
    exact Finset.mem_filter.mpr ⟨hxR, ReflTransGen.head hq hpath⟩
  · exact Finset.mem_filter.mpr ⟨hc, ReflTransGen.refl⟩
  · exact h.acyclic c (TransGen.head' hq (Finset.mem_filter.mp hback).2)

end Graph

open Classical in
/-- The nodes from which a node can be reached. -/
noncomputable def above (parents : α → List α) (R : Finset α) (t : α) : Finset α :=
  R.filter fun x => ReflTransGen (Edge parents) x t

open Classical in
/-- The nodes that cannot be reached from a node. -/
noncomputable def notBelow (parents : α → List α) (R : Finset α) (q : α) : Finset α :=
  R.filter fun x => ¬ ReflTransGen (Edge parents) q x

section

omit [DecidableEq α]

theorem mem_above {x t : α} : x ∈ above parents R t ↔ x ∈ R ∧ ReflTransGen (Edge parents) x t := by
  classical
  exact Finset.mem_filter

theorem mem_notBelow {x q : α} :
    x ∈ notBelow parents R q ↔ x ∈ R ∧ ¬ ReflTransGen (Edge parents) q x := by
  classical
  exact Finset.mem_filter

theorem childClosed_above (t : α) : ChildClosed parents R (above parents R t) where
  subset := fun _ hx => (mem_above.mp hx).1
  child := fun _ hc _ hq hmem => mem_above.mpr ⟨hc, ReflTransGen.head hq (mem_above.mp hmem).2⟩

theorem childClosed_notBelow (q : α) : ChildClosed parents R (notBelow parents R q) where
  subset := fun _ hx => (mem_notBelow.mp hx).1
  child := fun _ hc _ hq hmem => mem_notBelow.mpr ⟨hc, fun hpath => (mem_notBelow.mp hmem).2 (hpath.tail hq)⟩

theorem childClosed_empty : ChildClosed parents R ∅ where
  subset := Finset.empty_subset R
  child := fun _ _ _ _ hmem => absurd hmem (Finset.notMem_empty _)

theorem childClosed_self : ChildClosed parents R R where
  subset := Finset.Subset.refl R
  child := fun _ hc _ _ _ => hc

end

namespace Graph

variable (h : Graph parents tips R)

include h

omit [DecidableEq α] in
theorem exists_childless {S : Finset α} (hS : S ⊆ R) (hne : S.Nonempty) :
    ∃ x ∈ S, ∀ c ∈ S, x ∉ parents c := by
  obtain ⟨rank, hrank⟩ := h.exists_rank
  obtain ⟨x, hx, hmax⟩ := S.exists_max_image rank hne
  exact ⟨x, hx, fun c hc hparent => absurd (hmax c hc) (Nat.not_le_of_lt (hrank c (hS hc) x hparent))⟩

/-- **There are sets of every size between two of them.** -/
theorem exists_between {A B : Finset α} (hA : ChildClosed parents R A)
    (hB : ChildClosed parents R B) (hsub : A ⊆ B) {n : Nat} (hAn : A.card ≤ n) (hnB : n ≤ B.card) :
    ∃ F, ChildClosed parents R F ∧ A ⊆ F ∧ F ⊆ B ∧ F.card = n := by
  induction hk : n - A.card generalizing A with
  | zero => exact ⟨A, hA, Finset.Subset.refl A, hsub, by omega⟩
  | succ k ih =>
    have hne : (B \ A).Nonempty := by
      rw [Finset.sdiff_nonempty]
      exact fun hBA => absurd (Finset.card_le_card hBA) (by omega)
    obtain ⟨x, hx, hchildless⟩ := h.exists_childless (Finset.sdiff_subset.trans hB.subset) hne
    obtain ⟨hxB, hxA⟩ := Finset.mem_sdiff.mp hx
    have hcard : (insert x A).card = A.card + 1 := Finset.card_insert_of_notMem hxA
    have hinsert : ChildClosed parents R (insert x A) := by
      refine ⟨Finset.insert_subset (hB.subset hxB) hA.subset, fun c hc q hq hmem => ?_⟩
      rcases Finset.mem_insert.mp hmem with rfl | hmem
      · have hcB := hB.child c hc q hq hxB
        by_contra hnot
        exact hchildless c (Finset.mem_sdiff.mpr ⟨hcB, fun hcA => hnot (Finset.mem_insert_of_mem hcA)⟩) hq
      · exact Finset.mem_insert_of_mem (hA.child c hc q hq hmem)
    obtain ⟨F, hF, hAF, hFB, hFn⟩ := ih hinsert (Finset.insert_subset hxB hsub) (by omega) (by omega)
    exact ⟨F, hF, (Finset.subset_insert x A).trans hAF, hFB, hFn⟩

theorem childClosed_take {l : List α} (hl : ChildFirst parents tips l) (n : Nat) :
    ChildClosed parents R (l.take n).toFinset ∧ (l.take n).toFinset.card = min n R.card := by
  have hlR : ∀ c, c ∈ l ↔ c ∈ R := fun c => (hl.mem c).trans (h.mem c).symm
  refine ⟨⟨fun x hx => (hlR x).mp (List.mem_of_mem_take (List.mem_toFinset.mp hx)), fun c hc q hq hmem => ?_⟩, ?_⟩
  · rw [List.mem_toFinset] at hmem ⊢
    have hordered := hl.ordered
    rw [← List.take_append_drop n l] at hordered
    have hc := (hlR c).mpr hc
    rw [← List.take_append_drop n l] at hc
    rcases List.mem_append.mp hc with hc | hc
    · exact hc
    · exact absurd hq ((List.pairwise_append.mp hordered).2.2 q hmem c hc)
  · have hcard : R.card = l.length := by
      rw [← List.toFinset_card_of_nodup hl.nodup]
      exact congrArg Finset.card (Finset.ext fun c => by rw [List.mem_toFinset, hlR])
    rw [List.toFinset_card_of_nodup (hl.nodup.sublist (List.take_sublist n l)), List.length_take, hcard]

theorem exists_childFirst (hF : ChildClosed parents R F) :
    ∃ l, ChildFirst parents tips l ∧ (l.take F.card).toFinset = F := by
  obtain ⟨rank, hrank⟩ := h.exists_rank
  -- each part by falling rank
  have hpart : ∀ S : Finset α, S ⊆ R → ∃ l : List α, l.Nodup ∧ (∀ c, c ∈ l ↔ c ∈ S) ∧
      l.Pairwise fun x y => x ∉ parents y := by
    intro S hS
    have hperm := List.mergeSort_perm S.toList fun a b => decide (rank b ≤ rank a)
    have hmem : ∀ c, c ∈ S.toList.mergeSort (fun a b => decide (rank b ≤ rank a)) ↔ c ∈ S := fun c => by
      rw [hperm.mem_iff, Finset.mem_toList]
    have hsorted := @List.pairwise_mergeSort α (fun a b => decide (rank b ≤ rank a))
      (by simpa using fun a b c hab hbc => hbc.trans hab) (by
        simpa using fun a b => Nat.le_total (rank b) (rank a)) S.toList
    refine ⟨_, hperm.nodup_iff.mpr S.nodup_toList, hmem, hsorted.imp_of_mem fun {x y} hx hy hle hparent => ?_⟩
    exact absurd (of_decide_eq_true hle) (Nat.not_le_of_lt (hrank y (hS ((hmem y).mp hy)) x hparent))
  obtain ⟨front, hfront, hmemFront, hfrontOrdered⟩ := hpart F hF.subset
  obtain ⟨back, hback, hmemBack, hbackOrdered⟩ := hpart (R \ F) Finset.sdiff_subset
  have hfinset : front.toFinset = F := Finset.ext fun c => by rw [List.mem_toFinset, hmemFront]
  refine ⟨front ++ back, ⟨?_, ?_, ?_⟩, ?_⟩
  · refine List.Nodup.append hfront hback fun c hc hc' => ?_
    exact (Finset.mem_sdiff.mp ((hmemBack c).mp hc')).2 ((hmemFront c).mp hc)
  · intro c
    rw [List.mem_append, hmemFront, hmemBack, Finset.mem_sdiff, ← h.mem]
    constructor
    · rintro (hc | hc)
      · exact hF.subset hc
      · exact hc.1
    · intro hc
      by_cases hcF : c ∈ F
      · exact Or.inl hcF
      · exact Or.inr ⟨hc, hcF⟩
  · refine List.pairwise_append.mpr ⟨hfrontOrdered, hbackOrdered, fun x hx y hy hparent => ?_⟩
    obtain ⟨hyR, hyF⟩ := Finset.mem_sdiff.mp ((hmemBack y).mp hy)
    exact hyF (hF.child y hyR x hparent ((hmemFront x).mp hx))
  · have hlength : front.length = F.card := by rw [← hfinset, List.toFinset_card_of_nodup hfront]
    rw [← hlength, List.take_left, hfinset]

end Graph

end Mizzle.Lib
