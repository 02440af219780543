import Mizzle.Lib.ChildFirst
import Mizzle.Lib.Levels

/-!
# Cutting by number and cutting by level

Two ways to cut a history: after the first `d` nodes of a list in which children come first, where
the nodes at the cut are those with a parent that is not among them, and at the level `d - 1`, where
they are the nodes of that level with parents.

The first one depends on the list. `Graph.cut_eq_level_iff` says when it is the second one for every
list: the list is not cut at all, or there is nothing to cut, or the newest `d` nodes are a line
(`Line`).
-/

namespace Mizzle.Lib

open Relation

variable {α : Type} [DecidableEq α]

/-- The node has a parent outside of the set. -/
def CutAt (parents : α → List α) (F : Finset α) (c : α) : Prop := c ∈ F ∧ ∃ q ∈ parents c, q ∉ F

/-- The node is `d - 1` edges away, and has parents. -/
def LastLevel (parents : α → List α) (blocked : α → Prop) (tips : List α) (d : Nat) (c : α) :
    Prop :=
  parents c ≠ [] ∧ Away parents blocked tips (d - 1) c

/-- `d` nodes from a tip on, each of which has the next one as its only parent. All other tips are
below the last one, and no other node of its level has a parent. -/
structure Line (parents : α → List α) (blocked : α → Prop) (tips : List α) (d : Nat)
    (node : Nat → α) : Prop where
  tip : node 0 ∈ tips
  next : ∀ i < d - 1, parents (node i) ≠ [] ∧ ∀ q ∈ parents (node i), q = node (i + 1)
  last : parents (node (d - 1)) ≠ []
  tips_below : ∀ t ∈ tips, t = node 0 ∨ ∃ q ∈ parents (node (d - 1)), ReflTransGen (Edge parents) q t
  alone : ∀ c, LastLevel parents blocked tips d c → c = node (d - 1)

variable {parents : α → List α} {blocked : α → Prop} {tips : List α} {R F : Finset α} {d : Nat}

/-! ### Shortest paths -/

variable {x c : α} {n : Nat}

omit [DecidableEq α] in
theorem Away.exists_path (h : Away parents blocked tips n x) :
    ∃ node : Nat → α, node n = x ∧ (∀ i ≤ n, Away parents blocked tips i (node i)) ∧ ∀ i < n,
      node (i + 1) ∈ parents (node i) := by
  induction n generalizing x with
  | zero =>
    refine ⟨fun _ => x, rfl, fun i hi => ?_, fun i hi => absurd hi (Nat.not_lt_zero i)⟩
    rw [Nat.le_zero.mp hi]
    exact h
  | succ n ih =>
    obtain ⟨hpath, hshort⟩ := h
    cases hpath with
    | @step _ y _ hpath hparent hopen =>
      have haway : Away parents blocked tips n y :=
        ⟨hpath, fun m hm hpath' => hshort (m + 1) (by omega) (.step hpath' hparent hopen)⟩
      obtain ⟨node, hy, hlevel, hedge⟩ := ih haway
      refine ⟨fun i => if i ≤ n then node i else x, if_neg (by omega), fun i hi => ?_, fun i hi => ?_⟩
      · by_cases hin : i ≤ n
        · simp only [if_pos hin]
          exact hlevel i hin
        · obtain rfl : i = n + 1 := by omega
          simp only [if_neg hin]
          exact ⟨.step hpath hparent hopen, hshort⟩
      · by_cases hin : i + 1 ≤ n
        · simp only [if_pos hin, if_pos (show i ≤ n by omega)]
          exact hedge i (by omega)
        · obtain rfl : i = n := by omega
          simp only [if_neg hin, if_pos le_rfl, hy]
          exact hparent

omit [DecidableEq α] in
theorem path_of_next {node : Nat → α} (hedge : ∀ i < n, node (i + 1) ∈ parents (node i)) {i j : Nat}
    (hij : i ≤ j) (hj : j ≤ n) : ReflTransGen (Edge parents) (node i) (node j) := by
  induction j, hij using Nat.le_induction with
  | base => exact ReflTransGen.refl
  | succ j hij ih => exact (ih (by omega)).tail (hedge j (by omega))

omit [DecidableEq α] in
theorem not_path_back (hacyclic : Acyclic parents) {node : Nat → α}
    (hedge : ∀ i < n, node (i + 1) ∈ parents (node i)) {i j : Nat} (hij : i < j) (hj : j ≤ n) :
    ¬ ReflTransGen (Edge parents) (node j) (node i) := fun hback =>
  hacyclic (node i) (TransGen.head' (hedge i (by omega)) ((path_of_next hedge hij hj).trans hback))

/-- The first `d` nodes of a sequence. -/
def nodes (node : Nat → α) (d : Nat) : Finset α := (Finset.range d).image node

theorem mem_nodes {node : Nat → α} (hd : 1 ≤ d) : x ∈ nodes node d ↔ ∃ i ≤ d - 1, x = node i := by
  rw [nodes, Finset.mem_image]
  constructor
  · rintro ⟨i, hi, rfl⟩
    exact ⟨i, Nat.le_sub_one_of_lt (Finset.mem_range.mp hi), rfl⟩
  · rintro ⟨i, hi, rfl⟩
    exact ⟨i, Finset.mem_range.mpr (by omega), rfl⟩

theorem card_nodes (hacyclic : Acyclic parents) {node : Nat → α}
    (hedge : ∀ i < d - 1, node (i + 1) ∈ parents (node i)) : (nodes node d).card = d := by
  have hlt : ∀ i j, i < j → j < d → node i ≠ node j := fun i j hij hj heq =>
    not_path_back hacyclic hedge hij (by omega) (heq ▸ ReflTransGen.refl)
  rw [nodes, Finset.card_image_of_injOn, Finset.card_range]
  intro i hi j hj heq
  rw [Finset.coe_range, Set.mem_Iio] at hi hj
  rcases Nat.lt_trichotomy i j with hij | rfl | hij
  · exact absurd heq (hlt i j hij hj)
  · rfl
  · exact absurd heq.symm (hlt j i hij hi)

theorem ChildClosed.eq_nodes (hF : ChildClosed parents R F) (h : Graph parents tips R) (hd : 1 ≤ d)
    {node : Nat → α} (hedge : ∀ i < d - 1, node (i + 1) ∈ parents (node i)) (hfirst : node 0 ∈ R)
    (hlast : node (d - 1) ∈ F) (hcard : F.card = d) : F = nodes node d := by
  have hnodes := card_nodes h.acyclic hedge
  refine (Finset.eq_of_subset_of_card_le (fun x hx => ?_) (by omega)).symm
  obtain ⟨i, hi, rfl⟩ := (mem_nodes hd).mp hx
  have hiR := h.mem_of_path hfirst (path_of_next hedge (Nat.zero_le i) hi)
  exact hF.up h.parent_mem (path_of_next hedge hi le_rfl) hiR hlast

/-! ### Sets with a cut -/

theorem Graph.exists_cutAt (h : Graph parents tips R) (hd : 1 ≤ d) (hlt : d < R.card) {t q : α}
    (ht : t ∈ R) (hq : q ∈ parents t) :
    ∃ F, ChildClosed parents R F ∧ F.card = d ∧ ∃ c, CutAt parents F c := by
  have hqR := h.parent_mem t ht q hq
  have hsub : above parents R t ⊆ notBelow parents R q := fun x hx => by
    obtain ⟨hxR, hpath⟩ := mem_above.mp hx
    exact mem_notBelow.mpr ⟨hxR, fun hback => h.acyclic t (TransGen.head' hq (hback.trans hpath))⟩
  have htabove : t ∈ above parents R t := mem_above.mpr ⟨ht, ReflTransGen.refl⟩
  -- the set ends above `t`, between `t` and `q`, or below `q`
  rcases Nat.lt_or_ge d (above parents R t).card with hsmall | hsmall
  · obtain ⟨F, hF, -, hFU, hcard⟩ := h.exists_between childClosed_empty (childClosed_above t) (Finset.empty_subset _)
      (Nat.zero_le d) hsmall.le
    have htF : t ∉ F := fun htF => by
      refine absurd (Finset.card_le_card fun x hx => ?_) (Nat.not_le_of_lt (hcard ▸ hsmall))
      exact hF.up h.parent_mem (mem_above.mp hx).2 (mem_above.mp hx).1 htF
    obtain ⟨x, hx⟩ := Finset.card_pos.mp (show 0 < F.card by omega)
    exact ⟨F, hF, hcard, ChildClosed.exists_cut (mem_above.mp (hFU hx)).2 hx htF⟩
  · rcases Nat.lt_or_ge (notBelow parents R q).card d with hlarge | hlarge
    · obtain ⟨F, hF, hBF, -, hcard⟩ :=
        h.exists_between (childClosed_notBelow q) childClosed_self (childClosed_notBelow q).subset
        hlarge.le hlt.le
      have hbelow : ∀ x ∈ R, x ∉ notBelow parents R q → ReflTransGen (Edge parents) q x := fun x hx hnot => by
        by_contra hpath
        exact hnot (mem_notBelow.mpr ⟨hx, hpath⟩)
      obtain ⟨y, hyF, hyB⟩ := Finset.exists_mem_notMem_of_card_lt_card
        (show (notBelow parents R q).card < F.card by omega)
      obtain ⟨z, hzR, hzF⟩ := Finset.exists_mem_notMem_of_card_lt_card (show F.card < R.card by omega)
      have hqF := hF.up h.parent_mem (hbelow y (hF.subset hyF) hyB) hqR hyF
      exact ⟨F, hF, hcard, ChildClosed.exists_cut (hbelow z hzR fun hz => hzF (hBF hz)) hqF hzF⟩
    · obtain ⟨F, hF, hUF, hFB, hcard⟩ :=
        h.exists_between (childClosed_above t) (childClosed_notBelow q) hsub hsmall hlarge
      exact ⟨F, hF, hcard, t, hUF htabove, q, hq, fun hqF => (mem_notBelow.mp (hFB hqF)).2 ReflTransGen.refl⟩

/-! ### A line -/

namespace Line

variable {node : Nat → α} (hline : Line parents blocked tips d node)

include hline

omit [DecidableEq α] in
theorem edge : ∀ i < d - 1, node (i + 1) ∈ parents (node i) := fun i hi => by
  obtain ⟨q, hq⟩ := List.exists_mem_of_ne_nil _ (hline.next i hi).1
  exact (hline.next i hi).2 q hq ▸ hq

omit [DecidableEq α] in
theorem edge_cases {i : Nat} (hi : i ≤ d - 1) {q : α} (hq : q ∈ parents (node i)) :
    (i < d - 1 ∧ q = node (i + 1)) ∨ i = d - 1 := by
  rcases Nat.lt_or_eq_of_le hi with hlt | rfl
  · exact Or.inl ⟨hlt, (hline.next i hlt).2 q hq⟩
  · exact Or.inr rfl

omit [DecidableEq α] in
theorem reach_cases (hx : Reach parents tips x) :
    (∃ i ≤ d - 1, x = node i) ∨ ∃ q ∈ parents (node (d - 1)), ReflTransGen (Edge parents) q x := by
  obtain ⟨t, ht, hpath⟩ := hx
  induction hpath with
  | refl =>
    rcases hline.tips_below t ht with rfl | hbelow
    · exact Or.inl ⟨0, Nat.zero_le _, rfl⟩
    · exact Or.inr hbelow
  | tail _ hedge ih =>
    rcases ih with ⟨i, hi, rfl⟩ | ⟨q, hq, hpath⟩
    · rcases hline.edge_cases hi hedge with ⟨hlt, rfl⟩ | rfl
      · exact Or.inl ⟨i + 1, hlt, rfl⟩
      · exact Or.inr ⟨_, hedge, ReflTransGen.refl⟩
    · exact Or.inr ⟨q, hq, hpath.tail hedge⟩

omit [DecidableEq α] in
theorem openPath_cases {m : Nat} (hpath : OpenPath parents blocked tips m x) (hm : m ≤ d - 1) :
    x = node m ∨ ∃ q ∈ parents (node (d - 1)), ReflTransGen (Edge parents) q x := by
  induction hpath with
  | tip ht _ => exact hline.tips_below _ ht
  | step _ hedge _ ih =>
    rcases ih (by omega) with rfl | ⟨q, hq, hpath⟩
    · rcases hline.edge_cases (by omega) hedge with ⟨-, rfl⟩ | rfl
      · exact Or.inl rfl
      · exact Or.inr ⟨_, hedge, ReflTransGen.refl⟩
    · exact Or.inr ⟨q, hq, hpath.tail hedge⟩

omit [DecidableEq α] in
theorem openPath (hopen : ∀ c, ¬ blocked c) :
    ∀ i ≤ d - 1, OpenPath parents blocked tips i (node i) := fun i hi => by
  induction i with
  | zero => exact .tip hline.tip (hopen _)
  | succ i ih => exact .step (ih (by omega)) (hline.edge i (by omega)) (hopen _)

omit [DecidableEq α] in
theorem not_below (hacyclic : Acyclic parents) {i : Nat} (hi : i ≤ d - 1) {q : α}
    (hq : q ∈ parents (node (d - 1))) : ¬ ReflTransGen (Edge parents) q (node i) := fun hback =>
  hacyclic (node (d - 1)) (TransGen.head' hq (hback.trans (path_of_next hline.edge hi le_rfl)))

omit [DecidableEq α] in
theorem lastLevel_iff (hacyclic : Acyclic parents) (hopen : ∀ c, ¬ blocked c) :
    LastLevel parents blocked tips d c ↔ c = node (d - 1) := by
  refine ⟨hline.alone c, ?_⟩
  rintro rfl
  refine ⟨hline.last, hline.openPath hopen _ le_rfl, fun m hm hpath => ?_⟩
  rcases hline.openPath_cases hpath hm.le with heq | ⟨q, hq, hback⟩
  · exact not_path_back hacyclic hline.edge hm le_rfl (heq ▸ ReflTransGen.refl)
  · exact hline.not_below hacyclic le_rfl hq hback

theorem eq_nodes (h : Graph parents tips R) (hd : 1 ≤ d) (hF : ChildClosed parents R F)
    (hcard : F.card = min d R.card) : F = nodes node d := by
  have hnodes := card_nodes h.acyclic hline.edge
  have hR : nodes node d ⊆ R := fun x hx => by
    obtain ⟨i, hi, rfl⟩ := (mem_nodes hd).mp hx
    exact h.mem_of_path ((h.mem _).mpr (reach_self hline.tip)) (path_of_next hline.edge (Nat.zero_le i) hi)
  have hle := Finset.card_le_card hR
  refine Finset.eq_of_subset_of_card_le (fun x hx => ?_) (by omega)
  rcases hline.reach_cases ((h.mem x).mp (hF.subset hx)) with hon | ⟨q, hq, hpath⟩
  · exact (mem_nodes hd).mpr hon
  -- a node below the line comes after all of it, and makes one too many
  · have hall : insert x (nodes node d) ⊆ F := by
      refine Finset.insert_subset hx fun y hy => hF.up h.parent_mem ?_ (hR hy) hx
      obtain ⟨i, hi, rfl⟩ := (mem_nodes hd).mp hy
      exact (path_of_next hline.edge hi le_rfl).trans (ReflTransGen.head hq hpath)
    have hnot : x ∉ nodes node d := fun hmem => by
      obtain ⟨i, hi, rfl⟩ := (mem_nodes hd).mp hmem
      exact hline.not_below h.acyclic hi hq hpath
    have hmore := Finset.card_le_card hall
    rw [Finset.card_insert_of_notMem hnot] at hmore
    omega

theorem cutAt_iff (hacyclic : Acyclic parents) (hd : 1 ≤ d) :
    CutAt parents (nodes node d) c ↔ c = node (d - 1) := by
  constructor
  · rintro ⟨hc, q, hq, hout⟩
    obtain ⟨i, hi, rfl⟩ := (mem_nodes hd).mp hc
    rcases hline.edge_cases hi hq with ⟨hlt, rfl⟩ | rfl
    · exact absurd ((mem_nodes hd).mpr ⟨i + 1, hlt, rfl⟩) hout
    · rfl
  · rintro rfl
    obtain ⟨q, hq⟩ := List.exists_mem_of_ne_nil _ hline.last
    refine ⟨(mem_nodes hd).mpr ⟨d - 1, le_rfl, rfl⟩, q, hq, fun hin => ?_⟩
    obtain ⟨i, hi, rfl⟩ := (mem_nodes hd).mp hin
    exact hline.not_below hacyclic hi hq ReflTransGen.refl

end Line

/-! ### When the two cuts are one -/

omit [DecidableEq α] in
theorem parents_eq_nil_of_tips (htips : ∀ t ∈ tips, parents t = []) (hc : Reach parents tips c) :
    parents c = [] := by
  obtain ⟨t, ht, hpath⟩ := hc
  induction hpath with
  | refl => exact htips t ht
  | tail _ hedge ih =>
    rw [Edge, ih] at hedge
    exact absurd hedge List.not_mem_nil

namespace Graph

variable (h : Graph parents tips R)

include h

theorem lt_card_of_lastLevel (hd : 1 ≤ d) (hc : LastLevel parents blocked tips d c) :
    d < R.card := by
  obtain ⟨hne, haway⟩ := hc
  obtain ⟨q, hq⟩ := List.exists_mem_of_ne_nil _ hne
  obtain ⟨node, rfl, hlevel, hedge⟩ := haway.exists_path
  have hsub : insert q (nodes node d) ⊆ R := by
    refine Finset.insert_subset (h.parent_mem _ ((h.mem _).mpr haway.1.reach) q hq) fun x hx => ?_
    obtain ⟨i, hi, rfl⟩ := (mem_nodes hd).mp hx
    exact (h.mem _).mpr (hlevel i hi).1.reach
  have hnot : q ∉ nodes node d := fun hmem => by
    obtain ⟨i, hi, rfl⟩ := (mem_nodes hd).mp hmem
    exact h.acyclic _ (TransGen.head' hq (path_of_next hedge hi le_rfl))
  have := Finset.card_le_card hsub
  rw [Finset.card_insert_of_notMem hnot, card_nodes h.acyclic hedge] at this
  omega

theorem below_of_forall_mem (hd : 1 ≤ d) {node : Nat → α}
    (hedge : ∀ i < d - 1, node (i + 1) ∈ parents (node i)) (hfirst : node 0 ∈ R)
    (hall : ∀ F, ChildClosed parents R F → F.card = d → node (d - 1) ∈ F) {t : α} (ht : t ∈ R)
    (hnot : t ∉ nodes node d) : ReflTransGen (Edge parents) (node (d - 1)) t := by
  by_contra hpath
  have hsub : insert t (nodes node d \ {node (d - 1)}) ⊆ notBelow parents R (node (d - 1)) := by
    refine Finset.insert_subset (mem_notBelow.mpr ⟨ht, hpath⟩) fun y hy => ?_
    obtain ⟨hy, hne⟩ := Finset.mem_sdiff.mp hy
    obtain ⟨i, hi, rfl⟩ := (mem_nodes hd).mp hy
    have hne : i ≠ d - 1 := fun heq => hne (Finset.mem_singleton.mpr (congrArg node heq))
    have hiR := h.mem_of_path hfirst (path_of_next hedge (Nat.zero_le i) hi)
    exact mem_notBelow.mpr ⟨hiR, not_path_back h.acyclic hedge (by omega) le_rfl⟩
  have hlast : {node (d - 1)} ⊆ nodes node d :=
    Finset.singleton_subset_iff.mpr ((mem_nodes hd).mpr ⟨d - 1, le_rfl, rfl⟩)
  have hsize := Finset.card_le_card hsub
  rw [Finset.card_insert_of_notMem fun hmem => hnot (Finset.mem_sdiff.mp hmem).1, Finset.card_sdiff_of_subset hlast,
    Finset.card_singleton, card_nodes h.acyclic hedge, Nat.sub_add_cancel hd] at hsize
  obtain ⟨F, hF, -, hbelow, hcard⟩ := h.exists_between childClosed_empty (childClosed_notBelow (node (d - 1)))
    (Finset.empty_subset _) (Nat.zero_le d) hsize
  exact (mem_notBelow.mp (hbelow (hall F hF hcard))).2 ReflTransGen.refl

theorem exists_line (hd : 1 ≤ d) (hlt : d < R.card)
    (hall : ∀ F, ChildClosed parents R F → F.card = d → ∀ c, CutAt parents F c ↔
      LastLevel parents blocked tips d c) (hopen : ∀ c, ¬ blocked c)
    (hx : LastLevel parents blocked tips d x) : ∃ node, Line parents blocked tips d node := by
  obtain ⟨node, rfl, hlevel, hedge⟩ := hx.2.exists_path
  have hfirst : node 0 ∈ R := (h.mem _).mpr (hlevel 0 (Nat.zero_le _)).1.reach
  have hlast : ∀ F, ChildClosed parents R F → F.card = d → node (d - 1) ∈ F :=
    fun F hF hcard => ((hall F hF hcard _).mpr hx).1
  obtain ⟨F, hF, -, -, hcard⟩ := h.exists_between childClosed_empty childClosed_self
    (Finset.empty_subset R) (Nat.zero_le d) hlt.le
  obtain rfl := hF.eq_nodes h hd hedge hfirst (hlast F hF hcard) hcard
  have hcut := hall _ hF hcard
  refine ⟨node, ?_, fun i hi => ⟨List.ne_nil_of_mem (hedge i hi), fun q hq => ?_⟩, hx.1,
    fun t ht => ?_, fun c hc => ?_⟩
  · exact (openPath_iff.mp (hlevel 0 (Nat.zero_le _)).1).1
  -- a node before the last one is of an earlier level, so its parents are in the set
  · have hnot : ¬ CutAt parents (nodes node d) (node i) := fun hat =>
      absurd (((hcut _).mp hat).2.unique (hlevel i hi.le)) (by omega)
    have hq' : q ∈ nodes node d := by
      by_contra hout
      exact hnot ⟨(mem_nodes hd).mpr ⟨i, hi.le, rfl⟩, q, hq, hout⟩
    obtain ⟨j, hj, rfl⟩ := (mem_nodes hd).mp hq'
    have hle : ¬ i + 1 < j := fun hlong => (hlevel j hj).2 (i + 1) hlong (.step (hlevel i hi.le).1 hq (hopen _))
    have hge : ¬ j ≤ i := fun hback => h.acyclic _ (TransGen.head' hq (path_of_next hedge hback hi.le))
    obtain rfl : j = i + 1 := by omega
    rfl
  · have htaway : Away parents blocked tips 0 t := ⟨.tip ht (hopen t), fun m hm => absurd hm (Nat.not_lt_zero m)⟩
    by_cases hmem : t ∈ nodes node d
    · obtain ⟨j, hj, rfl⟩ := (mem_nodes hd).mp hmem
      exact Or.inl (by rw [(hlevel j hj).unique htaway])
    · have hpath := h.below_of_forall_mem hd hedge hfirst hlast ((h.mem t).mpr (reach_self ht)) hmem
      rcases ReflTransGen.cases_head hpath with heq | ⟨q, hq, hpath⟩
      · exact absurd ((mem_nodes hd).mpr ⟨d - 1, le_rfl, heq.symm⟩) hmem
      · exact Or.inr ⟨q, hq, hpath⟩
  · obtain ⟨j, hj, rfl⟩ := (mem_nodes hd).mp ((hcut c).mpr hc).1
    rw [hc.2.unique (hlevel j hj)]

/-- **The first `d` nodes end at the last level, whatever the list, exactly if** the list has no
more, or no tip has a parent, or the first `d` nodes are a line. -/
theorem cut_eq_level_iff (hopen : ∀ c, ¬ blocked c) (hd : 1 ≤ d) :
    (∀ F, ChildClosed parents R F → F.card = min d R.card → ∀ c, CutAt parents F c ↔
      LastLevel parents blocked tips d c) ↔
      R.card ≤ d ∨ (∀ t ∈ tips, parents t = []) ∨ ∃ node, Line parents blocked tips d node := by
  constructor
  · intro hall
    by_contra hnot
    obtain ⟨hlarge, hnot⟩ := not_or.mp hnot
    obtain ⟨htips, hline⟩ := not_or.mp hnot
    have hlt : d < R.card := by omega
    replace hall := fun F hF (hcard : F.card = d) => hall F hF (by omega)
    have hnone : ∀ c, ¬ LastLevel parents blocked tips d c := fun c hc => hline (h.exists_line hd hlt hall hopen hc)
    obtain ⟨t, ht, hne⟩ : ∃ t ∈ tips, parents t ≠ [] := by
      by_contra hno
      exact htips fun t ht => by_contra fun hne => hno ⟨t, ht, hne⟩
    obtain ⟨q, hq⟩ := List.exists_mem_of_ne_nil _ hne
    obtain ⟨F, hF, hcard, c, hcut⟩ := h.exists_cutAt hd hlt ((h.mem t).mpr (reach_self ht)) hq
    exact hnone c ((hall F hF hcard c).mp hcut)
  · rintro (hsmall | htips | ⟨node, hline⟩) F hF hcard c
    · have hFR : F = R := Finset.eq_of_subset_of_card_le hF.subset (by omega)
      subst hFR
      constructor
      · rintro ⟨hc, q, hq, hout⟩
        exact absurd (h.parent_mem c hc q hq) hout
      · intro hc
        exact absurd (h.lt_card_of_lastLevel hd hc) (by omega)
    · refine ⟨?_, fun hc => absurd (parents_eq_nil_of_tips htips hc.2.1.reach) hc.1⟩
      rintro ⟨hc, q, hq, -⟩
      rw [parents_eq_nil_of_tips htips ((h.mem c).mp (hF.subset hc))] at hq
      exact absurd hq List.not_mem_nil
    · rw [hline.eq_nodes h hd hF hcard, hline.cutAt_iff h.acyclic hd, hline.lastLevel_iff h.acyclic hopen]

end Graph

end Mizzle.Lib
