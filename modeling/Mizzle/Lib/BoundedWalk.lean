import Mizzle.Lib.NodeWalk

/-!
# Walks with a limit, and the order of a walk

The walks of `Mizzle.Lib.NodeWalk` may give up before a node is taken. Two limits are treated: on
the number of nodes taken (`walkFrom_limited`) and on the number of nodes marked
(`foldlM_markFrom_limited`). In both cases the walk gives up exactly if the walk without the limit
goes beyond it.

The second half is about the order in which a breadth-first walk lists nodes. It starts with its
tips, and every other node comes after one that leads to it. So a list in which successors come
first has nothing but tips (`parentFirst_iff`).
-/

namespace Mizzle.Lib

variable {α ε : Type} [DecidableEq α]

variable {fuel : Nat} {next : α → Except ε (List α)} {known : Finset α} {marks marks' : Finset α}
  {stop : Finset α → List α → Option ε} {work : List α} {xs : List α} {taken taken' : List α}

def takenLimit (limit : Nat) (e : ε) : Finset α → List α → Option ε :=
  fun _ taken => if limit ≤ taken.length then some e else none

def marksLimit (limit : Nat) (e : ε) : Finset α → List α → Option ε :=
  fun marks _ => if limit < marks.card then some e else none

/-! ### More fuel -/

theorem drain_mono {items : α → Except ε (List (Item α))} {enqueue : List α → List α → List α}
    {fuel fuel' : Nat} (hfuel : fuel ≤ fuel') {marks : Finset α} {taken : List α}
    {result : Except ε (Finset α × List α)}
    (h : drain items known enqueue stop fuel work marks taken = some result) :
    drain items known enqueue stop fuel' work marks taken = some result := by
  induction fuel generalizing fuel' work marks taken with
  | zero =>
    cases work with
    | nil => simpa [drain] using h
    | cons => simp [drain] at h
  | succ fuel ih =>
    cases work with
    | nil => simpa [drain] using h
    | cons x work =>
      obtain ⟨fuel', rfl⟩ : ∃ n, fuel' = n + 1 := ⟨fuel' - 1, by omega⟩
      rw [drain] at h ⊢
      split at h
      · exact h
      · split at h
        · exact h
        · exact ih (Nat.le_of_succ_le_succ hfuel) h

theorem walkFrom_mono {exclude : Finset α} {fuel fuel' : Nat} (hfuel : fuel ≤ fuel') {tips : List α}
    {result : Except ε (List α)} (h : walkFrom next exclude stop fuel tips = some result) :
    walkFrom next exclude stop fuel' tips = some result := by
  rw [walkFrom, Option.map_eq_some_iff] at h ⊢
  obtain ⟨inner, hdrain, hresult⟩ := h
  exact ⟨inner, drain_mono hfuel hdrain, hresult⟩

/-! ### Limits -/

theorem length_le_taken {items : α → Except ε (List (Item α))} {enqueue : List α → List α → List α}
    (h : drain items known enqueue stop fuel work marks taken = some (.ok (marks', taken'))) :
    taken.length ≤ taken'.length := by
  refine drain_induction (fun _ => le_rfl) ?_ h
  intro _ x work marks taken is _ _ ih
  rw [List.length_append] at ih
  exact (Nat.le_add_right _ _).trans ih

theorem drain_takenLimit {items : α → Except ε (List (Item α))} {enqueue : List α → List α → List α}
    (h : drain items known enqueue never fuel work marks taken = some (.ok (marks', taken')))
    (limit : Nat) (e : ε) (hlimit : taken.length ≤ limit) :
    drain items known enqueue (takenLimit limit e) fuel work marks taken =
      some (if taken'.length ≤ limit then .ok (marks', taken') else .error e) := by
  revert hlimit
  refine drain_induction (fun _ hlimit => by rw [if_pos hlimit, drain]) ?_ h
  intro _ x work marks taken is hitems hrest ih _
  have hlength := length_le_taken hrest
  rw [List.length_append, List.length_singleton] at hlength ih
  by_cases hfull : limit ≤ taken.length
  · rw [drain, takenLimit, if_pos hfull, if_neg (by omega)]
  · rw [drain, takenLimit, if_neg hfull, hitems]
    exact ih (by omega)

/-- **A walk with a limit on its length.** -/
theorem walkFrom_limited {exclude : Finset α} {tips taken : List α}
    (h : walkFrom next exclude never fuel tips = some (.ok taken)) (limit : Nat) (e : ε) :
    walkFrom next exclude (takenLimit limit e) fuel tips =
      some (if taken.length ≤ limit then .ok taken else .error e) := by
  obtain ⟨_, hdrain⟩ := walkFrom_ok h
  rw [walkFrom, drain_takenLimit hdrain limit e (Nat.zero_le _), Option.map_some]
  split <;> rfl

theorem visitItems_nodes_eq_nil {known : Finset α} {xs : List α} {marks : Finset α}
    (h : (visitItems known (xs.map .node) marks).2 = []) :
    (visitItems known (xs.map .node) marks).1 = marks := by
  refine Finset.Subset.antisymm (fun x hx => ?_) (subset_visitItems known _ marks)
  by_contra hnot
  have hmem := (mem_visitItems_nodes x).mpr ⟨hx, hnot⟩
  rw [h] at hmem
  exact List.not_mem_nil hmem

theorem drain_marksLimit
    (h : drain (nodesOf next) known fifo never fuel work marks taken = some (.ok (marks', taken')))
    (limit : Nat) (e : ε) (hlimit : work = [] → marks.card ≤ limit) :
    drain (nodesOf next) known fifo (marksLimit limit e) fuel work marks taken =
      some (if marks'.card ≤ limit then .ok (marks', taken') else .error e) := by
  revert hlimit
  refine drain_induction (fun _ hlimit => by rw [if_pos (hlimit rfl), drain]) ?_ h
  intro _ x work marks taken is hitems hrest ih _
  have hsub := Finset.card_le_card ((subset_visitItems known is marks).trans
    (subset_of_visits (drain_visits fifo_perm hrest)))
  obtain ⟨xs, rfl⟩ := nodesOf_ok hitems
  by_cases hfull : limit < marks.card
  · rw [drain, marksLimit, if_pos hfull, if_neg (by omega)]
  · rw [drain, marksLimit, if_neg hfull, hitems]
    refine ih fun hempty => ?_
    rw [visitItems_nodes_eq_nil (List.append_eq_nil_iff.mp hempty).2]
    exact Nat.le_of_not_lt hfull

theorem markFrom_limited {x : α} (h : markFrom next never fuel marks x = some (.ok marks'))
    (limit : Nat) (e : ε) (hlimit : marks.card ≤ limit) :
    markFrom next (marksLimit limit e) fuel marks x =
      some (if marks'.card ≤ limit then .ok marks' else .error e) := by
  obtain ⟨_, hdrain⟩ := markFrom_ok h
  have hstart : (visitItems ∅ [.node x] marks).2 = [] →
      (visitItems ∅ [.node x] marks).1.card ≤ limit := fun hempty => by
    have hsame : (visitItems ∅ [.node x] marks).1 = marks := @visitItems_nodes_eq_nil _ _ ∅ [x] marks hempty
    rwa [hsame]
  rw [markFrom, drain_marksLimit hdrain limit e hstart, Option.map_some]
  split <;> rfl

theorem subset_markFrom {x : α} (h : markFrom next stop fuel marks x = some (.ok marks')) :
    marks ⊆ marks' := by
  obtain ⟨_, hdrain⟩ := markFrom_ok h
  exact (subset_visitItems ∅ [.node x] marks).trans (subset_of_visits (drain_visits fifo_perm hdrain))

theorem subset_foldlM_markFrom {next : α → Except ε (List α)} {stop : Finset α → List α → Option ε}
    {fuel : Nat} {xs : List α} {marks marks' : Finset α}
    (h : xs.foldlM (m := Outcome ε) (markFrom next stop fuel) marks = Outcome.done marks') :
    marks ⊆ marks' := by
  induction xs generalizing marks with
  | nil =>
    obtain rfl := Except.ok.inj (Option.some.inj h)
    exact Finset.Subset.refl _
  | cons x xs ih =>
    rw [List.foldlM_cons] at h
    obtain ⟨middle, hstep, hrest⟩ := Outcome.bind_eq_done_iff.mp h
    exact (subset_markFrom hstep).trans (ih hrest)

/-- **One node after the other**, with a limit on what is marked: the limit is exceeded exactly if
it is in the end. -/
theorem foldlM_markFrom_limited {next : α → Except ε (List α)} {fuel : Nat} {xs : List α}
    {marks marks' : Finset α}
    (h : xs.foldlM (m := Outcome ε) (markFrom next never fuel) marks = Outcome.done marks')
    (limit : Nat) (e : ε) (hlimit : marks.card ≤ limit) :
    xs.foldlM (m := Outcome ε) (markFrom next (marksLimit limit e) fuel) marks =
      some (if marks'.card ≤ limit then .ok marks' else .error e) := by
  induction xs generalizing marks with
  | nil =>
    obtain rfl := Except.ok.inj (Option.some.inj h)
    rw [if_pos hlimit]
    rfl
  | cons x xs ih =>
    rw [List.foldlM_cons] at h ⊢
    obtain ⟨middle, hstep, hrest⟩ := Outcome.bind_eq_done_iff.mp h
    have hfirst := markFrom_limited hstep limit e hlimit
    by_cases hmiddle : middle.card ≤ limit
    · rw [if_pos hmiddle] at hfirst
      rw [hfirst]
      exact ih hrest hmiddle
    · -- the rest only adds to what is too much already
      have hgrow := Finset.card_le_card (subset_foldlM_markFrom hrest)
      rw [if_neg hmiddle] at hfirst
      rw [hfirst, if_neg (by omega)]
      rfl

/-! ### The order of a walk -/

theorem mem_visitItems_new {marks : Finset α} {x : α} :
    x ∈ (visitItems known (xs.map .node) marks).2 ↔ x ∈ xs ∧ x ∉ known ∧ x ∉ marks := by
  induction xs generalizing marks with
  | nil => simp [visitItems]
  | cons y xs ih =>
    rw [List.map_cons, visitItems, visitItem, List.mem_cons]
    split
    · rename_i hseen
      rw [List.nil_append, ih, or_and_right, or_iff_right_of_imp]
      rintro ⟨rfl, hfree⟩
      exact absurd hseen (by tauto)
    · rename_i hnew
      rw [List.singleton_append, List.mem_cons, ih, Finset.mem_insert]
      by_cases hxy : x = y
      · subst hxy
        tauto
      · tauto

theorem taken_eq_append
    (h : drain (nodesOf next) known fifo stop fuel work marks taken = some (.ok (marks', taken'))) :
    ∃ later, taken' = taken ++ work ++ later ∧ (∀ y ∈ later, y ∉ known ∧ y ∉ marks) ∧
      ∀ y rest, later = y :: rest → ∃ x ∈ work, y ∈ okOrNil next x := by
  refine drain_induction (fun _ => ⟨[], by simp⟩) ?_ h
  intro _ x work marks taken is hitems _ ih
  obtain ⟨xs, rfl⟩ := nodesOf_ok hitems
  have hxs : okOrNil next x = xs := by
    have hlisted := listed_ok hitems
    rw [listed_nodesOf] at hlisted
    exact List.map_injective_iff.mpr (fun _ _ => Item.node.inj) hlisted
  obtain ⟨later, rfl, hfresh, hled⟩ := ih
  refine ⟨(visitItems known (xs.map .node) marks).2 ++ later, ?_, fun y hy => ?_, fun y rest hy => ?_⟩
  · simp [fifo]
  · rcases List.mem_append.mp hy with hy | hy
    · exact (mem_visitItems_new.mp hy).2
    · exact ⟨(hfresh y hy).1, fun hmark => (hfresh y hy).2 (subset_visitItems known _ marks hmark)⟩
  · cases hfirst : (visitItems known (xs.map .node) marks).2 with
    | nil =>
      rw [hfirst, List.nil_append] at hy
      rw [hfirst] at hled
      obtain ⟨z, hz, hedge⟩ := hled y rest hy
      exact ⟨z, List.mem_cons_of_mem _ (by simpa [fifo] using hz), hedge⟩
    | cons z zs =>
      rw [hfirst] at hy
      obtain ⟨rfl, -⟩ := List.cons.inj hy
      refine ⟨x, List.mem_cons_self, ?_⟩
      rw [hxs]
      exact (mem_visitItems_new.mp (hfirst ▸ List.mem_cons_self)).1

/-- Every node of the list comes after those of its successors that are in it. -/
def ParentFirst (next : α → List α) (l : List α) : Prop :=
  ∀ pre c post, l = pre ++ c :: post → ∀ p ∈ next c, p ∈ l → p ∈ pre

theorem split_of_visitItems {marks : Finset α} {pre post : List α} {c : α}
    (h : (visitItems known (xs.map .node) marks).2 = pre ++ c :: post) :
    ∃ pre' post', xs = pre' ++ c :: post' ∧ c ∉ pre' ∧ ∀ y, y ∈ pre ↔ y ∈ pre' ∧ y ∉ known ∧
      y ∉ marks := by
  have hc : c ∈ (visitItems known (xs.map .node) marks).2 := by simp [h]
  obtain ⟨-, hfree⟩ := mem_visitItems_new.mp hc
  induction xs generalizing marks pre with
  | nil => simp [visitItems] at h
  | cons x xs ih =>
    rw [List.map_cons, visitItems, visitItem] at h
    split at h
    · rename_i hseen
      dsimp only at h
      rw [List.nil_append] at h
      obtain ⟨pre', post', rfl, hfirst, hmem⟩ := ih h (by simp [h]) hfree
      have hne : c ≠ x := by
        rintro rfl
        exact absurd hseen (by tauto)
      refine ⟨x :: pre', post', rfl, by simp [hne, hfirst], fun y => ?_⟩
      rw [hmem, List.mem_cons, or_and_right, or_iff_right_of_imp]
      rintro ⟨rfl, hy⟩
      exact absurd hseen (by tauto)
    · rename_i hnew
      push Not at hnew
      dsimp only at h
      rw [List.singleton_append] at h
      cases pre with
      | nil =>
        obtain ⟨rfl, -⟩ := List.cons.inj h
        exact ⟨[], xs, rfl, List.not_mem_nil, fun y => by simp⟩
      | cons z pre =>
        obtain ⟨rfl, hrest⟩ := List.cons.inj h
        have hrest : (visitItems known (xs.map .node) (insert x marks)).2 = pre ++ c :: post := hrest
        have hc : c ∈ (visitItems known (xs.map .node) (insert x marks)).2 := by simp [hrest]
        obtain ⟨-, hfree'⟩ := mem_visitItems_new.mp hc
        obtain ⟨pre', post', rfl, hfirst, hmem⟩ := ih hrest hc hfree'
        have hne : c ≠ x := by
          rintro rfl
          exact hfree'.2 (Finset.mem_insert_self c marks)
        refine ⟨x :: pre', post', rfl, by simp [hne, hfirst], fun y => ?_⟩
        rw [List.mem_cons, hmem, List.mem_cons, Finset.mem_insert]
        by_cases hy : y = x
        · subst hy
          tauto
        · tauto

theorem parentFirst_tips_iff {next : α → List α} :
    ParentFirst next (visitItems known (xs.map .node) ∅).2 ↔
      ∀ pre c post, xs = pre ++ c :: post → c ∉ known → ∀ p ∈ next c, p ∈ xs → p ∉ known → p ∈ pre := by
  have hmem : ∀ x, x ∈ (visitItems known (xs.map .node) ∅).2 ↔ x ∈ xs ∧ x ∉ known := fun x => by
    rw [mem_visitItems_new]
    simp
  constructor
  · intro hfirst pre c post hxs hc p hp hpxs hpknown
    obtain ⟨qpre, qpost, hq⟩ := List.append_of_mem ((hmem c).mpr ⟨by simp [hxs], hc⟩)
    have hbefore := hfirst qpre c qpost hq p hp ((hmem p).mpr ⟨hpxs, hpknown⟩)
    obtain ⟨pre', post', hxs', hfresh, hsame⟩ := split_of_visitItems hq
    -- the first place of the node is no later than any other
    obtain ⟨more, rfl⟩ : ∃ more, pre = pre' ++ more := by
      rcases List.append_eq_append_iff.mp (hxs.symm.trans hxs') with ⟨a, rfl, ha⟩ | ⟨a, rfl, -⟩
      · cases a with
        | nil => exact ⟨[], by simp⟩
        | cons b a =>
          obtain ⟨rfl, -⟩ := List.cons.inj ha
          exact absurd (by simp) hfresh
      · exact ⟨a, rfl⟩
    exact List.mem_append_left _ ((hsame p).mp hbefore).1
  · intro hcond pre c post hq p hp hpq
    obtain ⟨pre', post', hxs, -, hsame⟩ := split_of_visitItems hq
    obtain ⟨hpxs, hpknown⟩ := (hmem p).mp hpq
    have hc := (hmem c).mp (by simp [hq])
    exact (hsame p).mpr ⟨hcond pre' c post' hxs hc.2 p hp hpxs hpknown, hpknown, Finset.notMem_empty p⟩

/-- **When a walk lists successors first**: it comes to nothing but its tips, and these are given in
such an order. -/
theorem parentFirst_iff {exclude : Finset α} {tips taken : List α}
    (h : walkFrom next exclude stop fuel tips = some (.ok taken)) :
    ParentFirst (okOrNil next) taken ↔ (∀ x ∈ taken, x ∈ tips) ∧
      ∀ pre c post, tips = pre ++ c :: post → c ∉ exclude → ∀ p ∈ okOrNil next c, p ∈ tips →
        p ∉ exclude → p ∈ pre := by
  obtain ⟨_, hdrain⟩ := walkFrom_ok h
  obtain ⟨later, rfl, hfresh, hled⟩ := taken_eq_append hdrain
  rw [List.nil_append, ← parentFirst_tips_iff]
  have htips : ∀ x, x ∈ (visitItems exclude (tips.map .node) ∅).2 ↔ x ∈ tips ∧ x ∉ exclude := fun x => by
    rw [mem_visitItems_new]
    simp
  cases later with
  | nil =>
    rw [List.append_nil, iff_and_self]
    exact fun _ x hx => ((htips x).mp hx).1
  | cons y later =>
    -- the first node that is no tip was led to by a tip before it
    obtain ⟨x, hx, hedge⟩ := hled y later rfl
    have hnot : y ∉ (visitItems exclude (tips.map .node) ∅).2 := fun hy =>
      (hfresh y List.mem_cons_self).2 ((@visitItems_new _ _ exclude (tips.map .node) ∅).2 y hy).2
    constructor
    · intro hfirst
      obtain ⟨pre, post, hpre⟩ := List.append_of_mem hx
      have hmem := hfirst pre x (post ++ y :: later) (by rw [hpre]; simp) y hedge (by simp)
      exact absurd (hpre ▸ List.mem_append_left _ hmem) hnot
    · rintro ⟨hall, -⟩
      exact absurd ((htips y).mpr ⟨hall y (by simp), (hfresh y List.mem_cons_self).1⟩) hnot

end Mizzle.Lib
