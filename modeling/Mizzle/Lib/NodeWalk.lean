import Mizzle.Lib.Outcome

/-!
# Walks over a graph of nodes

The work list of `Mizzle.Lib.Visit` where every item is a node: `walkFrom` lists what tips lead to,
without what is excluded, and `markFrom` adds to a set what one node leads to. Both read the
successors through a lookup that may fail. `walkExcluding` is the walk in two passes: what the
excluded nodes lead to is marked, then what the tips lead to beyond it is listed. `collectFrom` is
the recursion from one tip after the other, which also ends if a lookup fails
(`collectFrom_ends`).
-/

namespace Mizzle.Lib

variable {α ε : Type} [DecidableEq α]

variable {stop : Finset α → List α → Option ε}

variable {next : α → Except ε (List α)} {fuel : Nat} {R : Finset α}

def nodesOf (next : α → Except ε (List α)) (x : α) : Except ε (List (Item α)) :=
  (next x).map (List.map .node)

/-- A walk from tips, which does not go into the excluded nodes: the nodes in the order of the
walk. -/
def walkFrom (next : α → Except ε (List α)) (exclude : Finset α)
    (stop : Finset α → List α → Option ε) (fuel : Nat) (tips : List α) :
    Option (Except ε (List α)) :=
  (drain (nodesOf next) exclude fifo stop fuel (visitItems exclude (tips.map .node) ∅).2
    (visitItems exclude (tips.map .node) ∅).1 []).map (Except.map Prod.snd)

/-- What a node leads to is marked, except what was marked before. -/
def markFrom (next : α → Except ε (List α)) (stop : Finset α → List α → Option ε) (fuel : Nat)
    (marks : Finset α) (x : α) : Option (Except ε (Finset α)) :=
  (drain (nodesOf next) ∅ fifo stop fuel (visitItems ∅ [.node x] marks).2 (visitItems ∅ [.node x] marks).1 []).map
    (Except.map Prod.fst)

theorem walkFrom_ok {exclude : Finset α} {stop : Finset α → List α → Option ε} {fuel : Nat}
    {tips taken : List α} (h : walkFrom next exclude stop fuel tips = some (.ok taken)) :
    ∃ marks, drain (nodesOf next) exclude fifo stop fuel (visitItems exclude (tips.map .node) ∅).2
      (visitItems exclude (tips.map .node) ∅).1 [] = some (.ok (marks, taken)) := by
  obtain ⟨result, hdrain, hresult⟩ := Option.map_eq_some_iff.mp h
  rcases result with e | ⟨marks, taken'⟩
  · cases hresult
  · obtain rfl : taken' = taken := Except.ok.inj hresult
    exact ⟨marks, hdrain⟩

theorem markFrom_ok {stop : Finset α → List α → Option ε} {fuel : Nat} {marks marks' : Finset α}
    {x : α} (h : markFrom next stop fuel marks x = some (.ok marks')) :
    ∃ taken, drain (nodesOf next) ∅ fifo stop fuel (visitItems ∅ [.node x] marks).2
      (visitItems ∅ [.node x] marks).1 [] = some (.ok (marks', taken)) := by
  obtain ⟨result, hdrain, hresult⟩ := Option.map_eq_some_iff.mp h
  rcases result with e | ⟨marks'', taken⟩
  · cases hresult
  · obtain rfl : marks'' = marks' := Except.ok.inj hresult
    exact ⟨taken, hdrain⟩

omit [DecidableEq α] in
theorem separates_nodes (xs : List α) : Separates (fun _ => True) (xs.map .node) :=
  fun x => ⟨fun _ => trivial, fun hx => by simp at hx⟩

omit [DecidableEq α] in
theorem listed_nodesOf (next : α → Except ε (List α)) (x : α) :
    listed (nodesOf next) x = (okOrNil next x).map .node := by
  rw [listed, nodesOf, okOrNil]
  cases next x <;> rfl

variable {x : α} {exclude marks : Finset α}

omit [DecidableEq α] in
theorem nodesOf_ok {is : List (Item α)} (h : nodesOf next x = .ok is) :
    ∃ xs : List α, is = xs.map .node := by
  rw [nodesOf] at h
  cases hx : next x with
  | error e => simp [hx, Except.map] at h
  | ok xs => exact ⟨xs, by simpa [hx, Except.map] using h.symm⟩

theorem mem_of_visits_nodes {tips : List α} {marks marks' : Finset α}
    (h : Visits (listed (nodesOf next)) exclude (tips.map .node) marks marks')
    (hclosed : ∀ x y, x ∈ exclude ∨ x ∈ marks → y ∈ okOrNil next x → y ∈ exclude ∨ y ∈ marks)
    (x : α) : x ∈ marks' ↔ x ∈ marks ∨ Reach (okOrNil next) tips x ∧ x ∉ exclude := by
  have hitems : ∀ y, Separates (fun _ => True) (listed (nodesOf next) y) := fun y => by
    rw [listed_nodesOf]
    exact separates_nodes _
  have hstep : ∀ a b, .node b ∈ listed (nodesOf next) a ↔ b ∈ okOrNil next a := by simp [listed_nodesOf]
  have hleaf : ∀ a b, .leaf b ∉ listed (nodesOf next) a := by simp [listed_nodesOf]
  have hreach : Entered (listed (nodesOf next)) (fun y => y ∈ exclude ∨ y ∈ marks) (tips.map .node) x ↔
      Reach (okOrNil next) tips x ∧ ¬ (x ∈ exclude ∨ x ∈ marks) := by
    have hedge : (fun a b => .node b ∈ listed (nodesOf next) a) = Edge (okOrNil next) := by
      funext a b
      exact propext (hstep a b)
    rw [entered_iff_of_closed fun a b ha hb => hclosed a b ha ((hstep a b).mp hb), hedge]
    simp [Reach]
  rw [mem_of_visits hitems (separates_nodes tips) h, hreach]
  simp only [hleaf, List.mem_map, reduceCtorEq, and_false, exists_false, or_false]
  tauto

theorem mem_of_drain_nodes {next : α → Except ε (List α)} {exclude : Finset α} {fuel : Nat}
    {tips : List α} {marks marks' : Finset α} {taken : List α}
    (h : drain (nodesOf next) exclude fifo stop fuel (visitItems exclude (tips.map .node) marks).2
      (visitItems exclude (tips.map .node) marks).1 [] = some (.ok (marks', taken)))
    (hclosed : ∀ x y, x ∈ exclude ∨ x ∈ marks → y ∈ okOrNil next x → y ∈ exclude ∨ y ∈ marks)
    (x : α) :
    (x ∈ marks' ↔ x ∈ marks ∨ Reach (okOrNil next) tips x ∧ x ∉ exclude) ∧
      (x ∈ taken ↔ x ∈ marks' ∧ x ∉ marks) := by
  have hrun : Visits (listed (nodesOf next)) exclude (tips.map .node ++ []) marks marks' := by
    refine visits_of_visitItems ?_
    rw [List.append_nil]
    exact drain_visits fifo_perm h
  rw [List.append_nil] at hrun
  refine ⟨mem_of_visits_nodes hrun hclosed x, ?_⟩
  have hsub := @subset_of_visits _ _ _ _ _ _ _ (drain_visits fifo_perm h) x
  have hmarks := @subset_visitItems _ _ exclude (tips.map .node) marks x
  have hnew := @mem_visitItems_nodes _ _ exclude tips marks x
  rw [mem_taken fifo_perm (fun _ _ => nodesOf_ok) h]
  have hnil := @List.not_mem_nil _ x
  tauto

/-- **A walk takes what its tips reach and nothing excluded**, if the excluded nodes are closed. -/
theorem mem_walkFrom {tips taken : List α}
    (h : walkFrom next exclude stop fuel tips = some (.ok taken))
    (hclosed : ∀ x ∈ exclude, ∀ y ∈ okOrNil next x, y ∈ exclude) (x : α) :
    x ∈ taken ↔ Reach (okOrNil next) tips x ∧ x ∉ exclude := by
  obtain ⟨_, hdrain⟩ := walkFrom_ok h
  have hmem := mem_of_drain_nodes hdrain (fun a b ha hb => by
    simp only [Finset.notMem_empty, or_false] at ha ⊢
    exact hclosed a ha b hb) x
  rw [hmem.2, hmem.1]
  simp

/-- **What is marked from a node**, if the marks were closed. -/
theorem mem_markFrom {t : α} {marks marks' : Finset α}
    (h : markFrom next stop fuel marks t = some (.ok marks'))
    (hclosed : ∀ x ∈ marks, ∀ y ∈ okOrNil next x, y ∈ marks) (x : α) :
    x ∈ marks' ↔ x ∈ marks ∨ Reach (okOrNil next) [t] x := by
  obtain ⟨_, hdrain⟩ := markFrom_ok h
  have hmem := (@mem_of_drain_nodes _ _ _ _ _ _ _ [t] _ _ _ hdrain (fun a b ha hb => by
    simp only [Finset.notMem_empty, false_or] at ha ⊢
    exact hclosed a ha b hb) x).1
  rw [hmem]
  simp

/-- The successors of the nodes of a set stay in it, and the lookup does not fail on them. -/
def ClosedNodes (next : α → Except ε (List α)) (R : Finset α) : Prop :=
  ∀ x ∈ R, ∃ ys, next x = .ok ys ∧ ∀ y ∈ ys, y ∈ R

omit [DecidableEq α] in
theorem ClosedNodes.closedSet (h : ClosedNodes next R) : ClosedSet (nodesOf next) R := by
  intro x hx
  obtain ⟨ys, hys, hsub⟩ := h x hx
  refine ⟨ys.map .node, by rw [nodesOf, hys]; rfl, fun y hy => hsub y ?_⟩
  simpa using hy

theorem drain_nodes_answers (hstop : ∀ marks taken, stop marks taken = none)
    (hR : ClosedNodes next R) (exclude : Finset α) (hfuel : R.card ≤ fuel) {tips : List α}
    (htips : ∀ x ∈ tips, x ∈ R) (marks : Finset α) :
    ∃ result, drain (nodesOf next) exclude fifo stop fuel
      (visitItems exclude (tips.map .node) marks).2
      (visitItems exclude (tips.map .node) marks).1 [] = some (.ok result) := by
  have hnodes : ∀ x, .node x ∈ tips.map Item.node → x ∈ R := fun x hx => htips x (by simpa using hx)
  have hcard := @card_visitItems _ _ exclude R (tips.map .node) marks hnodes
  have hsub := Finset.card_le_card (Finset.sdiff_subset : R \ marks ⊆ R)
  exact drain_answers fifo_perm hstop hR.closedSet [] (fun x hx => hnodes x (node_of_mem_visitItems hx)) (by omega)

theorem walkFrom_answers {next : α → Except ε (List α)}
    (hstop : ∀ marks taken, stop marks taken = none) {R : Finset α} (hR : ClosedNodes next R)
    (exclude : Finset α) {fuel : Nat} (hfuel : R.card ≤ fuel) {tips : List α}
    (htips : ∀ x ∈ tips, x ∈ R) :
    ∃ taken, walkFrom next exclude stop fuel tips = some (.ok taken) := by
  obtain ⟨result, hresult⟩ := drain_nodes_answers hstop hR exclude hfuel htips ∅
  exact ⟨result.2, by rw [walkFrom, hresult]; rfl⟩

theorem markFrom_answers (hstop : ∀ marks taken, stop marks taken = none) (hR : ClosedNodes next R)
    (hfuel : R.card ≤ fuel) (hx : x ∈ R) (marks : Finset α) :
    ∃ marks', markFrom next stop fuel marks x = some (.ok marks') := by
  have htips : ∀ y ∈ [x], y ∈ R := by simpa using hx
  obtain ⟨result, hresult⟩ := drain_nodes_answers hstop hR ∅ hfuel htips marks
  exact ⟨result.1, by rw [markFrom]; exact congrArg (Option.map (Except.map Prod.fst)) hresult⟩

theorem drain_nodes_congr {next next' : α → Except ε (List α)} {R : α → Prop}
    (hsame : ∀ x, R x → next x = next' x) (hclosed : ∀ x ys, R x → next x = .ok ys → ∀ y ∈ ys, R y)
    (exclude : Finset α) (fuel : Nat) {tips : List α} (htips : ∀ x ∈ tips, R x) (marks : Finset α) :
    drain (nodesOf next) exclude fifo stop fuel (visitItems exclude (tips.map .node) marks).2
        (visitItems exclude (tips.map .node) marks).1 [] =
      drain (nodesOf next') exclude fifo stop fuel (visitItems exclude (tips.map .node) marks).2
        (visitItems exclude (tips.map .node) marks).1 [] := by
  refine drain_congr fifo_perm (fun x hx => by rw [nodesOf, hsame x hx, nodesOf]) (fun x is hx his y hy => ?_) fuel _ _
    fun x hx => htips x (by simpa using node_of_mem_visitItems hx)
  rw [nodesOf] at his
  cases hnext : next x with
  | error e => simp [hnext, Except.map] at his
  | ok ys =>
    obtain rfl : ys.map .node = is := by simpa [hnext, Except.map] using his
    exact hclosed x ys hx hnext y (by simpa using hy)

theorem walkFrom_congr {next next' : α → Except ε (List α)} {R : α → Prop}
    (hsame : ∀ x, R x → next x = next' x) (hclosed : ∀ x ys, R x → next x = .ok ys → ∀ y ∈ ys, R y)
    (exclude : Finset α) (fuel : Nat) {tips : List α} (htips : ∀ x ∈ tips, R x) :
    walkFrom next exclude stop fuel tips = walkFrom next' exclude stop fuel tips := by
  rw [walkFrom, drain_nodes_congr hsame hclosed exclude fuel htips, walkFrom]

theorem markFrom_congr {next next' : α → Except ε (List α)} {R : α → Prop}
    (hsame : ∀ x, R x → next x = next' x) (hclosed : ∀ x ys, R x → next x = .ok ys → ∀ y ∈ ys, R y)
    (fuel : Nat) (hx : R x) (marks : Finset α) :
    markFrom next stop fuel marks x = markFrom next' stop fuel marks x := by
  have htips : ∀ y ∈ [x], R y := by simpa using hx
  have hdrain := @drain_nodes_congr _ _ _ stop _ _ _ hsame hclosed ∅ fuel _ htips marks
  exact congrArg (Option.map (Except.map Prod.fst)) hdrain

theorem walkFrom_nodup {tips taken : List α}
    (h : walkFrom next exclude stop fuel tips = some (.ok taken)) : taken.Nodup := by
  obtain ⟨_, hdrain⟩ := walkFrom_ok h
  obtain ⟨hnodup, hnew⟩ := @visitItems_new _ _ exclude (tips.map .node) ∅
  rw [← List.append_nil (visitItems exclude (tips.map .node) ∅).2] at hnodup
  exact taken_nodup fifo_perm hdrain hnodup fun x hx => (hnew x (by simpa using hx)).2

/-! ### Two passes -/

/-- What the nodes lead to is marked, one after the other. -/
def markAll (next : α → Except ε (List α)) (stop : Finset α → List α → Option ε) (fuel : Nat)
    (xs : List α) : Outcome ε (Finset α) :=
  xs.foldlM (m := Outcome ε) (markFrom next stop fuel) ∅

/-- The nodes that the tips lead to and the excluded nodes do not. Each pass has its own lookup and
its own limit. -/
def walkExcluding (first second : α → Except ε (List α))
    (stopFirst stopSecond : Finset α → List α → Option ε) (fuel : Nat) (tips excluding : List α) :
    Outcome ε (List α) := do
  let exclude ← markAll first stopFirst fuel excluding
  walkFrom second exclude stopSecond fuel tips

theorem foldlM_markFrom_done (hstop : ∀ marks taken, stop marks taken = none)
    (hR : ClosedNodes next R) (hfuel : R.card ≤ fuel) {xs : List α} (hxs : ∀ x ∈ xs, x ∈ R)
    (hmarks : ∀ x ∈ marks, ∀ y ∈ okOrNil next x, y ∈ marks) :
    ∃ marks', xs.foldlM (m := Outcome ε) (markFrom next stop fuel) marks = Outcome.done marks' ∧
      ∀ x, x ∈ marks' ↔ x ∈ marks ∨ Reach (okOrNil next) xs x := by
  induction xs generalizing marks with
  | nil => exact ⟨marks, rfl, fun x => by simp⟩
  | cons t xs ih =>
    obtain ⟨middle, hstep⟩ := markFrom_answers hstop hR hfuel (hxs t List.mem_cons_self) marks
    have hmiddle := mem_markFrom hstep hmarks
    have hclosed : ∀ x ∈ middle, ∀ y ∈ okOrNil next x, y ∈ middle := fun x hx y hy =>
      (hmiddle y).mpr (((hmiddle x).mp hx).imp (fun hx => hmarks x hx y hy) fun hx => reach_step hx hy)
    obtain ⟨marks', hloop, hmarks'⟩ := ih (fun x hx => hxs x (List.mem_cons_of_mem _ hx)) hclosed
    refine ⟨marks', by rw [List.foldlM_cons, Outcome.bind_of_done hstep, hloop], fun x => ?_⟩
    have hsplit : Reach (okOrNil next) (t :: xs) x ↔ Reach (okOrNil next) [t] x ∨ Reach (okOrNil next) xs x :=
      @reach_append _ (okOrNil next) [t] xs x
    rw [hmarks', hmiddle, hsplit, or_assoc]

/-- **The walk in two passes lists what the tips reach and the excluded nodes do not**, each node
once. Both lookups are of one finite graph and do not fail on it. -/
theorem walkExcluding_done {next : α → List α} {first second : α → Except ε (List α)}
    (hfirst : ∀ x, ∃ ys, first x = .ok ys ∧ ∀ y, y ∈ ys ↔ y ∈ next x)
    (hsecond : ∀ x, ∃ ys, second x = .ok ys ∧ ∀ y, y ∈ ys ↔ y ∈ next x)
    (hR : ∀ x y, y ∈ next x → y ∈ R) (hfuel : R.card ≤ fuel) {tips excluding : List α}
    (htips : ∀ x ∈ tips, x ∈ R) (hexcluding : ∀ x ∈ excluding, x ∈ R) :
    ∃ taken, walkExcluding first second never never fuel tips excluding =
      Outcome.done taken ∧ taken.Nodup ∧
      ∀ x, x ∈ taken ↔ Reach next tips x ∧ ¬ Reach next excluding x := by
  have hclosed : ∀ {lookup : α → Except ε (List α)}, (∀ x, ∃ ys, lookup x = .ok ys ∧ ∀ y, y ∈ ys ↔ y ∈ next x) →
      ClosedNodes lookup R ∧ ∀ x y, y ∈ okOrNil lookup x ↔ y ∈ next x := by
    intro lookup hlookup
    constructor
    · intro x _
      obtain ⟨ys, hys, hmem⟩ := hlookup x
      exact ⟨ys, hys, fun y hy => hR x y ((hmem y).mp hy)⟩
    · intro x y
      obtain ⟨ys, hys, hmem⟩ := hlookup x
      rw [okOrNil, hys]
      exact hmem y
  obtain ⟨hclosedFirst, hsameFirst⟩ := hclosed hfirst
  obtain ⟨hclosedSecond, hsameSecond⟩ := hclosed hsecond
  have hnever : ∀ marks taken, (never : Finset α → List α → Option ε) marks taken = none := fun _ _ => rfl
  obtain ⟨exclude, hexclude, hmem⟩ := foldlM_markFrom_done hnever hclosedFirst hfuel hexcluding
    (fun x hx => absurd hx (Finset.notMem_empty x))
  obtain ⟨taken, hwalk⟩ := walkFrom_answers hnever hclosedSecond exclude hfuel htips
  refine ⟨taken, ?_, walkFrom_nodup hwalk, fun x => ?_⟩
  · rw [walkExcluding, markAll, Outcome.bind_of_done hexclude]
    exact hwalk
  · have hexcluded : ∀ x, x ∈ exclude ↔ Reach next excluding x := fun x => by
      rw [hmem, reach_congr hsameFirst]
      simp
    rw [mem_walkFrom hwalk, reach_congr hsameSecond, hexcluded]
    intro y hy z hz
    rw [hexcluded] at hy ⊢
    exact reach_step hy ((hsameSecond y z).mp hz)

/-! ### Recursion -/

/-- What a recursion from `tips` comes to: new nodes, all of them read, or the error of a node that
it came to. -/
def Recursed (next : α → Except ε (List α)) (tips : List α) (marks : Finset α) :
    Except ε (Finset α) → Prop
  | .ok marks' => marks ⊆ marks' ∧ ∀ y ∈ marks', y ∈ marks ∨ ∃ ys, next y = .ok ys
  | .error e => ∃ y, Reach (okOrNil next) tips y ∧ next y = .error e

theorem visitAll_nodes {go : α → Finset α → Option (Except ε (Finset α))} {xs : List α}
    {bound : Nat}
    (hgo : ∀ x ∈ xs, ∀ marks, (R \ marks).card < bound → ∃ result, go x marks = some result ∧
      Recursed next [x] marks result) (hmarks : (R \ marks).card < bound) :
    ∃ result, visitAll go (xs.map .node) marks = some result ∧ Recursed next xs marks result := by
  induction xs generalizing marks with
  | nil => exact ⟨.ok marks, rfl, Finset.Subset.refl _, fun y hy => Or.inl hy⟩
  | cons x xs ih =>
    obtain ⟨first, hfirst, hrecursed⟩ := hgo x List.mem_cons_self marks hmarks
    rw [List.map_cons, visitAll, hfirst]
    cases first with
    | error e =>
      obtain ⟨y, hy, he⟩ := hrecursed
      refine ⟨.error e, rfl, y, ?_, he⟩
      exact reach_append.mpr (Or.inl hy)
    | ok middle =>
      obtain ⟨hsub, hread⟩ := hrecursed
      have hless := (Finset.card_le_card (Finset.sdiff_subset_sdiff (le_refl R) hsub)).trans_lt hmarks
      obtain ⟨result, hresult, hrest⟩ := ih (fun y hy => hgo y (List.mem_cons_of_mem _ hy)) hless
      refine ⟨result, hresult, ?_⟩
      cases result with
      | error e =>
        obtain ⟨y, hy, he⟩ := hrest
        have hreach : Reach (okOrNil next) ([x] ++ xs) y := reach_append.mpr (Or.inr hy)
        exact ⟨y, hreach, he⟩
      | ok marks' => exact ⟨hsub.trans hrest.1, fun y hy => (hrest.2 y hy).elim (hread y) Or.inr⟩

theorem collect_nodes (hR : ∀ x xs, next x = .ok xs → x ∈ R) (x : α)
    (hfuel : (R \ marks).card < fuel) :
    ∃ result, collect (nodesOf next) fuel x marks = some result ∧
      Recursed next [x] marks result := by
  induction fuel generalizing x marks with
  | zero => omega
  | succ fuel ih =>
    rw [collect]
    split
    · exact ⟨.ok marks, rfl, Finset.Subset.refl _, fun y hy => Or.inl hy⟩
    · rename_i hnew
      rw [nodesOf]
      cases hnext : next x with
      | error e => exact ⟨.error e, rfl, x, reach_singleton.mpr .refl, hnext⟩
      | ok xs =>
        have hmem : x ∈ R \ marks := Finset.mem_sdiff.mpr ⟨hR x xs hnext, hnew⟩
        have hless : (R \ insert x marks).card < fuel := by
          have hpos := Finset.card_pos.mpr ⟨x, hmem⟩
          rw [Finset.sdiff_insert, Finset.card_erase_of_mem hmem]
          omega
        obtain ⟨result, hresult, hrecursed⟩ := visitAll_nodes (fun y _ marks => ih y) hless
        refine ⟨result, hresult, ?_⟩
        cases result with
        | error e =>
          obtain ⟨y, ⟨t, ht, hpath⟩, he⟩ := hrecursed
          have hedge : Edge (okOrNil next) x t := by rwa [Edge, okOrNil, hnext]
          exact ⟨y, reach_singleton.mpr (.head hedge hpath), he⟩
        | ok marks' =>
          refine ⟨(Finset.subset_insert x marks).trans hrecursed.1, fun y hy => ?_⟩
          rcases hrecursed.2 y hy with hy | hy
          · exact (Finset.mem_insert.mp hy).elim (fun heq => Or.inr ⟨xs, heq ▸ hnext⟩) Or.inl
          · exact Or.inr hy

/-- Recursions from one tip after the other, with the same marks. -/
def collectFrom (next : α → Except ε (List α)) (fuel : Nat) (tips : List α) :
    Outcome ε (Finset α) :=
  visitAll (collect (nodesOf next) fuel) (tips.map .node) ∅

/-- **Recursions over nodes** mark what the tips lead to, unless one of these nodes cannot be
read. -/
theorem collectFrom_ends (hR : ∀ x xs, next x = .ok xs → x ∈ R) (tips : List α) :
    ∃ result, (∀ fuel, R.card < fuel → collectFrom next fuel tips = some result) ∧
      ((∃ marks, result = .ok marks ∧ (∀ x, x ∈ marks ↔ Reach (okOrNil next) tips x) ∧
        ∀ x, Reach (okOrNil next) tips x → ∃ xs, next x = .ok xs) ∨
      ∃ e x, result = .error e ∧ Reach (okOrNil next) tips x ∧ next x = .error e) := by
  have hstart : (R \ ∅).card < R.card + 1 := by rw [Finset.sdiff_empty]; exact Nat.lt_succ_self _
  obtain ⟨result, hresult, hrecursed⟩ :=
    visitAll_nodes (fun x (_ : x ∈ tips) marks => collect_nodes hR x) hstart
  refine ⟨result, fun fuel hfuel => visitAll_mono (collect_mono hfuel) hresult, ?_⟩
  cases result with
  | error e =>
    obtain ⟨x, hx, he⟩ := hrecursed
    exact Or.inr ⟨e, x, rfl, hx, he⟩
  | ok marks =>
    have hmem : ∀ x, x ∈ marks ↔ Reach (okOrNil next) tips x := fun x => by
      rw [mem_of_visits_nodes (visitAll_visits hresult) (by simp)]
      simp
    refine Or.inl ⟨marks, rfl, hmem, fun x hx => ?_⟩
    exact (hrecursed.2 x ((hmem x).mpr hx)).resolve_left (Finset.notMem_empty x)

end Mizzle.Lib
