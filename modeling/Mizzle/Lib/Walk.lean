import Mizzle.Lib.Reach

/-!
# Breadth-first search

The search that a server runs over stored parent lists: a queue, a set of nodes already seen, and a
lookup of successors that may fail. It stops at the first successor equal to the target.
`searchStep` is one round, which may run at a different time than the next one; `search` runs round
after round, with fuel for the number of rounds, and `none` is running out of it.

A search that has answered is right (`search_true`, `search_false`), and it answers whenever the
fuel covers the nodes that can be reached (`search_ne_none`). The second half is the search without
a set of seen nodes, which is how a recursive query enumerates its rows; it is right when it answers
(`enumerate_true`), and without a target it gives what the start reaches (`mem_rows`).
-/

namespace Mizzle.Lib

variable {α ε : Type*}

/-- The successor lists of a lookup that may fail: a failing node has none. -/
def okOrNil (next : α → Except ε (List α)) (x : α) : List α :=
  match next x with
  | .ok ps => ps
  | .error _ => []

theorem okOrNil_ok {next : α → Except ε (List α)} {x : α} {ps : List α} (h : next x = .ok ps) :
    okOrNil next x = ps := by rw [okOrNil, h]

variable [DecidableEq α]

/-- The successors of one node are put in the queue unless seen; `none` when the target is among
them. -/
def visit (target : α) : List α → List α → List α → Option (List α × List α)
  | [], seen, queue => some (seen, queue)
  | p :: ps, seen, queue =>
    if p = target then none
    else if p ∈ seen then visit target ps seen queue
    else visit target ps (p :: seen) (queue ++ [p])

/-- What one round of the search comes to: an answer, or the nodes seen and the queue. -/
inductive Progress (α ε : Type*) where
  | done (result : Except ε Bool)
  | more (seen queue : List α)

/-- One round: take a node from the queue and visit its successors. -/
def searchStep (next : α → Except ε (List α)) (target : α) (seen : List α) : List α → Progress α ε
  | [] => .done (.ok false)
  | x :: queue =>
    match next x with
    | .error e => .done (.error e)
    | .ok ps =>
      match visit target ps seen queue with
      | none => .done (.ok true)
      | some (seen, queue) => .more seen queue

def search (next : α → Except ε (List α)) (target : α) :
    Nat → List α → List α → Option (Except ε Bool)
  | 0, _, _ => none
  | fuel + 1, seen, queue =>
    match searchStep next target seen queue with
    | .done result => some result
    | .more seen queue => search next target fuel seen queue

/-! ### One node -/

theorem visit_none {target : α} {ps seen queue : List α} (h : visit target ps seen queue = none) :
    target ∈ ps := by
  induction ps generalizing seen queue with
  | nil => simp [visit] at h
  | cons p ps ih =>
    rw [visit] at h
    split at h
    · rename_i heq
      exact heq ▸ List.mem_cons_self
    · split at h <;> exact List.mem_cons_of_mem _ (ih h)

theorem visit_some {target : α} {ps seen queue seen' queue' : List α}
    (h : visit target ps seen queue = some (seen', queue')) :
    target ∉ ps ∧ ∃ new, seen' = new.reverse ++ seen ∧ queue' = queue ++ new ∧ new.Nodup ∧
      (∀ p ∈ new, p ∈ ps ∧ p ∉ seen) ∧ ∀ p ∈ ps, p ∈ seen' := by
  induction ps generalizing seen queue with
  | nil =>
    obtain ⟨rfl, rfl⟩ := Prod.mk.inj (Option.some.inj h)
    exact ⟨List.not_mem_nil, [], by simp⟩
  | cons p ps ih =>
    rw [visit] at h
    split at h
    · simp at h
    · rename_i hp
      have hmiss : target ∉ ps → target ∉ p :: ps := fun hps hmem => by
        rcases List.mem_cons.mp hmem with heq | hmem
        · exact hp heq.symm
        · exact hps hmem
      split at h
      · rename_i hseen
        obtain ⟨hps, new, rfl, rfl, hnodup, hnew, hall⟩ := ih h
        refine ⟨hmiss hps, new, rfl, rfl, hnodup,
          fun q hq => ⟨List.mem_cons_of_mem _ (hnew q hq).1, (hnew q hq).2⟩, fun q hq => ?_⟩
        rcases List.mem_cons.mp hq with rfl | hq
        · exact List.mem_append_right _ hseen
        · exact hall q hq
      · rename_i hseen
        obtain ⟨hps, new, rfl, rfl, hnodup, hnew, hall⟩ := ih h
        have hfresh : p ∉ new := fun hmem => (hnew p hmem).2 List.mem_cons_self
        refine ⟨hmiss hps, p :: new, by simp, by simp, List.nodup_cons.mpr ⟨hfresh, hnodup⟩,
          fun q hq => ?_, fun q hq => ?_⟩
        · rcases List.mem_cons.mp hq with rfl | hq
          · exact ⟨List.mem_cons_self, hseen⟩
          · exact ⟨List.mem_cons_of_mem _ (hnew q hq).1, fun hmem => (hnew q hq).2 (List.mem_cons_of_mem _ hmem)⟩
        · rcases List.mem_cons.mp hq with rfl | hq
          · simp
          · exact hall q hq

/-! ### One round -/

variable {next : α → Except ε (List α)} {target : α}

variable {seen queue : List α} {fuel : Nat}

theorem searchStep_done_true (h : searchStep next target seen queue = .done (.ok true)) :
    ∃ x ∈ queue, Edge (okOrNil next) x target := by
  cases queue with
  | nil => simp [searchStep] at h
  | cons x queue =>
    rw [searchStep] at h
    split at h
    · simp at h
    · rename_i ps hnext
      split at h
      · rename_i hvisit
        refine ⟨x, List.mem_cons_self, ?_⟩
        rw [Edge, okOrNil_ok hnext]
        exact visit_none hvisit
      · simp at h

theorem searchStep_done_error {e : ε} (h : searchStep next target seen queue = .done (.error e)) :
    ∃ x, next x = .error e := by
  cases queue with
  | nil => simp [searchStep] at h
  | cons x queue =>
    rw [searchStep] at h
    split at h
    · rename_i e' hnext
      cases h
      exact ⟨x, hnext⟩
    · split at h <;> cases h

theorem searchStep_more {seen queue seen' queue' : List α}
    (h : searchStep next target seen queue = .more seen' queue') :
    ∃ x rest ps, queue = x :: rest ∧ next x = .ok ps ∧ visit target ps seen rest =
      some (seen', queue') := by
  cases queue with
  | nil => simp [searchStep] at h
  | cons x queue =>
    rw [searchStep] at h
    split at h
    · simp at h
    · rename_i ps hnext
      split at h
      · simp at h
      · rename_i s q hvisit
        obtain ⟨rfl, rfl⟩ : s = seen' ∧ q = queue' := by simpa using h
        exact ⟨x, queue, ps, rfl, hnext, hvisit⟩

theorem searchStep_queue {seen queue seen' queue' : List α}
    (h : searchStep next target seen queue = .more seen' queue') {y : α} (hy : y ∈ queue') :
    y ∈ queue ∨ ∃ x ∈ queue, Edge (okOrNil next) x y := by
  obtain ⟨x, rest, ps, rfl, hnext, hvisit⟩ := searchStep_more h
  obtain ⟨-, new, -, rfl, -, hnew, -⟩ := visit_some hvisit
  rcases List.mem_append.mp hy with hy | hy
  · exact Or.inl (List.mem_cons_of_mem _ hy)
  · refine Or.inr ⟨x, List.mem_cons_self, ?_⟩
    rw [Edge, okOrNil_ok hnext]
    exact (hnew y hy).1

/-! ### The search -/

theorem search_true (h : search next target fuel seen queue = some (.ok true)) :
    ∃ x ∈ queue, Relation.TransGen (Edge (okOrNil next)) x target := by
  induction fuel generalizing seen queue with
  | zero => simp [search] at h
  | succ fuel ih =>
    rw [search] at h
    split at h
    · rename_i result hstep
      cases h
      obtain ⟨x, hx, hedge⟩ := searchStep_done_true hstep
      exact ⟨x, hx, .single hedge⟩
    · rename_i seen' queue' hstep
      obtain ⟨y, hy, hpath⟩ := ih h
      rcases searchStep_queue hstep hy with hmem | ⟨x, hx, hedge⟩
      · exact ⟨y, hmem, hpath⟩
      · exact ⟨x, hx, .head hedge hpath⟩

/-- Every seen node is waiting in the queue or has all its successors among the seen ones. -/
def Expanded (next : α → Except ε (List α)) (seen queue : List α) : Prop :=
  ∀ x ∈ seen, x ∈ queue ∨ ∃ ps, next x = .ok ps ∧ ∀ p ∈ ps, p ∈ seen

theorem expanded_visit {x : α} {seen queue seen' queue' ps : List α}
    (hinv : Expanded next seen (x :: queue)) (hnext : next x = .ok ps)
    (hvisit : visit target ps seen queue = some (seen', queue')) : Expanded next seen' queue' := by
  obtain ⟨-, new, rfl, rfl, -, -, hall⟩ := visit_some hvisit
  intro y hy
  rcases List.mem_append.mp hy with hy | hy
  · exact Or.inl (List.mem_append_right _ (List.mem_reverse.mp hy))
  · rcases hinv y hy with hqueue | ⟨qs, hqs, hsub⟩
    · rcases List.mem_cons.mp hqueue with rfl | hqueue
      · exact Or.inr ⟨ps, hnext, hall⟩
      · exact Or.inl (List.mem_append_left _ hqueue)
    · exact Or.inr ⟨qs, hqs, fun p hp => List.mem_append_right _ (hsub p hp)⟩

omit [DecidableEq α] in
theorem not_reach_of_expanded {seen : List α} (hinv : Expanded next seen [])
    (htarget : target ∉ seen) :
    ∀ x ∈ seen, ¬ Relation.ReflTransGen (Edge (okOrNil next)) x target := by
  intro x hx hpath
  induction hpath using Relation.ReflTransGen.head_induction_on with
  | refl => exact htarget hx
  | head hedge _ ih =>
    rcases hinv _ hx with hqueue | ⟨ps, hnext, hsub⟩
    · exact List.not_mem_nil hqueue
    · rw [Edge, okOrNil_ok hnext] at hedge
      exact ih (hsub _ hedge)

theorem searchStep_done_false (h : searchStep next target seen queue = .done (.ok false)) :
    queue = [] := by
  cases queue with
  | nil => rfl
  | cons x queue =>
    rw [searchStep] at h
    split at h
    · simp at h
    · split at h <;> simp at h

theorem search_false (hinv : Expanded next seen queue) (htarget : target ∉ seen)
    (h : search next target fuel seen queue = some (.ok false)) :
    ∀ x ∈ seen, ¬ Relation.ReflTransGen (Edge (okOrNil next)) x target := by
  induction fuel generalizing seen queue with
  | zero => simp [search] at h
  | succ fuel ih =>
    rw [search] at h
    split at h
    · rename_i result hstep
      cases h
      obtain rfl := searchStep_done_false hstep
      exact not_reach_of_expanded hinv htarget
    · rename_i seen' queue' hstep
      obtain ⟨x, rest, ps, rfl, hnext, hvisit⟩ := searchStep_more hstep
      obtain ⟨hps, new, hseen', -, -, hnew, -⟩ := visit_some hvisit
      have hmiss : target ∉ seen' := by
        rw [hseen', List.mem_append, List.mem_reverse]
        rintro (hmem | hmem)
        · exact hps (hnew _ hmem).1
        · exact htarget hmem
      intro y hy
      exact ih (expanded_visit hinv hnext hvisit) hmiss h y (by simp [hseen', hy])

theorem search_ne_none (univ : List α) (huniv : ∀ x ps, next x = .ok ps → ∀ p ∈ ps, p ∈ univ)
    (hnodup : seen.Nodup) (hsub : ∀ x ∈ seen, x ∈ univ)
    (hfuel : queue.length + (univ.length - seen.length) < fuel) :
    search next target fuel seen queue ≠ none := by
  induction fuel generalizing seen queue with
  | zero => omega
  | succ fuel ih =>
    rw [search]
    split
    · simp
    · rename_i seen' queue' hstep
      obtain ⟨x, rest, ps, rfl, hnext, hvisit⟩ := searchStep_more hstep
      obtain ⟨-, new, rfl, rfl, hnew_nodup, hnew, -⟩ := visit_some hvisit
      have hnodup' : (new.reverse ++ seen).Nodup :=
        List.nodup_append.mpr ⟨List.nodup_reverse.mpr hnew_nodup, hnodup,
          fun a ha b hb heq => (hnew a (List.mem_reverse.mp ha)).2 (heq ▸ hb)⟩
      have hsub' : ∀ y ∈ new.reverse ++ seen, y ∈ univ := by
        intro y hy
        rcases List.mem_append.mp hy with hy | hy
        · exact huniv x ps hnext y (hnew y (List.mem_reverse.mp hy)).1
        · exact hsub y hy
      have hlen := (List.subperm_of_subset hnodup' hsub').length_le
      refine ih hnodup' hsub' ?_
      simp only [List.length_append, List.length_reverse, List.length_cons] at hfuel hlen ⊢
      omega

theorem search_error {e : ε} (h : search next target fuel seen queue = some (.error e)) :
    ∃ x, next x = .error e := by
  induction fuel generalizing seen queue with
  | zero => simp [search] at h
  | succ fuel ih =>
    rw [search] at h
    split at h
    · rename_i result hstep
      cases h
      exact searchStep_done_error hstep
    · exact ih h

/-! ### Enumeration without a set of seen nodes -/

/-- The rows of a recursive query one after the other, until the target or the end. -/
def enumerate (next : α → List α) (target : α) : Nat → List α → Option Bool
  | _, [] => some false
  | 0, _ :: _ => none
  | fuel + 1, x :: queue => if x = target then some true else enumerate next target fuel (queue ++ next x)

theorem enumerate_true {next : α → List α} {queue : List α}
    (h : enumerate next target fuel queue = some true) : Reach next queue target := by
  induction fuel generalizing queue with
  | zero => cases queue <;> simp [enumerate] at h
  | succ fuel ih =>
    cases queue with
    | nil => simp [enumerate] at h
    | cons x queue =>
      rw [enumerate] at h
      split at h
      · rename_i heq
        exact reach_self (heq ▸ List.mem_cons_self)
      · obtain ⟨y, hy, hpath⟩ := ih h
        rcases List.mem_append.mp hy with hy | hy
        · exact ⟨y, List.mem_cons_of_mem _ hy, hpath⟩
        · exact ⟨x, List.mem_cons_self, .head hy hpath⟩

/-- All rows of a recursive query, a node once for every way to it. -/
def rows (next : α → List α) : Nat → List α → Option (List α)
  | _, [] => some []
  | 0, _ :: _ => none
  | fuel + 1, x :: queue => (rows next fuel (queue ++ next x)).map (x :: ·)

omit [DecidableEq α] in
theorem reach_cons_iff {next : α → List α} {x y : α} {queue : List α} :
    Reach next (x :: queue) y ↔ y = x ∨ Reach next (queue ++ next x) y := by
  constructor
  · rintro ⟨t, ht, hpath⟩
    rcases List.mem_cons.mp ht with rfl | ht
    · rcases Relation.ReflTransGen.cases_head hpath with rfl | ⟨z, hedge, hpath⟩
      · exact Or.inl rfl
      · exact Or.inr ⟨z, List.mem_append_right _ hedge, hpath⟩
    · exact Or.inr ⟨t, List.mem_append_left _ ht, hpath⟩
  · rintro (rfl | ⟨t, ht, hpath⟩)
    · exact reach_self List.mem_cons_self
    · rcases List.mem_append.mp ht with ht | ht
      · exact ⟨t, List.mem_cons_of_mem _ ht, hpath⟩
      · exact ⟨x, List.mem_cons_self, .head ht hpath⟩

omit [DecidableEq α] in
theorem mem_rows {next : α → List α} {queue xs : List α} (h : rows next fuel queue = some xs)
    (x : α) : x ∈ xs ↔ Reach next queue x := by
  induction fuel generalizing queue xs with
  | zero =>
    cases queue with
    | nil =>
      cases h
      simp
    | cons => simp [rows] at h
  | succ fuel ih =>
    cases queue with
    | nil =>
      cases h
      simp
    | cons y queue =>
      rw [rows, Option.map_eq_some_iff] at h
      obtain ⟨ys, hys, rfl⟩ := h
      rw [List.mem_cons, ih hys, reach_cons_iff]

omit [DecidableEq α] in
theorem rows_answers {next : α → List α} {cost : α → Nat}
    (hcost : ∀ x, cost x = 1 + ((next x).map cost).sum) {queue : List α}
    (hfuel : (queue.map cost).sum ≤ fuel) : ∃ xs, rows next fuel queue = some xs := by
  induction fuel generalizing queue with
  | zero =>
    cases queue with
    | nil => exact ⟨[], rfl⟩
    | cons x queue =>
      have hx := hcost x
      rw [List.map_cons, List.sum_cons] at hfuel
      omega
  | succ fuel ih =>
    cases queue with
    | nil => exact ⟨[], rfl⟩
    | cons x queue =>
      have hx := hcost x
      rw [List.map_cons, List.sum_cons] at hfuel
      obtain ⟨xs, hxs⟩ := @ih (queue ++ next x) (by rw [List.map_append, List.sum_append]; omega)
      exact ⟨x :: xs, by rw [rows, hxs, Option.map_some]⟩

omit [DecidableEq α] in
theorem exists_cost {next : α → List α} (hwf : WellFounded fun y x => y ∈ next x) :
    ∃ cost : α → Nat, ∀ x, cost x = 1 + ((next x).map cost).sum := by
  refine ⟨hwf.fix fun x go => 1 + ((next x).attach.map fun y => go y.1 y.2).sum, fun x => ?_⟩
  rw [hwf.fix_eq]
  congr 2
  rw [List.map_attach_eq_pmap, List.pmap_eq_map]

omit [DecidableEq α] in
theorem wellFounded_of_acyclic {next : α → List α} (hacyclic : Acyclic next) {R : Finset α}
    (hR : ∀ x y, y ∈ next x → x ∈ R) : WellFounded fun y x => y ∈ next x := by
  have hstrict : IsStrictOrder α fun y x => Relation.TransGen (Edge next) x y :=
    { irrefl := hacyclic, trans := fun _ _ _ hab hbc => hbc.trans hab }
  have hfinite : (R : Set α).WellFoundedOn fun y x => Relation.TransGen (Edge next) x y := R.finite_toSet.wellFoundedOn
  have hleaf : ∀ x, x ∉ R → Acc (fun y x => y ∈ next x) x := fun x hx => ⟨x, fun y hy => absurd (hR x y hy) hx⟩
  refine ⟨fun x => ?_⟩
  by_cases hx : x ∈ R
  · refine hfinite.induction hx fun x hx ih => ⟨x, fun y hy => ?_⟩
    by_cases hyR : y ∈ R
    · exact ih y hyR (.single hy)
    · exact hleaf y hyR
  · exact hleaf x hx

omit [DecidableEq α] in
theorem rows_congr {next next' : α → List α} {R : α → Prop} (hsame : ∀ x, R x → next x = next' x)
    (hclosed : ∀ x, R x → ∀ y ∈ next x, R y) (fuel : Nat) {queue : List α}
    (hqueue : ∀ x ∈ queue, R x) : rows next fuel queue = rows next' fuel queue := by
  induction fuel generalizing queue with
  | zero => cases queue <;> rfl
  | succ fuel ih =>
    cases queue with
    | nil => rfl
    | cons x queue =>
      have hx : R x := hqueue x List.mem_cons_self
      have hrest : ∀ y ∈ queue ++ next x, R y := by
        intro y hy
        rcases List.mem_append.mp hy with hy | hy
        · exact hqueue y (List.mem_cons_of_mem _ hy)
        · exact hclosed x hx y hy
      rw [rows, rows, ← hsame x hx, ih hrest]

end Mizzle.Lib
