import Mizzle.Lib.NodeWalk

/-!
# Search by levels

A breadth-first search in which every node in the queue has its level: tips are at level one, and
the successors of a node that is taken are put at the next level unless they have been seen. Blocked
nodes are taken and not gone into, and so are nodes at the last level.

`Levels` is what holds of such a search after any number of rounds, for the nodes that were taken
(`done`) and the queue. When the queue is empty the level of a node is one more than the length of a
shortest path to it on which no node is blocked (`Levels.mem_done_iff`).
-/

namespace Mizzle.Lib

variable {α : Type}

/-- There is a path with `n` edges from a tip to the node, and no node on it is blocked. -/
inductive OpenPath (parents : α → List α) (blocked : α → Prop) (tips : List α) : Nat → α → Prop
  | tip {t : α} (ht : t ∈ tips) (hopen : ¬ blocked t) : OpenPath parents blocked tips 0 t
  | step {n : Nat} {c p : α} (h : OpenPath parents blocked tips n c) (hp : p ∈ parents c) (hopen : ¬ blocked p) :
    OpenPath parents blocked tips (n + 1) p

/-- The search comes to the node along `n` edges: a tip, or a successor of what a path leads to. The
node may be blocked. -/
def Offered (parents : α → List α) (blocked : α → Prop) (tips : List α) : Nat → α → Prop
  | 0, c => c ∈ tips
  | n + 1, p => ∃ c, OpenPath parents blocked tips n c ∧ p ∈ parents c

/-- The node is `n` edges away: there is a path of this length, and none that is shorter. -/
def Away (parents : α → List α) (blocked : α → Prop) (tips : List α) (n : Nat) (c : α) : Prop :=
  OpenPath parents blocked tips n c ∧ ∀ m < n, ¬ OpenPath parents blocked tips m c

section Paths

variable {parents : α → List α} {blocked : α → Prop} {tips : List α} {n m : Nat} {c p : α}

theorem openPath_iff :
    OpenPath parents blocked tips n c ↔ Offered parents blocked tips n c ∧ ¬ blocked c := by
  constructor
  · intro h
    cases h with
    | tip ht hopen => exact ⟨ht, hopen⟩
    | step h hp hopen => exact ⟨⟨_, h, hp⟩, hopen⟩
  · rintro ⟨hoffered, hopen⟩
    cases n with
    | zero => exact .tip hoffered hopen
    | succ n =>
      obtain ⟨c', hc', hp⟩ := hoffered
      exact .step hc' hp hopen

theorem OpenPath.not_blocked (h : OpenPath parents blocked tips n c) : ¬ blocked c :=
  (openPath_iff.mp h).2

theorem OpenPath.reach (h : OpenPath parents blocked tips n c) : Reach parents tips c := by
  induction h with
  | tip ht _ => exact reach_self ht
  | step _ hp _ ih => exact reach_step ih hp

theorem OpenPath.exists_away (h : OpenPath parents blocked tips n c) :
    ∃ m ≤ n, Away parents blocked tips m c := by
  classical
  have hex : ∃ m, OpenPath parents blocked tips m c := ⟨n, h⟩
  exact ⟨Nat.find hex, Nat.find_min' hex h, Nat.find_spec hex, fun m hm => Nat.find_min hex hm⟩

theorem Away.unique (h : Away parents blocked tips n c) (h' : Away parents blocked tips m c) :
    n = m := by
  refine le_antisymm (Nat.le_of_not_lt fun hlt => ?_) (Nat.le_of_not_lt fun hlt => ?_)
  · exact h.2 m hlt h'.1
  · exact h'.2 n hlt h.1

end Paths

section Search

/-- A search after some rounds: what was taken and what is in the queue, with levels, and what has
been seen. -/
structure Levels (parents : α → List α) (blocked : α → Prop) (tips : List α) (last : Nat)
    (done queue : List (α × Nat)) (seen : Finset α) : Prop where
  nodup : ((done ++ queue).map Prod.fst).Nodup
  mem_seen : ∀ x, x ∈ seen ↔ x ∈ (done ++ queue).map Prod.fst
  sound : ∀ e ∈ done ++ queue, e.2 ≤ last ∧ ∃ n, e.2 = n + 1 ∧ Offered parents blocked tips n e.1
  sorted : (done ++ queue).Pairwise (·.2 ≤ ·.2)
  near : ∀ e ∈ queue, ∀ e' ∈ queue, e'.2 ≤ e.2 + 1
  tips : ∀ t ∈ tips, (t, 1) ∈ done ++ queue
  closed : ∀ e ∈ done, ¬ blocked e.1 → e.2 < last → ∀ p ∈ parents e.1, ∃ l ≤ e.2 + 1, (p, l) ∈ done ++ queue

namespace Levels

variable {parents : α → List α} {blocked : α → Prop} {tips : List α} {last : Nat} {done queue : List (α × Nat)}
  {seen : Finset α}

/-- **One round**: the first node of the queue is taken, and nodes are added that it leads to. -/
theorem next {c : α} {k : Nat} (h : Levels parents blocked tips last done ((c, k) :: queue) seen)
    {new : List α} {seen' : Finset α} (hnodup : new.Nodup) (hfresh : ∀ x ∈ new, x ∉ seen)
    (hseen : ∀ x, x ∈ seen' ↔ x ∈ seen ∨ x ∈ new)
    (hedge : ∀ x ∈ new, ¬ blocked c ∧ k < last ∧ x ∈ parents c)
    (hall : ¬ blocked c → k < last → ∀ p ∈ parents c, p ∈ seen') :
    Levels parents blocked tips last (done ++ [(c, k)]) (queue ++ new.map (·, k + 1)) seen' := by
  have hlist : done ++ [(c, k)] ++ (queue ++ new.map (·, k + 1)) = done ++ (c, k) :: queue ++ new.map (·, k + 1) := by
    simp only [List.append_assoc, List.cons_append, List.nil_append]
  have hfst : (new.map (·, k + 1)).map Prod.fst = new := by
    rw [List.map_map]
    exact List.map_id _
  -- the levels are between that of the node taken and the next
  have hbefore : ∀ e ∈ done ++ (c, k) :: queue, e.2 ≤ k + 1 := fun e he => by
    rcases List.mem_append.mp he with he | he
    · exact ((List.pairwise_append.mp h.sorted).2.2 e he (c, k) List.mem_cons_self).trans (Nat.le_succ k)
    · exact h.near (c, k) List.mem_cons_self e he
  have hafter : ∀ e ∈ queue, k ≤ e.2 := fun e he =>
    (List.pairwise_cons.mp (List.pairwise_append.mp h.sorted).2.1).1 e he
  have hoffered : ∀ x ∈ new, ∃ n, k + 1 = n + 1 ∧ Offered parents blocked tips n x := fun x hx => by
    obtain ⟨-, n, hn, hc⟩ := h.sound (c, k) (List.mem_append_right _ List.mem_cons_self)
    obtain rfl : k = n + 1 := hn
    exact ⟨n + 1, rfl, c, openPath_iff.mpr ⟨hc, (hedge x hx).1⟩, (hedge x hx).2.2⟩
  refine ⟨?_, fun x => ?_, fun e he => ?_, ?_, ?_, fun t ht => ?_, fun e he hopen hlt p hp => ?_⟩
  · rw [hlist, List.map_append, hfst]
    refine List.nodup_append.mpr ⟨h.nodup, hnodup, ?_⟩
    rintro x hx _ hnew rfl
    exact hfresh x hnew ((h.mem_seen x).mpr hx)
  · rw [hlist, List.map_append, hfst, List.mem_append, hseen, h.mem_seen]
  · rw [hlist] at he
    rcases List.mem_append.mp he with he | he
    · exact h.sound e he
    · obtain ⟨x, hx, rfl⟩ := List.mem_map.mp he
      exact ⟨(hedge x hx).2.1, hoffered x hx⟩
  · rw [hlist]
    refine List.pairwise_append.mpr ⟨h.sorted, List.pairwise_map.mpr (List.pairwise_of_forall fun _ _ => le_rfl), ?_⟩
    intro e he e' he'
    obtain ⟨x, -, rfl⟩ := List.mem_map.mp he'
    exact hbefore e he
  · have hlevel : ∀ e ∈ queue ++ new.map (·, k + 1), k ≤ e.2 ∧ e.2 ≤ k + 1 := fun e he => by
      rcases List.mem_append.mp he with he | he
      · exact ⟨hafter e he, hbefore e (List.mem_append_right _ (List.mem_cons_of_mem _ he))⟩
      · obtain ⟨x, -, rfl⟩ := List.mem_map.mp he
        exact ⟨Nat.le_succ k, le_rfl⟩
    intro e he e' he'
    have := hlevel e he
    have := hlevel e' he'
    omega
  · rw [hlist]
    exact List.mem_append_left _ (h.tips t ht)
  · rw [hlist]
    rcases List.mem_append.mp he with he | he
    · obtain ⟨l, hl, hmem⟩ := h.closed e he hopen hlt p hp
      exact ⟨l, hl, List.mem_append_left _ hmem⟩
    · obtain rfl := List.mem_singleton.mp he
      rcases (hseen p).mp (hall hopen hlt p hp) with hold | hnew
      · obtain ⟨e, he, rfl⟩ := List.mem_map.mp ((h.mem_seen p).mp hold)
        exact ⟨e.2, hbefore e he, List.mem_append_left _ he⟩
      · exact ⟨k + 1, le_rfl, List.mem_append_right _ (List.mem_map.mpr ⟨p, hnew, rfl⟩)⟩

theorem pass {c : α} {k : Nat} (h : Levels parents blocked tips last done ((c, k) :: queue) seen)
    (hstop : blocked c ∨ last ≤ k) :
    Levels parents blocked tips last (done ++ [(c, k)]) queue seen := by
  have hround := @next _ _ _ _ _ _ _ _ _ _ h [] seen List.nodup_nil (List.forall_mem_nil _) (fun x => by simp)
    (List.forall_mem_nil _) fun hopen hlt => absurd hstop (by simp [hopen, hlt])
  simpa using hround

/-! ### When the queue is empty -/

theorem exists_level (h : Levels parents blocked tips last done [] seen) {n : Nat} {c : α}
    (hn : n < last) (hoffered : Offered parents blocked tips n c) : ∃ l ≤ n + 1, (c, l) ∈ done := by
  induction n generalizing c with
  | zero => exact ⟨1, le_rfl, by simpa using h.tips c hoffered⟩
  | succ n ih =>
    obtain ⟨b, hpath, hp⟩ := hoffered
    obtain ⟨hb, hopen⟩ := openPath_iff.mp hpath
    obtain ⟨l, hl, hmem⟩ := ih (by omega) hb
    obtain ⟨l', hl', hmem'⟩ := h.closed (b, l) hmem hopen (by simp only; omega) c hp
    refine ⟨l', by simp only at hl'; omega, by simpa using hmem'⟩

theorem level_unique (h : Levels parents blocked tips last done queue seen) {c : α} {l l' : Nat}
    (hl : (c, l) ∈ done ++ queue) (hl' : (c, l') ∈ done ++ queue) : l = l' := by
  have hinj := List.inj_on_of_nodup_map h.nodup hl hl' rfl
  exact (Prod.mk.inj hinj).2

/-- **The level of a node** that is not blocked is one more than its distance. -/
theorem mem_done_iff (h : Levels parents blocked tips last done [] seen) {c : α} {l : Nat}
    (hopen : ¬ blocked c) :
    (c, l) ∈ done ↔ l ≤ last ∧ ∃ n, l = n + 1 ∧ Away parents blocked tips n c := by
  constructor
  · intro hmem
    obtain ⟨hlast, n, hn, hoffered⟩ := h.sound (c, l) (List.mem_append_left _ hmem)
    simp only at hn hlast
    refine ⟨hlast, n, hn, openPath_iff.mpr ⟨hoffered, hopen⟩, fun m hm hshort => ?_⟩
    obtain ⟨l', hl', hmem'⟩ := h.exists_level (by omega) (openPath_iff.mp hshort).1
    have := h.level_unique (List.mem_append_left _ hmem) (List.mem_append_left _ hmem')
    omega
  · rintro ⟨hlast, n, rfl, hpath, hshortest⟩
    obtain ⟨l, hl, hmem⟩ := h.exists_level (by omega) (openPath_iff.mp hpath).1
    obtain ⟨-, m, hm, hoffered⟩ := h.sound (c, l) (List.mem_append_left _ hmem)
    simp only at hm
    have : ¬ m < n := fun hlt => hshortest m hlt (openPath_iff.mpr ⟨hoffered, hopen⟩)
    obtain rfl : l = n + 1 := by omega
    exact hmem

/-! ### The rounds of a loop -/

variable [DecidableEq α]

theorem mem_visitItems_marks {xs : List α} {marks : Finset α} {x : α} :
    x ∈ (visitItems ∅ (xs.map .node) marks).1 ↔ x ∈ marks ∨ x ∈ xs := by
  induction xs generalizing marks with
  | nil => simp [visitItems]
  | cons y xs ih =>
    rw [List.map_cons, visitItems, visitItem, List.mem_cons]
    split
    · rename_i hy
      rw [ih]
      constructor
      · exact Or.imp_right Or.inr
      · rintro (hx | rfl | hx)
        · exact Or.inl hx
        · exact Or.inl (hy.resolve_left (Finset.notMem_empty x))
        · exact Or.inr hx
    · rw [ih, Finset.mem_insert]
      tauto

theorem start (hlast : 1 ≤ last) :
    Levels parents blocked tips last [] ((visitItems ∅ (tips.map .node) ∅).2.map (·, 1))
      (visitItems ∅ (tips.map .node) ∅).1 := by
  have hfst : ((visitItems ∅ (tips.map .node) ∅).2.map (·, 1)).map Prod.fst = (visitItems ∅ (tips.map .node) ∅).2 := by
    rw [List.map_map]
    exact List.map_id _
  have hmem : ∀ x, x ∈ (visitItems ∅ (tips.map .node) ∅).2 ↔ x ∈ tips := fun x => by
    rw [mem_visitItems_nodes, mem_visitItems_marks]
    simp
  refine ⟨?_, fun x => ?_, fun e he => ?_, ?_, fun e he e' he' => ?_, fun t ht => ?_, fun e he => ?_⟩
  · rw [List.nil_append, hfst]
    exact (visitItems_new ∅).1
  · rw [List.nil_append, hfst, mem_visitItems_nodes]
    simp
  · obtain ⟨x, hx, rfl⟩ := List.mem_map.mp he
    exact ⟨hlast, 0, rfl, (hmem x).mp hx⟩
  · exact List.pairwise_map.mpr (List.pairwise_of_forall fun _ _ => le_rfl)
  · obtain ⟨x, -, rfl⟩ := List.mem_map.mp he
    obtain ⟨x', -, rfl⟩ := List.mem_map.mp he'
    exact Nat.le_succ 1
  · exact List.mem_map.mpr ⟨t, (hmem t).mpr ht, rfl⟩
  · exact absurd he List.not_mem_nil

theorem enter {c : α} {k : Nat} (h : Levels parents blocked tips last done ((c, k) :: queue) seen)
    (hopen : ¬ blocked c) (hlt : k < last) :
    Levels parents blocked tips last (done ++ [(c, k)])
      (queue ++ (visitItems ∅ ((parents c).map .node) seen).2.map (·, k + 1))
        (visitItems ∅ ((parents c).map .node) seen).1 := by
  obtain ⟨hnodup, hnew⟩ := @visitItems_new _ _ ∅ ((parents c).map .node) seen
  refine h.next hnodup (fun x hx => (hnew x hx).1) (fun x => ?_) (fun x hx => ⟨hopen, hlt, ?_⟩) fun _ _ p hp => ?_
  · rw [mem_visitItems_nodes, mem_visitItems_marks]
    tauto
  · simpa using node_of_mem_visitItems hx
  · exact mem_visitItems_marks.mpr (Or.inr hp)

end Levels

end Search

end Mizzle.Lib
