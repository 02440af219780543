import Mizzle.Lib.Levels
import Mizzle.Pack.Builders

/-!
# Fetches with a depth

`depth_limited_commits` of `mizzle/src/pack.rs` as a search by levels. It returns the commits that
are fewer edges than the depth away from a want, on paths that avoid the haves, and whatever it
returns without marking it as shallow has its parents returned or in the have list
(`depthLimitedCommits_exact`).

A commit at the last level is marked as soon as it has a parent. `PackObjects::shallow` is
documented as the commits whose parents are not in the pack, but a parent may be a have, or may be
returned because another want is closer to it; `shallow_cut_iff` says when no such commit is
marked.
-/

namespace Mizzle.Pack

open Lib

variable {p : Parser} {odb : Odb} {o : Objects} {wants haves : List ObjectId} {depth : Nat}

/-- What a search has returned, from the commits it has taken. -/
def returned (haves : List ObjectId) (done : List (ObjectId × Nat)) : List ObjectId :=
  (done.filter fun e => e.1 ∉ haves).map Prod.fst

/-- What a search has marked as shallow. -/
def marked (o : Objects) (haves : List ObjectId) (depth : Nat) (done : List (ObjectId × Nat)) :
    List ObjectId :=
  (done.filter fun e => e.1 ∉ haves ∧ depth ≤ e.2 ∧ o.parents e.1 ≠ []).map Prod.fst

variable {c : ObjectId}

theorem mem_returned {done : List (ObjectId × Nat)} :
    c ∈ returned haves done ↔ c ∉ haves ∧ ∃ l, (c, l) ∈ done := by
  simp [returned, and_comm]

theorem mem_marked {done : List (ObjectId × Nat)} :
    c ∈ marked o haves depth done ↔ c ∉ haves ∧ o.parents c ≠ [] ∧ ∃ l, depth ≤ l ∧
      (c, l) ∈ done := by
  simp only [marked, List.mem_map, List.mem_filter, decide_eq_true_eq, Prod.exists, exists_and_right, exists_eq_right]
  constructor
  · rintro ⟨l, hmem, hnot, hl, hparents⟩
    exact ⟨hnot, hparents, l, hl, hmem⟩
  · rintro ⟨hnot, hparents, l, hl, hmem⟩
    exact ⟨l, hmem, hnot, hl, hparents⟩

/-- The search by levels that `depth_limited_commits` is. -/
abbrev Search (o : Objects) (wants haves : List ObjectId) (depth : Nat) :=
  Levels o.parents (· ∈ haves) wants depth

namespace Odb.Stores

theorem parentsOf_eq (h : odb.Stores p o) (hc : o.IsCommit c) :
    parentsOf p odb c = .ok (o.parents c) := by
  obtain ⟨t, ps, hfind⟩ := hc
  obtain ⟨kind, data, htry, -, -, -, hparents⟩ := h.found hfind
  rw [parentsOf, htry, Objects.parents_of_find hfind, GitObject.parents]
  exact congrArg Except.ok hparents

/-- **The loop is a search by levels**, and ends. -/
theorem depthLoop_done (h : odb.Stores p o) (hclosed : o.Closed) {fuel : Nat}
    {done queue : List (ObjectId × Nat)} {seen : Finset ObjectId}
    (hlevels : Search o wants haves depth done queue seen) (hqueue : ∀ e ∈ queue, o.IsCommit e.1)
    (hfuel : queue.length + (o.oids \ seen).card ≤ fuel) :
    ∃ done' seen', depthLoop p odb haves depth fuel queue seen (returned haves done)
      (marked o haves depth done) =
      Outcome.done (returned haves done', marked o haves depth done') ∧ Search o wants haves depth done' [] seen' := by
  induction fuel generalizing done queue seen with
  | zero =>
    obtain rfl : queue = [] := List.length_eq_zero_iff.mp (by omega)
    exact ⟨done, seen, rfl, hlevels⟩
  | succ fuel ih =>
    match queue with
    | [] => exact ⟨done, seen, rfl, hlevels⟩
    | (c, k) :: queue =>
      obtain ⟨hc, hrest⟩ := List.forall_mem_cons.mp hqueue
      rw [List.length_cons] at hfuel
      by_cases hhave : c ∈ haves
      · obtain ⟨done', seen', hloop, hend⟩ := ih (hlevels.pass (Or.inl hhave)) hrest (by omega)
        refine ⟨done', seen', ?_, hend⟩
        rw [depthLoop, if_pos hhave, ← hloop]
        simp [returned, marked, hhave]
      · rw [depthLoop, if_neg hhave, h.parentsOf_eq hc]
        by_cases hlast : depth ≤ k
        · obtain ⟨done', seen', hloop, hend⟩ := ih (hlevels.pass (Or.inr hlast)) hrest (by omega)
          refine ⟨done', seen', (if_pos hlast).trans (Eq.trans ?_ hloop), hend⟩
          by_cases hroot : o.parents c = [] <;> simp [returned, marked, hhave, hlast, hroot]
        · have hcard := @card_visitItems _ _ ∅ o.oids ((o.parents c).map .node) seen fun x hx =>
            (hclosed.parents_mem_oids c x (by simpa using hx)).2
          obtain ⟨done', seen', hloop, hend⟩ := ih (hlevels.enter hhave (Nat.lt_of_not_le hlast))
            (List.forall_mem_append.mpr ⟨hrest, fun e he => by
              obtain ⟨x, hx, rfl⟩ := List.mem_map.mp he
              exact hclosed.isCommit_parent (by simpa using node_of_mem_visitItems hx)⟩)
            (by rw [List.length_append, List.length_map]; omega)
          refine ⟨done', seen', (if_neg hlast).trans (Eq.trans ?_ hloop), hend⟩
          simp [returned, marked, hhave, hlast]

theorem depthLimitedCommits_done (h : odb.Stores p o) (hclosed : o.Closed)
    (hwants : ∀ w ∈ wants, o.IsCommit w) (hdepth : 1 ≤ depth) {fuel : Nat}
    (hfuel : o.oids.card ≤ fuel) :
    ∃ done seen, depthLimitedCommits p odb fuel wants haves depth =
      Outcome.done (returned haves done, marked o haves depth done) ∧ Search o wants haves depth done [] seen := by
  have hcard := @card_visitItems _ _ ∅ o.oids (wants.map .node) ∅ fun x hx => by
    obtain ⟨t, ps, hfind⟩ := hwants x (by simpa using hx)
    exact o.mem_oids x _ hfind
  have hsub := Finset.card_le_card (Finset.sdiff_subset : o.oids \ ∅ ⊆ o.oids)
  refine h.depthLoop_done hclosed (Levels.start hdepth) (fun e he => ?_) (by rw [List.length_map]; omega)
  obtain ⟨x, hx, rfl⟩ := List.mem_map.mp he
  exact hwants x (by simpa using node_of_mem_visitItems hx)

end Odb.Stores

/-! ### What is returned -/

/-- A path from a want with fewer edges than the depth, on which no commit is a have. -/
def Within (o : Objects) (wants haves : List ObjectId) (depth : Nat) (c : ObjectId) : Prop :=
  ∃ n < depth, OpenPath o.parents (· ∈ haves) wants n c

namespace SearchEnd

variable {done : List (ObjectId × Nat)} {seen : Finset ObjectId}

theorem mem_returned_iff (h : Search o wants haves depth done [] seen) :
    c ∈ returned haves done ↔ Within o wants haves depth c := by
  rw [mem_returned]
  constructor
  · rintro ⟨hnot, l, hmem⟩
    obtain ⟨hl, n, rfl, haway⟩ := (h.mem_done_iff hnot).mp hmem
    exact ⟨n, hl, haway.1⟩
  · rintro ⟨n, hn, hpath⟩
    obtain ⟨m, hm, haway⟩ := hpath.exists_away
    exact ⟨hpath.not_blocked, m + 1, (h.mem_done_iff hpath.not_blocked).mpr ⟨by omega, m, rfl, haway⟩⟩

theorem mem_marked_iff (h : Search o wants haves depth done [] seen) (hdepth : 1 ≤ depth) :
    c ∈ marked o haves depth done ↔ o.parents c ≠ [] ∧
      Away o.parents (· ∈ haves) wants (depth - 1) c := by
  rw [mem_marked]
  constructor
  · rintro ⟨hnot, hparents, l, hl, hmem⟩
    obtain ⟨hl', n, rfl, haway⟩ := (h.mem_done_iff hnot).mp hmem
    obtain rfl : n = depth - 1 := by omega
    exact ⟨hparents, haway⟩
  · rintro ⟨hparents, haway⟩
    have hnot := haway.1.not_blocked
    exact ⟨hnot, hparents, depth, le_rfl, (h.mem_done_iff hnot).mpr ⟨le_rfl, depth - 1, by omega, haway⟩⟩

theorem returned_nodup (h : Search o wants haves depth done [] seen) :
    (returned haves done).Nodup := by
  have hnodup := h.nodup
  rw [List.append_nil] at hnodup
  exact hnodup.sublist (List.filter_sublist.map _)

theorem parent_of_not_marked (h : Search o wants haves depth done [] seen) {c q : ObjectId}
    (hc : c ∈ returned haves done) (hmark : c ∉ marked o haves depth done) (hq : q ∈ o.parents c) :
    q ∈ returned haves done ∨ q ∈ haves := by
  obtain ⟨hnot, l, hmem⟩ := mem_returned.mp hc
  have hl : l < depth := by
    by_contra hge
    exact hmark (mem_marked.mpr ⟨hnot, List.ne_nil_of_mem hq, l, Nat.le_of_not_lt hge, hmem⟩)
  obtain ⟨l', -, hmem'⟩ := h.closed (c, l) hmem hnot hl q hq
  rw [List.append_nil] at hmem'
  by_cases hhave : q ∈ haves
  · exact Or.inr hhave
  · exact Or.inl (mem_returned.mpr ⟨hhave, l', hmem'⟩)

end SearchEnd

theorem depth_ends (h : odb.Stores p o) (hclosed : o.Closed) (hwants : ∀ w ∈ wants, o.IsCommit w)
    (hdepth : 1 ≤ depth) :
    Outcome.Ends (fun fuel => depthLimitedCommits p odb fuel wants haves depth) fun r =>
      ∃ done seen, r = (returned haves done, marked o haves depth done) ∧ Search o wants haves depth done [] seen := by
  refine ⟨o.oids.card, fun fuel hfuel => ?_⟩
  obtain ⟨done, seen, hrun, hend⟩ := h.depthLimitedCommits_done hclosed hwants hdepth hfuel
  exact ⟨_, hrun, done, seen, rfl, hend⟩

/-- **A fetch with a depth returns exactly the commits within it**, each once, and what is not
marked as shallow keeps its parents. -/
theorem depthLimitedCommits_exact (h : odb.Stores p o) (hclosed : o.Closed)
    (hwants : ∀ w ∈ wants, o.IsCommit w) (hdepth : 1 ≤ depth) :
    Outcome.Ends (fun fuel => depthLimitedCommits p odb fuel wants haves depth) fun r =>
      r.1.Nodup ∧ (∀ c, c ∈ r.1 ↔ Within o wants haves depth c) ∧
        ∀ c ∈ r.1, c ∉ r.2 → ∀ q ∈ o.parents c, q ∈ r.1 ∨ q ∈ haves := by
  refine (depth_ends h hclosed hwants hdepth).imp ?_
  rintro _ ⟨done, seen, rfl, hend⟩
  exact ⟨SearchEnd.returned_nodup hend, fun c => SearchEnd.mem_returned_iff hend,
    fun c hc hmark q hq => SearchEnd.parent_of_not_marked hend hc hmark hq⟩

theorem depthLimitedCommits_exact_linearStore :
    Outcome.Ends (fun fuel => depthLimitedCommits linearStore.parser linearStore.odb fuel [.fill 2]
      [] 1) fun r =>
      r.1.Nodup ∧ (∀ c, c ∈ r.1 ↔ Within linearStore [.fill 2] [] 1 c) ∧
        ∀ c ∈ r.1, c ∉ r.2 → ∀ q ∈ linearStore.parents c, q ∈ r.1 ∨ q ∈ ([] : List ObjectId) := by
  exact depthLimitedCommits_exact (Objects.stores_odb closed_linearStore) closed_linearStore
    (by decide +kernel) le_rfl

/-! ### What is marked -/

/-- Every commit that is marked has a parent that is omitted. -/
def OnlyCut (o : Objects) (haves : List ObjectId) (r : List ObjectId × List ObjectId) : Prop :=
  ∀ c ∈ r.2, ∃ q ∈ o.parents c, q ∉ r.1 ∧ q ∉ haves

instance (o : Objects) (haves : List ObjectId) : DecidablePred (OnlyCut o haves) :=
  fun r => inferInstanceAs (Decidable (∀ c ∈ r.2, ∃ q ∈ o.parents c, q ∉ r.1 ∧ q ∉ haves))

/-- **When only cut commits are marked**: every commit at the last level that has parents has one
beyond it. -/
theorem shallow_cut_iff (h : odb.Stores p o) (hclosed : o.Closed)
    (hwants : ∀ w ∈ wants, o.IsCommit w) (hdepth : 1 ≤ depth) :
    Outcome.Ends (fun fuel => depthLimitedCommits p odb fuel wants haves depth) (OnlyCut o haves) ↔
      ∀ c, Away o.parents (· ∈ haves) wants (depth - 1) c → o.parents c ≠ [] →
        ∃ q ∈ o.parents c, Away o.parents (· ∈ haves) wants depth q := by
  refine (depth_ends h hclosed hwants hdepth).ends_iff ?_
  rintro _ ⟨done, seen, rfl, hend⟩
  -- a parent beyond the last level is one that is neither returned nor had
  have hbeyond : ∀ c, Away o.parents (· ∈ haves) wants (depth - 1) c → ∀ q ∈ o.parents c,
      (Away o.parents (· ∈ haves) wants depth q ↔ q ∉ returned haves done ∧ q ∉ haves) := by
    intro c haway q hq
    rw [SearchEnd.mem_returned_iff hend]
    constructor
    · intro hq
      exact ⟨fun ⟨n, hn, hpath⟩ => hq.2 n hn hpath, hq.1.not_blocked⟩
    · rintro ⟨hfar, hnot⟩
      have hpath := OpenPath.step haway.1 hq hnot
      rw [Nat.sub_add_cancel hdepth] at hpath
      exact ⟨hpath, fun n hn hshort => hfar ⟨n, hn, hshort⟩⟩
  constructor
  · intro hcut c haway hparents
    obtain ⟨q, hq, homitted⟩ := hcut c ((SearchEnd.mem_marked_iff hend hdepth).mpr ⟨hparents, haway⟩)
    exact ⟨q, hq, (hbeyond c haway q hq).mpr homitted⟩
  · intro hcond c hc
    obtain ⟨hparents, haway⟩ := (SearchEnd.mem_marked_iff hend hdepth).mp hc
    obtain ⟨q, hq, hfar⟩ := hcond c haway hparents
    exact ⟨q, hq, (hbeyond c haway q hq).mp hfar⟩

/-- With the second commit wanted at depth one, its parent is beyond the depth. -/
theorem shallow_cut_linearStore :
    Outcome.Ends (fun fuel => depthLimitedCommits linearStore.parser linearStore.odb fuel
      [.fill 2] [] 1)
      (OnlyCut linearStore []) := by
  refine (shallow_cut_iff (Objects.stores_odb closed_linearStore) closed_linearStore
    (by decide +kernel) le_rfl).mpr fun c haway _ => ?_
  obtain rfl : c = .fill 2 := List.mem_singleton.mp (openPath_iff.mp haway.1).1
  have hparent : ObjectId.fill 1 ∈ linearStore.parents (.fill 2) := by decide +kernel
  refine ⟨.fill 1, hparent, .step haway.1 hparent List.not_mem_nil, fun m hm hpath => ?_⟩
  obtain rfl : m = 0 := by omega
  have hwant : ObjectId.fill 1 ∈ [ObjectId.fill 2] := (openPath_iff.mp hpath).1
  exact absurd hwant (by decide)

/-- **A commit is marked though its parent is sent**, or is a have: the second commit, if the first
one is wanted too or is a have. -/
theorem shallow_not_cut :
    (depthLimitedCommits linearStore.parser linearStore.odb 9 [.fill 2, .fill 1] [] 1).Gives
        (fun r => r = ([.fill 2, .fill 1], [.fill 2]) ∧ ¬ OnlyCut linearStore [] r) ∧
      (depthLimitedCommits linearStore.parser linearStore.odb 9 [.fill 2] [.fill 1] 1).Gives
        (fun r => r = ([.fill 2], [.fill 2]) ∧ ¬ OnlyCut linearStore [.fill 1] r) := by
  constructor
  all_goals decide +kernel

end Mizzle.Pack
