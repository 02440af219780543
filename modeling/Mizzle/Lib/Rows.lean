import Mizzle.Lib.Walk

/-!
# The rows of a recursive query

A recursive query without removal of duplicates has one row for every way from its start to a node.
Every row is the start or comes from a row (`rows_perm`), so a node has two rows if two of the nodes
lead to it, or one leads to it twice, or it comes from a node with two rows. Without that, every
node has one row (`nodup_rows_iff`).
-/

namespace Mizzle.Lib

variable {α : Type} {next : α → List α} {fuel : Nat} {c : α} {xs : List α}

theorem rows_mono {fuel' : Nat} (hfuel : fuel ≤ fuel') {queue : List α}
    (h : rows next fuel queue = some xs) : rows next fuel' queue = some xs := by
  induction fuel generalizing fuel' queue xs with
  | zero =>
    cases queue with
    | nil => simpa [rows] using h
    | cons => simp [rows] at h
  | succ fuel ih =>
    cases queue with
    | nil => simpa [rows] using h
    | cons x queue =>
      obtain ⟨fuel', rfl⟩ : ∃ n, fuel' = n + 1 := ⟨fuel' - 1, by omega⟩
      rw [rows, Option.map_eq_some_iff] at h ⊢
      obtain ⟨ys, hys, rfl⟩ := h
      exact ⟨ys, ih (Nat.le_of_succ_le_succ hfuel) hys, rfl⟩

theorem enumerate_of_rows [DecidableEq α] {queue : List α} (h : rows next fuel queue = some xs)
    {target : α} {b : Bool} (hb : b = true ↔ target ∈ xs) :
    enumerate next target fuel queue = some b := by
  induction fuel generalizing queue xs with
  | zero =>
    cases queue with
    | nil =>
      cases h
      simpa [enumerate] using hb
    | cons => simp [rows] at h
  | succ fuel ih =>
    cases queue with
    | nil =>
      cases h
      simpa [enumerate] using hb
    | cons x queue =>
      rw [rows, Option.map_eq_some_iff] at h
      obtain ⟨ys, hys, rfl⟩ := h
      rw [enumerate]
      split
      · rename_i heq
        rw [hb.mpr (heq ▸ List.mem_cons_self)]
      · rename_i hne
        exact ih hys (hb.trans (List.mem_cons.trans (or_iff_right (Ne.symm hne))))

/-- **The rows are the start and the rows that come from rows**, with their multiplicities. -/
theorem rows_perm {queue : List α} (h : rows next fuel queue = some xs) :
    xs.Perm (queue ++ xs.flatMap next) := by
  induction fuel generalizing queue xs with
  | zero =>
    cases queue with
    | nil =>
      cases h
      exact .refl _
    | cons => simp [rows] at h
  | succ fuel ih =>
    cases queue with
    | nil =>
      cases h
      exact .refl _
    | cons x queue =>
      rw [rows, Option.map_eq_some_iff] at h
      obtain ⟨ys, hys, rfl⟩ := h
      rw [List.flatMap_cons, List.cons_append, ← List.append_assoc]
      exact (ih hys).cons x

theorem count_flatMap_le [DecidableEq α] {x p : α} (honce : (next x).count p ≤ 1)
    (honly : ∀ y ∈ xs, y ≠ x → p ∉ next y) : (xs.flatMap next).count p ≤ xs.count x := by
  induction xs with
  | nil => simp
  | cons y xs ih =>
    have hrest := ih fun z hz => honly z (List.mem_cons_of_mem _ hz)
    rw [List.flatMap_cons, List.count_append]
    by_cases hyx : y = x
    · subst hyx
      rw [List.count_cons_self]
      omega
    · rw [List.count_eq_zero_of_not_mem (honly y List.mem_cons_self hyx), List.count_cons_of_ne hyx]
      omega

/-- Nodes that are led to from the start in one way. -/
def SingleWays (next : α → List α) (c : α) : Prop :=
  (∀ x, Reach next [c] x → (next x).Nodup) ∧
    ∀ x y, Reach next [c] x → Reach next [c] y → x ≠ y → ∀ p ∈ next x, p ∉ next y

theorem count_rows_le [DecidableEq α] (hc : ¬ Relation.TransGen (Edge next) c c)
    (h : rows next fuel [c] = some xs) (hways : SingleWays next c) {p : α}
    (hpath : Relation.ReflTransGen (Edge next) c p) : xs.count p ≤ 1 := by
  have hmem : ∀ x ∈ xs, Relation.ReflTransGen (Edge next) c x := fun x hx => reach_singleton.mp ((mem_rows h x).mp hx)
  have hcount : ∀ p, xs.count p = [c].count p + (xs.flatMap next).count p := fun p => by
    rw [(rows_perm h).count_eq, List.count_append]
  -- along the path to the node: its row comes from the row before
  induction hpath with
  | refl =>
    have hnone : (xs.flatMap next).count c = 0 := List.count_eq_zero_of_not_mem fun hcycle => by
      obtain ⟨x, hx, hedge⟩ := List.mem_flatMap.mp hcycle
      exact hc (.tail' (hmem x hx) hedge)
    rw [hcount, hnone]
    simp
  | @tail x p hx hedge ih =>
    have hne : c ≠ p := by
      rintro rfl
      exact hc (.tail' hx hedge)
    have hle : (xs.flatMap next).count p ≤ xs.count x := by
      refine count_flatMap_le (List.nodup_iff_count_le_one.mp (hways.1 x (reach_singleton.mpr hx))
        p) fun y hy hyx hpy => ?_
      exact hways.2 y x (reach_singleton.mpr (hmem y hy)) (reach_singleton.mpr hx) hyx p hpy hedge
    rw [hcount, List.count_singleton, if_neg (by simpa using hne)]
    omega

/-- **When a query has no row twice.** -/
theorem nodup_rows_iff [DecidableEq α] (hc : ¬ Relation.TransGen (Edge next) c c)
    (h : rows next fuel [c] = some xs) : xs.Nodup ↔ SingleWays next c := by
  constructor
  · intro hnodup
    have hflat : (xs.flatMap next).Nodup := (List.nodup_cons.mp ((rows_perm h).nodup_iff.mp hnodup)).2
    obtain ⟨hone, hpairs⟩ := List.nodup_flatMap.mp hflat
    refine ⟨fun x hx => hone x ((mem_rows h x).mpr hx), fun x y hx hy hne p hpx hpy => ?_⟩
    have hsymm : Std.Symm (Function.onFun List.Disjoint next) := ⟨fun _ _ hdisjoint => hdisjoint.symm⟩
    exact hpairs.forall ((mem_rows h x).mpr hx) ((mem_rows h y).mpr hy) hne hpx hpy
  · intro hways
    refine List.nodup_iff_count_le_one.mpr fun p => ?_
    by_cases hp : p ∈ xs
    · exact count_rows_le hc h hways (reach_singleton.mp ((mem_rows h p).mp hp))
    · rw [List.count_eq_zero_of_not_mem hp]
      exact Nat.zero_le 1

end Mizzle.Lib
