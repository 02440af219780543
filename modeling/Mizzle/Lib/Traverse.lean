import Mathlib

/-!
# Traversals that stop at the first failure

`List.mapM` over `Option` and over `Except`: when it fails, and what it returns.
-/

namespace Mizzle.Lib

variable {α β ε : Type} {xs : List α} {ys : List β}

theorem mapM_eq_none {f : α → Option β} : xs.mapM f = none ↔ ∃ x ∈ xs, f x = none := by
  induction xs with
  | nil => simp
  | cons x xs ih =>
    rw [List.mapM_cons]
    cases hx : f x with
    | none => simp [hx]
    | some y => cases hxs : xs.mapM f <;> simp_all

theorem map_some_of_mapM {f : α → Option β} (h : xs.mapM f = some ys) : ys.map some = xs.map f := by
  induction xs generalizing ys with
  | nil =>
    obtain rfl := Option.some.inj h
    rfl
  | cons x xs ih =>
    rw [List.mapM_cons] at h
    cases hx : f x with
    | none => simp [hx] at h
    | some y =>
      cases hxs : xs.mapM f with
      | none => simp [hx, hxs] at h
      | some zs =>
        obtain rfl : y :: zs = ys := by simpa [hx, hxs] using h
        rw [List.map_cons, List.map_cons, ih hxs, hx]

theorem mapM_of_some {f : α → Option β} {g : α → β} (h : ∀ x ∈ xs, f x = some (g x)) :
    xs.mapM f = some (xs.map g) := by
  induction xs with
  | nil => rfl
  | cons x xs ih =>
    rw [List.mapM_cons, h x List.mem_cons_self, ih fun y hy => h y (List.mem_cons_of_mem _ hy)]
    rfl

theorem mapM_option_spec {f : α → Option β} (h : xs.mapM f = some ys) :
    (∀ x ∈ xs, ∃ y ∈ ys, f x = some y) ∧ ∀ y ∈ ys, ∃ x ∈ xs, f x = some y := by
  induction xs generalizing ys with
  | nil =>
    obtain rfl := Option.some.inj h
    exact ⟨List.forall_mem_nil _, List.forall_mem_nil _⟩
  | cons x xs ih =>
    rw [List.mapM_cons] at h
    obtain ⟨y, hy, h⟩ := Option.bind_eq_some_iff.mp h
    obtain ⟨zs, hzs, h⟩ := Option.bind_eq_some_iff.mp h
    obtain rfl := Option.some.inj h
    obtain ⟨hforth, hback⟩ := ih hzs
    refine ⟨List.forall_mem_cons.mpr ⟨⟨y, List.mem_cons_self, hy⟩, fun x' hx' => ?_⟩,
      List.forall_mem_cons.mpr ⟨⟨x, List.mem_cons_self, hy⟩, fun y' hy' => ?_⟩⟩
    · obtain ⟨y', hy', hfx⟩ := hforth x' hx'
      exact ⟨y', List.mem_cons_of_mem _ hy', hfx⟩
    · obtain ⟨x', hx', hfx⟩ := hback y' hy'
      exact ⟨x', List.mem_cons_of_mem _ hx', hfx⟩

theorem mapM_option_of_forall {f : α → Option β} (h : ∀ x ∈ xs, ∃ y, f x = some y) :
    ∃ ys, xs.mapM f = some ys := by
  induction xs with
  | nil => exact ⟨[], rfl⟩
  | cons x xs ih =>
    obtain ⟨⟨y, hy⟩, hxs⟩ := List.forall_mem_cons.mp h
    obtain ⟨ys, hys⟩ := ih hxs
    refine ⟨y :: ys, ?_⟩
    rw [List.mapM_cons, hy, hys]
    rfl

theorem mapM_cons_ok {f : α → Except ε β} {x : α} (h : (x :: xs).mapM f = .ok ys) :
    ∃ y zs, f x = .ok y ∧ xs.mapM f = .ok zs ∧ ys = y :: zs := by
  rw [List.mapM_cons] at h
  cases hx : f x with
  | error e => simp [hx, bind, Except.bind] at h
  | ok y =>
    cases hxs : xs.mapM f with
    | error e => simp [hx, hxs, bind, Except.bind] at h
    | ok zs => exact ⟨y, zs, rfl, rfl, by simpa [hx, hxs, bind, Except.bind, pure, Except.pure] using h.symm⟩

theorem mem_of_mapM_ok {f : α → Except ε β} (h : xs.mapM f = .ok ys) {y : β} (hy : y ∈ ys) :
    ∃ x ∈ xs, f x = .ok y := by
  induction xs generalizing ys with
  | nil =>
    obtain rfl := Except.ok.inj h
    exact absurd hy List.not_mem_nil
  | cons x xs ih =>
    obtain ⟨z, zs, hx, hxs, rfl⟩ := mapM_cons_ok h
    rcases List.mem_cons.mp hy with rfl | hy
    · exact ⟨x, List.mem_cons_self, hx⟩
    · obtain ⟨w, hw, hfw⟩ := ih hxs hy
      exact ⟨w, List.mem_cons_of_mem _ hw, hfw⟩

theorem length_of_mapM_ok {f : α → Except ε β} (h : xs.mapM f = .ok ys) :
    ys.length = xs.length := by
  induction xs generalizing ys with
  | nil =>
    obtain rfl := Except.ok.inj h
    rfl
  | cons x xs ih =>
    obtain ⟨z, zs, -, hxs, rfl⟩ := mapM_cons_ok h
    rw [List.length_cons, List.length_cons, ih hxs]

theorem map_of_mapM_ok {f : α → Except ε β} {g : β → α} (hg : ∀ x y, f x = .ok y → g y = x)
    (h : xs.mapM f = .ok ys) : ys.map g = xs := by
  induction xs generalizing ys with
  | nil =>
    obtain rfl := Except.ok.inj h
    rfl
  | cons x xs ih =>
    obtain ⟨z, zs, hx, hxs, rfl⟩ := mapM_cons_ok h
    rw [List.map_cons, hg x z hx, ih hxs]

theorem exists_mapM_ok {f : α → Except ε β} (h : ∀ x ∈ xs, ∃ y, f x = .ok y) :
    ∃ ys, xs.mapM f = .ok ys := by
  induction xs with
  | nil => exact ⟨[], rfl⟩
  | cons x xs ih =>
    obtain ⟨y, hy⟩ := h x List.mem_cons_self
    obtain ⟨ys, hys⟩ := ih fun z hz => h z (List.mem_cons_of_mem _ hz)
    exact ⟨y :: ys, by rw [List.mapM_cons, hy, hys]; rfl⟩

theorem mapM_of_ok {f : α → Except ε β} {g : α → β} (h : ∀ x ∈ xs, f x = .ok (g x)) :
    xs.mapM f = .ok (xs.map g) := by
  induction xs with
  | nil => rfl
  | cons x xs ih =>
    rw [List.mapM_cons, h x List.mem_cons_self, ih fun y hy => h y (List.mem_cons_of_mem _ hy)]
    rfl

/-! ### What a fold collects -/

section Folds

variable {σ α β : Type} {step : σ → α → σ}

theorem foldl_filterMap {get : σ → List β} {f : α → Option β}
    (hstep : ∀ s a, get (step s a) = get s ++ (f a).toList) (xs : List α) (s : σ) :
    get (xs.foldl step s) = get s ++ xs.filterMap f := by
  induction xs generalizing s with
  | nil => simp
  | cons a xs ih =>
    rw [List.foldl_cons, ih, hstep]
    cases hf : f a <;> simp [hf]

theorem foldl_getLast? {get : σ → Option β} {f : α → Option β}
    (hstep : ∀ s a, get (step s a) = (f a).or (get s)) (xs : List α) (s : σ) :
    get (xs.foldl step s) = (xs.filterMap f).getLast?.or (get s) := by
  induction xs generalizing s with
  | nil => simp
  | cons a xs ih =>
    rw [List.foldl_cons, ih, hstep]
    cases hf : f a with
    | none => simp [hf]
    | some b => cases hlast : (xs.filterMap f).getLast? <;> simp [hf, List.getLast?_cons, hlast]

theorem foldl_any {get : σ → Bool} {f : α → Bool} (hstep : ∀ s a, get (step s a) = (get s || f a))
    (xs : List α) (s : σ) : get (xs.foldl step s) = (get s || xs.any f) := by
  induction xs generalizing s with
  | nil => simp
  | cons a xs ih => rw [List.foldl_cons, ih, hstep, List.any_cons, Bool.or_assoc]

end Folds

end Mizzle.Lib
