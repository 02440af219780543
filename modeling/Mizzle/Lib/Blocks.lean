import Mathlib

/-!
# Blocks of one width

Lists whose elements are written one after the other with the same width. A list is determined by
what is written and its length. Two lists written around a separator are not determined by what is
written, as the separator may be the first or the last element of a block: `flatMap_separated` says
what the second way to read them looks like.
-/

namespace Mizzle.Lib

variable {α β : Type*} {f : α → List β} {w : Nat} (hwidth : ∀ a, (f a).length = w)

include hwidth

theorem length_flatMap_width (xs : List α) : (xs.flatMap f).length = w * xs.length := by
  induction xs with
  | nil => rfl
  | cons x xs ih => rw [List.flatMap_cons, List.length_append, hwidth, ih, List.length_cons,
    Nat.mul_succ, Nat.add_comm]

variable (hinj : Function.Injective f)

include hinj

theorem flatMap_inj_of_length {xs ys : List α} (hlength : xs.length = ys.length)
    (h : xs.flatMap f = ys.flatMap f) : xs = ys := by
  induction xs generalizing ys with
  | nil => exact (List.eq_nil_of_length_eq_zero hlength.symm).symm
  | cons x xs ih =>
    cases ys with
    | nil => cases hlength
    | cons y ys =>
      rw [List.flatMap_cons, List.flatMap_cons] at h
      obtain ⟨hxy, hrest⟩ := List.append_inj h ((hwidth x).trans (hwidth y).symm)
      rw [hinj hxy, ih (Nat.succ.inj hlength) hrest]

/-- **The two ways to read two lists around a separator**: blocks at the end of the first list,
moved by one element, are blocks at the front of the second. -/
theorem flatMap_separated (hw : 0 < w) {a : β} {xs ys xs' ys' : List α}
    (hle : xs.length ≤ xs'.length)
    (h : xs.flatMap f ++ a :: ys.flatMap f = xs'.flatMap f ++ a :: ys'.flatMap f) :
    ∃ back front, xs' = xs ++ back ∧ ys = front ++ ys' ∧ a :: front.flatMap f =
      back.flatMap f ++ [a] := by
  have hlength := congrArg List.length h
  simp only [List.length_append, List.length_cons, length_flatMap_width hwidth] at hlength
  have htotal : xs.length + ys.length = xs'.length + ys'.length := by
    have hmul : w * (xs.length + ys.length) = w * (xs'.length + ys'.length) := by
      rw [Nat.mul_add, Nat.mul_add]
      omega
    exact Nat.eq_of_mul_eq_mul_left hw hmul
  -- the blocks of the shorter first list
  have hxs : (xs'.take xs.length).length = xs.length := List.length_take_of_le hle
  rw [← List.take_append_drop xs.length xs', List.flatMap_append, List.append_assoc] at h
  obtain ⟨hfirst, hrest⟩ := List.append_inj h (by rw [length_flatMap_width hwidth, length_flatMap_width hwidth, hxs])
  have hxs' := flatMap_inj_of_length hwidth hinj hxs.symm hfirst
  -- the blocks that stand behind the separator in one reading and before it in the other
  have hback : (xs'.drop xs.length).length = xs'.length - xs.length := List.length_drop
  have hfront : (ys.take (xs'.length - xs.length)).length = xs'.length - xs.length := List.length_take_of_le (by omega)
  rw [← List.take_append_drop (xs'.length - xs.length) ys, List.flatMap_append, ← List.cons_append,
    List.append_cons] at hrest
  obtain ⟨hmoved, hsecond⟩ := List.append_inj hrest (by
    simp only [List.length_cons, List.length_append, length_flatMap_width hwidth, hback, hfront, List.length_nil])
  have hys := flatMap_inj_of_length hwidth hinj (by rw [List.length_drop]; omega) hsecond
  refine ⟨xs'.drop xs.length, ys.take (xs'.length - xs.length), ?_, ?_, hmoved⟩
  · nth_rewrite 1 [← List.take_append_drop xs.length xs', ← hxs']
    rfl
  · nth_rewrite 1 [← List.take_append_drop (xs'.length - xs.length) ys, hys]
    rfl

end Mizzle.Lib
