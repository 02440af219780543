import Mathlib.Data.List.Basic

/-!
# Fallible computations

When a chain of checks, a bind or a loop over a list ends in a value, in `Except` and in
`Option`.
-/

namespace Mizzle.Lib

theorem error_else_eq_ok_iff {ε α : Type} {c : Prop} [Decidable c] {e : ε} {x : Except ε α}
    {a : α} : (if c then .error e else x) = .ok a ↔ ¬ c ∧ x = .ok a := by
  split <;> simp [*]

theorem bind_eq_ok_iff {ε α β : Type} {x : Except ε α} {f : α → Except ε β} {b : β} :
    (x >>= f) = .ok b ↔ ∃ a, x = .ok a ∧ f a = .ok b := by
  cases x with
  | error e => exact ⟨nofun, nofun⟩
  | ok a => exact ⟨fun h => ⟨a, rfl, h⟩, fun ⟨_, ha, h⟩ => Except.ok.inj ha ▸ h⟩

theorem map_eq_ok_iff {ε α β : Type} {x : Except ε α} {f : α → β} {b : β} :
    x.map f = .ok b ↔ ∃ a, x = .ok a ∧ f a = b := by
  cases x with
  | error e => exact ⟨nofun, nofun⟩
  | ok a => exact ⟨fun h => ⟨a, rfl, Except.ok.inj h⟩, fun ⟨_, ha, h⟩ => by rw [Except.ok.inj ha, ← h]; rfl⟩

theorem mapError_eq_ok_iff {ε ε' α : Type} {x : Except ε α} {f : ε → ε'} {a : α} :
    x.mapError f = .ok a ↔ x = .ok a := by
  cases x with
  | error e => exact ⟨nofun, nofun⟩
  | ok b => exact ⟨fun h => congrArg _ (Except.ok.inj h), fun h => congrArg _ (Except.ok.inj h)⟩

theorem foldlM_ne_ok {α β ε : Type} {f : β → α → Except ε β} {xs : List α} {x : α} (hx : x ∈ xs)
    {e : ε} (hf : ∀ b, f b x = .error e) (b b' : β) : xs.foldlM f b ≠ .ok b' := by
  induction xs generalizing b with
  | nil => exact absurd hx List.not_mem_nil
  | cons y ys ih =>
    rw [List.foldlM_cons]
    intro hok
    obtain ⟨b₁, hstep, hrest⟩ := bind_eq_ok_iff.mp hok
    rcases List.mem_cons.mp hx with rfl | hy
    · exact nomatch (hf b).symm.trans hstep
    · exact ih hy b₁ hrest

end Mizzle.Lib
