import Mathlib

/-!
# Runs of interleaved processes

A system is a partial step function on its states: what an event does, if it can happen. `Runs` are
its runs in which every event meets a condition on the state before it.
-/

namespace Mizzle.Lib

variable {σ ε : Type*}

/-- One event, under the condition `ok`. -/
def StepsTo (step : σ → ε → Option σ) (ok : σ → ε → Prop) (s s' : σ) : Prop :=
  ∃ e, ok s e ∧ step s e = some s'

/-- The runs. -/
def Runs (step : σ → ε → Option σ) (ok : σ → ε → Prop) : σ → σ → Prop :=
  Relation.ReflTransGen (StepsTo step ok)

/-- The state after a list of events, if all of them meet the condition and can happen. -/
def runList (step : σ → ε → Option σ) (ok : σ → ε → Prop) [∀ s e, Decidable (ok s e)] (s : σ)
    (es : List ε) : Option σ :=
  es.foldlM (fun s e => if ok s e then step s e else none) s

variable {step : σ → ε → Option σ} {ok : σ → ε → Prop}

namespace Runs

theorem refl (s : σ) : Runs step ok s s := Relation.ReflTransGen.refl

theorem tail {s t u : σ} {e : ε} (h : Runs step ok s t) (hok : ok t e) (hstep : step t e = some u) :
    Runs step ok s u :=
  Relation.ReflTransGen.tail h ⟨e, hok, hstep⟩

theorem invariant (inv : σ → Prop)
    (hkeep : ∀ {s s' e}, inv s → ok s e → step s e = some s' → inv s') {s s' : σ}
    (h : Runs step ok s s') (hs : inv s) : inv s' := by
  induction h with
  | refl => exact hs
  | tail _ hstep ih =>
    obtain ⟨e, hok, hstep⟩ := hstep
    exact hkeep ih hok hstep

theorem mono {ok' : σ → ε → Prop} (hok : ∀ s e, ok s e → ok' s e) {s s' : σ}
    (h : Runs step ok s s') : Runs step ok' s s' := by
  induction h with
  | refl => exact refl s
  | tail _ hstep ih =>
    obtain ⟨e, he, hstep⟩ := hstep
    exact ih.tail (hok _ e he) hstep

theorem of_runList [∀ s e, Decidable (ok s e)] {s s' : σ} {es : List ε}
    (h : runList step ok s es = some s') : Runs step ok s s' := by
  induction es generalizing s with
  | nil =>
    obtain rfl : s = s' := by simpa [runList] using h
    exact refl s
  | cons e es ih =>
    obtain ⟨t, hstep, hrest⟩ := Option.bind_eq_some_iff.mp h
    obtain ⟨hok, hstep⟩ := Option.ite_none_right_eq_some.mp hstep
    exact .head ⟨e, hok, hstep⟩ (ih hrest)

end Runs

theorem length_le_of_runList [∀ s e, Decidable (ok s e)] {cost : σ → Nat}
    (hcost : ∀ {s s' e}, ok s e → step s e = some s' → cost s' < cost s) {s s' : σ} {es : List ε}
    (h : runList step ok s es = some s') : es.length + cost s' ≤ cost s := by
  induction es generalizing s with
  | nil =>
    obtain rfl : s = s' := by simpa [runList] using h
    simp
  | cons e es ih =>
    obtain ⟨t, hstep, hrest⟩ := Option.bind_eq_some_iff.mp h
    obtain ⟨hok, hstep⟩ := Option.ite_none_right_eq_some.mp hstep
    have hlt := hcost hok hstep
    have hle := ih hrest
    rw [List.length_cons]
    omega

end Mizzle.Lib
