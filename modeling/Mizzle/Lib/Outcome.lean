import Mizzle.Lib.Visit

/-!
# Outcomes with fuel

`Outcome ε α` is the type of a fallible computation with fuel: a value, an error, or no answer. Its
`do` notation is that of `ExceptT ε Option`.
-/

namespace Mizzle.Lib

abbrev Outcome (ε α : Type) := ExceptT ε Option α

namespace Outcome

variable {ε ε' α β : Type}

instance [DecidableEq ε] [DecidableEq α] : DecidableEq (Outcome ε α) :=
  inferInstanceAs (DecidableEq (Option (Except ε α)))

/-- The value. -/
def done (a : α) : Outcome ε α := some (.ok a)

/-- `Result::map_err`. -/
def mapError (f : ε → ε') (x : Outcome ε α) : Outcome ε' α := Option.map (Except.mapError f) x

/-- The marks of a work list that starts with the items `is`. -/
def walk [DecidableEq α] (items : α → Except ε (List (Item α))) (known : Finset α)
    (enqueue : List α → List α → List α) (fuel : Nat) (is : List (Item α)) (marks : Finset α) :
    Outcome ε (Finset α) :=
  Option.map (Except.map Prod.fst)
    (drain items known enqueue never fuel (visitItems known is marks).2 (visitItems known is marks).1 [])

theorem bind_of_done {x : Outcome ε α} {a : α} (h : x = done a) (f : α → Outcome ε β) :
    x >>= f = f a := by
  rw [h]
  rfl

theorem bind_eq_done_iff {x : Outcome ε α} {f : α → Outcome ε β} {b : β} :
    x >>= f = done b ↔ ∃ a, x = done a ∧ f a = done b := by
  constructor
  · intro h
    match x, h with
    | some (.ok a), h => exact ⟨a, rfl, h⟩
  · rintro ⟨a, rfl, h⟩
    exact h

theorem mapError_of_done {x : Outcome ε α} {a : α} (h : x = done a) (f : ε → ε') :
    x.mapError f = done a := by
  rw [h]
  rfl

theorem foldlM_congr {f g : β → α → Outcome ε β} {xs : List α}
    (h : ∀ x ∈ xs, ∀ b, f b x = g b x) (b : β) : xs.foldlM f b = xs.foldlM g b := by
  induction xs generalizing b with
  | nil => rfl
  | cons x xs ih =>
    rw [List.foldlM_cons, List.foldlM_cons, h x List.mem_cons_self]
    exact bind_congr fun middle => ih (fun y hy => h y (List.mem_cons_of_mem _ hy)) middle

theorem foldlM_visits [DecidableEq α] {items : α → List (Item α)} {known : Finset α}
    {f : Finset α → β → Outcome ε (Finset α)} {round : β → List (Item α)} {xs : List β}
    (marks : Finset α)
    (hround : ∀ x ∈ xs, ∀ marks, ∃ marks', f marks x = done marks' ∧
      Visits items known (round x) marks marks') :
    ∃ marks', xs.foldlM f marks = done marks' ∧
      Visits items known (xs.flatMap round) marks marks' := by
  induction xs generalizing marks with
  | nil => exact ⟨marks, rfl, .done marks⟩
  | cons x xs ih =>
    obtain ⟨middle, hstep, hfirst⟩ := hround x List.mem_cons_self marks
    obtain ⟨marks', hloop, hrest⟩ := ih middle fun y hy => hround y (List.mem_cons_of_mem _ hy)
    refine ⟨marks', ?_, hfirst.append hrest⟩
    rw [List.foldlM_cons, bind_of_done hstep, hloop]

/-- **A walk is done and is a run**, if the fuel covers a closed set. -/
theorem walk_done [DecidableEq α] {items : α → Except ε (List (Item α))} (known : Finset α)
    {R : Finset α} {enqueue : List α → List α → List α}
    (henqueue : ∀ work new, (enqueue work new).Perm (new ++ work)) (hR : ClosedSet items R)
    {fuel : Nat} (hfuel : R.card ≤ fuel) {is : List (Item α)} (his : ∀ x, .node x ∈ is → x ∈ R)
    (marks : Finset α) :
    ∃ marks', walk items known enqueue fuel is marks = done marks' ∧
      Visits (listed items) known is marks marks' := by
  have hcard := @card_visitItems _ _ known R is marks his
  have hsub := Finset.card_le_card (Finset.sdiff_subset : R \ marks ⊆ R)
  have hanswer : ∃ result, drain items known enqueue never fuel (visitItems known is marks).2
      (visitItems known is marks).1 [] = some (.ok result) :=
    drain_answers henqueue (fun _ _ => rfl) hR [] (fun x hx => his x (node_of_mem_visitItems hx)) (by omega)
  obtain ⟨⟨marks', taken⟩, hdrain⟩ := hanswer
  refine ⟨marks', by rw [walk, hdrain]; rfl, ?_⟩
  rw [← List.append_nil is]
  refine visits_of_visitItems ?_
  rw [List.append_nil]
  exact drain_visits henqueue hdrain

/-- The computation ends with a value that has the property. -/
def Gives (x : Outcome ε α) (P : α → Prop) : Prop := ∃ a, x = done a ∧ P a

instance {x : Outcome ε α} {P : α → Prop} [DecidablePred P] : Decidable (x.Gives P) :=
  match x with
  | some (.ok a) =>
    if h : P a then .isTrue ⟨a, rfl, h⟩
    else .isFalse fun ⟨b, hb, hP⟩ => by
      obtain rfl : a = b := Except.ok.inj (Option.some.inj hb)
      exact h hP
  | some (.error e) => .isFalse fun ⟨b, hb, _⟩ => nomatch Option.some.inj hb
  | none => .isFalse fun ⟨b, hb, _⟩ => nomatch hb

/-! ### Enough fuel -/

/-- With enough fuel the computation ends, with a value that has the property. -/
def Ends (f : Nat → Outcome ε α) (P : α → Prop) : Prop :=
  ∃ enough, ∀ fuel, enough ≤ fuel → ∃ a, f fuel = done a ∧ P a

variable {f : Nat → Outcome ε α} {P Q : α → Prop}

theorem Ends.imp (h : Ends f P) (hPQ : ∀ a, P a → Q a) : Ends f Q := by
  obtain ⟨enough, hends⟩ := h
  refine ⟨enough, fun fuel hfuel => ?_⟩
  obtain ⟨a, ha, hP⟩ := hends fuel hfuel
  exact ⟨a, ha, hPQ a hP⟩

theorem Ends.ends_iff (h : Ends f P) {C : Prop} (hQ : ∀ a, P a → (Q a ↔ C)) : Ends f Q ↔ C := by
  constructor
  · rintro ⟨enough, hends⟩
    obtain ⟨enough', hends'⟩ := h
    obtain ⟨a, ha, hPa⟩ := hends' (max enough enough') (le_max_right _ _)
    obtain ⟨b, hb, hQb⟩ := hends (max enough enough') (le_max_left _ _)
    obtain rfl : a = b := Except.ok.inj (Option.some.inj (ha.symm.trans hb))
    exact (hQ a hPa).mp hQb
  · exact fun hC => h.imp fun a ha => (hQ a ha).mpr hC

theorem exists_of_ends {ι : Type} {I : ι → Prop} {P : ι → α → Prop}
    (hunique : ∀ i a b, P i a → P i b → a = b) (hends : ∀ i, I i → Ends f (P i)) (hI : ∃ i, I i) :
    ∃ a enough, (∀ fuel, enough ≤ fuel → f fuel = done a) ∧ ∀ i, I i → P i a := by
  obtain ⟨i, hi⟩ := hI
  obtain ⟨enough, hdone⟩ := hends i hi
  obtain ⟨a, -, hP⟩ := hdone enough le_rfl
  have hall : ∀ fuel, enough ≤ fuel → f fuel = done a := by
    intro fuel hfuel
    obtain ⟨b, hb, hPb⟩ := hdone fuel hfuel
    rw [hb, hunique i b a hPb hP]
  refine ⟨a, enough, hall, fun j hj => ?_⟩
  obtain ⟨enough', hdone'⟩ := hends j hj
  obtain ⟨b, hb, hPb⟩ := hdone' (max enough enough') (le_max_right _ _)
  rw [hall _ (le_max_left _ _)] at hb
  obtain rfl : a = b := Except.ok.inj (Option.some.inj hb)
  exact hPb

end Outcome

end Mizzle.Lib
