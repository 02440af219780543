import Mathlib.Tactic.Common

/-!
# Programs that call an environment

A program over an interface is a tree: it returns, or makes a call `op : Op` and continues with the
answer, a value of `Res op`. `Runs p t a` says that in some environment `p` makes the calls of the
trace `t`, gets the answers recorded there, and returns `a`; `exec` runs it in a given world, a
state machine that answers every call. Facts about `Runs` hold in every world (`exec_runs`).
-/

namespace Mizzle.Lib

universe u w x

inductive Program (Op : Type u) (Res : Op → Type w) (α : Type w) where
  | ret (a : α)
  | call (op : Op) (next : Res op → Program Op Res α)

namespace Program

variable {Op : Type u} {Res : Op → Type w} {α β : Type w} {σ : Type x}

def bind : Program Op Res α → (α → Program Op Res β) → Program Op Res β
  | .ret a, f => f a
  | .call op next, f => .call op fun answer => bind (next answer) f

instance : Monad (Program Op Res) where
  pure := .ret
  bind := bind

/-- The program that makes one call and returns the answer. -/
def perform (op : Op) : Program Op Res (Res op) := .call op .ret

@[simp] theorem pure_eq (a : α) : (pure a : Program Op Res α) = .ret a := rfl

@[simp] theorem ret_bind (a : α) (f : α → Program Op Res β) : (Program.ret a >>= f) = f a := rfl

@[simp] theorem call_bind (op : Op) (next : Res op → Program Op Res α) (f : α → Program Op Res β) :
    (Program.call op next >>= f) = .call op fun answer => next answer >>= f := rfl

theorem bind_assoc {γ : Type w} (p : Program Op Res α) (f : α → Program Op Res β)
    (g : β → Program Op Res γ) : (p >>= f >>= g) = p >>= fun a => f a >>= g := by
  induction p with
  | ret a => rfl
  | call op next ih =>
    simp only [call_bind]
    exact congrArg _ (funext ih)

/-! ### Runs in some environment -/

/-- A call with its answer. -/
abbrev Event (Res : Op → Type w) := Σ op, Res op

inductive Runs : Program Op Res α → List (Event Res) → α → Prop where
  | ret (a : α) : Runs (.ret a) [] a
  | call {op : Op} {next : Res op → Program Op Res α} {answer : Res op} {t : List (Event Res)} {a : α} :
      Runs (next answer) t a → Runs (.call op next) (⟨op, answer⟩ :: t) a

@[simp] theorem runs_ret_iff {a b : α} {t : List (Event Res)} :
    Runs (.ret a : Program Op Res α) t b ↔ t = [] ∧ b = a := by
  constructor
  · rintro ⟨⟩
    exact ⟨rfl, rfl⟩
  · rintro ⟨rfl, rfl⟩
    exact .ret b

theorem runs_call_iff {op : Op} {next : Res op → Program Op Res α} {t : List (Event Res)} {a : α} :
    Runs (.call op next) t a ↔ ∃ answer t', t = ⟨op, answer⟩ :: t' ∧ Runs (next answer) t' a := by
  constructor
  · rintro ⟨⟩
    exact ⟨_, _, rfl, ‹_›⟩
  · rintro ⟨answer, t', rfl, hruns⟩
    exact .call hruns

theorem runs_bind_iff {p : Program Op Res α} {f : α → Program Op Res β} {t : List (Event Res)}
    {b : β} : Runs (p >>= f) t b ↔ ∃ t₁ a t₂, t = t₁ ++ t₂ ∧ Runs p t₁ a ∧ Runs (f a) t₂ b := by
  induction p generalizing t with
  | ret a => simp
  | call op next ih =>
    simp only [call_bind, runs_call_iff, ih]
    constructor
    · rintro ⟨answer, _, rfl, t₁, a, t₂, rfl, hfirst, hrest⟩
      exact ⟨⟨op, answer⟩ :: t₁, a, t₂, rfl, ⟨answer, t₁, rfl, hfirst⟩, hrest⟩
    · rintro ⟨_, a, t₂, rfl, ⟨answer, t₁, rfl, hfirst⟩, hrest⟩
      exact ⟨answer, t₁ ++ t₂, rfl, t₁, a, t₂, rfl, hfirst, hrest⟩

@[simp] theorem runs_perform_bind_iff {op : Op} {f : Res op → Program Op Res β}
    {t : List (Event Res)} {b : β} :
    Runs (perform op >>= f) t b ↔ ∃ answer t', t = ⟨op, answer⟩ :: t' ∧ Runs (f answer) t' b :=
  runs_call_iff

/-! ### The run in a given world -/

/-- What a run leaves: the state of the world, the trace, and the returned value. -/
structure Outcome (Res : Op → Type w) (σ : Type x) (α : Type w) where
  state : σ
  trace : List (Event Res)
  value : α

/-- Run a program in a world. -/
def exec (world : σ → (op : Op) → σ × Res op) : Program Op Res α → σ → Outcome Res σ α
  | .ret a, s => ⟨s, [], a⟩
  | .call op next, s =>
    let rest := exec world (next (world s op).2) (world s op).1
    ⟨rest.state, ⟨op, (world s op).2⟩ :: rest.trace, rest.value⟩

theorem exec_runs (world : σ → (op : Op) → σ × Res op) (p : Program Op Res α) (s : σ) :
    Runs p (exec world p s).trace (exec world p s).value := by
  induction p generalizing s with
  | ret a => exact .ret a
  | call op next ih => exact .call (ih _ _)

@[simp] theorem exec_ret (world : σ → (op : Op) → σ × Res op) (a : α) (s : σ) :
    exec world (.ret a : Program Op Res α) s = ⟨s, [], a⟩ := rfl

/-- The outcome of a run that follows on the calls of `t`. -/
def Outcome.after (t : List (Event Res)) (o : Outcome Res σ α) : Outcome Res σ α :=
  { o with trace := t ++ o.trace }

@[simp] theorem Outcome.after_state (t : List (Event Res)) (o : Outcome Res σ α) :
    (o.after t).state = o.state := rfl

@[simp] theorem Outcome.after_trace (t : List (Event Res)) (o : Outcome Res σ α) :
    (o.after t).trace = t ++ o.trace := rfl

@[simp] theorem Outcome.after_value (t : List (Event Res)) (o : Outcome Res σ α) :
    (o.after t).value = o.value := rfl

theorem exec_bind (world : σ → (op : Op) → σ × Res op) (p : Program Op Res α)
    (f : α → Program Op Res β) (s : σ) :
    exec world (p >>= f) s =
      (exec world (f (exec world p s).value) (exec world p s).state).after (exec world p s).trace := by
  induction p generalizing s with
  | ret a => rfl
  | call op next ih =>
    simp only [call_bind, exec, ih]
    rfl

theorem exec_perform_bind (world : σ → (op : Op) → σ × Res op) (op : Op)
    (f : Res op → Program Op Res α) (s : σ) :
    exec world (perform op >>= f) s =
      (exec world (f (world s op).2) (world s op).1).after [⟨op, (world s op).2⟩] := rfl

/-! ### Two runs that agree -/

/-- The runs end in one state and their traces show the same calls of the kind that `keep`
selects. -/
structure Agree (keep : Event Res → Bool) (x : Outcome Res σ α) (y : Outcome Res σ β) : Prop where
  state_eq : x.state = y.state
  trace_eq : x.trace.filter keep = y.trace.filter keep

variable {keep : Event Res → Bool} {world : σ → (op : Op) → σ × Res op} {γ : Type w}

theorem Agree.symm {x : Outcome Res σ α} {y : Outcome Res σ β} (h : Agree keep x y) :
    Agree keep y x :=
  ⟨h.state_eq.symm, h.trace_eq.symm⟩

theorem Agree.bind (p : Program Op Res α) {f : α → Program Op Res β} {g : α → Program Op Res γ}
    {s : σ}
    (h : Agree keep (exec world (f (exec world p s).value) (exec world p s).state)
      (exec world (g (exec world p s).value) (exec world p s).state)) :
    Agree keep (exec world (p >>= f) s) (exec world (p >>= g) s) := by
  rw [exec_bind, exec_bind]
  exact ⟨h.state_eq, by simp [h.trace_eq]⟩

theorem Agree.skip {p : Program Op Res α} {f : α → Program Op Res β} {s : σ} {y : Outcome Res σ γ}
    (hquiet : (exec world p s).trace.filter keep = [])
    (h : Agree keep (exec world (f (exec world p s).value) (exec world p s).state) y) :
    Agree keep (exec world (p >>= f) s) y := by
  rw [exec_bind]
  exact ⟨h.state_eq, by simp [hquiet, h.trace_eq]⟩

end Program

/-! ### Traces -/

section Trace

variable {ε : Type u}

/-- Every entry of the list stands in the given relation to the entries before it. -/
def EachAfter (P : List ε → ε → Prop) (seen t : List ε) : Prop :=
  ∀ before e after, t = before ++ e :: after → P (seen ++ before) e

@[simp] theorem eachAfter_nil (P : List ε → ε → Prop) (seen : List ε) : EachAfter P seen [] := by
  intro before e after h
  simp at h

@[simp] theorem eachAfter_cons {P : List ε → ε → Prop} {seen t : List ε} {e : ε} :
    EachAfter P seen (e :: t) ↔ P seen e ∧ EachAfter P (seen ++ [e]) t := by
  constructor
  · intro h
    refine ⟨by simpa using h [] e t rfl, fun before d after ht => ?_⟩
    simpa using h (e :: before) d after (by rw [ht, List.cons_append])
  · rintro ⟨hhead, htail⟩ before d after ht
    cases before with
    | nil =>
      obtain ⟨rfl, -⟩ := List.cons.inj ht
      simpa using hhead
    | cons b before =>
      obtain ⟨rfl, hrest⟩ := List.cons.inj ht
      simpa using htail before d after hrest

theorem eachAfter_filter {P : List ε → ε → Prop} {p : ε → Bool}
    (hseen : ∀ seen e, P (seen.filter p) e ↔ P seen e) (hrest : ∀ seen e, p e = false → P seen e)
    (seen t : List ε) : EachAfter P (seen.filter p) (t.filter p) ↔ EachAfter P seen t := by
  induction t generalizing seen with
  | nil => simp
  | cons e t ih =>
    have ih := ih (seen ++ [e])
    rw [List.filter_append] at ih
    cases he : p e with
    | false =>
      rw [List.filter_cons_of_neg (by simp [he]), eachAfter_cons, ← ih, List.filter_cons_of_neg (by simp [he])]
      simp [hrest seen e he]
    | true =>
      rw [List.filter_cons_of_pos he, eachAfter_cons, eachAfter_cons, ← ih, List.filter_cons_of_pos he, hseen]
      simp

end Trace

end Mizzle.Lib
