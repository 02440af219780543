import Mathlib

/-!
# Services that answer requests

A service answers requests one after the other; each answer may change its state, and may take fuel.
A `Spec` says which requests have to be answered, with which replies, and what a request does to an
abstract state. A service that implements the specification one request at a time implements it for
every list of requests (`Implements.run_answers`), and two services that implement one specification
cannot be told apart by more than it leaves open (`Implements.agree`). If the specification keeps
some requests apart from the others, so does the service (`Implements.isolates`).
-/

namespace Mizzle.Lib

variable {α σ τ ι ω : Type*}

/-- What is expected of a service, on an abstract state. -/
structure Spec (α ι ω : Type*) where
  admits : α → ι → Prop
  after : α → ι → α
  replies : α → ι → ω → Prop

variable {is : List ι} {a : α} {alike : ω → ω → Prop} {os : List ω}

namespace Spec

/-- Every request is admitted when it is made. -/
def AdmitsAll (spec : Spec α ι ω) : α → List ι → Prop
  | _, [] => True
  | a, i :: is => spec.admits a i ∧ spec.AdmitsAll (spec.after a i) is

/-- The abstract state after the requests. -/
def run (spec : Spec α ι ω) (a : α) (is : List ι) : α := is.foldl spec.after a

/-- The replies to a list of requests, each as it may be when the request is made. -/
inductive RepliesAll (spec : Spec α ι ω) : α → List ι → List ω → Prop
  | nil (a : α) : RepliesAll spec a [] []
  | cons {a : α} {i : ι} {o : ω} {is : List ι} {os : List ω} (head : spec.replies a i o)
      (tail : RepliesAll spec (spec.after a i) is os) : RepliesAll spec a (i :: is) (o :: os)

variable {spec : Spec α ι ω}

theorem RepliesAll.forall₂
    (halike : ∀ a i o o', spec.admits a i → spec.replies a i o → spec.replies a i o' → alike o o')
    (his : spec.AdmitsAll a is) {os os' : List ω} (h : spec.RepliesAll a is os)
    (h' : spec.RepliesAll a is os') : List.Forall₂ alike os os' := by
  induction h generalizing os' with
  | nil a =>
    cases h'
    exact .nil
  | cons head _ ih =>
    cases h' with
    | cons head' tail' => exact .cons (halike _ _ _ _ his.1 head head') (ih his.2 tail')

theorem admitsAll_append {is js : List ι} :
    spec.AdmitsAll a (is ++ js) ↔ spec.AdmitsAll a is ∧ spec.AdmitsAll (spec.run a is) js := by
  induction is generalizing a with
  | nil => simp [AdmitsAll, run]
  | cons i is ih => simp only [List.cons_append, AdmitsAll, ih, run, List.foldl_cons, and_assoc]

theorem RepliesAll.length_eq (h : spec.RepliesAll a is os) : os.length = is.length := by
  induction h with
  | nil a => rfl
  | cons _ _ ih => rw [List.length_cons, List.length_cons, ih]

theorem RepliesAll.exists_append {is js : List ι} (h : spec.RepliesAll a (is ++ js) os) :
    ∃ first rest, os = first ++ rest ∧ spec.RepliesAll a is first ∧
      spec.RepliesAll (spec.run a is) js rest := by
  induction is generalizing a os with
  | nil => exact ⟨[], os, rfl, .nil a, h⟩
  | cons i is ih =>
    cases h with
    | cons head tail =>
      obtain ⟨first, rest, rfl, hfirst, hrest⟩ := ih tail
      exact ⟨_ :: first, rest, rfl, .cons head hfirst, hrest⟩

/-- The replies to the requests of a kind. -/
def repliesTo (mine : ι → Bool) (is : List ι) (os : List ω) : List ω :=
  ((is.zip os).filter fun answered => mine answered.1).map Prod.snd

variable (spec) in
/-- States that a kind of requests cannot tell apart, whatever other requests the first one is
given. -/
structure Hides (mine : ι → Bool) (sim : α → α → Prop) : Prop where
  skip : ∀ {a b i}, sim a b → mine i = false → sim (spec.after a i) b
  admits : ∀ {a b i}, sim a b → mine i = true → spec.admits a i → spec.admits b i
  after : ∀ {a b i}, sim a b → mine i = true → sim (spec.after a i) (spec.after b i)
  replies : ∀ {a b i o}, sim a b → mine i = true → spec.replies a i o → spec.replies b i o

variable {mine : ι → Bool} {sim : α → α → Prop}

theorem Hides.admitsAll (h : spec.Hides mine sim) {a b : α} (hab : sim a b)
    (his : spec.AdmitsAll a is) : spec.AdmitsAll b (is.filter mine) := by
  induction is generalizing a b with
  | nil => exact trivial
  | cons i is ih =>
    cases hmine : mine i with
    | false =>
      rw [List.filter_cons_of_neg (by simp [hmine])]
      exact ih (h.skip hab hmine) his.2
    | true =>
      rw [List.filter_cons_of_pos hmine]
      exact ⟨h.admits hab hmine his.1, ih (h.after hab hmine) his.2⟩

theorem Hides.repliesAll (h : spec.Hides mine sim) {a b : α} (hab : sim a b)
    (hreplies : spec.RepliesAll a is os) :
    spec.RepliesAll b (is.filter mine) (repliesTo mine is os) := by
  induction hreplies generalizing b with
  | nil a => exact .nil b
  | @cons a i o is os head _ ih =>
    cases hmine : mine i with
    | false =>
      rw [repliesTo, List.zip_cons_cons, List.filter_cons_of_neg (by simp [hmine]),
        List.filter_cons_of_neg (by simp [hmine])]
      exact ih (h.skip hab hmine)
    | true =>
      rw [repliesTo, List.zip_cons_cons, List.filter_cons_of_pos hmine, List.filter_cons_of_pos (by simp [hmine])]
      exact .cons (h.replies hab hmine head) (ih (h.after hab hmine))

end Spec

/-- The state afterwards and the reply; `none` if there is no answer within the fuel. -/
abbrev Service (σ ι ω : Type*) := Nat → σ → ι → Option (σ × ω)

namespace Service

/-- The requests of a list, each with the same fuel. -/
def run (serve : Service σ ι ω) (fuel : Nat) : σ → List ι → Option (σ × List ω)
  | s, [] => some (s, [])
  | s, i :: is => do
    let (middle, o) ← serve fuel s i
    let (last, os) ← run serve fuel middle is
    return (last, o :: os)

/-- The request is answered from some fuel on, always alike. -/
def Answers (serve : Service σ ι ω) (s : σ) (i : ι) (s' : σ) (o : ω) : Prop :=
  ∃ enough, ∀ fuel, enough ≤ fuel → serve fuel s i = some (s', o)

/-- The same for a list of requests. -/
def AnswersAll (serve : Service σ ι ω) (s : σ) (is : List ι) (s' : σ) (os : List ω) : Prop :=
  ∃ enough, ∀ fuel, enough ≤ fuel → serve.run fuel s is = some (s', os)

/-- The service does what is specified, in the states that stand for an abstract one. -/
def Implements (serve : Service σ ι ω) (spec : Spec α ι ω) (stands : σ → α → Prop) : Prop :=
  ∀ s a i, stands s a → spec.admits a i → ∃ s' o, serve.Answers s i s' o ∧
    stands s' (spec.after a i) ∧ spec.replies a i o

variable {serve : Service σ ι ω} {spec : Spec α ι ω} {stands : σ → α → Prop}

theorem AnswersAll.cons {s s' s'' : σ} {i : ι} {o : ω} {is : List ι} {os : List ω}
    (h : serve.Answers s i s' o) (hrest : serve.AnswersAll s' is s'' os) :
    serve.AnswersAll s (i :: is) s'' (o :: os) := by
  obtain ⟨enough, hfirst⟩ := h
  obtain ⟨enough', hrest⟩ := hrest
  refine ⟨max enough enough', fun fuel hfuel => ?_⟩
  rw [run, hfirst fuel (by omega)]
  simp [hrest fuel (by omega)]

/-- **A service does for every list of requests what it does for one.** -/
theorem Implements.run_answers (h : serve.Implements spec stands) {s : σ} (hs : stands s a)
    (his : spec.AdmitsAll a is) :
    ∃ s' os, serve.AnswersAll s is s' os ∧ stands s' (spec.run a is) ∧ spec.RepliesAll a is os := by
  induction is generalizing s a with
  | nil => exact ⟨s, [], ⟨0, fun _ _ => rfl⟩, hs, .nil a⟩
  | cons i is ih =>
    obtain ⟨hone, hrest⟩ := his
    obtain ⟨middle, o, hanswer, hmiddle, hreply⟩ := h s a i hs hone
    obtain ⟨last, os, hanswers, hlast, hreplies⟩ := ih hmiddle hrest
    exact ⟨last, o :: os, .cons hanswer hanswers, hlast, .cons hreply hreplies⟩

/-- **Two services with one specification** give alike replies to every list of requests. -/
theorem Implements.agree {serve' : Service τ ι ω} {stands' : τ → α → Prop}
    (h : serve.Implements spec stands) (h' : serve'.Implements spec stands')
    (halike : ∀ a i o o', spec.admits a i → spec.replies a i o → spec.replies a i o' → alike o o')
    {s : σ} {t : τ} (hs : stands s a) (ht : stands' t a) (his : spec.AdmitsAll a is) :
    ∃ s' os t' os', serve.AnswersAll s is s' os ∧ serve'.AnswersAll t is t' os' ∧
      List.Forall₂ alike os os' ∧
      stands s' (spec.run a is) ∧ stands' t' (spec.run a is) := by
  obtain ⟨s', os, hanswers, hs', hreplies⟩ := h.run_answers hs his
  obtain ⟨t', os', hanswers', ht', hreplies'⟩ := h'.run_answers ht his
  exact ⟨s', os, t', os', hanswers, hanswers', hreplies.forall₂ halike his hreplies', hs', ht'⟩

/-- **Requests of a kind are answered as they are without the others.** -/
theorem Implements.isolates (h : serve.Implements spec stands)
    (halike : ∀ a i o o', spec.admits a i → spec.replies a i o → spec.replies a i o' → alike o o')
    {mine : ι → Bool} {sim : α → α → Prop} (hides : spec.Hides mine sim) {s t : σ} {a b : α}
    (hs : stands s a) (ht : stands t b) (hab : sim a b) (his : spec.AdmitsAll a is) :
    ∃ s' os t' os', serve.AnswersAll s is s' os ∧ serve.AnswersAll t (is.filter mine) t' os' ∧
      List.Forall₂ alike (Spec.repliesTo mine is os) os' := by
  have hmine := hides.admitsAll hab his
  obtain ⟨s', os, hanswers, -, hreplies⟩ := h.run_answers hs his
  obtain ⟨t', os', hanswers', -, hreplies'⟩ := h.run_answers ht hmine
  exact ⟨s', os, t', os', hanswers, hanswers', (hides.repliesAll hab hreplies).forall₂ halike hmine hreplies'⟩

end Service

end Mizzle.Lib
