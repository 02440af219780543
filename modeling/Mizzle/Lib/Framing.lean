import Mizzle.Lib.Results

/-!
# Readers of one frame

A reader takes a stream of tokens; it fails, or it returns a value and the rest of the stream. It is
framed if it takes a prefix of the stream and what comes after that prefix has no influence on it.
Readers that decide token by token are framed (`framed_of_steps`), and so is one framed reader after
another (`Framed.bind`).

Reading again and again with a framed reader cuts every stream into frames and a tail that has none
(`Framed.exists_frames`).
-/

namespace Mizzle.Lib

abbrev Reader (τ ε α : Type) := List τ → Except ε (α × List τ)

variable {τ ε α β σ : Type}

/-- The reader takes a prefix, and would read it in front of any other rest too. -/
def Framed (p : Reader τ ε α) : Prop :=
  ∀ stream a rest, p stream = .ok (a, rest) ↔ ∃ taken, stream = taken ++ rest ∧ p taken = .ok (a, [])

/-- One reader, then another one on the rest. -/
def Reader.andThen (p : Reader τ ε α) (q : α → Reader τ ε β) : Reader τ ε β :=
  fun stream => (p stream).bind fun r => q r.1 r.2

variable {a : α} {stream rest : List τ}

namespace Framed

variable {p : Reader τ ε α} {q : α → Reader τ ε β}

theorem append (h : Framed p) {taken : List τ} (hread : p taken = .ok (a, [])) (rest : List τ) :
    p (taken ++ rest) = .ok (a, rest) :=
  (h _ a rest).mpr ⟨taken, rfl, hread⟩

theorem exists_taken (h : Framed p) (hread : p stream = .ok (a, rest)) :
    ∃ taken, stream = taken ++ rest ∧ p taken = .ok (a, []) :=
  (h stream a rest).mp hread

theorem length_le (h : Framed p) (hread : p stream = .ok (a, rest)) :
    rest.length ≤ stream.length := by
  obtain ⟨taken, rfl, -⟩ := h.exists_taken hread
  rw [List.length_append]
  exact Nat.le_add_left _ _

theorem length_lt (h : Framed p) (hnil : ∀ a rest, p [] ≠ .ok (a, rest))
    (hread : p stream = .ok (a, rest)) : rest.length < stream.length := by
  obtain ⟨taken, rfl, htaken⟩ := h.exists_taken hread
  have hne : taken ≠ [] := by
    rintro rfl
    exact hnil a [] htaken
  have hpos := List.length_pos_of_ne_nil hne
  rw [List.length_append]
  omega

theorem bind (hp : Framed p) (hq : ∀ a, Framed (q a)) : Framed (p.andThen q) := by
  intro stream b rest
  constructor
  · intro h
    obtain ⟨⟨a, middle⟩, hfirst, hsecond⟩ := bind_eq_ok_iff.mp h
    obtain ⟨taken, rfl, hread⟩ := hp.exists_taken hfirst
    obtain ⟨taken', rfl, hread'⟩ := (hq a).exists_taken hsecond
    refine ⟨taken ++ taken', (List.append_assoc _ _ _).symm, ?_⟩
    exact bind_eq_ok_iff.mpr ⟨(a, taken'), hp.append hread taken', hread'⟩
  · rintro ⟨taken, rfl, h⟩
    obtain ⟨⟨a, middle⟩, hfirst, hsecond⟩ := bind_eq_ok_iff.mp h
    obtain ⟨taken, rfl, hread⟩ := hp.exists_taken hfirst
    rw [List.append_assoc]
    exact bind_eq_ok_iff.mpr ⟨(a, middle ++ rest), hp.append hread _, (hq a).append hsecond rest⟩

theorem map (hp : Framed p) (f : α → β) : Framed (p.andThen fun a rest => .ok (f a, rest)) := by
  refine hp.bind fun a stream b rest => ⟨fun h => ?_, ?_⟩
  · obtain ⟨rfl, rfl⟩ := Prod.mk.inj (Except.ok.inj h)
    exact ⟨[], rfl, rfl⟩
  · rintro ⟨taken, rfl, h⟩
    obtain ⟨rfl, rfl⟩ := Prod.mk.inj (Except.ok.inj h)
    rfl

theorem mapError {ε' : Type} (hp : Framed p) (f : ε → ε') :
    Framed fun stream => (p stream).mapError f := by
  intro stream a rest
  simp only [mapError_eq_ok_iff]
  exact hp stream a rest

theorem exists_frames (h : Framed p) (hnil : ∀ a rest, p [] ≠ .ok (a, rest)) (stream : List τ) :
    ∃ (frames : List (List τ)) (tail : List τ), stream = frames.flatten ++ tail ∧
      (∀ frame ∈ frames, ∃ a, p frame = .ok (a, [])) ∧ ∀ a rest, p tail ≠ .ok (a, rest) := by
  induction hn : stream.length using Nat.strongRecOn generalizing stream with
  | ind n ih =>
    by_cases hread : ∃ a rest, p stream = .ok (a, rest)
    · obtain ⟨a, rest, hread⟩ := hread
      have hshorter : rest.length < n := hn ▸ h.length_lt hnil hread
      obtain ⟨taken, rfl, htaken⟩ := h.exists_taken hread
      obtain ⟨frames, tail, rfl, hframes, htail⟩ := ih rest.length hshorter rest rfl
      refine ⟨taken :: frames, tail, ?_, List.forall_mem_cons.mpr ⟨⟨a, htaken⟩, hframes⟩, htail⟩
      rw [List.flatten_cons, List.append_assoc]
    · exact ⟨[], stream, rfl, List.forall_mem_nil _, fun a rest hok => hread ⟨a, rest, hok⟩⟩

end Framed

/-- What a loop does with one token: it ends with a value, it fails, or it goes on. -/
inductive TokenStep (p : σ → Reader τ ε α) (s : σ) (t : τ) : Prop
  | stop (a : α) (h : ∀ rest, p s (t :: rest) = .ok (a, rest))
  | fail (e : ε) (h : ∀ rest, p s (t :: rest) = .error e)
  | go (s' : σ) (h : ∀ rest, p s (t :: rest) = p s' rest)

theorem framed_of_steps {p : σ → Reader τ ε α} (hnil : ∀ s, ∃ e, p s [] = .error e)
    (hstep : ∀ s t, TokenStep p s t) (s : σ) : Framed (p s) := by
  have hne : ∀ s a rest, p s [] ≠ .ok (a, rest) := by
    intro s a rest h
    obtain ⟨e, he⟩ := hnil s
    exact nomatch he.symm.trans h
  intro stream a rest
  constructor
  · intro h
    induction stream generalizing s with
    | nil => exact absurd h (hne s a rest)
    | cons t stream ih =>
      cases hstep s t with
      | stop b hstop =>
        obtain ⟨rfl, rfl⟩ := Prod.mk.inj (Except.ok.inj ((hstop stream).symm.trans h))
        exact ⟨[t], rfl, hstop []⟩
      | fail e hfail => exact nomatch (hfail stream).symm.trans h
      | go s' hgo =>
        obtain ⟨taken, rfl, hread⟩ := ih s' ((hgo stream).symm.trans h)
        exact ⟨t :: taken, rfl, (hgo taken).trans hread⟩
  · rintro ⟨taken, rfl, h⟩
    induction taken generalizing s with
    | nil => exact absurd h (hne s a [])
    | cons t taken ih =>
      cases hstep s t with
      | stop b hstop =>
        obtain ⟨rfl, rfl⟩ := Prod.mk.inj (Except.ok.inj ((hstop taken).symm.trans h))
        exact hstop rest
      | fail e hfail => exact nomatch (hfail taken).symm.trans h
      | go s' hgo => exact (hgo (taken ++ rest)).trans (ih s' ((hgo taken).symm.trans h))

end Mizzle.Lib
