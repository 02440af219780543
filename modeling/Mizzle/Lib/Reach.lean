import Mathlib

/-!
# Reachability over parent lists

A graph is given by the list of parents of every node. `Reach parents tips c` says that `c` is one
of the tips or an ancestor of one. The second half is about a sequence of tips `ts` (some positions
empty) handed out one after the other: `Listed parents base ts i c` says that the tip at position
`i` reaches `c` while neither the base nor a tip at an earlier position does. Every node that some
tip reaches and the base does not is listed at exactly one position, the first one that reaches it
(`listed_iff_first`, `exists_listed_iff`).
-/

namespace Mizzle.Lib

variable {α : Type*}

/-- The edge relation of a graph given by its parent lists. -/
def Edge (parents : α → List α) (child parent : α) : Prop := parent ∈ parents child

/-- `c` is one of the tips or an ancestor of one of them. -/
def Reach (parents : α → List α) (tips : List α) (c : α) : Prop :=
  ∃ t ∈ tips, Relation.ReflTransGen (Edge parents) t c

/-- No node is its own proper ancestor. -/
def Acyclic (parents : α → List α) : Prop := ∀ c, ¬ Relation.TransGen (Edge parents) c c

variable {parents : α → List α} {tips more : List α} {c d e : α}

@[simp] theorem reach_nil : ¬ Reach parents [] c := by
  rintro ⟨t, ht, -⟩
  exact List.not_mem_nil ht

theorem reach_append :
    Reach parents (tips ++ more) c ↔ Reach parents tips c ∨ Reach parents more c := by
  constructor
  · rintro ⟨t, ht, hpath⟩
    rcases List.mem_append.mp ht with ht | ht
    · exact Or.inl ⟨t, ht, hpath⟩
    · exact Or.inr ⟨t, ht, hpath⟩
  · rintro (⟨t, ht, hpath⟩ | ⟨t, ht, hpath⟩)
    · exact ⟨t, List.mem_append_left _ ht, hpath⟩
    · exact ⟨t, List.mem_append_right _ ht, hpath⟩

theorem reach_singleton : Reach parents [d] c ↔ Relation.ReflTransGen (Edge parents) d c := by
  constructor
  · rintro ⟨t, ht, hpath⟩
    rw [List.mem_singleton] at ht
    exact ht ▸ hpath
  · intro hpath
    exact ⟨d, List.mem_singleton_self d, hpath⟩

theorem acyclic_of_rank (rank : α → Nat) (h : ∀ c p, p ∈ parents c → rank p < rank c) :
    Acyclic parents := by
  have hpath : ∀ {c p}, Relation.TransGen (Edge parents) c p → rank p < rank c := by
    intro c p hpath
    induction hpath with
    | single hedge => exact h _ _ hedge
    | tail _ hedge ih => exact (h _ _ hedge).trans ih
  exact fun c hc => lt_irrefl _ (hpath hc)

theorem reach_mono {parents' : α → List α} (hsub : ∀ c p, p ∈ parents c → p ∈ parents' c)
    (h : Reach parents tips c) : Reach parents' tips c := by
  obtain ⟨t, ht, hpath⟩ := h
  exact ⟨t, ht, Relation.ReflTransGen.mono hsub _ _ hpath⟩

theorem reach_congr {parents' : α → List α} (hsame : ∀ c p, p ∈ parents c ↔ p ∈ parents' c) :
    Reach parents tips c ↔ Reach parents' tips c :=
  ⟨reach_mono fun c p => (hsame c p).mp, reach_mono fun c p => (hsame c p).mpr⟩

theorem reach_trans (hcd : Reach parents [d] c) (h : Reach parents [c] e) :
    Reach parents [d] e := by
  rw [reach_singleton] at *
  exact hcd.trans h

theorem reach_step (h : Reach parents tips c) (hp : d ∈ parents c) : Reach parents tips d := by
  obtain ⟨t, ht, hpath⟩ := h
  exact ⟨t, ht, hpath.tail hp⟩

theorem reach_self (h : c ∈ tips) : Reach parents tips c := ⟨c, h, Relation.ReflTransGen.refl⟩

/-! ### Tips handed out in order -/

/-- The tip at position `i` reaches `c`; an empty position reaches nothing. -/
def ReachAt (parents : α → List α) (ts : List (Option α)) (i : Nat) (c : α) : Prop :=
  ∃ t, ts[i]? = some (some t) ∧ Reach parents [t] c

/-- The tip at position `i` reaches `c`, and neither `base` nor an earlier tip does. -/
def Listed (parents : α → List α) (base : List α) (ts : List (Option α)) (i : Nat) (c : α) : Prop :=
  ReachAt parents ts i c ∧ ¬ Reach parents (base ++ (ts.take i).reduceOption) c

variable {base : List α} {ts : List (Option α)} {i j : Nat}

theorem mem_take_reduceOption {t : α} :
    t ∈ (ts.take i).reduceOption ↔ ∃ j < i, ts[j]? = some (some t) := by
  rw [List.reduceOption_mem_iff, List.mem_take_iff_getElem]
  constructor
  · rintro ⟨j, hj, heq⟩
    have hlt : j < i ∧ j < ts.length := by omega
    exact ⟨j, hlt.1, by rw [List.getElem?_eq_getElem hlt.2, heq]⟩
  · rintro ⟨j, hj, heq⟩
    obtain ⟨hlen, heq⟩ := List.getElem?_eq_some_iff.mp heq
    exact ⟨j, by omega, heq⟩

theorem reach_take_iff :
    Reach parents (ts.take i).reduceOption c ↔ ∃ j < i, ReachAt parents ts j c := by
  constructor
  · rintro ⟨t, ht, hpath⟩
    obtain ⟨j, hj, heq⟩ := mem_take_reduceOption.mp ht
    exact ⟨j, hj, t, heq, reach_singleton.mpr hpath⟩
  · rintro ⟨j, hj, t, heq, hreach⟩
    exact ⟨t, mem_take_reduceOption.mpr ⟨j, hj, heq⟩, reach_singleton.mp hreach⟩

theorem listed_iff_first :
    Listed parents base ts i c ↔
      ¬ Reach parents base c ∧ ReachAt parents ts i c ∧ ∀ j < i, ¬ ReachAt parents ts j c := by
  rw [Listed, reach_append, reach_take_iff]
  constructor
  · rintro ⟨hat, hnot⟩
    exact ⟨fun hbase => hnot (Or.inl hbase), hat, fun j hj hearly => hnot (Or.inr ⟨j, hj, hearly⟩)⟩
  · rintro ⟨hbase, hat, hfirst⟩
    refine ⟨hat, ?_⟩
    rintro (h | ⟨j, hj, hearly⟩)
    · exact hbase h
    · exact hfirst j hj hearly

theorem listed_unique (hi : Listed parents base ts i c) (hj : Listed parents base ts j c) :
    i = j := by
  obtain ⟨-, hati, hfirsti⟩ := listed_iff_first.mp hi
  obtain ⟨-, hatj, hfirstj⟩ := listed_iff_first.mp hj
  rcases Nat.lt_trichotomy i j with hlt | heq | hlt
  · exact absurd hati (hfirstj i hlt)
  · exact heq
  · exact absurd hatj (hfirsti j hlt)

theorem exists_listed_iff :
    (∃ i, Listed parents base ts i c) ↔ (∃ i, ReachAt parents ts i c) ∧ ¬ Reach parents base c := by
  classical
  constructor
  · rintro ⟨i, hi⟩
    obtain ⟨hbase, hat, -⟩ := listed_iff_first.mp hi
    exact ⟨⟨i, hat⟩, hbase⟩
  · rintro ⟨hsome, hbase⟩
    exact ⟨Nat.find hsome, listed_iff_first.mpr
      ⟨hbase, Nat.find_spec hsome, fun j hj => Nat.find_min hsome hj⟩⟩

end Mizzle.Lib
