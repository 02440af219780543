import Mizzle.Lib.Walk

/-!
# Traversals that mark what they meet

A node lists items: nodes to go into and leaves to take along. A traversal keeps a set of marks. It
goes into a node that is neither marked nor known beforehand, marks every node it goes into, and
marks every leaf it meets that is not known. The order in which the items are looked at is up to the
implementation: a work list with any discipline (`drain`) or a recursion (`collect`).

Both are runs of one relation (`Visits`). What is marked in the end does not depend on the run
(`mem_of_visits`): what was marked at the start, the nodes that can be entered without passing a
node marked or known at the start, and the unknown leaves of those, as long as no node is also a
leaf. The executable versions come with fuel; they answer if it covers a closed set of nodes
(`drain_answers`, `collect_answers`), and they read nothing outside such a set (`drain_congr`,
`collect_congr`).
-/

namespace Mizzle.Lib

variable {α ε : Type}

inductive Item (α : Type) where
  | node (x : α)
  | leaf (x : α)
deriving DecidableEq

variable {x : α} {items : α → Except ε (List (Item α))} {marks marks' : Finset α} {fuel : Nat}
  {pending : List (Item α)} {known : Finset α} {enqueue : List α → List α → List α} {work : List α}
  {is : List (Item α)} {inner : α → Prop}

/-- The items of a lookup that may fail: a failing node has none. -/
def listed (items : α → Except ε (List (Item α))) (x : α) : List (Item α) :=
  match items x with
  | .ok is => is
  | .error _ => []

theorem listed_ok (h : items x = .ok is) : listed items x = is := by rw [listed, h]

/-- Nodes are `inner` and leaves are not. -/
def Separates (inner : α → Prop) (is : List (Item α)) : Prop :=
  ∀ x, (.node x ∈ is → inner x) ∧ (.leaf x ∈ is → ¬ inner x)

theorem Separates.tail {inner : α → Prop} {i : Item α} {rest : List (Item α)}
    (h : Separates inner (i :: rest)) : Separates inner rest :=
  fun x => ⟨fun hx => (h x).1 (List.mem_cons_of_mem _ hx), fun hx =>
    (h x).2 (List.mem_cons_of_mem _ hx)⟩

theorem Separates.append {is more : List (Item α)} (h : Separates inner is)
    (hmore : Separates inner more) : Separates inner (is ++ more) := by
  intro x
  rw [List.mem_append, List.mem_append]
  exact ⟨fun hx => hx.elim (h x).1 (hmore x).1, fun hx => hx.elim (h x).2 (hmore x).2⟩

theorem Separates.perm {is more : List (Item α)} (h : Separates inner is) (hperm : is.Perm more) :
    Separates inner more := by
  intro x
  rw [← hperm.mem_iff, ← hperm.mem_iff]
  exact h x

/-! ### What is marked in the end -/

variable {avoid : α → Prop} {taken taken' : List α}

section Relation

variable [DecidableEq α] {items : α → List (Item α)} {known : Finset α}

/-- The runs of a traversal: the items still to be looked at, the marks before and the marks
after. -/
inductive Visits (items : α → List (Item α)) (known : Finset α) :
    List (Item α) → Finset α → Finset α → Prop where
  | done (marks : Finset α) : Visits items known [] marks marks
  | skip {x : α} {rest : List (Item α)} {marks marks' : Finset α} (h : x ∈ known ∨ x ∈ marks)
      (hrest : Visits items known rest marks marks') :
        Visits items known (.node x :: rest) marks marks'
  | enter {x : α} {rest : List (Item α)} {marks marks' : Finset α} (hknown : x ∉ known)
    (hnew : x ∉ marks)
      (hrest : Visits items known (items x ++ rest) (insert x marks) marks') :
      Visits items known (.node x :: rest) marks marks'
  | pass {x : α} {rest : List (Item α)} {marks marks' : Finset α} (h : x ∈ known)
      (hrest : Visits items known rest marks marks') :
        Visits items known (.leaf x :: rest) marks marks'
  | take {x : α} {rest : List (Item α)} {marks marks' : Finset α} (hknown : x ∉ known)
      (hrest : Visits items known rest (insert x marks) marks') :
        Visits items known (.leaf x :: rest) marks marks'
  | reorder {pending pending' : List (Item α)} {marks marks' : Finset α}
    (hperm : pending.Perm pending')
      (hrest : Visits items known pending' marks marks') : Visits items known pending marks marks'

/-- The way into a node that is not avoided. -/
def Into (items : α → List (Item α)) (avoid : α → Prop) (x y : α) : Prop :=
  .node y ∈ items x ∧ ¬ avoid y

/-- The node can be entered without passing an avoided one. -/
def Entered (items : α → List (Item α)) (avoid : α → Prop) (pending : List (Item α)) (x : α) :
    Prop :=
  ∃ r, .node r ∈ pending ∧ ¬ avoid r ∧ Relation.ReflTransGen (Into items avoid) r x

/-- The nodes that a run has entered, and what it has made of the marks. -/
structure Explored (items : α → List (Item α)) (known : Finset α) (pending : List (Item α))
    (marks marks' : Finset α) (entered : α → Prop) : Prop where
  fresh : ∀ d, entered d → d ∉ known ∧ d ∉ marks
  sound : ∀ d, entered d → Entered items (fun x => x ∈ known ∨ x ∈ marks) pending d
  start : ∀ x, .node x ∈ pending → entered x ∨ x ∈ known ∨ x ∈ marks
  closed : ∀ d, entered d → ∀ x, .node x ∈ items d → entered x ∨ x ∈ known ∨ x ∈ marks
  marked : ∀ x, x ∈ marks' ↔ x ∈ marks ∨ entered x ∨
    x ∉ known ∧ (.leaf x ∈ pending ∨ ∃ d, entered d ∧ .leaf x ∈ items d)

omit [DecidableEq α] in
theorem Entered.mono {avoid avoid' : α → Prop} (havoid : ∀ x, avoid x → avoid' x)
    (h : Entered items avoid' pending x) : Entered items avoid pending x := by
  obtain ⟨r, hr, hnot, hpath⟩ := h
  refine ⟨r, hr, fun hr => hnot (havoid r hr), ?_⟩
  exact Relation.ReflTransGen.mono (fun _ _ h => ⟨h.1, fun hy => h.2 (havoid _ hy)⟩) _ _ hpath

theorem Explored.enter {x : α} {rest : List (Item α)} {marks marks' : Finset α} (hknown : x ∉ known)
    (hnew : x ∉ marks) {entered : α → Prop}
    (h : Explored items known (items x ++ rest) (insert x marks) marks' entered) :
    Explored items known (.node x :: rest) marks marks' fun d => d = x ∨ entered d := by
  have hmarks : ∀ y, y ∈ known ∨ y ∈ marks → y ∈ known ∨ y ∈ insert x marks :=
    fun y hy => Or.imp_right Finset.mem_insert_of_mem hy
  have hcovered : ∀ y, entered y ∨ y ∈ known ∨ y ∈ insert x marks → (y = x ∨ entered y) ∨
      y ∈ known ∨ y ∈ marks := by
    intro y hy
    rw [Finset.mem_insert] at hy
    tauto
  have hroot : Entered items (fun y => y ∈ known ∨ y ∈ marks) (.node x :: rest) x :=
    ⟨x, List.mem_cons_self, by tauto, .refl⟩
  refine ⟨?_, ?_, ?_, ?_, ?_⟩
  · rintro d (rfl | hd)
    · exact ⟨hknown, hnew⟩
    · exact ⟨(h.fresh d hd).1, fun hmem => (h.fresh d hd).2 (Finset.mem_insert_of_mem hmem)⟩
  · rintro d (rfl | hd)
    · exact hroot
    · obtain ⟨r, hr, hnot, hpath⟩ := Entered.mono hmarks (h.sound d hd)
      rcases List.mem_append.mp hr with hr | hr
      · exact ⟨x, List.mem_cons_self, by tauto, .head ⟨hr, hnot⟩ hpath⟩
      · exact ⟨r, List.mem_cons_of_mem _ hr, hnot, hpath⟩
  · intro y hy
    rcases List.mem_cons.mp hy with heq | hy
    · obtain rfl := Item.node.inj heq
      exact Or.inl (Or.inl rfl)
    · exact hcovered y (h.start y (List.mem_append_right _ hy))
  · rintro d (rfl | hd) y hy
    · exact hcovered y (h.start y (List.mem_append_left _ hy))
    · exact hcovered y (h.closed d hd y hy)
  · intro y
    rw [h.marked, Finset.mem_insert, List.mem_append, List.mem_cons]
    simp only [reduceCtorEq, false_or, or_and_right, exists_or, exists_eq_left]
    tauto

theorem Explored.take {x : α} {rest : List (Item α)} {marks marks' : Finset α} (hknown : x ∉ known)
    (hnode : .node x ∉ rest) (hnodes : ∀ d, .node x ∉ items d) {entered : α → Prop}
    (h : Explored items known rest (insert x marks) marks' entered) :
    Explored items known (.leaf x :: rest) marks marks' entered := by
  have hmarks : ∀ y, y ∈ known ∨ y ∈ marks → y ∈ known ∨ y ∈ insert x marks :=
    fun y hy => Or.imp_right Finset.mem_insert_of_mem hy
  have hcovered : ∀ y, y ≠ x → entered y ∨ y ∈ known ∨ y ∈ insert x marks → entered y ∨ y ∈ known ∨
      y ∈ marks := by
    intro y hne hy
    rw [Finset.mem_insert] at hy
    tauto
  refine ⟨?_, ?_, ?_, ?_, ?_⟩
  · exact fun d hd => ⟨(h.fresh d hd).1, fun hmem =>
      (h.fresh d hd).2 (Finset.mem_insert_of_mem hmem)⟩
  · intro d hd
    obtain ⟨r, hr, hnot, hpath⟩ := Entered.mono hmarks (h.sound d hd)
    exact ⟨r, List.mem_cons_of_mem _ hr, hnot, hpath⟩
  · intro y hy
    have hrest : .node y ∈ rest := by simpa using hy
    exact hcovered y (fun heq => hnode (heq ▸ hrest)) (h.start y hrest)
  · exact fun d hd y hy => hcovered y (fun heq => hnodes d (heq ▸ hy)) (h.closed d hd y hy)
  · intro y
    rw [h.marked, Finset.mem_insert, List.mem_cons, Item.leaf.injEq]
    by_cases heq : y = x
    · subst heq
      tauto
    · tauto

theorem Visits.explored (hitems : ∀ x, Separates inner (items x))
    (h : Visits items known pending marks marks') (hpending : Separates inner pending) :
    ∃ entered, Explored items known pending marks marks' entered := by
  induction h with
  | done marks => exact ⟨fun _ => False, nofun, nofun, nofun, nofun, by simp⟩
  | @skip x rest marks marks' hmarked _ ih =>
    obtain ⟨entered, he⟩ := ih hpending.tail
    refine ⟨entered, he.fresh, fun d hd => ?_, fun y hy => ?_, he.closed, fun y => ?_⟩
    · obtain ⟨r, hr, hway⟩ := he.sound d hd
      exact ⟨r, List.mem_cons_of_mem _ hr, hway⟩
    · rcases List.mem_cons.mp hy with heq | hy
      · exact Or.inr (Item.node.inj heq ▸ hmarked)
      · exact he.start y hy
    · simp [he.marked]
  | @enter x rest marks marks' hknown hnew _ ih =>
    have hmore : Separates inner (items x ++ rest) := (hitems x).append hpending.tail
    obtain ⟨entered, he⟩ := ih hmore
    exact ⟨_, he.enter hknown hnew⟩
  | @pass x rest marks marks' hknown _ ih =>
    obtain ⟨entered, he⟩ := ih hpending.tail
    refine ⟨entered, he.fresh, fun d hd => ?_,
      fun y hy => he.start y (by simpa using hy), he.closed, fun y => ?_⟩
    · obtain ⟨r, hr, hway⟩ := he.sound d hd
      exact ⟨r, List.mem_cons_of_mem _ hr, hway⟩
    · rw [he.marked, List.mem_cons, Item.leaf.injEq]
      by_cases heq : y = x
      · subst heq
        tauto
      · tauto
  | @take x rest marks marks' hknown _ ih =>
    have hleaf : ¬ inner x := (hpending x).2 List.mem_cons_self
    obtain ⟨entered, he⟩ := ih hpending.tail
    exact ⟨entered, he.take hknown (fun hx => hleaf ((hpending.tail x).1 hx)) fun d hx =>
      hleaf ((hitems d x).1 hx)⟩
  | @reorder pending pending' marks marks' hperm _ ih =>
    obtain ⟨entered, he⟩ := ih (hpending.perm hperm)
    refine ⟨entered, he.fresh, fun d hd => ?_,
      fun y hy => he.start y (hperm.mem_iff.mp hy), he.closed, fun y => ?_⟩
    · obtain ⟨r, hr, hway⟩ := he.sound d hd
      exact ⟨r, hperm.mem_iff.mpr hr, hway⟩
    · rw [he.marked, hperm.mem_iff]

/-- **The marks after a run**, whatever its order. -/
theorem mem_of_visits (hitems : ∀ x, Separates inner (items x)) (hpending : Separates inner pending)
    (h : Visits items known pending marks marks') (x : α) :
    x ∈ marks' ↔ x ∈ marks ∨ Entered items (fun y => y ∈ known ∨ y ∈ marks) pending x ∨
      x ∉ known ∧ (.leaf x ∈ pending ∨
        ∃ d, Entered items (fun y => y ∈ known ∨ y ∈ marks) pending d ∧ .leaf x ∈ items d) := by
  obtain ⟨entered, he⟩ := h.explored hitems hpending
  have hentered : ∀ d, entered d ↔ Entered items (fun y => y ∈ known ∨ y ∈ marks) pending d := by
    refine fun d => ⟨he.sound d, ?_⟩
    rintro ⟨r, hr, hnot, hpath⟩
    induction hpath with
    | refl => exact (he.start r hr).resolve_right hnot
    | tail _ hstep ih => exact (he.closed _ ih _ hstep.1).resolve_right hstep.2
  simp only [he.marked, hentered]

/-- What a run meets that goes into no avoided node: the nodes it enters, the leaves at the start
and those of the nodes it enters. -/
def Met (items : α → List (Item α)) (avoid : α → Prop) (pending : List (Item α)) (x : α) : Prop :=
  Entered items avoid pending x ∨ .leaf x ∈ pending ∨ ∃ d, Entered items avoid pending d ∧
    .leaf x ∈ items d

omit [DecidableEq α] in
theorem entered_iff_exists :
    Entered items avoid pending x ↔ ∃ i ∈ pending, Entered items avoid [i] x := by
  constructor
  · rintro ⟨r, hr, hnot, hpath⟩
    exact ⟨.node r, hr, r, List.mem_singleton_self _, hnot, hpath⟩
  · rintro ⟨i, hi, r, hr, hnot, hpath⟩
    exact ⟨r, List.mem_singleton.mp hr ▸ hi, hnot, hpath⟩

omit [DecidableEq α] in
theorem met_iff_exists : Met items avoid pending x ↔ ∃ i ∈ pending, Met items avoid [i] x := by
  constructor
  · rintro (hx | hx | ⟨d, hd, hleaf⟩)
    · obtain ⟨i, hi, hx⟩ := entered_iff_exists.mp hx
      exact ⟨i, hi, Or.inl hx⟩
    · exact ⟨.leaf x, hx, Or.inr (Or.inl (List.mem_singleton_self _))⟩
    · obtain ⟨i, hi, hd⟩ := entered_iff_exists.mp hd
      exact ⟨i, hi, Or.inr (Or.inr ⟨d, hd, hleaf⟩)⟩
  · rintro ⟨i, hi, hx | hx | ⟨d, hd, hleaf⟩⟩
    · exact Or.inl (entered_iff_exists.mpr ⟨i, hi, hx⟩)
    · exact Or.inr (Or.inl (List.mem_singleton.mp hx ▸ hi))
    · exact Or.inr (Or.inr ⟨d, entered_iff_exists.mpr ⟨i, hi, hd⟩, hleaf⟩)

omit [DecidableEq α] in
theorem Met.congr {inner avoid avoid' : α → Prop} (hitems : ∀ x, Separates inner (items x))
    (hpending : Separates inner pending) (hsame : ∀ x, inner x → avoid' x → avoid x)
    (h : Met items avoid pending x) : Met items avoid' pending x := by
  have hentered : ∀ d, Entered items avoid pending d → Entered items avoid' pending d := by
    rintro d ⟨r, hr, hnot, hpath⟩
    refine ⟨r, hr, fun ha => hnot (hsame r ((hpending r).1 hr) ha), ?_⟩
    refine Relation.ReflTransGen.mono (fun a b hab => ⟨hab.1, fun hb => ?_⟩) _ _ hpath
    exact hab.2 (hsame b ((hitems a b).1 hab.1) hb)
  exact h.imp (hentered x) (Or.imp_right fun ⟨d, hd, hleaf⟩ => ⟨d, hentered d hd, hleaf⟩)

omit [DecidableEq α] in
theorem entered_or_iff {knows avoid : α → Prop}
    (hclosed : ∀ x y, knows x → .node y ∈ items x → knows y) {pending : List (Item α)} {x : α} :
    Entered items (fun y => knows y ∨ avoid y) pending x ↔ Entered items avoid pending x ∧
      ¬ knows x := by
  constructor
  · intro h
    refine ⟨h.mono fun y => Or.inr, ?_⟩
    obtain ⟨r, -, hnot, hpath⟩ := h
    cases hpath with
    | refl => exact fun hk => hnot (Or.inl hk)
    | tail _ hstep => exact fun hk => hstep.2 (Or.inl hk)
  · rintro ⟨⟨r, hr, hnot, hpath⟩, hx⟩
    have hway : ¬ knows r ∧ Relation.ReflTransGen (Into items fun y => knows y ∨ avoid y) r x := by
      clear hr hnot
      induction hpath using Relation.ReflTransGen.head_induction_on with
      | refl => exact ⟨hx, .refl⟩
      | head hstep _ ih =>
        exact ⟨fun hk => ih.1 (hclosed _ _ hk hstep.1),
          .head ⟨hstep.1, fun h => h.elim ih.1 hstep.2⟩ ih.2⟩
    exact ⟨r, hr, fun h => h.elim hway.1 hnot, hway.2⟩

omit [DecidableEq α] in
theorem entered_iff_of_closed (hclosed : ∀ x y, avoid x → .node y ∈ items x → avoid y) :
    Entered items avoid pending x ↔
      (∃ r, .node r ∈ pending ∧ Relation.ReflTransGen (fun a b => .node b ∈ items a) r x) ∧
        ¬ avoid x := by
  have hor := @entered_or_iff _ items avoid (fun _ => False) hclosed pending x
  have hfree : Into items (fun _ => False) = fun a b => .node b ∈ items a := by
    funext a b
    simp [Into]
  simpa [Entered, hfree] using hor

/-- **The marks after a run**, if everything behind a known node is known. -/
theorem mem_of_visits_closed (hitems : ∀ x, Separates inner (items x))
    (hknown : ∀ x ∈ known, ∀ y, .node y ∈ items x ∨ .leaf y ∈ items x → y ∈ known)
    (hpending : Separates inner pending) (h : Visits items known pending marks marks') (x : α) :
    x ∈ marks' ↔ x ∈ marks ∨ x ∉ known ∧ Met items (· ∈ marks) pending x := by
  have hentered : ∀ d, Entered items (fun y => y ∈ known ∨ y ∈ marks) pending d ↔
      Entered items (· ∈ marks) pending d ∧ d ∉ known :=
    fun d => entered_or_iff fun a b ha hb => hknown a ha b (Or.inl hb)
  rw [mem_of_visits hitems hpending h, Met]
  simp only [hentered]
  constructor
  · rintro (hx | ⟨hx, hnot⟩ | ⟨hnot, hleaf | ⟨d, ⟨hd, -⟩, hleaf⟩⟩)
    · exact Or.inl hx
    · exact Or.inr ⟨hnot, Or.inl hx⟩
    · exact Or.inr ⟨hnot, Or.inr (Or.inl hleaf)⟩
    · exact Or.inr ⟨hnot, Or.inr (Or.inr ⟨d, hd, hleaf⟩)⟩
  · rintro (hx | ⟨hnot, hx | hleaf | ⟨d, hd, hleaf⟩⟩)
    · exact Or.inl hx
    · exact Or.inr (Or.inl ⟨hx, hnot⟩)
    · exact Or.inr (Or.inr ⟨hnot, Or.inl hleaf⟩)
    · -- the leaves of a known node are known
      exact Or.inr (Or.inr ⟨hnot,
        Or.inr ⟨d, ⟨hd, fun hk => hnot (hknown d hk x (Or.inr hleaf))⟩, hleaf⟩⟩)

theorem Visits.append {pending more : List (Item α)} {marks marks' marks'' : Finset α}
    (h : Visits items known pending marks marks') (hmore : Visits items known more marks' marks'') :
    Visits items known (pending ++ more) marks marks'' := by
  induction h with
  | done => exact hmore
  | skip hmarked _ ih => exact .skip hmarked (ih hmore)
  | enter hknown hnew _ ih =>
    refine .enter hknown hnew ?_
    have hrest := ih hmore
    rwa [List.append_assoc] at hrest
  | pass hknown _ ih => exact .pass hknown (ih hmore)
  | take hknown _ ih => exact .take hknown (ih hmore)
  | reorder hperm _ ih => exact .reorder (hperm.append_right more) (ih hmore)

theorem Visits.union {inner : α → Prop} (hitems : ∀ x, Separates inner (items x))
    {pending : List (Item α)} {marks marks' : Finset α}
    (h : Visits items known pending marks marks') (hpending : Separates inner pending)
    {extra : Finset α} (hextra : ∀ x ∈ extra, ¬ inner x) :
    Visits items known pending (marks ∪ extra) (marks' ∪ extra) := by
  induction h with
  | done marks => exact .done _
  | skip hmarked _ ih =>
    exact .skip (hmarked.imp_right (Finset.mem_union_left extra)) (ih hpending.tail)
  | @enter x rest marks marks' hknown hnew _ ih =>
    have hinner : inner x := (hpending x).1 List.mem_cons_self
    have hmore : Separates inner (items x ++ rest) := (hitems x).append hpending.tail
    refine .enter hknown (fun hx => ?_) ?_
    · exact (Finset.mem_union.mp hx).elim hnew fun hx => hextra x hx hinner
    · rw [← Finset.insert_union]
      exact ih hmore
  | pass hknown _ ih => exact .pass hknown (ih hpending.tail)
  | take hknown _ ih =>
    refine .take hknown ?_
    rw [← Finset.insert_union]
    exact ih hpending.tail
  | reorder hperm _ ih => exact .reorder hperm (ih (hpending.perm hperm))

end Relation

/-! ### Work lists -/

variable [DecidableEq α]

theorem subset_of_visits {items : α → List (Item α)} {known : Finset α} {pending : List (Item α)}
    {marks marks' : Finset α} (h : Visits items known pending marks marks') : marks ⊆ marks' := by
  induction h with
  | done => exact Finset.Subset.refl _
  | skip _ _ ih | pass _ _ ih | reorder _ _ ih => exact ih
  | enter _ _ _ ih | take _ _ ih => exact (Finset.subset_insert _ _).trans ih

/-- One item: the marks afterwards, and the node to go into, if it is one. -/
def visitItem (known marks : Finset α) : Item α → Finset α × List α
  | .node x => if x ∈ known ∨ x ∈ marks then (marks, []) else (insert x marks, [x])
  | .leaf x => if x ∈ known then (marks, []) else (insert x marks, [])

/-- The items of one node in turn: the marks afterwards, and the nodes to go into. -/
def visitItems (known : Finset α) : List (Item α) → Finset α → Finset α × List α
  | [], marks => (marks, [])
  | i :: is, marks =>
    ((visitItems known is (visitItem known marks i).1).1,
      (visitItem known marks i).2 ++ (visitItems known is (visitItem known marks i).1).2)

/-- A work list: the next node is taken, its items are visited, and `enqueue` adds the nodes to go
into. Before a node is taken, `stop` may give up. The result is the marks and the nodes in the order
in which they were taken. -/
def drain (items : α → Except ε (List (Item α))) (known : Finset α)
    (enqueue : List α → List α → List α) (stop : Finset α → List α → Option ε) :
    Nat → List α → Finset α → List α → Option (Except ε (Finset α × List α))
  | _, [], marks, taken => some (.ok (marks, taken))
  | 0, _ :: _, _, _ => none
  | fuel + 1, x :: work, marks, taken =>
    match stop marks taken with
    | some e => some (.error e)
    | none =>
      match items x with
      | .error e => some (.error e)
      | .ok is =>
        drain items known enqueue stop fuel (enqueue work (visitItems known is marks).2)
          (visitItems known is marks).1
          (taken ++ [x])

/-- A walk without a limit. -/
def never : Finset α → List α → Option ε := fun _ _ => none

/-- `VecDeque::push_back` and `pop_front`. -/
def fifo (work new : List α) : List α := work ++ new

/-- `Vec::push` and `pop`. -/
def lifo (work new : List α) : List α := new.reverse ++ work

omit [DecidableEq α] in
theorem fifo_perm (work new : List α) : (fifo work new).Perm (new ++ work) := List.perm_append_comm

omit [DecidableEq α] in
theorem lifo_perm (work new : List α) : (lifo work new).Perm (new ++ work) :=
  (List.reverse_perm new).append_right work

theorem visits_of_visitItems {items : α → List (Item α)} {rest : List (Item α)}
    (h : Visits items known ((visitItems known is marks).2.flatMap items ++
      rest) (visitItems known is marks).1 marks') :
    Visits items known (is ++ rest) marks marks' := by
  induction is generalizing marks rest with
  | nil => exact h
  | cons i is ih =>
    rw [visitItems] at h
    cases i with
    | node x =>
      rw [visitItem] at h
      split at h
      · rename_i hmarked
        exact .skip hmarked (ih h)
      · rename_i hnew
        push Not at hnew
        -- the items of the new node may wait until those of the current one have been visited
        have hswap : ∀ as bs : List (Item α), (as ++ (bs ++ rest)).Perm (bs ++ (as ++ rest)) := by
          intro as bs
          rw [← List.append_assoc, ← List.append_assoc]
          exact List.perm_append_comm.append_right rest
        refine .enter hnew.1 hnew.2
          (.reorder (hswap (items x) is) (ih (.reorder (hswap _ (items x)) ?_)))
        rwa [List.flatMap_append, List.flatMap_singleton, List.append_assoc] at h
    | leaf x =>
      rw [visitItem] at h
      split at h
      · rename_i hknown
        exact .pass hknown (ih h)
      · rename_i hknown
        exact .take hknown (ih h)

variable {stop : Finset α → List α → Option ε}

theorem drain_cons {marks : Finset α} {taken : List α} {result : Finset α × List α}
    (h : drain items known enqueue stop (fuel + 1) (x :: work) marks taken = some (.ok result)) :
    ∃ is, items x = .ok is ∧ stop marks taken = none ∧
      drain items known enqueue stop fuel (enqueue work (visitItems known is marks).2)
        (visitItems known is marks).1
        (taken ++ [x]) = some (.ok result) := by
  rw [drain] at h
  split at h
  · simp at h
  · rename_i hstop
    split at h
    · simp at h
    · rename_i is hitems
      exact ⟨is, hitems, hstop, h⟩

/-- **Induction over a work list that is done**, from its end. -/
@[elab_as_elim]
theorem drain_induction {motive : Nat → List α → Finset α → List α → Prop}
    (nil : ∀ fuel, motive fuel [] marks' taken')
    (cons : ∀ fuel x work marks taken is, items x = .ok is →
      drain items known enqueue stop fuel (enqueue work (visitItems known is marks).2)
        (visitItems known is marks).1 (taken ++ [x]) = some (.ok (marks', taken')) →
      motive fuel (enqueue work (visitItems known is marks).2) (visitItems known is marks).1
        (taken ++ [x]) → motive (fuel + 1) (x :: work) marks taken)
    (h : drain items known enqueue stop fuel work marks taken = some (.ok (marks', taken'))) :
    motive fuel work marks taken := by
  have hnil : ∀ fuel {marks taken}, drain items known enqueue stop fuel [] marks taken =
      some (.ok (marks', taken')) → motive fuel [] marks taken := by
    intro fuel marks taken h
    obtain ⟨rfl, rfl⟩ : marks = marks' ∧ taken = taken' := by simpa [drain] using h
    exact nil fuel
  induction fuel generalizing work marks taken with
  | zero =>
    cases work with
    | nil => exact hnil 0 h
    | cons => simp [drain] at h
  | succ fuel ih =>
    cases work with
    | nil => exact hnil (fuel + 1) h
    | cons x work =>
      obtain ⟨is, hitems, -, hrest⟩ := drain_cons h
      exact cons fuel x work marks taken is hitems hrest (ih hrest)

/-- **A work list that is done is a run.** -/
theorem drain_visits (henqueue : ∀ work new, (enqueue work new).Perm (new ++ work))
    (h : drain items known enqueue stop fuel work marks taken = some (.ok (marks', taken'))) :
    Visits (listed items) known (work.flatMap (listed items)) marks marks' := by
  refine drain_induction (fun _ => .done marks') ?_ h
  intro _ x work marks taken is hitems _ ih
  rw [List.flatMap_cons, listed_ok hitems]
  refine visits_of_visitItems (.reorder ?_ ih)
  rw [← List.flatMap_append]
  exact ((henqueue work _).flatMap_right _).symm

theorem node_of_mem_visitItems {marks : Finset α} (h : x ∈ (visitItems known is marks).2) :
    .node x ∈ is := by
  induction is generalizing marks with
  | nil => simp [visitItems] at h
  | cons i is ih =>
    rw [visitItems] at h
    rcases List.mem_append.mp h with hone | hrest
    · cases i with
      | node y =>
        rw [visitItem] at hone
        split at hone
        · simp at hone
        · rw [List.mem_singleton.mp hone]
          exact List.mem_cons_self
      | leaf y =>
        rw [visitItem] at hone
        split at hone <;> simp at hone
    · exact List.mem_cons_of_mem _ (ih hrest)

theorem card_visitItems {known R : Finset α} {is : List (Item α)} {marks : Finset α}
    (hR : ∀ x, .node x ∈ is → x ∈ R) :
    (visitItems known is marks).2.length + (R \ (visitItems known is marks).1).card ≤
      (R \ marks).card := by
  induction is generalizing marks with
  | nil => simp [visitItems]
  | cons i is ih =>
    have hrest := @ih (visitItem known marks i).1 fun x hx => hR x (List.mem_cons_of_mem _ hx)
    have hone : (visitItem known marks i).2.length + (R \ (visitItem known marks i).1).card ≤
        (R \ marks).card := by
      cases i with
      | node x =>
        rw [visitItem]
        split
        · simp
        · rename_i hnew
          push Not at hnew
          have hmem : x ∈ R \ marks := Finset.mem_sdiff.mpr ⟨hR x List.mem_cons_self, hnew.2⟩
          have hpos := Finset.card_pos.mpr ⟨x, hmem⟩
          simp only [List.length_singleton, Finset.sdiff_insert, Finset.card_erase_of_mem hmem]
          omega
      | leaf x =>
        rw [visitItem]
        split
        · simp
        · simpa using Finset.card_le_card
            (Finset.sdiff_subset_sdiff (le_refl R) (Finset.subset_insert x marks))
    rw [visitItems, List.length_append]
    dsimp only
    omega

/-- The nodes list nodes of the set, and the lookup does not fail on them. -/
def ClosedSet (items : α → Except ε (List (Item α))) (R : Finset α) : Prop :=
  ∀ x ∈ R, ∃ is, items x = .ok is ∧ ∀ y, .node y ∈ is → y ∈ R

/-- **A work list is done** if the fuel covers the list and the unmarked nodes of a closed set. -/
theorem drain_answers {known R : Finset α}
    (henqueue : ∀ work new, (enqueue work new).Perm (new ++ work))
    (hstop : ∀ marks taken, stop marks taken = none) (hR : ClosedSet items R) {marks : Finset α}
    (taken : List α) (hwork : ∀ x ∈ work, x ∈ R) (hfuel : work.length + (R \ marks).card ≤ fuel) :
    ∃ result, drain items known enqueue stop fuel work marks taken = some (.ok result) := by
  induction fuel generalizing work marks taken with
  | zero =>
    have hnil : work = [] := List.length_eq_zero_iff.mp (by omega)
    subst hnil
    exact ⟨(marks, taken), rfl⟩
  | succ fuel ih =>
    cases work with
    | nil => exact ⟨(marks, taken), rfl⟩
    | cons x work =>
      obtain ⟨is, hitems, hclosed⟩ := hR x (hwork x List.mem_cons_self)
      have hcard := @card_visitItems _ _ known R is marks hclosed
      have hlength := (henqueue work (visitItems known is marks).2).length_eq
      rw [drain, hstop, hitems]
      refine ih _ (fun y hy => ?_) ?_
      · rcases List.mem_append.mp ((henqueue _ _).mem_iff.mp hy) with hy | hy
        · exact hclosed y (node_of_mem_visitItems hy)
        · exact hwork y (List.mem_cons_of_mem _ hy)
      · rw [List.length_append] at hlength
        rw [List.length_cons] at hfuel
        omega

/-- **A work list reads the nodes of a closed set only.** -/
theorem drain_congr {items items' : α → Except ε (List (Item α))}
    (henqueue : ∀ work new, (enqueue work new).Perm (new ++ work)) {R : α → Prop}
    (hsame : ∀ x, R x → items x = items' x)
    (hclosed : ∀ x is, R x → items x = .ok is → ∀ y, .node y ∈ is → R y) (fuel : Nat)
    (marks : Finset α) (taken : List α) (hwork : ∀ x ∈ work, R x) :
    drain items known enqueue stop fuel work marks taken =
      drain items' known enqueue stop fuel work marks taken := by
  induction fuel generalizing work marks taken with
  | zero => cases work <;> rfl
  | succ fuel ih =>
    cases work with
    | nil => rfl
    | cons x work =>
      have hx : R x := hwork x List.mem_cons_self
      rw [drain, drain, ← hsame x hx]
      split
      · rfl
      · cases hitems : items x with
        | error e => rfl
        | ok is =>
          refine ih _ _ fun y hy => ?_
          rcases List.mem_append.mp ((henqueue _ _).mem_iff.mp hy) with hy | hy
          · exact hclosed x is hx hitems y (node_of_mem_visitItems hy)
          · exact hwork y (List.mem_cons_of_mem _ hy)

theorem subset_visitItems (known : Finset α) (is : List (Item α)) (marks : Finset α) :
    marks ⊆ (visitItems known is marks).1 := by
  induction is generalizing marks with
  | nil => exact Finset.Subset.refl _
  | cons i is ih =>
    have hone : marks ⊆ (visitItem known marks i).1 := by
      cases i <;>
      · rw [visitItem]
        split
        · exact Finset.Subset.refl _
        · exact Finset.subset_insert _ _
    exact hone.trans (ih _)

theorem mem_visitItems_nodes {known : Finset α} {xs : List α} {marks : Finset α} (x : α) :
    x ∈ (visitItems known (xs.map .node) marks).2 ↔ x ∈ (visitItems known (xs.map .node) marks).1 ∧
      x ∉ marks := by
  induction xs generalizing marks with
  | nil => simp [visitItems]
  | cons y xs ih =>
    rw [List.map_cons, visitItems, visitItem]
    split
    · exact ih
    · have hrest := @ih (insert y marks)
      have hy := subset_visitItems known (xs.map .node) (insert y marks)
        (Finset.mem_insert_self y marks)
      dsimp only
      rw [List.singleton_append, List.mem_cons, hrest, Finset.mem_insert]
      by_cases hxy : x = y
      · subst hxy
        tauto
      · tauto

theorem mem_taken (henqueue : ∀ work new, (enqueue work new).Perm (new ++ work))
    (hnodes : ∀ x is, items x = .ok is → ∃ xs : List α, is = xs.map .node)
    (h : drain items known enqueue stop fuel work marks taken = some (.ok (marks', taken')))
    (x : α) :
    x ∈ taken' ↔ x ∈ taken ∨ x ∈ work ∨ x ∈ marks' ∧ x ∉ marks := by
  refine drain_induction (fun _ => by simp) ?_ h
  intro _ y work marks taken is hitems hrest ih
  obtain ⟨xs, rfl⟩ := hnodes y is hitems
  have hnew := @mem_visitItems_nodes _ _ known xs marks x
  have hkept := @subset_of_visits _ _ _ _ _ _ _ (drain_visits henqueue hrest) x
  have hmarks := @subset_visitItems _ _ known (xs.map .node) marks x
  rw [ih, (henqueue _ _).mem_iff, List.mem_append, List.mem_append, List.mem_singleton,
    List.mem_cons]
  clear ih h hrest hitems hnodes henqueue
  tauto

theorem visitItems_new {known : Finset α} {is : List (Item α)} (marks : Finset α) :
    (visitItems known is marks).2.Nodup ∧
      ∀ x ∈ (visitItems known is marks).2, x ∉ marks ∧ x ∈ (visitItems known is marks).1 := by
  induction is generalizing marks with
  | nil => simp [visitItems]
  | cons i is ih =>
    rw [visitItems]
    cases i with
    | leaf x =>
      by_cases hknown : x ∈ known
      · rw [visitItem, if_pos hknown]
        exact ih marks
      · obtain ⟨hnodup, hnew⟩ := ih (insert x marks)
        rw [visitItem, if_neg hknown]
        exact ⟨hnodup, fun y hy =>
          ⟨fun hm => (hnew y hy).1 (Finset.mem_insert_of_mem hm), (hnew y hy).2⟩⟩
    | node x =>
      by_cases hmarked : x ∈ known ∨ x ∈ marks
      · rw [visitItem, if_pos hmarked]
        exact ih marks
      · obtain ⟨hnodup, hnew⟩ := ih (insert x marks)
        rw [visitItem, if_neg hmarked]
        push Not at hmarked
        have hx := subset_visitItems known is (insert x marks) (Finset.mem_insert_self x marks)
        refine ⟨List.nodup_cons.mpr ⟨fun hy =>
          (hnew x hy).1 (Finset.mem_insert_self x marks), hnodup⟩, ?_⟩
        exact List.forall_mem_cons.mpr ⟨⟨hmarked.2, hx⟩,
          fun y hy => ⟨fun hm => (hnew y hy).1 (Finset.mem_insert_of_mem hm), (hnew y hy).2⟩⟩

/-- **No node is taken twice.** -/
theorem taken_nodup (henqueue : ∀ work new, (enqueue work new).Perm (new ++ work))
    (h : drain items known enqueue stop fuel work marks taken = some (.ok (marks', taken')))
    (hnodup : (work ++ taken).Nodup) (hmarked : ∀ x ∈ work ++ taken, x ∈ marks) : taken'.Nodup := by
  revert hnodup hmarked
  refine drain_induction (fun _ hnodup _ => hnodup) ?_ h
  intro _ x work marks taken is _ _ ih hnodup hmarked
  obtain ⟨hnew, hfresh⟩ := @visitItems_new _ _ known is marks
  have hperm : (enqueue work (visitItems known is marks).2 ++ (taken ++ [x])).Perm
      ((visitItems known is marks).2 ++ (x :: work ++ taken)) := by
    refine ((henqueue work _).append_right _).trans ?_
    rw [List.append_assoc]
    refine List.Perm.append_left _ ?_
    rw [← List.append_assoc]
    exact List.perm_append_singleton x _
  refine ih (hperm.nodup_iff.mpr (List.nodup_append'.mpr ⟨hnew, hnodup, fun y hy hmem => ?_⟩))
    fun y hy => ?_
  · exact (hfresh y hy).1 (hmarked y hmem)
  · rcases List.mem_append.mp (hperm.mem_iff.mp hy) with hy | hy
    · exact (hfresh y hy).2
    · exact subset_visitItems known is marks (hmarked y hy)

/-! ### Recursion -/

/-- The items of one node in turn, `go` being the visit of a node. -/
def visitAll (go : α → Finset α → Option (Except ε (Finset α))) :
    List (Item α) → Finset α → Option (Except ε (Finset α))
  | [], marks => some (.ok marks)
  | .leaf x :: is, marks => visitAll go is (insert x marks)
  | .node x :: is, marks =>
    match go x marks with
    | some (.ok marks) => visitAll go is marks
    | stopped => stopped

/-- A node is marked before its items are visited. -/
def collect (items : α → Except ε (List (Item α))) :
    Nat → α → Finset α → Option (Except ε (Finset α))
  | 0, _, _ => none
  | fuel + 1, x, marks =>
    if x ∈ marks then some (.ok marks)
    else
      match items x with
      | .error e => some (.error e)
      | .ok is => visitAll (collect items fuel) is (insert x marks)

/-- **A recursion that is done is a run**, whatever is still pending after it. -/
theorem collect_visits (h : collect items fuel x marks = some (.ok marks')) {rest : List (Item α)}
    {marks'' : Finset α} (hrest : Visits (listed items) ∅ rest marks' marks'') :
    Visits (listed items) ∅ (.node x :: rest) marks marks'' := by
  induction fuel generalizing x marks marks' rest marks'' with
  | zero => simp [collect] at h
  | succ fuel ih =>
    rw [collect] at h
    split at h
    · rename_i hmarked
      obtain rfl := Except.ok.inj (Option.some.inj h)
      exact .skip (Or.inr hmarked) hrest
    · rename_i hnew
      split at h
      · simp at h
      · rename_i is hitems
        refine .enter (Finset.notMem_empty x) hnew ?_
        rw [listed_ok hitems]
        generalize insert x marks = current at h
        clear hitems hnew
        induction is generalizing current with
        | nil =>
          obtain rfl := Except.ok.inj (Option.some.inj h)
          exact hrest
        | cons i is ihItems =>
          cases i with
          | leaf y => exact .take (Finset.notMem_empty y) (ihItems _ h)
          | node y =>
            rw [visitAll] at h
            split at h
            · rename_i middle hgo
              exact ih hgo (ihItems _ h)
            · rename_i hstopped
              exact absurd h (hstopped _)

theorem visitAll_visits (h : visitAll (collect items fuel) is marks = some (.ok marks')) :
    Visits (listed items) ∅ is marks marks' := by
  induction is generalizing marks with
  | nil =>
    obtain rfl := Except.ok.inj (Option.some.inj h)
    exact .done marks
  | cons i is ih =>
    cases i with
    | leaf x => exact .take (Finset.notMem_empty x) (ih h)
    | node x =>
      rw [visitAll] at h
      split at h
      · rename_i middle hgo
        exact collect_visits hgo (ih h)
      · rename_i hstopped
        exact absurd h (hstopped _)

theorem subset_of_collect (h : collect items fuel x marks = some (.ok marks')) :
    marks ⊆ marks' :=
  subset_of_visits (collect_visits h (.done marks'))

/-- **A recursion is done** if the fuel exceeds the unmarked nodes of a closed set. -/
theorem collect_answers {R : Finset α} (hR : ClosedSet items R) {marks : Finset α} (hx : x ∈ R)
    (hfuel : (R \ marks).card < fuel) :
    ∃ marks', collect items fuel x marks = some (.ok marks') := by
  induction fuel generalizing x marks with
  | zero => omega
  | succ fuel ih =>
    rw [collect]
    split
    · exact ⟨marks, rfl⟩
    · rename_i hnew
      obtain ⟨is, hitems, hclosed⟩ := hR x hx
      rw [hitems]
      have hmem : x ∈ R \ marks := Finset.mem_sdiff.mpr ⟨hx, hnew⟩
      have hless : (R \ insert x marks).card < fuel := by
        have hpos := Finset.card_pos.mpr ⟨x, hmem⟩
        rw [Finset.sdiff_insert, Finset.card_erase_of_mem hmem]
        omega
      dsimp only
      generalize insert x marks = current at hless
      clear hitems hnew hmem
      induction is generalizing current with
      | nil => exact ⟨current, rfl⟩
      | cons i is ihItems =>
        have hrest : ∀ y, .node y ∈ is → y ∈ R := fun y hy => hclosed y (List.mem_cons_of_mem _ hy)
        have hmore : ∀ middle, current ⊆ middle → (R \ middle).card < fuel := fun middle hsub =>
          (Finset.card_le_card (Finset.sdiff_subset_sdiff (le_refl R) hsub)).trans_lt hless
        cases i with
        | leaf y => exact ihItems hrest _ (hmore _ (Finset.subset_insert y current))
        | node y =>
          obtain ⟨middle, hgo⟩ := ih (hclosed y List.mem_cons_self) hless
          rw [visitAll, hgo]
          exact ihItems hrest middle (hmore middle (subset_of_collect hgo))

theorem visitAll_mono {go go' : α → Finset α → Option (Except ε (Finset α))}
    (hgo : ∀ x marks result, go x marks = some result → go' x marks = some result)
    {marks : Finset α} {result : Except ε (Finset α)} (h : visitAll go is marks = some result) :
    visitAll go' is marks = some result := by
  induction is generalizing marks with
  | nil => exact h
  | cons i is ih =>
    cases i with
    | leaf x => exact ih h
    | node x =>
      rw [visitAll] at h
      cases hfirst : go x marks with
      | none => simp [hfirst] at h
      | some first =>
        rw [visitAll, hgo x marks first hfirst]
        rw [hfirst] at h
        cases first with
        | error e => exact h
        | ok middle => exact ih h

theorem collect_mono {fuel fuel' : Nat} (hle : fuel ≤ fuel') (x : α) (marks : Finset α)
    (result : Except ε (Finset α)) (h : collect items fuel x marks = some result) :
    collect items fuel' x marks = some result := by
  induction fuel generalizing fuel' x marks result with
  | zero => simp [collect] at h
  | succ fuel ih =>
    obtain ⟨more, rfl⟩ := Nat.exists_eq_add_of_le' hle
    rw [← Nat.add_assoc, collect]
    rw [collect] at h
    split at h
    · rename_i hmarked
      rw [if_pos hmarked]
      exact h
    · rename_i hnew
      rw [if_neg hnew]
      split at h
      · exact h
      · exact visitAll_mono (ih (Nat.le_add_left fuel more)) h

/-- **A recursion reads the nodes of a closed set only.** -/
theorem collect_congr {items items' : α → Except ε (List (Item α))} {R : α → Prop}
    (hsame : ∀ x, R x → items x = items' x)
    (hclosed : ∀ x is, R x → items x = .ok is → ∀ y, .node y ∈ is → R y) (fuel : Nat)
    (marks : Finset α) (hx : R x) : collect items fuel x marks = collect items' fuel x marks := by
  induction fuel generalizing x marks with
  | zero => rfl
  | succ fuel ih =>
    rw [collect, collect, ← hsame x hx]
    split
    · rfl
    · cases hitems : items x with
      | error e => rfl
      | ok is =>
        dsimp only
        have hnodes := hclosed x is hx hitems
        generalize insert x marks = current
        clear hitems
        induction is generalizing current with
        | nil => rfl
        | cons i is ihItems =>
          have hrest : ∀ y, .node y ∈ is → R y := fun y hy => hnodes y (List.mem_cons_of_mem _ hy)
          cases i with
          | leaf y => exact ihItems hrest _
          | node y =>
            rw [visitAll, visitAll, ih current (hnodes y List.mem_cons_self)]
            split
            · exact ihItems hrest _
            · rfl

end Mizzle.Lib
