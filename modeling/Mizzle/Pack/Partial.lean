import Mizzle.Pack.Database

/-!
# A store inside a larger database

A database may hold more than a store: objects of other histories, and objects whose references are
missing. A request that starts in the store does not leave it if nothing in the store leads out of
it (`Sealed`), so what `build_pack` selects is what it selects from a database with the store alone
(`selectObjects_eq`).
-/

namespace Mizzle.Pack

open Lib

/-- Nothing leads out of the store: no reference, no gitlink, and no tree that the data of an object
names. -/
structure Objects.Sealed (o : Objects) (p : Parser) : Prop where
  closed : o.Closed
  acyclic : Acyclic o.parents
  gitlink : ∀ {t x}, o.GitlinkIn t x → o.find x ≠ none
  root : ∀ {c t}, o.rootOf p c = some t → o.find t ≠ none

namespace Objects.Sealed

variable {o : Objects} {p : Parser}

theorem find_of_parents (h : o.Sealed p) {tips : List ObjectId}
    (htips : ∀ t ∈ tips, o.find t ≠ none) {c : ObjectId} (hc : Reach o.parents tips c) :
    o.find c ≠ none :=
  h.closed.find_ne_none_of_reach htips (reach_refs_of_parents hc)

theorem find_of_met (h : o.Sealed p) {commits : List ObjectId} {avoid : ObjectId → Prop}
    {x : ObjectId} (hx : Met o.items avoid (o.pending (o.rootOf p) commits) x) :
    o.find x ≠ none := by
  have htree : ∀ {d}, Entered o.items avoid (o.pending (o.rootOf p) commits) d → o.IsTree d := by
    rintro d ⟨r, hr, -, hpath⟩
    cases hpath with
    | refl => exact (Objects.separates_pending _ commits d).1 hr
    | tail _ hstep => exact (h.closed.separates _ d).1 hstep.1
  rcases hx with hx | hx | ⟨d, -, hx⟩
  · obtain ⟨es, hes⟩ := htree hx
    simp [hes]
  · obtain ⟨t, ht, hitem⟩ := List.mem_map.mp hx
    obtain ⟨c, -, hroot⟩ := List.mem_filterMap.mp ht
    obtain rfl : t = x := by
      rw [Objects.rootItem] at hitem
      split at hitem
      · simp at hitem
      · exact Item.leaf.inj hitem
    exact h.root hroot
  · rcases Objects.leaf_iff.mp hx with ⟨es, hes, hfile⟩ | hlink
    · obtain ⟨content, hcontent⟩ := h.closed.file hes _ hfile rfl
      simp [hcontent]
    · exact h.gitlink hlink

end Objects.Sealed

namespace Database

/-- The databases answer alike about the objects of the store, and walk alike. -/
structure AgreeOn (d d' : Database) (o : Objects) (wants haves : List ObjectId) : Prop where
  wantWalk : d'.reachableExcluding wants haves = d.reachableExcluding wants haves
  haveWalk : d'.reachableExcluding haves [] = d.reachableExcluding haves []
  commitTree : ∀ c, o.find c ≠ none → d'.commitTree c = d.commitTree c
  collect : ∀ set t, o.find t ≠ none → d'.collectTreeOids set t = d.collectTreeOids set t
  fetch : ∀ x, o.find x ≠ none → d'.fetch x = d.fetch x

variable {d d' : Database} {p : Parser} {o : Objects} {wants haves : List ObjectId}

namespace AgreeOn

theorem addCommit_eq (h : AgreeOn d d' o wants haves) (hserves : d.Serves p o wants haves)
    (hsealed : o.Sealed p) (set : Finset ObjectId) {c : ObjectId} (hc : o.find c ≠ none) :
    d'.addCommit set c = d.addCommit set c := by
  rw [addCommit, addCommit, h.commitTree c hc, hserves.commitTree]
  cases hroot : o.rootOf p c with
  | none => rfl
  | some t => exact h.collect set t (hsealed.root hroot)

theorem addCommits_eq (h : AgreeOn d d' o wants haves) (hserves : d.Serves p o wants haves)
    (hsealed : o.Sealed p) {commits : List ObjectId} (hcommits : ∀ c ∈ commits, o.find c ≠ none)
    (set : Finset ObjectId) : commits.foldlM d'.addCommit set = commits.foldlM d.addCommit set :=
  Outcome.foldlM_congr (fun c hc set => h.addCommit_eq hserves hsealed set (hcommits c hc)) set

theorem haveOids_eq (h : AgreeOn d d' o wants haves) (hserves : d.Serves p o wants haves)
    (hsealed : o.Sealed p) (hhaves : ∀ c ∈ haves, o.find c ≠ none) :
    d'.haveOids haves = d.haveOids haves := by
  obtain ⟨commits, hwalk, hcommits⟩ := hserves.haveWalk
  rw [haveOids, haveOids, h.haveWalk, Outcome.bind_of_done (Outcome.mapError_of_done hwalk _),
    Outcome.bind_of_done (Outcome.mapError_of_done hwalk _)]
  exact h.addCommits_eq hserves hsealed (fun c hc => hsealed.find_of_parents hhaves ((hcommits c).mp hc)) _

/-- **A request that starts in the store sees the store only.** -/
theorem selectObjects_eq (h : AgreeOn d d' o wants haves) (hserves : d.Serves p o wants haves)
    (hsealed : o.Sealed p) (hwants : ∀ w ∈ wants, o.find w ≠ none)
    (hhaves : ∀ c ∈ haves, o.find c ≠ none) :
    d'.selectObjects wants haves = d.selectObjects wants haves := by
  obtain ⟨commits, hwalk, hcommits⟩ := hserves.wantWalk
  have hstored : ∀ c ∈ commits, o.find c ≠ none := fun c hc => hsealed.find_of_parents hwants ((hcommits c).mp hc).1
  obtain ⟨needed, hloop, hrun⟩ := hserves.addCommits_done commits (commits.toFinset ∪ wants.toFinset)
  have hneeded : ∀ x ∈ needed, o.find x ≠ none := by
    intro x hx
    rw [mem_of_visits_closed hsealed.closed.separates (fun y hy => absurd hy (Finset.notMem_empty y))
      (Objects.separates_pending _ commits) hrun] at hx
    rcases hx with hx | ⟨-, hx⟩
    · rcases Finset.mem_union.mp hx with hx | hx
      · exact hstored x (List.mem_toFinset.mp hx)
      · exact hwants x (List.mem_toFinset.mp hx)
    · exact hsealed.find_of_met hx
  have hfilter : ∀ set ⊆ needed, (set.filter fun oid => (d'.fetch oid).isSome) =
      set.filter fun oid => (d.fetch oid).isSome :=
    fun set hset => Finset.filter_congr fun x hx => by rw [h.fetch x (hneeded x (hset hx))]
  rw [selectObjects, selectObjects, neededOids, neededOids, h.wantWalk]
  simp only [Outcome.bind_of_done (Outcome.mapError_of_done hwalk _), h.addCommits_eq hserves hsealed hstored,
    Outcome.bind_of_done hloop, h.haveOids_eq hserves hsealed hhaves]
  split
  · exact congrArg Outcome.done (hfilter needed (Finset.Subset.refl _))
  · rw [bind_assoc, bind_assoc]
    exact bind_congr fun had => congrArg Outcome.done (hfilter _ Finset.sdiff_subset)

/-- **What is selected is what the store says**, whatever else the database has. -/
theorem selectObjects_ends {d d' : Nat → Database} (hsealed : o.Sealed p)
    (hserves : ∃ enough, ∀ fuel, enough ≤ fuel → (d fuel).Serves p o wants haves)
    (hagree : ∀ fuel, AgreeOn (d fuel) (d' fuel) o wants haves)
    (hwants : ∀ w ∈ wants, o.find w ≠ none) (hhaves : ∀ c ∈ haves, o.IsCommit c) :
    Outcome.Ends (fun fuel => (d' fuel).selectObjects wants haves)
      fun selected => ∀ x, x ∈ selected ↔ o.SelectedDb p wants haves x := by
  obtain ⟨enough, hserves⟩ := hserves
  refine ⟨enough, fun fuel hfuel => ?_⟩
  have hsame := (hagree fuel).selectObjects_eq (hserves fuel hfuel) hsealed hwants
    fun c hc => (hhaves c hc).find_ne_none
  obtain ⟨selected, hdone, hmem⟩ := (hserves fuel hfuel).selectObjects_done hsealed.closed hhaves
  exact ⟨selected, hsame.trans hdone, hmem⟩

end AgreeOn

end Database

end Mizzle.Pack
