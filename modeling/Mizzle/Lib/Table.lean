import Mathlib

/-!
# Tables with a primary key

A table is a list of rows in which no two rows have the same key; the uniqueness is part of the
type, so that every statement has to keep it. `lookup` is the row under a key. Each statement has
one lemma that says what `lookup` gives afterwards.
-/

namespace Mizzle.Lib

/-- Rows with pairwise different keys. -/
structure Table (Row κ : Type*) (key : Row → κ) where
  rows : List Row
  unique : (rows.map key).Nodup

namespace Table

variable {Row κ : Type*} {key : Row → κ}

def empty : Table Row κ key := ⟨[], List.nodup_nil⟩

theorem eq_of_key_eq (t : Table Row κ key) {r q : Row} (hr : r ∈ t.rows) (hq : q ∈ t.rows)
    (h : key r = key q) : r = q := List.inj_on_of_nodup_map t.unique hr hq h

/-- `DELETE ... WHERE p`. -/
def deleteWhere (t : Table Row κ key) (p : Row → Bool) : Table Row κ key where
  rows := t.rows.filter fun r => !p r
  unique := t.unique.sublist (List.filter_sublist.map key)

/-- `UPDATE ... SET f WHERE p`, where `f` leaves the key columns alone. -/
def updateWhere (t : Table Row κ key) (p : Row → Bool) (f : Row → Row)
    (hkey : ∀ r, key (f r) = key r) : Table Row κ key where
  rows := t.rows.map fun r => if p r then f r else r
  unique := by
    have hsame : (t.rows.map fun r => if p r then f r else r).map key = t.rows.map key := by
      rw [List.map_map]
      refine List.map_congr_left (fun r _ => ?_)
      by_cases hp : p r
      · simp [hp, hkey]
      · simp [hp]
    rw [hsame]
    exact t.unique

/-- `rows_affected` of a statement with the condition `p`. -/
def affected (t : Table Row κ key) (p : Row → Bool) : Nat := t.rows.countP p

theorem affected_eq_zero {t : Table Row κ key} {p : Row → Bool} :
    t.affected p = 0 ↔ ∀ r ∈ t.rows, ¬ p r = true := List.countP_eq_zero

variable [DecidableEq κ] {t : Table Row κ key} {r : Row}

/-- The row under a key. -/
def lookup (t : Table Row κ key) (k : κ) : Option Row := t.rows.find? fun r => key r = k

theorem lookup_eq_some {k : κ} : t.lookup k = some r ↔ r ∈ t.rows ∧ key r = k := by
  constructor
  · intro h
    exact ⟨List.mem_of_find?_eq_some h, by simpa using List.find?_some h⟩
  · rintro ⟨hmem, hkey⟩
    cases hfind : t.lookup k with
    | none =>
      have := List.find?_eq_none.mp hfind r hmem
      simp [hkey] at this
    | some q =>
      have hq : q ∈ t.rows ∧ key q = k :=
        ⟨List.mem_of_find?_eq_some hfind, by simpa using List.find?_some hfind⟩
      rw [t.eq_of_key_eq hq.1 hmem (hq.2.trans hkey.symm)]

theorem lookup_eq_none {k : κ} : t.lookup k = none ↔ ∀ r ∈ t.rows, key r ≠ k := by
  rw [lookup, List.find?_eq_none]
  simp

/-- `INSERT`: refused (`none`) when the key is taken. -/
def insert (t : Table Row κ key) (r : Row) : Option (Table Row κ key) :=
  if h : key r ∈ t.rows.map key then none
  else some ⟨t.rows ++ [r], by
    rw [List.map_append, List.nodup_append]
    refine ⟨t.unique, List.nodup_singleton _, fun a ha b hb hab => ?_⟩
    rw [List.map_singleton, List.mem_singleton] at hb
    exact h (hb ▸ hab ▸ ha)⟩

/-- `INSERT OR IGNORE`. -/
def insertOrIgnore (t : Table Row κ key) (r : Row) : Table Row κ key := (t.insert r).getD t

theorem lookup_deleteWhere (t : Table Row κ key) (p : Row → Bool) (k : κ) :
    (t.deleteWhere p).lookup k = (t.lookup k).filter fun r => !p r := by
  ext r
  rw [lookup_eq_some, Option.filter_eq_some_iff, lookup_eq_some, deleteWhere, List.mem_filter]
  tauto

theorem lookup_updateWhere (t : Table Row κ key) (p : Row → Bool) (f : Row → Row)
    (hkey : ∀ r, key (f r) = key r) (k : κ) :
    (t.updateWhere p f hkey).lookup k = (t.lookup k).map fun r => if p r then f r else r := by
  ext q
  rw [lookup_eq_some, Option.map_eq_some_iff]
  constructor
  · rintro ⟨hmem, hq⟩
    obtain ⟨r, hr, rfl⟩ := List.mem_map.mp hmem
    refine ⟨r, lookup_eq_some.mpr ⟨hr, ?_⟩, rfl⟩
    rw [← hq]
    split
    · exact (hkey r).symm
    · rfl
  · rintro ⟨r, hr, rfl⟩
    obtain ⟨hmem, hk⟩ := lookup_eq_some.mp hr
    refine ⟨List.mem_map_of_mem hmem, ?_⟩
    rw [← hk]
    split
    · exact hkey r
    · rfl

theorem insert_eq_none : t.insert r = none ↔ t.lookup (key r) ≠ none := by
  rw [insert, Ne, lookup_eq_none]
  split
  · rename_i h
    obtain ⟨q, hq, hkey⟩ := List.mem_map.mp h
    simpa using ⟨q, hq, hkey⟩
  · rename_i h
    simp only [reduceCtorEq, false_iff, not_not]
    exact fun q hq hkey => h (hkey ▸ List.mem_map_of_mem hq)

theorem lookup_insert {t t' : Table Row κ key} (h : t.insert r = some t') (k : κ) :
    t'.lookup k = if k = key r then some r else t.lookup k := by
  rw [insert] at h
  split at h
  · simp at h
  · rename_i hfresh
    obtain rfl := Option.some.inj h
    ext q
    rw [lookup_eq_some]
    split
    · rename_i hk
      simp only [List.mem_append, List.mem_singleton, Option.some.injEq]
      constructor
      · rintro ⟨hq | hq, hkey⟩
        · exact absurd (hk ▸ hkey ▸ List.mem_map_of_mem hq) hfresh
        · exact hq.symm
      · rintro rfl
        exact ⟨Or.inr rfl, hk.symm⟩
    · rename_i hk
      rw [lookup_eq_some]
      simp only [List.mem_append, List.mem_singleton]
      constructor
      · rintro ⟨hq | rfl, hkey⟩
        · exact ⟨hq, hkey⟩
        · exact absurd hkey.symm hk
      · rintro ⟨hq, hkey⟩
        exact ⟨Or.inl hq, hkey⟩

theorem mem_insertOrIgnore {r q : Row} (h : q ∈ t.rows) : q ∈ (t.insertOrIgnore r).rows := by
  rw [insertOrIgnore, insert]
  split
  · exact h
  · exact List.mem_append_left _ h

theorem lookup_insertOrIgnore (t : Table Row κ key) (r : Row) (k : κ) :
    (t.insertOrIgnore r).lookup k = (t.lookup k).or (if k = key r then some r else none) := by
  rw [insertOrIgnore]
  cases hinsert : t.insert r with
  | none =>
    rw [Option.getD_none]
    split
    · rename_i hk
      obtain ⟨q, hq⟩ := Option.ne_none_iff_exists'.mp (hk ▸ insert_eq_none.mp hinsert)
      rw [hq, Option.some_or]
    · rw [Option.or_none]
  | some t' =>
    rw [Option.getD_some, lookup_insert hinsert]
    split
    · rename_i hk
      have hfresh : t.lookup k = none := by
        by_contra htaken
        simp [insert_eq_none.mpr (hk ▸ htaken)] at hinsert
      rw [hfresh, Option.none_or]
    · rw [Option.or_none]

theorem insertOrIgnore_of_taken (h : t.lookup (key r) ≠ none) : t.insertOrIgnore r = t := by
  rw [insertOrIgnore, insert_eq_none.mpr h, Option.getD_none]

theorem rows_insertOrIgnore_of_free (h : t.lookup (key r) = none) :
    (t.insertOrIgnore r).rows = t.rows ++ [r] := by
  have hfree : key r ∉ t.rows.map key := fun hmem => by
    obtain ⟨q, hq, hkey⟩ := List.mem_map.mp hmem
    exact lookup_eq_none.mp h q hq hkey
  rw [insertOrIgnore, insert, dif_neg hfree, Option.getD_some]

end Table

end Mizzle.Lib
