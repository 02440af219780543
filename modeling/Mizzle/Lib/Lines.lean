import Mizzle.Lib.Bytes
import Mizzle.Lib.Text
import Mizzle.Lib.Traverse

/-!
# Line protocols

A list of records is printed one record a line, and the reader cuts the text at line feeds and
parses every line. If the printed form of a record has a line feed in it, the reader sees more lines
than there are records. `decode_text_iff` says exactly which lists survive: those in which no record
prints a line feed, and those that the reader rejects because one of the lines does not parse.
-/

namespace Mizzle.Lib.Lines

variable {α β : Type}

/-- The line feed. -/
def lf : UInt8 := 10

/-- One record a line. -/
def text (print : α → Bytes) (xs : List α) : Bytes := xs.flatMap fun x => print x ++ [lf]

/-- The lines of a text in which every line is terminated. -/
def lines (bs : Bytes) : Option (List Bytes) :=
  if (bs.splitOn lf).getLast? = some [] then some (bs.splitOn lf).dropLast else none

/-- The reader: rejects the text if one of its lines does not parse. -/
def decode (parse : Bytes → Option β) (bs : Bytes) : Option (List β) :=
  (lines bs).bind (List.mapM parse)

theorem lines_text (print : α → Bytes) (xs : List α) :
    lines (text print xs) = some (xs.flatMap fun x => (print x).splitOn lf) := by
  rw [lines, text, splitOn_flatMap, if_pos (List.getLast?_concat ..), List.dropLast_concat]

theorem length_flatMap_pos {f : α → List β} {xs : List α} (h : ∀ x ∈ xs, f x ≠ []) :
    xs.length ≤ (xs.flatMap f).length := by
  induction xs with
  | nil => simp
  | cons x xs ih =>
    have hx := List.length_pos_of_ne_nil (h x List.mem_cons_self)
    have hxs := ih fun y hy => h y (List.mem_cons_of_mem _ hy)
    rw [List.flatMap_cons, List.length_append, List.length_cons]
    omega

theorem length_lt_of_lf_mem {print : α → Bytes} {xs : List α} {x : α} (hx : x ∈ xs)
    (hlf : lf ∈ print x) : xs.length < (xs.flatMap fun x => (print x).splitOn lf).length := by
  obtain ⟨before, after, rfl⟩ := List.append_of_mem hx
  have hne : ∀ ys : List α, ∀ y ∈ ys, (print y).splitOn lf ≠ [] := fun _ _ _ => List.splitOn_ne_nil _ _
  have hbefore := length_flatMap_pos (hne before)
  have hafter := length_flatMap_pos (hne after)
  obtain ⟨first, rest, hsplit⟩ := List.append_of_mem hlf
  have hfirst := List.length_pos_of_ne_nil (List.splitOn_ne_nil lf first)
  have hrest := List.length_pos_of_ne_nil (List.splitOn_ne_nil lf rest)
  rw [List.flatMap_append, List.flatMap_cons, hsplit, List.splitOn_append_cons_self]
  simp only [List.length_append, List.length_cons]
  omega

/-- **What survives a line protocol.** Suppose that a record printed on one line is read as itself
or not at all. Then a list is read back as itself or rejected exactly when no record prints a line
feed, or some line of some record does not parse. -/
theorem decode_text_iff {print : α → Bytes} {parse : Bytes → Option β} {meaning : α → β}
    (hline : ∀ x y, parse (print x) = some y → y = meaning x) (xs : List α) :
    (decode parse (text print xs) = none ∨ decode parse (text print xs) = some (xs.map meaning)) ↔
      (∀ x ∈ xs, lf ∉ print x) ∨ ∃ x ∈ xs, ∃ line ∈ (print x).splitOn lf, parse line = none := by
  rw [decode, lines_text, Option.bind_some]
  have hreject : (xs.flatMap fun x => (print x).splitOn lf).mapM parse = none ↔
      ∃ x ∈ xs, ∃ line ∈ (print x).splitOn lf, parse line = none := by
    rw [mapM_eq_none]
    constructor
    · rintro ⟨line, hmem, hnone⟩
      obtain ⟨x, hx, hpiece⟩ := List.mem_flatMap.mp hmem
      exact ⟨x, hx, line, hpiece, hnone⟩
    · rintro ⟨x, hx, line, hpiece, hnone⟩
      exact ⟨line, List.mem_flatMap.mpr ⟨x, hx, hpiece⟩, hnone⟩
  constructor
  · rintro (hnone | hsome)
    · exact Or.inr (hreject.mp hnone)
    · -- as many lines as records, so no record has two
      refine Or.inl fun x hx hlf => ?_
      have hlen := congrArg List.length (map_some_of_mapM hsome)
      simp only [List.length_map] at hlen
      exact absurd hlen (length_lt_of_lf_mem hx hlf).ne
  · rintro (hnolf | hbad)
    · cases hread : (xs.flatMap fun x => (print x).splitOn lf).mapM parse with
      | none => exact Or.inl rfl
      | some ys =>
        have hone : (xs.flatMap fun x => (print x).splitOn lf) = xs.map print := by
          rw [List.map_eq_flatMap]
          exact List.flatMap_congr fun x hx => List.splitOn_eq_singleton (hnolf x hx)
        have hys := map_some_of_mapM hread
        rw [hone, List.map_map] at hys
        refine Or.inr (congrArg some ?_)
        refine List.ext_getElem? fun i => ?_
        have hi := congrArg (·[i]?) hys
        simp only [List.getElem?_map] at hi ⊢
        cases hx : xs[i]? with
        | none => simpa [hx] using hi
        | some x =>
          obtain ⟨y, hy, hparse⟩ : ∃ y, ys[i]? = some y ∧ some y = parse (print x) := by
            simpa [hx] using hi
          rw [hy, Option.map_some, hline x y hparse.symm]
    · exact Or.inl (hreject.mpr hbad)

end Mizzle.Lib.Lines
