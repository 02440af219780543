import Mathlib

/-!
# Trimming and splitting

Taking the matching elements off both ends of a list (`str::trim_matches`), cutting a list at its
first separator (`str::split_once`) or at the last occurrence of another list (`str::rsplit_once`),
and the words (`str::split_whitespace`) and lines (`str::lines`) of a text.
-/

namespace Mizzle.Lib

variable {α : Type*}

/-! ### Trimming -/

/-- The list without the matching elements at its two ends. -/
def trimMatches (p : α → Bool) (cs : List α) : List α := (cs.dropWhile p).rdropWhile p

section

variable {p : α → Bool}

theorem rdropWhile_append_cons {c : α} (hc : p c = false) (front cs : List α) :
    (front ++ c :: cs).rdropWhile p = front ++ c :: cs.rdropWhile p := by
  induction cs using List.reverseRecOn with
  | nil => exact List.rdropWhile_concat_neg p front c (by simp [hc])
  | append_singleton cs x ih =>
    by_cases hx : p x = true
    · rw [← List.cons_append, ← List.append_assoc, List.rdropWhile_concat_pos _ _ _ hx, ih,
        List.rdropWhile_concat_pos _ _ _ hx]
    · rw [← List.cons_append, ← List.append_assoc, List.rdropWhile_concat_neg _ _ _ hx,
        List.rdropWhile_concat_neg _ _ _ hx,
        List.append_assoc, List.cons_append]

theorem rdropWhile_of_notMem {cs : List α} (h : ∀ c ∈ cs, p c = false) : cs.rdropWhile p = cs :=
  List.rdropWhile_eq_self_iff.mpr fun hne => by simp [h _ (List.getLast_mem hne)]

theorem count_rdropWhile [DecidableEq α] {c : α} (hc : p c = false) (cs : List α) :
    (cs.rdropWhile p).count c = cs.count c := by
  have hnot : c ∉ cs.rtakeWhile p := fun hmem => by
    have hmatch := List.mem_rtakeWhile_imp hmem
    rw [hc] at hmatch
    cases hmatch
  have hsplit : cs.rdropWhile p ++ cs.rtakeWhile p = cs := List.rdropWhile_append_rtakeWhile
  nth_rewrite 2 [← hsplit]
  rw [List.count_append, List.count_eq_zero_of_not_mem hnot, Nat.add_zero]

theorem trimMatches_of_ends {first last : α} (hfirst : p first = false) (hlast : p last = false)
    (middle : List α) : trimMatches p (first :: middle ++ [last]) = first :: middle ++ [last] := by
  rw [trimMatches, List.cons_append, List.dropWhile_cons_of_neg (by simp [hfirst]), ← List.cons_append,
    List.rdropWhile_concat_neg _ _ _ (by simp [hlast])]

theorem prefix_trimMatches {front : List α} {first last : α} (hhead : front.head? = some first)
    (hfirst : p first = false) (hend : front.getLast? = some last) (hlast : p last = false)
    (cs : List α) :
    front <+: trimMatches p cs ↔ ∃ skipped, (∀ c ∈ skipped, p c = true) ∧ skipped ++
      front <+: cs := by
  obtain ⟨init, rfl⟩ := List.getLast?_eq_some_iff.mp hend
  constructor
  · intro h
    refine ⟨cs.takeWhile p, fun c => List.mem_takeWhile_imp, ?_⟩
    nth_rewrite 2 [← List.takeWhile_append_dropWhile (p := p) (l := cs)]
    exact (List.prefix_append_right_inj _).mpr (h.trans (List.rdropWhile_prefix p _))
  · rintro ⟨skipped, hskipped, tail, rfl⟩
    have hdrop : ((init ++ [last]) ++ tail).dropWhile p = (init ++ [last]) ++ tail := by
      obtain ⟨rest, hrest⟩ := List.head?_eq_some_iff.mp hhead
      rw [hrest, List.cons_append, List.dropWhile_cons_of_neg (by simp [hfirst])]
    rw [trimMatches, List.append_assoc, List.dropWhile_append_of_pos hskipped, hdrop,
      List.append_assoc, List.singleton_append,
      rdropWhile_append_cons hlast]
    exact (List.prefix_append_right_inj _).mpr ⟨_, rfl⟩

end

/-! ### Splitting -/

theorem dropPrefix?_eq_some [BEq α] [LawfulBEq α] {l front rest : List α} :
    l.dropPrefix? front = some rest ↔ l = front ++ rest := by
  rw [List.dropPrefix?_eq_some_iff]
  simp

variable {sep : α} {lines : List (List Char)}

section

variable [DecidableEq α]

/-- What stands before and behind the first separator. -/
def splitOnce (sep : α) : List α → Option (List α × List α)
  | [] => none
  | c :: cs => if c = sep then some ([], cs) else (splitOnce sep cs).map fun parts => (c :: parts.1, parts.2)

theorem splitOnce_eq_some_iff {cs before after : List α} :
    splitOnce sep cs = some (before, after) ↔ cs = before ++ sep :: after ∧ sep ∉ before := by
  induction cs generalizing before with
  | nil => simp [splitOnce]
  | cons c cs ih =>
    rw [splitOnce]
    split
    · rename_i heq
      subst heq
      cases before with
      | nil => simp
      | cons b before =>
        simp only [Option.some.injEq, Prod.mk.injEq, List.cons_append, List.cons.injEq, List.mem_cons]
        grind
    · rename_i hne
      cases before with
      | nil => simp [hne]
      | cons b before =>
        simp only [Option.map_eq_some_iff, Prod.exists, Prod.mk.injEq, List.cons_append,
          List.cons.injEq, List.mem_cons]
        grind

/-- What stands before and behind the last occurrence of a list (`str::rsplit_once`). -/
def rsplitOnce (sep : List α) : List α → Option (List α × List α)
  | [] => ([].dropPrefix? sep).map fun after => ([], after)
  | c :: cs =>
    match rsplitOnce sep cs with
    | some (before, after) => some (c :: before, after)
    | none => ((c :: cs).dropPrefix? sep).map fun after => ([], after)

end

/-- The non-empty parts between the matching elements (`str::split_whitespace`). -/
def splitWords (p : α → Bool) (cs : List α) : List (List α) :=
  (cs.splitOnP p).filter fun word => !word.isEmpty

section

variable {p : α → Bool} {word : List α} (hne : word ≠ []) (hword : ∀ c ∈ word, p c = false)

include hne hword

theorem splitWords_word : splitWords p word = [word] := by
  rw [splitWords, List.splitOnP_eq_singleton hword, List.filter_cons_of_pos (by simp [hne]), List.filter_nil]

theorem splitWords_append (hsep : p sep = true) (cs : List α) :
    splitWords p (word ++ sep :: cs) = word :: splitWords p cs := by
  rw [splitWords, List.splitOnP_append_cons_of_forall_mem hword sep hsep,
    List.filter_cons_of_pos (by simp [hne]), splitWords]

theorem splitWords_words (hsep : p sep = true) {words : List (List α)}
    (hwords : ∀ w ∈ words, w ≠ [] ∧ ∀ c ∈ w, p c = false) :
    splitWords p (word ++ words.flatMap (sep :: ·)) = word :: words := by
  induction words generalizing word with
  | nil => rw [List.flatMap_nil, List.append_nil, splitWords_word hne hword]
  | cons w words ih =>
    obtain ⟨⟨hw, hchars⟩, hwords⟩ := List.forall_mem_cons.mp hwords
    rw [List.flatMap_cons, List.cons_append, splitWords_append hne hword hsep, ih hw hchars hwords]

end

/-! ### White space -/

/-- `char::is_whitespace`. -/
def isWhitespace (c : Char) : Bool :=
  let n := c.toNat
  (9 ≤ n && n ≤ 13) || n == 0x20 || n == 0x85 || n == 0xA0 || n == 0x1680 || (0x2000 ≤ n && n ≤ 0x200A) ||
    n == 0x2028 || n == 0x2029 || n == 0x202F || n == 0x205F || n == 0x3000

/-- `str::trim`. -/
def trim (cs : List Char) : List Char :=
  ((cs.dropWhile isWhitespace).reverse.dropWhile isWhitespace).reverse

/-! ### Lines -/

/-- The lines of a text. A line ends in a line feed, with or without a carriage return before it, or
at the end of the text. -/
def textLines (cs : List Char) : List (List Char) :=
  let pieces := cs.splitOn '\n'
  (pieces.dropLast.map fun line => if line.getLast? = some '\r' then line.dropLast else line) ++
    pieces.getLast?.toList.filter fun line => !line.isEmpty

theorem sep_notMem_of_mem_splitOn [BEq α] [LawfulBEq α] {cs word : List α}
    (h : word ∈ cs.splitOn sep) : sep ∉ word := by
  induction cs generalizing word with
  | nil =>
    rw [List.splitOn_nil, List.mem_singleton] at h
    exact h ▸ List.not_mem_nil
  | cons c cs ih =>
    rw [List.splitOn_cons_eq_if_modifyHead] at h
    split at h
    · rcases List.mem_cons.mp h with rfl | h
      · exact List.not_mem_nil
      · exact ih h
    · rename_i hc
      obtain ⟨first, words, hwords⟩ := List.exists_cons_of_ne_nil (List.splitOn_ne_nil sep cs)
      rw [hwords] at ih
      rw [hwords, List.modifyHead_cons] at h
      rcases List.mem_cons.mp h with rfl | h
      · rw [List.mem_cons, not_or]
        exact ⟨fun heq => hc (beq_iff_eq.mpr heq.symm), ih List.mem_cons_self⟩
      · exact ih (List.mem_cons_of_mem _ h)

theorem splitOn_flatMap_append {β : Type*} [BEq β] [LawfulBEq β] (sep : β) (print : α → List β)
    (xs : List α) (rest : List β) :
    ((xs.flatMap fun x => print x ++ [sep]) ++ rest).splitOn sep =
      (xs.flatMap fun x => (print x).splitOn sep) ++ rest.splitOn sep := by
  induction xs with
  | nil => rfl
  | cons x xs ih =>
    rw [List.flatMap_cons, List.append_assoc, List.append_assoc, List.singleton_append,
      List.splitOn_append_cons_self, ih,
      List.flatMap_cons, List.append_assoc]

theorem splitOn_flatMap {β : Type*} [BEq β] [LawfulBEq β] (sep : β) (print : α → List β)
    (xs : List α) :
    (xs.flatMap fun x => print x ++ [sep]).splitOn sep =
      (xs.flatMap fun x => (print x).splitOn sep) ++ [[]] := by
  have h := splitOn_flatMap_append sep print xs []
  rwa [List.append_nil] at h

theorem splitOn_lines (h : ∀ line ∈ lines, '\n' ∉ line) (rest : List Char) :
    (lines.flatMap (· ++ ['\n']) ++ rest).splitOn '\n' = lines ++ rest.splitOn '\n' := by
  have hone : (lines.flatMap fun line => line.splitOn '\n') = lines.map id := by
    rw [List.map_eq_flatMap]
    exact List.flatMap_congr fun line hline => List.splitOn_eq_singleton (h line hline)
  rw [splitOn_flatMap_append '\n' fun line => line, hone, List.map_id]

theorem textLines_lines_append (h : ∀ line ∈ lines, '\n' ∉ line ∧ '\r' ∉ line) {last : List Char}
    (hlast : '\n' ∉ last) :
    textLines (lines.flatMap (· ++ ['\n']) ++ last) = lines ++ [last].filter fun line =>
      !line.isEmpty := by
  have hkeep : ∀ line ∈ lines, (if line.getLast? = some '\r' then line.dropLast else line) = line := fun line hline =>
    if_neg fun hcr => (h line hline).2 (List.mem_of_getLast? hcr)
  rw [textLines, splitOn_lines fun line hline => (h line hline).1, List.splitOn_eq_singleton hlast,
    List.dropLast_concat,
    List.getLast?_concat, List.map_congr_left hkeep, List.map_id', Option.toList_some]

theorem textLines_lines (h : ∀ line ∈ lines, '\n' ∉ line ∧ '\r' ∉ line) :
    textLines (lines.flatMap (· ++ ['\n'])) = lines := by
  have htext := textLines_lines_append h List.not_mem_nil
  rwa [List.append_nil, List.filter_cons_of_neg (by decide), List.filter_nil, List.append_nil] at htext

end Mizzle.Lib
