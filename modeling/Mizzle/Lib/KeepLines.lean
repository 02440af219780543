import Mizzle.Lib.Bytes

/-!
# Lines with their terminators

Cutting a byte string behind each line feed. The pieces concatenate to the byte string; every piece
but the last one ends in its only line feed, and this property determines them
(`splitLines_flatten`).
-/

namespace Mizzle.Lib

/-- The end of the first line: behind its line feed, or the end of the bytes. -/
def lineEnd (bytes : Bytes) : Nat :=
  match bytes.idxOf? 10 with
  | some p => p + 1
  | none => bytes.length

theorem lineEnd_pos {bytes : Bytes} (h : bytes ≠ []) : 0 < lineEnd bytes := by
  unfold lineEnd
  split
  · exact Nat.succ_pos _
  · exact List.length_pos_of_ne_nil h

/-- The lines, each with its line feed. -/
def splitLines (bytes : Bytes) : List Bytes :=
  if _h : bytes = [] then [] else bytes.take (lineEnd bytes) :: splitLines (bytes.drop (lineEnd bytes))
termination_by bytes.length
decreasing_by
  have := lineEnd_pos _h
  have := List.length_pos_of_ne_nil _h
  rw [List.length_drop]
  omega

def IsLine (line : Bytes) : Prop := ∃ text, (10 : UInt8) ∉ text ∧ line = text ++ [10]

/-- A line, or the rest of a text behind its last line feed. -/
def IsPiece (line : Bytes) : Prop := IsLine line ∨ line ≠ [] ∧ (10 : UInt8) ∉ line

/-- Pieces of which at most the last one is not terminated. -/
structure Proper (lines : List Bytes) : Prop where
  pieces : ∀ line ∈ lines, IsPiece line
  ended : lines.Pairwise fun line _ => IsLine line

@[simp] theorem splitLines_nil : splitLines [] = [] := by
  rw [splitLines, dif_pos rfl]

theorem idxOf?_line {text : Bytes} (htext : (10 : UInt8) ∉ text) (rest : Bytes) :
    (text ++ 10 :: rest).idxOf? 10 = some text.length := by
  induction text with
  | nil => simp [List.idxOf?_cons]
  | cons b text ih =>
    rw [List.mem_cons, not_or] at htext
    obtain ⟨hb, htext⟩ := htext
    rw [List.cons_append, List.idxOf?_cons, ih htext]
    simp [Ne.symm hb]

theorem splitLines_line {text : Bytes} (htext : (10 : UInt8) ∉ text) (rest : Bytes) :
    splitLines (text ++ 10 :: rest) = (text ++ [10]) :: splitLines rest := by
  have hlength : (text ++ [10]).length = text.length + 1 := List.length_append
  have hend : lineEnd (text ++ 10 :: rest) = text.length + 1 := by rw [lineEnd, idxOf?_line htext]
  rw [splitLines, dif_neg (by simp), hend, List.append_cons, List.take_left' hlength, List.drop_left' hlength]

theorem splitLines_isLine {line : Bytes} (h : IsLine line) (rest : Bytes) :
    splitLines (line ++ rest) = line :: splitLines rest := by
  obtain ⟨text, htext, rfl⟩ := h
  rw [List.append_assoc, List.singleton_append, splitLines_line htext]

theorem splitLines_rest {text : Bytes} (hne : text ≠ []) (htext : (10 : UInt8) ∉ text) :
    splitLines text = [text] := by
  have hend : lineEnd text = text.length := by
    rw [lineEnd, List.idxOf?_eq_none_iff.mpr htext]
  rw [splitLines, dif_neg hne, hend, List.take_length, List.drop_length, splitLines_nil]

theorem lines_induction {motive : Bytes → Prop} (nil : motive [])
    (rest : ∀ text, text ≠ [] → (10 : UInt8) ∉ text → motive text)
    (line : ∀ line rest, IsLine line → motive rest → motive (line ++ rest)) (bytes : Bytes) :
    motive bytes := by
  induction hn : bytes.length using Nat.strong_induction_on generalizing bytes with
  | _ n ih =>
    by_cases hmem : (10 : UInt8) ∈ bytes
    · obtain ⟨text, tail, rfl, htext⟩ := List.eq_append_cons_of_mem hmem
      rw [List.append_cons]
      refine line _ tail ⟨text, htext, rfl⟩ (ih tail.length ?_ tail rfl)
      rw [← hn, List.length_append, List.length_cons]
      omega
    · by_cases hne : bytes = []
      · exact hne ▸ nil
      · exact rest bytes hne hmem

theorem flatten_splitLines (bytes : Bytes) : (splitLines bytes).flatten = bytes := by
  induction bytes using lines_induction with
  | nil => rw [splitLines_nil, List.flatten_nil]
  | rest text hne htext => rw [splitLines_rest hne htext, List.flatten_singleton]
  | line line rest hline ih => rw [splitLines_isLine hline, List.flatten_cons, ih]

theorem proper_splitLines (bytes : Bytes) : Proper (splitLines bytes) := by
  induction bytes using lines_induction with
  | nil => rw [splitLines_nil]; exact ⟨by simp, .nil⟩
  | rest text hne htext =>
    rw [splitLines_rest hne htext]
    exact ⟨List.forall_mem_singleton.mpr (Or.inr ⟨hne, htext⟩), List.pairwise_singleton _ _⟩
  | line line rest hline ih =>
    rw [splitLines_isLine hline]
    exact ⟨List.forall_mem_cons.mpr ⟨Or.inl hline, ih.pieces⟩, List.pairwise_cons.mpr ⟨fun _ _ => hline, ih.ended⟩⟩

theorem Proper.sublist {lines lines' : List Bytes} (h : Proper lines)
    (hsub : lines'.Sublist lines) : Proper lines' :=
  ⟨fun line hline => h.pieces line (hsub.subset hline), h.ended.sublist hsub⟩

/-- **Proper pieces are the lines of what they concatenate to.** -/
theorem splitLines_flatten {lines : List Bytes} (h : Proper lines) :
    splitLines lines.flatten = lines := by
  induction lines with
  | nil => exact splitLines_nil
  | cons line lines ih =>
    obtain ⟨hpiece, -⟩ := List.forall_mem_cons.mp h.pieces
    have hrest := ih (h.sublist (List.sublist_cons_self line lines))
    rw [List.flatten_cons]
    rcases hpiece with hline | ⟨hne, htext⟩
    · rw [splitLines_isLine hline, hrest]
    · cases lines with
      | nil => rw [List.flatten_nil, List.append_nil, splitLines_rest hne htext]
      | cons next lines =>
        obtain ⟨text, -, rfl⟩ := (List.pairwise_cons.mp h.ended).1 next List.mem_cons_self
        simp at htext

/-- No line is open: the text is empty or ends in a line feed. -/
def Ended (bytes : Bytes) : Prop := bytes = [] ∨ bytes.getLast? = some 10

theorem splitLines_append {front : Bytes} (h : Ended front) (rest : Bytes) :
    splitLines (front ++ rest) = splitLines front ++ splitLines rest := by
  induction front using lines_induction with
  | nil => rw [List.nil_append, splitLines_nil, List.nil_append]
  | rest text hne htext =>
    rcases h with h | h
    · exact absurd h hne
    · exact absurd (List.mem_of_getLast? h) htext
  | line line tail hline ih =>
    have htail : Ended tail := by
      by_cases hnil : tail = []
      · exact Or.inl hnil
      · rw [Ended, List.getLast?_append_of_ne_nil _ hnil] at h
        exact Or.inr (h.resolve_left (by simp [hnil]))
    rw [List.append_assoc, splitLines_isLine hline, splitLines_isLine hline, ih htail, List.cons_append]

theorem splitLines_ne_nil {bytes : Bytes} (h : bytes ≠ []) : splitLines bytes ≠ [] := fun hnil =>
  h (by rw [← flatten_splitLines bytes, hnil, List.flatten_nil])

theorem prefix_first_line {word bytes line : Bytes} {lines : List Bytes}
    (hword : (10 : UInt8) ∉ word) (h : word <+: bytes) (hlines : splitLines bytes = line :: lines) :
    word <+: line := by
  have hflat := flatten_splitLines bytes
  rw [hlines, List.flatten_cons] at hflat
  rw [← hflat] at h
  cases lines with
  | nil => rwa [List.flatten_nil, List.append_nil] at h
  | cons next lines =>
    have hproper := proper_splitLines bytes
    rw [hlines] at hproper
    obtain ⟨text, -, rfl⟩ := (List.pairwise_cons.mp hproper.ended).1 next List.mem_cons_self
    rcases List.prefix_or_prefix_of_prefix h (List.prefix_append (text ++ [10]) _) with hshort | hlong
    · exact hshort
    · exact absurd (hlong.subset (by simp)) hword

end Mizzle.Lib
