import Mizzle.Backend.Types
import Mizzle.Lib.KeepLines

/-!
# Signed payloads

`mizzle/src/sigverify.rs`: what was signed, recovered from a commit or a tag.

A commit has its signatures in `gpgsig` headers with continuation lines. `strip_gpgsig` goes through
the lines once; what it keeps is `kept`, and it undoes every insertion of signatures between the
header lines, leaving the body alone (`stripGpgsig_exact`).

A tag has its signature at its end, behind a marker line. `strip_tag_signature` looks for three
markers, while `SignatureFormat::detect` of `auth_types.rs` knows a fourth one, so that it agrees
with the detection only for the three (`stripTagSignature_iff`).
-/

namespace Mizzle.Sigverify

open Lib

/-! ### Commits -/

/-- The line between the headers and the body. -/
def isBlank (line : Bytes) : Bool := line = [10] || line = [13, 10]

def isContinuation (line : Bytes) : Bool := (utf8 " ").isPrefixOf line

def isSignature (line : Bytes) : Bool :=
  (utf8 "gpgsig ").isPrefixOf line || (utf8 "gpgsig-sha256 ").isPrefixOf line

/-- The locals of the loop. -/
structure StripState where
  out : Bytes := []
  inBody : Bool := false
  skipping : Bool := false

/-- One round. -/
def stripStep (s : StripState) (line : Bytes) : StripState :=
  if s.inBody then { s with out := s.out ++ line }
  else if isBlank line || line = [] then { out := s.out ++ line, inBody := true, skipping := false }
  else if s.skipping && isContinuation line then s
  else if isSignature line then { s with skipping := true }
  else { s with out := s.out ++ line, skipping := false }

/-- `strip_gpgsig`. -/
def stripGpgsig (raw : Bytes) : Bytes := ((splitLines raw).foldl stripStep {}).out

def kept (skipping : Bool) : List Bytes → List Bytes
  | [] => []
  | line :: lines =>
    if isBlank line then line :: lines
    else if skipping && isContinuation line then kept true lines
    else if isSignature line then kept true lines
    else line :: kept false lines

theorem foldl_body (lines : List Bytes) (s : StripState) (hbody : s.inBody = true) :
    (lines.foldl stripStep s).out = s.out ++ lines.flatten := by
  induction lines generalizing s with
  | nil => simp
  | cons line lines ih =>
    have hstep : stripStep s line = { s with out := s.out ++ line } := if_pos hbody
    rw [List.foldl_cons, hstep, ih { s with out := s.out ++ line } hbody, List.flatten_cons, List.append_assoc]

theorem foldl_stripStep {lines : List Bytes} (hne : ∀ line ∈ lines, line ≠ []) (s : StripState)
    (hbody : s.inBody = false) :
    (lines.foldl stripStep s).out = s.out ++ (kept s.skipping lines).flatten := by
  induction lines generalizing s with
  | nil => simp [kept]
  | cons line lines ih =>
    obtain ⟨hline, hrest⟩ := List.forall_mem_cons.mp hne
    rw [List.foldl_cons, stripStep, if_neg (by simp [hbody]), kept]
    simp only [decide_eq_false hline, Bool.or_false]
    split
    · rw [foldl_body _ _ rfl, List.flatten_cons, List.append_assoc]
    split
    · rename_i hskip
      obtain ⟨hskipping, -⟩ := Bool.and_eq_true_iff.mp hskip
      rw [ih hrest s hbody, hskipping]
    split
    · exact ih hrest { s with skipping := true } hbody
    · rw [ih hrest { s with out := s.out ++ line, skipping := false } hbody, List.flatten_cons, List.append_assoc]

/-- **The loop keeps lines.** -/
theorem stripGpgsig_eq (raw : Bytes) : stripGpgsig raw = (kept false (splitLines raw)).flatten := by
  have hne : ∀ line ∈ splitLines raw, line ≠ [] := fun line hline => by
    rcases (proper_splitLines raw).pieces line hline with ⟨text, -, rfl⟩ | ⟨hne, -⟩
    · simp
    · exact hne
  exact foldl_stripStep hne {} rfl

/-- The lines before the first blank one. -/
def headerLines (raw : Bytes) : List Bytes := (splitLines raw).takeWhile fun line => !isBlank line

/-- The bytes from the end of the header section on. -/
def bodyBytes (raw : Bytes) : Bytes :=
  ((splitLines raw).dropWhile fun line => !isBlank line).flatten

theorem kept_sublist (skipping : Bool) (lines : List Bytes) :
    (kept skipping lines).Sublist lines := by
  induction lines generalizing skipping with
  | nil => exact List.Sublist.slnil
  | cons line lines ih =>
    rw [kept]
    split
    · exact List.Sublist.refl _
    split
    · exact (ih true).trans (List.sublist_cons_self line lines)
    split
    · exact (ih true).trans (List.sublist_cons_self line lines)
    · exact (ih false).cons_cons line

theorem kept_of_unsigned {lines : List Bytes}
    (hlines : ∀ line ∈ lines.takeWhile fun line => !isBlank line, isSignature line = false)
    {skipping : Bool}
    (hfirst : skipping = true → ∀ line ∈ lines.head?, isContinuation line = false) :
    kept skipping lines = lines := by
  induction lines generalizing skipping with
  | nil => rfl
  | cons line lines ih =>
    rw [kept]
    split
    · rfl
    · rename_i hblank
      rw [List.takeWhile_cons_of_pos (by simpa using hblank)] at hlines
      obtain ⟨hline, hrest⟩ := List.forall_mem_cons.mp hlines
      have hkeep : ¬ (skipping && isContinuation line) = true := by
        intro hskip
        obtain ⟨hskipping, hcontinuation⟩ := Bool.and_eq_true_iff.mp hskip
        rw [hfirst hskipping line rfl] at hcontinuation
        cases hcontinuation
      rw [if_neg hkeep, if_neg (by simp [hline]), ih hrest (by simp)]

theorem unsigned_kept (skipping : Bool) (lines : List Bytes) :
    ∀ line ∈ (kept skipping lines).takeWhile
      fun line => !isBlank line, isSignature line = false := by
  induction lines generalizing skipping with
  | nil => simp [kept]
  | cons line lines ih =>
    rw [kept]
    split
    · rename_i hblank
      rw [List.takeWhile_cons_of_neg (by simpa using hblank)]
      simp
    split
    · exact ih true
    split
    · exact ih true
    · rename_i hblank _ hsignature
      rw [List.takeWhile_cons_of_pos (by simpa using hblank)]
      exact List.forall_mem_cons.mpr ⟨by simpa using hsignature, ih false⟩

theorem kept_append {lines : List Bytes} (hlines : ∀ line ∈ lines, isBlank line = false)
    {rest : List Bytes} (hrest : ∀ line ∈ rest.head?, isBlank line = true) (skipping : Bool) :
    kept skipping (lines ++ rest) = kept skipping lines ++ rest := by
  induction lines generalizing skipping with
  | nil =>
    cases rest with
    | nil => rfl
    | cons line rest => exact if_pos (hrest line rfl)
  | cons line lines ih =>
    obtain ⟨hline, hlines⟩ := List.forall_mem_cons.mp hlines
    simp only [List.cons_append, kept, hline, Bool.false_eq_true, if_false]
    split
    · exact ih hlines true
    split
    · exact ih hlines true
    · rw [ih hlines false, List.cons_append]

/-! ### Putting signatures in -/

/-- A signature: a text of at least one line, and the header it is put in. -/
structure Signature where
  sha256 : Bool
  first : Bytes
  rest : List Bytes
  first_lf : (10 : UInt8) ∉ first
  rest_lf : ∀ line ∈ rest, (10 : UInt8) ∉ line

/-- The header, with continuation lines. -/
def Signature.lines (s : Signature) : List Bytes :=
  ((if s.sha256 then utf8 "gpgsig-sha256 " else utf8 "gpgsig ") ++ s.first ++ [10]) ::
    s.rest.map fun line => 32 :: line ++ [10]

/-- The second commit is the first with signatures put in between header lines, not in front of a
continuation line. -/
inductive Signed : Bytes → Bytes → Prop
  | unsigned (c : Bytes) : Signed c c
  | line {text : Bytes} (htext : (10 : UInt8) ∉ text) (hheader : isBlank (text ++ [10]) = false)
    {c c' : Bytes} (h : Signed c c') :
    Signed (text ++ 10 :: c) (text ++ 10 :: c')
  | sign (s : Signature) {c c' : Bytes} (hnext : c.head? ≠ some 32) (h : Signed c c') :
    Signed c (s.lines.flatten ++ c')

namespace Signature

variable (s : Signature)

theorem isLine_of_mem {line : Bytes} (h : line ∈ s.lines) : IsLine line := by
  rcases List.mem_cons.mp h with rfl | h
  · refine ⟨_, ?_, rfl⟩
    have hname : (10 : UInt8) ∉ (if s.sha256 then utf8 "gpgsig-sha256 " else utf8 "gpgsig ") := by
      cases s.sha256 <;> decide +kernel
    exact fun hmem => (List.mem_append.mp hmem).elim hname s.first_lf
  · obtain ⟨text, htext, rfl⟩ := List.mem_map.mp h
    refine ⟨32 :: text, fun hmem => ?_, rfl⟩
    rcases List.mem_cons.mp hmem with heq | hmem
    · exact absurd heq (by decide)
    · exact s.rest_lf text htext hmem

theorem splitLines_append (c : Bytes) :
    splitLines (s.lines.flatten ++ c) = s.lines ++ splitLines c := by
  have hall : ∀ lines : List Bytes, (∀ line ∈ lines, IsLine line) →
      splitLines (lines.flatten ++ c) = lines ++ splitLines c := by
    intro lines
    induction lines with
    | nil => exact fun _ => rfl
    | cons line lines ih =>
      intro hlines
      obtain ⟨hline, hrest⟩ := List.forall_mem_cons.mp hlines
      rw [List.flatten_cons, List.append_assoc, splitLines_isLine hline, ih hrest, List.cons_append]
  exact hall s.lines fun _ => s.isLine_of_mem

theorem kept_lines (skipping : Bool) (lines : List Bytes) :
    kept skipping (s.lines ++ lines) = kept true lines := by
  have hrest : ∀ texts : List Bytes,
      kept true (texts.map (fun line => 32 :: line ++ [10]) ++ lines) = kept true lines := by
    intro texts
    induction texts with
    | nil => rfl
    | cons text texts ih =>
      have hblank : isBlank (32 :: text ++ [10]) = false := by simp [isBlank]
      have hcontinuation : isContinuation (32 :: text ++ [10]) = true := rfl
      rw [List.map_cons, List.cons_append, kept, hblank, hcontinuation]
      exact ih
  obtain ⟨first, rest, hlines, hfirst⟩ : ∃ first rest, s.lines = first :: rest ∧
      isBlank first = false ∧ isContinuation first = false ∧ isSignature first = true := by
    refine ⟨_, _, rfl, ?_⟩
    cases s.sha256 <;> exact ⟨rfl, rfl, rfl⟩
  obtain ⟨hblank, hcontinuation, hsignature⟩ := hfirst
  obtain rfl : rest = s.rest.map fun line => 32 :: line ++ [10] := (List.cons.inj hlines).2.symm
  rw [hlines, List.cons_append, kept, hblank, hcontinuation, hsignature, Bool.and_false]
  exact hrest s.rest

end Signature

theorem isContinuation_first {raw : Bytes} (h : raw.head? ≠ some 32) :
    ∀ line ∈ (splitLines raw).head?, isContinuation line = false := by
  intro line hline
  cases hraw : splitLines raw with
  | nil => simp [hraw] at hline
  | cons first rest =>
    obtain rfl : first = line := by simpa [hraw] using hline
    rw [← flatten_splitLines raw, hraw, List.flatten_cons] at h
    cases first with
    | nil => rfl
    | cons b first =>
      have hb : (32 : UInt8) ≠ b := fun heq => h (by rw [heq]; rfl)
      exact Bool.and_eq_false_iff.mpr (Or.inl (beq_eq_false_iff_ne.mpr hb))

theorem Signed.kept_eq {c c' : Bytes} (h : Signed c c')
    (hunsigned : ∀ line ∈ headerLines c, isSignature line = false) {skipping : Bool}
    (hfirst : skipping = true → c.head? ≠ some 32) :
    kept skipping (splitLines c') = splitLines c := by
  induction h generalizing skipping with
  | unsigned c => exact kept_of_unsigned hunsigned fun hskipping => isContinuation_first (hfirst hskipping)
  | @line text htext hheader c c' h ih =>
    have hfirst' := fun hskipping => isContinuation_first (hfirst hskipping)
    rw [headerLines] at hunsigned
    rw [splitLines_line htext] at hunsigned hfirst' ⊢
    rw [splitLines_line htext]
    rw [List.takeWhile_cons_of_pos (by simp [hheader])] at hunsigned
    obtain ⟨hline, hrest⟩ := List.forall_mem_cons.mp hunsigned
    have hkeep : ¬ (skipping && isContinuation (text ++ [10])) = true := by
      intro hskip
      obtain ⟨hskipping, hcontinuation⟩ := Bool.and_eq_true_iff.mp hskip
      rw [hfirst' hskipping _ rfl] at hcontinuation
      cases hcontinuation
    rw [kept, if_neg (by simp [hheader]), if_neg hkeep, if_neg (by simp [hline]), ih hrest (by simp)]
  | sign s hnext h ih =>
    rw [s.splitLines_append, s.kept_lines]
    exact ih hunsigned fun _ => hnext

theorem stripGpgsig_signed {c c' : Bytes}
    (hunsigned : ∀ line ∈ headerLines c, isSignature line = false) (h : Signed c c') :
    stripGpgsig c' = c := by
  rw [stripGpgsig_eq, h.kept_eq hunsigned (by simp), flatten_splitLines]

theorem stripGpgsig_idem (raw : Bytes) : stripGpgsig (stripGpgsig raw) = stripGpgsig raw := by
  have hproper := (proper_splitLines raw).sublist (kept_sublist false (splitLines raw))
  rw [stripGpgsig_eq (stripGpgsig raw), stripGpgsig_eq raw, splitLines_flatten hproper,
    kept_of_unsigned (unsigned_kept false _) (by simp)]

theorem flatten_headerLines (raw : Bytes) : (headerLines raw).flatten ++ bodyBytes raw = raw := by
  rw [headerLines, bodyBytes, ← List.flatten_append, List.takeWhile_append_dropWhile, flatten_splitLines]

theorem stripGpgsig_body (raw : Bytes) :
    stripGpgsig raw = stripGpgsig (headerLines raw).flatten ++ bodyBytes raw := by
  have hheader : ∀ line ∈ headerLines raw, isBlank line = false := fun line hline => by
    simpa using List.mem_takeWhile_imp hline
  have hbody : ∀ line ∈ ((splitLines raw).dropWhile fun line => !isBlank line).head?,
      isBlank line = true := fun line hline => by
    have hfirst := List.head?_dropWhile_not (fun line => !isBlank line) (splitLines raw)
    rw [Option.mem_def.mp hline] at hfirst
    simpa using hfirst
  have hproper : Proper (headerLines raw) := (proper_splitLines raw).sublist (List.takeWhile_sublist _)
  rw [stripGpgsig_eq, stripGpgsig_eq, splitLines_flatten hproper, bodyBytes, ← List.flatten_append,
    ← kept_append hheader hbody, headerLines, List.takeWhile_append_dropWhile]

/-- **The signed payload of a commit is recovered byte for byte**: taking the signatures out gives
back the commit they were put in, taking them out again changes nothing, and the body stays as it
is. -/
theorem stripGpgsig_exact :
    (∀ c c', (∀ line ∈ headerLines c, isSignature line = false) → Signed c c' →
      stripGpgsig c' = c) ∧
    (∀ raw, stripGpgsig (stripGpgsig raw) = stripGpgsig raw) ∧
    ∀ raw, (headerLines raw).flatten ++ bodyBytes raw = raw ∧
      stripGpgsig raw = stripGpgsig (headerLines raw).flatten ++ bodyBytes raw :=
  ⟨fun _ _ => stripGpgsig_signed, stripGpgsig_idem, fun raw => ⟨flatten_headerLines raw, stripGpgsig_body raw⟩⟩

/-- A commit of the tests, and its signature. -/
def helloCommit : Bytes := utf8 "tree abc\nauthor A <a@x> 1 +0000\n\nHello\n"

def helloSignature : Signature where
  sha256 := false
  first := utf8 "-----BEGIN PGP SIGNATURE-----"
  rest := [[], utf8 "iQE...", [], utf8 "-----END PGP SIGNATURE-----"]
  first_lf := by decide +kernel
  rest_lf := by decide +kernel

def signedHelloCommit : Bytes :=
  utf8 "tree abc\n" ++ (helloSignature.lines.flatten ++ utf8 "author A <a@x> 1 +0000\n\nHello\n")

theorem stripGpgsig_hello : stripGpgsig signedHelloCommit = helloCommit := by
  refine stripGpgsig_exact.1 helloCommit signedHelloCommit (by decide +kernel) ?_
  exact @Signed.line (utf8 "tree abc") (by decide +kernel)
    (by decide +kernel) _ _ (.sign helloSignature (by decide +kernel) (.unsigned _))

/-! ### Tags -/

/-- `SignatureFormat::detect`. -/
def detect (bytes : Bytes) : SignatureFormat :=
  if (utf8 "-----BEGIN PGP SIGNATURE-----").isPrefixOf bytes then .openPgp
  else if (utf8 "-----BEGIN SSH SIGNATURE-----").isPrefixOf bytes then .ssh
  else if (utf8 "-----BEGIN SIGNED MESSAGE-----").isPrefixOf bytes ||
    (utf8 "-----BEGIN CMS-----").isPrefixOf bytes then .x509Cms
  else .unknown

/-- `windows(needle.len()).position(|w| w == needle)`. -/
def position (needle : Bytes) : Bytes → Option Nat
  | [] => none
  | b :: bytes => if needle.isPrefixOf (b :: bytes) then some 0 else (position needle bytes).map (· + 1)

theorem position_eq_some {needle bytes : Bytes} {rel : Nat} (h : position needle bytes = some rel) :
    rel < bytes.length ∧ needle <+: bytes.drop rel ∧ ∀ q < rel, ¬ needle <+: bytes.drop q := by
  induction bytes generalizing rel with
  | nil => cases h
  | cons b bytes ih =>
    rw [position] at h
    split at h
    · rename_i hhere
      obtain rfl : 0 = rel := Option.some.inj h
      exact ⟨Nat.succ_pos _, List.isPrefixOf_iff_prefix.mp hhere, fun q hq => absurd hq (Nat.not_lt_zero q)⟩
    · rename_i hhere
      obtain ⟨rest, hrest, rfl⟩ := Option.map_eq_some_iff.mp h
      obtain ⟨hlength, hfound, hfirst⟩ := ih hrest
      refine ⟨Nat.succ_lt_succ hlength, hfound, fun q hq => ?_⟩
      cases q with
      | zero => exact fun hprefix => hhere (List.isPrefixOf_iff_prefix.mpr hprefix)
      | succ q => exact hfirst q (Nat.lt_of_succ_lt_succ hq)

theorem position_eq_none {needle bytes : Bytes} (h : position needle bytes = none) :
    ∀ q < bytes.length, ¬ needle <+: bytes.drop q := by
  induction bytes with
  | nil => exact fun q hq => absurd hq (Nat.not_lt_zero q)
  | cons b bytes ih =>
    rw [position] at h
    split at h
    · cases h
    · rename_i hhere
      intro q hq
      cases q with
      | zero => exact fun hprefix => hhere (List.isPrefixOf_iff_prefix.mpr hprefix)
      | succ q => exact ih (Option.map_eq_none_iff.mp h) q (Nat.lt_of_succ_lt_succ hq)

/-- `find_line_start`, from `search_from` on. -/
def findLineStart (haystack needle : Bytes) (searchFrom : Nat) : Option Nat :=
  match _h : position needle (haystack.drop searchFrom) with
  | none => none
  | some rel =>
    let pos := searchFrom + rel
    if pos = 0 || haystack[pos - 1]? = some 10 then some pos else findLineStart haystack needle (pos + 1)
termination_by haystack.length - searchFrom
decreasing_by
  have := (position_eq_some _h).1
  rw [List.length_drop] at this
  omega

/-- `MARKERS`. -/
def markers : List Bytes :=
  [utf8 "-----BEGIN PGP SIGNATURE-----", utf8 "-----BEGIN SSH SIGNATURE-----", utf8 "-----BEGIN SIGNED MESSAGE-----"]

/-- `strip_tag_signature`. -/
def stripTagSignature (raw : Bytes) : Bytes :=
  match markers.findSome? fun marker => findLineStart raw marker 0 with
  | some pos => raw.take pos
  | none => raw

/-- The needle stands at a position, and a line begins there. -/
structure StartsLine (haystack needle : Bytes) (pos : Nat) : Prop where
  within : pos < haystack.length
  lineStart : Ended (haystack.take pos)
  found : needle <+: haystack.drop pos

theorem ended_take_iff {haystack : Bytes} {pos : Nat} (h : pos < haystack.length) :
    Ended (haystack.take pos) ↔ pos = 0 ∨ haystack[pos - 1]? = some 10 := by
  cases pos with
  | zero => simp [Ended]
  | succ pos =>
    have hlast : (haystack.take (pos + 1)).getLast? = haystack[pos]? := by
      rw [List.getLast?_take]
      simp [List.getElem?_eq_getElem (Nat.lt_of_succ_lt h)]
    have hne : haystack ≠ [] := List.ne_nil_of_length_pos (Nat.zero_lt_of_lt h)
    rw [Ended, hlast]
    simp [hne]

theorem findLineStart_spec (haystack needle : Bytes) (searchFrom : Nat) :
    (∀ pos, findLineStart haystack needle searchFrom = some pos → StartsLine haystack needle pos) ∧
    (findLineStart haystack needle searchFrom = none → ∀ pos, searchFrom ≤ pos →
      ¬ StartsLine haystack needle pos) := by
  induction hn : haystack.length - searchFrom using Nat.strong_induction_on generalizing searchFrom with
  | _ n ih =>
    rw [findLineStart]
    split
    · rename_i hnone
      refine ⟨by simp, fun _ pos hpos hstarts => ?_⟩
      have hwithin := hstarts.within
      refine position_eq_none hnone (pos - searchFrom) (by rw [List.length_drop]; omega) ?_
      rw [List.drop_drop, Nat.add_sub_cancel' hpos]
      exact hstarts.found
    · rename_i rel hrel
      obtain ⟨hlength, hfound, hfirst⟩ := position_eq_some hrel
      rw [List.length_drop] at hlength
      rw [List.drop_drop] at hfound
      have hline := @ended_take_iff haystack (searchFrom + rel) (by omega)
      dsimp only
      split
      · rename_i hstart
        refine ⟨fun pos hpos => ?_, by simp⟩
        obtain rfl := Option.some.inj hpos
        exact ⟨by omega, hline.mpr (by simpa using hstart), hfound⟩
      · rename_i hstart
        obtain ⟨hsome, hnone⟩ := ih (haystack.length - (searchFrom + rel + 1)) (by omega) (searchFrom + rel + 1) rfl
        refine ⟨hsome, fun h pos hpos hstarts => ?_⟩
        rcases Nat.lt_trichotomy pos (searchFrom + rel) with hlt | rfl | hgt
        · refine hfirst (pos - searchFrom) (by omega) ?_
          rw [List.drop_drop, Nat.add_sub_cancel' hpos]
          exact hstarts.found
        · exact hstart (by simpa using hline.mp hstarts.lineStart)
        · exact hnone h pos hgt hstarts

/-- What every line that may begin a signature block begins with. -/
def beginMark : Bytes := utf8 "-----BEGIN "

/-- The marker that `detect` knows and `strip_tag_signature` does not. -/
def cmsMarker : Bytes := utf8 "-----BEGIN CMS-----"

section

variable {p s : Bytes} (hp : Ended p) (hmessage : ∀ line ∈ splitLines p, ¬ beginMark <+: line)
  (hlater : ∀ line ∈ (splitLines s).tail, ¬ beginMark <+: line)

include hp hmessage hlater

theorem eq_of_startsLine {marker : Bytes} (hlf : (10 : UInt8) ∉ marker)
    (hmark : beginMark <+: marker) {pos : Nat} (h : StartsLine (p ++ s) marker pos) :
    pos = p.length := by
  -- both cuts are between lines, so that the line the marker begins is one of the message or of the block
  have hlines : splitLines ((p ++ s).take pos) ++ splitLines ((p ++ s).drop pos) = splitLines p ++ splitLines s := by
    rw [← splitLines_append h.lineStart, List.take_append_drop, splitLines_append hp]
  obtain ⟨line, rest, hrest⟩ : ∃ line rest, splitLines ((p ++ s).drop pos) = line :: rest := by
    refine List.exists_cons_of_ne_nil (splitLines_ne_nil fun hnil => ?_)
    exact absurd (List.drop_eq_nil_iff.mp hnil) (Nat.not_le_of_lt h.within)
  have hline : beginMark <+: line := hmark.trans (prefix_first_line hlf h.found hrest)
  rw [hrest] at hlines
  have hcount : (splitLines ((p ++ s).take pos)).length = (splitLines p).length := by
    rcases List.append_eq_append_iff.mp hlines with ⟨middle, hp', hrest'⟩ | ⟨middle, -, hs⟩
    · cases middle with
      | nil => rw [hp', List.append_nil]
      | cons next middle =>
        obtain ⟨rfl, -⟩ := List.cons.inj hrest'
        exact absurd hline (hmessage _ (hp' ▸ List.mem_append_right _ List.mem_cons_self))
    · cases middle with
      | nil => simp_all
      | cons next middle =>
        refine absurd hline (hlater _ ?_)
        rw [hs]
        simp
  have htake : (p ++ s).take pos = p := by
    rw [← flatten_splitLines ((p ++ s).take pos), (List.append_inj hlines hcount).1, flatten_splitLines]
  have hlength := congrArg List.length htake
  rw [List.length_take, Nat.min_eq_left h.within.le] at hlength
  exact hlength

theorem findLineStart_block {marker : Bytes} (hlf : (10 : UInt8) ∉ marker)
    (hmark : beginMark <+: marker) :
    findLineStart (p ++ s) marker 0 = if marker <+: s then some p.length else none := by
  obtain ⟨hsome, hnone⟩ := findLineStart_spec (p ++ s) marker 0
  cases hfind : findLineStart (p ++ s) marker 0 with
  | none =>
    split
    · rename_i hprefix
      have hs : 0 < s.length := hprefix.length_le.trans_lt' (hmark.length_le.trans_lt' (by decide +kernel))
      refine absurd ⟨?_, ?_, ?_⟩ (hnone hfind p.length (Nat.zero_le _))
      · rw [List.length_append]; omega
      · rwa [List.take_left]
      · rwa [List.drop_left]
    · rfl
  | some pos =>
    have hstarts := hsome pos hfind
    obtain rfl := eq_of_startsLine hp hmessage hlater hlf hmark hstarts
    have hfound := hstarts.found
    rw [List.drop_left] at hfound
    rw [if_pos hfound]

theorem stripTagSignature_block :
    stripTagSignature (p ++ s) = if ∃ marker ∈ markers, marker <+: s then p else p ++ s := by
  have hmarkers : ∀ marker ∈ markers, (10 : UInt8) ∉ marker ∧ beginMark <+: marker := by decide +kernel
  have hfind : ∀ marker ∈ markers, findLineStart (p ++ s) marker 0 = if marker <+: s then some p.length else none :=
    fun marker hmarker => findLineStart_block hp hmessage hlater (hmarkers marker hmarker).1
      (hmarkers marker hmarker).2
  rw [stripTagSignature]
  split
  · rename_i hsome
    obtain ⟨marker, hmarker, hif⟩ := List.exists_of_findSome?_eq_some hsome
    rw [hfind marker hmarker] at hif
    split at hif
    · rename_i hprefix
      obtain rfl := Option.some.inj hif
      rw [if_pos ⟨marker, hmarker, hprefix⟩, List.take_left]
    · cases hif
  · rename_i hnone
    refine (if_neg ?_).symm
    rintro ⟨marker, hmarker, hprefix⟩
    have hnot := List.findSome?_eq_none_iff.mp hnone marker hmarker
    rw [hfind marker hmarker, if_pos hprefix] at hnot
    cases hnot

end

theorem exists_marker_iff {s : Bytes} (hs : detect s ≠ .unknown) :
    (∃ marker ∈ markers, marker <+: s) ↔ ¬ cmsMarker <+: s := by
  constructor
  · rintro ⟨marker, hmarker, hprefix⟩ hcms
    have hapart : ∀ marker ∈ markers, ¬ marker <+: cmsMarker ∧ ¬ cmsMarker <+: marker := by decide +kernel
    obtain ⟨h, h'⟩ := hapart marker hmarker
    exact (List.prefix_or_prefix_of_prefix hprefix hcms).elim h h'
  · intro hcms
    by_contra hnone
    simp only [markers, List.mem_cons, List.not_mem_nil, or_false, exists_eq_or_imp, exists_eq_left, not_or] at hnone
    obtain ⟨hpgp, hssh, hsigned⟩ := hnone
    apply hs
    simp only [detect, Bool.or_eq_true, List.isPrefixOf_iff_prefix]
    rw [if_neg hpgp, if_neg hssh, if_neg fun h => h.elim hsigned hcms]

theorem stripTagSignature_prefix (raw : Bytes) :
    stripTagSignature raw <+: raw ∧
      (Ended (stripTagSignature raw) ∨ stripTagSignature raw = raw) := by
  rw [stripTagSignature]
  split
  · rename_i hsome
    obtain ⟨marker, -, hfind⟩ := List.exists_of_findSome?_eq_some hsome
    exact ⟨List.take_prefix _ _, Or.inl ((findLineStart_spec raw marker 0).1 _ hfind).lineStart⟩
  · exact ⟨List.prefix_refl raw, Or.inr rfl⟩

/-- **The payload of a tag is recovered exactly if its signature does not begin with the fourth
marker.** What is returned is always a prefix, cut between two lines. -/
theorem stripTagSignature_iff {p s : Bytes} (hp : Ended p)
    (hmessage : ∀ line ∈ splitLines p, ¬ beginMark <+: line) (hs : detect s ≠ .unknown)
    (hlater : ∀ line ∈ (splitLines s).tail, ¬ beginMark <+: line) (raw : Bytes) :
    (stripTagSignature (p ++ s) = p ↔ ¬ cmsMarker <+: s) ∧
    stripTagSignature raw <+: raw ∧ (Ended (stripTagSignature raw) ∨ stripTagSignature raw = raw) := by
  refine ⟨?_, stripTagSignature_prefix raw⟩
  rw [stripTagSignature_block hp hmessage hlater, ← exists_marker_iff hs]
  have hne : s ≠ [] := by
    rintro rfl
    exact hs rfl
  split
  · rename_i h
    exact iff_of_true rfl h
  · rename_i h
    exact iff_of_false (fun heq => hne (List.self_eq_append_right.mp heq.symm)) h

/-- The payload of the tag of the tests. -/
def releaseTag : Bytes :=
  utf8 "object abc\ntype commit\ntag v1\ntagger T <t@x> 1 +0000\n\nRelease notes\n"

theorem stripTagSignature_release :
    stripTagSignature (releaseTag ++
      utf8 "-----BEGIN PGP SIGNATURE-----\niQE...\n-----END PGP SIGNATURE-----\n") = releaseTag :=
  (stripTagSignature_iff (Or.inr (by decide +kernel)) (by decide +kernel) (by decide +kernel)
    (by decide +kernel) []).1.mpr
    (by decide +kernel)

def cmsBlock : Bytes := utf8 "-----BEGIN CMS-----\nMII...\n-----END CMS-----\n"

/-- A block of the fourth kind stays. -/
theorem stripTagSignature_cms :
    Ended releaseTag ∧ (∀ line ∈ splitLines releaseTag, ¬ beginMark <+: line) ∧
    detect cmsBlock = .x509Cms ∧ (∀ line ∈ (splitLines cmsBlock).tail, ¬ beginMark <+: line) ∧
    stripTagSignature (releaseTag ++ cmsBlock) ≠ releaseTag :=
  ⟨Or.inr (by decide +kernel), by decide +kernel, by decide +kernel, by decide +kernel, by decide +kernel⟩

end Mizzle.Sigverify
