import Mizzle.Auth.NewCommits
import Mizzle.Backend.GitCli.TreeDiff

/-!
# The bounded walk of the git command-line backend

`reachable_excluding_sync` of `mizzle/src/backend/fs_git_cli.rs`: `git rev-list` is asked for one
commit more than the cap, and the loop over its output gives up at the first commit beyond the cap.

One more than the largest `usize` is zero in a release build. With that cap git is asked for
nothing, and the walk succeeds with nothing: it respects the cap exactly if the cap is another one
or there is no commit to miss (`respectsCap_iff`). `WalksRight`, on which the results about
`new_commits` rest, holds at every other cap, and at this one no commit is reported.
-/

namespace Mizzle.GitCli

open Lib

/-! ### The walk -/

def walkArgs (tips excluding : List ObjectId) (maxCount : UInt64) : List String :=
  ["rev-list", "--topo-order"] ++ tips.map ObjectId.toHexString ++ (excluding.map fun oid => "^" ++ oid.toHexString) ++
    ["--max-count=" ++ decimalText maxCount.toNat]

/-- The loop over the lines of the output. -/
def readCommits (cap : UInt64) :
    List (List Char) → List ObjectId → Except ReachableError (List ObjectId)
  | [], out => .ok out
  | line :: lines, out =>
    let trimmed := trim line
    if trimmed = [] then readCommits cap lines out
    else
      match ObjectId.fromHex (utf8 (String.ofList trimmed)) with
      | none => .error (.other "rev-list parse: ")
      | some oid =>
        if cap.toNat ≤ out.length then .error (.capExceeded cap.toNat) else readCommits cap lines (out ++ [oid])

/-- `reachable_excluding_sync`. The sum wraps. -/
def reachableExcludingSync (git : List String → Option GitOutput) (tips excluding : List ObjectId)
    (cap : UInt64) : Except ReachableError (List ObjectId) :=
  if tips = [] then .ok []
  else
    match runGit git (walkArgs tips excluding (cap + 1)) with
    | .error e => .error (.other ("rev-list: " ++ e.message))
    | .ok stdout => readCommits cap (textLines stdout.toList) []

/-! ### What git prints -/

def oidLines (commits : List ObjectId) : List Char :=
  (commits.map fun c => c.toHexString.toList).flatMap (· ++ ['\n'])

/-- `git rev-list` on a history: it has one list of the commits that the tips reach and the excluded
do not, and with `--max-count=<n>` it prints the first `n` of them. -/
structure PrintsFirst (git : List String → Option GitOutput) (parents : ObjectId → List ObjectId)
    (tips excluding : List ObjectId) (commits : List ObjectId) : Prop where
  nodup : commits.Nodup
  mem : ∀ c, c ∈ commits ↔ Reach parents tips c ∧ ¬ Reach parents excluding c
  prints : ∀ n : UInt64, ∃ stderr, git (walkArgs tips excluding n) =
    some { success := true, stdout := utf8 (String.ofList (oidLines (commits.take n.toNat))), stderr }

/-- All commits if there are at most `cap` of them, and an error otherwise; never a success with a
commit missing. -/
structure RespectsCap (result : Except ReachableError (List ObjectId)) (commits : Set ObjectId)
    (cap : Nat) : Prop where
  complete : commits.ncard ≤ cap → ∃ out, result = .ok out ∧ out.Nodup ∧ ∀ c, c ∈ out ↔ c ∈ commits
  exceeded : cap < commits.ncard → result = .error (.capExceeded cap)
  noneMissing : ∀ out, result = .ok out → ∀ c ∈ commits, c ∈ out

/-! ### Reading it -/

theorem trim_text {cs : List Char} (hhead : ∀ c ∈ cs.head?, isWhitespace c = false)
    (hlast : ∀ c ∈ cs.getLast?, isWhitespace c = false) (hne : cs ≠ []) :
    trim (cs ++ ['\n']) = cs := by
  have hfirst : (cs ++ ['\n']).dropWhile isWhitespace = cs ++ ['\n'] := by
    obtain ⟨first, rest, rfl⟩ := List.exists_cons_of_ne_nil hne
    exact List.dropWhile_cons_of_neg (by simp [hhead first rfl])
  obtain ⟨init, last, rfl⟩ : ∃ init last, cs = init ++ [last] := ⟨_, _, (List.dropLast_append_getLast hne).symm⟩
  have hend := hlast last (List.getLast?_concat ..)
  have hlf : isWhitespace '\n' = true := by decide
  rw [trim, hfirst]
  simp [hend, hlf]

theorem trim_toHexString (oid : ObjectId) :
    trim oid.toHexString.toList = oid.toHexString.toList := by
  have hword := isWhitespace_toHexString oid
  have hdrop : oid.toHexString.toList.dropWhile isWhitespace = oid.toHexString.toList := by
    rw [List.dropWhile_eq_self_iff]
    exact fun hlength => by simp [hword _ (List.getElem_mem hlength)]
  rw [trim, hdrop]
  exact rdropWhile_of_notMem hword

theorem newline_notMem_toHexString (oid : ObjectId) :
    '\n' ∉ oid.toHexString.toList ∧ '\r' ∉ oid.toHexString.toList := by
  constructor
  all_goals exact fun hmem => absurd (isWhitespace_toHexString oid _ hmem) (by decide)

theorem textLines_trim_oidLines (commits : List ObjectId) :
    textLines (trim (oidLines commits)) = commits.map fun c => c.toHexString.toList := by
  rcases List.eq_nil_or_concat' commits with rfl | ⟨init, last, rfl⟩
  · rfl
  have hlines : oidLines (init ++ [last]) = oidLines init ++ last.toHexString.toList ++ ['\n'] := by
    simp [oidLines]
  have hne : oidLines init ++ last.toHexString.toList ≠ [] := by simp [toHexString_ne_nil last]
  have hhead : ∀ c ∈ (oidLines init ++ last.toHexString.toList).head?, isWhitespace c = false := by
    cases init with
    | nil => exact fun c hc => isWhitespace_toHexString last c (List.mem_of_head? hc)
    | cons first init =>
      obtain ⟨digit, digits, hdigits⟩ := List.exists_cons_of_ne_nil (toHexString_ne_nil first)
      intro c hc
      have hdigit : c = digit := by simpa [oidLines, hdigits, eq_comm] using hc
      exact isWhitespace_toHexString first c (by simp [hdigits, hdigit])
  have hlast : ∀ c ∈ (oidLines init ++ last.toHexString.toList).getLast?, isWhitespace c = false := by
    rw [List.getLast?_append_of_ne_nil _ (toHexString_ne_nil last)]
    exact fun c hc => isWhitespace_toHexString last c (List.mem_of_getLast? hc)
  rw [hlines, trim_text hhead hlast hne, oidLines, textLines_lines_append _ (newline_notMem_toHexString last).1]
  · simp [toHexString_ne_nil last]
  · intro line hline
    obtain ⟨c, -, rfl⟩ := List.mem_map.mp hline
    exact newline_notMem_toHexString c

theorem readCommits_lines (cap : UInt64) (commits out : List ObjectId) :
    readCommits cap (commits.map fun c => c.toHexString.toList) out =
      if out.length + commits.length ≤ cap.toNat ∨ commits = [] then .ok (out ++ commits)
      else .error (.capExceeded cap.toNat) := by
  induction commits generalizing out with
  | nil => simp [readCommits]
  | cons c commits ih =>
    have hoid : ObjectId.fromHex (utf8 (String.ofList c.toHexString.toList)) = some c := by
      rw [String.ofList_toList, utf8_toHexString, ObjectId.fromHex_toHex]
    simp only [List.map_cons, readCommits, trim_toHexString, toHexString_ne_nil, if_false, hoid, ih,
      List.length_append,
      List.length_cons, List.length_nil, List.append_assoc, List.cons_append, List.nil_append, reduceCtorEq, or_false]
    by_cases hcap : cap.toNat ≤ out.length
    · rw [if_pos hcap, if_neg (by omega)]
    · rw [if_neg hcap]
      congr 1
      simp only [eq_iff_iff, ← List.length_eq_zero_iff]
      omega

/-! ### The cap -/

section

variable {git : List String → Option GitOutput} {parents : ObjectId → List ObjectId}
  {tips excluding commits : List ObjectId}

theorem reachableExcludingSync_eq (hgit : PrintsFirst git parents tips excluding commits)
    (cap : UInt64) :
    reachableExcludingSync git tips excluding cap =
      if min (cap + 1).toNat commits.length ≤ cap.toNat then .ok (commits.take (cap + 1).toNat)
      else .error (.capExceeded cap.toNat) := by
  rw [reachableExcludingSync]
  split
  · rename_i htips
    have hnone : commits = [] := List.eq_nil_iff_forall_not_mem.mpr fun c hc => by
      rw [hgit.mem, htips] at hc
      exact reach_nil hc.1
    simp [hnone]
  · obtain ⟨stderr, hrun⟩ := hgit.prints (cap + 1)
    have htext : runGit git (walkArgs tips excluding (cap + 1)) =
        .ok (String.ofList (trim (oidLines (commits.take (cap + 1).toNat)))) := by
      rw [runGit, hrun]
      simp only [if_true, fromUtf8Lossy_utf8, String.toList_ofList]
    rw [htext]
    simp only [String.toList_ofList, textLines_trim_oidLines, readCommits_lines, List.length_nil,
      List.nil_append, Nat.zero_add,
      List.length_take]
    congr 1
    simp only [eq_iff_iff, ← List.length_eq_zero_iff, List.length_take]
    omega

theorem reachableExcludingSync_of_ne (hgit : PrintsFirst git parents tips excluding commits)
    {cap : UInt64} (hcap : cap.toNat ≠ 2 ^ 64 - 1) :
    reachableExcludingSync git tips excluding cap =
      if commits.length ≤ cap.toNat then .ok commits else .error (.capExceeded cap.toNat) := by
  have hsum : (cap + 1).toNat = cap.toNat + 1 := by
    have hlt := cap.toNat_lt
    rw [UInt64.toNat_add]
    exact Nat.mod_eq_of_lt (show cap.toNat + 1 < 2 ^ 64 by omega)
  rw [reachableExcludingSync_eq hgit, hsum]
  by_cases hle : commits.length ≤ cap.toNat
  · rw [if_pos (by omega), if_pos hle, List.take_of_length_le (by omega)]
  · rw [if_neg (by omega), if_neg hle]

theorem reachableExcludingSync_max (hgit : PrintsFirst git parents tips excluding commits)
    {cap : UInt64} (hcap : cap.toNat = 2 ^ 64 - 1) :
    reachableExcludingSync git tips excluding cap = .ok [] := by
  have hsum : (cap + 1).toNat = 0 := by
    rw [UInt64.toNat_add, hcap]
    rfl
  rw [reachableExcludingSync_eq hgit, hsum, if_pos (by omega), List.take_zero]

theorem PrintsFirst.ncard (hgit : PrintsFirst git parents tips excluding commits) :
    {c | Reach parents tips c ∧ ¬ Reach parents excluding c}.ncard = commits.length := by
  rw [← List.toFinset_card_of_nodup hgit.nodup, ← Set.ncard_coe_finset]
  refine congrArg Set.ncard (Set.ext fun c => ?_)
  rw [Finset.mem_coe, List.mem_toFinset, hgit.mem]
  rfl

/-- **The walk respects the cap exactly if the cap is not the largest `usize`, or there is no commit
to list.** -/
theorem respectsCap_iff (hgit : PrintsFirst git parents tips excluding commits) (cap : UInt64) :
    RespectsCap (reachableExcludingSync git tips excluding cap)
      {c | Reach parents tips c ∧ ¬ Reach parents excluding c} cap.toNat ↔
      cap.toNat ≠ 2 ^ 64 - 1 ∨ ∀ c, Reach parents tips c → Reach parents excluding c := by
  constructor
  · intro hrespects
    by_contra hnot
    obtain ⟨hcap, hsome⟩ := not_or.mp hnot
    refine hsome fun c htips => by_contra fun hexcluding => ?_
    have hmem := hrespects.noneMissing [] (reachableExcludingSync_max hgit (not_not.mp hcap)) c ⟨htips, hexcluding⟩
    exact List.not_mem_nil hmem
  · intro hcond
    have hwalk : reachableExcludingSync git tips excluding cap =
        if commits.length ≤ cap.toNat then .ok commits else .error (.capExceeded cap.toNat) := by
      by_cases hcap : cap.toNat = 2 ^ 64 - 1
      · have hnone : commits = [] := List.eq_nil_iff_forall_not_mem.mpr fun c hc =>
          ((hgit.mem c).mp hc).2 (hcond.resolve_left (not_not.mpr hcap) c ((hgit.mem c).mp hc).1)
        rw [reachableExcludingSync_max hgit hcap, hnone, List.length_nil, if_pos (Nat.zero_le _)]
      · exact reachableExcludingSync_of_ne hgit hcap
    refine ⟨fun hle => ⟨commits, ?_, hgit.nodup, hgit.mem⟩, fun hlt => ?_, fun out hout c hc => ?_⟩
    · rw [hwalk, if_pos (hgit.ncard ▸ hle)]
    · rw [hwalk, if_neg (Nat.not_le.mpr (hgit.ncard ▸ hlt))]
    · rw [hwalk] at hout
      split at hout
      · rw [← Except.ok.inj hout]
        exact (hgit.mem c).mpr hc
      · cases hout

end

/-! ### A git that counts -/

/-- The number it is asked for is in its last argument. -/
def countingGit (commits : List ObjectId) : List String → Option GitOutput := fun args => do
  let last ← args.getLast?
  let n ← decimalNumber (utf8 (String.ofList (last.toList.drop 12)))
  return { success := true, stdout := utf8 (String.ofList (oidLines (commits.take n))), stderr := [] }

theorem printsFirst_countingGit {parents : ObjectId → List ObjectId}
    {tips excluding commits : List ObjectId} (hnodup : commits.Nodup)
    (hmem : ∀ c, c ∈ commits ↔ Reach parents tips c ∧ ¬ Reach parents excluding c) :
    PrintsFirst (countingGit commits) parents tips excluding commits where
  nodup := hnodup
  mem := hmem
  prints n := by
    have hnumber : decimalNumber (utf8 (decimalText n.toNat)) = some n.toNat := decimalNumber_decimal n.toNat
    refine ⟨[], ?_⟩
    rw [countingGit, walkArgs, List.getLast?_concat]
    simp [hnumber]

/-- Two commits, the second one the parent of the first. -/
def pairParents (c : ObjectId) : List ObjectId := if c = .fill 1 then [.fill 2] else []

def pairCommits : List ObjectId := [.fill 1, .fill 2]

theorem mem_pairCommits (c : ObjectId) :
    c ∈ pairCommits ↔ Reach pairParents [.fill 1] c ∧ ¬ Reach pairParents [] c := by
  have hpath : Relation.ReflTransGen (Edge pairParents) (.fill 1) c ↔ c = .fill 1 ∨ c = .fill 2 := by
    constructor
    · intro h
      induction h with
      | refl => exact Or.inl rfl
      | tail _ hedge ih =>
        rcases ih with rfl | rfl
        · exact Or.inr (List.mem_singleton.mp hedge)
        · exact absurd hedge List.not_mem_nil
    · rintro (rfl | rfl)
      · exact .refl
      · exact .single (List.mem_singleton_self _)
  rw [reach_singleton, hpath, and_iff_left reach_nil, pairCommits]
  simp

theorem printsFirst_pair :
    PrintsFirst (countingGit pairCommits) pairParents [.fill 1] [] pairCommits :=
  printsFirst_countingGit (by decide) mem_pairCommits

/-- A cap of one is exceeded by two commits. -/
theorem respectsCap_pair :
    RespectsCap (reachableExcludingSync (countingGit pairCommits) [.fill 1] [] 1)
    {c | Reach pairParents [.fill 1] c ∧ ¬ Reach pairParents [] c} 1 :=
  (respectsCap_iff printsFirst_pair 1).mpr (Or.inl (by decide))

/-- With the largest cap both commits are missing from a walk that succeeds. -/
theorem not_respectsCap_pair :
    reachableExcludingSync (countingGit pairCommits) [.fill 1] [] (-1) = .ok [] ∧
    ¬ RespectsCap (reachableExcludingSync (countingGit pairCommits) [.fill 1] [] (-1))
      {c | Reach pairParents [.fill 1] c ∧ ¬ Reach pairParents [] c} (-1 : UInt64).toNat := by
  have hnothing := reachableExcludingSync_max printsFirst_pair (show (-1 : UInt64).toNat = 2 ^ 64 - 1 by decide)
  refine ⟨hnothing, fun hrespects => ?_⟩
  have hmem := hrespects.noneMissing [] hnothing (.fill 1) ((mem_pairCommits _).mp List.mem_cons_self)
  exact List.not_mem_nil hmem

/-! ### What the authoriser sees -/

section

variable {git : List String → Option GitOutput} {parents : ObjectId → List ObjectId}
  {c : Auth.Comparison} {cap : UInt64}
  (hgit : ∀ tips excluding, ∃ commits, PrintsFirst git parents tips excluding commits)
  (hbackend : ∀ tips excluding,
    c.backend.reachableExcluding tips excluding c.maxReachableCommits = reachableExcludingSync git tips excluding cap)

include hgit hbackend

theorem walksRight (hcap : cap.toNat ≠ 2 ^ 64 - 1) : c.WalksRight parents := by
  intro tips excluding oids hoids
  obtain ⟨commits, hprints⟩ := hgit tips excluding
  rw [hbackend, reachableExcludingSync_of_ne hprints hcap] at hoids
  split at hoids
  · rw [← Except.ok.inj hoids]
    exact hprints.mem
  · cases hoids

theorem computeNewCommits_max (hcap : cap.toNat = 2 ^ 64 - 1) (idx : Nat) (r : PushRef) :
    c.computeNewCommits idx r = .ok [] := by
  obtain ⟨commits, hprints⟩ := hgit [r.newOid] (c.excluding idx)
  rw [Auth.Comparison.computeNewCommits]
  split
  · rfl
  · rw [hbackend, reachableExcludingSync_max hprints hcap]
    rfl

end

end Mizzle.GitCli
