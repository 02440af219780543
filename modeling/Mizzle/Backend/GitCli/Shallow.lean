import Mizzle.Backend.GitCli.TreeDiff
import Mizzle.Lib.Frontier
import Mizzle.Pack.Depth

/-!
# Shallow packs of the git command-line backend

`build_pack_shallow` of `mizzle/src/backend/fs_git_cli.rs`: the boundary of a shallow clone is read
from the output of `git rev-list --boundary --parents --max-count=<depth>`, and the commits with a
parent in it are the shallow ones.

`--max-count` is a number of commits, and the depth of a clone is a number of levels, by which
`depth_limited_commits` goes. `shallow_agree_iff` says on which histories it makes no difference,
whatever order git lists the commits in.
-/

namespace Mizzle.GitCli

open Lib Pack

/-! ### The two commands -/

inductive ShallowError where
  | spawningRevList
  | revListFailed (stderr : String)
  | spawningPackObjects
  | writing
deriving DecidableEq

/-- `PackOutput`: where the pack is read from, and the shallow commits. -/
structure PackOutput (R : Type) where
  reader : R
  shallow : List ObjectId
deriving DecidableEq

def revListArgs (want haves : List ObjectId) (depth : UInt32) : List String :=
  ["rev-list", "--boundary", "--parents", "--max-count=" ++ decimalText depth.toNat] ++
    want.map ObjectId.toHexString ++
    haves.map fun oid => "^" ++ oid.toHexString

def filterSpec : Filter → String
  | .blobNone => "blob:none"
  | .treeNone => "tree:0"

def packArgs (opts : PackOptions) : List String :=
  ["pack-objects", "--revs", "--stdout", "--progress"] ++ (if opts.thinPack then ["--thin"] else []) ++
    (opts.filter.map fun filter => "--filter=" ++ filterSpec filter).toList

/-- What is written to `pack-objects`. -/
def packInput (want haves shallow : List ObjectId) : String :=
  String.join (want.map (fun oid => oid.toHexString ++ "\n") ++
    haves.map (fun oid => "^" ++ oid.toHexString ++ "\n") ++
    shallow.map fun oid => "--shallow " ++ oid.toHexString ++ "\n")

/-! ### The output of `rev-list` -/

def wordOid (word : List Char) : Option ObjectId := ObjectId.fromHex (utf8 (String.ofList word))

/-- The commit of a line that starts with a minus sign. -/
def boundaryOid (line : List Char) : Option ObjectId :=
  if line.head? = some '-' then wordOid ((splitWords isWhitespace line.tail).head?.getD line.tail) else none

/-- The commit of another line, if one of its parents is in the boundary. -/
def shallowOid (boundary : List ObjectId) (line : List Char) : Option ObjectId :=
  if line.head? = some '-' ∨ line = [] then none
  else
    let parts := splitWords isWhitespace line
    match wordOid (parts.headD []) with
    | none => none
    | some commit => if parts.tail.any fun word => (wordOid word).any (· ∈ boundary) then some commit else none

def shallowCommits (revStdout : String) : List ObjectId :=
  let lines := textLines revStdout.toList
  lines.filterMap (shallowOid (lines.filterMap boundaryOid))

/-- `build_pack_shallow`. A process that is spawned takes its input, or breaks the pipe. -/
def buildPackShallow {R : Type} (git : List String → Option GitOutput)
    (spawn : List String → Option (Bytes → Option R)) (want haves : List ObjectId) (depth : UInt32)
    (opts : PackOptions) : Except ShallowError (PackOutput R) :=
  match git (revListArgs want haves depth) with
  | none => .error .spawningRevList
  | some output =>
    if output.success then
      let shallow := shallowCommits (fromUtf8Lossy output.stdout)
      match spawn (packArgs opts) with
      | none => .error .spawningPackObjects
      | some write =>
        match write (utf8 (packInput want haves shallow)) with
        | none => .error .writing
        | some reader => .ok { reader, shallow }
    else .error (.revListFailed (fromUtf8Lossy output.stderr))

/-! ### What git prints -/

def oidLine (oid : ObjectId) (others : List ObjectId) : List Char :=
  oid.toHexString.toList ++ (others.map fun other => other.toHexString.toList).flatMap (' ' :: ·)

/-- Commits with their parents, then a boundary. What follows the oid in a line of the boundary is
left open. -/
def listing (parents after : ObjectId → List ObjectId) (printed boundary : List ObjectId) :
    String :=
  String.ofList ((printed.map (fun c => oidLine c (parents c)) ++
    boundary.map fun b => '-' :: oidLine b (after b)).flatMap (· ++ ['\n']))

/-- `git rev-list --boundary --parents --max-count=<depth>` on a history: the first commits of a
list in which children come first, and the parents that were not printed. -/
def ListsHistory (git : List String → Option GitOutput) (parents : ObjectId → List ObjectId)
    (wants : List ObjectId) (depth : UInt32) : Prop :=
  ∃ order boundary after stderr, ChildFirst parents wants order ∧
    (∀ q, q ∈ boundary ↔ q ∉ order.take depth.toNat ∧ ∃ c ∈ order.take depth.toNat, q ∈ parents c) ∧
    git (revListArgs wants [] depth) =
      some { success := true, stdout := utf8 (listing parents after (order.take depth.toNat) boundary), stderr }

/-- `pack-objects` can be started and takes its input. -/
def Starts {R : Type} (spawn : List String → Option (Bytes → Option R)) : Prop :=
  ∀ args, ∃ write, spawn args = some write ∧ ∀ input, ∃ reader, write input = some reader

/-! ### Reading it -/

theorem wordOid_toHexString (oid : ObjectId) : wordOid oid.toHexString.toList = some oid := by
  rw [wordOid, String.ofList_toList, utf8_toHexString, ObjectId.fromHex_toHex]

theorem splitWords_oidLine (oid : ObjectId) (others : List ObjectId) :
    splitWords isWhitespace (oidLine oid others) = oid.toHexString.toList :: others.map fun other =>
      other.toHexString.toList := by
  rw [oidLine]
  refine splitWords_words (toHexString_ne_nil oid) (isWhitespace_toHexString oid) (by decide) fun w hw => ?_
  obtain ⟨other, -, rfl⟩ := List.mem_map.mp hw
  exact ⟨toHexString_ne_nil other, isWhitespace_toHexString other⟩

theorem head?_oidLine (oid : ObjectId) (others : List ObjectId) :
    oidLine oid others ≠ [] ∧ (oidLine oid others).head? ≠ some '-' := by
  obtain ⟨first, rest, hhex⟩ := List.exists_cons_of_ne_nil (toHexString_ne_nil oid)
  have hfirst := toList_toHexString oid first (by simp [hhex])
  rw [oidLine, hhex]
  refine ⟨List.cons_ne_nil _ _, fun hminus => ?_⟩
  rw [List.cons_append, List.head?_cons, Option.some.injEq] at hminus
  subst hminus
  exact absurd hfirst (by decide)

theorem mem_oidLine {oid : ObjectId} {others : List ObjectId} {c : Char}
    (h : c ∈ oidLine oid others) : isHexDigit c = true ∨ c = ' ' := by
  rcases List.mem_append.mp h with h | h
  · exact Or.inl (toList_toHexString oid c h)
  · obtain ⟨_, hword, hc⟩ := List.mem_flatMap.mp h
    obtain ⟨other, -, rfl⟩ := List.mem_map.mp hword
    rcases List.mem_cons.mp hc with rfl | hc
    · exact Or.inr rfl
    · exact Or.inl (toList_toHexString other c hc)

theorem boundaryOid_oidLine (oid : ObjectId) (others : List ObjectId) :
    boundaryOid (oidLine oid others) = none :=
  if_neg (head?_oidLine oid others).2

theorem boundaryOid_minus (oid : ObjectId) (others : List ObjectId) :
    boundaryOid ('-' :: oidLine oid others) = some oid := by
  rw [boundaryOid, List.head?_cons, if_pos rfl, List.tail_cons, splitWords_oidLine, List.head?_cons, Option.getD_some,
    wordOid_toHexString]

theorem shallowOid_oidLine (boundary : List ObjectId) (oid : ObjectId) (others : List ObjectId) :
    shallowOid boundary (oidLine oid others) = if ∃ q ∈ others, q ∈ boundary then some oid
      else none := by
  obtain ⟨hne, hminus⟩ := head?_oidLine oid others
  rw [shallowOid, if_neg (not_or.mpr ⟨hminus, hne⟩)]
  simp only [splitWords_oidLine, List.headD_cons, List.tail_cons, wordOid_toHexString, List.any_map]
  congr 1
  simp [wordOid_toHexString]

theorem shallowOid_minus (boundary : List ObjectId) (line : List Char) :
    shallowOid boundary ('-' :: line) = none :=
  if_pos (Or.inl rfl)

section

variable (parents after : ObjectId → List ObjectId) (printed boundary : List ObjectId)

theorem textLines_listing : textLines (listing parents after printed boundary).toList =
    printed.map (fun c => oidLine c (parents c)) ++ boundary.map fun b => '-' :: oidLine b (after b) := by
  rw [listing, String.toList_ofList]
  have hline : ∀ {c : Char}, (isHexDigit c = true ∨ c = ' ') → c ≠ '\n' ∧ c ≠ '\r' := by
    rintro c hc
    constructor
    all_goals
      rintro rfl
      exact absurd hc (by decide)
  refine textLines_lines fun line hmem => ?_
  rcases List.mem_append.mp hmem with hmem | hmem
  · obtain ⟨c, -, rfl⟩ := List.mem_map.mp hmem
    exact ⟨fun h => (hline (mem_oidLine h)).1 rfl, fun h => (hline (mem_oidLine h)).2 rfl⟩
  · obtain ⟨b, -, rfl⟩ := List.mem_map.mp hmem
    refine ⟨fun h => ?_, fun h => ?_⟩
    · exact (hline (mem_oidLine ((List.mem_cons.mp h).resolve_left (by decide)))).1 rfl
    · exact (hline (mem_oidLine ((List.mem_cons.mp h).resolve_left (by decide)))).2 rfl

/-- **The shallow commits of a listing** are those with a parent in its boundary. -/
theorem shallowCommits_listing : shallowCommits (listing parents after printed boundary) =
    printed.filter fun c => ∃ q ∈ parents c, q ∈ boundary := by
  have hminus : (boundary.map fun b => '-' :: oidLine b (after b)).filterMap boundaryOid = boundary := by
    have hsome : (boundaryOid ∘ fun b => '-' :: oidLine b (after b)) = some := by
      funext b
      rw [Function.comp_apply, boundaryOid_minus]
    rw [List.filterMap_map, hsome, List.filterMap_some]
  have hprinted : (printed.map fun c => oidLine c (parents c)).filterMap (shallowOid boundary) =
      printed.filter fun c => ∃ q ∈ parents c, q ∈ boundary := by
    have hguard : (shallowOid boundary ∘ fun c => oidLine c (parents c)) =
        Option.guard fun c => decide (∃ q ∈ parents c, q ∈ boundary) := by
      funext c
      rw [Function.comp_apply, shallowOid_oidLine, Option.guard]
      simp only [decide_eq_true_eq]
    rw [List.filterMap_map, hguard, List.filterMap_eq_filter]
  -- each kind of line is passed over by one of the two loops
  have hnone : (printed.map fun c => oidLine c (parents c)).filterMap boundaryOid = [] :=
    List.filterMap_eq_nil_iff.mpr (List.forall_mem_map.mpr fun c _ => boundaryOid_oidLine c (parents c))
  have hnone' : (boundary.map fun b => '-' :: oidLine b (after b)).filterMap (shallowOid boundary) = [] :=
    List.filterMap_eq_nil_iff.mpr (List.forall_mem_map.mpr fun b _ => shallowOid_minus boundary (oidLine b (after b)))
  rw [shallowCommits]
  simp only [textLines_listing, List.filterMap_append, hnone, hminus, hprinted, hnone',
    List.nil_append, List.append_nil]

end

/-! ### The two cuts -/

variable {p : Parser} {odb : Odb} {o : Objects} {wants : List ObjectId} {depth : UInt32} {R : Type}
  {git : List String → Option GitOutput} {spawn : List String → Option (Bytes → Option R)} {opts : PackOptions}

theorem buildPackShallow_ok {haves : List ObjectId} {stdout : String} {stderr : Bytes}
    (hgit : git (revListArgs wants haves depth) =
      some { success := true, stdout := utf8 stdout, stderr }) (hspawn : Starts spawn) :
    ∃ reader, buildPackShallow git spawn wants haves depth opts =
      .ok { reader, shallow := shallowCommits stdout } := by
  obtain ⟨write, hwrite, htakes⟩ := hspawn (packArgs opts)
  obtain ⟨reader, hreader⟩ := htakes (utf8 (packInput wants haves (shallowCommits stdout)))
  refine ⟨reader, ?_⟩
  rw [buildPackShallow, hgit]
  simp only [if_true, fromUtf8Lossy_utf8, hwrite, hreader]

/-- The two backends have the same shallow commits for a clone. -/
def CutsAgree (p : Parser) (odb : Odb) (git : List String → Option GitOutput)
    (spawn : List String → Option (Bytes → Option R)) (wants : List ObjectId) (depth : UInt32)
    (opts : PackOptions) : Prop :=
  Outcome.Ends (fun fuel => depthLimitedCommits p odb fuel wants [] depth.toNat) fun r =>
    ∃ out, buildPackShallow git spawn wants [] depth opts = .ok out ∧ ∀ c, c ∈ out.shallow ↔ c ∈ r.2

theorem cutsAgree_iff (h : odb.Stores p o) (hclosed : o.Closed) (hwants : ∀ w ∈ wants, o.IsCommit w)
    (hdepth : 1 ≤ depth.toNat) (hspawn : Starts spawn) {printed boundary : List ObjectId}
    {after : ObjectId → List ObjectId} {stderr : Bytes}
    (hboundary : ∀ q, q ∈ boundary ↔ q ∉ printed ∧ ∃ c ∈ printed, q ∈ o.parents c)
    (hgit : git (revListArgs wants [] depth) =
      some { success := true, stdout := utf8 (listing o.parents after printed boundary), stderr }) :
    CutsAgree p odb git spawn wants depth opts ↔
      ∀ c, CutAt o.parents printed.toFinset c ↔
        LastLevel o.parents (· ∈ ([] : List ObjectId)) wants depth.toNat c := by
  obtain ⟨reader, hbuild⟩ := @buildPackShallow_ok wants depth R git spawn opts [] _ _ hgit hspawn
  have hcut : ∀ c, c ∈ shallowCommits (listing o.parents after printed boundary) ↔
      CutAt o.parents printed.toFinset c := by
    intro c
    rw [shallowCommits_listing, List.mem_filter, decide_eq_true_eq, CutAt, List.mem_toFinset]
    refine and_congr_right fun hc => exists_congr fun q => and_congr_right fun hq => ?_
    rw [hboundary, List.mem_toFinset]
    exact and_iff_left ⟨c, hc, hq⟩
  refine (depth_ends h hclosed hwants hdepth).ends_iff ?_
  rintro _ ⟨done, seen, rfl, hend⟩
  have hlevel : ∀ c, c ∈ marked o [] depth.toNat done ↔
      LastLevel o.parents (· ∈ ([] : List ObjectId)) wants depth.toNat c :=
        fun c => SearchEnd.mem_marked_iff hend hdepth
  simp only [hbuild, Except.ok.injEq, exists_eq_left', hcut, hlevel]

theorem exists_graph (hclosed : o.Closed) (hacyclic : Acyclic o.parents)
    (hwants : ∀ w ∈ wants, o.IsCommit w) :
    ∃ commits, Graph o.parents wants commits ∧ commits.card =
      {c | Reach o.parents wants c}.ncard := by
  classical
  have hmem : ∀ c, c ∈ o.oids.filter (Reach o.parents wants) ↔ Reach o.parents wants c := by
    intro c
    rw [Finset.mem_filter]
    refine and_iff_right_of_imp fun hreach => ?_
    obtain ⟨t, ps, hfind⟩ := hclosed.isCommit_of_reach hwants hreach
    exact o.mem_oids c _ hfind
  refine ⟨_, ⟨hacyclic, hmem⟩, ?_⟩
  rw [← Set.ncard_coe_finset]
  exact congrArg Set.ncard (Set.ext hmem)

/-- The parents that were not printed. -/
def unprinted (parents : ObjectId → List ObjectId) (printed : List ObjectId) : List ObjectId :=
  (printed.flatMap parents).filter (· ∉ printed)

theorem mem_unprinted {parents : ObjectId → List ObjectId} {printed : List ObjectId}
    (q : ObjectId) :
    q ∈ unprinted parents printed ↔ q ∉ printed ∧ ∃ c ∈ printed, q ∈ parents c := by
  rw [unprinted, List.mem_filter, List.mem_flatMap, decide_eq_true_eq, and_comm]

/-- A git that prints commits and the boundary. -/
def listingGit (parents : ObjectId → List ObjectId) (printed : List ObjectId) :
    List String → Option GitOutput := fun _ =>
  some { success := true, stdout := utf8 (listing parents
    (fun _ => []) printed (unprinted parents printed)), stderr := [] }

theorem exists_order {commits F : Finset ObjectId} (hgraph : Graph o.parents wants commits)
    (hF : ChildClosed o.parents commits F) (hcard : F.card = min depth.toNat commits.card) :
    ∃ order, ChildFirst o.parents wants order ∧ (order.take depth.toNat).toFinset = F := by
  obtain ⟨order, horder, htake⟩ := hgraph.exists_childFirst hF
  have hlength : order.length = commits.card := by
    rw [← List.toFinset_card_of_nodup horder.nodup]
    exact congrArg Finset.card (Finset.ext fun c => by rw [List.mem_toFinset, horder.mem, hgraph.mem])
  rw [hcard, ← hlength, ← List.take_eq_take_min] at htake
  exact ⟨order, horder, htake⟩

/-- **The two backends cut at the same commits, whatever order git lists them in, exactly if** no
more commits are reached than the depth allows, or no want has a parent, or the newest commits are a
line. -/
theorem shallow_agree_iff (h : odb.Stores p o) (hclosed : o.Closed) (hacyclic : Acyclic o.parents)
    (hwants : ∀ w ∈ wants, o.IsCommit w) (hdepth : 1 ≤ depth) (hspawn : Starts spawn)
    (opts : PackOptions) :
    (∀ git, ListsHistory git o.parents wants depth → CutsAgree p odb git spawn wants depth opts) ↔
      {c | Reach o.parents wants c}.ncard ≤ depth.toNat ∨ (∀ w ∈ wants, o.parents w = []) ∨
        ∃ node, Line o.parents (· ∈ ([] : List ObjectId)) wants depth.toNat node := by
  have hdepth : 1 ≤ depth.toNat := UInt32.le_iff_toNat_le.mp hdepth
  obtain ⟨commits, hgraph, hncard⟩ := exists_graph hclosed hacyclic hwants
  rw [← hncard, ← hgraph.cut_eq_level_iff (fun _ => List.not_mem_nil) hdepth]
  constructor
  · intro hall F hF hcard
    obtain ⟨order, horder, rfl⟩ := exists_order hgraph hF hcard
    exact (cutsAgree_iff h hclosed hwants hdepth hspawn mem_unprinted rfl).mp
      (hall (listingGit o.parents (order.take depth.toNat)) ⟨order, _, fun _ => [], [], horder, mem_unprinted, rfl⟩)
  · rintro hall git ⟨order, boundary, after, stderr, horder, hboundary, hgit⟩
    obtain ⟨hF, hcard⟩ := hgraph.childClosed_take horder depth.toNat
    exact (cutsAgree_iff h hclosed hwants hdepth hspawn hboundary hgit).mpr (hall _ hF hcard)

/-- A `pack-objects` that gives back its input. -/
def echoPack : List String → Option (Bytes → Option Bytes) := fun _ => some some

theorem starts_echoPack : Starts echoPack := fun _ => ⟨some, rfl, fun input => ⟨input, rfl⟩⟩

/-- Three commits, each the parent of the next. -/
def chainStore : Objects := .ofList
  [(.fill 3, .commit (.fill 4) [.fill 2]), (.fill 2, .commit (.fill 4) [.fill 1]), (.fill 1, .commit (.fill 4) []),
    (.fill 4, .tree [])]

theorem shallow_agree_chainStore :
    CutsAgree chainStore.parser chainStore.odb (listingGit chainStore.parents [.fill 3, .fill 2])
      echoPack [.fill 3] 2 {} := by
  have hclosed : chainStore.Closed := Objects.closed_of_closedAt (by decide +kernel)
  have hacyclic : Acyclic chainStore.parents :=
    Objects.acyclic_of_rank (fun c => (c.bytes.headD 0).toNat) (by decide +kernel)
  have hthree : chainStore.parents (.fill 3) = [.fill 2] := by decide +kernel
  have htwo : chainStore.parents (.fill 2) = [.fill 1] := by decide +kernel
  have horder : ChildFirst chainStore.parents [.fill 3] [.fill 3, .fill 2, .fill 1] := by
    have hreach : Reach chainStore.parents [.fill 3] (.fill 2) :=
      reach_step (reach_self List.mem_cons_self) (by simp [hthree])
    refine childFirst_of_closed (by decide) (by decide +kernel) (by decide) (by decide +kernel) ?_
    simp only [List.forall_mem_cons, List.not_mem_nil, false_imp_iff, implies_true, and_true]
    exact ⟨reach_self List.mem_cons_self, hreach, reach_step hreach (by simp [htwo])⟩
  have hline : Line chainStore.parents (· ∈ ([] : List ObjectId)) [.fill 3] 2 fun i =>
      if i = 0 then .fill 3 else .fill 2 := by
    refine ⟨List.mem_cons_self, fun i hi => ?_, ?_, fun t ht => Or.inl (List.mem_singleton.mp ht), fun c hc => ?_⟩
    · obtain rfl : i = 0 := Nat.lt_one_iff.mp hi
      simp [hthree]
    · change chainStore.parents (.fill 2) ≠ []
      simp [htwo]
    · obtain ⟨b, hb, hc⟩ := (openPath_iff.mp hc.2.1).1
      obtain rfl : b = .fill 3 := List.mem_singleton.mp (openPath_iff.mp hb).1
      rw [hthree] at hc
      exact List.mem_singleton.mp hc
  exact (shallow_agree_iff (Objects.stores_odb hclosed) hclosed hacyclic (by decide +kernel)
    (by decide) starts_echoPack {}).mpr
    (Or.inr (Or.inr ⟨_, hline⟩)) _ ⟨_, _, fun _ => [], [], horder, mem_unprinted, rfl⟩

/-- A merge of two commits without parents. -/
def mergeStore : Objects := .ofList
  [(.fill 3, .commit (.fill 4) [.fill 1, .fill 2]), (.fill 2, .commit (.fill 4) []), (.fill 1, .commit (.fill 4) []),
    (.fill 4, .tree [])]

/-- **A merge at depth two.** All three commits are within the depth and nothing is cut. Git lists
two of them, and the merge is announced as shallow. -/
theorem shallow_differs_mergeStore :
    ListsHistory (listingGit mergeStore.parents [.fill 3, .fill 1]) mergeStore.parents [.fill 3] 2 ∧
      (buildPackShallow (listingGit mergeStore.parents [.fill 3, .fill 1]) echoPack [.fill 3] [] 2
        {}).map PackOutput.shallow =
        .ok [.fill 3] ∧
      depthLimitedCommits mergeStore.parser mergeStore.odb 9 [.fill 3] [] 2 =
        Outcome.done ([.fill 3, .fill 1, .fill 2], []) ∧
      ¬ CutsAgree mergeStore.parser mergeStore.odb
        (listingGit mergeStore.parents [.fill 3, .fill 1]) echoPack [.fill 3] 2 {} := by
  have hclosed : mergeStore.Closed := Objects.closed_of_closedAt (by decide +kernel)
  have hthree : mergeStore.parents (.fill 3) = [.fill 1, .fill 2] := by decide +kernel
  have horder : ChildFirst mergeStore.parents [.fill 3] [.fill 3, .fill 1, .fill 2] := by
    have hself : Reach mergeStore.parents [.fill 3] (.fill 3) := reach_self List.mem_cons_self
    refine childFirst_of_closed (by decide) (by decide +kernel) (by decide) (by decide +kernel) ?_
    simp only [List.forall_mem_cons, List.not_mem_nil, false_imp_iff, implies_true, and_true]
    exact ⟨hself, reach_step hself (by simp [hthree]), reach_step hself (by simp [hthree])⟩
  refine ⟨⟨_, _, fun _ => [], [], horder, mem_unprinted, rfl⟩, ?_, by decide +kernel, fun hagree => ?_⟩
  · obtain ⟨reader, hbuild⟩ :=
      @buildPackShallow_ok [.fill 3] 2 Bytes (listingGit mergeStore.parents [.fill 3, .fill 1])
      echoPack {} [] _ _ rfl starts_echoPack
    have hcut : ([.fill 3, .fill 1] : List ObjectId).filter (fun c => ∃ q ∈ mergeStore.parents c,
        q ∈ unprinted mergeStore.parents [.fill 3, .fill 1]) = [.fill 3] := by decide +kernel
    rw [hbuild, shallowCommits_listing, hcut]
    rfl
  · have hcuts := (cutsAgree_iff (Objects.stores_odb hclosed) hclosed (by decide +kernel) (by decide) starts_echoPack
      mem_unprinted rfl).mp hagree (.fill 3)
    have hlevel := hcuts.mp ⟨by decide, .fill 2, by simp [hthree], by decide⟩
    exact hlevel.2.2 0 (by decide) (.tip List.mem_cons_self List.not_mem_nil)

end Mizzle.GitCli
