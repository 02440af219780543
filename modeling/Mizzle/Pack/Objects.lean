import Mizzle.Backend.Types
import Mizzle.Lib.NodeWalk

/-!
# The objects of a repository

The four kinds of git objects with what they name, and a repository as a finite store of them. A
commit names its tree and its parents, a tree names its entries, a tag names its target. A gitlink
(an entry for a submodule) names a commit of another repository; it is not followed.

`Reach o.refs` is reachability in the store. From commits it goes first along parents and then down
the trees (`reach_commits_iff`), and the walk down a tree is the one of `Mizzle.Lib.Visit` over the
items of the trees.
-/

namespace Mizzle.Pack

open Lib

/-- The mode of a tree entry: a directory, a file (executable, symbolic link or plain), a
submodule. -/
inductive EntryMode where
  | tree
  | blob
  | gitlink
deriving DecidableEq

structure TreeEntry where
  mode : EntryMode
  oid : ObjectId
deriving DecidableEq

/-- An entry as a walk over trees takes it: only directories are gone into. -/
def TreeEntry.item (e : TreeEntry) : Item ObjectId :=
  if e.mode = .tree then .node e.oid else .leaf e.oid

inductive GitObject where
  | commit (tree : ObjectId) (parents : List ObjectId)
  | tree (entries : List TreeEntry)
  | blob (content : Bytes)
  | tag (target : ObjectId)
deriving DecidableEq

namespace GitObject

def kind : GitObject → ObjectType
  | .commit .. => .commit
  | .tree _ => .tree
  | .blob _ => .blob
  | .tag _ => .tag

def parents : GitObject → List ObjectId
  | .commit _ ps => ps
  | _ => []

def entries : GitObject → List TreeEntry
  | .tree es => es
  | _ => []

/-- The objects that an object needs. -/
def refs : GitObject → List ObjectId
  | .commit root ps => root :: ps
  | .tree es => (es.filter fun e => e.mode ≠ .gitlink).map TreeEntry.oid
  | .blob _ => []
  | .tag target => [target]

end GitObject

/-- The parsers of `gix_object`, on the data of an object. -/
structure Parser where
  /-- `CommitRef::from_bytes`, then `ObjectId::from_hex` of its tree. -/
  commitTree : Bytes → Option ObjectId
  /-- `CommitRefIter::tree_id`. -/
  treeId : Bytes → Except String ObjectId
  /-- `CommitRefIter::parent_ids`. -/
  parentIds : Bytes → List ObjectId
  /-- `TreeRef::from_bytes`, and `TreeRefIter` to its end. -/
  treeEntries : Bytes → Except String (List TreeEntry)

/-- The kind and the data are those of the object. The data of a tree starts with a mode and that of
a tag with `object`, so neither reads as a commit; a blob may hold anything, the text of a commit
too. -/
def Parser.Reads (p : Parser) : GitObject → ObjectType → Bytes → Prop
  | .commit root ps, kind, data =>
    kind = .commit ∧ p.commitTree data = some root ∧ p.treeId data = .ok root ∧ p.parentIds data = ps
  | .tree es, kind, data => kind = .tree ∧ p.commitTree data = none ∧ p.treeEntries data = .ok es
  | .blob content, kind, data => kind = .blob ∧ data = content
  | .tag _, kind, data => kind = .tag ∧ p.commitTree data = none

/-- The tree that `CommitRef::from_bytes` finds in the data of the object. -/
def Parser.root (p : Parser) : GitObject → Option ObjectId
  | .commit root _ => some root
  | .blob content => p.commitTree content
  | _ => none

variable {t x : ObjectId} {c : ObjectId} {obj : GitObject} {tips : List ObjectId}

theorem Parser.Reads.kind_eq {p : Parser} {kind : ObjectType} {data : Bytes}
    (h : p.Reads obj kind data) : kind = obj.kind := by
  cases obj <;> exact h.1

theorem Parser.Reads.commitTree_eq {p : Parser} {kind : ObjectType} {data : Bytes}
    (h : p.Reads obj kind data) : p.commitTree data = p.root obj := by
  cases obj with
  | blob content => exact congrArg p.commitTree h.2
  | tag => exact h.2
  | _ => exact h.2.1

/-- A finite store of objects. -/
structure Objects where
  find : ObjectId → Option GitObject
  oids : Finset ObjectId
  mem_oids : ∀ oid obj, find oid = some obj → oid ∈ oids

namespace Objects

variable (o : Objects)

def parents (oid : ObjectId) : List ObjectId := ((o.find oid).map GitObject.parents).getD []

def refs (oid : ObjectId) : List ObjectId := ((o.find oid).map GitObject.refs).getD []

/-- The entries of a tree, as a walk takes them. -/
def items (oid : ObjectId) : List (Item ObjectId) :=
  (((o.find oid).map GitObject.entries).getD []).map TreeEntry.item

def IsCommit (oid : ObjectId) : Prop := ∃ t ps, o.find oid = some (.commit t ps)

def IsTree (oid : ObjectId) : Prop := ∃ es, o.find oid = some (.tree es)

instance (oid : ObjectId) : Decidable (o.IsTree oid) :=
  match h : o.find oid with
  | some (.tree es) => .isTrue ⟨es, h⟩
  | some (.commit ..) | some (.blob _) | some (.tag _) | none => .isFalse fun ⟨es, hes⟩ => by simp [h] at hes

def Root (c t : ObjectId) : Prop := ∃ ps, o.find c = some (.commit t ps)

/-- The store is closed under references, and what an object names is of the kind it says. A gitlink
names a commit, which need not be in the store. -/
structure Closed : Prop where
  root : ∀ {c t ps}, o.find c = some (.commit t ps) → o.IsTree t
  parent : ∀ {c t ps}, o.find c = some (.commit t ps) → ∀ p ∈ ps, o.IsCommit p
  subtree : ∀ {t es}, o.find t = some (.tree es) → ∀ e ∈ es, e.mode = .tree → o.IsTree e.oid
  file : ∀ {t es}, o.find t = some (.tree es) → ∀ e ∈ es, e.mode = .blob → ∃ content,
    o.find e.oid = some (.blob content)
  gitlink : ∀ {t es}, o.find t = some (.tree es) → ∀ e ∈ es, e.mode = .gitlink → o.find e.oid = none ∨ o.IsCommit e.oid
  target : ∀ {g x}, o.find g = some (.tag x) → o.find x ≠ none

def NoGitlinks : Prop := ∀ t es, o.find t = some (.tree es) → ∀ e ∈ es, e.mode ≠ .gitlink

/-- The oid is a gitlink of the tree. -/
def GitlinkIn (t x : ObjectId) : Prop := ∃ es, o.find t = some (.tree es) ∧ ⟨.gitlink, x⟩ ∈ es

variable {o}

theorem refs_of_find {oid : ObjectId} (h : o.find oid = some obj) : o.refs oid = obj.refs := by
  rw [refs, h]
  rfl

theorem parents_of_find {oid : ObjectId} (h : o.find oid = some obj) :
    o.parents oid = obj.parents := by
  rw [parents, h]
  rfl

theorem find_of_mem_parents {c p : ObjectId} (h : p ∈ o.parents c) :
    ∃ t ps, o.find c = some (.commit t ps) ∧ p ∈ ps := by
  rw [parents] at h
  cases hc : o.find c with
  | none => simp [hc] at h
  | some obj =>
    cases obj with
    | commit t ps => exact ⟨t, ps, rfl, by simpa [hc, GitObject.parents] using h⟩
    | _ => simp [hc, GitObject.parents] at h

theorem mem_refs_of_mem_parents {c p : ObjectId} (h : p ∈ o.parents c) : p ∈ o.refs c := by
  obtain ⟨t, ps, hc, hp⟩ := find_of_mem_parents h
  rw [refs_of_find hc]
  exact List.mem_cons_of_mem _ hp

theorem mem_items {t : ObjectId} {i : Item ObjectId} :
    i ∈ o.items t ↔ ∃ es, o.find t = some (.tree es) ∧ ∃ e ∈ es, e.item = i := by
  rw [items]
  cases ht : o.find t with
  | none => simp
  | some obj =>
    cases obj with
    | tree es => simp [GitObject.entries]
    | _ => simp [GitObject.entries]

theorem items_eq_nil {t : ObjectId} (ht : ¬ o.IsTree t) : o.items t = [] := by
  refine List.eq_nil_iff_forall_not_mem.mpr fun i hi => ht ?_
  obtain ⟨es, hes, -⟩ := mem_items.mp hi
  exact ⟨es, hes⟩

theorem node_mem_items :
    .node x ∈ o.items t ↔ ∃ es, o.find t = some (.tree es) ∧ ⟨.tree, x⟩ ∈ es := by
  rw [mem_items]
  refine exists_congr fun es => and_congr_right fun _ => ⟨?_, fun h => ⟨_, h, if_pos rfl⟩⟩
  rintro ⟨⟨mode, oid⟩, he, hitem⟩
  rw [TreeEntry.item] at hitem
  split at hitem
  · rename_i hmode
    obtain rfl := Item.node.inj hitem
    obtain rfl : mode = .tree := hmode
    exact he
  · simp at hitem

theorem leaf_mem_items :
    .leaf x ∈ o.items t ↔ ∃ es, o.find t = some (.tree es) ∧ ∃ mode, mode ≠ .tree ∧
      ⟨mode, x⟩ ∈ es := by
  rw [mem_items]
  refine exists_congr fun es => and_congr_right fun _ => ⟨?_, ?_⟩
  · rintro ⟨⟨mode, oid⟩, he, hitem⟩
    rw [TreeEntry.item] at hitem
    split at hitem
    · simp at hitem
    · rename_i hmode
      obtain rfl := Item.leaf.inj hitem
      exact ⟨mode, hmode, he⟩
  · rintro ⟨mode, hmode, he⟩
    exact ⟨_, he, if_neg hmode⟩

theorem leaf_iff :
    .leaf x ∈ o.items t ↔ (∃ es, o.find t = some (.tree es) ∧ ⟨.blob, x⟩ ∈ es) ∨
      o.GitlinkIn t x := by
  rw [leaf_mem_items, GitlinkIn, ← exists_or]
  refine exists_congr fun es => ?_
  rw [← and_or_left]
  refine and_congr_right fun _ => ⟨?_, ?_⟩
  · rintro ⟨mode, hmode, he⟩
    cases mode with
    | tree => exact absurd rfl hmode
    | blob => exact Or.inl he
    | gitlink => exact Or.inr he
  · rintro (he | he)
    · exact ⟨.blob, by decide, he⟩
    · exact ⟨.gitlink, by decide, he⟩

theorem mem_refs_tree {es : List TreeEntry} (ht : o.find t = some (.tree es)) :
    x ∈ o.refs t ↔ .node x ∈ o.items t ∨ ⟨.blob, x⟩ ∈ es := by
  rw [refs_of_find ht, GitObject.refs, List.mem_map, node_mem_items]
  constructor
  · rintro ⟨⟨mode, oid⟩, he, rfl⟩
    obtain ⟨he, hmode⟩ := List.mem_filter.mp he
    cases mode with
    | tree => exact Or.inl ⟨es, ht, he⟩
    | blob => exact Or.inr he
    | gitlink => simp at hmode
  · rintro (⟨es', ht', he⟩ | he)
    · obtain rfl : es = es' := by simpa using ht.symm.trans ht'
      exact ⟨_, List.mem_filter.mpr ⟨he, by simp⟩, rfl⟩
    · exact ⟨_, List.mem_filter.mpr ⟨he, by simp⟩, rfl⟩

namespace Closed

theorem not_isTree_gitlink (h : o.Closed) (hlink : o.GitlinkIn t x) : ¬ o.IsTree x := by
  rintro ⟨es', hx⟩
  obtain ⟨es, ht, he⟩ := hlink
  rcases h.gitlink ht _ he rfl with hnone | ⟨root, ps, hcommit⟩
  · simp [hx] at hnone
  · simp [hx] at hcommit

theorem separates (h : o.Closed) (x : ObjectId) : Separates o.IsTree (o.items x) := by
  intro y
  constructor
  · intro hy
    obtain ⟨es, hx, he⟩ := node_mem_items.mp hy
    exact h.subtree hx _ he rfl
  · intro hy
    rcases leaf_iff.mp hy with ⟨es, hx, he⟩ | ⟨es, hx, he⟩
    · rintro ⟨es', hy'⟩
      obtain ⟨content, hcontent⟩ := h.file hx _ he rfl
      simp [hcontent] at hy'
    · exact h.not_isTree_gitlink ⟨es, hx, he⟩

theorem isCommit_parent (h : o.Closed) {c p : ObjectId} (hp : p ∈ o.parents c) : o.IsCommit p := by
  obtain ⟨t, ps, hc, hp⟩ := find_of_mem_parents hp
  exact h.parent hc p hp

theorem parents_mem_oids (h : o.Closed) (c p : ObjectId) (hp : p ∈ o.parents c) :
    c ∈ o.oids ∧ p ∈ o.oids := by
  obtain ⟨t, ps, hc, -⟩ := find_of_mem_parents hp
  obtain ⟨t', ps', hfind⟩ := h.isCommit_parent hp
  exact ⟨o.mem_oids c _ hc, o.mem_oids p _ hfind⟩

theorem isCommit_of_reach (h : o.Closed) (htips : ∀ tip ∈ tips, o.IsCommit tip)
    (hreach : Reach o.parents tips c) : o.IsCommit c := by
  obtain ⟨t, ht, hpath⟩ := hreach
  cases hpath with
  | refl => exact htips _ ht
  | tail _ hedge => exact h.isCommit_parent hedge

end Closed

theorem IsCommit.find_ne_none (hc : o.IsCommit c) : o.find c ≠ none := by
  obtain ⟨t, ps, hfind⟩ := hc
  simp [hfind]

theorem IsCommit.not_isTree (hc : o.IsCommit c) : ¬ o.IsTree c := by
  rintro ⟨es, hes⟩
  obtain ⟨t, ps, hfind⟩ := hc
  simp [hfind] at hes

/-! ### Reachability from commits -/

/-- The object is in the tree: a subtree of it, or a file of one. -/
def InTree (o : Objects) (t x : ObjectId) : Prop :=
  ∃ d, Relation.ReflTransGen (fun a b => .node b ∈ o.items a) t d ∧
    (x = d ∨ ∃ es, o.find d = some (.tree es) ∧ ⟨.blob, x⟩ ∈ es)

theorem Closed.isTree_of_path (h : o.Closed) {t d : ObjectId} (ht : o.IsTree t)
    (hpath : Relation.ReflTransGen (fun a b => .node b ∈ o.items a) t d) : o.IsTree d := by
  cases hpath with
  | refl => exact ht
  | tail _ hedge => exact (h.separates _ d).1 hedge

theorem Closed.reach_tree_iff (h : o.Closed) (ht : o.IsTree t) :
    Relation.ReflTransGen (Edge o.refs) t x ↔ o.InTree t x := by
  constructor
  · intro hpath
    induction hpath with
    | refl => exact ⟨t, .refl, Or.inl rfl⟩
    | @tail y z _ hedge ih =>
      obtain ⟨d, hd, rfl | ⟨es, hfind, hy⟩⟩ := ih
      · obtain ⟨es, hes⟩ := h.isTree_of_path ht hd
        rcases (mem_refs_tree hes).mp hedge with hz | hz
        · exact ⟨z, hd.tail hz, Or.inl rfl⟩
        · exact ⟨y, hd, Or.inr ⟨es, hes, hz⟩⟩
      · -- a file names nothing
        obtain ⟨content, hcontent⟩ := h.file hfind _ hy rfl
        rw [Edge, refs_of_find hcontent] at hedge
        exact absurd hedge List.not_mem_nil
  · rintro ⟨d, hd, hx⟩
    have hpath : Relation.ReflTransGen (Edge o.refs) t d := by
      refine Relation.ReflTransGen.mono (fun a b hab => ?_) _ _ hd
      obtain ⟨es, ha, he⟩ := node_mem_items.mp hab
      exact (mem_refs_tree ha).mpr (Or.inl hab)
    rcases hx with rfl | ⟨es, hfind, hx⟩
    · exact hpath
    · exact hpath.tail ((mem_refs_tree hfind).mpr (Or.inr hx))

/-- **What commits reach**: commits along parents, and what is in their trees. -/
theorem Closed.reach_commits_iff (h : o.Closed) (htips : ∀ t ∈ tips, o.IsCommit t) {x : ObjectId} :
    Reach o.refs tips x ↔
      Reach o.parents tips x ∨ ∃ c t, Reach o.parents tips c ∧ o.Root c t ∧ o.InTree t x := by
  constructor
  · rintro ⟨tip, htip, hpath⟩
    induction hpath with
    | refl => exact Or.inl (reach_self htip)
    | @tail y z _ hedge ih =>
      rcases ih with hcommit | ⟨c, t, hc, ⟨ps, hroot⟩, hin⟩
      · obtain ⟨t, ps, hy⟩ := h.isCommit_of_reach htips hcommit
        rw [Edge, refs_of_find hy] at hedge
        rcases List.mem_cons.mp hedge with rfl | hz
        · exact Or.inr ⟨y, z, hcommit, ⟨ps, hy⟩, z, .refl, Or.inl rfl⟩
        · obtain ⟨r, hr, hway⟩ := hcommit
          refine Or.inl ⟨r, hr, hway.tail ?_⟩
          rw [Edge, parents_of_find hy]
          exact hz
      · have ht := h.root hroot
        exact Or.inr ⟨c, t, hc, ⟨ps, hroot⟩, (h.reach_tree_iff ht).mp (((h.reach_tree_iff ht).mpr hin).tail hedge)⟩
  · rintro (⟨r, hr, hway⟩ | ⟨c, t, ⟨r, hr, hway⟩, ⟨ps, hroot⟩, hin⟩)
    · exact ⟨r, hr, Relation.ReflTransGen.mono (fun _ _ => mem_refs_of_mem_parents) _ _ hway⟩
    · have hcommits := Relation.ReflTransGen.mono (fun _ _ => mem_refs_of_mem_parents) _ _ hway
      have hedge : Edge o.refs c t := by
        rw [Edge, refs_of_find hroot]
        exact List.mem_cons_self
      exact ⟨r, hr, (hcommits.tail hedge).trans ((h.reach_tree_iff (h.root hroot)).mpr hin)⟩

theorem reach_refs_of_parents (h : Reach o.parents tips c) : Reach o.refs tips c :=
  reach_mono (fun _ _ => mem_refs_of_mem_parents) h

theorem Closed.reach_parents_of_isCommit (h : o.Closed) (htips : ∀ t ∈ tips, o.IsCommit t)
    (hc : o.IsCommit c) (hreach : Reach o.refs tips c) : Reach o.parents tips c := by
  rcases (h.reach_commits_iff htips).mp hreach with hcommit | ⟨c', t, -, ⟨ps, hroot⟩, d, hd, rfl | ⟨es, hfind, hx⟩⟩
  · exact hcommit
  · exact absurd (h.isTree_of_path (h.root hroot) hd) hc.not_isTree
  · obtain ⟨t', ps', hfind'⟩ := hc
    obtain ⟨content, hcontent⟩ := h.file hfind _ hx rfl
    simp [hcontent] at hfind'

end Objects

end Mizzle.Pack
