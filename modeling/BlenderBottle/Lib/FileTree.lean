/-
# File trees

A tree of regular files, directories and symbolic links, and the system calls
that read and change it, for a caller who may do everything. `DirTree` holds that
a node stands only in a directory.

`stat` follows a link at the end of a path, `lstat` does not; a path ends in
an entry's name for `lstat` and for the calls that remove or make an entry.
On an entry that is not a link the two agree (`DirTree.stat_of_lstat`); on a link
`stat` goes on to what its target leads to (`DirTree.stat_of_link`), and a link
newly made leads where its target led before (`DirTree.lead_newLink`). A file
renamed to a free name is found there (`DirTree.rename_file`).

Lookups read the kinds of the nodes only, so a change of attributes or data
leaves them alone (`DirTree.change_spec`).

Key definitions: `Node`, `DirTree`, `DirTree.stat`, `DirTree.lstat`, `DirTree.change`.
Key theorems: `DirTree.change_spec`, `DirTree.stat_of_lstat`, `DirTree.stat_of_link`,
`DirTree.rename_file`, `DirTree.lead_newLink`, `DirTree.erase_newLink`.
-/
import BlenderBottle.Lib.PathWalk

namespace FileTree

/-! ### Nodes -/

inductive Body (N : Type*)
  | file (data : List UInt8)
  | dir
  | link (target : PathName N)
  deriving DecidableEq

def Body.kind {N : Type*} : Body N → Kind N
  | file _ => .file
  | dir => .dir
  | link target => .link target

/-- A node: its mode of twelve bits, the set-id bits and the sticky bit among
them, its owner and group, and what it holds. -/
structure Node (N : Type*) where
  mode : BitVec 12
  owner : ℕ
  group : ℕ
  body : Body N
  deriving DecidableEq

/-- What `chown` leaves of the mode of a node that is not a directory: the
set-user bit goes, and the set-group bit goes if the group may execute. -/
def dropSetId (mode : BitVec 12) : BitVec 12 :=
  if mode.getLsbD 10 && mode.getLsbD 3 then mode &&& ~~~0o6000#12 else mode &&& ~~~0o4000#12

/-- The mode survives `chown` on a node that is not a directory. -/
def KeepsSetId (mode : BitVec 12) : Prop :=
  mode.getLsbD 11 = false ∧ ¬ (mode.getLsbD 10 = true ∧ mode.getLsbD 3 = true)

theorem dropSetId_eq_iff (mode : BitVec 12) : dropSetId mode = mode ↔ KeepsSetId mode := by
  constructor
  · intro h
    constructor
    · rw [← h, dropSetId]
      split_ifs <;> simp
    · rintro ⟨h10, h3⟩
      have hgid : (dropSetId mode).getLsbD 10 = false := by
        rw [dropSetId, h10, h3, Bool.and_self, if_pos rfl]
        simp
      rw [h, h10] at hgid
      cases hgid
  · rintro ⟨h11, hgid⟩
    rw [dropSetId, if_neg (by simpa using hgid)]
    ext i hi
    interval_cases i <;> simp
    exact h11

/-- Data cut off or filled up with zeros. -/
def resize (data : List UInt8) (size : ℕ) : List UInt8 :=
  data.take size ++ List.replicate (size - data.length) 0

theorem length_resize (data : List UInt8) (size : ℕ) : (resize data size).length = size := by
  rw [resize, List.length_append, List.length_take, List.length_replicate]
  omega

namespace Node

variable {N : Type*} [DecidableEq N] (x : Node N)

def kind : Kind N := x.body.kind

def chmod (mode : BitVec 12) : Node N := { x with mode }

def chown (owner group : ℕ) : Node N :=
  { x with owner, group, mode := if x.kind = .dir then x.mode else dropSetId x.mode }

/-- A file of another size. The mode stays, the caller being privileged. -/
def truncate (size : ℕ) : Node N :=
  match x.body with
  | .file data => { x with body := .file (resize data size) }
  | _ => x

/-- A link newly made by the superuser. -/
def newLink (target : PathName N) : Node N := ⟨0o777#12, 0, 0, .link target⟩

omit [DecidableEq N] in
@[simp] theorem kind_chmod (mode : BitVec 12) : (x.chmod mode).kind = x.kind := rfl

@[simp] theorem kind_chown (owner group : ℕ) : (x.chown owner group).kind = x.kind := rfl

omit [DecidableEq N] in
@[simp] theorem kind_truncate (size : ℕ) : (x.truncate size).kind = x.kind := by
  obtain ⟨_, _, _, body⟩ := x
  cases body <;> rfl

variable {x} in
omit [DecidableEq N] in
/-- A regular file after `truncate`. -/
theorem truncate_of_file (hx : x.kind = .file) (size : ℕ) :
    ∃ data, x.truncate size = ⟨x.mode, x.owner, x.group, .file data⟩ ∧ data.length = size := by
  obtain ⟨mode, owner, group, body⟩ := x
  cases body with
  | file data => exact ⟨resize data size, rfl, length_resize data size⟩
  | dir => cases hx
  | link target => cases hx

end Node

/-! ### Trees -/

/-- A tree: the nodes by their places. The root is a directory, and every
other node stands in one. -/
@[ext] structure DirTree (N : Type*) where
  node : List N → Option (Node N)
  root : (node []).map Node.kind = some .dir
  parent : ∀ d n, node (d ++ [n]) ≠ none → (node d).map Node.kind = some .dir

/-- A root directory with nothing in it. -/
def DirTree.empty (N : Type*) [DecidableEq N] : DirTree N where
  node q := if q = [] then some ⟨0o755#12, 0, 0, .dir⟩ else none
  root := rfl
  parent d n h := by simp at h

/-- An entry, or room for one: a name in a directory, with the number of links
left to follow where a path has led to it. -/
structure Spot (N : Type*) where
  dir : List N
  name : N
  left : ℕ
  deriving DecidableEq

def Spot.place {N : Type*} (e : Spot N) : List N := e.dir ++ [e.name]

/-- The number of links that one lookup follows. -/
def maxLinks : ℕ := 40

namespace DirTree

variable {N : Type*} [DecidableEq N] (T : DirTree N) (cwd : List N) (p : PathName N)

def shape : Shape N := fun l => (T.node l).map Node.kind

omit [DecidableEq N] in
theorem shape_eq_none_iff {l : List N} : T.shape l = none ↔ T.node l = none := Option.map_eq_none_iff

omit [DecidableEq N] in
theorem shape_of_node {l : List N} {x : Node N} (h : T.node l = some x) : T.shape l = some x.kind := by
  rw [shape, h]
  rfl

omit [DecidableEq N] in
theorem shape_parent (d : List N) (n : N) (h : T.shape (d ++ [n]) ≠ none) : T.shape d = some .dir :=
  T.parent d n (T.shape_eq_none_iff.not.mp h)

omit [DecidableEq N] in
/-- Nothing stands below what is not a directory. -/
theorem node_below {l : List N} (hl : T.shape l ≠ some .dir) {q : List N} (hlq : l <+: q) (hne : q ≠ l) :
    T.node q = none := by
  obtain ⟨r, rfl⟩ := hlq
  induction r using List.reverseRecOn with
  | nil => simp at hne
  | append_singleton r n ih =>
    by_contra hnode
    rw [← List.append_assoc] at hnode
    have hdir := T.parent _ _ hnode
    by_cases hr : l ++ r = l
    · rw [hr] at hdir
      exact hl hdir
    · rw [ih hr] at hdir
      cases hdir

/-! ### Lookups -/

/-- What the path leads to, a link at its end followed. -/
def stat : Option (List N × Node N) :=
  (walk T.shape maxLinks (p.start cwd) p.comps).bind fun r => (T.node r.1).map fun x => (r.1, x)

/-- Where the entry of a path stands or would stand. The path ends in a name,
and what comes before leads to a directory. -/
def locate : Option (Spot N) :=
  match p.comps.getLast? with
  | some (.name n) =>
    (walk T.shape maxLinks (p.start cwd) p.comps.dropLast).bind fun r =>
      if T.shape r.1 = some .dir then some ⟨r.1, n, r.2⟩ else none
  | _ => none

/-- The entry of a path, a link not followed. -/
def lstat : Option (Spot N × Node N) :=
  (T.locate cwd p).bind fun e => (T.node e.place).map fun x => (e, x)

/-- What a link at `e` with this target leads to. -/
def lead (e : Spot N) (target : PathName N) : Option (List N × Node N) :=
  match e.left with
  | 0 => none
  | left + 1 =>
    (walk T.shape left (target.start e.dir) target.comps).bind fun r => (T.node r.1).map fun x => (r.1, x)

/-! ### Changes -/

/-- The node at a place changed, but not its kind. -/
def modify (l : List N) (f : Node N → Node N) (hf : ∀ x, (f x).kind = x.kind) : DirTree N where
  node q := if q = l then (T.node q).map f else T.node q
  root := by
    split_ifs
    · simpa [hf, Function.comp_def] using T.root
    · exact T.root
  parent d n h := by
    have hd := T.parent d n (by split_ifs at h <;> simp_all)
    split_ifs
    · simpa [hf, Function.comp_def] using hd
    · exact hd

/-- The entry `n` of the directory `d` removed, with all below it. -/
def erase (d : List N) (n : N) : DirTree N where
  node q := if d ++ [n] <+: q then none else T.node q
  root := by
    rw [if_neg (by simp)]
    exact T.root
  parent d' n' h := by
    split_ifs at h with hpre
    · exact absurd rfl h
    · rw [if_neg fun hd => hpre (hd.trans (List.prefix_append _ _))]
      exact T.parent d' n' h

/-- A new entry. -/
def insert (d : List N) (n : N) (x : Node N) (hd : T.shape d = some .dir) (hn : T.node (d ++ [n]) = none) :
    DirTree N where
  node := Function.update T.node (d ++ [n]) (some x)
  root := by
    rw [Function.update_of_ne (by simp)]
    exact T.root
  parent d' n' h := by
    have hdir : T.shape d' = some .dir := by
      by_cases he : d' ++ [n'] = d ++ [n]
      · obtain ⟨rfl, -⟩ := List.append_inj' he rfl
        exact hd
      · rw [Function.update_of_ne he] at h
        exact T.parent d' n' h
    rw [Function.update_of_ne]
    · exact hdir
    · rintro rfl
      rw [shape, hn] at hdir
      cases hdir

/-- The entry `n` of `d` moved, with all below it, to the name `n'` in a directory
`d'` that is not below it. -/
def relocate (d : List N) (n : N) (d' : List N) (n' : N) (hd : T.shape d' = some .dir)
    (hout : ¬ d ++ [n] <+: d') : DirTree N where
  node q :=
    if d' ++ [n'] <+: q then T.node (d ++ [n] ++ q.drop (d'.length + 1))
    else if d ++ [n] <+: q then none
    else T.node q
  root := by
    rw [if_neg (by simp), if_neg (by simp)]
    exact T.root
  parent e m h := by
    by_cases hnew : d' ++ [n'] <+: e ++ [m]
    · rw [if_pos hnew] at h
      rcases List.prefix_concat_iff.mp hnew with heq | hpre
      · -- the moved entry itself: its new directory stays
        obtain ⟨rfl, -⟩ := List.append_inj' heq rfl
        rw [if_neg (fun hle => by simpa using hle.length_le), if_neg hout]
        exact hd
      · have hlen : d'.length + 1 ≤ e.length := by simpa using hpre.length_le
        rw [if_pos hpre]
        rw [List.drop_append_of_le_length hlen, ← List.append_assoc] at h
        exact T.parent _ m h
    · rw [if_neg hnew] at h
      have hup : ∀ {l : List N}, ¬ l <+: e ++ [m] → ¬ l <+: e := fun hl hle =>
        hl (hle.trans (List.prefix_append _ _))
      by_cases hold : d ++ [n] <+: e ++ [m]
      · rw [if_pos hold] at h
        exact absurd rfl h
      · rw [if_neg hold] at h
        rw [if_neg (hup hnew), if_neg (hup hold)]
        exact T.parent e m h

/-- The change of what a path leads to, if it is fit for it. -/
def change (fit : Node N → Bool) (f : Node N → Node N) (hf : ∀ x, (f x).kind = x.kind) : Option (DirTree N) :=
  (T.stat cwd p).bind fun r => if fit r.2 then some (T.modify r.1 f hf) else none

/-! ### System calls -/

def chmod (mode : BitVec 12) : Option (DirTree N) :=
  T.change cwd p (fun _ => true) (·.chmod mode) (fun x => x.kind_chmod mode)

def chown (owner group : ℕ) : Option (DirTree N) :=
  T.change cwd p (fun _ => true) (·.chown owner group) (fun x => x.kind_chown owner group)

def truncate (size : ℕ) : Option (DirTree N) :=
  T.change cwd p (fun x => x.kind = .file) (·.truncate size) (fun x => x.kind_truncate size)

/-- `unlink` refuses directories. -/
def unlink : Option (DirTree N) :=
  (T.lstat cwd p).bind fun r => if r.2.kind = .dir then none else some (T.erase r.1.dir r.1.name)

/-- `rmtree` refuses all but directories, links to directories among them. -/
def rmtree : Option (DirTree N) :=
  (T.lstat cwd p).bind fun r => if r.2.kind = .dir then some (T.erase r.1.dir r.1.name) else none

/-- `rename` onto a name that is free, or of one node onto another, neither of
them a directory. -/
def rename (q : PathName N) : Option (DirTree N) :=
  (T.lstat cwd p).bind fun r => (T.locate cwd q).bind fun e =>
    if h : (T.shape e.dir = some .dir ∧ ¬ r.1.dir ++ [r.1.name] <+: e.dir) ∧
        (T.node e.place = none ∨ r.2.kind ≠ .dir ∧ T.shape e.place ≠ some .dir) then
      some (T.relocate r.1.dir r.1.name e.dir e.name h.1.1 h.1.2)
    else none

/-- `symlink` needs a name that is free. -/
def symlink (target : PathName N) : Option (DirTree N) :=
  (T.locate cwd p).bind fun e =>
    if h : T.shape e.dir = some .dir ∧ T.node e.place = none then
      some (T.insert e.dir e.name (.newLink target) h.1 h.2)
    else none

/-! ### Lookups and changes of nodes -/

section Change

variable {T cwd p} {l : List N} {x : Node N} {fit : Node N → Bool} {f : Node N → Node N}
  (hf : ∀ x, (f x).kind = x.kind)

theorem shape_modify : (T.modify l f hf).shape = T.shape := by
  funext q
  simp only [shape, modify]
  split_ifs
  · rw [Option.map_map]
    exact congrArg (Option.map · (T.node q)) (funext hf)
  · rfl

theorem node_of_stat (h : T.stat cwd p = some (l, x)) : T.node l = some x := by
  obtain ⟨⟨l', left⟩, -, hx⟩ := Option.bind_eq_some_iff.mp h
  obtain ⟨y, hy, heq⟩ := Option.map_eq_some_iff.mp hx
  cases heq
  exact hy

theorem stat_modify (h : T.stat cwd p = some (l, x)) : (T.modify l f hf).stat cwd p = some (l, f x) := by
  have hnode := node_of_stat h
  obtain ⟨⟨l', left⟩, hw, hx⟩ := Option.bind_eq_some_iff.mp h
  obtain ⟨y, -, heq⟩ := Option.map_eq_some_iff.mp hx
  cases heq
  rw [stat, shape_modify, hw, Option.bind_some]
  simp [modify, hnode]

/-- **A change of attributes or data** is made where the path leads, and the
path leads there afterwards. -/
theorem change_spec (h : T.stat cwd p = some (l, x)) (hx : fit x = true) :
    ∃ T', T.change cwd p fit f hf = some T' ∧ T'.stat cwd p = some (l, f x) := by
  refine ⟨T.modify l f hf, ?_, stat_modify hf h⟩
  rw [change, h, Option.bind_some, if_pos hx]

theorem chmod_spec (h : T.stat cwd p = some (l, x)) (mode : BitVec 12) :
    ∃ T', T.chmod cwd p mode = some T' ∧ T'.stat cwd p = some (l, x.chmod mode) := change_spec _ h rfl

theorem chmod_eq_none (h : T.stat cwd p = none) (mode : BitVec 12) : T.chmod cwd p mode = none := by
  rw [chmod, change, h, Option.bind_none]

theorem chown_spec (h : T.stat cwd p = some (l, x)) (owner group : ℕ) :
    ∃ T', T.chown cwd p owner group = some T' ∧ T'.stat cwd p = some (l, x.chown owner group) :=
  change_spec _ h rfl

theorem truncate_spec (h : T.stat cwd p = some (l, x)) (hx : x.kind = .file) (size : ℕ) :
    ∃ T', T.truncate cwd p size = some T' ∧ T'.stat cwd p = some (l, x.truncate size) :=
  change_spec _ h (by simpa using hx)

theorem shape_change {T' : DirTree N} (h : T.change cwd p fit f hf = some T') : T'.shape = T.shape := by
  obtain ⟨r, -, hr⟩ := Option.bind_eq_some_iff.mp h
  split_ifs at hr
  cases hr
  exact shape_modify hf

end Change

/-! ### Entries -/

section Entry

variable {T cwd p} {e : Spot N} {x : Node N} {target : PathName N}

theorem locate_eq_some_iff : T.locate cwd p = some e ↔
    ∃ cs, p.comps = cs ++ [.name e.name] ∧
      walk T.shape maxLinks (p.start cwd) cs = some (e.dir, e.left) ∧ T.shape e.dir = some .dir := by
  rcases List.eq_nil_or_concat p.comps with h | ⟨cs, c, h⟩
  · simp [locate, h]
  · rw [List.concat_eq_append] at h
    have hlast : p.comps.getLast? = some c := by simp [h]
    have hinit : p.comps.dropLast = cs := by simp [h]
    obtain ⟨d, m, left⟩ := e
    cases c with
    | name n =>
      simp only [locate, hlast, hinit]
      rw [h]
      constructor
      · intro heq
        obtain ⟨⟨d', left'⟩, hw, hd⟩ := Option.bind_eq_some_iff.mp heq
        split_ifs at hd with hdir
        cases hd
        exact ⟨cs, rfl, hw, hdir⟩
      · rintro ⟨cs', hcs, hw, hdir⟩
        obtain ⟨rfl, hn⟩ := List.append_inj' hcs rfl
        cases hn
        rw [hw, Option.bind_some, if_pos hdir]
    | self | up =>
      simp only [locate, hlast]
      rw [h]
      refine iff_of_false (by simp) ?_
      rintro ⟨cs', hcs, -⟩
      obtain ⟨-, hn⟩ := List.append_inj' hcs rfl
      cases hn

theorem lstat_eq_some_iff :
    T.lstat cwd p = some (e, x) ↔ T.locate cwd p = some e ∧ T.node e.place = some x := by
  rw [lstat, Option.bind_eq_some_iff]
  constructor
  · rintro ⟨e', he, hx⟩
    obtain ⟨y, hy, heq⟩ := Option.map_eq_some_iff.mp hx
    cases heq
    exact ⟨he, hy⟩
  · rintro ⟨he, hx⟩
    exact ⟨e, he, by rw [hx]; rfl⟩

/-- From the directory of an entry, `stat` goes on to the entry. -/
theorem stat_of_locate (h : T.locate cwd p = some e) : T.stat cwd p =
    (walk T.shape e.left e.dir [.name e.name]).bind fun r => (T.node r.1).map fun x => (r.1, x) := by
  obtain ⟨cs, hcs, hw, -⟩ := locate_eq_some_iff.mp h
  rw [stat, hcs, walk_append, hw, Option.bind_some]

/-- **Where `stat` and `lstat` agree**: on an entry that is not a link. -/
theorem stat_of_lstat (h : T.lstat cwd p = some (e, x)) (hx : ∀ target, x.kind ≠ .link target) :
    T.stat cwd p = some (e.place, x) := by
  obtain ⟨hloc, hnode⟩ := lstat_eq_some_iff.mp h
  obtain ⟨-, -, -, hdir⟩ := locate_eq_some_iff.mp hloc
  have hkind : T.shape (e.dir ++ [e.name]) = some x.kind := T.shape_of_node hnode
  have hentry : T.shape (e.dir ++ [e.name]) = some .file ∨ T.shape (e.dir ++ [e.name]) = some .dir := by
    rw [hkind]
    cases hk : x.kind with
    | file => exact Or.inl rfl
    | dir => exact Or.inr rfl
    | link target => exact absurd hk (hx target)
  rw [stat_of_locate hloc, walk_entry _ _ hdir hentry, walk_nil, Option.bind_some]
  exact congrArg (Option.map fun x => (e.place, x)) hnode

/-- **A link at the end of a path** leads `stat` to what its target leads to. -/
theorem stat_of_link (h : T.lstat cwd p = some (e, x)) (hx : x.kind = .link target) :
    T.stat cwd p = T.lead e target := by
  obtain ⟨hloc, hnode⟩ := lstat_eq_some_iff.mp h
  obtain ⟨-, -, -, hdir⟩ := locate_eq_some_iff.mp hloc
  have hkind : T.shape (e.dir ++ [e.name]) = some (.link target) := hx ▸ T.shape_of_node hnode
  rw [stat_of_locate hloc, lead]
  cases e.left with
  | zero => rw [walk_link_zero _ hkind, Option.bind_none]
  | succ left => rw [walk_link _ _ hdir hkind, List.append_nil]

end Entry

/-! ### Renaming -/

section Rename

variable {T cwd p} {e e' : Spot N} {x : Node N}

section Relocate

variable {d d' q : List N} {n n' : N} (hd : T.shape d' = some .dir) (hout : ¬ d ++ [n] <+: d')

theorem node_relocate_apart (hold : ¬ d ++ [n] <+: q) (hnew : ¬ d' ++ [n'] <+: q) :
    (T.relocate d n d' n' hd hout).node q = T.node q := by
  simp [relocate, hold, hnew]

theorem node_relocate_new : (T.relocate d n d' n' hd hout).node (d' ++ [n']) = T.node (d ++ [n]) := by
  simp [relocate]

end Relocate

omit [DecidableEq N] in
/-- What is not a file stands neither at the place of a file nor below it, and
neither at a free place nor below it. -/
theorem apart_of_file (hx : T.shape e.place = some .file) (hfree : T.node e'.place = none) {l : List N}
    {k : Kind N} (hk : k ≠ .file) (hl : T.shape l = some k) : ¬ e.place <+: l ∧ ¬ e'.place <+: l := by
  have hfree' := T.shape_eq_none_iff.mpr hfree
  have hsome : T.node l ≠ none := fun hnone => by simp [T.shape_eq_none_iff.mpr hnone] at hl
  constructor <;> intro hpre
  · have hne : l ≠ e.place := by
      rintro rfl
      rw [hx] at hl
      exact hk (Option.some.inj hl).symm
    exact hsome (T.node_below (by simp [hx]) hpre hne)
  · have hne : l ≠ e'.place := by
      rintro rfl
      exact hsome hfree
    exact hsome (T.node_below (by simp [hfree']) hpre hne)

/-- **A file renamed** to a free name stands under that name, as it was. -/
theorem rename_file {q : PathName N} (h : T.lstat cwd p = some (e, x)) (hx : x.kind = .file)
    (hq : T.locate cwd q = some e') (hfree : T.node e'.place = none) :
    ∃ T', T.rename cwd p q = some T' ∧ T'.stat cwd q = some (e'.place, x) := by
  obtain ⟨-, hnode⟩ := lstat_eq_some_iff.mp h
  obtain ⟨cs, hcs, hw, hdir⟩ := locate_eq_some_iff.mp hq
  have hfile : T.shape e.place = some .file := hx ▸ T.shape_of_node hnode
  have hout : ¬ e.dir ++ [e.name] <+: e'.dir := (apart_of_file hfile hfree (by simp) hdir).1
  refine ⟨T.relocate e.dir e.name e'.dir e'.name hdir hout, ?_, ?_⟩
  · rw [rename, h, Option.bind_some, hq, Option.bind_some, dif_pos ⟨⟨hdir, hout⟩, Or.inl hfree⟩]
  · -- the way to the new name does not pass the file
    have hkeep : ∀ l k, k ≠ .file → T.shape l = some k →
        (T.relocate e.dir e.name e'.dir e'.name hdir hout).shape l = some k := by
      intro l k hk hl
      obtain ⟨hold, hnew⟩ := apart_of_file hfile hfree hk hl
      rw [shape, node_relocate_apart hdir hout hold hnew]
      exact hl
    have hloc := locate_eq_some_iff.mpr ⟨cs, hcs, walk_dirs hkeep hdir hw, hkeep _ _ (by simp) hdir⟩
    apply stat_of_lstat
    · exact lstat_eq_some_iff.mpr ⟨hloc, (node_relocate_new hdir hout).trans hnode⟩
    · simp [hx]

end Rename

/-! ### New links -/

section Symlink

variable {T cwd p} {e : Spot N} {target : PathName N} {T' : DirTree N}

theorem symlink_spec (h : T.locate cwd p = some e) (hfree : T.node e.place = none) (target : PathName N) :
    ∃ T', T.symlink cwd p target = some T' ∧
      T'.node = Function.update T.node e.place (some (.newLink target)) := by
  obtain ⟨-, -, -, hdir⟩ := locate_eq_some_iff.mp h
  refine ⟨T.insert e.dir e.name (.newLink target) hdir hfree, ?_, rfl⟩
  rw [symlink, h, Option.bind_some, dif_pos ⟨hdir, hfree⟩]

variable (hT' : T'.node = Function.update T.node e.place (some (.newLink target)))
  (hfree : T.node e.place = none)
include hT'

theorem shape_newLink : T'.shape = Function.update T.shape e.place (some (.link target)) := by
  funext q
  rw [shape, hT']
  by_cases hq : q = e.place
  · rw [hq, Function.update_self, Function.update_self]
    rfl
  · rw [Function.update_of_ne hq, Function.update_of_ne hq]
    rfl

include hfree

theorem shape_le_newLink (l : List N) (k : Kind N) (hl : T.shape l = some k) : T'.shape l = some k := by
  rw [shape_newLink hT', Function.update_of_ne, hl]
  rintro rfl
  rw [T.shape_eq_none_iff.mpr hfree] at hl
  cases hl

/-- The new link is the entry of its path. -/
theorem lstat_newLink (h : T.locate cwd p = some e) : T'.lstat cwd p = some (e, .newLink target) := by
  obtain ⟨cs, hcs, hw, hdir⟩ := locate_eq_some_iff.mp h
  have hle := shape_le_newLink hT' hfree
  refine lstat_eq_some_iff.mpr ⟨locate_eq_some_iff.mpr ⟨cs, hcs, walk_mono hle hw, hle _ _ hdir⟩, ?_⟩
  rw [hT', Function.update_self]

/-- **A new link leads where its target led before.** -/
theorem lead_newLink (hdir : T.shape e.dir = some .dir) : T'.lead e target = T.lead e target := by
  have hle := shape_le_newLink hT' hfree
  have hstart : T.shape (target.start e.dir) ≠ none := by
    rw [PathName.start]
    split_ifs
    · rw [shape, T.root]
      simp
    · simp [hdir]
  rw [lead, lead]
  cases e.left with
  | zero => rfl
  | succ left =>
    rcases hw : walk T.shape left (target.start e.dir) target.comps with _ | ⟨l, left'⟩
    · have hnone := walk_insert_none (T.shape_eq_none_iff.mpr hfree) (shape_newLink hT') hw
        (fun j hj => walk_none_of_le hj.le hw) []
      rw [List.append_nil] at hnone
      simp only [hnone, hw, Option.bind_none]
    · have hl := walk_exists T.root T.shape_parent hstart hw
      have hne : l ≠ e.place := by
        rintro rfl
        exact hl (T.shape_eq_none_iff.mpr hfree)
      simp only [walk_mono hle hw, hw, Option.bind_some]
      rw [hT', Function.update_of_ne hne]

/-- Removing a new link gives the tree back. -/
theorem erase_newLink : T'.erase e.dir e.name = T := by
  ext1
  funext q
  have hnode : (T'.erase e.dir e.name).node q = if e.place <+: q then none else T'.node q := rfl
  rw [hnode]
  split_ifs with hpre
  · by_cases hq : q = e.place
    · rw [hq, hfree]
    · exact (T.node_below (by simp [T.shape_eq_none_iff.mpr hfree]) hpre hq).symm
  · rw [hT', Function.update_of_ne]
    rintro rfl
    exact hpre (List.prefix_refl _)

end Symlink

end DirTree

end FileTree
