/-
# The distributor: applying chunks

`Apply` of `distributor/Destination.py` replays the changes of a file system,
chunk after chunk. A chunk's fields are read as its operation needs them.
`fatal` ends the process, `complain` goes on, and what the branches for data
and metadata raise nobody catches; neither does anybody catch what `os.stat`
raises in the test of the unlink branch. The branch for data starts with names
that nothing binds, so that no run gets past a chunk of data (`apply_data`).

Metadata are set in the order `chmod`, `chown`: the second call drops the
set-id bits that the first has set, so the mode comes out as sent just when it
has none to lose (`apply_metadata_iff`). The test of the unlink branch looks
through links and the calls behind it do not: a link to a directory is handed
to `rmtree`, which refuses it, and a link to nothing makes the test itself
raise (`apply_unlink_iff`).

The slips of syntax are read as intended. `shutil.move` is given as a
function; what holds of the chunks for renaming holds whatever it does, and
for a file simply renamed it comes down to the mode (`rename_file_exact_iff`).

Key definitions: `Operation`, `applyChunk`, `apply`.
Key theorems: `apply_metadata_iff`, `apply_unlink_iff`, `apply_data`, `apply_shape`.
-/
import BlenderBottle.Lib.FileTree

namespace BlenderBottle
namespace Destination

open FileTree

/-- A chunk by its `dtype`, with the fields that the branch for it reads. -/
inductive Operation
  | data
  | mdata (filename : PathName String) (fperms fuid fgid fsize : ℕ)
  | rename (filename newname : PathName String) (fperms fuid fgid : ℕ)
  | unlink (filename : PathName String)
  | symlink (filename linkname : PathName String)
  | other (dtype : String)

/-- How a call ends early: by `fatal`, or by an exception nobody catches. -/
inductive Stop
  | fatal (message : String)
  | raised
  deriving DecidableEq

/-- The tree a call leaves, and its complaints. -/
abbrev Result := Except Stop (DirTree String × List String)

def cantUnlink (name : PathName String) : String := "Can't unlink " ++ name.text

def cantRmtree (name : PathName String) : String := "Can't rmtree " ++ name.text

def cantSymlink (filename linkname : PathName String) : String :=
  "Can't symlink " ++ filename.text ++ " and " ++ linkname.text

def unknownOperation (dtype : String) : String := "Unknown operation " ++ dtype

/-- `shutil.move`: the tree it leaves, unless it raises. -/
abbrev Move := DirTree String → PathName String → PathName String → Option (DirTree String)

/-- A call that gives a tree or raises. -/
def orStop (stop : Stop) : Option (DirTree String) → Result
  | some T => .ok (T, [])
  | none => .error stop

section Apply

variable (move : Move) (cwd : List String)

/-- The body of the loop of `Apply`. -/
def applyChunk (T : DirTree String) : Operation → Result
  -- `io.open(filename, rw)`: neither name is bound, and none of the chunk's fields is read
  | .data => .error .raised
  | .mdata filename fperms fuid fgid fsize => orStop .raised do
      let T ← T.chmod cwd filename (.ofNat 12 fperms)
      let T ← T.chown cwd filename fuid fgid
      T.truncate cwd filename fsize
  -- the handler of the rename branch says `unlink`, too
  | .rename filename newname fperms fuid fgid => orStop (.fatal (cantUnlink newname)) do
      let T ← move T filename newname
      let T ← T.chmod cwd newname (.ofNat 12 fperms)
      T.chown cwd newname fuid fgid
  | .unlink filename =>
    -- the test stands outside of both `try` statements
    match T.stat cwd filename with
    | none => .error .raised
    | some (_, x) =>
      if x.kind = .dir then orStop (.fatal (cantRmtree filename)) (T.rmtree cwd filename)
      else orStop (.fatal (cantUnlink filename)) (T.unlink cwd filename)
  | .symlink filename linkname =>
    match T.symlink cwd linkname filename with
    | some T => .ok (T, [])
    | none => .ok (T, [cantSymlink filename linkname])
  | .other dtype => .ok (T, [unknownOperation dtype])

/-- `Apply`: the chunks found, in the order of their `mtime`. -/
def apply (T : DirTree String) : List Operation → Result
  | [] => .ok (T, [])
  | op :: ops =>
    match applyChunk move cwd T op with
    | .error stop => .error stop
    | .ok (T, complaints) => (apply T ops).map fun r => (r.1, complaints ++ r.2)

end Apply

section Step

variable {move : Move} {cwd : List String} {T T' : DirTree String}

theorem orStop_eq_ok_iff {stop : Stop} {o : Option (DirTree String)} {complaints : List String} :
    orStop stop o = .ok (T', complaints) ↔ o = some T' ∧ complaints = [] := by
  cases o with
  | none => simp [orStop]
  | some T => simp [orStop, eq_comm]

theorem apply_cons {op : Operation} (ops : List Operation) (h : applyChunk move cwd T op = .ok (T', [])) :
    apply move cwd T (op :: ops) = apply move cwd T' ops := by
  simp only [apply, h]
  cases apply move cwd T' ops <;> simp [Except.map]

theorem apply_singleton (op : Operation) : apply move cwd T [op] = applyChunk move cwd T op := by
  simp only [apply]
  rcases applyChunk move cwd T op with stop | ⟨T', complaints⟩ <;> simp [Except.map]

end Step

/-! ### Metadata -/

/-- The mode of a chunk survives `chown` on a regular file: the chunk has no
set-user bit, and no set-group bit where its group may execute. -/
def KeepsPerms (fperms : ℕ) : Prop :=
  fperms.testBit 11 = false ∧ ¬ (fperms.testBit 10 = true ∧ fperms.testBit 3 = true)

theorem keepsSetId_ofNat (fperms : ℕ) : KeepsSetId (.ofNat 12 fperms) ↔ KeepsPerms fperms := by
  simp only [KeepsSetId, KeepsPerms, BitVec.getLsbD_ofNat]
  simp

/-- A node after `chmod` and `chown`. -/
def withPerms (x : Node String) (fperms fuid fgid : ℕ) : Node String :=
  (x.chmod (.ofNat 12 fperms)).chown fuid fgid

theorem mode_withPerms_iff (x : Node String) (fperms fuid fgid : ℕ) :
    (withPerms x fperms fuid fgid).mode = .ofNat 12 fperms ↔ x.kind = .dir ∨ KeepsPerms fperms := by
  rw [withPerms, Node.chown, Node.kind_chmod]
  by_cases hdir : x.kind = .dir
  · simp [hdir, Node.chmod]
  · rw [if_neg hdir, or_iff_right hdir, ← keepsSetId_ofNat]
    exact dropSetId_eq_iff _

section Metadata

variable {move : Move} {cwd : List String} {T : DirTree String} {p : PathName String} {l : List String}
  {x : Node String}

/-- `chmod` and `chown` on what a path leads to. -/
theorem chmod_chown (h : T.stat cwd p = some (l, x)) (fperms fuid fgid : ℕ) :
    ∃ T₁ T₂, T.chmod cwd p (.ofNat 12 fperms) = some T₁ ∧ T₁.chown cwd p fuid fgid = some T₂ ∧
      T₂.stat cwd p = some (l, withPerms x fperms fuid fgid) := by
  obtain ⟨T₁, h₁, hs₁⟩ := DirTree.chmod_spec h (.ofNat 12 fperms)
  obtain ⟨T₂, h₂, hs₂⟩ := DirTree.chown_spec hs₁ fuid fgid
  exact ⟨T₁, T₂, h₁, h₂, hs₂⟩

variable (move) in
theorem applyChunk_mdata (h : T.stat cwd p = some (l, x)) (hx : x.kind = .file) (fperms fuid fgid fsize : ℕ) :
    ∃ T', applyChunk move cwd T (.mdata p fperms fuid fgid fsize) = .ok (T', []) ∧
      T'.node l = some ((withPerms x fperms fuid fgid).truncate fsize) := by
  obtain ⟨T₁, T₂, h₁, h₂, hs₂⟩ := chmod_chown h fperms fuid fgid
  obtain ⟨T₃, h₃, hs₃⟩ := DirTree.truncate_spec hs₂ hx fsize
  refine ⟨T₃, ?_, DirTree.node_of_stat hs₃⟩
  simp [applyChunk, orStop, h₁, h₂, h₃]

theorem applyChunk_rename {filename newname : PathName String} {T₁ : DirTree String}
    (hmove : move T filename newname = some T₁) (h : T₁.stat cwd newname = some (l, x))
    (fperms fuid fgid : ℕ) :
    ∃ T', applyChunk move cwd T (.rename filename newname fperms fuid fgid) = .ok (T', []) ∧
      T'.stat cwd newname = some (l, withPerms x fperms fuid fgid) := by
  obtain ⟨T₂, T₃, h₂, h₃, hs₃⟩ := chmod_chown h fperms fuid fgid
  refine ⟨T₃, ?_, hs₃⟩
  simp [applyChunk, orStop, hmove, h₂, h₃]

theorem applyChunk_rename_lost {filename newname : PathName String} {T₁ : DirTree String}
    (hmove : move T filename newname = some T₁) (h : T₁.stat cwd newname = none) (fperms fuid fgid : ℕ) :
    applyChunk move cwd T (.rename filename newname fperms fuid fgid) =
      .error (.fatal (cantUnlink newname)) := by
  simp [applyChunk, orStop, hmove, DirTree.chmod_eq_none h]

variable (move) in
/-- A metadata chunk is exact on a regular file just when its mode has no
set-id bit to lose. -/
theorem mdata_exact_iff (h : T.stat cwd p = some (l, x)) (hx : x.kind = .file) (fperms fuid fgid fsize : ℕ) :
    (∃ T' data, apply move cwd T [.mdata p fperms fuid fgid fsize] = .ok (T', []) ∧
        T'.node l = some ⟨.ofNat 12 fperms, fuid, fgid, .file data⟩ ∧ data.length = fsize) ↔
      KeepsPerms fperms := by
  obtain ⟨T', hT', hnode⟩ := applyChunk_mdata move h hx fperms fuid fgid fsize
  obtain ⟨data, hdata, hlen⟩ := Node.truncate_of_file (x := withPerms x fperms fuid fgid) hx fsize
  have hmode := mode_withPerms_iff x fperms fuid fgid
  rw [or_iff_right (by simp [hx])] at hmode
  rw [apply_singleton, hT', ← hmode]
  constructor
  · rintro ⟨T'', data', heq, hnode', -⟩
    cases heq
    rw [hnode, hdata, Option.some.injEq] at hnode'
    exact congrArg Node.mode hnode'
  · intro hm
    refine ⟨T', data, rfl, ?_, hlen⟩
    rw [hnode, hdata, hm]
    rfl

/-- A rename chunk is exact on what its new name leads to behind the move, on
a directory always. -/
theorem rename_exact_iff {filename newname : PathName String} {T₁ : DirTree String}
    (hmove : move T filename newname = some T₁) (fperms fuid fgid : ℕ) :
    (∃ T' l x, apply move cwd T [.rename filename newname fperms fuid fgid] = .ok (T', []) ∧
        T'.stat cwd newname = some (l, x) ∧ x.mode = .ofNat 12 fperms ∧ x.owner = fuid ∧ x.group = fgid) ↔
      ∃ l x, T₁.stat cwd newname = some (l, x) ∧ (x.kind = .dir ∨ KeepsPerms fperms) := by
  rw [apply_singleton]
  rcases h : T₁.stat cwd newname with _ | ⟨l, x⟩
  · rw [applyChunk_rename_lost hmove h]
    simp
  · obtain ⟨T', hT', hs⟩ := applyChunk_rename hmove h fperms fuid fgid
    rw [hT']
    constructor
    · rintro ⟨T'', l', x', heq, hs', hmode, -, -⟩
      cases heq
      rw [hs] at hs'
      cases hs'
      exact ⟨l, x, rfl, (mode_withPerms_iff x fperms fuid fgid).mp hmode⟩
    · rintro ⟨l', x', heq, hkeep⟩
      cases heq
      exact ⟨T', l, _, rfl, hs, (mode_withPerms_iff x fperms fuid fgid).mpr hkeep, rfl, rfl⟩

/-- Where the move is a plain `rename` of a regular file to a free name, the
condition is the one on the mode alone. -/
theorem rename_file_exact_iff {filename newname : PathName String} {e e' : Spot String}
    (h : T.lstat cwd filename = some (e, x)) (hx : x.kind = .file)
    (hnew : T.locate cwd newname = some e') (hfree : T.node e'.place = none) (fperms fuid fgid : ℕ) :
    (∃ T' l x, apply (DirTree.rename · cwd) cwd T [.rename filename newname fperms fuid fgid] = .ok (T', []) ∧
        T'.stat cwd newname = some (l, x) ∧ x.mode = .ofNat 12 fperms ∧ x.owner = fuid ∧ x.group = fgid) ↔
      KeepsPerms fperms := by
  obtain ⟨T₁, hmove, hs⟩ := DirTree.rename_file h hx hnew hfree
  rw [rename_exact_iff hmove]
  constructor
  · rintro ⟨l, y, heq, hkeep⟩
    rw [hs] at heq
    cases heq
    exact hkeep.resolve_left (by simp [hx])
  · intro hkeep
    exact ⟨_, x, hs, Or.inr hkeep⟩

end Metadata

/-- **Metadata come out as sent.** On a regular file a metadata chunk sets its
size, owner and group, and its mode just when the mode has no set-id bit to
lose. Behind a move, whatever it did, a rename chunk sets them on what the new
name leads to, if it leads to anything: on a directory always, and otherwise
under the same condition. -/
theorem apply_metadata_iff (move : Move) (cwd : List String) :
    (∀ (T : DirTree String) (filename : PathName String) (fperms fuid fgid fsize : ℕ) (l : List String)
        (x : Node String), T.stat cwd filename = some (l, x) → x.kind = .file →
      ((∃ T' data, apply move cwd T [.mdata filename fperms fuid fgid fsize] = .ok (T', []) ∧
          T'.node l = some ⟨.ofNat 12 fperms, fuid, fgid, .file data⟩ ∧ data.length = fsize) ↔
        KeepsPerms fperms)) ∧
    ∀ (T T₁ : DirTree String) (filename newname : PathName String) (fperms fuid fgid : ℕ),
      move T filename newname = some T₁ →
      ((∃ T' l x, apply move cwd T [.rename filename newname fperms fuid fgid] = .ok (T', []) ∧
          T'.stat cwd newname = some (l, x) ∧ x.mode = .ofNat 12 fperms ∧ x.owner = fuid ∧ x.group = fgid) ↔
        ∃ l x, T₁.stat cwd newname = some (l, x) ∧ (x.kind = .dir ∨ KeepsPerms fperms)) :=
  ⟨fun _ _ fperms fuid fgid fsize _ _ h hx => mdata_exact_iff move h hx fperms fuid fgid fsize,
    fun _ _ _ _ fperms fuid fgid hmove => rename_exact_iff hmove fperms fuid fgid⟩

/-- The path `/n`. -/
def atRoot (n : String) : PathName String := ⟨true, [.name n], by simp⟩

/-- A regular file `/f` of mode 0644. -/
def oneFile : DirTree String :=
  (DirTree.empty String).insert [] "f" ⟨0o644#12, 0, 0, .file [1, 2, 3]⟩ rfl rfl

/-- Mode 0755 comes out as sent, on a file and behind a rename. -/
theorem apply_metadata_iff_plain :
    (∃ T' data, apply (DirTree.rename · []) [] oneFile [.mdata (atRoot "f") 0o755 1 2 5] =
        .ok (T', []) ∧ T'.node ["f"] = some ⟨.ofNat 12 0o755, 1, 2, .file data⟩ ∧ data.length = 5) ∧
      ∃ T' l x, apply (DirTree.rename · []) [] oneFile
          [.rename (atRoot "f") (atRoot "g") 0o755 1 2] = .ok (T', []) ∧
        T'.stat [] (atRoot "g") = some (l, x) ∧
        x.mode = .ofNat 12 0o755 ∧ x.owner = 1 ∧ x.group = 2 := by
  have hkeep : KeepsPerms 0o755 := by unfold KeepsPerms; decide
  exact ⟨((apply_metadata_iff (DirTree.rename · []) []).1 oneFile _ _ _ _ _ ["f"] _ rfl rfl).mpr hkeep,
    ((apply_metadata_iff (DirTree.rename · []) []).2 oneFile _ _ _ _ _ _ rfl).mpr ⟨_, _, rfl, Or.inr hkeep⟩⟩

/-- Mode 4755 comes out as 0755, on the file and behind a rename. -/
theorem apply_metadata_setuid :
    (∃ T', apply (DirTree.rename · []) [] oneFile [.mdata (atRoot "f") 0o4755 1 2 5] = .ok (T', []) ∧
      (T'.node ["f"]).map Node.mode = some 0o755#12) ∧
    ∃ T', apply (DirTree.rename · []) [] oneFile [.rename (atRoot "f") (atRoot "g") 0o4755 1 2] =
        .ok (T', []) ∧
      (T'.node ["g"]).map Node.mode = some 0o755#12 :=
  ⟨⟨_, rfl, rfl⟩, _, rfl, rfl⟩

/-! ### Entries -/

/-- The tree without the entry at `e` and all below it, and everything else as
it was. -/
def Removed (T : DirTree String) (e : Spot String) (T' : DirTree String) : Prop :=
  ∀ q, T'.node q = if e.place <+: q then none else T.node q

/-- A link at `e` with this target leads to something that is no directory. -/
def LeadsToFile (T : DirTree String) (e : Spot String) (target : PathName String) : Prop :=
  ∃ l y, T.lead e target = some (l, y) ∧ y.kind ≠ .dir

section Unlink

variable {move : Move} {cwd : List String} {T : DirTree String} {p : PathName String} {e : Spot String}
  {x : Node String}

theorem removed_erase (T : DirTree String) (e : Spot String) : Removed T e (T.erase e.dir e.name) :=
  fun _ => rfl

/-- The unlink branch does its work on an entry that is no link. -/
theorem applyChunk_unlink_entry (h : T.lstat cwd p = some (e, x)) (hx : ∀ target, x.kind ≠ .link target) :
    applyChunk move cwd T (.unlink p) = .ok (T.erase e.dir e.name, []) := by
  have hs := DirTree.stat_of_lstat h hx
  by_cases hdir : x.kind = .dir
  · simp [applyChunk, orStop, hs, hdir, DirTree.rmtree, h]
  · simp [applyChunk, orStop, hs, hdir, DirTree.unlink, h]

/-- On a link it does if the link leads to something that is no directory. -/
theorem applyChunk_unlink_link {target : PathName String} (h : T.lstat cwd p = some (e, x))
    (hx : x.kind = .link target) (hlead : LeadsToFile T e target) :
    applyChunk move cwd T (.unlink p) = .ok (T.erase e.dir e.name, []) := by
  obtain ⟨l, y, hy, hdir⟩ := hlead
  have hs := DirTree.stat_of_link h hx
  simp [applyChunk, orStop, hs, hy, hdir, DirTree.unlink, h, hx]

variable (move) in
/-- Otherwise nothing is removed: `os.stat` raises, or `rmtree` does. -/
theorem applyChunk_unlink_stops {target : PathName String} (h : T.lstat cwd p = some (e, x))
    (hx : x.kind = .link target) (hlead : ¬ LeadsToFile T e target) :
    ∃ stop, applyChunk move cwd T (.unlink p) = .error stop := by
  have hs := DirTree.stat_of_link h hx
  rcases hl : T.lead e target with _ | ⟨l, y⟩
  · exact ⟨.raised, by simp [applyChunk, hs, hl]⟩
  · have hdir : y.kind = .dir := by
      by_contra hne
      exact hlead ⟨l, y, hl, hne⟩
    exact ⟨.fatal (cantRmtree p), by simp [applyChunk, orStop, hs, hl, hdir, DirTree.rmtree, h, hx]⟩

variable (move) in
/-- An unlink chunk does its work just when its entry is no link, or a link
that leads to something that is no directory. -/
theorem unlink_removes_iff (h : T.lstat cwd p = some (e, x)) :
    (∃ T', apply move cwd T [.unlink p] = .ok (T', []) ∧ Removed T e T') ↔
      ∀ target, x.kind = .link target → LeadsToFile T e target := by
  rw [apply_singleton]
  constructor
  · rintro ⟨T', hT', -⟩ target hx
    by_contra hlead
    obtain ⟨stop, hstop⟩ := applyChunk_unlink_stops move h hx hlead
    rw [hstop] at hT'
    cases hT'
  · intro hlink
    refine ⟨_, ?_, removed_erase T e⟩
    by_cases hx : ∃ target, x.kind = .link target
    · obtain ⟨target, hx⟩ := hx
      exact applyChunk_unlink_link h hx (hlink target hx)
    · exact applyChunk_unlink_entry h (not_exists.mp hx)

variable (move) in
/-- The link a symlink chunk makes is taken back just when its target leads to
something that is no directory, in the tree as it was before. -/
theorem symlink_unlink_iff (h : T.locate cwd p = some e) (hfree : T.node e.place = none)
    (target : PathName String) :
    apply move cwd T [.symlink target p, .unlink p] = .ok (T, []) ↔ LeadsToFile T e target := by
  obtain ⟨T', hsym, hT'⟩ := DirTree.symlink_spec h hfree target
  obtain ⟨-, -, -, hdir⟩ := DirTree.locate_eq_some_iff.mp h
  have hl := DirTree.lstat_newLink hT' hfree h
  have hlead : LeadsToFile T' e target ↔ LeadsToFile T e target := by
    rw [LeadsToFile, LeadsToFile, DirTree.lead_newLink hT' hfree hdir]
  have hstep : applyChunk move cwd T (.symlink target p) = .ok (T', []) := by
    simp [applyChunk, hsym]
  rw [apply_cons _ hstep, apply_singleton, ← hlead]
  constructor
  · intro hok
    by_contra hno
    obtain ⟨stop, hstop⟩ := applyChunk_unlink_stops move hl rfl hno
    rw [hstop] at hok
    cases hok
  · intro hto
    rw [applyChunk_unlink_link hl rfl hto, DirTree.erase_newLink hT' hfree]

end Unlink

/-- **An unlink chunk removes its entry.** For a path to an existing entry it
removes the entry, with all below it, and nothing else, just when the entry is
no link or leads to something that is no directory. So a link made under a
free name is taken back by an unlink chunk just when its target leads to
something that is no directory. -/
theorem apply_unlink_iff (move : Move) (cwd : List String) :
    (∀ (T : DirTree String) (filename : PathName String) (e : Spot String) (x : Node String),
      T.lstat cwd filename = some (e, x) →
      ((∃ T', apply move cwd T [.unlink filename] = .ok (T', []) ∧ Removed T e T') ↔
        ∀ target, x.kind = .link target → LeadsToFile T e target)) ∧
    ∀ (T : DirTree String) (filename linkname : PathName String) (e : Spot String),
      T.locate cwd linkname = some e → T.node e.place = none →
      (apply move cwd T [.symlink filename linkname, .unlink linkname] = .ok (T, []) ↔
        LeadsToFile T e filename) :=
  ⟨fun _ _ _ _ h => unlink_removes_iff move h,
    fun _ filename _ _ h hfree => symlink_unlink_iff move h hfree filename⟩

/-- `/f` with a directory `/d`. -/
def fileAndDir : DirTree String := oneFile.insert [] "d" ⟨0o755#12, 0, 0, .dir⟩ rfl rfl

/-- A directory is removed, and a link to a file is made and taken back. -/
theorem apply_unlink_iff_plain :
    (∃ T', apply (DirTree.rename · []) [] fileAndDir [.unlink (atRoot "d")] = .ok (T', []) ∧
        Removed fileAndDir ⟨[], "d", 40⟩ T') ∧
      apply (DirTree.rename · []) [] fileAndDir [.symlink (atRoot "f") (atRoot "l"), .unlink (atRoot "l")] =
        .ok (fileAndDir, []) :=
  ⟨((apply_unlink_iff (DirTree.rename · []) []).1 fileAndDir (atRoot "d") ⟨[], "d", 40⟩ _ rfl).mpr
      (fun _ hlink => by cases hlink),
    ((apply_unlink_iff (DirTree.rename · []) []).2 fileAndDir (atRoot "f") (atRoot "l") ⟨[], "l", 40⟩
      rfl rfl).mpr ⟨["f"], _, rfl, by decide⟩⟩

/-- `/f` and `/d` with a link `/l`. -/
def linkTo (target : PathName String) : DirTree String := fileAndDir.insert [] "l" (.newLink target) rfl rfl

/-- A link to a directory is fatal and a link to nothing raises, the link just
made by a symlink chunk as well. -/
theorem apply_unlink_links :
    ((linkTo (atRoot "d")).lstat [] (atRoot "l")).isSome = true ∧
      apply (DirTree.rename · []) [] (linkTo (atRoot "d")) [.unlink (atRoot "l")] =
        .error (.fatal (cantRmtree (atRoot "l"))) ∧
      ((linkTo (atRoot "x")).lstat [] (atRoot "l")).isSome = true ∧
      apply (DirTree.rename · []) [] (linkTo (atRoot "x")) [.unlink (atRoot "l")] = .error .raised ∧
      apply (DirTree.rename · []) [] fileAndDir [.symlink (atRoot "d") (atRoot "l"), .unlink (atRoot "l")] =
        .error (.fatal (cantRmtree (atRoot "l"))) :=
  ⟨rfl, rfl, rfl, rfl, rfl⟩

/-! ### Runs -/

section Run

variable {move : Move} {cwd : List String} {T T' : DirTree String} {complaints : List String}

/-- **No run gets past a chunk of data.** -/
theorem apply_data {ops : List Operation} (hops : .data ∈ ops) : ∃ stop, apply move cwd T ops = .error stop := by
  induction ops generalizing T with
  | nil => cases hops
  | cons op ops ih =>
    rcases hstep : applyChunk move cwd T op with stop | ⟨T₁, complaints₁⟩
    · exact ⟨stop, by simp only [apply, hstep]⟩
    · rcases List.mem_cons.mp hops with rfl | hmem
      · cases hstep
      · obtain ⟨stop, hstop⟩ := ih (T := T₁) hmem
        exact ⟨stop, by simp only [apply, hstep, hstop, Except.map]⟩

/-- The operations on what is there already. -/
def Operation.OnNode : Operation → Prop
  | .mdata .. => True
  | _ => False

theorem applyChunk_shape {op : Operation} (hop : op.OnNode)
    (h : applyChunk move cwd T op = .ok (T', complaints)) : T'.shape = T.shape ∧ complaints = [] := by
  cases op with
  | mdata filename fperms fuid fgid fsize =>
    obtain ⟨h, hc⟩ := orStop_eq_ok_iff.mp h
    obtain ⟨T₁, h₁, h⟩ := Option.bind_eq_some_iff.mp h
    obtain ⟨T₂, h₂, h⟩ := Option.bind_eq_some_iff.mp h
    refine ⟨?_, hc⟩
    rw [DirTree.shape_change _ h, DirTree.shape_change _ h₂, DirTree.shape_change _ h₁]
  | data | rename | unlink | symlink | other => cases hop

/-- **A run of metadata chunks** neither makes nor removes an entry, and has
nothing to complain of. -/
theorem apply_shape {ops : List Operation} (hops : ∀ op ∈ ops, op.OnNode)
    (h : apply move cwd T ops = .ok (T', complaints)) : T'.shape = T.shape ∧ complaints = [] := by
  induction ops generalizing T complaints with
  | nil =>
    cases h
    exact ⟨rfl, rfl⟩
  | cons op ops ih =>
    rw [List.forall_mem_cons] at hops
    rcases hstep : applyChunk move cwd T op with stop | ⟨T₁, complaints₁⟩
    · simp only [apply, hstep] at h
      cases h
    · obtain ⟨hshape, rfl⟩ := applyChunk_shape hops.1 hstep
      rw [apply_cons ops hstep] at h
      obtain ⟨hrest, hc⟩ := ih hops.2 h
      exact ⟨hrest.trans hshape, hc⟩

end Run

end Destination
end BlenderBottle
