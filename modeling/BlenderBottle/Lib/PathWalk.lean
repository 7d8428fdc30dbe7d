/-
# Looking up paths

A path is looked up component by component from a directory (`walk`). A link
on the way is replaced by its target, and only so many links are followed:
`walk` tells how many are left, so that a lookup can be cut in two
(`walk_append`).

A lookup that succeeds is not disturbed by new entries (`walk_mono`), and a
new link does not help its own target to be found (`walk_insert_none`).

Key definitions: `PathName`, `Shape`, `walk`, `Leads`.
Key theorems: `walk_append`, `walk_eq_some_iff`, `walk_mono`, `walk_insert_none`.
-/
import Mathlib.Tactic

namespace FileTree

/-! ### Paths -/

/-- A component of a path as it is written: `.`, `..` or a name. -/
inductive Comp (N : Type*)
  | self
  | up
  | name (n : N)
  deriving DecidableEq

/-- A path as it is written. The empty text is no path. -/
structure PathName (N : Type*) where
  absolute : Bool
  comps : List (Comp N)
  nonempty : absolute = true ∨ comps ≠ [] := by simp
  deriving DecidableEq

/-- Where the lookup of a path starts, from the directory `d`. -/
def PathName.start {N : Type*} (p : PathName N) (d : List N) : List N := if p.absolute then [] else d

def Comp.text : Comp String → String
  | self => "."
  | up => ".."
  | name n => n

def PathName.text (p : PathName String) : String :=
  (if p.absolute then "/" else "") ++ "/".intercalate (p.comps.map Comp.text)

/-- What a node of a tree is, as far as lookups are concerned. -/
inductive Kind (N : Type*)
  | file
  | dir
  | link (target : PathName N)
  deriving DecidableEq

/-- The kinds of the nodes by their places. A place is the list of names that
leads to a node from the root. -/
abbrev Shape (N : Type*) := List N → Option (Kind N)

/-! ### Lookup -/

section Walk

variable {N : Type*} [DecidableEq N]

/-- The lookup of components from the directory `d`, up to the next link,
where `jump` takes over. -/
def scan (S : Shape N) (left : ℕ) (jump : List N → List (Comp N) → Option (List N × ℕ)) :
    List N → List (Comp N) → Option (List N × ℕ)
  | d, [] => some (d, left)
  | d, c :: cs =>
    if S d = some .dir then
      match c with
      | .self => scan S left jump d cs
      | .up => scan S left jump d.dropLast cs
      | .name n =>
        match S (d ++ [n]) with
        | none => none
        | some (.link target) => jump (target.start d) (target.comps ++ cs)
        | some _ => scan S left jump (d ++ [n]) cs
    else none

/-- The lookup of components from the directory `d` with `left` links to
follow: the place it leads to, and how many links are left. -/
def walk (S : Shape N) : ℕ → List N → List (Comp N) → Option (List N × ℕ)
  | 0 => scan S 0 fun _ _ => none
  | left + 1 => scan S (left + 1) (walk S left)

section Equations

variable {S : Shape N} (left : ℕ) {d : List N} {n : N} (c : Comp N) (cs : List (Comp N))

@[simp] theorem walk_nil (d : List N) : walk S left d [] = some (d, left) := by
  cases left <;> rfl

theorem walk_stuck (h : S d ≠ some .dir) : walk S left d (c :: cs) = none := by
  cases left <;> simp [walk, scan, h]

theorem walk_self (h : S d = some .dir) : walk S left d (.self :: cs) = walk S left d cs := by
  cases left <;> simp [walk, scan, h]

theorem walk_up (h : S d = some .dir) : walk S left d (.up :: cs) = walk S left d.dropLast cs := by
  cases left <;> simp [walk, scan, h]

theorem walk_absent (hn : S (d ++ [n]) = none) : walk S left d (.name n :: cs) = none := by
  by_cases h : S d = some .dir
  · cases left <;> simp [walk, scan, h, hn]
  · exact walk_stuck left _ cs h

theorem walk_entry (h : S d = some .dir) (hn : S (d ++ [n]) = some .file ∨ S (d ++ [n]) = some .dir) :
    walk S left d (.name n :: cs) = walk S left (d ++ [n]) cs := by
  rcases hn with hn | hn <;> cases left <;> simp [walk, scan, h, hn]

variable {target : PathName N}

theorem walk_link_zero (hn : S (d ++ [n]) = some (.link target)) : walk S 0 d (.name n :: cs) = none := by
  by_cases h : S d = some .dir
  · simp [walk, scan, h, hn]
  · exact walk_stuck 0 _ cs h

theorem walk_link (h : S d = some .dir) (hn : S (d ++ [n]) = some (.link target)) :
    walk S (left + 1) d (.name n :: cs) = walk S left (target.start d) (target.comps ++ cs) := by
  simp [walk, scan, h, hn]

end Equations

/-- Induction along the components, up to a link. -/
theorem scan_induct (S : Shape N) {P : List N → List (Comp N) → Prop}
    (nil : ∀ d, P d [])
    (stuck : ∀ d c cs, S d ≠ some .dir → P d (c :: cs))
    (self : ∀ d cs, S d = some .dir → P d cs → P d (.self :: cs))
    (up : ∀ d cs, S d = some .dir → P d.dropLast cs → P d (.up :: cs))
    (absent : ∀ d n cs, S d = some .dir → S (d ++ [n]) = none → P d (.name n :: cs))
    (entry : ∀ d n cs, S d = some .dir → (S (d ++ [n]) = some .file ∨ S (d ++ [n]) = some .dir) →
      P (d ++ [n]) cs → P d (.name n :: cs))
    (link : ∀ d n cs target, S d = some .dir → S (d ++ [n]) = some (.link target) → P d (.name n :: cs))
    (d : List N) (cs : List (Comp N)) : P d cs := by
  induction cs generalizing d with
  | nil => exact nil d
  | cons c cs ih =>
    by_cases h : S d = some .dir
    · cases c with
      | self => exact self d cs h (ih d)
      | up => exact up d cs h (ih _)
      | name n =>
        rcases hn : S (d ++ [n]) with _ | _ | _ | target
        · exact absent d n cs h hn
        · exact entry d n cs h (Or.inl hn) (ih _)
        · exact entry d n cs h (Or.inr hn) (ih _)
        · exact link d n cs target h hn
    · exact stuck d c cs h

/-- Induction along a lookup: a link spends one of `left`, every other step
one of the components. -/
theorem walk_induct (S : Shape N) {P : ℕ → List N → List (Comp N) → Prop}
    (nil : ∀ left d, P left d [])
    (stuck : ∀ left d c cs, S d ≠ some .dir → P left d (c :: cs))
    (self : ∀ left d cs, S d = some .dir → P left d cs → P left d (.self :: cs))
    (up : ∀ left d cs, S d = some .dir → P left d.dropLast cs → P left d (.up :: cs))
    (absent : ∀ left d n cs, S d = some .dir → S (d ++ [n]) = none → P left d (.name n :: cs))
    (entry : ∀ left d n cs, S d = some .dir → (S (d ++ [n]) = some .file ∨ S (d ++ [n]) = some .dir) →
      P left (d ++ [n]) cs → P left d (.name n :: cs))
    (tooMany : ∀ d n cs target, S d = some .dir → S (d ++ [n]) = some (.link target) → P 0 d (.name n :: cs))
    (link : ∀ left d n cs target, S d = some .dir → S (d ++ [n]) = some (.link target) →
      P left (target.start d) (target.comps ++ cs) → P (left + 1) d (.name n :: cs))
    (left : ℕ) (d : List N) (cs : List (Comp N)) : P left d cs := by
  induction left generalizing d cs with
  | zero => exact scan_induct S (nil 0) (stuck 0) (self 0) (up 0) (absent 0) (entry 0) tooMany d cs
  | succ left ih =>
    exact scan_induct S (nil _) (stuck _) (self _) (up _) (absent _) (entry _)
      (fun d n cs target h hn => link left d n cs target h hn (ih _ _)) d cs

/-- **A lookup in two parts**: the second goes on from where the first leads. -/
theorem walk_append (S : Shape N) (left : ℕ) (d : List N) (cs cs' : List (Comp N)) :
    walk S left d (cs ++ cs') = (walk S left d cs).bind fun r => walk S r.2 r.1 cs' := by
  induction left, d, cs using walk_induct S with
  | nil left d => simp
  | stuck left d c cs h => simp [walk_stuck, h]
  | self left d cs h ih => rw [List.cons_append, walk_self _ _ h, walk_self _ _ h, ih]
  | up left d cs h ih => rw [List.cons_append, walk_up _ _ h, walk_up _ _ h, ih]
  | absent left d n cs h hn => simp [walk_absent, hn]
  | entry left d n cs h hn ih => rw [List.cons_append, walk_entry _ _ h hn, walk_entry _ _ h hn, ih]
  | tooMany d n cs target h hn => simp [walk_link_zero _ hn]
  | link left d n cs target h hn ih =>
    rw [List.cons_append, walk_link _ _ h hn, walk_link _ _ h hn, ← List.append_assoc, ih]

/-! ### What a lookup finds -/

/-- The places lookups lead to, as a relation: with `left` links to follow,
`cs` leads from the directory `d` to the place `r.1`, with `r.2` links left. -/
inductive Leads (S : Shape N) (r : List N × ℕ) : ℕ → List N → List (Comp N) → Prop
  | here : Leads S r r.2 r.1 []
  | self {left d cs} : S d = some .dir → Leads S r left d cs → Leads S r left d (.self :: cs)
  | up {left d cs} : S d = some .dir → Leads S r left d.dropLast cs → Leads S r left d (.up :: cs)
  | entry {left d n cs} : S d = some .dir → (S (d ++ [n]) = some .file ∨ S (d ++ [n]) = some .dir) →
      Leads S r left (d ++ [n]) cs → Leads S r left d (.name n :: cs)
  | link {left d n cs target} : S d = some .dir → S (d ++ [n]) = some (.link target) →
      Leads S r left (target.start d) (target.comps ++ cs) → Leads S r (left + 1) d (.name n :: cs)

/-- The function finds what the relation says. -/
theorem walk_eq_some_iff {S : Shape N} {left : ℕ} {d : List N} {cs : List (Comp N)} {r : List N × ℕ} :
    walk S left d cs = some r ↔ Leads S r left d cs := by
  constructor
  · intro hr
    induction left, d, cs using walk_induct S with
    | nil left d =>
      rw [walk_nil, Option.some.injEq] at hr
      subst hr
      exact .here
    | stuck left d c cs h => rw [walk_stuck _ _ _ h] at hr; cases hr
    | self left d cs h ih => rw [walk_self _ _ h] at hr; exact .self h (ih hr)
    | up left d cs h ih => rw [walk_up _ _ h] at hr; exact .up h (ih hr)
    | absent left d n cs h hn => rw [walk_absent _ _ hn] at hr; cases hr
    | entry left d n cs h hn ih => rw [walk_entry _ _ h hn] at hr; exact .entry h hn (ih hr)
    | tooMany d n cs target h hn => rw [walk_link_zero _ hn] at hr; cases hr
    | link left d n cs target h hn ih => rw [walk_link _ _ h hn] at hr; exact .link h hn (ih hr)
  · intro hr
    induction hr with
    | here => exact walk_nil _ _
    | self h _ ih => rw [walk_self _ _ h, ih]
    | up h _ ih => rw [walk_up _ _ h, ih]
    | entry h hn _ ih => rw [walk_entry _ _ h hn, ih]
    | link h hn _ ih => rw [walk_link _ _ h hn, ih]

/-- A lookup that succeeds stays as it is when there are more entries. -/
theorem walk_mono {S S' : Shape N} (hS : ∀ l k, S l = some k → S' l = some k) {left : ℕ} {d : List N}
    {cs : List (Comp N)} {r : List N × ℕ} (hr : walk S left d cs = some r) : walk S' left d cs = some r := by
  rw [walk_eq_some_iff] at hr ⊢
  induction hr with
  | here => exact .here
  | self h _ ih => exact .self (hS _ _ h) ih
  | up h _ ih => exact .up (hS _ _ h) ih
  | entry h hn _ ih => exact .entry (hS _ _ h) (hn.imp (hS _ _) (hS _ _)) ih
  | link h hn _ ih => exact .link (hS _ _ h) (hS _ _ hn) ih

omit [DecidableEq N] in
/-- A lookup that has come to a file ends there. -/
theorem Leads.of_file {S : Shape N} {r : List N × ℕ} {left : ℕ} {d : List N} {cs : List (Comp N)}
    (hr : Leads S r left d cs) (hd : S d = some .file) : r.1 = d := by
  cases hr with
  | here => rfl
  | self h _ | up h _ | entry h _ _ | link h _ _ =>
    rw [hd] at h
    cases h

/-- The way to a directory does not depend on the files. -/
theorem walk_dirs {S S' : Shape N} (hS : ∀ l k, k ≠ .file → S l = some k → S' l = some k) {left : ℕ}
    {d : List N} {cs : List (Comp N)} {r : List N × ℕ} (hdir : S r.1 = some .dir)
    (hr : walk S left d cs = some r) : walk S' left d cs = some r := by
  rw [walk_eq_some_iff] at hr ⊢
  have old : ∀ {l}, S l = some .dir → S' l = some .dir := fun h => hS _ _ (by simp) h
  induction hr with
  | here => exact .here
  | self h _ ih => exact .self (old h) ih
  | up h _ ih => exact .up (old h) ih
  | entry h hn hrest ih =>
    rcases hn with hn | hn
    · rw [hrest.of_file hn, hn] at hdir
      cases hdir
    · exact .entry (old h) (Or.inr (old hn)) ih
  | link h hn _ ih => exact .link (old h) (hS _ _ (by simp) hn) ih

/-- With one more link to follow, the same place is found. -/
theorem walk_succ {S : Shape N} {left : ℕ} {d : List N} {cs : List (Comp N)} {r : List N × ℕ}
    (hr : walk S left d cs = some r) : walk S (left + 1) d cs = some (r.1, r.2 + 1) := by
  rw [walk_eq_some_iff] at hr ⊢
  induction hr with
  | here => exact .here
  | self h _ ih => exact .self h ih
  | up h _ ih => exact .up h ih
  | entry h hn _ ih => exact .entry h hn ih
  | link h hn _ ih => exact .link h hn ih

theorem walk_none_of_le {S : Shape N} {left left' : ℕ} (hle : left ≤ left') {d : List N} {cs : List (Comp N)}
    (h : walk S left' d cs = none) : walk S left d cs = none := by
  induction left', hle using Nat.le_induction with
  | base => exact h
  | succ k _ ih =>
    apply ih
    by_contra hne
    obtain ⟨r, hr⟩ := Option.ne_none_iff_exists'.mp hne
    rw [walk_succ hr] at h
    cases h

/-- In a tree a lookup that succeeds leads to a node. -/
theorem walk_exists {S : Shape N} (root : S [] = some .dir)
    (parent : ∀ d n, S (d ++ [n]) ≠ none → S d = some .dir)
    {left : ℕ} {d : List N} {cs : List (Comp N)} {r : List N × ℕ} (hd : S d ≠ none)
    (hr : walk S left d cs = some r) : S r.1 ≠ none := by
  rw [walk_eq_some_iff] at hr
  induction hr with
  | here => exact hd
  | self _ _ ih => exact ih hd
  | @up left d cs _ _ ih =>
    apply ih
    rcases List.eq_nil_or_concat d with rfl | ⟨d', n, rfl⟩
    · simp [root]
    · rw [List.concat_eq_append] at hd ⊢
      simp [parent _ _ hd]
  | entry _ hn _ ih =>
    apply ih
    rcases hn with hn | hn <;> simp [hn]
  | @link left d n cs target _ _ _ ih =>
    apply ih
    rw [PathName.start]
    split_ifs
    · simp [root]
    · exact hd

/-- **A new link is no help to its own target.** Where the target is not found
without the link, nothing is found through the link either: the lookup comes
back to it until no link is left. -/
theorem walk_insert_none {S S' : Shape N} {e : List N} {m : N} {target : PathName N}
    (hS : S (e ++ [m]) = none) (hS' : S' = Function.update S (e ++ [m]) (some (.link target)))
    {left : ℕ} {d : List N} {cs : List (Comp N)} (hcs : walk S left d cs = none)
    (ht : ∀ j < left, walk S j (target.start e) target.comps = none) (cs' : List (Comp N)) :
    walk S' left d (cs ++ cs') = none := by
  have old : ∀ l k, S l = some k → S' l = some k := by
    intro l k hl
    rw [hS', Function.update_of_ne (by rintro rfl; rw [hS] at hl; cases hl), hl]
  induction left using Nat.strong_induction_on generalizing d cs cs' with
  | _ left ih =>
    induction d, cs using scan_induct S with
    | nil d => simp at hcs
    | stuck d c cs h =>
      rw [List.cons_append]
      apply walk_stuck
      by_cases hd : d = e ++ [m]
      · rw [hS', hd, Function.update_self]
        simp
      · rwa [hS', Function.update_of_ne hd]
    | self d cs h ihc =>
      rw [walk_self _ _ h] at hcs
      rw [List.cons_append, walk_self _ _ (old _ _ h), ihc hcs]
    | up d cs h ihc =>
      rw [walk_up _ _ h] at hcs
      rw [List.cons_append, walk_up _ _ (old _ _ h), ihc hcs]
    | absent d n cs h hn =>
      rw [List.cons_append]
      by_cases hd : d ++ [n] = e ++ [m]
      · -- the lookup meets the new link
        have hlink : S' (d ++ [n]) = some (.link target) := by rw [hS', hd, Function.update_self]
        obtain ⟨rfl, -⟩ := List.append_inj' hd rfl
        cases left with
        | zero => exact walk_link_zero _ hlink
        | succ j =>
          rw [walk_link _ _ (old _ _ h) hlink]
          exact ih j (Nat.lt_succ_self j) (ht j (Nat.lt_succ_self j)) (fun i hi => ht i (by omega)) _
      · apply walk_absent
        rwa [hS', Function.update_of_ne hd]
    | entry d n cs h hn ihc =>
      rw [walk_entry _ _ h hn] at hcs
      rw [List.cons_append, walk_entry _ _ (old _ _ h) (hn.imp (old _ _) (old _ _)), ihc hcs]
    | link d n cs target' h hn =>
      rw [List.cons_append]
      cases left with
      | zero => exact walk_link_zero _ (old _ _ hn)
      | succ j =>
        rw [walk_link _ _ h hn] at hcs
        rw [walk_link _ _ (old _ _ h) (old _ _ hn), ← List.append_assoc]
        exact ih j (Nat.lt_succ_self j) hcs (fun i hi => ht i (by omega)) _

end Walk

end FileTree
