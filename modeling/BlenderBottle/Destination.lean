/-
# The distributor: finding a chunk's database

`OpenDb` of `distributor/Destination.py` is to look for an id on one host
after the other. Handler, test and `return` all stand in the body of the loop:
the first host that answers is returned, with or without the id, since `find`
gives a cursor and a cursor is not `''`; and a first host that does not answer
is fatal. So no host but the first is ever asked, and the lookup is right just
when the first host has the id, or does not answer and nobody has it
(`openDb_falls_back_iff`).

The slips of syntax are read as intended. `fatal` ends the process.
-/
import Mathlib.Tactic

namespace BlenderBottle
namespace Destination

/-- A host's database: the ids of its chunks. -/
structure Db where
  chunks : List String
  deriving DecidableEq

/-- What `chunk` is bound to: the empty string, or the cursor of a `find`. -/
inductive Chunk
  | empty
  | cursor (found : List String)
  deriving DecidableEq

/-- `db.chunks.find` by id. -/
def Db.find (db : Db) (id : String) : Chunk := .cursor (db.chunks.filter (· = id))

/-- How a call ends: it returns a database or `None`, or the process ends with
a message. -/
inductive Outcome
  | returned (db : Option Db)
  | fatal (message : String)
  deriving DecidableEq

/-- The message lists all hosts, whichever were tried. -/
def unableToFind (myHosts : List String) (id : String) : String :=
  "Unable to find " ++ id ++ " in any of " ++ ",".intercalate myHosts

/-- The `try` statement: `db` keeps its binding when connecting raises. -/
def tryHost (mongo : String → Option Db) (id host : String) (db : Option Db) : Option Db × Chunk :=
  match mongo host with
  | some db => (some db, db.find id)
  | none => (db, .empty)

/-- `OpenDb`, where `mongo` tells the database of each host that can be
reached. The test and the `return` end the first turn of the loop. -/
def openDb (mongo : String → Option Db) (myHosts : List String) (id : String) : Outcome :=
  match myHosts with
  | [] => .returned none
  | host :: _ =>
    let (db, chunk) := tryHost mongo id host none
    if chunk = .empty then .fatal (unableToFind myHosts id) else .returned db

/-- The host can be reached and has the id. -/
def Has (mongo : String → Option Db) (id host : String) : Prop := ∃ db, mongo host = some db ∧ id ∈ db.chunks

/-- What the lookup is for: a database with the id if any host has it, and
`fatal` just when none has. -/
structure FallsBack (mongo : String → Option Db) (hosts : List String) (id : String) : Prop where
  found : (∃ host ∈ hosts, Has mongo id host) →
    ∃ db, openDb mongo hosts id = .returned (some db) ∧ id ∈ db.chunks
  fatal_iff : (∃ message, openDb mongo hosts id = .fatal message) ↔ ∀ host ∈ hosts, ¬ Has mongo id host

section First

variable {mongo : String → Option Db} {host : String} (rest : List String) (id : String)

theorem openDb_reached {db : Db} (h : mongo host = some db) :
    openDb mongo (host :: rest) id = .returned (some db) := by
  simp [openDb, tryHost, h, Db.find]

theorem openDb_unreached (h : mongo host = none) :
    openDb mongo (host :: rest) id = .fatal (unableToFind (host :: rest) id) := by
  simp [openDb, tryHost, h]

theorem fallsBack_unreached (h : mongo host = none) :
    FallsBack mongo (host :: rest) id ↔ ∀ h ∈ host :: rest, ¬ Has mongo id h := by
  have hopen := openDb_unreached rest id h
  constructor
  · intro hf
    exact hf.fatal_iff.mp ⟨_, hopen⟩
  · intro hnone
    exact ⟨fun ⟨h, hmem, hhas⟩ => absurd hhas (hnone h hmem), iff_of_true ⟨_, hopen⟩ hnone⟩

theorem fallsBack_reached {db : Db} (h : mongo host = some db) :
    FallsBack mongo (host :: rest) id ↔ id ∈ db.chunks := by
  have hopen := openDb_reached rest id h
  have hnotFatal : ¬ ∃ message, openDb mongo (host :: rest) id = .fatal message := by
    rintro ⟨message, hmsg⟩
    rw [hopen] at hmsg
    cases hmsg
  constructor
  · intro hf
    -- someone has the id, since nothing was fatal; so the database returned has it
    have hsome : ∃ h ∈ host :: rest, Has mongo id h := by
      by_contra hnone
      exact hnotFatal (hf.fatal_iff.mpr fun h' hmem hhas => hnone ⟨h', hmem, hhas⟩)
    obtain ⟨db', hdb', hid⟩ := hf.found hsome
    rw [hopen] at hdb'
    cases hdb'
    exact hid
  · intro hid
    exact ⟨fun _ => ⟨db, hopen, hid⟩,
      iff_of_false hnotFatal fun hnone => hnone host List.mem_cons_self ⟨db, h, hid⟩⟩

end First

/-- **Falling back.** A lookup over a list of hosts does what it is for just
when the first host has the id, or cannot be reached and no host has it. -/
theorem openDb_falls_back_iff (mongo : String → Option Db) (host : String) (rest : List String) (id : String) :
    FallsBack mongo (host :: rest) id ↔
      Has mongo id host ∨ (mongo host = none ∧ ∀ h ∈ host :: rest, ¬ Has mongo id h) := by
  cases hm : mongo host with
  | none =>
    have hnot : ¬ Has mongo id host := by
      rintro ⟨db, hdb, -⟩
      rw [hm] at hdb
      cases hdb
    rw [fallsBack_unreached rest id hm, or_iff_right hnot, and_iff_right rfl]
  | some db =>
    rw [fallsBack_reached rest id hm, or_iff_left (by simp), Has, hm]
    simp

/-- A host without the id before the one that has it is returned, and a host
that cannot be reached before it is fatal. -/
theorem openDb_first_only :
    let mongo : String → Option Db := fun host =>
      if host = "a" then some ⟨[]⟩ else if host = "b" then some ⟨["1"]⟩ else none
    openDb mongo ["a", "b"] "1" = .returned (some ⟨[]⟩) ∧
      openDb mongo ["c", "b"] "1" = .fatal "Unable to find 1 in any of c,b" ∧
      Has mongo "1" "b" := by
  intro mongo
  exact ⟨by decide, by decide +kernel, ⟨["1"]⟩, by decide, by decide⟩

end Destination
end BlenderBottle
