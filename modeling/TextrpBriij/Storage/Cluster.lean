import TextrpBriij.Storage.LocalWriter

/-! # A cluster of instances on one Postgres sequence

Live instances share the sequence, the `stream_positions` table and the tables of the
stream, and announce their positions to each other over one queue per pair. The
constructor is one step; an instance that dies loses its generator and everything it was
working on.
-/
namespace TextrpBriij.Storage
open Generator

structure Cluster where
  live : AList fun _ : String => Instance
  seq : ℤ
  streamPositions : Positions
  tables : List (List (String × ℤ))
  queue : String × String → List ℤ

inductive Event where
  | start (name : String)
  | crash (name : String)
  | act (name : String) (a : Action)
  | announce (sender receiver : String)
  | deliver (sender receiver : String)
  | persist (name : String) (table : ℕ) (streamId : ℤ)
  | deleteRow (table row : ℕ)
  | updatePositions (name : String)

namespace Cluster

def database (c : Cluster) : Database := ⟨c.streamPositions,c.tables,some c.seq⟩

def replace (c : Cluster) (name : String) (seq : ℤ) (i : Option Instance) : Option Cluster :=
  i.map fun i => { c with live := c.live.insert name i, seq := seq }

def step (writers : List String) (positive : Bool) (c : Cluster) : Event → Option Cluster
  | .start name =>
    if name ∈ c.live then none
    else
      match checkConsistency positive c.database with
      | .error _ => none
      | .ok db =>
        let db := db.deleteStale writers
        some { c with
          live := c.live.insert name ⟨construct name writers positive db,[]⟩
          seq := db.lastValue.getD c.seq
          streamPositions := db.streamPositions }
  | .crash name => if name ∈ c.live then some { c with live := c.live.erase name } else none
  | .act name a =>
    match c.live.lookup name with
    | none => none
    | some i =>
      if a.reported (factorOf positive) = [] ∧ a.ids.Pairwise (· < ·) ∧ ∀ x ∈ a.ids, c.seq < x then
        c.replace name (a.ids.foldl max c.seq) (i.step a)
      else none
  | .announce sender receiver =>
    (c.live.lookup sender).map fun i => { c with
      queue := Function.update c.queue (sender,receiver)
        (c.queue (sender,receiver) ++ [i.gen.getCurrentTokenForWriter sender]) }
  | .deliver sender receiver =>
    match c.queue (sender,receiver), c.live.lookup receiver with
    | m :: ms, some i =>
      { c with queue := Function.update c.queue (sender,receiver) ms }.replace receiver c.seq
        (i.step (.receive sender m))
    | _, _ => none
  | .persist name table streamId =>
    match c.live.lookup name with
    | none => none
    | some i =>
      if streamId ∈ i.gen.unfinishedIds then
        some { c with
          tables := c.tables.modify table ((name,factorOf positive * streamId) :: ·) }
      else none
  | .deleteRow table row => some { c with tables := c.tables.modify table (·.eraseIdx row) }
  | .updatePositions name =>
    match c.live.lookup name with
    | none => none
    | some i =>
      if name ∈ writers then
        some { c with
          streamPositions :=
            c.streamPositions.upsert positive name (i.gen.getCurrentTokenForWriter name) }
      else none

def activeIds (c : Cluster) : List (String × ℤ) :=
  c.live.entries.flatMap fun e => e.2.active.map fun x => (e.1,x)

/-- An instance starts while no active ID is the last value of the sequence (if it takes that
for its own position) or stands in a table, and while every instance with an active ID has a row
in `stream_positions`. -/
def Clear (writers : List String) (positive : Bool) (c : Cluster) : Event → Prop
  | .start name => ∀ b ∈ c.activeIds, (name ∈ writers → b.2 ≠ c.seq) ∧
      b.1 ∈ c.streamPositions ∧ ∀ table ∈ c.tables, ∀ row ∈ table, factorOf positive * row.2 ≠ b.2
  | _ => True

instance (writers : List String) (positive : Bool) (c : Cluster) (e : Event) :
    Decidable (c.Clear writers positive e) := by
  cases e <;> unfold Clear <;> infer_instance

end Cluster

end TextrpBriij.Storage
