import TextrpBriij.Foundation.SparseClock
import TextrpBriij.State.StateMap

/-! # Stream tokens of streams with several writers

A token has a position for every writer: a default position, and a map of the writers that are
ahead of it. The constructors refuse other maps, so every token has this property.
-/
namespace TextrpBriij.Types
open Api
open AuthChain (Dict)
open State (Iteration)

structure AbstractMultiWriterStreamToken where
  stream : ℤ
  instanceMap : Dict String ℤ
  ahead : SparseClock.Ahead stream instanceMap

namespace AbstractMultiWriterStreamToken
variable (self other : AbstractMultiWriterStreamToken)

def getStreamPosForInstance (instanceName : String) : ℤ :=
  SparseClock.value self.stream self.instanceMap instanceName

def getMaxStreamPos : ℤ := (State.values self.instanceMap).max?.getD self.stream

/-- The attributes that `copy_and_advance` replaces: the stream and the instance map. -/
def copyAndAdvance (it : Iteration) : ℤ × Dict String ℤ :=
  let maxStream := max self.stream other.stream
  let instances := it.order 20 (self.instanceMap.keys ∪ other.instanceMap.keys)
  let instanceMap := SparseClock.tabulate instances fun instanceName =>
    max (self.getStreamPosForInstance instanceName) (other.getStreamPosForInstance instanceName)
  -- Filter out any redundant entries.
  let instanceMap := SparseClock.collect (it.order 21 instanceMap.entries) fun s =>
    if s > maxStream then some s else none
  (maxStream,instanceMap)

def isBeforeOrEq (it : Iteration) : Bool :=
  if self.stream > other.stream then false
  else
    (it.order 22 (self.instanceMap.keys ∪ other.instanceMap.keys)).all fun instanceName =>
      ¬self.getStreamPosForInstance instanceName > other.getStreamPosForInstance instanceName

def boundStreamToken (it : Iteration) (maxStream : ℤ) : ℤ × Dict String ℤ :=
  let minPos := min self.stream maxStream
  (minPos,SparseClock.collect (it.order 23 self.instanceMap.entries) fun s =>
    if min s maxStream > minPos then some (min s maxStream) else none)

/-- `==` on the attributes that the classes share. -/
def eq : Bool :=
  self.stream = other.stream ∧ SparseClock.same self.instanceMap other.instanceMap

theorem eq_iff {a b : AbstractMultiWriterStreamToken} : a.eq b ↔
    a.stream = b.stream ∧ ∀ w, a.instanceMap.lookup w = b.instanceMap.lookup w := by
  rw [eq,decide_eq_true_eq,SparseClock.same_iff]

end AbstractMultiWriterStreamToken

structure MultiWriterStreamToken extends AbstractMultiWriterStreamToken

namespace MultiWriterStreamToken

def new (stream : ℤ) (instanceMap : Dict String ℤ) : Except Error MultiWriterStreamToken :=
  if h : SparseClock.Ahead stream instanceMap then pure ⟨⟨stream,instanceMap,h⟩⟩
  else throw (.raised "ValueError")

theorem new_eq_ok {stream : ℤ} {instanceMap : Dict String ℤ} (h : SparseClock.Ahead stream instanceMap) :
    new stream instanceMap = .ok ⟨⟨stream,instanceMap,h⟩⟩ := by
  simp [new,h]

variable (self other : MultiWriterStreamToken)

def copyAndAdvance (it : Iteration) : Except Error MultiWriterStreamToken :=
  let attrs := self.toAbstractMultiWriterStreamToken.copyAndAdvance other.toAbstractMultiWriterStreamToken it
  new attrs.1 attrs.2

def boundStreamToken (it : Iteration) (maxStream : ℤ) : Except Error MultiWriterStreamToken :=
  let attrs := self.toAbstractMultiWriterStreamToken.boundStreamToken it maxStream
  new attrs.1 attrs.2

end MultiWriterStreamToken

/-- The truth value of the topological part: zero counts as not set. -/
def isSet (topological : Option ℤ) : Bool := topological.any fun n => n ≠ 0

structure RoomStreamToken extends AbstractMultiWriterStreamToken where
  topological : Option ℤ
  notBoth : ¬(instanceMap.entries ≠ [] ∧ isSet topological)

namespace RoomStreamToken

def new (topological : Option ℤ) (stream : ℤ) (instanceMap : Dict String ℤ) : Except Error RoomStreamToken :=
  if hboth : instanceMap.entries ≠ [] ∧ isSet topological then throw (.raised "ValueError")
  else if h : SparseClock.Ahead stream instanceMap then
    pure ⟨⟨stream,instanceMap,h⟩,topological,hboth⟩
  else throw (.raised "ValueError")

theorem new_eq_ok {topological : Option ℤ} {stream : ℤ} {instanceMap : Dict String ℤ}
    (hboth : ¬(instanceMap.entries ≠ [] ∧ isSet topological))
    (h : SparseClock.Ahead stream instanceMap) :
    new topological stream instanceMap = .ok ⟨⟨stream,instanceMap,h⟩,topological,hboth⟩ := by
  rw [new,dif_neg hboth,dif_pos h]
  rfl

variable (self other : RoomStreamToken)

def copyAndAdvance (it : Iteration) : Except Error RoomStreamToken :=
  if isSet self.topological ∨ isSet other.topological then throw (.raised "Exception")
  else
    let attrs := self.toAbstractMultiWriterStreamToken.copyAndAdvance other.toAbstractMultiWriterStreamToken it
    new self.topological attrs.1 attrs.2

def getStreamPosForInstance (instanceName : String) : Except Error ℤ :=
  if self.topological = none then
    pure (self.toAbstractMultiWriterStreamToken.getStreamPosForInstance instanceName)
  else throw (.raised "AssertionError")

def boundStreamToken (it : Iteration) (maxStream : ℤ) : Except Error RoomStreamToken :=
  if self.topological = none then
    let attrs := self.toAbstractMultiWriterStreamToken.boundStreamToken it maxStream
    new none attrs.1 attrs.2
  else throw (.raised "AssertionError")

def eq : Bool :=
  self.toAbstractMultiWriterStreamToken.eq other.toAbstractMultiWriterStreamToken ∧
    self.topological = other.topological

theorem eq_iff {a b : RoomStreamToken} : a.eq b ↔ (a.stream = b.stream ∧
    ∀ w, a.instanceMap.lookup w = b.instanceMap.lookup w) ∧ a.topological = b.topological := by
  rw [eq,decide_eq_true_eq,AbstractMultiWriterStreamToken.eq_iff]

end RoomStreamToken
end TextrpBriij.Types
