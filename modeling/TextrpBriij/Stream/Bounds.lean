import TextrpBriij.Foundation.Paging
import TextrpBriij.Types.TokenLattice
import TextrpBriij.Util.StreamChangeCache

/-! # Bounds of a page of events

A page of events is read from the table of events by a condition on the orderings, which is made
from the tokens, and then filtered once more against the tokens. Conditions are modelled by
their truth value for a row, in the form in which they are written for each database engine.
-/
namespace TextrpBriij.Stream
open TextrpBriij.Types List

inductive Direction where
  | forwards
  | backwards
  deriving DecidableEq

inductive DatabaseEngine where
  | postgres
  | sqlite

structure EventRow where
  eventId : String
  roomId : String
  instanceName : Option String
  topologicalOrdering : ℤ
  streamOrdering : ℤ
  outlier : Bool

inductive Bound where
  | gt
  | lt
  | ge
  | le

/-- The value stands on the left and the column on the right. -/
def Bound.holds {α : Type} [LinearOrder α] : Bound → α → α → Bool
  | .gt,value,column => value > column
  | .lt,value,column => value < column
  | .ge,value,column => value ≥ column
  | .le,value,column => value ≤ column

def Bound.strict : Bound → Bound
  | .gt => .gt
  | .lt => .lt
  | .ge => .gt
  | .le => .lt

def makeGenericSqlBound (bound : Bound) (values : Option ℤ × ℤ) (engine : DatabaseEngine)
    (column1 column2 : ℤ) : Bool :=
  match values.1 with
  | none => bound.holds values.2 column2
  | some val1 =>
    match engine with
    | .postgres => bound.holds (toLex (val1,values.2)) (toLex (column1,column2))
    | .sqlite => bound.strict.holds val1 column1 ||
        (val1 == column1 && bound.holds values.2 column2)

variable (direction : Direction)

def generatePaginationWhereClause (fromToken toToken : Option (Option ℤ × ℤ))
    (engine : DatabaseEngine) (column1 column2 : ℤ) : Bool :=
  (fromToken.all fun values =>
    makeGenericSqlBound (if direction = .backwards then .ge else .lt) values engine column1 column2) &&
  (toToken.all fun values =>
    makeGenericSqlBound (if direction = .backwards then .lt else .ge) values engine column1 column2)

/-- The two bounds of `generate_pagination_bounds`. The order is that of the direction. -/
def generatePaginationBounds (fromToken toToken : Option RoomStreamToken) :
    Option (Option ℤ × ℤ) × Option (Option ℤ × ℤ) :=
  (fromToken.map fun token =>
      match token.topological with
      | some topological => (some topological,token.stream)
      | none => (none,if direction = .backwards then token.getMaxStreamPos else token.stream),
    toToken.map fun token =>
      match token.topological with
      | some topological => (some topological,token.stream)
      | none => (none,if direction = .backwards then token.stream else token.getMaxStreamPos))

def generateNextToken (lastTopoOrdering : Option ℤ)
    (lastStreamOrdering : ℤ) : RoomStreamToken :=
  let lastStreamOrdering := if direction = .backwards then lastStreamOrdering - 1
    else lastStreamOrdering
  ⟨⟨lastStreamOrdering,∅,SparseClock.ahead_empty _⟩,lastTopoOrdering,by simp⟩

/-- The tokens have no topological part, which the caller asserts. -/
def filterResultsByStream (lowerToken upperToken : Option RoomStreamToken)
    (instanceName : Option String) (streamOrdering : ℤ) : Bool :=
  let instanceName := instanceName.getD "master"
  (lowerToken.all fun token =>
    ¬streamOrdering ≤ token.toAbstractMultiWriterStreamToken.getStreamPosForInstance instanceName) &&
  (upperToken.all fun token =>
    ¬token.toAbstractMultiWriterStreamToken.getStreamPosForInstance instanceName < streamOrdering)

/-- Historical tokens are compared by their pairs, live tokens by the position of the writer. -/
def filterResults (lowerToken upperToken : Option RoomStreamToken) (instanceName : Option String)
    (topologicalOrdering streamOrdering : ℤ) : Bool :=
  let instanceName := instanceName.getD "master"
  let eventHistoricalTuple := toLex (topologicalOrdering,streamOrdering)
  (lowerToken.all fun token =>
    match token.topological with
    | some topological => ¬eventHistoricalTuple ≤ toLex (topological,token.stream)
    | none => ¬streamOrdering ≤
        token.toAbstractMultiWriterStreamToken.getStreamPosForInstance instanceName) &&
  (upperToken.all fun token =>
    match token.topological with
    | some topological => ¬toLex (topological,token.stream) < eventHistoricalTuple
    | none => ¬token.toAbstractMultiWriterStreamToken.getStreamPosForInstance instanceName <
        streamOrdering)

/-- `is_before_or_eq`, which looks at the streams alone. -/
def isBeforeOrEq (it : State.Iteration) (a b : RoomStreamToken) : Bool :=
  a.toAbstractMultiWriterStreamToken.isBeforeOrEq b.toAbstractMultiWriterStreamToken it

def Direction.along : Direction → ℤ → ℤ
  | .forwards,n => n
  | .backwards,n => -n

theorem along_injective : Function.Injective direction.along := by
  intro m n h
  cases direction with
  | forwards => exact h
  | backwards =>
    have hneg : -m = -n := h
    omega

/-- The older and the newer of two tokens, as the start and the end of pages. -/
def Direction.start {τ : Type} : Direction → τ → τ → τ
  | .forwards,older,_ => older
  | .backwards,_,newer => newer

def Direction.stop {τ : Type} : Direction → τ → τ → τ
  | .forwards,_,newer => newer
  | .backwards,older,_ => older

section positions
variable {token : AbstractMultiWriterStreamToken} {w : String}

theorem pos_le_max : token.getStreamPosForInstance w ≤ token.getMaxStreamPos := by
  unfold AbstractMultiWriterStreamToken.getStreamPosForInstance
    AbstractMultiWriterStreamToken.getMaxStreamPos SparseClock.value
  cases hlookup : token.instanceMap.lookup w with
  | none =>
    cases hmax : (State.values token.instanceMap).max? with
    | none => exact le_rfl
    | some greatest =>
      obtain ⟨entry,hentry,hvalue⟩ := mem_map.mp (max?_mem hmax)
      have hlt := token.ahead entry.1 entry.2 (AList.mem_lookup_iff.mpr hentry)
      rw [hvalue] at hlt
      exact hlt.le
  | some pos =>
    have hmem : pos ∈ State.values token.instanceMap :=
      mem_map.mpr ⟨⟨w,pos⟩,AList.mem_lookup_iff.mp hlookup,rfl⟩
    rw [max?_eq_some_max (ne_nil_of_mem hmem)]
    exact le_max_of_mem hmem

end positions
end TextrpBriij.Stream
