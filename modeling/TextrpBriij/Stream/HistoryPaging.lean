import TextrpBriij.Stream.Bounds

/-! # Pages of the history of a room

Historical tokens are ordered by their topological part first. The pages are read and filtered in
that order, but the check for an empty range compares the stream parts of the tokens alone.
-/
namespace TextrpBriij.Stream
open TextrpBriij.Types Api Paging List

/-- The table of events, in which no two events have the same orderings. -/
structure EventHistory where
  rows : List EventRow
  engine : DatabaseEngine
  distinct : (rows.map fun row => (row.topologicalOrdering,row.streamOrdering)).Nodup

variable (store : EventHistory) (it : State.Iteration) (roomId : String) (direction : Direction)

def historyKey (row : EventRow) : ℤ ×ₗ ℤ :=
  toLex (direction.along row.topologicalOrdering,direction.along row.streamOrdering)

/-- The rows of the query, in order. There is no event filter. -/
def EventHistory.select (fromToken : RoomStreamToken) (toToken : Option RoomStreamToken) : List EventRow :=
  let bounds := generatePaginationBounds direction (some fromToken) toToken
  orderBy (historyKey direction) (store.rows.filter fun row =>
    row.outlier = false ∧ row.roomId = roomId ∧
      generatePaginationWhereClause direction bounds.1 bounds.2 store.engine
        row.topologicalOrdering row.streamOrdering)

def bailsEarly (fromToken : RoomStreamToken) (toToken : Option RoomStreamToken) : Bool :=
  (direction = .forwards ∧ toToken.any (isBeforeOrEq it · fromToken)) ∨
    (direction = .backwards ∧ toToken.any (isBeforeOrEq it fromToken ·))

def EventHistory.paginateTxn (limit : ℕ) (fromToken : RoomStreamToken)
    (toToken : Option RoomStreamToken) : List EventRow × RoomStreamToken × Bool :=
  if bailsEarly it direction fromToken toToken then ([],toToken.getD fromToken,false)
  else
    let fetchedRows := (store.select roomId direction fromToken toToken).take (limit * 2)
    let rows := fetchedRows.filter fun row =>
      filterResults (if direction = .backwards then toToken else some fromToken)
        (if direction = .backwards then some fromToken else toToken) row.instanceName
        row.topologicalOrdering row.streamOrdering
    let limited : Bool := fetchedRows.length ≥ limit * 2 ∨ rows.length > limit
    let rows := rows.take limit
    let nextToken := match rows.getLast? with
      | some row => generateNextToken direction (some row.topologicalOrdering) row.streamOrdering
      | none => toToken.getD fromToken
    (rows,nextToken,limited)

/-- The events that are returned are those of the rows, loaded by their IDs. -/
def EventHistory.paginateRoomEventsByTopologicalOrdering (limit : ℕ)
    (toKey : Option RoomStreamToken) (fromKey : RoomStreamToken) :
    Except Error (List EventRow × RoomStreamToken × Bool) :=
  if bailsEarly it direction fromKey toKey then pure ([],toKey.getD fromKey,false)
  else pure (store.paginateTxn it roomId direction limit fromKey toKey)

def EventRow.AfterHistorical (row : EventRow) (token : RoomStreamToken) : Prop :=
  toLex (token.topological.getD 0,token.stream) < toLex (row.topologicalOrdering,row.streamOrdering)

instance {row : EventRow} {token : RoomStreamToken} : Decidable (row.AfterHistorical token) :=
  inferInstanceAs (Decidable (_ < _))

def IsBetween (fromKey : RoomStreamToken) (toKey : Option RoomStreamToken) (row : EventRow) : Bool :=
  match direction with
  | .forwards => row.AfterHistorical fromKey ∧ ∀ token ∈ toKey, ¬row.AfterHistorical token
  | .backwards => ¬row.AfterHistorical fromKey ∧ ∀ token ∈ toKey, row.AfterHistorical token

/-- The events of the room between the tokens, in the order of the direction. -/
def EventHistory.between (fromKey : RoomStreamToken) (toKey : Option RoomStreamToken) : List EventRow :=
  orderBy (historyKey direction) (store.rows.filter fun row =>
    row.outlier = false ∧ row.roomId = roomId ∧ IsBetween direction fromKey toKey row)

/-- Repeated calls return, and their pages together are the events between the tokens. -/
def EventHistory.PagesComplete (limit : ℕ) (fromKey : RoomStreamToken)
    (toKey : Option RoomStreamToken) : Prop :=
  ∃ pages, Paged (store.paginateRoomEventsByTopologicalOrdering it roomId direction limit toKey) fromKey pages ∧
    pages.flatten = store.between roomId direction fromKey toKey

variable {store it roomId} {dir : Direction} {limit : ℕ} {fromKey : RoomStreamToken}
  {toKey : Option RoomStreamToken} {row : EventRow}
  {events : List EventRow}

theorem makeGenericSqlBound_eq (bound : Bound) (val1 val2 : ℤ) (engine : DatabaseEngine)
    (column1 column2 : ℤ) : makeGenericSqlBound bound (some val1,val2) engine column1 column2 =
      bound.holds (toLex (val1,val2)) (toLex (column1,column2)) := by
  cases engine with
  | postgres => rfl
  | sqlite =>
    rw [Bool.eq_iff_iff]
    cases bound <;> simp [makeGenericSqlBound,Bound.holds,Bound.strict,Prod.Lex.toLex_lt_toLex,
        Prod.Lex.toLex_le_toLex,@eq_comm _ column1 val1]

section tokens

variable (hfrom : fromKey.topological.isSome) (hto : ∀ token ∈ toKey, token.topological.isSome)
include hfrom hto

theorem whereClause_eq : generatePaginationWhereClause dir
      (generatePaginationBounds dir (some fromKey) toKey).1
      (generatePaginationBounds dir (some fromKey) toKey).2 store.engine
      row.topologicalOrdering row.streamOrdering = IsBetween dir fromKey toKey row := by
  obtain ⟨topological,hfrom⟩ := Option.isSome_iff_exists.mp hfrom
  cases toKey with
  | none =>
    cases dir <;>
      simp [generatePaginationWhereClause,generatePaginationBounds,hfrom,makeGenericSqlBound_eq,
        Bound.holds,IsBetween,EventRow.AfterHistorical]
  | some token =>
    obtain ⟨toTopological,htoken⟩ := Option.isSome_iff_exists.mp (hto token rfl)
    cases dir <;> simp [generatePaginationWhereClause,generatePaginationBounds,hfrom,htoken,
        makeGenericSqlBound_eq,Bound.holds,IsBetween,EventRow.AfterHistorical]

theorem filterResults_of_isBetween (h : IsBetween dir fromKey toKey row) :
    filterResults (if dir = .backwards then toKey else some fromKey)
      (if dir = .backwards then some fromKey else toKey) row.instanceName
      row.topologicalOrdering row.streamOrdering := by
  obtain ⟨topological,hfrom⟩ := Option.isSome_iff_exists.mp hfrom
  cases toKey with
  | none =>
    cases dir <;> simpa [filterResults,hfrom,IsBetween,EventRow.AfterHistorical] using h
  | some token =>
    obtain ⟨toTopological,htoken⟩ := Option.isSome_iff_exists.mp (hto token rfl)
    cases dir <;> simpa [filterResults,hfrom,htoken,IsBetween,EventRow.AfterHistorical,and_comm] using h

theorem select_eq_between :
    store.select roomId dir fromKey toKey = store.between roomId dir fromKey toKey := by
  unfold EventHistory.select EventHistory.between
  dsimp only
  congr 1
  apply filter_congr
  intro row _
  rw [whereClause_eq hfrom hto]

end tokens

theorem nodup_historyKeys (store : EventHistory) (dir : Direction) :
    (store.rows.map (historyKey dir)).Nodup := by
  have hinj : Function.Injective fun place : ℤ × ℤ =>
      toLex (dir.along place.1,dir.along place.2) := by
    intro a b h
    have hpair := Prod.ext_iff.mp (toLex.injective h)
    exact Prod.ext (along_injective dir hpair.1) (along_injective dir hpair.2)
  have hmap := store.distinct.map hinj
  rwa [map_map] at hmap

theorem between_increasing : Increasing (historyKey dir) (store.between roomId dir fromKey toKey) :=
  orderBy_increasing ((nodup_historyKeys store dir).sublist (filter_sublist.map _))

def nextToken (direction : Direction) (row : EventRow) : RoomStreamToken :=
  generateNextToken direction (some row.topologicalOrdering) row.streamOrdering

theorem paginate_read (hlimit : 1 ≤ limit) (hfrom : fromKey.topological.isSome)
    (hto : ∀ token ∈ toKey, token.topological.isSome)
    (hread : bailsEarly it dir fromKey toKey = false)
    (hevents : store.between roomId dir fromKey toKey = events) :
    store.paginateRoomEventsByTopologicalOrdering it roomId dir limit toKey fromKey =
      .ok (events.take limit,
        ((events.take limit).getLast?.map (nextToken dir)).getD (toKey.getD fromKey),
        decide (limit < events.length)) := by
  unfold EventHistory.paginateRoomEventsByTopologicalOrdering EventHistory.paginateTxn
  simp only [hread,Bool.false_eq_true,if_false,select_eq_between hfrom hto,hevents]
  have hkept : (events.take (limit * 2)).filter
      (fun row => filterResults (if dir = .backwards then toKey else some fromKey)
        (if dir = .backwards then some fromKey else toKey) row.instanceName
        row.topologicalOrdering row.streamOrdering) = events.take (limit * 2) := by
    rw [filter_eq_self]
    intro row hrow
    rw [← hevents] at hrow
    have hmem := orderBy_perm.mem_iff.mp (mem_of_mem_take hrow)
    rw [mem_filter,decide_eq_true_eq] at hmem
    exact filterResults_of_isBetween hfrom hto hmem.2.2.2
  rw [hkept,take_take,min_eq_left (by omega)]
  congr 3
  · cases (events.take limit).getLast? <;> rfl
  · rw [length_take]
    apply decide_eq_decide.mpr
    omega

theorem paginate_bails (hbails : bailsEarly it dir fromKey toKey) :
    store.paginateRoomEventsByTopologicalOrdering it roomId dir limit toKey fromKey =
      .ok ([],toKey.getD fromKey,false) := by
  unfold EventHistory.paginateRoomEventsByTopologicalOrdering
  rw [if_pos hbails]
  rfl

theorem isBetween_next {later : EventRow} (hrow : IsBetween dir fromKey toKey row) :
    IsBetween dir (nextToken dir row) toKey later ↔
      historyKey dir row < historyKey dir later ∧ IsBetween dir fromKey toKey later := by
  cases dir with
  | forwards =>
    simp only [IsBetween,decide_eq_true_eq] at hrow ⊢
    constructor
    · intro h
      exact ⟨h.1,lt_trans hrow.1 h.1,h.2⟩
    · intro h
      exact ⟨h.1,h.2.2⟩
  | backwards =>
    have hnext : ¬later.AfterHistorical (nextToken .backwards row) ↔
        historyKey .backwards row < historyKey .backwards later := by
      change ¬toLex (row.topologicalOrdering,row.streamOrdering - 1) <
        toLex (later.topologicalOrdering,later.streamOrdering) ↔
        toLex (-row.topologicalOrdering,-row.streamOrdering) <
        toLex (-later.topologicalOrdering,-later.streamOrdering)
      simp only [Prod.Lex.toLex_lt_toLex]
      omega
    have hbefore : historyKey .backwards row < historyKey .backwards later →
        ¬later.AfterHistorical fromKey := by
      intro hlt
      have hnot := hrow
      simp only [IsBetween,decide_eq_true_eq,EventRow.AfterHistorical, Prod.Lex.toLex_lt_toLex] at hnot
      simp only [historyKey,Direction.along,Prod.Lex.toLex_lt_toLex] at hlt
      simp only [EventRow.AfterHistorical,Prod.Lex.toLex_lt_toLex]
      omega
    simp only [IsBetween,decide_eq_true_eq] at hrow ⊢
    rw [hnext]
    constructor
    · intro h
      exact ⟨h.1,hbefore h.1,h.2⟩
    · intro h
      exact ⟨h.1,h.2.2⟩

theorem between_next (hrow : row ∈ store.between roomId dir fromKey toKey) :
    store.between roomId dir (nextToken dir row) toKey =
      (store.between roomId dir fromKey toKey).filter fun later =>
        historyKey dir row < historyKey dir later := by
  have hmem := orderBy_perm.mem_iff.mp hrow
  rw [mem_filter,decide_eq_true_eq] at hmem
  unfold EventHistory.between
  rw [← orderBy_filter ((nodup_historyKeys store dir).sublist (filter_sublist.map _)),filter_filter]
  congr 1
  apply filter_congr
  intro later _
  rw [Bool.eq_iff_iff,Bool.and_eq_true,decide_eq_true_eq,decide_eq_true_eq,decide_eq_true_eq,
    isBetween_next hmem.2.2.2]
  tauto

def pageStart (direction : Direction) (limit : ℕ) (fromKey : RoomStreamToken)
    (events : List EventRow) : ℕ → RoomStreamToken
  | 0 => fromKey
  | number + 1 => (events[(number + 1) * limit - 1]?.map (nextToken direction)).getD fromKey

/-- Each page that has an event to return is read. -/
def PagesRead (it : State.Iteration) (direction : Direction) (limit : ℕ)
    (fromKey : RoomStreamToken) (toKey : Option RoomStreamToken) (events : List EventRow) : Prop :=
  ∀ number, number * limit < events.length →
    bailsEarly it direction (pageStart direction limit fromKey events number) toKey = false

theorem between_next_eq_drop (hlimit : 1 ≤ limit) {last : EventRow}
    (hevents : store.between roomId dir fromKey toKey = events)
    (hlast : events[limit - 1]? = some last) :
    store.between roomId dir (nextToken dir last) toKey = events.drop limit := by
  have hinc := @between_increasing store roomId dir fromKey toKey
  rw [hevents] at hinc
  rw [between_next (hevents ▸ mem_of_getElem? hlast),hevents]
  obtain ⟨hindex,hvalue⟩ := List.getElem?_eq_some_iff.mp hlast
  have hsplit : events = events.take (limit - 1) ++ last :: events.drop limit := by
    have hdrop := drop_eq_getElem_cons hindex
    rw [hvalue,show limit - 1 + 1 = limit by omega] at hdrop
    rw [← hdrop,take_append_drop]
  rw [hsplit] at hinc
  have hafter := hinc.filter_lt
  rwa [← hsplit] at hafter

theorem pagesComplete_step (hlimit : 1 ≤ limit) (hfrom : fromKey.topological.isSome)
    (hto : ∀ token ∈ toKey, token.topological.isSome)
    (hevents : store.between roomId dir fromKey toKey = events) :
    store.PagesComplete it roomId dir limit fromKey toKey ↔
      events = [] ∨
      bailsEarly it dir fromKey toKey = false ∧
        (events.length ≤ limit ∨ ∃ last,
          events[limit - 1]? = some last ∧
          store.PagesComplete it roomId dir limit (nextToken dir last) toKey) := by
  have hone : ∀ {rows token}, store.paginateRoomEventsByTopologicalOrdering it roomId dir
      limit toKey fromKey = .ok (rows,token,false) →
      (store.PagesComplete it roomId dir limit fromKey toKey ↔
        rows = events) := by
    intro rows token hcall
    constructor
    · intro h
      obtain ⟨pages,hpages,hflatten⟩ := h
      rw [hpages.unique (.last hcall),hevents] at hflatten
      simpa using hflatten
    · intro h
      exact ⟨_,.last hcall,by simpa [hevents] using h⟩
  cases hbails : bailsEarly it dir fromKey toKey with
  | true =>
    rw [hone (paginate_bails hbails)]
    constructor
    · intro h
      exact .inl h.symm
    · intro h
      exact (h.resolve_right (by simp)).symm
  | false =>
    have hcall := paginate_read hlimit hfrom hto hbails hevents
    by_cases hshort : events.length ≤ limit
    · rw [decide_eq_false (Nat.not_lt.mpr hshort)] at hcall
      rw [hone hcall]
      simp [hshort]
    · have hindex : limit - 1 < events.length := by omega
      obtain ⟨last,hlast⟩ : ∃ last, _ = some last := ⟨_,getElem?_eq_getElem hindex⟩
      have hgetLast : (events.take limit).getLast? = some last := by
        rw [getLast?_take,if_neg (by omega),hlast]
        rfl
      rw [decide_eq_true (Nat.not_le.mp hshort),hgetLast] at hcall
      have hne : events ≠ [] := by
        intro hnil
        rw [hnil] at hindex
        cases hindex
      have hnext := between_next_eq_drop hlimit hevents hlast
      simp only [hne,hshort,hlast,false_or,true_and,Option.some.injEq]
      constructor
      · intro h
        obtain ⟨pages,hpages,hflatten⟩ := h
        refine ⟨last,rfl,?_⟩
        cases hpages with
        | last hcall' => cases (Except.ok.inj (hcall.symm.trans hcall'))
        | more hcall' hmore =>
          cases hcall.symm.trans hcall'
          refine ⟨_,hmore,?_⟩
          rw [hnext]
          have hall := (hflatten.trans hevents).trans (take_append_drop limit _).symm
          exact append_cancel_left hall
      · intro h
        obtain ⟨_,rfl,pages,hpages,hflatten⟩ := h
        refine ⟨_,.more hcall hpages,?_⟩
        rw [flatten_cons,hflatten,hnext,take_append_drop,hevents]

theorem pageStart_succ (hlimit : 1 ≤ limit) {last : EventRow}
    (hlast : events[limit - 1]? = some last) {number : ℕ}
    (hnumber : number * limit < (events.drop limit).length) :
    pageStart dir limit fromKey events (number + 1) =
      pageStart dir limit (nextToken dir last) (events.drop limit) number := by
  cases number with
  | zero => simp [pageStart,hlast]
  | succ number =>
    have hpos : 1 ≤ (number + 1) * limit := Nat.mul_pos (Nat.succ_pos _) hlimit
    have hindex : limit + ((number + 1) * limit - 1) = (number + 1 + 1) * limit - 1 := by
      rw [Nat.succ_mul (number + 1)]
      omega
    have hinside : (number + 1) * limit - 1 < (events.drop limit).length := by omega
    simp only [pageStart]
    rw [← hindex,← getElem?_drop,getElem?_eq_getElem hinside]
    rfl

def backfilled : EventHistory where
  rows := [⟨"$1","!r",none,2,2,false⟩]
  engine := .sqlite
  distinct := by decide

def historicalToken (topological stream : ℤ) : RoomStreamToken :=
  generateNextToken .forwards (some topological) stream

end TextrpBriij.Stream
