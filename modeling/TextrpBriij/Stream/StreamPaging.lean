import TextrpBriij.Stream.Bounds

/-! # Pages of a room by stream ordering

A token of several writers stands for a position of each writer. The pages fetch by one bound for
all writers, and filter what they fetch by the tokens. After a page, the token is a plain
position, which no longer tells the writers apart.
-/
namespace TextrpBriij.Stream
open TextrpBriij.Types Api Paging List AbstractMultiWriterStreamToken

/-- The table of events, whose stream orderings are unique, and a cache that knows its changes. -/
structure EventStream where
  rows : List EventRow
  engine : DatabaseEngine
  eventsStreamCache : Util.StreamChangeCache
  unique : (rows.map (·.streamOrdering)).Nodup
  cached : eventsStreamCache.Valid fun roomId pos =>
    ∃ row ∈ rows, row.roomId = roomId ∧ row.streamOrdering = pos

variable (store : EventStream) (it : State.Iteration) (roomId : String) (direction : Direction)

/-- The rows of the query, in order. The empty column name has no value of its own. -/
def EventStream.select (fromKey : RoomStreamToken) (toKey : Option RoomStreamToken) : List EventRow :=
  let bounds := generatePaginationBounds direction (some fromKey) toKey
  orderBy (fun row => direction.along row.streamOrdering) (store.rows.filter fun row =>
    row.roomId = roomId ∧ ¬row.outlier ∧
      generatePaginationWhereClause direction bounds.1 bounds.2 store.engine 0 row.streamOrdering)

def keptByStream (fromKey : RoomStreamToken) (toKey : Option RoomStreamToken) (row : EventRow) : Bool :=
  filterResultsByStream (if direction = .backwards then toKey else some fromKey)
    (if direction = .backwards then some fromKey else toKey) row.instanceName row.streamOrdering

def EventStream.hasChanged (fromKey : RoomStreamToken) (toKey : Option RoomStreamToken) : Bool :=
  match direction,toKey with
  | .forwards,_ => store.eventsStreamCache.hasEntityChanged roomId fromKey.stream
  | .backwards,some toKey => store.eventsStreamCache.hasEntityChanged roomId toKey.stream
  | .backwards,none => true

def EventStream.paginateRoomEventsByStreamOrdering (limit : ℕ) (fromKey : RoomStreamToken)
    (toKey : Option RoomStreamToken) : Except Error (List EventRow × RoomStreamToken × Bool) :=
  if fromKey.topological ≠ none ∨ toKey.any (·.topological ≠ none) then
    throw (.raised "AssertionError")
  else if direction = .forwards ∧ toKey.any (isBeforeOrEq it · fromKey) then
    pure ([],toKey.getD fromKey,false)
  else if direction = .backwards ∧ toKey.any (isBeforeOrEq it fromKey ·) then
    pure ([],toKey.getD fromKey,false)
  else
    if ¬store.hasChanged roomId direction fromKey toKey then pure ([],toKey.getD fromKey,false)
    else
      let fetchedRows := (store.select roomId direction fromKey toKey).take (2 * limit)
      let rows := fetchedRows.filter (keptByStream direction fromKey toKey)
      let limited : Bool := fetchedRows.length ≥ 2 * limit ∨ rows.length > limit
      let rows := rows.take limit
      let nextKey := match rows.getLast? with
        | some row => generateNextToken direction none row.streamOrdering
        | none => toKey.getD fromKey
      pure (rows,nextKey,limited)

/-- The event is after a token, and another is not before it, by the position of its writer. -/
def EventRow.After (row : EventRow) (token : RoomStreamToken) : Prop :=
  token.toAbstractMultiWriterStreamToken.getStreamPosForInstance
    (row.instanceName.getD "master") < row.streamOrdering

instance {older : RoomStreamToken} {row : EventRow} : Decidable (row.After older) :=
  inferInstanceAs (Decidable (_ < _))

/-- The events of the room between the tokens, in the order of the direction. -/
def EventStream.between (older newer : RoomStreamToken) : List EventRow :=
  orderBy (fun row => direction.along row.streamOrdering) (store.rows.filter fun row =>
    row.roomId = roomId ∧ ¬row.outlier ∧ row.After older ∧ ¬row.After newer)

/-- Repeated calls return, their pages together are the events between the tokens, and a page is
empty only when none of these is left. -/
def EventStream.PagesComplete (limit : ℕ) (older newer : RoomStreamToken) : Prop :=
  ∃ pages, Paged (store.paginateRoomEventsByStreamOrdering it roomId direction limit ·
      (some (direction.stop older newer))) (direction.start older newer) pages ∧
    pages.flatten = store.between roomId direction older newer ∧
    ∀ before after, pages = before ++ [] :: after → before.flatten = store.between roomId direction older newer

def EventStream.ofRoom : List EventRow :=
  orderBy (fun row => direction.along row.streamOrdering)
    (store.rows.filter fun row => row.roomId = roomId ∧ ¬row.outlier)

theorem nodup_keys : (store.rows.map fun row => direction.along row.streamOrdering).Nodup := by
  have hmap := store.unique.map (along_injective direction)
  rwa [map_map] at hmap

variable {store it roomId} {dir : Direction} {limit : ℕ} {older newer fromKey toKey : RoomStreamToken}
  {row : EventRow}

theorem orderBy_ofRoom (p : EventRow → Bool) :
    orderBy (fun row => dir.along row.streamOrdering) (store.rows.filter fun row =>
      row.roomId = roomId ∧ ¬row.outlier ∧ p row) = (store.ofRoom roomId dir).filter p := by
  have hsplit : (store.rows.filter fun row => row.roomId = roomId ∧ ¬row.outlier ∧ p row) =
      (store.rows.filter fun row => row.roomId = roomId ∧ ¬row.outlier).filter p := by
    rw [filter_filter]
    apply filter_congr
    intro row _
    cases p row <;> simp
  unfold EventStream.ofRoom
  rw [hsplit,orderBy_filter]
  exact (nodup_keys store dir).sublist (filter_sublist.map _)

theorem ofRoom_increasing : Increasing (fun row : EventRow => dir.along row.streamOrdering)
    (store.ofRoom roomId dir) :=
  orderBy_increasing ((nodup_keys store dir).sublist (filter_sublist.map _))

def InBounds (older newer : RoomStreamToken) (row : EventRow) : Bool :=
  older.stream < row.streamOrdering ∧
    row.streamOrdering ≤ newer.toAbstractMultiWriterStreamToken.getMaxStreamPos

def Kept (older newer : RoomStreamToken) (row : EventRow) : Bool :=
  row.After older ∧ ¬row.After newer

theorem inBounds_iff : InBounds older newer row ↔ older.stream < row.streamOrdering ∧
    row.streamOrdering ≤ newer.toAbstractMultiWriterStreamToken.getMaxStreamPos :=
  decide_eq_true_iff

theorem kept_iff : Kept older newer row ↔ row.After older ∧ ¬row.After newer :=
  decide_eq_true_iff

section fetching
variable (store roomId) (limit : ℕ) (fromKey toKey : RoomStreamToken)

def EventStream.fetchable : List EventRow :=
  (store.ofRoom roomId direction).filter
    (InBounds (direction.start fromKey toKey) (direction.stop fromKey toKey))

def keptBetween : EventRow → Bool :=
  Kept (direction.start fromKey toKey) (direction.stop fromKey toKey)

def EventStream.pageOf : List EventRow :=
  page limit (keptBetween direction fromKey toKey) (store.fetchable roomId direction fromKey toKey)

def EventStream.moreAfter : Bool :=
  more limit (keptBetween direction fromKey toKey) (store.fetchable roomId direction fromKey toKey)

end fetching

theorem select_eq (hfrom : fromKey.topological = none) (hto : toKey.topological = none) :
    store.select roomId dir fromKey (some toKey) = store.fetchable roomId dir fromKey toKey := by
  rw [EventStream.fetchable,← orderBy_ofRoom]
  unfold EventStream.select
  dsimp only
  congr 1
  apply filter_congr
  intro row _
  have hbounds : generatePaginationWhereClause dir
      (generatePaginationBounds dir (some fromKey) (some toKey)).1
      (generatePaginationBounds dir (some fromKey) (some toKey)).2 store.engine 0
      row.streamOrdering =
      InBounds (dir.start fromKey toKey) (dir.stop fromKey toKey) row := by
    cases dir with
    | forwards =>
      change _ = InBounds fromKey toKey row
      simp [generatePaginationBounds,generatePaginationWhereClause,makeGenericSqlBound,hfrom,hto,
        Bound.holds,InBounds]
    | backwards =>
      change _ = InBounds toKey fromKey row
      simp [generatePaginationBounds,generatePaginationWhereClause,makeGenericSqlBound,hfrom,hto,
        Bound.holds,InBounds,Bool.and_comm]
  rw [hbounds]

theorem keptByStream_eq : keptByStream dir fromKey (some toKey) =
    keptBetween dir fromKey toKey := by
  funext row
  cases dir <;>
    simp [keptByStream,filterResultsByStream,keptBetween,Kept,EventRow.After,Direction.start,Direction.stop]

theorem between_eq : store.between roomId dir older newer =
    (store.ofRoom roomId dir).filter (Kept older newer) := by
  rw [← orderBy_ofRoom]
  simp [EventStream.between,Kept]

theorem inBounds_of_kept (h : Kept older newer row) : InBounds older newer row := by
  simp only [Kept,InBounds,EventRow.After,decide_eq_true_eq,not_lt] at h ⊢
  have holder := older.toAbstractMultiWriterStreamToken.stream_le_pos (row.instanceName.getD "master")
  have hnewer := @pos_le_max newer.toAbstractMultiWriterStreamToken (row.instanceName.getD "master")
  omega

theorem kept_eq_false (h : isBeforeOrEq it newer older) : Kept older newer row = false := by
  have hle := (isBeforeOrEq_iff it).mp h
  have hpos := hle.2 (row.instanceName.getD "master")
  simp only [clock] at hpos
  rw [Bool.eq_false_iff]
  intro hkept
  have hboth := kept_iff.mp hkept
  unfold EventRow.After at hboth
  omega

theorem hasChanged_eq : store.hasChanged roomId dir fromKey (some toKey) =
    store.eventsStreamCache.hasEntityChanged roomId (dir.start fromKey toKey).stream := by
  cases dir <;> rfl

theorem ofRoom_inBounds_eq_nil (h : store.eventsStreamCache.hasEntityChanged roomId older.stream = false) :
    (store.ofRoom roomId dir).filter (InBounds older newer) = [] := by
  rw [filter_eq_nil_iff]
  intro row hrow hbounds
  have hmem := orderBy_perm.mem_iff.mp hrow
  rw [mem_filter,decide_eq_true_eq] at hmem
  rw [InBounds,decide_eq_true_eq] at hbounds
  have hchanged := Util.StreamChangeCache.hasEntityChanged_of_changed store.cached
    ⟨row,hmem.1,hmem.2.1,rfl⟩ hbounds.1
  rw [h] at hchanged
  cases hchanged

def nextKey (direction : Direction) (toKey : RoomStreamToken) (rows : List EventRow) : RoomStreamToken :=
  match rows.getLast? with
  | some row => generateNextToken direction none row.streamOrdering
  | none => toKey

theorem fetchable_increasing : Increasing (fun row : EventRow => dir.along row.streamOrdering)
    (store.fetchable roomId dir fromKey toKey) :=
  ofRoom_increasing.filter _

def Finished (it : State.Iteration) (direction : Direction) (fromKey toKey : RoomStreamToken) : Prop :=
  isBeforeOrEq it (direction.stop fromKey toKey) (direction.start fromKey toKey) = true

/-- A page takes from the rows in the bounds those that the tokens keep. It is limited if there
may be more, or else there is none at all. -/
theorem paginate_spec (hfrom : fromKey.topological = none) (hto : toKey.topological = none) :
    ∃ limited, store.paginateRoomEventsByStreamOrdering it roomId dir limit fromKey
        (some toKey) = .ok (store.pageOf roomId dir limit fromKey toKey,
          nextKey dir toKey (store.pageOf roomId dir limit fromKey toKey),limited) ∧
      (limited = store.moreAfter roomId dir limit fromKey toKey ∨
        limited = false ∧ store.pageOf roomId dir limit fromKey toKey = []) ∧
      (Finished it dir fromKey toKey → limited = false ∧
        store.pageOf roomId dir limit fromKey toKey = []) := by
  unfold EventStream.paginateRoomEventsByStreamOrdering
  have hlive : ¬(fromKey.topological ≠ none ∨
      (some toKey).any (fun token => decide (token.topological ≠ none))) := by
    simp [hfrom,hto]
  rw [if_neg hlive]
  have hnone : (store.fetchable roomId dir fromKey toKey).filter
      (keptBetween dir fromKey toKey) = [] →
      store.pageOf roomId dir limit fromKey toKey = [] := by
    intro hempty
    exact prefix_nil.mp (hempty ▸ page_prefix)
  by_cases hbefore : Finished it dir fromKey toKey
  · have hempty : store.pageOf roomId dir limit fromKey toKey = [] := by
      apply hnone
      rw [filter_eq_nil_iff]
      intro row _
      simp [keptBetween,kept_eq_false hbefore]
    refine ⟨false,?_,.inr ⟨rfl,hempty⟩,fun _ => ⟨rfl,hempty⟩⟩
    rw [hempty]
    cases dir with
    | forwards =>
      have h : isBeforeOrEq it toKey fromKey := hbefore
      simp [h,nextKey]
    | backwards =>
      have h : isBeforeOrEq it fromKey toKey := hbefore
      simp [h,nextKey]
  · have hforwards : ¬(dir = .forwards ∧ (some toKey).any (isBeforeOrEq it · fromKey)) := by
      rintro ⟨rfl,h⟩
      exact hbefore h
    have hbackwards : ¬(dir = .backwards ∧ (some toKey).any (isBeforeOrEq it fromKey ·)) := by
      rintro ⟨rfl,h⟩
      exact hbefore h
    rw [if_neg hforwards,if_neg hbackwards,hasChanged_eq]
    cases hchanged : store.eventsStreamCache.hasEntityChanged roomId (dir.start fromKey toKey).stream with
    | false =>
      have hempty : store.fetchable roomId dir fromKey toKey = [] :=
        ofRoom_inBounds_eq_nil hchanged
      have hpage : store.pageOf roomId dir limit fromKey toKey = [] :=
        hnone (by rw [hempty]; rfl)
      refine ⟨false,?_,.inr ⟨rfl,hpage⟩,fun h => absurd h hbefore⟩
      rw [hpage]
      simp [nextKey]
    | true =>
      rw [select_eq hfrom hto,keptByStream_eq]
      refine ⟨_,rfl,.inl ?_,fun h => absurd h hbefore⟩
      congr 1
      simp

def keptByStop (direction : Direction) (toKey : RoomStreamToken) (row : EventRow) : Bool :=
  match direction with
  | .forwards => ¬row.After toKey
  | .backwards => row.After toKey

theorem keptByStop_of_kept (h : keptBetween dir fromKey toKey row) : keptByStop dir toKey row := by
  cases dir with
  | forwards =>
    have hboth : row.After fromKey ∧ ¬row.After toKey := kept_iff.mp h
    simpa [keptByStop] using hboth.2
  | backwards =>
    have hboth : row.After toKey ∧ ¬row.After fromKey := kept_iff.mp h
    simpa [keptByStop] using hboth.1

theorem plain_positions {token : RoomStreamToken} (h : token.instanceMap = ∅) :
    (∀ w, token.toAbstractMultiWriterStreamToken.getStreamPosForInstance w = token.stream) ∧
      token.toAbstractMultiWriterStreamToken.getMaxStreamPos = token.stream := by
  constructor
  · intro w
    unfold getStreamPosForInstance SparseClock.value
    rw [h]
    rfl
  · unfold getMaxStreamPos State.values
    rw [h]
    rfl

theorem kept_eq_keptByStop (hplain : fromKey.instanceMap = ∅)
    (hrow : row ∈ store.fetchable roomId dir fromKey toKey) :
    keptBetween dir fromKey toKey row = keptByStop dir toKey row := by
  obtain ⟨hpos,hmax⟩ := plain_positions hplain
  have hbounds := (mem_filter.mp hrow).2
  cases dir with
  | forwards =>
    change Kept fromKey toKey row = _
    have hafter : row.After fromKey := by
      unfold EventRow.After
      rw [hpos]
      exact (inBounds_iff.mp hbounds).1
    simp [Kept,keptByStop,hafter]
  | backwards =>
    change InBounds toKey fromKey row at hbounds
    change Kept toKey fromKey row = _
    have hafter : ¬row.After fromKey := by
      have hle := (inBounds_iff.mp hbounds).2
      unfold EventRow.After
      rw [hpos]
      omega
    simp [Kept,keptByStop,hafter]

theorem fetchable_next {last : EventRow} (hlast : last ∈ store.fetchable roomId dir fromKey toKey) :
    store.fetchable roomId dir (generateNextToken dir none last.streamOrdering) toKey =
      (store.fetchable roomId dir fromKey toKey).filter fun row =>
        dir.along last.streamOrdering < dir.along row.streamOrdering := by
  have hbounds := (mem_filter.mp hlast).2
  unfold EventStream.fetchable
  rw [filter_filter]
  apply filter_congr
  intro row _
  rw [Bool.eq_iff_iff]
  cases dir with
  | forwards =>
    have hin := inBounds_iff.mp (show InBounds fromKey toKey last from hbounds)
    change InBounds (generateNextToken .forwards none last.streamOrdering) toKey row ↔
      (decide (last.streamOrdering < row.streamOrdering) && InBounds fromKey toKey row)
    have hstream : (generateNextToken .forwards none last.streamOrdering).stream = last.streamOrdering := rfl
    rw [Bool.and_eq_true,decide_eq_true_eq,inBounds_iff,inBounds_iff]
    omega
  | backwards =>
    have hin := inBounds_iff.mp (show InBounds toKey fromKey last from hbounds)
    change InBounds toKey (generateNextToken .backwards none last.streamOrdering) row ↔
      (decide (-last.streamOrdering < -row.streamOrdering) && InBounds toKey fromKey row)
    have hmax : (generateNextToken .backwards none
        last.streamOrdering).toAbstractMultiWriterStreamToken.getMaxStreamPos =
        last.streamOrdering - 1 := rfl
    rw [Bool.and_eq_true,decide_eq_true_eq,inBounds_iff,inBounds_iff]
    omega

section calls
variable (store it roomId limit toKey)

def EventStream.call (fromKey : RoomStreamToken) : Except Error (List EventRow × RoomStreamToken × Bool) :=
  store.paginateRoomEventsByStreamOrdering it roomId direction limit fromKey (some toKey)

/-- The calls from a token return the rows, and nothing after an empty page. -/
def EventStream.Returns (fromKey : RoomStreamToken) (rows : List EventRow) : Prop :=
  ∃ pages, Paged (store.call it roomId direction limit toKey) fromKey pages ∧
    pages.flatten = rows ∧ ∀ before after, pages = before ++ [] :: after → after.flatten = []

end calls

theorem returns_of_last {t : RoomStreamToken} {rows : List EventRow}
    (h : store.call it roomId dir limit toKey fromKey = .ok (rows,t,false)) :
    store.Returns it roomId dir limit toKey fromKey rows := by
  refine ⟨_,.last h,by simp,?_⟩
  intro before after hpages
  have hlength := congrArg length hpages
  rw [length_singleton,length_append,length_cons] at hlength
  have hafter : after = [] := length_eq_zero_iff.mp (by omega)
  rw [hafter]
  rfl

theorem returns_toKey (hto : toKey.topological = none) :
    store.Returns it roomId dir limit toKey toKey [] := by
  have hfinished : Finished it dir toKey toKey := by
    cases dir <;> exact (isBeforeOrEq_iff it).mpr le_rfl
  obtain ⟨limited,hcall,-,hlast⟩ :=
    @paginate_spec store it roomId dir limit toKey toKey hto hto
  obtain ⟨rfl,hpage⟩ := hlast hfinished
  rw [hpage] at hcall
  exact returns_of_last hcall

theorem returns_cons {rest : List EventRow} (hfrom : fromKey.topological = none)
    (hto : toKey.topological = none)
    (hlast : store.moreAfter roomId dir limit fromKey toKey = false → rest = [])
    (hnone : store.pageOf roomId dir limit fromKey toKey = [] → rest = [])
    (hmore : store.moreAfter roomId dir limit fromKey toKey → ∀ last,
      (store.pageOf roomId dir limit fromKey toKey).getLast? = some last →
      store.Returns it roomId dir limit toKey
        (generateNextToken dir none last.streamOrdering) rest) :
    store.Returns it roomId dir limit toKey fromKey
      (store.pageOf roomId dir limit fromKey toKey ++ rest) := by
  obtain ⟨limited,hcall,hlimited,-⟩ :=
    @paginate_spec store it roomId dir limit fromKey toKey hfrom hto
  generalize store.pageOf roomId dir limit fromKey toKey = rows at *
  cases limited with
  | false =>
    have hrest : rest = [] := by
      rcases hlimited with hend | ⟨-,hrows⟩
      · exact hlast hend.symm
      · exact hnone hrows
    rw [hrest,append_nil]
    exact returns_of_last hcall
  | true =>
    cases hgetLast : rows.getLast? with
    | none =>
      have hrows := getLast?_eq_none_iff.mp hgetLast
      obtain ⟨pages,hpages,hflatten,-⟩ :=
        @returns_toKey store it roomId dir limit toKey hto
      have hnext : nextKey dir toKey rows = toKey := by simp [nextKey,hgetLast]
      rw [hnext] at hcall
      refine ⟨_,.more hcall hpages,by simp [hflatten,hnone hrows],?_⟩
      intro before after hcut
      -- All pages are empty.
      have hall : (rows :: pages).flatten = [] := by simp [hflatten,hrows]
      rw [hcut] at hall
      simp only [flatten_append, append_eq_nil_iff] at hall
      exact hall.2
    | some last =>
      have hmoreAfter : store.moreAfter roomId dir limit fromKey toKey := by
        rcases hlimited with hend | ⟨hend,-⟩
        · exact hend.symm
        · cases hend
      obtain ⟨pages,hpages,hflatten,hquiet⟩ := hmore hmoreAfter last hgetLast
      have hnext : nextKey dir toKey rows = generateNextToken dir none last.streamOrdering := by
        simp [nextKey,hgetLast]
      rw [hnext] at hcall
      refine ⟨_,.more hcall hpages,by simp [hflatten],?_⟩
      intro before after hcut
      cases before with
      | nil =>
        rw [nil_append,cons.injEq] at hcut
        rw [hcut.1] at hgetLast
        cases hgetLast
      | cons first before =>
        rw [cons_append,cons.injEq] at hcut
        exact hquiet before after hcut.2

theorem returns_scannedFrom (hfrom : fromKey.topological = none) (hto : toKey.topological = none) :
    store.Returns it roomId dir limit toKey fromKey
      (scannedFrom (fun row => dir.along row.streamOrdering) limit
        (keptBetween dir fromKey toKey) (keptByStop dir toKey)
        (store.fetchable roomId dir fromKey toKey)) := by
  -- The rows that are left get fewer with each page.
  generalize hn : (store.fetchable roomId dir fromKey toKey).length = n
  induction n using Nat.strong_induction_on generalizing fromKey with
  | _ n ih =>
    have hinc := @fetchable_increasing store roomId dir fromKey toKey
    have hsingle := @returns_cons store it roomId dir limit fromKey toKey [] hfrom hto
      (fun _ => rfl) (fun _ => rfl)
    rw [append_nil] at hsingle
    unfold scannedFrom
    rw [← EventStream.moreAfter]
    cases hmore : store.moreAfter roomId dir limit fromKey toKey with
    | false =>
      exact hsingle (by simp [hmore])
    | true =>
      rcases page_cases limit (keptBetween dir fromKey toKey) hinc with
        ⟨hnil,hnone⟩ | ⟨pre,last,post,hrows,hkept,hpage,hlast,hpost,hpostInc⟩
      · simp only [hnone]
        have hempty : store.pageOf roomId dir limit fromKey toKey = [] := hnil
        rw [hempty] at hsingle
        exact hsingle (by simp)
      · simp only [hlast]
        rw [hpost]
        apply returns_cons hfrom hto
        · simp [hmore]
        · intro hnil
          rw [EventStream.pageOf] at hnil
          rw [hnil] at hlast
          cases hlast
        · intro _ last' hlast'
          cases hlast.symm.trans hlast'
          have hmem : last ∈ store.fetchable roomId dir fromKey toKey := by simp [hrows]
          have hnext := (fetchable_next hmem).trans hpost
          have hlength := congrArg length hrows
          rw [length_append,length_cons] at hlength
          have hfewer : post.length < n := by omega
          have hreturns := @ih post.length hfewer
            (generateNextToken dir none last.streamOrdering) rfl (by rw [hnext])
          have hagree : ∀ row ∈ store.fetchable roomId dir
              (generateNextToken dir none last.streamOrdering) toKey,
              keptBetween dir (generateNextToken dir none last.streamOrdering) toKey
                row = keptByStop dir toKey row :=
            fun row hrow => kept_eq_keptByStop rfl hrow
          have hfuel : post.length ≤ (store.fetchable roomId dir fromKey toKey).length := by omega
          rw [scannedFrom_congr hagree,hnext,scannedFrom_self hpostInc hfuel] at hreturns
          exact hreturns

/-- The rows of the room in the bounds of the tokens, in the order of the direction, of which
the tokens keep some. From the start on and after each row that is kept, the next such row is
one of the next two. And no row after one that is kept is dropped by the token at the start. -/
structure EventStream.PagesSafely (store : EventStream) (roomId : String) (direction : Direction)
    (older newer : RoomStreamToken) : Prop where
  near : Spaced 2 (Kept older newer) ((store.ofRoom roomId direction).filter (InBounds older newer))
  settled : ∀ pre last post,
    (store.ofRoom roomId direction).filter (InBounds older newer) = pre ++ last :: post →
    Kept older newer last = true → ∀ row ∈ post,
    keptByStop direction (direction.stop older newer) row = true → Kept older newer row = true

theorem fetchable_start : store.fetchable roomId dir (dir.start older newer)
    (dir.stop older newer) = (store.ofRoom roomId dir).filter (InBounds older newer) := by
  cases dir <;> rfl

theorem keptBetween_start : keptBetween dir (dir.start older newer)
    (dir.stop older newer) = Kept older newer := by
  cases dir <;> rfl

theorem pagesComplete_iff (holder : older.topological = none) (hnewer : newer.topological = none) :
    store.PagesComplete it roomId dir limit older newer ↔
      scannedFrom (fun row => dir.along row.streamOrdering) limit (Kept older newer)
        (keptByStop dir (dir.stop older newer))
        ((store.ofRoom roomId dir).filter (InBounds older newer)) =
        ((store.ofRoom roomId dir).filter (InBounds older newer)).filter (Kept older newer) := by
  have hstart : (dir.start older newer).topological = none := by
    cases dir <;> assumption
  have hstop : (dir.stop older newer).topological = none := by
    cases dir <;> assumption
  obtain ⟨pages,hpages,hflatten,hquiet⟩ :=
    @returns_scannedFrom store it roomId dir limit _ _ hstart hstop
  rw [fetchable_start,keptBetween_start] at hflatten
  have hbetween : store.between roomId dir older newer =
      ((store.ofRoom roomId dir).filter (InBounds older newer)).filter (Kept older newer) := by
    rw [between_eq,filter_filter]
    apply filter_congr
    intro row _
    rw [Bool.eq_iff_iff,Bool.and_eq_true]
    exact ⟨fun h => ⟨h,inBounds_of_kept h⟩,fun h => h.1⟩
  unfold EventStream.PagesComplete
  rw [hbetween,← hflatten]
  constructor
  · intro h
    obtain ⟨pages',hpages',hflatten',-⟩ := h
    rw [hpages.unique hpages']
    exact hflatten'
  · intro h
    refine ⟨pages,hpages,h,?_⟩
    intro before after hcut
    have hafter := hquiet before after hcut
    rw [← h,hcut]
    simp [hafter]

theorem pagesSafely_of_plain (holder : older.instanceMap = ∅) (hnewer : newer.instanceMap = ∅) :
    store.PagesSafely roomId dir older newer := by
  obtain ⟨hpos,-⟩ := plain_positions holder
  obtain ⟨hnewerPos,hmax⟩ := plain_positions hnewer
  have hkept : ∀ row ∈ (store.ofRoom roomId dir).filter (InBounds older newer), Kept older newer row := by
    intro row hrow
    have hbounds := inBounds_iff.mp (mem_filter.mp hrow).2
    rw [kept_iff]
    unfold EventRow.After
    rw [hpos,hnewerPos]
    omega
  refine ⟨spaced_of_forall hkept,?_⟩
  intro pre last post hrows _ row hrow _
  exact hkept row (by rw [hrows]; simp [hrow])

/-! Events of two writers, of whom the second is ahead. -/

def eventAt (eventId instanceName : String) (streamOrdering : ℤ) : EventRow :=
  ⟨eventId,"!r",some instanceName,1,streamOrdering,false⟩

def twoWriters : EventStream where
  rows := [eventAt "$1" "a" 7,eventAt "$2" "a" 8,eventAt "$3" "b" 9]
  engine := .postgres
  eventsStreamCache := .new 100 10
  unique := by decide
  cached := by
    constructor
    · intro entity pos
      simp [Util.StreamChangeCache.new,Util.StreamChangeCache.entitiesAt]
    · intro entity pos hchanged hpos
      obtain ⟨row,hrow,-,rfl⟩ := hchanged
      have hlater : (100 : ℤ) < row.streamOrdering := hpos
      have hbounds : ∀ row ∈ [eventAt "$1" "a" 7,eventAt "$2" "a" 8,eventAt "$3" "b" 9],
          row.streamOrdering ≤ 100 := by decide
      exact absurd (hbounds row hrow) (not_le.mpr hlater)

def secondAhead : RoomStreamToken :=
  ⟨⟨6,(∅ : AuthChain.Dict String ℤ).insert "b" 9,by decide⟩,none,by decide⟩

end TextrpBriij.Stream
