import TextrpBriij.Types.Tokens
import TextrpBriij.Util.StreamChangeCache

/-! # Rooms with updates since a token

The sliding sync handler asks which of some rooms may have had events since a token. The answer
is taken from the stream change cache, or from a table that background jobs fill.
-/
namespace TextrpBriij.Stream
open TextrpBriij.Types Util List

/-- An object that gives its result when it is awaited. Like any object without a length or a
truth value of its own it is true. -/
structure Coroutine (α : Type) where
  awaited : α

def Coroutine.truthy {α : Type} (_ : Coroutine α) : Bool := true

structure BackgroundUpdater where
  allDone : Bool
  currentBackgroundUpdate : Option String
  backgroundUpdates : List String

def BackgroundUpdater.hasCompletedBackgroundUpdates (u : BackgroundUpdater) : Bool :=
  if u.allDone then true
  else if (u.currentBackgroundUpdate.getD "") ≠ "" then false
  else u.backgroundUpdates.isEmpty

def BackgroundUpdater.haveCompletedBackgroundUpdates (u : BackgroundUpdater)
    (updateNames : List String) : Bool :=
  if u.allDone then true
  else if u.hasCompletedBackgroundUpdates then true
  else (u.backgroundUpdates.filter (· ∈ updateNames)).isEmpty

/-- A row of `sliding_sync_joined_rooms`. -/
structure SlidingSyncJoinedRoom where
  roomId : String
  eventStreamOrdering : ℤ

structure StreamStore where
  eventsStreamCache : StreamChangeCache
  updates : BackgroundUpdater
  hasFinishedSlidingSyncBackgroundJobs : Bool
  slidingSyncJoinedRooms : List SlidingSyncJoinedRoom

def StreamStore.haveFinishedSlidingSyncBackgroundJobs (store : StreamStore) : Coroutine Bool :=
  ⟨if store.hasFinishedSlidingSyncBackgroundJobs then true
    else store.updates.haveCompletedBackgroundUpdates
      ["sliding_sync_prefill_joined_rooms_to_recalculate_table_bg_update",
        "sliding_sync_joined_rooms_bg_update","sliding_sync_membership_snapshots_bg_update"]⟩

def StreamStore.roomsInTable (store : StreamStore) (roomIds : List String) (pos : ℤ) : List String :=
  ((batchIter roomIds 1000).flatMap fun batch =>
    (store.slidingSyncJoinedRooms.filter fun row => row.roomId ∈ batch ∧
      row.eventStreamOrdering > pos).map (·.roomId)).dedup

def StreamStore.getRoomsThatHaveUpdatesSinceSlidingSyncTable (store : StreamStore)
    (roomIds : List String) (fromKey : RoomStreamToken) : List String :=
  if fromKey.stream ≥ store.eventsStreamCache.getEarliestKnownPosition then
    store.eventsStreamCache.getEntitiesChanged roomIds fromKey.stream 1
  else if ¬store.haveFinishedSlidingSyncBackgroundJobs.truthy then roomIds
  else store.roomsInTable roomIds fromKey.stream

/-- The position of an event, and its room. -/
structure PersistedEvent where
  roomId : String
  instanceName : String
  stream : ℤ

/-- The event was persisted after the token, by the position of its writer. -/
def PersistedEvent.After (e : PersistedEvent) (token : RoomStreamToken) : Prop :=
  token.toAbstractMultiWriterStreamToken.getStreamPosForInstance e.instanceName < e.stream

def HasEventAfter (events : List PersistedEvent) (roomId : String) (token : RoomStreamToken) : Prop :=
  ∃ e ∈ events, e.roomId = roomId ∧ e.After token

/-- The changes that the cache has to know. -/
def ChangedAt (events : List PersistedEvent) (roomId : String) (pos : ℤ) : Prop :=
  ∃ e ∈ events, e.roomId = roomId ∧ e.stream = pos

/-- A room has its latest event in the table. -/
def Tabled (rows : List SlidingSyncJoinedRoom) (events : List PersistedEvent) (roomId : String) : Prop :=
  ∃ row ∈ rows, row.roomId = roomId ∧ (∃ e ∈ events, e.roomId = roomId ∧ e.stream = row.eventStreamOrdering) ∧
    ∀ e ∈ events, e.roomId = roomId → e.stream ≤ row.eventStreamOrdering

variable {store : StreamStore} {events : List PersistedEvent} {roomIds : List String}
  {token : RoomStreamToken} {e : PersistedEvent}

theorem PersistedEvent.After.stream_lt (h : e.After token) : token.stream < e.stream := by
  have hle : token.stream ≤ token.toAbstractMultiWriterStreamToken.getStreamPosForInstance e.instanceName :=
    token.ahead.base_le_value e.instanceName
  unfold PersistedEvent.After at h
  omega

theorem mem_roomsInTable {roomId : String} {pos : ℤ} : roomId ∈ store.roomsInTable roomIds pos ↔
    roomId ∈ roomIds ∧ ∃ row ∈ store.slidingSyncJoinedRooms, row.roomId = roomId ∧
      pos < row.eventStreamOrdering := by
  have hbatch := fun a => @mem_batches String 1000 (by omega) a roomIds.length roomIds le_rfl
  unfold StreamStore.roomsInTable
  simp only [mem_dedup,mem_flatMap,mem_map,mem_filter,decide_eq_true_eq]
  constructor
  · rintro ⟨batch,hin,row,⟨hrow,hmem,hpos⟩,rfl⟩
    exact ⟨(hbatch _).mpr ⟨batch,hin,hmem⟩,row,hrow,rfl,hpos⟩
  · rintro ⟨hroom,row,hrow,rfl,hpos⟩
    obtain ⟨batch,hin,hmem⟩ := (hbatch _).mp hroom
    exact ⟨batch,hin,row,⟨hrow,hmem,hpos⟩,rfl⟩

/-- The rooms are found from the cache after its earliest position, and from the table only if
it has them: the background jobs are not waited for. -/
theorem sliding_sync_rooms_complete_iff (store : StreamStore) (events : List PersistedEvent)
    (hcache : store.eventsStreamCache.Valid (ChangedAt events)) (roomIds : List String)
    (htable : store.haveFinishedSlidingSyncBackgroundJobs.awaited = true →
      ∀ roomId ∈ roomIds, Tabled store.slidingSyncJoinedRooms events roomId)
    (token : RoomStreamToken) :
    (∀ roomId ∈ roomIds, HasEventAfter events roomId token →
      roomId ∈ store.getRoomsThatHaveUpdatesSinceSlidingSyncTable roomIds token) ↔
      store.eventsStreamCache.getEarliestKnownPosition ≤ token.stream ∨
      store.haveFinishedSlidingSyncBackgroundJobs.awaited = true ∨
      ∀ roomId ∈ roomIds, HasEventAfter events roomId token →
        ∃ row ∈ store.slidingSyncJoinedRooms, row.roomId = roomId ∧
          token.stream < row.eventStreamOrdering := by
  unfold StreamStore.getRoomsThatHaveUpdatesSinceSlidingSyncTable
  by_cases hknown : token.stream ≥ store.eventsStreamCache.getEarliestKnownPosition
  · rw [if_pos hknown]
    refine iff_of_true ?_ (.inl hknown)
    intro roomId hroom hafter
    obtain ⟨e,he,rfl,hpos⟩ := hafter
    exact StreamChangeCache.mem_getEntitiesChanged hcache hroom ⟨e,he,rfl,rfl⟩ hpos.stream_lt
  · simp only [if_neg hknown,Coroutine.truthy,not_true_eq_false,if_false,mem_roomsInTable]
    constructor
    · intro h
      refine .inr (.inr ?_)
      intro roomId hroom hafter
      exact (h roomId hroom hafter).2
    · intro h roomId hroom hafter
      refine ⟨hroom,?_⟩
      rcases h with hpos | hfinished | hrows
      · exact absurd hpos hknown
      · obtain ⟨row,hrow,hrowRoom,-,hlatest⟩ := htable hfinished roomId hroom
        obtain ⟨e,he,heRoom,hpos⟩ := hafter
        have hle := hlatest e he heRoom
        have hlt := hpos.stream_lt
        exact ⟨row,hrow,hrowRoom,by omega⟩
      · exact hrows roomId hroom hafter

/-! A server that was started after the only event of a room. -/

def onlyEvent : List PersistedEvent := [⟨"!r","master",5⟩]

def restartedStore (finished : Bool) (rows : List SlidingSyncJoinedRoom) : StreamStore :=
  ⟨.new 10 100,⟨false,none,["sliding_sync_joined_rooms_bg_update"]⟩,finished,rows⟩

def tokenAt (pos : ℤ) : RoomStreamToken := ⟨⟨pos,∅,SparseClock.ahead_empty pos⟩,none,by simp⟩

theorem restartedStore_valid (finished : Bool) (rows : List SlidingSyncJoinedRoom) :
    (restartedStore finished rows).eventsStreamCache.Valid (ChangedAt onlyEvent) := by
  constructor
  · intro entity pos
    simp [restartedStore,StreamChangeCache.new,StreamChangeCache.entitiesAt]
  · intro entity pos hchanged hpos
    obtain ⟨e,he,-,rfl⟩ := hchanged
    obtain rfl := mem_singleton.mp he
    have hlt : (10 : ℤ) < 5 := hpos
    omega

theorem sliding_sync_rooms_complete_finished :
    "!r" ∈ (restartedStore true [⟨"!r",5⟩]).getRoomsThatHaveUpdatesSinceSlidingSyncTable
      ["!r"] (tokenAt 3) := by
  have hevent : HasEventAfter onlyEvent "!r" (tokenAt 3) :=
    ⟨⟨"!r","master",5⟩,by simp [onlyEvent],rfl,show (3 : ℤ) < 5 by decide⟩
  refine (sliding_sync_rooms_complete_iff _ onlyEvent (restartedStore_valid _ _) _ ?_ _).mpr
    (.inr (.inl rfl)) "!r" (mem_singleton.mpr rfl) hevent
  intro _ roomId hroom
  obtain rfl := mem_singleton.mp hroom
  exact ⟨⟨"!r",5⟩,by simp [restartedStore],rfl,by simp [onlyEvent],by simp [onlyEvent]⟩

/-- The background jobs have not finished, and a room that is not in the table yet is left out. -/
theorem sliding_sync_room_left_out :
    (restartedStore false []).eventsStreamCache.Valid (ChangedAt onlyEvent) ∧
      (restartedStore false []).haveFinishedSlidingSyncBackgroundJobs.awaited = false ∧
      HasEventAfter onlyEvent "!r" (tokenAt 3) ∧
      (restartedStore false []).getRoomsThatHaveUpdatesSinceSlidingSyncTable ["!r"] (tokenAt 3) =
        [] :=
  ⟨restartedStore_valid _ _,rfl,⟨⟨"!r","master",5⟩,by simp [onlyEvent],rfl,show (3 : ℤ) < 5 by decide⟩,rfl⟩

end TextrpBriij.Stream
