import TextrpBriij.SlidingSync.RequiredStateLoops

/-! # The sync configuration of a room

Both ways to build a configuration leave out what a wildcard asks for already. Which entries
are left depends on the order in which they come, and what the entries ask for does not.
-/
namespace TextrpBriij.SlidingSync
open List State

structure RoomSyncConfig where
  timelineLimit : ℤ
  requiredStateMap : RequiredStateMap

variable (m : RequiredStateMap) (type key : String)

/-- The loop that removes a state key from the sets of all types. -/
def dropKey : RequiredStateMap :=
  Entries.filterMapValues (fun keys => if keys.erase key = ∅ then none else some (keys.erase key)) m

def addKey : RequiredStateMap :=
  let m := if type = wildcard then dropKey m key else m
  m.insert type (if key = wildcard then {wildcard} else insert key (keysOf m type))

def everything : RequiredStateMap := (∅ : RequiredStateMap).insert wildcard {wildcard}

def addRequested (m : RequiredStateMap) : List (String × String) → RequiredStateMap
  | [] => m
  | (type,key) :: requiredState =>
    if key ∈ keysOf m wildcard then addRequested m requiredState
    else if wildcard ∈ keysOf m type then addRequested m requiredState
    else if type = wildcard ∧ key = wildcard then everything
    else addRequested (addKey m type key) requiredState

/-- The state keys of one type, which end at a wildcard. -/
def addKeys (m : RequiredStateMap) : List String → RequiredStateMap
  | [] => m
  | key :: keys =>
    if key ∈ keysOf m wildcard then addKeys m keys
    else if key = wildcard then addKey m type key
    else addKeys (addKey m type key) keys

def addTypes (order : String → Iteration) (m : RequiredStateMap) :
    List ((_ : String) × Finset String) → RequiredStateMap
  | [] => m
  | ⟨type,keys⟩ :: types =>
    if wildcard ∈ keysOf m wildcard then m
    else if wildcard ∈ keysOf m type then addTypes order m types
    else if type = wildcard ∧ wildcard ∈ keys then everything
    else addTypes order (addKeys type m (elements (order type) 0 keys)) types

namespace RoomSyncConfig

def fromRoomConfig (timelineLimit : ℤ) (requiredState : List (String × String)) : RoomSyncConfig :=
  ⟨timelineLimit,addRequested ∅ requiredState⟩

/-- The sets of the other configuration are iterated in the given orders. -/
def combineRoomSyncConfig (a : RoomSyncConfig) (order : String → Iteration) (b : RoomSyncConfig) :
    RoomSyncConfig where
  timelineLimit := if a.timelineLimit < b.timelineLimit then b.timelineLimit else a.timelineLimit
  requiredStateMap := addTypes order a.requiredStateMap b.requiredStateMap.entries

end RoomSyncConfig

/-- The entry asks for the state, by name or by a wildcard. -/
def Matches (entry : String × String) : Prop :=
  (entry.1 = type ∨ entry.1 = wildcard) ∧ (entry.2 = key ∨ entry.2 = wildcard)

def Asks : Prop := ∃ entry : String × String, entry.2 ∈ keysOf m entry.1 ∧ Matches type key entry

variable {m type key} {t k : String} {keys : List String}

theorem keysOf_dropKey : keysOf (dropKey m key) t = (keysOf m t).erase key := by
  rw [keysOf,dropKey,Entries.lookup_filterMapValues,keysOf]
  cases m.lookup t with
  | none => rfl
  | some keys => by_cases hempty : keys.erase key = ∅ <;> simp [hempty]

theorem mem_addKey {t' k' : String} : k' ∈ keysOf (addKey m t k) t' ↔
    (t' = t ∧ k' = k) ∨ k' ∈ keysOf m t' ∧ (t = wildcard → k' ≠ k) ∧ (t' = t → k ≠ wildcard) := by
  have hdrop : ∀ u, k' ∈ keysOf (if t = wildcard then dropKey m k else m) u ↔
      k' ∈ keysOf m u ∧ (t = wildcard → k' ≠ k) := by
    intro u
    by_cases ht : t = wildcard
    · simp [ht,keysOf_dropKey,and_comm]
    · simp [ht]
  unfold addKey
  by_cases ht' : t' = t
  · subst ht'
    rw [keysOf]
    by_cases hk : k = wildcard
    · simp [hk]
    · simp [hk,hdrop]
  · rw [keysOf,AList.lookup_insert_ne ht',← keysOf,hdrop]
    simp [ht']

/-- What an added entry replaces, the entry asks for. -/
theorem asks_addKey : Asks (addKey m t k) type key ↔ Asks m type key ∨ Matches type key (t,k) := by
  have hnew : k ∈ keysOf (addKey m t k) t := mem_addKey.mpr (.inl ⟨rfl,rfl⟩)
  constructor
  · rintro ⟨⟨t',k'⟩,hin,hmatch⟩
    rcases mem_addKey.mp hin with ⟨rfl,rfl⟩ | ⟨hold,-⟩
    · exact .inr hmatch
    · exact .inl ⟨_,hold,hmatch⟩
  · rintro (⟨⟨t',k'⟩,hin,hmatch⟩ | hmatch)
    · by_cases hdrop : t = wildcard ∧ k' = k
      · exact ⟨(t,k),hnew,.inr hdrop.1,hdrop.2 ▸ hmatch.2⟩
      by_cases hover : t' = t ∧ k = wildcard
      · exact ⟨(t,k),hnew,hover.1 ▸ hmatch.1,.inr hover.2⟩
      · exact ⟨_,mem_addKey.mpr (.inr ⟨hin,not_and.mp hdrop,not_and.mp hover⟩),hmatch⟩
    · exact ⟨_,hnew,hmatch⟩

theorem asks_everything : Asks everything type key :=
  ⟨(wildcard,wildcard),by decide,.inr rfl,.inr rfl⟩

theorem asks_of_mem_wildcard (h : k ∈ keysOf m wildcard) (hk : Matches type key (t,k)) : Asks m type key :=
  ⟨(wildcard,k),h,.inr rfl,hk.2⟩

theorem asks_of_wildcard_mem (h : wildcard ∈ keysOf m t) (hk : Matches type key (t,k)) : Asks m type key :=
  ⟨(t,wildcard),h,hk.1,.inr rfl⟩

theorem asks_addRequested {requiredState : List (String × String)} :
    Asks (addRequested m requiredState) type key ↔
      Asks m type key ∨ ∃ entry ∈ requiredState, Matches type key entry := by
  induction requiredState generalizing m with
  | nil => simp [addRequested]
  | cons entry requiredState ih =>
    rw [exists_mem_cons_iff,← or_assoc,addRequested]
    split
    case isTrue h => rw [ih,or_iff_left_of_imp (asks_of_mem_wildcard h)]
    split
    case isTrue h => rw [ih,or_iff_left_of_imp (asks_of_wildcard_mem h)]
    split
    case isTrue h => exact iff_of_true asks_everything (.inl (.inr ⟨.inr h.1,.inr h.2⟩))
    rw [ih,asks_addKey]

theorem asks_addKeys : Asks (addKeys t m keys) type key ↔
    Asks m type key ∨ ∃ k ∈ keys, Matches type key (t,k) := by
  induction keys generalizing m with
  | nil => simp [addKeys]
  | cons k keys ih =>
    rw [exists_mem_cons_iff,← or_assoc,addKeys]
    split
    case isTrue h => rw [ih,or_iff_left_of_imp (asks_of_mem_wildcard h)]
    split
    case isTrue h =>
      refine asks_addKey.trans (or_iff_left_of_imp ?_).symm
      rintro ⟨_,-,hmatch⟩
      exact .inr ⟨hmatch.1,.inr h⟩
    rw [ih,asks_addKey]

theorem asks_addTypes {order : String → Iteration} {types : List ((_ : String) × Finset String)} :
    Asks (addTypes order m types) type key ↔
      Asks m type key ∨ ∃ entry ∈ types, ∃ k ∈ entry.2, Matches type key (entry.1,k) := by
  induction types generalizing m with
  | nil => simp [addTypes]
  | cons entry types ih =>
    rw [exists_mem_cons_iff,← or_assoc,addTypes]
    split
    case isTrue h =>
      have hall : Asks m type key := ⟨(wildcard,wildcard),h,.inr rfl,.inr rfl⟩
      exact iff_of_true hall (.inl (.inl hall))
    split
    case isTrue h =>
      rw [ih]
      refine or_congr_left (or_iff_left_of_imp ?_).symm
      rintro ⟨k,-,hmatch⟩
      exact asks_of_wildcard_mem h hmatch
    split
    case isTrue h => exact iff_of_true asks_everything (.inl (.inr ⟨_,h.2,.inr h.1,.inr rfl⟩))
    rw [ih,asks_addKeys]
    simp only [mem_elements]

namespace RoomSyncConfig

variable (a b c : RoomSyncConfig) (order order' : String → Iteration)

theorem asks_combine : Asks (a.combineRoomSyncConfig order b).requiredStateMap type key ↔
    Asks a.requiredStateMap type key ∨ Asks b.requiredStateMap type key := by
  rw [combineRoomSyncConfig,asks_addTypes]
  apply or_congr_right
  constructor
  · rintro ⟨⟨t,keys⟩,hin,k,hk,hmatch⟩
    refine ⟨(t,k),?_,hmatch⟩
    rw [keysOf,AList.mem_lookup_iff.mpr hin]
    exact hk
  · rintro ⟨⟨t,k⟩,hin,hmatch⟩
    rw [keysOf] at hin
    cases hlookup : b.requiredStateMap.lookup t with
    | none => simp [hlookup] at hin
    | some keys =>
      rw [hlookup] at hin
      exact ⟨_,AList.mem_lookup_iff.mp hlookup,k,hin,hmatch⟩

/-- The configurations ask for the same state and as many events. -/
def SameRequest : Prop :=
  a.timelineLimit = b.timelineLimit ∧
    ∀ type key, Asks a.requiredStateMap type key ↔ Asks b.requiredStateMap type key

theorem combineRoomSyncConfig_union :
    (∀ type key, Asks (a.combineRoomSyncConfig order b).requiredStateMap type key ↔
      Asks a.requiredStateMap type key ∨ Asks b.requiredStateMap type key) ∧
    (a.combineRoomSyncConfig order b).timelineLimit = max a.timelineLimit b.timelineLimit ∧
    (a.combineRoomSyncConfig order b).SameRequest (b.combineRoomSyncConfig order' a) ∧
    ((a.combineRoomSyncConfig order b).combineRoomSyncConfig order c).SameRequest
      (a.combineRoomSyncConfig order' (b.combineRoomSyncConfig order' c)) ∧
    (a.combineRoomSyncConfig order a).SameRequest a ∧
    ∀ limit requiredState, (fromRoomConfig limit requiredState).timelineLimit = limit ∧
      ∀ type key, Asks (fromRoomConfig limit requiredState).requiredStateMap type key ↔
        ∃ entry ∈ requiredState, Matches type key entry := by
  have hlimit : ∀ a b order, (combineRoomSyncConfig a order b).timelineLimit =
      max a.timelineLimit b.timelineLimit := by
    intro a b order
    rw [max_def_lt]
    rfl
  refine ⟨fun _ _ => asks_combine a b order,hlimit a b order,⟨?_,fun _ _ => ?_⟩,⟨?_,fun _ _ => ?_⟩,
    ⟨?_,fun _ _ => ?_⟩,fun limit requiredState => ⟨rfl,fun type key => ?_⟩⟩
  · rw [hlimit,hlimit,max_comm]
  · rw [asks_combine,asks_combine,or_comm]
  · rw [hlimit,hlimit,hlimit,hlimit,max_assoc]
  · rw [asks_combine,asks_combine,asks_combine,asks_combine,or_assoc]
  · rw [hlimit,max_self]
  · rw [asks_combine,or_self]
  · rw [fromRoomConfig,asks_addRequested,or_iff_right]
    rintro ⟨entry,hin,-⟩
    exact Finset.notMem_empty _ hin

end RoomSyncConfig

end TextrpBriij.SlidingSync
