import TextrpBriij.SlidingSync.RequiredState

/-! # The loops over the required state

What the two loops do to each event type, and which of the branches is taken.
-/
namespace TextrpBriij.SlidingSync
open List AList
open AuthChain (Dict)
open State

def KeyCovers (userId : String) (keys : Finset String) (stateKey : String) : Prop :=
  wildcard ∈ keys ∨ (me ∈ keys ∧ stateKey = userId) ∨
    (stateKey ∈ keys ∧ stateKey ≠ wildcard ∧ stateKey ≠ lazy ∧ stateKey ≠ me)

/-- The map asks for the state, by its type or for all types. -/
def Covers (userId : String) (stateMap : RequiredStateMap) (eventType stateKey : String) : Prop :=
  KeyCovers userId (keysOf stateMap eventType) stateKey ∨ KeyCovers userId (keysOf stateMap wildcard) stateKey

theorem KeyCovers.mono {userId stateKey : String} {keys more : Finset String}
    (h : KeyCovers userId keys stateKey) (hsub : keys ⊆ more) : KeyCovers userId more stateKey := by
  rcases h with hwild | ⟨hme,huser⟩ | ⟨hkey,hplain⟩
  · exact .inl (hsub hwild)
  · exact .inr (.inl ⟨hsub hme,huser⟩)
  · exact .inr (.inr ⟨hsub hkey,hplain⟩)

theorem mem_elements {it : Iteration} {place : ℕ} {s : Finset String} {x : String} :
    x ∈ elements it place s ↔ x ∈ s := by
  rw [elements,(it.perm place _).mem_iff,Finset.mem_sort]

namespace RequiredStateInput

variable (i : RequiredStateInput) (orders : SetOrders) (eventType stateKey : String)

def Changed : Prop :=
  (eventType,stateKey) ∈ i.stateDeltas.keys

def Expands : Prop :=
  i.requestStateKeys eventType \ i.oldStateKeys eventType ≠ ∅

def AddsLazy : Prop :=
  eventType = member ∧ lazy ∉ i.oldStateKeys eventType ∧ lazy ∈ i.requestStateKeys eventType

instance : Decidable (i.Expands eventType) := inferInstanceAs (Decidable (_ ≠ _))

instance : Decidable (i.AddsLazy eventType) := inferInstanceAs (Decidable (_ ∧ _))

def inheritable : Finset String :=
  (i.oldStateKeys eventType \ {wildcard,lazy}) \
    ((i.oldStateKeys eventType \ i.requestStateKeys eventType) ∩ i.changedStateKeys eventType)

def expandedKeys : Finset String :=
  if i.AddsLazy eventType then i.requestStateKeys eventType
  else remember (orders.keys eventType) (i.requestStateKeys eventType) (i.inheritable eventType)

def fetched : List (String × Option String) :=
  if ¬i.Expands eventType ∨ i.AddsLazy eventType ∨ wildcard ∈ i.oldStateKeys eventType then []
  else if wildcard ∈ i.requestStateKeys eventType then [(eventType,none)]
  else (elements (orders.keys eventType) 1 (i.requestStateKeys eventType \
    i.oldStateKeys eventType)).filterMap (i.addedType eventType)

variable {i orders stateKey} {type : String}

theorem mem_changedStateKeys : stateKey ∈ i.changedStateKeys type ↔ i.Changed type stateKey := by
  simp [changedStateKeys,Changed]

theorem mem_changedTypes : type ∈ i.changedTypes ↔ ∃ stateKey, i.Changed type stateKey := by
  simp [changedTypes,Changed]

theorem subset_of_not_expands (h : ¬i.Expands type) :
    i.requestStateKeys type ⊆ i.oldStateKeys type :=
  Finset.sdiff_eq_empty_iff_subset.mp (not_not.mp h)

theorem addRound_eq (acc : Additions) : i.addRound orders acc type =
    (if i.Expands type then acc.1.insert type (i.expandedKeys orders type) else acc.1,
      acc.2 ++ i.fetched orders type) := by
  unfold addRound
  dsimp only
  split
  · rename_i hsame
    have hnot : ¬i.Expands type := by simp [Expands,hsame]
    simp [fetched,hnot]
  split
  · rename_i hnone
    have hnot : ¬i.Expands type := not_not.mpr hnone
    simp [fetched,hnot]
  rename_i hexpands
  have hexpands : i.Expands type := hexpands
  split
  · rename_i hlazy
    have hlazy : i.AddsLazy type := hlazy
    simp [fetched,expandedKeys,hlazy]
  rename_i hlazy
  have hlazy : ¬i.AddsLazy type := hlazy
  split
  · rename_i hwild
    simp [fetched,expandedKeys,hlazy,hwild,inheritable]
  split
  · rename_i hwild hrequested
    simp [fetched,expandedKeys,hexpands,hlazy,hwild,hrequested,inheritable]
  · rename_i hwild hrequested
    simp [fetched,expandedKeys,hexpands,hlazy,hwild,hrequested,inheritable]

theorem mem_eventTypes_of_expands (h : i.Expands type) : type ∈ i.eventTypes orders := by
  obtain ⟨key,hkey⟩ := Finset.nonempty_iff_ne_empty.mpr h
  have hkey := (Finset.mem_sdiff.mp hkey).1
  rw [eventTypes,mem_elements,Finset.mem_union]
  refine .inr (mem_toFinset.mpr ?_)
  rw [requestStateKeys,keysOf] at hkey
  by_contra hnot
  rw [lookup_eq_none.mpr hnot] at hkey
  exact Finset.notMem_empty _ hkey

theorem lookup_additions : (i.additions orders).1.lookup type =
    if i.Expands type then some (i.expandedKeys orders type) else none := by
  rw [additions,Entries.foldl_or type (fun acc : Additions => acc.1.lookup type)
    (v := if i.Expands type then some (i.expandedKeys orders type) else none)]
  · by_cases hexpands : i.Expands type
    · simp [mem_eventTypes_of_expands hexpands]
    · simp [hexpands]
  intro acc t
  rw [addRound_eq]
  by_cases htype : type = t
  · subst htype
    by_cases hexpands : i.Expands type
    · simp [hexpands]
    · simp [hexpands]
  · by_cases hother : i.Expands t
    · simp [htype,hother]
    · simp [htype,hother]

theorem mem_added {entry : String × Option String} : entry ∈ (i.additions orders).2 ↔
    ∃ t ∈ i.eventTypes orders, entry ∈ i.fetched orders t := by
  have hfold : ∀ (types : List String) (acc : Additions),
      (types.foldl (i.addRound orders) acc).2 = acc.2 ++ types.flatMap (i.fetched orders) := by
    intro types
    induction types with
    | nil => simp
    | cons t types ih =>
      intro acc
      rw [foldl_cons,ih,addRound_eq,flatMap_cons,append_assoc]
  rw [additions,hfold,nil_append,mem_flatMap]

variable (i)

def invalidated : Finset String :=
  (i.oldStateKeys eventType \ i.requestStateKeys eventType) ∩ i.changedWithMe eventType

def Replaces : Prop :=
  ¬(wildcard ∈ i.oldStateKeys eventType ↔ wildcard ∈ i.requestStateKeys eventType) ∨
    (eventType = member ∧ (¬(lazy ∈ i.oldStateKeys eventType ↔ lazy ∈ i.requestStateKeys eventType) ∨
      (lazy ∈ i.oldStateKeys eventType ∨ lazy ∈ i.requestStateKeys eventType) ∧ i.invalidated eventType ≠ ∅))

instance : Decidable (i.Replaces eventType) := inferInstanceAs (Decidable (_ ∨ _))

def shrunkKeys : Option (Finset String) :=
  if i.oldStateKeys eventType = i.requestStateKeys eventType ∨ i.Expands eventType then none
  else if i.Replaces eventType then some (i.requestStateKeys eventType)
  else if i.invalidated eventType ≠ ∅ then
    some (i.oldStateKeys eventType \ i.invalidated eventType)
  else none

variable {i}

theorem removeRound_eq {changes : RequiredStateMap} : i.removeRound changes type =
    ((i.shrunkKeys type).map (changes.insert type)).getD changes := by
  unfold removeRound shrunkKeys
  dsimp only
  split
  · rename_i hsame
    simp [hsame]
  rename_i hsame
  split
  · rename_i hexpands
    have hexpands : i.Expands type := hexpands
    simp [hexpands]
  rename_i hexpands
  have hexpands : ¬i.Expands type := hexpands
  rw [if_neg (not_or.mpr ⟨hsame,hexpands⟩)]
  split
  · rename_i hwild
    have hreplaces : i.Replaces type := .inl fun h => hwild (decide_eq_decide.mpr h)
    simp [hreplaces]
  rename_i hwild
  split
  · rename_i hlazy
    have hreplaces : i.Replaces type :=
      .inr ⟨hlazy.1,.inl fun h => hlazy.2 (decide_eq_decide.mpr h)⟩
    simp [hreplaces]
  rename_i hlazy
  split
  · rename_i hmember
    have hreplaces : i.Replaces type := .inr ⟨hmember.1,.inr hmember.2⟩
    simp [hreplaces]
  rename_i hmember
  have hnot : ¬i.Replaces type := by
    rintro (hw | ⟨htype,hl | hinvalid⟩)
    · exact hwild fun h => hw (decide_eq_decide.mp h)
    · exact hlazy ⟨htype,fun h => hl (decide_eq_decide.mp h)⟩
    · exact hmember ⟨htype,hinvalid⟩
  split
  · rename_i hinvalid
    have hinvalid : i.invalidated type ≠ ∅ := hinvalid
    rw [if_pos hinvalid]
    rfl
  · rename_i hinvalid
    have hinvalid : ¬i.invalidated type ≠ ∅ := hinvalid
    rw [if_neg hinvalid]
    rfl

theorem lookup_removeRound {changes : RequiredStateMap} {t : String} :
    (i.removeRound changes t).lookup type =
      if type = t then (i.shrunkKeys type).or (changes.lookup type)
      else changes.lookup type := by
  rw [removeRound_eq]
  by_cases htype : type = t
  · subst htype
    cases i.shrunkKeys type <;> simp
  · cases i.shrunkKeys t <;> simp [htype]

theorem shrunkKeys_of_expands (h : i.Expands type) : i.shrunkKeys type = none :=
  if_pos (.inr h)

theorem shrunkKeys_cases (hexpands : ¬i.Expands type) :
    i.shrunkKeys type = some (i.requestStateKeys type) ∨
    ((wildcard ∈ i.oldStateKeys type → wildcard ∈ i.requestStateKeys type) ∧
      (i.shrunkKeys type).getD (i.oldStateKeys type) =
        i.oldStateKeys type \ i.invalidated type) := by
  unfold shrunkKeys
  by_cases hsame : i.oldStateKeys type = i.requestStateKeys type
  · refine .inr ⟨fun h => hsame ▸ h,?_⟩
    simp [invalidated,hsame]
  rw [if_neg (not_or.mpr ⟨hsame,hexpands⟩)]
  by_cases hreplaces : i.Replaces type
  · exact .inl (if_pos hreplaces)
  have hwild := not_not.mp (not_or.mp hreplaces).1
  refine .inr ⟨hwild.mp,?_⟩
  rw [if_neg hreplaces]
  by_cases hinvalid : i.invalidated type = ∅
  · simp [hinvalid]
  · simp [hinvalid]

theorem lookup_changes : (i.changes orders).lookup type =
    if i.Expands type then some (i.expandedKeys orders type)
    else if type ∈ i.changedTypes then i.shrunkKeys type else none := by
  rw [changes,Entries.foldl_or type (fun m : RequiredStateMap => m.lookup type)
    fun _ _ => lookup_removeRound,lookup_additions]
  by_cases hexpands : i.Expands type
  · simp [shrunkKeys_of_expands hexpands]
  · simp [hexpands]

def remembered (i : RequiredStateInput) (orders : SetOrders) : RequiredStateMap :=
  (i.requiredStateChanges orders).changedRequiredStateMap.getD i.prevRequiredStateMap

theorem keysOf_applyChange {stateMap : RequiredStateMap} {change : (_ : String) × Finset String} :
    keysOf (applyChange stateMap change) type =
      if change.1 = type then change.2 else keysOf stateMap type := by
  unfold applyChange keysOf
  by_cases htype : change.1 = type
  · subst htype
    by_cases hempty : change.2 = ∅
    · simp [hempty]
    · simp [hempty]
  · by_cases hempty : change.2 = ∅
    · simp [hempty,htype,lookup_erase_ne (Ne.symm htype)]
    · simp [hempty,htype,lookup_insert_ne (Ne.symm htype)]

theorem keysOf_newRequiredStateMap :
    keysOf ((i.newRequiredStateMap orders).getD i.prevRequiredStateMap) type =
      ((i.changes orders).lookup type).getD (i.oldStateKeys type) := by
  have hfold : ∀ (entries : List ((_ : String) × Finset String)) (stateMap : RequiredStateMap),
      (entries.map Sigma.fst).Nodup → keysOf (entries.foldl applyChange stateMap) type =
        ((entries.find? fun e => e.1 = type).map Sigma.snd).getD (keysOf stateMap type) := by
    intro entries
    induction entries with
    | nil => simp
    | cons entry entries ih =>
      intro stateMap hnodup
      rw [map_cons,nodup_cons] at hnodup
      rw [foldl_cons,ih _ hnodup.2,keysOf_applyChange]
      by_cases htype : entry.1 = type
      · subst htype
        simp [Entries.find?_eq_none_of_notMem hnodup.1]
      · simp [htype]
  unfold newRequiredStateMap
  dsimp only
  split
  · rename_i hnil
    have hnone : (i.changes orders).lookup type = none := by simp [AList.lookup,hnil]
    rw [hnone]
    rfl
  · rw [Option.getD_some,hfold _ _ (i.changes orders).nodupKeys,Entries.find?_entries]
    cases (i.changes orders).lookup type <;> rfl

/-- The type wildcards agree and are not for all state, so that the types are compared. -/
def ComparesTypes (i : RequiredStateInput) : Prop :=
  wildcard ∉ i.oldStateKeys wildcard ∧ i.oldStateKeys wildcard = i.requestStateKeys wildcard

theorem keysOf_eq_of_unchanged (h : i.unchanged) : i.oldStateKeys type = i.requestStateKeys type := by
  rw [unchanged,decide_eq_true_eq] at h
  unfold oldStateKeys requestStateKeys keysOf
  by_cases hmem : type ∈ i.prevRequiredStateMap.keys ++ i.requestRequiredStateMap.keys
  · rw [h type hmem]
  · rw [mem_append,not_or] at hmem
    rw [lookup_eq_none.mpr hmem.1,lookup_eq_none.mpr hmem.2]

theorem covers_iff_of_unchanged {userId : String} (h : i.unchanged) :
    Covers userId i.prevRequiredStateMap type stateKey ↔
      Covers userId i.requestRequiredStateMap type stateKey := by
  have hkeys : ∀ t, keysOf i.prevRequiredStateMap t = keysOf i.requestRequiredStateMap t :=
    fun t => @keysOf_eq_of_unchanged i t h
  rw [Covers,Covers,hkeys,hkeys]

theorem not_expands_of_unchanged (h : i.unchanged) : ¬i.Expands type := by
  rw [Expands,keysOf_eq_of_unchanged h,Finset.sdiff_self]
  exact not_not.mpr rfl

theorem requiredStateChanges_cases (hchanged : i.unchanged = false) :
    (wildcard ∈ i.oldStateKeys wildcard ∧ i.remembered orders = i.requestRequiredStateMap) ∨
    (wildcard ∉ i.oldStateKeys wildcard ∧ ¬i.requestStateKeys wildcard ⊆ i.oldStateKeys wildcard ∧
      i.remembered orders = i.requestRequiredStateMap ∧
      (i.requiredStateChanges orders).addedStateFilter = .all) ∨
    (wildcard ∉ i.oldStateKeys wildcard ∧ i.requestStateKeys wildcard ⊂ i.oldStateKeys wildcard ∧
      i.remembered orders = i.requestRequiredStateMap ∧
      (i.requiredStateChanges orders).addedStateFilter = .none) ∨ (i.ComparesTypes ∧
      i.remembered orders = (i.newRequiredStateMap orders).getD i.prevRequiredStateMap ∧
      (i.requiredStateChanges orders).addedStateFilter =
        .fromTypes ((i.additions orders).2 ++ i.addedLazyMembers orders)) := by
  unfold remembered requiredStateChanges
  rw [if_neg (by rw [hchanged]; exact Bool.false_ne_true)]
  split
  · rename_i hall
    exact .inl ⟨hall,rfl⟩
  rename_i hall
  split
  · rename_i hadded
    refine .inr (.inl ⟨hall,fun hsub => hadded ?_,rfl,rfl⟩)
    exact Finset.sdiff_eq_empty_iff_subset.mpr hsub
  rename_i hadded
  have hsub := Finset.sdiff_eq_empty_iff_subset.mp (not_not.mp hadded)
  split
  · rename_i hremoved
    refine .inr (.inr (.inl ⟨hall,⟨hsub,fun hsup => hremoved ?_⟩,rfl,rfl⟩))
    exact Finset.sdiff_eq_empty_iff_subset.mpr hsup
  · rename_i hremoved
    have hsup := Finset.sdiff_eq_empty_iff_subset.mp (not_not.mp hremoved)
    exact .inr (.inr (.inr ⟨⟨hall,hsup.antisymm hsub⟩,rfl,rfl⟩))

theorem keysOf_remembered (hchanged : i.unchanged = false) (hcompares : i.ComparesTypes) :
    keysOf (i.remembered orders) type =
      if i.Expands type then i.expandedKeys orders type
      else if type ∈ i.changedTypes then
        (i.shrunkKeys type).getD (i.oldStateKeys type)
      else i.oldStateKeys type := by
  rcases @requiredStateChanges_cases i orders hchanged with ⟨hall,-⟩ | ⟨-,hadded,-⟩ |
    ⟨-,hremoved,-⟩ | ⟨-,hmap,-⟩
  · exact absurd hall hcompares.1
  · exact absurd hcompares.2.symm.subset hadded
  · exact absurd hcompares.2.symm hremoved.ne
  · rw [hmap,keysOf_newRequiredStateMap,lookup_changes]
    split
    · rfl
    split
    · rfl
    · rfl

end RequiredStateInput

end TextrpBriij.SlidingSync
