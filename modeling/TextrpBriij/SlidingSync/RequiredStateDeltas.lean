import TextrpBriij.SlidingSync.RequiredStateLoops

/-! # What a change of the required state fetches and remembers

A map covers a piece of state if it lists its key, the user's own key or a wildcard. What a request
covers newly is fetched but for some members, and what is remembered was sent and has not changed
but for the user's own state.
-/
namespace TextrpBriij.SlidingSync
open List
open AuthChain (Dict)
open State TextrpBriij.Types
open Finset (mem_inter mem_sdiff)

namespace RequiredStateInput

variable {i : RequiredStateInput} {orders : SetOrders} {type stateKey : String}

def ForgetsMe (i : RequiredStateInput) (orders : SetOrders) (eventType : String) : Prop :=
  maxNumberPreviousStateKeysToRemember < (i.requestStateKeys eventType ∪ i.inheritable eventType).card ∧
    me ∉ (elements (orders.keys eventType) 0 (i.inheritable eventType)).take
      (maxNumberPreviousStateKeysToRemember - (i.requestStateKeys eventType).card)

theorem remember_subset {order : Iteration} {requested inheritable : Finset String} :
    remember order requested inheritable ⊆ requested ∪ inheritable := by
  unfold remember
  split
  · split
    · apply Finset.union_subset_union_right
      intro x hx
      exact mem_elements.mp (mem_of_mem_take (mem_toFinset.mp hx))
    · exact Finset.subset_union_left
  · exact Finset.Subset.refl _

theorem me_mem_remember (hrequested : me ∉ i.requestStateKeys type)
    (hinheritable : me ∈ i.inheritable type) :
    me ∈ remember (orders.keys type) (i.requestStateKeys type) (i.inheritable type) ↔
      ¬i.ForgetsMe orders type := by
  unfold remember ForgetsMe
  split
  · rename_i hmany
    split
    · simp [hmany,hrequested]
    · rename_i hfull
      have hzero : maxNumberPreviousStateKeysToRemember - (i.requestStateKeys type).card = 0 :=
        Nat.sub_eq_zero_of_le (not_lt.mp hfull)
      simp [hmany,hrequested,hzero]
  · rename_i hfew
    simp [hfew,hinheritable]

/-- Where state keys are added to a type and `$ME` is dropped from it, the user's own state of the
type has not changed, or is requested in another way. -/
def KeepsOwnState (i : RequiredStateInput) (orders : SetOrders) : Prop :=
  i.ComparesTypes → ∀ eventType, i.Expands eventType → ¬i.AddsLazy eventType →
    me ∈ i.oldStateKeys eventType → me ∉ i.requestStateKeys eventType →
      i.Changed eventType i.userId → Covers i.userId i.requestRequiredStateMap eventType i.userId ∨
        i.Changed eventType me ∨ i.ForgetsMe orders eventType

theorem mem_of_mem_inheritable (h : stateKey ∈ i.inheritable type) :
    stateKey ∈ i.oldStateKeys type ∧ stateKey ≠ wildcard ∧
      (stateKey ∈ i.requestStateKeys type ∨ ¬i.Changed type stateKey) := by
  simp only [inheritable,mem_sdiff,mem_inter,Finset.mem_insert,mem_changedStateKeys] at h
  tauto

theorem covers_expanded (hkeeps : i.KeepsOwnState orders) (hcompares : i.ComparesTypes)
    (hexpands : i.Expands type)
    (h : KeyCovers i.userId (i.expandedKeys orders type) stateKey) :
    Covers i.userId i.requestRequiredStateMap type stateKey ∨
      (Covers i.userId i.prevRequiredStateMap type stateKey ∧ ¬i.Changed type stateKey) := by
  unfold expandedKeys at h
  split at h
  · exact .inl (.inl h)
  rename_i hlazy
  have hsub := fun x hx => Finset.mem_union.mp (@remember_subset (orders.keys type)
    (i.requestStateKeys type) (i.inheritable type) x hx)
  rcases h with hwild | ⟨hme,rfl⟩ | ⟨hkey,hplain⟩
  · rcases hsub _ hwild with hrequested | hold
    · exact .inl (.inl (.inl hrequested))
    · exact absurd rfl (mem_of_mem_inheritable hold).2.1
  · by_cases hrequested : me ∈ i.requestStateKeys type
    · exact .inl (.inl (.inr (.inl ⟨hrequested,rfl⟩)))
    have hinheritable := (hsub _ hme).resolve_left hrequested
    obtain ⟨hold,-,hunchanged⟩ := mem_of_mem_inheritable hinheritable
    by_cases hchanged : i.Changed type i.userId
    · rcases hkeeps hcompares type hexpands hlazy hold hrequested hchanged with
        hcovers | hme' | hforgets
      · exact .inl hcovers
      · exact absurd hme' (hunchanged.resolve_left hrequested)
      · exact absurd hforgets ((me_mem_remember hrequested hinheritable).mp hme)
    · exact .inr ⟨.inl (.inr (.inl ⟨hold,rfl⟩)),hchanged⟩
  · rcases hsub _ hkey with hrequested | hinheritable
    · exact .inl (.inl (.inr (.inr ⟨hrequested,hplain⟩)))
    · obtain ⟨hold,-,hrequested | hunchanged⟩ := mem_of_mem_inheritable hinheritable
      · exact .inl (.inl (.inr (.inr ⟨hrequested,hplain⟩)))
      · exact .inr ⟨.inl (.inr (.inr ⟨hold,hplain⟩)),hunchanged⟩

theorem not_changed_of_notMem_invalidated (hold : stateKey ∈ i.oldStateKeys type)
    (h : stateKey ∉ i.invalidated type) : stateKey ∈ i.requestStateKeys type ∨
      stateKey ∉ i.changedWithMe type := by
  simp only [invalidated,mem_inter,mem_sdiff] at h
  tauto

theorem covers_shrunk (hexpands : ¬i.Expands type)
    (h : KeyCovers i.userId ((i.shrunkKeys type).getD (i.oldStateKeys type)) stateKey) :
    Covers i.userId i.requestRequiredStateMap type stateKey ∨
      (Covers i.userId i.prevRequiredStateMap type stateKey ∧ ¬i.Changed type stateKey) := by
  rcases shrunkKeys_cases hexpands with hrequest | ⟨hwildcards,hkeys⟩
  · rw [hrequest] at h
    exact .inl (.inl h)
  rw [hkeys] at h
  rcases h with hwild | ⟨hme,rfl⟩ | ⟨hkey,hplain⟩
  · exact .inl (.inl (.inl (hwildcards (mem_sdiff.mp hwild).1)))
  · obtain ⟨hold,hvalid⟩ := mem_sdiff.mp hme
    rcases not_changed_of_notMem_invalidated hold hvalid with hrequested | hunchanged
    · exact .inl (.inl (.inr (.inl ⟨hrequested,rfl⟩)))
    · refine .inr ⟨.inl (.inr (.inl ⟨hold,rfl⟩)),fun hchanged => hunchanged ?_⟩
      rw [changedWithMe,if_pos (mem_changedStateKeys.mpr hchanged)]
      exact Finset.mem_insert_self _ _
  · obtain ⟨hold,hvalid⟩ := mem_sdiff.mp hkey
    rcases not_changed_of_notMem_invalidated hold hvalid with hrequested | hunchanged
    · exact .inl (.inl (.inr (.inr ⟨hrequested,hplain⟩)))
    · refine .inr ⟨.inl (.inr (.inr ⟨hold,hplain⟩)),fun hchanged => hunchanged ?_⟩
      have hmem := mem_changedStateKeys.mpr hchanged
      unfold changedWithMe
      split
      · exact Finset.mem_insert_of_mem hmem
      · exact hmem

/-- What is remembered is requested, or was covered before and has not changed. -/
def RemembersOnlySent (i : RequiredStateInput) (orders : SetOrders) : Prop :=
  ∀ eventType stateKey, Covers i.userId (i.remembered orders) eventType stateKey →
    Covers i.userId i.requestRequiredStateMap eventType stateKey ∨
      (Covers i.userId i.prevRequiredStateMap eventType stateKey ∧ ¬i.Changed eventType stateKey)

theorem KeepsOwnState.remembersOnlySent (hkeeps : i.KeepsOwnState orders)
    (hchanged : i.unchanged = false) (hcompares : i.ComparesTypes) : i.RemembersOnlySent orders := by
  have hwild : ¬i.Expands wildcard := by
    rw [Expands,hcompares.2,Finset.sdiff_self]
    exact not_not.mpr rfl
  intro type stateKey hcovers
  rcases hcovers with htype | hany
  · rw [keysOf_remembered hchanged hcompares] at htype
    split at htype
    · rename_i hexpands
      exact covers_expanded hkeeps hcompares hexpands htype
    rename_i hexpands
    split at htype
    · exact covers_shrunk hexpands htype
    · rename_i hnone
      refine .inr ⟨.inl htype,fun h => hnone (mem_changedTypes.mpr ⟨stateKey,h⟩)⟩
  · have hsame : (i.shrunkKeys wildcard).getD (i.oldStateKeys wildcard) = i.requestStateKeys wildcard := by
      rw [shrunkKeys,if_pos (.inl hcompares.2)]
      exact hcompares.2
    rw [keysOf_remembered hchanged hcompares,if_neg hwild,hsame,hcompares.2,ite_self] at hany
    exact .inl (.inr hany)

/-- The remembered map overstates what was sent for the user's own state only. -/
theorem remembersOnlySent_iff_keepsOwnState (i : RequiredStateInput) (orders : SetOrders) :
    i.RemembersOnlySent orders ↔ i.KeepsOwnState orders := by
  cases hchanged : i.unchanged with
  | true =>
    have hmap : i.remembered orders = i.prevRequiredStateMap := by
      simp [remembered,requiredStateChanges,hchanged]
    constructor
    · intro _ _ eventType hexpands
      exact absurd hexpands (not_expands_of_unchanged hchanged)
    · intro _ eventType stateKey hcovers
      rw [hmap] at hcovers
      exact .inl ((covers_iff_of_unchanged hchanged).mp hcovers)
  | false =>
    constructor
    · intro hsent hcompares eventType hexpands hlazy hold hrequested huser
      by_contra hnot
      rw [not_or,not_or] at hnot
      obtain ⟨huncovered,hunchanged,hforgets⟩ := hnot
      have hinheritable : me ∈ i.inheritable eventType := by
        simp only [inheritable,mem_sdiff,mem_inter,mem_changedStateKeys]
        refine ⟨⟨hold,by decide⟩,fun h => hunchanged h.2⟩
      have hme := (me_mem_remember hrequested hinheritable).mpr hforgets
      have hcovers : Covers i.userId (i.remembered orders) eventType i.userId := by
        refine .inl (.inr (.inl ⟨?_,rfl⟩))
        rw [keysOf_remembered hchanged hcompares,if_pos hexpands,expandedKeys,if_neg hlazy]
        exact hme
      rcases hsent eventType i.userId hcovers with hrequest | ⟨-,hnot⟩
      · exact huncovered hrequest
      · exact hnot huser
    · intro hkeeps
      rcases @requiredStateChanges_cases i orders hchanged with ⟨-,hmap⟩ | ⟨-,-,hmap,-⟩ |
        ⟨-,-,hmap,-⟩ | ⟨hcompares,-,-⟩
      case inr.inr.inr => exact hkeeps.remembersOnlySent hchanged hcompares
      all_goals
        intro eventType stateKey hcovers
        exact .inl (hmap ▸ hcovers)

def dropsMe : RequiredStateInput where
  userId := "@a:h"
  prevRequiredStateMap := (∅ : RequiredStateMap).insert member {me}
  requestRequiredStateMap := (∅ : RequiredStateMap).insert member {"@b:h"}
  previouslyReturnedLazyUserIds := ∅
  requestLazyLoadUserIds := ∅
  stateDeltas := (∅ : StateMap String).insert (member,"@a:h") "$join"

/-- The map to remember still has the user's own membership. -/
theorem changed_own_membership_remembered :
    Covers dropsMe.userId (dropsMe.remembered .sorted) member "@a:h" ∧
      ¬Covers dropsMe.userId dropsMe.requestRequiredStateMap member "@a:h" ∧
      dropsMe.Changed member "@a:h" ∧ ¬dropsMe.RemembersOnlySent .sorted := by
  have hcovers : Covers dropsMe.userId (dropsMe.remembered .sorted) member "@a:h" := by
    refine .inl (.inr (.inl ⟨?_,rfl⟩))
    decide +kernel
  have hnot : ¬Covers dropsMe.userId dropsMe.requestRequiredStateMap member "@a:h" := by
    unfold Covers KeyCovers
    decide +kernel
  have hchanged : dropsMe.Changed member "@a:h" := by
    unfold Changed
    decide +kernel
  refine ⟨hcovers,hnot,hchanged,fun h => ?_⟩
  rcases h member "@a:h" hcovers with hrequest | ⟨-,hunchanged⟩
  · exact hnot hrequest
  · exact hunchanged hchanged

def LoadsLazily (i : RequiredStateInput) (stateKey : String) : Prop :=
  stateKey ∈ i.requestLazyLoadUserIds ∧ stateKey ∉ i.previouslyReturnedLazyUserIds ∧
    stateKey ∉ i.previouslyRequiredStateMembers

theorem mem_addedLazyMembers : (type,some stateKey) ∈ i.addedLazyMembers orders ↔
    type = member ∧ i.LoadsLazily stateKey := by
  simp only [addedLazyMembers,mem_map,mem_elements,mem_sdiff,Prod.mk.injEq,Option.some.injEq,
    ← and_assoc,exists_eq_right,LoadsLazily]
  rw [and_comm,eq_comm]
  simp only [and_assoc]

def Fetches (i : RequiredStateInput) (eventType : String) : Prop :=
  i.Expands eventType ∧ ¬i.AddsLazy eventType ∧ wildcard ∉ i.oldStateKeys eventType

theorem mem_fetched {entry : String × Option String} :
    entry ∈ i.fetched orders type ↔ i.Fetches type ∧
      if wildcard ∈ i.requestStateKeys type then entry = (type,none)
      else ∃ key ∈ i.requestStateKeys type \ i.oldStateKeys type, i.addedType type key = some entry := by
  have hskips : (¬i.Expands type ∨ i.AddsLazy type ∨ wildcard ∈ i.oldStateKeys type) ↔ ¬i.Fetches type := by
    unfold Fetches
    tauto
  by_cases hfetches : i.Fetches type
  · rw [fetched,if_neg fun h => hskips.mp h hfetches]
    by_cases hwild : wildcard ∈ i.requestStateKeys type
    · simp [hfetches,hwild]
    · simp [hfetches,hwild,mem_elements]
  · rw [fetched,if_pos (hskips.mpr hfetches)]
    simp [hfetches]

theorem addedType_eq_some {key : String} {entry : String × Option String}
    (h : i.addedType type key = some entry) : entry.1 = type ∧
      ((key = me ∧ entry.2 = some i.userId) ∨ (entry.2 = some key ∧
        (type = member → key ∉ i.previouslyReturnedLazyUserIds))) := by
  unfold addedType at h
  split at h
  · rename_i hme
    cases h
    exact ⟨rfl,.inl ⟨hme,rfl⟩⟩
  split at h
  · cases h
  split at h
  · split at h
    · rename_i hreturned
      cases h
      exact ⟨rfl,.inr ⟨rfl,fun _ => hreturned⟩⟩
    · cases h
  · rename_i htype
    cases h
    exact ⟨rfl,.inr ⟨rfl,fun heq => absurd heq htype⟩⟩

theorem contains_added : (StateFilter.fromTypes ((i.additions orders).2 ++
    i.addedLazyMembers orders)).contains (type,stateKey) ↔
      (type = member ∧ i.LoadsLazily stateKey) ∨ (i.Fetches type ∧
        if wildcard ∈ i.requestStateKeys type then True
        else ∃ key ∈ i.requestStateKeys type \ i.oldStateKeys type,
          i.addedType type key = some (type,some stateKey)) := by
  have hnone : (type,none) ∉ i.addedLazyMembers orders := by simp [addedLazyMembers]
  have hadded : ∀ entry : String × Option String, entry.1 = type →
      (entry ∈ (i.additions orders).2 ↔ entry ∈ i.fetched orders type) := by
    intro entry hentry
    rw [mem_added]
    constructor
    · rintro ⟨t,-,h⟩
      have htype : entry.1 = t := by
        obtain ⟨-,h⟩ := mem_fetched.mp h
        split at h
        · rw [h]
        · obtain ⟨key,-,hkey⟩ := h
          exact (addedType_eq_some hkey).1
      rwa [← hentry,htype]
    · intro h
      exact ⟨type,mem_eventTypes_of_expands (mem_fetched.mp h).1.1,h⟩
  rw [StateFilter.contains_fromTypes,mem_append,mem_append,hadded _ rfl,hadded _ rfl,
    mem_addedLazyMembers,mem_fetched,mem_fetched]
  by_cases hwild : wildcard ∈ i.requestStateKeys type
  · simp only [hwild]
    tauto
  · have hkey : ∀ key, i.addedType type key ≠ some (type,none) := by
      intro key h
      rcases (addedType_eq_some h).2 with ⟨-,h⟩ | ⟨h,-⟩
      · cases h
      · cases h
    simp only [hwild,if_false,hnone,hkey,and_false,exists_false,false_or]
    exact or_comm

/-- What a request covers newly is fetched, but for members that were returned already, and for
all that is asked for beside lazy loading when this is added. -/
theorem contains_added_iff (hrequest : KeyCovers i.userId (i.requestStateKeys type) stateKey)
    (hprev : ¬KeyCovers i.userId (i.oldStateKeys type) stateKey) :
    (StateFilter.fromTypes ((i.additions orders).2 ++ i.addedLazyMembers orders)).contains
        (type,stateKey) ↔
      if i.AddsLazy type then i.LoadsLazily stateKey
      else type = member → wildcard ∈ i.requestStateKeys type ∨
        (me ∈ i.requestStateKeys type ∧ stateKey = i.userId) ∨
          stateKey ∉ i.previouslyReturnedLazyUserIds := by
  rw [contains_added]
  by_cases hlazy : i.AddsLazy type
  · have hnot : ¬i.Fetches type := fun h => h.2.1 hlazy
    rw [if_pos hlazy,and_iff_right hlazy.1]
    exact or_iff_left fun h => hnot h.1
  rw [if_neg hlazy]
  have hexpands : i.Expands type := by
    by_contra hnot
    exact hprev (hrequest.mono (subset_of_not_expands hnot))
  have hfetches : i.Fetches type := ⟨hexpands,hlazy,fun h => hprev (.inl h)⟩
  by_cases hwild : wildcard ∈ i.requestStateKeys type
  · simp [hfetches,hwild]
  have hme : me ∈ i.requestStateKeys type ∧ stateKey = i.userId →
      ∃ key ∈ i.requestStateKeys type \ i.oldStateKeys type,
        i.addedType type key = some (type,some stateKey) := by
    rintro ⟨hme,rfl⟩
    refine ⟨me,mem_sdiff.mpr ⟨hme,fun h => hprev (.inr (.inl ⟨h,rfl⟩))⟩,?_⟩
    rw [addedType,if_pos rfl]
  simp only [hwild,hfetches,true_and,false_or]
  constructor
  · rintro (⟨-,-,hreturned,-⟩ | ⟨key,hkey,hadded⟩) htype
    · exact .inr hreturned
    · rcases (addedType_eq_some hadded).2 with ⟨rfl,huser⟩ | ⟨hsame,hreturned⟩
      · exact .inl ⟨(mem_sdiff.mp hkey).1,Option.some.inj huser⟩
      · exact .inr (Option.some.inj hsame ▸ hreturned htype)
  · intro hmembers
    right
    rcases hrequest with h | h | ⟨hkey,hplain⟩
    · exact absurd h hwild
    · exact hme h
    have hnew : stateKey ∈ i.requestStateKeys type \ i.oldStateKeys type :=
      mem_sdiff.mpr ⟨hkey,fun h => hprev (.inr (.inr ⟨h,hplain⟩))⟩
    obtain ⟨-,hlazyKey,hmeKey⟩ := hplain
    by_cases htype : type = member
    · rcases hmembers htype with h | hreturned
      · exact hme h
      · refine ⟨stateKey,hnew,?_⟩
        rw [addedType,if_neg hmeKey,if_neg hlazyKey,if_pos htype,if_pos hreturned]
    · refine ⟨stateKey,hnew,?_⟩
      rw [addedType,if_neg hmeKey,if_neg hlazyKey,if_neg htype]

/-- What the request covers was covered before, or is sent as a change or as current state. -/
def SendsNew (i : RequiredStateInput) (orders : SetOrders) : Prop :=
  ∀ eventType stateKey, Covers i.userId i.requestRequiredStateMap eventType stateKey →
    Covers i.userId i.prevRequiredStateMap eventType stateKey ∨ i.Changed eventType stateKey ∨
      (i.requiredStateChanges orders).addedStateFilter.contains (eventType,stateKey) = true

/-- Where only keys of the type wildcard are removed, nothing new is requested. Where lazy loading
of members is added, each member that is requested beside it is lazy loaded. Elsewhere, a member
that is requested newly was not returned as a lazy member. All this does not matter for what was
covered before or has changed. -/
structure SendsMembers (i : RequiredStateInput) : Prop where
  narrowed : wildcard ∉ i.oldStateKeys wildcard →
    i.requestStateKeys wildcard ⊂ i.oldStateKeys wildcard → ∀ eventType stateKey,
      KeyCovers i.userId (i.requestStateKeys eventType) stateKey →
        Covers i.userId i.prevRequiredStateMap eventType stateKey ∨ i.Changed eventType stateKey
  addsLazy : i.ComparesTypes → i.AddsLazy member → ∀ stateKey,
    KeyCovers i.userId (i.requestStateKeys member) stateKey →
      Covers i.userId i.prevRequiredStateMap member stateKey ∨ i.Changed member stateKey ∨
        i.LoadsLazily stateKey
  returned : i.ComparesTypes → ¬i.AddsLazy member → wildcard ∉ i.requestStateKeys member →
    ∀ stateKey, KeyCovers i.userId (i.requestStateKeys member) stateKey →
      stateKey ∈ i.previouslyReturnedLazyUserIds →
        Covers i.userId i.prevRequiredStateMap member stateKey ∨ i.Changed member stateKey ∨
          (me ∈ i.requestStateKeys member ∧ stateKey = i.userId)

theorem sendsMembers_of_unchanged (h : i.unchanged) : i.SendsMembers where
  narrowed _ hnarrowed := absurd (@keysOf_eq_of_unchanged i wildcard h).symm hnarrowed.ne
  addsLazy _ hlazy := absurd (@keysOf_eq_of_unchanged i member h ▸ hlazy.2.2) hlazy.2.1
  returned _ _ _ _ hcovers _ := .inl ((covers_iff_of_unchanged h).mpr (.inl hcovers))

theorem sendsNew_iff_of_comparesTypes (hchanged : i.unchanged = false)
    (hcompares : i.ComparesTypes) : i.SendsNew orders ↔ i.SendsMembers := by
  have hfilter : (i.requiredStateChanges orders).addedStateFilter =
      .fromTypes ((i.additions orders).2 ++ i.addedLazyMembers orders) := by
    rcases @requiredStateChanges_cases i orders hchanged with ⟨hall,-⟩ | ⟨-,hadded,-⟩ |
      ⟨-,hremoved,-⟩ | ⟨-,-,hfilter⟩
    · exact absurd hall hcompares.1
    · exact absurd hcompares.2.symm.subset hadded
    · exact absurd hcompares.2.symm hremoved.ne
    · exact hfilter
  constructor
  · intro hsends
    have hnew : ∀ {stateKey}, KeyCovers i.userId (i.requestStateKeys member) stateKey →
        Covers i.userId i.prevRequiredStateMap member stateKey ∨ i.Changed member stateKey ∨
          if i.AddsLazy member then i.LoadsLazily stateKey
          else member = member → wildcard ∈ i.requestStateKeys member ∨
            (me ∈ i.requestStateKeys member ∧ stateKey = i.userId) ∨
              stateKey ∉ i.previouslyReturnedLazyUserIds := by
      intro stateKey hcovers
      by_cases hprev : Covers i.userId i.prevRequiredStateMap member stateKey
      · exact .inl hprev
      · rw [← @contains_added_iff i orders _ _ hcovers fun h => hprev (.inl h),← hfilter]
        exact hsends member stateKey (.inl hcovers)
    refine ⟨fun _ hnarrowed => absurd hcompares.2.symm hnarrowed.ne,?_,?_⟩
    · intro _ hlazy stateKey hcovers
      simpa only [if_pos hlazy] using hnew hcovers
    · intro _ hlazy hwild stateKey hcovers hreturned
      simpa [if_neg hlazy,hwild,hreturned] using hnew hcovers
  · intro hmembers type stateKey hcovers
    by_cases hprev : Covers i.userId i.prevRequiredStateMap type stateKey
    · exact .inl hprev
    by_cases hdelta : i.Changed type stateKey
    · exact .inr (.inl hdelta)
    have hcovers : KeyCovers i.userId (i.requestStateKeys type) stateKey := by
      refine hcovers.resolve_right fun hany => hprev (.inr ?_)
      have hsame : keysOf i.prevRequiredStateMap wildcard =
        keysOf i.requestRequiredStateMap wildcard := hcompares.2
      rwa [hsame]
    rw [hfilter,contains_added_iff hcovers fun h => hprev (.inl h)]
    refine .inr (.inr ?_)
    split
    · rename_i hlazy
      obtain rfl := hlazy.1
      rcases hmembers.addsLazy hcompares hlazy stateKey hcovers with h | h | h
      · exact absurd h hprev
      · exact absurd h hdelta
      · exact h
    · rename_i hlazy
      rintro rfl
      by_contra hnot
      rw [not_or,not_or,not_not] at hnot
      obtain ⟨hwild,hme,hreturned⟩ := hnot
      rcases hmembers.returned hcompares hlazy hwild stateKey hcovers hreturned with h | h | h
      · exact hprev h
      · exact hdelta h
      · exact hme h

/-- The state that a request covers newly is sent in just these cases. -/
theorem sendsNew_iff_sendsMembers (i : RequiredStateInput) (orders : SetOrders) :
    i.SendsNew orders ↔ i.SendsMembers := by
  cases hchanged : i.unchanged with
  | true =>
    refine iff_of_true (fun eventType stateKey hcovers => ?_) (sendsMembers_of_unchanged hchanged)
    exact .inl ((covers_iff_of_unchanged hchanged).mpr hcovers)
  | false =>
    rcases @requiredStateChanges_cases i orders hchanged with ⟨hall,-⟩ | ⟨hall,hadded,-,hfilter⟩ |
      ⟨hall,hremoved,-,hfilter⟩ | ⟨hcompares,-,-⟩
    · refine iff_of_true (fun eventType stateKey _ => .inl (.inr (.inl hall))) ⟨?_,?_,?_⟩
      · exact fun h => absurd hall h
      · exact fun h => absurd hall h.1
      · exact fun h => absurd hall h.1
    · refine iff_of_true (fun eventType stateKey _ => ?_) ⟨?_,?_,?_⟩
      · rw [hfilter]
        exact .inr (.inr rfl)
      · exact fun _ h => absurd h.subset hadded
      · exact fun h => absurd h.2.symm.subset hadded
      · exact fun h => absurd h.2.symm.subset hadded
    · constructor
      · intro hsends
        refine ⟨fun _ _ eventType stateKey hcovers => ?_,?_,?_⟩
        · rcases hsends eventType stateKey (.inl hcovers) with h | h | h
          · exact .inl h
          · exact .inr h
          · rw [hfilter] at h
            cases h
        · exact fun h => absurd h.2.symm hremoved.ne
        · exact fun h => absurd h.2.symm hremoved.ne
      · rintro hmembers eventType stateKey (hcovers | hany)
        · rcases hmembers.narrowed hall hremoved eventType stateKey hcovers with h | h
          · exact .inl h
          · exact .inr (.inl h)
        · exact .inl (.inr (hany.mono hremoved.subset))
    · exact sendsNew_iff_of_comparesTypes hchanged hcompares

def addsLazyAndMember : RequiredStateInput where
  userId := "@a:h"
  prevRequiredStateMap := ∅
  requestRequiredStateMap := (∅ : RequiredStateMap).insert member {lazy,"@b:h"}
  previouslyReturnedLazyUserIds := ∅
  requestLazyLoadUserIds := ∅
  stateDeltas := ∅

/-- The member is not fetched. -/
theorem member_beside_lazy_not_sent :
    Covers "@a:h" addsLazyAndMember.requestRequiredStateMap member "@b:h" ∧
      ¬Covers "@a:h" addsLazyAndMember.prevRequiredStateMap member "@b:h" ∧
      ¬addsLazyAndMember.Changed member "@b:h" ∧
      (addsLazyAndMember.requiredStateChanges .sorted).addedStateFilter.contains (member,"@b:h") =
        false ∧ ¬addsLazyAndMember.SendsNew .sorted := by
  have hcovers : Covers "@a:h" addsLazyAndMember.requestRequiredStateMap member "@b:h" := by
    unfold Covers KeyCovers
    decide +kernel
  have hprev : ¬Covers "@a:h" addsLazyAndMember.prevRequiredStateMap member "@b:h" := by
    unfold Covers KeyCovers
    decide +kernel
  have hchanged : ¬addsLazyAndMember.Changed member "@b:h" := by
    unfold Changed
    decide +kernel
  have hfilter : (addsLazyAndMember.requiredStateChanges .sorted).addedStateFilter.contains
      (member,"@b:h") = false := by
    decide +kernel
  refine ⟨hcovers,hprev,hchanged,hfilter,fun h => ?_⟩
  rcases h member "@b:h" hcovers with h | h | h
  · exact hprev h
  · exact hchanged h
  · rw [hfilter] at h
    cases h

end RequiredStateInput

end TextrpBriij.SlidingSync
