import TextrpBriij.StateStore.History

/-! # Cached deltas of state groups

The answers of `get_state_group_delta` are cached, and no writer invalidates them. An answer
stays valid unless a purge deletes the previous group that it names and leaves its group.
-/
namespace TextrpBriij.StateStore
open State StateDb List
open AuthChain (Dict)
open TextrpBriij.Stream (DatabaseEngine)

/-- The previous group and the delta, if both are given. -/
def StateDb.getStateGroupDelta (db : StateDb) (stateGroup : ℕ) : Option (ℕ × StateMap String) :=
  match db.prevGroup stateGroup with
  | some (prev + 1) =>
    let deltaIds := (db.stateGroupsState.filter fun row => row.1 = stateGroup).map (·.2)
    some (prev + 1,deltaIds.foldl (fun ids row => ids.insert row.1 row.2) ∅)
  | _ => none

structure DeltaWorld extends World where
  cache : Dict ℕ (Option (ℕ × StateMap String))

namespace DeltaWorld

def getStateGroupDelta (w : DeltaWorld) (stateGroup : ℕ) : Option (ℕ × StateMap String) :=
  (w.cache.lookup stateGroup).getD (w.db.getStateGroupDelta stateGroup)

def call (engine : DatabaseEngine) (w : DeltaWorld) (c : Call) : DeltaWorld :=
  { w with toWorld := w.toWorld.call engine c }

def read (w : DeltaWorld) (g : ℕ) : DeltaWorld :=
  { w with cache := w.cache.insert g (w.getStateGroupDelta g) }

/-- The states after any sequence of calls that meet a condition, reads and evictions. -/
inductive Reachable (engine : DatabaseEngine) (P : DeltaWorld → Call → Prop) : DeltaWorld → Prop
  | empty : Reachable engine P ⟨.empty,∅⟩
  | call {w : DeltaWorld} {c : Call} :
    Reachable engine P w → w.Consistent c → P w c → Reachable engine P (w.call engine c)
  | read {w : DeltaWorld} (g : ℕ) : Reachable engine P w → Reachable engine P (w.read g)
  | evict {w : DeltaWorld} (keep : ℕ → Bool) : Reachable engine P w →
    Reachable engine P { w with cache := Entries.restrict w.cache fun g _ => keep g }

/-- No cached answer for a group that is left names a group that is deleted. -/
def Spares (w : DeltaWorld) (c : Call) : Prop :=
  ∀ g ∈ w.db.groupIds, g ∉ c.deleted → ∀ delta, w.cache.lookup g = some (some delta) → delta.1 ∉ c.deleted

end DeltaWorld

variable {engine : DatabaseEngine} {db : StateDb} {created : ℕ → String × String → Option String}
  {lastId g : ℕ} {delta : ℕ × StateMap String}

def Gives (db : StateDb) (created : ℕ → String × String → Option String) (g : ℕ)
    (delta : ℕ × StateMap String) : Prop :=
  delta.1 ∈ db.groupIds ∧ created g = overridden (created delta.1) delta.2

theorem Faithful.gives (h : Faithful db created lastId) (hdelta : db.getStateGroupDelta g = some delta) :
    g ∈ db.groupIds ∧ Gives db created g delta := by
  have hwf := h.wellFormed
  unfold StateDb.getStateGroupDelta at hdelta
  split at hdelta
  · rename_i prev hprev
    cases hdelta
    obtain ⟨hin,hprevIn,-⟩ := hwf.edges _ ((prevGroup_eq_some hwf).mp hprev)
    refine ⟨hin,hprevIn,funext fun key => ?_⟩
    rw [← h.stateOf g hin,StateDb.stateOf,DeltaChain.value_eq hwf.descends,hprev,overridden,
      ← h.stateOf _ hprevIn]
    refine congrArg (Option.or · _) (Option.ext fun v => ?_)
    have hrow : ∀ {key v}, (key,v) ∈ (db.stateGroupsState.filter fun row => row.1 = g).map (·.2) ↔
        db.ownEntry g key = some v := by
      simp [ownEntry_eq_some hwf]
    refine hrow.symm.trans (Entries.lookup_foldl_insert fun key v v' hv hv' => ?_).symm
    exact Option.some_inj.mp ((hrow.mp hv).symm.trans (hrow.mp hv'))
  · cases hdelta

namespace DeltaWorld
variable {w : DeltaWorld}

structure Inv (w : DeltaWorld) : Prop where
  faithful : Faithful w.db w.created w.lastId
  cached : ∀ g delta, w.cache.lookup g = some (some delta) →
    g ≤ w.lastId ∧ (g ∈ w.db.groupIds → Gives w.db w.created g delta)

theorem Inv.answer (h : w.Inv) (hdelta : w.getStateGroupDelta g = some delta) :
    g ≤ w.lastId ∧ (g ∈ w.db.groupIds → Gives w.db w.created g delta) := by
  unfold getStateGroupDelta at hdelta
  cases hcached : w.cache.lookup g with
  | some answer =>
    rw [hcached] at hdelta
    exact h.cached g delta (hcached.trans (congrArg some hdelta))
  | none =>
    rw [hcached] at hdelta
    obtain ⟨hin,hgives⟩ := h.faithful.gives hdelta
    exact ⟨h.faithful.le_lastId g hin,fun _ => hgives⟩

theorem Inv.call (h : w.Inv) {c : Call} (hc : w.Consistent c) (hspares : w.Spares c) :
    (w.call engine c).Inv := by
  have hleaves := @Faithful.call engine w.toWorld h.faithful c hc
  refine ⟨hleaves.faithful,fun g delta hcached => ?_⟩
  obtain ⟨hg,hgives⟩ := h.cached g delta hcached
  refine ⟨hg.trans hleaves.lastId_le,fun hin => ?_⟩
  obtain ⟨hold,hstays⟩ := (hleaves.mem_iff g hg).mp hin
  obtain ⟨hprev,hvalue⟩ := hgives hold
  have hle := h.faithful.le_lastId _ hprev
  refine ⟨(hleaves.mem_iff _ hle).mpr ⟨hprev,hspares g hold hstays delta hcached⟩,?_⟩
  exact (hleaves.created g hg).trans (hvalue.trans (congrArg (overridden · _) (hleaves.created _ hle).symm))

theorem Reachable.inv (h : w.Reachable engine Spares) : w.Inv := by
  induction h with
  | empty => exact ⟨(@World.Reachable.empty engine).faithful,nofun⟩
  | call _ hc hspares ih => exact ih.call hc hspares
  | read g _ ih =>
    refine ⟨ih.faithful,fun g' delta hlookup => ?_⟩
    obtain ⟨rfl,hnew⟩ | ⟨-,hold⟩ := Entries.insert_cases hlookup
    · exact ih.answer hnew.symm
    · exact ih.cached g' delta hold
  | evict keep _ ih =>
    refine ⟨ih.faithful,fun g delta hlookup => ih.cached g delta ?_⟩
    rw [Entries.lookup_restrict] at hlookup
    exact (Option.filter_eq_some_iff.mp hlookup).1

/-- In every history in which no purge deletes a group that a cached answer for a remaining group
names, the group that an answer names exists, and the delta leads from its state to the state. -/
theorem deltas_valid_of_spared (h : w.Reachable engine Spares) :
    ∀ g ∈ w.db.groupIds, ∀ p d, w.getStateGroupDelta g = some (p,d) → p ∈ w.db.groupIds ∧
      ∀ key, (getStateGroupsFromGroups engine w.db .all g).lookup key =
        overridden (getStateGroupsFromGroups engine w.db .all p).lookup d key := by
  intro g hg p d hdelta
  have hfaithful := h.inv.faithful
  obtain ⟨hp,hvalue⟩ := (h.inv.answer hdelta).2 hg
  refine ⟨hp,fun key => ?_⟩
  rw [overridden,lookup_readAll hfaithful.wellFormed engine hg,lookup_readAll hfaithful.wellFormed engine hp,
    hfaithful.stateOf g hg,hfaithful.stateOf p hp,hvalue,overridden]

def topicDelta : DeltaWorld :=
  ((topicAndName.take 2).foldl (call .sqlite) ⟨.empty,∅⟩).read 2

theorem reachable_topicDelta {P : DeltaWorld → Call → Prop} (hP : ∀ w c, c.deleted = [] → P w c) :
    topicDelta.Reachable .sqlite P := by
  refine .read 2 (.call (.call .empty ?_ (hP _ _ rfl)) ?_ (hP _ _ rfl))
  · exact ⟨by decide,fun prev hprev => nomatch hprev⟩
  · exact ⟨by decide +kernel,fun prev _ delta _ current hcurrent => nomatch hcurrent⟩

theorem topic_delta_valid :
    (topicDelta.getStateGroupDelta 2).map (·.1) = some 1 ∧ 1 ∈ topicDelta.db.groupIds := by
  have hreachable := reachable_topicDelta (P := Spares) fun w c hc => by simp [Spares,hc]
  exact ⟨rfl,(deltas_valid_of_spared hreachable 2 (by decide +kernel) 1 _ rfl).1⟩

/-- The group that the answer names is deleted, and the answer is given again. -/
theorem topic_delta_names_deleted_group : ∃ w : DeltaWorld, w.Reachable .sqlite (fun _ _ => True) ∧
    2 ∈ w.db.groupIds ∧ (w.getStateGroupDelta 2).map (·.1) = some 1 ∧ 1 ∉ w.db.groupIds :=
  ⟨topicDelta.call .sqlite (.purgeUnreferencedStateGroups [1]),
    .call (reachable_topicDelta fun _ _ _ => trivial) trivial trivial,by decide +kernel,rfl,by decide +kernel⟩

end DeltaWorld

end TextrpBriij.StateStore
