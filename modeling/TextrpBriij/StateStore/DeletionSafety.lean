import TextrpBriij.Foundation.Runs
import TextrpBriij.StateStore.Deletion
import TextrpBriij.StateStore.Meaning

/-! # No event points at a deleted state group

A group that a deletion has found to be unreferenced can only become referenced while it is
marked as persisting, and when the mark is removed the group has lost the sequence number with
which the deletion was started. The state of a rejected event and the new state of an event that
had partial state are stored without such a mark.
-/
namespace TextrpBriij.StateStore
open List AList Runs Fallible DeletionTables
open AuthChain (Dict)
open StateDb
open TextrpBriij.Stream (DatabaseEngine)

variable {t t' t'' : DeletionTables} {group now : ℕ} {stateGroups : List ℕ}

namespace DeletionTables

structure Renews (t t' : DeletionTables) : Prop where
  next : t.nextSequenceNumber ≤ t'.nextSequenceNumber
  sequenceNumber : ∀ group s, t'.sequenceNumber group = some s →
    t.sequenceNumber group = some s ∨ t.nextSequenceNumber ≤ s ∧ s < t'.nextSequenceNumber
  persisting : t'.persisting = t.persisting

theorem Renews.refl : Renews t t := ⟨le_rfl,fun _ _ h => .inl h,rfl⟩

theorem Renews.fresh (h : Renews t t')
    (hfresh : ∀ group s, t.sequenceNumber group = some s → s < t.nextSequenceNumber) (group s : ℕ)
    (hs : t'.sequenceNumber group = some s) : s < t'.nextSequenceNumber := by
  rcases h.sequenceNumber group s hs with hold | hnew
  · exact (hfresh group s hold).trans_le h.next
  · exact hnew.2

theorem Renews.trans (h : Renews t t') (h' : Renews t' t'') : Renews t t'' where
  next := h.next.trans h'.next
  sequenceNumber group s hs := by
    have hnext := h.next
    have hnext' := h'.next
    rcases h'.sequenceNumber group s hs with hold | hnew
    · rcases h.sequenceNumber group s hold with hold | hnew
      · exact .inl hold
      · exact .inr (by omega)
    · exact .inr (by omega)
  persisting := h'.persisting.trans h.persisting

theorem sequenceNumber_insertPending (g : ℕ) : (t.insertPending now group).sequenceNumber g =
    if g = group then some t.nextSequenceNumber else t.sequenceNumber g := by
  unfold sequenceNumber insertPending
  by_cases hg : g = group
  · rw [if_pos hg,hg,lookup_insert]
    rfl
  · rw [if_neg hg,lookup_insert_ne hg]

theorem renews_insertPending : Renews t (t.insertPending now group) where
  next := Nat.le_succ _
  sequenceNumber g s hs := by
    rw [sequenceNumber_insertPending] at hs
    split at hs
    · cases hs
      exact .inr ⟨le_rfl,Nat.lt_succ_self _⟩
    · exact .inl hs
  persisting := rfl

theorem sequenceNumber_removePending (g : ℕ) : (t.removePending stateGroups).sequenceNumber g =
    if g ∈ stateGroups then none else t.sequenceNumber g := by
  unfold sequenceNumber removePending
  rw [Entries.lookup_restrict]
  by_cases hg : g ∈ stateGroups
  · simp [hg]
  · cases t.pendingDeletion.lookup g <;> simp [hg]

theorem renews_removePending : Renews t (t.removePending stateGroups) where
  next := le_rfl
  sequenceNumber g s hs := by
    rw [sequenceNumber_removePending] at hs
    split at hs
    · cases hs
    · exact .inl hs
  persisting := rfl

theorem renews_markAsPendingDeletion : Renews t (t.markAsPendingDeletion now stateGroups) := by
  refine foldl_preserves (fun t' group h => ?_) .refl
  split
  · exact h
  · exact h.trans renews_insertPending

theorem renews_bump_round : Renews t (if group ∈ t.pendingDeletion then t.insertPending now group else t) := by
  split
  · exact renews_insertPending
  · exact .refl

theorem renews_bumpDeletion : Renews t (t.bumpDeletion now stateGroups) :=
  foldl_preserves (fun _ _ h => h.trans renews_bump_round) .refl

theorem le_of_bumpDeletion (hgroup : group ∈ stateGroups) {s : ℕ}
    (h : (t.bumpDeletion now stateGroups).sequenceNumber group = some s) : t.nextSequenceNumber ≤ s := by
  induction stateGroups generalizing t with
  | nil => cases hgroup
  | cons next stateGroups ih =>
    have hround : Renews t (if next ∈ t.pendingDeletion then t.insertPending now next else t) :=
      renews_bump_round
    change (bumpDeletion (if next ∈ t.pendingDeletion then t.insertPending now next else t) now
      stateGroups).sequenceNumber group = some s at h
    rcases mem_cons.mp hgroup with rfl | hgroup
    · rcases renews_bumpDeletion.sequenceNumber group s h with hold | hnew
      · split at hold
        · rw [sequenceNumber_insertPending,if_pos rfl] at hold
          exact (Option.some.inj hold).le
        · rename_i hnot
          rw [sequenceNumber,lookup_eq_none.mpr hnot] at hold
          cases hold
      · exact hround.next.trans hnew.1
    · exact hround.next.trans (ih hgroup h)

end DeletionTables

/-- The deletion has found the group to be unreferenced, and the group still has the sequence
number with which the deletion was started. -/
def Deletion.Holds (d : Deletion) (t : DeletionTables) (group : ℕ) : Prop :=
  group ∉ d.unchecked ∧ group ∉ d.referenced ∧ group ∈ d.groupsToSequences ∧
    d.groupsToSequences.lookup group = t.sequenceNumber group

def Refers (rows : Dict String ℕ) (group : ℕ) : Prop := ∃ eventId, rows.lookup eventId = some group

variable {rows : Dict String ℕ}

theorem refers_insert {eventId : String} {g : ℕ}
    (h : Refers (rows.insert eventId group) g) : Refers rows g ∨ g = group := by
  obtain ⟨other,hother⟩ := h
  rcases Entries.insert_cases hother with ⟨-,rfl⟩ | ⟨-,hold⟩
  · exact .inr rfl
  · exact .inl ⟨other,hold⟩

variable {events : List StatefulEvent}

theorem refers_storeEventStateMappings {rows' : Dict String ℕ}
    (h : storeEventStateMappings rows events = .ok rows') (hrefers : Refers rows' group) :
    Refers rows group ∨ ∃ event ∈ events, event.outlier = false ∧ event.storedGroup = some group := by
  have hall : ∀ g, Refers rows' g →
      Refers rows g ∨ ∃ event ∈ events, event.outlier = false ∧ event.storedGroup = some g := by
    refine foldlM_preserves (fun done (rows' : Dict String ℕ) => ∀ g, Refers rows' g →
      Refers rows g ∨ ∃ event ∈ done, event.outlier = false ∧ event.storedGroup = some g) h
      (fun g hg => .inl hg) ?_
    intro done event before after hbefore hstep g hg
    have hold : Refers before g → Refers rows g ∨
        ∃ other ∈ done ++ [event], other.outlier = false ∧ other.storedGroup = some g := by
      intro hg
      refine (hbefore g hg).imp_right fun hdone => ?_
      obtain ⟨other,hin,hother⟩ := hdone
      exact ⟨other,mem_append_left _ hin,hother⟩
    split at hstep
    · cases hstep
      exact hold hg
    · rename_i houtlier
      split at hstep
      · cases hstep
      · rename_i stored hstored
        cases hstep
        rcases refers_insert hg with hg | rfl
        · exact hold hg
        · exact .inr ⟨event,by simp,by simpa using houtlier,hstored⟩
  exact hall group hrefers

theorem mem_referencedStateGroups
    (h : referencedStateGroups events = .ok stateGroups) {event : StatefulEvent} (hin : event ∈ events)
    (hrejected : event.rejected = false) (houtlier : event.outlier = false)
    (hgroup : group ∈ event.stateGroup) : group ∈ stateGroups := by
  obtain ⟨groups,hgroups,hpure⟩ := bind_eq_ok.mp h
  cases hpure
  obtain ⟨marked,hmarked⟩ := exists_of_mapM_eq_ok hgroups hin
  have hmem : marked ∈ groups := (mem_of_mapM_eq_ok hgroups).mpr ⟨event,hin,hmarked⟩
  rw [mem_dedup,mem_flatten]
  refine ⟨marked,hmem,?_⟩
  rw [StatefulEvent.markedGroups,hrejected,houtlier,Option.mem_def.mp hgroup] at hmarked
  simp only [Bool.or_false,Bool.false_eq_true,if_false] at hmarked
  split at hmarked
  · cases hmarked
    exact mem_cons_self
  · cases hmarked
    exact mem_cons_self

theorem isReferenced_of_refers (h : Refers rows group) : isReferenced rows group := by
  obtain ⟨eventId,hlookup⟩ := h
  rw [isReferenced,any_eq_true]
  exact ⟨⟨eventId,group⟩,mem_lookup_iff.mp hlookup,decide_eq_true rfl⟩

namespace DeletionWorld

def Apart (p q : Persist) : Prop :=
  ∀ group ∈ p.stateGroups, group ∈ q.stateGroups → p.instanceName ≠ q.instanceName

structure Inv (w : DeletionWorld) : Prop where
  references : ∀ group, Refers w.eventToStateGroups group → group ∈ w.db.groupIds
  persisting : ∀ row ∈ w.tables.persisting, row.1 ∈ w.db.groupIds
  marked : ∀ p ∈ w.persists, ∀ group ∈ p.stateGroups, (group,p.instanceName) ∈ w.tables.persisting
  apart : w.persists.Pairwise Apart
  covered : ∀ p ∈ w.persists, ∀ event ∈ p.chunk, event.rejected = false → event.outlier = false →
    ∀ group ∈ event.stateGroup, group ∈ p.stateGroups
  fresh : ∀ group s, w.tables.sequenceNumber group = some s → s < w.tables.nextSequenceNumber
  listed : ∀ d ∈ w.deletions, ∀ group s, d.groupsToSequences.lookup group = some s →
    s < w.tables.nextSequenceNumber
  held : ∀ d ∈ w.deletions, ∀ group, d.Holds w.tables group → Refers w.eventToStateGroups group →
    w.tables.isPersisting group

variable {w w' : DeletionWorld} {engine : DatabaseEngine}

/-- A deletion that holds a group has held it before its sequence number could be renewed. -/
theorem Holds.of_renews (hrenews : w.tables.Renews t') {d : Deletion}
    (hlisted : ∀ group s, d.groupsToSequences.lookup group = some s → s < w.tables.nextSequenceNumber)
    (hholds : d.Holds t' group) : d.Holds w.tables group := by
  obtain ⟨hunchecked,hreferenced,hin,hlookup⟩ := hholds
  obtain ⟨s,hs⟩ := Option.isSome_iff_exists.mp (lookup_isSome.mpr hin)
  have hlt := hlisted group s hs
  rcases hrenews.sequenceNumber group s (hlookup ▸ hs) with hold | hnew
  · exact ⟨hunchecked,hreferenced,hin,hs.trans hold.symm⟩
  · omega

theorem Inv.renew (h : w.Inv) {db : StateDb} {lastId : ℕ} (hdb : w.db.groupIds ⊆ db.groupIds)
    (hrenews : w.tables.Renews t') : { w with db := db, lastId := lastId, tables := t' }.Inv where
  references group hrefers := hdb (h.references group hrefers)
  persisting row hrow := hdb (h.persisting row (hrenews.persisting ▸ hrow))
  marked p hp group hgroup := hrenews.persisting ▸ h.marked p hp group hgroup
  apart := h.apart
  covered := h.covered
  fresh := hrenews.fresh h.fresh
  listed d hd group s hs := (h.listed d hd group s hs).trans_le hrenews.next
  held d hd group hholds hrefers := by
    have hold := h.held d hd group (Holds.of_renews hrenews (h.listed d hd) hholds) hrefers
    unfold isPersisting
    rw [hrenews.persisting]
    exact hold

def Safe (w : DeletionWorld) (group : ℕ) : Prop :=
  group ∈ w.db.groupIds ∧ (w.tables.isPersisting group ∨ ∀ d ∈ w.deletions, ¬d.Holds w.tables group)

theorem Inv.write (h : w.Inv)
    (hrows : ∀ group, Refers rows group → Refers w.eventToStateGroups group ∨ w.Safe group) :
    { w with eventToStateGroups := rows }.Inv := by
  refine { h with
    references := fun group hrefers => (hrows group hrefers).elim (h.references group) (·.1)
    held := fun d hd group hholds hrefers => ?_ }
  rcases hrows group hrefers with hold | hsafe
  · exact h.held d hd group hholds hold
  · exact hsafe.2.resolve_right fun hnone => hnone d hd hholds

variable {p : Persist}

theorem Inv.safe_of_marked (h : w.Inv) (hp : p ∈ w.persists)
    (hgroup : group ∈ p.stateGroups) : w.Safe group := by
  have hmark := h.marked p hp group hgroup
  exact ⟨h.persisting _ hmark,.inl ⟨_,hmark,rfl⟩⟩

variable {instanceName : String}

theorem Inv.startPersisting (h : w.Inv) {eventsAndContexts chunk : List StatefulEvent}
    (hchunk : ∀ event ∈ chunk, event ∈ eventsAndContexts)
    (hgroups : referencedStateGroups eventsAndContexts = .ok stateGroups)
    (hmark : w.tables.markAsPersisting w.db instanceName stateGroups = .ok t') : { w with
      tables := t'
      persists := w.persists ++ [Persist.mk instanceName stateGroups chunk false] }.Inv := by
  unfold markAsPersisting at hmark
  split at hmark
  · cases hmark
  rename_i hexist
  split at hmark
  · cases hmark
  rename_i hnew
  cases hmark
  push Not at hexist hnew
  refine ⟨h.references,forall_mem_append.mpr ⟨h.persisting,forall_mem_map.mpr hexist⟩,?_,?_,?_,h.fresh,
    h.listed,fun d hd group hholds hrefers => ?_⟩
  · refine forall_mem_append.mpr ⟨fun p hp group hgroup => ?_,forall_mem_singleton.mpr fun group hgroup => ?_⟩
    · exact mem_append_left _ (h.marked p hp group hgroup)
    · exact mem_append_right _ (mem_map_of_mem hgroup)
  · refine pairwise_append.mpr ⟨h.apart,pairwise_singleton _ _,fun p hp q hq => ?_⟩
    obtain rfl := mem_singleton.mp hq
    intro group hgroup hin heq
    have hmark := h.marked p hp group hgroup
    rw [heq] at hmark
    exact hnew group hin hmark
  · refine forall_mem_append.mpr ⟨h.covered,forall_mem_singleton.mpr ?_⟩
    intro event hevent hrejected houtlier group hgroup
    exact mem_referencedStateGroups hgroups (hchunk event hevent) hrejected houtlier hgroup
  · obtain ⟨row,hrow,heq⟩ := h.held d hd group hholds hrefers
    exact ⟨row,mem_append_left _ hrow,heq⟩

/-- When a group is no longer marked, it has lost the sequence number that it had. -/
theorem sequenceNumber_finishPersisting {error : Bool} (hgroup : group ∈ stateGroups) {s : ℕ}
    (h : (t.finishPersisting now instanceName stateGroups error).sequenceNumber group = some s) :
    t.nextSequenceNumber ≤ s := by
  unfold finishPersisting at h
  cases error with
  | true => exact @DeletionTables.le_of_bumpDeletion (t.unmark instanceName stateGroups) _ _ _ hgroup s h
  | false =>
    rw [if_neg Bool.false_ne_true,sequenceNumber_removePending,if_pos hgroup] at h
    cases h

theorem renews_finishPersisting (instanceName : String) (error : Bool) :
    (t.unmark instanceName stateGroups).Renews (t.finishPersisting now instanceName stateGroups error) := by
  cases error with
  | true => exact renews_bumpDeletion
  | false => exact renews_removePending

theorem mem_persisting_finishPersisting {error : Bool} {row : ℕ × String} :
    row ∈ (t.finishPersisting now instanceName stateGroups error).persisting ↔
      row ∈ t.persisting ∧ ¬(row.1 ∈ stateGroups ∧ row.2 = instanceName) := by
  rw [(renews_finishPersisting instanceName error).persisting,unmark,mem_filter,
    decide_eq_true_eq]

theorem Inv.apart_erase (h : w.Inv) {i : ℕ} (hp : w.persists[i]? = some p) :
    (w.persists.eraseIdx i).Pairwise Apart ∧ ∀ q ∈ w.persists.eraseIdx i, q ∈ w.persists ∧
      ∀ group ∈ q.stateGroups, group ∈ p.stateGroups → q.instanceName ≠ p.instanceName := by
  obtain ⟨before,after,hsplit,-,herase⟩ := split_at hp
  have hapart := h.apart
  rw [hsplit,pairwise_append,pairwise_cons] at hapart
  obtain ⟨hbefore,⟨hnext,hafter⟩,hcross⟩ := hapart
  rw [herase,hsplit]
  refine ⟨pairwise_append.mpr ⟨hbefore,hafter,fun q hq r hr => ?_⟩,fun q hq => ⟨?_,?_⟩⟩
  · exact hcross q hq r (mem_cons_of_mem _ hr)
  · rcases mem_append.mp hq with hq | hq
    · exact mem_append_left _ hq
    · exact mem_append_right _ (mem_cons_of_mem _ hq)
  · intro group hgroup hin heq
    rcases mem_append.mp hq with hq | hq
    · exact hcross q hq p mem_cons_self group hgroup hin heq
    · exact hnext q hq group hin hgroup heq.symm

theorem Inv.finishPersisting (h : w.Inv) {i : ℕ} (hp : w.persists[i]? = some p) (error : Bool) : { w with
      tables := w.tables.finishPersisting w.now p.instanceName p.stateGroups error
      persists := w.persists.eraseIdx i }.Inv := by
  obtain ⟨hapart,hothers⟩ := h.apart_erase hp
  have hrenews := @renews_finishPersisting w.tables w.now p.stateGroups p.instanceName error
  refine ⟨h.references,fun row hrow => ?_,fun q hq group hgroup => ?_,hapart,?_,?_,?_,
    fun d hd group hholds hrefers => ?_⟩
  · exact h.persisting row (mem_persisting_finishPersisting.mp hrow).1
  · obtain ⟨hq,hne⟩ := hothers q hq
    refine mem_persisting_finishPersisting.mpr ⟨h.marked q hq group hgroup,fun hboth => ?_⟩
    exact hne group hgroup hboth.1 hboth.2
  · exact fun q hq => h.covered q (hothers q hq).1
  · exact hrenews.fresh h.fresh
  · exact fun d hd group s hs => (h.listed d hd group s hs).trans_le hrenews.next
  · have hold : d.Holds w.tables group :=
      @Holds.of_renews _ group { w with tables := w.tables.unmark p.instanceName p.stateGroups } hrenews d
        (h.listed d hd) hholds
    -- a group of this persist would have lost its sequence number
    have hnot : group ∉ p.stateGroups := by
      intro hin
      obtain ⟨s,hs⟩ := Option.isSome_iff_exists.mp (lookup_isSome.mpr hholds.2.2.1)
      have hle := sequenceNumber_finishPersisting hin (hholds.2.2.2 ▸ hs)
      have hlt := h.listed d hd group s hs
      omega
    obtain ⟨row,hrow,heq⟩ := h.held d hd group hold hrefers
    exact ⟨row,mem_persisting_finishPersisting.mpr ⟨hrow,fun hboth => hnot (heq ▸ hboth.1)⟩,heq⟩

theorem Inv.setDeletion (h : w.Inv) {i : ℕ} {d : Deletion}
    (hlisted : ∀ group s, d.groupsToSequences.lookup group = some s → s < w.tables.nextSequenceNumber)
    (hheld : ∀ group, d.Holds w.tables group → Refers w.eventToStateGroups group →
      w.tables.isPersisting group) : { w with deletions := w.deletions.set i d }.Inv :=
  { h with listed := forall_mem_set h.listed hlisted, held := forall_mem_set h.held hheld }

theorem nextCollectionToDelete_listed {db : StateDb} {roomId : String} {insertionTs : ℕ}
    {groups : Dict ℕ ℕ} (h : t.nextCollectionToDelete db now roomId insertionTs = some groups) {s : ℕ}
    (hs : groups.lookup group = some s) : t.sequenceNumber group = some s := by
  unfold nextCollectionToDelete at h
  simp only [Option.ite_none_right_eq_some,Option.some.injEq] at h
  obtain ⟨-,rfl⟩ := h
  rcases @Entries.foldl_insert_cases ℕ ℕ _ ∅ _ (fun row : ℕ × String × PendingRow => row.1)
      (fun row => row.2.2.sequenceNumber) ((t.candidates db).filter fun row =>
        row.2.1 = roomId ∧ row.2.2.insertionTs = insertionTs) group with
    ⟨row,hrow,rfl,hnew⟩ | ⟨-,hold⟩
  · cases hnew.symm.trans hs
    obtain ⟨entry,hentry,hmap⟩ := mem_flatMap.mp (mem_filter.mp hrow).1
    obtain ⟨found,-,rfl⟩ := mem_map.mp hmap
    rw [sequenceNumber,mem_lookup_iff.mpr hentry]
    rfl
  · cases hold.symm.trans hs

theorem Inv.checkReferences (h : w.Inv) {i : ℕ} {d : Deletion} (hd : d ∈ w.deletions) (n : ℕ) :
    { w with deletions := w.deletions.set i (Deletion.mk d.groupsToSequences (d.unchecked.drop n)
      (d.referenced ++ (d.unchecked.take n).filter (isReferenced w.eventToStateGroups))) }.Inv := by
  refine h.setDeletion (h.listed d hd) fun group hholds hrefers => ?_
  obtain ⟨hunchecked,hreferenced,hin,hlookup⟩ := hholds
  rw [mem_append,not_or] at hreferenced
  by_cases hbatch : group ∈ d.unchecked.take n
  · refine absurd (mem_filter.mpr ⟨hbatch,?_⟩) hreferenced.2
    exact isReferenced_of_refers hrefers
  · have hnot : group ∉ d.unchecked := by
      rw [← take_append_drop n d.unchecked,mem_append,not_or]
      exact ⟨hbatch,hunchecked⟩
    exact h.held d hd group ⟨hnot,hreferenced.1,hin,hlookup⟩ hrefers

theorem Inv.markAsUsed (h : w.Inv) {i : ℕ} {d : Deletion} (hd : d ∈ w.deletions)
    (hunchecked : d.unchecked = []) : { w with
      tables := w.tables.removePending d.referenced
      deletions := w.deletions.set i (Deletion.mk (Entries.restrict d.groupsToSequences fun group _ =>
        group ∉ d.referenced) [] []) }.Inv := by
  have hrenewed : { w with tables := w.tables.removePending d.referenced }.Inv :=
    h.renew (fun _ => id) renews_removePending
  have hlookup : ∀ group s, (Entries.restrict d.groupsToSequences fun group _ =>
      group ∉ d.referenced).lookup group = some s →
        d.groupsToSequences.lookup group = some s ∧ group ∉ d.referenced := by
    intro group s hs
    rw [Entries.lookup_restrict,Option.filter_eq_some_iff] at hs
    exact ⟨hs.1,by simpa using hs.2⟩
  refine hrenewed.setDeletion (fun group s hs => ?_) fun group hholds hrefers => ?_
  · exact h.listed d hd group s (hlookup group s hs).1
  · obtain ⟨-,-,hin,heq⟩ := hholds
    obtain ⟨s,hs⟩ := Option.isSome_iff_exists.mp (lookup_isSome.mpr hin)
    obtain ⟨hold,hnot⟩ := hlookup group s hs
    refine hrenewed.held d hd group ⟨?_,hnot,?_,?_⟩ hrefers
    · rw [hunchecked]
      exact not_mem_nil
    · exact lookup_isSome.mp (Option.isSome_of_eq_some hold)
    · rw [hold,← hs]
      exact heq

theorem ready_spec {db : StateDb} {groupsToSequences : Dict ℕ ℕ}
    (h : group ∈ t.readyForPotentialDeletion db now groupsToSequences) :
    ¬t.isPersisting group ∧ group ∈ groupsToSequences ∧
      groupsToSequences.lookup group = t.sequenceNumber group := by
  have hcan : ∀ {canBeDeleted ancestors notReady : List ℕ}, (group ∈ if notReady = [] then
      canBeDeleted else canBeDeleted.filter fun group => group ∉ ancestors) → group ∈ canBeDeleted := by
    intro canBeDeleted ancestors notReady h
    split at h
    · exact h
    · exact (mem_filter.mp h).1
  obtain ⟨hready,hnot⟩ := mem_filter.mp (hcan h)
  obtain ⟨entry,hentry,rfl⟩ := mem_map.mp hready
  obtain ⟨hlisted,hready⟩ := mem_filter.mp hentry
  obtain ⟨hpending,hin⟩ := mem_filter.mp hlisted
  rw [decide_eq_true_eq] at hready hin hnot
  refine ⟨fun hpersisting => hnot (mem_append_left _ ?_),hin,?_⟩
  · obtain ⟨row,hrow,heq⟩ := hpersisting
    refine mem_filter.mpr ⟨heq ▸ mem_map_of_mem hrow,decide_eq_true hin⟩
  · rw [hready.1,sequenceNumber,mem_lookup_iff.mpr hpending]
    rfl

theorem Inv.purge (h : w.Inv) {i : ℕ} {d : Deletion} (hd : d ∈ w.deletions)
    (hunchecked : d.unchecked = []) (hreferenced : d.referenced = []) :
    let toDelete := w.tables.readyForPotentialDeletion w.db w.now d.groupsToSequences
    { w with
      db := purgeUnreferencedStateGroups engine w.db toDelete
      tables := w.tables.removePending toDelete
      deletions := w.deletions.eraseIdx i }.Inv := by
  intro toDelete
  have hnot : ∀ group ∈ w.db.groupIds, Refers w.eventToStateGroups group ∨ w.tables.isPersisting group →
      group ∈ (purgeUnreferencedStateGroups engine w.db toDelete).groupIds := by
    intro group hin hneeded
    refine (mem_groupIds_purge engine).mpr ⟨hin,fun hdelete => ?_⟩
    obtain ⟨hfree,hlisted,hlookup⟩ := ready_spec hdelete
    refine hfree (hneeded.elim (h.held d hd group ⟨?_,?_,hlisted,hlookup⟩) id)
    · rw [hunchecked]
      exact not_mem_nil
    · rw [hreferenced]
      exact not_mem_nil
  have hrenewed : { w with tables := w.tables.removePending toDelete }.Inv :=
    h.renew (fun _ => id) renews_removePending
  have hsub : w.deletions.eraseIdx i ⊆ w.deletions := (eraseIdx_sublist _ _).subset
  exact { h with
    references := fun group hrefers => hnot group (h.references group hrefers) (.inl hrefers)
    persisting := fun row hrow => hnot row.1 (h.persisting row hrow) (.inr ⟨row,hrow,rfl⟩)
    fresh := hrenewed.fresh
    listed := fun d hd => hrenewed.listed d (hsub hd)
    held := fun d hd => hrenewed.held d (hsub hd) }

instance (d : Deletion) (t : DeletionTables) (group : ℕ) : Decidable (d.Holds t group) :=
  inferInstanceAs (Decidable (_ ∧ _ ∧ _ ∧ _))

instance (w : DeletionWorld) (group : ℕ) : Decidable (w.Safe group) :=
  inferInstanceAs (Decidable (_ ∧ (_ ∨ _)))

/-- Where the state of a rejected event or the new state of an event with partial state is stored,
the group is there, and no deletion that has found it to be unreferenced can still delete it. -/
def Protected (w : DeletionWorld) : Action → Prop
  | .storeEvents _ events => ∀ event ∈ events, event.rejected = true → event.outlier = false →
    ∀ group ∈ event.storedGroup, w.Safe group
  | .updatePartialState event => event.eventId ∈ w.eventToStateGroups →
    ∀ group ∈ event.storedGroup, w.Safe group
  | _ => True

instance (w : DeletionWorld) (action : Action) : Decidable (w.Protected action) :=
  match action with
  | .storeEvents _ events => inferInstanceAs (Decidable (∀ event ∈ events, _ → _ → _))
  | .updatePartialState event => inferInstanceAs (Decidable (event.eventId ∈ w.eventToStateGroups → _))
  | .wait _ | .storeStateGroup .. | .bump _ | .markAsPendingDeletion _ | .startPersisting .. |
    .finishPersisting .. | .purgeHistory _ | .fetchNext .. | .checkReferences _ | .markAsUsed _ |
    .purge _ => .isTrue trivial

theorem Inv.storeEvents (h : w.Inv) (hp : p ∈ w.persists) (hevents : ∀ event ∈ events, event ∈ p.chunk)
    (hprotected : ∀ event ∈ events, event.rejected → event.outlier = false →
      ∀ group ∈ event.storedGroup, w.Safe group)
    (hstore : storeEventStateMappings w.eventToStateGroups events = .ok rows) :
    { w with eventToStateGroups := rows }.Inv := by
  refine h.write fun group hrefers => ?_
  refine (refers_storeEventStateMappings hstore hrefers).imp_right fun hnew => ?_
  obtain ⟨event,hin,houtlier,hstored⟩ := hnew
  cases hrejected : event.rejected with
  | true => exact hprotected event hin hrejected houtlier group hstored
  | false =>
    have hgroup : event.stateGroup = some group := by
      rw [StatefulEvent.storedGroup,hrejected] at hstored
      exact hstored
    exact h.safe_of_marked hp (h.covered p hp event (hevents event hin) hrejected houtlier group hgroup)

theorem Inv.updatePartialState (h : w.Inv) {event : StatefulEvent}
    (hprotected : event.eventId ∈ w.eventToStateGroups → ∀ group ∈ event.storedGroup, w.Safe group)
    (hupdate : updateStateForPartialStateEvent w.eventToStateGroups event = .ok rows) :
    { w with eventToStateGroups := rows }.Inv := by
  unfold updateStateForPartialStateEvent at hupdate
  split at hupdate
  · cases hupdate
  split at hupdate
  · cases hupdate
  rename_i stored hstored
  cases hupdate
  refine h.write fun group hrefers => ?_
  split at hrefers
  · rename_i hin
    refine (refers_insert hrefers).imp_right fun heq => ?_
    rw [heq]
    exact hprotected hin stored hstored
  · exact .inl hrefers

theorem Inv.setWritten (h : w.Inv) {i : ℕ} (hp : w.persists[i]? = some p) :
    { w with persists := w.persists.set i { p with written := true } }.Inv := by
  have hin := mem_of_getElem? hp
  refine { h with
    marked := forall_mem_set h.marked (h.marked p hin)
    apart := ?_
    covered := forall_mem_set h.covered (h.covered p hin) }
  obtain ⟨before,after,hsplit,hset,-⟩ := split_at hp
  have hapart := h.apart
  rw [hsplit,pairwise_append,pairwise_cons] at hapart
  obtain ⟨hbefore,⟨hnext,hafter⟩,hcross⟩ := hapart
  rw [hset,pairwise_append,pairwise_cons]
  refine ⟨hbefore,⟨hnext,hafter⟩,fun q hq r hr => ?_⟩
  rcases mem_cons.mp hr with rfl | hr
  · exact hcross q hq p mem_cons_self
  · exact hcross q hq r (mem_cons_of_mem _ hr)

theorem Inv.step (h : w.Inv) {action : Action} (hprotected : w.Protected action)
    (hstep : w.step engine action = some w') : w'.Inv := by
  cases action with
  | wait ms =>
    cases hstep
    exact { h with }
  | storeStateGroup group roomId prevGroup entries =>
    simp only [DeletionWorld.step,Option.ite_none_right_eq_some,Option.some.injEq] at hstep
    obtain ⟨-,rfl⟩ := hstep
    refine h.renew (fun g hg => ?_) renews_bumpDeletion
    simp only [groupIds,insertGroup,map_append]
    exact mem_append_left _ hg
  | bump stateGroups =>
    cases hstep
    exact h.renew (fun _ => id) renews_bumpDeletion
  | markAsPendingDeletion stateGroups =>
    cases hstep
    exact h.renew (fun _ => id) renews_markAsPendingDeletion
  | startPersisting instanceName eventsAndContexts chunk =>
    simp only [DeletionWorld.step,Option.ite_none_right_eq_some] at hstep
    obtain ⟨hchunk,hstep⟩ := hstep
    split at hstep
    · cases hstep
    rename_i stateGroups hgroups
    split at hstep
    · cases hstep
    rename_i tables hmark
    cases hstep
    exact h.startPersisting hchunk hgroups hmark
  | storeEvents i events =>
    obtain ⟨p,hp,hstep⟩ := Option.bind_eq_some_iff.mp hstep
    simp only [Option.ite_none_right_eq_some] at hstep
    obtain ⟨⟨-,hevents⟩,hstep⟩ := hstep
    split at hstep
    · cases hstep
    rename_i rows hstore
    cases hstep
    have hin := mem_of_getElem? hp
    exact (h.storeEvents hin hevents hprotected hstore).setWritten hp
  | finishPersisting i error =>
    obtain ⟨p,hp,hstep⟩ := Option.bind_eq_some_iff.mp hstep
    simp only [Option.ite_none_right_eq_some,Option.some.injEq] at hstep
    obtain ⟨-,rfl⟩ := hstep
    exact h.finishPersisting hp error
  | updatePartialState event =>
    simp only [DeletionWorld.step] at hstep
    split at hstep
    · cases hstep
    rename_i rows hupdate
    cases hstep
    exact h.updatePartialState hprotected hupdate
  | purgeHistory eventIds =>
    cases hstep
    refine h.write fun group hrefers => .inl ?_
    obtain ⟨eventId,hlookup⟩ := hrefers
    rw [Entries.lookup_restrict,Option.filter_eq_some_iff] at hlookup
    exact ⟨eventId,hlookup.1⟩
  | fetchNext roomId insertionTs =>
    obtain ⟨groups,hgroups,rfl⟩ := Option.map_eq_some_iff.mp hstep
    refine { h with
      listed := forall_mem_append.mpr ⟨h.listed,forall_mem_singleton.mpr fun group s hs => ?_⟩
      held := forall_mem_append.mpr ⟨h.held,forall_mem_singleton.mpr fun group hholds => ?_⟩ }
    · exact h.fresh group s (nextCollectionToDelete_listed hgroups hs)
    · exact absurd hholds.2.2.1 hholds.1
  | checkReferences i =>
    obtain ⟨d,hd,hstep⟩ := Option.bind_eq_some_iff.mp hstep
    simp only [Option.ite_none_left_eq_some,Option.some.injEq] at hstep
    obtain ⟨-,rfl⟩ := hstep
    exact h.checkReferences (mem_of_getElem? hd) batchSize
  | markAsUsed i =>
    obtain ⟨d,hd,hstep⟩ := Option.bind_eq_some_iff.mp hstep
    simp only [Option.ite_none_right_eq_some,Option.some.injEq] at hstep
    obtain ⟨⟨hunchecked,-⟩,rfl⟩ := hstep
    exact h.markAsUsed (mem_of_getElem? hd) hunchecked
  | purge i =>
    obtain ⟨d,hd,hstep⟩ := Option.bind_eq_some_iff.mp hstep
    simp only [Option.ite_none_right_eq_some,Option.some.injEq] at hstep
    obtain ⟨⟨hunchecked,hreferenced⟩,rfl⟩ := hstep
    exact h.purge (mem_of_getElem? hd) hunchecked hreferenced

theorem inv_empty : empty.Inv where
  references group hrefers := by
    obtain ⟨eventId,hlookup⟩ := hrefers
    cases hlookup
  persisting := by simp [empty]
  marked := by simp [empty]
  apart := .nil
  covered := by simp [empty]
  fresh group s hs := by cases hs
  listed := by simp [empty]
  held := by simp [empty]

/-- In every run in which the unmarked references are protected when they are stored, every row of
`event_to_state_groups` names a group that exists. -/
theorem references_exist_of_protected {actions : List Action}
    (hrun : run (guarded Protected (step engine)) empty actions = some w) :
    ∀ eventId group, w.eventToStateGroups.lookup eventId = some group → group ∈ w.db.groupIds := by
  have hinv : w.Inv := by
    refine run_preserves (fun h hstep => ?_) inv_empty hrun
    obtain ⟨hprotected,hstep⟩ := guarded_eq_some.mp hstep
    exact h.step hprotected hstep
  exact fun eventId group hlookup => hinv.references group ⟨eventId,hlookup⟩

def storedDuringDeletion (store : List Action) : List Action :=
  [.storeStateGroup 1 "!r" none ∅,.markAsPendingDeletion [1],.wait 600001,.fetchNext "!r" 0,
    .checkReferences 0] ++ store ++ [.purge 0]

def message : StatefulEvent := ⟨"$message",false,false,some 1,some 1⟩

theorem message_keeps_group :
    ∃ w, run (guarded Protected (step .sqlite)) empty (storedDuringDeletion
      [.startPersisting "persister" [message] [message],.storeEvents 0 [message]]) = some w ∧
      w.eventToStateGroups.lookup "$message" = some 1 ∧ 1 ∈ w.db.groupIds := by
  refine ⟨_,(Option.some_get (by decide +kernel)).symm,by decide +kernel,?_⟩
  exact references_exist_of_protected (Option.some_get _).symm "$message" _ (by decide +kernel)

def rejectedMessage : StatefulEvent := ⟨"$rejected",true,false,some 1,some 1⟩

/-- Nothing is marked for a rejected event, and its group is deleted. -/
theorem rejected_event_points_at_deleted_group :
    ∃ w, run (step .sqlite) empty (storedDuringDeletion
      [.startPersisting "persister" [rejectedMessage] [rejectedMessage],
        .storeEvents 0 [rejectedMessage]]) = some w ∧
      w.eventToStateGroups.lookup "$rejected" = some 1 ∧ 1 ∉ w.db.groupIds :=
  ⟨_,rfl,by decide +kernel,by decide +kernel⟩

end DeletionWorld

end TextrpBriij.StateStore
