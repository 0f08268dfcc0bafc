import TextrpBriij.Persist.Extremities

/-! # Forward extremities of a history

A room's graph grows by batches in any order. The extremities that the batches leave are
compared with the frontier of the graph: the accepted events that no accepted event reaches,
directly or through soft-failed and rejected events.
-/
namespace TextrpBriij.Persist
open Frontier Relation List

variable {evs batch : List EventPersistencePair} {batches : List (List EventPersistencePair)}
variable {p : EventPersistencePair} {latest : List String} {x y : String}

def PrevEvent (evs : List EventPersistencePair) (x y : String) : Prop :=
  ∃ p ∈ evs, p.eventId = x ∧ y ∈ p.prevEventIds

def idsWith (flag : EventPersistencePair → Bool) (evs : List EventPersistencePair) : Set String :=
  {id | ∃ p ∈ evs, flag p = true ∧ p.eventId = id}

/-- The accepted events that no accepted event reaches along prev events through soft-failed or
rejected events that are not outliers. -/
def forwardExtremities (evs : List EventPersistencePair) : Set String :=
  frontier (PrevEvent evs) (idsWith (·.accepted) evs) (idsWith (·.hidden) evs)

/-- What the code finds of the paths to an extremity or a new event: it must be a prev event of
an accepted event of the database, or be reached from a new event over soft-failed events of
the database. -/
def Covers (evs batch : List EventPersistencePair) : Prop :=
  Covered (PrevEvent (evs ++ batch)) (forwardExtremities evs) (idsWith (·.accepted) evs)
    (idsWith (·.accepted) batch) (idsWith (·.softFailedOnly) evs) (idsWith (·.hidden) (evs ++ batch))

/-- The tables and the extremities of a room. -/
structure Room where
  tables : Tables
  extremities : List String

def Room.new : Room := ⟨.empty,[]⟩

def Room.persistBatch (r : Room) (batch : List EventPersistencePair) : Room :=
  ⟨persistEventsTxn r.tables batch,calculateNewExtremities r.tables batch r.extremities⟩

def Room.after (batches : List (List EventPersistencePair)) : Room :=
  batches.foldl Room.persistBatch .new

/-- The events of all batches are distinct and form an acyclic graph. -/
structure History (batches : List (List EventPersistencePair)) : Prop where
  distinct : Distinct batches.flatten
  acyclic : ∀ id, ¬TransGen (PrevEvent batches.flatten) id id

theorem prevEvent_iff (h : Distinct evs) (hp : p ∈ evs) : PrevEvent evs p.eventId y ↔ y ∈ p.prevEventIds := by
  constructor
  · rintro ⟨q,hq,heq,hy⟩
    rwa [h.eq_of_eventId hq hp heq] at hy
  · exact fun hy => ⟨p,hp,rfl,hy⟩

theorem idsWith_append (flag : EventPersistencePair → Bool) :
    idsWith flag (evs ++ batch) = idsWith flag evs ∪ idsWith flag batch := by
  ext id
  constructor
  · rintro ⟨p,hp,hflag⟩
    rcases mem_append.mp hp with hp | hp
    · exact .inl ⟨p,hp,hflag⟩
    · exact .inr ⟨p,hp,hflag⟩
  · rintro (⟨p,hp,hflag⟩ | ⟨p,hp,hflag⟩)
    · exact ⟨p,mem_append_left _ hp,hflag⟩
    · exact ⟨p,mem_append_right _ hp,hflag⟩

theorem Distinct.left (h : Distinct (evs ++ batch)) : Distinct evs := by
  unfold Distinct at h ⊢
  rw [map_append] at h
  exact h.of_append_left

theorem softFailedOnly_subset : idsWith (·.softFailedOnly) evs ⊆ idsWith (·.hidden) evs := by
  rintro id ⟨p,hp,hflag,rfl⟩
  refine ⟨p,hp,?_,rfl⟩
  simp only [EventPersistencePair.softFailedOnly,Bool.and_eq_true] at hflag
  simp [EventPersistencePair.hidden,hflag]

section
variable (h : Distinct (evs ++ batch))
include h

theorem grows : Grows (PrevEvent evs) (PrevEvent (evs ++ batch)) (idsWith (·.accepted) evs)
      (idsWith (·.hidden) evs) (idsWith (·.hidden) (evs ++ batch))
      (idsWith (·.softFailedOnly) evs) := by
  refine ⟨?_,?_,?_⟩
  · rw [idsWith_append]
    exact Set.subset_union_left
  · rw [idsWith_append]
    exact softFailedOnly_subset.trans Set.subset_union_left
  · intro x hx y
    obtain ⟨p,hp,rfl⟩ : ∃ p ∈ evs, p.eventId = x := by
      rcases hx with ⟨p,hp,-,rfl⟩ | ⟨p,hp,-,rfl⟩
      · exact ⟨p,hp,rfl⟩
      · exact ⟨p,hp,rfl⟩
    rw [prevEvent_iff h.left hp,prevEvent_iff h (mem_append_left _ hp)]

theorem transGen_edgesBeforeRejected : TransGen (fun x y => (x,y) ∈ edgesBeforeRejected (.of evs)) x y ↔
      TransGen (fun x y => x ∈ idsWith (·.softFailedOnly) evs ∧ PrevEvent (evs ++ batch) x y) x y := by
  have hedge : ∀ x y, (x,y) ∈ edgesBeforeRejected (.of evs) ↔
      x ∈ idsWith (·.softFailedOnly) evs ∧ PrevEvent (evs ++ batch) x y := by
    intro x y
    rw [mem_edgesBeforeRejected h.left]
    constructor
    · rintro ⟨p,hp,hsoft,rfl,hy⟩
      exact ⟨⟨p,hp,hsoft,rfl⟩,p,mem_append_left _ hp,rfl,hy⟩
    · rintro ⟨⟨p,hp,hsoft,rfl⟩,hprev⟩
      exact ⟨p,hp,hsoft,rfl,(prevEvent_iff h (mem_append_left _ hp)).mp hprev⟩
  simp only [hedge]

theorem mem_calculateNewExtremities_iff_kept : x ∈ calculateNewExtremities (.of evs) batch latest ↔
      x ∈ kept (PrevEvent (evs ++ batch)) {id | id ∈ latest} (idsWith (·.accepted) evs)
        (idsWith (·.accepted) batch) (idsWith (·.softFailedOnly) evs) := by
  rw [mem_calculateNewExtremities h.left]
  apply and_congr Iff.rfl (and_congr ?_ ?_)
  · constructor
    · rintro hnone id ⟨n,hn,haccepted,rfl⟩ hthrough
      have hprev := fun y => @prevEvent_iff _ _ y h (mem_append_right evs hn)
      rcases through_iff.mp hthrough with hedge | ⟨first,hfirst,hreach⟩
      · exact (hnone n hn haccepted x ((hprev x).mp hedge)).1 rfl
      · refine (hnone n hn haccepted first ((hprev first).mp hfirst)).2 ?_
        exact (transGen_edgesBeforeRejected h).mpr hreach
    · intro hnone n hn haccepted id hid
      have hprev := (prevEvent_iff h (mem_append_right evs hn)).mpr hid
      have hnot := hnone n.eventId ⟨n,hn,haccepted,rfl⟩
      constructor
      · rintro rfl
        exact hnot (.of_edge hprev)
      · intro hreach
        exact hnot (through_iff.mpr (.inr ⟨id,hprev,(transGen_edgesBeforeRejected h).mp hreach⟩))
  · constructor
    · rintro hnone id ⟨p,hp,haccepted,rfl⟩ hedge
      exact hnone p hp haccepted ((prevEvent_iff h (mem_append_left _ hp)).mp hedge)
    · intro hnone p hp haccepted hx
      refine hnone p.eventId ⟨p,hp,haccepted,rfl⟩ ?_
      exact (prevEvent_iff h (mem_append_left _ hp)).mpr hx

theorem persistBatch_exact_iff (hlatest : {id | id ∈ latest} = forwardExtremities evs) :
    {id | id ∈ calculateNewExtremities (.of evs) batch latest} =
      forwardExtremities (evs ++ batch) ↔ Covers evs batch := by
  have hkept : {id | id ∈ calculateNewExtremities (.of evs) batch latest} =
      kept (PrevEvent (evs ++ batch)) {id | id ∈ latest} (idsWith (·.accepted) evs)
        (idsWith (·.accepted) batch) (idsWith (·.softFailedOnly) evs) := by
    ext id
    exact mem_calculateNewExtremities_iff_kept h
  rw [hkept,forwardExtremities,idsWith_append,kept_eq_iff (grows h) hlatest,hlatest]
  rfl

end

theorem after_append (pre : List (List EventPersistencePair)) (batch : List EventPersistencePair) :
    Room.after (pre ++ [batch]) = (Room.after pre).persistBatch batch := by
  simp [Room.after]

theorem after_tables (pre : List (List EventPersistencePair)) : (Room.after pre).tables = .of pre.flatten := by
  induction pre using reverseRecOn with
  | nil => rfl
  | append_singleton pre batch ih =>
    rw [after_append,Room.persistBatch,ih,persistEventsTxn_of]
    simp

variable {pre : List (List EventPersistencePair)}

theorem History.distinct_prefix (h : History batches) (hpre : pre <+: batches) : Distinct pre.flatten := by
  obtain ⟨post,rfl⟩ := hpre
  have hall := h.distinct
  rw [flatten_append] at hall
  exact hall.left

theorem forwardExtremities_subset (h : History batches) (hpre : pre <+: batches) :
    forwardExtremities pre.flatten ⊆ {id | id ∈ (Room.after pre).extremities} := by
  induction pre using reverseRecOn with
  | nil =>
    rintro id ⟨⟨p,hp,-⟩,-⟩
    exact absurd hp not_mem_nil
  | append_singleton pre batch ih =>
    have hbefore := ih ((prefix_append pre [batch]).trans hpre)
    have hdistinct := h.distinct_prefix hpre
    simp only [flatten_append,flatten_cons,flatten_nil,append_nil] at hdistinct ⊢
    rw [after_append,Room.persistBatch,after_tables]
    intro id hid
    apply (mem_calculateNewExtremities_iff_kept hdistinct).mpr
    rw [forwardExtremities,idsWith_append] at hid
    exact frontier_subset_kept (grows hdistinct) hbefore hid

theorem idsWith_finite (flag : EventPersistencePair → Bool) : (idsWith flag evs).Finite := by
  apply (finite_toSet (evs.map (·.eventId))).subset
  rintro id ⟨p,hp,-,rfl⟩
  exact mem_map_of_mem hp

theorem extremities_ne_nil (h : History batches)
    (hpre : pre <+: batches) (hp : p ∈ pre.flatten) (haccepted : p.accepted) :
    (Room.after pre).extremities ≠ [] := by
  have hacyclic : ∀ id, ¬TransGen (PrevEvent pre.flatten) id id := by
    intro id hid
    refine h.acyclic id (TransGen.mono ?_ _ _ hid)
    rintro x y ⟨q,hq,hedge⟩
    exact ⟨q,hpre.flatten.subset hq,hedge⟩
  have hne : (idsWith (·.accepted) pre.flatten).Nonempty := ⟨p.eventId,p,hp,haccepted,rfl⟩
  obtain ⟨id,hid⟩ : (forwardExtremities pre.flatten).Nonempty :=
    frontier_nonempty hacyclic (idsWith_finite _) hne
  exact ne_nil_of_mem (forwardExtremities_subset h hpre hid)

/-- After every batch of a history the extremities are exact, if and only if every batch covers
the paths that it adds. -/
theorem forward_extremities_exact_iff (h : History batches) :
    (∀ pre, pre <+: batches →
      {id | id ∈ (Room.after pre).extremities} = forwardExtremities pre.flatten) ↔
      ∀ pre batch, pre ++ [batch] <+: batches → Covers pre.flatten batch := by
  apply Runs.prefixes_iff
  · intro pre batch hpre hexact
    have hdistinct := h.distinct_prefix hpre
    simp only [flatten_append,flatten_cons,flatten_nil,append_nil] at hdistinct ⊢
    rw [after_append,Room.persistBatch,after_tables]
    exact persistBatch_exact_iff hdistinct hexact
  · ext id
    simp [Room.after,Room.new,forwardExtremities,Frontier.frontier,idsWith]

/-- Soft-failed and rejected events come before what refers to them and in another batch,
nothing refers to a rejected event, and no accepted event comes after a soft-failed one that
refers to it. -/
def Timely (evs batch : List EventPersistencePair) : Prop :=
  (∀ p ∈ evs ++ batch, p.isOutlier = false → (∀ q ∈ batch, q.hidden = true → q.eventId ∉ p.prevEventIds) ∧
    ∀ q ∈ evs, q.hidden = true → q.eventId ∈ p.prevEventIds → q.isRejected = false) ∧
  ∀ p ∈ evs, p.hidden = true → ∀ q ∈ batch, q.accepted = true → q.eventId ∉ p.prevEventIds

instance : Decidable (Timely evs batch) := inferInstanceAs (Decidable (_ ∧ _))

theorem isOutlier_of_flag (h : p.accepted ∨ p.hidden) : p.isOutlier = false := by
  rcases h with h | h
  · simp only [EventPersistencePair.accepted,Bool.and_eq_true,Bool.not_eq_true'] at h
    exact h.1.1
  · simp only [EventPersistencePair.hidden,Bool.and_eq_true,Bool.not_eq_true'] at h
    exact h.1

theorem Timely.softFailed (h : Distinct (evs ++ batch)) (htimely : Timely evs batch)
    (hx : x ∈ idsWith (·.accepted) (evs ++ batch) ∨ x ∈ idsWith (·.hidden) (evs ++ batch))
    (hy : y ∈ idsWith (·.hidden) (evs ++ batch)) (hprev : PrevEvent (evs ++ batch) x y) :
    y ∈ idsWith (·.softFailedOnly) evs := by
  obtain ⟨p,hp,hflag,rfl⟩ : ∃ p ∈ evs ++ batch, (p.accepted ∨ p.hidden) ∧ p.eventId = x := by
    rcases hx with ⟨p,hp,hflag,rfl⟩ | ⟨p,hp,hflag,rfl⟩
    · exact ⟨p,hp,.inl hflag,rfl⟩
    · exact ⟨p,hp,.inr hflag,rfl⟩
  obtain ⟨hbatch,hevs⟩ := htimely.1 p hp (isOutlier_of_flag hflag)
  rw [prevEvent_iff h hp] at hprev
  obtain ⟨q,hq,hhidden,rfl⟩ := hy
  rcases mem_append.mp hq with hq | hq
  · have hrejected := hevs q hq hhidden hprev
    refine ⟨q,hq,?_,rfl⟩
    simp only [EventPersistencePair.hidden,hrejected,Bool.or_false,Bool.and_eq_true] at hhidden
    simp [EventPersistencePair.softFailedOnly,hrejected,hhidden.1,hhidden.2]
  · exact absurd hprev (hbatch q hq hhidden)

theorem Timely.covers (h : Distinct (evs ++ batch)) (htimely : Timely evs batch) : Covers evs batch := by
  rintro e he ⟨a,ha,hthrough⟩
  rw [← idsWith_append] at ha
  have hknown : Through (PrevEvent (evs ++ batch)) (idsWith (·.softFailedOnly) evs) a e := by
    apply hthrough.restrict
    intro x hx y hy hprev
    refine htimely.softFailed h ?_ hy hprev
    rcases hx with rfl | hx
    · exact .inl ha
    · exact .inr hx
  rw [idsWith_append] at ha
  rcases ha with ha | ha
  · obtain ⟨b,hab,hbe⟩ := hknown
    rcases hab.cases_tail with rfl | ⟨c,-,-,hb⟩
    · exact .inr ⟨b,ha,hbe⟩
    -- the last event before `e` is a soft-failed one of the database
    exfalso
    rcases he with hold | ⟨q,hq,haccepted,rfl⟩
    · refine hold.2 a ha ?_
      refine Through.mono ⟨b,hab,hbe⟩ softFailedOnly_subset ?_
      rintro x (rfl | hx) y hprev
      · exact ((grows h).prev_iff x (.inl ha) y).mpr hprev
      · exact ((grows h).prev_iff x (.inr (softFailedOnly_subset hx)) y).mpr hprev
    · obtain ⟨p,hp,hhidden,rfl⟩ := softFailedOnly_subset hb
      have hprev := (prevEvent_iff h (mem_append_left _ hp)).mp hbe
      exact htimely.2 p hp hhidden q hq haccepted hprev
  · exact .inl ⟨a,ha,hknown⟩

def message (eventId : String) (prevEventIds : List String) : EventPersistencePair where
  event :=
    { roomVersion := Api.RoomVersions.v10
      eventId := eventId
      roomId := "!room:hs"
      type := "m.room.message"
      stateKey := none
      sender := "@alice:hs"
      content := []
      redactsField := .null
      prevEventIds := prevEventIds
      authEventIds := []
      depth := 1
      originServerTs := 0
      rejectedReason := none }
  isOutlier := false
  isSoftFailed := false
  context := ⟨none,some 1,∅⟩

def softFailed (p : EventPersistencePair) : EventPersistencePair := { p with isSoftFailed := true }

def rejected (p : EventPersistencePair) : EventPersistencePair :=
  { p with context := { p.context with rejected := some "auth_error" } }

def chainOf (middle : EventPersistencePair → EventPersistencePair) :
    List (List EventPersistencePair) :=
  [[message "$a" []],[middle (message "$b" ["$a"])],[message "$c" ["$b"]]]

theorem history_of_rank (rank : String → ℕ) (hdistinct : Distinct batches.flatten)
    (hrank : ∀ p ∈ batches.flatten, ∀ y ∈ p.prevEventIds, rank y < rank p.eventId) :
    History batches := by
  refine ⟨hdistinct,fun id hid => ?_⟩
  have hlt : ∀ {x y}, TransGen (PrevEvent batches.flatten) x y → rank y < rank x := by
    intro x y hxy
    induction hxy with
    | single hedge =>
      obtain ⟨p,hp,rfl,hy⟩ := hedge
      exact hrank p hp _ hy
    | tail _ hedge ih =>
      obtain ⟨p,hp,rfl,hy⟩ := hedge
      exact (hrank p hp _ hy).trans ih
  exact lt_irrefl _ (hlt hid)

def chainRank (eventId : String) : ℕ := if eventId = "$c" then 2 else if eventId = "$b" then 1 else 0

theorem chainOf_softFailed : History (chainOf softFailed) :=
  history_of_rank chainRank (by unfold Distinct; decide) (by decide)

theorem chainOf_rejected : History (chainOf rejected) :=
  history_of_rank chainRank (by unfold Distinct; decide) (by decide)

theorem extremities_ne_nil_rejected : (Room.after (chainOf rejected)).extremities ≠ [] :=
  extremities_ne_nil (p := message "$a" []) chainOf_rejected prefix_rfl (by simp [chainOf]) rfl

/-- A soft-failed event in the middle of a chain is passed over. -/
theorem forward_extremities_exact_over_soft_failed :
    History (chainOf softFailed) ∧ ∀ pre, pre <+: chainOf softFailed →
      {id | id ∈ (Room.after pre).extremities} = forwardExtremities pre.flatten := by
  refine ⟨chainOf_softFailed,(forward_extremities_exact_iff chainOf_softFailed).mpr ?_⟩
  intro pre batch hpre
  have hdistinct := chainOf_softFailed.distinct_prefix hpre
  rw [flatten_append,flatten_singleton] at hdistinct
  apply Timely.covers hdistinct
  rcases pre with _ | ⟨first,_ | ⟨second,_ | ⟨third,rest⟩⟩⟩
  · obtain ⟨rfl,-⟩ := cons_prefix_cons.mp hpre
    decide
  · obtain ⟨rfl,htail⟩ := cons_prefix_cons.mp hpre
    obtain ⟨rfl,-⟩ := cons_prefix_cons.mp htail
    decide
  · obtain ⟨rfl,htail⟩ := cons_prefix_cons.mp hpre
    obtain ⟨rfl,hlast⟩ := cons_prefix_cons.mp htail
    obtain ⟨rfl,-⟩ := cons_prefix_cons.mp hlast
    decide
  · have hlength := hpre.length_le
    simp only [chainOf,length_append,length_cons] at hlength
    omega

/-- A rejected event in the middle is not: its edges were never stored, so the event before it
stays an extremity although the one after it reaches it. -/
theorem rejected_event_leaves_extremity :
    History (chainOf rejected) ∧ (Room.after (chainOf rejected)).extremities = ["$a","$c"] ∧
      "$a" ∉ forwardExtremities (chainOf rejected).flatten := by
  refine ⟨chainOf_rejected,by decide +kernel,?_⟩
  rintro ⟨-,hfree⟩
  refine hfree "$c" ⟨message "$c" ["$b"],by simp [chainOf],rfl,rfl⟩ ⟨"$b",.single ⟨?_,?_⟩,?_⟩
  · exact ⟨message "$c" ["$b"],by simp [chainOf],rfl,by decide⟩
  · exact ⟨rejected (message "$b" ["$a"]),by simp [chainOf],rfl,rfl⟩
  · exact ⟨rejected (message "$b" ["$a"]),by simp [chainOf],rfl,by decide⟩

end TextrpBriij.Persist
