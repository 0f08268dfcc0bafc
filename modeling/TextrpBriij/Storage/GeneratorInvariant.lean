import TextrpBriij.Foundation.Entries
import TextrpBriij.Storage.IdGenerator

/-! # What a generator may rely on and must keep

`busy w` is the set of IDs that instance `w` has been given and has not finished, and
`last` bounds every ID handed out. The invariant of one generator is stated against
these two alone, so that it serves one generator with an unknown environment as well
as a cluster.
-/
namespace TextrpBriij.Storage
open List AList

/-- Where a running `_load_next_mult_id_txn` is: it collects IDs from the sequence, until it
has recorded them or failed and only has to leave the list of fetches. -/
inductive FetchPhase where
  | waiting (streamIds : List ℤ)
  | leaving

structure Fetch where
  currentMax : ℤ
  phase : FetchPhase

def Fetch.pending (f : Fetch) : List ℤ :=
  match f.phase with
  | .waiting streamIds => streamIds
  | .leaving => []

@[simp] theorem Fetch.pending_waiting (m : ℤ) (ids : List ℤ) :
    Fetch.pending ⟨m,.waiting ids⟩ = ids := rfl

@[simp] theorem Fetch.pending_leaving (m : ℤ) : Fetch.pending ⟨m,.leaving⟩ = [] := rfl

variable {last : ℤ} {busy : String → Set ℤ} {g : Generator} {fetches : List Fetch}

/-- The persisted position is below every busy ID, and nothing known to be persisted
is busy. -/
structure UptoInv (last : ℤ) (busy : String → Set ℤ) (g : Generator) : Prop where
  known_le : ∀ k ∈ g.knownPersistedPositions, k ≤ last
  known_idle : ∀ k ∈ g.knownPersistedPositions, ∀ w, k ∉ busy w
  upto_le : g.persistedUptoPosition ≤ last
  upto_lt : ∀ w, ∀ x ∈ busy w, g.persistedUptoPosition < x

namespace Generator

theorem skipRuns_ge (upto : ℤ) (known : List ℤ) : upto ≤ (skipRuns upto known).1 := by
  induction known generalizing upto with
  | nil => exact le_rfl
  | cons k known ih =>
    unfold skipRuns
    split
    · exact ih upto
    · split
      · have := ih (upto + 1)
        omega
      · exact le_rfl

variable {x newId v : ℤ}

theorem skipRuns_run (upto : ℤ) (known : List ℤ) (h : upto < x)
    (hx : x ≤ (skipRuns upto known).1) : x ∈ known := by
  induction known generalizing upto with
  | nil =>
    simp only [skipRuns] at hx
    omega
  | cons k known ih =>
    unfold skipRuns at hx
    split at hx
    · exact mem_cons_of_mem _ (ih upto h hx)
    · split at hx
      · by_cases hxk : x = k
        · exact hxk ▸ mem_cons_self
        · exact mem_cons_of_mem _ (ih (upto + 1) (by omega) hx)
      · omega

theorem skipRuns_sublist (upto : ℤ) (known : List ℤ) : ∀ k ∈ (skipRuns upto known).2, k ∈ known := by
  induction known generalizing upto with
  | nil => exact fun k hk => hk
  | cons a known ih =>
    unfold skipRuns
    split
    · exact fun k hk => mem_cons_of_mem _ (ih upto k hk)
    · split
      · exact fun k hk => mem_cons_of_mem _ (ih (upto + 1) k hk)
      · exact fun k hk => hk

end Generator

open Generator

theorem UptoInv.addPersistedPosition (h : UptoInv last busy g)
    (hmin : g.minCurr ≤ last) (hlt : ∀ w, ∀ x ∈ busy w, g.minCurr < x)
    (hid : newId ≤ last) (hidle : ∀ w, newId ∉ busy w) :
    UptoInv last busy (g.addPersistedPosition newId) := by
  have hknown : ∀ k ∈ g.knownPersistedPositions.orderedInsert (· ≤ ·) newId, k ≤ last ∧ ∀ w, k ∉ busy w := by
    intro k hk
    rcases (mem_orderedInsert _).mp hk with rfl | hk
    · exact ⟨hid,hidle⟩
    · exact ⟨h.known_le k hk,h.known_idle k hk⟩
  have hupto := h.upto_le
  refine ⟨?_,?_,?_,?_⟩
  · exact fun k hk => (hknown k (skipRuns_sublist _ _ k hk)).1
  · exact fun k hk => (hknown k (skipRuns_sublist _ _ k hk)).2
  · change (skipRuns _ _).1 ≤ last
    by_contra hgt
    have hmem := skipRuns_run _ _ (x := (skipRuns (max g.minCurr g.persistedUptoPosition)
      (g.knownPersistedPositions.orderedInsert (· ≤ ·) newId)).1) (by omega) le_rfl
    exact hgt (hknown _ hmem).1
  · intro w x hx
    by_contra hge
    have hbefore : max g.minCurr g.persistedUptoPosition < x :=
      max_lt (hlt w x hx) (h.upto_lt w x hx)
    have hmem := skipRuns_run _ _ hbefore (not_lt.mp hge)
    exact (hknown x hmem).2 w hx

/-- Only writers may ask for IDs; with no writers given, anyone may. -/
def Generator.mayWrite (g : Generator) : Prop := g.writers = [] ∨ g.instanceName ∈ g.writers

def Generator.active (g : Generator) (fetches : List Fetch) : List ℤ :=
  g.unfinishedIds ++ fetches.flatMap Fetch.pending

structure GenInv (last : ℤ) (busy : String → Set ℤ) (g : Generator) (fetches : List Fetch) : Prop
    extends UptoInv last busy g where
  nonneg : 0 ≤ last
  busy_le : ∀ w, ∀ x ∈ busy w, x ≤ last
  own : ∀ x, x ∈ busy g.instanceName ↔ x ∈ g.active fetches
  active_nodup : (g.active fetches).Nodup
  foreign : ∀ w ≠ g.instanceName, ∀ x ∈ busy g.instanceName, x ∉ busy w
  inFlight : g.inFlightFetches.Perm (fetches.map Fetch.currentMax)
  pending_gt : ∀ f ∈ fetches, ∀ x ∈ f.pending, f.currentMax < x
  fetch_le : ∀ m ∈ g.inFlightFetches, m ≤ last
  position_pos : g.mayWrite → 1 ≤ g.ownPosition
  writes : g.idle = false → g.mayWrite
  position_le_seen : g.ownPosition ≤ g.maxSeenAllocatedStreamId
  position_le_fetch : ∀ m ∈ g.inFlightFetches, g.ownPosition ≤ m
  position_le_local : g.ownPosition ≤ g.maxPositionOfLocalInstance
  local_pos : 1 ≤ g.maxPositionOfLocalInstance
  local_le : g.maxPositionOfLocalInstance ≤ last
  local_lt : ∀ x ∈ busy g.instanceName, g.maxPositionOfLocalInstance < x
  local_idle : ∀ w ≠ g.instanceName, g.maxPositionOfLocalInstance ∉ busy w
  seen_le : g.maxSeenAllocatedStreamId ≤ last
  unfinished_le : ∀ x ∈ g.unfinishedIds, x ≤ g.maxSeenAllocatedStreamId
  seen_idle : ∀ w ≠ g.instanceName, g.maxSeenAllocatedStreamId ∉ busy w
  finished_le : ∀ s ∈ g.finishedIds, s ≤ g.maxSeenAllocatedStreamId
  finished_idle : ∀ s ∈ g.finishedIds, ∀ w, s ∉ busy w
  others : ∀ w ≠ g.instanceName, ∀ x ∈ busy w, ∃ v, g.currentPositions.lookup w = some v ∧ v < x
  positions_le : ∀ w v, g.currentPositions.lookup w = some v → v ≤ last

theorem mem_otherPositions :
    v ∈ g.otherPositions ↔ ∃ w ≠ g.instanceName, g.currentPositions.lookup w = some v := by
  simp [otherPositions,Entries.lookup_eq_some,and_comm]

namespace Generator

variable {w : String}

theorem minCurr_le_other (hw : w ≠ g.instanceName)
    (hv : g.currentPositions.lookup w = some v) : g.minCurr ≤ v := by
  have hmem : v ∈ g.otherPositions := mem_otherPositions.mpr ⟨w,hw,hv⟩
  obtain ⟨m,hm⟩ := Option.isSome_iff_exists.mp (isSome_min?_of_mem hmem)
  have hle : m ≤ v := (min?_eq_some_iff.mp hm).2 v hmem
  simp only [minCurr,hm]
  split
  · exact (min_le_left _ _).trans hle
  · exact hle

theorem minCurr_le_own (hpos : g.ownPosition ≠ 0) (hbusy : g.idle = false) : g.minCurr ≤ g.ownPosition := by
  unfold minCurr
  rw [if_pos ⟨hpos,hbusy⟩]
  exact min_le_right _ _

theorem minCurr_le {b : ℤ} (hown : g.ownPosition ≤ b)
    (hother : ∀ w v, g.currentPositions.lookup w = some v → v ≤ b) : g.minCurr ≤ b := by
  have hothers : g.otherPositions.min?.getD g.ownPosition ≤ b := by
    cases hmin : g.otherPositions.min? with
    | none => exact hown
    | some m =>
      obtain ⟨w,_,hl⟩ := mem_otherPositions.mp (min?_eq_some_iff.mp hmin).1
      exact hother w m hl
  unfold minCurr
  split
  · exact (min_le_left _ _).trans hothers
  · exact hothers

theorem idle_iff : g.idle = true ↔ g.unfinishedIds = [] ∧ g.inFlightFetches = [] := by
  simp [idle]

end Generator

section
variable (h : GenInv last busy g fetches)
include h

theorem GenInv.not_idle (hx : x ∈ busy g.instanceName) : g.idle = false := by
  rw [Bool.eq_false_iff,ne_eq,idle_iff]
  rintro ⟨hu,hf⟩
  have hfetches : fetches = [] := by
    have := h.inFlight.length_eq
    simpa [hf,eq_comm] using this
  have hactive := (h.own x).mp hx
  simp [active,hu,hfetches] at hactive

theorem GenInv.position_lt : ∀ x ∈ busy g.instanceName, g.ownPosition < x :=
  fun x hx => h.position_le_local.trans_lt (h.local_lt x hx)

theorem GenInv.minCurr_lt (w : String) : ∀ x ∈ busy w, g.minCurr < x := by
  intro x hx
  by_cases hw : w = g.instanceName
  · subst hw
    have hidle := h.not_idle hx
    have hpos := h.position_pos (h.writes hidle)
    exact (minCurr_le_own (by omega) hidle).trans_lt (h.position_lt x hx)
  · obtain ⟨v,hv,hlt⟩ := h.others w hw x hx
    exact (minCurr_le_other hw hv).trans_lt hlt

theorem GenInv.minCurr_le : g.minCurr ≤ last :=
  Generator.minCurr_le (h.position_le_seen.trans h.seen_le) h.positions_le

end

theorem Generator.localMax_cases (newId : ℤ) :
    (g.addPersistedPosition newId).maxPositionOfLocalInstance = g.maxSeenAllocatedStreamId ∧ g.idle = true ∨
    (g.addPersistedPosition newId).maxPositionOfLocalInstance = g.maxPositionOfLocalInstance ∨
    (g.addPersistedPosition newId).maxPositionOfLocalInstance = max g.minCurr g.persistedUptoPosition := by
  simp only [Generator.addPersistedPosition]
  split
  · rename_i hidle
    rcases max_choice g.maxSeenAllocatedStreamId (max g.maxPositionOfLocalInstance
      (max g.minCurr g.persistedUptoPosition)) with h | h
    · exact .inl ⟨h,hidle⟩
    · rw [h]
      exact .inr (max_choice _ _)
  · exact .inr (max_choice _ _)

theorem Generator.localMax_ge (newId : ℤ) : g.maxPositionOfLocalInstance ≤
    (g.addPersistedPosition newId).maxPositionOfLocalInstance := by
  simp only [Generator.addPersistedPosition]
  omega

theorem GenInv.addPersistedPosition (h : GenInv last busy g fetches)
    (hid : newId ≤ last) (hidle : ∀ w, newId ∉ busy w) :
    GenInv last busy (g.addPersistedPosition newId) fetches := by
  have hmax : ∀ w, ∀ x ∈ busy w, max g.minCurr g.persistedUptoPosition < x :=
    fun w x hx => max_lt (h.minCurr_lt w x hx) (h.upto_lt w x hx)
  refine { h with
    toUptoInv := h.toUptoInv.addPersistedPosition h.minCurr_le h.minCurr_lt hid hidle
    position_le_local := h.position_le_local.trans (localMax_ge newId)
    local_pos := h.local_pos.trans (localMax_ge newId)
    local_le := ?_
    local_lt := ?_
    local_idle := ?_ }
  · rcases g.localMax_cases newId with ⟨hv,-⟩ | hv | hv
    · exact hv ▸ h.seen_le
    · exact hv ▸ h.local_le
    · exact hv ▸ max_le h.minCurr_le h.upto_le
  · intro x hx
    rcases g.localMax_cases newId with ⟨-,hi⟩ | hv | hv
    · simp [h.not_idle hx] at hi
    · exact hv ▸ h.local_lt x hx
    · exact hv ▸ hmax _ x hx
  · intro w hw
    rcases g.localMax_cases newId with ⟨hv,-⟩ | hv | hv
    · exact hv ▸ h.seen_idle w hw
    · exact hv ▸ h.local_idle w hw
    · rw [hv]
      exact fun hx => lt_irrefl _ (hmax w _ hx)

theorem GenInv.addPersistedPositions (newIds : List ℤ) (h : GenInv last busy g fetches)
    (hids : ∀ x ∈ newIds, x ≤ last ∧ ∀ w, x ∉ busy w) :
    GenInv last busy (newIds.foldl Generator.addPersistedPosition g) fetches := by
  induction newIds generalizing g with
  | nil => exact h
  | cons x newIds ih =>
    have hx := hids x mem_cons_self
    exact ih (h.addPersistedPosition hx.1 hx.2) fun y hy => hids y (mem_cons_of_mem _ hy)

theorem GenInv.registerFetch (h : GenInv last busy g fetches) (hw : g.mayWrite) :
    GenInv last busy g.registerFetch (⟨g.maxSeenAllocatedStreamId,.waiting []⟩ :: fetches) :=
  { h with
    inFlight := h.inFlight.cons _
    pending_gt := by simpa using h.pending_gt
    fetch_le := forall_mem_cons.mpr ⟨h.seen_le,h.fetch_le⟩
    writes := fun _ => hw
    position_le_fetch := forall_mem_cons.mpr ⟨h.position_le_seen,h.position_le_fetch⟩ }

/-- The generator itself does nothing: IDs above all earlier ones are handed out, to it
or to others, and IDs of others are finished or lost. -/
theorem GenInv.handOut (h : GenInv last busy g fetches) {last' : ℤ} {busy' : String → Set ℤ}
    {fetches' : List Fetch} (hlast : last ≤ last') (hnew : ∀ w, ∀ x ∈ busy' w, x ∈ busy w ∨
      last < x ∧ x ≤ last' ∧ (w ≠ g.instanceName → w ∈ g.currentPositions))
    (hforeign : ∀ w ≠ g.instanceName, ∀ x ∈ busy' g.instanceName, x ∉ busy' w)
    (hown : ∀ x, x ∈ busy' g.instanceName ↔ x ∈ g.active fetches')
    (hnodup : (g.active fetches').Nodup)
    (hmap : fetches'.map Fetch.currentMax = fetches.map Fetch.currentMax)
    (hgt : ∀ f ∈ fetches', ∀ x ∈ f.pending, f.currentMax < x) : GenInv last' busy' g fetches' := by
  have hlt : ∀ {b : ℤ}, b ≤ last → ∀ w, (∀ x ∈ busy w, b < x) → ∀ x ∈ busy' w, b < x := by
    intro b hb w hold x hx
    rcases hnew w x hx with hx | ⟨hx,-⟩
    · exact hold x hx
    · omega
  have hnot : ∀ {b : ℤ}, b ≤ last → ∀ w, b ∉ busy w → b ∉ busy' w := by
    intro b hb w hold hx
    rcases hnew w b hx with hx | ⟨hx,-⟩
    · exact hold hx
    · omega
  refine { h with
    known_le := fun k hk => (h.known_le k hk).trans hlast
    known_idle := fun k hk w => hnot (h.known_le k hk) w (h.known_idle k hk w)
    upto_le := h.upto_le.trans hlast
    upto_lt := fun w => hlt h.upto_le w (h.upto_lt w)
    nonneg := h.nonneg.trans hlast
    busy_le := ?_
    own := hown
    active_nodup := hnodup
    foreign := hforeign
    inFlight := hmap ▸ h.inFlight
    pending_gt := hgt
    fetch_le := fun m hm => (h.fetch_le m hm).trans hlast
    local_le := h.local_le.trans hlast
    local_lt := hlt h.local_le _ h.local_lt
    local_idle := fun w hw => hnot h.local_le w (h.local_idle w hw)
    seen_le := h.seen_le.trans hlast
    seen_idle := fun w hw => hnot h.seen_le w (h.seen_idle w hw)
    finished_idle := fun s hs w =>
      hnot ((h.finished_le s hs).trans h.seen_le) w (h.finished_idle s hs w)
    others := ?_
    positions_le := fun w v hv => (h.positions_le w v hv).trans hlast }
  · intro w x hx
    rcases hnew w x hx with hx | ⟨-,hx,-⟩
    · exact (h.busy_le w x hx).trans hlast
    · exact hx
  · intro w hw x hx
    rcases hnew w x hx with hx | ⟨hx,-,hkey⟩
    · exact h.others w hw x hx
    · obtain ⟨v,hv⟩ := Option.isSome_iff_exists.mp (lookup_isSome.mpr (hkey hw))
      exact ⟨v,hv,(h.positions_le w v hv).trans_lt hx⟩

section Phases
variable {before after : List Fetch} {m : ℤ} {ids : List ℤ} {f : Fetch} {x : ℤ}

theorem forall_fetch {P : Fetch → Prop} :
    (∀ f' ∈ before ++ f :: after, P f') ↔ P f ∧ ∀ f' ∈ before ++ after, P f' := by
  simp only [perm_middle.mem_iff,forall_mem_cons]

theorem Generator.active_middle (g : Generator) (before after : List Fetch) (f : Fetch) :
    (g.active (before ++ f :: after)).Perm (f.pending ++ g.active (before ++ after)) := by
  simp only [active,flatMap_append]
  refine Perm.trans ?_ (perm_append_comm_assoc _ _ _)
  exact (perm_append_comm_assoc _ _ _).append_left _

theorem Generator.recordFetch_cases (g : Generator) (ids : List ℤ) :
    g.unfinishedIds ++ ids = [] ∧ g.recordFetch ids = g ∨
    ∃ top ∈ g.unfinishedIds ++ ids, (∀ x ∈ g.unfinishedIds ++ ids, x ≤ top) ∧ g.recordFetch ids = { g with
        unfinishedIds := g.unfinishedIds ++ ids
        maxSeenAllocatedStreamId := max g.maxSeenAllocatedStreamId top } := by
  simp only [Generator.recordFetch]
  cases hmax : (g.unfinishedIds ++ ids).max? with
  | none => exact .inl ⟨max?_eq_none_iff.mp hmax,rfl⟩
  | some top =>
    obtain ⟨hmem,hge⟩ := max?_eq_some_iff.mp hmax
    exact .inr ⟨top,hmem,hge,rfl⟩

theorem Generator.recordFetch_unfinished (g : Generator) (ids : List ℤ) :
    (g.recordFetch ids).unfinishedIds = g.unfinishedIds ++ ids := by
  rcases g.recordFetch_cases ids with ⟨hnil,heq⟩ | ⟨top,-,-,heq⟩
  · rw [heq,hnil]
    exact (append_eq_nil_iff.mp hnil).1
  · rw [heq]

theorem GenInv.recordFetch (h : GenInv last busy g (before ++ ⟨m,.waiting ids⟩ :: after)) :
    GenInv last busy (g.recordFetch ids) (before ++ ⟨m,.leaving⟩ :: after) := by
  -- The IDs move from the fetch to the unfinished ones.
  have hperm : (g.active (before ++ ⟨m,.waiting ids⟩ :: after)).Perm
      (g.unfinishedIds ++ ids ++ (before ++ ⟨m,.leaving⟩ :: after).flatMap Fetch.pending) := by
    refine (g.active_middle before after _).trans ?_
    rw [append_assoc]
    refine (perm_append_comm_assoc _ _ _).trans (Perm.append_left _ ?_)
    simp
  have hflight : g.inFlightFetches.Perm ((before ++ ⟨m,.leaving⟩ :: after).map Fetch.currentMax) := by
    simpa using h.inFlight
  have hgt : ∀ f ∈ before ++ ⟨m,.leaving⟩ :: after, ∀ x ∈ f.pending, f.currentMax < x :=
    forall_fetch.mpr ⟨by simp,(forall_fetch.mp h.pending_gt).2⟩
  rcases g.recordFetch_cases ids with ⟨hnil,heq⟩ | ⟨top,hmem,hge,heq⟩
  · have hids : ids = [] := (append_eq_nil_iff.mp hnil).2
    rw [heq]
    subst hids
    exact { h with
      own := fun x => by rw [h.own,hperm.mem_iff,append_nil]; rfl
      active_nodup := by
        have hnodup := hperm.nodup_iff.mp h.active_nodup
        rwa [append_nil] at hnodup
      inFlight := hflight
      pending_gt := hgt }
  · have htop : top ∈ busy g.instanceName :=
      (h.own top).mpr (hperm.mem_iff.mpr (mem_append_left _ hmem))
    rw [heq]
    exact { h with
      own := fun x => (h.own x).trans hperm.mem_iff
      active_nodup := hperm.nodup_iff.mp h.active_nodup
      inFlight := hflight
      pending_gt := hgt
      writes := fun _ => h.writes (h.not_idle htop)
      position_le_seen := h.position_le_seen.trans (le_max_left _ _)
      seen_le := max_le h.seen_le (h.busy_le _ top htop)
      unfinished_le := fun x hx => (hge x hx).trans (le_max_right _ _)
      seen_idle := fun w hw => max_rec' (· ∉ busy w) (h.seen_idle w hw) (h.foreign w hw top htop)
      finished_le := fun s hs => (h.finished_le s hs).trans (le_max_left _ _) }

theorem GenInv.releaseFetch (h : GenInv last busy g (before ++ ⟨m,.leaving⟩ :: after)) :
    GenInv last busy (g.releaseFetch m) (before ++ after) := by
  have hperm : (g.inFlightFetches.erase m).Perm ((before ++ after).map Fetch.currentMax) := by
    have hcons : g.inFlightFetches.Perm (m :: (before ++ after).map Fetch.currentMax) := by
      refine h.inFlight.trans ?_
      simp
    simpa using hcons.erase m
  have hactive : g.active (before ++ ⟨m,.leaving⟩ :: after) = g.active (before ++ after) := by
    simp [active]
  refine { h with
    own := fun x => hactive ▸ h.own x
    active_nodup := hactive ▸ h.active_nodup
    inFlight := hperm
    pending_gt := (forall_fetch.mp h.pending_gt).2
    fetch_le := fun x hx => h.fetch_le x (mem_of_mem_erase hx)
    writes := fun hidle => h.writes ?_
    position_le_fetch := fun x hx => h.position_le_fetch x (mem_of_mem_erase hx) }
  rw [Bool.eq_false_iff,ne_eq,idle_iff] at hidle ⊢
  rintro ⟨hu,hf⟩
  exact hidle ⟨hu,by simp [Generator.releaseFetch,hf]⟩

end Phases

theorem GenInv.moveOwnPosition (h : GenInv last busy g fetches) {newCur : Option ℤ}
    (hcur : ∀ n ∈ newCur, n ≤ g.maxSeenAllocatedStreamId ∧ (∀ w, n ∉ busy w) ∧
      (∀ m ∈ g.inFlightFetches, n ≤ m) ∧ ∀ x ∈ busy g.instanceName, n < x) :
    GenInv last busy (g.moveOwnPosition newCur) fetches := by
  cases newCur with
  | none => exact h
  | some n =>
    obtain ⟨hseen,hidle,hflight,hlt⟩ := hcur n rfl
    unfold Generator.moveOwnPosition
    dsimp only
    split
    · exact h
    have hown : ({ g with
        currentPositions := g.currentPositions.insert g.instanceName (max g.ownPosition n)
        maxPositionOfLocalInstance := max (max g.ownPosition n) g.maxPositionOfLocalInstance } :
        Generator).ownPosition = max g.ownPosition n := by
      simp [ownPosition]
    have hle : max g.ownPosition n ≤ last :=
      max_le (h.position_le_local.trans h.local_le) (hseen.trans h.seen_le)
    have hmax : max (max g.ownPosition n) g.maxPositionOfLocalInstance =
        max n g.maxPositionOfLocalInstance := by
      have := h.position_le_local
      omega
    refine { h with
      position_pos := fun hw => ?_
      position_le_seen := ?_
      position_le_fetch := fun m hm => ?_
      position_le_local := ?_
      local_pos := h.local_pos.trans (le_max_right _ _)
      local_le := max_le hle h.local_le
      local_lt := fun x hx => max_lt (max_lt (h.position_lt x hx) (hlt x hx)) (h.local_lt x hx)
      local_idle := fun w hw => ?_
      others := fun w hw x hx => ?_
      positions_le := fun w v hv => ?_ }
    · rw [hown]
      exact (h.position_pos hw).trans (le_max_left _ _)
    · rw [hown]
      exact max_le h.position_le_seen hseen
    · rw [hown]
      exact max_le (h.position_le_fetch m hm) (hflight m hm)
    · rw [hown]
      exact le_max_left _ _
    · rw [hmax]
      exact max_rec' (· ∉ busy w) (hidle w) (h.local_idle w hw)
    · obtain ⟨v,hv,hvx⟩ := h.others w hw x hx
      exact ⟨v,(lookup_insert_ne hw).trans hv,hvx⟩
    · rcases Entries.insert_cases hv with ⟨rfl,rfl⟩ | ⟨-,hold⟩
      · exact hle
      · exact h.positions_le w v hold

namespace Generator

theorem lt_minUnfinished (hgt : ∀ f ∈ fetches, ∀ x ∈ f.pending, f.currentMax < x)
    (hflight : g.inFlightFetches.Perm (fetches.map Fetch.currentMax)) {n : ℤ}
    (hn : ∀ least ∈ g.minUnfinished, n < least) :
    (∀ m ∈ g.inFlightFetches, n ≤ m) ∧ ∀ x ∈ g.active fetches, n < x := by
  have hleast : (∀ u ∈ g.unfinishedIds.min?, n < u) ∧ ∀ f ∈ g.inFlightFetches.min?, n ≤ f := by
    revert hn
    unfold minUnfinished
    cases g.unfinishedIds.min? <;> cases g.inFlightFetches.min? <;> simp
  have hunfinished : ∀ x ∈ g.unfinishedIds, n < x := by
    intro x hx
    obtain ⟨u,hu⟩ := Option.isSome_iff_exists.mp (isSome_min?_of_mem hx)
    exact (hleast.1 u hu).trans_le ((min?_eq_some_iff.mp hu).2 x hx)
  have hfetches : ∀ m ∈ g.inFlightFetches, n ≤ m := by
    intro m hm
    obtain ⟨f,hf⟩ := Option.isSome_iff_exists.mp (isSome_min?_of_mem hm)
    exact (hleast.2 f hf).trans ((min?_eq_some_iff.mp hf).2 m hm)
  refine ⟨hfetches,fun x hx => ?_⟩
  rcases mem_append.mp hx with hx | hx
  · exact hunfinished x hx
  · obtain ⟨f,hf,hx⟩ := mem_flatMap.mp hx
    have hm := hfetches f.currentMax (hflight.mem_iff.mpr (mem_map_of_mem hf))
    exact hm.trans_lt (hgt f hf x hx)

variable {g' : Generator}

theorem settleFinished_cases (h : g.settleFinished = .ok g') :
    ∃ kept newCur, g' = { g with finishedIds := kept }.moveOwnPosition newCur ∧
      (∀ s ∈ kept, s ∈ g.finishedIds) ∧
      ∀ n ∈ newCur, n ∈ g.finishedIds ∧ ∀ least ∈ g.minUnfinished, n < least := by
  unfold settleFinished at h
  split at h
  · rename_i least hleast
    cases h
    refine ⟨_,_,rfl,fun s hs => (mem_filter.mp hs).1,fun n hn => ?_⟩
    have hmem := (max?_eq_some_iff.mp hn).1
    simp only [mem_filter,decide_eq_true_eq] at hmem
    refine ⟨hmem.1,fun l hl => ?_⟩
    obtain rfl : least = l := by simpa [hleast] using hl
    exact hmem.2
  · rename_i hleast
    split at h
    · simp at h
    · rename_i newCur hmax
      cases h
      refine ⟨[],some newCur,rfl,by simp,fun n hn => ?_⟩
      obtain rfl : newCur = n := by simpa using hn
      exact ⟨(max?_eq_some_iff.mp hmax).1,by simp [hleast]⟩

end Generator

theorem GenInv.settleFinished (h : GenInv last busy g fetches)
    (hok : g.settleFinished = .ok g') : GenInv last busy g' fetches := by
  obtain ⟨kept,newCur,rfl,hkept,hcur⟩ := settleFinished_cases hok
  have hfinished : GenInv last busy { g with finishedIds := kept } fetches := { h with
    finished_le := fun s hs => h.finished_le s (hkept s hs)
    finished_idle := fun s hs => h.finished_idle s (hkept s hs) }
  refine hfinished.moveOwnPosition fun n hn => ?_
  obtain ⟨hmem,hleast⟩ := hcur n hn
  obtain ⟨hflight,hactive⟩ := lt_minUnfinished h.pending_gt h.inFlight hleast
  exact ⟨h.finished_le n hmem,h.finished_idle n hmem,hflight, fun x hx => hactive x ((h.own x).mp hx)⟩

theorem Generator.addPersistedPositions_keeps (g : Generator) (newIds : List ℤ) :
    (newIds.foldl Generator.addPersistedPosition g).unfinishedIds = g.unfinishedIds ∧
      (newIds.foldl Generator.addPersistedPosition g).currentPositions = g.currentPositions := by
  induction newIds generalizing g with
  | nil => exact ⟨rfl,rfl⟩
  | cons x newIds ih => exact ih _

variable {nextIds : List ℤ}

theorem Generator.markIdsAsFinished_keeps (hok : g.markIdsAsFinished nextIds = .ok g') :
    g'.unfinishedIds = g.unfinishedIds.filter (· ∉ nextIds) ∧
      ∀ w ∈ g.currentPositions, w ∈ g'.currentPositions := by
  unfold Generator.markIdsAsFinished at hok
  split at hok
  · cases hok
  · rename_i settled hsettled
    cases hok
    obtain ⟨kept,newCur,rfl,-⟩ := settleFinished_cases hsettled
    obtain ⟨hunfinished,hpositions⟩ := addPersistedPositions_keeps
      (({ g with
        unfinishedIds := g.unfinishedIds.filter (· ∉ nextIds)
        finishedIds := kept } : Generator).moveOwnPosition newCur) nextIds
    rw [hunfinished,hpositions]
    unfold Generator.moveOwnPosition
    split
    · exact ⟨rfl,fun _ => id⟩
    · split
      · exact ⟨rfl,fun _ => id⟩
      · exact ⟨rfl,fun w hw => (mem_insert _).mpr (.inr hw)⟩

theorem GenInv.markIdsAsFinished {busy' : String → Set ℤ}
    (h : GenInv last busy g fetches) (hids : ∀ x ∈ nextIds, x ∈ g.unfinishedIds)
    (hown : ∀ x, x ∈ busy' g.instanceName ↔ x ∈ g'.active fetches)
    (hother : ∀ w ≠ g.instanceName, busy' w = busy w)
    (hok : g.markIdsAsFinished nextIds = .ok g') : GenInv last busy' g' fetches := by
  have hactive : ∀ x, x ∈ g'.active fetches ↔ x ∈ g.active fetches ∧ x ∉ nextIds := by
    have hdisjoint := disjoint_of_nodup_append h.active_nodup
    intro x
    simp only [active,(markIdsAsFinished_keeps hok).1,mem_append,mem_filter, decide_eq_true_eq]
    tauto
  have hself : ∀ x, x ∈ busy' g.instanceName ↔ x ∈ busy g.instanceName ∧ x ∉ nextIds :=
    fun x => by rw [hown,hactive,h.own]
  have hsub : ∀ w, ∀ x ∈ busy' w, x ∈ busy w := by
    intro w x hx
    by_cases hw : w = g.instanceName
    · exact hw ▸ ((hself x).mp (hw ▸ hx)).1
    · exact hother w hw ▸ hx
  have hdone : ∀ x ∈ nextIds, ∀ w, x ∉ busy' w := by
    intro x hx w hb
    by_cases hw : w = g.instanceName
    · exact ((hself x).mp (hw ▸ hb)).2 hx
    · have hx' : x ∈ busy g.instanceName := (h.own x).mpr (mem_append_left _ (hids x hx))
      exact h.foreign w hw x hx' (hsub w x hb)
  have hmarked : GenInv last busy' { g with
      unfinishedIds := g.unfinishedIds.filter (· ∉ nextIds)
      finishedIds := g.finishedIds ++ nextIds } fetches := { h with
    known_idle := fun k hk w hx => h.known_idle k hk w (hsub w k hx)
    upto_lt := fun w x hx => h.upto_lt w x (hsub w x hx)
    busy_le := fun w x hx => h.busy_le w x (hsub w x hx)
    own := fun x => by
      rw [hown,active,(markIdsAsFinished_keeps hok).1]
      rfl
    active_nodup := h.active_nodup.sublist (Sublist.append_right filter_sublist _)
    foreign := fun w hw x hx hb => h.foreign w hw x (hsub _ x hx) (hsub w x hb)
    writes := fun hidle => h.writes (by
      rw [Bool.eq_false_iff,ne_eq,idle_iff] at hidle ⊢
      rintro ⟨hu,hf⟩
      exact hidle ⟨by simp [hu],hf⟩)
    local_lt := fun x hx => h.local_lt x (hsub _ x hx)
    local_idle := fun w hw hx => h.local_idle w hw (hsub w _ hx)
    unfinished_le := fun x hx => h.unfinished_le x (mem_filter.mp hx).1
    seen_idle := fun w hw hx => h.seen_idle w hw (hsub w _ hx)
    finished_le := forall_mem_append.mpr ⟨h.finished_le,fun x hx => h.unfinished_le x (hids x hx)⟩
    finished_idle := forall_mem_append.mpr ⟨fun s hs w hx => h.finished_idle s hs w (hsub w s hx),hdone⟩
    others := fun w hw x hx => h.others w hw x (hsub w x hx) }
  have hle : ∀ x ∈ nextIds, x ≤ last := fun x hx => (h.unfinished_le x (hids x hx)).trans h.seen_le
  unfold Generator.markIdsAsFinished at hok
  split at hok
  · cases hok
  · rename_i settled hsettled
    cases hok
    exact (hmarked.settleFinished hsettled).addPersistedPositions nextIds fun x hx => ⟨hle x hx,hdone x hx⟩

theorem GenInv.advance (h : GenInv last busy g fetches)
    (hw : w ≠ g.instanceName) (hle : newId * g.returnFactor ≤ last)
    (hidle : ∀ w', newId * g.returnFactor ∉ busy w')
    (hlt : ∀ x ∈ busy w, newId * g.returnFactor < x) :
    GenInv last busy (g.advance w newId) fetches := by
  apply GenInv.addPersistedPosition _ hle hidle
  have hown : ∀ {v seen}, ({ g with
      currentPositions := g.currentPositions.insert w v
      maxSeenAllocatedStreamId := seen } : Generator).ownPosition = g.ownPosition := by
    intro v seen
    simp only [ownPosition]
    rw [lookup_insert_ne hw.symm]
  have hnonneg := h.nonneg
  refine { h with
    position_pos := fun hm => hown ▸ h.position_pos hm
    position_le_seen := hown ▸ h.position_le_seen.trans (le_max_left _ _)
    position_le_fetch := fun m hm => hown ▸ h.position_le_fetch m hm
    position_le_local := hown ▸ h.position_le_local
    seen_le := max_le h.seen_le hle
    unfinished_le := fun x hx => (h.unfinished_le x hx).trans (le_max_left _ _)
    seen_idle := fun w' hw' => max_rec' (· ∉ busy w') (h.seen_idle w' hw') (hidle w')
    finished_le := fun s hs => (h.finished_le s hs).trans (le_max_left _ _)
    others := fun w' hw' x hx => ?_
    positions_le := fun w' v hv => ?_ }
  · obtain ⟨v,hv,hvx⟩ := h.others w' hw' x hx
    by_cases hww : w' = w
    · subst hww
      exact ⟨_,lookup_insert _,by simpa [hv] using max_lt (hlt x hx) hvx⟩
    · exact ⟨v,(lookup_insert_ne hww).trans hv,hvx⟩
  · rcases Entries.insert_cases hv with ⟨rfl,rfl⟩ | ⟨-,hold⟩
    · refine max_le hle ?_
      cases hold : g.currentPositions.lookup w' with
      | none => exact hnonneg
      | some old => exact h.positions_le w' old hold
    · exact h.positions_le w' v hold

/-- The three positions of an instance, in order: its own entry, the one that it announces
and the persisted one. -/
structure Generator.Below (g g' : Generator) : Prop where
  instanceName : g'.instanceName = g.instanceName
  writers : g'.writers = g.writers
  positive : g'.positive = g.positive
  ownPosition : g.ownPosition ≤ g'.ownPosition
  localMax : g.maxPositionOfLocalInstance ≤ g'.maxPositionOfLocalInstance
  upto : g.persistedUptoPosition ≤ g'.persistedUptoPosition

namespace Generator.Below

theorem refl (g : Generator) : g.Below g := ⟨rfl,rfl,rfl,le_rfl,le_rfl,le_rfl⟩

theorem trans {g₁ g₂ g₃ : Generator} (h : g₁.Below g₂) (h' : g₂.Below g₃) : g₁.Below g₃ :=
  ⟨h'.instanceName.trans h.instanceName,h'.writers.trans h.writers,h'.positive.trans h.positive,
    h.ownPosition.trans h'.ownPosition,h.localMax.trans h'.localMax,h.upto.trans h'.upto⟩

theorem addPersistedPosition (g : Generator) (newId : ℤ) : g.Below (g.addPersistedPosition newId) :=
  ⟨rfl,rfl,rfl,le_rfl,localMax_ge newId,(le_max_right _ _).trans (skipRuns_ge _ _)⟩

theorem addPersistedPositions (g : Generator) (newIds : List ℤ) :
    g.Below (newIds.foldl Generator.addPersistedPosition g) := by
  induction newIds generalizing g with
  | nil => exact refl g
  | cons x newIds ih => exact (addPersistedPosition g x).trans (ih _)

theorem recordFetch (g : Generator) (ids : List ℤ) : g.Below (g.recordFetch ids) := by
  rcases g.recordFetch_cases ids with ⟨-,heq⟩ | ⟨top,-,-,heq⟩
  · rw [heq]
    exact refl g
  · rw [heq]
    exact ⟨rfl,rfl,rfl,le_rfl,le_rfl,le_rfl⟩

theorem moveOwnPosition (g : Generator) (newCur : Option ℤ) : g.Below (g.moveOwnPosition newCur) := by
  cases newCur with
  | none => exact refl g
  | some n =>
    unfold Generator.moveOwnPosition
    dsimp only
    split
    · exact refl g
    · refine ⟨rfl,rfl,rfl,?_,le_max_right _ _,le_rfl⟩
      simp [Generator.ownPosition]

theorem markIdsAsFinished {g : Generator} (h : g.markIdsAsFinished nextIds = .ok g') : g.Below g' := by
  unfold Generator.markIdsAsFinished at h
  split at h
  · cases h
  · rename_i settled hsettled
    cases h
    obtain ⟨kept,newCur,rfl,-⟩ := settleFinished_cases hsettled
    refine trans ?_ ((moveOwnPosition _ newCur).trans (addPersistedPositions _ nextIds))
    exact ⟨rfl,rfl,rfl,le_rfl,le_rfl,le_rfl⟩

theorem advance (g : Generator) (hw : w ≠ g.instanceName) (newId : ℤ) : g.Below (g.advance w newId) := by
  refine trans ?_ (addPersistedPosition _ _)
  refine ⟨rfl,rfl,rfl,?_,le_rfl,le_rfl⟩
  simp only [Generator.ownPosition]
  rw [lookup_insert_ne hw.symm]

end Generator.Below

end TextrpBriij.Storage
