import TextrpBriij.AuthChain.CoverIndex

/-! # The events whose auth chain is known

What the first loops of the calculation establish: the events of the batch and the parked ones
are collected, the auth events that have a place are looked up, and every event with an auth
event that has neither is set aside.
-/
namespace TextrpBriij.AuthChain
open ChainCover Util List AList Fallible
open Calculation (discardUnknown ofEvents)

/-- The auth events of the events of a room. -/
structure Room where
  auth : String → List String
  acyclic : Acyclic auth

def Room.edge (room : Room) (e f : String) : Prop := f ∈ room.auth e

structure Event.Proper (room : Room) (e : Event) : Prop where
  auth_eq : e.authEventIds = room.auth e.eventId
  nodup : (room.auth e.eventId).Nodup

variable {room : Room} {db : Database} {c : Calculation} {ch : Choices}

@[simp] theorem Dict.get_eq_ok {K V : Type} [DecidableEq K] {d : Dict K V} {key : K} {v : V} :
    d.get key = .ok v ↔ d.lookup key = some v := by
  unfold Dict.get
  cases d.lookup key <;> simp

theorem Dict.mem_iff {K V : Type} [DecidableEq K] {d : Dict K V} {key : K} :
    key ∈ d ↔ ∃ v, d.lookup key = some v := by
  rw [← lookup_isSome,Option.isSome_iff_exists]

structure Database.Sound (room : Room) (db : Database) : Prop where
  auth_ids : ∀ e ∈ db.events, (db.authIds e).Perm (room.auth e)
  no_auth_ids : ∀ e, e ∉ db.events → db.authIds e = []
  nodup : ∀ e ∈ db.events, (room.auth e).Nodup
  stored : ∀ e ∈ db.eventAuthChains, e ∈ db.events
  parked : ∀ e, e ∈ db.eventAuthChainToCalculate ↔ e ∈ db.events ∧ e ∉ db.eventAuthChains
  waits : ∀ e ∈ db.eventAuthChainToCalculate, ∃ a ∈ room.auth e, a ∉ db.eventAuthChains
  cover : Cover room.edge db.eventAuthChains.lookup {l | l ∈ db.eventAuthChainLinks}
  tidy : Tidy {l | l ∈ db.eventAuthChainLinks}
  allocated : ∀ e p, db.eventAuthChains.lookup e = some p → p.1 ≤ db.eventAuthChainId

structure Calculation.Loaded (room : Room) (c : Calculation) : Prop where
  auth : ∀ e l, c.eventToAuthChain.lookup e = some l → l.Perm (room.auth e)
  nodup : ∀ e ∈ c.eventsToCalcChainIdFor, (room.auth e).Nodup
  keys : ∀ e, e ∈ c.eventToAuthChain ↔ e ∈ c.eventsToCalcChainIdFor
  types : ∀ e ∈ c.eventsToCalcChainIdFor, e ∈ c.eventToTypes
  chainMap : c.chainMap = ∅

theorem Calculation.Loaded.addEvent (h : c.Loaded room) {e : String} (types : String × String)
    {authEvents : List String} (hauth : authEvents.Perm (room.auth e))
    (hnodup : (room.auth e).Nodup) : (c.addEvent e types authEvents).Loaded room := by
  refine ⟨fun f l hl => ?_,fun f hf => ?_,fun f => ?_,fun f hf => ?_,h.chainMap⟩
  · rcases Entries.insert_cases hl with ⟨rfl,rfl⟩ | ⟨-,hold⟩
    · exact hauth
    · exact h.auth f l hold
  · rcases mem_insert_iff.mp hf with rfl | hf
    · exact hnodup
    · exact h.nodup f hf
  · simp [Calculation.addEvent,h.keys f]
  · rw [Calculation.addEvent,mem_insert]
    rcases mem_insert_iff.mp hf with rfl | hf
    · exact .inl rfl
    · exact .inr (h.types f hf)

variable {events : List Event}

theorem Calculation.ofEvents_loaded (h : ∀ e ∈ events, e.Proper room) :
    (ofEvents events).Loaded room ∧ ∀ e, e ∈ (ofEvents events).eventsToCalcChainIdFor ↔
        e ∈ events.map fun e => e.eventId := by
  refine foldl_spec (fun (pre : List Event) c => Calculation.Loaded room c ∧
    ∀ e, e ∈ c.eventsToCalcChainIdFor ↔ e ∈ pre.map fun e => e.eventId) ?_ ?_
  · exact ⟨⟨by simp,by simp,by simp,by simp,rfl⟩,by simp⟩
  · rintro pre e post c hsplit ⟨hc,hmem⟩
    have he := h e (by simp [hsplit])
    refine ⟨hc.addEvent e.types (he.auth_eq ▸ .refl _) he.nodup,fun f => ?_⟩
    simp [Calculation.addEvent,hmem,or_comm]

theorem Calculation.Loaded.addParked (ch : Choices) (h : c.Loaded room) (hdb : db.Sound room) :
    (c.addParked ch db).Loaded room ∧ ∀ e, e ∈ (c.addParked ch db).eventsToCalcChainIdFor ↔
      e ∈ c.eventsToCalcChainIdFor ∨ e ∈ db.eventAuthChainToCalculate := by
  have hkeys : ∀ e, e ∈ db.eventAuthChainToCalculate ↔
      e ∈ db.eventAuthChainToCalculate.entries.map fun row => row.1 := fun e => Iff.rfl
  refine foldl_spec (fun (pre : List StoredRow) c' => Calculation.Loaded room c' ∧
    ∀ e, e ∈ c'.eventsToCalcChainIdFor ↔
      e ∈ c.eventsToCalcChainIdFor ∨ e ∈ pre.map fun row => row.1) ⟨h,by simp⟩ ?_
  rintro pre row post c' hsplit ⟨hc,hmem⟩
  have hrow : row.1 ∈ db.eventAuthChainToCalculate := by
    rw [hkeys,hsplit]
    simp
  have hstored := ((hdb.parked row.1).mp hrow).1
  have hperm := (ch.arrange_perm _).trans (hdb.auth_ids row.1 hstored)
  refine ⟨hc.addEvent row.2 hperm (hdb.nodup row.1 hstored),fun e => ?_⟩
  simp only [Calculation.addEvent,mem_insert_iff,hmem,map_append,map_cons, map_nil,mem_append,mem_singleton]
  tauto

theorem Calculation.mem_missingAuthChains (c : Calculation) {a : String} : a ∈ c.missingAuthChains ↔
      (∃ e l, c.eventToAuthChain.lookup e = some l ∧ a ∈ l) ∧ a ∉ c.eventsToCalcChainIdFor := by
  simp only [missingAuthChains,mem_filter,mem_dedup,mem_flatMap,decide_eq_true_eq,Entries.exists_entry]

/-- The calculation after the lookup: the auth events that are not calculated now and have a
place are in `chain_map`. -/
structure Calculation.Fetched (db : Database) (c c' : Calculation) : Prop where
  toCalc : c'.eventsToCalcChainIdFor = c.eventsToCalcChainIdFor
  auth : c'.eventToAuthChain = c.eventToAuthChain
  types : ∀ e ∈ c.eventToTypes, e ∈ c'.eventToTypes
  chainMap : ∀ a p, c'.chainMap.lookup a = some p ↔
    a ∈ c.missingAuthChains ∧ db.eventAuthChains.lookup a = some p

theorem Calculation.addMissing_rows (ch : Choices) (hempty : c.chainMap = ∅) {rows : List StoredRow}
    (hrows : ∀ row ∈ rows, row.1 ∈ db.eventAuthChains) :
    ∃ c', rows.foldl (addMissing ch db) (c,[]) = (c',[]) ∧
      c'.eventsToCalcChainIdFor = c.eventsToCalcChainIdFor ∧
      c'.eventToAuthChain = c.eventToAuthChain ∧ (∀ e ∈ c.eventToTypes, e ∈ c'.eventToTypes) ∧
      ∀ a p, c'.chainMap.lookup a = some p ↔
        a ∈ rows.map (fun row => row.1) ∧ db.eventAuthChains.lookup a = some p := by
  induction rows using reverseRecOn with
  | nil => exact ⟨c,rfl,rfl,rfl,fun _ h => h,by simp [hempty]⟩
  | append_singleton pre row ih =>
    obtain ⟨c',hfold,htc,hauth,htypes,hmap⟩ := ih fun row hrow => hrows row (mem_append_left _ hrow)
    obtain ⟨place,hplace⟩ := Dict.mem_iff.mp (hrows row (by simp))
    simp only [foldl_append,hfold,foldl_cons,foldl_nil,addMissing,hplace]
    refine ⟨_,rfl,htc,hauth,fun e he => ?_,fun a p => ?_⟩
    · exact (mem_insert _).mpr (.inr (htypes e he))
    · by_cases heq : a = row.1
      · subst heq
        simp [hplace]
      · rw [lookup_insert_ne heq,hmap]
        simp [heq]

/-- One round is enough: every missing event that is stored has a place, as the ones without
are parked and so not missing. -/
theorem Calculation.Loaded.fetchMissing (hc : c.Loaded room) (hdb : db.Sound room)
    (hparked : ∀ e ∈ db.eventAuthChainToCalculate, e ∈ c.eventsToCalcChainIdFor) (fuel : ℕ) :
    c.Fetched db (c.fetchMissing ch db (fuel + 2) c.missingAuthChains) := by
  cases hmissing : c.missingAuthChains with
  | nil =>
    exact ⟨rfl,rfl,fun _ h => h,by simp [Calculation.fetchMissing,hc.chainMap,hmissing]⟩
  | cons x xs =>
    let rows := db.events.entries.filter fun row => row.1 ∈ x :: xs
    have hrows : ∀ row ∈ rows, row.1 ∈ db.eventAuthChains := by
      intro row hrow
      obtain ⟨hin,hmiss⟩ := mem_filter.mp hrow
      have hstored : row.1 ∈ db.events := mem_keys.mpr (mem_map_of_mem hin)
      rw [← hmissing,decide_eq_true_eq] at hmiss
      have hnot := (c.mem_missingAuthChains.mp hmiss).2
      by_contra hunplaced
      exact hnot (hparked row.1 ((hdb.parked row.1).mpr ⟨hstored,hunplaced⟩))
    obtain ⟨c',hround,htc,hauth,htypes,hmap⟩ := c.addMissing_rows ch hc.chainMap hrows
    have hresult : c.fetchMissing ch db (fuel + 2) (x :: xs) = c' := by
      simp only [Calculation.fetchMissing]
      rw [hround]
      rfl
    rw [hresult]
    refine ⟨htc,hauth,htypes,fun a p => (hmap a p).trans (and_congr_left fun hp => ?_)⟩
    have hstored := hdb.stored a (Dict.mem_iff.mpr ⟨p,hp⟩)
    rw [hmissing]
    constructor
    · intro ha
      obtain ⟨row,hrow,rfl⟩ := mem_map.mp ha
      exact of_decide_eq_true (mem_filter.mp hrow).2
    · intro ha
      obtain ⟨types,htypes⟩ := Dict.mem_iff.mp hstored
      exact mem_map.mpr ⟨⟨a,types⟩,mem_filter.mpr ⟨mem_lookup_iff.mp htypes,decide_eq_true ha⟩,rfl⟩

/-- The state of the loop that sets events aside, after the events `pre`. -/
structure Discarding (events : List Event) (db : Database) (c : Calculation) (pre : List String)
    (s : Calculation × Database) : Prop where
  chainMap : s.1.chainMap = c.chainMap
  auth : s.1.eventToAuthChain = c.eventToAuthChain
  types : s.1.eventToTypes = c.eventToTypes
  sub : ∀ e ∈ s.1.eventsToCalcChainIdFor, e ∈ c.eventsToCalcChainIdFor
  later : ∀ e ∈ c.eventsToCalcChainIdFor, e ∉ pre → e ∈ s.1.eventsToCalcChainIdFor
  known : ∀ e ∈ pre, e ∈ s.1.eventsToCalcChainIdFor → ∀ a ∈ c.eventToAuthChain.edges e,
    a ∈ c.chainMap ∨ a ∈ s.1.eventsToCalcChainIdFor
  waits : ∀ e ∈ pre, e ∉ s.1.eventsToCalcChainIdFor → ∃ a ∈ c.eventToAuthChain.edges e,
    a ∉ c.chainMap ∧ a ∉ s.1.eventsToCalcChainIdFor
  tables : s.2 = { db with eventAuthChainToCalculate := s.2.eventAuthChainToCalculate }
  parked : ∀ e, e ∈ s.2.eventAuthChainToCalculate ↔ e ∈ db.eventAuthChainToCalculate ∨
    e ∈ pre ∧ e ∈ (events.map fun e => e.eventId) ∧ e ∉ s.1.eventsToCalcChainIdFor

section discarding
variable {events : List Event} {pre post : List String} {e : String} {s : Calculation × Database}

section
variable (h : Discarding events db c pre s)
include h

theorem Discarding.keep (hin : e ∈ s.1.eventsToCalcChainIdFor) (hknown : ∀ a ∈ c.eventToAuthChain.edges e,
      a ∈ c.chainMap ∨ a ∈ s.1.eventsToCalcChainIdFor) : Discarding events db c (pre ++ [e]) s := by
  refine { h with
    later := ?_
    known := forall_mem_append.mpr ⟨h.known,forall_mem_singleton.mpr fun _ => hknown⟩
    waits := forall_mem_append.mpr ⟨h.waits,forall_mem_singleton.mpr fun hnot => absurd hin hnot⟩
    parked := ?_ }
  · intro f hf hnot
    exact h.later f hf fun hin => hnot (mem_append_left _ hin)
  · intro f
    rw [h.parked]
    by_cases heq : f = e
    · subst heq
      simp [hin]
    · simp [heq]

/-- An event with an unknown auth event is taken out, and no event before has it as an auth
event. -/
theorem Discarding.discard (hnotpre : e ∉ pre) (hnoedge : ∀ f ∈ pre, e ∉ c.eventToAuthChain.edges f)
    (hunknown : ∃ a ∈ c.eventToAuthChain.edges e,
      a ∉ c.chainMap ∧ a ∉ s.1.eventsToCalcChainIdFor) {db' : Database}
    (htables : db' = { db with eventAuthChainToCalculate := db'.eventAuthChainToCalculate })
    (hparked : ∀ f, f ∈ db'.eventAuthChainToCalculate ↔ f ∈ s.2.eventAuthChainToCalculate ∨
      f = e ∧ e ∈ events.map fun e => e.eventId) :
    Discarding events db c (pre ++ [e])
      ({ s.1 with eventsToCalcChainIdFor := s.1.eventsToCalcChainIdFor.filter (· ≠ e) },db') := by
  have hmem : ∀ f, f ∈ s.1.eventsToCalcChainIdFor.filter (· ≠ e) ↔
      f ∈ s.1.eventsToCalcChainIdFor ∧ f ≠ e := by simp
  refine ⟨h.chainMap,h.auth,h.types,fun f hf => h.sub f ((hmem f).mp hf).1,?_,?_,?_,htables,?_⟩
  · intro f hf hnot
    rw [mem_append,mem_singleton,not_or] at hnot
    exact (hmem f).mpr ⟨h.later f hf hnot.1,hnot.2⟩
  · intro f hf hin a ha
    obtain ⟨hin,hne⟩ := (hmem f).mp hin
    have hfpre : f ∈ pre := by simpa [hne] using hf
    rcases h.known f hfpre hin a ha with hmap | hcalc
    · exact .inl hmap
    · exact .inr ((hmem a).mpr ⟨hcalc,fun heq => hnoedge f hfpre (heq ▸ ha)⟩)
  · intro f hf hnot
    by_cases heq : f = e
    · subst heq
      obtain ⟨a,ha,hmap,hcalc⟩ := hunknown
      exact ⟨a,ha,hmap,fun hin => hcalc ((hmem a).mp hin).1⟩
    · have hfpre : f ∈ pre := by simpa [heq] using hf
      obtain ⟨a,ha,hmap,hcalc⟩ := h.waits f hfpre fun hin => hnot ((hmem f).mpr ⟨hin,heq⟩)
      exact ⟨a,ha,hmap,fun hin => hcalc ((hmem a).mp hin).1⟩
  · intro f
    rw [hparked,h.parked]
    by_cases heq : f = e
    · subst heq
      simp [hnotpre]
    · simp [heq]

theorem Discarding.step
    (horder : Topological c.eventToAuthChain.edges c.eventToAuthChain.keys (pre ++ e :: post))
    (hkeys : ∀ e, e ∈ c.eventToAuthChain ↔ e ∈ c.eventsToCalcChainIdFor)
    (htypes : ∀ e ∈ c.eventsToCalcChainIdFor, e ∈ c.eventToTypes) :
    ∃ s', discardUnknown events s e = .ok s' ∧ Discarding events db c (pre ++ [e]) s' := by
  have hkey : e ∈ c.eventToAuthChain := mem_keys.mpr ((horder.mem e).mp (by simp))
  have hnotpre : e ∉ pre := fun hin =>
    (nodup_append.mp horder.nodup).2.2 e hin e mem_cons_self rfl
  have hnoedge : ∀ f ∈ pre, e ∉ c.eventToAuthChain.edges f := by
    intro f hf hedge
    obtain ⟨p₁,p₂,rfl⟩ := append_of_mem hf
    have := horder.earlier p₁ f (p₂ ++ e :: post) (by simp) e hedge (mem_keys.mp hkey)
    exact hnotpre (mem_append_left _ this)
  have hget : Dict.get s.1.eventToAuthChain e = .ok (c.eventToAuthChain.edges e) := by
    obtain ⟨l,hl⟩ := Dict.mem_iff.mp hkey
    rw [h.auth]
    simp [Graph.edges,hl]
  have hany : ((c.eventToAuthChain.edges e).any fun a =>
      a ∉ s.1.chainMap ∧ a ∉ s.1.eventsToCalcChainIdFor) = true ↔
      ∃ a ∈ c.eventToAuthChain.edges e, a ∉ c.chainMap ∧ a ∉ s.1.eventsToCalcChainIdFor := by
    simp [h.chainMap]
  unfold discardUnknown
  rw [hget]
  simp only [ok_bind,hany]
  by_cases hunknown : ∃ a ∈ c.eventToAuthChain.edges e, a ∉ c.chainMap ∧ a ∉ s.1.eventsToCalcChainIdFor
  · rw [if_pos hunknown]
    by_cases hbatch : e ∈ events.map fun e => e.eventId
    · obtain ⟨types,ht⟩ := Dict.mem_iff.mp (htypes e ((hkeys e).mp hkey))
      have hgett : Dict.get s.1.eventToTypes e = .ok types := by rw [Dict.get_eq_ok,h.types,ht]
      rw [if_pos hbatch,hgett]
      refine ⟨_,rfl,h.discard hnotpre hnoedge hunknown ?_ fun f => ?_⟩
      · rw [h.tables]
      · simp only [mem_insert,hbatch,and_true]
        exact or_comm
    · rw [if_neg hbatch]
      refine ⟨_,rfl,h.discard hnotpre hnoedge hunknown h.tables fun f => ?_⟩
      simp [hbatch]
  · rw [if_neg hunknown]
    refine ⟨s,rfl,h.keep (h.later e ((hkeys e).mp hkey) hnotpre) fun a ha => ?_⟩
    by_contra hneither
    exact hunknown ⟨a,ha,not_or.mp hneither⟩

end

end discarding

structure Ready (room : Room) (events : List Event) (db : Database) (c : Calculation)
    (db' : Database) : Prop where
  edges : ∀ e, ∀ a ∈ c.eventToAuthChain.edges e, a ∈ room.auth e
  auth : ∀ e ∈ c.eventsToCalcChainIdFor, (c.eventToAuthChain.edges e).Perm (room.auth e)
  nodup : ∀ e ∈ c.eventsToCalcChainIdFor, (room.auth e).Nodup
  chainMap : ∀ a p, c.chainMap.lookup a = some p → db.eventAuthChains.lookup a = some p
  known : ∀ e ∈ c.eventsToCalcChainIdFor, ∀ a ∈ room.auth e, a ∈ c.chainMap ∨ a ∈ c.eventsToCalcChainIdFor
  candidates : ∀ e ∈ c.eventsToCalcChainIdFor,
    e ∈ (events.map fun e => e.eventId) ∨ e ∈ db.eventAuthChainToCalculate
  unplaced : ∀ e ∈ c.eventsToCalcChainIdFor, e ∉ db.eventAuthChains
  waits : ∀ e, e ∈ (events.map fun e => e.eventId) ∨ e ∈ db.eventAuthChainToCalculate →
    e ∉ c.eventsToCalcChainIdFor →
    ∃ a ∈ room.auth e, a ∉ db.eventAuthChains ∧ a ∉ c.eventsToCalcChainIdFor
  tables : db' = { db with eventAuthChainToCalculate := db'.eventAuthChainToCalculate }
  parked : ∀ e, e ∈ db'.eventAuthChainToCalculate ↔ e ∈ db.eventAuthChainToCalculate ∨
    e ∈ (events.map fun e => e.eventId) ∧ e ∉ c.eventsToCalcChainIdFor

theorem Ready.acyclic {db' : Database} (h : Ready room events db c db') : Acyclic c.eventToAuthChain.edges :=
  room.acyclic.mono h.edges

theorem calculation_ready (ch : Choices) (hdb : db.Sound room)
    (hevents : ∀ e ∈ events, e.Proper room) (hnew : ∀ e ∈ events, e.eventId ∉ db.eventAuthChains) :
    let c₁ := (ofEvents events).addParked ch db
    let c₂ := c₁.fetchMissing ch db (2 * db.events.entries.length + 3) c₁.missingAuthChains
    ∃ c db', (sortedTopologically c₂.eventToAuthChain.keys c₂.eventToAuthChain).foldlM
      (discardUnknown events) (c₂,db) = .ok (c,db') ∧ Ready room events db c db' := by
  intro c₁ c₂
  obtain ⟨hbatch,hmem₀⟩ := Calculation.ofEvents_loaded hevents
  obtain ⟨hc₁,hmem₁⟩ := hbatch.addParked ch hdb
  have hmem : ∀ e, e ∈ c₁.eventsToCalcChainIdFor ↔
      e ∈ (events.map fun e => e.eventId) ∨ e ∈ db.eventAuthChainToCalculate := fun e => by
    rw [hmem₁,hmem₀]
  have hf : c₁.Fetched db c₂ := hc₁.fetchMissing hdb (fun e he => (hmem e).mpr (.inr he)) _
  have hedges : ∀ e, ∀ a ∈ c₂.eventToAuthChain.edges e, a ∈ room.auth e := by
    intro e a ha
    rw [hf.auth,Graph.edges] at ha
    cases hl : c₁.eventToAuthChain.lookup e with
    | none => simp [hl] at ha
    | some l =>
      rw [hl] at ha
      exact (hc₁.auth e l hl).mem_iff.mp ha
  have hacyclic : Acyclic c₂.eventToAuthChain.edges := room.acyclic.mono hedges
  have hkeys : ∀ e, e ∈ c₂.eventToAuthChain ↔ e ∈ c₂.eventsToCalcChainIdFor := by
    rw [hf.auth,hf.toCalc]
    exact hc₁.keys
  have htypes : ∀ e ∈ c₂.eventsToCalcChainIdFor, e ∈ c₂.eventToTypes := by
    rw [hf.toCalc]
    exact fun e he => hf.types e (hc₁.types e he)
  set order := sortedTopologically c₂.eventToAuthChain.keys c₂.eventToAuthChain
  have horder : Topological c₂.eventToAuthChain.edges c₂.eventToAuthChain.keys order :=
    sortedTopologically_topological _ hacyclic
  have hstart : Discarding events db c₂ [] (c₂,db) :=
    ⟨rfl,rfl,rfl,fun _ h => h,fun _ h _ => h,by simp,by simp,rfl,by simp⟩
  obtain ⟨⟨c,db'⟩,hrun,hd⟩ := foldlM_spec (Discarding events db c₂) hstart
    fun pre e post s (hsplit : order = _) hs => hs.step (hsplit ▸ horder) hkeys htypes
  have hall : ∀ e ∈ c₂.eventsToCalcChainIdFor, e ∈ order := fun e he => (horder.mem e).mpr (mem_keys.mp ((hkeys e).mpr he))
  have hperm : ∀ e ∈ c₂.eventsToCalcChainIdFor, (c₂.eventToAuthChain.edges e).Perm (room.auth e) := by
    intro e he
    obtain ⟨l,hl⟩ := Dict.mem_iff.mp ((hkeys e).mpr he)
    rw [Graph.edges,hl]
    exact hc₁.auth e l (hf.auth ▸ hl)
  have hunplaced : ∀ e ∈ c₂.eventsToCalcChainIdFor, e ∉ db.eventAuthChains := by
    intro e he
    rw [hf.toCalc,hmem] at he
    rcases he with he | he
    · obtain ⟨ev,hev,rfl⟩ := mem_map.mp he
      exact hnew ev hev
    · exact ((hdb.parked e).mp he).2
  have hauth : c.eventToAuthChain = c₂.eventToAuthChain := hd.auth
  have hchainMap : c.chainMap = c₂.chainMap := hd.chainMap
  refine ⟨c,db',hrun,?_⟩
  refine { edges := ?_, auth := ?_, nodup := ?_, chainMap := ?_, known := ?_, candidates := ?_,
           unplaced := ?_, waits := ?_, tables := hd.tables, parked := ?_ }
  · rw [hauth]
    exact hedges
  · rw [hauth]
    exact fun e he => hperm e (hd.sub e he)
  · intro e he
    have := hd.sub e he
    rw [hf.toCalc] at this
    exact hc₁.nodup e this
  · rw [hchainMap]
    exact fun a p hp => ((hf.chainMap a p).mp hp).2
  · intro e he a ha
    rw [hchainMap]
    have hcalc := hd.sub e he
    exact hd.known e (hall e hcalc) he a ((hperm e hcalc).mem_iff.mpr ha)
  · intro e he
    rw [← hmem,← hf.toCalc]
    exact hd.sub e he
  · exact fun e he => hunplaced e (hd.sub e he)
  · intro e he hnot
    rw [← hmem,← hf.toCalc] at he
    obtain ⟨a,ha,hmap,hcalc⟩ := hd.waits e (hall e he) hnot
    refine ⟨a,hedges e a ha,fun hplaced => ?_,hcalc⟩
    -- an auth event with a place was looked up, as it is not calculated now
    obtain ⟨p,hp⟩ := Dict.mem_iff.mp hplaced
    refine hmap (Dict.mem_iff.mpr ⟨p,(hf.chainMap a p).mpr ⟨?_,hp⟩⟩)
    refine c₁.mem_missingAuthChains.mpr ⟨?_,fun hin => ?_⟩
    · obtain ⟨l,hl⟩ := Dict.mem_iff.mp ((hkeys e).mpr he)
      rw [Graph.edges,hl] at ha
      exact ⟨e,l,hf.auth ▸ hl,ha⟩
    · rw [← hf.toCalc] at hin
      exact hunplaced a hin hplaced
  · intro e
    rw [hd.parked]
    refine or_congr_right ⟨fun h => h.2,fun h => ⟨hall e ?_,h⟩⟩
    rw [hf.toCalc,hmem]
    exact .inl h.1

end TextrpBriij.AuthChain
