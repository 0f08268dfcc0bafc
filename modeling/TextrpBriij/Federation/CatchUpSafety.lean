import TextrpBriij.Federation.CatchUp
import TextrpBriij.Foundation.Cursor

/-! # No PDU is skipped

The stored stream ordering says that all PDUs up to it were sent. It moves along the pending
PDUs, or along the rooms that catch-up queries, and both go through the rows in stream order. A
batch of catch-up must be fetched in that order too: where an event that is withheld stands
before one that is returned, the stored ordering passes it.
-/
namespace TextrpBriij.Federation
open List Runs
open Cursor (Ahead Beyond)

/-- The transaction has the PDU of the room at the stream ordering, or was sent in its place. -/
def Transaction.Covers (room : String) (n : ℤ) : Transaction → Prop
  | .batch pdus => ∃ p ∈ pdus, p.roomId = room ∧ p.streamOrdering = n
  | .room pdu extrems pdus =>
    (∃ p ∈ pdus, p.roomId = room ∧ p.streamOrdering = n) ∨
      pdu.roomId = room ∧ pdu.streamOrdering = n ∧ pdus ≠ [] ∧ ∀ p ∈ pdus, p.roomId = room ∧ p.eventId ∈ extrems

instance (room : String) (n : ℤ) (t : Transaction) : Decidable (t.Covers room n) :=
  match t with
  | .batch pdus => inferInstanceAs (Decidable (∃ p ∈ pdus, p.roomId = room ∧ p.streamOrdering = n))
  | .room pdu extrems pdus => inferInstanceAs (Decidable (
    (∃ p ∈ pdus, p.roomId = room ∧ p.streamOrdering = n) ∨
      pdu.roomId = room ∧ pdu.streamOrdering = n ∧ pdus ≠ [] ∧
        ∀ p ∈ pdus, p.roomId = room ∧ p.eventId ∈ extrems))

namespace Sender

variable {s s' : Sender} {room : String} {n l : ℤ} {pdus rest : List Pdu} {pdu : Pdu}

def Delivered (s : Sender) (room : String) (n : ℤ) : Prop :=
  ∃ t ∈ s.transactions, t.Covers room n

instance (s : Sender) (room : String) (n : ℤ) : Decidable (s.Delivered room n) :=
  inferInstanceAs (Decidable (∃ t ∈ s.transactions, t.Covers room n))

/-- What is stored as sent was sent. -/
def NoneSkipped (s : Sender) : Prop :=
  ∀ room n, s.destinationRooms.lookup room = some n → n ≤ s.lastSuccessful → s.Delivered room n

/-- The events that catch-up asks for are returned from the first one on, without a gap. -/
def FetchesInOrder (s : Sender) : Action → Prop
  | .fetchEvents =>
    match s.loop with
    | some (.fetching _ _ eventIds) =>
      (getEventsAsList s.events eventIds).map (·.eventId) <+: eventIds
    | _ => True
  | _ => True

instance (s : Sender) (a : Action) : Decidable (s.FetchesInOrder a) :=
  match a with
  | .fetchEvents =>
    match h : s.loop with
    | some (.fetching _ _ eventIds) =>
      decidable_of_iff ((getEventsAsList s.events eventIds).map (·.eventId) <+: eventIds)
        (by simp [FetchesInOrder,h])
    | some .checkingRetry | some .readingLast | some (.querying ..) | some (.queried ..)
    | some (.sendingRoom ..) | some (.storingLast ..) | some .taking | some (.sendingBatch ..)
    | some (.markingSent ..) | none => .isTrue (by simp [FetchesInOrder,h])
  | .writeEvents _ | .storeDestinationRooms _ | .sendPdu | .attemptNewTransaction
  | .passRetryLimiter | .readLast | .runQuery | .resumeQuery | .sendRoom .. | .storeLast
  | .takePdus _ | .sendBatch | .storeBatch | .fail _ | .restart => .isTrue trivial

def Known (s : Sender) (p : Pdu) : Prop := p ∈ s.events.map (·.toPdu)

def Open (s : Sender) (n : ℤ) : Prop :=
  ∃ room, s.destinationRooms.lookup room = some n ∧ ¬s.Delivered room n

def Arriving (s : Sender) (n : ℤ) : Prop := ∃ p, s.arriving = some p ∧ p.streamOrdering = n

def Reached (s : Sender) (l : ℤ) : Prop := l ≤ s.lastWritten ∧ Beyond s.Open l

theorem noneSkipped_of_reached (h : s.Reached s.lastSuccessful) : s.NoneSkipped := by
  intro room n hrow hle
  by_contra hnot
  have hlt := h.2 n ⟨room,hrow,hnot⟩
  omega

structure InOrder (known : Pdu → Prop) (lastWritten : ℤ) (pdus : List Pdu) : Prop where
  known : ∀ p ∈ pdus, known p
  written : ∀ p ∈ pdus, p.streamOrdering ≤ lastWritten
  sorted : (pdus.map (·.streamOrdering)).Pairwise (· ≤ ·)

abbrev Listed (s : Sender) (pdus : List Pdu) : Prop := InOrder s.Known s.lastWritten pdus

/-- PDUs in stream order that leave out only what comes after all of them. -/
def Work (s : Sender) (pdus : List Pdu) : Prop :=
  s.Listed pdus ∧ Ahead s.Open (pdus.map (·.streamOrdering))

def InPhase (s : Sender) : Loop → Prop
  | .checkingRetry => True
  | .readingLast => s.queue.catchingUp = true
  | .querying _ last =>
    s.queue.catchingUp = true ∧ s.queue.lastSuccessfulStreamOrdering = some last
  | .queried _ last eventIds =>
    (s.queue.catchingUp = true ∧ s.queue.lastSuccessfulStreamOrdering = some last) ∧
      (∃ pdus, eventIds = pdus.map (·.eventId) ∧ s.Work pdus) ∧
      (eventIds = [] → ∀ n, s.Open n → s.Arriving n ∨ n ≤ s.queue.catchupLastSkipped)
  | .fetching _ last eventIds =>
    (s.queue.catchingUp = true ∧ s.queue.lastSuccessfulStreamOrdering = some last) ∧
      ∃ pdus, eventIds = pdus.map (·.eventId) ∧ s.Work pdus
  | .sendingRoom _ last pdu rest =>
    (s.queue.catchingUp = true ∧ s.queue.lastSuccessfulStreamOrdering = some last) ∧ s.Work (pdu :: rest)
  | .storingLast _ last rest =>
    (s.queue.catchingUp = true ∧ s.queue.lastSuccessfulStreamOrdering = some last) ∧ s.Work rest
  | .taking => s.queue.catchingUp = false
  | .sendingBatch pdus => s.queue.catchingUp = false ∧ pdus <+: s.queue.pendingPdus
  | .markingSent last => s.queue.catchingUp = false ∧ ∀ l, last = some l → s.Reached l

structure Inv (s : Sender) : Prop where
  ids : (s.events.map (·.eventId)).Nodup
  orderings : (s.events.map (·.streamOrdering)).Nodup
  rows : ∀ room n, s.destinationRooms.lookup room = some n →
    0 < n ∧ n ≤ s.lastWritten ∧ ∃ eventId, s.Known ⟨eventId,room,n⟩
  arriving : ∀ p, s.arriving = some p → s.Known p ∧ p.streamOrdering = s.lastWritten ∧
    ∀ q ∈ s.queue.pendingPdus, q.streamOrdering < p.streamOrdering
  pending : s.Listed s.queue.pendingPdus
  stored : s.Reached s.lastSuccessful
  memory : ∀ l, s.queue.lastSuccessfulStreamOrdering = some l → s.Reached l
  /-- Outside catch-up mode, what was not sent is in the queue or on its way there. -/
  complete : s.queue.catchingUp = false → ∀ n, s.Open n →
    n ∈ s.queue.pendingPdus.map (·.streamOrdering) ∨ s.Arriving n
  loop : ∀ phase, s.loop = some phase → s.InPhase phase

/-- Events and rows come in, the rows after the last one, and transactions succeed. -/
structure Grows (s s' : Sender) : Prop where
  known : ∀ p, s.Known p → s'.Known p
  written : s.lastWritten ≤ s'.lastWritten
  isOpen : ∀ n, s'.Open n → s.Open n ∨ s.lastWritten < n

theorem Reached.grows (h : s.Reached l) (hg : s.Grows s') : s'.Reached l := by
  refine ⟨h.1.trans hg.written,h.2.mono fun n hn => ?_⟩
  exact (hg.isOpen n hn).imp_right h.1.trans_lt

theorem InOrder.grows (h : s.Listed pdus) (hg : s.Grows s') : s'.Listed pdus where
  known p hp := hg.known p (h.known p hp)
  written p hp := (h.written p hp).trans hg.written
  sorted := h.sorted

theorem Work.grows (h : s.Work pdus) (hg : s.Grows s') : s'.Work pdus := by
  refine ⟨h.1.grows hg,h.2.mono fun n hn => (hg.isOpen n hn).imp_right fun hlt m hm => ?_⟩
  obtain ⟨p,hp,rfl⟩ := mem_map.mp hm
  exact (h.1.written p hp).trans_lt hlt

/-- What holds in a phase of the loop survives what happens beside it. -/
theorem InPhase.grows {phase : Loop} (h : s.InPhase phase) (hg : s.Grows s')
    (hmode : s'.queue.catchingUp = s.queue.catchingUp)
    (hlast : s'.queue.lastSuccessfulStreamOrdering = s.queue.lastSuccessfulStreamOrdering)
    (hpending : s.queue.pendingPdus <+: s'.queue.pendingPdus)
    (hskipped : ∀ last, s.queue.catchingUp = true → s.queue.lastSuccessfulStreamOrdering = some last →
      (∀ n, s.Open n → s.Arriving n ∨ n ≤ s.queue.catchupLastSkipped) →
      ∀ n, s'.Open n → s'.Arriving n ∨ n ≤ s'.queue.catchupLastSkipped) : s'.InPhase phase := by
  cases phase with
  | checkingRetry => exact h
  | readingLast => exact hmode.trans h
  | querying first last => exact ⟨hmode.trans h.1,hlast.trans h.2⟩
  | queried first last eventIds =>
    obtain ⟨⟨hup,hmem⟩,⟨pdus,hids,hwork⟩,hempty⟩ := h
    refine ⟨⟨hmode.trans hup,hlast.trans hmem⟩,⟨pdus,hids,hwork.grows hg⟩,fun hnil => ?_⟩
    exact hskipped last hup hmem (hempty hnil)
  | fetching first last eventIds =>
    obtain ⟨⟨hup,hmem⟩,pdus,hids,hwork⟩ := h
    exact ⟨⟨hmode.trans hup,hlast.trans hmem⟩,pdus,hids,hwork.grows hg⟩
  | sendingRoom first last pdu rest =>
    exact ⟨⟨hmode.trans h.1.1,hlast.trans h.1.2⟩,h.2.grows hg⟩
  | storingLast first last rest =>
    exact ⟨⟨hmode.trans h.1.1,hlast.trans h.1.2⟩,h.2.grows hg⟩
  | taking => exact hmode.trans h
  | sendingBatch pdus => exact ⟨hmode.trans h.1,h.2.trans hpending⟩
  | markingSent last => exact ⟨hmode.trans h.1,fun l hl => (h.2 l hl).grows hg⟩

theorem Inv.writeEvents {events : List StoredEvent} (h : s.Inv)
    (hkeep : s.events.map (·.toPdu) <+: events.map (·.toPdu))
    (hids : (events.map (·.eventId)).Nodup) (horderings : (events.map (·.streamOrdering)).Nodup) :
    Inv { s with events := events } := by
  have hg : s.Grows { s with events := events } :=
    ⟨fun p hp => hkeep.subset hp,le_rfl,fun n hn => .inl hn⟩
  exact {
    ids := hids
    orderings := horderings
    rows := fun room n hrow => by
      obtain ⟨hpos,hle,eventId,hknown⟩ := h.rows room n hrow
      exact ⟨hpos,hle,eventId,hg.known _ hknown⟩
    arriving := fun p hp => ⟨hg.known p (h.arriving p hp).1,(h.arriving p hp).2⟩
    pending := h.pending.grows hg
    stored := h.stored.grows hg
    memory := fun l hl => (h.memory l hl).grows hg
    complete := h.complete
    loop := fun phase hphase => (h.loop phase hphase).grows hg rfl rfl prefix_rfl
      fun _ _ _ hskipped => hskipped }

theorem Inv.storeDestinationRooms (h : s.Inv) (hnone : s.arriving = none) (hknown : s.Known pdu)
    (hpos : 0 < pdu.streamOrdering) (hlt : s.lastWritten < pdu.streamOrdering) :
    let s' := { s with
      destinationRooms := s.destinationRooms.insert pdu.roomId pdu.streamOrdering
      lastWritten := pdu.streamOrdering
      arriving := some pdu }
    s'.Inv := by
  intro s'
  have hrow : ∀ {room n}, s'.destinationRooms.lookup room = some n →
      (room = pdu.roomId ∧ n = pdu.streamOrdering) ∨ s.destinationRooms.lookup room = some n := by
    intro room n hlookup
    exact (Entries.insert_cases hlookup).imp_right And.right
  -- The new row is the only one that may come to be open.
  have hopen : ∀ n, s'.Open n → n = pdu.streamOrdering ∨ s.Open n := by
    rintro n ⟨room,hlookup,hnot⟩
    obtain ⟨-,heq⟩ | hold := hrow hlookup
    · exact .inl heq
    · exact .inr ⟨room,hold,hnot⟩
  have hg : s.Grows s' := by
    refine ⟨fun p hp => hp,hlt.le,fun n hn => ?_⟩
    obtain rfl | hold := hopen n hn
    · exact .inr hlt
    · exact .inl hold
  exact {
    ids := h.ids
    orderings := h.orderings
    rows := fun room n hlookup => by
      obtain ⟨rfl,rfl⟩ | hold := hrow hlookup
      · exact ⟨hpos,le_rfl,pdu.eventId,hknown⟩
      · obtain ⟨hpos,hle,hevent⟩ := h.rows room n hold
        exact ⟨hpos,hle.trans hlt.le,hevent⟩
    arriving := fun p hp => by
      cases hp
      exact ⟨hknown,rfl,fun q hq => (h.pending.written q hq).trans_lt hlt⟩
    pending := h.pending.grows hg
    stored := h.stored.grows hg
    memory := fun l hl => (h.memory l hl).grows hg
    complete := fun hmode n hn => by
      obtain rfl | hold := hopen n hn
      · exact .inr ⟨pdu,rfl,rfl⟩
      · obtain hmem | ⟨p,hp,-⟩ := h.complete hmode n hold
        · exact .inl hmem
        · simp [hnone] at hp
    loop := fun phase hphase => by
      refine (h.loop phase hphase).grows hg rfl rfl prefix_rfl fun _ _ _ hskipped n hn => ?_
      obtain rfl | hold := hopen n hn
      · exact .inl ⟨pdu,rfl,rfl⟩
      · obtain ⟨p,hp,-⟩ | hle := hskipped n hold
        · simp [hnone] at hp
        · exact .inr hle }

theorem Inv.attempt (h : s.Inv) : s.attempt.Inv :=
  { h with
    loop := fun phase hphase => by
      obtain hold | ⟨-,hnew⟩ := Option.or_eq_some_iff.mp hphase
      · exact h.loop phase hold
      · cases hnew
        trivial }

theorem Inv.sendPdu (h : s.Inv) (hp : s.arriving = some pdu) :
    Inv { s with queue := s.queue.sendPdu pdu, arriving := none } := by
  obtain ⟨hknown,hwritten,hpending⟩ := h.arriving pdu hp
  have harriving : ∀ n, s.Arriving n → n = pdu.streamOrdering := by
    rintro n ⟨p,hp',rfl⟩
    rw [hp] at hp'
    rw [Option.some.inj hp']
  by_cases hmode : s.queue.catchingUp = false ∨ s.queue.lastSuccessfulStreamOrdering = none
  · rw [PerDestinationQueue.sendPdu,if_pos hmode]
    have hlisted : s.Listed (s.queue.pendingPdus ++ [pdu]) := by
      refine ⟨forall_mem_append.mpr ⟨h.pending.known,forall_mem_singleton.mpr hknown⟩,
        forall_mem_append.mpr ⟨h.pending.written,forall_mem_singleton.mpr hwritten.le⟩,?_⟩
      rw [map_append,pairwise_append]
      refine ⟨h.pending.sorted,pairwise_singleton _ _,fun m hm k hk => ?_⟩
      obtain ⟨q,hq,rfl⟩ := mem_map.mp hm
      rw [map_singleton,mem_singleton] at hk
      rw [hk]
      exact (hpending q hq).le
    exact { h with
      arriving := nofun
      pending := hlisted
      complete := fun hoff n hn => by
        left
        rw [map_append]
        obtain hold | hnew := h.complete hoff n hn
        · exact mem_append_left _ hold
        · rw [harriving n hnew]
          exact mem_append_right _ (mem_singleton.mpr rfl)
      loop := fun phase hphase => by
        refine (h.loop phase hphase).grows ⟨fun p hp => hp,le_rfl,fun n hn => .inl hn⟩ rfl rfl
          (prefix_append _ _) fun last hup hlast => ?_
        -- In catch-up with a known position nothing is put into the queue.
        simp [hup,hlast] at hmode }
  · rw [PerDestinationQueue.sendPdu,if_neg hmode]
    exact { h with
      arriving := nofun
      complete := fun hoff => absurd (.inl hoff) hmode
      loop := fun phase hphase => by
        refine (h.loop phase hphase).grows ⟨fun p hp => hp,le_rfl,fun n hn => .inl hn⟩ rfl rfl
          prefix_rfl fun last _ _ _ n hn => .inr ?_
        obtain ⟨room,hrow,-⟩ := hn
        have hle := (h.rows room n hrow).2.1
        exact hle.trans hwritten.ge }

theorem Known.eq_of {γ : Type} {g : Pdu → γ} {p q : Pdu} (hp : s.Known p) (hq : s.Known q)
    (hnodup : (s.events.map (g ·.toPdu)).Nodup) (heq : g p = g q) : p = q := by
  obtain ⟨e,he,rfl⟩ := mem_map.mp hp
  obtain ⟨f,hf,rfl⟩ := mem_map.mp hq
  rw [inj_on_of_nodup_map hnodup he hf heq]

theorem InOrder.sublist (h : s.Listed pdus) (hsub : rest <+ pdus) : s.Listed rest where
  known p hp := h.known p (hsub.subset hp)
  written p hp := h.written p (hsub.subset hp)
  sorted := h.sorted.sublist (hsub.map _)

theorem Work.take (h : s.Work pdus) (k : ℕ) : s.Work (pdus.take k) := by
  have hsplit : pdus.map (·.streamOrdering) =
      (pdus.take k).map (·.streamOrdering) ++ (pdus.drop k).map (·.streamOrdering) := by
    rw [← map_append,take_append_drop]
  have hsorted := h.1.sorted
  have hahead := h.2
  rw [hsplit] at hsorted hahead
  exact ⟨h.1.sublist (take_sublist k pdus),hahead.of_append hsorted⟩

theorem mem_rowsBeyond {e : StoredEvent} : e ∈ rowsBeyond s.events s.destinationRooms l ↔
      e ∈ s.events ∧ l < e.streamOrdering ∧ ∃ room, s.destinationRooms.lookup room = some e.streamOrdering := by
  rw [rowsBeyond,mem_insertionSort,mem_flatMap,Entries.exists_entry]
  constructor
  · rintro ⟨room,n,hrow,he⟩
    obtain ⟨hmem,hmatch⟩ := mem_filter.mp he
    obtain ⟨rfl,hlt⟩ : e.streamOrdering = n ∧ l < n := by simpa using hmatch
    exact ⟨hmem,hlt,room,hrow⟩
  · rintro ⟨he,hlt,room,hrow⟩
    exact ⟨room,_,hrow,mem_filter.mpr ⟨he,by simpa using hlt⟩⟩

theorem Inv.exists_rowsBeyond (h : s.Inv) (hl : s.Reached l) (hn : s.Open n) :
    ∃ e ∈ rowsBeyond s.events s.destinationRooms l, e.streamOrdering = n := by
  obtain ⟨room,hrow,-⟩ := id hn
  obtain ⟨-,-,eventId,hknown⟩ := h.rows room n hrow
  obtain ⟨e,he,hpdu⟩ := mem_map.mp hknown
  have hordering : e.streamOrdering = n := by rw [hpdu]
  refine ⟨e,mem_rowsBeyond.mpr ⟨he,?_,room,?_⟩,hordering⟩
  · rw [hordering]
    exact hl.2 n hn
  · rw [hordering,hrow]

theorem Inv.work_rowsBeyond (h : s.Inv) (hl : s.Reached l) :
    s.Work ((rowsBeyond s.events s.destinationRooms l).map (·.toPdu)) := by
  refine ⟨⟨fun p hp => ?_,fun p hp => ?_,?_⟩,fun n hn => .inl ?_⟩
  · obtain ⟨e,he,rfl⟩ := mem_map.mp hp
    exact mem_map_of_mem (mem_rowsBeyond.mp he).1
  · obtain ⟨e,he,rfl⟩ := mem_map.mp hp
    obtain ⟨-,-,room,hrow⟩ := mem_rowsBeyond.mp he
    exact (h.rows room _ hrow).2.1
  · rw [map_map,pairwise_map]
    exact pairwise_insertionSort _ _
  · rw [map_map]
    exact mem_map.mpr (h.exists_rowsBeyond hl hn)

variable {ids extrems : List String}

theorem known_of_mem_getEventsAsList (hp : pdu ∈ getEventsAsList s.events ids) :
    s.Known pdu ∧ pdu.eventId ∈ ids := by
  rw [getEventsAsList,mem_filterMap] at hp
  obtain ⟨eventId,hid,hp⟩ := hp
  obtain ⟨e,he,rfl⟩ := Option.map_eq_some_iff.mp hp
  have hfound := (Option.filter_eq_some_iff.mp he).1
  have hmatch : e.eventId = eventId ∧ e.rejected = false := by simpa using find?_some hfound
  exact ⟨mem_map_of_mem (mem_of_find?_eq_some hfound),hmatch.1 ▸ hid⟩

theorem prefix_of_map_prefix {α β : Type} {f : α → β} {xs ys : List α}
    (hinj : ∀ x ∈ xs, ∀ y ∈ ys, f x = f y → x = y) (h : xs.map f <+: ys.map f) : xs <+: ys := by
  induction xs generalizing ys with
  | nil => exact nil_prefix
  | cons x xs ih =>
    cases ys with
    | nil => simp at h
    | cons y ys =>
      rw [map_cons,map_cons,cons_prefix_cons] at h
      rw [hinj x (by simp) y (by simp) h.1,cons_prefix_cons]
      refine ⟨rfl,ih (fun x hx y hy => ?_) h.2⟩
      exact hinj x (mem_cons_of_mem _ hx) y (mem_cons_of_mem _ hy)

theorem Inv.work_getEventsAsList (h : s.Inv) (hids : ids = pdus.map (·.eventId))
    (hwork : s.Work pdus) (hfetch : (getEventsAsList s.events ids).map (·.eventId) <+: ids) :
    s.Work (getEventsAsList s.events ids) := by
  subst hids
  have hpre : getEventsAsList s.events (pdus.map (·.eventId)) <+: pdus := by
    refine prefix_of_map_prefix (fun p hp q hq => ?_) hfetch
    exact (known_of_mem_getEventsAsList hp).1.eq_of (hwork.1.known q hq) h.ids
  rw [prefix_iff_eq_take.mp hpre]
  exact hwork.take _

theorem covers_of_roomCatchupPdus {visible : List String} {isPartial : Bool}
    (h : roomCatchupPdus s.events extrems isPartial visible l pdu = some pdus)
    (hroom : ∀ e ∈ s.events, e.eventId ∈ extrems → e.roomId = pdu.roomId) :
    (Transaction.room pdu extrems pdus).Covers pdu.roomId pdu.streamOrdering := by
  unfold roomCatchupPdus at h
  split at h
  · cases h
    exact .inl ⟨pdu,by simp⟩
  split at h
  · cases h
    exact .inl ⟨pdu,by simp⟩
  dsimp only at h
  split at h
  · simp at h
  split at h
  · cases h
    exact .inl ⟨pdu,by simp⟩
  · rename_i hne
    cases h
    refine .inr ⟨rfl,rfl,hne,fun p hp => ?_⟩
    have hfetched := mem_of_mem_filter (mem_of_mem_filter hp)
    obtain ⟨hknown,hid⟩ := known_of_mem_getEventsAsList hfetched
    obtain ⟨e,he,rfl⟩ := mem_map.mp hknown
    exact ⟨hroom e he hid,hid⟩

theorem Inv.closed {t : Transaction} (h : s.Inv) (hn : s'.Open n)
    (hrows : s'.destinationRooms = s.destinationRooms) (hts : s'.transactions = t :: s.transactions)
    (hcovers : ∀ p ∈ pdus, s.Known p ∧ t.Covers p.roomId p.streamOrdering) :
    s.Open n ∧ n ∉ pdus.map (·.streamOrdering) := by
  obtain ⟨room,hrow,hnot⟩ := hn
  rw [hrows] at hrow
  have hdelivered : ∀ t' ∈ t :: s.transactions, ¬t'.Covers room n := by
    intro t' ht' hcover
    exact hnot ⟨t',hts ▸ ht',hcover⟩
  refine ⟨⟨room,hrow,?_⟩,?_⟩
  · rintro ⟨t',ht',hcover⟩
    exact hdelivered t' (mem_cons_of_mem _ ht') hcover
  · intro hmem
    obtain ⟨p,hp,rfl⟩ := mem_map.mp hmem
    obtain ⟨-,-,eventId,hknown⟩ := h.rows room _ hrow
    have heq := (hcovers p hp).1.eq_of hknown h.orderings rfl
    have hroom : p.roomId = room := by rw [heq]
    exact hdelivered t mem_cons_self (hroom ▸ (hcovers p hp).2)

theorem Inv.sent {sent : List Pdu} (h : s.Inv) (t : Transaction) (hwork : s.Work (sent ++ rest))
    (hcovers : ∀ p ∈ sent, t.Covers p.roomId p.streamOrdering) :
    let s' := { s with transactions := t :: s.transactions }
    (∀ n, s'.Open n → s.Open n ∧ n ∉ sent.map (·.streamOrdering)) ∧ s'.Work rest ∧
      ∀ p, sent.getLast? = some p → s'.Reached p.streamOrdering := by
  intro s'
  obtain ⟨hlisted,hahead⟩ := hwork
  have hclosed : ∀ n, s'.Open n → s.Open n ∧ n ∉ sent.map (·.streamOrdering) := by
    intro n hn
    refine h.closed hn rfl rfl fun p hp => ⟨?_,hcovers p hp⟩
    exact hlisted.known p (mem_append_left _ hp)
  have hsorted := hlisted.sorted
  rw [map_append] at hahead hsorted
  refine ⟨hclosed,⟨hlisted.sublist (sublist_append_right ..),hahead.rest hclosed⟩,fun p hp => ?_⟩
  obtain ⟨before,rfl⟩ := getLast?_eq_some_iff.mp hp
  refine ⟨hlisted.written p (by simp),?_⟩
  rw [map_append,append_assoc] at hahead hsorted
  refine hahead.beyond hsorted fun n hn => ?_
  obtain ⟨hopen,hnot⟩ := hclosed n hn
  rw [map_append,mem_append,not_or] at hnot
  exact ⟨hopen,hnot.1,fun heq => hnot.2 (by simp [heq])⟩

/-- The queue leaves out nothing but the PDU that is about to be put into it. -/
theorem Inv.work_pending (h : s.Inv) (hoff : s.queue.catchingUp = false) : s.Work s.queue.pendingPdus := by
  refine ⟨h.pending,fun n hn => (h.complete hoff n hn).imp_right ?_⟩
  rintro ⟨p,hp,rfl⟩ m hm
  obtain ⟨q,hq,rfl⟩ := mem_map.mp hm
  exact (h.arriving p hp).2.2 q hq

theorem Inv.enter (h : s.Inv) (phase : Loop) (hphase : s.InPhase phase) : Inv { s with loop := some phase } :=
  { h with
    loop := fun phase' hphase' => by
      cases hphase'
      exact hphase }

theorem Inv.leave (h : s.Inv) : Inv { s with loop := none } := { h with loop := nofun }

theorem Inv.startCatchingUp (h : s.Inv) : Inv { s with queue := s.queue.startCatchingUp, loop := none } :=
  { h with
    arriving := fun p hp => ⟨(h.arriving p hp).1,(h.arriving p hp).2.1,nofun⟩
    pending := ⟨nofun,nofun,Pairwise.nil⟩
    complete := nofun
    loop := nofun }

theorem Inv.failWith (h : s.Inv) (failure : Failure) : (s.failWith failure).Inv := by
  cases failure with
  | notRetryingDestination retryInterval =>
    by_cases hlong : retryInterval > catchupRetryInterval
    · rw [Sender.failWith,if_pos hlong]
      exact h.startCatchingUp
    · rw [Sender.failWith,if_neg hlong]
      exact h.leave
  | other => exact h.leave

theorem Inv.nextRound (h : Inv { s with loop := none }) (hoff : s.queue.catchingUp = false) : s.nextRound.Inv :=
  { h with
    loop := fun phase hphase => by
      cases hphase
      exact hoff }

section
variable (h : s.Inv)
include h

/-- An empty query ends catch-up mode only where no PDU was dropped since. -/
theorem Inv.resume {first : Bool} {last : ℤ}
    (hphase : s.InPhase (.queried first last ids)) : (s.resume first last ids).Inv := by
  obtain ⟨⟨hup,hlast⟩,hwork,hempty⟩ := hphase
  unfold Sender.resume
  split
  · rename_i hnil
    split
    · exact { h with
        loop := fun phase hphase => by
          cases hphase
          exact ⟨hup,hlast⟩ }
    · refine Inv.nextRound { h with complete := fun _ n hn => .inr ?_, loop := nofun } rfl
      obtain harriving | hle := hempty hnil n hn
      · exact harriving
      · -- A PDU that was dropped after the query would be beyond the last ordering.
        obtain ⟨room,hrow,-⟩ := id hn
        have hpos := (h.rows room n hrow).1
        have hbeyond := (h.memory last hlast).2 n hn
        omega
  · cases first with
    | true => exact h.startCatchingUp.enter (.fetching true last ids) ⟨⟨rfl,hlast⟩,hwork⟩
    | false => exact h.enter (.fetching false last ids) ⟨⟨hup,hlast⟩,hwork⟩

theorem Inv.sendRoom {first : Bool} {last : ℤ} (hphase : s.InPhase (.sendingRoom first last pdu rest))
    (hcovers : (Transaction.room pdu extrems pdus).Covers pdu.roomId pdu.streamOrdering) :
    Inv { s with
      queue := { s.queue with lastSuccessfulStreamOrdering := some pdu.streamOrdering }
      loop := some (.storingLast first pdu.streamOrdering rest)
      transactions := .room pdu extrems pdus :: s.transactions } := by
  obtain ⟨⟨hup,-⟩,hwork⟩ := hphase
  have hfirst : s.Work ([pdu] ++ rest) := hwork
  have hone : ∀ p ∈ [pdu], (Transaction.room pdu extrems pdus).Covers p.roomId p.streamOrdering := by
    intro p hp
    rw [mem_singleton.mp hp]
    exact hcovers
  obtain ⟨hclosed,hrest,hreached⟩ := h.sent _ hfirst hone
  exact { h with
    stored := h.stored.grows ⟨fun p hp => hp,le_rfl,fun n hn => .inl (hclosed n hn).1⟩
    memory := fun l hl => by
      cases hl
      exact hreached pdu rfl
    complete := fun hoff => absurd hoff (by simp [hup])
    loop := fun phase hphase => by
      cases hphase
      exact ⟨⟨hup,rfl⟩,hrest⟩ }

theorem Inv.sendBatch (hphase : s.InPhase (.sendingBatch pdus)) : Inv { s with
      queue := { s.queue with pendingPdus := s.queue.pendingPdus.drop pdus.length }
      loop := some (.markingSent (pdus.getLast?.map (·.streamOrdering)))
      transactions := .batch pdus :: s.transactions } := by
  obtain ⟨hoff,rest,hpending⟩ := hphase
  have hwork := h.work_pending hoff
  rw [← hpending] at hwork
  obtain ⟨hclosed,hrest,hreached⟩ := h.sent (.batch pdus) hwork fun p hp => ⟨p,hp,rfl,rfl⟩
  have hdrop : s.queue.pendingPdus.drop pdus.length = rest := by
    rw [← hpending,drop_left]
  rw [hdrop]
  exact { h with
    arriving := fun p hp => by
      obtain ⟨hknown,hwritten,hbefore⟩ := h.arriving p hp
      refine ⟨hknown,hwritten,fun q hq => hbefore q ?_⟩
      rw [← hpending]
      exact mem_append_right _ hq
    pending := hrest.1
    stored := h.stored.grows ⟨fun p hp => hp,le_rfl,fun n hn => .inl (hclosed n hn).1⟩
    memory := fun l hl =>
      (h.memory l hl).grows ⟨fun p hp => hp,le_rfl,fun n hn => .inl (hclosed n hn).1⟩
    complete := fun _ n hn => by
      obtain ⟨hopen,hnot⟩ := hclosed n hn
      refine (h.complete hoff n hopen).imp_left fun hmem => ?_
      rw [← hpending,map_append] at hmem
      exact (mem_append.mp hmem).resolve_left hnot
    loop := fun phase hphase => by
      cases hphase
      refine ⟨hoff,fun l hl => ?_⟩
      obtain ⟨p,hp,rfl⟩ := Option.map_eq_some_iff.mp hl
      exact hreached p hp }

theorem Inv.passRetryLimiter (hstep : s.step .passRetryLimiter = some s') : s'.Inv := by
  simp only [step] at hstep
  split at hstep
  · split at hstep
    · rename_i hup
      split at hstep
      · cases hstep
        exact h.enter .readingLast hup
      · rename_i last hlast
        cases hstep
        exact h.enter (.querying false last) ⟨hup,hlast⟩
    · rename_i hoff
      cases hstep
      exact h.leave.nextRound (by simpa using hoff)
  · cases hstep

theorem Inv.readLast (hphase : s.InPhase .readingLast) : Inv { s with
      queue := { s.queue with lastSuccessfulStreamOrdering := some s.lastSuccessful }
      loop := some (.querying true s.lastSuccessful) } :=
  { h with
    memory := fun l hl => by
      cases hl
      exact h.stored
    loop := fun phase hphase' => by
      cases hphase'
      exact ⟨hphase,rfl⟩ }

theorem Inv.runQuery {first : Bool} {last : ℤ} (hphase : s.InPhase (.querying first last)) : Inv { s with
      loop := some (.queried first last (getCatchUpRoomEventIds s.events s.destinationRooms last)) } := by
  have hreached := h.memory last hphase.2
  have hwork := (h.work_rowsBeyond hreached).take 50
  rw [← map_take] at hwork
  refine h.enter _ ⟨hphase,⟨_,(map_map ..).symm,hwork⟩,fun hnil n hn => ?_⟩
  -- With no row beyond the last ordering nothing is open.
  obtain ⟨e,he,-⟩ := h.exists_rowsBeyond hreached hn
  rw [getCatchUpRoomEventIds,map_eq_nil_iff,take_eq_nil_iff] at hnil
  simp [hnil.resolve_left (by decide)] at he

theorem Inv.fetchEvents (hfetch : s.FetchesInOrder .fetchEvents)
    (hstep : s.step .fetchEvents = some s') : s'.Inv := by
  simp only [step] at hstep
  split at hstep
  · rename_i first last ids hloop
    obtain ⟨hmode,pdus,hids,hwork⟩ := h.loop _ hloop
    rw [FetchesInOrder,hloop] at hfetch
    have hfetched := h.work_getEventsAsList hids hwork hfetch
    split at hstep
    · cases hstep
      exact h.failWith .other
    · rename_i pdu rest hlist
      cases hstep
      rw [hlist] at hfetched
      exact h.enter (.sendingRoom first last pdu rest) ⟨hmode,hfetched⟩
  · cases hstep

theorem Inv.storeLast (hstep : s.step .storeLast = some s') : s'.Inv := by
  simp only [step] at hstep
  split at hstep
  · rename_i first last rest hloop
    obtain ⟨hmode,hwork⟩ := h.loop _ hloop
    have hstored : Inv { s with lastSuccessful := last, loop := none } :=
      { h.leave with stored := h.memory last hmode.2 }
    split at hstep
    · cases hstep
      exact hstored.enter (.querying first last) hmode
    · rename_i pdu rest
      cases hstep
      exact hstored.enter (.sendingRoom first last pdu rest) ⟨hmode,hwork⟩
  · cases hstep

theorem Inv.takePdus {hasEdus : Bool} (hstep : s.step (.takePdus hasEdus) = some s') : s'.Inv := by
  simp only [step] at hstep
  split at hstep
  · rename_i hloop
    have hoff : s.queue.catchingUp = false := h.loop _ hloop
    split at hstep
    · split at hstep
      · cases hstep
        exact h.leave.nextRound hoff
      · cases hstep
        exact h.leave
    · cases hstep
      exact h.enter (.sendingBatch _) ⟨hoff,List.take_prefix _ _⟩
  · cases hstep

theorem Inv.storeBatch {last : Option ℤ} (hphase : s.InPhase (.markingSent last)) :
    Inv (Sender.nextRound { s with lastSuccessful := last.getD s.lastSuccessful }) := by
  refine Inv.nextRound { h.leave with stored := ?_ } hphase.1
  cases last with
  | none => exact h.stored
  | some l => exact hphase.2 l rfl

theorem Inv.step {a : Action} (hfetch : s.FetchesInOrder a) (hstep : s.step a = some s') : s'.Inv := by
  cases a with
  | writeEvents events =>
    obtain ⟨⟨hkeep,hids,horderings⟩,hs'⟩ := Option.ite_none_right_eq_some.mp hstep
    cases hs'
    exact h.writeEvents hkeep hids horderings
  | storeDestinationRooms pdu =>
    obtain ⟨⟨hnone,hknown,hpos,hlt⟩,hs'⟩ := Option.ite_none_right_eq_some.mp hstep
    cases hs'
    exact h.storeDestinationRooms hnone hknown hpos hlt
  | sendPdu =>
    simp only [Sender.step] at hstep
    split at hstep
    · rename_i pdu hp
      cases hstep
      exact (h.sendPdu hp).attempt
    · cases hstep
  | attemptNewTransaction =>
    cases hstep
    exact h.attempt
  | passRetryLimiter => exact h.passRetryLimiter hstep
  | readLast =>
    simp only [Sender.step] at hstep
    split at hstep
    · rename_i hloop
      cases hstep
      exact h.readLast (h.loop _ hloop)
    · cases hstep
  | runQuery =>
    simp only [Sender.step] at hstep
    split at hstep
    · rename_i first last hloop
      cases hstep
      exact h.runQuery (h.loop _ hloop)
    · cases hstep
  | resumeQuery =>
    simp only [Sender.step] at hstep
    split at hstep
    · rename_i first last ids hloop
      cases hstep
      exact h.resume (h.loop _ hloop)
    · cases hstep
  | fetchEvents => exact h.fetchEvents hfetch hstep
  | sendRoom extrems isPartial visible =>
    simp only [Sender.step] at hstep
    split at hstep
    · rename_i first last pdu rest hloop
      obtain ⟨hroom,hsent⟩ := Option.ite_none_right_eq_some.mp hstep
      split at hsent
      · cases hsent
        exact h.failWith .other
      · rename_i pdus hpdus
        cases hsent
        exact h.sendRoom (h.loop _ hloop) (covers_of_roomCatchupPdus hpdus hroom)
    · cases hstep
  | storeLast => exact h.storeLast hstep
  | takePdus hasEdus => exact h.takePdus hstep
  | sendBatch =>
    simp only [Sender.step] at hstep
    split at hstep
    · rename_i pdus hloop
      cases hstep
      exact h.sendBatch (h.loop _ hloop)
    · cases hstep
  | storeBatch =>
    simp only [Sender.step] at hstep
    split at hstep
    · rename_i last hloop
      cases hstep
      exact h.storeBatch (h.loop _ hloop)
    · cases hstep
  | fail failure =>
    simp only [Sender.step] at hstep
    split at hstep
    · obtain ⟨-,hs'⟩ := Option.ite_none_right_eq_some.mp hstep
      cases hs'
      exact h.failWith _
    · cases hstep
      exact h.failWith _
    · cases hstep
  | restart =>
    cases hstep
    exact { h with
      arriving := nofun
      pending := ⟨nofun,nofun,Pairwise.nil⟩
      memory := nofun
      complete := nofun
      loop := nofun }

end

/-- The process has just started, on tables of which nothing was purged. -/
structure Started (s : Sender) : Prop where
  ids : (s.events.map (·.eventId)).Nodup
  orderings : (s.events.map (·.streamOrdering)).Nodup
  rows : ∀ room n, s.destinationRooms.lookup room = some n →
    0 < n ∧ n ≤ s.lastWritten ∧ ∃ eventId, s.Known ⟨eventId,room,n⟩
  recorded : s.lastSuccessful ≤ s.lastWritten
  noneSkipped : s.NoneSkipped
  arriving : s.arriving = none
  queue : s.queue = {}
  loop : s.loop = none

theorem Started.inv (h : s.Started) : s.Inv where
  ids := h.ids
  orderings := h.orderings
  rows := h.rows
  arriving p hp := by simp [h.arriving] at hp
  pending := by
    rw [h.queue]
    exact ⟨nofun,nofun,Pairwise.nil⟩
  stored := by
    refine ⟨h.recorded,fun n hn => ?_⟩
    obtain ⟨room,hrow,hnot⟩ := hn
    by_contra hle
    exact hnot (h.noneSkipped room n hrow (not_lt.mp hle))
  memory l hl := by simp [h.queue] at hl
  complete hoff := by simp [h.queue] at hoff
  loop phase hphase := by simp [h.loop] at hphase

/-- Where every batch of catch-up is fetched without a gap, what is stored as sent was sent, or
extremities of its room were sent in its place. -/
theorem none_skipped_of_fetches_in_order {as : List Action} (hstart : s.Started)
    (hrun : run (guarded FetchesInOrder Sender.step) s as = some s') :
    s'.NoneSkipped := by
  have hinv : s'.Inv := by
    refine run_preserves (fun {s a s'} h hstep => ?_) hstart.inv hrun
    obtain ⟨hfetch,hstep⟩ := guarded_eq_some.mp hstep
    exact h.step hfetch hstep
  exact noneSkipped_of_reached hinv.stored

def twoRooms (first second : StoredEvent) : Sender where
  events := [first,second]
  destinationRooms := ∅
  lastSuccessful := 4
  lastWritten := 4

theorem started_twoRooms {first second : StoredEvent} (hids : first.eventId ≠ second.eventId)
    (horderings : first.streamOrdering ≠ second.streamOrdering) :
    (twoRooms first second).Started where
  ids := by simpa [twoRooms] using hids
  orderings := by simpa [twoRooms] using horderings
  rows := nofun
  recorded := le_rfl
  noneSkipped := nofun
  arriving := rfl
  queue := rfl
  loop := rfl

def untilFetched (first second : StoredEvent) : List Action :=
  [.storeDestinationRooms first.toPdu,.sendPdu,.storeDestinationRooms second.toPdu,.sendPdu,
    .passRetryLimiter,.readLast,.runQuery,.resumeQuery,.fetchEvents]

def roomMessage (eventId roomId : String) (streamOrdering : ℤ) : StoredEvent :=
  ⟨⟨eventId,roomId,streamOrdering⟩,"m.room.message","@a:s",none,false,false⟩

theorem none_skipped_two_messages :
    let first := roomMessage "$first" "!a" 5
    let second := roomMessage "$second" "!b" 6
    ∃ s', run (guarded FetchesInOrder Sender.step) (twoRooms first second)
        (untilFetched first second ++ [.sendRoom ["$first"] false [],.storeLast,
          .sendRoom ["$later"] false [],.storeLast]) = some s' ∧
      s'.lastSuccessful = 6 ∧ s'.NoneSkipped := by
  intro first second
  have hstart : (twoRooms first second).Started := started_twoRooms (by decide) (by decide)
  refine ⟨_,(Option.some_get (by decide +kernel)).symm,by decide +kernel,?_⟩
  exact none_skipped_of_fetches_in_order hstart (Option.some_get _).symm

/-- A moderator may redact an event that the server does not have. The redaction is withheld,
and the stored ordering passes it with the message of another room. -/
theorem redaction_is_skipped :
    let redaction : StoredEvent :=
      ⟨⟨"$redaction","!a",5⟩,"m.room.redaction","@a:s",some "$unknown",false,false⟩
    let message := roomMessage "$message" "!b" 6
    (twoRooms redaction message).Started ∧
    ∃ s', run Sender.step (twoRooms redaction message)
        (untilFetched redaction message ++ [.sendRoom ["$message"] false [],.storeLast]) = some s' ∧
      ¬s'.NoneSkipped := by
  intro redaction message
  refine ⟨started_twoRooms (by decide) (by decide),_,(Option.some_get (by decide +kernel)).symm,?_⟩
  intro h
  exact absurd (h "!a" 5 (by decide +kernel) (by decide +kernel)) (by decide +kernel)

end Sender

end TextrpBriij.Federation
