import TextrpBriij.AuthChain.BreadthFirstExact
import TextrpBriij.State.AuthDifference

/-! # Unpersisted events do not change the auth chain difference

No persisted event needs an unpersisted one, so an auth chain leaves the unpersisted events at
most once. The search collects the part before that step and the events it leads to, and the
store answers for the rest.
-/
namespace TextrpBriij.State.V2
open AuthChain Util Relation List AList Fallible AuthSearch
open Worklist (budget mem_taken taken)

variable {Event : Type} {authEventIds : Event → List String} {room : Room}
  {unpersisted : Dict String Event} {persisted : Set String}

/-- The events of a room, split into unpersisted and persisted ones. -/
structure Splits (room : Room) (authEventIds : Event → List String)
    (unpersistedEvents : Dict String Event) (persisted : Set String) : Prop where
  auth : ∀ e event, unpersistedEvents.lookup e = some event → authEventIds event = room.auth e
  apart : ∀ e ∈ unpersistedEvents, e ∉ persisted
  known : ∀ e ∈ unpersistedEvents, ∀ a ∈ room.auth e, a ∈ unpersistedEvents ∨ a ∈ persisted
  closed : ∀ e ∈ persisted, ∀ a ∈ room.auth e, a ∈ persisted

def Leaves (room : Room) (unpersistedEvents : Dict String Event) (e a : String) : Prop :=
  e ∈ unpersistedEvents ∧ a ∈ room.auth e

variable (h : Splits room authEventIds unpersisted persisted)

section paths
variable {e a : String}

theorem Leaves.reach (hr : ReflTransGen (Leaves room unpersisted) e a) : ReflTransGen room.edge e a :=
  ReflTransGen.mono (fun _ _ hedge => hedge.2) _ _ hr

include h

theorem Splits.persisted_of_reach (he : e ∈ persisted) (hr : ReflTransGen room.edge e a) : a ∈ persisted := by
  induction hr with
  | refl => exact he
  | tail _ hedge ih => exact h.closed _ ih _ hedge

section
variable (he : e ∈ unpersisted ∨ e ∈ persisted) (hr : ReflTransGen room.edge e a)
include he hr

theorem Splits.known_of_reach : a ∈ unpersisted ∨ a ∈ persisted := by
  induction hr with
  | refl => exact he
  | tail _ hedge ih =>
    rcases ih with hun | hper
    · exact h.known _ hun _ hedge
    · exact .inr (h.closed _ hper _ hedge)

theorem Splits.unpersisted_of_reach (ha : a ∈ unpersisted) : e ∈ unpersisted := by
  rcases he with hun | hper
  · exact hun
  · exact absurd (h.persisted_of_reach hper hr) (h.apart a ha)

theorem Splits.leaves_of_reach (ha : a ∈ unpersisted) :
    ReflTransGen (Leaves room unpersisted) e a := by
  induction hr using ReflTransGen.head_induction_on with
  | refl => exact .refl
  | head hedge hrest ih =>
    have hun := h.unpersisted_of_reach he (.head hedge hrest) ha
    exact .head ⟨hun,hedge⟩ (ih (h.known _ hun _ hedge))

end

/-- A path from an unpersisted to a persisted event crosses the cut at a persisted event that
the unpersisted edges lead to. -/
theorem Splits.exists_crossing (he : e ∈ unpersisted) (hr : ReflTransGen room.edge e a)
    (ha : a ∈ persisted) : ∃ b ∈ persisted,
      ReflTransGen (Leaves room unpersisted) e b ∧ ReflTransGen room.edge b a := by
  induction hr using ReflTransGen.head_induction_on with
  | refl => exact absurd ha (h.apart _ he)
  | @head e c hedge hrest ih =>
    rcases h.known e he c hedge with hun | hper
    · obtain ⟨b,hb,hcb,hba⟩ := ih hun
      exact ⟨b,hb,.head ⟨he,hedge⟩ hcb,hba⟩
    · exact ⟨c,hper,.single ⟨he,hedge⟩,hrest⟩

theorem Splits.mem_authIdsOf :
    a ∈ authIdsOf authEventIds unpersisted e ↔ Leaves room unpersisted e a := by
  unfold authIdsOf Leaves
  cases hlookup : unpersisted.lookup e with
  | none => simp [lookup_eq_none.mp hlookup]
  | some event =>
    have hmem : e ∈ unpersisted := Dict.mem_iff.mpr ⟨event,hlookup⟩
    simp [hmem,h.auth e event hlookup]

theorem Splits.mem_unpersistedAuth : a ∈ unpersistedAuth authEventIds unpersisted e ↔
      Leaves room unpersisted e a ∧ a ∈ unpersisted := by
  rw [unpersistedAuth,mem_filter,h.mem_authIdsOf,decide_eq_true_eq]

end paths

def nextEvents (d : Dict String (List String)) (e : String) : List String := (d.lookup e).getD []

section search
variable {s : AuthSearch} {e a b z : String}

theorem nextEvents_add : z ∈ nextEvents (add e s a).eventToNextEvent b ↔
    z ∈ nextEvents s.eventToNextEvent b ∨ z = e ∧ b = a := by
  unfold nextEvents add
  by_cases hb : b = a
  · subst hb
    simp [or_comm]
  · simp [hb]

theorem foldl_add (ids : List String) :
    (∀ b, b ∈ (ids.foldl (add e) s).chain ↔ b ∈ s.chain ∨ b ∈ ids) ∧
      ∀ b z, z ∈ nextEvents (ids.foldl (add e) s).eventToNextEvent b ↔
        z ∈ nextEvents s.eventToNextEvent b ∨ z = e ∧ b ∈ ids := by
  induction ids generalizing s with
  | nil => simp
  | cons a ids ih =>
    obtain ⟨hchain,hnext⟩ := @ih (add e s a)
    constructor
    · intro b
      rw [foldl_cons,hchain b,add,mem_insert_iff,mem_cons,or_assoc, or_left_comm]
    · intro b z
      rw [foldl_cons,hnext b z,nextEvents_add,mem_cons]
      tauto

include h in
theorem foldl_visit (visited : List String) :
    (∀ b, b ∈ (visited.foldl (visit authEventIds unpersisted) s).chain ↔
        b ∈ s.chain ∨ ∃ y ∈ visited, Leaves room unpersisted y b) ∧
      ∀ b z, z ∈ nextEvents (visited.foldl
          (visit authEventIds unpersisted) s).eventToNextEvent b ↔
        z ∈ nextEvents s.eventToNextEvent b ∨ z ∈ visited ∧ Leaves room unpersisted z b := by
  induction visited generalizing s with
  | nil => simp
  | cons e visited ih =>
    obtain ⟨hchain,hnext⟩ := @ih (s.visit authEventIds unpersisted e)
    obtain ⟨hfirst,hfirstNext⟩ := @foldl_add s e (authIdsOf authEventIds unpersisted e)
    constructor
    · intro b
      rw [foldl_cons,hchain b,visit,hfirst b,h.mem_authIdsOf,or_assoc]
      simp
    · intro b z
      rw [foldl_cons,hnext b z,visit,hfirstNext b z,h.mem_authIdsOf,mem_cons, or_assoc]
      apply or_congr_right
      by_cases hz : z = e
      · simp [hz]
      · simp [hz]

theorem merges_stack : Worklist.Merges fun rest new : List String => new.reverse ++ rest := by
  constructor
  · intro rest new a
    simp [or_comm]
  · intro rest new
    have hperm : (new.reverse ++ rest).Perm (rest ++ new) :=
      perm_append_comm.trans (new.reverse_perm.append_left rest)
    exact hperm.subperm

theorem searchAuth_eq (fuel : ℕ) (toSearch : List String) :
    searchAuth authEventIds unpersisted fuel toSearch s =
      (taken (unpersistedAuth authEventIds unpersisted)
        (fun rest new => new.reverse ++ rest) fuel toSearch).foldl
          (visit authEventIds unpersisted) s := by
  induction fuel generalizing toSearch s with
  | zero => rfl
  | succ fuel ih =>
    cases toSearch with
    | nil => rfl
    | cons e toSearch => exact ih _

theorem Splits.exists_ranked {next : String → List String} (hacyclic : Acyclic next)
    (hnext : ∀ a, ∀ b ∈ next a, b ∈ unpersisted) :
    ∃ rank, Worklist.Ranked next rank ∧ ∀ a, rank a ≤ unpersisted.keys.length := by
  obtain ⟨rank,hranked,hle⟩ := Worklist.exists_ranked hacyclic unpersisted.keys.toFinset
    fun a b hb => mem_toFinset.mpr (AList.mem_keys.mp (hnext a b hb))
  rw [toFinset_card_of_nodup unpersisted.keys_nodup] at hle
  exact ⟨rank,hranked,hle⟩

include h in
theorem Splits.mem_visited : a ∈ taken (unpersistedAuth authEventIds unpersisted)
        (fun rest new => new.reverse ++ rest)
        (budget (unpersistedAuth authEventIds unpersisted)
          unpersisted.keys.length [e]) [e] ↔
      ReflTransGen (fun a b => b ∈ unpersistedAuth authEventIds unpersisted a) e a := by
  have hacyclic : Acyclic (unpersistedAuth authEventIds unpersisted) :=
    room.acyclic.mono fun n m hm => (h.mem_unpersistedAuth.mp hm).1.2
  obtain ⟨rank,hranked,hle⟩ := Splits.exists_ranked hacyclic fun a b hb => (h.mem_unpersistedAuth.mp hb).2
  rw [mem_taken merges_stack hranked hle le_rfl]
  simp

include h in
theorem Splits.transGen_leaves_iff :
    (∃ y, ReflTransGen (fun a b => b ∈ unpersistedAuth authEventIds unpersisted a) e y ∧
      Leaves room unpersisted y a) ↔ TransGen (Leaves room unpersisted) e a := by
  constructor
  · rintro ⟨y,hy,hleaves⟩
    have hreach : ReflTransGen (Leaves room unpersisted) e y :=
      ReflTransGen.mono (fun _ _ hedge => (h.mem_unpersistedAuth.mp hedge).1) _ _ hy
    exact .tail' hreach hleaves
  · intro hr
    induction hr with
    | single hleaves => exact ⟨e,.refl,hleaves⟩
    | tail _ hleaves ih =>
      obtain ⟨y,hy,hyb⟩ := ih
      exact ⟨_,.tail hy (h.mem_unpersistedAuth.mpr ⟨hyb,hleaves.1⟩),hleaves⟩

end search

structure Searched.Holds (room : Room) (unpersistedEvents : Dict String Event)
    (seen : List String) (s : Searched) : Prop where
  keys : ∀ e, e ∈ s.eventsToAuthChain ↔ e ∈ seen
  chain : ∀ e c, s.eventsToAuthChain.lookup e = some c →
    ∀ a, a ∈ c ↔ ReflTransGen (Leaves room unpersistedEvents) e a
  sound : ∀ a z, z ∈ nextEvents s.eventToNextEvent a → Leaves room unpersistedEvents z a
  complete : ∀ a z, z ∈ seen → Leaves room unpersistedEvents z a → z ∈ nextEvents s.eventToNextEvent a

include h in
theorem Searched.Holds.add {seen : List String} {s : Searched}
    (hs : s.Holds room unpersisted seen) (e : String) :
    (s.add authEventIds unpersisted e).Holds room unpersisted (seen ++ [e]) := by
  rw [Searched.add]
  simp only [searchAuth_eq]
  have hvisited := fun a => h.mem_visited (e := e) (a := a)
  generalize taken _ _ _ [e] = visited at hvisited
  obtain ⟨hchain,hnext⟩ := @foldl_visit _ _ _ _ _ h ⟨[e],s.eventToNextEvent⟩ visited
  simp only [hvisited,h.transGen_leaves_iff] at hchain hnext
  constructor
  · intro f
    simp [hs.keys,or_comm]
  · intro f c hc a
    rcases Entries.insert_cases hc with ⟨rfl,rfl⟩ | ⟨-,hold⟩
    · rw [hchain a,reflTransGen_iff_eq_or_transGen,mem_singleton]
    · exact hs.chain f c hold a
  · intro a z hz
    rcases (hnext a z).mp hz with hold | hnew
    · exact hs.sound a z hold
    · exact hnew.2
  · intro a z hz hleaves
    apply (hnext a z).mpr
    rcases mem_append.mp hz with hseen | hlast
    · exact .inl (hs.complete a z hseen hleaves)
    · rw [mem_singleton.mp hlast] at hleaves ⊢
      exact .inr ⟨.refl,hleaves⟩

include h in
theorem searchUnpersisted_holds (it : Iteration) :
    (searchUnpersisted authEventIds unpersisted it).Holds room
      unpersisted (it.order 0 unpersisted.keys) := by
  apply foldl_spec fun seen s => Searched.Holds room unpersisted seen s
  · constructor <;> simp [nextEvents]
  · intro seen e _ s _ hs
    exact hs.add h e

/-- The chains of exactly the unpersisted events, and the reverse of the edges from them. -/
structure Searched.Exact (room : Room) (unpersistedEvents : Dict String Event) (s : Searched) :
    Prop where
  length : s.eventsToAuthChain.keys.length = unpersistedEvents.keys.length
  keys : ∀ e, e ∈ s.eventsToAuthChain ↔ e ∈ unpersistedEvents
  chain : ∀ e c, s.eventsToAuthChain.lookup e = some c →
    ∀ a, a ∈ c ↔ ReflTransGen (Leaves room unpersistedEvents) e a
  next : ∀ a z, z ∈ nextEvents s.eventToNextEvent a ↔ Leaves room unpersistedEvents z a

include h in
theorem searchUnpersisted_exact (it : Iteration) :
    (searchUnpersisted authEventIds unpersisted it).Exact room unpersisted := by
  have hs := searchUnpersisted_holds h it
  have hmem : ∀ e, e ∈ it.order 0 unpersisted.keys ↔ e ∈ unpersisted := fun e =>
    (it.perm 0 unpersisted.keys).mem_iff.trans AList.mem_keys.symm
  have hkeys : ∀ e, e ∈ (searchUnpersisted authEventIds unpersisted it).eventsToAuthChain ↔
      e ∈ unpersisted := fun e => (hs.keys e).trans (hmem e)
  refine ⟨?_,hkeys,hs.chain,fun a z => ⟨hs.sound a z,fun hz => ?_⟩⟩
  · apply Perm.length_eq
    apply (perm_ext_iff_of_nodup (keys_nodup _) (keys_nodup _)).mpr
    intro e
    exact hkeys e
  · exact hs.complete a z ((hmem z).mpr hz.1) hz

section cut
variable {searched : Searched} (hs : searched.Exact room unpersisted) {e a : String}

theorem reach_of_not_mem (he : e ∉ unpersisted) :
    ReflTransGen (Leaves room unpersisted) e a ↔ a = e := by
  constructor
  · intro hr
    rcases ReflTransGen.cases_head hr with heq | ⟨b,hedge,-⟩
    · exact heq.symm
    · exact absurd hedge.1 he
  · rintro rfl
    exact .refl

include hs in
theorem Searched.Exact.not_mem_of_lookup
    (hnone : searched.eventsToAuthChain.lookup e = none) : e ∉ unpersisted := by
  rw [← hs.keys]
  exact lookup_eq_none.mp hnone

include hs in
theorem Searched.Exact.mem_cutStateSet (it : Iteration) (stateSet : StateMap String) (a : String) :
    (a ∈ (cutStateSet unpersisted searched.eventsToAuthChain it stateSet).1 ↔ a ∉ unpersisted ∧
          ∃ e ∈ values stateSet, ReflTransGen (Leaves room unpersisted) e a) ∧
      (a ∈ (cutStateSet unpersisted searched.eventsToAuthChain it stateSet).2 ↔ a ∈ unpersisted ∧
          ∃ e ∈ values stateSet, ReflTransGen (Leaves room unpersisted) e a) := by
  simp only [← (it.perm 1 (values stateSet)).mem_iff]
  apply foldl_spec fun seen (ids : List String × List String) =>
    (a ∈ ids.1 ↔ a ∉ unpersisted ∧ ∃ e ∈ seen, ReflTransGen (Leaves room unpersisted) e a) ∧
      (a ∈ ids.2 ↔ a ∈ unpersisted ∧ ∃ e ∈ seen, ReflTransGen (Leaves room unpersisted) e a)
  · simp
  · intro seen e _ ids _ hids
    simp only [mem_append,mem_singleton,or_and_right,exists_or,exists_eq_left]
    split
    · rename_i c hc
      have hchain := hs.chain e c hc a
      simp only [mem_union_iff,mem_filter,decide_eq_true_eq,hids.1,hids.2,hchain, and_or_left]
      exact ⟨or_congr_right and_comm,or_congr_right and_comm⟩
    · rename_i hnone
      have he := hs.not_mem_of_lookup hnone
      simp only [mem_insert_iff,hids.1,hids.2,reach_of_not_mem he]
      by_cases ha : a = e
      · simp [ha,he]
      · simp [ha]

include hs in
theorem Searched.Exact.mem_cutConflicted (it : Iteration) (conflicted : List String) (a : String) :
    (a ∈ (cutConflicted unpersisted searched.eventsToAuthChain it conflicted).1 ↔
        a ∈ conflicted ∧ a ∈ unpersisted) ∧
      (a ∈ (cutConflicted unpersisted searched.eventsToAuthChain it conflicted).2 ↔
        a ∉ unpersisted ∧ ∃ e ∈ conflicted, e ∈ unpersisted ∧
          ReflTransGen (Leaves room unpersisted) e a) := by
  simp only [← (it.perm 2 conflicted).mem_iff]
  apply foldl_spec fun seen (ids : List String × List String) =>
    (a ∈ ids.1 ↔ a ∈ seen ∧ a ∈ unpersisted) ∧
      (a ∈ ids.2 ↔ a ∉ unpersisted ∧ ∃ e ∈ seen, e ∈ unpersisted ∧
        ReflTransGen (Leaves room unpersisted) e a)
  · simp
  · intro seen e _ ids _ hids
    simp only [mem_append,mem_singleton,or_and_right,exists_or,exists_eq_left]
    split
    · rename_i c hc
      have he : e ∈ unpersisted := (hs.keys e).mp (Dict.mem_iff.mpr ⟨c,hc⟩)
      have hchain := hs.chain e c hc a
      simp only [mem_insert_iff,mem_union_iff,mem_filter,decide_eq_true_eq,hids.1,
        hids.2,hchain,he,true_and,and_or_left]
      refine ⟨?_,or_congr_right and_comm⟩
      by_cases ha : a = e
      · simp [ha,he]
      · simp [ha]
    · rename_i hnone
      have he := hs.not_mem_of_lookup hnone
      simp only [hids.1,hids.2,he,false_and,or_false]
      by_cases ha : a = e
      · simp [ha,he]
      · simp [ha]

end cut

section difference
variable {stateSet ids : List String} {e : String} (hset : ∀ x ∈ stateSet, x ∈ unpersisted ∨ x ∈ persisted)
include h hset

theorem Splits.inChain_unpersisted (he : e ∈ unpersisted) : room.InChain stateSet e ↔
      ∃ x ∈ stateSet, ReflTransGen (Leaves room unpersisted) x e := by
  constructor
  · rintro ⟨x,hx,hr⟩
    exact ⟨x,hx,h.leaves_of_reach (hset x hx) hr he⟩
  · rintro ⟨x,hx,hr⟩
    exact ⟨x,hx,Leaves.reach hr⟩

variable (hids : ∀ a, a ∈ ids ↔ a ∉ unpersisted ∧ ∃ x ∈ stateSet, ReflTransGen (Leaves room unpersisted) x a)
include hids

theorem Splits.inChain_persisted (he : e ∈ persisted) :
    room.InChain stateSet e ↔ room.InChain ids e := by
  constructor
  · rintro ⟨x,hx,hr⟩
    rcases hset x hx with hun | hper
    · obtain ⟨b,hb,hxb,hbe⟩ := h.exists_crossing hun hr he
      exact ⟨b,(hids b).mpr ⟨fun hbun => h.apart b hbun hb,x,hx,hxb⟩,hbe⟩
    · exact ⟨x,(hids x).mpr ⟨fun hun => h.apart x hun hper,x,hx,.refl⟩,hr⟩
  · rintro ⟨a,ha,hr⟩
    obtain ⟨-,x,hx,hxa⟩ := (hids a).mp ha
    exact ⟨x,hx,(Leaves.reach hxa).trans hr⟩

theorem Splits.ids_persisted : ∀ a ∈ ids, a ∈ persisted := by
  intro a ha
  obtain ⟨hun,x,hx,hr⟩ := (hids a).mp ha
  exact (h.known_of_reach (hset x hx) (Leaves.reach hr)).resolve_left hun

end difference

/-- The event lies on an auth path from one of the first events to one of the second. -/
def Between (room : Room) (tops bottoms : List String) (e : String) : Prop :=
  ∃ x ∈ tops, ∃ y ∈ bottoms, ReflTransGen room.edge x e ∧ ReflTransGen room.edge e y

/-- A store that answers exactly for the persisted events. The conflicted events are events of
the state sets, and the subgraph is only told when there are conflicted events to ask about. -/
def ExactOn (room : Room) (persisted : Set String) (store : DifferenceStore) : Prop :=
  ∀ stateSets conflicted additional, stateSets ≠ [] → (∀ s ∈ stateSets, ∀ e ∈ s, e ∈ persisted) →
    (∀ e ∈ conflicted.getD [] ++ additional, e ∈ stateSets.flatten) →
    ∃ difference subgraph, store stateSets conflicted additional = .ok (difference,subgraph) ∧
      (∀ e, e ∈ difference ↔ room.Differs stateSets e) ∧
      match conflicted with
      | none => subgraph.getD [] = []
      | some conflicted => ∃ found, subgraph = some found ∧
          ∀ e, e ∈ found ↔ Between room (conflicted ++ additional) conflicted e

theorem merges_set (it : Iteration) :
    Worklist.Merges fun rest new : List String => it.order 4 (rest ∪ new) := by
  constructor
  · intro rest new a
    rw [(it.perm 4 _).mem_iff,mem_union_iff]
  · intro rest new
    exact (it.perm 4 _).subperm.trans (union_sublist_append rest new).subperm

variable {d : Dict String (List String)}

theorem mem_forwardsConflicted {it : Iteration} {fuel : ℕ} {queue forwards : List String} :
    a ∈ forwardsConflicted it d fuel queue forwards ↔ a ∈ forwards ∨
      a ∈ taken (nextEvents d) (fun rest new => it.order 4 (rest ∪ new)) fuel queue := by
  induction fuel generalizing queue forwards with
  | zero => simp [forwardsConflicted,taken]
  | succ fuel ih =>
    cases queue with
    | nil => simp [forwardsConflicted,taken]
    | cons e queue =>
      rw [forwardsConflicted,taken,ih,mem_insert_iff,mem_cons,or_assoc, or_left_comm]
      rfl

variable {searched : Searched}

theorem Searched.Exact.mem_forwards
    (hs : searched.Exact room unpersisted) (it : Iteration) (queue : List String)
    (a : String) : a ∈ forwardsConflicted it searched.eventToNextEvent
        (budget (nextEvents searched.eventToNextEvent)
          searched.eventsToAuthChain.keys.length queue) queue [] ↔
      ∃ f ∈ queue, ReflTransGen (Leaves room unpersisted) a f := by
  have hswap : ∀ {f a}, ReflTransGen (fun a b => b ∈ nextEvents searched.eventToNextEvent a) f a ↔
      ReflTransGen (Leaves room unpersisted) a f := by
    intro f a
    simp only [hs.next]
    exact reflTransGen_swap
  have hacyclic : Acyclic (nextEvents searched.eventToNextEvent) := by
    intro n hn
    simp only [hs.next] at hn
    exact room.acyclic n (TransGen.mono (fun _ _ hedge => hedge.2) _ _ (transGen_swap.mp hn))
  obtain ⟨rank,hranked,hle⟩ := Splits.exists_ranked hacyclic fun a b hb => ((hs.next a b).mp hb).1
  rw [mem_forwardsConflicted,hs.length,mem_taken (merges_set it) hranked hle le_rfl]
  simp [hswap]

theorem mem_backwards {uces : List String} :
    a ∈ uces.foldl (fun set uce => set ∪ (d.lookup uce).getD []) [] ↔ ∃ u ∈ uces, a ∈ nextEvents d u := by
  apply foldl_spec fun seen set => a ∈ set ↔ ∃ u ∈ seen, a ∈ nextEvents d u
  · simp
  · intro seen u _ set _ hset
    simp only [mem_union_iff,hset,mem_append,mem_singleton,or_and_right,exists_or, exists_eq_left]
    rfl

structure Cut.Conflicted (room : Room) (unpersistedEvents : Dict String Event)
    (conflicted : List String) (c : Cut) : Prop where
  unpersisted : ∀ a, a ∈ c.unpersistedConflictedEvents ↔ a ∈ conflicted ∧ a ∈ unpersistedEvents
  additional : ∀ a, a ∈ c.additional ↔ a ∉ unpersistedEvents ∧
    ∃ e ∈ conflicted, e ∈ unpersistedEvents ∧ ReflTransGen (Leaves room unpersistedEvents) e a

theorem mem_expandSubgraph (hs : searched.Exact room unpersisted)
    {conflicted : List String} {c : Cut} (hc : c.Conflicted room unpersisted conflicted)
    (it : Iteration) (rest found : List String) (e : String) :
    e ∈ expandSubgraph it searched c rest found ↔ (e ∈ found ∨ e ∈ rest) ∨
      (∃ u ∈ conflicted, u ∈ unpersisted ∧ ReflTransGen (Leaves room unpersisted) u e) ∧
      ∃ f, ((f ∈ found ∨ f ∈ rest) ∧ f ∈ c.additional ∨ f ∈ conflicted ∧ f ∈ unpersisted) ∧
        ReflTransGen (Leaves room unpersisted) e f := by
  have hforwards := hs.mem_forwards it
    (it.order 3 ((found ∪ rest) ∩ c.additional ∪ c.unpersistedConflictedEvents)) e
  have hbackwards : e ∈ c.unpersistedConflictedEvents.foldl (fun set uce =>
      set ∪ (searched.eventsToAuthChain.lookup uce).getD []) [] ↔
      ∃ u ∈ conflicted, u ∈ unpersisted ∧ ReflTransGen (Leaves room unpersisted) u e := by
    rw [mem_backwards]
    constructor
    · rintro ⟨u,hu,he⟩
      obtain ⟨hconf,hun⟩ := (hc.unpersisted u).mp hu
      obtain ⟨chain,hchain⟩ := Dict.mem_iff.mp ((hs.keys u).mpr hun)
      rw [nextEvents,hchain] at he
      exact ⟨u,hconf,hun,(hs.chain u chain hchain e).mp he⟩
    · rintro ⟨u,hconf,hun,hr⟩
      obtain ⟨chain,hchain⟩ := Dict.mem_iff.mp ((hs.keys u).mpr hun)
      refine ⟨u,(hc.unpersisted u).mpr ⟨hconf,hun⟩,?_⟩
      rw [nextEvents,hchain]
      exact (hs.chain u chain hchain e).mpr hr
  simp only [(it.perm 3 _).mem_iff,mem_union_iff,mem_inter_iff,hc.unpersisted] at hforwards
  rw [← hforwards,← hbackwards]
  simp only [expandSubgraph,mem_union_iff,mem_inter_iff]
  rfl

include h in
theorem expandSubgraph_exact (hs : searched.Exact room unpersisted) {conflicted : List String}
    (hconf : ∀ e ∈ conflicted, e ∈ unpersisted ∨ e ∈ persisted) {c : Cut}
    (hc : c.Conflicted room unpersisted conflicted) (it : Iteration)
    {rest found : List String} (hrest : ∀ e, e ∈ rest ↔ e ∈ conflicted ∧ e ∉ unpersisted)
    (hfound : ∀ e, e ∈ found ↔ Between room (rest ++ c.additional) rest e) (e : String) :
    e ∈ expandSubgraph it searched c rest found ↔ Between room conflicted conflicted e := by
  rw [mem_expandSubgraph hs hc]
  have hpersisted : ∀ {y}, y ∈ conflicted → y ∈ persisted → y ∈ rest := fun hy hper =>
    (hrest _).mpr ⟨hy,fun hmem => h.apart _ hmem hper⟩
  have hcrossed : ∀ {x b}, x ∈ conflicted → x ∈ unpersisted → b ∈ persisted →
      ReflTransGen (Leaves room unpersisted) x b → b ∈ c.additional := fun hx hun hb hr =>
    (hc.additional _).mpr ⟨fun hmem => h.apart _ hmem hb,_,hx,hun,hr⟩
  have hfrom : ∀ x ∈ rest ++ c.additional, ∃ u ∈ conflicted, ReflTransGen room.edge u x := by
    intro x hx
    rcases mem_append.mp hx with hx | hx
    · exact ⟨x,((hrest x).mp hx).1,.refl⟩
    · obtain ⟨-,u,hu,-,hr⟩ := (hc.additional x).mp hx
      exact ⟨u,hu,Leaves.reach hr⟩
  have hold : ∀ f, f ∈ found ∨ f ∈ rest → Between room conflicted rest f := by
    rintro f (hf | hf)
    · obtain ⟨x,hx,y,hy,hxf,hfy⟩ := (hfound f).mp hf
      obtain ⟨u,hu,hux⟩ := hfrom x hx
      exact ⟨u,hu,y,hy,hux.trans hxf,hfy⟩
    · exact ⟨f,((hrest f).mp hf).1,f,hf,.refl,.refl⟩
  constructor
  · rintro (he | ⟨⟨u,hu,-,hue⟩,f,hf,hef⟩)
    · obtain ⟨x,hx,y,hy,hxe,hey⟩ := hold e he
      exact ⟨x,hx,y,((hrest y).mp hy).1,hxe,hey⟩
    · rcases hf with ⟨hf,-⟩ | ⟨hf,-⟩
      · obtain ⟨-,-,y,hy,-,hfy⟩ := hold f hf
        exact ⟨u,hu,y,((hrest y).mp hy).1,Leaves.reach hue,(Leaves.reach hef).trans hfy⟩
      · exact ⟨u,hu,f,hf,Leaves.reach hue,Leaves.reach hef⟩
  · rintro ⟨x,hx,y,hy,hxe,hey⟩
    rcases h.known_of_reach (hconf x hx) hxe with hun | hper
    · -- The event is unpersisted, and so is what it was reached from.
      have hxun := h.unpersisted_of_reach (hconf x hx) hxe hun
      have hleaves := h.leaves_of_reach (hconf x hx) hxe hun
      refine .inr ⟨⟨x,hx,hxun,hleaves⟩,?_⟩
      rcases hconf y hy with hyun | hyper
      · exact ⟨y,.inr ⟨hy,hyun⟩,h.leaves_of_reach (.inl hun) hey hyun⟩
      · obtain ⟨b,hb,heb,hby⟩ := h.exists_crossing hun hey hyper
        have hadd := hcrossed hx hxun hb (hleaves.trans heb)
        have hbfound : b ∈ found :=
          (hfound b).mpr ⟨b,mem_append_right _ hadd,y,hpersisted hy hyper,.refl,hby⟩
        exact ⟨b,.inl ⟨.inl hbfound,hadd⟩,heb⟩
    · -- The event is persisted, and so is what it leads to.
      have hyrest := hpersisted hy (h.persisted_of_reach hper hey)
      refine .inl (.inl ((hfound e).mpr ?_))
      rcases hconf x hx with hxun | hxper
      · obtain ⟨b,hb,hxb,hbe⟩ := h.exists_crossing hxun hxe hper
        exact ⟨b,mem_append_right _ (hcrossed hx hxun hb hxb),y,hyrest,hbe,hey⟩
      · exact ⟨x,mem_append_left _ (hpersisted hx hxper),y,hyrest,hxe,hey⟩

/-- What the cut leaves: state sets of events that are not unpersisted, with the same auth
chains there, and the difference of the unpersisted events. -/
structure Cut.Holds (room : Room) (unpersistedEvents : Dict String Event)
    (stateSets : List (StateMap String)) (conflicted : List String) (c : Cut) : Prop where
  sets : ∃ ids : StateMap String → List String, c.stateSetsIds = stateSets.map ids ∧
    ∀ s a, a ∈ ids s ↔ a ∉ unpersistedEvents ∧ ∃ x ∈ values s, ReflTransGen (Leaves room unpersistedEvents) x a
  conflicted : c.Conflicted room unpersistedEvents conflicted
  difference : ∀ e, e ∈ c.authDifferenceUnpersistedPart ↔ e ∈ unpersistedEvents ∧
    (∃ s ∈ stateSets, ∃ x ∈ values s, ReflTransGen (Leaves room unpersistedEvents) x e) ∧
      ¬∀ s ∈ stateSets, ∃ x ∈ values s, ReflTransGen (Leaves room unpersistedEvents) x e

variable {stateSets : List (StateMap String)}

theorem not_mem_of_keys (h : unpersisted.keys = []) (e : String) : e ∉ unpersisted := by
  rw [AList.mem_keys,h]
  exact not_mem_nil

theorem cut_holds (hs : searched.Exact room unpersisted)
    (it : Iteration) (hne : stateSets ≠ []) (conflicted : Option (List String)) :
    ∃ c, cut it unpersisted searched.eventsToAuthChain stateSets conflicted = .ok c ∧
      c.Holds room unpersisted stateSets (conflicted.getD []) := by
  unfold cut
  by_cases hempty : unpersisted.keys = []
  · have hnone := not_mem_of_keys hempty
    rw [if_pos hempty]
    refine ⟨_,rfl,⟨fun s => (values s).dedup,rfl,?_⟩,⟨?_,?_⟩,?_⟩
    · intro s a
      simp [hnone,fun e => @reach_of_not_mem _ room _ e a (hnone e)]
    all_goals simp [hnone]
  · have hids : stateSets.map (cutStateSet unpersisted searched.eventsToAuthChain it) ≠ [] :=
      fun hnil => hne (map_eq_nil_iff.mp hnil)
    rw [if_neg hempty,if_neg hids]
    refine ⟨_,rfl,⟨fun s => (cutStateSet unpersisted searched.eventsToAuthChain it s).1,
      by simp [Function.comp_def],fun s a => (hs.mem_cutStateSet it s a).1⟩,
      ⟨fun a => (hs.mem_cutConflicted it _ a).1,fun a => (hs.mem_cutConflicted it _ a).2⟩,?_⟩
    intro e
    simp only [mem_unionMinusIntersection,mem_map,exists_exists_and_eq_and,
      forall_exists_index,and_imp,forall_apply_eq_imp_iff₂,(hs.mem_cutStateSet it _ e).2]
    constructor
    · rintro ⟨⟨s,hmem,he,hx⟩,hnot⟩
      exact ⟨he,⟨s,hmem,hx⟩,fun hall => hnot fun s hs => ⟨he,hall s hs⟩⟩
    · rintro ⟨he,⟨s,hmem,hx⟩,hnot⟩
      exact ⟨⟨s,hmem,he,hx⟩,fun hall => hnot fun s hs => (hall s hs).2⟩

theorem someNotAll_congr {α : Type} {sets : List α} {p q : α → Prop} (h : ∀ s ∈ sets, (p s ↔ q s)) :
    ((∃ s ∈ sets, p s) ∧ ¬∀ s ∈ sets, p s) ↔ (∃ s ∈ sets, q s) ∧ ¬∀ s ∈ sets, q s := by
  apply and_congr
  · exact exists_congr fun s => and_congr_right (h s)
  · exact not_congr (forall₂_congr h)

include h in
theorem differs_iff (hsets : ∀ s ∈ stateSets, ∀ e ∈ values s, e ∈ unpersisted ∨ e ∈ persisted)
    {ids : StateMap String → List String} (hids : ∀ s a, a ∈ ids s ↔ a ∉ unpersisted ∧
      ∃ x ∈ values s, ReflTransGen (Leaves room unpersisted) x a) (e : String) :
    room.Differs (stateSets.map ids) e ∨ (e ∈ unpersisted ∧
      (∃ s ∈ stateSets, ∃ x ∈ values s, ReflTransGen (Leaves room unpersisted) x e) ∧
        ¬∀ s ∈ stateSets, ∃ x ∈ values s, ReflTransGen (Leaves room unpersisted) x e) ↔
      room.Differs (stateSets.map values) e := by
  simp only [Room.Differs,mem_map,exists_exists_and_eq_and,forall_exists_index,and_imp,
    forall_apply_eq_imp_iff₂]
  by_cases hun : e ∈ unpersisted
  · have hnot : ∀ s ∈ stateSets, ¬room.InChain (ids s) e := by
      rintro s hs ⟨a,ha,hr⟩
      exact h.apart e hun (h.persisted_of_reach (h.ids_persisted (hsets s hs) (hids s) a ha) hr)
    have hleft : ¬∃ s ∈ stateSets, room.InChain (ids s) e := by
      rintro ⟨s,hs,hin⟩
      exact hnot s hs hin
    rw [someNotAll_congr fun s hs => h.inChain_unpersisted (hsets s hs) hun]
    simp [hleft,hun]
  · have hiff : ∀ s ∈ stateSets, (room.InChain (ids s) e ↔ room.InChain (values s) e) := by
      intro s hs
      by_cases hper : e ∈ persisted
      · exact (h.inChain_persisted (hsets s hs) (hids s) hper).symm
      · constructor
        · rintro ⟨a,ha,hr⟩
          have hmem := h.ids_persisted (hsets s hs) (hids s) a ha
          exact absurd (h.persisted_of_reach hmem hr) hper
        · rintro ⟨x,hx,hr⟩
          exact absurd (h.known_of_reach (hsets s hs x hx) hr) (by simp [hun,hper])
    rw [someNotAll_congr hiff]
    simp [hun]

include h in
theorem getAuthChainDifference_ok {store : DifferenceStore} (hstore : ExactOn room persisted store) (it : Iteration)
    (hne : stateSets ≠ [])
    (hsets : ∀ s ∈ stateSets, ∀ e ∈ values s, e ∈ unpersisted ∨ e ∈ persisted)
    {conflictedState : Option (List String)}
    (hconf : ∀ e ∈ conflictedState.getD [], ∃ s ∈ stateSets, e ∈ values s) :
    ∃ result, getAuthChainDifference authEventIds it stateSets unpersisted store
        conflictedState = .ok result ∧
      ∀ e, e ∈ result ↔ room.Differs (stateSets.map values) e ∨
        ∃ conflicted, conflictedState = some conflicted ∧ Between room conflicted conflicted e := by
  have hs := searchUnpersisted_exact h it
  obtain ⟨c,hcut,⟨ids,hidsEq,hids⟩,hc,hdiff⟩ := cut_holds hs it hne conflictedState
  have hasked : ∀ {e a}, e ∈ conflictedState.getD [] → a ∉ unpersisted →
      ReflTransGen (Leaves room unpersisted) e a → a ∈ c.stateSetsIds.flatten := by
    intro e a he hun hr
    obtain ⟨s,hmem,hes⟩ := hconf e he
    rw [hidsEq]
    exact mem_flatten.mpr ⟨ids s,mem_map_of_mem hmem,(hids s a).mpr ⟨hun,e,hes,hr⟩⟩
  have hkept : ∀ conflicted, conflictedState = some conflicted →
      ∀ e, e ∈ conflicted.filter (· ∉ c.unpersistedConflictedEvents) ↔
        e ∈ conflicted ∧ e ∉ unpersisted := by
    rintro conflicted rfl e
    simp only [mem_filter,decide_eq_true_eq,hc.unpersisted]
    tauto
  obtain ⟨difference,subgraph,hrun,hdifference,hsubgraph⟩ := hstore c.stateSetsIds
    (conflictedState.map fun conflicted =>
      conflicted.filter (· ∉ c.unpersistedConflictedEvents)) c.additional
    (by rw [hidsEq]; exact fun hnil => hne (map_eq_nil_iff.mp hnil))
    (by
      intro s hmem
      rw [hidsEq] at hmem
      obtain ⟨t,ht,rfl⟩ := mem_map.mp hmem
      exact h.ids_persisted (hsets t ht) (hids t))
    (by
      intro e he
      rcases mem_append.mp he with he | he
      · cases conflictedState with
        | none => cases he
        | some conflicted =>
          obtain ⟨hmem,hun⟩ := (hkept conflicted rfl e).mp he
          exact hasked hmem hun .refl
      · obtain ⟨hun,x,hx,-,hr⟩ := (hc.additional e).mp he
        exact hasked hx hun hr)
  have hboth : ∀ e, e ∈ difference ∪ c.authDifferenceUnpersistedPart ↔
      room.Differs (stateSets.map values) e := by
    intro e
    rw [mem_union_iff,hdifference,hdiff,hidsEq]
    exact differs_iff h hsets hids e
  unfold getAuthChainDifference
  simp only [hcut,ok_bind,hrun]
  cases conflictedState with
  | none =>
    have hnone : subgraph.getD [] = [] := hsubgraph
    cases subgraph with
    | none => exact ⟨_,rfl,fun e => by simp [hboth]⟩
    | some found =>
      obtain rfl : found = [] := hnone
      exact ⟨_,rfl,fun e => by simp [hboth]⟩
  | some conflicted =>
    obtain ⟨found,rfl,hfound⟩ := hsubgraph
    refine ⟨_,rfl,fun e => ?_⟩
    rw [mem_union_iff,hboth]
    apply or_congr_right
    simp only [Option.some.injEq,exists_eq_left']
    split
    · rename_i hempty
      have hun := not_mem_of_keys hempty
      have hall : ∀ e, e ∈ conflicted.filter (· ∉ c.unpersistedConflictedEvents) ↔ e ∈ conflicted := by
        intro e
        rw [hkept conflicted rfl e]
        simp [hun]
      have hno : ∀ e, e ∉ c.additional := by simp [hc.additional,hun]
      rw [hfound]
      simp only [Between,mem_append,hall,hno,or_false]
    · have hknown : ∀ e ∈ conflicted, e ∈ unpersisted ∨ e ∈ persisted := by
        intro e he
        obtain ⟨s,hmem,hes⟩ := hconf e he
        exact hsets s hmem e hes
      exact expandSubgraph_exact h hs hknown hc it (hkept conflicted rfl) hfound e

/-- The result is the difference of the state sets in the whole room, with what lies between the
conflicted events, and it is what it would be if the unpersisted events were persisted too. -/
theorem getAuthChainDifference_whole_room {Event : Type} (room : Room)
    (authEventIds : Event → List String) (unpersistedEvents : Dict String Event)
    (persisted : Set String) (h : Splits room authEventIds unpersistedEvents persisted)
    (store : DifferenceStore) (hstore : ExactOn room persisted store) (it : Iteration)
    (stateSets : List (StateMap String)) (hne : stateSets ≠ [])
    (hsets : ∀ s ∈ stateSets, ∀ e ∈ values s, e ∈ unpersistedEvents ∨ e ∈ persisted)
    (conflictedState : Option (List String))
    (hconf : ∀ e ∈ conflictedState.getD [], ∃ s ∈ stateSets, e ∈ values s) :
    ∃ result, getAuthChainDifference authEventIds it stateSets unpersistedEvents store
        conflictedState = .ok result ∧
      (∀ e, e ∈ result ↔ room.Differs (stateSets.map values) e ∨
        ∃ conflicted, conflictedState = some conflicted ∧
          Between room conflicted conflicted e) ∧
      ∀ it' store', ExactOn room {e | e ∈ unpersistedEvents ∨ e ∈ persisted} store' →
        ∃ result', getAuthChainDifference authEventIds it' stateSets ∅ store' conflictedState =
            .ok result' ∧ ∀ e, e ∈ result' ↔ e ∈ result := by
  obtain ⟨result,hrun,hresult⟩ := getAuthChainDifference_ok h hstore it hne hsets hconf
  refine ⟨result,hrun,hresult,fun it' store' hstore' => ?_⟩
  have hwhole : Splits room authEventIds ∅ {e | e ∈ unpersistedEvents ∨ e ∈ persisted} := by
    constructor
    · simp
    · simp
    · simp
    · intro e he a ha
      exact h.known_of_reach he (.single ha)
  obtain ⟨result',hrun',hresult'⟩ := getAuthChainDifference_ok hwhole hstore' it' hne
    (fun s hs e he => .inr (hsets s hs e he)) hconf
  exact ⟨result',hrun',fun e => by rw [hresult,hresult']⟩

/-! Two events in flight that follow a persisted one. -/

def inFlight : Dict String (List String) :=
  ((∅ : Dict String (List String)).insert "$b" ["$a"]).insert "$c" ["$b"]

def flatStore : DifferenceStore := fun stateSets conflicted _ =>
  .ok (unionMinusIntersection stateSets,conflicted)

theorem mem_inFlight : e ∈ inFlight ↔ e = "$c" ∨ e = "$b" := by
  simp only [inFlight,mem_insert,notMem_empty,or_false]

theorem inFlight_splits : Splits lineRoom id inFlight {"$a"} := by
  constructor
  · intro e event he
    rcases mem_inFlight.mp (Dict.mem_iff.mpr ⟨event,he⟩) with rfl | rfl
    · exact (Option.some.inj he).symm
    · exact (Option.some.inj he).symm
  · intro e he
    rcases mem_inFlight.mp he with rfl | rfl <;> simp
  · intro e he a ha
    rcases mem_inFlight.mp he with rfl | rfl
    · have : a = "$b" := by simpa [lineRoom] using ha
      exact .inl (mem_inFlight.mpr (.inr this))
    · have : a = "$a" := by simpa [lineRoom] using ha
      exact .inr this
  · rintro e rfl a ha
    simp [lineRoom] at ha

theorem flatStore_exact : ExactOn lineRoom {"$a"} flatStore := by
  have hreach : ∀ {e}, ReflTransGen lineRoom.edge "$a" e ↔ e = "$a" := by
    intro e
    constructor
    · intro hr
      exact inFlight_splits.persisted_of_reach rfl hr
    · rintro rfl
      exact .refl
  intro stateSets conflicted additional _ hsets hin
  have hmem : ∀ e ∈ conflicted.getD [] ++ additional, e = "$a" := by
    intro e he
    obtain ⟨s,hs,hes⟩ := mem_flatten.mp (hin e he)
    exact hsets s hs e hes
  refine ⟨_,_,rfl,fun e => ?_,?_⟩
  · rw [mem_unionMinusIntersection]
    apply someNotAll_congr
    intro s hs
    constructor
    · intro he
      exact ⟨e,he,.refl⟩
    · rintro ⟨a,ha,hr⟩
      obtain rfl := hsets s hs a ha
      rwa [hreach.mp hr]
  · cases conflicted with
    | none => rfl
    | some conflicted =>
      refine ⟨conflicted,rfl,fun e => ?_⟩
      constructor
      · intro he
        exact ⟨e,mem_append_left _ he,e,he,.refl,.refl⟩
      · rintro ⟨x,hx,y,hy,hxe,hey⟩
        have hxa := hmem x hx
        have hya := hmem y (mem_append_left _ hy)
        rw [hxa,hreach] at hxe
        rwa [hxe,← hya]

def forkedSets : List (StateMap String) :=
  [(∅ : StateMap String).insert ("m.room.topic","") "$c", (∅ : StateMap String).insert ("m.room.topic","") "$a"]

theorem getAuthChainDifference_whole_room_forked :
    ∃ result, getAuthChainDifference id .listed forkedSets inFlight flatStore
        (some ["$c","$a"]) = .ok result ∧
      (∀ e, e ∈ result ↔ lineRoom.Differs (forkedSets.map values) e ∨
        ∃ conflicted, some ["$c","$a"] = some conflicted ∧
          Between lineRoom conflicted conflicted e) ∧
      ∀ it' store', ExactOn lineRoom {e | e ∈ inFlight ∨ e ∈ ({"$a"} : Set String)} store' →
        ∃ result', getAuthChainDifference id it' forkedSets
            (∅ : Dict String (List String)) store' (some ["$c","$a"]) = .ok result' ∧
          ∀ e, e ∈ result' ↔ e ∈ result :=
  getAuthChainDifference_whole_room lineRoom id inFlight {"$a"} inFlight_splits flatStore
    flatStore_exact .listed forkedSets (by simp [forkedSets])
    (by
      intro s hs e he
      have hvalues : e ∈ (forkedSets.map values).flatten :=
        mem_flatten.mpr ⟨values s,mem_map_of_mem hs,he⟩
      have : e = "$c" ∨ e = "$a" := by simpa [forkedSets,values] using hvalues
      rcases this with rfl | rfl
      · exact .inl (mem_inFlight.mpr (.inl rfl))
      · exact .inr rfl)
    (some ["$c","$a"]) (by decide)

/-- Without a state set there is no first set of unpersisted events to look at. -/
theorem getAuthChainDifference_no_sets :
    Splits lineRoom id inFlight {"$a"} ∧ ExactOn lineRoom {"$a"} flatStore ∧
      getAuthChainDifference id .listed [] inFlight flatStore none =
        .error (.raised "IndexError") :=
  ⟨inFlight_splits,flatStore_exact,rfl⟩

end TextrpBriij.State.V2
