import TextrpBriij.AuthChain.CoverExact
import TextrpBriij.AuthChain.Materialize

/-! # Events without a chain in an auth chain difference

The events without a chain are followed to the first ones that have a chain, and take their
place in the state sets. What is left has the same auth chains on the events with a chain.
-/
namespace TextrpBriij.AuthChain
open ChainCover Util Relation List AList Fallible

/-- The stored auth events of a room, with an exact index of some of the events. The others
wait in `event_auth_chain_to_calculate`, and no event with a chain needs one of them. -/
structure Database.Covers (room : Room) (db : Database) : Prop where
  auth : ∀ e a, a ∈ room.auth e ↔ a ∈ db.authIds e
  exact : db.Exact room
  closed : ∀ e a, e ∈ db.eventAuthChains → a ∈ room.auth e → a ∈ db.eventAuthChains
  apart : ∀ e ∈ db.eventAuthChainToCalculate, e ∉ db.eventAuthChains
  persisted : ∀ e, room.auth e ≠ [] → e ∈ db.eventAuthChains ∨ e ∈ db.eventAuthChainToCalculate
  place_pos : ∀ e p, db.eventAuthChains.lookup e = some p → 1 ≤ p.2
  origin_pos : ∀ l ∈ db.eventAuthChainLinks, 1 ≤ l.origin.2

/-- The event is in the state set or in the auth chain of one of its events. -/
def Room.InChain (room : Room) (stateSet : List String) (e : String) : Prop :=
  ∃ a ∈ stateSet, ReflTransGen room.edge a e

/-- The event is in the auth chain of some of the state sets, but not of all. -/
def Room.Differs (room : Room) (stateSets : List (List String)) (e : String) : Prop :=
  (∃ s ∈ stateSets, room.InChain s e) ∧ ¬∀ s ∈ stateSets, room.InChain s e

variable {room : Room} {db : Database} {ch : Choices} {info : ChainInfo} {e : String}

theorem Database.Covers.indexed_of_reach (h : db.Covers room) {f : String}
    (he : e ∈ db.eventAuthChains) (hr : ReflTransGen room.edge e f) : f ∈ db.eventAuthChains := by
  induction hr with
  | refl => exact he
  | tail _ hedge ih => exact h.closed _ _ ih hedge

structure ChainInfo.Holds (db : Database) (info : ChainInfo) (loaded : Set String) : Prop where
  chainInfo : ∀ e p, info.chainInfo.lookup e = some p ↔ e ∈ loaded ∧ db.eventAuthChains.lookup e = some p
  chainToEvent : ∀ e p, info.chainToEvent.lookup p = some e ↔ info.chainInfo.lookup e = some p
  seen : ∀ c, c ∈ info.seenChains ↔ ∃ e p, info.chainInfo.lookup e = some p ∧ p.1 = c
  nodup : info.seenChains.Nodup

theorem ChainInfo.Holds.empty (db : Database) : ChainInfo.Holds db ⟨∅,∅,[]⟩ ∅ :=
  ⟨by simp,by simp,by simp,by simp⟩

theorem ChainInfo.Holds.congr {loaded loaded' : Set String} (h : info.Holds db loaded)
    (hsame : ∀ e ∈ db.eventAuthChains, e ∈ loaded ↔ e ∈ loaded') : info.Holds db loaded' := by
  refine ⟨fun e p => ?_,h.chainToEvent,h.seen,h.nodup⟩
  rw [h.chainInfo e p]
  apply and_congr_left
  intro hp
  exact hsame e (Dict.mem_iff.mpr ⟨p,hp⟩)

theorem ChainInfo.Holds.addRow {loaded : Set String} (h : info.Holds db loaded)
    (hexact : db.Exact room) {row : Sigma fun _ : String => Place ℕ}
    (hrow : db.eventAuthChains.lookup row.1 = some row.2) :
    (info.addRow row).Holds db (Insert.insert row.1 loaded) := by
  obtain ⟨e,p⟩ := row
  have hinfo : ∀ f q, (info.addRow ⟨e,p⟩).chainInfo.lookup f = some q ↔
      (f = e ∨ f ∈ loaded) ∧ db.eventAuthChains.lookup f = some q := by
    intro f q
    by_cases heq : f = e
    · subst heq
      simp [ChainInfo.addRow,hrow]
    · simp [ChainInfo.addRow,h.chainInfo,heq]
  refine ⟨hinfo,fun f q => ?_,fun c => ?_,h.nodup.insert⟩
  · rw [hinfo]
    by_cases heq : q = p
    · subst heq
      -- no two events are at one place
      simp only [ChainInfo.addRow,lookup_insert,Option.some.injEq]
      constructor
      · intro hf
        subst hf
        exact ⟨.inl rfl,hrow⟩
      · intro hf
        exact hexact.unique hrow hf.2
    · have hne : f = e → db.eventAuthChains.lookup f ≠ some q := by
        intro hf hq
        subst hf
        exact heq (Option.some.inj (hq.symm.trans hrow))
      rw [ChainInfo.addRow,lookup_insert_ne heq,h.chainToEvent,h.chainInfo]
      tauto
  · rw [ChainInfo.addRow,mem_insert_iff,h.seen]
    constructor
    · rintro (rfl | ⟨f,q,hf,rfl⟩)
      · exact ⟨e,p,(hinfo e p).mpr ⟨.inl rfl,hrow⟩,rfl⟩
      · have hold := (h.chainInfo f q).mp hf
        exact ⟨f,q,(hinfo f q).mpr ⟨.inr hold.1,hold.2⟩,rfl⟩
    · rintro ⟨f,q,hf,rfl⟩
      rcases (hinfo f q).mp hf with ⟨hfe | hin,hq⟩
      · subst hfe
        exact .inl (congrArg Prod.fst (Option.some.inj (hq.symm.trans hrow)))
      · exact .inr ⟨f,q,(h.chainInfo f q).mpr ⟨hin,hq⟩,rfl⟩

theorem fetchChainInfo_holds {loaded : Set String} (hexact : db.Exact room)
    (h : info.Holds db loaded) (events : List String) :
    (fetchChainInfo db events info).Holds db (loaded ∪ {e | e ∈ events}) := by
  have hrows : ∀ rows ⊆ db.eventAuthChains.entries, (rows.foldl ChainInfo.addRow info).Holds db
      (loaded ∪ {e | e ∈ rows.map fun row => row.1}) := by
    intro rows hsub
    apply foldl_spec (fun (pre : List (Sigma fun _ : String => Place ℕ)) t =>
      ChainInfo.Holds db t (loaded ∪ {e | e ∈ pre.map fun row => row.1}))
    · exact h.congr (by simp)
    intro pre row rest t hsplit ht
    have hrow : row ∈ rows := by simp [hsplit]
    apply (ht.addRow hexact (mem_lookup_iff.mpr (hsub hrow))).congr
    intro e _
    simp only [Set.mem_insert_iff,Set.mem_union,Set.mem_ofPred_eq,map_append,
      map_cons,map_nil,mem_append,mem_singleton]
    rw [or_comm,or_assoc]
  have hfetch : fetchChainInfo db events info = ((batchIter events 1000).flatMap fun batch =>
      db.eventAuthChains.entries.filter fun row => row.1 ∈ batch).foldl ChainInfo.addRow info := by
    rw [foldl_flatMap]
    rfl
  rw [hfetch]
  refine (hrows _ fun row hrow => ?_).congr fun e he => ?_
  · obtain ⟨batch,-,hrow⟩ := mem_flatMap.mp hrow
    exact (mem_filter.mp hrow).1
  · obtain ⟨p,hp⟩ := Dict.mem_iff.mp he
    have hevents : e ∈ events ↔ ∃ batch ∈ batchIter events 1000, e ∈ batch :=
      mem_batches (by omega) e _ le_rfl
    simp only [Set.mem_union,Set.mem_ofPred_eq,hevents,mem_map,mem_flatMap,mem_filter,decide_eq_true_eq]
    refine or_congr_right ⟨?_,?_⟩
    · rintro ⟨row,⟨batch,hbatch,-,hin⟩,rfl⟩
      exact ⟨batch,hbatch,hin⟩
    · rintro ⟨batch,hbatch,hin⟩
      exact ⟨⟨e,p⟩,⟨batch,hbatch,mem_lookup_iff.mp hp,hin⟩,rfl⟩

theorem Database.mem_toCalculateRows {o : Option (String × Bool)} :
    (e,o) ∈ db.toCalculateRows ↔ e ∈ db.eventAuthChainToCalculate ∧ ((db.authIds e = [] ∧ o = none) ∨
        ∃ a ∈ db.authIds e, o = some (a,decide (a ∈ db.eventAuthChains))) := by
  rw [toCalculateRows,mem_flatMap]
  constructor
  · rintro ⟨f,hf,hrow⟩
    split at hrow
    case isTrue hnil =>
      cases mem_singleton.mp hrow
      exact ⟨hf,.inl ⟨hnil,rfl⟩⟩
    case isFalse =>
      obtain ⟨a,ha,heq⟩ := mem_map.mp hrow
      cases heq
      exact ⟨hf,.inr ⟨a,ha,rfl⟩⟩
  · rintro ⟨he,⟨hnil,rfl⟩ | ⟨a,ha,rfl⟩⟩
    · exact ⟨e,he,by simp [hnil]⟩
    · refine ⟨e,he,?_⟩
      rw [if_neg (ne_nil_of_mem ha)]
      exact mem_map.mpr ⟨a,ha,rfl⟩

theorem Database.exists_toCalculateRow : (∃ o, (e,o) ∈ db.toCalculateRows) ↔ e ∈ db.eventAuthChainToCalculate := by
  refine ⟨fun ⟨o,ho⟩ => (mem_toCalculateRows.mp ho).1,fun he => ?_⟩
  by_cases hnil : db.authIds e = []
  · exact ⟨_,mem_toCalculateRows.mpr ⟨he,.inl ⟨hnil,rfl⟩⟩⟩
  · obtain ⟨a,ha⟩ := exists_mem_of_ne_nil _ hnil
    exact ⟨_,mem_toCalculateRows.mpr ⟨he,.inr ⟨a,ha,rfl⟩⟩⟩

structure Unindexed.Collected (known : List String) (rows : List (String × Option (String × Bool)))
    (u : Unindexed) : Prop where
  keys : ∀ e, e ∈ u.eventToAuthIds ↔ ∃ o, (e,o) ∈ rows
  auth : ∀ e l, u.eventToAuthIds.lookup e = some l →
    l.Nodup ∧ ∀ a, a ∈ l ↔ ∃ hasChain, (e,some (a,hasChain)) ∈ rows
  index : ∀ a, a ∈ u.haveChainIndex ↔ a ∈ known ∨ ∃ e, (e,some (a,true)) ∈ rows

variable {rows : List (String × Option (String × Bool))} {known : List String}

theorem Unindexed.Collected.getD {u : Unindexed} (h : u.Collected known rows)
    (e : String) : ((u.eventToAuthIds.lookup e).getD []).Nodup ∧
      ∀ a, a ∈ (u.eventToAuthIds.lookup e).getD [] ↔ ∃ hasChain, (e,some (a,hasChain)) ∈ rows := by
  cases hlookup : u.eventToAuthIds.lookup e with
  | some l => exact h.auth e l hlookup
  | none =>
    have hnone : ∀ o, (e,o) ∉ rows := by
      intro o ho
      exact lookup_eq_none.mp hlookup ((h.keys e).mpr ⟨o,ho⟩)
    simp [hnone]

theorem Unindexed.Collected.addRow {u : Unindexed} (h : u.Collected known rows)
    (row : String × Option (String × Bool)) : (u.addRow row).Collected known (rows ++ [row]) := by
  obtain ⟨e,o⟩ := row
  obtain ⟨hnodup,hmem⟩ := h.getD e
  cases o with
  | none =>
    refine ⟨fun f => ?_,fun f l hl => ?_,fun a => ?_⟩
    · simp [Unindexed.addRow,h.keys,exists_or,or_comm]
    · rcases Entries.insert_cases hl with ⟨rfl,rfl⟩ | ⟨heq,hold⟩
      · exact ⟨hnodup,fun a => by simp [hmem]⟩
      · simpa using h.auth f l hold
    · simp [Unindexed.addRow,h.index]
  | some value =>
    obtain ⟨a,hasChain⟩ := value
    refine ⟨fun f => ?_,fun f l hl => ?_,fun b => ?_⟩
    · simp [Unindexed.addRow,h.keys,exists_or,or_comm]
    · rcases Entries.insert_cases hl with ⟨rfl,rfl⟩ | ⟨heq,hold⟩
      · refine ⟨hnodup.insert,fun b => ?_⟩
        simp [hmem,exists_or,or_comm]
      · simpa [heq] using h.auth f l hold
    · cases hasChain <;> simp [Unindexed.addRow,h.index,exists_or,or_comm,or_left_comm]

theorem toCalculateRows_collected (rows : List (String × Option (String × Bool)))
    (known : List String) : (rows.foldl Unindexed.addRow ⟨∅,known⟩).Collected known rows := by
  apply foldl_spec (fun pre u => Unindexed.Collected known pre u)
  · exact ⟨by simp,by simp,by simp⟩
  · intro pre row post u _ hu
    exact hu.addRow row

def Unindexed.step (auth : Dict String (List String)) (e a : String) : Prop :=
  ∃ l, auth.lookup e = some l ∧ a ∈ l

structure PartialChain (auth : Dict String (List String)) (all : Finset String)
    (processing toAdd : List String) : Prop where
  nodup : processing.Nodup
  mem_all : ∀ a ∈ processing, a ∈ all
  fresh : ∀ a ∈ processing, a ∉ toAdd
  closed : ∀ e ∈ toAdd, ∀ a, Unindexed.step auth e a → a ∈ toAdd ∨ a ∈ processing

def Found (auth : Dict String (List String)) (processing toAdd : List String) (a : String) : Prop :=
  a ∈ toAdd ∨ ∃ b ∈ processing, ReflTransGen (Unindexed.step auth) b a

section partialChain
variable {auth : Dict String (List String)} {all : Finset String}
  {processing next rest toAdd : List String} {a b : String}

theorem PartialChain.found_of_reach (h : PartialChain auth all processing toAdd) (hb : b ∈ toAdd)
    (hr : ReflTransGen (Unindexed.step auth) b a) : Found auth processing toAdd a := by
  induction hr with
  | refl => exact .inl hb
  | tail _ hstep ih =>
    rcases ih with hin | ⟨c,hc,hr⟩
    · rcases h.closed _ hin _ hstep with hin | hin
      · exact .inl hin
      · exact .inr ⟨_,hin,.refl⟩
    · exact .inr ⟨c,hc,hr.tail hstep⟩

theorem PartialChain.round (h : PartialChain auth all processing toAdd)
    (hall : ∀ e a, Unindexed.step auth e a → a ∈ all) (hperm : (b :: rest).Perm processing)
    (hnodup : next.Nodup)
    (hnext : ∀ c, c ∈ next ↔ c ∈ rest ∨ Unindexed.step auth b c ∧ c ∉ toAdd.insert b) :
    PartialChain auth all next (toAdd.insert b) := by
  have hrest : b ∉ rest := (nodup_cons.mp (hperm.nodup_iff.mpr h.nodup)).1
  have hmem : ∀ c, c ∈ processing ↔ c = b ∨ c ∈ rest := by
    intro c
    rw [← hperm.mem_iff,mem_cons]
  refine ⟨hnodup,fun c hc => ?_,fun c hc => ?_,fun e he c hstep => ?_⟩
  · rcases (hnext c).mp hc with hc | hc
    · exact h.mem_all c ((hmem c).mpr (.inr hc))
    · exact hall b c hc.1
  · rcases (hnext c).mp hc with hc | hc
    · rw [mem_insert_iff,not_or]
      exact ⟨fun heq => hrest (heq ▸ hc),h.fresh c ((hmem c).mpr (.inr hc))⟩
    · exact hc.2
  · by_cases hc : c ∈ toAdd.insert b
    · exact .inl hc
    apply Or.inr
    rcases mem_insert_iff.mp he with rfl | he
    · exact (hnext c).mpr (.inr ⟨hstep,hc⟩)
    · rw [mem_insert_iff,not_or] at hc
      have hin := (h.closed e he c hstep).resolve_left hc.2
      exact (hnext c).mpr (.inl (((hmem c).mp hin).resolve_left hc.1))

theorem PartialChain.found_round (h : PartialChain auth all next (toAdd.insert b))
    (hperm : (b :: rest).Perm processing)
    (hnext : ∀ c, c ∈ next ↔ c ∈ rest ∨ Unindexed.step auth b c ∧ c ∉ toAdd.insert b) :
    Found auth next (toAdd.insert b) a ↔ Found auth processing toAdd a := by
  constructor
  · rintro (hin | ⟨c,hc,hr⟩)
    · rcases mem_insert_iff.mp hin with rfl | hin
      · exact .inr ⟨_,hperm.subset mem_cons_self,.refl⟩
      · exact .inl hin
    · rcases (hnext c).mp hc with hc | ⟨hstep,-⟩
      · exact .inr ⟨c,hperm.subset (mem_cons_of_mem _ hc),hr⟩
      · exact .inr ⟨b,hperm.subset mem_cons_self,.head hstep hr⟩
  · rintro (hin | ⟨c,hc,hr⟩)
    · exact .inl (mem_insert_of_mem hin)
    · rcases mem_cons.mp (hperm.symm.subset hc) with rfl | hc
      · exact h.found_of_reach mem_insert_self hr
      · exact .inr ⟨c,(hnext c).mpr (.inl hc),hr⟩

theorem partialAuthChain_spec (ch : Choices) (hnodup : ∀ e l, auth.lookup e = some l → l.Nodup)
    (hall : ∀ e a, Unindexed.step auth e a → a ∈ all) (fuel : ℕ)
    (h : PartialChain auth all processing toAdd) (hfuel : (all \ toAdd.toFinset).card < fuel) :
    a ∈ partialAuthChain ch auth fuel processing toAdd ↔ Found auth processing toAdd a := by
  induction fuel generalizing processing toAdd with
  | zero => omega
  | succ fuel ih =>
    have hperm := ch.arrange_perm processing
    rw [partialAuthChain]
    cases harrange : ch.arrange processing with
    | nil =>
      rw [harrange] at hperm
      simp [Found,hperm.symm.eq_nil]
    | cons b rest =>
      rw [harrange] at hperm
      have hb : b ∈ processing := hperm.subset mem_cons_self
      have hrest := (nodup_cons.mp (hperm.nodup_iff.mpr h.nodup)).2
      have hless : (all \ (toAdd.insert b).toFinset).card < fuel := by
        have hlt : (all \ (toAdd.insert b).toFinset).card < (all \ toAdd.toFinset).card := by
          apply Finset.card_lt_card
          rw [Finset.ssubset_iff_of_subset]
          · exact ⟨b,by simp [h.mem_all b hb,h.fresh b hb],by simp⟩
          · intro c
            simp only [Finset.mem_sdiff,mem_toFinset,mem_insert_iff]
            tauto
        omega
      cases hlookup : auth.lookup b with
      | none =>
        have hnext : ∀ c, c ∈ rest ↔ c ∈ rest ∨ Unindexed.step auth b c ∧ c ∉ toAdd.insert b := by
          simp [Unindexed.step,hlookup]
        have hchain := h.round hall hperm hrest hnext
        simp only [hlookup]
        exact (ih hchain hless).trans (hchain.found_round hperm hnext)
      | some sub =>
        have hnext : ∀ c, c ∈ rest ∪ sub.filter (· ∉ toAdd.insert b) ↔
            c ∈ rest ∨ Unindexed.step auth b c ∧ c ∉ toAdd.insert b := by
          simp [Unindexed.step,hlookup]
        have hunion := Nodup.union rest ((hnodup b sub hlookup).filter (· ∉ toAdd.insert b))
        have hchain := h.round hall hperm hunion hnext
        simp only [hlookup]
        exact (ih hchain hless).trans (hchain.found_round hperm hnext)

end partialChain

theorem foldl_fixupAuth (haveChainIndex chain : List String) (s : List String × List String) :
    (∀ x, x ∈ (chain.foldl (fixupAuth haveChainIndex) s).1 ↔ x ∈ s.1 ∨ x ∈ chain ∧ x ∈ haveChainIndex) ∧
    ∀ x, x ∈ (chain.foldl (fixupAuth haveChainIndex) s).2 ↔ x ∈ s.2 ∨ x ∈ chain ∧ x ∉ haveChainIndex := by
  induction chain generalizing s with
  | nil => simp
  | cons a chain ih =>
    rw [foldl_cons]
    obtain ⟨hfst,hsnd⟩ := ih (fixupAuth haveChainIndex s a)
    simp only [hfst,hsnd,mem_cons]
    unfold fixupAuth
    split <;> grind

theorem mem_fixupEvent (haveChainIndex : List String) {s : List String × List String}
    {entry : String × List String} (h : entry.1 ∈ s.1) :
    (∀ x, x ∈ (fixupEvent haveChainIndex s entry).1 ↔
      (x ∈ s.1 ∧ x ≠ entry.1 ∧ x ∉ entry.2) ∨ x ∈ entry.2 ∧ x ∈ haveChainIndex) ∧
    ∀ x, x ∈ (fixupEvent haveChainIndex s entry).2 ↔
      (x = entry.1 ∨ x ∈ s.2) ∨ x ∈ entry.2 ∧ x ∉ haveChainIndex := by
  rw [fixupEvent,if_neg (not_not.mpr h)]
  obtain ⟨hfst,hsnd⟩ := foldl_fixupAuth haveChainIndex entry.2
    ((s.1.filter (· ≠ entry.1)).filter (· ∉ entry.2),s.2.insert entry.1)
  refine ⟨fun x => ?_,fun x => ?_⟩
  · rw [hfst]
    simp [and_comm]
  · rw [hsnd,mem_insert_iff]

def Database.waitingEdge (room : Room) (db : Database) (e a : String) : Prop :=
  e ∈ db.eventAuthChainToCalculate ∧ room.edge e a

/-- An event without a chain, with its auth chain up to the first events with a chain. -/
structure PartialEntry (room : Room) (db : Database) (haveChainIndex : List String)
    (entry : String × List String) : Prop where
  waits : entry.1 ∈ db.eventAuthChainToCalculate
  chain : ∀ a, a ∈ entry.2 ↔ TransGen (db.waitingEdge room) entry.1 a
  index : ∀ a ∈ entry.2, a ∈ haveChainIndex ↔ a ∈ db.eventAuthChains

structure FixedUp (room : Room) (db : Database) (stateSet : List String)
    (done : List (String × List String)) (s : List String × List String) : Prop where
  sub : ∀ x ∈ s.1, x ∈ stateSet ∨ x ∈ db.eventAuthChains
  reach : ∀ x, x ∈ s.1 ∨ x ∈ s.2 → room.InChain stateSet x
  unindexed : ∀ x ∈ s.2, x ∉ db.eventAuthChains
  indexed : ∀ x ∈ stateSet, x ∈ db.eventAuthChains → x ∈ s.1
  keeps : ∀ x ∈ stateSet, x ∉ db.eventAuthChains → x ∈ s.1 ∨ x ∈ s.2
  closed : ∀ x ∈ s.2, ∀ a, db.waitingEdge room x a →
    if a ∈ db.eventAuthChains then a ∈ s.1 else a ∈ s.2
  gone : ∀ entry ∈ done, entry.1 ∉ s.1

theorem FixedUp.start (room : Room) (db : Database) (stateSet : List String) :
    FixedUp room db stateSet [] (stateSet,[]) where
  sub _ hx := .inl hx
  reach x hx := ⟨x,hx.resolve_right not_mem_nil,.refl⟩
  unindexed _ hx := absurd hx not_mem_nil
  indexed _ hx _ := hx
  keeps _ hx _ := .inl hx
  closed _ hx := absurd hx not_mem_nil
  gone _ he := absurd he not_mem_nil

theorem Database.waitingEdge.reach {a : String} (h : TransGen (db.waitingEdge room) e a) :
    ReflTransGen room.edge e a :=
  (TransGen.mono (fun _ _ hedge => hedge.2) _ _ h).to_reflTransGen

section fixup
variable {stateSet haveChainIndex : List String} {s : List String × List String}
  {done : List (String × List String)} {entry : String × List String}

theorem FixedUp.step (hdb : db.Covers room) (h : FixedUp room db stateSet done s)
    (hentry : PartialEntry room db haveChainIndex entry)
    (hdone : ∀ other ∈ done, other.1 ∉ db.eventAuthChains) :
    FixedUp room db stateSet (done ++ [entry]) (fixupEvent haveChainIndex s entry) := by
  have hunindexed := hdb.apart entry.1 hentry.waits
  by_cases hin : entry.1 ∈ s.1
  case neg =>
    rw [fixupEvent,if_pos hin]
    exact { h with gone := forall_mem_append.mpr ⟨h.gone,forall_mem_singleton.mpr hin⟩ }
  case pos =>
    obtain ⟨hfst,hsnd⟩ := mem_fixupEvent haveChainIndex hin
    have hchain : ∀ a ∈ entry.2, room.InChain stateSet a := by
      intro a ha
      obtain ⟨b,hb,hr⟩ := h.reach entry.1 (.inl hin)
      exact ⟨b,hb,hr.trans (Database.waitingEdge.reach ((hentry.chain a).mp ha))⟩
    -- where an event of the partial auth chain goes
    have hplace : ∀ a ∈ entry.2, if a ∈ db.eventAuthChains
        then a ∈ (fixupEvent haveChainIndex s entry).1
        else a ∈ (fixupEvent haveChainIndex s entry).2 := by
      intro a ha
      split
      case isTrue hindex => exact (hfst a).mpr (.inr ⟨ha,(hentry.index a ha).mpr hindex⟩)
      case isFalse hindex =>
        exact (hsnd a).mpr (.inr ⟨ha,fun hhave => hindex ((hentry.index a ha).mp hhave)⟩)
    -- an event with a chain stays
    have hstays : ∀ a ∈ s.1, a ∈ db.eventAuthChains → a ∈ (fixupEvent haveChainIndex s entry).1 := by
      intro a ha hindex
      by_cases hmem : a ∈ entry.2
      · simpa [hindex] using hplace a hmem
      · exact (hfst a).mpr (.inl ⟨ha,fun heq => hunindexed (heq ▸ hindex),hmem⟩)
    refine ⟨?_,?_,?_,fun x hx hindex => hstays x (h.indexed x hx hindex) hindex,?_,?_,?_⟩
    · intro x hx
      rcases (hfst x).mp hx with ⟨hx,-⟩ | ⟨hmem,hhave⟩
      · exact h.sub x hx
      · exact .inr ((hentry.index x hmem).mp hhave)
    · intro x hx
      rw [hfst,hsnd] at hx
      rcases hx with (⟨hx,-⟩ | ⟨hmem,-⟩) | ((rfl | hx) | ⟨hmem,-⟩)
      · exact h.reach x (.inl hx)
      · exact hchain x hmem
      · exact h.reach _ (.inl hin)
      · exact h.reach x (.inr hx)
      · exact hchain x hmem
    · intro x hx
      rcases (hsnd x).mp hx with (rfl | hx) | ⟨hmem,hnot⟩
      · exact hunindexed
      · exact h.unindexed x hx
      · exact fun hindex => hnot ((hentry.index x hmem).mpr hindex)
    · intro x hx hindex
      by_cases hmem : x ∈ entry.2
      · apply Or.inr
        simpa [hindex] using hplace x hmem
      rcases h.keeps x hx hindex with hx | hx
      · by_cases heq : x = entry.1
        · exact .inr ((hsnd x).mpr (.inl (.inl heq)))
        · exact .inl ((hfst x).mpr (.inl ⟨hx,heq,hmem⟩))
      · exact .inr ((hsnd x).mpr (.inl (.inr hx)))
    · intro x hx a hedge
      rcases (hsnd x).mp hx with (rfl | hx) | ⟨hmem,-⟩
      · exact hplace a ((hentry.chain a).mpr (.single hedge))
      · have hold := h.closed x hx a hedge
        split at hold
        case isTrue hindex =>
          rw [if_pos hindex]
          exact hstays a hold hindex
        case isFalse hindex =>
          rw [if_neg hindex]
          exact (hsnd a).mpr (.inl (.inr hold))
      · exact hplace a ((hentry.chain a).mpr (((hentry.chain x).mp hmem).tail hedge))
    · intro other hother hx
      have hother' : other.1 ∉ db.eventAuthChains ∧ (other.1 ∉ s.1 ∨ other.1 = entry.1) := by
        rcases mem_append.mp hother with hother | hother
        · exact ⟨hdone other hother,.inl (h.gone other hother)⟩
        · rw [mem_singleton.mp hother]
          exact ⟨hunindexed,.inr rfl⟩
      rcases (hfst other.1).mp hx with ⟨hx,hne,-⟩ | ⟨hmem,hhave⟩
      · exact hother'.2.elim (fun hnot => hnot hx) hne
      · exact hother'.1 ((hentry.index _ hmem).mp hhave)

/-- A state set is split: events with a chain that have the same auth chain as far as events
have chains, and all other events of its auth chain. -/
structure Split (room : Room) (db : Database) (stateSet : List String)
    (s : List String × List String) : Prop where
  indexed : ∀ x ∈ s.1, x ∈ db.eventAuthChains
  chain : ∀ x ∈ db.eventAuthChains, room.InChain stateSet x ↔ room.InChain s.1 x
  unindexed : ∀ x ∈ s.2, x ∉ db.eventAuthChains
  rest : ∀ x, x ∉ db.eventAuthChains → (room.InChain stateSet x ↔ x ∈ s.2)

theorem FixedUp.split (hdb : db.Covers room) (h : FixedUp room db stateSet done s)
    (hset : ∀ x ∈ stateSet, x ∈ db.eventAuthChains ∨ x ∈ db.eventAuthChainToCalculate)
    (hdone : ∀ x ∈ stateSet, x ∈ db.eventAuthChainToCalculate → ∃ entry ∈ done, entry.1 = x) :
    Split room db stateSet s := by
  have hindexed : ∀ x ∈ s.1, x ∈ db.eventAuthChains := by
    intro x hx
    rcases h.sub x hx with hin | hin
    · rcases hset x hin with hindex | hwaits
      · exact hindex
      · obtain ⟨entry,hentry,rfl⟩ := hdone x hin hwaits
        exact absurd hx (h.gone entry hentry)
    · exact hin
  -- along a path from the state set: the first event with a chain is in the new set
  have hpath : ∀ {a x}, a ∈ stateSet → ReflTransGen room.edge a x →
      if x ∈ db.eventAuthChains then room.InChain s.1 x else x ∈ s.2 := by
    intro a x ha hr
    induction hr with
    | refl =>
      split
      case isTrue hindex => exact ⟨a,h.indexed a ha hindex,.refl⟩
      case isFalse hindex =>
        exact (h.keeps a ha hindex).resolve_left fun hin => hindex (hindexed a hin)
    | @tail b c _ hedge ih =>
      split at ih
      case isTrue hindex =>
        rw [if_pos (hdb.closed b c hindex hedge)]
        obtain ⟨d,hd,hr⟩ := ih
        exact ⟨d,hd,hr.tail hedge⟩
      case isFalse hindex =>
        have hwaits := (hdb.persisted b (ne_nil_of_mem hedge)).resolve_left hindex
        have hnext := h.closed b ih c ⟨hwaits,hedge⟩
        split at hnext
        case isTrue hc =>
          rw [if_pos hc]
          exact ⟨c,hnext,.refl⟩
        case isFalse hc =>
          rw [if_neg hc]
          exact hnext
  refine ⟨hindexed,fun x hx => ⟨?_,?_⟩,h.unindexed,fun x hx => ⟨?_,fun hin => h.reach x (.inr hin)⟩⟩
  · rintro ⟨a,ha,hr⟩
    simpa [hx] using hpath ha hr
  · rintro ⟨b,hb,hr⟩
    obtain ⟨a,ha,hr'⟩ := h.reach b (.inl hb)
    exact ⟨a,ha,hr'.trans hr⟩
  · rintro ⟨a,ha,hr⟩
    simpa [hx] using hpath ha hr

end fixup

theorem mem_unionMinusIntersection {sets : List (List String)} :
    e ∈ unionMinusIntersection sets ↔ (∃ s ∈ sets, e ∈ s) ∧ ¬∀ s ∈ sets, e ∈ s := by
  simp [unionMinusIntersection]

theorem partialEntry_of_collected (hdb : db.Covers room) (ch : Choices)
    (hknown : ∀ e ∈ known, e ∈ db.eventAuthChains) {u : Unindexed}
    (hu : u.Collected known db.toCalculateRows) {l : List String}
    (hl : u.eventToAuthIds.lookup e = some l) : PartialEntry room db u.haveChainIndex
      (e,partialAuthChain ch u.eventToAuthIds (db.eventAuth.length + 1) l []) := by
  have hstep : Unindexed.step u.eventToAuthIds = db.waitingEdge room := by
    funext f a
    have hmem : Unindexed.step u.eventToAuthIds f a ↔ a ∈ (u.eventToAuthIds.lookup f).getD [] := by
      cases hl' : u.eventToAuthIds.lookup f <;> simp [Unindexed.step,hl']
    rw [hmem,(hu.getD f).2,Database.waitingEdge,Room.edge,hdb.auth]
    simp [Database.mem_toCalculateRows]
  let all := (db.eventAuth.map fun row => row.2).toFinset
  have hall : ∀ f a, Unindexed.step u.eventToAuthIds f a → a ∈ all := by
    intro f a hfa
    rw [hstep] at hfa
    obtain ⟨row,hrow,rfl⟩ := mem_map.mp ((hdb.auth f a).mp hfa.2)
    exact mem_toFinset.mpr (mem_map_of_mem (mem_filter.mp hrow).1)
  have hchain : ∀ a, a ∈ partialAuthChain ch u.eventToAuthIds (db.eventAuth.length + 1) l [] ↔
      TransGen (db.waitingEdge room) e a := by
    intro a
    have hstart : PartialChain u.eventToAuthIds all l [] :=
      ⟨(hu.auth e l hl).1,fun b hb => hall e b ⟨l,hl,hb⟩,by simp,by simp⟩
    have hfuel : (all \ ([] : List String).toFinset).card < db.eventAuth.length + 1 := by
      have hle : all.card ≤ (db.eventAuth.map fun row => row.2).length := toFinset_card_le _
      rw [length_map] at hle
      simp only [toFinset_nil,Finset.sdiff_empty]
      omega
    rw [partialAuthChain_spec ch (fun f l' hl' => (hu.auth f l' hl').1) hall _ hstart hfuel,
      TransGen.head'_iff,← hstep]
    simp [Found,Unindexed.step,hl]
  refine ⟨Database.exists_toCalculateRow.mp ((hu.keys e).mp (Dict.mem_iff.mpr ⟨l,hl⟩)),hchain,fun a ha => ?_⟩
  rw [hu.index]
  constructor
  · rintro (hin | ⟨f,hf⟩)
    · exact hknown a hin
    · rcases (Database.mem_toCalculateRows.mp hf).2 with ⟨-,hnone⟩ | ⟨b,-,hsome⟩
      · cases hnone
      · obtain ⟨rfl,htrue⟩ := Prod.mk.inj (Option.some.inj hsome)
        exact of_decide_eq_true htrue.symm
  · intro hindex
    obtain ⟨f,-,hwaits,hedge⟩ := TransGen.tail'_iff.mp ((hchain a).mp ha)
    refine .inr ⟨f,Database.mem_toCalculateRows.mpr ⟨hwaits,.inr ⟨a,(hdb.auth f a).mp hedge,?_⟩⟩⟩
    rw [decide_eq_true hindex]

variable {stateSets : List (List String)}

theorem fixupAuthChainDifferenceSets_ok (hdb : db.Covers room) (ch : Choices)
    (hsets : ∀ s ∈ stateSets, ∀ e ∈ s, e ∈ db.eventAuthChains ∨ e ∈ db.eventAuthChainToCalculate)
    (missing known : List String) (hmissing : ∀ e ∈ missing, e ∈ db.eventAuthChainToCalculate)
    (hknown : ∀ e ∈ known, e ∈ db.eventAuthChains) :
    ∃ fixed : List String → List String × List String,
      fixupAuthChainDifferenceSets ch db stateSets missing known =
        .ok (unionMinusIntersection (stateSets.map fun s => (fixed s).2), stateSets.map fun s => (fixed s).1) ∧
      ∀ s ∈ stateSets, Split room db s (fixed s) := by
  have hu := toCalculateRows_collected db.toCalculateRows known
  rw [fixupAuthChainDifferenceSets]
  generalize db.toCalculateRows.foldl Unindexed.addRow ⟨∅,known⟩ = u at hu
  have hkeys := fun e => (hu.keys e).trans Database.exists_toCalculateRow
  have hfound : (missing.any fun e => decide (e ∉ u.eventToAuthIds)) = false := by
    rw [any_eq_false]
    intro e he
    simpa [hkeys] using hmissing e he
  let entries := (u.eventToAuthIds.entries.filter fun entry =>
    stateSets.any fun s => entry.1 ∈ s).map fun entry =>
      (entry.1,partialAuthChain ch u.eventToAuthIds (db.eventAuth.length + 1) entry.2 [])
  have hentries : ∀ entry ∈ entries, PartialEntry room db u.haveChainIndex entry := by
    intro entry hentry
    obtain ⟨row,hrow,rfl⟩ := mem_map.mp hentry
    exact partialEntry_of_collected hdb ch hknown hu (mem_lookup_iff.mpr (mem_filter.mp hrow).1)
  refine ⟨fun s => entries.foldl (fixupEvent u.haveChainIndex) (s,[]),?_,fun s hs => ?_⟩
  · simp only [hfound,List.map_map]
    rfl
  · have hfixed : FixedUp room db s entries (entries.foldl (fixupEvent u.haveChainIndex) (s,[])) := by
      apply foldl_spec (fun pre t => FixedUp room db s pre t) (.start room db s)
      intro pre entry post t hsplit ht
      apply ht.step hdb (hentries entry (by simp [hsplit]))
      intro other hother
      exact hdb.apart _ (hentries other (by simp [hsplit,hother])).waits
    apply hfixed.split hdb (hsets s hs)
    intro x hx hwaits
    obtain ⟨l,hl⟩ := Dict.mem_iff.mp ((hkeys x).mpr hwaits)
    have hused : (stateSets.any fun s => decide (x ∈ s)) = true :=
      any_eq_true.mpr ⟨s,hs,decide_eq_true hx⟩
    exact ⟨_,mem_map.mpr ⟨⟨x,l⟩,mem_filter.mpr ⟨mem_lookup_iff.mp hl,hused⟩,rfl⟩,rfl⟩

structure Prepared (room : Room) (db : Database) (stateSets : List (List String))
    (difference : List String) (indexed : List String → List String) (info : ChainInfo) : Prop where
  known : ∀ s ∈ stateSets, ∀ e ∈ indexed s, ∃ p, info.chainInfo.lookup e = some p
  chain : ∀ s ∈ stateSets, ∀ e ∈ db.eventAuthChains, room.InChain s e ↔ room.InChain (indexed s) e
  difference : ∀ e, e ∈ difference ↔ e ∉ db.eventAuthChains ∧ room.Differs stateSets e
  holds : ∃ loaded, info.Holds db loaded
  within : ∀ e p, info.chainInfo.lookup e = some p → ∃ s ∈ stateSets, room.InChain s e
  given : ∀ s ∈ stateSets, ∀ e ∈ s, ∀ p, db.eventAuthChains.lookup e = some p → info.chainInfo.lookup e = some p

theorem prepareStateSets_ok (hdb : db.Covers room) (ch : Choices) (hsets : ∀ s ∈ stateSets, ∀ e ∈ s,
      e ∈ db.eventAuthChains ∨ e ∈ db.eventAuthChainToCalculate) :
    ∃ difference indexed info, prepareStateSets ch db stateSets = .ok (difference,stateSets.map indexed,info) ∧
      Prepared room db stateSets difference indexed info := by
  have hinfo := fetchChainInfo_holds hdb.exact (.empty db) stateSets.flatten.dedup
  rw [prepareStateSets]
  generalize fetchChainInfo db stateSets.flatten.dedup ⟨∅,∅,[]⟩ = info at hinfo
  have hinitial : ∀ e p, info.chainInfo.lookup e = some p → ∃ s ∈ stateSets, room.InChain s e := by
    intro e p hp
    have hin : e ∈ stateSets.flatten := by simpa using ((hinfo.chainInfo e p).mp hp).1
    obtain ⟨s,hs,he⟩ := mem_flatten.mp hin
    exact ⟨s,hs,e,he,.refl⟩
  have hgiven : ∀ s ∈ stateSets, ∀ e ∈ s, e ∈ stateSets.flatten.dedup := fun s hs e he =>
    mem_dedup.mpr (mem_flatten.mpr ⟨s,hs,he⟩)
  have hloaded : ∀ e, e ∈ info.chainInfo ↔ e ∈ stateSets.flatten ∧ e ∈ db.eventAuthChains := by
    intro e
    simp [Dict.mem_iff,hinfo.chainInfo]
  by_cases hmissing : stateSets.flatten.dedup.filter (· ∉ info.chainInfo) = []
  case pos =>
    have hindexed : ∀ s ∈ stateSets, ∀ e ∈ s, e ∈ info.chainInfo := by
      intro s hs e he
      have hnot := filter_eq_nil_iff.mp hmissing e (mem_dedup.mpr (mem_flatten.mpr ⟨s,hs,he⟩))
      simpa using hnot
    refine ⟨[],id,info,?_,fun s hs e he => Dict.mem_iff.mp (hindexed s hs e he),
      fun _ _ _ _ => Iff.rfl,fun e => ⟨fun he => absurd he not_mem_nil,?_⟩,⟨_,hinfo⟩,hinitial,
      fun s hs e he p hp => (hinfo.chainInfo e p).mpr ⟨.inr (hgiven s hs e he),hp⟩⟩
    · rw [if_pos hmissing,map_id]
      rfl
    rintro ⟨hnot,⟨s,hs,a,ha,hr⟩,-⟩
    exact absurd (hdb.indexed_of_reach ((hloaded a).mp (hindexed s hs a ha)).2 hr) hnot
  case neg =>
    obtain ⟨fixed,hrun,hsplit⟩ := fixupAuthChainDifferenceSets_ok hdb ch hsets
      (stateSets.flatten.dedup.filter (· ∉ info.chainInfo)) info.chainInfo.keys (by
        intro e he
        obtain ⟨hin,hnot⟩ := mem_filter.mp he
        have hflat := mem_dedup.mp hin
        obtain ⟨s,hs,hes⟩ := mem_flatten.mp hflat
        apply (hsets s hs e hes).resolve_left
        intro hindex
        exact of_decide_eq_true hnot ((hloaded e).mpr ⟨hflat,hindex⟩))
      fun e he => ((hloaded e).mp he).2
    let new := (stateSets.map fun s => (fixed s).1).flatten.dedup.filter (· ∉ stateSets.flatten.dedup)
    have hinfo' := fetchChainInfo_holds hdb.exact hinfo new
    refine ⟨unionMinusIntersection (stateSets.map fun s => (fixed s).2),fun s => (fixed s).1,
      fetchChainInfo db new info,?_,fun s hs e he => ?_,fun s hs => (hsplit s hs).chain,
      fun e => ?_,⟨_,hinfo'⟩,fun e p hp => ?_,
      fun s hs e he p hp => (hinfo'.chainInfo e p).mpr ⟨.inl (.inr (hgiven s hs e he)),hp⟩⟩
    · rw [if_neg hmissing,hrun]
      rfl
    · obtain ⟨p,hp⟩ := Dict.mem_iff.mp ((hsplit s hs).indexed e he)
      refine ⟨p,(hinfo'.chainInfo e p).mpr ⟨?_,hp⟩⟩
      by_cases hold : e ∈ stateSets.flatten.dedup
      · exact .inl (.inr hold)
      · have hflat : e ∈ (stateSets.map fun s => (fixed s).1).flatten :=
          mem_flatten.mpr ⟨_,mem_map_of_mem hs,he⟩
        exact .inr (mem_filter.mpr ⟨mem_dedup.mpr hflat,decide_eq_true hold⟩)
    · simp only [mem_unionMinusIntersection,mem_map,exists_exists_and_eq_and,
        forall_exists_index,and_imp,forall_apply_eq_imp_iff₂]
      by_cases hindex : e ∈ db.eventAuthChains
      · refine ⟨?_,fun h => absurd hindex h.1⟩
        rintro ⟨⟨s,hs,he⟩,-⟩
        exact absurd hindex ((hsplit s hs).unindexed e he)
      · have hsame : ∀ s ∈ stateSets, e ∈ (fixed s).2 ↔ room.InChain s e := fun s hs =>
          ((hsplit s hs).rest e hindex).symm
        rw [Room.Differs,exists_congr fun s => and_congr_right (hsame s),forall₂_congr hsame]
        exact (and_iff_right hindex).symm
    · obtain ⟨hin,hplace⟩ := (hinfo'.chainInfo e p).mp hp
      rcases hin with hin | hin
      · exact hinitial e p ((hinfo.chainInfo e p).mpr ⟨hin,hplace⟩)
      · -- a new event is in the set that the fix-up made from a state set
        obtain ⟨_,hset,he⟩ := mem_flatten.mp (mem_dedup.mp (mem_filter.mp hin).1)
        obtain ⟨s,hs,rfl⟩ := mem_map.mp hset
        have hindex := (hsplit s hs).indexed e he
        exact ⟨s,hs,((hsplit s hs).chain e hindex).mpr ⟨e,he,.refl⟩⟩

end TextrpBriij.AuthChain
