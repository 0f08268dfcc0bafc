import TextrpBriij.AuthChain.CoverLinks

/-! # The chain cover index is exact

After every batch of events the index answers reachability as the auth graph does, provided
that no event lists an auth event twice. An event that does loses its link.
-/
namespace TextrpBriij.AuthChain
open ChainCover Util Relation List AList Function Fallible
open Database (authIds storeEvent)

variable {room : Room} {events : List Event} {db : Database} {ch : Choices}

/-- What one calculation returns: new events with places and links, and the parked events. -/
structure Calculated (room : Room) (events : List Event) (db : Database)
    (place : String → Option (Place ℕ)) (new : List (String × NewEventChainLinks))
    (db' : Database) : Prop where
  nodup : (new.map fun entry => entry.1).Nodup
  places : ∀ entry ∈ new, place entry.1 = some (entry.2.chainId,entry.2.sequenceNumber)
  unplaced : ∀ e ∈ (new.map fun entry => entry.1), e ∉ db.eventAuthChains
  candidates : ∀ e ∈ (new.map fun entry => entry.1),
    e ∈ (events.map fun e => e.eventId) ∨ e ∈ db.eventAuthChainToCalculate
  cover : Cover room.edge (placeAt db place (new.map fun entry => entry.1))
    ({l | l ∈ db.eventAuthChainLinks} ∪ {l | l ∈ linkRows new})
  tidy : Tidy ({l | l ∈ db.eventAuthChainLinks} ∪ {l | l ∈ linkRows new})
  allocated : ∀ entry ∈ new, entry.2.chainId ≤ db'.eventAuthChainId
  grows : db.eventAuthChainId ≤ db'.eventAuthChainId
  waits : ∀ e, e ∈ (events.map fun e => e.eventId) ∨ e ∈ db.eventAuthChainToCalculate →
    e ∉ (new.map fun entry => entry.1) →
    ∃ a ∈ room.auth e, a ∉ db.eventAuthChains ∧ a ∉ new.map fun entry => entry.1
  tables : db' = { db with
    eventAuthChainToCalculate := db'.eventAuthChainToCalculate
    eventAuthChainId := db'.eventAuthChainId }
  parked : ∀ e, e ∈ db'.eventAuthChainToCalculate ↔ e ∈ db.eventAuthChainToCalculate ∨
    e ∈ (events.map fun e => e.eventId) ∧ e ∉ new.map fun entry => entry.1

theorem Dict.foldl_insert {V : Type} {entries : List (String × V)}
    (hkeys : (entries.map fun t => t.1).Nodup) (d : Dict String V) : (∀ k v, (k,v) ∈ entries →
      (entries.foldl (fun d t => d.insert t.1 t.2) d).lookup k = some v) ∧
    ∀ k, k ∉ (entries.map fun t => t.1) →
      (entries.foldl (fun d t => d.insert t.1 t.2) d).lookup k = d.lookup k := by
  induction entries generalizing d with
  | nil => exact ⟨by simp,by simp⟩
  | cons t entries ih =>
    obtain ⟨hnot,hrest⟩ := nodup_cons.mp hkeys
    obtain ⟨hin,hout⟩ := ih hrest (d.insert t.1 t.2)
    refine ⟨fun k v hkv => ?_,fun k hk => ?_⟩
    · rcases mem_cons.mp hkv with rfl | hkv
      · rw [foldl_cons,hout k hnot,lookup_insert]
      · exact hin k v hkv
    · rw [map_cons,mem_cons,not_or] at hk
      rw [foldl_cons,hout k hk.2,lookup_insert_ne hk.1]

def newPlace (db : Database) (c : Calculation) (chainMap : Dict String (Place ℕ)) (e : String) :
    Option (Place ℕ) :=
  if e ∈ c.eventsToCalcChainIdFor then chainMap.lookup e else db.eventAuthChains.lookup e

variable {chainMap : Dict String (Place ℕ)} {c : Calculation}

theorem newPlace_new {e : String}
    (h : e ∈ c.eventsToCalcChainIdFor) : newPlace db c chainMap e = chainMap.lookup e := if_pos h

theorem newPlace_old {e : String} (h : e ∉ c.eventsToCalcChainIdFor) :
    newPlace db c chainMap e = db.eventAuthChains.lookup e := if_neg h

theorem Allocated.placement {db₁ db₂ : Database}
    {tuples : List (String × Place ℕ)} (hr : Ready room events db c db₁)
    (ha : Allocated room db₁ c tuples db₂) (hdb : db.Sound room) :
    let chainMap := tuples.foldl (fun d t => d.insert t.1 t.2) c.chainMap
    Placement room db c chainMap (newPlace db c chainMap) := by
  intro chainMap
  obtain ⟨hin,hout⟩ := Dict.foldl_insert ha.keys c.chainMap
  have hnone : ∀ e ∈ c.eventsToCalcChainIdFor, db.eventAuthChains.lookup e = none := fun e he =>
    lookup_eq_none.mpr (hr.unplaced e he)
  have hnew : ∀ {e p}, e ∈ c.eventsToCalcChainIdFor → (chainMap.lookup e = some p ↔ (e,p) ∈ tuples) := by
    intro e p he
    obtain ⟨⟨e',q⟩,hq,rfl⟩ := mem_map.mp ((ha.mem e).mpr he)
    refine ⟨fun hp => ?_,hin e' p⟩
    cases (hin e' q hq).symm.trans hp
    exact hq
  have hold : ∀ {a p}, c.chainMap.lookup a = some p → a ∉ c.eventsToCalcChainIdFor ∧
      chainMap.lookup a = some p ∧ db.eventAuthChains.lookup a = some p := by
    intro a p hp
    have hplaced := hr.chainMap a p hp
    have hnot : a ∉ c.eventsToCalcChainIdFor := fun hin => by
      rw [hnone a hin] at hplaced
      cases hplaced
    refine ⟨hnot,?_,hplaced⟩
    rw [hout a fun hkey => hnot ((ha.mem a).mp hkey),hp]
  refine ⟨hr.auth,hr.nodup,hnone,fun e he => newPlace_old he,?_,?_,?_,?_,?_⟩
  · intro e he
    obtain ⟨⟨e',p⟩,hp,rfl⟩ := mem_map.mp ((ha.mem e).mpr he)
    exact ⟨p,hin e' p hp,(newPlace_new he).trans (hin e' p hp)⟩
  · intro e p he hp
    rw [newPlace_new he] at hp
    exact ha.pos ((hnew he).mp hp)
  · intro e he a hauth
    rcases hr.known e he a hauth with hmap | hcalc
    · obtain ⟨q,hq⟩ := Dict.mem_iff.mp hmap
      obtain ⟨hnot,hlook,hplaced⟩ := hold hq
      exact ⟨q,hlook,(newPlace_old hnot).trans hplaced⟩
    · obtain ⟨⟨a',q⟩,hq,rfl⟩ := mem_map.mp ((ha.mem a).mpr hcalc)
      exact ⟨q,hin a' q hq,(newPlace_new hcalc).trans (hin a' q hq)⟩
  · intro e f p he hf
    by_cases hce : e ∈ c.eventsToCalcChainIdFor
    · rw [newPlace_new hce] at he
      have hep := (hnew hce).mp he
      by_cases hcf : f ∈ c.eventsToCalcChainIdFor
      · rw [newPlace_new hcf] at hf
        exact ha.unique hep ((hnew hcf).mp hf)
      · rw [newPlace_old hcf] at hf
        exact absurd (hr.chains_eq ▸ hf) (ha.free hep f)
    · rw [newPlace_old hce] at he
      by_cases hcf : f ∈ c.eventsToCalcChainIdFor
      · rw [newPlace_new hcf] at hf
        exact absurd (hr.chains_eq ▸ he) (ha.free ((hnew hcf).mp hf) e)
      · rw [newPlace_old hcf] at hf
        exact hdb.cover.unique he hf
  · intro e x s he hp hs
    rw [newPlace_new he] at hp
    obtain ⟨f,hf,hplace⟩ := ha.below ((hnew he).mp hp) hs
    refine ⟨f,hf,?_⟩
    rcases hplace with hnew' | hold'
    · have hcf := (ha.mem f).mp (mem_map.mpr ⟨_,hnew',rfl⟩)
      rw [newPlace_new hcf]
      exact hin f _ hnew'
    · rw [hr.chains_eq] at hold'
      have hcf : f ∉ c.eventsToCalcChainIdFor := fun hin => by
        rw [hnone f hin] at hold'
        cases hold'
      rw [newPlace_old hcf,hold']

variable {db' : Database}

theorem Calculated.nothing (hdb : db.Sound room) (htables : db' = { db with
      eventAuthChainToCalculate := db'.eventAuthChainToCalculate
      eventAuthChainId := db'.eventAuthChainId })
    (hgrows : db.eventAuthChainId ≤ db'.eventAuthChainId)
    (hwaits : ∀ e, e ∈ (events.map fun e => e.eventId) ∨ e ∈ db.eventAuthChainToCalculate →
      ∃ a ∈ room.auth e, a ∉ db.eventAuthChains)
    (hparked : ∀ e, e ∈ db'.eventAuthChainToCalculate ↔ e ∈ db.eventAuthChainToCalculate ∨
      e ∈ events.map fun e => e.eventId) :
    Calculated room events db (fun _ => none) [] db' := by
  have hrows : {l | l ∈ db.eventAuthChainLinks} ∪ {l | l ∈ linkRows []} =
      {l | l ∈ db.eventAuthChainLinks} := by simp [linkRows]
  have hplace : placeAt db (fun _ => none) [] = db.eventAuthChains.lookup := by
    funext e
    simp [placeAt]
  refine ⟨by simp,by simp,by simp,by simp,?_,?_,by simp,hgrows,fun e he _ => ?_,htables,?_⟩
  · rw [hrows]
    exact hplace ▸ hdb.cover
  · rw [hrows]
    exact hdb.tidy
  · obtain ⟨a,ha,hnot⟩ := hwaits e he
    exact ⟨a,ha,hnot,by simp⟩
  · simpa using hparked

variable {place : String → Option (Place ℕ)}

theorem Placement.linkEvents (ch : Choices) (hp : Placement room db c chainMap place)
    (hacyclic : Acyclic c.eventToAuthChain.edges) (hdb : db.Sound room)
    (hlinks : db'.eventAuthChainLinks = db.eventAuthChainLinks) : ∃ m new m' chains,
      loadLinks db' (chainMap.entries.map fun entry => entry.2.1).dedup = .ok m ∧
      (sortedTopologically c.eventsToCalcChainIdFor c.eventToAuthChain).foldlM
        (linkEvent ch c chainMap) ([],m) = .ok (new,m') ∧
      Linked room db place chains
        (sortedTopologically c.eventsToCalcChainIdFor c.eventToAuthChain) (new,m') := by
  set chains := (chainMap.entries.map fun entry => entry.2.1).dedup
  set order := sortedTopologically c.eventsToCalcChainIdFor c.eventToAuthChain
  let loaded := loadedChains db.eventAuthChainLinks chains
  have hchains : ∀ a p, chainMap.lookup a = some p → p.1 ∈ loaded := by
    intro a p hap
    refine .inl (mem_dedup.mpr (mem_map.mpr ⟨⟨a,p⟩,?_,rfl⟩))
    exact mem_lookup_iff.mp hap
  have htidy : Tidy {l | l ∈ db'.eventAuthChainLinks} := by
    rw [hlinks]
    exact hdb.tidy
  obtain ⟨m,hload,hm⟩ := loadLinks_ok htidy chains
  have hstart : Linked room db place loaded [] ([],m) := by
    have hrows : {l | l ∈ db.eventAuthChainLinks} ∪ {l | l ∈ linkRows []} =
        {l | l ∈ db.eventAuthChainLinks} := by simp [linkRows]
    refine ⟨rfl,by simp,?_,?_,?_⟩
    · rw [hrows]
      exact hdb.cover
    · rw [hrows]
      exact hdb.tidy
    · rw [hrows,hm,hlinks]
      exact loadLinks_dominates
  have horder : Topological c.eventToAuthChain.edges c.eventsToCalcChainIdFor order :=
    sortedTopologically_topological _ hacyclic
  obtain ⟨⟨new,m'⟩,hloop,hl⟩ := foldlM_spec _ hstart
    fun pre e post s (hsplit : order = _) hs => hs.step hp hchains (hsplit ▸ horder)
  exact ⟨m,new,m',loaded,hload,hloop,hl⟩

theorem calculateChainCoverIndex_ok (hdb : db.Sound room) (hevents : ∀ e ∈ events, e.Proper room)
    (hunplaced : ∀ e ∈ events, e.eventId ∉ db.eventAuthChains) :
    ∃ place new db', calculateChainCoverIndex ch events db = .ok (new,db') ∧
      Calculated room events db place new db' := by
  obtain ⟨c,db₁,hrun,hr⟩ := calculation_ready ch hdb hevents hunplaced
  unfold calculateChainCoverIndex
  simp only [hrun,ok_bind]
  by_cases hempty : c.eventsToCalcChainIdFor = []
  · rw [if_pos hempty]
    refine ⟨_,[],db₁,rfl,.nothing hdb ?_ hr.chainId_eq.ge (fun e he => ?_) fun e => ?_⟩
    · conv_lhs => rw [hr.tables]
      rw [hr.chainId_eq]
    · obtain ⟨a,ha,hnot,-⟩ := hr.waits e he (by simp [hempty])
      exact ⟨a,ha,hnot⟩
    · simpa [hempty] using hr.parked e
  rw [if_neg hempty]
  have hlast : ∀ e p, db₁.eventAuthChains.lookup e = some p → p.1 ≤ db₁.eventAuthChainId := by
    rw [hr.chains_eq,hr.chainId_eq]
    exact hdb.allocated
  obtain ⟨tuples,db₂,halloc,ha⟩ := hr.allocateChainIds ch hlast
  have hp := ha.placement hr hdb
  have hlinks : db₂.eventAuthChainLinks = db.eventAuthChainLinks := by rw [ha.tables,hr.tables]
  obtain ⟨m,new,m',chains,hload,hloop,hl⟩ := hp.linkEvents ch hr.acyclic hdb hlinks
  refine ⟨newPlace db c (tuples.foldl (fun d t => d.insert t.1 t.2) c.chainMap),new,db₂,
    by simp only [halloc,ok_bind,hload,hloop,pure_eq],?_⟩
  have horder := sortedTopologically_topological c.eventsToCalcChainIdFor hr.acyclic
  have hnames := hl.names
  have hmem : ∀ e, e ∈ (new.map fun entry => entry.1) ↔ e ∈ c.eventsToCalcChainIdFor := fun e => by
    rw [hnames]
    exact horder.mem e
  have hparked : db₂.eventAuthChainToCalculate = db₁.eventAuthChainToCalculate := by
    rw [ha.tables]
  refine ⟨hnames ▸ horder.nodup,hl.places,?_,?_,hnames ▸ hl.cover,hl.tidy,?_, hr.chainId_eq ▸ ha.grows,?_,?_,?_⟩
  · exact fun e he => hr.unplaced e ((hmem e).mp he)
  · exact fun e he => hr.candidates e ((hmem e).mp he)
  · intro entry hin
    have hcalc := (hmem entry.1).mp (mem_map.mpr ⟨entry,hin,rfl⟩)
    obtain ⟨⟨e,p⟩,hep,rfl⟩ := mem_map.mp ((ha.mem entry.1).mpr hcalc)
    have hlook := (Dict.foldl_insert ha.keys c.chainMap).1 entry.1 p hep
    have hplace := hl.places entry hin
    rw [newPlace_new hcalc,hlook] at hplace
    have hchain := ha.allocated hep
    rw [Option.some.inj hplace] at hchain
    exact hchain
  · intro e he hnot
    obtain ⟨a,hauth,hunpl,hncalc⟩ := hr.waits e he fun hin => hnot ((hmem e).mpr hin)
    exact ⟨a,hauth,hunpl,fun hin => hncalc ((hmem a).mp hin)⟩
  · conv_lhs => rw [ha.tables,hr.tables]
    rw [hparked]
  · intro e
    rw [hparked,hr.parked e,hmem e]

variable {new : List (String × NewEventChainLinks)}

theorem Calculated.insertChains (h : Calculated room events db place new db') :
    ∃ d, new.foldlM insertChain db.eventAuthChains = .ok d ∧
      ∀ e, d.lookup e = placeAt db place (new.map fun entry => entry.1) e := by
  refine foldlM_spec (fun (pre : List (String × NewEventChainLinks))
    (d : Dict String (Place ℕ)) => ∀ e, d.lookup e = placeAt db place (pre.map fun t => t.1) e)
    (fun e => by simp [placeAt]) ?_
  intro pre entry post d hsplit hd
  have hin : entry ∈ new := by simp [hsplit]
  have hplace := h.places entry hin
  have hname : entry.1 ∈ new.map fun t => t.1 := mem_map.mpr ⟨entry,hin,rfl⟩
  have hnotpre : entry.1 ∉ pre.map fun t => t.1 := by
    have hnodup := h.nodup
    rw [hsplit,map_append] at hnodup
    exact fun hmem => (nodup_append.mp hnodup).2.2 _ hmem _ mem_cons_self rfl
  have hsub : ∀ {f p}, d.lookup f = some p → placeAt db place (new.map fun t => t.1) f = some p := by
    intro f p hf
    rw [hd] at hf
    unfold placeAt at hf ⊢
    split at hf
    · rename_i hpre
      rw [if_pos,hf]
      rw [hsplit,map_append]
      exact mem_append_left _ hpre
    · rw [if_neg,hf]
      intro hmem
      have hunpl := lookup_eq_none.mpr (h.unplaced f hmem)
      rw [hunpl] at hf
      cases hf
  have hfresh : ¬(entry.1 ∈ d ∨ (entry.2.chainId,entry.2.sequenceNumber) ∈ d.entries.map fun t => t.2) := by
    rintro (hmem | hmem)
    · obtain ⟨p,hp⟩ := Dict.mem_iff.mp hmem
      rw [hd,placeAt,if_neg hnotpre,lookup_eq_none.mpr (h.unplaced _ hname)] at hp
      cases hp
    · obtain ⟨⟨f,p⟩,hf,rfl⟩ := mem_map.mp hmem
      have hfp := mem_lookup_iff.mpr hf
      have hentry : placeAt db place (new.map fun t => t.1) entry.1 =
          some (entry.2.chainId,entry.2.sequenceNumber) := by rw [placeAt,if_pos hname,hplace]
      obtain rfl := h.cover.unique (hsub hfp) hentry
      rw [hd,placeAt,if_neg hnotpre, lookup_eq_none.mpr (h.unplaced _ hname)] at hfp
      cases hfp
  refine ⟨d.insert entry.1 (entry.2.chainId,entry.2.sequenceNumber),?_,fun e => ?_⟩
  · exact if_neg hfresh
  · rw [map_append,map_singleton,placeAt_append hplace]
    by_cases he : e = entry.1
    · subst he
      rw [lookup_insert,update_self]
    · rw [lookup_insert_ne he,update_of_ne he,hd]

theorem foldl_erase {V : Type} (names : List String) (d : Dict String V) (e : String) :
    e ∈ names.foldl (fun d name => d.erase name) d ↔ e ∈ d ∧ e ∉ names := by
  induction names generalizing d with
  | nil => simp
  | cons name names ih =>
    rw [foldl_cons,ih,mem_erase,mem_cons]
    tauto

theorem mem_stateEventsToIndex (db : Database) (events : List Event) :
    (∀ e ∈ stateEventsToIndex db events, e ∈ events ∧ e.eventId ∉ db.eventAuthChains) ∧
    ∀ e, e ∈ ((stateEventsToIndex db events).map fun e => e.eventId) ↔
      e ∈ (events.map fun e => e.eventId) ∧ e ∉ db.eventAuthChains := by
  let kept := events.foldl (fun (kept : List Event) e =>
    if e.eventId ∈ kept.map fun k => k.eventId then kept else kept ++ [e]) []
  have hkept : (∀ e ∈ kept, e ∈ events) ∧ ∀ e, e ∈ (kept.map fun e => e.eventId) ↔
      e ∈ events.map fun e => e.eventId := by
    refine foldl_spec (s := []) (fun (pre kept : List Event) => (∀ e ∈ kept, e ∈ pre) ∧
      ∀ e, e ∈ (kept.map fun e => e.eventId) ↔ e ∈ pre.map fun e => e.eventId) (by simp) ?_
    rintro pre e post kept - ⟨hsub,hmem⟩
    split
    · rename_i hin
      refine ⟨fun f hf => mem_append_left _ (hsub f hf),fun f => ?_⟩
      rw [hmem,map_append,mem_append]
      refine ⟨.inl,fun h => h.elim id fun hf => ?_⟩
      rw [map_singleton,mem_singleton] at hf
      exact (hmem f).mp (hf ▸ hin)
    · refine ⟨fun f hf => ?_,fun f => ?_⟩
      · rcases mem_append.mp hf with hf | hf
        · exact mem_append_left _ (hsub f hf)
        · exact mem_append_right _ hf
      · rw [map_append,map_append,mem_append,mem_append,hmem]
  refine ⟨fun e he => ?_,fun e => ?_⟩
  · obtain ⟨hin,hnot⟩ := mem_filter.mp he
    exact ⟨hkept.1 e hin,of_decide_eq_true hnot⟩
  · rw [← hkept.2]
    constructor
    · intro he
      obtain ⟨f,hf,rfl⟩ := mem_map.mp he
      obtain ⟨hin,hnot⟩ := mem_filter.mp hf
      exact ⟨mem_map.mpr ⟨f,hin,rfl⟩,of_decide_eq_true hnot⟩
    · rintro ⟨he,hnot⟩
      obtain ⟨f,hf,rfl⟩ := mem_map.mp he
      exact mem_map.mpr ⟨f,mem_filter.mpr ⟨hf,decide_eq_true hnot⟩,rfl⟩

/-- What storing the events of a batch changes. -/
structure Stored (room : Room) (events : List Event) (db db' : Database) : Prop where
  events : ∀ e, e ∈ db'.events ↔ e ∈ db.events ∨ e ∈ events.map fun e => e.eventId
  auth_ids : ∀ e ∈ db'.events, (db'.authIds e).Perm (room.auth e)
  no_auth_ids : ∀ e, e ∉ db'.events → db'.authIds e = []
  tables : db' = { db with events := db'.events, eventAuth := db'.eventAuth }

theorem foldl_storeEvent (db : Database) (hevents : ∀ e ∈ events, e.Proper room)
    (hauth : ∀ e ∈ db.events, (db.authIds e).Perm (room.auth e))
    (hnone : ∀ e, e ∉ db.events → db.authIds e = []) :
    Stored room events db (events.foldl storeEvent db) := by
  refine foldl_spec (fun pre db' => Stored room pre db db') ⟨by simp,hauth,hnone,rfl⟩ ?_
  intro pre e post db' hsplit h
  have he := hevents e (by simp [hsplit])
  unfold storeEvent
  split
  · rename_i hin
    refine { h with events := fun f => ?_ }
    rw [h.events,map_append,mem_append]
    refine ⟨fun hf => hf.imp_right .inl,fun hf => ?_⟩
    rcases hf with hf | hf | hf
    · exact .inl hf
    · exact .inr hf
    · rw [map_singleton,mem_singleton] at hf
      exact (h.events f).mp (hf ▸ hin)
  · rename_i hnot
    -- the new rows are those of the event, and it had none
    have hids : ∀ f, authIds { db' with
        events := db'.events.insert e.eventId e.types
        eventAuth := db'.eventAuth ++ e.authEventIds.map fun a => (e.eventId,a) } f =
        db'.authIds f ++ if f = e.eventId then e.authEventIds else [] := by
      intro f
      simp only [authIds]
      by_cases hf : f = e.eventId
      · subst hf
        simp [filter_map]
      · simp [hf,Ne.symm hf]
    refine ⟨fun f => ?_,fun f hf => ?_,fun f hf => ?_,?_⟩
    · rw [mem_insert,h.events,map_append,mem_append,map_singleton, mem_singleton]
      tauto
    · rw [hids]
      by_cases heq : f = e.eventId
      · subst heq
        rw [h.no_auth_ids _ hnot,if_pos rfl,nil_append,he.auth_eq]
      · rw [if_neg heq,append_nil]
        exact h.auth_ids f (((mem_insert _).mp hf).resolve_left heq)
    · rw [mem_insert,not_or] at hf
      rw [hids,if_neg hf.1,append_nil]
      exact h.no_auth_ids f hf.2
    · conv_lhs => rw [h.tables]

theorem Calculated.persist (stored : List Event) (h : Calculated room events db place new db') :
    ∃ db₂, persistEventAuthChain stored new db' = .ok (stored.foldl storeEvent db₂) ∧
      (∀ e, db₂.eventAuthChains.lookup e = placeAt db place (new.map fun entry => entry.1) e) ∧
      (∀ e, e ∈ db₂.eventAuthChainToCalculate ↔
        e ∈ db'.eventAuthChainToCalculate ∧ e ∉ new.map fun entry => entry.1) ∧
      db₂ = { db' with
        eventAuthChains := db₂.eventAuthChains
        eventAuthChainLinks := db.eventAuthChainLinks ++ linkRows new
        eventAuthChainToCalculate := db₂.eventAuthChainToCalculate } := by
  have hchains : db'.eventAuthChains = db.eventAuthChains := by rw [h.tables]
  have hlinks : db'.eventAuthChainLinks = db.eventAuthChainLinks := by rw [h.tables]
  by_cases hnil : new = []
  · subst hnil
    refine ⟨db',rfl,fun e => by simp [placeAt,hchains],by simp,?_⟩
    rw [← hlinks]
    simp [linkRows]
  · obtain ⟨d,hinsert,hd⟩ := h.insertChains
    refine ⟨{ db' with
      eventAuthChains := d
      eventAuthChainToCalculate :=
        new.foldl (fun d entry => d.erase entry.1) db'.eventAuthChainToCalculate
      eventAuthChainLinks := db'.eventAuthChainLinks ++ linkRows new },?_,hd,fun e => ?_,
      by rw [← hlinks]⟩
    · simp [persistEventAuthChain,hnil,persistChainCoverIndex,hchains,hinsert]
    · rw [← foldl_erase,foldl_map]

theorem calculateChainCoverIndexForEvents_ok (ch : Choices) (h : db.Sound room)
    (hevents : ∀ e ∈ events, e.Proper room) :
    ∃ place new db₁, calculateChainCoverIndexForEvents ch events db = .ok (new,db₁) ∧
      Calculated room (stateEventsToIndex db events) db place new db₁ := by
  unfold calculateChainCoverIndexForEvents
  by_cases hnil : stateEventsToIndex db events = []
  · simp only [if_pos hnil]
    refine ⟨_,[],db,rfl,.nothing h rfl le_rfl (fun e he => ?_) fun e => by simp [hnil]⟩
    exact h.waits e (by simpa [hnil] using he)
  · simp only [if_neg hnil]
    have hsub := (mem_stateEventsToIndex db events).1
    exact calculateChainCoverIndex_ok h (fun e he => hevents e (hsub e he).1) fun e he => (hsub e he).2

theorem Database.Sound.persistBatch (h : db.Sound room) {b : Batch}
    (hb : ∀ e ∈ b.events, e.Proper room) : ∃ db', persistBatch db b = .ok db' ∧ db'.Sound room := by
  have hmem := (mem_stateEventsToIndex db b.events).2
  obtain ⟨place,new,db₁,hcalc,hc⟩ :=
    calculateChainCoverIndexForEvents_ok b.choices h hb
  obtain ⟨db₂,hpersist,hplace,hparked,htables⟩ := hc.persist b.events
  have hevents : db₂.events = db.events := by rw [htables,hc.tables]
  have hauth : db₂.eventAuth = db.eventAuth := by rw [htables,hc.tables]
  have hids : ∀ e, db₂.authIds e = db.authIds e := fun e => by simp [authIds,hauth]
  have hs := foldl_storeEvent db₂ hb (by simpa [hevents,hids] using h.auth_ids)
    (by simpa [hevents,hids] using h.no_auth_ids)
  refine ⟨b.events.foldl storeEvent db₂,
    by simp only [AuthChain.persistBatch,hcalc,ok_bind,hpersist],?_⟩
  set db₃ := b.events.foldl storeEvent db₂
  have hchains : db₃.eventAuthChains = db₂.eventAuthChains := by rw [hs.tables]
  have hlinks : db₃.eventAuthChainLinks = db.eventAuthChainLinks ++ linkRows new := by
    rw [hs.tables,htables]
  have hparked₃ : db₃.eventAuthChainToCalculate = db₂.eventAuthChainToCalculate := by
    rw [hs.tables]
  have hlast : db₃.eventAuthChainId = db₁.eventAuthChainId := by rw [hs.tables,htables]
  have hlinkset : {l | l ∈ db₃.eventAuthChainLinks} =
      {l | l ∈ db.eventAuthChainLinks} ∪ {l | l ∈ linkRows new} := by
    ext l
    simp [hlinks]
  have hlookup : ∀ e, db₃.eventAuthChains.lookup e =
      placeAt db place (new.map fun entry => entry.1) e := fun e => by rw [hchains,hplace]
  have hplaced : ∀ e, e ∈ db₃.eventAuthChains ↔ e ∈ db.eventAuthChains ∨ e ∈ new.map fun entry => entry.1 := by
    intro e
    rw [Dict.mem_iff,hlookup]
    unfold placeAt
    split
    · rename_i hin
      obtain ⟨entry,hentry,rfl⟩ := mem_map.mp hin
      exact ⟨fun _ => .inr hin,fun _ => ⟨_,hc.places entry hentry⟩⟩
    · rename_i hnot
      rw [← Dict.mem_iff]
      exact ⟨.inl,fun he => he.resolve_right hnot⟩
  have hbatch : ∀ e, e ∈ ((stateEventsToIndex db b.events).map fun e => e.eventId) ∨
      e ∈ db.eventAuthChainToCalculate ↔ (e ∈ db.events ∨ e ∈ b.events.map fun e => e.eventId) ∧
        e ∉ db.eventAuthChains := by
    intro e
    rw [hmem,h.parked]
    tauto
  have hwaiting : ∀ e, e ∈ db₃.eventAuthChainToCalculate ↔
      (e ∈ ((stateEventsToIndex db b.events).map fun e => e.eventId) ∨
        e ∈ db.eventAuthChainToCalculate) ∧ e ∉ new.map fun entry => entry.1 := by
    intro e
    rw [hparked₃,hparked,hc.parked]
    tauto
  refine ⟨hs.auth_ids,hs.no_auth_ids,?_,?_,?_,?_,?_,?_,?_⟩
  · intro e he
    rcases (hs.events e).mp he with hold | hnew
    · exact h.nodup e (hevents ▸ hold)
    · obtain ⟨ev,hev,rfl⟩ := mem_map.mp hnew
      exact (hb ev hev).nodup
  · intro e he
    rw [hs.events,hevents]
    rcases (hplaced e).mp he with hold | hnew
    · exact .inl (h.stored e hold)
    · exact ((hbatch e).mp (hc.candidates e hnew)).1
  · intro e
    rw [hwaiting,hbatch,hs.events,hevents,hplaced,not_or,and_assoc]
  · intro e he
    obtain ⟨hcand,hnot⟩ := (hwaiting e).mp he
    obtain ⟨a,ha,hunpl,hnew⟩ := hc.waits e hcand hnot
    exact ⟨a,ha,fun hin => ((hplaced a).mp hin).elim hunpl hnew⟩
  · rw [hlinkset,funext hlookup]
    exact hc.cover
  · rw [hlinkset]
    exact hc.tidy
  · intro e p hp
    rw [hlookup,placeAt] at hp
    rw [hlast]
    split at hp
    · rename_i hin
      obtain ⟨entry,hentry,rfl⟩ := mem_map.mp hin
      cases (hc.places entry hentry).symm.trans hp
      exact hc.allocated entry hentry
    · exact (h.allocated e p hp).trans hc.grows

theorem Database.Sound.empty : Database.empty.Sound room := by
  refine ⟨?_,?_,?_,?_,?_,?_,⟨?_,?_,?_,?_,?_,?_⟩,⟨?_,?_⟩,?_⟩
  all_goals simp [Database.empty,authIds]

theorem persistBatches_sound (room : Room) {batches : List Batch}
    (h : ∀ b ∈ batches, ∀ e ∈ b.events, e.Proper room) :
    ∃ db, persistBatches .empty batches = .ok db ∧ db.Sound room :=
  foldlM_spec (fun _ db => Database.Sound room db) .empty
    fun _ b _ _ hsplit hdb => hdb.persistBatch (h b (by simp [hsplit]))

/-- The index answers reachability in the auth graph. -/
structure Database.Exact (room : Room) (db : Database) : Prop where
  reach_iff : ∀ {a b p q}, db.eventAuthChains.lookup a = some p → db.eventAuthChains.lookup b = some q →
    (ReflTransGen room.edge a b ↔ Reach {l | l ∈ db.eventAuthChainLinks} p q)
  unique : ∀ {a b p}, db.eventAuthChains.lookup a = some p → db.eventAuthChains.lookup b = some p → a = b
  below : ∀ {a x s}, db.eventAuthChains.lookup a = some (x,s + 1) → 1 ≤ s →
    ∃ b ∈ room.auth a, db.eventAuthChains.lookup b = some (x,s)

theorem Database.Sound.exact (h : db.Sound room) : db.Exact room := by
  refine ⟨fun ha hb => (h.cover.reach_iff ha hb).symm,h.cover.unique,fun ha hs => ?_⟩
  obtain ⟨b,hb,hedge⟩ := h.cover.below ha hs
  exact ⟨b,hedge,hb⟩

/-- Whatever the batches, as long as no event lists an auth event twice: they are persisted,
and the index is exact. An event waits only while one of its auth events has no place. -/
theorem persistBatches_exact (room : Room) (batches : List Batch)
    (h : ∀ b ∈ batches, ∀ e ∈ b.events,
      e.authEventIds = room.auth e.eventId ∧ e.authEventIds.Nodup) :
    ∃ db, persistBatches .empty batches = .ok db ∧ db.Exact room ∧
      ∀ e ∈ db.eventAuthChainToCalculate, ∃ a ∈ room.auth e, a ∉ db.eventAuthChains := by
  obtain ⟨db,hrun,hdb⟩ := persistBatches_sound room fun b hb e he =>
    ⟨(h b hb e he).1,(h b hb e he).1 ▸ (h b hb e he).2⟩
  exact ⟨db,hrun,hdb.exact,hdb.waits⟩

def Choices.listed : Choices := ⟨id,fun _ => .refl _,id,fun _ => .refl _,0⟩

def memberRoom (authEvents : List String) (h : ∀ a ∈ authEvents, a = "$create") : Room where
  auth e := if e = "$member" then authEvents else []
  acyclic := .of_rank (fun e => if e = "$member" then 1 else 0) fun n m hm => by
    split at hm
    · rename_i hn
      simp [hn,h m hm]
    · cases hm

def memberBatch (authEvents : List String) : Batch where
  events := [⟨"$create",("m.room.create",""),[]⟩, ⟨"$member",("m.room.member","@alice:example.org"),authEvents⟩]
  choices := .listed

theorem persistBatches_exact_member :
    ∃ db, persistBatches .empty [memberBatch ["$create"]] = .ok db ∧
      db.Exact (memberRoom ["$create"] (by simp)) ∧
      ∀ e ∈ db.eventAuthChainToCalculate,
        ∃ a ∈ (memberRoom ["$create"] (by simp)).auth e, a ∉ db.eventAuthChains :=
  persistBatches_exact (memberRoom ["$create"] (by simp)) [memberBatch ["$create"]]
    (by simp [memberBatch,memberRoom])

theorem reach_nil {p q : Place ℕ} (h : Reach {l | l ∈ ([] : List (Link ℕ))} p q) : p.1 = q.1 := by
  induction h with
  | refl => rfl
  | tail _ hm ih =>
    cases hm with
    | down => exact ih
    | along hl => cases hl

/-- With the create event listed twice the member event gets no link to it. -/
theorem repeated_auth_event_unreached :
    (∀ e ∈ (memberBatch ["$create","$create"]).events, e.authEventIds =
      (memberRoom ["$create","$create"] (by simp)).auth e.eventId) ∧
    ∃ db, persistBatches .empty [memberBatch ["$create","$create"]] = .ok db ∧
      db.eventAuthChains.lookup "$member" = some (2,1) ∧
      db.eventAuthChains.lookup "$create" = some (1,1) ∧
      ReflTransGen (memberRoom ["$create","$create"] (by simp)).edge "$member" "$create" ∧
      ¬Reach {l | l ∈ db.eventAuthChainLinks} (2,1) (1,1) := by
  have hrun : ((persistBatches .empty [memberBatch ["$create","$create"]]).toOption.map fun db =>
      (db.eventAuthChains.lookup "$member",db.eventAuthChains.lookup "$create",
        db.eventAuthChainLinks)) = some (some (2,1),some (1,1),[]) := by decide +kernel
  obtain ⟨db,hdb,hdata⟩ := Option.map_eq_some_iff.mp hrun
  obtain ⟨hmember,hrest⟩ := Prod.mk.inj hdata
  obtain ⟨hcreate,hlinks⟩ := Prod.mk.inj hrest
  refine ⟨by simp [memberBatch,memberRoom],db,?_,hmember,hcreate,.single ?_,?_⟩
  · exact Fallible.eq_ok_of_toOption hdb
  · simp [Room.edge,memberRoom]
  · intro hr
    rw [hlinks] at hr
    exact absurd (reach_nil hr) (by decide)

end TextrpBriij.AuthChain
