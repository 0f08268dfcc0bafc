import TextrpBriij.AuthChain.DifferenceFixup

/-! # The auth chain difference from the index is the difference of the auth chains

For each state set the loops compute how far up each chain its auth chain goes. The events
between the least and the greatest of these numbers are the ones on which the sets differ.
-/
namespace TextrpBriij.AuthChain
open ChainCover Relation List AList Fallible

variable {room : Room} {db : Database} {info : ChainInfo} {stateSets : List (List String)}

structure Starts (chainInfo : Dict String (Place ℕ)) (stateSet : List String) (m : Dict ℕ ℕ) :
    Prop where
  reaches : ∀ e ∈ stateSet, ∀ p, chainInfo.lookup e = some p → p.2 ≤ height m p.1
  event : ∀ c, 0 < height m c → ∃ e ∈ stateSet, chainInfo.lookup e = some (c,height m c)

theorem maxOfStateSet_starts {chainInfo : Dict String (Place ℕ)} {stateSet : List String}
    (h : ∀ e ∈ stateSet, ∃ p, chainInfo.lookup e = some p) :
    ∃ m, maxOfStateSet chainInfo stateSet = .ok m ∧ Starts chainInfo stateSet m := by
  apply foldlM_spec (fun pre m => Starts chainInfo pre m)
  · exact ⟨by simp,by simp [height]⟩
  intro pre e post m hsplit hm
  obtain ⟨p,hp⟩ := h e (by simp [hsplit])
  refine ⟨m.insert p.1 (max p.2 (height m p.1)),?_,fun f hf q hq => ?_,fun c hc => ?_⟩
  · rw [Dict.get_eq_ok.mpr hp]
    rfl
  · rw [height_insert]
    rcases mem_append.mp hf with hf | hf
    · have hle := hm.reaches f hf q hq
      split
      case isTrue heq =>
        rw [heq] at hle
        exact le_max_of_le_right hle
      case isFalse => exact hle
    · rw [mem_singleton.mp hf,hp] at hq
      rw [← Option.some.inj hq,if_pos rfl]
      exact le_max_left _ _
  · rw [height_insert] at hc ⊢
    split at hc
    case isTrue heq =>
      subst heq
      rw [if_pos rfl]
      rcases le_total p.2 (height m p.1) with hle | hle
      · rw [max_eq_right hle] at hc ⊢
        obtain ⟨f,hf,hq⟩ := hm.event p.1 hc
        exact ⟨f,mem_append_left _ hf,hq⟩
      · rw [max_eq_left hle]
        exact ⟨e,by simp,hp⟩
    case isFalse hne =>
      rw [if_neg hne]
      obtain ⟨f,hf,hq⟩ := hm.event c hc
      exact ⟨f,mem_append_left _ hf,hq⟩

theorem inChain_iff (hdb : db.Covers room) {loaded : Set String} (hinfo : info.Holds db loaded)
    {stateSet : List String} {chainIds : List ℕ} {m : Dict ℕ ℕ} {batches : List (List (Link ℕ))}
    (hknown : ∀ e ∈ stateSet, ∃ p, info.chainInfo.lookup e = some p)
    (hm : Starts info.chainInfo stateSet m)
    (hfetched : FetchedLinks db.eventAuthChainLinks chainIds batches)
    (hstart : ∀ c, 0 < height m c → c ∈ chainIds) {e : String} {q : Place ℕ}
    (he : db.eventAuthChains.lookup e = some q) :
    room.InChain stateSet e ↔ q.2 ≤ height (walkBatches batches m) q.1 := by
  obtain ⟨hwalked,hsat⟩ := walkBatches_saturated hfetched hdb.origin_pos hstart
  constructor
  · rintro ⟨a,ha,hr⟩
    obtain ⟨p,hp⟩ := hknown a ha
    have hplace := ((hinfo.chainInfo a p).mp hp).2
    have hreach := (hdb.exact.reach_iff hplace he).mp hr
    exact hsat.le_of_reach hreach ((hm.reaches a ha p hp).trans (hwalked.mono _))
  · intro hle
    have hpos := hdb.place_pos e q he
    obtain ⟨c,hc,hreach⟩ := hwalked.reach q.1 (by omega)
    obtain ⟨a,ha,hp⟩ := hm.event c hc
    have hplace := ((hinfo.chainInfo a _).mp hp).2
    exact ⟨a,ha,(hdb.exact.reach_iff hplace he).mpr (hreach.trans (Reach.down hle))⟩

theorem fillGap_spec (chainToEvent : Dict (Place ℕ) String) (c : ℕ) (seqs : List ℕ) :
    (∀ e ∈ (fillGap chainToEvent c seqs).1, ∃ t ∈ seqs, chainToEvent.lookup (c,t) = some e) ∧
    ((fillGap chainToEvent c seqs).2 = false → ∀ t ∈ seqs,
      ∃ e ∈ (fillGap chainToEvent c seqs).1, chainToEvent.lookup (c,t) = some e) := by
  induction seqs with
  | nil => simp [fillGap]
  | cons t seqs ih =>
    rw [fillGap]
    cases hlookup : chainToEvent.lookup (c,t) with
    | none => simp
    | some e =>
      by_cases hempty : e = ""
      · simp [hempty]
      · simp only [if_neg hempty]
        refine ⟨fun f hf => ?_,fun hfull u hu => ?_⟩
        · rcases mem_cons.mp hf with rfl | hf
          · exact ⟨t,mem_cons_self,hlookup⟩
          · obtain ⟨u,hu,hf⟩ := ih.1 f hf
            exact ⟨u,mem_cons_of_mem _ hu,hf⟩
        · rcases mem_cons.mp hu with rfl | hu
          · exact ⟨e,mem_cons_self,hlookup⟩
          · obtain ⟨f,hf,hplace⟩ := ih.2 hfull u hu
            exact ⟨f,mem_cons_of_mem _ hf,hplace⟩

theorem mem_seqs {first last t : ℕ} : t ∈ range' first (last + 1 - first) ↔ first ≤ t ∧ t ≤ last := by
  rw [mem_range'_1]
  omega

theorem mem_fetchRanges (hexact : db.Exact room) {loaded : Set String}
    (hinfo : info.Holds db loaded) {ranges : List (ℕ × ℕ × ℕ)} {e : String} :
    e ∈ fetchRanges db info.chainToEvent ranges ↔ ∃ q, db.eventAuthChains.lookup e = some q ∧
      ∃ r ∈ ranges, r.1 = q.1 ∧ r.2.1 ≤ q.2 ∧ q.2 ≤ r.2.2 := by
  have hplace : ∀ {f p}, info.chainToEvent.lookup p = some f → db.eventAuthChains.lookup f = some p := by
    intro f p hf
    exact ((hinfo.chainInfo f p).mp ((hinfo.chainToEvent f p).mp hf)).2
  have hquery : ∀ gaps, e ∈ fetchEventIdsFromChains db gaps ↔ ∃ q,
      db.eventAuthChains.lookup e = some q ∧ ∃ r ∈ gaps, r.1 = q.1 ∧ r.2.1 ≤ q.2 ∧ q.2 ≤ r.2.2 := by
    intro gaps
    simp only [fetchEventIdsFromChains,mem_flatMap,mem_map,mem_filter,decide_eq_true_eq]
    constructor
    · rintro ⟨r,hr,⟨f,q⟩,⟨hin,hc,hrange⟩,rfl⟩
      exact ⟨q,mem_lookup_iff.mpr hin,r,hr,hc.symm,hrange⟩
    · rintro ⟨q,he,r,hr,hc,hrange⟩
      exact ⟨r,hr,⟨e,q⟩,⟨mem_lookup_iff.mp he,hc.symm,hrange⟩,rfl⟩
  rw [fetchRanges,mem_union_iff,hquery]
  simp only [flatMap_map,mem_flatMap,mem_map,mem_filter]
  constructor
  · rintro (⟨r,hr,hin⟩ | ⟨q,he,_,⟨_,⟨⟨r,hr,rfl⟩,-⟩,rfl⟩,hrange⟩)
    · obtain ⟨t,ht,hf⟩ := (fillGap_spec _ _ _).1 e hin
      exact ⟨_,hplace hf,r,hr,rfl,mem_seqs.mp ht⟩
    · exact ⟨q,he,r,hr,hrange⟩
  · rintro ⟨⟨c,t⟩,he,r,hr,rfl,hrange⟩
    cases hgap : (fillGap info.chainToEvent r.1 (range' r.2.1 (r.2.2 + 1 - r.2.1))).2 with
    | true => exact .inr ⟨_,he,r,⟨_,⟨⟨r,hr,rfl⟩,hgap⟩,rfl⟩,rfl,hrange⟩
    | false =>
      -- the whole range is in memory, and no two events are at one place
      obtain ⟨f,hf,hlookup⟩ := (fillGap_spec _ _ _).2 hgap t (mem_seqs.mpr hrange)
      obtain rfl := hexact.unique he (hplace hlookup)
      exact .inl ⟨r,hr,hf⟩

theorem foldl_addLinks_setToChain (conflicted additional : List (Place ℕ))
    (batches : List (List (Link ℕ))) (r : Reachable) :
    (batches.foldl (Reachable.addLinks conflicted additional) r).setToChain =
      r.setToChain.map (walkBatches batches) := by
  induction batches generalizing r with
  | nil => exact (map_id _).symm
  | cons links batches ih =>
    rw [List.foldl_cons,ih,Reachable.addLinks,List.map_map]
    rfl

theorem mem_foldl_union (sets : List (Dict ℕ ℕ)) (seen : List ℕ) (c : ℕ) :
    c ∈ sets.foldl (fun seen chains => seen ∪ chains.keys) seen ↔ c ∈ seen ∨ ∃ chains ∈ sets, c ∈ chains := by
  induction sets generalizing seen with
  | nil => simp
  | cons chains sets ih =>
    rw [List.foldl_cons,ih,mem_union_iff,exists_mem_cons_iff,or_assoc]
    rfl

theorem mem_of_height_pos {m : Dict ℕ ℕ} {c : ℕ} (h : 0 < height m c) : c ∈ m := by
  by_contra hnot
  rw [height,lookup_eq_none.mpr hnot,Option.getD_none] at h
  omega

def Reachable.Sees (r : Reachable) : Prop :=
  ∀ chains ∈ r.setToChain, ∀ c, 0 < height chains c → c ∈ r.seenChains

theorem foldl_addLinks_sees (conflicted additional : List (Place ℕ))
    (batches : List (List (Link ℕ))) {r : Reachable} (h : r.Sees) :
    (batches.foldl (Reachable.addLinks conflicted additional) r).Sees := by
  induction batches generalizing r with
  | nil => exact h
  | cons links batches ih =>
    apply ih
    intro chains hchains c hc
    rw [Reachable.addLinks,mem_foldl_union]
    exact .inr ⟨chains,hchains,mem_of_height_pos hc⟩

theorem mem_authGaps {r : Reachable} (hsees : r.Sees) (hne : r.setToChain ≠ []) {c t : ℕ} :
    (∃ gap ∈ r.authGaps, gap.1 = c ∧ gap.2.1 ≤ t ∧ t ≤ gap.2.2) ↔
      (∃ chains ∈ r.setToChain, t ≤ height chains c) ∧ ¬∀ chains ∈ r.setToChain, t ≤ height chains c := by
  let numbers := r.setToChain.map fun chains => height chains c
  have hnumbers : numbers ≠ [] := by simpa [numbers] using hne
  obtain ⟨low,hlow⟩ := Option.ne_none_iff_exists'.mp (mt min?_eq_none_iff.mp hnumbers)
  obtain ⟨high,hhigh⟩ := Option.ne_none_iff_exists'.mp (mt max?_eq_none_iff.mp hnumbers)
  obtain ⟨hhighmem,hhighle⟩ := max?_eq_some_iff.mp hhigh
  have hsome : (∃ chains ∈ r.setToChain, t ≤ height chains c) ↔ t ≤ high := by
    constructor
    · rintro ⟨chains,hin,hle⟩
      exact hle.trans (hhighle _ (mem_map_of_mem hin))
    · intro hle
      obtain ⟨chains,hin,heq⟩ := mem_map.mp hhighmem
      exact ⟨chains,hin,heq ▸ hle⟩
  have hall : (∀ chains ∈ r.setToChain, t ≤ height chains c) ↔ t ≤ low := by
    rw [le_min?_iff hlow,forall_mem_map]
  have hgap : (∃ gap ∈ r.authGaps, gap.1 = c ∧ gap.2.1 ≤ t ∧ t ≤ gap.2.2) ↔
      c ∈ r.seenChains ∧ low < high ∧ low + 1 ≤ t ∧ t ≤ high := by
    have hmin : (r.setToChain.map fun chains => (chains.lookup c).getD 0).min? = some low := hlow
    have hmax : (r.setToChain.map fun chains => (chains.lookup c).getD 0).max? = some high := hhigh
    simp only [Reachable.authGaps,mem_filterMap,Option.ite_none_right_eq_some, Option.some.injEq]
    constructor
    · rintro ⟨_,⟨d,hd,hlt,rfl⟩,hdc,hfirst,hlast⟩
      obtain rfl : d = c := hdc
      rw [hmin,hmax] at hlt
      rw [hmin] at hfirst
      rw [hmax] at hlast
      exact ⟨hd,hlt,hfirst,hlast⟩
    · rintro ⟨hc,hlt,hfirst,hlast⟩
      refine ⟨(c,low + 1,high),⟨c,hc,?_,?_⟩,rfl,hfirst,hlast⟩
      · rw [hmin,hmax]
        exact hlt
      · rw [hmin,hmax]
        rfl
  rw [hgap,hsome,hall]
  constructor
  · intro h
    omega
  · intro h
    obtain ⟨chains,hin,hle⟩ := hsome.mpr h.1
    exact ⟨hsees chains hin c (by omega),by omega,by omega,h.1⟩

/-- Whatever the loops do once the state sets are prepared, they return the difference. -/
theorem walked_difference (hdb : db.Covers room) (hne : stateSets ≠ []) (ch : Choices)
    (conflicted additional : List (Place ℕ)) {difference : List String}
    {indexed : List String → List String}
    (hprep : Prepared room db stateSets difference indexed info) :
    ∃ setToChain, (stateSets.map indexed).mapM (maxOfStateSet info.chainInfo) = .ok setToChain ∧
      ∀ e, e ∈ difference ∪ fetchRanges db info.chainToEvent
        ((getChainLinks db.eventAuthChainLinks (ch.arrangeChains info.seenChains)).foldl
          (Reachable.addLinks conflicted additional)
          ⟨setToChain,info.seenChains,∅,∅⟩).authGaps ↔ room.Differs stateSets e := by
  obtain ⟨loaded,hinfo⟩ := hprep.holds
  have hstarts : ∀ s, ∃ m, s ∈ stateSets → maxOfStateSet info.chainInfo (indexed s) = .ok m ∧
      Starts info.chainInfo (indexed s) m := by
    intro s
    by_cases hs : s ∈ stateSets
    · obtain ⟨m,hm⟩ := maxOfStateSet_starts (hprep.known s hs)
      exact ⟨m,fun _ => hm⟩
    · exact ⟨∅,fun h => absurd h hs⟩
  choose start hstart using hstarts
  have hrun : (stateSets.map indexed).mapM (maxOfStateSet info.chainInfo) = .ok (stateSets.map start) := by
    rw [mapM_map]
    exact mapM_eq_ok fun s hs => (hstart s hs).1
  refine ⟨stateSets.map start,hrun,fun e => ?_⟩
  let batches := getChainLinks db.eventAuthChainLinks (ch.arrangeChains info.seenChains)
  let r := batches.foldl (Reachable.addLinks conflicted additional) ⟨stateSets.map start,info.seenChains,∅,∅⟩
  have hfetched := getChainLinks_spec db.eventAuthChainLinks (ch.arrangeChains info.seenChains)
  have hseen : ∀ s ∈ stateSets, ∀ c, 0 < height (start s) c → c ∈ info.seenChains := by
    intro s hs c hc
    obtain ⟨a,-,hp⟩ := (hstart s hs).2.event c hc
    exact (hinfo.seen c).mpr ⟨a,_,hp,rfl⟩
  have hsees : r.Sees := by
    apply foldl_addLinks_sees
    intro chains hchains c hc
    obtain ⟨s,hs,rfl⟩ := mem_map.mp hchains
    exact hseen s hs c hc
  have hsets : r.setToChain = stateSets.map fun s => walkBatches batches (start s) := by
    rw [foldl_addLinks_setToChain,List.map_map]
    rfl
  rw [mem_union_iff,hprep.difference,mem_fetchRanges hdb.exact hinfo]
  cases hq : db.eventAuthChains.lookup e with
  | none => simp [lookup_eq_none.mp hq]
  | some q =>
    have hindex : e ∈ db.eventAuthChains := Dict.mem_iff.mpr ⟨q,hq⟩
    have hchain : ∀ s ∈ stateSets, room.InChain s e ↔ q.2 ≤ height (walkBatches batches (start s)) q.1 := by
      intro s hs
      rw [hprep.chain s hs e hindex]
      apply inChain_iff hdb hinfo (hprep.known s hs) (hstart s hs).2 hfetched _ hq
      intro c hc
      exact (ch.arrangeChains_perm _).mem_iff.mpr (hseen s hs c hc)
    have hgap := mem_authGaps hsees (c := q.1) (t := q.2) (by simpa [hsets] using hne)
    simp only [hsets,mem_map,exists_exists_and_eq_and,forall_exists_index,and_imp,
      forall_apply_eq_imp_iff₂] at hgap
    have hdiffers : room.Differs stateSets e ↔
        (∃ s ∈ stateSets, q.2 ≤ height (walkBatches batches (start s)) q.1) ∧
          ¬∀ s ∈ stateSets, q.2 ≤ height (walkBatches batches (start s)) q.1 := by
      rw [Room.Differs,exists_congr fun s => and_congr_right (hchain s), forall₂_congr hchain]
    rw [hdiffers,← hgap]
    simp [hindex,r,batches]

/-- Without a conflicted set the function returns, and with or without one what it returns is
the difference of the auth chains. -/
theorem coverIndexDifference_ok (hdb : db.Covers room) (ch : Choices) (hne : stateSets ≠ [])
    (hsets : ∀ s ∈ stateSets, ∀ e ∈ s, e ∈ db.eventAuthChains ∨ e ∈ db.eventAuthChainToCalculate)
    (conflictedSet additional : Option (List String)) : (conflictedSet = none →
      ∃ d, getAuthChainDifferenceUsingCoverIndex ch db stateSets conflictedSet additional = .ok d) ∧
    ∀ d, getAuthChainDifferenceUsingCoverIndex ch db stateSets conflictedSet additional = .ok d →
      ∀ e, e ∈ d.authDifference ↔ room.Differs stateSets e := by
  obtain ⟨difference,indexed,info,hrun,hprep⟩ := prepareStateSets_ok hdb ch hsets
  refine ⟨?_,fun d hd => ?_⟩
  · rintro rfl
    obtain ⟨setToChain,hstart,-⟩ := walked_difference hdb hne ch [] [] hprep
    simp only [getAuthChainDifferenceUsingCoverIndex,if_neg hne,checkConflicted,hrun,hstart,pure_eq,ok_bind]
    exact ⟨_,rfl⟩
  · simp only [getAuthChainDifferenceUsingCoverIndex,if_neg hne,hrun, ok_bind,bind_eq_ok] at hd
    obtain ⟨-,-,⟨conflicted,extra⟩,-,hd⟩ := hd
    obtain ⟨setToChain,hstart,hmem⟩ := walked_difference hdb hne ch conflicted extra hprep
    obtain ⟨_,hstart',hd⟩ := hd
    cases hstart.symm.trans hstart'
    cases hd
    exact hmem

/-- The union minus the intersection of the closed auth chains, for any room with an exact
index of some of its events. -/
theorem getAuthChainDifferenceUsingCoverIndex_exact (room : Room) (db : Database)
    (hdb : db.Covers room) (ch : Choices) (stateSets : List (List String)) (hne : stateSets ≠ [])
    (hsets : ∀ s ∈ stateSets, ∀ e ∈ s,
      e ∈ db.eventAuthChains ∨ e ∈ db.eventAuthChainToCalculate) :
    (∃ d, getAuthChainDifferenceUsingCoverIndex ch db stateSets none none = .ok d ∧
      ∀ e, e ∈ d.authDifference ↔ (∃ s ∈ stateSets, room.InChain s e) ∧
        ¬∀ s ∈ stateSets, room.InChain s e) ∧
    ∀ conflictedSet additional d,
      getAuthChainDifferenceUsingCoverIndex ch db stateSets conflictedSet additional = .ok d →
      ∀ e, e ∈ d.authDifference ↔ (∃ s ∈ stateSets, room.InChain s e) ∧
        ¬∀ s ∈ stateSets, room.InChain s e := by
  have hok := coverIndexDifference_ok hdb ch hne hsets
  refine ⟨?_,fun conflictedSet additional d hd => (hok conflictedSet additional).2 d hd⟩
  obtain ⟨d,hd⟩ := (hok none none).1 rfl
  exact ⟨d,hd,(hok none none).2 d hd⟩

def waitingRoom : Room where
  auth e := if e = "$member" then ["$create","$lost"] else []
  acyclic := .of_rank (fun e => if e = "$member" then 1 else 0) fun n m hm => by
    split at hm
    case isTrue hn =>
      rcases mem_pair.mp hm with rfl | rfl <;> simp [hn]
    case isFalse => cases hm

def waitingDatabase : Database where
  events := ((∅ : Dict String (String × String)).insert "$create" ("m.room.create","")).insert
    "$member" ("m.room.member","@alice:example.org")
  eventAuth := [("$member","$create"),("$member","$lost")]
  eventAuthChains := (∅ : Dict String (Place ℕ)).insert "$create" (1,1)
  eventAuthChainLinks := []
  eventAuthChainToCalculate := (∅ : Dict String (String × String)).insert "$member"
    ("m.room.member","@alice:example.org")
  eventAuthChainId := 1

theorem waitingDatabase_covers : waitingDatabase.Covers waitingRoom := by
  have hlookup : ∀ {e p}, waitingDatabase.eventAuthChains.lookup e = some p → e = "$create" ∧ p = (1,1) := by
    intro e p hp
    by_cases he : e = "$create"
    · subst he
      exact ⟨rfl,(Option.some.inj hp).symm⟩
    · rw [waitingDatabase,lookup_insert_ne he] at hp
      cases hp
  have hmem : ∀ {e}, e ∈ waitingDatabase.eventAuthChains ↔ e = "$create" := by
    intro e
    rw [waitingDatabase,mem_insert]
    exact or_iff_left (notMem_empty e)
  have hwaits : ∀ {e}, e ∈ waitingDatabase.eventAuthChainToCalculate ↔ e = "$member" := by
    intro e
    rw [waitingDatabase,mem_insert]
    exact or_iff_left (notMem_empty e)
  refine ⟨fun e a => ?_,⟨fun ha hb => ?_,fun ha hb => ?_,fun ha hs => ?_⟩,?_,?_,?_,?_,?_⟩
  · by_cases he : e = "$member" <;> simp [waitingRoom,waitingDatabase,Database.authIds,he]
  · obtain ⟨rfl,rfl⟩ := hlookup ha
    obtain ⟨rfl,rfl⟩ := hlookup hb
    exact ⟨fun _ => .refl,fun _ => .refl⟩
  · rw [(hlookup ha).1,(hlookup hb).1]
  · have hone := congrArg Prod.snd (hlookup ha).2
    omega
  · intro e a he ha
    rw [hmem.mp he] at ha
    simp [waitingRoom] at ha
  · intro e he hindex
    rw [hwaits.mp he] at hindex
    exact absurd (hmem.mp hindex) (by decide)
  · intro e hne
    by_cases he : e = "$member"
    · exact .inr (hwaits.mpr he)
    · exact absurd (by simp [waitingRoom,he]) hne
  · intro e p hp
    rw [(hlookup hp).2]
  · intro l hl
    cases hl

theorem getAuthChainDifferenceUsingCoverIndex_exact_waiting :
    (∃ d, getAuthChainDifferenceUsingCoverIndex .listed waitingDatabase
        [["$create"],["$member"]] none none = .ok d ∧
      ∀ e, e ∈ d.authDifference ↔
        (∃ s ∈ [["$create"],["$member"]], waitingRoom.InChain s e) ∧
          ¬∀ s ∈ [["$create"],["$member"]], waitingRoom.InChain s e) :=
  (getAuthChainDifferenceUsingCoverIndex_exact waitingRoom waitingDatabase waitingDatabase_covers
    .listed [["$create"],["$member"]] (by simp) (by decide)).1

def Database.storedRoom (db : Database) (room : Room) (h : db.Sound room) : Room where
  auth := db.authIds
  acyclic := room.acyclic.mono fun e a ha => by
    by_cases he : e ∈ db.events
    · exact (h.auth_ids e he).mem_iff.mp ha
    · rw [h.no_auth_ids e he] at ha
      cases ha

theorem Database.Sound.known (h : db.Sound room) {e : String} (he : e ∈ db.events) :
    e ∈ db.eventAuthChains ∨ e ∈ db.eventAuthChainToCalculate := by
  rw [h.parked]
  tauto

theorem Database.Sound.covers (h : db.Sound room) : db.Covers (db.storedRoom room h) := by
  have hedge : ∀ {e a p}, db.eventAuthChains.lookup e = some p →
      ((db.storedRoom room h).edge e a ↔ room.edge e a) := fun hp =>
    (h.auth_ids _ (h.stored _ (Dict.mem_iff.mpr ⟨_,hp⟩))).mem_iff
  have hcover : Cover (db.storedRoom room h).edge db.eventAuthChains.lookup
      {l | l ∈ db.eventAuthChainLinks} := by
    refine ⟨h.cover.unique,h.cover.pos,fun he hs => ?_,fun he hef => h.cover.closed he ((hedge he).mp hef),
      fun l hl => ?_,fun he hef => h.cover.complete he ((hedge he).mp hef)⟩
    · obtain ⟨f,hf,hef⟩ := h.cover.below he hs
      exact ⟨f,hf,(hedge he).mpr hef⟩
    · obtain ⟨e,f,he,hf,hef⟩ := h.cover.sound l hl
      exact ⟨e,f,he,hf,(hedge he).mpr hef⟩
  refine ⟨fun _ _ => Iff.rfl,⟨fun ha hb => (hcover.reach_iff ha hb).symm,hcover.unique,fun ha hs => ?_⟩,
    fun e a he hea => ?_,?_,?_,?_,?_⟩
  · obtain ⟨b,hb,hab⟩ := hcover.below ha hs
    exact ⟨b,hab,hb⟩
  · obtain ⟨p,hp⟩ := Dict.mem_iff.mp he
    exact Dict.mem_iff.mpr (hcover.closed hp hea)
  · exact fun e he => ((h.parked e).mp he).2
  · intro e hne
    apply h.known
    by_contra hnot
    exact hne (h.no_auth_ids e hnot)
  · exact fun e p => h.cover.pos
  · intro l hl
    obtain ⟨e,-,he,-⟩ := h.cover.sound l hl
    exact h.cover.pos he

/-- Whatever was persisted, for stored events the index answers the difference of the auth chains
as they are stored. -/
theorem persisted_difference_exact (room : Room) (batches : List Batch)
    (h : ∀ b ∈ batches, ∀ e ∈ b.events,
      e.authEventIds = room.auth e.eventId ∧ (room.auth e.eventId).Nodup) (ch : Choices)
    (stateSets : List (List String)) (hne : stateSets ≠ []) : ∃ db, ∃ stored : Room,
      persistBatches .empty batches = .ok db ∧ stored.auth = db.authIds ∧
      ((∀ s ∈ stateSets, ∀ e ∈ s, e ∈ db.events) →
        ∃ d, getAuthChainDifferenceUsingCoverIndex ch db stateSets none none = .ok d ∧
          ∀ e, e ∈ d.authDifference ↔ stored.Differs stateSets e) := by
  obtain ⟨db,hrun,hdb⟩ := persistBatches_sound room fun b hb e he =>
    ⟨(h b hb e he).1,(h b hb e he).2⟩
  refine ⟨db,db.storedRoom room hdb,hrun,rfl,fun hstored => ?_⟩
  obtain ⟨hok,hexact⟩ := coverIndexDifference_ok hdb.covers ch hne
    (fun s hs e he => hdb.known (hstored s hs e he)) none none
  obtain ⟨d,hd⟩ := hok rfl
  exact ⟨d,hd,hexact d hd⟩

theorem persisted_difference_exact_member :
    ∃ db, persistBatches .empty [memberBatch ["$create"]] = .ok db := by
  obtain ⟨db,-,hrun,-⟩ := persisted_difference_exact (memberRoom ["$create"] (by simp))
    [memberBatch ["$create"]] (by simp [memberBatch,memberRoom]) .listed [["$create"],["$member"]] (by simp)
  exact ⟨db,hrun⟩

end TextrpBriij.AuthChain
