import TextrpBriij.AuthChain.BreadthFirstExact
import TextrpBriij.AuthChain.Subgraph

/-! # The conflicted subgraph

What `get_auth_chain_difference_extended` returns as the conflicted subgraph of a room whose
chains are fetched at once. An event without a chain among the conflicted ones is not looked
for before it is used, and an event whose chain has no links does not count as reached.
-/
namespace TextrpBriij.AuthChain
open ChainCover Relation List AList Fallible

variable {room : Room} {db : Database} {stateSets : List (List String)} {info : ChainInfo}
  {table : List (Link ℕ)} {cs : List ℕ}

/-- A persisted event on a path from a conflicted or additional event back to a conflicted
event. -/
def Room.OnPath (room : Room) (db : Database) (conflicted additional : List String) (e : String) : Prop :=
  (e ∈ db.eventAuthChains ∨ e ∈ db.eventAuthChainToCalculate) ∧
    ∃ x ∈ conflicted ++ additional, ∃ y ∈ conflicted, ReflTransGen room.edge x e ∧ ReflTransGen room.edge e y

/-- The event has a place on a chain that links start from. -/
def Database.Linked (db : Database) (e : String) : Prop :=
  ∃ p, db.eventAuthChains.lookup e = some p ∧ ∃ l ∈ db.eventAuthChainLinks, l.origin.1 = p.1

/-- All sequence numbers are below the bound of the code. -/
structure Database.ShortChains (db : Database) : Prop where
  places : ∀ e p, db.eventAuthChains.lookup e = some p → p.2 < maxChainLength
  links : Short db.eventAuthChainLinks

/-- The chains that hold events of the state sets' auth chains. -/
def Database.chainsOf (room : Room) (db : Database) (stateSets : List (List String)) : Set ℕ :=
  {c | ∃ e p, db.eventAuthChains.lookup e = some p ∧ p.1 = c ∧ ∃ s ∈ stateSets, room.InChain s e}

theorem getChainLinks_one (h : cs.length ≤ 1000) (hne : cs ≠ []) :
    getChainLinks table cs = [chainLinksQuery table cs] := by
  cases cs with
  | nil => exact absurd rfl hne
  | cons c cs =>
    have hdrop : (c :: cs).drop 1000 = [] := drop_eq_nil_of_le h
    have htake : (c :: cs).take 1000 = c :: cs := take_of_length_le h
    have hrest : ∀ fuel, fetchChainLinks table fuel [] = [] := fun fuel => by
      cases fuel <;> rfl
    rw [getChainLinks,length_cons,fetchChainLinks]
    simp [htake,hdrop,hrest]

theorem chainLinksQuery_dominates (table : List (Link ℕ)) (cs : List ℕ) :
    Dominates {l | l ∈ chainLinksQuery table cs} {l | l ∈ table}
      {c | c ∈ cs ∨ ∃ l ∈ chainLinksQuery table cs, l.target.1 = c} := by
  have hin : ∀ l ∈ table, (l.origin.1 ∈ cs ∨
      ∃ k ∈ chainLinksQuery table cs, k.target.1 = l.origin.1) → l ∈ chainLinksQuery table cs := by
    intro l hl hchain
    rcases hchain with hcs | ⟨k,hk,htarget⟩
    · exact chainLinksQuery_start hl hcs
    · exact chainLinksQuery_closed hk hl (.inr htarget.symm)
  refine ⟨fun l hl => chainLinksQuery_sub hl,fun l hl hchain => ?_,fun l hl hchain => ?_⟩
  · exact .inr ⟨l,hin l hl hchain,rfl⟩
  · exact ⟨l,hin l hl hchain,rfl,le_rfl,rfl,le_rfl⟩

theorem mem_subgraphGaps {r : Reachable} {c t : ℕ} (ht : 1 ≤ t) :
    (∃ gap ∈ r.subgraphGaps, gap.1 = c ∧ gap.2.1 ≤ t ∧ t ≤ gap.2.2) ↔
      t ≤ height r.conflictedBackwards c ∧ ∃ f, r.conflictedForwards.lookup c = some f ∧ f ≤ t := by
  constructor
  · rintro ⟨gap,hgap,hc,hfirst,hlast⟩
    obtain ⟨⟨d,back⟩,hin,hentry⟩ := mem_filterMap.mp hgap
    cases hlookup : r.conflictedForwards.lookup d with
    | none =>
      simp only [hlookup] at hentry
      cases hentry
    | some f =>
      simp only [hlookup,Option.ite_none_left_eq_some,Option.some.injEq] at hentry
      obtain ⟨-,rfl⟩ := hentry
      obtain rfl : d = c := hc
      have hback := mem_lookup_iff.mpr hin
      exact ⟨by rw [height,hback]; exact hlast,f,hlookup,hfirst⟩
  · rintro ⟨hback,f,hlookup,hf⟩
    have hheight : 0 < height r.conflictedBackwards c := by omega
    obtain ⟨back,hentry⟩ := Dict.mem_iff.mp (mem_of_height_pos hheight)
    rw [height,hentry,Option.getD_some] at hback
    refine ⟨(c,f,back),mem_filterMap.mpr ⟨⟨c,back⟩,mem_lookup_iff.mp hentry,?_⟩, rfl,hf,hback⟩
    simp only [hlookup,if_neg (by omega : ¬back < f)]

theorem mem_subgraph_batch (hpos : ∀ l ∈ table, 1 ≤ l.origin.2) (hshort : Short table)
    {conflicted additional : List (Place ℕ)}
    (hplaces : ∀ p ∈ conflicted ++ additional, p.1 ∈ cs ∧ p.2 < maxChainLength)
    {q : Place ℕ} (hq : 1 ≤ q.2) (hqmax : q.2 < maxChainLength) (r : Reachable)
    (hforwards : r.conflictedForwards = ∅) (hbackwards : r.conflictedBackwards = ∅) :
    (∃ gap ∈ (r.addLinks conflicted additional (chainLinksQuery table cs)).subgraphGaps,
        gap.1 = q.1 ∧ gap.2.1 ≤ q.2 ∧ q.2 ≤ gap.2.2) ↔
      (∃ p ∈ conflicted ++ additional, (∃ l ∈ table, l.origin.1 = p.1) ∧
        Reach {l | l ∈ table} p q) ∧ ∃ p ∈ conflicted, Reach {l | l ∈ table} q p := by
  let links := chainLinksQuery table cs
  let r' := r.addLinks conflicted additional links
  have hdom := chainLinksQuery_dominates table cs
  have hsub : ∀ l ∈ links, l ∈ table := fun l hl => chainLinksQuery_sub hl
  have hlinkpos : ∀ l ∈ links, 1 ≤ l.origin.2 := fun l hl => hpos l (hsub l hl)
  have hlinkshort : Short links := fun l hl => hshort l (hsub l hl)
  have hbackeq : r'.conflictedBackwards =
      ((conflicted ++ additional).filter fun p => p.1 ∈ links.map fun l => l.origin.1).foldl
        (accumulate links) ∅ := by
    simp only [r',Reachable.addLinks,hbackwards]
    rw [← foldl_append,foldl_accumulateBackwards]
  have hback : q.2 ≤ height r'.conflictedBackwards q.1 ↔
      ∃ p ∈ conflicted ++ additional, (∃ l ∈ table, l.origin.1 = p.1) ∧ Reach {l | l ∈ table} p q := by
    rw [hbackeq,(foldl_accumulate hlinkpos _).le_height_iff hq]
    constructor
    · rintro ⟨p,hp,hreach⟩
      obtain ⟨hin,horigin⟩ := mem_filter.mp hp
      obtain ⟨l,hl,hchain⟩ := mem_map.mp (of_decide_eq_true horigin)
      exact ⟨p,hin,⟨l,hsub l hl,hchain⟩,hreach.mono hsub⟩
    · rintro ⟨p,hp,⟨l,hl,hchain⟩,hreach⟩
      have hcs := (hplaces p hp).1
      have hl' : l ∈ links := chainLinksQuery_start hl (hchain ▸ hcs)
      refine ⟨p,mem_filter.mpr ⟨hp,decide_eq_true (mem_map.mpr ⟨l,hl',hchain⟩)⟩,?_⟩
      exact (hdom.reach_iff (.inl hcs)).mpr hreach
  have hflip : Flipped r'.conflictedForwards
      ((conflicted.map flip).foldl (accumulate (turned links)) ∅) := by
    simp only [r',Reachable.addLinks,hforwards]
    exact accumulateForwards_flip hlinkshort conflicted fun c => rfl
  have hturnedpos : ∀ l ∈ turned links, 1 ≤ l.origin.2 := by
    intro l hl
    obtain ⟨k,hk,rfl⟩ := mem_turned.mp hl
    have hk' := (hlinkshort k hk).2
    show 1 ≤ maxChainLength - k.target.2
    omega
  have hforward : (∃ f, r'.conflictedForwards.lookup q.1 =
      some f ∧ f ≤ q.2) ↔ ∃ p ∈ conflicted, Reach {l | l ∈ links} q p := by
    have hheight := hflip.getD q.1
    have hone : 1 ≤ (flip q).2 := by
      show 1 ≤ maxChainLength - q.2
      omega
    have hle := (foldl_accumulate hturnedpos (conflicted.map flip)).le_height_iff hone
    have hsame : (∃ f, r'.conflictedForwards.lookup q.1 =
        some f ∧ f ≤ q.2) ↔ (flip q).2 ≤
          height ((conflicted.map flip).foldl (accumulate (turned links)) ∅) (flip q).1 := by
      show _ ↔ maxChainLength - q.2 ≤ (((conflicted.map flip).foldl
        (accumulate (turned links)) ∅).lookup q.1).getD 0
      rw [hheight]
      cases r'.conflictedForwards.lookup q.1 with
      | none =>
        simp only [reduceCtorEq,false_and,exists_false,Option.getD_none,false_iff]
        omega
      | some f =>
        simp only [Option.some.injEq,exists_eq_left',Option.getD_some]
        omega
    rw [hsame,hle]
    simp only [mem_map,exists_exists_and_eq_and]
    apply exists_congr
    intro p
    apply and_congr_right
    intro hp
    have hp' := (hplaces p (mem_append_left _ hp)).2
    exact reach_turned_iff hlinkshort hp'.le hqmax.le
  rw [mem_subgraphGaps hq,hback,hforward]
  apply and_congr_right
  rintro ⟨p,hp,-,hreach⟩
  -- the place is on a chain of the batch, so the batch has all links from it on
  have hchain := hdom.mem_of_reach (.inl (hplaces p hp).1) hreach
  apply exists_congr
  intro y
  apply and_congr_right
  intro _
  exact hdom.reach_iff hchain

theorem Database.chainsOf_finite (room : Room) (db : Database) (stateSets : List (List String)) :
    (db.chainsOf room stateSets).Finite := by
  apply Set.Finite.subset (db.eventAuthChains.entries.map fun row => row.2.1).toFinset.finite_toSet
  rintro c ⟨e,p,hp,rfl,-⟩
  exact mem_toFinset.mpr (mem_map.mpr ⟨⟨e,p⟩,mem_lookup_iff.mp hp,rfl⟩)

theorem Prepared.seenChains_length {difference : List String} {indexed : List String → List String}
    (h : Prepared room db stateSets difference indexed info) :
    info.seenChains.length ≤ (db.chainsOf room stateSets).ncard := by
  obtain ⟨loaded,hinfo⟩ := h.holds
  rw [← toFinset_card_of_nodup hinfo.nodup,← Set.ncard_coe_finset]
  apply Set.ncard_le_ncard _ (db.chainsOf_finite room stateSets)
  intro c hc
  obtain ⟨e,p,hp,rfl⟩ := (hinfo.seen c).mp (mem_toFinset.mp hc)
  exact ⟨e,p,((hinfo.chainInfo e p).mp hp).2,rfl,h.within e p hp⟩

variable {additional : Option (List String)}

/-- Conflicted and additional events with a chain: the subgraph has the events on the paths,
but only those that an event on a chain with links leads to. -/
theorem coverIndex_subgraph (hdb : db.Covers room) (hshort : db.ShortChains) (ch : Choices)
    (hne : stateSets ≠ []) (hsets : ∀ s ∈ stateSets, ∀ e ∈ s,
      e ∈ db.eventAuthChains ∨ e ∈ db.eventAuthChainToCalculate)
    (hfew : (db.chainsOf room stateSets).ncard ≤ 1000) {conflicted : List String}
    (hin : ∀ e ∈ conflicted ++ additional.getD [], e ∈ stateSets.flatten)
    (hindex : ∀ e ∈ conflicted ++ additional.getD [], e ∈ db.eventAuthChains) :
    ∃ d, getAuthChainDifferenceUsingCoverIndex ch db stateSets (some conflicted) additional =
      .ok d ∧ ∀ e, e ∈ d.conflictedSubgraph ↔ e ∈ db.eventAuthChains ∧
        (∃ x ∈ conflicted ++ additional.getD [], db.Linked x ∧ ReflTransGen room.edge x e) ∧
          ∃ y ∈ conflicted, ReflTransGen room.edge e y := by
  obtain ⟨difference,indexed,info,hrun,hprep⟩ := prepareStateSets_ok hdb ch hsets
  obtain ⟨loaded,hinfo⟩ := hprep.holds
  let place : String → Place ℕ := fun e => (db.eventAuthChains.lookup e).getD (0,0)
  have hplace : ∀ e ∈ conflicted ++ additional.getD [], db.eventAuthChains.lookup e = some (place e) := by
    intro e he
    obtain ⟨p,hp⟩ := Dict.mem_iff.mp (hindex e he)
    simp [place,hp]
  have hknown : ∀ e ∈ conflicted ++ additional.getD [], info.chainInfo.lookup e = some (place e) := by
    intro e he
    obtain ⟨s,hs,hes⟩ := mem_flatten.mp (hin e he)
    exact hprep.given s hs e hes _ (hplace e he)
  have hpositions : conflictedPositions info.chainInfo (some conflicted) additional =
      .ok (conflicted.map place,(additional.getD []).map place) := by
    have hget : ∀ l ⊆ conflicted ++ additional.getD [], l.mapM info.chainInfo.get = .ok (l.map place) :=
      fun l hl => mapM_eq_ok fun e he => Dict.get_eq_ok.mpr (hknown e (hl he))
    simp only [conflictedPositions,hget _ (subset_append_left ..),hget _ (subset_append_right ..),
      ok_bind,pure_eq]
  have hcheck : checkConflicted stateSets.flatten (some conflicted) additional = .ok () := by
    have hnone : ∀ l ⊆ conflicted ++ additional.getD [],
        (l.any fun e => decide (e ∉ stateSets.flatten)) = false := by
      intro l hl
      rw [any_eq_false]
      intro e he
      simpa using hin e (hl he)
    simp only [checkConflicted,hnone _ (subset_append_left ..),hnone _ (subset_append_right ..)]
    rfl
  obtain ⟨setToChain,hstart,-⟩ := walked_difference hdb hne ch (conflicted.map place)
    ((additional.getD []).map place) hprep
  let cs := ch.arrangeChains info.seenChains
  let start : Reachable := ⟨setToChain,info.seenChains,∅,∅⟩
  let r := (getChainLinks db.eventAuthChainLinks cs).foldl (Reachable.addLinks
    (conflicted.map place) ((additional.getD []).map place)) start
  have hchains : ∀ p ∈ conflicted.map place ++ (additional.getD []).map place,
      p.1 ∈ cs ∧ p.2 < maxChainLength := by
    intro p hp
    rw [← map_append] at hp
    obtain ⟨e,he,rfl⟩ := mem_map.mp hp
    refine ⟨(ch.arrangeChains_perm _).mem_iff.mpr ?_,hshort.places e _ (hplace e he)⟩
    exact (hinfo.seen _).mpr ⟨e,_,hknown e he,rfl⟩
  refine ⟨⟨difference ∪ fetchRanges db info.chainToEvent r.authGaps,
    fetchRanges db info.chainToEvent r.subgraphGaps⟩,?_,fun e => ?_⟩
  · simp only [getAuthChainDifferenceUsingCoverIndex,if_neg hne,hcheck,hrun,hpositions,hstart, ok_bind]
    rfl
  rw [mem_fetchRanges hdb.exact hinfo,Dict.mem_iff,← exists_and_right]
  refine exists_congr fun q => and_congr_right fun hq => ?_
  have hgaps : (∃ gap ∈ r.subgraphGaps, gap.1 = q.1 ∧ gap.2.1 ≤ q.2 ∧ q.2 ≤ gap.2.2) ↔
      (∃ p ∈ conflicted.map place ++ (additional.getD []).map place,
        (∃ l ∈ db.eventAuthChainLinks, l.origin.1 = p.1) ∧ Reach {l | l ∈ db.eventAuthChainLinks} p q) ∧
        ∃ p ∈ conflicted.map place, Reach {l | l ∈ db.eventAuthChainLinks} q p := by
    by_cases hcs : cs = []
    · -- without chains there are no positions
      have hnone : conflicted.map place ++ (additional.getD []).map place = [] := by
        apply eq_nil_iff_forall_not_mem.mpr
        intro p hp
        have hmem := (hchains p hp).1
        rw [hcs] at hmem
        cases hmem
      have hr : r = start := by
        show (getChainLinks db.eventAuthChainLinks cs).foldl _ start = start
        rw [hcs]
        rfl
      rw [hr,hnone]
      simp [Reachable.subgraphGaps,start]
    · have hlen : cs.length ≤ 1000 := by
        rw [(ch.arrangeChains_perm _).length_eq]
        exact hprep.seenChains_length.trans hfew
      have hr : r = start.addLinks (conflicted.map place) ((additional.getD []).map place)
          (chainLinksQuery db.eventAuthChainLinks cs) := by
        show (getChainLinks db.eventAuthChainLinks cs).foldl _ start = _
        rw [getChainLinks_one hlen hcs]
        rfl
      rw [hr]
      exact mem_subgraph_batch hdb.origin_pos hshort.links hchains (hdb.place_pos e _ hq)
        (hshort.places e _ hq) start rfl rfl
  rw [hgaps,← map_append]
  simp only [mem_map,exists_exists_and_eq_and]
  refine and_congr (exists_congr fun x => and_congr_right fun hx => ?_)
    (exists_congr fun y => and_congr_right fun hy => ?_)
  · have hp := hplace x hx
    rw [hdb.exact.reach_iff hp hq]
    simp [Database.Linked,hp]
  · exact (hdb.exact.reach_iff hq (hplace y (mem_append_left _ hy))).symm

theorem indexed_of_coverIndex_ok (hdb : db.Covers room) {ch : Choices} (hne : stateSets ≠ [])
    (hsets : ∀ s ∈ stateSets, ∀ e ∈ s, e ∈ db.eventAuthChains ∨ e ∈ db.eventAuthChainToCalculate)
    {conflicted : List String} {d : StateDifference}
    (hd : getAuthChainDifferenceUsingCoverIndex ch db stateSets (some conflicted) additional =
      .ok d) : ∀ e ∈ conflicted ++ additional.getD [], e ∈ db.eventAuthChains := by
  obtain ⟨difference,indexed,info,hrun,hprep⟩ := prepareStateSets_ok hdb ch hsets
  obtain ⟨loaded,hinfo⟩ := hprep.holds
  simp only [getAuthChainDifferenceUsingCoverIndex,if_neg hne,hrun,
    ok_bind,bind_eq_ok,conflictedPositions] at hd
  obtain ⟨-,-,_,⟨_,hconf,_,hadd,-⟩,-⟩ := hd
  have hfound : ∀ {ids : List String} {ps : List (Place ℕ)} {e : String},
      ids.mapM info.chainInfo.get = .ok ps → e ∈ ids → e ∈ db.eventAuthChains := by
    intro ids ps e hids he
    obtain ⟨p,hp⟩ := exists_of_mapM_eq_ok hids he
    exact Dict.mem_iff.mpr ⟨p,((hinfo.chainInfo e p).mp (Dict.get_eq_ok.mp hp)).2⟩
  intro e he
  rcases mem_append.mp he with he | he
  · exact hfound hconf he
  · exact hfound hadd he

def lineDatabase : Database where
  events := ∅
  eventAuth := [("$c","$b"),("$b","$a")]
  eventAuthChains := (((∅ : Dict String (Place ℕ)).insert "$a" (1,1)).insert "$b" (1,2)).insert "$c" (1,3)
  eventAuthChainLinks := []
  eventAuthChainToCalculate := ∅
  eventAuthChainId := 1

theorem lineDatabase_lookup {e : String} {p : Place ℕ} (h : lineDatabase.eventAuthChains.lookup e = some p) :
    (e = "$a" ∧ p = (1,1)) ∨ (e = "$b" ∧ p = (1,2)) ∨ (e = "$c" ∧ p = (1,3)) := by
  by_cases hc : e = "$c"
  · subst hc
    exact .inr (.inr ⟨rfl,(Option.some.inj h).symm⟩)
  by_cases hb : e = "$b"
  · subst hb
    exact .inr (.inl ⟨rfl,(Option.some.inj h).symm⟩)
  by_cases ha : e = "$a"
  · subst ha
    exact .inl ⟨rfl,(Option.some.inj h).symm⟩
  rw [lineDatabase,lookup_insert_ne hc,lookup_insert_ne hb,lookup_insert_ne ha] at h
  cases h

theorem lineRoom_auth {e a : String} (ha : a ∈ lineRoom.auth e) :
    (e = "$c" ∧ a = "$b") ∨ (e = "$b" ∧ a = "$a") := by
  simp only [lineRoom] at ha
  split at ha
  case isTrue he => exact .inl ⟨he,mem_singleton.mp ha⟩
  case isFalse =>
    split at ha
    case isTrue he => exact .inr ⟨he,mem_singleton.mp ha⟩
    case isFalse => cases ha

theorem lineRoom_reach_iff {e f : String} {p q : Place ℕ} (he : lineDatabase.eventAuthChains.lookup e = some p)
    (hf : lineDatabase.eventAuthChains.lookup f = some q) :
    ReflTransGen lineRoom.edge e f ↔ q.2 ≤ p.2 := by
  obtain ⟨hcb,hba⟩ := lineRoom_edges
  let rank : String → ℕ := fun e => if e = "$c" then 3 else if e = "$b" then 2 else 1
  have hrank : ∀ {x p}, lineDatabase.eventAuthChains.lookup x = some p → p.2 = rank x := by
    intro x p hx
    rcases lineDatabase_lookup hx with ⟨rfl,rfl⟩ | ⟨rfl,rfl⟩ | ⟨rfl,rfl⟩ <;> rfl
  have hdown : ∀ {x y}, ReflTransGen lineRoom.edge x y → rank y ≤ rank x := by
    intro x y hr
    induction hr with
    | refl => exact le_rfl
    | @tail u v _ huv ih =>
      apply le_trans _ ih
      rcases lineRoom_auth huv with ⟨rfl,rfl⟩ | ⟨rfl,rfl⟩ <;> simp [rank]
  constructor
  · intro hr
    rw [hrank he,hrank hf]
    exact hdown hr
  · intro hle
    rcases lineDatabase_lookup he with ⟨rfl,rfl⟩ | ⟨rfl,rfl⟩ | ⟨rfl,rfl⟩ <;>
      rcases lineDatabase_lookup hf with ⟨rfl,rfl⟩ | ⟨rfl,rfl⟩ | ⟨rfl,rfl⟩ <;>
      first
      | exact .refl
      | exact .single hba
      | exact .single hcb
      | exact .head hcb (.single hba)
      | exact absurd hle (by decide)

theorem lineDatabase_covers : lineDatabase.Covers lineRoom := by
  refine ⟨fun e a => ?_,⟨fun ha hb => ?_,fun ha hb => ?_,fun ha hs => ?_⟩,?_,?_,?_,?_,?_⟩
  · by_cases hc : e = "$c"
    · simp [lineRoom,lineDatabase,Database.authIds,hc]
    · by_cases hb : e = "$b"
      · simp [lineRoom,lineDatabase,Database.authIds,hb]
      · simp [lineRoom,lineDatabase,Database.authIds,hb]
  · rw [lineRoom_reach_iff ha hb]
    have hchain : ∀ {e p}, lineDatabase.eventAuthChains.lookup e = some p → p.1 = 1 := by
      intro e p hp
      rcases lineDatabase_lookup hp with ⟨-,rfl⟩ | ⟨-,rfl⟩ | ⟨-,rfl⟩ <;> rfl
    rename_i x y p q
    obtain ⟨c,s⟩ := p
    obtain ⟨c',s'⟩ := q
    obtain rfl : c = 1 := hchain ha
    obtain rfl : c' = 1 := hchain hb
    constructor
    · exact fun hle => Reach.down hle
    · intro hr
      have hsat : Saturated {l | l ∈ lineDatabase.eventAuthChainLinks} fun _ => s := by
        intro l hl
        cases hl
      exact hsat.le_of_reach hr le_rfl
  · rcases lineDatabase_lookup ha with ⟨rfl,rfl⟩ | ⟨rfl,rfl⟩ | ⟨rfl,rfl⟩ <;>
      rcases lineDatabase_lookup hb with ⟨rfl,h⟩ | ⟨rfl,h⟩ | ⟨rfl,h⟩ <;>
      first
      | rfl
      | exact absurd h (by decide)
  · rcases lineDatabase_lookup ha with ⟨rfl,h⟩ | ⟨rfl,h⟩ | ⟨rfl,h⟩
    · have hs' := congrArg Prod.snd h
      omega
    · obtain ⟨rfl,rfl⟩ : _ = 1 ∧ _ = 1 := by simpa using h
      exact ⟨"$a",by simp [lineRoom],rfl⟩
    · obtain ⟨rfl,rfl⟩ : _ = 1 ∧ _ = 2 := by simpa using h
      exact ⟨"$b",by simp [lineRoom],rfl⟩
  · intro e a _ ha
    rcases lineRoom_auth ha with ⟨-,rfl⟩ | ⟨-,rfl⟩ <;> decide
  · intro e he
    cases he
  · intro e hne
    obtain ⟨a,ha⟩ := exists_mem_of_ne_nil _ hne
    left
    rcases lineRoom_auth ha with ⟨rfl,-⟩ | ⟨rfl,-⟩ <;> decide
  · intro e p hp
    rcases lineDatabase_lookup hp with ⟨-,rfl⟩ | ⟨-,rfl⟩ | ⟨-,rfl⟩ <;> decide
  · intro l hl
    cases hl

theorem lineDatabase_short : lineDatabase.ShortChains := by
  constructor
  · intro e p hp
    rcases lineDatabase_lookup hp with ⟨-,rfl⟩ | ⟨-,rfl⟩ | ⟨-,rfl⟩ <;> decide
  · intro l hl
    cases hl

theorem lineDatabase_few (stateSets : List (List String)) :
    (lineDatabase.chainsOf lineRoom stateSets).ncard ≤ 1000 := by
  have hsub : lineDatabase.chainsOf lineRoom stateSets ⊆ {1} := by
    rintro c ⟨e,p,hp,rfl,-⟩
    rcases lineDatabase_lookup hp with ⟨-,rfl⟩ | ⟨-,rfl⟩ | ⟨-,rfl⟩ <;> rfl
  have hle := Set.ncard_le_ncard hsub (Set.finite_singleton 1)
  rw [Set.ncard_singleton] at hle
  omega

end TextrpBriij.AuthChain
