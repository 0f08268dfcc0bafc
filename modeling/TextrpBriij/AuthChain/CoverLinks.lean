import TextrpBriij.AuthChain.CoverAllocation

/-! # The new links

For each new event the links to its auth events are reduced to those that no other auth event
reaches. The links in memory answer that question as the stored ones would.
-/
namespace TextrpBriij.AuthChain
open ChainCover Api Util List Fallible

variable {room : Room} {db : Database} {c : Calculation} {ch : Choices}

theorem mem_linkRows {new : List (String × NewEventChainLinks)} {l : Link ℕ} :
    l ∈ linkRows new ↔ ∃ entry ∈ new, l.origin = (entry.2.chainId,entry.2.sequenceNumber) ∧
      l.target ∈ entry.2.links := by
  simp only [linkRows,mem_flatMap,mem_map]
  constructor
  · rintro ⟨entry,hin,target,ht,rfl⟩
    exact ⟨entry,hin,rfl,ht⟩
  · rintro ⟨entry,hin,horigin,ht⟩
    exact ⟨entry,hin,l.target,ht,by rw [← horigin]⟩

theorem loadLinks_ok (htidy : Tidy {l | l ∈ db.eventAuthChainLinks}) (chains : List ℕ) :
    ∃ m, loadLinks db chains = .ok m ∧
      m.links = {l | l ∈ (getChainLinks db.eventAuthChainLinks chains).flatten} := by
  have hspec := getChainLinks_spec db.eventAuthChainLinks chains
  refine foldlM_spec (fun pre (m : LinkMap) => m.links = {l | l ∈ pre}) (by simp [LinkMap.links_empty]) ?_
  intro pre l post m hsplit hm
  have hsub : ∀ k ∈ pre ++ [l], k ∈ db.eventAuthChainLinks := by
    intro k hk
    have hall : k ∈ (getChainLinks db.eventAuthChainLinks chains).flatten := by
      rw [hsplit,mem_append,mem_cons]
      rcases mem_append.mp hk with hk | hk
      · exact .inl hk
      · exact .inr (.inl (mem_singleton.mp hk))
    obtain ⟨links,hlinks,hin⟩ := mem_flatten.mp hall
    exact hspec.sub links hlinks k hin
  have hl := hsub l (by simp)
  obtain ⟨added,m',hadd,hcase⟩ := LinkMap.addLink_ok (m := m) (htidy.apart l hl) false
  rcases hcase with ⟨-,hfalse,-⟩ | hinsert
  · cases hfalse
  refine ⟨m',by simp [hadd],?_⟩
  rw [hinsert,LinkMap.links_insert,hm]
  · ext k
    show k = l ∨ k ∈ pre ↔ k ∈ pre ++ [l]
    simp [or_comm]
  · intro t ht
    rw [hm] at ht
    have := htidy.single _ (hsub _ (mem_append_left _ ht)) l hl rfl rfl
    rw [← this]

def loadedChains (table : List (Link ℕ)) (chains : List ℕ) : Set ℕ :=
  {x | x ∈ chains ∨ ∃ l ∈ (getChainLinks table chains).flatten, l.target.1 = x}

theorem loadLinks_dominates {table : List (Link ℕ)} {chains : List ℕ} :
    Dominates {l | l ∈ (getChainLinks table chains).flatten} {l | l ∈ table} (loadedChains table chains) := by
  have hspec := getChainLinks_spec table chains
  have hin : ∀ l ∈ table, l.origin.1 ∈ loadedChains table chains →
      l ∈ (getChainLinks table chains).flatten := by
    rintro l hl (hchain | ⟨k,hk,hchain⟩)
    · obtain ⟨links,hlinks,hin⟩ := hspec.fetched l hl hchain
      exact mem_flatten.mpr ⟨links,hlinks,hin⟩
    · obtain ⟨links,hlinks,hin⟩ := mem_flatten.mp hk
      have := hspec.closed links hlinks k hin l hl (.inr hchain.symm)
      exact mem_flatten.mpr ⟨links,hlinks,this⟩
  refine ⟨fun l hl => ?_,fun l hl hchain => .inr ⟨l,hin l hl hchain,rfl⟩,fun l hl hchain => ?_⟩
  · obtain ⟨links,hlinks,hmem⟩ := mem_flatten.mp hl
    exact hspec.sub links hlinks l hmem
  · exact ⟨l,hin l hl hchain,rfl,le_rfl,rfl,le_rfl⟩

variable {links : Set (Link ℕ)} {p : Place ℕ}

theorem existsPathFrom_iff_reach {m : LinkMap} {chains : Set ℕ}
    {place : String → Option (Place ℕ)} {e f : String} {q : Place ℕ}
    (hcover : Cover room.edge place links) (hdom : Dominates m.links links chains)
    (he : place e = some p) (hf : place f = some q) (hp : p.1 ∈ chains) :
    m.existsPathFrom p q ↔ Reach links p q := by
  by_cases hchain : p.1 = q.1
  · obtain ⟨x,s⟩ := p
    obtain ⟨y,t⟩ := q
    obtain rfl : x = y := hchain
    simp only [LinkMap.existsPathFrom,if_true,decide_eq_true_eq]
    exact ⟨fun hle => Reach.down hle,fun hr => hcover.not_ascending room.acyclic he hf hr⟩
  · rw [← hdom.reach_iff hp]
    refine LinkMap.existsPathFrom_iff hchain (fun l hl => ?_) (fun l hl hl' hr => ?_) (hcover.pos hf)
    · obtain ⟨a,b,ha,-,-⟩ := hcover.sound l (hdom.sub hl)
      exact hcover.pos ha
    · obtain ⟨a,b,-,hb,-⟩ := hcover.sound l (hdom.sub hl)
      obtain ⟨⟨x,s⟩,⟨y,t⟩⟩ := l
      obtain ⟨z,u⟩ := q
      obtain rfl : y = z := hl'
      exact hcover.not_ascending room.acyclic hb hf (hr.mono hdom.sub)

variable {l kept : List String}

theorem mem_permutations2 (hl : l.Nodup) {a b : String} : (a,b) ∈ permutations2 l ↔ a ∈ l ∧ b ∈ l ∧ a ≠ b := by
  simp only [permutations2,mem_flatMap,mem_filterMap,Prod.exists, mem_zipIdx_iff_getElem?]
  constructor
  · rintro ⟨x,i,hi,y,j,hj,hpair⟩
    split at hpair
    · rename_i hij
      cases hpair
      refine ⟨mem_of_getElem? hi,mem_of_getElem? hj,?_⟩
      rintro rfl
      obtain ⟨hlt,-⟩ := List.getElem?_eq_some_iff.mp hi
      exact hij ((getElem?_inj hlt hl).mp (hi.trans hj.symm))
    · cases hpair
  · rintro ⟨ha,hb,hne⟩
    obtain ⟨i,hi⟩ := getElem?_of_mem ha
    obtain ⟨j,hj⟩ := getElem?_of_mem hb
    refine ⟨a,i,hi,b,j,hj,?_⟩
    have hij : i ≠ j := by
      rintro rfl
      exact hne (Option.some.inj (hi.symm.trans hj))
    simp [hij]

variable {chainMap : Dict String (Place ℕ)}

theorem reduction_ok {place : String → Place ℕ}
    (hplace : ∀ a ∈ l, chainMap.lookup a = some (place a)) (m : LinkMap)
    (x : ℕ) (hpairs : ∀ pair ∈ permutations2 l, pair.1 ∈ l ∧ pair.2 ∈ l) :
    ∃ kept, reduction chainMap m x l = .ok kept ∧ kept.Nodup ∧ ∀ a, a ∈ kept ↔ (a ∈ l ∧ (place a).1 ≠ x) ∧
        ∀ b, (b,a) ∈ permutations2 l → ¬m.existsPathFrom (place b) (place a) := by
  have hget : ∀ a ∈ l, chainMap.get a = .ok (place a) := fun a ha => Dict.get_eq_ok.mpr (hplace a ha)
  have hmap : (l.mapM fun a => do
      let place ← chainMap.get a
      pure (a,place) : Except Error (List (String × Place ℕ))) = .ok (l.map fun a => (a,place a)) :=
    mapM_eq_ok fun a ha => by simp [hget a ha]
  unfold reduction
  rw [hmap]
  refine foldlM_spec (fun pre (kept : List String) => kept.Nodup ∧ ∀ a, a ∈ kept ↔
    (a ∈ l ∧ (place a).1 ≠ x) ∧ ∀ b, (b,a) ∈ pre → ¬m.existsPathFrom (place b) (place a)) ?_ ?_
  · exact ⟨nodup_dedup _,fun a => by simp⟩
  · rintro pre ⟨b,a⟩ post kept hsplit ⟨hnodup,hkept⟩
    obtain ⟨hb,ha⟩ := hpairs (b,a) (by simp [hsplit])
    rw [hget b hb,hget a ha]
    refine ⟨_,rfl,?_⟩
    by_cases hpath : m.existsPathFrom (place b) (place a)
    · rw [if_pos hpath]
      refine ⟨hnodup.filter _,fun f => ?_⟩
      rw [mem_filter,hkept]
      simp only [mem_append,mem_singleton,Prod.mk.injEq,decide_eq_true_eq]
      constructor
      · rintro ⟨⟨hf,hold⟩,hne⟩
        refine ⟨hf,fun g hg => ?_⟩
        rcases hg with hg | ⟨-,heq⟩
        · exact hold g hg
        · exact absurd heq hne
      · rintro ⟨hf,hall⟩
        refine ⟨⟨hf,fun g hg => hall g (.inl hg)⟩,?_⟩
        rintro rfl
        exact hall b (.inr ⟨rfl,rfl⟩) hpath
    · rw [if_neg hpath]
      refine ⟨hnodup,fun f => ?_⟩
      rw [hkept]
      simp only [mem_append,mem_singleton]
      refine and_congr_right fun _ => ⟨fun hold g hg => ?_,fun hall g hg => hall g (.inl hg)⟩
      rcases hg with hg | ⟨rfl,rfl⟩
      · exact hold g hg
      · exact hpath

def keptLinks (p : Place ℕ) (place : String → Place ℕ) (kept : List String) : Set (Link ℕ) :=
  {l | l.origin = p ∧ ∃ a ∈ kept, l.target = place a}

theorem addReduced_ok {place : String → Place ℕ} {m : LinkMap} {chains : Set ℕ}
    (hplace : ∀ a ∈ kept, chainMap.lookup a = some (place a))
    (hchain : ∀ a ∈ kept, (place a).1 ∈ chains ∧ (place a).1 ≠ p.1)
    (hsingle : ∀ a ∈ kept, ∀ b ∈ kept, (place a).1 = (place b).1 → place a = place b)
    (hfree : ∀ l ∈ links, l.origin ≠ p) (hdom : Dominates m.links links chains) :
    ∃ m', kept.foldlM (addReduced chainMap p) ([],m) = .ok (kept.map place,m') ∧
      Dominates m'.links (links ∪ keptLinks p place kept) chains := by
  suffices hloop : ∃ s, kept.foldlM (addReduced chainMap p) ([],m) = .ok s ∧ (s.1 = kept.map place ∧
        Dominates s.2.links (links ∪ keptLinks p place kept) chains) by
    obtain ⟨⟨targets,m'⟩,hrun,htargets,hd⟩ := hloop
    exact ⟨m',htargets ▸ hrun,hd⟩
  refine foldlM_spec (fun pre (s : List (Place ℕ) × LinkMap) => s.1 = pre.map place ∧
    Dominates s.2.links (links ∪ keptLinks p place pre) chains)
    ⟨rfl,by simpa [keptLinks] using hdom⟩ ?_
  rintro pre a post ⟨targets,m₁⟩ hsplit ⟨htargets,hd⟩
  simp only at htargets hd
  have ha : a ∈ kept := by simp [hsplit]
  have hpre : ∀ b ∈ pre, b ∈ kept := fun b hb => by simp [hsplit,hb]
  have hget : chainMap.get a = .ok (place a) := Dict.get_eq_ok.mpr (hplace a ha)
  obtain ⟨added,m₂,hadd,hcase⟩ := LinkMap.addLink_ok (m := m₁) (hchain a ha).2.symm true
  refine ⟨(targets ++ [place a],m₂),by simp [addReduced,hget,hadd],by simp [htargets],?_⟩
  have hunion : links ∪ keptLinks p place (pre ++ [a]) =
      insert ⟨p,place a⟩ (links ∪ keptLinks p place pre) := by
    ext ⟨o,t⟩
    simp only [keptLinks,Set.mem_insert_iff,Link.mk.injEq,
      mem_append,mem_singleton]
    constructor
    · rintro (hl | ⟨rfl,b,hb | rfl,rfl⟩)
      · exact .inr (.inl hl)
      · exact .inr (.inr ⟨rfl,b,hb,rfl⟩)
      · exact .inl ⟨rfl,rfl⟩
    · rintro (⟨rfl,rfl⟩ | hl | ⟨rfl,b,hb,rfl⟩)
      · exact .inr ⟨rfl,a,.inr rfl,rfl⟩
      · exact .inl hl
      · exact .inr ⟨rfl,b,.inl hb,rfl⟩
  rw [hunion]
  rcases hcase with ⟨rfl,-,hred⟩ | rfl
  · exact hd.insert (hchain a ha).1 (LinkMap.isRedundant_iff.mp hred) (Set.Subset.refl _)
      (Set.subset_insert _ _)
  · rw [LinkMap.links_insert]
    swap
    · intro t ht
      rcases hd.sub ht with hl | ⟨-,b,hb,htarget⟩
      · exact absurd rfl (hfree _ hl)
      · have := hsingle b (hpre b hb) a ha (by rw [← htarget])
        rw [← this,← htarget]
    exact hd.insert (hchain a ha).1 ⟨⟨p,place a⟩,.inl rfl,rfl,le_rfl,rfl,le_rfl⟩
      (Set.subset_insert _ _) (Set.Subset.refl _)

/-- The places that the calculated events are given, next to those of the index. -/
structure Placement (room : Room) (db : Database) (c : Calculation)
    (chainMap : Dict String (Place ℕ)) (place : String → Option (Place ℕ)) : Prop where
  auth : ∀ e ∈ c.eventsToCalcChainIdFor, (c.eventToAuthChain.edges e).Perm (room.auth e)
  nodup : ∀ e ∈ c.eventsToCalcChainIdFor, (room.auth e).Nodup
  unplaced : ∀ e ∈ c.eventsToCalcChainIdFor, db.eventAuthChains.lookup e = none
  old : ∀ e, e ∉ c.eventsToCalcChainIdFor → place e = db.eventAuthChains.lookup e
  new : ∀ e ∈ c.eventsToCalcChainIdFor, ∃ p, chainMap.lookup e = some p ∧ place e = some p
  pos : ∀ {e p}, e ∈ c.eventsToCalcChainIdFor → place e = some p → 1 ≤ p.2
  known : ∀ e ∈ c.eventsToCalcChainIdFor, ∀ a ∈ room.auth e, ∃ q, chainMap.lookup a = some q ∧ place a = some q
  unique : ∀ {e f p}, place e = some p → place f = some p → e = f
  below : ∀ {e x s}, e ∈ c.eventsToCalcChainIdFor → place e = some (x,s + 1) → 1 ≤ s →
    ∃ f ∈ room.auth e, place f = some (x,s)

def placeAt (db : Database) (place : String → Option (Place ℕ)) (pre : List String) (e : String) :
    Option (Place ℕ) :=
  if e ∈ pre then place e else db.eventAuthChains.lookup e

/-- The state of the loop over the events that get links. -/
structure Linked (room : Room) (db : Database) (place : String → Option (Place ℕ))
    (chains : Set ℕ) (pre : List String) (s : List (String × NewEventChainLinks) × LinkMap) :
    Prop where
  names : (s.1.map fun entry => entry.1) = pre
  places : ∀ entry ∈ s.1, place entry.1 = some (entry.2.chainId,entry.2.sequenceNumber)
  cover : Cover room.edge (placeAt db place pre) ({l | l ∈ db.eventAuthChainLinks} ∪ {l | l ∈ linkRows s.1})
  tidy : Tidy ({l | l ∈ db.eventAuthChainLinks} ∪ {l | l ∈ linkRows s.1})
  dominates : Dominates s.2.links ({l | l ∈ db.eventAuthChainLinks} ∪ {l | l ∈ linkRows s.1}) chains

section linking
variable {chainMap : Dict String (Place ℕ)} {place : String → Option (Place ℕ)} {chains : Set ℕ}
  {pre post : List String} {e : String} {s : List (String × NewEventChainLinks) × LinkMap}

theorem Placement.placeAt_some (h : Placement room db c chainMap place) {f : String}
    (hf : placeAt db place pre f = some p) : place f = some p := by
  unfold placeAt at hf
  split at hf
  · exact hf
  · rw [h.old f fun hin => ?_,hf]
    rw [h.unplaced f hin] at hf
    cases hf

theorem Placement.placeAt_auth (h : Placement room db c chainMap place)
    (horder : Topological c.eventToAuthChain.edges c.eventsToCalcChainIdFor (pre ++ e :: post))
    {a : String} (ha : a ∈ room.auth e) : placeAt db place pre a = place a := by
  have he : e ∈ c.eventsToCalcChainIdFor := (horder.mem e).mp (by simp)
  unfold placeAt
  split
  · rfl
  · rename_i hnot
    refine (h.old a fun hin => hnot ?_).symm
    exact horder.earlier pre e post rfl a ((h.auth e he).mem_iff.mpr ha) hin

def Kept (links : Set (Link ℕ)) (place : String → Place ℕ) (p : Place ℕ) (l kept : List String) : Prop :=
  ∀ a, a ∈ kept ↔ (a ∈ l ∧ (place a).1 ≠ p.1) ∧ ∀ b ∈ l, b ≠ a → ¬Reach links (place b) (place a)

theorem Kept.single {place : String → Place ℕ} (h : Kept links place p l kept) :
    ∀ a ∈ kept, ∀ b ∈ kept, (place a).1 = (place b).1 → place a = place b := by
  have hle : ∀ a ∈ kept, ∀ b ∈ kept, (place a).1 = (place b).1 → (place b).2 ≤ (place a).2 → a = b := by
    intro a ha b hb hchain hle
    by_contra hne
    refine ((h b).mp hb).2 a ((h a).mp ha).1.1 hne ?_
    have hdown : Reach links ((place a).1,(place a).2) ((place a).1,(place b).2) :=
      Reach.down hle
    have heq : ((place a).1,(place b).2) = place b := Prod.ext hchain rfl
    rwa [heq] at hdown
  intro a ha b hb hchain
  rcases Nat.le_total (place b).2 (place a).2 with hba | hab
  · rw [hle a ha b hb hchain hba]
  · rw [hle b hb a ha hchain.symm hab]

theorem reduction_kept {m : LinkMap} {at' : String → Place ℕ} (hl : l.Nodup)
    (hat : ∀ a ∈ l, chainMap.lookup a = some (at' a) ∧ place a = some (at' a))
    (hchains : ∀ a p, chainMap.lookup a = some p → p.1 ∈ chains)
    (hcover : Cover room.edge place links) (hdom : Dominates m.links links chains) :
    ∃ kept, reduction chainMap m p.1 l = .ok kept ∧ Kept links at' p l kept := by
  obtain ⟨kept,hred,-,hkept⟩ := reduction_ok (fun a ha => (hat a ha).1) m p.1 (fun pair hpair => by
      obtain ⟨h₁,h₂,-⟩ := (mem_permutations2 hl).mp hpair
      exact ⟨h₁,h₂⟩)
  refine ⟨kept,hred,fun a => (hkept a).trans ?_⟩
  refine and_congr_right fun hmem => forall_congr' fun b => ?_
  rw [mem_permutations2 hl]
  have hpath : b ∈ l → (m.existsPathFrom (at' b) (at' a) ↔ Reach links (at' b) (at' a)) :=
    fun hb => existsPathFrom_iff_reach hcover hdom (hat b hb).2 (hat a hmem.1).2 (hchains b _ (hat b hb).1)
  constructor
  · intro hnot hb hne hr
    exact hnot ⟨hb,hmem.1,hne⟩ ((hpath hb).mpr hr)
  · rintro hnot ⟨hb,-,hne⟩ hp
    exact hnot hb hne ((hpath hb).mp hp)

theorem linkRows_append (new : List (String × NewEventChainLinks)) (e : String) (p : Place ℕ)
    (kept : List String) (at' : String → Place ℕ) :
    ({l | l ∈ linkRows (new ++ [(e,⟨p.1,p.2,kept.map at'⟩)])} : Set (Link ℕ)) =
      {l | l ∈ linkRows new} ∪ keptLinks p at' kept := by
  ext ⟨o,t⟩
  simp only [mem_linkRows]
  constructor
  · rintro ⟨entry,hin,horigin,htarget⟩
    rcases mem_append.mp hin with hin | hin
    · exact .inl ⟨entry,hin,horigin,htarget⟩
    · rw [mem_singleton.mp hin] at horigin htarget
      obtain ⟨a,ha,heq⟩ := mem_map.mp htarget
      exact .inr ⟨horigin,a,ha,heq.symm⟩
  · rintro (⟨entry,hin,horigin,htarget⟩ | ⟨horigin,a,ha,htarget⟩)
    · exact ⟨entry,mem_append_left _ hin,horigin,htarget⟩
    · refine ⟨_,mem_append_right _ (mem_singleton.mpr rfl),horigin,?_⟩
      exact mem_map.mpr ⟨a,ha,htarget.symm⟩

theorem placeAt_append (hplace : place e = some p) :
    placeAt db place (pre ++ [e]) = Function.update (placeAt db place pre) e (some p) := by
  funext f
  by_cases hf : f = e
  · subst hf
    simp [placeAt,hplace]
  · simp [placeAt,hf]

theorem Placement.addition (hp : Placement room db c chainMap place)
    (horder : Topological c.eventToAuthChain.edges c.eventsToCalcChainIdFor (pre ++ e :: post))
    (hnotpre : e ∉ pre) {at' : String → Place ℕ}
    (hcover : Cover room.edge (placeAt db place pre) links)
    (hplace : place e = some p) (hfree : ∀ f, placeAt db place pre f ≠ some p)
    (hat : ∀ a ∈ room.auth e, placeAt db place pre a = some (at' a))
    (hkept : Kept links at' p (room.auth e) kept) :
    Cover.Addition room.edge (placeAt db place pre) links e p (keptLinks p at' kept) := by
  have he : e ∈ c.eventsToCalcChainIdFor := (horder.mem e).mp (by simp)
  have hpos := hp.pos he hplace
  refine ⟨?_,hpos,hfree,?_,fun f hf => ⟨at' f,hat f hf⟩,?_,?_⟩
  · simp [placeAt,hnotpre,hp.unplaced e he]
  · intro s hs hs'
    have hplace' : place e = some (p.1,s + 1) := by rw [hplace,← hs]
    obtain ⟨f,hf,hfp⟩ := hp.below he hplace' hs'
    refine ⟨f,?_,hf⟩
    rw [hp.placeAt_auth horder hf,hfp]
  · rintro l ⟨horigin,a,ha,htarget⟩
    have hauth := ((hkept a).mp ha).1.1
    exact ⟨horigin,a,htarget ▸ hat a hauth,hauth⟩
  · refine hcover.reduced_complete room.acyclic (room.auth e).toFinset
      (fun f => mem_toFinset.symm) hpos hfree fun f hf q hq hne hnone => ?_
    have hauth := mem_toFinset.mp hf
    cases (hat f hauth).symm.trans hq
    refine ⟨rfl,f,(hkept f).mpr ⟨⟨hauth,hne⟩,fun b hb hbf => ?_⟩,rfl⟩
    exact hnone b (mem_toFinset.mpr hb) hbf _ (hat b hb)

theorem Linked.step (h : Linked room db place chains pre s) (hp : Placement room db c chainMap place)
    (hchains : ∀ a p, chainMap.lookup a = some p → p.1 ∈ chains)
    (horder : Topological c.eventToAuthChain.edges c.eventsToCalcChainIdFor (pre ++ e :: post)) :
    ∃ s', linkEvent ch c chainMap s e = .ok s' ∧ Linked room db place chains (pre ++ [e]) s' := by
  have he : e ∈ c.eventsToCalcChainIdFor := (horder.mem e).mp (by simp)
  have hnotpre : e ∉ pre := fun hin =>
    (nodup_append.mp horder.nodup).2.2 e hin e mem_cons_self rfl
  obtain ⟨p,hmapp,hplacep⟩ := hp.new e he
  have hgetp : chainMap.get e = .ok p := Dict.get_eq_ok.mpr hmapp
  have hperm := hp.auth e he
  have hnodup : (c.eventToAuthChain.edges e).Nodup := hperm.nodup_iff.mpr (hp.nodup e he)
  set links := {l | l ∈ db.eventAuthChainLinks} ∪ {l | l ∈ linkRows s.1} with hlinks
  let at' : String → Place ℕ := fun a => (place a).getD (0,0)
  have hat : ∀ a ∈ c.eventToAuthChain.edges e, chainMap.lookup a = some (at' a) ∧
      placeAt db place pre a = some (at' a) := by
    intro a ha
    obtain ⟨q,hmap,hplace⟩ := hp.known e he a (hperm.mem_iff.mp ha)
    have heq : at' a = q := by simp [at',hplace]
    rw [heq,hp.placeAt_auth horder (hperm.mem_iff.mp ha)]
    exact ⟨hmap,hplace⟩
  obtain ⟨kept,hred,hkept⟩ := reduction_kept (p := p) hnodup hat hchains h.cover h.dominates
  have hkept' : Kept links at' p (room.auth e) (ch.arrange kept) := by
    intro a
    rw [(ch.arrange_perm kept).mem_iff,hkept a]
    simp only [hperm.mem_iff]
    exact Iff.rfl
  have hauth : ∀ a ∈ ch.arrange kept, a ∈ c.eventToAuthChain.edges e := fun a ha =>
    hperm.mem_iff.mpr ((hkept' a).mp ha).1.1
  have hfree : ∀ f, placeAt db place pre f ≠ some p := by
    intro f hf
    obtain rfl := hp.unique (hp.placeAt_some hf) hplacep
    simp [placeAt,hnotpre,hp.unplaced f he] at hf
  have hnoorigin : ∀ l ∈ links, l.origin ≠ p := by
    intro l hl heq
    obtain ⟨f,-,hf,-,-⟩ := h.cover.sound l hl
    exact hfree f (heq ▸ hf)
  obtain ⟨m',hrun,hdom⟩ := addReduced_ok (fun a ha => (hat a (hauth a ha)).1)
    (fun a ha => ⟨hchains a _ (hat a (hauth a ha)).1,((hkept' a).mp ha).1.2⟩)
    hkept'.single hnoorigin h.dominates
  have hrows : {l | l ∈ db.eventAuthChainLinks} ∪ {l | l ∈ linkRows
      (s.1 ++ [(e,⟨p.1,p.2,(ch.arrange kept).map at'⟩)])} =
      links ∪ keptLinks p at' (ch.arrange kept) := by
    rw [linkRows_append,← Set.union_assoc]
  refine ⟨(s.1 ++ [(e,⟨p.1,p.2,(ch.arrange kept).map at'⟩)],m'),?_,by simp [h.names],?_,?_,?_,?_⟩
  · simp [linkEvent,hgetp,hred,hrun]
  · exact forall_mem_append.mpr ⟨h.places,forall_mem_singleton.mpr hplacep⟩
  · rw [hrows,placeAt_append hplacep]
    refine h.cover.extend (hp.addition horder hnotpre h.cover hplacep hfree (fun a ha => ?_) hkept')
    exact (hat a (hperm.mem_iff.mpr ha)).2
  · rw [hrows]
    refine h.tidy.union hnoorigin ?_ ?_
    · rintro l ⟨horigin,a,ha,htarget⟩
      exact ⟨horigin,htarget ▸ ((hkept' a).mp ha).1.2⟩
    · rintro l ⟨-,a,ha,htarget⟩ l' ⟨-,b,hb,htarget'⟩ hchain
      rw [htarget,htarget'] at hchain ⊢
      exact hkept'.single a ha b hb hchain
  · rw [hrows]
    exact hdom

end linking

end TextrpBriij.AuthChain
