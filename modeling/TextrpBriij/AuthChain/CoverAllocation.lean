import TextrpBriij.AuthChain.CoverKnown

/-! # The allocation of chains

Each event that is calculated gets a place of its own: the one after an auth event on that
event's chain, if nothing has been placed there or above, or the first of a new chain.
-/
namespace TextrpBriij.AuthChain
open ChainCover Api Util List AList Function Fallible

variable {room : Room} {events : List Event} {db db₀ : Database} {c : Calculation} {ch : Choices}

theorem Ready.chains_eq (h : Ready room events db₀ c db) :
    db.eventAuthChains = db₀.eventAuthChains := by rw [h.tables]

theorem Ready.chainId_eq (h : Ready room events db₀ c db) :
    db.eventAuthChainId = db₀.eventAuthChainId := by rw [h.tables]

theorem Database.maxSequenceNumber_spec {e : String} {x s : ℕ}
    (h : db.eventAuthChains.lookup e = some (x,s)) : ∃ m, db.maxSequenceNumber x = some m ∧
      ∀ f s', db.eventAuthChains.lookup f = some (x,s') → s' ≤ m := by
  have hmem : ∀ {f s'}, db.eventAuthChains.lookup f = some (x,s') →
      s' ∈ (db.eventAuthChains.entries.filter fun row => row.2.1 = x).map fun row => row.2.2 := by
    intro f s' hf
    exact mem_map.mpr ⟨⟨f,(x,s')⟩,mem_filter.mpr ⟨mem_lookup_iff.mp hf,decide_eq_true rfl⟩,rfl⟩
  exact ⟨_,max?_eq_some_max (ne_nil_of_mem (hmem h)),fun f s' hf => le_max_of_mem (hmem hf)⟩

structure Allocation.Inv (room : Room) (db : Database) (existing : List ℕ) (pre : List String)
    (a : Allocation) : Prop where
  keys : ∀ e, e ∈ a.newChainTuples ↔ e ∈ pre
  pos : ∀ {e key s}, a.newChainTuples.lookup e = some (key,s) → 1 ≤ s
  max_new : ∀ {e key s}, a.newChainTuples.lookup e = some (key,s) → ∃ m, a.chainToMaxSeqNo key = some m ∧ s ≤ m
  max_old : ∀ x ∈ existing, ∃ m, a.chainToMaxSeqNo (.existing x) = some m ∧
    ∀ f s, db.eventAuthChains.lookup f = some (x,s) → s ≤ m
  existing : ∀ {e x s}, a.newChainTuples.lookup e = some (.existing x,s) → x ∈ existing
  temporary : ∀ {e n s}, a.newChainTuples.lookup e = some (.temporary n,s) → n < a.unallocated
  free : ∀ {e x s}, a.newChainTuples.lookup e = some (.existing x,s) →
    ∀ f, db.eventAuthChains.lookup f ≠ some (x,s)
  unique : ∀ {e f tuple}, a.newChainTuples.lookup e = some tuple →
    a.newChainTuples.lookup f = some tuple → e = f
  below : ∀ {e key s}, a.newChainTuples.lookup e = some (key,s + 1) → 1 ≤ s →
    ∃ f ∈ room.auth e, a.newChainTuples.lookup f = some (key,s) ∨
      ∃ x, key = .existing x ∧ db.eventAuthChains.lookup f = some (x,s)

namespace Allocation
variable {existing : List ℕ} {pre : List String} {a : Allocation} {e : String}

/-- Where an event that is placed next may go. -/
structure Fits (room : Room) (db : Database) (existing : List ℕ) (a : Allocation) (e : String)
    (key : ChainKey) (seq n : ℕ) : Prop where
  grows : a.unallocated ≤ n
  pos : 1 ≤ seq
  above : ∀ f s, a.newChainTuples.lookup f = some (key,s) → s < seq
  old : ∀ x, key = .existing x → x ∈ existing ∧ ∀ f s, db.eventAuthChains.lookup f = some (x,s) → s < seq
  temporary : ∀ k, key = .temporary k → k < n
  below : ∀ s, seq = s + 1 → 1 ≤ s → ∃ f ∈ room.auth e, a.newChainTuples.lookup f = some (key,s) ∨
      ∃ x, key = .existing x ∧ db.eventAuthChains.lookup f = some (x,s)

theorem Inv.assign (h : a.Inv room db existing pre) (he : e ∉ pre) {key : ChainKey} {seq n : ℕ}
    (hfit : a.Fits room db existing e key seq n) :
    ({ a with unallocated := n }.assign e (key,seq)).Inv room db existing (pre ++ [e]) := by
  have hnone : e ∉ a.newChainTuples := fun hin => he ((h.keys e).mp hin)
  have hkeep : ∀ {f tuple}, a.newChainTuples.lookup f = some tuple →
      (a.newChainTuples.insert e (key,seq)).lookup f = some tuple := by
    intro f tuple hf
    have hne : f ≠ e := by
      rintro rfl
      exact hnone (Dict.mem_iff.mpr ⟨_,hf⟩)
    rw [lookup_insert_ne hne,hf]
  have hcases : ∀ {f tuple}, (a.newChainTuples.insert e (key,seq)).lookup f = some tuple →
      f = e ∧ tuple = (key,seq) ∨ a.newChainTuples.lookup f = some tuple := by
    intro f tuple hf
    exact (Entries.insert_cases hf).imp_right And.right
  have hmax : ∀ {key' m}, a.chainToMaxSeqNo key' = some m → key' ≠ key →
      update a.chainToMaxSeqNo key (some seq) key' = some m := fun hm hne => by
    rw [update_of_ne hne,hm]
  refine ⟨fun f => ?_,?_,?_,?_,?_,?_,?_,?_,?_⟩
  · simp only [Allocation.assign,mem_insert,h.keys,mem_append,mem_singleton]
    exact or_comm
  · intro f key' s hf
    rcases hcases hf with ⟨-,heq⟩ | hf
    · exact (Prod.mk.inj heq).2 ▸ hfit.pos
    · exact h.pos hf
  · intro f key' s hf
    by_cases hkey : key' = key
    · subst hkey
      refine ⟨seq,update_self ..,?_⟩
      rcases hcases hf with ⟨-,heq⟩ | hf
      · exact (Prod.mk.inj heq).2.le
      · exact (hfit.above f s hf).le
    · rcases hcases hf with ⟨-,heq⟩ | hf
      · exact absurd (Prod.mk.inj heq).1 hkey
      · obtain ⟨m,hm,hs⟩ := h.max_new hf
        exact ⟨m,hmax hm hkey,hs⟩
  · intro x hx
    by_cases hkey : .existing x = key
    · subst hkey
      exact ⟨seq,update_self ..,fun f s hf => ((hfit.old x rfl).2 f s hf).le⟩
    · obtain ⟨m,hm,hs⟩ := h.max_old x hx
      exact ⟨m,hmax hm hkey,hs⟩
  · intro f x s hf
    rcases hcases hf with ⟨-,heq⟩ | hf
    · exact (hfit.old x (Prod.mk.inj heq).1.symm).1
    · exact h.existing hf
  · intro f k s hf
    rcases hcases hf with ⟨-,heq⟩ | hf
    · exact hfit.temporary k (Prod.mk.inj heq).1.symm
    · exact (h.temporary hf).trans_le hfit.grows
  · intro f x s hf g hg
    rcases hcases hf with ⟨-,heq⟩ | hf
    · obtain ⟨hkey,rfl⟩ := Prod.mk.inj heq
      exact lt_irrefl _ ((hfit.old x hkey.symm).2 g s hg)
    · exact h.free hf g hg
  · intro f g tuple hf hg
    rcases hcases hf with ⟨rfl,rfl⟩ | hf'
    · rcases hcases hg with ⟨rfl,-⟩ | hg'
      · rfl
      · exact absurd (hfit.above g seq hg') (lt_irrefl _)
    · rcases hcases hg with ⟨-,rfl⟩ | hg'
      · exact absurd (hfit.above f seq hf') (lt_irrefl _)
      · exact h.unique hf' hg'
  · intro f key' s hf hs
    rcases hcases hf with ⟨rfl,heq⟩ | hf
    · obtain ⟨rfl,hseq⟩ := Prod.mk.inj heq
      obtain ⟨g,hg,hplace⟩ := hfit.below s hseq.symm hs
      exact ⟨g,hg,hplace.imp_left hkeep⟩
    · obtain ⟨g,hg,hplace⟩ := h.below hf hs
      exact ⟨g,hg,hplace.imp_left hkeep⟩

theorem Inv.start (h : ∀ x ∈ existing, ∃ e s, db.eventAuthChains.lookup e = some (x,s)) :
    (Allocation.start db existing).Inv room db existing [] := by
  have hempty : ∀ e, (Allocation.start db existing).newChainTuples.lookup e = none := fun e =>
    lookup_empty e
  refine ⟨fun e => ?_,?_,?_,fun x hx => ?_,?_,?_,?_,?_,?_⟩
  case refine_4 =>
    obtain ⟨e,s,he⟩ := h x hx
    obtain ⟨m,hm,hle⟩ := db.maxSequenceNumber_spec he
    exact ⟨m,by simp [Allocation.start,hx,hm],hle⟩
  all_goals simp [Dict.mem_iff,hempty]

theorem Inv.fits_new (h : a.Inv room db existing pre) :
    a.Fits room db existing e (.temporary a.unallocated) 1 (a.unallocated + 1) := by
  refine ⟨Nat.le_succ _,le_rfl,fun f s hf => ?_,fun x hx => ?_,fun k hk => ?_,fun s hs hpos => ?_⟩
  · exact absurd (h.temporary hf) (lt_irrefl _)
  · cases hx
  · cases hk
    exact Nat.lt_succ_self _
  · omega

theorem Inv.fits_next (h : a.Inv room db existing pre) {key : ChainKey} {s m : ℕ} {f : String}
    (hf : f ∈ room.auth e) (hplace : a.newChainTuples.lookup f = some (key,s) ∨
      ∃ x ∈ existing, key = .existing x ∧ db.eventAuthChains.lookup f = some (x,s))
    (hm : a.chainToMaxSeqNo key = some m) (hlt : m < s + 1) :
    a.Fits room db existing e key (s + 1) a.unallocated := by
  refine ⟨le_rfl,Nat.succ_pos s,fun g s' hg => ?_,fun x hx => ?_,fun k hk => ?_,fun s' hs' _ => ?_⟩
  · obtain ⟨m',hm',hle⟩ := h.max_new hg
    rw [hm] at hm'
    cases hm'
    omega
  · subst hx
    have hin : x ∈ existing := by
      rcases hplace with hnew | ⟨x',hx',heq,-⟩
      · exact h.existing hnew
      · cases heq
        exact hx'
    obtain ⟨m',hm',hle⟩ := h.max_old x hin
    rw [hm] at hm'
    cases hm'
    exact ⟨hin,fun g s' hg => (hle g s' hg).trans_lt hlt⟩
  · subst hk
    rcases hplace with hnew | ⟨x,-,heq,-⟩
    · exact h.temporary hnew
    · cases heq
  · obtain rfl : s' = s := by omega
    refine ⟨f,hf,?_⟩
    rcases hplace with hnew | ⟨x,-,heq,hold⟩
    · exact .inl hnew
    · exact .inr ⟨x,heq,hold⟩

variable {chainMap : Dict String (Place ℕ)}

theorem step_ok {authId : Option String}
    {place tuple : Option (ChainKey × ℕ)} (hget : a.existingChainId chainMap authId = .ok place)
    (hprop : a.proposed place = .ok tuple) : Allocation.step chainMap a (e,authId) = .ok (match tuple with
        | some tuple => a.assign e tuple
        | none => { a with unallocated := a.unallocated + 1 }.assign e
            (.temporary a.unallocated,1)) := by
  simp only [Allocation.step,hget,hprop,ok_bind]
  cases tuple <;> rfl

/-- One round of the loop: the auth event's place is known, and so is the largest sequence
number of its chain. -/
theorem Inv.step (h : a.Inv room db existing pre)
    (he : e ∉ pre) {authId : Option String} (hauth : ∀ f, authId = some f → f ∈ room.auth e ∧
      (f ∈ pre ∨ ∃ p, chainMap.lookup f = some p ∧ db.eventAuthChains.lookup f = some p ∧
        p.1 ∈ existing)) : ∃ a', Allocation.step chainMap a (e,authId) = .ok a' ∧
      a'.Inv room db existing (pre ++ [e]) := by
  have hnone : a.existingChainId chainMap authId = .ok none →
      ∃ a', Allocation.step chainMap a (e,authId) = .ok a' ∧ a'.Inv room db existing (pre ++ [e]) := fun hget =>
    ⟨_,step_ok hget rfl,h.assign he h.fits_new⟩
  have hfound : ∀ f key s, f ∈ room.auth e → (a.newChainTuples.lookup f = some (key,s) ∨
      ∃ x ∈ existing, key = .existing x ∧ db.eventAuthChains.lookup f = some (x,s)) →
      a.existingChainId chainMap authId = .ok (some (key,s)) →
      ∃ a', Allocation.step chainMap a (e,authId) = .ok a' ∧ a'.Inv room db existing (pre ++ [e]) := by
    intro f key s hf hplace hget
    obtain ⟨m,hm⟩ : ∃ m, a.chainToMaxSeqNo key = some m := by
      rcases hplace with hnew | ⟨x,hx,rfl,-⟩
      · exact (h.max_new hnew).imp fun m hm => hm.1
      · exact (h.max_old x hx).imp fun m hm => hm.1
    have hprop : a.proposed (some (key,s)) = .ok (if m < s + 1 then some (key,s + 1) else none) := by
      simp [Allocation.proposed,hm]
    by_cases hlt : m < s + 1
    · rw [if_pos hlt] at hprop
      exact ⟨_,step_ok hget hprop,h.assign he (h.fits_next hf hplace hm hlt)⟩
    · rw [if_neg hlt] at hprop
      exact ⟨_,step_ok hget hprop,h.assign he h.fits_new⟩
  cases authId with
  | none => exact hnone rfl
  | some f =>
    obtain ⟨hf,hplace⟩ := hauth f rfl
    by_cases hblank : f = ""
    · exact hnone (by simp [existingChainId,hblank])
    cases hlook : a.newChainTuples.lookup f with
    | some tuple =>
      exact hfound f tuple.1 tuple.2 hf (.inl hlook) (by simp [existingChainId,hblank,hlook])
    | none =>
      have hnotpre : f ∉ pre := fun hin => by
        obtain ⟨t,ht⟩ := Dict.mem_iff.mp ((h.keys f).mpr hin)
        rw [hlook] at ht
        cases ht
      obtain ⟨p,hmap,hold,hin⟩ := hplace.resolve_left hnotpre
      have hget : chainMap.get f = .ok p := Dict.get_eq_ok.mpr hmap
      exact hfound f (.existing p.1) p.2 hf (.inr ⟨p.1,hin,rfl,hold⟩)
        (by simp [existingChainId,hblank,hlook,hget])

end Allocation

theorem Calculation.tree_map (c : Calculation) : c.tree.map (fun node => node.1) =
    sortedTopologically c.eventsToCalcChainIdFor c.eventToAuthChain := by
  rw [tree,map_map]
  exact map_id _

theorem Calculation.mem_tree {node : String × Option String} (h : node ∈ c.tree) {a : String}
    (ha : node.2 = some a) : a ∈ c.eventToAuthChain.edges node.1 := by
  obtain ⟨e,-,rfl⟩ := mem_map.mp h
  exact mem_of_find?_eq_some ha

theorem Calculation.mem_existingChains {x : ℕ} : x ∈ c.existingChains ↔
    ∃ node ∈ c.tree, ∃ a p, node.2 = some a ∧ c.chainMap.lookup a = some p ∧ p.1 = x := by
  simp only [existingChains,mem_filterMap,Option.map_eq_some_iff,Option.bind_eq_some_iff]
  constructor
  · rintro ⟨node,hn,p,⟨a,ha,hp⟩,rfl⟩
    exact ⟨node,hn,a,p,ha,hp,rfl⟩
  · rintro ⟨node,hn,a,p,ha,hp,rfl⟩
    exact ⟨node,hn,p,⟨a,ha,hp⟩,rfl⟩

theorem Ready.existing_placed (h : Ready room events db₀ c db) {x : ℕ}
    (hx : x ∈ c.existingChains) : ∃ e s, db.eventAuthChains.lookup e = some (x,s) := by
  obtain ⟨node,-,a,p,-,hp,rfl⟩ := c.mem_existingChains.mp hx
  exact ⟨a,p.2,h.chains_eq ▸ h.chainMap a p hp⟩

theorem Ready.allocate (h : Ready room events db₀ c db) : ∃ a,
    c.tree.foldlM (Allocation.step c.chainMap) (.start db c.existingChains) = .ok a ∧
      a.Inv room db c.existingChains (c.tree.map fun node => node.1) := by
  have horder : Topological c.eventToAuthChain.edges c.eventsToCalcChainIdFor (c.tree.map fun node => node.1) :=
    c.tree_map ▸ sortedTopologically_topological _ h.acyclic
  refine foldlM_spec (fun (pre : List (String × Option String)) a =>
    Allocation.Inv room db c.existingChains (pre.map fun node => node.1) a)
    (.start fun x hx => h.existing_placed hx) ?_
  rintro pre ⟨e,authId⟩ post a hsplit ha
  have hnodes : (c.tree.map fun node => node.1) =
      (pre.map fun node => node.1) ++ e :: post.map fun node => node.1 := by simp [hsplit]
  rw [hnodes] at horder
  have hnotpre : e ∉ pre.map fun node => node.1 := fun hin =>
    (nodup_append.mp horder.nodup).2.2 e hin e mem_cons_self rfl
  have he : e ∈ c.eventsToCalcChainIdFor := (horder.mem e).mp (by simp)
  have hnode : (e,authId) ∈ c.tree := by simp [hsplit]
  rw [map_append]
  refine ha.step hnotpre fun f hf => ?_
  have hedge := Calculation.mem_tree hnode hf
  refine ⟨h.edges e f hedge,?_⟩
  rcases h.known e he f (h.edges e f hedge) with hmap | hcalc
  · obtain ⟨p,hp⟩ := Dict.mem_iff.mp hmap
    refine .inr ⟨p,hp,h.chains_eq ▸ h.chainMap f p hp,?_⟩
    exact c.mem_existingChains.mpr ⟨_,hnode,f,p,hf,hp,rfl⟩
  · exact .inl (horder.earlier _ e _ rfl f hedge hcalc)

theorem lookup_zip_some {ks vs : List ℕ} (hlen : ks.length = vs.length) {k : ℕ} (hk : k ∈ ks) :
    ∃ v ∈ vs, (ks.zip vs).lookup k = some v := by
  induction ks generalizing vs with
  | nil => cases hk
  | cons x ks ih =>
    cases vs with
    | nil => cases hlen
    | cons v vs =>
      by_cases hx : k = x
      · exact ⟨v,mem_cons_self,by simp [hx]⟩
      · obtain ⟨w,hw,hlook⟩ := ih (Nat.succ.inj hlen) ((mem_cons.mp hk).resolve_left hx)
        refine ⟨w,mem_cons_of_mem _ hw,?_⟩
        rw [zip_cons_cons,lookup_cons,beq_false_of_ne hx]
        exact hlook

theorem lookup_zip_inj {ks vs : List ℕ} (hvs : vs.Nodup) {k k' v : ℕ}
    (hk : (ks.zip vs).lookup k = some v) (hk' : (ks.zip vs).lookup k' = some v) : k = k' := by
  have hat : ∀ {j}, (ks.zip vs).lookup j = some v → ∃ i : ℕ, ks[i]? = some j ∧ vs[i]? = some v := by
    intro j hj
    obtain ⟨l₁,l₂,hsplit,-⟩ := lookup_eq_some_iff.mp hj
    have hmem : (j,v) ∈ ks.zip vs := by simp [hsplit]
    obtain ⟨i,hi⟩ := mem_iff_getElem?.mp hmem
    exact ⟨i,getElem?_zip_eq_some.mp hi⟩
  obtain ⟨i,hi,hv⟩ := hat hk
  obtain ⟨i',hi',hv'⟩ := hat hk'
  obtain rfl : i = i' := (getElem?_inj (List.getElem?_eq_some_iff.mp hv).1 hvs).mp (hv.trans hv'.symm)
  exact Option.some.inj (hi.symm.trans hi')

structure Allocated (room : Room) (db : Database) (c : Calculation)
    (tuples : List (String × Place ℕ)) (db' : Database) : Prop where
  keys : (tuples.map fun t => t.1).Nodup
  mem : ∀ e, e ∈ (tuples.map fun t => t.1) ↔ e ∈ c.eventsToCalcChainIdFor
  pos : ∀ {e p}, (e,p) ∈ tuples → 1 ≤ p.2
  free : ∀ {e p}, (e,p) ∈ tuples → ∀ f, db.eventAuthChains.lookup f ≠ some p
  unique : ∀ {e f p}, (e,p) ∈ tuples → (f,p) ∈ tuples → e = f
  below : ∀ {e x s}, (e,((x,s + 1) : Place ℕ)) ∈ tuples → 1 ≤ s → ∃ f ∈ room.auth e,
    (f,((x,s) : Place ℕ)) ∈ tuples ∨ db.eventAuthChains.lookup f = some (x,s)
  allocated : ∀ {e p}, (e,p) ∈ tuples → p.1 ≤ db'.eventAuthChainId
  grows : db.eventAuthChainId ≤ db'.eventAuthChainId
  tables : db' = { db with eventAuthChainId := db'.eventAuthChainId }

/-- The keys that are in use get different chain IDs, and a new chain gets a new one. -/
structure RealIds (db : Database) (existing : List ℕ) (n last : ℕ) (real : ChainKey → ℕ) :
    Prop where
  existing : ∀ x ∈ existing, real (.existing x) = x
  fresh : ∀ k < n, db.eventAuthChainId < real (.temporary k)
  last : ∀ k < n, real (.temporary k) ≤ last
  inj : ∀ k < n, ∀ k' < n, real (.temporary k) = real (.temporary k') → k = k'

def realChainId (ids : List (ℕ × ℕ)) : ChainKey → ℕ
  | .existing x => x
  | .temporary k => (ids.lookup k).getD 0

theorem allocatedChainId_real (ch : Choices) (db : Database) (existing : List ℕ) (n : ℕ) :
    ∃ real, RealIds db existing n (db.eventAuthChainId + ch.skipped + n) real ∧
      (∀ x ∈ existing, allocatedChainId ((ch.arrangeChains (range n)).zip
        (db.getNextMult ch n).1) existing (.existing x) = .ok (real (.existing x))) ∧
      ∀ k < n, allocatedChainId ((ch.arrangeChains (range n)).zip
        (db.getNextMult ch n).1) existing (.temporary k) = .ok (real (.temporary k)) := by
  set ids := (db.getNextMult ch n).1 with hids
  set ks := ch.arrangeChains (range n)
  have hperm : ks.Perm (range n) := ch.arrangeChains_perm _
  have hlen : ks.length = ids.length := by simp [hperm.length_eq,hids,Database.getNextMult]
  have hnodup : ids.Nodup := by
    refine nodup_range.map fun i j hij => ?_
    omega
  have hbound : ∀ v ∈ ids, db.eventAuthChainId < v ∧ v ≤ db.eventAuthChainId + ch.skipped + n := by
    intro v hv
    obtain ⟨i,hi,rfl⟩ := mem_map.mp hv
    have := mem_range.mp hi
    omega
  have hfind : ∀ k < n, ∃ v ∈ ids, (ks.zip ids).lookup k = some v := fun k hk =>
    lookup_zip_some hlen (hperm.mem_iff.mpr (mem_range.mpr hk))
  set real := realChainId (ks.zip ids)
  have hreal : ∀ k < n, (ks.zip ids).lookup k = some (real (.temporary k)) ∧ real (.temporary k) ∈ ids := by
    intro k hk
    obtain ⟨v,hv,hlook⟩ := hfind k hk
    have : real (.temporary k) = v := by simp [real,realChainId,hlook]
    rw [this]
    exact ⟨hlook,hv⟩
  refine ⟨real,⟨fun x _ => rfl,fun k hk => (hbound _ (hreal k hk).2).1,
    fun k hk => (hbound _ (hreal k hk).2).2,fun k hk k' hk' heq => ?_⟩,fun x hx => ?_,
    fun k hk => ?_⟩
  · exact lookup_zip_inj hnodup (hreal k hk).1 (heq ▸ (hreal k' hk').1)
  · simp [allocatedChainId,hx,real,realChainId]
  · simp [allocatedChainId,(hreal k hk).1]

theorem Ready.allocateChainIds (ch : Choices) (h : Ready room events db₀ c db)
    (hlast : ∀ e p, db.eventAuthChains.lookup e = some p → p.1 ≤ db.eventAuthChainId) :
    ∃ tuples db', allocateChainIds ch c db = .ok (tuples,db') ∧ Allocated room db c tuples db' := by
  obtain ⟨a,hrun,ha⟩ := h.allocate
  obtain ⟨real,hreal,hold,hnew⟩ :=
    allocatedChainId_real ch db c.existingChains a.unallocated
  let tuples := a.newChainTuples.entries.map fun entry => (entry.1,(real entry.2.1,entry.2.2))
  have hmem : ∀ {e p}, (e,p) ∈ tuples ↔ ∃ key, a.newChainTuples.lookup e = some (key,p.2) ∧ real key = p.1 := by
    intro e p
    obtain ⟨x,s⟩ := p
    simp [tuples,Entries.lookup_eq_some,and_comm]
  -- a chain ID in use is at most the last one, so it is not a new one
  have hsmall : ∀ {e x s}, a.newChainTuples.lookup e = some (.existing x,s) →
      real (.existing x) = x ∧ x ≤ db.eventAuthChainId := by
    intro e x s he
    obtain ⟨g,sg,hg⟩ := h.existing_placed (ha.existing he)
    exact ⟨hreal.existing x (ha.existing he),hlast g _ hg⟩
  have hchain : ∀ {e f key key' s s'}, a.newChainTuples.lookup e = some (key,s) →
      a.newChainTuples.lookup f = some (key',s') → real key = real key' → key = key' := by
    intro e f key key' s s' he hf heq
    cases key with
    | existing x =>
      have hx := hsmall he
      cases key' with
      | existing x' => rw [← hx.1,heq,(hsmall hf).1]
      | temporary k =>
        have := hreal.fresh k (ha.temporary hf)
        omega
    | temporary k =>
      have hk := ha.temporary he
      cases key' with
      | existing x =>
        have := hreal.fresh k hk
        have hx := hsmall hf
        omega
      | temporary k' => rw [hreal.inj k hk k' (ha.temporary hf) heq]
  refine ⟨tuples,(db.getNextMult ch a.unallocated).2,?_,?_⟩
  · simp only [AuthChain.allocateChainIds,hrun,ok_bind]
    refine bind_eq_ok.mpr ⟨tuples,mapM_eq_ok ?_,rfl⟩
    rintro ⟨e,key,s⟩ hin
    have hlook := mem_lookup_iff.mpr hin
    cases key with
    | existing x => simp only [hold x (ha.existing hlook),ok_bind,pure_eq]
    | temporary k => simp only [hnew k (ha.temporary hlook),ok_bind,pure_eq]
  refine ⟨?_,fun e => ?_,fun {e p} hp => ?_,fun {e p} hp f => ?_,fun {e f p} he hf => ?_,
    fun {e x s} he hs => ?_,fun {e p} hp => ?_,?_,rfl⟩
  · have : (tuples.map fun t => t.1) = a.newChainTuples.keys := by
      simp only [tuples,map_map]
      rfl
    rw [this]
    exact a.newChainTuples.keys_nodup
  · have horder := sortedTopologically_topological c.eventsToCalcChainIdFor h.acyclic
    rw [← horder.mem,← c.tree_map,← ha.keys]
    simp only [tuples,map_map]
    rfl
  · obtain ⟨key,hlook,-⟩ := hmem.mp hp
    exact ha.pos hlook
  · obtain ⟨key,hlook,hkey⟩ := hmem.mp hp
    intro hf
    cases key with
    | existing x =>
      rw [(hsmall hlook).1] at hkey
      exact ha.free hlook f (hkey ▸ hf)
    | temporary k =>
      have := hreal.fresh k (ha.temporary hlook)
      have := hlast f p hf
      omega
  · obtain ⟨key,hlook,hkey⟩ := hmem.mp he
    obtain ⟨key',hlook',hkey'⟩ := hmem.mp hf
    have heq := hchain hlook hlook' (hkey.trans hkey'.symm)
    exact ha.unique hlook (heq ▸ hlook')
  · obtain ⟨key,hlook,hkey⟩ := hmem.mp he
    obtain ⟨f,hf,hplace⟩ := ha.below hlook hs
    refine ⟨f,hf,?_⟩
    rcases hplace with hnew' | ⟨x',rfl,hold'⟩
    · exact .inl (hmem.mpr ⟨key,hnew',hkey⟩)
    · rw [(hsmall hlook).1] at hkey
      obtain rfl : x' = x := hkey
      exact .inr hold'
  · obtain ⟨key,hlook,hkey⟩ := hmem.mp hp
    rw [← hkey]
    cases key with
    | existing x =>
      have := hsmall hlook
      simp only [Database.getNextMult]
      omega
    | temporary k => exact hreal.last k (ha.temporary hlook)
  · simp only [Database.getNextMult]
    omega

end TextrpBriij.AuthChain
