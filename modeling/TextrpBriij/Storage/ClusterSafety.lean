import TextrpBriij.Storage.Cluster

/-! # No instance passes an ID that is still being worked on -/
namespace TextrpBriij.Storage
open Generator List AList Function Runs

section Passed
variable {last last' : ℤ} {busy busy' : String → Set ℤ} {w : String} {v : ℤ}

structure Passed (last : ℤ) (busy : String → Set ℤ) (w : String) (v : ℤ) : Prop
    extends Settled last busy v where
  lt : ∀ x ∈ busy w, v < x

theorem Passed.later (h : Passed last busy w v) (hlast : last ≤ last')
    (hnew : ∀ w, ∀ x ∈ busy' w, x ∈ busy w ∨ last < x) : Passed last' busy' w v where
  pos := h.pos
  le := h.le.trans hlast
  free := fun w' hx => by
    rcases hnew w' v hx with hx | hx
    · exact h.free w' hx
    · exact absurd h.le (not_le.mpr hx)
  lt := fun x hx => by
    rcases hnew w x hx with hx | hx
    · exact h.lt x hx
    · exact h.le.trans_lt hx

theorem GenInv.passed {g : Generator} {fetches : List Fetch} (h : GenInv last busy g fetches)
    (hname : g.instanceName = w) : Passed last busy w g.maxPositionOfLocalInstance where
  pos := h.local_pos
  le := h.local_le
  free := fun w' hx => by
    by_cases hw : w' = g.instanceName
    · exact lt_irrefl _ (h.local_lt _ (hw ▸ hx))
    · exact h.local_idle w' hw hx
  lt := hname ▸ h.local_lt

end Passed

namespace Cluster
variable {writers : List String} {positive : Bool} {c c' : Cluster} {name : String}
  {i i' : Instance} {a : Action} {seq : ℤ}

def busy (c : Cluster) : String → Set ℤ :=
  fun w => {x | ∃ i, c.live.lookup w = some i ∧ x ∈ i.active}

structure Inv (writers : List String) (positive : Bool) (c : Cluster) : Prop where
  seq_pos : 1 ≤ c.seq
  config : ∀ w i, c.live.lookup w = some i → i.gen.config = (w,writers,positive)
  inst : ∀ w i, c.live.lookup w = some i → i.Inv c.seq c.busy
  keys : ∀ w i, c.live.lookup w = some i → ∀ w' ∈ writers, w' ∈ i.gen.currentPositions
  positions : ∀ w v, c.streamPositions.lookup w = some v → Passed c.seq c.busy w (v * factorOf positive)
  messages : ∀ w r, ∀ m ∈ c.queue (w,r), Passed c.seq c.busy w (m * factorOf positive)

variable {x lastValue : ℤ} {w : String}

theorem mem_busy_insert (c : Cluster) (name : String) (i : Instance) (seq : ℤ) :
    x ∈ ({ c with live := c.live.insert name i, seq := seq } : Cluster).busy w ↔
      if w = name then x ∈ i.active else x ∈ c.busy w := by
  unfold busy
  split
  · rename_i hw
    subst hw
    simp
  · rename_i hw
    simp [lookup_insert_ne hw]

theorem Inv.busy_le (h : c.Inv writers positive) : ∀ x ∈ c.busy w, x ≤ c.seq := by
  rintro x ⟨i,hi,hx⟩
  exact (h.inst w i hi).busy_le w x ⟨i,hi,hx⟩

theorem Inv.name_eq (h : c.Inv writers positive) (hi : c.live.lookup name = some i) :
    i.gen.instanceName = name :=
  congrArg Prod.fst (h.config name i hi)

theorem mem_writers (hw : writers ≠ []) {busy : String → Set ℤ} (hinv : i.Inv seq busy)
    (hconfig : i.gen.config = (name,writers,positive)) (hx : x ∈ i.active) : name ∈ writers := by
  obtain ⟨rfl,rfl,-⟩ : _ = name ∧ _ = writers ∧ _ = positive := by simpa [Generator.config] using hconfig
  have hwrite := hinv.writes (hinv.not_idle ((hinv.own x).mpr hx))
  exact hwrite.resolve_left hw

theorem Inv.replace (hw : writers ≠ []) (h : c.Inv writers positive)
    (hi : c.live.lookup name = some i) (hs : i.Steps a i')
    (hgrant : a.Granted c.seq seq c.busy (factorOf positive)) :
    Inv writers positive { c with live := c.live.insert name i', seq := seq } := by
  have hname := h.name_eq hi
  have hconfig := hs.config.trans (h.config name i hi)
  have hfactor : i.gen.returnFactor = factorOf positive :=
    congrArg (fun p : String × List String × Bool => factorOf p.2.2) (h.config name i hi)
  have hacting : i'.Inv seq ({ c with live := c.live.insert name i', seq := seq } : Cluster).busy := by
    refine hs.inv (h.inst name i hi) (hfactor ▸ hgrant) (fun x => ?_) fun w hne => ?_
    · rw [hname,mem_busy_insert,if_pos rfl]
    · ext x
      rw [mem_busy_insert,if_neg (hname ▸ hne)]
  have hnew : ∀ w, ∀ x ∈ ({ c with live := c.live.insert name i', seq := seq } : Cluster).busy w,
      x ∈ c.busy w ∨ c.seq < x ∧ x ≤ seq ∧ w = name ∧ name ∈ writers := by
    intro w x hx
    rw [mem_busy_insert] at hx
    split at hx
    · rename_i hwn
      subst hwn
      rcases hs.active_sub hx with hold | hids
      · exact .inl ⟨i,hi,hold⟩
      · exact .inr ⟨(hgrant.new x hids).1,(hgrant.new x hids).2,rfl, mem_writers hw hacting hconfig hx⟩
    · exact .inl hx
  have hlater : ∀ {w v}, Passed c.seq c.busy w v → Passed seq
      ({ c with live := c.live.insert name i', seq := seq } : Cluster).busy w v :=
    fun hp => hp.later hgrant.last_le fun w x hx => (hnew w x hx).imp id And.left
  refine ⟨h.seq_pos.trans hgrant.last_le,?_,?_,?_,
    fun w v hv => hlater (h.positions w v hv),fun w r m hm => hlater (h.messages w r m hm)⟩
  · intro w j hj
    rcases Entries.insert_cases hj with ⟨rfl,rfl⟩ | ⟨-,hold⟩
    · exact hconfig
    · exact h.config w j hold
  · intro w j hj
    rcases Entries.insert_cases hj with ⟨rfl,rfl⟩ | ⟨hwn,hold⟩
    · exact hacting
    · have hinv := h.inst w j hold
      have hjname := h.name_eq hold
      have hself : ∀ x, x ∈ ({ c with live := c.live.insert name i', seq := seq } :
          Cluster).busy w ↔ x ∈ c.busy w := fun x => by rw [mem_busy_insert,if_neg hwn]
      refine hinv.handOut hgrant.last_le (fun w' x hx => ?_) (fun w' hne x hx hx' => ?_)
        (fun x => ?_) hinv.active_nodup rfl hinv.pending_gt
      · rcases hnew w' x hx with hx | ⟨hlt,hle,rfl,hmem⟩
        · exact .inl hx
        · exact .inr ⟨hlt,hle,fun _ => h.keys w j hold w' hmem⟩
      · rw [hjname] at hx
        have hx := (hself x).mp hx
        rcases hnew w' x hx' with hx' | ⟨hlt,-⟩
        · exact hinv.foreign w' hne x (hjname ▸ hx) hx'
        · exact absurd (h.busy_le x hx) (not_le.mpr hlt)
      · rw [hjname,hself,← hinv.own,hjname]
  · intro w j hj w' hw'
    rcases Entries.insert_cases hj with ⟨rfl,rfl⟩ | ⟨-,hold⟩
    · exact hs.keys (h.keys w i hi w' hw')
    · exact h.keys w j hold w' hw'

theorem mem_busy_erase (c : Cluster) (name : String) :
    x ∈ ({ c with live := c.live.erase name } : Cluster).busy w ↔ w ≠ name ∧ x ∈ c.busy w := by
  unfold busy
  by_cases hw : w = name
  · subst hw
    simp
  · simp [hw]

theorem Inv.crash (h : c.Inv writers positive) (name : String) :
    Inv writers positive { c with live := c.live.erase name } := by
  have hold : ∀ {w j}, (c.live.erase name).lookup w = some j → w ≠ name ∧ c.live.lookup w = some j := by
    intro w j hj
    have hw : w ≠ name := by
      rintro rfl
      simp at hj
    exact ⟨hw,(lookup_erase_ne hw).symm.trans hj⟩
  have hlater : ∀ {w v}, Passed c.seq c.busy w v →
      Passed c.seq ({ c with live := c.live.erase name } : Cluster).busy w v :=
    fun hp => hp.later le_rfl fun w x hx => .inl ((mem_busy_erase c name).mp hx).2
  refine ⟨h.seq_pos,fun w j hj => h.config w j (hold hj).2,fun w j hj => ?_,
    fun w j hj => h.keys w j (hold hj).2,fun w v hv => hlater (h.positions w v hv),
    fun w r m hm => hlater (h.messages w r m hm)⟩
  obtain ⟨hne,hj⟩ := hold hj
  have hinv := h.inst w j hj
  have hname := h.name_eq hj
  refine hinv.handOut le_rfl (fun w' x hx => .inl ((mem_busy_erase c name).mp hx).2)
    (fun w' hw' x hx hx' => ?_) (fun x => ?_) hinv.active_nodup rfl hinv.pending_gt
  · exact hinv.foreign w' hw' x ((mem_busy_erase c name).mp hx).2 ((mem_busy_erase c name).mp hx').2
  · rw [mem_busy_erase,← hinv.own,hname]
    exact and_iff_right hne

variable {db db' : Database}

theorem checkTable_spec {table : List (String × ℤ)}
    (hlast : db.lastValue = some lastValue) (h : checkTable positive db table = .ok db') :
    db'.streamPositions = db.streamPositions ∧ db'.tables = db.tables ∧
      ∃ v, db'.lastValue = some v ∧ lastValue ≤ v ∧ ∀ row ∈ table, factorOf positive * row.2 ≤ v := by
  have hspec : ∀ row ∈ table, factorOf positive * row.2 ≤ max lastValue
      (max ((table.map (fun row => factorOf positive * row.2)).max?.getD 0) 0) := by
    intro row hrow
    have hmem := mem_map_of_mem (f := fun row : String × ℤ => factorOf positive * row.2) hrow
    rw [max?_eq_some_max (ne_nil_of_mem hmem)]
    exact (le_max_of_mem hmem).trans ((le_max_left _ _).trans (le_max_right _ _))
  unfold checkTable at h
  rw [hlast] at h
  dsimp only at h
  split at h
  · split at h
    · cases h
    · cases h
      exact ⟨rfl,rfl,_,rfl,le_max_left _ _,hspec⟩
  · cases h
    exact ⟨rfl,rfl,_,rfl,le_max_left _ _,hspec⟩

theorem checkTables_spec {tables : List (List (String × ℤ))} (hlast : db.lastValue = some lastValue)
    (h : tables.foldlM (checkTable positive) db = .ok db') :
    db'.streamPositions = db.streamPositions ∧ db'.tables = db.tables ∧
      ∃ v, db'.lastValue = some v ∧ lastValue ≤ v ∧
        ∀ table ∈ tables, ∀ row ∈ table, factorOf positive * row.2 ≤ v := by
  induction tables generalizing db lastValue with
  | nil =>
    cases h
    exact ⟨rfl,rfl,lastValue,hlast,le_rfl,by simp⟩
  | cons table tables ih =>
    rw [foldlM_cons] at h
    cases hcheck : checkTable positive db table with
    | error e =>
      rw [hcheck] at h
      cases h
    | ok mid =>
      rw [hcheck] at h
      obtain ⟨hp,ht,v,hv,hle,hrows⟩ := checkTable_spec hlast hcheck
      obtain ⟨hp',ht',v',hv',hle',hrows'⟩ := ih hv h
      refine ⟨hp'.trans hp,ht'.trans ht,v',hv',hle.trans hle',?_⟩
      exact forall_mem_cons.mpr ⟨fun row hrow => (hrows row hrow).trans hle',hrows'⟩

theorem mem_activeIds : (w,x) ∈ c.activeIds ↔ x ∈ c.busy w := by
  simp [activeIds,Entries.lookup_eq_some,busy]

section
variable (hw : writers ≠ []) (h : c.Inv writers positive) (hname : name ∉ c.live)
include hw h hname

theorem Inv.readable (hclear : c.Clear writers positive (.start name)) {v : ℤ} (hle : c.seq ≤ v)
    (hpositions : db.streamPositions = c.streamPositions) (htables : db.tables = c.tables)
    (hlast : db.lastValue = some v)
    (hrows : ∀ table ∈ db.tables, ∀ row ∈ table, factorOf positive * row.2 ≤ v) :
    Readable v c.busy name writers positive (db.deleteStale writers) := by
  have hstale : (db.deleteStale writers).tables = db.tables ∧
      (db.deleteStale writers).lastValue = db.lastValue := by
    rw [Database.deleteStale,if_neg hw]
    exact ⟨rfl,rfl⟩
  have hbusy := fun (w : String) (x : ℤ) (hx : x ∈ c.busy w) => hclear (w,x) (mem_activeIds.mpr hx)
  have hpos := h.seq_pos
  refine ⟨hpos.trans hle,fun w x hx => (h.busy_le x hx).trans hle,fun w hw' u hu => ?_,?_,?_,?_,?_⟩
  · have hpassed := h.positions w u (hpositions ▸ (Database.lookup_deleteStale.mp hu).2)
    exact ⟨⟨hpassed.pos,hpassed.le.trans hle,hpassed.free⟩,hpassed.lt⟩
  · rw [hstale.1]
    intro table htable row hrow
    refine ⟨hrows table htable row hrow,fun w hx => ?_⟩
    exact (hbusy w _ hx).2.2 table (htables ▸ htable) row hrow rfl
  · rw [hstale.2]
    intro hwriter v' hv'
    obtain rfl : v = v' := by simpa [hlast] using hv'
    refine ⟨hpos.trans hle,le_rfl,fun w hx => ?_⟩
    have hv : v = c.seq := le_antisymm (h.busy_le v hx) hle
    exact (hbusy w v hx).1 hwriter hv
  · ext x
    constructor
    · rintro ⟨i,hi,-⟩
      exact hname (lookup_isSome.mp (by simp [hi]))
    · exact False.elim
  · rintro w x hx
    obtain ⟨i,hi,hxi⟩ := hx
    have hwriter := mem_writers hw (h.inst w i hi) (h.config w i hi) hxi
    obtain ⟨u,hu⟩ := Option.isSome_iff_exists.mp
      (lookup_isSome.mpr (hbusy w x ⟨i,hi,hxi⟩).2.1)
    refine ⟨hwriter,lookup_isSome.mp (Option.isSome_iff_exists.mpr ⟨u,?_⟩)⟩
    exact Database.lookup_deleteStale.mpr ⟨.inr hwriter,hpositions ▸ hu⟩

theorem Inv.start (hclear : c.Clear writers positive (.start name))
    (hdb : checkConsistency positive c.database = .ok db) : Inv writers positive { c with
      live := c.live.insert name ⟨construct name writers positive (db.deleteStale writers),[]⟩
      seq := (db.deleteStale writers).lastValue.getD c.seq
      streamPositions := (db.deleteStale writers).streamPositions } := by
  obtain ⟨hpositions,htables,v,hv,hle,hrows⟩ :=
    checkTables_spec (show c.database.lastValue = some c.seq from rfl) hdb
  have hseq : (db.deleteStale writers).lastValue.getD c.seq = v := by
    rw [Database.deleteStale,if_neg hw]
    simp [hv]
  have hlookup : ∀ {w u}, (db.deleteStale writers).streamPositions.lookup w = some u →
      c.streamPositions.lookup w = some u := by
    intro w u hu
    have hu := (Database.lookup_deleteStale.mp hu).2
    rwa [hpositions] at hu
  have hinv := GenInv.construct (h.readable hw hname hclear hle hpositions htables hv
    (htables ▸ hrows))
  have hconfig := construct_config name writers positive (db.deleteStale writers)
  have hcname : (construct name writers positive (db.deleteStale writers)).instanceName = name :=
    congrArg Prod.fst hconfig
  have hbusy : ({ c with
      live := c.live.insert name ⟨construct name writers positive (db.deleteStale writers),[]⟩
      seq := v
      streamPositions := (db.deleteStale writers).streamPositions } : Cluster).busy = c.busy := by
    funext w
    ext x
    refine (mem_busy_insert c name _ v).trans ?_
    split
    · rename_i hwn
      subst hwn
      have hown := hinv.own x
      rw [hcname] at hown
      exact hown.symm
    · exact Iff.rfl
  have hlater : ∀ {w u}, Passed c.seq c.busy w u → Passed v c.busy w u :=
    fun hp => hp.later hle fun _ _ hx => .inl hx
  rw [hseq]
  refine ⟨h.seq_pos.trans hle,fun w j hj => ?_,fun w j hj => ?_,fun w j hj => ?_,
    fun w u hu => hbusy ▸ hlater (h.positions w u (hlookup hu)),
    fun w r m hm => hbusy ▸ hlater (h.messages w r m hm)⟩
  · rcases Entries.insert_cases hj with ⟨rfl,rfl⟩ | ⟨-,hold⟩
    · exact hconfig
    · exact h.config w j hold
  · rw [hbusy]
    rcases Entries.insert_cases hj with ⟨rfl,rfl⟩ | ⟨-,hold⟩
    · exact hinv
    · exact (h.inst w j hold).later hle
  · rcases Entries.insert_cases hj with ⟨rfl,rfl⟩ | ⟨-,hold⟩
    · exact fun w' hw' => mem_construct hw' w positive _
    · exact h.keys w j hold

end

theorem Inv.announced (h : c.Inv writers positive) (hi : c.live.lookup name = some i) :
    Passed c.seq c.busy name (i.gen.getCurrentTokenForWriter name * factorOf positive) := by
  rw [token_of_config (h.config name i hi)]
  exact (h.inst name i hi).passed (h.name_eq hi)

theorem step_inv (hw : writers ≠ []) {e : Event} (h : c.Inv writers positive)
    (hclear : c.Clear writers positive e) (hs : c.step writers positive e = some c') :
    c'.Inv writers positive := by
  cases e with
  | start name =>
    simp only [step] at hs
    split at hs
    · cases hs
    · rename_i hname
      split at hs
      · cases hs
      · rename_i db hdb
        cases hs
        exact h.start hw hname hclear hdb
  | crash name =>
    simp only [step] at hs
    split at hs
    · cases hs
      exact h.crash name
    · cases hs
  | act name a =>
    simp only [step] at hs
    split at hs
    · cases hs
    · rename_i i hi
      split at hs
      · rename_i hallowed
        obtain ⟨hlocal,hincreasing,hnew⟩ := hallowed
        obtain ⟨i',hi',rfl⟩ := Option.map_eq_some_iff.mp hs
        have hids := Local.le_foldl_max a.ids c.seq
        refine h.replace hw hi (Instance.step_steps hi') ⟨hids.1,?_,?_,?_,?_,?_⟩
        · exact hincreasing.imp fun hlt => hlt.ne
        · exact fun x hx => ⟨hnew x hx,hids.2 x hx⟩
        all_goals
          rintro w newId rfl
          simp [Action.reported] at hlocal
      · cases hs
  | announce sender receiver =>
    obtain ⟨i,hi,rfl⟩ := Option.map_eq_some_iff.mp hs
    refine { h with messages := fun w r m hm => ?_ }
    by_cases hwr : (w,r) = (sender,receiver)
    · obtain ⟨rfl,rfl⟩ := Prod.mk.inj hwr
      simp only [update_self,mem_append,mem_singleton] at hm
      rcases hm with hm | rfl
      · exact h.messages w r m hm
      · exact h.announced hi
    · simp only [update_of_ne hwr] at hm
      exact h.messages w r m hm
  | deliver sender receiver =>
    simp only [step] at hs
    split at hs
    · rename_i m ms i hqueue hi
      obtain ⟨i',hi',rfl⟩ := Option.map_eq_some_iff.mp hs
      have hm := h.messages sender receiver m (by simp [hqueue])
      have hpopped : Inv writers positive { c with queue := update c.queue (sender,receiver) ms } := by
        refine { h with messages := fun w r m' hm' => ?_ }
        by_cases hwr : (w,r) = (sender,receiver)
        · obtain ⟨rfl,rfl⟩ := Prod.mk.inj hwr
          simp only [update_self] at hm'
          exact h.messages w r m' (by simp [hqueue,hm'])
        · simp only [update_of_ne hwr] at hm'
          exact h.messages w r m' hm'
      refine hpopped.replace hw hi (Instance.step_steps hi') ⟨le_rfl,nodup_nil,by
        simp [Action.ids],?_,?_,?_⟩
      all_goals
        intro w newId heq
        obtain ⟨rfl,rfl⟩ := Action.receive.inj heq
      · exact hm.le
      · exact hm.free
      · exact hm.lt
    · cases hs
  | persist name table streamId =>
    simp only [step] at hs
    split at hs
    · cases hs
    · split at hs
      · cases hs
        exact { h with }
      · cases hs
  | deleteRow table row =>
    cases hs
    exact { h with }
  | updatePositions name =>
    simp only [step] at hs
    split at hs
    · cases hs
    · rename_i i hi
      split at hs
      · cases hs
        refine { h with positions := fun w v hv => ?_ }
        rcases Positions.lookup_upsert hv with hv | ⟨rfl,rfl⟩
        · exact h.positions w v hv
        · exact h.announced hi
      · cases hs

/-- A cluster before its first instance starts: every recorded position has been handed
out. -/
structure Quiet (positive : Bool) (c : Cluster) : Prop where
  live : c.live = ∅
  queue : ∀ w r, c.queue (w,r) = []
  seq_pos : 1 ≤ c.seq
  positions : ∀ w v, c.streamPositions.lookup w = some v →
    1 ≤ v * factorOf positive ∧ v * factorOf positive ≤ c.seq

theorem Quiet.inv (h : c.Quiet positive) : c.Inv writers positive := by
  have hnone : ∀ {w i}, c.live.lookup w = some i → False := by
    intro w i hi
    rw [h.live] at hi
    simp at hi
  refine ⟨h.seq_pos,fun w i hi => (hnone hi).elim,fun w i hi => (hnone hi).elim,
    fun w i hi => (hnone hi).elim,fun w v hv => ?_,?_⟩
  · obtain ⟨hpos,hle⟩ := h.positions w v hv
    exact ⟨⟨hpos,hle,fun w' ⟨i,hi,_⟩ => hnone hi⟩,fun x ⟨i,hi,_⟩ => (hnone hi).elim⟩
  · simp [h.queue]

end Cluster

/-- When every instance starts in a clear state, no instance ever takes for persisted an ID
that a live instance is still working on. -/
theorem persistedUpto_below_active {writers : List String} (hw : writers ≠ []) {positive : Bool}
    {c c' : Cluster} (hquiet : c.Quiet positive) {events : List Event}
    (hrun : run (guarded (Cluster.Clear writers positive) (Cluster.step writers positive))
      c events = some c')
    {w w' : String} {i j : Instance} (hi : c'.live.lookup w = some i)
    (hj : c'.live.lookup w' = some j) :
    ∀ x ∈ j.active, i.gen.returnFactor * i.gen.getPersistedUptoPosition < x := by
  have hinv : c'.Inv writers positive := by
    refine run_preserves (I := Cluster.Inv writers positive) ?_ hquiet.inv hrun
    intro s a s' hs hstep
    obtain ⟨hclear,hstep⟩ := guarded_eq_some.mp hstep
    exact Cluster.step_inv hw hs hclear hstep
  have hupto : i.gen.returnFactor * i.gen.getPersistedUptoPosition = i.gen.persistedUptoPosition := by
    rw [getPersistedUptoPosition,returnFactor,factorOf_mul_self]
  intro x hx
  rw [hupto]
  exact (hinv.inst w i hi).upto_lt w' x ⟨j,hj,hx⟩

def twoWriterCluster : Cluster where
  live := ∅
  seq := 5
  streamPositions := twoWriters.streamPositions
  tables := twoWriters.tables
  queue := fun _ => []

theorem twoWriterCluster_quiet : twoWriterCluster.Quiet true := by
  refine ⟨rfl,fun _ _ => rfl,by decide,fun w v hv => ?_⟩
  have hmem : v ∈ twoWriterCluster.streamPositions.values := Positions.mem_values.mpr ⟨w,hv⟩
  have hall : ∀ v ∈ twoWriterCluster.streamPositions.values,
      1 ≤ v * factorOf true ∧ v * factorOf true ≤ twoWriterCluster.seq := by decide
  exact hall v hmem

/-- Both writers start before IDs are handed out; "w2" finishes 7 and announces it while "w1" is
still working on 6. -/
theorem persistedUpto_below_six :
    ∃ c i, run (guarded (Cluster.Clear ["w1","w2"] true)
        (Cluster.step ["w1","w2"] true)) twoWriterCluster
        [.start "w1",.start "w2",.act "w1" .register,.act "w1" (.fetch 0 [6]),.act "w1" (.record 0),
          .act "w2" .register,.act "w2" (.fetch 0 [7]),.act "w2" (.record 0),.act "w2" (.release 0),
          .persist "w2" 0 7,.act "w2" (.finish [7]),.updatePositions "w2",.announce "w2" "w1",
          .deliver "w2" "w1"] = some c ∧
      c.live.lookup "w1" = some i ∧ 6 ∈ i.active ∧
      i.gen.returnFactor * i.gen.getPersistedUptoPosition < 6 := by
  refine ⟨_,_,(Option.some_get (by decide +kernel)).symm,(Option.some_get (by decide +kernel)).symm,
    by decide +kernel,?_⟩
  exact persistedUpto_below_active (by decide) twoWriterCluster_quiet (Option.some_get _).symm
    (Option.some_get _).symm (Option.some_get (x := AList.lookup "w1" _) (by decide +kernel)).symm 6
    (by decide +kernel)

/-- The writer "w2" starts while 6, the last value of the sequence, is being worked on by "w1".
It takes 6 for its own position and announces it, and "w1" then holds 6 for persisted. -/
theorem persistedUpto_passes_active :
    ∃ c i, run (Cluster.step ["w1","w2"] true) twoWriterCluster
        [.start "w1",.act "w1" .register,.act "w1" (.fetch 0 [6]),.act "w1" (.record 0),
          .act "w1" (.release 0),.start "w2",.announce "w2" "w1",.deliver "w2" "w1"] = some c ∧
      c.live.lookup "w1" = some i ∧ 6 ∈ i.active ∧
      6 ≤ i.gen.returnFactor * i.gen.getPersistedUptoPosition := by
  refine ⟨_,_,(Option.some_get (by decide +kernel)).symm,(Option.some_get (by decide +kernel)).symm,?_,?_⟩
  · decide +kernel
  · decide +kernel

end TextrpBriij.Storage
