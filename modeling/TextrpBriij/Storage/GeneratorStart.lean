import TextrpBriij.Storage.GeneratorInvariant

/-! # A generator after its constructor

What the database must say, against the IDs that are busy elsewhere, for a newly
constructed generator to satisfy its invariant.
-/
namespace TextrpBriij.Storage
open Generator List AList Positions

variable {last : ℤ} {busy : String → Set ℤ} {g : Generator} {name : String}
  {writers : List String} {positive : Bool} {db : Database}

/-- A position that may be given to any instance: positive, handed out, and not busy. -/
structure Settled (last : ℤ) (busy : String → Set ℤ) (v : ℤ) : Prop where
  pos : 1 ≤ v
  le : v ≤ last
  free : ∀ w, v ∉ busy w

/-- The database as a starting instance needs to find it. -/
structure Readable (last : ℤ) (busy : String → Set ℤ) (name : String) (writers : List String)
    (positive : Bool) (db : Database) : Prop where
  last_pos : 1 ≤ last
  busy_le : ∀ w, ∀ x ∈ busy w, x ≤ last
  positions : ∀ w ∈ writers, ∀ v, db.streamPositions.lookup w = some v →
    Settled last busy (v * factorOf positive) ∧ ∀ x ∈ busy w, v * factorOf positive < x
  rows : ∀ table ∈ db.tables, ∀ row ∈ table,
    factorOf positive * row.2 ≤ last ∧ ∀ w, factorOf positive * row.2 ∉ busy w
  sequence : name ∈ writers → ∀ v ∈ db.lastValue, Settled last busy v
  fresh : busy name = ∅
  known : ∀ w, ∀ x ∈ busy w, w ∈ writers ∧ w ∈ db.streamPositions

variable {v : ℤ}

theorem Positions.mem_values {p : Positions} : v ∈ p.values ↔ ∃ w, p.lookup w = some v := by
  simp [values,Entries.lookup_eq_some]

theorem Positions.min?_ne_none {p : Positions} (h : p.lookup w = some v) : p.values.min? ≠ none := by
  have hmem := mem_values.mpr ⟨w,h⟩
  exact fun hnone => not_mem_nil (min?_eq_none_iff.mp hnone ▸ hmem)

variable {w : String}

theorem Positions.lookup_restrict {p : Positions} {factor : ℤ} : (p.restrict writers factor).lookup w = some v ↔
      w ∈ writers ∧ ∃ u, p.lookup w = some u ∧ u * factor = v := by
  simp only [← Option.mem_def,mem_lookup_iff,restrict,mem_map, mem_filter,decide_eq_true_eq]
  constructor
  · rintro ⟨⟨w',u⟩,⟨hmem,hw⟩,heq⟩
    obtain ⟨rfl,hv⟩ := Sigma.mk.inj heq
    exact ⟨hw,u,hmem,eq_of_heq hv⟩
  · rintro ⟨hw,u,hmem,rfl⟩
    exact ⟨⟨w,u⟩,⟨hmem,hw⟩,rfl⟩

theorem Database.lookup_deleteStale : (db.deleteStale writers).streamPositions.lookup w = some v ↔
      (writers = [] ∨ w ∈ writers) ∧ db.streamPositions.lookup w = some v := by
  unfold Database.deleteStale
  split
  · rename_i hnil
    simp [hnil]
  · rename_i hne
    simp [lookup_restrict,hne]

theorem Positions.lookup_upsert {p : Positions} {pos : ℤ} (h : (p.upsert positive name pos).lookup w = some v) :
    p.lookup w = some v ∨ w = name ∧ v = pos := by
  have hinsert : (p.insert name pos).lookup w = some v → p.lookup w = some v ∨ w = name ∧ v = pos :=
    fun hv => (Entries.insert_cases hv).symm.imp_left And.right
  unfold upsert at h
  split at h
  · exact hinsert h
  · split at h
    · exact hinsert h
    · exact .inl h

/-- The invariant of `_load_current_ids`: nothing is in flight, and the map holds only
settled positions. -/
structure LoadInv (last : ℤ) (busy : String → Set ℤ) (g : Generator) : Prop
    extends UptoInv last busy g where
  upto_pos : 1 ≤ g.persistedUptoPosition
  last_pos : 1 ≤ last
  unfinished : g.unfinishedIds = []
  inFlight : g.inFlightFetches = []
  finished : g.finishedIds = []
  fresh : busy g.instanceName = ∅
  settled : ∀ w v, g.currentPositions.lookup w = some v → Settled last busy v
  others : ∀ w, ∀ x ∈ busy w, ∃ v, g.currentPositions.lookup w = some v ∧ v < x

theorem Generator.ownPosition_le {b : ℤ} (hb : 0 ≤ b)
    (h : ∀ w v, g.currentPositions.lookup w = some v → v ≤ b) : g.ownPosition ≤ b := by
  unfold Generator.ownPosition
  cases hl : g.currentPositions.lookup g.instanceName with
  | none => exact hb
  | some v => exact h _ v hl

section
variable (h : LoadInv last busy g)
include h

theorem LoadInv.addPersistedPosition {newId : ℤ} (hle : newId ≤ last)
    (hfree : ∀ w, newId ∉ busy w) : LoadInv last busy (g.addPersistedPosition newId) := by
  have hlast := h.last_pos
  have hpositions : ∀ w v, g.currentPositions.lookup w = some v → v ≤ last :=
    fun w v hv => (h.settled w v hv).le
  have hmin : g.minCurr ≤ last :=
    minCurr_le (ownPosition_le (by omega) hpositions) hpositions
  have hlt : ∀ w, ∀ x ∈ busy w, g.minCurr < x := by
    intro w x hx
    have hw : w ≠ g.instanceName := by
      rintro rfl
      simp [h.fresh] at hx
    obtain ⟨v,hv,hvx⟩ := h.others w x hx
    exact (minCurr_le_other hw hv).trans_lt hvx
  have hup := h.upto_pos
  exact { h with
    toUptoInv := h.toUptoInv.addPersistedPosition hmin hlt hle hfree
    upto_pos := hup.trans (Generator.Below.addPersistedPosition g newId).upto }

theorem LoadInv.insert (hw : busy w = ∅) (hv : Settled last busy v) :
    LoadInv last busy { g with currentPositions := g.currentPositions.insert w v } := by
  refine { h with
    settled := fun w' v' hl => ?_
    others := fun w' x hx => ?_ }
  · rcases Entries.insert_cases hl with ⟨rfl,rfl⟩ | ⟨-,hold⟩
    · exact hv
    · exact h.settled w' v' hold
  · have hww : w' ≠ w := by
      rintro rfl
      simp [hw] at hx
    obtain ⟨v',hl,hlt⟩ := h.others w' x hx
    exact ⟨v',(lookup_insert_ne hww).trans hl,hlt⟩

theorem LoadInv.loadRow {row : String × ℤ}
    (hrow : Settled last busy (g.returnFactor * row.2)) : LoadInv last busy (g.loadRow row) := by
  have hadd := h.addPersistedPosition hrow.le hrow.free
  unfold Generator.loadRow
  split
  · rename_i hname
    exact hadd.insert (hname ▸ h.fresh) hrow
  · exact hadd

theorem LoadInv.defaultPosition (w : String) : LoadInv last busy (g.defaultPosition w) := by
  unfold Generator.defaultPosition
  split
  · exact h
  · rename_i hnone
    refine h.insert ?_ ⟨h.upto_pos,h.upto_le,fun w' hx => lt_irrefl _ (h.upto_lt w' _ hx)⟩
    rw [Set.eq_empty_iff_forall_notMem]
    intro x hx
    obtain ⟨v,hv,-⟩ := h.others w x hx
    simp [hnone] at hv

end

def Generator.config (g : Generator) : String × List String × Bool :=
  (g.instanceName,g.writers,g.positive)

theorem Generator.eq_of_config {g g' : Generator} (h : g.config = g'.config) :
    g.instanceName = g'.instanceName ∧ g.returnFactor = g'.returnFactor :=
  ⟨congrArg Prod.fst h,congrArg (fun c : String × List String × Bool => factorOf c.2.2) h⟩

theorem Generator.loadRow_config (g : Generator) (row : String × ℤ) : (g.loadRow row).config = g.config := by
  simp only [loadRow]
  split <;> rfl

theorem Generator.defaultPosition_config (g : Generator) (w : String) :
    (g.defaultPosition w).config = g.config := by
  simp only [defaultPosition]
  split <;> rfl

theorem Generator.foldl_keeps {α β : Type} {f : Generator → α → Generator} {F : Generator → β}
    (hf : ∀ g a, F (f g a) = F g) (l : List α) (g : Generator) : F (l.foldl f g) = F g := by
  induction l generalizing g with
  | nil => rfl
  | cons a l ih => exact (ih (f g a)).trans (hf g a)

theorem LoadInv.foldRows {rows : List (String × ℤ)} (h : LoadInv last busy g)
    (hrows : ∀ row ∈ rows, Settled last busy (g.returnFactor * row.2)) :
    LoadInv last busy (rows.foldl Generator.loadRow g) := by
  induction rows generalizing g with
  | nil => exact h
  | cons row rows ih =>
    obtain ⟨hrow,hrest⟩ := forall_mem_cons.mp hrows
    apply ih (h.loadRow hrow)
    rwa [(eq_of_config (loadRow_config g row)).2]

theorem LoadInv.foldWriters (ws : List String) (h : LoadInv last busy g) :
    LoadInv last busy (ws.foldl Generator.defaultPosition g) := by
  induction ws generalizing g with
  | nil => exact h
  | cons w ws ih => exact ih (h.defaultPosition w)

theorem laterRow_cmp (positive : Bool) (minId x : ℤ) : (if positive then decide (minId * factorOf positive ≤ x)
      else decide (x ≤ minId * factorOf positive)) = decide (minId ≤ factorOf positive * x) := by
  cases positive
  · simp only [factorOf,Bool.false_eq_true,↓reduceIte,decide_eq_decide]
    omega
  · simp [factorOf]

variable {tables : List (List (String × ℤ))}

theorem mem_laterRows {minId : ℤ} {row : String × ℤ} : row ∈ laterRows positive tables minId ↔
      (∃ table ∈ tables, row ∈ table) ∧ minId ≤ factorOf positive * row.2 := by
  simp only [laterRows,mem_insertionSort,mem_flatMap,mem_filter,laterRow_cmp, decide_eq_true_eq]
  tauto

theorem tableMax_le {table : List (String × ℤ)} (hlast : 1 ≤ last)
    (h : ∀ row ∈ table, factorOf positive * row.2 ≤ last) : tableMax positive table ≤ last := by
  refine max_le ?_ hlast
  cases hmax : (table.map fun row => factorOf positive * row.2).max? with
  | none => exact hlast
  | some m =>
    obtain ⟨row,hrow,rfl⟩ := mem_map.mp (max?_eq_some_iff.mp hmax).1
    exact h row hrow

variable (h : Readable last busy name writers positive db)

section
include h

theorem loadPositions_cases (hv : (loadPositions name writers positive db).lookup w = some v) :
    Settled last busy v ∧ ∀ x ∈ busy w, v < x := by
  have hrows : ∀ {w v}, (if writers = [] then ∅
      else db.streamPositions.restrict writers (factorOf positive)).lookup w = some v →
      Settled last busy v ∧ ∀ x ∈ busy w, v < x := by
    intro w v hv
    split at hv
    · simp at hv
    · obtain ⟨hw,u,hu,rfl⟩ := lookup_restrict.mp hv
      exact h.positions w hw u hu
  unfold loadPositions at hv
  cases hlast : db.lastValue with
  | none =>
    rw [hlast] at hv
    exact hrows hv
  | some lastValue =>
    rw [hlast] at hv
    dsimp only at hv
    split at hv
    · rename_i hname
      rcases Entries.insert_cases hv with ⟨rfl,rfl⟩ | ⟨-,hold⟩
      · exact ⟨h.sequence hname _ hlast,by simp [h.fresh]⟩
      · exact hrows hold
    · exact hrows hv

theorem loadPositions_known {x : ℤ}
    (hx : x ∈ busy w) : ∃ v, (loadPositions name writers positive db).lookup w = some v := by
  obtain ⟨hw,hkey⟩ := h.known w x hx
  have hname : w ≠ name := by
    rintro rfl
    simp [h.fresh] at hx
  obtain ⟨u,hu⟩ := Option.isSome_iff_exists.mp (lookup_isSome.mpr hkey)
  have hl : (db.streamPositions.restrict writers (factorOf positive)).lookup w =
      some (u * factorOf positive) := lookup_restrict.mpr ⟨hw,u,hu,rfl⟩
  have hne : writers ≠ [] := ne_nil_of_mem hw
  refine ⟨u * factorOf positive,?_⟩
  unfold loadPositions
  rw [if_neg hne]
  split
  · split
    · exact (lookup_insert_ne hname).trans hl
    · exact hl
  · exact hl

theorem LoadInv.start {upto : ℤ} (hpos : 1 ≤ upto) (hle : upto ≤ last) (hlt : ∀ w, ∀ x ∈ busy w, upto < x) :
    LoadInv last busy { blank name writers positive with
      currentPositions := loadPositions name writers positive db
      persistedUptoPosition := upto } where
  known_le := by simp [blank]
  known_idle := by simp [blank]
  upto_le := hle
  upto_lt := hlt
  upto_pos := hpos
  last_pos := h.last_pos
  unfinished := rfl
  inFlight := rfl
  finished := rfl
  fresh := h.fresh
  settled := fun _ _ hv => (loadPositions_cases h hv).1
  others := fun w x hx => by
    obtain ⟨v,hv⟩ := loadPositions_known h hx
    exact ⟨v,hv,(loadPositions_cases h hv).2 x hx⟩

end

theorem foldl_tableMax_le {m : ℤ} (hm : m ≤ last)
    (hlast : 1 ≤ last) (h : ∀ table ∈ tables, ∀ row ∈ table, factorOf positive * row.2 ≤ last) :
    tables.foldl (fun m t => max m (tableMax positive t)) m ≤ last := by
  induction tables generalizing m with
  | nil => exact hm
  | cons table tables ih =>
    obtain ⟨htable,hrest⟩ := forall_mem_cons.mp h
    exact ih (max_le hm (tableMax_le hlast htable)) hrest

theorem le_foldl_tableMax (tables : List (List (String × ℤ))) (m : ℤ) :
    m ≤ tables.foldl (fun m t => max m (tableMax positive t)) m := by
  induction tables generalizing m with
  | nil => exact le_rfl
  | cons table tables ih => exact (le_max_left _ _).trans (ih _)

include h in
theorem LoadInv.loadCurrentIds : LoadInv last busy (loadCurrentIds name writers positive db) := by
  apply LoadInv.foldWriters
  unfold loadRows
  dsimp only
  split
  · -- Without positions nothing is busy.
    rename_i hnone
    refine LoadInv.start h (le_foldl_tableMax _ 1) ?_ fun w x hx => ?_
    · exact foldl_tableMax_le h.last_pos h.last_pos fun t ht row hrow => (h.rows t ht row hrow).1
    · obtain ⟨v,hv⟩ := loadPositions_known h hx
      exact absurd hnone (min?_ne_none hv)
  · rename_i minId hmin
    obtain ⟨hmem,hle⟩ := min?_eq_some_iff.mp hmin
    obtain ⟨w₀,hw₀⟩ := mem_values.mp hmem
    have hsettled := (loadPositions_cases h hw₀).1
    refine (LoadInv.start h hsettled.pos hsettled.le fun w x hx => ?_).foldRows fun row hrow => ?_
    · obtain ⟨v,hv⟩ := loadPositions_known h hx
      exact (hle v (mem_values.mpr ⟨w,hv⟩)).trans_lt ((loadPositions_cases h hv).2 x hx)
    · obtain ⟨⟨table,htable,hrow⟩,hge⟩ := mem_laterRows.mp hrow
      have hfree := h.rows table htable row hrow
      exact ⟨hsettled.pos.trans hge,hfree.1,hfree.2⟩

theorem loadCurrentIds_config (name : String) (writers : List String) (positive : Bool)
    (db : Database) : (loadCurrentIds name writers positive db).config = (name,writers,positive) := by
  refine (foldl_keeps defaultPosition_config writers _).trans ?_
  unfold loadRows
  split
  · rfl
  · exact foldl_keeps loadRow_config _ _

theorem construct_config (name : String) (writers : List String) (positive : Bool)
    (db : Database) : (construct name writers positive db).config = (name,writers,positive) :=
  loadCurrentIds_config name writers positive db

theorem mem_defaultPosition {w' : String} :
    w ∈ (g.defaultPosition w').currentPositions ↔ w = w' ∨ w ∈ g.currentPositions := by
  unfold Generator.defaultPosition
  split
  · rename_i v hv
    have hmem : w' ∈ g.currentPositions := lookup_isSome.mp (by simp [hv])
    refine ⟨.inr,?_⟩
    rintro (rfl | hw)
    · exact hmem
    · exact hw
  · exact mem_insert _

theorem mem_construct (hw : w ∈ writers) (name : String) (positive : Bool)
    (db : Database) : w ∈ (construct name writers positive db).currentPositions := by
  have hfold : ∀ (ws : List String) (g : Generator), w ∈ ws ∨ w ∈ g.currentPositions →
      w ∈ (ws.foldl defaultPosition g).currentPositions := by
    intro ws
    induction ws with
    | nil => exact fun g h => h.resolve_left not_mem_nil
    | cons w' ws ih =>
      intro g h
      apply ih
      rw [mem_defaultPosition]
      rcases h with h | h
      · rcases mem_cons.mp h with rfl | h
        · exact .inr (.inl rfl)
        · exact .inl h
      · exact .inr (.inr h)
  unfold construct
  dsimp only
  rw [if_neg (ne_nil_of_mem hw)]
  exact hfold writers _ (.inl hw)

include h in
theorem construct_seen : Settled last busy (construct name writers positive db).maxSeenAllocatedStreamId := by
  have hload := LoadInv.loadCurrentIds h
  have hupto : Settled last busy (loadCurrentIds name writers positive db).persistedUptoPosition :=
    ⟨hload.upto_pos,hload.upto_le,fun w hx => lt_irrefl _ (hload.upto_lt w _ hx)⟩
  unfold construct
  dsimp only
  cases hmax : (loadCurrentIds name writers positive db).currentPositions.values.max? with
  | none =>
    simpa only [Option.getD_none,max_eq_right hupto.pos] using hupto
  | some v =>
    obtain ⟨w,hw⟩ := mem_values.mp (max?_eq_some_iff.mp hmax).1
    exact max_rec' (Settled last busy) (hload.settled w v hw) hupto

theorem construct_positions_le (hv : (construct name writers positive db).currentPositions.lookup w = some v) :
    v ≤ (construct name writers positive db).maxSeenAllocatedStreamId := by
  unfold construct at hv ⊢
  have hload : ∀ {w v}, (loadCurrentIds name writers positive db).currentPositions.lookup w =
      some v → v ≤ (loadCurrentIds name writers positive db).currentPositions.values.max?.getD 1 := by
    intro w v hv
    have hmem := mem_values.mpr ⟨w,hv⟩
    rw [max?_eq_some_max (ne_nil_of_mem hmem)]
    exact le_max_of_mem hmem
  split at hv
  · rcases Entries.insert_cases hv with ⟨rfl,rfl⟩ | ⟨-,hold⟩
    · exact le_max_right _ _
    · exact (hload hold).trans (le_max_left _ _)
  · exact (hload hv).trans (le_max_left _ _)

include h in
theorem LoadInv.construct : LoadInv last busy (construct name writers positive db) := by
  have hload := LoadInv.loadCurrentIds h
  have hname : busy name = ∅ := h.fresh
  unfold Generator.construct
  dsimp only
  split
  · exact { hload.insert hname ⟨hload.upto_pos,hload.upto_le,
      fun w hx => lt_irrefl _ (hload.upto_lt w _ hx)⟩ with }
  · exact { hload with }

theorem construct_mayWrite (h : (construct name writers positive db).mayWrite) :
    (construct name writers positive db).instanceName ∈
      (construct name writers positive db).currentPositions := by
  obtain ⟨hname,hwriters,-⟩ : _ = name ∧ _ = writers ∧ _ = positive := by
    simpa [config] using construct_config name writers positive db
  unfold Generator.mayWrite at h
  rw [hname,hwriters] at h
  rw [hname]
  rcases h with hw | hw
  · unfold construct
    dsimp only
    rw [if_pos hw]
    exact mem_insert _ |>.mpr (.inl rfl)
  · exact mem_construct hw name positive db

include h in
theorem GenInv.construct : GenInv last busy (construct name writers positive db) [] := by
  have hload := LoadInv.construct h
  have hseen := construct_seen h
  have hown : (Generator.construct name writers positive db).mayWrite →
      1 ≤ (Generator.construct name writers positive db).ownPosition := by
    intro hwrite
    obtain ⟨v,hv⟩ := Option.isSome_iff_exists.mp (lookup_isSome.mpr (construct_mayWrite hwrite))
    rw [ownPosition,hv]
    exact (hload.settled _ v hv).pos
  have hpos := hseen.pos
  have hlast := h.last_pos
  have hposition : (Generator.construct name writers positive db).ownPosition ≤
      (Generator.construct name writers positive db).maxSeenAllocatedStreamId :=
    ownPosition_le (by omega) fun w v hv => construct_positions_le hv
  exact {
    toUptoInv := hload.toUptoInv
    nonneg := by omega
    busy_le := h.busy_le
    own := fun x => by simp [hload.fresh,active,hload.unfinished]
    active_nodup := by simp [active,hload.unfinished]
    foreign := by simp [hload.fresh]
    inFlight := by simp [hload.inFlight]
    pending_gt := by simp
    fetch_le := by simp [hload.inFlight]
    position_pos := hown
    writes := by simp [idle,hload.unfinished,hload.inFlight]
    position_le_seen := hposition
    position_le_fetch := by simp [hload.inFlight]
    position_le_local := hposition
    local_pos := hseen.pos
    local_le := hseen.le
    local_lt := by simp [hload.fresh]
    local_idle := fun w _ => hseen.free w
    seen_le := hseen.le
    unfinished_le := by simp [hload.unfinished]
    seen_idle := fun w _ => hseen.free w
    finished_le := by simp [hload.finished]
    finished_idle := by simp [hload.finished]
    others := fun w _ => hload.others w
    positions_le := fun w v hv => (hload.settled w v hv).le }

end TextrpBriij.Storage
