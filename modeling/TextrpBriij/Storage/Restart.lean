import TextrpBriij.Storage.LocalWriter

/-! # Restarting on SQLite

There is one process and no sequence in the database: `LocalSequenceGenerator` counts in
memory, from the persisted position that the constructor computed. The IDs are new if that
position is not below the greatest ID in the tables.
-/
namespace TextrpBriij.Storage
open Generator List Runs

structure LocalSequence where
  currentMaxId : Option ℤ

def LocalSequence.getNextMultTxn (s : LocalSequence) (first : ℤ) (n : ℕ) : List ℤ × LocalSequence :=
  let current := s.currentMaxId.getD first
  ((range n).map (fun i : ℕ => current + 1 + (i : ℤ)),⟨some (current + n)⟩)

structure Server where
  inst : Option Instance
  sequence : LocalSequence
  streamPositions : Positions
  tables : List (List (String × ℤ))

inductive ServerEvent where
  | restart
  | act (a : Action)
  | fetch (i n : ℕ)
  | persist (table : ℕ) (streamId : ℤ)
  | updatePositions

def rowIds (positive : Bool) (tables : List (List (String × ℤ))) : List ℤ :=
  tables.flatten.map fun row => factorOf positive * row.2

/-- The greatest of some IDs is at most one above a position, or it is not the only one; in a
positive stream the other one is at most one below it. -/
def GreatestCovered (positive : Bool) (p : ℤ) (ids : List ℤ) : Prop :=
  ∀ x ∈ ids, (∀ y ∈ ids, y ≤ x) → x ≤ p + 1 ∨ ∃ y ∈ ids.erase x, positive → x ≤ y + 1

def ServerEvent.isRestart : ServerEvent → Bool
  | .restart => true
  | _ => false

namespace Server

def database (s : Server) : Database := ⟨s.streamPositions,s.tables,none⟩

def nextIds (s : Server) (n : ℕ) : List ℤ :=
  match s.inst with
  | none => []
  | some i => (s.sequence.getNextMultTxn i.gen.persistedUptoPosition n).1

section
variable (name : String) (writers : List String) (positive : Bool)

def restart (s : Server) : Server :=
  { s with
    inst := some ⟨construct name writers positive (s.database.deleteStale writers),[]⟩
    sequence := ⟨none⟩
    streamPositions := (s.database.deleteStale writers).streamPositions }

def step (s : Server) : ServerEvent → Option Server
  | .restart => some (s.restart name writers positive)
  | .act a =>
    match s.inst with
    | none => none
    | some i =>
      if a.ids = [] ∧ a.reported (factorOf positive) = [] then
        (i.step a).map fun i => { s with inst := some i }
      else none
  | .fetch k n =>
    match s.inst with
    | none => none
    | some i =>
      let (ids,sequence) := s.sequence.getNextMultTxn i.gen.persistedUptoPosition n
      (i.step (.fetch k ids)).map fun i => { s with inst := some i, sequence := sequence }
  | .persist table streamId =>
    match s.inst with
    | none => none
    | some i =>
      if streamId ∈ i.gen.unfinishedIds then
        some { s with
          tables := s.tables.modify table ((name,factorOf positive * streamId) :: ·) }
      else none
  | .updatePositions =>
    match s.inst with
    | none => none
    | some i =>
      if writers = [] then some s
      else some { s with
        streamPositions :=
          s.streamPositions.upsert positive name (i.gen.getCurrentTokenForWriter name) }

/-- What a run leaves in the database: rows and a position of the one writer. -/
structure Stored (s : Server) : Prop where
  positions : ∀ w v, s.streamPositions.lookup w = some v → w = name ∧ 1 ≤ v * factorOf positive
  rows : ∀ table ∈ s.tables, ∀ row ∈ table, row.1 = name
  live : ∀ i, s.inst = some i → i.gen.config = (name,writers,positive) ∧ 1 ≤ i.gen.maxPositionOfLocalInstance

/-- The rows at or above the stored position, if there is one, reach up to the greatest. -/
def Covered (s : Server) : Prop :=
  writers ≠ [] → ∀ v, s.streamPositions.lookup name = some v → GreatestCovered positive (v * factorOf positive)
      ((rowIds positive s.tables).filter (v * factorOf positive ≤ ·))

end

end Server

section Load
variable {g : Generator} {row : String × ℤ} {rows : List (String × ℤ)}

structure Alone (g : Generator) : Prop where
  idle : g.idle = true
  only : ∀ w v, g.currentPositions.lookup w = some v → w = g.instanceName
  sorted : g.knownPersistedPositions.Pairwise (· ≤ ·)

theorem Alone.minCurr (h : Alone g) : g.minCurr = g.ownPosition := by
  have hothers : g.otherPositions = [] := by
    rw [eq_nil_iff_forall_not_mem]
    intro v hv
    obtain ⟨w,hw,hl⟩ := mem_otherPositions.mp hv
    exact hw (h.only w v hl)
  simp [Generator.minCurr,hothers]

theorem Generator.skipRuns_sorted (upto : ℤ) {known : List ℤ} (h : known.Pairwise (· ≤ ·)) :
    (skipRuns upto known).2.Pairwise (· ≤ ·) := by
  induction known generalizing upto with
  | nil => exact h
  | cons k known ih =>
    have htail := (pairwise_cons.mp h).2
    unfold skipRuns
    split
    · exact ih upto htail
    · split
      · exact ih _ htail
      · exact h

theorem Generator.skipRuns_next (upto : ℤ) {known : List ℤ} (h : known.Pairwise (· ≤ ·))
    (hmem : upto + 1 ∈ known) : upto + 1 ≤ (skipRuns upto known).1 := by
  induction known with
  | nil => simp at hmem
  | cons k known ih =>
    obtain ⟨hk,htail⟩ := pairwise_cons.mp h
    unfold skipRuns
    split
    · apply ih htail
      rcases mem_cons.mp hmem with heq | hmem
      · omega
      · exact hmem
    · split
      · exact skipRuns_ge _ _
      · rcases mem_cons.mp hmem with heq | hmem
        · omega
        · have := hk _ hmem
          omega

theorem Generator.loadRow_eq (h : row.1 = g.instanceName) :
    g.loadRow row = { g.addPersistedPosition (g.returnFactor * row.2) with
      currentPositions := g.currentPositions.insert g.instanceName (g.returnFactor * row.2) } := by
  rw [← h]
  exact if_pos h

theorem Generator.loadRow_own (h : row.1 = g.instanceName) :
    (g.loadRow row).ownPosition = g.returnFactor * row.2 := by
  rw [loadRow_eq h]
  change ((g.currentPositions.insert g.instanceName _).lookup g.instanceName).getD 0 = _
  rw [AList.lookup_insert]
  rfl

theorem Alone.loadRow (h : Alone g) (hrow : row.1 = g.instanceName) : Alone (g.loadRow row) := by
  have hsorted := (skipRuns_sorted (max g.minCurr g.persistedUptoPosition)
    (Pairwise.orderedInsert (r := (· ≤ ·)) (g.returnFactor * row.2) _ h.sorted))
  rw [loadRow_eq hrow]
  refine ⟨h.idle,fun w v hl => ?_,hsorted⟩
  rcases Entries.insert_cases hl with ⟨hw,-⟩ | ⟨-,hold⟩
  · exact hw
  · exact h.only w v hold

theorem Alone.loadRow_upto (h : Alone g) (hrow : row.1 = g.instanceName) :
    (g.loadRow row).persistedUptoPosition = (skipRuns (max g.ownPosition g.persistedUptoPosition)
      (g.knownPersistedPositions.orderedInsert (· ≤ ·) (g.returnFactor * row.2))).1 ∧
    (g.loadRow row).knownPersistedPositions = (skipRuns (max g.ownPosition g.persistedUptoPosition)
      (g.knownPersistedPositions.orderedInsert (· ≤ ·) (g.returnFactor * row.2))).2 := by
  rw [loadRow_eq hrow]
  simp [Generator.addPersistedPosition,h.minCurr]

theorem Alone.foldRows (h : Alone g) (hrows : ∀ row ∈ rows, row.1 = g.instanceName) :
    Alone (rows.foldl Generator.loadRow g) ∧ (rows.foldl Generator.loadRow g).config = g.config ∧
      g.persistedUptoPosition ≤ (rows.foldl Generator.loadRow g).persistedUptoPosition := by
  induction rows generalizing g with
  | nil => exact ⟨h,rfl,le_rfl⟩
  | cons row rows ih =>
    obtain ⟨hrow,hrest⟩ := forall_mem_cons.mp hrows
    have hconfig := g.loadRow_config row
    have hname := (eq_of_config hconfig).1
    obtain ⟨hfold,hcfold,hle⟩ := ih (h.loadRow hrow) fun r hr => (hrest r hr).trans hname.symm
    refine ⟨hfold,hcfold.trans hconfig,le_trans ?_ hle⟩
    rw [(h.loadRow_upto hrow).1]
    exact (le_max_right _ _).trans (skipRuns_ge _ _)

/-- In a positive stream the rows come in ascending order, and nothing gets ahead of the last
one. -/
structure Ascending (g : Generator) : Prop extends Alone g where
  upto_le : g.persistedUptoPosition ≤ g.ownPosition
  known_le : ∀ k ∈ g.knownPersistedPositions, k ≤ g.ownPosition

theorem Ascending.loadRow (h : Ascending g) (hrow : row.1 = g.instanceName)
    (hge : g.ownPosition ≤ g.returnFactor * row.2) : Ascending (g.loadRow row) := by
  have hknown : ∀ k ∈ g.knownPersistedPositions.orderedInsert (· ≤ ·) (g.returnFactor * row.2),
      k ≤ g.returnFactor * row.2 := by
    intro k hk
    rcases (mem_orderedInsert _).mp hk with rfl | hk
    · exact le_rfl
    · exact (h.known_le k hk).trans hge
  obtain ⟨hupto,hrest⟩ := h.toAlone.loadRow_upto hrow
  refine ⟨h.toAlone.loadRow hrow,?_,?_⟩
  · rw [hupto,loadRow_own hrow,max_eq_left h.upto_le]
    by_contra hgt
    have hmem := skipRuns_run g.ownPosition _ (hge.trans_lt (not_le.mp hgt)) le_rfl
    exact hgt (hknown _ hmem)
  · rw [hrest,loadRow_own hrow]
    exact fun k hk => hknown k (skipRuns_sublist _ _ k hk)

/-- The last row of a positive stream is covered exactly if it is at most one above what came
before it. -/
theorem Ascending.loadRow_covers (h : Ascending g) (hrow : row.1 = g.instanceName) :
    g.returnFactor * row.2 ≤ (g.loadRow row).persistedUptoPosition ↔
      g.returnFactor * row.2 ≤ g.ownPosition + 1 := by
  rw [(h.toAlone.loadRow_upto hrow).1,max_eq_left h.upto_le]
  constructor
  · intro hle
    by_contra hgt
    have hmem := skipRuns_run g.ownPosition (x := g.ownPosition + 1) _ (by omega) (le_trans (by omega) hle)
    rcases (mem_orderedInsert _).mp hmem with heq | hk
    · omega
    · have := h.known_le _ hk
      omega
  · intro hle
    by_cases heq : g.returnFactor * row.2 = g.ownPosition + 1
    · rw [heq]
      refine skipRuns_next _ ?_ ((mem_orderedInsert _).mpr (.inl rfl))
      exact Pairwise.orderedInsert (r := (· ≤ ·)) _ _ h.sorted
    · have := skipRuns_ge g.ownPosition
        (g.knownPersistedPositions.orderedInsert (· ≤ ·) (g.returnFactor * row.2))
      omega

theorem Ascending.foldRows (h : Ascending g) (hrows : ∀ row ∈ rows, row.1 = g.instanceName)
    (hsorted : (rows.map fun row => g.returnFactor * row.2).Pairwise (· ≤ ·))
    (hge : ∀ row ∈ rows, g.ownPosition ≤ g.returnFactor * row.2) :
    Ascending (rows.foldl Generator.loadRow g) ∧ ∀ x, (x ≤ (rows.foldl Generator.loadRow g).ownPosition + 1 ↔
        x ≤ g.ownPosition + 1 ∨ ∃ row ∈ rows, x ≤ g.returnFactor * row.2 + 1) := by
  induction rows generalizing g with
  | nil => exact ⟨h,fun x => by simp⟩
  | cons row rows ih =>
    obtain ⟨hrow,hrest⟩ := forall_mem_cons.mp hrows
    obtain ⟨hfirst,hsorted⟩ := pairwise_cons.mp hsorted
    obtain ⟨hle,hge⟩ := forall_mem_cons.mp hge
    obtain ⟨hname,hfactor⟩ := eq_of_config (g.loadRow_config row)
    obtain ⟨hasc,hiff⟩ := ih (h.loadRow hrow hle) (fun r hr => (hrest r hr).trans hname.symm)
      (by simpa [hfactor] using hsorted) (by
        rw [loadRow_own hrow,hfactor]
        exact fun r hr => hfirst _ (mem_map_of_mem (f := fun row : String × ℤ =>
          g.returnFactor * row.2) hr))
    refine ⟨hasc,fun x => ?_⟩
    rw [foldl_cons,hiff,loadRow_own hrow,hfactor]
    simp only [mem_cons,exists_eq_or_imp]
    constructor
    · exact .inr
    · rintro (hx | hx)
      · exact .inl (by omega)
      · exact hx

variable {p x : ℤ}

theorem GreatestCovered.iff_of_max {positive : Bool} {ids rest : List ℤ}
    (hperm : ids.Perm (x :: rest)) (hmax : ∀ y ∈ rest, y ≤ x) :
    GreatestCovered positive p ids ↔ x ≤ p + 1 ∨ ∃ y ∈ rest, positive → x ≤ y + 1 := by
  have hrest : (ids.erase x).Perm rest := by simpa using hperm.erase x
  have hle : ∀ y ∈ ids, y ≤ x := by
    intro y hy
    rcases mem_cons.mp (hperm.mem_iff.mp hy) with rfl | hy
    · exact le_rfl
    · exact hmax y hy
  have hx : x ∈ ids := hperm.mem_iff.mpr mem_cons_self
  have hother : (∃ y ∈ ids.erase x, positive → x ≤ y + 1) ↔ ∃ y ∈ rest, positive → x ≤ y + 1 := by
    simp only [hrest.mem_iff]
  rw [← hother]
  constructor
  · exact fun h => h x hx hle
  · intro h x' hx' hmax'
    obtain rfl : x' = x := le_antisymm (hle x' hx') (hmax' x hx)
    exact h

theorem forall_le_iff_of_max {m : String × ℤ} {f : ℤ} (hm : m ∈ rows) (hmax : ∀ row ∈ rows, f * row.2 ≤ f * m.2) :
    (∀ row ∈ rows, f * row.2 ≤ p) ↔ f * m.2 ≤ p :=
  ⟨fun h => h m hm,fun h row hrow => (hmax row hrow).trans h⟩

theorem Ascending.covers_positive (h : Ascending g) (hrows : ∀ row ∈ rows, row.1 = g.instanceName)
    (hsorted : (rows.map fun row => g.returnFactor * row.2).Pairwise (· ≤ ·))
    (hge : ∀ row ∈ rows, g.ownPosition ≤ g.returnFactor * row.2) : (∀ row ∈ rows,
      g.returnFactor * row.2 ≤ (rows.foldl Generator.loadRow g).persistedUptoPosition) ↔
    GreatestCovered true g.ownPosition (rows.map fun row => g.returnFactor * row.2) := by
  rcases eq_nil_or_concat' rows with rfl | ⟨front,m,rfl⟩
  · simp [GreatestCovered]
  obtain ⟨hfront,hm⟩ := forall_mem_append.mp hrows
  rw [map_append,pairwise_append] at hsorted
  obtain ⟨hsorted,-,hlast⟩ := hsorted
  have hmax : ∀ row ∈ front, g.returnFactor * row.2 ≤ g.returnFactor * m.2 := by
    intro row hrow
    exact hlast _ (mem_map_of_mem (f := fun row : String × ℤ => g.returnFactor * row.2) hrow)
      _ (by simp)
  obtain ⟨hasc,hown⟩ := h.foldRows hfront hsorted fun row hrow =>
    hge row (mem_append_left _ hrow)
  obtain ⟨hname,hfactor⟩ := eq_of_config (h.toAlone.foldRows hfront).2.1
  have hcovers := hasc.loadRow_covers ((hm m (by simp)).trans hname.symm)
  rw [hfactor,hown] at hcovers
  rw [map_append,map_singleton,GreatestCovered.iff_of_max
    (perm_append_singleton _ _) (forall_mem_map.mpr hmax),foldl_append]
  simp only [foldl_cons,foldl_nil]
  rw [forall_le_iff_of_max (m := m) (by simp) (by simpa [or_imp,forall_and] using hmax),hcovers]
  simp

theorem Ascending.covers_negative (h : Ascending g) (hrows : ∀ row ∈ rows, row.1 = g.instanceName)
    (hsorted : (rows.map fun row => g.returnFactor * row.2).Pairwise (· ≥ ·)) : (∀ row ∈ rows,
      g.returnFactor * row.2 ≤ (rows.foldl Generator.loadRow g).persistedUptoPosition) ↔
    GreatestCovered false g.ownPosition (rows.map fun row => g.returnFactor * row.2) := by
  cases rows with
  | nil => simp [GreatestCovered]
  | cons m rest =>
    obtain ⟨hm,hrest⟩ := forall_mem_cons.mp hrows
    obtain ⟨hfirst,-⟩ := pairwise_cons.mp hsorted
    rw [map_cons,GreatestCovered.iff_of_max (.refl _) hfirst]
    rw [forall_le_iff_of_max (m := m) mem_cons_self (by simpa using forall_mem_map.mp hfirst)]
    cases rest with
    | nil => simpa using h.loadRow_covers hm
    | cons r rest =>
      have hname := (eq_of_config (g.loadRow_config m)).1
      have halone := h.toAlone.loadRow hm
      have hr : r.1 = (g.loadRow m).instanceName := (hrest r mem_cons_self).trans hname.symm
      refine iff_of_true ?_ (.inr ⟨_,mem_cons_self,by simp⟩)
      -- The row after the greatest moves the position up to it.
      calc g.returnFactor * m.2 = (g.loadRow m).ownPosition := (loadRow_own hm).symm
        _ ≤ ((g.loadRow m).loadRow r).persistedUptoPosition := by
          rw [(halone.loadRow_upto hr).1]
          exact (le_max_left _ _).trans (skipRuns_ge _ _)
        _ ≤ _ := by
          refine ((halone.loadRow hr).foldRows fun row hrow => ?_).2.2
          rw [(eq_of_config ((g.loadRow m).loadRow_config r)).1,hname]
          exact hrest row (mem_cons_of_mem _ hrow)

end Load

section Construct
variable {name : String} {writers : List String} {positive : Bool} {db : Database}
variable {tables : List (List (String × ℤ))}

theorem GreatestCovered.perm {ids ids' : List ℤ} (h : ids.Perm ids') :
    GreatestCovered positive p ids ↔ GreatestCovered positive p ids' := by
  simp only [GreatestCovered,h.mem_iff,(h.erase _).mem_iff]

theorem mem_rowIds :
    x ∈ rowIds positive tables ↔ ∃ table ∈ tables, ∃ row ∈ table, factorOf positive * row.2 = x := by
  simp only [rowIds,map_flatten,mem_flatten,mem_map,exists_exists_and_eq_and]

theorem laterRows_perm (p : ℤ) :
    ((laterRows positive tables p).map fun row => factorOf positive * row.2).Perm
      ((rowIds positive tables).filter (p ≤ ·)) := by
  have hfilter : ((rowIds positive tables).filter (p ≤ ·)) =
      (tables.flatMap (fun table => table.filter (fun row =>
        if positive then p * factorOf positive ≤ row.2
        else row.2 ≤ p * factorOf positive))).map (fun row => factorOf positive * row.2) := by
    simp only [rowIds,filter_map,laterRow_cmp,flatMap,← filter_flatten]
    rfl
  rw [hfilter]
  exact (perm_insertionSort _ _).map _

theorem foldl_defaultPosition_upto (ws : List String) (g : Generator) :
    (ws.foldl defaultPosition g).persistedUptoPosition = g.persistedUptoPosition := by
  refine foldl_keeps (F := Generator.persistedUptoPosition) (fun g w => ?_) ws g
  unfold defaultPosition
  split <;> rfl

theorem construct_unfinished (name : String) (writers : List String) (positive : Bool)
    (db : Database) : (construct name writers positive db).unfinishedIds = [] := by
  refine (foldl_keeps (F := Generator.unfinishedIds) (fun g w => ?_) writers _).trans ?_
  · unfold defaultPosition
    split <;> rfl
  · unfold loadRows
    split
    · rfl
    · refine foldl_keeps (F := Generator.unfinishedIds) (fun g row => ?_) _ _
      simp only [loadRow]
      split <;> rfl

theorem row_le_foldl_tableMax {m : ℤ} (hx : x ∈ rowIds positive tables) :
    x ≤ tables.foldl (fun m t => max m (tableMax positive t)) m := by
  obtain ⟨table,htable,row,hrow,rfl⟩ := mem_rowIds.mp hx
  have hmax : factorOf positive * row.2 ≤ tableMax positive table := by
    have hmem := mem_map_of_mem (f := fun row : String × ℤ => factorOf positive * row.2) hrow
    refine le_trans ?_ (le_max_left _ _)
    rw [max?_eq_some_max (ne_nil_of_mem hmem)]
    exact le_max_of_mem hmem
  clear hx
  induction tables generalizing m with
  | nil => simp at htable
  | cons t tables ih =>
    rcases mem_cons.mp htable with rfl | htable
    · exact hmax.trans ((le_max_right _ _).trans (le_foldl_tableMax _ _))
    · exact ih htable

theorem loadPositions_own (hlast : db.lastValue = none) {w : String} {v : ℤ} :
    (loadPositions name writers positive db).lookup w = some v ↔
      w ∈ writers ∧ ∃ u, db.streamPositions.lookup w = some u ∧ u * factorOf positive = v := by
  unfold loadPositions
  rw [hlast]
  split
  · rename_i hnil
    simp [hnil]
  · exact Positions.lookup_restrict

theorem loadRows_covers {g : Generator} (h : Ascending g) (hown : g.ownPosition = p)
    (hupto : g.persistedUptoPosition = p) (hpositive : g.positive = positive)
    (hrows : ∀ table ∈ tables, ∀ row ∈ table, row.1 = g.instanceName) :
    p ≤ ((laterRows positive tables p).foldl Generator.loadRow g).persistedUptoPosition ∧
    ((∀ x ∈ rowIds positive tables,
        x ≤ ((laterRows positive tables p).foldl Generator.loadRow g).persistedUptoPosition) ↔
      GreatestCovered positive p ((rowIds positive tables).filter (p ≤ ·))) := by
  subst hown
  have hfactor : g.returnFactor = factorOf positive := congrArg factorOf hpositive
  have hnames : ∀ row ∈ laterRows positive tables g.ownPosition, row.1 = g.instanceName := by
    intro row hrow
    obtain ⟨⟨table,htable,hrow⟩,-⟩ := mem_laterRows.mp hrow
    exact hrows table htable row hrow
  have hge := (h.toAlone.foldRows hnames).2.2
  rw [hupto] at hge
  refine ⟨hge,?_⟩
  have hcovers : (∀ row ∈ laterRows positive tables g.ownPosition, factorOf positive * row.2 ≤
      ((laterRows positive tables g.ownPosition).foldl Generator.loadRow g).persistedUptoPosition) ↔
      GreatestCovered positive g.ownPosition
        ((laterRows positive tables g.ownPosition).map fun row => factorOf positive * row.2) := by
    have hsorted : (laterRows positive tables g.ownPosition).Pairwise (fun a b => a.2 ≤ b.2) :=
      pairwise_insertionSort _ _
    rw [← hfactor]
    cases positive with
    | true =>
      refine h.covers_positive hnames (hsorted.map _ fun a b hab => ?_) fun row hrow => ?_
      · simpa [hfactor,factorOf] using hab
      · rw [hfactor]
        exact (mem_laterRows.mp hrow).2
    | false =>
      refine h.covers_negative hnames (hsorted.map _ fun a b hab => ?_)
      simpa [hfactor,factorOf] using hab
  rw [← GreatestCovered.perm (laterRows_perm _),← hcovers]
  constructor
  · intro h row hrow
    obtain ⟨⟨table,htable,hmem⟩,-⟩ := mem_laterRows.mp hrow
    exact h _ (mem_rowIds.mpr ⟨table,htable,row,hmem,rfl⟩)
  · intro h x hx
    obtain ⟨table,htable,row,hrow,rfl⟩ := mem_rowIds.mp hx
    by_cases hp : g.ownPosition ≤ factorOf positive * row.2
    · exact h row (mem_laterRows.mpr ⟨⟨table,htable,hrow⟩,hp⟩)
    · exact (not_le.mp hp).le.trans hge

theorem construct_covers (hw : writers = [] ∨ name ∈ writers) (hlast : db.lastValue = none)
    (hpositions : ∀ w v, db.streamPositions.lookup w = some v → w = name ∧ 1 ≤ v * factorOf positive)
    (hrows : ∀ table ∈ db.tables, ∀ row ∈ table, row.1 = name) :
    1 ≤ (construct name writers positive db).persistedUptoPosition ∧
    ((∀ x ∈ rowIds positive db.tables, x ≤ (construct name writers positive db).persistedUptoPosition) ↔
    (writers ≠ [] → ∀ v, db.streamPositions.lookup name = some v →
      GreatestCovered positive (v * factorOf positive)
        ((rowIds positive db.tables).filter (v * factorOf positive ≤ ·)))) := by
  have hupto : (construct name writers positive db).persistedUptoPosition =
      (loadRows { blank name writers positive with
        currentPositions := loadPositions name writers positive db } db).persistedUptoPosition :=
    foldl_defaultPosition_upto writers _
  rw [hupto]
  unfold loadRows
  split
  · rename_i hnone
    refine ⟨le_foldl_tableMax _ 1,iff_of_true (fun x hx => row_le_foldl_tableMax hx) ?_⟩
    intro hne v hv
    have hl : (loadPositions name writers positive db).lookup name = some (v * factorOf positive) :=
      (loadPositions_own hlast).mpr ⟨hw.resolve_left hne,v,hv,rfl⟩
    exact absurd hnone (Positions.min?_ne_none hl)
  · rename_i p hmin
    obtain ⟨w,hl⟩ := Positions.mem_values.mp (min?_eq_some_iff.mp hmin).1
    obtain ⟨hwriter,v,hv,rfl⟩ := (loadPositions_own hlast).mp hl
    obtain ⟨rfl,hpos⟩ := hpositions w v hv
    have hne : writers ≠ [] := ne_nil_of_mem hwriter
    have hcondition : (writers ≠ [] → ∀ v', db.streamPositions.lookup w = some v' →
        GreatestCovered positive (v' * factorOf positive)
          ((rowIds positive db.tables).filter (v' * factorOf positive ≤ ·))) ↔
        GreatestCovered positive (v * factorOf positive)
          ((rowIds positive db.tables).filter (v * factorOf positive ≤ ·)) := by
      refine ⟨fun h => h hne v hv,fun h _ v' hv' => ?_⟩
      cases hv.symm.trans hv'
      exact h
    rw [hcondition]
    have hown : ((loadPositions w writers positive db).lookup w).getD 0 = v * factorOf positive := by
      rw [hl]
      rfl
    have honly : ∀ w' v', (loadPositions w writers positive db).lookup w' = some v' → w' = w := by
      intro w' v' hl'
      obtain ⟨-,u,hu,-⟩ := (loadPositions_own hlast).mp hl'
      exact (hpositions w' u hu).1
    refine And.imp_left hpos.trans (loadRows_covers ?_ hown rfl rfl hrows)
    exact ⟨⟨rfl,honly,Pairwise.nil⟩,hown.ge,by simp [blank]⟩

end Construct

namespace Server
variable {name : String} {writers : List String} {positive : Bool} {s s' : Server} {i : Instance}

theorem mem_modify {tables : List (List (String × ℤ))} {k : ℕ} {row : String × ℤ}
    {table : List (String × ℤ)} (h : table ∈ tables.modify k (row :: ·)) :
    ∀ r ∈ table, r = row ∨ ∃ t ∈ tables, r ∈ t := by
  intro r hr
  obtain ⟨n,hn⟩ := mem_iff_getElem?.mp h
  rw [getElem?_modify] at hn
  obtain ⟨t,ht,rfl⟩ := Option.map_eq_some_iff.mp hn
  have hmem := mem_of_getElem? ht
  split at hr
  · rcases mem_cons.mp hr with rfl | hr
    · exact .inl rfl
    · exact .inr ⟨t,hmem,hr⟩
  · exact .inr ⟨t,hmem,hr⟩

theorem Stored.restart (hw : writers = [] ∨ name ∈ writers) (h : s.Stored name writers positive) :
    (s.restart name writers positive).Stored name writers positive ∧
    ((∀ x ∈ rowIds positive s.tables, x ≤ (construct name writers positive
      (s.database.deleteStale writers)).persistedUptoPosition) ↔ s.Covered name writers positive) := by
  have hlookup : ∀ {w v}, (s.database.deleteStale writers).streamPositions.lookup w = some v →
      s.streamPositions.lookup w = some v := fun hv => (Database.lookup_deleteStale.mp hv).2
  have htables : (s.database.deleteStale writers).tables = s.tables ∧
      (s.database.deleteStale writers).lastValue = none := by
    unfold Database.deleteStale
    split <;> exact ⟨rfl,rfl⟩
  obtain ⟨hpos,hcovers⟩ := construct_covers hw htables.2
    (fun w v hv => h.positions w v (hlookup hv)) (htables.1 ▸ h.rows)
  refine ⟨⟨fun w v hv => h.positions w v (hlookup hv),h.rows,?_⟩,?_⟩
  · rintro i ⟨⟩
    exact ⟨construct_config name writers positive _,hpos.trans (le_max_right _ _)⟩
  · rw [htables.1] at hcovers
    rw [hcovers]
    refine forall_congr' fun hne => forall_congr' fun v => ?_
    exact imp_congr_left (Database.lookup_deleteStale.trans (and_iff_right hw))

theorem exists_inst {e : ServerEvent} (he : e.isRestart = false)
    (hs : s.step name writers positive e = some s') : ∃ i, s.inst = some i := by
  cases hi : s.inst with
  | none => cases e <;> simp_all [Server.step,ServerEvent.isRestart]
  | some i => exact ⟨i,rfl⟩

theorem Stored.replace {a : Action} {i' : Instance} {sequence : LocalSequence}
    (h : s.Stored name writers positive) (hi : s.inst = some i) (hs : i.Steps a i') :
    Stored name writers positive { s with inst := some i', sequence := sequence } := by
  refine { h with live := ?_ }
  rintro j ⟨⟩
  obtain ⟨hconfig,hpos⟩ := h.live i hi
  exact ⟨hs.config.trans hconfig,hpos.trans hs.below.localMax⟩

theorem Stored.step (hw : writers = [] ∨ name ∈ writers) (h : s.Stored name writers positive)
    {e : ServerEvent} (hs : s.step name writers positive e = some s') :
    s'.Stored name writers positive := by
  cases e with
  | restart =>
    cases hs
    exact (h.restart hw).1
  | act a =>
    obtain ⟨i,hi⟩ := exists_inst rfl hs
    simp only [Server.step,hi,Option.ite_none_right_eq_some,Option.map_eq_some_iff] at hs
    obtain ⟨-,i',hi',rfl⟩ := hs
    exact h.replace hi (Instance.step_steps hi')
  | fetch k n =>
    obtain ⟨i,hi⟩ := exists_inst rfl hs
    simp only [Server.step,hi,Option.map_eq_some_iff] at hs
    obtain ⟨i',hi',rfl⟩ := hs
    exact h.replace hi (Instance.step_steps hi')
  | persist table streamId =>
    obtain ⟨i,hi⟩ := exists_inst rfl hs
    simp only [Server.step,hi,Option.ite_none_right_eq_some] at hs
    obtain ⟨-,⟨⟩⟩ := hs
    refine { h with rows := fun t ht row hrow => ?_, live := hi ▸ h.live }
    rcases mem_modify ht row hrow with rfl | ⟨t',ht',hrow⟩
    · rfl
    · exact h.rows t' ht' row hrow
  | updatePositions =>
    obtain ⟨i,hi⟩ := exists_inst rfl hs
    simp only [Server.step,hi] at hs
    split at hs
    · cases hs
      exact h
    · cases hs
      refine { h with positions := fun w v hv => ?_, live := hi ▸ h.live }
      rcases Positions.lookup_upsert hv with hv | ⟨rfl,rfl⟩
      · exact h.positions w v hv
      · obtain ⟨hconfig,hpos⟩ := h.live i hi
        exact ⟨rfl,hpos.trans_eq (token_of_config hconfig).symm⟩

/-- Since the last restart: the counter is not below any row or any active ID. -/
structure Ahead (positive : Bool) (s : Server) : Prop where
  rows : ∀ i, s.inst = some i → ∀ y ∈ rowIds positive s.tables,
    y ≤ s.sequence.currentMaxId.getD i.gen.persistedUptoPosition
  active : ∀ i, s.inst = some i → ∀ x ∈ i.active, ∃ m, s.sequence.currentMaxId = some m ∧ x ≤ m

theorem mem_nextIds {n : ℕ} (hi : s.inst = some i) (hx : x ∈ s.nextIds n) :
    s.sequence.currentMaxId.getD i.gen.persistedUptoPosition < x ∧
      x ≤ s.sequence.currentMaxId.getD i.gen.persistedUptoPosition + n := by
  simp only [nextIds,hi,LocalSequence.getNextMultTxn,mem_map,mem_range] at hx
  omega

theorem Ahead.step (h : s.Ahead positive) {e : ServerEvent} (he : e.isRestart = false)
    (hs : s.step name writers positive e = some s') : s'.Ahead positive := by
  obtain ⟨i,hi⟩ := exists_inst he hs
  cases e with
  | restart => cases he
  | act a =>
    simp only [Server.step,hi,Option.ite_none_right_eq_some,Option.map_eq_some_iff] at hs
    obtain ⟨hlocal,i',hi',rfl⟩ := hs
    have hsteps := Instance.step_steps hi'
    constructor
    · rintro j ⟨⟩ y hy
      have hupto := hsteps.below.upto
      have hle := h.rows i hi y hy
      cases hm : s.sequence.currentMaxId with
      | none =>
        rw [hm] at hle
        exact hle.trans hupto
      | some m =>
        rw [hm] at hle
        exact hle
    · rintro j ⟨⟩ x hx
      rcases hsteps.active_sub hx with hx | hx
      · exact h.active i hi x hx
      · simp [hlocal.1] at hx
  | fetch k n =>
    simp only [Server.step,hi,Option.map_eq_some_iff] at hs
    obtain ⟨i',hi',rfl⟩ := hs
    have hsteps := Instance.step_steps hi'
    constructor
    · rintro j ⟨⟩ y hy
      have hle := h.rows i hi y hy
      simp only [LocalSequence.getNextMultTxn,Option.getD_some]
      omega
    · rintro j ⟨⟩ x hx
      refine ⟨_,rfl,?_⟩
      rcases hsteps.active_sub hx with hx | hx
      · obtain ⟨m,hm,hle⟩ := h.active i hi x hx
        simp only [hm,Option.getD_some]
        omega
      · have hnext : x ∈ s.nextIds n := by
          simp only [nextIds,hi]
          exact hx
        exact (mem_nextIds hi hnext).2
  | persist table streamId =>
    simp only [Server.step,hi,Option.ite_none_right_eq_some] at hs
    obtain ⟨hunfinished,⟨⟩⟩ := hs
    refine ⟨?_,hi ▸ h.active⟩
    rintro j ⟨⟩ y hy
    obtain ⟨t,ht,row,hrow,rfl⟩ := mem_rowIds.mp hy
    rcases mem_modify ht row hrow with rfl | ⟨t',ht',hrow⟩
    · obtain ⟨m,hm,hle⟩ := h.active i hi streamId (mem_append_left _ hunfinished)
      rw [factorOf_mul_self,hm]
      exact hle
    · exact h.rows i hi _ (mem_rowIds.mpr ⟨t',ht',row,hrow,rfl⟩)
  | updatePositions =>
    simp only [Server.step,hi] at hs
    split at hs
    · cases hs
      exact h
    · cases hs
      exact ⟨hi ▸ h.rows,hi ▸ h.active⟩

theorem Ahead.restart (h : ∀ x ∈ rowIds positive s.tables, x ≤ (construct name writers positive
    (s.database.deleteStale writers)).persistedUptoPosition) :
    (s.restart name writers positive).Ahead positive := by
  constructor
  · rintro i ⟨⟩ y hy
    exact h y hy
  · rintro i ⟨⟩ x hx
    simp [Instance.active,Generator.active,construct_unfinished] at hx

end Server

/-- Whatever a run has left in the database, the IDs handed out after a restart are all above the
IDs in the tables exactly if the rows reach up to the greatest one. -/
theorem restart_ids_fresh_iff {name : String} {writers : List String} {positive : Bool}
    (hw : writers = [] ∨ name ∈ writers) {s₀ s : Server} (hstored : s₀.Stored name writers positive)
    {events : List ServerEvent}
    (hrun : run (Server.step name writers positive) s₀ events = some s) :
    (∀ later s₁ k n s₂, run (guarded (fun _ e => e.isRestart = false)
        (Server.step name writers positive)) (s.restart name writers positive) later = some s₁ →
      s₁.step name writers positive (.fetch k n) = some s₂ →
      ∀ x ∈ s₁.nextIds n, ∀ y ∈ rowIds positive s₁.tables, y < x) ↔
    s.Covered name writers positive := by
  have hs : s.Stored name writers positive :=
    run_preserves (I := Server.Stored name writers positive) (fun h hs => h.step hw hs) hstored hrun
  rw [← (hs.restart hw).2]
  constructor
  · intro hfresh y hy
    -- The first ID after the restart is one above the persisted position.
    let g := construct name writers positive (s.database.deleteStale writers)
    have hwrite : g.mayWrite := by
      obtain ⟨hname,hwriters,-⟩ : g.instanceName = name ∧ g.writers = writers ∧ g.positive = positive := by
        simpa [Generator.config] using construct_config name writers positive (s.database.deleteStale writers)
      unfold Generator.mayWrite
      rwa [hname,hwriters]
    have hregister : run (guarded (fun _ e => e.isRestart = false)
        (Server.step name writers positive)) (s.restart name writers positive) [.act .register] =
        some { s.restart name writers positive with
          inst := some ⟨g.registerFetch,[⟨g.maxSeenAllocatedStreamId,.waiting []⟩]⟩ } := by
      simp [g,run_cons,guarded,ServerEvent.isRestart,Server.step,Server.restart,Action.ids,
        Action.reported,Instance.step,hwrite,run_nil]
    have hfirst := hfresh _ _ 0 1 _ hregister rfl (g.persistedUptoPosition + 1)
      (by simp [g,Server.nextIds,Server.restart,LocalSequence.getNextMultTxn,Generator.registerFetch]) y hy
    exact Int.lt_add_one_iff.mp hfirst
  · intro hcovered later s₁ k n s₂ hlater hfetch x hx y hy
    have hahead : s₁.Ahead positive := by
      refine run_preserves (I := Server.Ahead positive) ?_ (Server.Ahead.restart hcovered) hlater
      intro t e t' ht hstep
      obtain ⟨he,hstep⟩ := guarded_eq_some.mp hstep
      exact ht.step he hstep
    cases hi : s₁.inst with
    | none => simp [Server.nextIds,hi] at hx
    | some i => exact (hahead.rows i hi y hy).trans_lt (Server.mem_nextIds hi hx).1

def emptyServer : Server := ⟨none,⟨none⟩,∅,[[]]⟩

theorem emptyServer_stored : emptyServer.Stored "main" ["main"] true := by
  exact ⟨nofun,by simp [emptyServer],nofun⟩

/-- The only writer persists 2 and stops after `stream_positions` is written. -/
theorem restart_ids_above_two :
    ∃ s, run (Server.step "main" ["main"] true) emptyServer
        [.restart,.act .register,.fetch 0 1,.act (.record 0),.act (.release 0),.persist 0 2,
          .act (.finish [2]),.updatePositions] = some s ∧
      ∀ later s₁ k n s₂, run (guarded (fun _ e => e.isRestart = false)
          (Server.step "main" ["main"] true)) (s.restart "main" ["main"] true) later = some s₁ →
        s₁.step "main" ["main"] true (.fetch k n) = some s₂ →
        ∀ x ∈ s₁.nextIds n, ∀ y ∈ rowIds true s₁.tables, y < x := by
  refine ⟨_,(Option.some_get (by decide +kernel)).symm,(restart_ids_fresh_iff (.inr (by simp))
    emptyServer_stored (Option.some_get _).symm).mpr ?_⟩
  intro _ v hv
  cases hv.symm.trans (show _ = some 2 by decide +kernel)
  unfold GreatestCovered
  decide +kernel

/-- The only writer persists 2 and records it in `stream_positions`, rolls 3 back, and stops after
the row 4 is committed. The next process hands out 3, and then 4 a second time. -/
theorem restart_repeats_id :
    ∃ s s₁ s₂, run (Server.step "main" ["main"] true) emptyServer
        [.restart,.act .register,.fetch 0 1,.act (.record 0),.act (.release 0),.persist 0 2,
          .act (.finish [2]),.updatePositions,.act .register,.fetch 0 1,.act (.record 0),
          .act (.release 0),.act (.finish [3]),.act .register,.fetch 0 1,.act (.record 0),
          .act (.release 0),.persist 0 4] = some s ∧
      run (Server.step "main" ["main"] true) s [.restart,.act .register] = some s₁ ∧
      s₁.step "main" ["main"] true (.fetch 0 2) = some s₂ ∧
      3 ∈ s₁.nextIds 2 ∧ 4 ∈ s₁.nextIds 2 ∧ 4 ∈ rowIds true s₁.tables := by
  refine ⟨_,_,_,(Option.some_get (by decide +kernel)).symm,(Option.some_get (by decide +kernel)).symm,
    (Option.some_get (by decide +kernel)).symm,?_,?_,?_⟩ <;> decide +kernel

end TextrpBriij.Storage
