import TextrpBriij.StateStore.Deletion

/-! # Finding unreferenced state groups

When history is purged, the search for groups to delete starts from the groups of the purged
events. It follows the edges in both directions, but not from groups that events still refer to.
-/
namespace TextrpBriij.StateStore
open AuthChain (Dict)
open Relation List

/-- The 100 elements that an iteration over a set gives first, in each round. -/
structure Batches where
  islice : ℕ → Finset ℕ → Finset ℕ
  subset : ∀ round s, islice round s ⊆ s
  card : ∀ round s, 100 ≤ s.card → (islice round s).card = 100

structure GroupSearch where
  referencedGroups : Finset ℕ
  stateGroupsSeen : Finset ℕ
  nextToSearch : Finset ℕ
  subset : nextToSearch ⊆ stateGroupsSeen

variable (edges : Dict ℕ ℕ) (rows : Dict String ℕ) (batches : Batches) (round : ℕ)

def getPreviousStateGroups (stateGroups : Finset ℕ) : Dict ℕ ℕ :=
  Entries.restrict edges fun group _ => group ∈ stateGroups

def getNextStateGroups (stateGroups : Finset ℕ) : Dict ℕ ℕ :=
  Entries.restrict edges fun _ prev => prev ∈ stateGroups

/-- A step of the search from a group that no event refers to. -/
def Leads (a b : ℕ) : Prop :=
  isReferenced rows a = false ∧ (edges.lookup a = some b ∨ edges.lookup b = some a)

namespace GroupSearch
variable (s : GroupSearch)

def currentSearch : Finset ℕ :=
  if s.nextToSearch.card < 100 then s.nextToSearch else batches.islice round s.nextToSearch

def searchRound : GroupSearch :=
  let currentSearch := s.currentSearch batches round
  let referenced := currentSearch.filter fun group => isReferenced rows group
  let left := currentSearch \ referenced
  let prevs := ((getPreviousStateGroups edges left).entries.map (·.2)).toFinset \ s.stateGroupsSeen
  let seen := s.stateGroupsSeen ∪ prevs
  let nexts := (getNextStateGroups edges left).keys.toFinset \ seen
  { referencedGroups := s.referencedGroups ∪ referenced
    stateGroupsSeen := seen ∪ nexts
    nextToSearch := s.nextToSearch \ currentSearch ∪ prevs ∪ nexts
    subset := Finset.union_subset_union_left
      (Finset.union_subset_union_left (Finset.sdiff_subset.trans s.subset)) }

def searched : Finset ℕ := s.stateGroupsSeen \ s.nextToSearch

def known : Finset ℕ := (edges.keys ++ edges.entries.map (·.2)).toFinset ∪ s.stateGroupsSeen

variable {s : GroupSearch}

theorem currentSearch_subset : s.currentSearch batches round ⊆ s.nextToSearch := by
  rw [currentSearch]
  split
  · exact subset_rfl
  · exact batches.subset round s.nextToSearch

variable {batches round} in
theorem mem_seen_searchRound {b : ℕ} : b ∈ (s.searchRound edges rows batches round).stateGroupsSeen ↔
    b ∈ s.stateGroupsSeen ∨ ∃ a ∈ s.currentSearch batches round, Leads edges rows a b := by
  have hprev {groups : Finset ℕ} : b ∈ (getPreviousStateGroups edges groups).entries.map (·.2) ↔
      ∃ a ∈ groups, edges.lookup a = some b := by
    simp [getPreviousStateGroups,Entries.restrict,← AList.mem_lookup_iff,and_comm]
  have hnext {groups : Finset ℕ} : b ∈ (getNextStateGroups edges groups).keys ↔
      ∃ a ∈ groups, edges.lookup b = some a := by
    simp [← AList.mem_keys,← AList.lookup_isSome,getNextStateGroups,Entries.lookup_restrict,
      Option.any_eq_true,and_comm]
  simp only [searchRound,Leads,Finset.mem_union,Finset.mem_sdiff,Finset.mem_filter,mem_toFinset,
    hprev,hnext]
  grind

theorem searched_searchRound : (s.searchRound edges rows batches round).searched =
    s.searched ∪ s.currentSearch batches round := by
  ext b
  have hcurrent := @currentSearch_subset batches round s b
  have hnext := @s.subset b
  simp only [searched,searchRound,Finset.mem_union,Finset.mem_sdiff]
  tauto

theorem known_searchRound : (s.searchRound edges rows batches round).known edges = s.known edges := by
  ext b
  have hedge : ∀ a, Leads edges rows a b → b ∈ edges.keys ++ edges.entries.map (·.2) := by
    rintro a ⟨-,h | h⟩
    · exact mem_append_right _ (mem_map.mpr ⟨⟨a,b⟩,AList.mem_lookup_iff.mp h,rfl⟩)
    · exact mem_append_left _ (AList.mem_keys.mp (AList.lookup_isSome.mp (by rw [h]; rfl)))
  simp only [known,Finset.mem_union,mem_seen_searchRound,mem_toFinset]
  grind

theorem card_left_searchRound (h : s.nextToSearch ≠ ∅) :
    ((s.searchRound edges rows batches round).known edges \
      (s.searchRound edges rows batches round).searched).card < (s.known edges \ s.searched).card := by
  have hne : (s.currentSearch batches round).Nonempty := by
    rw [currentSearch]
    split
    · exact Finset.nonempty_iff_ne_empty.mpr h
    · exact Finset.card_pos.mp (by rw [batches.card _ _ (by omega)]; decide)
  rw [known_searchRound,searched_searchRound,← Finset.sup_eq_union,← sdiff_sdiff_left]
  apply Finset.card_lt_card (Finset.sdiff_ssubset _ hne)
  intro g hg
  have hnext := currentSearch_subset batches round hg
  simp [known,searched,s.subset hnext,hnext]

structure Inv (stateGroups : List ℕ) (s : GroupSearch) : Prop where
  start : ∀ g ∈ stateGroups, g ∈ s.stateGroupsSeen
  reached : ∀ g ∈ s.stateGroupsSeen, ∃ a ∈ stateGroups, ReflTransGen (Leads edges rows) a g
  closed : ∀ g ∈ s.searched, ∀ b, Leads edges rows g b → b ∈ s.stateGroupsSeen
  referenced : s.referencedGroups = s.searched.filter fun g => isReferenced rows g

variable {edges rows batches round} {stateGroups : List ℕ}

theorem Inv.searchRound (h : Inv edges rows stateGroups s) :
    Inv edges rows stateGroups (s.searchRound edges rows batches round) where
  start g hg := (mem_seen_searchRound ..).mpr (.inl (h.start g hg))
  reached g hg := by
    obtain hg | ⟨a,ha,hlead⟩ := (mem_seen_searchRound ..).mp hg
    · exact h.reached g hg
    · obtain ⟨b,hb,hreach⟩ := h.reached a (s.subset (currentSearch_subset _ _ ha))
      exact ⟨b,hb,hreach.tail hlead⟩
  closed g hg b hlead := by
    rw [searched_searchRound,Finset.mem_union] at hg
    obtain hg | hg := hg
    · exact (mem_seen_searchRound ..).mpr (.inl (h.closed g hg b hlead))
    · exact (mem_seen_searchRound ..).mpr (.inr ⟨g,hg,hlead⟩)
  referenced := by
    rw [searched_searchRound,Finset.filter_union,← h.referenced]
    rfl

variable (edges rows batches round)

def searchLoop (round : ℕ) (s : GroupSearch) : GroupSearch :=
  if h : s.nextToSearch = ∅ then s
  else searchLoop (round + 1) (s.searchRound edges rows batches round)
termination_by (s.known edges \ s.searched).card
decreasing_by exact card_left_searchRound _ _ _ _ h

variable {edges rows}

theorem Inv.searchLoop (h : Inv edges rows stateGroups s) :
    let last := GroupSearch.searchLoop edges rows batches round s
    Inv edges rows stateGroups last ∧ last.searched = last.stateGroupsSeen := by
  fun_induction GroupSearch.searchLoop edges rows batches round s with
  | case1 round s hdone => exact ⟨h,by rw [searched,hdone,Finset.sdiff_empty]⟩
  | case2 round s hmore ih => exact ih h.searchRound

end GroupSearch

def findUnreferencedGroups (stateGroups : List ℕ) : Finset ℕ :=
  let s := GroupSearch.searchLoop edges rows batches 0
    ⟨∅,stateGroups.toFinset,stateGroups.toFinset,subset_rfl⟩
  s.stateGroupsSeen \ s.referencedGroups

theorem mem_findUnreferencedGroups_iff (stateGroups : List ℕ) (g : ℕ) :
    g ∈ findUnreferencedGroups edges rows batches stateGroups ↔
      isReferenced rows g = false ∧ ∃ a ∈ stateGroups, ReflTransGen (Leads edges rows) a g := by
  have hinit : GroupSearch.Inv edges rows stateGroups
      ⟨∅,stateGroups.toFinset,stateGroups.toFinset,subset_rfl⟩ :=
    { start g hg := mem_toFinset.mpr hg
      reached g hg := ⟨g,mem_toFinset.mp hg,.refl⟩
      closed g hg := by simp [GroupSearch.searched] at hg
      referenced := by simp [GroupSearch.searched] }
  obtain ⟨hinv,hdone⟩ := hinit.searchLoop batches 0
  have hclosed := hdone ▸ hinv.closed
  simp only [findUnreferencedGroups,Finset.mem_sdiff,hinv.referenced,hdone,Finset.mem_filter,not_and,
    Bool.not_eq_true]
  constructor
  · rintro ⟨hseen,hfree⟩
    exact ⟨hfree hseen,hinv.reached g hseen⟩
  · rintro ⟨hfree,a,ha,hreach⟩
    refine ⟨?_,fun _ => hfree⟩
    clear hfree
    induction hreach with
    | refl => exact hinv.start a ha
    | tail _ hlead ih => exact hclosed _ ih _ hlead

end TextrpBriij.StateStore
