import TextrpBriij.Foundation.ChainCover

/-! # Fetching the links of a set of chains

`_get_chain_links` of the event federation store. The recursive query collects chains until
no new one turns up; a batch of the generator is the list of the rows it returns, which the
code groups by their origin chain.
-/
namespace TextrpBriij.AuthChain
open ChainCover List

variable {table : List (Link ℕ)} {chains : Finset ℕ}

def targetChains (table : List (Link ℕ)) (chains : Finset ℕ) : Finset ℕ :=
  ((table.filter fun l => l.origin.1 ∈ chains).map fun l => l.target.1).toFinset

def recursiveChains (table : List (Link ℕ)) : ℕ → Finset ℕ → Finset ℕ
  | 0, chains => chains
  | rounds + 1, chains => recursiveChains table rounds (chains ∪ targetChains table chains)

def chainLinksQuery (table : List (Link ℕ)) (batch : List ℕ) : List (Link ℕ) :=
  let start := ((table.filter fun l => l.origin.1 ∈ batch).map fun l => l.origin.1).toFinset
  let chains := recursiveChains table table.length start
  table.filter fun l => l.origin.1 ∈ chains

/-- The generator's loop. A round takes at least one chain, so as many rounds as there are
chains are enough. -/
def fetchChainLinks (table : List (Link ℕ)) : ℕ → List ℕ → List (List (Link ℕ))
  | 0, _ => []
  | _ + 1, [] => []
  | fuel + 1, c :: cs =>
    let links := chainLinksQuery table ((c :: cs).take 1000)
    let rest := ((c :: cs).drop 1000).filter fun d => d ∉ links.map fun l => l.origin.1
    links :: fetchChainLinks table fuel rest

/-- The batches of links for a set of chains, listed in the order that the set is iterated. -/
def getChainLinks (table : List (Link ℕ)) (chainsToFetch : List ℕ) : List (List (Link ℕ)) :=
  fetchChainLinks table chainsToFetch.length chainsToFetch

theorem mem_targetChains {c : ℕ} :
    c ∈ targetChains table chains ↔ ∃ l ∈ table, l.origin.1 ∈ chains ∧ l.target.1 = c := by
  simp [targetChains,and_assoc]

theorem recursiveChains_grows (rounds : ℕ) : chains ⊆ recursiveChains table rounds chains := by
  induction rounds generalizing chains with
  | zero => exact Finset.Subset.refl _
  | succ rounds ih => exact Finset.subset_union_left.trans ih

theorem recursiveChains_fixed (rounds : ℕ) (h : targetChains table chains ⊆ chains) :
    recursiveChains table rounds chains = chains := by
  induction rounds with
  | zero => rfl
  | succ rounds ih => rw [recursiveChains,Finset.union_eq_left.mpr h,ih]

theorem recursiveChains_closed (rounds : ℕ)
    (h : ((table.map fun l => l.target.1).toFinset \ chains).card ≤ rounds) :
    targetChains table (recursiveChains table rounds chains) ⊆ recursiveChains table rounds chains := by
  have hall : ∀ {chains}, targetChains table chains ⊆ (table.map fun l => l.target.1).toFinset := by
    intro chains c hc
    obtain ⟨l,hl,-,rfl⟩ := mem_targetChains.mp hc
    exact mem_toFinset.mpr (mem_map.mpr ⟨l,hl,rfl⟩)
  induction rounds generalizing chains with
  | zero =>
    have hsub := Finset.sdiff_eq_empty_iff_subset.mp (Finset.card_eq_zero.mp (Nat.le_zero.mp h))
    exact hall.trans hsub
  | succ rounds ih =>
    by_cases hclosed : targetChains table chains ⊆ chains
    · rw [recursiveChains_fixed _ hclosed]
      exact hclosed
    · obtain ⟨c,hc,hnew⟩ := Finset.not_subset.mp hclosed
      refine ih ?_
      have hlt : ((table.map fun l => l.target.1).toFinset \ (chains ∪ targetChains table chains)).card <
          ((table.map fun l => l.target.1).toFinset \ chains).card := by
        apply Finset.card_lt_card
        refine Finset.ssubset_iff_of_subset ?_ |>.mpr ⟨c,?_,?_⟩
        · exact Finset.sdiff_subset_sdiff (Finset.Subset.refl _) Finset.subset_union_left
        · exact Finset.mem_sdiff.mpr ⟨hall hc,hnew⟩
        · simp [hc]
      omega

variable {batch : List ℕ}

theorem chainLinksQuery_sub {l : Link ℕ} (h : l ∈ chainLinksQuery table batch) : l ∈ table :=
  (mem_filter.mp h).1

theorem chainLinksQuery_start {l : Link ℕ} (hl : l ∈ table)
    (h : l.origin.1 ∈ batch) : l ∈ chainLinksQuery table batch := by
  refine mem_filter.mpr ⟨hl,decide_eq_true (recursiveChains_grows _ ?_)⟩
  rw [mem_toFinset,mem_map]
  exact ⟨l,mem_filter.mpr ⟨hl,decide_eq_true h⟩,rfl⟩

theorem chainLinksQuery_closed {l l' : Link ℕ} (hl : l ∈ chainLinksQuery table batch) (hl' : l' ∈ table)
    (h : l'.origin.1 = l.origin.1 ∨ l'.origin.1 = l.target.1) :
    l' ∈ chainLinksQuery table batch := by
  obtain ⟨hin,hchain⟩ := mem_filter.mp hl
  rw [decide_eq_true_eq] at hchain
  refine mem_filter.mpr ⟨hl',decide_eq_true ?_⟩
  rcases h with heq | heq
  · rw [heq]
    exact hchain
  · rw [heq]
    refine recursiveChains_closed table.length ?_ (mem_targetChains.mpr ⟨l,hin,hchain,rfl⟩)
    calc _ ≤ (table.map fun l => l.target.1).toFinset.card :=
          Finset.card_le_card Finset.sdiff_subset
      _ ≤ table.length := (toFinset_card_le _).trans (length_map _).le

structure FetchedLinks (table : List (Link ℕ)) (chains : List ℕ)
    (batches : List (List (Link ℕ))) : Prop where
  sub : ∀ links ∈ batches, ∀ l ∈ links, l ∈ table
  closed : ∀ links ∈ batches, ∀ l ∈ links, ∀ l' ∈ table,
    l'.origin.1 = l.origin.1 ∨ l'.origin.1 = l.target.1 → l' ∈ links
  fetched : ∀ l ∈ table, l.origin.1 ∈ chains → ∃ links ∈ batches, l ∈ links

theorem fetchChainLinks_spec {fuel : ℕ} {cs : List ℕ} (h : cs.length ≤ fuel) :
    FetchedLinks table cs (fetchChainLinks table fuel cs) := by
  induction fuel generalizing cs with
  | zero =>
    rw [length_eq_zero_iff.mp (Nat.le_zero.mp h)]
    exact ⟨by simp [fetchChainLinks],by simp [fetchChainLinks],by simp⟩
  | succ fuel ih =>
    cases cs with
    | nil => exact ⟨by simp [fetchChainLinks],by simp [fetchChainLinks],by simp⟩
    | cons c cs =>
      set links := chainLinksQuery table ((c :: cs).take 1000) with hlinks
      set rest := ((c :: cs).drop 1000).filter fun d => d ∉ links.map fun l => l.origin.1 with hrest
      have hshort : rest.length ≤ fuel := by
        have hfilter : rest.length ≤ ((c :: cs).drop 1000).length := length_filter_le _ _
        rw [length_drop] at hfilter
        omega
      obtain ⟨hsub,hclosed,hfetched⟩ := ih hshort
      refine ⟨fun b hb => ?_,fun b hb => ?_,fun l hl hchain => ?_⟩
      · rcases mem_cons.mp hb with rfl | hb
        · exact fun l hl => chainLinksQuery_sub hl
        · exact hsub b hb
      · rcases mem_cons.mp hb with rfl | hb
        · exact fun l hl l' hl' => chainLinksQuery_closed hl hl'
        · exact hclosed b hb
      · by_cases hin : l ∈ links
        · exact ⟨links,mem_cons_self,hin⟩
        · rw [← take_append_drop 1000 (c :: cs),mem_append] at hchain
          rcases hchain with hchain | hchain
          · exact absurd (chainLinksQuery_start hl hchain) hin
          · have hkeep : l.origin.1 ∈ rest := by
              refine mem_filter.mpr ⟨hchain,decide_eq_true fun hkey => ?_⟩
              obtain ⟨l',hl',heq⟩ := mem_map.mp hkey
              exact hin (chainLinksQuery_closed hl' hl (.inl heq.symm))
            obtain ⟨b,hb,hlb⟩ := hfetched l hl hkeep
            exact ⟨b,mem_cons_of_mem _ hb,hlb⟩

theorem getChainLinks_spec (table : List (Link ℕ)) (cs : List ℕ) :
    FetchedLinks table cs (getChainLinks table cs) :=
  fetchChainLinks_spec le_rfl

end TextrpBriij.AuthChain
