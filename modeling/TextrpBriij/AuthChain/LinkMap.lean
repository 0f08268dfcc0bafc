import TextrpBriij.Api.Errors
import TextrpBriij.Foundation.ChainCover
import TextrpBriij.Foundation.Entries
import TextrpBriij.Foundation.Fallible

/-! # The links between chains that are held in memory

`_LinkMap` of the events store. Its nested dicts are one dict from source chain, target chain
and source sequence number to the target sequence number. The set `additions`, which no other
method of the store reads, is left out.
-/
namespace TextrpBriij.AuthChain
open ChainCover Api List Function

structure LinkMap where
  maps : AList (fun _ : ℕ × ℕ × ℕ => ℕ)

namespace LinkMap

def empty : LinkMap := ⟨∅⟩

variable (m : LinkMap) (src target : Place ℕ)

/-- The items of `maps[chain]`: target chain, source and target sequence number. -/
def linksFrom (chain : ℕ) : List (ℕ × ℕ × ℕ) :=
  m.maps.entries.filterMap fun entry =>
    if entry.1.1 = chain then some (entry.1.2.1,entry.1.2.2,entry.2) else none

def isRedundant : Bool :=
  (m.linksFrom src.1).any fun l => l.1 = target.1 ∧ l.2.1 ≤ src.2 ∧ target.2 ≤ l.2.2

def addLink (new : Bool) : Except Error (Bool × LinkMap) :=
  if src.1 = target.1 then throw (.raised "AssertionError")
  else if new && m.isRedundant src target then pure (false,m)
  else pure (true,⟨m.maps.insert (src.1,target.1,src.2) target.2⟩)

/-- The loop of `exists_path_from`. The links that a round looks at do not depend on one
another: it returns if one of them covers the target, and else has pushed the others. -/
def search (m : LinkMap) (target : Place ℕ) : ℕ → (ℕ → ℕ) → List (Place ℕ) → Bool
  | 0, _, _ => false
  | _ + 1, _, [] => false
  | fuel + 1, visited, (chain,seq) :: stack =>
    let visited := update visited chain (max seq (visited chain))
    let followed := (m.linksFrom chain).filter fun l => visited l.1 < l.2.2 ∧ l.2.1 ≤ seq
    if followed.any fun l => l.1 = target.1 ∧ target.2 ≤ l.2.2 then true
    else
      let pushed := (followed.filter fun l => l.1 ≠ target.1).map fun l => (l.1,l.2.2)
      m.search target fuel visited (pushed.reverse ++ stack)

def rounds : ℕ :=
  let n := m.maps.entries.length
  1 + n + (2 * n + 1) * (n + 1)

def existsPathFrom : Bool :=
  if src.1 = target.1 then target.2 ≤ src.2
  else m.search target m.rounds (fun _ => 0) [src]

def links : Set (Link ℕ) :=
  {l | m.maps.lookup (l.origin.1,l.target.1,l.origin.2) = some l.target.2}

variable {m src target} {c ss tc ts fuel : ℕ}

theorem mem_links : (⟨(c,ss),(tc,ts)⟩ : Link ℕ) ∈ m.links ↔ m.maps.lookup (c,tc,ss) = some ts := Iff.rfl

theorem mem_linksFrom : (tc,ss,ts) ∈ m.linksFrom c ↔ (⟨(c,ss),(tc,ts)⟩ : Link ℕ) ∈ m.links := by
  rw [mem_links,← Option.mem_def,AList.mem_lookup_iff]
  simp only [linksFrom,mem_filterMap]
  constructor
  · rintro ⟨⟨⟨a,b,d⟩,v⟩,hin,heq⟩
    split at heq
    · rename_i hc
      obtain ⟨rfl,rfl,rfl⟩ := heq
      exact hc ▸ hin
    · cases heq
  · intro hin
    exact ⟨⟨(c,tc,ss),ts⟩,hin,by simp⟩

theorem linksFrom_length (m : LinkMap) (c : ℕ) : (m.linksFrom c).length ≤ m.maps.entries.length :=
  length_filterMap_le _ _

theorem links_empty : empty.links = ∅ := by
  ext l
  simp [links,empty]

theorem addLink_ok (h : src.1 ≠ target.1) (new : Bool) : ∃ added m', m.addLink src target new =
    .ok (added,m') ∧ (m' = m ∧ new ∧ m.isRedundant src target ∨
      m' = ⟨m.maps.insert (src.1,target.1,src.2) target.2⟩) := by
  unfold addLink
  rw [if_neg h]
  by_cases hr : (new && m.isRedundant src target)
  · rw [if_pos hr]
    rw [Bool.and_eq_true] at hr
    exact ⟨false,m,rfl,.inl ⟨rfl,hr.1,hr.2⟩⟩
  · rw [if_neg hr]
    exact ⟨true,_,rfl,.inr rfl⟩

theorem links_insert (hnew : ∀ t, ⟨src,(target.1,t)⟩ ∈ m.links → t = target.2) :
    links ⟨m.maps.insert (src.1,target.1,src.2) target.2⟩ = insert ⟨src,target⟩ m.links := by
  ext ⟨⟨c,ss⟩,⟨tc,ts⟩⟩
  obtain ⟨sc,sq⟩ := src
  obtain ⟨gc,gs⟩ := target
  simp only [mem_links,Set.mem_insert_iff,Link.mk.injEq,Prod.mk.injEq]
  by_cases hkey : (c,tc,ss) = (sc,gc,sq)
  · rw [hkey,AList.lookup_insert]
    obtain ⟨rfl,rfl,rfl⟩ := hkey
    constructor
    · intro h
      exact .inl ⟨⟨rfl,rfl⟩,rfl,(Option.some.inj h).symm⟩
    · rintro (⟨-,-,h⟩ | h)
      · rw [h]
      · rw [hnew ts h]
  · rw [AList.lookup_insert_ne hkey]
    constructor
    · exact .inr
    · rintro (⟨⟨rfl,rfl⟩,rfl,rfl⟩ | h)
      · exact absurd rfl hkey
      · exact h

theorem isRedundant_iff : m.isRedundant src target ↔
    ∃ l ∈ m.links, l.origin.1 = src.1 ∧ l.origin.2 ≤ src.2 ∧ l.target.1 = target.1 ∧ target.2 ≤ l.target.2 := by
  simp only [isRedundant,any_eq_true,decide_eq_true_eq]
  constructor
  · rintro ⟨⟨tc,ss,ts⟩,hin,htc,hss,hts⟩
    exact ⟨⟨(src.1,ss),(tc,ts)⟩,mem_linksFrom.mp hin,rfl,hss,htc,hts⟩
  · rintro ⟨⟨⟨c,ss⟩,⟨tc,ts⟩⟩,hin,rfl,hss,htc,hts⟩
    exact ⟨(tc,ss,ts),mem_linksFrom.mpr hin,htc,hss,hts⟩

section search
variable (m target) (visited : ℕ → ℕ) {stack : List (Place ℕ)} (p : Place ℕ)

def openLinks : List (ℕ × ℕ × ℕ) :=
  (m.linksFrom p.1).filter fun l => visited l.1 < l.2.2 ∧ l.2.1 ≤ p.2

def visit : ℕ → ℕ :=
  update visited p.1 (max p.2 (visited p.1))

def pushes : List (Place ℕ) :=
  ((m.openLinks visited p).filter fun l => l.1 ≠ target.1).map fun l => (l.1,l.2.2)

def covers : Bool :=
  (m.openLinks visited p).any fun l => l.1 = target.1 ∧ target.2 ≤ l.2.2

variable {m target visited p}

theorem search_cons (fuel : ℕ) : m.search target (fuel + 1) visited (p :: stack) =
    if m.covers target (visit visited p) p then true else m.search target fuel (visit visited p)
      ((m.pushes target (visit visited p) p).reverse ++ stack) := rfl

theorem mem_openLinks : (tc,ss,ts) ∈ m.openLinks visited p ↔
    ⟨(p.1,ss),(tc,ts)⟩ ∈ m.links ∧ visited tc < ts ∧ ss ≤ p.2 := by
  simp [openLinks,mem_linksFrom]

theorem mem_pushes {q : Place ℕ} : q ∈ m.pushes target visited p ↔
    ∃ ss, ⟨(p.1,ss),q⟩ ∈ m.links ∧ visited q.1 < q.2 ∧ ss ≤ p.2 ∧ q.1 ≠ target.1 := by
  simp only [pushes,mem_map,mem_filter,decide_eq_true_eq]
  constructor
  · rintro ⟨⟨tc,ss,ts⟩,⟨hopen,hne⟩,rfl⟩
    obtain ⟨hl,hv,hs⟩ := mem_openLinks.mp hopen
    exact ⟨ss,hl,hv,hs,hne⟩
  · rintro ⟨ss,hl,hv,hs,hne⟩
    exact ⟨(q.1,ss,q.2),⟨mem_openLinks.mpr ⟨hl,hv,hs⟩,hne⟩,rfl⟩

theorem covers_iff : m.covers target visited p ↔
    ∃ ss ts, ⟨(p.1,ss),(target.1,ts)⟩ ∈ m.links ∧ visited target.1 < ts ∧ ss ≤ p.2 ∧ target.2 ≤ ts := by
  simp only [covers,any_eq_true,decide_eq_true_eq]
  constructor
  · rintro ⟨⟨tc,ss,ts⟩,hopen,rfl,hle⟩
    obtain ⟨hl,hv,hs⟩ := mem_openLinks.mp hopen
    exact ⟨ss,ts,hl,hv,hs,hle⟩
  · rintro ⟨ss,ts,hl,hv,hs,hle⟩
    exact ⟨(target.1,ss,ts),mem_openLinks.mpr ⟨hl,hv,hs⟩,rfl,hle⟩

theorem visit_self (visited : ℕ → ℕ) (p : Place ℕ) : p.2 ≤ visit visited p p.1 := by
  simp [visit]

theorem visit_mono (visited : ℕ → ℕ) (p : Place ℕ) (c : ℕ) : visited c ≤ visit visited p c := by
  by_cases hc : c = p.1
  · subst hc
    simp [visit]
  · simp [visit,hc]

theorem visit_cases {s : ℕ} (h : s ≤ visit visited p c) : s ≤ visited c ∨ c = p.1 ∧ s ≤ p.2 := by
  by_cases hc : c = p.1
  · subst hc
    simp only [visit,update_self] at h
    omega
  · simp only [visit,update_of_ne hc] at h
    exact .inl h

/-! ### A found path is a walk -/

theorem search_sound (hstack : ∀ q ∈ stack, Reach m.links src q)
    (h : m.search target fuel visited stack) : Reach m.links src target := by
  induction fuel generalizing visited stack with
  | zero => cases h
  | succ fuel ih =>
    cases stack with
    | nil => cases h
    | cons p stack =>
      have hp := hstack p mem_cons_self
      rw [search_cons] at h
      split at h
      · rename_i hcov
        obtain ⟨ss,ts,hl,-,hs,hle⟩ := covers_iff.mp hcov
        have hmove : Move m.links p (target.1,ts) := .along hl hs
        exact (hp.tail hmove).tail (.down hle)
      · apply ih _ h
        intro q hq
        rcases mem_append.mp hq with hq | hq
        · obtain ⟨ss,hl,-,hs,-⟩ := mem_pushes.mp (mem_reverse.mp hq)
          exact hp.tail (.along hl hs)
        · exact hstack q (mem_cons_of_mem _ hq)

/-! ### A search that ends without a path has seen every walk -/

/-- Links from visited places lead to visited places, to the stack, or to the target's chain
below the target. -/
structure Explored (m : LinkMap) (target : Place ℕ) (visited : ℕ → ℕ) (stack : List (Place ℕ)) :
    Prop where
  away : ∀ q ∈ stack, q.1 ≠ target.1
  unseen : visited target.1 = 0
  follow : ∀ l ∈ m.links, l.origin.2 ≤ visited l.origin.1 →
    l.target.1 = target.1 ∧ l.target.2 < target.2 ∨ l.target.2 ≤ visited l.target.1 ∨
      ∃ s, (l.target.1,s) ∈ stack ∧ l.target.2 ≤ s

theorem Explored.pop (h : Explored m target visited (p :: stack))
    (hcov : ¬m.covers target (visit visited p) p) : Explored m target (visit visited p)
      ((m.pushes target (visit visited p) p).reverse ++ stack) := by
  have hp := h.away p mem_cons_self
  have hunseen : visit visited p target.1 = 0 := by
    simp [visit,update_of_ne (Ne.symm hp),h.unseen]
  refine ⟨fun q hq => ?_,hunseen,fun l hl hle => ?_⟩
  · rcases mem_append.mp hq with hq | hq
    · obtain ⟨ss,-,-,-,hne⟩ := mem_pushes.mp (mem_reverse.mp hq)
      exact hne
    · exact h.away q (mem_cons_of_mem _ hq)
  · rcases visit_cases hle with hold | ⟨hchain,hs⟩
    · rcases h.follow l hl hold with hbelow | hseen | ⟨s,hin,hs⟩
      · exact .inl hbelow
      · exact .inr (.inl (hseen.trans (visit_mono visited p _)))
      · rcases mem_cons.mp hin with rfl | hin
        · exact .inr (.inl (hs.trans (visit_self visited (l.target.1,s))))
        · exact .inr (.inr ⟨s,mem_append_right _ hin,hs⟩)
    · by_cases hseen : l.target.2 ≤ visit visited p l.target.1
      · exact .inr (.inl hseen)
      have hmem : ⟨(p.1,l.origin.2),l.target⟩ ∈ m.links := hchain ▸ hl
      by_cases htarget : l.target.1 = target.1
      · refine .inl ⟨htarget,?_⟩
        by_contra hge
        refine hcov (covers_iff.mpr ⟨l.origin.2,l.target.2,htarget ▸ hmem,?_,hs,?_⟩)
        · omega
        · omega
      · refine .inr (.inr ⟨l.target.2,mem_append_left _ (mem_reverse.mpr ?_),le_rfl⟩)
        exact mem_pushes.mpr ⟨l.origin.2,hmem,Nat.lt_of_not_le hseen,hs,htarget⟩

def NoClimb (m : LinkMap) (target : Place ℕ) : Prop :=
  ∀ l ∈ m.links, l.target.1 = target.1 → Reach m.links l.target target → target.2 ≤ l.target.2

theorem Explored.unreachable (h : Explored m target visited []) (hclimb : m.NoClimb target)
    (htarget : 1 ≤ target.2) (hp : p.2 ≤ visited p.1) : ¬Reach m.links p target := by
  intro hr
  induction hr using Relation.ReflTransGen.head_induction_on with
  | refl =>
    rw [h.unseen] at hp
    omega
  | head hm hrest ih =>
    apply ih
    cases hm with
    | down hle => exact hle.trans hp
    | @along l s hl hle =>
      rcases h.follow l hl (hle.trans hp) with ⟨hchain,hlt⟩ | hseen | ⟨_,hin,-⟩
      · have := hclimb l hl hchain hrest
        omega
      · exact hseen
      · cases hin

/-! ### The number of rounds -/

def places (m : LinkMap) (src : Place ℕ) : Finset (Place ℕ) :=
  (src :: m.maps.entries.map fun entry => (entry.1.2.1,entry.2)).toFinset

theorem mem_places {l : Link ℕ} (h : l ∈ m.links) : l.target ∈ m.places src := by
  rw [places,mem_toFinset]
  have hin : (⟨(l.origin.1,l.target.1,l.origin.2),l.target.2⟩ : Sigma fun _ => ℕ) ∈
      m.maps.entries := AList.mem_lookup_iff.mp h
  exact mem_cons_of_mem _ (mem_map.mpr ⟨_,hin,rfl⟩)

def unvisited (m : LinkMap) (src : Place ℕ) (visited : ℕ → ℕ) : Finset (Place ℕ) :=
  (m.places src).filter fun q => visited q.1 < q.2

theorem unvisited_mono (visited : ℕ → ℕ) (p : Place ℕ) :
    m.unvisited src (visit visited p) ⊆ m.unvisited src visited := by
  intro q hq
  rw [unvisited,Finset.mem_filter] at hq ⊢
  exact ⟨hq.1,(visit_mono visited p q.1).trans_lt hq.2⟩

theorem unvisited_lt (hp : p ∈ m.places src) (hnew : visited p.1 < p.2) :
    (m.unvisited src (visit visited p)).card < (m.unvisited src visited).card := by
  apply Finset.card_lt_card
  refine Finset.ssubset_iff_subset_ne.mpr ⟨unvisited_mono visited p,fun heq => ?_⟩
  have hin : p ∈ m.unvisited src visited := Finset.mem_filter.mpr ⟨hp,hnew⟩
  rw [← heq,unvisited,Finset.mem_filter] at hin
  have := visit_self visited p
  omega

/-- A stale place on top of the stack still costs the round that may push its links. -/
def stale (visited : ℕ → ℕ) : List (Place ℕ) → ℕ → ℕ
  | [], _ => 0
  | p :: _, n => if p.2 ≤ visited p.1 then n else 0

theorem stale_cons (visited : ℕ → ℕ) (p : Place ℕ) (stack : List (Place ℕ)) (n : ℕ) :
    stale visited (p :: stack) n = if p.2 ≤ visited p.1 then n else 0 := rfl

theorem stale_le (visited : ℕ → ℕ) (stack : List (Place ℕ)) (n : ℕ) : stale visited stack n ≤ n := by
  cases stack with
  | nil => exact Nat.zero_le n
  | cons p stack =>
    rw [stale_cons]
    split
    · exact le_rfl
    · exact Nat.zero_le n

def potential (m : LinkMap) (src : Place ℕ) (visited : ℕ → ℕ) (stack : List (Place ℕ)) : ℕ :=
  let n := m.maps.entries.length
  stack.length + (2 * n + 1) * (m.unvisited src visited).card + stale visited stack n

theorem pushes_length (m : LinkMap) (target : Place ℕ) (visited : ℕ → ℕ) (p : Place ℕ) :
    (m.pushes target visited p).length ≤ m.maps.entries.length := by
  rw [pushes,length_map]
  refine (length_filter_le _ _).trans ((length_filter_le _ _).trans ?_)
  exact linksFrom_length m p.1

theorem visit_stale (h : p.2 ≤ visited p.1) : visit visited p = visited := by
  funext c
  simp [visit,h]

theorem potential_lt (target : Place ℕ) (visited : ℕ → ℕ) (stack : List (Place ℕ))
    (hp : p ∈ m.places src) : m.potential src (visit visited p)
      ((m.pushes target (visit visited p) p).reverse ++ stack) <
    m.potential src visited (p :: stack) := by
  have hlen := pushes_length m target (visit visited p) p
  simp only [potential,length_append,length_reverse,length_cons]
  by_cases hstale : p.2 ≤ visited p.1
  · rw [visit_stale hstale] at hlen ⊢
    -- what a stale place pushes is not stale itself
    cases hpush : (m.pushes target visited p).reverse with
    | nil =>
      have hzero : (m.pushes target visited p).length = 0 := by
        rw [← length_reverse,hpush,length_nil]
      have hle := stale_le visited stack m.maps.entries.length
      simp only [nil_append,stale_cons,if_pos hstale]
      omega
    | cons q rest =>
      have hq : q ∈ m.pushes target visited p := by
        rw [← mem_reverse,hpush]
        exact mem_cons_self
      obtain ⟨-,-,hv,-⟩ := mem_pushes.mp hq
      have hfresh : ¬q.2 ≤ visited q.1 := by omega
      simp only [cons_append,stale_cons,if_pos hstale,if_neg hfresh]
      omega
  · have hlt := unvisited_lt hp (by omega : visited p.1 < p.2)
    have hle := stale_le (visit visited p)
      ((m.pushes target (visit visited p) p).reverse ++ stack) m.maps.entries.length
    have hmul := Nat.mul_le_mul_left (2 * m.maps.entries.length + 1) hlt
    rw [Nat.mul_succ] at hmul
    omega

theorem search_complete (hclimb : m.NoClimb target) (htarget : 1 ≤ target.2)
    (hsub : ∀ q ∈ stack, q ∈ m.places src) (h : Explored m target visited stack)
    (hfuel : m.potential src visited stack ≤ fuel)
    (hsrc : (∃ s, (src.1,s) ∈ stack ∧ src.2 ≤ s) ∨ src.2 ≤ visited src.1)
    (hr : Reach m.links src target) : m.search target fuel visited stack := by
  induction fuel generalizing visited stack with
  | zero =>
    cases stack with
    | nil =>
      rcases hsrc with ⟨_,hin,-⟩ | hseen
      · cases hin
      · exact absurd hr (h.unreachable hclimb htarget hseen)
    | cons p stack =>
      simp only [potential,length_cons] at hfuel
      omega
  | succ fuel ih =>
    cases stack with
    | nil =>
      rcases hsrc with ⟨_,hin,-⟩ | hseen
      · cases hin
      · exact absurd hr (h.unreachable hclimb htarget hseen)
    | cons p stack =>
      rw [search_cons]
      split
      · rfl
      rename_i hcov
      have hp := hsub p mem_cons_self
      have hlt := potential_lt target visited stack hp
      refine ih (fun q hq => ?_) (h.pop hcov) (by omega) ?_
      · rcases mem_append.mp hq with hq | hq
        · obtain ⟨ss,hl,-⟩ := mem_pushes.mp (mem_reverse.mp hq)
          exact mem_places hl
        · exact hsub q (mem_cons_of_mem _ hq)
      · rcases hsrc with ⟨s,hin,hs⟩ | hseen
        · rcases mem_cons.mp hin with rfl | hin
          · exact .inr (hs.trans (visit_self visited (src.1,s)))
          · exact .inl ⟨s,mem_append_right _ hin,hs⟩
        · exact .inr (hseen.trans (visit_mono visited p _))

end search

/-- On links that leave no sequence number 0 and never lead up a chain, the search decides
whether a walk leads from the source to the target. -/
theorem existsPathFrom_iff (hne : src.1 ≠ target.1) (hpos : ∀ l ∈ m.links, 1 ≤ l.origin.2)
    (hclimb : m.NoClimb target) (htarget : 1 ≤ target.2) :
    m.existsPathFrom src target ↔ Reach m.links src target := by
  unfold existsPathFrom
  rw [if_neg hne]
  constructor
  · apply search_sound
    intro q hq
    rw [mem_singleton] at hq
    exact hq ▸ .refl
  · have hstart : Explored m target (fun _ => 0) [src] := by
      refine ⟨fun q hq => ?_,rfl,fun l hl hle => ?_⟩
      · rw [mem_singleton] at hq
        exact hq ▸ hne
      · have := hpos l hl
        omega
    have hsub : ∀ q ∈ [src], q ∈ m.places src := by
      intro q hq
      rw [mem_singleton] at hq
      simp [places,hq]
    refine search_complete hclimb htarget hsub hstart ?_ (.inl ⟨src.2,mem_singleton.mpr rfl,le_rfl⟩)
    have hcard : (m.unvisited src fun _ => 0).card ≤ m.maps.entries.length + 1 := by
      refine (Finset.card_filter_le _ _).trans ((toFinset_card_le _).trans ?_)
      simp
    have hstale := stale_le (fun _ => 0) [src] m.maps.entries.length
    have hmul := Nat.mul_le_mul_left (2 * m.maps.entries.length + 1) hcard
    simp only [potential,rounds,length_singleton]
    omega

end LinkMap

end TextrpBriij.AuthChain
