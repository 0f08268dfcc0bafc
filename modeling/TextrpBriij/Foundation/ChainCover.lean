import Mathlib

/-! # Chain covers of a directed graph

Every node of a graph is given a place on a chain, and links lead from a place to a place
on another chain. Walking down chains and along links then reaches exactly the nodes that
the graph reaches, if each edge is covered and nothing else is added.
-/
namespace TextrpBriij.ChainCover
open Relation Function

variable {ε κ : Type}

theorem exists_top {edge : ε → ε → Prop} (hacyclic : ∀ e, ¬TransGen edge e e) {s : Finset ε}
    (hs : s.Nonempty) : ∃ e ∈ s, ∀ f ∈ s, ¬TransGen edge f e := by
  let r : s → s → Prop := fun a b => TransGen edge a.1 b.1
  have : Std.Irrefl r := ⟨fun a => hacyclic a.1⟩
  have hwf : WellFounded r := Finite.wellFounded_of_trans_of_irrefl r
  obtain ⟨x,hx⟩ := hs
  obtain ⟨e,-,he⟩ := hwf.has_min Set.univ ⟨⟨x,hx⟩,trivial⟩
  exact ⟨e.1,e.2,fun f hf => he ⟨f,hf⟩ trivial⟩

abbrev Place (κ : Type) := κ × ℕ

structure Link (κ : Type) where
  origin : Place κ
  target : Place κ
  deriving DecidableEq

variable {links links' : Set (Link κ)} {p q : Place κ}

inductive Move (links : Set (Link κ)) : Place κ → Place κ → Prop
  | down {c : κ} {s s' : ℕ} (h : s' ≤ s) : Move links (c,s) (c,s')
  | along {l : Link κ} {s : ℕ} (hl : l ∈ links) (h : l.origin.2 ≤ s) :
      Move links (l.origin.1,s) l.target

def Reach (links : Set (Link κ)) : Place κ → Place κ → Prop := ReflTransGen (Move links)

theorem Move.mono (h : Move links p q) (hsub : links ⊆ links') : Move links' p q := by
  cases h with
  | down h => exact .down h
  | along hl h => exact .along (hsub hl) h

theorem Reach.mono (h : Reach links p q) (hsub : links ⊆ links') : Reach links' p q := by
  induction h with
  | refl => exact .refl
  | tail _ hm ih => exact .tail ih (hm.mono hsub)

theorem Reach.down {c : κ} {s s' : ℕ} (h : s' ≤ s) : Reach links (c,s) (c,s') :=
  .single (.down h)

theorem Reach.link {l : Link κ} (hl : l ∈ links) : Reach links l.origin l.target :=
  .single (.along hl le_rfl)

/-- A height for each chain such that no link leads from below the heights to above. -/
def Saturated (links : Set (Link κ)) (height : κ → ℕ) : Prop :=
  ∀ l ∈ links, l.origin.2 ≤ height l.origin.1 → l.target.2 ≤ height l.target.1

theorem Saturated.le_of_reach {height : κ → ℕ} (h : Saturated links height)
    (hr : Reach links p q) (hp : p.2 ≤ height p.1) : q.2 ≤ height q.1 := by
  induction hr with
  | refl => exact hp
  | tail _ hm ih =>
    cases hm with
    | down hle => exact hle.trans ih
    | along hl hle => exact h _ hl (hle.trans ih)

structure Tidy (links : Set (Link κ)) : Prop where
  apart : ∀ l ∈ links, l.origin.1 ≠ l.target.1
  single : ∀ l ∈ links, ∀ l' ∈ links, l.origin = l'.origin → l.target.1 = l'.target.1 → l.target = l'.target

variable {new few many : Set (Link κ)}

theorem Tidy.union (h : Tidy links) (hold : ∀ l ∈ links, l.origin ≠ p)
    (hnew : ∀ l ∈ new, l.origin = p ∧ l.target.1 ≠ p.1)
    (hsingle : ∀ l ∈ new, ∀ l' ∈ new, l.target.1 = l'.target.1 → l.target = l'.target) :
    Tidy (links ∪ new) := by
  constructor
  · rintro l (hl | hl)
    · exact h.apart l hl
    · obtain ⟨horigin,hne⟩ := hnew l hl
      rw [horigin]
      exact hne.symm
  · rintro l (hl | hl) l' (hl' | hl') horigin hchain
    · exact h.single l hl l' hl' horigin hchain
    · exact absurd (horigin.trans (hnew l' hl').1) (hold l hl)
    · exact absurd (horigin.symm.trans (hnew l hl).1) (hold l' hl')
    · exact hsingle l hl l' hl' hchain

/-- On a set of chains that links do not leave, one set of links is as good as another. -/
structure Dominates (few many : Set (Link κ)) (chains : Set κ) : Prop where
  sub : few ⊆ many
  stays : ∀ l ∈ many, l.origin.1 ∈ chains → l.target.1 ∈ chains
  covers : ∀ l ∈ many, l.origin.1 ∈ chains → ∃ l' ∈ few, l'.origin.1 = l.origin.1 ∧
    l'.origin.2 ≤ l.origin.2 ∧ l'.target.1 = l.target.1 ∧ l.target.2 ≤ l'.target.2

variable {chains : Set κ}

section
variable (h : Dominates few many chains)
include h

theorem Dominates.mem_of_reach (hp : p.1 ∈ chains) (hr : Reach many p q) : q.1 ∈ chains := by
  induction hr with
  | refl => exact hp
  | tail _ hm ih =>
    cases hm with
    | down => exact ih
    | along hl => exact h.stays _ hl ih

theorem Dominates.reach_iff (hp : p.1 ∈ chains) : Reach few p q ↔ Reach many p q := by
  refine ⟨fun hr => hr.mono h.sub,fun hr => ?_⟩
  suffices Reach few p q ∧ q.1 ∈ chains from this.1
  induction hr with
  | refl => exact ⟨.refl,hp⟩
  | tail _ hm ih =>
    obtain ⟨hr,hmem⟩ := ih
    cases hm with
    | down hle => exact ⟨hr.tail (.down hle),hmem⟩
    | @along l s hl hle =>
      obtain ⟨l',hl',hc,hs,ht,hts⟩ := h.covers l hl hmem
      refine ⟨?_,h.stays l hl hmem⟩
      have hmove : Move few (l.origin.1,s) l'.target := hc ▸ .along hl' (hs.trans hle)
      have hdown : Move few l'.target (l'.target.1,l.target.2) := .down hts
      rw [ht] at hdown
      exact (hr.tail hmove).tail hdown

theorem Dominates.insert {few' : Set (Link κ)} {l : Link κ} (hl : l.target.1 ∈ chains)
    (hcross : ∃ l' ∈ few', l'.origin.1 = l.origin.1 ∧ l'.origin.2 ≤ l.origin.2 ∧
      l'.target.1 = l.target.1 ∧ l.target.2 ≤ l'.target.2)
    (hfew : few ⊆ few') (hfew' : few' ⊆ Insert.insert l few) :
    Dominates few' (Insert.insert l many) chains := by
  refine ⟨hfew'.trans (Set.insert_subset_insert h.sub),?_,?_⟩
  · rintro k (rfl | hk) hchain
    · exact hl
    · exact h.stays k hk hchain
  · rintro k (rfl | hk) hchain
    · exact hcross
    · obtain ⟨k',hk',hrest⟩ := h.covers k hk hchain
      exact ⟨k',hfew hk',hrest⟩

end

structure Cover (edge : ε → ε → Prop) (place : ε → Option (Place κ)) (links : Set (Link κ)) :
    Prop where
  unique : ∀ {e f p}, place e = some p → place f = some p → e = f
  pos : ∀ {e p}, place e = some p → 1 ≤ p.2
  below : ∀ {e c s}, place e = some (c,s + 1) → 1 ≤ s → ∃ f, place f = some (c,s) ∧ edge e f
  closed : ∀ {e f p}, place e = some p → edge e f → ∃ q, place f = some q
  sound : ∀ l ∈ links, ∃ e f, place e = some l.origin ∧ place f = some l.target ∧ edge e f
  complete : ∀ {e f p q}, place e = some p → edge e f → place f = some q → Reach links p q

namespace Cover
variable {edge : ε → ε → Prop} {place : ε → Option (Place κ)} {e f : ε}

section
variable (h : Cover edge place links)
include h

theorem chain_down {c : κ} {s s' : ℕ} (he : place e = some (c,s))
    (hs' : 1 ≤ s') (hle : s' ≤ s) : ∃ f, place f = some (c,s') ∧ ReflTransGen edge e f := by
  induction s generalizing e with
  | zero => omega
  | succ s ih =>
    by_cases heq : s' = s + 1
    · subst heq
      exact ⟨e,he,.refl⟩
    · obtain ⟨g,hg,hedge⟩ := h.below he (by omega)
      obtain ⟨f,hf,hreach⟩ := ih hg (by omega)
      exact ⟨f,hf,.head hedge hreach⟩

theorem walk_sound (he : place e = some p) (hr : Reach links p q) :
    q.2 = 0 ∨ ∃ f, place f = some q ∧ ReflTransGen edge e f := by
  induction hr with
  | refl => exact .inr ⟨e,he,.refl⟩
  | tail _ hm ih =>
    cases hm with
    | @down c s s' hle =>
      rcases Nat.eq_zero_or_pos s' with hzero | hpos
      · exact .inl hzero
      rcases ih with hs | ⟨g,hg,hreach⟩
      · omega
      · obtain ⟨f,hf,hdown⟩ := h.chain_down hg hpos hle
        exact .inr ⟨f,hf,hreach.trans hdown⟩
    | @along l s hl hle =>
      obtain ⟨a,b,ha,hb,hedge⟩ := h.sound l hl
      have hpos := h.pos ha
      rcases ih with hs | ⟨g,hg,hreach⟩
      · omega
      · obtain ⟨f,hf,hdown⟩ := h.chain_down hg hpos hle
        obtain rfl := h.unique hf ha
        exact .inr ⟨b,hb,(hreach.trans hdown).tail hedge⟩

theorem reach_iff (he : place e = some p) (hf : place f = some q) :
    Reach links p q ↔ ReflTransGen edge e f := by
  constructor
  · intro hr
    rcases h.walk_sound he hr with hzero | ⟨g,hg,hreach⟩
    · have := h.pos hf
      omega
    · exact h.unique hf hg ▸ hreach
  · intro hreach
    induction hreach generalizing q with
    | refl =>
      cases he.symm.trans hf
      exact .refl
    | tail hreach hedge ih =>
      rename_i g f'
      obtain ⟨r,hr⟩ : ∃ r, place g = some r := by
        clear ih hf hedge
        induction hreach with
        | refl => exact ⟨p,he⟩
        | tail _ hedge ih =>
          obtain ⟨r,hr⟩ := ih
          exact h.closed hr hedge
      exact (ih hr).trans (h.complete hr hedge hf)

theorem not_ascending (hacyclic : ∀ e, ¬TransGen edge e e) {c : κ}
    {s s' : ℕ} (he : place e = some (c,s)) (hf : place f = some (c,s'))
    (hr : Reach links (c,s) (c,s')) : s' ≤ s := by
  by_contra hgt
  have hup := (h.reach_iff he hf).mp hr
  have hdown := (h.reach_iff hf he).mp (Reach.down (by omega))
  have hne : e ≠ f := by
    rintro rfl
    obtain ⟨-,hs⟩ := Prod.mk.inj (Option.some.inj (he.symm.trans hf))
    omega
  rcases reflTransGen_iff_eq_or_transGen.mp hup with heq | htrans
  · exact hne heq.symm
  · exact hacyclic e (htrans.trans_left hdown)

end

structure Addition (edge : ε → ε → Prop) (place : ε → Option (Place κ)) (links : Set (Link κ))
    (e : ε) (p : Place κ) (new : Set (Link κ)) : Prop where
  unplaced : place e = none
  pos : 1 ≤ p.2
  free : ∀ f, place f ≠ some p
  below : ∀ s, p.2 = s + 1 → 1 ≤ s → ∃ f, place f = some (p.1,s) ∧ edge e f
  closed : ∀ f, edge e f → ∃ q, place f = some q
  sound : ∀ l ∈ new, l.origin = p ∧ ∃ f, place f = some l.target ∧ edge e f
  complete : ∀ f q, edge e f → place f = some q → Reach (links ∪ new) p q

theorem extend [DecidableEq ε] (h : Cover edge place links) {p : Place κ}
    (ha : Addition edge place links e p new) :
    Cover edge (update place e (some p)) (links ∪ new) := by
  have hself : update place e (some p) e = some p := update_self ..
  have hother : ∀ {f q}, place f = some q → update place e (some p) f = some q := by
    intro f q hf
    rw [update_of_ne _,hf]
    rintro rfl
    rw [ha.unplaced] at hf
    cases hf
  -- a placed node is the new one or an old one
  have hcases : ∀ {f q}, update place e (some p) f = some q → f = e ∧ q = p ∨ place f = some q := by
    intro f q hf
    by_cases heq : f = e
    · subst heq
      rw [hself] at hf
      exact .inl ⟨rfl,(Option.some.inj hf).symm⟩
    · rw [update_of_ne heq] at hf
      exact .inr hf
  refine ⟨?_,?_,?_,?_,?_,?_⟩
  · intro f g q hf hg
    rcases hcases hf with ⟨rfl,rfl⟩ | hf'
    · rcases hcases hg with ⟨rfl,-⟩ | hg'
      · rfl
      · exact absurd hg' (ha.free g)
    · rcases hcases hg with ⟨-,rfl⟩ | hg'
      · exact absurd hf' (ha.free f)
      · exact h.unique hf' hg'
  · intro f q hf
    rcases hcases hf with ⟨rfl,rfl⟩ | hf
    · exact ha.pos
    · exact h.pos hf
  · intro f c s hf hs
    rcases hcases hf with ⟨rfl,rfl⟩ | hf
    · obtain ⟨g,hg,hedge⟩ := ha.below s rfl hs
      exact ⟨g,hother hg,hedge⟩
    · obtain ⟨g,hg,hedge⟩ := h.below hf hs
      exact ⟨g,hother hg,hedge⟩
  · intro f g q hf hedge
    rcases hcases hf with ⟨rfl,rfl⟩ | hf
    · obtain ⟨r,hr⟩ := ha.closed g hedge
      exact ⟨r,hother hr⟩
    · obtain ⟨r,hr⟩ := h.closed hf hedge
      exact ⟨r,hother hr⟩
  · rintro l (hl | hl)
    · obtain ⟨a,b,ha',hb,hedge⟩ := h.sound l hl
      exact ⟨a,b,hother ha',hother hb,hedge⟩
    · obtain ⟨rfl,f,hf,hedge⟩ := ha.sound l hl
      exact ⟨e,f,hself,hother hf,hedge⟩
  · intro f g q r hf hedge hg
    rcases hcases hf with ⟨rfl,rfl⟩ | hf
    · obtain ⟨r',hr'⟩ := ha.closed g hedge
      cases (hother hr').symm.trans hg
      exact ha.complete g _ hedge hr'
    · obtain ⟨r',hr'⟩ := h.closed hf hedge
      cases (hother hr').symm.trans hg
      exact (h.complete hf hedge hr').mono Set.subset_union_left

/-- Links to the nodes that are on other chains and that no other node with an edge from the
new one reaches are enough: from a highest node without a walk one could go up once more. -/
theorem reduced_complete (h : Cover edge place links) (hacyclic : ∀ e, ¬TransGen edge e e)
    {p : Place κ} (below : Finset ε) (hbelow : ∀ f, edge e f ↔ f ∈ below)
    (hpos : 1 ≤ p.2) (hfree : ∀ f, place f ≠ some p)
    (hnew : ∀ f ∈ below, ∀ q, place f = some q → q.1 ≠ p.1 →
      (∀ g ∈ below, g ≠ f → ∀ r, place g = some r → ¬Reach links r q) → ⟨p,q⟩ ∈ new) :
    ∀ f q, edge e f → place f = some q → Reach (links ∪ new) p q := by
  classical
  by_contra hnot
  push Not at hnot
  obtain ⟨f₀,q₀,hedge₀,hq₀,hr₀⟩ := hnot
  let bad := below.filter fun f => ∃ q, place f = some q ∧ ¬Reach (links ∪ new) p q
  have hbad : bad.Nonempty :=
    ⟨f₀,Finset.mem_filter.mpr ⟨(hbelow f₀).mp hedge₀,q₀,hq₀,hr₀⟩⟩
  obtain ⟨f,hf,htop⟩ := exists_top hacyclic hbad
  obtain ⟨hfb,q,hq,hr⟩ := Finset.mem_filter.mp hf
  have hchain : q.1 ≠ p.1 := by
    intro hc
    obtain ⟨c,s⟩ := q
    obtain ⟨c',s'⟩ := p
    obtain rfl : c = c' := hc
    have hlt : s' < s := by
      by_contra hge
      exact hr (Reach.down (by omega))
    obtain ⟨g,hg,-⟩ := h.chain_down hq hpos hlt.le
    exact hfree g hg
  refine hr (Reach.link (l := ⟨p,q⟩) (.inr (hnew f hfb q hq hchain fun g hg hne r hgr hgf => ?_)))
  have hreach : TransGen edge g f := by
    rcases reflTransGen_iff_eq_or_transGen.mp ((h.reach_iff hgr hq).mp hgf) with heq | htrans
    · exact absurd heq.symm hne
    · exact htrans
  have hgood : Reach (links ∪ new) p r := by
    by_contra hgr'
    exact htop g (Finset.mem_filter.mpr ⟨hg,r,hgr,hgr'⟩) hreach
  exact hr (hgood.trans (hgf.mono Set.subset_union_left))

end Cover

end TextrpBriij.ChainCover
