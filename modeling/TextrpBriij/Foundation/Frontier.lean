import TextrpBriij.Foundation.ChainCover

/-! # The frontier of a growing graph

Some nodes of a graph are shown, and some are hidden and only lead on to others. The frontier
is what no shown node leads to, over hidden nodes or directly.
-/
namespace TextrpBriij.Frontier
open Relation

variable {α : Type} {prev prev' : α → α → Prop} {shown new hidden hidden' known old : Set α}
variable {a e : α}

def Through (prev : α → α → Prop) (hidden : Set α) (a e : α) : Prop :=
  ∃ b, ReflTransGen (fun x y => prev x y ∧ y ∈ hidden) a b ∧ prev b e

def frontier (prev : α → α → Prop) (shown hidden : Set α) : Set α :=
  {e | e ∈ shown ∧ ∀ a ∈ shown, ¬Through prev hidden a e}

/-- What is left when the frontier is brought up to date from the new nodes alone: they are
added, and what they lead to over the known nodes is taken away. -/
def kept (prev : α → α → Prop) (old shown new known : Set α) : Set α :=
  {e | (e ∈ old ∨ e ∈ new) ∧ (∀ n ∈ new, ¬Through prev known n e) ∧ ∀ a ∈ shown, ¬prev a e}

/-- Every candidate that a shown node leads to is found from the new nodes over the known ones,
or is one edge away from a shown node. -/
def Covered (prev : α → α → Prop) (old shown new known hidden : Set α) : Prop :=
  ∀ e, e ∈ old ∨ e ∈ new → (∃ a ∈ shown ∪ new, Through prev hidden a e) →
    (∃ n ∈ new, Through prev known n e) ∨ ∃ a ∈ shown, prev a e

theorem Through.of_edge (h : prev a e) : Through prev hidden a e := ⟨a,.refl,h⟩

section
variable (h : Through prev hidden a e)
include h

theorem Through.imp (hstep : ∀ x, x = a ∨ x ∈ hidden → ∀ y, prev x y → prev' x y ∧ (y ∈ hidden → y ∈ hidden')) :
    Through prev' hidden' a e := by
  obtain ⟨b,hab,hbe⟩ := h
  have hpath : ReflTransGen (fun x y => prev' x y ∧ y ∈ hidden') a b ∧ (b = a ∨ b ∈ hidden) := by
    clear hbe
    induction hab with
    | refl => exact ⟨.refl,.inl rfl⟩
    | @tail b c _ hbc ih =>
      obtain ⟨hpath,hb⟩ := ih
      have hc := hstep b hb c hbc.1
      exact ⟨hpath.tail ⟨hc.1,hc.2 hbc.2⟩,.inr hbc.2⟩
  exact ⟨b,hpath.1,(hstep b hpath.2 e hbe).1⟩

theorem Through.mono (hhidden : hidden ⊆ hidden')
    (hprev : ∀ x, x = a ∨ x ∈ hidden → ∀ y, prev x y → prev' x y) : Through prev' hidden' a e :=
  h.imp fun x hx y hy => ⟨hprev x hx y hy,fun hmem => hhidden hmem⟩

theorem Through.restrict (hstep : ∀ x, x = a ∨ x ∈ hidden → ∀ y ∈ hidden, prev x y → y ∈ known) :
    Through prev known a e :=
  h.imp fun x hx y hy => ⟨hy,fun hmem => hstep x hx y hmem hy⟩

theorem Through.transGen : TransGen prev a e := by
  obtain ⟨b,hab,hbe⟩ := h
  exact .tail' (ReflTransGen.mono (fun _ _ h => h.1) _ _ hab) hbe

end

theorem through_iff : Through prev hidden a e ↔
    prev a e ∨ ∃ p, prev a p ∧ TransGen (fun x y => x ∈ hidden ∧ prev x y) p e := by
  constructor
  · rintro ⟨b,hab,hbe⟩
    induction hab using ReflTransGen.head_induction_on with
    | refl => exact .inl hbe
    | head hac _ ih =>
      right
      rcases ih with hce | ⟨p,hcp,hpe⟩
      · exact ⟨_,hac.1,.single ⟨hac.2,hce⟩⟩
      · exact ⟨_,hac.1,.head ⟨hac.2,hcp⟩ hpe⟩
  · rintro (hedge | ⟨p,hap,hpe⟩)
    · exact .of_edge hedge
    · induction hpe using TransGen.head_induction_on generalizing a with
      | single hedge => exact ⟨_,.single ⟨hap,hedge.1⟩,hedge.2⟩
      | head hedge _ ih =>
        obtain ⟨b,hb,hbe⟩ := ih hedge.2
        exact ⟨b,.head ⟨hap,hedge.1⟩ hb,hbe⟩

theorem frontier_nonempty (hacyclic : ∀ a, ¬TransGen prev a a) (hfinite : shown.Finite)
    (hne : shown.Nonempty) : (frontier prev shown hidden).Nonempty := by
  obtain ⟨e,he,htop⟩ := ChainCover.exists_top hacyclic (hfinite.toFinset_nonempty.mpr hne)
  simp only [Set.Finite.mem_toFinset] at he htop
  exact ⟨e,he,fun a ha hthrough => htop a ha hthrough.transGen⟩

/-- The graph before and after the new nodes: the edges out of the nodes that were there
before have not changed. -/
structure Grows (prev prev' : α → α → Prop) (shown hidden hidden' known : Set α) : Prop where
  hidden_subset : hidden ⊆ hidden'
  known_subset : known ⊆ hidden'
  prev_iff : ∀ x, x ∈ shown ∨ x ∈ hidden → ∀ y, prev x y ↔ prev' x y

section
variable (h : Grows prev prev' shown hidden hidden' known)
include h

theorem Grows.through (ha : a ∈ shown) (hthrough : Through prev hidden a e) : Through prev' hidden' a e := by
  apply hthrough.mono h.hidden_subset
  rintro x (rfl | hx) y hxy
  · exact (h.prev_iff x (.inl ha) y).mp hxy
  · exact (h.prev_iff x (.inr hx) y).mp hxy

theorem through_of_known (hthrough : Through prev' known a e) : Through prev' hidden' a e :=
  hthrough.mono h.known_subset fun _ _ _ hxy => hxy

theorem frontier_subset_kept (hold : frontier prev shown hidden ⊆ old) :
    frontier prev' (shown ∪ new) hidden' ⊆ kept prev' old shown new known := by
  rintro e ⟨he,hfree⟩
  refine ⟨?_,?_,?_⟩
  · rcases he with he | he
    · exact .inl (hold ⟨he,fun a ha hthrough => hfree a (.inl ha) (h.through ha hthrough)⟩)
    · exact .inr he
  · exact fun n hn hthrough => hfree n (.inr hn) (through_of_known h hthrough)
  · exact fun a ha hedge => hfree a (.inl ha) (.of_edge hedge)

/-- From an exact frontier the new one is exact if and only if the candidates are covered. -/
theorem kept_eq_iff (hold : old = frontier prev shown hidden) :
    kept prev' old shown new known = frontier prev' (shown ∪ new) hidden' ↔
      Covered prev' old shown new known hidden' := by
  constructor
  · rintro heq e he ⟨a,ha,hthrough⟩
    by_contra hnot
    rw [not_or] at hnot
    obtain ⟨hnew,hshown⟩ := hnot
    have hkept : e ∈ kept prev' old shown new known :=
      ⟨he,fun n hn hn' => hnew ⟨n,hn,hn'⟩,fun a ha hedge => hshown ⟨a,ha,hedge⟩⟩
    rw [heq] at hkept
    exact hkept.2 a ha hthrough
  · intro hcovered
    apply Set.Subset.antisymm
    · rintro e ⟨he,hnew,hshown⟩
      refine ⟨?_,fun a ha hthrough => ?_⟩
      · rcases he with he | he
        · exact .inl (hold ▸ he).1
        · exact .inr he
      · rcases hcovered e he ⟨a,ha,hthrough⟩ with ⟨n,hn,hn'⟩ | ⟨b,hb,hedge⟩
        · exact hnew n hn hn'
        · exact hshown b hb hedge
    · exact frontier_subset_kept h hold.ge

end

end TextrpBriij.Frontier
