import Mathlib

/-! # Maps stored as chains of deltas

Each node has some entries of its own and may have a node with a smaller number before it, whose
map it overrides.
-/
namespace TextrpBriij.DeltaChain
open List Option

variable {K V : Type} {prev prev' : ℕ → Option ℕ} {own own' : ℕ → K → Option V} {key : K} {g : ℕ}

def chain (prev : ℕ → Option ℕ) : ℕ → ℕ → List ℕ
  | 0, _ => []
  | fuel + 1, g => g :: ((prev g).elim [] fun p => chain prev fuel p)

def value (prev : ℕ → Option ℕ) (own : ℕ → K → Option V) (g : ℕ) (key : K) : Option V :=
  (chain prev (g + 1) g).findSome? fun node => own node key

def Descends (prev : ℕ → Option ℕ) : Prop := ∀ g p, prev g = some p → p < g

section
variable (h : Descends prev)
include h

theorem chain_fuel {fuel fuel' : ℕ} (hfuel : g < fuel) (hfuel' : g < fuel') :
    chain prev fuel g = chain prev fuel' g := by
  induction fuel generalizing g fuel' with
  | zero => omega
  | succ fuel ih =>
    cases fuel' with
    | zero => omega
    | succ fuel' =>
      rw [chain,chain]
      cases hprev : prev g with
      | none => rfl
      | some p =>
        have hp := h g p hprev
        have hrest : chain prev fuel p = chain prev fuel' p := ih (by omega) (by omega)
        simp only [elim_some,hrest]

theorem chain_eq (g : ℕ) : chain prev (g + 1) g = g :: ((prev g).elim [] fun p => chain prev (p + 1) p) := by
  rw [chain]
  cases hprev : prev g with
  | none => rfl
  | some p =>
    have hp := h g p hprev
    simp only [elim_some]
    rw [chain_fuel h hp (Nat.lt_succ_self p)]

theorem value_eq (g : ℕ) (key : K) :
    value prev own g key = (own g key).or ((prev g).bind fun p => value prev own p key) := by
  rw [value,chain_eq h,findSome?_cons]
  cases own g key with
  | some v => rfl
  | none =>
    cases prev g with
    | none => rfl
    | some p => rfl

theorem le_of_mem_chain {fuel node : ℕ} (hnode : node ∈ chain prev fuel g) : node ≤ g := by
  induction fuel generalizing g with
  | zero => cases hnode
  | succ fuel ih =>
    rcases mem_cons.mp hnode with rfl | hrest
    · exact le_rfl
    · cases hprev : prev g with
      | none => simp [hprev] at hrest
      | some p =>
        have hp := h g p hprev
        have := ih (by simpa [hprev] using hrest)
        omega

theorem value_eq_some_iff {v : V} :
    value prev own g key = some v ↔ ∃ node ∈ chain prev (g + 1) g, own node key = some v ∧
      ∀ other ∈ chain prev (g + 1) g, own other key ≠ none → other ≤ node := by
  induction g using Nat.strong_induction_on with
  | _ g ih =>
    rw [value_eq h,chain_eq h]
    cases hown : own g key with
    | some w =>
      rw [some_or]
      constructor
      · intro heq
        refine ⟨g,mem_cons_self,hown.trans heq,fun other hother _ => ?_⟩
        rw [← chain_eq h] at hother
        exact le_of_mem_chain h hother
      · rintro ⟨node,hnode,hv,hmax⟩
        rw [← chain_eq h] at hnode
        have hle := le_of_mem_chain h hnode
        have hge := hmax g mem_cons_self (by simp [hown])
        obtain rfl : node = g := by omega
        rw [← hown,hv]
    | none =>
      cases hprev : prev g with
      | none => simp [hown]
      | some p =>
        have hrest := ih p (h g p hprev)
        simp only [exists_mem_cons_iff,hown,
          forall_mem_cons,reduceCtorEq,false_and,false_or,ne_eq,not_true,false_imp_iff,true_and]
        exact hrest

/-- Where a part of the nodes is closed under going back and has kept its entries, its values
are the same. -/
theorem value_congr (h' : Descends prev') {S : Set ℕ}
    (hclosed : ∀ g ∈ S, ∀ p, prev g = some p → p ∈ S) (hprev : ∀ g ∈ S, prev' g = prev g)
    (hown : ∀ g ∈ S, ∀ key, own' g key = own g key) (hg : g ∈ S) (key : K) :
    value prev' own' g key = value prev own g key := by
  induction g using Nat.strong_induction_on with
  | _ g ih =>
    rw [value_eq h,value_eq h',hprev g hg,hown g hg]
    cases hp : prev g with
    | none => rfl
    | some p =>
      simp only [bind_some]
      rw [ih p (h g p hp) (hclosed g hg p hp)]

theorem value_reencode (h' : Descends prev') (node : ℕ) (hprev : ∀ g, g ≠ node → prev' g = prev g)
    (hown : ∀ g, g ≠ node → ∀ key, own' g key = own g key)
    (hnode : ∀ key, (own' node key).or ((prev' node).bind fun p => value prev own p key) =
      value prev own node key) (g : ℕ) (key : K) :
    value prev' own' g key = value prev own g key := by
  induction g using Nat.strong_induction_on with
  | _ g ih =>
    have hbefore : (prev' g).bind (fun p => value prev' own' p key) =
        (prev' g).bind fun p => value prev own p key := by
      cases hp : prev' g with
      | none => rfl
      | some p =>
        exact ih p (h' g p hp)
    rw [value_eq h',hbefore]
    by_cases hg : g = node
    · subst hg
      exact hnode key
    · rw [value_eq h,hprev g hg,hown g hg]

end

end TextrpBriij.DeltaChain
