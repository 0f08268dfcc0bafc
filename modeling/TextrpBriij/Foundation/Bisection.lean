import Mathlib

/-! # Bisection of a range of integers

The predicate need not be monotone: the search ends at a place where it changes.
-/
namespace TextrpBriij.Bisection

variable {p : ℤ → Bool} {lo hi : ℤ}

def bisect (p : ℤ → Bool) (lo hi : ℤ) : ℤ :=
  if 0 < hi - lo then
    let middle := (hi + lo) / 2
    if p middle then bisect p (middle + 1) hi else bisect p lo middle
  else hi
termination_by (hi - lo).toNat
decreasing_by all_goals omega

theorem bisect_boundary (h : lo ≤ hi) : lo ≤ bisect p lo hi ∧ bisect p lo hi ≤ hi ∧
    (bisect p lo hi = lo ∨ p (bisect p lo hi - 1) = true) ∧
    (bisect p lo hi = hi ∨ p (bisect p lo hi) = false) := by
  fun_induction bisect p lo hi with
  | case1 lo hi hlt middle hp ih =>
    obtain ⟨hlo,hhi,hbelow,hat⟩ := ih (by omega)
    refine ⟨by omega,hhi,.inr ?_,hat⟩
    rcases hbelow with heq | hbelow
    · rwa [heq,add_sub_cancel_right]
    · exact hbelow
  | case2 lo hi hlt middle hp ih =>
    obtain ⟨hlo,hhi,hbelow,hat⟩ := ih (by omega)
    refine ⟨hlo,by omega,hbelow,.inr ?_⟩
    rcases hat with heq | hat
    · rw [heq]
      exact Bool.eq_false_iff.mpr hp
    · exact hat
  | case3 lo hi hlt => exact ⟨h,le_rfl,.inl (by omega),.inl rfl⟩

/-- A search from 0 leaves it where the predicate holds at a half, a quarter, and so on, of the end. -/
theorem bisect_pos_iff (h : 0 < hi) : 0 < bisect p 0 hi ↔ ∃ k : ℕ, p (hi / 2 ^ (k + 1)) := by
  induction hn : hi.toNat using Nat.strong_induction_on generalizing hi with
  | _ n ih =>
    rw [bisect,if_pos (by omega)]
    simp only [add_zero]
    by_cases hp : p (hi / 2)
    · have hle := (@bisect_boundary p (hi / 2 + 1) hi (by omega)).1
      rw [if_pos hp]
      exact iff_of_true (by omega) ⟨0,by simpa using hp⟩
    · have hhalf : ∀ k : ℕ, hi / 2 ^ (k + 1) = hi / 2 / 2 ^ k := by
        intro k
        rw [Int.ediv_ediv_of_nonneg (by omega),pow_succ']
      rw [if_neg hp]
      simp only [hhalf]
      by_cases hzero : hi / 2 = 0
      · rw [hzero] at hp ⊢
        rw [bisect,if_neg (by omega)]
        simp [hp]
      · rw [ih _ (by omega) (by omega : 0 < hi / 2) rfl]
        constructor
        · rintro ⟨k,hk⟩
          exact ⟨k + 1,hk⟩
        · rintro ⟨k,hk⟩
          cases k with
          | zero => simp [hp] at hk
          | succ k => exact ⟨k,hk⟩

end TextrpBriij.Bisection
