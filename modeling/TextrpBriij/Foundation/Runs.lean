import Mathlib

/-! # Runs of a system of guarded steps -/
namespace TextrpBriij.Runs
open List

variable {σ α : Type} {step : σ → α → Option σ} {s s' : σ} {as : List α}

/-- The state after the actions, if each of them can be taken. -/
def run (step : σ → α → Option σ) (s : σ) (as : List α) : Option σ := as.foldlM step s

theorem run_nil : run step s [] = some s := rfl

theorem run_cons {a : α} : run step s (a :: as) = (step s a).bind (run step · as) := rfl

theorem run_preserves {I : σ → Prop} (hstep : ∀ {s a s'}, I s → step s a = some s' → I s')
    (h : I s) (hrun : run step s as = some s') : I s' := by
  induction as generalizing s with
  | nil =>
    cases hrun
    exact h
  | cons a as ih =>
    obtain ⟨mid,hmid,hrest⟩ := Option.bind_eq_some_iff.mp hrun
    exact ih (hstep h hmid) hrest

/-- The steps that are taken in a state that meets a condition. -/
def guarded (P : σ → α → Prop) [∀ s a, Decidable (P s a)] (step : σ → α → Option σ) : σ → α → Option σ :=
  fun s a => if P s a then step s a else none

theorem guarded_eq_some {P : σ → α → Prop} [∀ s a, Decidable (P s a)] {a : α} :
    guarded P step s a = some s' ↔ P s a ∧ step s a = some s' := by
  unfold guarded
  split
  · rename_i h
    simp [h]
  · rename_i h
    simp [h]

theorem split_at {i : ℕ} {a : α} (h : as[i]? = some a) :
    ∃ before after, as = before ++ a :: after ∧ (∀ b, as.set i b = before ++ b :: after) ∧
      as.eraseIdx i = before ++ after := by
  obtain ⟨hlt,rfl⟩ := List.getElem?_eq_some_iff.mp h
  refine ⟨as.take i,as.drop (i + 1),?_,fun b => ?_,eraseIdx_eq_take_drop_succ ..⟩
  · simp
  · rw [set_eq_take_append_cons_drop,if_pos hlt]

theorem forall_mem_set {p : α → Prop} {i : ℕ} {a : α} (h : ∀ b ∈ as, p b) (ha : p a) :
    ∀ b ∈ as.set i a, p b := by
  intro b hb
  rcases mem_or_eq_of_mem_set hb with hold | rfl
  · exact h b hold
  · exact ha

section total
variable {step : σ → α → σ} {I P : σ → Prop} {C : σ → α → Prop}

theorem foldl_preserves (hstep : ∀ s a, I s → I (step s a)) (h : I s) : I (as.foldl step s) := by
  induction as generalizing s with
  | nil => exact h
  | cons a as ih => exact ih (hstep s a h)

/-- Where a condition decides for each next element whether a property of the list so far is
kept, the property holds of every beginning exactly when every element meets the condition. -/
theorem prefixes_iff {P : List α → Prop} {C : List α → α → Prop}
    (hstep : ∀ pre a, pre ++ [a] <+: as → P pre → (P (pre ++ [a]) ↔ C pre a)) (hP : P []) :
    (∀ pre, pre <+: as → P pre) ↔ ∀ pre a, pre ++ [a] <+: as → C pre a := by
  constructor
  · intro hall pre a hpre
    have hbefore := hall pre ((prefix_append pre [a]).trans hpre)
    exact (hstep pre a hpre hbefore).mp (hall _ hpre)
  · intro hall pre
    induction pre using reverseRecOn with
    | nil => exact fun _ => hP
    | append_singleton pre a ih =>
      intro hpre
      have hbefore := ih ((prefix_append pre [a]).trans hpre)
      exact (hstep pre a hpre hbefore).mpr (hall pre a hpre)

/-- Where a condition decides for each step whether it keeps a property, the property holds in
every state of a run exactly when every step meets the condition. -/
theorem always_iff (hI : ∀ s a, I s → I (step s a))
    (hstep : ∀ s a, I s → P s → (P (step s a) ↔ C s a)) (h : I s) (hP : P s) :
    (∀ pre, pre <+: as → P (pre.foldl step s)) ↔ ∀ pre a, pre ++ [a] <+: as → C (pre.foldl step s) a := by
  refine @prefixes_iff α as (fun pre => P (pre.foldl step s))
    (fun pre a => C (pre.foldl step s) a) (fun pre a _ hpre => ?_) hP
  rw [foldl_append]
  exact hstep _ a (foldl_preserves hI h) hpre

end total

end TextrpBriij.Runs
