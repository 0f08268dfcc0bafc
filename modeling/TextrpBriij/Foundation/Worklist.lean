import Mathlib

/-! # Worklists without a visited set

A loop that takes a node off a worklist and merges the node's successors into the rest. A node
may be taken several times, at most once for each path that leads to it, so in an acyclic graph
the loop ends and has then taken what can be reached from the worklist.
-/
namespace TextrpBriij.Worklist
open Relation List

variable {α : Type} {next : α → List α} {merge : List α → List α → List α} {rank : α → ℕ}

def taken (next : α → List α) (merge : List α → List α → List α) : ℕ → List α → List α
  | 0, _ => []
  | _ + 1, [] => []
  | fuel + 1, a :: rest => a :: taken next merge fuel (merge rest (next a))

def paths (next : α → List α) : ℕ → α → ℕ
  | 0, _ => 1
  | d + 1, a => 1 + ((next a).map (paths next d)).sum

def budget (next : α → List α) (d : ℕ) (work : List α) : ℕ := (work.map (paths next d)).sum

/-- Nothing is lost or made up, and nothing is repeated that was not there twice. -/
structure Merges (merge : List α → List α → List α) : Prop where
  mem : ∀ rest new a, a ∈ merge rest new ↔ a ∈ rest ∨ a ∈ new
  subperm : ∀ rest new, (merge rest new).Subperm (rest ++ new)

def Ranked (next : α → List α) (rank : α → ℕ) : Prop := ∀ a, ∀ b ∈ next a, rank b < rank a

theorem exists_ranked (hacyclic : ∀ a, ¬TransGen (fun a b => b ∈ next a) a a) (s : Finset α)
    (hs : ∀ a, ∀ b ∈ next a, b ∈ s) : ∃ rank, Ranked next rank ∧ ∀ a, rank a ≤ s.card := by
  classical
  let later : α → Finset α := fun a => s.filter fun b => TransGen (fun a b => b ∈ next a) a b
  have hranked : Ranked next fun a => (later a).card := by
    intro a b hb
    apply Finset.card_lt_card
    rw [Finset.ssubset_iff_of_subset]
    · have hab : TransGen (fun a b => b ∈ next a) a b := .single hb
      exact ⟨b,by simp [later,hs a b hb,hab],by simp [later,hacyclic b]⟩
    · intro c hc
      simp only [later,Finset.mem_filter] at hc ⊢
      exact ⟨hc.1,.head hb hc.2⟩
  exact ⟨fun a => (later a).card,hranked,fun a => Finset.card_le_card (Finset.filter_subset _ _)⟩

theorem paths_succ (hranked : Ranked next rank) {d : ℕ} {a : α} (ha : rank a ≤ d) :
    paths next (d + 1) a = paths next d a := by
  induction d generalizing a with
  | zero =>
    have hnone : next a = [] := by
      apply eq_nil_iff_forall_not_mem.mpr
      intro b hb
      have := hranked a b hb
      omega
    simp [paths,hnone]
  | succ d ih =>
    have hmap : (next a).map (paths next (d + 1)) = (next a).map (paths next d) := by
      apply map_congr_left
      intro b hb
      have := hranked a b hb
      exact ih (by omega)
    rw [paths,hmap,paths]

theorem budget_merge (hmerge : Merges merge) (d : ℕ) (rest new : List α) :
    budget next d (merge rest new) ≤ budget next d rest + budget next d new := by
  obtain ⟨l,hperm,hsub⟩ := hmerge.subperm rest new
  calc budget next d (merge rest new) = budget next d l := (hperm.map _).sum_eq.symm
    _ ≤ budget next d (rest ++ new) := (hsub.map _).sum_le_sum fun _ _ => Nat.zero_le _
    _ = budget next d rest + budget next d new := by simp [budget]

theorem mem_taken (hmerge : Merges merge) (hranked : Ranked next rank) {d : ℕ}
    (hd : ∀ a, rank a ≤ d) {fuel : ℕ} {work : List α} (hfuel : budget next d work ≤ fuel) {c : α} :
    c ∈ taken next merge fuel work ↔ ∃ a ∈ work, ReflTransGen (fun a b => b ∈ next a) a c := by
  induction fuel generalizing work with
  | zero =>
    cases work with
    | nil => simp [taken]
    | cons a rest =>
      have hpos : 1 ≤ paths next d a := by
        cases d <;> simp [paths]
      simp only [budget,map_cons,sum_cons] at hfuel
      omega
  | succ fuel ih =>
    cases work with
    | nil => simp [taken]
    | cons a rest =>
      have hstep : budget next d (merge rest (next a)) ≤ fuel := by
        have hmerged := @budget_merge α next merge hmerge d rest (next a)
        have hpaths : paths next d a = 1 + budget next d (next a) := by
          rw [← paths_succ hranked (hd a),paths,budget]
        simp only [budget,map_cons,sum_cons] at hfuel hmerged hpaths ⊢
        omega
      rw [taken,mem_cons,ih hstep]
      constructor
      · rintro (rfl | ⟨b,hb,hbc⟩)
        · exact ⟨c,mem_cons_self,.refl⟩
        rcases (hmerge.mem rest (next a) b).mp hb with hrest | hnext
        · exact ⟨b,mem_cons_of_mem _ hrest,hbc⟩
        · exact ⟨a,mem_cons_self,.head hnext hbc⟩
      · rintro ⟨b,hb,hbc⟩
        rcases mem_cons.mp hb with rfl | hrest
        · rcases ReflTransGen.cases_head hbc with rfl | ⟨b',hedge,hb'c⟩
          · exact .inl rfl
          · exact .inr ⟨b',(hmerge.mem _ _ _).mpr (.inr hedge),hb'c⟩
        · exact .inr ⟨b,(hmerge.mem _ _ _).mpr (.inl hrest),hbc⟩

end TextrpBriij.Worklist
