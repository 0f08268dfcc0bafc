import Mathlib

/-! # Search in rounds

A search along a list of edges that remembers what it has found. Each round follows the edges
out of what the round before found, so it ends after at most one round for each target.
-/
namespace TextrpBriij.Rounds
open Relation List

variable {α : Type} [DecidableEq α] {edges : List (α × α)} {work found : List α}

def visit (s : List α × List α) (target : α) : List α × List α :=
  if target ∈ s.2 then s else (s.1 ++ [target],s.2 ++ [target])

def targets (edges : List (α × α)) (work : List α) : List α :=
  (edges.filter fun edge => edge.1 ∈ work).map fun edge => edge.2

def search (edges : List (α × α)) : ℕ → List α → List α → List α
  | 0, _, found => found
  | _ + 1, [], found => found
  | fuel + 1, a :: rest, found =>
    let s := (targets edges (a :: rest)).foldl visit ([],found)
    search edges fuel s.1 s.2

def searchAll (edges : List (α × α)) (fuel : ℕ) (chunks : List (List α)) : List α :=
  chunks.foldl (fun found chunk => search edges fuel chunk found) []

def remaining (edges : List (α × α)) (found : List α) : Finset α :=
  (edges.map fun edge => edge.2).toFinset \ found.toFinset

/-- What was found is on the worklist, or all that it has edges to is found as well. -/
def Closed (edges : List (α × α)) (work found : List α) : Prop :=
  ∀ a ∈ found, a ∈ work ∨ ∀ b, (a,b) ∈ edges → b ∈ found

/-- A walk along at least one and at most so many edges. -/
def Within (edges : List (α × α)) : ℕ → α → α → Prop
  | 0, _, _ => False
  | k + 1, a, b => ∃ c, (a,c) ∈ edges ∧ (c = b ∨ Within edges k c b)

theorem search_nil (fuel : ℕ) : search edges fuel [] found = found := by
  cases fuel <;> rfl

theorem mem_targets {b : α} : b ∈ targets edges work ↔ ∃ a ∈ work, (a,b) ∈ edges := by
  simp only [targets,mem_map,mem_filter,decide_eq_true_eq,Prod.exists]
  constructor
  · rintro ⟨a,c,⟨hedge,ha⟩,rfl⟩
    exact ⟨a,ha,hedge⟩
  · rintro ⟨a,ha,hedge⟩
    exact ⟨a,b,⟨hedge,ha⟩,rfl⟩

theorem mem_foldl_visit (ts : List α) {s : List α × List α} {b : α} :
    (b ∈ (ts.foldl visit s).2 ↔ b ∈ s.2 ∨ b ∈ ts) ∧
      (b ∈ (ts.foldl visit s).1 ↔ b ∈ s.1 ∨ b ∈ ts ∧ b ∉ s.2) := by
  induction ts generalizing s with
  | nil => simp
  | cons t ts ih =>
    by_cases ht : t ∈ s.2
    · have hvisit : visit s t = s := if_pos ht
      constructor <;> grind
    · have hvisit : visit s t = (s.1 ++ [t],s.2 ++ [t]) := if_neg ht
      constructor <;> grind

section
omit [DecidableEq α]
variable {k : ℕ} {a b : α}

theorem Within.transGen (h : Within edges k a b) : TransGen (fun a b => (a,b) ∈ edges) a b := by
  induction k generalizing a with
  | zero => exact h.elim
  | succ k ih =>
    obtain ⟨c,hedge,rfl | hcb⟩ := h
    · exact .single hedge
    · exact .head hedge (ih hcb)

theorem Within.succ (h : Within edges k a b) : Within edges (k + 1) a b := by
  induction k generalizing a with
  | zero => exact h.elim
  | succ k ih =>
    obtain ⟨c,hedge,hcb⟩ := h
    exact ⟨c,hedge,hcb.imp_right ih⟩

theorem Closed.within (h : Closed edges work found) (ha : a ∈ found) (hab : Within edges k a b) :
    b ∈ found ∨ ∃ w ∈ work, Within edges k w b := by
  induction k generalizing a with
  | zero => exact hab.elim
  | succ k ih =>
    rcases h a ha with hwork | hall
    · exact .inr ⟨a,hwork,hab⟩
    · obtain ⟨c,hedge,rfl | hcb⟩ := hab
      · exact .inl (hall c hedge)
      · exact (ih (hall c hedge) hcb).imp_right fun ⟨w,hw,hwb⟩ => ⟨w,hw,hwb.succ⟩

theorem Closed.reach (h : Closed edges work found) (ha : a ∈ found)
    (hab : TransGen (fun a b => (a,b) ∈ edges) a b) :
    b ∈ found ∨ ∃ w ∈ work, TransGen (fun a b => (a,b) ∈ edges) w b := by
  induction hab using TransGen.head_induction_on with
  | @single a hedge =>
    rcases h a ha with hwork | hall
    · exact .inr ⟨a,hwork,.single hedge⟩
    · exact .inl (hall b hedge)
  | @head a c hedge hcb ih =>
    rcases h a ha with hwork | hall
    · exact .inr ⟨a,hwork,.head hedge hcb⟩
    · exact ih (hall c hedge)

end

theorem Closed.round (h : Closed edges work found) :
    let s := (targets edges work).foldl visit ([],found)
    Closed edges s.1 s.2 := by
  intro s a ha
  have hfound : ∀ b, b ∈ s.2 ↔ b ∈ found ∨ b ∈ targets edges work := fun b =>
    (mem_foldl_visit (targets edges work)).1
  by_cases hold : a ∈ found
  · right
    intro b hedge
    apply (hfound b).mpr
    rcases h a hold with hwork | hall
    · exact .inr (mem_targets.mpr ⟨a,hwork,hedge⟩)
    · exact .inl (hall b hedge)
  · left
    have hnew := ((hfound a).mp ha).resolve_left hold
    exact (mem_foldl_visit (targets edges work)).2.mpr (.inr ⟨hnew,hold⟩)

theorem remaining_round (hne : ((targets edges work).foldl visit ([],found)).1 ≠ []) :
    (remaining edges ((targets edges work).foldl visit ([],found)).2).card < (remaining edges found).card := by
  obtain ⟨b,hb⟩ := exists_mem_of_ne_nil _ hne
  obtain ⟨htarget,hold⟩ : b ∈ targets edges work ∧ b ∉ found := by
    simpa using (mem_foldl_visit (targets edges work)).2.mp hb
  obtain ⟨a,-,hedge⟩ := mem_targets.mp htarget
  have hfound : ∀ c, c ∈ ((targets edges work).foldl visit ([],found)).2 ↔
      c ∈ found ∨ c ∈ targets edges work := fun c => (mem_foldl_visit (targets edges work)).1
  apply Finset.card_lt_card
  rw [Finset.ssubset_iff_of_subset]
  · refine ⟨b,?_,?_⟩
    · simp only [remaining,Finset.mem_sdiff,mem_toFinset,mem_map]
      exact ⟨⟨(a,b),hedge,rfl⟩,hold⟩
    · simp [remaining,hfound,htarget]
  · intro c hc
    simp only [remaining,Finset.mem_sdiff,mem_toFinset,hfound] at hc ⊢
    exact ⟨hc.1,fun h => hc.2 (.inl h)⟩

theorem mem_search_within {k : ℕ} (h : Closed edges work found) {b : α} :
    b ∈ search edges k work found ↔ b ∈ found ∨ ∃ a ∈ work, Within edges k a b := by
  induction k generalizing work found with
  | zero => simp [search,Within]
  | succ k ih =>
    cases work with
    | nil => simp [search]
    | cons a rest =>
      have hround := fun c => @mem_foldl_visit _ _ (targets edges (a :: rest)) ([],found) c
      rw [search,ih h.round,(hround b).1]
      constructor
      · rintro ((hb | hb) | ⟨c,hc,hcb⟩)
        · exact .inl hb
        · obtain ⟨w,hw,hedge⟩ := mem_targets.mp hb
          exact .inr ⟨w,hw,b,hedge,.inl rfl⟩
        · obtain ⟨w,hw,hedge⟩ := mem_targets.mp (((hround c).2.mp hc).resolve_left not_mem_nil).1
          exact .inr ⟨w,hw,c,hedge,.inr hcb⟩
      · rintro (hb | ⟨w,hw,c,hedge,hcb⟩)
        · exact .inl (.inl hb)
        · have hc := mem_targets.mpr ⟨w,hw,hedge⟩
          rcases hcb with rfl | hcb
          · exact .inl (.inr hc)
          · rw [← (hround b).1]
            exact h.round.within ((hround c).1.mpr (.inr hc)) hcb

theorem Closed.search {fuel : ℕ} (h : Closed edges work found)
    (hfuel : (remaining edges found).card < fuel) (next : List α) :
    Closed edges next (search edges fuel work found) := by
  induction fuel generalizing work found with
  | zero => omega
  | succ fuel ih =>
    cases work with
    | nil => exact fun a ha => .inr ((h a ha).resolve_left not_mem_nil)
    | cons a rest =>
      rw [Rounds.search]
      by_cases hne : ((targets edges (a :: rest)).foldl visit ([],found)).1 = []
      · rw [hne,search_nil]
        exact fun b hb => .inr ((h.round b hb).resolve_left (by simp [hne]))
      · have hless := remaining_round hne
        exact ih h.round (by omega)

theorem mem_search {fuel : ℕ} (h : Closed edges work found)
    (hfuel : (remaining edges found).card < fuel) {b : α} : b ∈ search edges fuel work found ↔
      b ∈ found ∨ ∃ a ∈ work, TransGen (fun a b => (a,b) ∈ edges) a b := by
  constructor
  · intro hb
    exact ((mem_search_within h).mp hb).imp_right fun ⟨a,ha,hab⟩ => ⟨a,ha,hab.transGen⟩
  · rintro (hb | ⟨w,hw,hwb⟩)
    · exact (mem_search_within h).mpr (.inl hb)
    · obtain ⟨c,hedge,hcb⟩ := TransGen.head'_iff.mp hwb
      have hc : c ∈ search edges fuel work found := by
        obtain ⟨k,rfl⟩ := Nat.exists_eq_succ_of_ne_zero (by omega : fuel ≠ 0)
        exact (mem_search_within h).mpr (.inr ⟨w,hw,c,hedge,.inl rfl⟩)
      rcases reflTransGen_iff_eq_or_transGen.mp hcb with rfl | hcb
      · exact hc
      · exact ((h.search hfuel []).reach hc hcb).resolve_right (by simp)

/-- A search from where everything next to it was found ends at once. -/
theorem search_again {k : ℕ} (h : ∀ b ∈ targets edges work, b ∈ found) : search edges k work found = found := by
  have hvisit : ∀ ts : List α, (∀ b ∈ ts, b ∈ found) → ts.foldl visit ([],found) = ([],found) := by
    intro ts hts
    induction ts with
    | nil => rfl
    | cons t ts ih =>
      rw [foldl_cons,visit,if_pos (hts t mem_cons_self)]
      exact ih fun b hb => hts b (mem_cons_of_mem t hb)
  cases k with
  | zero => rfl
  | succ k =>
    cases work with
    | nil => rfl
    | cons a rest => rw [search,hvisit _ h,search_nil]

/-- Of the searches that are broken off, the first that follows an edge decides. -/
theorem foldl_search (hclosed : Closed edges work found) (ks : List ℕ) :
    ks.foldl (fun found k => search edges k work found) found =
      ((ks.find? (· ≠ 0)).map fun k => search edges k work found).getD found := by
  induction ks with
  | nil => rfl
  | cons k ks ih =>
    cases k with
    | zero => simpa [search] using ih
    | succ k =>
      have hsame : ∀ k', search edges k' work (search edges (k + 1) work found) =
          search edges (k + 1) work found := by
        intro k'
        refine search_again fun b hb => (mem_search_within hclosed).mpr (.inr ?_)
        obtain ⟨a,ha,hedge⟩ := mem_targets.mp hb
        exact ⟨a,ha,b,hedge,.inl rfl⟩
      rw [foldl_cons,foldl_fixed' hsame]
      simp

theorem remaining_card_le (found : List α) : (remaining edges found).card ≤ edges.length := by
  calc (remaining edges found).card ≤ (edges.map fun edge => edge.2).toFinset.card :=
        Finset.card_le_card Finset.sdiff_subset
    _ ≤ (edges.map fun edge => edge.2).length := toFinset_card_le _
    _ = edges.length := length_map _

theorem mem_searchAll (chunks : List (List α)) {b : α} : b ∈ searchAll edges (edges.length + 1) chunks ↔
      ∃ chunk ∈ chunks, ∃ a ∈ chunk, TransGen (fun a b => (a,b) ∈ edges) a b := by
  have hfuel : ∀ found, (remaining edges found).card < edges.length + 1 := fun found =>
    Nat.lt_succ_of_le (remaining_card_le found)
  have hfold : ∀ (chunks : List (List α)) found, (∀ work, Closed edges work found) →
      (b ∈ chunks.foldl (fun found chunk => search edges (edges.length + 1) chunk found) found ↔
        b ∈ found ∨ ∃ chunk ∈ chunks, ∃ a ∈ chunk, TransGen (fun a b => (a,b) ∈ edges) a b) := by
    intro chunks
    induction chunks with
    | nil => simp
    | cons chunk chunks ih =>
      intro found hclosed
      have hnext : ∀ work, Closed edges work (search edges (edges.length + 1) chunk found) :=
        fun work => (hclosed chunk).search (hfuel found) work
      rw [foldl_cons,ih _ hnext,mem_search (hclosed chunk) (hfuel found)]
      simp only [exists_mem_cons_iff,or_assoc]
  have hstart : ∀ work, Closed edges work [] := fun work a ha => absurd ha not_mem_nil
  simpa [searchAll] using hfold chunks [] hstart

end TextrpBriij.Rounds
