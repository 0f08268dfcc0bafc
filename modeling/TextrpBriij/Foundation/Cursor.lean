import Mathlib

/-! # Working through positions in order

Some positions of a linear order are open, and a worker closes them from the lowest on. A cursor
is safe where every open position is beyond it, and a list of work is safe to go through where
it leaves out only positions beyond all of it.
-/
namespace TextrpBriij.Cursor
open List

variable {α : Type} [LinearOrder α] {isOpen isOpen' : α → Prop} {l m : α} {ns pre post : List α}

def Beyond (isOpen : α → Prop) (l : α) : Prop := ∀ n, isOpen n → l < n

def Ahead (isOpen : α → Prop) (ns : List α) : Prop :=
  ∀ n, isOpen n → n ∈ ns ∨ ∀ m ∈ ns, m < n

theorem Beyond.mono (h : Beyond isOpen l) (hopen : ∀ n, isOpen' n → isOpen n ∨ l < n) : Beyond isOpen' l := by
  intro n hn
  obtain hold | hnew := hopen n hn
  · exact h n hold
  · exact hnew

theorem Ahead.mono (h : Ahead isOpen ns) (hopen : ∀ n, isOpen' n → isOpen n ∨ ∀ m ∈ ns, m < n) :
    Ahead isOpen' ns := by
  intro n hn
  obtain hold | hnew := hopen n hn
  · exact h n hold
  · exact .inr hnew

theorem Ahead.of_append (h : Ahead isOpen (pre ++ post)) (hsorted : (pre ++ post).Pairwise (· ≤ ·)) :
    Ahead isOpen pre := by
  intro n hn
  obtain hmem | hbeyond := h n hn
  · obtain hpre | hpost := mem_append.mp hmem
    · exact .inl hpre
    · by_cases hpre : n ∈ pre
      · exact .inl hpre
      · refine .inr fun m hm => lt_of_le_of_ne ((pairwise_append.mp hsorted).2.2 m hm n hpost) ?_
        intro heq
        exact hpre (heq ▸ hm)
  · exact .inr fun m hm => hbeyond m (mem_append_left _ hm)

/-- Once all that comes up to a position of the list is closed, the cursor may move there. -/
theorem Ahead.beyond (h : Ahead isOpen (pre ++ l :: post)) (hsorted : (pre ++ l :: post).Pairwise (· ≤ ·))
    (hclosed : ∀ n, isOpen' n → isOpen n ∧ n ∉ pre ∧ n ≠ l) : Beyond isOpen' l := by
  intro n hn
  obtain ⟨hopen,hpre,hne⟩ := hclosed n hn
  obtain hmem | hbeyond := h n hopen
  · have hpost : n ∈ post := by simpa [hpre,hne] using hmem
    have hle := (pairwise_cons.mp (pairwise_append.mp hsorted).2.1).1 n hpost
    exact lt_of_le_of_ne hle (Ne.symm hne)
  · exact hbeyond l (by simp)

theorem Ahead.rest (h : Ahead isOpen (pre ++ post)) (hclosed : ∀ n, isOpen' n → isOpen n ∧ n ∉ pre) :
    Ahead isOpen' post := by
  intro n hn
  obtain ⟨hopen,hpre⟩ := hclosed n hn
  obtain hmem | hbeyond := h n hopen
  · exact .inl ((mem_append.mp hmem).resolve_left hpre)
  · exact .inr fun m hm => hbeyond m (mem_append_right _ hm)

end TextrpBriij.Cursor
