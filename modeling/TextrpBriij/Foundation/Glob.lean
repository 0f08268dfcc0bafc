import Mathlib

/-! # Patterns with wildcards

A pattern is a list of literals and of wildcards for one symbol or for any number of them. The
wildcards may be restricted to some symbols, which makes a difference only for texts with more of
the other symbols than the pattern has.
-/
namespace TextrpBriij.Glob
open List

variable {α β : Type}

inductive Token (α : Type) where
  | one
  | many
  | lit (a : α)

def Token.isOne : Token α → Bool
  | one => true
  | _ => false

def Token.isMany : Token α → Bool
  | many => true
  | _ => false

@[simp] theorem isOne_one : (Token.one : Token α).isOne := rfl
@[simp] theorem isOne_many : (Token.many : Token α).isOne = false := rfl
@[simp] theorem isOne_lit {a : α} : (Token.lit a).isOne = false := rfl
@[simp] theorem isMany_one : (Token.one : Token α).isMany = false := rfl
@[simp] theorem isMany_many : (Token.many : Token α).isMany := rfl
@[simp] theorem isMany_lit {a : α} : (Token.lit a).isMany = false := rfl

def Token.isWild (t : Token α) : Bool := t.isOne || t.isMany

/-- The pattern matches the text, where wildcards stand for symbols in `P`. -/
inductive Matches (P : β → Prop) (R : α → β → Prop) : List (Token α) → List β → Prop where
  | nil : Matches P R [] []
  | one {b : β} {g : List (Token α)} {s : List β} :
      P b → Matches P R g s → Matches P R (.one :: g) (b :: s)
  | many {run : List β} {g : List (Token α)} {s : List β} :
      (∀ b ∈ run, P b) → Matches P R g s → Matches P R (.many :: g) (run ++ s)
  | lit {a : α} {b : β} {g : List (Token α)} {s : List β} :
      R a b → Matches P R g s → Matches P R (.lit a :: g) (b :: s)

variable {P : β → Prop} {R : α → β → Prop} {g g' : List (Token α)} {s : List β}

theorem matches_nil : Matches P R [] s ↔ s = [] := by
  constructor
  · intro h
    cases h
    rfl
  · rintro rfl
    exact .nil

theorem matches_one : Matches P R (.one :: g) s ↔ ∃ b t, s = b :: t ∧ P b ∧ Matches P R g t := by
  constructor
  · intro h
    cases h with
    | one hb h => exact ⟨_,_,rfl,hb,h⟩
  · rintro ⟨b,t,rfl,hb,h⟩
    exact .one hb h

theorem matches_many :
    Matches P R (.many :: g) s ↔ ∃ run t, s = run ++ t ∧ (∀ b ∈ run, P b) ∧ Matches P R g t := by
  constructor
  · intro h
    cases h with
    | many hrun h => exact ⟨_,_,rfl,hrun,h⟩
  · rintro ⟨run,t,rfl,hrun,h⟩
    exact .many hrun h

theorem matches_lit {a : α} : Matches P R (.lit a :: g) s ↔ ∃ b t, s = b :: t ∧ R a b ∧ Matches P R g t := by
  constructor
  · intro h
    cases h with
    | lit hab h => exact ⟨_,_,rfl,hab,h⟩
  · rintro ⟨b,t,rfl,hab,h⟩
    exact .lit hab h

theorem matches_append : Matches P R (g ++ g') s ↔
    ∃ t t', s = t ++ t' ∧ Matches P R g t ∧ Matches P R g' t' := by
  induction g generalizing s with
  | nil =>
    constructor
    · exact fun h => ⟨[],s,rfl,.nil,h⟩
    · rintro ⟨t,t',rfl,h,h'⟩
      obtain rfl := matches_nil.mp h
      exact h'
  | cons token g ih =>
    constructor
    · intro h
      cases h with
      | one hb h =>
        obtain ⟨t,t',rfl,h,h'⟩ := ih.mp h
        exact ⟨_ :: t,t',rfl,.one hb h,h'⟩
      | many hrun h =>
        obtain ⟨t,t',rfl,h,h'⟩ := ih.mp h
        exact ⟨_ ++ t,t',(append_assoc ..).symm,.many hrun h,h'⟩
      | lit hab h =>
        obtain ⟨t,t',rfl,h,h'⟩ := ih.mp h
        exact ⟨_ :: t,t',rfl,.lit hab h,h'⟩
    · rintro ⟨t,t',rfl,h,h'⟩
      cases h with
      | one hb h => exact .one hb (ih.mpr ⟨_,t',rfl,h,h'⟩)
      | many hrun h =>
        rw [append_assoc]
        exact .many hrun (ih.mpr ⟨_,t',rfl,h,h'⟩)
      | lit hab h => exact .lit hab (ih.mpr ⟨_,t',rfl,h,h'⟩)

theorem matches_map_lit {as : List α} : Matches P R (as.map .lit) s ↔ Forall₂ R as s := by
  induction as generalizing s with
  | nil => rw [map_nil,matches_nil,forall₂_nil_left_iff]
  | cons a as ih =>
    rw [map_cons,matches_lit,forall₂_cons_left_iff]
    constructor
    · rintro ⟨b,t,rfl,hab,h⟩
      exact ⟨b,t,hab,ih.mp h,rfl⟩
    · rintro ⟨b,t,hab,h,rfl⟩
      exact ⟨b,t,rfl,hab,ih.mpr h⟩

theorem matches_map {f : β → β} (hP : ∀ b, P (f b) ↔ P b) (hR : ∀ a b, R a (f b) ↔ R a b) :
    Matches P R g (s.map f) ↔ Matches P R g s := by
  induction g generalizing s with
  | nil => rw [matches_nil,matches_nil,map_eq_nil_iff]
  | cons token g ih =>
    cases token with
    | one =>
      rw [matches_one,matches_one]
      constructor
      · rintro ⟨b,t,heq,hb,h⟩
        obtain ⟨c,u,rfl,rfl,rfl⟩ := map_eq_cons_iff.mp heq
        exact ⟨c,u,rfl,(hP c).mp hb,ih.mp h⟩
      · rintro ⟨b,t,rfl,hb,h⟩
        exact ⟨f b,t.map f,rfl,(hP b).mpr hb,ih.mpr h⟩
    | many =>
      rw [matches_many,matches_many]
      constructor
      · rintro ⟨run,t,heq,hrun,h⟩
        obtain ⟨u,v,rfl,rfl,rfl⟩ := map_eq_append_iff.mp heq
        exact ⟨u,v,rfl,fun b hb => (hP b).mp (hrun _ (mem_map_of_mem hb)),ih.mp h⟩
      · rintro ⟨run,t,rfl,hrun,h⟩
        refine ⟨run.map f,t.map f,map_append,?_,ih.mpr h⟩
        intro b hb
        obtain ⟨c,hc,rfl⟩ := mem_map.mp hb
        exact (hP c).mpr (hrun c hc)
    | lit a =>
      rw [matches_lit,matches_lit]
      constructor
      · rintro ⟨b,t,heq,hab,h⟩
        obtain ⟨c,u,rfl,rfl,rfl⟩ := map_eq_cons_iff.mp heq
        exact ⟨c,u,rfl,(hR a c).mp hab,ih.mp h⟩
      · rintro ⟨b,t,rfl,hab,h⟩
        exact ⟨f b,t.map f,rfl,(hR a b).mpr hab,ih.mpr h⟩

/-- The number of symbols that a run of wildcards stands for. -/
def Fits (g : List (Token α)) (n : ℕ) : Prop :=
  if g.any Token.isMany then g.countP Token.isOne ≤ n else g.countP Token.isOne = n

theorem fits_one {n : ℕ} : Fits (.one :: g) (n + 1) ↔ Fits g n := by
  unfold Fits
  rw [any_cons,isMany_one,Bool.false_or,countP_cons_of_pos isOne_one]
  split
  · omega
  · omega

theorem fits_many {n : ℕ} : Fits (.many :: g) n ↔ g.countP Token.isOne ≤ n := by
  unfold Fits
  rw [any_cons,isMany_many,Bool.true_or,if_pos rfl,countP_cons_of_neg (by simp)]

theorem matches_wild (h : ∀ t ∈ g, t.isWild) : Matches P R g s ↔ (∀ b ∈ s, P b) ∧ Fits g s.length := by
  induction g generalizing s with
  | nil =>
    rw [matches_nil]
    constructor
    · rintro rfl
      exact ⟨by simp,rfl⟩
    · exact fun hs => length_eq_zero_iff.mp hs.2.symm
  | cons token g ih =>
    have hrest : ∀ t ∈ g, t.isWild := fun t ht => h t (mem_cons_of_mem _ ht)
    cases token with
    | one =>
      rw [matches_one]
      constructor
      · rintro ⟨b,t,rfl,hb,hg⟩
        obtain ⟨ht,hn⟩ := (ih hrest).mp hg
        exact ⟨forall_mem_cons.mpr ⟨hb,ht⟩,fits_one.mpr hn⟩
      · rintro ⟨hs,hn⟩
        cases s with
        | nil =>
          unfold Fits at hn
          rw [countP_cons_of_pos isOne_one,length_nil] at hn
          split at hn
          · omega
          · omega
        | cons b t =>
          obtain ⟨hb,ht⟩ := forall_mem_cons.mp hs
          exact ⟨b,t,rfl,hb,(ih hrest).mpr ⟨ht,fits_one.mp hn⟩⟩
    | many =>
      rw [matches_many,fits_many]
      constructor
      · rintro ⟨run,t,rfl,hrun,hg⟩
        obtain ⟨ht,hn⟩ := (ih hrest).mp hg
        refine ⟨fun b hb => (mem_append.mp hb).elim (hrun b) (ht b),?_⟩
        rw [length_append]
        unfold Fits at hn
        split at hn
        · omega
        · omega
      · rintro ⟨hs,hn⟩
        -- The first wildcard takes what the others leave.
        refine ⟨s.take (s.length - g.countP Token.isOne),s.drop (s.length - g.countP Token.isOne),
          (take_append_drop ..).symm,fun b hb => hs b (mem_of_mem_take hb),?_⟩
        refine (ih hrest).mpr ⟨fun b hb => hs b (mem_of_mem_drop hb),?_⟩
        rw [length_drop]
        unfold Fits
        split
        · omega
        · omega
    | lit a => exact absurd (h _ mem_cons_self) (by simp [Token.isWild])

section restricted
variable [DecidableEq β] {x : β} {isX : α → Bool}

def Token.isLitOf (isX : α → Bool) : Token α → Bool
  | lit a => isX a
  | _ => false

section
variable (hR : ∀ a b, R a b → (isX a = true ↔ b = x))
include hR

theorem exists_count_lit {a : α} {b : β} (hab : R a b) (g : List (Token α)) (s : List β) :
    ∃ n, (Token.lit a :: g).countP (Token.isLitOf isX) = g.countP (Token.isLitOf isX) + n ∧
      (b :: s).count x = s.count x + n := by
  have hx := hR a b hab
  by_cases hb : b = x
  · exact ⟨1,by simp [Token.isLitOf,hx.mpr hb],by simp [hb]⟩
  · have ha : isX a = false := by simpa [hb] using hx
    exact ⟨0,by simp [Token.isLitOf,ha],by simp [hb]⟩

theorem countP_le_count (h : Matches P R g s) : g.countP (Token.isLitOf isX) ≤ s.count x := by
  induction h with
  | nil => exact Nat.le_refl _
  | one _ _ ih =>
    exact Nat.le_trans ih count_le_count_cons
  | many _ _ ih =>
    rw [countP_cons_of_neg (by simp [Token.isLitOf]),count_append]
    omega
  | @lit a b g s hab _ ih =>
    obtain ⟨n,hg,hs⟩ := exists_count_lit hR hab g s
    omega

theorem matches_ne_iff : Matches (fun b => b ≠ x) R g s ↔
      Matches (fun _ => True) R g s ∧ s.count x = g.countP (Token.isLitOf isX) := by
  constructor
  · intro h
    induction h with
    | nil => exact ⟨.nil,rfl⟩
    | one hb _ ih =>
      refine ⟨.one trivial ih.1,?_⟩
      rw [count_cons_of_ne hb]
      exact ih.2
    | many hrun _ ih =>
      refine ⟨.many (fun _ _ => trivial) ih.1,?_⟩
      rw [count_append,
        count_eq_zero_of_not_mem fun hx => hrun x hx rfl,Nat.zero_add]
      exact ih.2
    | @lit a b g s hab _ ih =>
      obtain ⟨n,hg,hs⟩ := exists_count_lit hR hab g s
      refine ⟨.lit hab ih.1,?_⟩
      omega
  · rintro ⟨h,hcount⟩
    induction h with
    | nil => exact .nil
    | @one b g s _ h ih =>
      have hle := countP_le_count hR h
      rw [countP_cons_of_neg (by simp [Token.isLitOf]),count_cons] at hcount
      have hb : b ≠ x := by
        rintro rfl
        rw [if_pos BEq.rfl] at hcount
        omega
      refine .one hb (ih ?_)
      simpa [hb] using hcount
    | @many run g s _ h ih =>
      have hle := countP_le_count hR h
      rw [countP_cons_of_neg (by simp [Token.isLitOf]),count_append] at hcount
      have hrun : run.count x = 0 := by omega
      refine .many ?_ (ih (by omega))
      rintro b hb rfl
      exact count_eq_zero.mp hrun hb
    | @lit a b g s hab h ih =>
      obtain ⟨n,hg,hs⟩ := exists_count_lit hR hab g s
      exact .lit hab (ih (by omega))

end

end restricted

end TextrpBriij.Glob
