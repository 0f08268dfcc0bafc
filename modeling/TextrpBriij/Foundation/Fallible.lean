import Mathlib

/-! # Computations that may raise

Rules for `Except` and for loops over a list whose body may raise.
-/
namespace TextrpBriij.Fallible
open List
variable {ε σ α β : Type}

@[simp] theorem ok_bind (a : α) (f : α → Except ε β) : (Except.ok a >>= f) = f a := rfl
@[simp] theorem error_bind (e : ε) (f : α → Except ε β) :
    (Except.error e >>= f) = Except.error e := rfl
@[simp] theorem throw_eq (e : ε) : (throw e : Except ε α) = Except.error e := rfl
@[simp] theorem pure_eq (a : α) : (pure a : Except ε α) = Except.ok a := rfl

theorem eq_ok_of_toOption {x : Except ε α} {a : α} (h : x.toOption = some a) : x = .ok a := by
  cases x with
  | error e => cases h
  | ok b => exact congrArg Except.ok (Option.some.inj h)

variable {f : α → Except ε β}

theorem bind_eq_ok {m : Except ε α} {b : β} : (m >>= f) = .ok b ↔ ∃ a, m = .ok a ∧ f a = .ok b := by
  cases m <;> simp

variable {xs : List α}

theorem mapM_eq_ok {g : α → β} (h : ∀ a ∈ xs, f a = .ok (g a)) : xs.mapM f = .ok (xs.map g) := by
  induction xs with
  | nil => rfl
  | cons a xs ih =>
    rw [mapM_cons,h a mem_cons_self,ih fun b hb => h b (mem_cons_of_mem _ hb)]
    rfl

theorem mapM_congr {g : α → Except ε β} (h : ∀ a ∈ xs, f a = g a) : xs.mapM f = xs.mapM g := by
  induction xs with
  | nil => rfl
  | cons a xs ih =>
    rw [mapM_cons,mapM_cons,h a mem_cons_self, ih fun b hb => h b (mem_cons_of_mem _ hb)]

theorem exists_of_mapM_eq_ok {ys : List β}
    (h : xs.mapM f = .ok ys) {a : α} (ha : a ∈ xs) : ∃ b, f a = .ok b := by
  induction xs generalizing ys with
  | nil => cases ha
  | cons x xs ih =>
    rw [mapM_cons,bind_eq_ok] at h
    obtain ⟨b,hb,h⟩ := h
    obtain ⟨bs,hbs,-⟩ := bind_eq_ok.mp h
    rcases mem_cons.mp ha with rfl | ha
    · exact ⟨b,hb⟩
    · exact ih hbs ha

theorem mem_of_mapM_eq_ok {ys : List β} (h : xs.mapM f = .ok ys) {b : β} : b ∈ ys ↔ ∃ a ∈ xs, f a = .ok b := by
  induction xs generalizing ys with
  | nil =>
    cases h
    simp
  | cons x xs ih =>
    rw [mapM_cons,bind_eq_ok] at h
    obtain ⟨c,hc,h⟩ := h
    obtain ⟨bs,hbs,h⟩ := bind_eq_ok.mp h
    cases h
    rw [mem_cons,exists_mem_cons_iff,ih hbs,hc,Except.ok.injEq,@eq_comm _ b c]

theorem forM_eq_ok {f : α → Except ε Unit} : xs.forM f = .ok () ↔ ∀ x ∈ xs, f x = .ok () := by
  induction xs with
  | nil => simp [List.forM]
  | cons a xs ih =>
    rw [List.forM,bind_eq_ok,List.forall_mem_cons,← ih]
    exact ⟨fun ⟨_,ha,h⟩ => ⟨ha,h⟩,fun ⟨ha,h⟩ => ⟨(),ha,h⟩⟩

variable {f : σ → α → Except ε σ}

/-- A loop whose body never raises on a state that satisfies the invariant of the
elements already seen returns a state that satisfies it for the whole list. -/
theorem foldlM_spec (I : List α → σ → Prop) {s : σ} (h0 : I [] s)
    (hstep : ∀ pre a post t, xs = pre ++ a :: post → I pre t →
      ∃ t', f t a = .ok t' ∧ I (pre ++ [a]) t') : ∃ t, xs.foldlM f s = .ok t ∧ I xs t := by
  suffices H : ∀ pre post t, xs = pre ++ post → I pre t →
      ∃ t', post.foldlM f t = .ok t' ∧ I xs t' from H [] xs s rfl h0
  intro pre post
  induction post generalizing pre with
  | nil =>
    intro t he ht
    rw [append_nil] at he
    exact ⟨t,rfl,he ▸ ht⟩
  | cons a post ih =>
    intro t he ht
    obtain ⟨t',hf,ht'⟩ := hstep pre a post t he ht
    obtain ⟨r,hr,hI⟩ := ih (pre ++ [a]) t' (by simpa using he) ht'
    exact ⟨r,by simpa [hf] using hr,hI⟩

theorem foldlM_preserves (I : List α → σ → Prop) {s t : σ} (h : xs.foldlM f s = .ok t) (h0 : I [] s)
    (hstep : ∀ pre a t t', I pre t → f t a = .ok t' → I (pre ++ [a]) t') : I xs t := by
  suffices H : ∀ post pre s, post.foldlM f s = .ok t → I pre s → I (pre ++ post) t from
    H xs [] s h h0
  intro post
  induction post with
  | nil =>
    intro pre s h hI
    cases h
    rwa [append_nil]
  | cons a post ih =>
    intro pre s h hI
    rw [foldlM_cons,bind_eq_ok] at h
    obtain ⟨s',hs',hrest⟩ := h
    rw [← singleton_append,← append_assoc]
    exact ih _ s' hrest (hstep pre a s s' hI hs')

theorem foldlM_eq_ok {g : σ → α → σ} {s : σ}
    (h : ∀ a ∈ xs, ∀ t, f t a = .ok (g t a)) : xs.foldlM f s = .ok (xs.foldl g s) := by
  induction xs generalizing s with
  | nil => rfl
  | cons a xs ih =>
    rw [foldlM_cons,h a mem_cons_self]
    exact ih fun b hb => h b (mem_cons_of_mem _ hb)

theorem foldl_spec {f : σ → α → σ} (I : List α → σ → Prop) {s : σ} (h0 : I [] s)
    (hstep : ∀ pre a post t, xs = pre ++ a :: post → I pre t → I (pre ++ [a]) (f t a)) :
    I xs (xs.foldl f s) := by
  have hok : xs.foldlM (fun t a => .ok (f t a)) s = (.ok (xs.foldl f s) : Except Unit σ) :=
    foldlM_eq_ok fun _ _ _ => rfl
  obtain ⟨t,ht,hI⟩ := foldlM_spec I h0 fun pre a post t he ht => ⟨_,rfl,hstep pre a post t he ht⟩
  cases hok.symm.trans ht
  exact hI

variable {P : ε → Prop} {m : Except ε α} {f : α → Except ε β}

/-- Every error that is raised satisfies the predicate. -/
def RaisesOnly (P : ε → Prop) (m : Except ε α) : Prop := ∀ e, m = .error e → P e

@[simp] theorem raisesOnly_ok (a : α) : RaisesOnly P (.ok a : Except ε α) := by
  intro e h
  cases h

theorem raisesOnly_of_eq_ok {a : α} (h : m = .ok a) : RaisesOnly P m := by
  rw [h]
  exact raisesOnly_ok a

@[simp] theorem raisesOnly_error (e : ε) : RaisesOnly P (.error e : Except ε α) ↔ P e := by
  constructor
  · intro h
    exact h e rfl
  · rintro h _ ⟨⟩
    exact h

theorem raisesOnly_bind : RaisesOnly P (m >>= f) ↔ RaisesOnly P m ∧ ∀ a, m = .ok a → RaisesOnly P (f a) := by
  cases m with
  | error e => simp
  | ok a => simp

theorem raisesOnly_check {m : Except ε Unit} {f : Unit → Except ε β} :
    RaisesOnly P (m >>= f) ↔ RaisesOnly P m ∧ (m = .ok () → RaisesOnly P (f ())) := by
  rw [raisesOnly_bind]
  constructor
  · exact fun h => ⟨h.1,h.2 ()⟩
  · exact fun h => ⟨h.1,fun _ => h.2⟩

theorem raisesOnly_ite {c : Prop} [Decidable c] {m n : Except ε α} :
    RaisesOnly P (if c then m else n) ↔ (c → RaisesOnly P m) ∧ (¬c → RaisesOnly P n) := by
  split
  · rename_i h
    simp [h]
  · rename_i h
    simp [h]

theorem exists_ok_of_raisesOnly (h : RaisesOnly P m)
    (hnot : RaisesOnly (fun e => ¬P e) m) : ∃ a, m = .ok a := by
  cases m with
  | ok a => exact ⟨a,rfl⟩
  | error e => exact absurd (h e rfl) (hnot e rfl)

section
variable (hnot : RaisesOnly (fun e => ¬P e) m)
include hnot

/-- What follows a computation that raises no error of a kind is reached if any error that is
raised is of that kind. -/
theorem raisesOnly_bind_iff : RaisesOnly P (m >>= f) ↔ ∃ a, m = .ok a ∧ RaisesOnly P (f a) := by
  cases m with
  | error e => simpa using hnot e rfl
  | ok a => simp

theorem raisesOnly_bind_and {A B : Prop} (hm : RaisesOnly P m ↔ A)
    (hf : ∀ a, RaisesOnly P (f a) ↔ B) : RaisesOnly P (m >>= f) ↔ A ∧ B := by
  rw [raisesOnly_bind_iff hnot,← hm]
  simp only [hf]
  constructor
  · intro h
    obtain ⟨a,ha,hB⟩ := h
    exact ⟨raisesOnly_of_eq_ok ha,hB⟩
  · intro h
    obtain ⟨a,ha⟩ := exists_ok_of_raisesOnly h.1 hnot
    exact ⟨a,ha,h.2⟩

theorem raisesOnly_bind₂ {γ : Type} {n : Except ε β} {f : α → β → Except ε γ} {A B : Prop} {C : α → β → Prop}
    (hm : RaisesOnly P m ↔ A) (hn : RaisesOnly P n ↔ B) (hf : ∀ a b, RaisesOnly P (f a b) ↔ C a b) :
    RaisesOnly P (m >>= fun a => n >>= fun b => f a b) ↔ A ∧ B ∧ ∀ a b, m = .ok a → n = .ok b → C a b := by
  simp only [raisesOnly_bind_iff hnot,raisesOnly_bind,← hm,← hn,hf]
  constructor
  · intro h
    obtain ⟨a,ha,hB,hC⟩ := h
    refine ⟨raisesOnly_of_eq_ok ha,hB,?_⟩
    intro a' b ha' hb
    cases ha.symm.trans ha'
    exact hC b hb
  · intro h
    obtain ⟨a,ha⟩ := exists_ok_of_raisesOnly h.1 hnot
    exact ⟨a,ha,h.2.1,fun b hb => h.2.2 a b ha hb⟩

end

theorem raisesOnly_foldlM {f : σ → α → Except ε σ} {s : σ} (h : ∀ t a, RaisesOnly P (f t a)) :
    RaisesOnly P (xs.foldlM f s) := by
  induction xs generalizing s with
  | nil => exact raisesOnly_ok s
  | cons a xs ih => exact raisesOnly_bind.mpr ⟨h s a,fun _ _ => ih⟩

theorem raisesOnly_forM_append {f : α → Except ε Unit} {ys : List α} :
    RaisesOnly P ((xs ++ ys).forM f) ↔ RaisesOnly P (xs.forM f) ∧
      ((∀ x ∈ xs, f x = .ok ()) → RaisesOnly P (ys.forM f)) := by
  have happend : (xs ++ ys).forM f = (xs.forM f >>= fun _ => ys.forM f) := forM_append
  rw [happend,raisesOnly_check,← forM_eq_ok]

theorem raisesOnly_forM_cons {f : α → Except ε Unit} {x : α} :
    RaisesOnly P ((x :: xs).forM f) ↔ RaisesOnly P (f x) ∧ (f x = .ok () → RaisesOnly P (xs.forM f)) := by
  exact raisesOnly_check

theorem raisesOnly_forM {f : α → Except ε Unit}
    (h : ∀ x ∈ xs, RaisesOnly P (f x)) : RaisesOnly P (xs.forM f) := by
  induction xs with
  | nil => exact raisesOnly_ok ()
  | cons x xs ih =>
    rw [raisesOnly_forM_cons]
    exact ⟨h x mem_cons_self,fun _ => ih fun y hy => h y (mem_cons_of_mem _ hy)⟩

theorem raisesOnly_forM_iff {f : α → Except ε Unit} :
    RaisesOnly P (xs.forM f) ↔ ∀ pre x post, xs = pre ++ x :: post →
      (∀ y ∈ pre, f y = .ok ()) → RaisesOnly P (f x) := by
  constructor
  · rintro h pre x post rfl hpre
    exact (raisesOnly_forM_cons.mp ((raisesOnly_forM_append.mp h).2 hpre)).1
  · intro h
    induction xs with
    | nil => exact raisesOnly_ok ()
    | cons x xs ih =>
      rw [raisesOnly_forM_cons]
      refine ⟨h [] x xs rfl (by simp),fun hx => ih ?_⟩
      intro pre y post heq hpre
      apply h (x :: pre) y post (by rw [heq]; rfl)
      intro z hz
      rcases mem_cons.mp hz with rfl | hz
      · exact hx
      · exact hpre z hz

end TextrpBriij.Fallible
