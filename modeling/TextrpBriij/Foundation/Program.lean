import Mathlib

/-! # Programs over atomic operations

A program is a tree of calls, each with a continuation for every answer. `run`
executes one program alone; `runs` interleaves a family of programs by a schedule,
one call at a time. The rule `runs_safe` reduces a property of every interleaving to
one check of each program against a relation that all of them respect.
-/
namespace TextrpBriij.Program
open Function
open ExceptT (bindCont mk run)
variable {Op : Type} {Res : Op → Type} {ε α β σ ι : Type}

inductive Prog (Op : Type) (Res : Op → Type) (α : Type) where
  | done (a : α)
  | call (op : Op) (k : Res op → Prog Op Res α)

def Prog.bind : Prog Op Res α → (α → Prog Op Res β) → Prog Op Res β
  | .done a, f => f a
  | .call op k, f => .call op (fun r => (k r).bind f)

instance : Monad (Prog Op Res) where
  pure := Prog.done
  bind := Prog.bind

def Prog.returned : Prog Op Res α → Option α
  | .done a => some a
  | .call _ _ => none

abbrev Fallible (Op : Type) (Res : Op → Type) (ε α : Type) := ExceptT ε (Prog Op Res) α

def perform (op : Op) : Fallible Op Res ε (Res op) :=
  mk (.call op (fun r => .done (.ok r)))

variable (handle : (op : Op) → σ → Res op × σ)

def Prog.run : Prog Op Res α → σ → α × σ
  | .done a, s => (a,s)
  | .call op k, s => (k (handle op s).1).run (handle op s).2

theorem Prog.run_bind (m : Prog Op Res α) (f : α → Prog Op Res β) (s : σ) :
    (m.bind f).run handle s = (f (m.run handle s).1).run handle (m.run handle s).2 := by
  induction m generalizing s with
  | done a => rfl
  | call op k ih => exact ih _ _

/-- The outcome together with the state that is left behind. -/
def exec (m : Fallible Op Res ε α) (s : σ) : Except ε α × σ := Prog.run handle (run m) s

@[simp] theorem exec_pure (a : α) (s : σ) :
    exec handle (pure a : Fallible Op Res ε α) s = (.ok a,s) := rfl
@[simp] theorem exec_throw (e : ε) (s : σ) :
    exec handle (throw e : Fallible Op Res ε α) s = (.error e,s) := rfl
@[simp] theorem exec_perform (op : Op) (s : σ) :
    exec handle (perform op : Fallible Op Res ε (Res op)) s = (.ok (handle op s).1,(handle op s).2) := rfl
@[simp] theorem exec_liftExcept (m : Except ε α) (s : σ) :
    exec handle (liftExcept m : Fallible Op Res ε α) s = (m,s) := by
  cases m <;> rfl

theorem exec_bind (m : Fallible Op Res ε α) (f : α → Fallible Op Res ε β) (s : σ) :
    exec handle (m >>= f) s = match exec handle m s with
      | (.ok a,t) => exec handle (f a) t
      | (.error e,t) => (.error e,t) := by
  change ((run m).bind (bindCont f)).run handle s = _
  rw [Prog.run_bind]
  unfold exec
  cases Prog.run handle (run m) s with
  | mk r t => cases r <;> rfl

section
variable {handle} {m : Fallible Op Res ε α} {f : α → Fallible Op Res ε β} {s t u : σ} {a : α} {b : β} {e : ε}

theorem exec_bind_ok (h : exec handle m s = (.ok a,t)) : exec handle (m >>= f) s = exec handle (f a) t := by
  rw [exec_bind,h]

theorem exec_bind_error (h : exec handle m s = (.error e,t)) : exec handle (m >>= f) s = (.error e,t) := by
  rw [exec_bind,h]

theorem exec_bind_eq_ok : exec handle (m >>= f) s = (.ok b,u) ↔
      ∃ a t, exec handle m s = (.ok a,t) ∧ exec handle (f a) t = (.ok b,u) := by
  rw [exec_bind]
  cases exec handle m s with
  | mk r t => cases r <;> simp

theorem exec_bind_eq_error : exec handle (m >>= f) s = (.error e,u) ↔ exec handle m s = (.error e,u) ∨
        ∃ a t, exec handle m s = (.ok a,t) ∧ exec handle (f a) t = (.error e,u) := by
  rw [exec_bind]
  cases exec handle m s with
  | mk r t => cases r <;> simp

theorem exec_liftExcept_bind_eq_ok {m : Except ε α} : exec handle (liftExcept m >>= f) s = (.ok b,u) ↔
      ∃ a, m = .ok a ∧ exec handle (f a) s = (.ok b,u) := by
  rw [exec_bind]
  cases m <;> simp

theorem exec_liftExcept_bind_eq_error {m : Except ε α} : exec handle (liftExcept m >>= f) s = (.error e,u) ↔
      (m = .error e ∧ s = u) ∨ ∃ a, m = .ok a ∧ exec handle (f a) s = (.error e,u) := by
  rw [exec_bind]
  cases m <;> simp

end

/-- A call and the answer that it got. -/
abbrev Event (Op : Type) (Res : Op → Type) := (op : Op) × Res op

/-- What is left of each program, the calls it has made, and the shared state. -/
structure Config (ι Op : Type) (Res : Op → Type) (α σ : Type) where
  threads : ι → Prog Op Res α
  history : ι → List (Event Op Res)
  state : σ

def start (threads : ι → Prog Op Res α) (s : σ) : Config ι Op Res α σ := ⟨threads,fun _ => [],s⟩

variable [DecidableEq ι]

/-- Program `i` makes its next call; a finished program does nothing. -/
def step (c : Config ι Op Res α σ) (i : ι) : Config ι Op Res α σ :=
  match c.threads i with
  | .done _ => c
  | .call op k =>
    { threads := update c.threads i (k (handle op c.state).1)
      history := update c.history i (c.history i ++ [⟨op,(handle op c.state).1⟩])
      state := (handle op c.state).2 }

def runs (c : Config ι Op Res α σ) (schedule : List ι) : Config ι Op Res α σ :=
  schedule.foldl (step handle) c

variable (guard : List (Event Op Res) → Op → σ → Prop)

def Allowed (c : Config ι Op Res α σ) (i : ι) : Prop :=
  match c.threads i with
  | .done _ => True
  | .call op _ => guard (c.history i) op c.state

/-- Every call made along the schedule meets the guard in the state that it is made in. -/
def Guarded : Config ι Op Res α σ → List ι → Prop
  | _, [] => True
  | c, i :: schedule => Allowed guard c i ∧ Guarded (step handle c i) schedule

instance [∀ h op s, Decidable (guard h op s)] (c : Config ι Op Res α σ) (i : ι) :
    Decidable (Allowed guard c i) :=
  match h : c.threads i with
  | .done _ => isTrue (by simp [Allowed,h])
  | .call op _ => decidable_of_iff (guard (c.history i) op c.state) (by simp [Allowed,h])

instance decidableGuarded [∀ h op s, Decidable (guard h op s)] :
    (c : Config ι Op Res α σ) → (schedule : List ι) → Decidable (Guarded handle guard c schedule)
  | _, [] => isTrue trivial
  | c, i :: schedule => @instDecidableAnd _ _ _ (decidableGuarded (step handle c i) schedule)

def anyCall (_ : List (Event Op Res)) (_ : Op) (_ : σ) : Prop := True

theorem guarded_anyCall (c : Config ι Op Res α σ) (schedule : List ι) : Guarded handle anyCall c schedule := by
  induction schedule generalizing c with
  | nil => exact trivial
  | cons i schedule ih =>
    refine ⟨?_,ih _⟩
    unfold Allowed
    split <;> exact trivial

theorem Guarded.append {c : Config ι Op Res α σ} {xs ys : List ι} (h : Guarded handle guard c (xs ++ ys)) :
    Guarded handle guard c xs ∧ Guarded handle guard (runs handle c xs) ys := by
  induction xs generalizing c with
  | nil => exact ⟨trivial,h⟩
  | cons i xs ih => exact ⟨⟨h.1,(ih h.2).1⟩,(ih h.2).2⟩

theorem runs_append (c : Config ι Op Res α σ) (xs ys : List ι) :
    runs handle c (xs ++ ys) = runs handle (runs handle c xs) ys := List.foldl_append ..

theorem runs_event {c : Config ι Op Res α σ} {schedule : List ι} {i : ι} {e : Event Op Res}
    (he : e ∈ (runs handle c schedule).history i) (h0 : e ∉ c.history i) :
    ∃ earlier later k, schedule = earlier ++ i :: later ∧ (runs handle c earlier).threads i = .call e.1 k ∧
      e.2 = (handle e.1 (runs handle c earlier).state).1 := by
  induction schedule generalizing c with
  | nil => exact absurd he h0
  | cons j schedule ih =>
    by_cases hnew : e ∈ (step handle c j).history i
    · unfold step at hnew
      cases hp : c.threads j with
      | done a => exact absurd (by simpa only [hp] using hnew) h0
      | call op k =>
        simp only [hp] at hnew
        by_cases hj : i = j
        · subst hj
          rw [update_self,List.mem_append,List.mem_singleton] at hnew
          rcases hnew with hold | rfl
          · exact absurd hold h0
          · exact ⟨[],schedule,k,rfl,hp,rfl⟩
        · rw [update_of_ne hj] at hnew
          exact absurd hnew h0
    · obtain ⟨earlier,later,k,hs,ht,ha⟩ := ih he hnew
      exact ⟨j :: earlier,later,k,by rw [hs]; rfl,ht,ha⟩

variable (promise : List (Event Op Res) → Op → σ → Prop) (R : σ → σ → Prop)

/-- However the others have moved the state along `R`, each call that meets the guard
meets the promise and moves the state along `R`, and the result satisfies `Q` from
then on. -/
inductive Prog.Safe (Q : List (Event Op Res) → α → σ → Prop) :
    Prog Op Res α → List (Event Op Res) → σ → Prop
  | done {a h s} (hq : ∀ t, R s t → Q h a t) : Safe Q (.done a) h s
  | call {op k h s} (hr : ∀ t, R s t → guard h op t → promise h op t ∧ R t (handle op t).2)
      (hk : ∀ t, R s t → guard h op t →
        Safe Q (k (handle op t).1) (h ++ [⟨op,(handle op t).1⟩]) (handle op t).2) :
      Safe Q (.call op k) h s

variable {handle guard promise R} {Q : List (Event Op Res) → α → σ → Prop} {P : Op → Prop}
  {m : Prog Op Res α} {f : α → Prog Op Res β} {h : List (Event Op Res)} {s t : σ}
  {c : Config ι Op Res α σ} {i : ι} {schedule : List ι}

theorem Prog.Safe.later [IsTrans σ R] (hm : m.Safe handle guard promise R Q h s) (hr : R s t) :
    m.Safe handle guard promise R Q h t := by
  cases hm with
  | done hq => exact .done (fun u hu => hq u (IsTrans.trans _ _ _ hr hu))
  | call hstep hk =>
    exact .call (fun u hu => hstep u (IsTrans.trans _ _ _ hr hu)) (fun u hu => hk u (IsTrans.trans _ _ _ hr hu))

variable {Q' : List (Event Op Res) → β → σ → Prop}

theorem Prog.Safe.bind [Std.Refl R] (hm : m.Safe handle guard promise R Q h s)
    (hf : ∀ h a s, Q h a s → (f a).Safe handle guard promise R Q' h s) :
    (m.bind f).Safe handle guard promise R Q' h s := by
  induction hm with
  | done hq => exact hf _ _ _ (hq _ (Std.Refl.refl _))
  | call hr _ ih => exact .call hr ih

theorem Prog.Safe.mono {Q' : List (Event Op Res) → α → σ → Prop} (hm : m.Safe handle guard promise R Q h s)
    (hQ : ∀ h a s, Q h a s → Q' h a s) : m.Safe handle guard promise R Q' h s := by
  induction hm with
  | done hq => exact .done (fun t ht => hQ _ _ _ (hq t ht))
  | call hr _ ih => exact .call hr ih

omit [DecidableEq ι] in
theorem Prog.Safe.promised [Std.Refl R] (hi : (c.threads i).Safe handle guard promise R Q (c.history i) c.state)
    (hg : Allowed guard c i) : Allowed promise c i := by
  unfold Allowed at hg ⊢
  cases hp : c.threads i with
  | done a => exact trivial
  | call op k =>
    rw [hp] at hg hi
    cases hi with
    | call hstep _ => exact (hstep c.state (Std.Refl.refl _) hg).1

section
variable [IsTrans σ R] [Std.Refl R] {Q : ι → List (Event Op Res) → α → σ → Prop}
  (hc : ∀ j, (c.threads j).Safe handle guard promise R (Q j) (c.history j) c.state)
include hc

theorem step_safe (hg : Allowed guard c i) :
    R c.state (step handle c i).state ∧ ∀ j, ((step handle c i).threads j).Safe handle guard promise R (Q j)
      ((step handle c i).history j) (step handle c i).state := by
  unfold step
  unfold Allowed at hg
  have hi := hc i
  cases hp : c.threads i with
  | done a => exact ⟨Std.Refl.refl _,hc⟩
  | call op k =>
    rw [hp] at hg hi
    cases hi with
    | call hstep hk =>
      have hr := (hstep c.state (Std.Refl.refl _) hg).2
      refine ⟨hr,fun j => ?_⟩
      by_cases hj : j = i
      · subst hj
        simpa only [update_self] using hk c.state (Std.Refl.refl _) hg
      · simpa only [update_of_ne hj] using (hc j).later hr

/-- Programs that are safe each on its own are safe in every interleaving. -/
theorem runs_safe (hg : Guarded handle guard c schedule) : R c.state (runs handle c schedule).state ∧
      ∀ j, ((runs handle c schedule).threads j).Safe handle guard promise R (Q j)
        ((runs handle c schedule).history j) (runs handle c schedule).state := by
  induction schedule generalizing c with
  | nil => exact ⟨Std.Refl.refl _,hc⟩
  | cons i schedule ih =>
    obtain ⟨hr,hs⟩ := step_safe hc hg.1
    obtain ⟨hr',hs'⟩ := ih hs hg.2
    exact ⟨IsTrans.trans _ _ _ hr hr',hs'⟩

theorem runs_promised (hg : Guarded handle guard c schedule) : Guarded handle promise c schedule := by
  induction schedule generalizing c with
  | nil => exact trivial
  | cons i schedule ih => exact ⟨(hc i).promised hg.1,ih (step_safe hc hg.1).2 hg.2⟩

end

theorem Prog.Safe.result [Std.Refl R] {a : α}
    (hm : m.Safe handle guard promise R Q h s) (hd : m.returned = some a) : Q h a s := by
  cases hm with
  | done hq =>
    cases hd
    exact hq s (Std.Refl.refl s)
  | call => cases hd

/-- No restriction on how the state moves: for properties of the answers alone. -/
def Unrelated : σ → σ → Prop := fun _ _ => True

instance : IsTrans σ (Unrelated : σ → σ → Prop) := ⟨fun _ _ _ _ _ => trivial⟩
instance : Std.Refl (Unrelated : σ → σ → Prop) := ⟨fun _ => trivial⟩

inductive Prog.Uses (P : Op → Prop) : Prog Op Res α → Prop
  | done {a} : Uses P (.done a)
  | call {op k} (hop : P op) (hk : ∀ r, Uses P (k r)) : Uses P (.call op k)

theorem Prog.Uses.bind (hm : m.Uses P) (hf : ∀ a, (f a).Uses P) : (m.bind f).Uses P := by
  induction hm with
  | done => exact hf _
  | call hop _ ih => exact .call hop ih

theorem Prog.uses_of_forall (h : ∀ op, P op) (m : Prog Op Res α) : m.Uses P := by
  induction m with
  | done a => exact .done
  | call op k ih => exact .call (h op) ih

/-- What holds of the calls made so far, and stays true as calls are added, holds when
a program that only moves the state along `R` has finished. -/
theorem Prog.Uses.safe {P : List (Event Op Res) → Prop} (hP : ∀ h e, P h → P (h ++ [e]))
    (hm : m.Uses (fun op => ∀ h s, promise h op s ∧ R s (handle op s).2)) (s : σ) (h0 : P h) :
    m.Safe handle guard promise R (fun h _ _ => P h) h s := by
  induction hm generalizing h s with
  | done => exact .done (fun _ _ => h0)
  | call hop _ ih => exact .call (fun t _ _ => hop h t) (fun t _ _ => ih _ _ (hP h _ h0))

/-- The postcondition `Q` of the returned values, with nothing asked of a raise. -/
def Returns (Q : List (Event Op Res) → α → σ → Prop) (h : List (Event Op Res))
    (r : Except ε α) (s : σ) : Prop := ∀ a, r = .ok a → Q h a s

abbrev SafeReturn (handle : (op : Op) → σ → Res op × σ)
    (guard promise : List (Event Op Res) → Op → σ → Prop) (R : σ → σ → Prop)
    (Q : List (Event Op Res) → α → σ → Prop) (m : Fallible Op Res ε α)
    (h : List (Event Op Res)) (s : σ) : Prop :=
  Prog.Safe handle guard promise R (Returns Q) (run m) h s

variable {m : Fallible Op Res ε α} {f : α → Fallible Op Res ε β}

theorem SafeReturn.bind [Std.Refl R] (hm : SafeReturn handle guard promise R Q m h s)
    (hf : ∀ h a s, Q h a s → SafeReturn handle guard promise R Q' (f a) h s) :
    SafeReturn handle guard promise R Q' (m >>= f) h s := by
  refine Prog.Safe.bind (f := bindCont f) hm ?_
  intro h r s hr
  cases r with
  | ok a => exact hf h a s (hr a rfl)
  | error e => exact .done (fun t _ a ha => nomatch ha)

theorem SafeReturn.liftExcept_bind {m : Except ε α}
    (hf : ∀ a, m = .ok a → SafeReturn handle guard promise R Q' (f a) h s) :
    SafeReturn handle guard promise R Q' (liftExcept m >>= f) h s := by
  cases m with
  | error e => exact .done (fun _ _ _ ha => nomatch ha)
  | ok a => exact hf a rfl

theorem SafeReturn.perform_bind {op : Op} {f : Res op → Fallible Op Res ε β}
    (hop : ∀ t, R s t → guard h op t → (promise h op t ∧ R t (handle op t).2) ∧
      SafeReturn handle guard promise R Q' (f (handle op t).1) (h ++ [⟨op,(handle op t).1⟩]) (handle op t).2) :
    SafeReturn handle guard promise R Q' (perform op >>= f) h s :=
  .call (fun t ht hg => (hop t ht hg).1) (fun t ht hg => (hop t ht hg).2)

theorem SafeReturn.history {P : List (Event Op Res) → Prop} (hP : ∀ h e, P h → P (h ++ [e]))
    (hm : (run m).Uses (fun op => ∀ h s, promise h op s ∧ R s (handle op s).2)) (s : σ) (h0 : P h) :
    SafeReturn handle guard promise R (fun h _ _ => P h) m h s :=
  (hm.safe hP s h0).mono (fun _ _ _ hp _ _ => hp)

theorem SafeReturn.answers {P : List (Event Op Res) → Prop} (hP : ∀ h e, P h → P (h ++ [e]))
    (m : Fallible Op Res ε α) (s : σ) (h0 : P h) :
    SafeReturn handle guard anyCall Unrelated (fun h _ _ => P h) m h s :=
  SafeReturn.history hP (Prog.uses_of_forall (fun _ _ _ => ⟨trivial,trivial⟩) _) s h0

theorem uses_bind (hm : (run m).Uses P) (hf : ∀ a, (run (f a)).Uses P) :
    (run (m >>= f)).Uses P := by
  refine Prog.Uses.bind (f := bindCont f) hm ?_
  intro r
  cases r with
  | ok a => exact hf a
  | error e => exact .done

theorem uses_perform {op : Op} (h : P op) :
    (run (perform op : Fallible Op Res ε (Res op))).Uses P := .call h (fun _ => .done)

theorem uses_liftExcept (m : Except ε α) : (run (liftExcept m : Fallible Op Res ε α)).Uses P := by
  cases m <;> exact .done

theorem SafeReturn.pure {a : α} (hq : ∀ t, R s t → Q h a t) :
    SafeReturn handle guard promise R Q (pure a : Fallible Op Res ε α) h s := by
  refine .done ?_
  rintro t ht _ ⟨⟩
  exact hq t ht

theorem SafeReturn.throw {e : ε} : SafeReturn handle guard promise R Q (throw e : Fallible Op Res ε α) h s :=
  .done (fun _ _ _ ha => nomatch ha)

theorem SafeReturn.liftExcept {m : Except ε α} (hq : ∀ a, m = .ok a → ∀ t, R s t → Q h a t) :
    SafeReturn handle guard promise R Q (liftExcept m : Fallible Op Res ε α) h s := by
  cases m with
  | error e => exact SafeReturn.throw
  | ok a => exact SafeReturn.pure (hq a rfl)

theorem SafeReturn.perform (op : Op) {Q : List (Event Op Res) → Res op → σ → Prop}
    (hop : ∀ t, R s t → guard h op t → (promise h op t ∧ R t (handle op t).2) ∧
      ∀ u, R (handle op t).2 u → Q (h ++ [⟨op,(handle op t).1⟩]) (handle op t).1 u) :
    SafeReturn handle guard promise R Q (perform op : Fallible Op Res ε (Res op)) h s := by
  refine .call (fun t ht hg => (hop t ht hg).1) (fun t ht hg => .done ?_)
  rintro u hu _ ⟨⟩
  exact (hop t ht hg).2 u hu

end TextrpBriij.Program
