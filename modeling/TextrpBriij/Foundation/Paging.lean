import Mathlib

/-! # Pages of a sorted selection

A list is read page by page. Each page looks at the next rows, up to twice the size of a page,
takes those that a filter keeps, and the next page begins after the last row that was taken. So
a page may stop short when the filter drops all rows that it looks at.
-/
namespace TextrpBriij.Paging
open List

variable {α κ : Type} [LinearOrder κ] {key : α → κ} {rows xs : List α}

def orderBy (key : α → κ) (rows : List α) : List α := rows.mergeSort fun a b => key a ≤ key b

def Increasing (key : α → κ) (rows : List α) : Prop := rows.Pairwise fun a b => key a < key b

instance decidableIncreasing : Decidable (Increasing key rows) :=
  inferInstanceAs (Decidable (Pairwise _ _))

theorem orderBy_perm : (orderBy key rows).Perm rows := mergeSort_perm ..

theorem Increasing.eq_of_perm {ys : List α} (hx : Increasing key xs) (hy : Increasing key ys)
    (h : xs.Perm ys) : xs = ys := by
  apply h.eq_of_pairwise _ hx hy
  intro a b _ _ hab hba
  exact absurd (hab.trans hba) (lt_irrefl _)

theorem orderBy_sorted : (orderBy key rows).Pairwise fun a b => key a ≤ key b := by
  have hle := @pairwise_mergeSort α (fun a b => decide (key a ≤ key b))
    (by simpa using fun a b c => le_trans) (by simpa using fun a b => le_total (key a) (key b)) rows
  simpa [orderBy] using hle

theorem orderBy_increasing (h : (rows.map key).Nodup) : Increasing key (orderBy key rows) := by
  have hne : (orderBy key rows).Pairwise fun a b => key a ≠ key b := by
    have hnodup : ((orderBy key rows).map key).Nodup := (orderBy_perm.map key).nodup_iff.mpr h
    exact pairwise_map.mp hnodup
  exact (orderBy_sorted.and hne).imp fun hab => lt_of_le_of_ne hab.1 hab.2

theorem orderBy_filter (h : (rows.map key).Nodup) (p : α → Bool) :
    orderBy key (rows.filter p) = (orderBy key rows).filter p := by
  apply @Increasing.eq_of_perm _ _ _ key
  · exact orderBy_increasing (h.sublist (filter_sublist.map key))
  · exact (orderBy_increasing h).filter p
  · exact orderBy_perm.trans (orderBy_perm.symm.filter p)

theorem Increasing.key_inj (h : Increasing key rows) {a b : α} (ha : a ∈ rows) (hb : b ∈ rows)
    (hkey : key a = key b) : a = b := by
  have hnodup : (rows.map key).Nodup := pairwise_map.mpr (h.imp ne_of_lt)
  exact inj_on_of_nodup_map hnodup ha hb hkey

theorem orderBy_of_increasing (h : Increasing key rows) : orderBy key rows = rows := by
  apply Increasing.eq_of_perm _ h orderBy_perm
  exact orderBy_increasing (pairwise_map.mpr (h.imp ne_of_lt))

theorem Increasing.filter_lt {pre post : List α} {x : α} (h : Increasing key (pre ++ x :: post)) :
    (pre ++ x :: post).filter (fun y => key x < key y) = post := by
  obtain ⟨-,hpost,hpre⟩ := pairwise_append.mp h
  obtain ⟨hx,-⟩ := pairwise_cons.mp hpost
  have hbefore : pre.filter (fun y => key x < key y) = [] := by
    rw [filter_eq_nil_iff]
    intro y hy
    simpa using (hpre y hy x mem_cons_self).le
  have hafter : post.filter (fun y => key x < key y) = post := by
    rw [filter_eq_self]
    intro y hy
    simpa using hx y hy
  simp [hbefore,hafter]

section scan
variable {p q : α → Bool} {size n : ℕ}

def page (size : ℕ) (p : α → Bool) (rows : List α) : List α :=
  ((rows.take (2 * size)).filter p).take size

/-- What all pages from the rows on hold, if each begins after the last row of the one before. -/
def scanned (key : α → κ) (size : ℕ) (p : α → Bool) : ℕ → List α → List α
  | 0,_ => []
  | fuel + 1,rows =>
    match (page size p rows).getLast? with
    | none => []
    | some last => page size p rows ++
        scanned key size p fuel (rows.filter fun row => key last < key row)

theorem page_prefix : page size p rows <+: rows.filter p :=
  (List.take_prefix _ _).trans ((List.take_prefix _ rows).filter p)

theorem page_congr (h : ∀ row ∈ rows, p row = q row) : page size p rows = page size q rows := by
  unfold page
  rw [filter_congr fun row hrow => h row (mem_of_mem_take hrow)]

variable {last e : α}

theorem exists_cut {taken : List α} (h : taken <+: rows.filter p) (hlast : taken.getLast? = some last) :
    ∃ pre post, rows = pre ++ last :: post ∧ taken = (pre ++ [last]).filter p ∧ p last := by
  obtain ⟨rest,hrest⟩ := h
  obtain ⟨init,rfl⟩ := getLast?_eq_some_iff.mp hlast
  rw [append_assoc] at hrest
  obtain ⟨pre,post,rfl,hpre,hpost⟩ := filter_eq_append_iff.mp hrest.symm
  obtain ⟨skipped,post,rfl,hskipped,hp,-⟩ := filter_eq_cons_iff.mp hpost
  refine ⟨pre ++ skipped,post,by simp,?_,hp⟩
  have hnone : skipped.filter p = [] := by
    rw [filter_eq_nil_iff]
    exact hskipped
  simp [hpre,hnone,hp]

theorem filter_cut (q : α → Bool) (pre : List α) (last : α) (post : List α) :
    (pre ++ last :: post).filter q = (pre ++ [last]).filter q ++ post.filter q := by
  rw [← filter_append,append_assoc,singleton_append]

theorem page_eq_nil (hsize : 1 ≤ size) : page size p rows = [] ↔ (rows.take (2 * size)).filter p = [] := by
  unfold page
  rw [take_eq_nil_iff]
  constructor
  · intro h
    exact h.resolve_left (by omega)
  · exact .inr

def Near (n : ℕ) (p : α → Bool) (rows : List α) : Prop :=
  (rows.take n).filter p = [] → rows.filter p = []

/-- From the start on and after each row that is kept, the next such row is near. -/
structure Spaced (n : ℕ) (p : α → Bool) (rows : List α) : Prop where
  start : Near n p rows
  next : ∀ pre last post, rows = pre ++ last :: post → p last = true → Near n p post

theorem Near.mono {m : ℕ} (h : Near n p rows) (hle : n ≤ m) : Near m p rows := by
  intro hnone
  apply h
  have hpre : rows.take n <+: rows.take m := take_prefix_take_left hle
  exact prefix_nil.mp (hnone ▸ hpre.filter p)

theorem Spaced.mono {m : ℕ} (h : Spaced n p rows) (hle : n ≤ m) : Spaced m p rows :=
  ⟨h.start.mono hle,fun pre last post hrows hlast => (h.next pre last post hrows hlast).mono hle⟩

theorem Spaced.post {pre post : List α} (h : Spaced n p (pre ++ last :: post))
    (hlast : p last) : Spaced n p post := by
  refine ⟨h.next pre last post rfl hlast,?_⟩
  intro pre' last' post' hpost hlast'
  exact h.next (pre ++ last :: pre') last' post' (by simp [hpost]) hlast'

theorem spaced_of_filter_nil (h : rows.filter p = []) : Spaced n p rows := by
  refine ⟨fun _ => h,?_⟩
  intro pre last post hrows hlast
  rw [filter_eq_nil_iff] at h
  exact absurd hlast (h last (by simp [hrows]))

theorem Near.congr (h : Near n p rows) (hsame : ∀ x ∈ rows, p x = q x) : Near n q rows := by
  have htake : (rows.take n).filter q = (rows.take n).filter p :=
    filter_congr fun x hx => (hsame x (mem_of_mem_take hx)).symm
  have hrows : rows.filter q = rows.filter p := filter_congr fun x hx => (hsame x hx).symm
  intro hnone
  rw [hrows]
  exact h (htake ▸ hnone)

theorem Spaced.congr (h : Spaced n p rows) (hsame : ∀ x ∈ rows, p x = q x) : Spaced n q rows := by
  refine ⟨h.start.congr hsame,?_⟩
  intro pre last post hrows hlast
  rw [← hsame last (by simp [hrows])] at hlast
  apply (h.next pre last post hrows hlast).congr
  intro x hx
  exact hsame x (by simp [hrows,hx])

theorem spaced_of_forall (h : ∀ row ∈ rows, p row) : Spaced 2 p rows := by
  have hnear : ∀ rows : List α, (∀ row ∈ rows, p row) → Near 2 p rows := by
    intro rows h hnone
    cases rows with
    | nil => rfl
    | cons row rows =>
      rw [filter_eq_nil_iff] at hnone
      exact absurd (h row mem_cons_self) (hnone row (by simp))
  refine ⟨hnear rows h,?_⟩
  intro pre last post hrows _
  exact hnear post fun row hrow => h row (by simp [hrows,hrow])

theorem spaced_of_length_le (h : rows.length ≤ n) : Spaced n p rows := by
  constructor
  · intro hnone
    rwa [take_of_length_le h] at hnone
  · intro pre last post hrows _ hnone
    have hlength := congrArg length hrows
    rw [length_append,length_cons] at hlength
    rwa [take_of_length_le (by omega)] at hnone

theorem Spaced.cons {pre post : List α} (hpre : pre.filter p = [])
    (hnear : Near n p (pre ++ last :: post)) (hpost : Spaced n p post) :
    Spaced n p (pre ++ last :: post) := by
  refine ⟨hnear,?_⟩
  intro pre' last' post' hrows hlast'
  rcases append_eq_append_iff.mp hrows with ⟨between,rfl,hcut⟩ | ⟨between,rfl,hcut⟩
  · cases between with
    | nil =>
      obtain ⟨rfl,rfl⟩ := cons.inj hcut
      exact hpost.start
    | cons x between =>
      obtain ⟨rfl,rfl⟩ := cons.inj hcut
      exact hpost.next between last' post' rfl hlast'
  · cases between with
    | nil =>
      obtain ⟨rfl,rfl⟩ := cons.inj hcut
      exact hpost.start
    | cons x between =>
      obtain ⟨rfl,-⟩ := cons.inj hcut
      rw [filter_eq_nil_iff] at hpre
      exact absurd hlast' (hpre last' (by simp))

theorem page_cases (size : ℕ) (q : α → Bool) (h : Increasing key rows) :
    (page size q rows = [] ∧ (page size q rows).getLast? = none) ∨
      ∃ pre last post, rows = pre ++ last :: post ∧ q last ∧ page size q rows = (pre ++ [last]).filter q ∧
        (page size q rows).getLast? = some last ∧
        rows.filter (fun row => key last < key row) = post ∧ Increasing key post := by
  cases hlast : (page size q rows).getLast? with
  | none => exact .inl ⟨getLast?_eq_none_iff.mp hlast,rfl⟩
  | some last =>
    obtain ⟨pre,post,hrows,hpage,hq⟩ := exists_cut page_prefix hlast
    refine .inr ⟨pre,last,post,hrows,hq,hpage,rfl,?_,?_⟩
    · rw [hrows]
      exact Increasing.filter_lt (hrows ▸ h)
    · rw [hrows] at h
      exact (pairwise_cons.mp (pairwise_append.mp h).2.1).2

theorem filter_pre_of_page_one {pre post : List α} (hlast : p last)
    (h : page 1 p (pre ++ last :: post) = (pre ++ [last]).filter p) : pre.filter p = [] := by
  have hone : ((pre ++ [last]).filter p).length ≤ 1 := by
    rw [← h]
    exact length_take_le _ _
  rw [filter_append,filter_cons_of_pos hlast] at hone
  exact length_eq_zero_iff.mp (by simpa using hone)

theorem spaced_of_page_one {pre post : List α} (hlast : p last)
    (h : page 1 p (pre ++ last :: post) = (pre ++ [last]).filter p) (hpost : Spaced 2 p post) :
    Spaced 2 p (pre ++ last :: post) := by
  apply Spaced.cons (filter_pre_of_page_one hlast h) _ hpost
  intro hnone
  have hnil : page 1 p (pre ++ last :: post) = [] := (page_eq_nil le_rfl).mpr hnone
  rw [hnil] at h
  simp [hlast] at h

variable {fuel : ℕ}

theorem scanned_prefix (h : Increasing key rows) : scanned key size p fuel rows <+: rows.filter p := by
  induction fuel generalizing rows with
  | zero => exact nil_prefix
  | succ fuel ih =>
    unfold scanned
    rcases page_cases size p h with
      ⟨-,hnone⟩ | ⟨pre,last,post,rfl,hp,hpage,hlast,hpost,hinc⟩
    · simp only [hnone]
      exact nil_prefix
    · simp only [hlast]
      rw [hpage,hpost,filter_cut p pre last post]
      exact (prefix_append_right_inj _).mpr (ih hinc)

theorem scanned_eq_filter (h : Increasing key rows) (hsize : 1 ≤ size)
    (hspaced : Spaced (2 * size) p rows) (hfuel : rows.length ≤ fuel) :
    scanned key size p fuel rows = rows.filter p := by
  induction fuel generalizing rows with
  | zero =>
    rw [length_eq_zero_iff.mp (Nat.le_zero.mp hfuel)]
    rfl
  | succ fuel ih =>
    unfold scanned
    rcases page_cases size p h with
      ⟨hnil,hnone⟩ | ⟨pre,last,post,rfl,hp,hpage,hlast,hpost,hinc⟩
    · simp only [hnone]
      exact (hspaced.start ((page_eq_nil hsize).mp hnil)).symm
    · simp only [hlast]
      have hlength : post.length ≤ fuel := by
        rw [length_append,length_cons] at hfuel
        omega
      rw [hpage,hpost,ih hinc (hspaced.post hp) hlength,filter_cut p pre last post]

theorem spaced_of_scanned (h : Increasing key rows) (hfuel : rows.length ≤ fuel)
    (hall : scanned key 1 p fuel rows = rows.filter p) : Spaced 2 p rows := by
  induction fuel generalizing rows with
  | zero =>
    apply spaced_of_filter_nil
    rw [length_eq_zero_iff.mp (Nat.le_zero.mp hfuel)]
    rfl
  | succ fuel ih =>
    unfold scanned at hall
    rcases page_cases 1 p h with ⟨-,hnone⟩ | ⟨pre,last,post,rfl,hp,hpage,hlast,hpost,hinc⟩
    · simp only [hnone] at hall
      exact spaced_of_filter_nil hall.symm
    · simp only [hlast] at hall
      have hlength : post.length ≤ fuel := by
        rw [length_append,length_cons] at hfuel
        omega
      have hrest : scanned key 1 p fuel post = post.filter p := by
        rw [hpage,hpost,filter_cut p pre last post] at hall
        exact append_cancel_left hall
      exact spaced_of_page_one hp hpage (ih hinc hlength hrest)

def more (size : ℕ) (q : α → Bool) (rows : List α) : Bool :=
  2 * size ≤ rows.length ∨ size < ((rows.take (2 * size)).filter q).length

/-- What all pages hold if the first one has another filter than those after it. -/
def scannedFrom (key : α → κ) (size : ℕ) (q p : α → Bool) (rows : List α) : List α :=
  if more size q rows then
    match (page size q rows).getLast? with
    | none => []
    | some last => page size q rows ++
        scanned key size p rows.length (rows.filter fun row => key last < key row)
  else page size q rows

theorem page_eq_filter (h : more size q rows = false) : page size q rows = rows.filter q := by
  unfold more at h
  rw [decide_eq_false_iff_not,not_or,not_le,not_lt] at h
  unfold page
  have hall : rows.take (2 * size) = rows := take_of_length_le h.1.le
  rw [hall] at h ⊢
  exact take_of_length_le h.2

theorem mem_of_prefix_lt {ys zs : List α} {g : α} (h : Increasing key zs) (hpre : ys <+: zs)
    (hg : g ∈ ys) (he : e ∈ zs) (hlt : key e < key g) : e ∈ ys := by
  obtain ⟨rest,rfl⟩ := hpre
  rcases mem_append.mp he with hys | hrest
  · exact hys
  · have hafter := (pairwise_append.mp h).2.2 g hg e hrest
    exact absurd (hlt.trans hafter) (lt_irrefl _)

section
variable (h : Increasing key rows)
include h

theorem exists_cut_of_scannedFrom (hkept : rows.filter q ≠ []) (hmore : 2 * size ≤ rows.length)
    (hall : scannedFrom key size q p rows = rows.filter q) :
    ∃ pre last post, rows = pre ++ last :: post ∧ q last ∧ page size q rows = (pre ++ [last]).filter q ∧
      rows.filter (fun row => key last < key row) = post ∧ Increasing key post ∧
      scanned key size p rows.length post = post.filter q := by
  unfold scannedFrom at hall
  rw [if_pos (by simp [more,hmore])] at hall
  rcases page_cases size q h with ⟨-,hnone⟩ | ⟨pre,last,post,hrows,hq,hpage,hlast,hpost,hinc⟩
  · simp only [hnone] at hall
    exact absurd hall.symm hkept
  · simp only [hlast] at hall
    refine ⟨pre,last,post,hrows,hq,hpage,hpost,hinc,?_⟩
    have hsplit : rows.filter q = (pre ++ [last]).filter q ++ post.filter q := by
      rw [hrows,filter_cut q pre last post]
    rw [hpage,hpost,hsplit] at hall
    exact append_cancel_left hall

theorem later_kept (hall : ∀ size, 1 ≤ size → scannedFrom key size q p rows = rows.filter q)
    (hmem : last ∈ rows) (hlast : q last) (he : e ∈ rows) (hlt : key last < key e)
    (hp : p e) : q e := by
  have hkept : rows.filter q ≠ [] := by
    intro hnil
    rw [filter_eq_nil_iff] at hnil
    exact hnil last hmem hlast
  have htwo : 2 ≤ rows.length := by
    by_contra hshort
    have hone : rows.length ≤ 1 := by omega
    match rows,hone with
    | [],_ => cases hmem
    | [x],_ =>
      obtain rfl := mem_singleton.mp hmem
      obtain rfl := mem_singleton.mp he
      exact lt_irrefl _ hlt
  -- In both cases a later page is asked for that begins before the row and reaches it.
  by_cases hmore : ∃ g ∈ rows, q g ∧ key e < key g
  · obtain ⟨g,hg,hqg,heg⟩ := hmore
    obtain ⟨pre,k,post,hrows,hqk,hpage,hpost,hinc,hrest⟩ :=
      exists_cut_of_scannedFrom h hkept htwo (hall 1 le_rfl)
    have hfirst : key k ≤ key last := by
      rw [hrows] at hpage hmem h
      have hpre := filter_pre_of_page_one hqk hpage
      rw [filter_eq_nil_iff] at hpre
      rcases mem_append.mp hmem with hbefore | hafter
      · exact absurd hlast (hpre last hbefore)
      · rcases mem_cons.mp hafter with rfl | hafter
        · exact le_rfl
        · exact ((pairwise_cons.mp (pairwise_append.mp h).2.1).1 last hafter).le
    have hin : ∀ x ∈ rows, key e ≤ key x → x ∈ post := by
      intro x hx hle
      rw [← hpost,mem_filter]
      exact ⟨hx,by simpa using (hfirst.trans_lt hlt).trans_le hle⟩
    have hpre : post.filter q <+: post.filter p := hrest ▸ scanned_prefix hinc
    have hfound : e ∈ post.filter q := by
      apply mem_of_prefix_lt (hinc.filter p) hpre _ _ heg
      · exact mem_filter.mpr ⟨hin g hg heg.le,hqg⟩
      · exact mem_filter.mpr ⟨hin e he le_rfl,hp⟩
    exact (mem_filter.mp hfound).2
  · by_contra hq
    obtain ⟨pre,k,post,hrows,hqk,hpage,hpost,hinc,hrest⟩ :=
      exists_cut_of_scannedFrom h hkept (by omega) (hall (rows.length / 2) (by omega))
    have hk : k ∈ rows := by simp [hrows]
    have hke : key k < key e := by
      rcases lt_trichotomy (key k) (key e) with hlt | heq | hgt
      · exact hlt
      · exact absurd (h.key_inj hk he heq ▸ hqk) hq
      · exact absurd ⟨k,hk,hqk,hgt⟩ hmore
    have hin : e ∈ post := by
      rw [← hpost,mem_filter]
      exact ⟨he,by simpa using hke⟩
    have hlength : post.length ≤ 2 * (rows.length / 2) := by
      have htotal := congrArg length hrows
      rw [length_append,length_cons] at htotal
      omega
    have hcover : scanned key (rows.length / 2) p rows.length post = post.filter p := by
      apply scanned_eq_filter hinc (by omega) (spaced_of_length_le hlength)
      omega
    rw [hcover] at hrest
    have hfound : e ∈ post.filter q := by
      rw [← hrest]
      exact mem_filter.mpr ⟨hin,hp⟩
    exact hq (mem_filter.mp hfound).2

/-- The rows that the first filter keeps are found by pages of any size exactly when they are
near to each other, and the second filter keeps no others after the first of them. -/
theorem scannedFrom_complete_iff (himp : ∀ x, q x → p x) :
    (∀ size, 1 ≤ size → scannedFrom key size q p rows = rows.filter q) ↔
      Spaced 2 q rows ∧ ∀ pre last post, rows = pre ++ last :: post → q last → ∀ x ∈ post, p x → q x := by
  constructor
  · intro hall
    have hlater : ∀ pre last post, rows = pre ++ last :: post → q last → ∀ x ∈ post, p x → q x := by
      intro pre last post hrows hlast x hx hp
      have hinc := hrows ▸ h
      have hlt := (pairwise_cons.mp (pairwise_append.mp hinc).2.1).1 x hx
      exact later_kept h hall (by simp [hrows]) hlast (by simp [hrows,hx]) hlt hp
    refine ⟨?_,hlater⟩
    by_cases hkept : rows.filter q = []
    · exact spaced_of_filter_nil hkept
    by_cases hshort : rows.length ≤ 2
    · exact spaced_of_length_le hshort
    obtain ⟨pre,last,post,rfl,hq,hpage,-,hinc,hrest⟩ :=
      exists_cut_of_scannedFrom h hkept (by omega) (hall 1 le_rfl)
    have hagree : ∀ x ∈ post, p x = q x := by
      intro x hx
      exact Bool.eq_iff_iff.mpr ⟨hlater pre last post rfl hq x hx,himp x⟩
    have hspaced : Spaced 2 p post := by
      apply spaced_of_scanned hinc _ (hrest.trans (filter_congr hagree).symm)
      simp
      omega
    exact spaced_of_page_one hq hpage (hspaced.congr hagree)
  · intro hcond size hsize
    unfold scannedFrom
    cases hmore : more size q rows with
    | false => exact page_eq_filter hmore
    | true =>
    rw [if_pos rfl]
    rcases page_cases size q h with ⟨hnil,hnone⟩ | ⟨pre,last,post,rfl,hq,hpage,hlast,hpost,hinc⟩
    · simp only [hnone]
      have hnear := hcond.1.start.mono (show 2 ≤ 2 * size by omega)
      exact (hnear ((page_eq_nil hsize).mp hnil)).symm
    · have hagree : ∀ x ∈ post, q x = p x := by
        intro x hx
        exact Bool.eq_iff_iff.mpr ⟨himp x,hcond.2 pre last post rfl hq x hx⟩
      have hspaced : Spaced (2 * size) p post :=
        ((hcond.1.post hq).congr hagree).mono (by omega)
      simp only [hlast]
      rw [hpage,hpost,scanned_eq_filter hinc hsize hspaced (by simp; omega),
        filter_cut q pre last post,filter_congr hagree]

theorem scanned_fuel {fuel' : ℕ} (hfuel : rows.length ≤ fuel) (hfuel' : rows.length ≤ fuel') :
    scanned key size p fuel rows = scanned key size p fuel' rows := by
  have hnil : ∀ fuel, scanned key size p fuel [] = [] := by
    intro fuel
    cases fuel <;> simp [scanned,page]
  induction fuel generalizing rows fuel' with
  | zero =>
    rw [length_eq_zero_iff.mp (Nat.le_zero.mp hfuel),hnil,hnil]
  | succ fuel ih =>
    cases fuel' with
    | zero => rw [length_eq_zero_iff.mp (Nat.le_zero.mp hfuel'),hnil,hnil]
    | succ fuel' =>
      unfold scanned
      rcases page_cases size p h with ⟨-,hnone⟩ | ⟨pre,last,post,rfl,-,-,hlast,hpost,hinc⟩
      · simp only [hnone]
      · simp only [hlast]
        rw [length_append,length_cons] at hfuel hfuel'
        have hshort : post.length ≤ fuel' := by omega
        rw [hpost,ih hinc (by omega) hshort]

end

theorem scannedFrom_congr {q' : α → Bool} (h : ∀ row ∈ rows, q row = q' row) :
    scannedFrom key size q p rows = scannedFrom key size q' p rows := by
  unfold scannedFrom more
  rw [page_congr h,filter_congr fun row hrow => h row (mem_of_mem_take hrow)]

theorem scannedFrom_self (h : Increasing key rows) (hfuel : rows.length ≤ fuel) :
    scannedFrom key size p p rows = scanned key size p fuel rows := by
  unfold scannedFrom
  cases hmore : more size p rows with
  | true =>
    exact scanned_fuel h (Nat.le_succ _) hfuel
  | false =>
    rw [page_eq_filter hmore]
    have hshort : ¬(2 * size ≤ rows.length) := fun hle => by simp [more,hle] at hmore
    exact (scanned_eq_filter h (by omega) (spaced_of_length_le (by omega)) hfuel).symm

end scan

/-- The pages of repeated calls, each from the token that the call before returned, until one
reports that it was not limited. -/
inductive Paged {τ ε : Type} (call : τ → Except ε (List α × τ × Bool)) : τ → List (List α) → Prop
  | last {t t' : τ} {rows : List α} (h : call t = .ok (rows,t',false)) : Paged call t [rows]
  | more {t t' : τ} {rows : List α} {pages : List (List α)} (h : call t = .ok (rows,t',true))
      (hmore : Paged call t' pages) : Paged call t (rows :: pages)

theorem Paged.unique {τ ε : Type} {call : τ → Except ε (List α × τ × Bool)} {t : τ}
    {pages pages' : List (List α)} (h : Paged call t pages) (h' : Paged call t pages') :
    pages = pages' := by
  induction h generalizing pages' with
  | last h =>
    cases h' with
    | last h' =>
      cases h.symm.trans h'
      rfl
    | more h' _ => cases (Except.ok.inj (h.symm.trans h'))
  | more h _ ih =>
    cases h' with
    | last h' => cases (Except.ok.inj (h.symm.trans h'))
    | more h' hmore' =>
      cases h.symm.trans h'
      rw [ih hmore']

end TextrpBriij.Paging
