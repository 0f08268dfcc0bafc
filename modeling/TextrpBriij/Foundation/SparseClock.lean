import TextrpBriij.Foundation.Fallible

/-! # Sparse vector clocks

A clock gives each index a value. It is stored as a base value and a finite map of the indices
that are ahead of the base.
-/
namespace TextrpBriij.SparseClock
open List

section maps
variable {ι α β : Type} [DecidableEq ι]

def tabulate (indices : List ι) (f : ι → α) : AList (fun _ : ι => α) :=
  indices.foldl (fun d i => d.insert i (f i)) ∅

def collect (entries : List (Sigma fun _ : ι => α)) (g : α → Option β) : AList (fun _ : ι => β) :=
  entries.foldl (fun d entry =>
    match g entry.2 with
    | some b => d.insert entry.1 b
    | none => d) ∅

theorem lookup_tabulate (indices : List ι) (f : ι → α) (i : ι) :
    (tabulate indices f).lookup i = if i ∈ indices then some (f i) else none := by
  apply Fallible.foldl_spec fun seen (d : AList (fun _ : ι => α)) =>
    d.lookup i = if i ∈ seen then some (f i) else none
  · simp
  · intro seen j _ d _ ih
    by_cases hij : i = j
    · subst hij
      simp
    · simp [ih,hij]

variable {entries : List (Sigma fun _ : ι => α)}

theorem lookup_collect (h : entries.NodupKeys) (g : α → Option β) (i : ι) :
    (collect entries g).lookup i = (entries.dlookup i).bind g := by
  apply Fallible.foldl_spec fun (seen : List (Sigma fun _ : ι => α))
    (d : AList (fun _ : ι => β)) => d.lookup i = (seen.dlookup i).bind g
  · simp
  · intro seen entry rest d heq ih
    obtain ⟨j,a⟩ := entry
    by_cases hij : i = j
    · subst hij
      -- The keys are distinct, so the index was not seen before.
      have hnew : seen.dlookup i = none := by
        rw [dlookup_eq_none]
        intro hmem
        rw [heq,NodupKeys,keys,map_append] at h
        exact (nodup_append.mp h).2.2 i hmem i (by simp) rfl
      rw [dlookup_append,hnew]
      cases hg : g a with
      | none => simp [hg,ih,hnew]
      | some b => simp [hg]
    · rw [dlookup_append,dlookup_cons_ne _ _ hij,dlookup_nil,Option.or_none,← ih]
      cases g a with
      | none => rfl
      | some b => exact AList.lookup_insert_ne hij

theorem lookup_collect_perm {d : AList (fun _ : ι => α)} (h : entries.Perm d.entries) (g : α → Option β)
    (i : ι) : (collect entries g).lookup i = (d.lookup i).bind g := by
  have hnodup : entries.NodupKeys := (perm_nodupKeys h).mpr d.nodupKeys
  rw [lookup_collect hnodup,perm_dlookup i hnodup h]
  rfl

def same [DecidableEq α] (d d' : AList (fun _ : ι => α)) : Bool :=
  (d.keys ++ d'.keys).all fun i => d.lookup i = d'.lookup i

theorem same_iff [DecidableEq α] {d d' : AList (fun _ : ι => α)} :
    same d d' = true ↔ ∀ i, d.lookup i = d'.lookup i := by
  simp only [same,all_eq_true,mem_append,decide_eq_true_eq]
  constructor
  · intro h i
    by_cases hi : i ∈ d.keys ∨ i ∈ d'.keys
    · exact h i hi
    · rw [not_or] at hi
      rw [AList.lookup_eq_none.mpr hi.1,AList.lookup_eq_none.mpr hi.2]
  · intro h i _
    exact h i

end maps

section clocks
variable {ι α : Type} [DecidableEq ι] [LinearOrder α] {base base' : α} {ahead ahead' : AList (fun _ : ι => α)}

def value (base : α) (ahead : AList (fun _ : ι => α)) (i : ι) : α := (ahead.lookup i).getD base

def Ahead (base : α) (ahead : AList (fun _ : ι => α)) : Prop :=
  ∀ i a, ahead.lookup i = some a → base < a

instance decidableAhead : Decidable (Ahead base ahead) :=
  decidable_of_iff (∀ entry ∈ ahead.entries, base < entry.2)
    ⟨fun h i a hlookup => h ⟨i,a⟩ (AList.mem_lookup_iff.mp hlookup),
      fun h entry hentry => h entry.1 entry.2 (AList.mem_lookup_iff.mpr hentry)⟩

theorem ahead_empty (base : α) : Ahead base (∅ : AList (fun _ : ι => α)) := by
  intro i a h
  simp at h

section
variable (h : Ahead base ahead)
include h

theorem Ahead.congr (hlookup : ∀ i, ahead'.lookup i = ahead.lookup i) : Ahead base ahead' := by
  intro i a ha
  rw [hlookup] at ha
  exact h i a ha

theorem Ahead.base_le_value (i : ι) : base ≤ value base ahead i := by
  unfold value
  cases hlookup : ahead.lookup i with
  | none => exact le_rfl
  | some a => exact (h i a hlookup).le

theorem Ahead.lookup_eq (i : ι) :
    ahead.lookup i = if base < value base ahead i then some (value base ahead i) else none := by
  unfold value
  cases hlookup : ahead.lookup i with
  | none => simp
  | some a => simp [h i a hlookup]

theorem Ahead.lookup_eq_of_value_eq (h' : Ahead base ahead')
    (hvalue : ∀ i, value base ahead i = value base ahead' i) (i : ι) :
    ahead.lookup i = ahead'.lookup i := by
  rw [h.lookup_eq,h'.lookup_eq,hvalue]

end

/-- The entries of the map are the values of the function that are ahead of the base. -/
def Stores (base : α) (ahead : AList (fun _ : ι => α)) (f : ι → α) : Prop :=
  ∀ i, ahead.lookup i = if base < f i then some (f i) else none

variable {f : ι → α}

theorem Stores.isAhead (h : Stores base ahead f) : Ahead base ahead := by
  intro i a hlookup
  rw [h i] at hlookup
  split at hlookup
  · rename_i hlt
    cases hlookup
    exact hlt
  · cases hlookup

theorem Stores.value_eq (h : Stores base ahead f) (hle : ∀ i, base ≤ f i) (i : ι) :
    value base ahead i = f i := by
  unfold value
  rw [h i]
  split
  · rfl
  · rename_i hlt
    exact le_antisymm (hle i) (not_lt.mp hlt)

end clocks
end TextrpBriij.SparseClock
