import Mathlib

/-! # The entries of an association list

An association list has one value for each of its keys, so what a walk over its entries finds
under a key is what is looked up there.
-/
namespace TextrpBriij.Entries
open List Option

variable {K V β : Type} [DecidableEq K] {d : AList fun _ : K => V}

theorem filter_flatMap (key : K) (g : (_ : K) × V → List β) (p : β → Bool)
    (h : ∀ e, e.1 ≠ key → (g e).filter p = []) : (d.entries.flatMap g).filter p =
      (d.lookup key).toList.flatMap fun v => (g ⟨key,v⟩).filter p := by
  obtain ⟨entries,hnodup⟩ := d
  change _ = (entries.dlookup key).toList.flatMap _
  induction entries with
  | nil => rfl
  | cons e rest ih =>
    rw [nodupKeys_cons] at hnodup
    obtain ⟨k,v⟩ := e
    simp only [flatMap_cons,filter_append]
    by_cases hk : k = key
    · subst hk
      have hrest : rest.dlookup k = none := by
        rw [dlookup_eq_none]
        exact hnodup.1
      rw [ih hnodup.2,hrest]
      simp
    · rw [h ⟨k,v⟩ hk,nil_append,ih hnodup.2]
      rw [dlookup_cons_ne _ _ (Ne.symm hk)]

def restrict (d : AList fun _ : K => V) (p : K → V → Bool) : AList fun _ : K => V :=
  ⟨d.entries.filter fun e => p e.1 e.2,d.nodupKeys.sublist filter_sublist⟩

def update (d : AList fun _ : K => V) (toDelete : List K) (toInsert : AList fun _ : K => V) :
    AList fun _ : K => V :=
  toInsert ∪ restrict d fun key _ => key ∉ toDelete

section
variable {W : Type} {d : AList fun _ : K => W}

theorem lookup_eq_some {key : K} {w : W} : d.lookup key = some w ↔ ⟨key,w⟩ ∈ d.entries :=
  AList.mem_lookup_iff

theorem exists_entry {P : (_ : K) × W → Prop} :
    (∃ e ∈ d.entries, P e) ↔ ∃ k w, d.lookup k = some w ∧ P ⟨k,w⟩ := by
  simp only [Sigma.exists,lookup_eq_some]

end

theorem insert_cases {k key : K} {v w : V} (h : (d.insert key v).lookup k = some w) :
    k = key ∧ w = v ∨ k ≠ key ∧ d.lookup k = some w := by
  by_cases hk : k = key
  · subst hk
    cases (AList.lookup_insert _).symm.trans h
    exact .inl ⟨rfl,rfl⟩
  · exact .inr ⟨hk,(AList.lookup_insert_ne hk).symm.trans h⟩

theorem lookup_restrict (p : K → V → Bool) (key : K) :
    (restrict d p).lookup key = (d.lookup key).filter (p key) := by
  apply ext
  intro v
  rw [lookup_eq_some,filter_eq_some_iff,lookup_eq_some,restrict,mem_filter]

theorem lookup_union (d d' : AList fun _ : K => V) (key : K) :
    (d ∪ d').lookup key = (d.lookup key).or (d'.lookup key) := by
  cases h : d.lookup key with
  | none =>
    have hnot : key ∉ d := AList.lookup_eq_none.mp h
    rw [AList.lookup_union_right hnot,none_or]
  | some v =>
    have hin : key ∈ d := AList.lookup_isSome.mp (by rw [h]; rfl)
    rw [AList.lookup_union_left hin,h,some_or]

theorem lookup_update (toDelete : List K) (toInsert : AList fun _ : K => V) (key : K) :
    (update d toDelete toInsert).lookup key =
      (toInsert.lookup key).or (if key ∈ toDelete then none else d.lookup key) := by
  rw [update,lookup_union,lookup_restrict]
  cases d.lookup key <;> simp [Option.filter]

/-- Deleting the keys that are gone and inserting what is different leads to the new entries. -/
theorem lookup_update_difference {new toInsert : AList fun _ : K => V} {toDelete : List K}
    (hdelete : ∀ key, key ∈ toDelete ↔ key ∈ d ∧ key ∉ new)
    (hinsert : ∀ key v, toInsert.lookup key = some v ↔
      new.lookup key = some v ∧ some v ≠ d.lookup key) (key : K) :
    (update d toDelete toInsert).lookup key = new.lookup key := by
  rw [lookup_update]
  cases hin : toInsert.lookup key with
  | some v => rw [some_or,((hinsert key v).mp hin).1]
  | none =>
    cases hnew : new.lookup key with
    | none =>
      have hnot : key ∉ new := AList.lookup_eq_none.mp hnew
      split
      · rfl
      · rename_i hkeep
        by_contra hd
        refine hkeep ((hdelete key).mpr ⟨?_,hnot⟩)
        exact AList.lookup_isSome.mp (isSome_iff_ne_none.mpr hd)
    | some v =>
      have hmem : key ∈ new := AList.lookup_isSome.mp (by rw [hnew]; rfl)
      rw [if_neg fun hdel => ((hdelete key).mp hdel).2 hmem]
      by_contra hne
      have hinserted := (hinsert key v).mpr ⟨hnew,fun heq => hne heq.symm⟩
      rw [hin] at hinserted
      cases hinserted

variable {α : Type}

theorem foldl_insert_cases (k : α → K) (v : α → V) (l : List α) (key : K) : (∃ a ∈ l, k a = key ∧
      (l.foldl (fun d a => d.insert (k a) (v a)) d).lookup key = some (v a)) ∨
    (∀ a ∈ l, k a ≠ key) ∧ (l.foldl (fun d a => d.insert (k a) (v a)) d).lookup key = d.lookup key := by
  induction l using reverseRecOn with
  | nil => exact .inr ⟨by simp,rfl⟩
  | append_singleton l a ih =>
    rw [foldl_append,foldl_cons,foldl_nil]
    by_cases hkey : k a = key
    · refine .inl ⟨a,by simp,hkey,?_⟩
      rw [← hkey,AList.lookup_insert]
    · rw [AList.lookup_insert_ne (Ne.symm hkey)]
      rcases ih with ⟨b,hb,hbkey,hlookup⟩ | ⟨hnone,hlookup⟩
      · exact .inl ⟨b,mem_append_left _ hb,hbkey,hlookup⟩
      · exact .inr ⟨forall_mem_append.mpr ⟨hnone,forall_mem_singleton.mpr hkey⟩,hlookup⟩

theorem lookup_foldl_insert {l : List (K × V)}
    (hfun : ∀ key v v', (key,v) ∈ l → (key,v') ∈ l → v = v') {key : K} {v : V} :
    (l.foldl (fun d entry => d.insert entry.1 entry.2)
      (∅ : AList fun _ : K => V)).lookup key = some v ↔ (key,v) ∈ l := by
  rcases foldl_insert_cases (d := ∅) Prod.fst Prod.snd l key with ⟨entry,hentry,rfl,hlookup⟩ | ⟨hnone,hlookup⟩
  · rw [hlookup,some.injEq]
    constructor
    · rintro rfl
      exact hentry
    · exact hfun _ _ _ hentry
  · rw [hlookup]
    constructor
    · intro h
      cases h
    · intro hv
      exact absurd rfl (hnone _ hv)

/-- A fold each round of which may replace the value at its own key. -/
theorem foldl_or (key : K) (look : β → Option V) {f : β → K → β} {v : Option V}
    (hround : ∀ b k, look (f b k) = if key = k then v.or (look b) else look b) (l : List K) (b : β) :
    look (l.foldl f b) = if key ∈ l then v.or (look b) else look b := by
  induction l generalizing b with
  | nil => simp
  | cons k l ih =>
    rw [foldl_cons,ih,hround]
    by_cases hkey : key = k
    · simp [hkey,← Option.or_assoc]
    · simp [hkey]

theorem find?_eq_some_of_unique {p : α → Bool} {l : List α} (h : ∀ a ∈ l, ∀ b ∈ l, p a → p b → a = b)
    {a : α} : l.find? p = some a ↔ a ∈ l ∧ p a := by
  constructor
  · exact fun hfind => ⟨mem_of_find?_eq_some hfind,find?_some hfind⟩
  · rintro ⟨ha,hp⟩
    obtain ⟨b,hb⟩ := isSome_iff_exists.mp (find?_isSome.mpr ⟨a,ha,hp⟩)
    rw [hb,h b (mem_of_find?_eq_some hb) a ha (find?_some hb) hp]

theorem find?_eq_none_of_notMem {k : α → K} {l : List α} {key : K} (h : key ∉ l.map k) :
    l.find? (fun a => k a = key) = none := by
  rw [find?_eq_none]
  intro a ha hkey
  exact h (mem_map.mpr ⟨a,ha,of_decide_eq_true hkey⟩)

theorem lookup_foldl_upsert (k : α → K) (f : Option V → α → V) {l : List α}
    (hnodup : (l.map k).Nodup) (key : K) :
    (l.foldl (fun d a => d.insert (k a) (f (d.lookup (k a)) a)) d).lookup key =
      match l.find? fun a => k a = key with
      | some a => some (f (d.lookup key) a)
      | none => d.lookup key := by
  induction l generalizing d with
  | nil => rfl
  | cons a l ih =>
    rw [map_cons,nodup_cons] at hnodup
    rw [foldl_cons,ih hnodup.2]
    by_cases hkey : k a = key
    · subst hkey
      rw [find?_eq_none_of_notMem hnodup.1,find?_cons_of_pos (by simp),AList.lookup_insert]
    · rw [find?_cons_of_neg (by simpa using hkey),AList.lookup_insert_ne (Ne.symm hkey)]

theorem find?_entries (key : K) :
    d.entries.find? (fun e => e.1 = key) = (d.lookup key).map fun v => ⟨key,v⟩ := by
  obtain ⟨entries,hnodup⟩ := d
  change entries.find? _ = (entries.dlookup key).map _
  clear hnodup
  induction entries with
  | nil => rfl
  | cons e rest ih =>
    obtain ⟨k,v⟩ := e
    by_cases hk : k = key
    · subst hk
      simp
    · rw [find?_cons_of_neg (by simpa using hk),ih,dlookup_cons_ne _ _ (Ne.symm hk)]

theorem find?_eq_self (l : List K) (key : K) :
    l.find? (fun k => k = key) = if key ∈ l then some key else none := by
  induction l with
  | nil => rfl
  | cons k l ih =>
    by_cases hk : k = key
    · simp [hk]
    · rw [find?_cons_of_neg (by simpa using hk),ih]
      simp [Ne.symm hk]

theorem find?_groups (g : K → β) (k : β → K) (hk : ∀ key, k (g key) = key) (l : List K) (key : K) :
    (l.dedup.map g).find? (fun b => k b = key) = if key ∈ l then some (g key) else none := by
  have hcomp : (fun b => decide (k b = key)) ∘ g = fun k' => decide (k' = key) := by
    funext k'
    simp [hk]
  rw [find?_map,hcomp,find?_eq_self]
  simp [mem_dedup]

theorem sum_eq_find? (k : α → K) (f : α → ℕ) {l : List α} (hnodup : (l.map k).Nodup)
    (key : K) : (l.map fun a => if k a = key then f a else 0).sum =
      ((l.find? fun a => k a = key).map f).getD 0 := by
  induction l with
  | nil => rfl
  | cons a l ih =>
    rw [map_cons,nodup_cons] at hnodup
    rw [map_cons,sum_cons,ih hnodup.2]
    by_cases hkey : k a = key
    · subst hkey
      simp [find?_eq_none_of_notMem hnodup.1]
    · simp [hkey]

def mapValues (f : K → V → V) (d : AList fun _ : K => V) : AList fun _ : K => V :=
  ⟨d.entries.map fun e => ⟨e.1,f e.1 e.2⟩,by
    have hkeys : (d.entries.map fun e => (⟨e.1,f e.1 e.2⟩ : (_ : K) × V)).keys = d.entries.keys := by
      simp [keys]
    unfold NodupKeys
    rw [hkeys]
    exact d.nodupKeys⟩

theorem lookup_mapValues (f : K → V → V) (key : K) :
    (mapValues f d).lookup key = (d.lookup key).map (f key) := by
  apply ext
  intro v
  simp only [map_eq_some_iff,lookup_eq_some,mapValues,List.mem_map]
  constructor
  · rintro ⟨⟨k,u⟩,hin,heq⟩
    cases heq
    exact ⟨u,hin,rfl⟩
  · rintro ⟨u,hin,rfl⟩
    exact ⟨⟨key,u⟩,hin,rfl⟩

def filterMapValues {W : Type} (f : V → Option W) (d : AList fun _ : K => V) : AList fun _ : K => W :=
  ⟨d.entries.filterMap fun e => (f e.2).map fun w => ⟨e.1,w⟩,by
    have hkeys : (d.entries.filterMap fun e => (f e.2).map fun w => (⟨e.1,w⟩ : (_ : K) × W)).keys =
        (d.entries.filter fun e => (f e.2).isSome).keys := by
      induction d.entries with
      | nil => rfl
      | cons e entries ih =>
        rw [filterMap_cons]
        cases hf : f e.2 with
        | none => simpa [hf] using ih
        | some w => simpa [hf] using ih
    unfold NodupKeys
    rw [hkeys]
    exact d.nodupKeys.sublist filter_sublist⟩

theorem lookup_filterMapValues {W : Type} (f : V → Option W) (key : K) :
    (filterMapValues f d).lookup key = (d.lookup key).bind f := by
  apply ext
  intro w
  simp only [bind_eq_some_iff,lookup_eq_some,filterMapValues,mem_filterMap,map_eq_some_iff]
  constructor
  · rintro ⟨⟨k,v⟩,hin,w',hw,heq⟩
    cases heq
    exact ⟨v,hin,hw⟩
  · rintro ⟨v,hin,hw⟩
    exact ⟨⟨key,v⟩,hin,w,hw,rfl⟩

end TextrpBriij.Entries
