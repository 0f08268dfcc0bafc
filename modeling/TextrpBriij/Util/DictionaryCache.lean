import TextrpBriij.AuthChain.CoverIndex

/-! # Dictionary caches

A cache from keys to dictionaries, which may hold the full dictionary of a key and what is known
about single entries of it. What it holds must be true of the dictionaries that it caches; an
eviction only removes entries.
-/
namespace TextrpBriij.Util
open List AList Option
open AuthChain (Dict)

variable {KT DKT DV : Type} [DecidableEq KT] [DecidableEq DKT]

structure DictionaryEntry (DKT DV : Type) [DecidableEq DKT] where
  full : Bool
  knownAbsent : List DKT
  value : Dict DKT DV

structure DictionaryCache (KT DKT DV : Type) [DecidableEq KT] [DecidableEq DKT] where
  /-- From `(key, dict_key)`, with `none` for a key that is known to be absent. -/
  perKey : Dict (KT × DKT) (Option DV)
  /-- From `(key, _FullCacheKey.KEY)`. -/
  fullDict : Dict KT (Dict DKT DV)
  sequence : ℕ

namespace DictionaryCache

def empty : DictionaryCache KT DKT DV := ⟨∅,∅,0⟩

structure Found (DKT DV : Type) [DecidableEq DKT] where
  values : Dict DKT DV
  knownAbsent : List DKT
  missing : List DKT

variable (cache : DictionaryCache KT DKT DV)

def lookUp (key : KT) (found : Found DKT DV) (dictKey : DKT) : Found DKT DV :=
  match cache.perKey.lookup (key,dictKey) with
  | none => { found with missing := found.missing ++ [dictKey] }
  | some none => { found with knownAbsent := found.knownAbsent ++ [dictKey] }
  | some (some value) => { found with values := found.values.insert dictKey value }

def getFullDict (key : KT) : DictionaryEntry DKT DV :=
  match cache.fullDict.lookup key with
  | some entry => ⟨true,[],entry⟩
  | none => ⟨false,[],∅⟩

/-- The entry, and the cache with the keys that were found in the full dictionary. -/
def get (key : KT) (dictKeys : Option (List DKT)) :
    DictionaryEntry DKT DV × DictionaryCache KT DKT DV :=
  match dictKeys with
  | none => (cache.getFullDict key,cache)
  | some dictKeys =>
    let found := dictKeys.foldl (cache.lookUp key) ⟨∅,[],[]⟩
    if found.missing.isEmpty then (⟨false,found.knownAbsent,found.values⟩,cache)
    else
      match cache.fullDict.lookup key with
      | none => (⟨false,found.knownAbsent,found.values⟩,cache)
      | some entry =>
        let perKey := found.missing.foldl
          (fun perKey dictKey => perKey.insert (key,dictKey) (entry.lookup dictKey)) cache.perKey
        let values := found.missing.foldl (fun values dictKey =>
          match entry.lookup dictKey with
          | some value => values.insert dictKey value
          | none => values) found.values
        (⟨true,[],values⟩,{ cache with perKey := perKey })

def updateSubset (key : KT) (value : Dict DKT DV)
    (fetchedKeys : List DKT) : DictionaryCache KT DKT DV :=
  let perKey := value.entries.foldl
    (fun perKey entry => perKey.insert (key,entry.1) (some entry.2)) cache.perKey
  let absent := fetchedKeys.filter fun dictKey => dictKey ∉ value
  { cache with perKey := absent.foldl (fun perKey dictKey => perKey.insert (key,dictKey) none) perKey }

/-- Nothing is stored if the cache was invalidated after the query was started. -/
def update (sequence : ℕ) (key : KT) (value : Dict DKT DV)
    (fetchedKeys : Option (List DKT)) : DictionaryCache KT DKT DV :=
  if cache.sequence = sequence then
    match fetchedKeys with
    | none => { cache with fullDict := cache.fullDict.insert key value }
    | some fetchedKeys => cache.updateSubset key value fetchedKeys
  else cache

def evict (keepKey : KT × DKT → Bool) (keepFull : KT → Bool) : DictionaryCache KT DKT DV :=
  { cache with
    perKey := Entries.restrict cache.perKey fun key _ => keepKey key
    fullDict := Entries.restrict cache.fullDict fun key _ => keepFull key }

/-- What the cache holds is true of the dictionaries of the keys, and it holds nothing of other
keys. -/
structure Agrees (cache : DictionaryCache KT DKT DV) (keys : Set KT) (dict : KT → DKT → Option DV) :
    Prop where
  perKey : ∀ key dictKey value, cache.perKey.lookup (key,dictKey) = some value →
    key ∈ keys ∧ value = dict key dictKey
  fullDict : ∀ key entry, cache.fullDict.lookup key = some entry →
    key ∈ keys ∧ ∀ dictKey, entry.lookup dictKey = dict key dictKey

structure Tells (entry : DictionaryEntry DKT DV) (dict : DKT → Option DV)
    (dictKeys : Option (List DKT)) : Prop where
  value : ∀ dictKey value, entry.value.lookup dictKey = some value → dict dictKey = some value
  knownAbsent : ∀ dictKey ∈ entry.knownAbsent, dict dictKey = none
  full : entry.full = true → ∀ dictKey, (∀ keys ∈ dictKeys, dictKey ∈ keys) →
    entry.value.lookup dictKey = dict dictKey

variable {cache} {keys : Set KT} {dict : KT → DKT → Option DV} {key : KT}

theorem agrees_empty : (empty : DictionaryCache KT DKT DV).Agrees keys dict where
  perKey key dictKey value h := by simp [empty] at h
  fullDict key entry h := by simp [empty] at h

section
variable (h : cache.Agrees keys dict)
include h

theorem Agrees.evict (keepKey : KT × DKT → Bool) (keepFull : KT → Bool) :
    (cache.evict keepKey keepFull).Agrees keys dict where
  perKey key dictKey value hlookup := by
    rw [DictionaryCache.evict,Entries.lookup_restrict,filter_eq_some_iff] at hlookup
    exact h.perKey key dictKey value hlookup.1
  fullDict key entry hlookup := by
    rw [DictionaryCache.evict,Entries.lookup_restrict,filter_eq_some_iff] at hlookup
    exact h.fullDict key entry hlookup.1

theorem Agrees.mono {keys' : Set KT} {dict' : KT → DKT → Option DV}
    (hkeys : keys ⊆ keys') (hdict : ∀ key ∈ keys, ∀ dictKey, dict' key dictKey = dict key dictKey) :
    cache.Agrees keys' dict' where
  perKey key dictKey value hlookup := by
    obtain ⟨hin,hvalue⟩ := h.perKey key dictKey value hlookup
    exact ⟨hkeys hin,hvalue.trans (hdict key hin dictKey).symm⟩
  fullDict key entry hlookup := by
    obtain ⟨hin,hentry⟩ := h.fullDict key entry hlookup
    exact ⟨hkeys hin,fun dictKey => (hentry dictKey).trans (hdict key hin dictKey).symm⟩

theorem Agrees.insertAll {α : Type} (hkey : key ∈ keys) (l : List α)
    (k : α → DKT) (v : α → Option DV) (htrue : ∀ a ∈ l, v a = dict key (k a)) :
    { cache with perKey := l.foldl (fun perKey a => perKey.insert (key,k a) (v a)) cache.perKey }.Agrees
      keys dict where
  perKey key' dictKey value hlookup := by
    rcases Entries.foldl_insert_cases (fun a => (key,k a)) v l (key',dictKey) with
      ⟨a,ha,heq,hinserted⟩ | ⟨-,hold⟩
    · cases heq
      rw [hinserted] at hlookup
      exact ⟨hkey,(some.inj hlookup).symm.trans (htrue a ha)⟩
    · rw [hold] at hlookup
      exact h.perKey key' dictKey value hlookup
  fullDict := h.fullDict

theorem Agrees.update (hkey : key ∈ keys) (sequence : ℕ) {value : Dict DKT DV} {fetchedKeys : Option (List DKT)}
    (hvalue : ∀ dictKey v, value.lookup dictKey = some v → dict key dictKey = some v)
    (hfetched : ∀ dictKey, (∀ fetched ∈ fetchedKeys, dictKey ∈ fetched) →
      value.lookup dictKey = dict key dictKey) :
    (cache.update sequence key value fetchedKeys).Agrees keys dict := by
  unfold DictionaryCache.update
  split
  · cases fetchedKeys with
    | none =>
      refine ⟨h.perKey,fun key' entry hlookup => ?_⟩
      rcases Entries.insert_cases hlookup with ⟨rfl,rfl⟩ | ⟨-,hold⟩
      · exact ⟨hkey,fun dictKey => hfetched dictKey (by simp)⟩
      · exact h.fullDict key' entry hold
    | some fetched =>
      have hvalues := h.insertAll hkey value.entries (·.1) (fun entry => some entry.2) fun entry hentry =>
        (hvalue entry.1 entry.2 (mem_lookup_iff.mpr hentry)).symm
      refine hvalues.insertAll hkey (fetched.filter fun dictKey => dictKey ∉ value) id
        (fun _ => none) fun dictKey hin => ?_
      obtain ⟨hin,hnot⟩ := mem_filter.mp hin
      have hnone : value.lookup dictKey = none := lookup_eq_none.mpr (of_decide_eq_true hnot)
      rw [← hnone]
      exact hfetched dictKey (by simpa using hin)
  · exact h

end

/-- What the loop over some of the requested keys has found. -/
structure Found.Fits (found : Found DKT DV) (dict : DKT → Option DV) (done : List DKT) : Prop where
  values : ∀ dictKey v, found.values.lookup dictKey = some v → dict dictKey = some v
  knownAbsent : ∀ dictKey ∈ found.knownAbsent, dict dictKey = none
  all : ∀ dictKey ∈ done, dictKey ∈ found.missing ∨ found.values.lookup dictKey = dict dictKey

theorem Found.Fits.lookUp (h : cache.Agrees keys dict) {found : Found DKT DV} {done : List DKT}
    (hfound : found.Fits (dict key) done) (dictKey : DKT) :
    (cache.lookUp key found dictKey).Fits (dict key) (done ++ [dictKey]) := by
  unfold DictionaryCache.lookUp
  split
  · refine ⟨hfound.values,hfound.knownAbsent,fun k hk => ?_⟩
    rcases mem_append.mp hk with hk | hk
    · exact (hfound.all k hk).imp_left (mem_append_left _)
    · exact .inl (mem_append_right _ hk)
  · rename_i hlookup
    have habsent := (h.perKey key dictKey none hlookup).2.symm
    refine ⟨hfound.values,forall_mem_append.mpr ⟨hfound.knownAbsent,forall_mem_singleton.mpr habsent⟩,
      forall_mem_append.mpr ⟨hfound.all,forall_mem_singleton.mpr (.inr ?_)⟩⟩
    rw [habsent]
    by_contra hsome
    obtain ⟨v,hv⟩ := ne_none_iff_exists'.mp hsome
    rw [hfound.values dictKey v hv] at habsent
    cases habsent
  · rename_i value hlookup
    have hvalue := (h.perKey key dictKey (some value) hlookup).2.symm
    have hinsert : ∀ k, (found.values.insert dictKey value).lookup k =
        if k = dictKey then dict key k else found.values.lookup k := by
      intro k
      by_cases hk : k = dictKey
      · rw [if_pos hk,hk,lookup_insert,hvalue]
      · rw [if_neg hk,lookup_insert_ne hk]
    refine ⟨fun k v hv => ?_,hfound.knownAbsent,fun k hk => ?_⟩
    · rw [hinsert] at hv
      split at hv
      · exact hv
      · exact hfound.values k v hv
    · rw [hinsert]
      split
      · exact .inr rfl
      · rename_i hne
        rcases mem_append.mp hk with hk | hk
        · exact hfound.all k hk
        · exact absurd (mem_singleton.mp hk) hne

theorem fits_foldl_lookUp (h : cache.Agrees keys dict) (dictKeys : List DKT) :
    (dictKeys.foldl (cache.lookUp key) ⟨∅,[],[]⟩).Fits (dict key) dictKeys := by
  induction dictKeys using reverseRecOn with
  | nil => exact ⟨by simp,by simp,by simp⟩
  | append_singleton done dictKey ih =>
    rw [foldl_append]
    exact ih.lookUp h dictKey

theorem lookup_addMissing (entry : Dict DKT DV) (missing : List DKT) (values : Dict DKT DV)
    (k : DKT) : (missing.foldl (fun values dictKey =>
      match entry.lookup dictKey with
      | some value => values.insert dictKey value
      | none => values) values).lookup k =
      if k ∈ missing then (entry.lookup k).or (values.lookup k) else values.lookup k := by
  induction missing generalizing values with
  | nil => rfl
  | cons dictKey missing ih =>
    rw [foldl_cons,ih]
    by_cases hk : k = dictKey
    · subst hk
      cases hentry : entry.lookup k with
      | none => simp
      | some v => simp
    · cases hentry : entry.lookup dictKey with
      | none => simp [hk]
      | some v => simp [hk]

theorem Agrees.get (h : cache.Agrees keys dict) (key : KT) (dictKeys : Option (List DKT)) :
    Tells (cache.get key dictKeys).1 (dict key) dictKeys ∧ (cache.get key dictKeys).2.Agrees keys dict := by
  cases dictKeys with
  | none =>
    refine ⟨?_,h⟩
    change Tells (cache.getFullDict key) (dict key) none
    unfold getFullDict
    split
    · rename_i entry hlookup
      obtain ⟨-,hentry⟩ := h.fullDict key entry hlookup
      exact ⟨fun k v hv => (hentry k).symm.trans hv,by simp,fun _ k _ => hentry k⟩
    · exact ⟨by simp,by simp,by simp⟩
  | some dictKeys =>
    have hfits : (dictKeys.foldl (cache.lookUp key) ⟨∅,[],[]⟩).Fits (dict key) dictKeys :=
      fits_foldl_lookUp h dictKeys
    unfold DictionaryCache.get
    dsimp only
    generalize dictKeys.foldl (cache.lookUp key) ⟨∅,[],[]⟩ = found at hfits ⊢
    split
    · exact ⟨⟨hfits.values,hfits.knownAbsent,by simp⟩,h⟩
    split
    · exact ⟨⟨hfits.values,hfits.knownAbsent,by simp⟩,h⟩
    · rename_i entry hlookup
      obtain ⟨hin,hentry⟩ := h.fullDict key entry hlookup
      have hor : ∀ k, (entry.lookup k).or (found.values.lookup k) = dict key k := by
        intro k
        rw [hentry]
        cases hdict : dict key k with
        | some v => rfl
        | none =>
          by_contra hsome
          obtain ⟨v,hv⟩ := ne_none_iff_exists'.mp hsome
          rw [hfits.values k v hv] at hdict
          cases hdict
      refine ⟨⟨fun k v hv => ?_,by simp,fun _ k hk => ?_⟩,?_⟩
      · rw [lookup_addMissing,hor] at hv
        split at hv
        · exact hv
        · exact hfits.values k v hv
      · rw [lookup_addMissing,hor]
        split
        · rfl
        · rename_i hnot
          exact (hfits.all k (hk dictKeys rfl)).resolve_left hnot
      · exact h.insertAll hin found.missing id entry.lookup fun k _ => hentry k

end DictionaryCache

end TextrpBriij.Util
