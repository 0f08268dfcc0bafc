import TextrpBriij.State.StateMap

/-! # State filters

Which part of a room state is asked for: for some event types all state keys or a set of them,
and of the other types everything or nothing. An SQL clause is the list of its alternatives.
-/
namespace TextrpBriij.Types
open List
open AuthChain (Dict)
open State

/-- A `frozenset` in the order in which it is iterated. -/
abbrev FrozenSet (α : Type) := {elements : List α // elements.Nodup}

structure StateFilter where
  /-- The state keys of each type, `none` for all of them. -/
  types : Dict String (Option (FrozenSet String))
  includeOthers : Bool
  /-- No wildcards with `include_others`, and no empty sets without it. -/
  canonical : ∀ type keys, types.lookup type = some keys →
    if includeOthers then keys ≠ none else keys ≠ some ⟨[],.nil⟩

namespace StateFilter

def make (types : Dict String (Option (FrozenSet String))) (includeOthers : Bool) : StateFilter where
  types := Entries.restrict types fun _ keys =>
    match keys with
    | none => !includeOthers
    | some keys => includeOthers || !keys.1.isEmpty
  includeOthers := includeOthers
  canonical type keys hlookup := by
    rw [Entries.lookup_restrict,Option.filter_eq_some_iff] at hlookup
    obtain ⟨-,hkeys⟩ := hlookup
    cases includeOthers with
    | true =>
      rintro rfl
      simp at hkeys
    | false =>
      rintro rfl
      simp at hkeys

def all : StateFilter := make ∅ true

def none : StateFilter := make ∅ false

variable (f : StateFilter)

def isFull : Bool := f.includeOthers && f.types.entries.isEmpty

def hasWildcards : Bool :=
  f.includeOthers || f.types.entries.any fun entry => entry.2.isNone

def concreteTypes : List (String × String) :=
  f.types.entries.flatMap fun entry =>
    match entry.2 with
    | some keys => keys.1.map fun key => (entry.1,key)
    | Option.none => []

def maxEntriesReturned : Option ℕ :=
  if f.hasWildcards then Option.none else some f.concreteTypes.length

/-- `key in f` -/
def contains (key : String × String) : Bool :=
  match f.types.lookup key.1 with
  | some (some keys) => decide (key.2 ∈ keys.1)
  | some Option.none => true
  | Option.none => f.includeOthers

def filterState {V : Type} (f : StateFilter) (state : StateMap V) : StateMap V :=
  if f.isFull then state else Entries.restrict state fun key _ => f.contains key

/-- `bool(f)` -/
def nonEmpty : Bool := f.includeOthers || !f.types.entries.isEmpty

inductive Condition where
  | typeIs (type : String)
  | keyIs (type stateKey : String)
  | typeNotIn (types : List String)

def Condition.holds : Condition → String × String → Bool
  | typeIs type, key => key.1 = type
  | keyIs type stateKey, key => key.1 = type && key.2 = stateKey
  | typeNotIn types, key => key.1 ∉ types

def conditionsOf (entry : (_ : String) × Option (FrozenSet String)) : List Condition :=
  match entry.2 with
  | Option.none => [.typeIs entry.1]
  | some keys => keys.1.map fun key => .keyIs entry.1 key

/-- No clause for a full filter, and a clause that nothing meets for an empty one. -/
def makeSqlFilterClause : Option (List Condition) :=
  if f.isFull then Option.none
  else if !f.includeOthers && f.types.entries.isEmpty then some []
  else
    let clauses := f.types.entries.flatMap conditionsOf
    some (if f.includeOthers then clauses ++ [.typeNotIn f.types.keys] else clauses)

def meets (clause : Option (List Condition)) (key : String × String) : Bool :=
  match clause with
  | Option.none => true
  | some conditions => conditions.any (·.holds key)

def matched (typeDict : Dict String (Option (FrozenSet String))) (key : String × String) : Bool :=
  match typeDict.lookup key.1 with
  | some (some keys) => decide (key.2 ∈ keys.1)
  | some Option.none => true
  | Option.none => false

variable {f} {key : String × String}

theorem any_conditionsOf {entries : List ((_ : String) × Option (FrozenSet String))}
    (hnodup : entries.NodupKeys) :
    (entries.flatMap conditionsOf).any (·.holds key) = matched ⟨entries,hnodup⟩ key := by
  unfold matched AList.lookup
  induction entries with
  | nil => rfl
  | cons entry rest ih =>
    rw [nodupKeys_cons] at hnodup
    obtain ⟨type,keys⟩ := entry
    rw [flatMap_cons,any_append,ih hnodup.2]
    dsimp only
    by_cases htype : key.1 = type
    · subst htype
      have hrest : rest.dlookup key.1 = Option.none := dlookup_eq_none.mpr hnodup.1
      rw [hrest]
      cases keys with
      | none => simp [conditionsOf,Condition.holds]
      | some keys =>
        rw [Bool.eq_iff_iff]
        simp [conditionsOf,Condition.holds]
    · have hnone : (conditionsOf ⟨type,keys⟩).any (·.holds key) = false := by
        cases keys <;> simp [conditionsOf,Condition.holds,htype]
      rw [hnone,Bool.false_or,dlookup_cons_ne _ _ htype]

theorem contains_of_isFull (h : f.isFull) : f.contains key := by
  simp only [isFull,Bool.and_eq_true,List.isEmpty_iff] at h
  have hnone : f.types.lookup key.1 = Option.none := by simp [AList.lookup,h.2]
  simp [contains,hnone,h.1]

theorem meets_makeSqlFilterClause : meets f.makeSqlFilterClause key = f.contains key := by
  have hany : _ = matched f.types key := any_conditionsOf f.types.nodupKeys
  have hmem : key.1 ∈ f.types.keys ↔ f.types.lookup key.1 ≠ Option.none := by
    rw [Ne,AList.lookup_eq_none,not_not]
    rfl
  unfold makeSqlFilterClause
  split
  · rename_i hfull
    exact (contains_of_isFull hfull).symm
  split
  · rename_i hempty
    simp only [Bool.and_eq_true,Bool.not_eq_true',List.isEmpty_iff] at hempty
    have hnone : f.types.lookup key.1 = Option.none := by simp [AList.lookup,hempty.2]
    simp [meets,contains,hnone,hempty.1]
  · change (if f.includeOthers then _ else _ : List Condition).any (·.holds key) = _
    unfold matched at hany
    unfold contains
    cases hothers : f.includeOthers with
    | false =>
      rw [if_neg Bool.false_ne_true,hany]
    | true =>
      rw [if_pos rfl,any_append,hany]
      cases hlookup : f.types.lookup key.1 with
      | none => simp [Condition.holds,hmem,hlookup]
      | some keys => cases keys <;> simp [Condition.holds,hmem,hlookup]

theorem contains_all : all.contains key := contains_of_isFull rfl

theorem lookup_filterState {V : Type} (state : StateMap V) :
    (f.filterState state).lookup key = if f.contains key then state.lookup key else Option.none := by
  unfold filterState
  split
  · rename_i hfull
    rw [contains_of_isFull hfull,if_pos rfl]
  · rw [Entries.lookup_restrict]
    cases f.contains key <;> cases state.lookup key <;> rfl

theorem mem_concreteTypes : key ∈ f.concreteTypes ↔
    ∃ keys, f.types.lookup key.1 = some (some keys) ∧ key.2 ∈ keys.1 := by
  have hentry : ∀ type keys, ⟨type,keys⟩ ∈ f.types.entries ↔ f.types.lookup type = some keys :=
    fun type keys => AList.mem_lookup_iff.symm
  unfold concreteTypes
  rw [mem_flatMap]
  constructor
  · rintro ⟨⟨type,keys⟩,hin,hkey⟩
    cases keys with
    | none => cases hkey
    | some keys =>
      obtain ⟨stateKey,hstateKey,rfl⟩ := mem_map.mp hkey
      exact ⟨keys,(hentry type _).mp hin,hstateKey⟩
  · rintro ⟨keys,hlookup,hkey⟩
    exact ⟨⟨key.1,some keys⟩,(hentry _ _).mpr hlookup,mem_map.mpr ⟨key.2,hkey,rfl⟩⟩

theorem contains_iff_mem_concreteTypes (h : f.hasWildcards = false) :
    f.contains key ↔ key ∈ f.concreteTypes := by
  simp only [hasWildcards,Bool.or_eq_false_iff,any_eq_false] at h
  obtain ⟨hothers,hwild⟩ := h
  rw [mem_concreteTypes]
  unfold contains
  cases hlookup : f.types.lookup key.1 with
  | none => simp [hothers]
  | some keys =>
    cases keys with
    | some keys => simp
    | none =>
      have hin : ⟨key.1,Option.none⟩ ∈ f.types.entries := AList.mem_lookup_iff.mp hlookup
      exact absurd rfl (hwild _ hin)

def allNonMember : StateFilter := make ((∅ : Dict _ _).insert "m.room.member" (some ⟨[],.nil⟩)) true

def returnExpanded (f : StateFilter) : StateFilter :=
  if f.isFull then f
  else if !f.hasWildcards then f
  else
    let getAllMembers := match f.types.lookup "m.room.member" with
      | some keys => keys.isNone
      | Option.none => f.includeOthers
    let hasNonMemberWildcard := f.includeOthers ||
      f.types.entries.any fun entry => entry.1 ≠ "m.room.member" && entry.2.isNone
    if !hasNonMemberWildcard then f
    else if getAllMembers then all
    else
      match f.types.lookup "m.room.member" with
      | some keys => make ((∅ : Dict _ _).insert "m.room.member" keys) true
      | Option.none => allNonMember

def getMemberSplit (f : StateFilter) : StateFilter × StateFilter :=
  let memberFilter := match f.types.lookup "m.room.member" with
    | some Option.none => all
    | some (some keys) => make ((∅ : Dict _ _).insert "m.room.member" (some keys)) false
    | Option.none => if f.includeOthers then all else none
  (memberFilter,make (Entries.restrict f.types fun type _ => type ≠ "m.room.member") f.includeOthers)

theorem contains_make (types : Dict String (Option (FrozenSet String))) (includeOthers : Bool) :
    (make types includeOthers).contains key =
      match types.lookup key.1 with
      | some (some keys) => decide (key.2 ∈ keys.1)
      | some Option.none => true
      | Option.none => includeOthers := by
  unfold contains
  rw [make,Entries.lookup_restrict]
  cases hlookup : types.lookup key.1 with
  | none => rfl
  | some keys =>
    cases keys with
    | none => cases includeOthers <;> rfl
    | some keys =>
      obtain ⟨elements,hnodup⟩ := keys
      cases includeOthers with
      | true => rfl
      | false => cases elements <;> simp [Option.filter]

theorem contains_member (hkey : key.1 = "m.room.member") :
    f.getMemberSplit.1.contains key = f.contains key := by
  have hcontains : f.contains key = match f.types.lookup "m.room.member" with
      | some (some keys) => decide (key.2 ∈ keys.1)
      | some Option.none => true
      | Option.none => f.includeOthers := by
    rw [contains,hkey]
  rw [hcontains,getMemberSplit]
  cases f.types.lookup "m.room.member" with
  | none =>
    cases f.includeOthers with
    | true => exact contains_all
    | false => rfl
  | some keys =>
    cases keys with
    | none => exact contains_all
    | some keys =>
      rw [contains_make,hkey,AList.lookup_insert]

theorem contains_nonMember (hkey : key.1 ≠ "m.room.member") :
    f.getMemberSplit.2.contains key = f.contains key := by
  have hlookup : (Entries.restrict f.types fun type _ => type ≠ "m.room.member").lookup key.1 =
      f.types.lookup key.1 := by
    rw [Entries.lookup_restrict]
    cases f.types.lookup key.1 <;> simp [hkey]
  unfold getMemberSplit
  rw [contains_make,hlookup]
  rfl

theorem contains_returnExpanded : f.returnExpanded.contains key = f.contains key ∨
    key.1 ≠ "m.room.member" ∧ f.returnExpanded.contains key := by
  unfold returnExpanded
  dsimp only
  split
  · exact .inl rfl
  split
  · exact .inl rfl
  split
  · exact .inl rfl
  by_cases hkey : key.1 = "m.room.member"
  · left
    unfold contains
    rw [hkey]
    cases f.types.lookup "m.room.member" with
    | none => cases f.includeOthers <;> rfl
    | some keys => cases keys <;> rfl
  · have hmake : ∀ keys, (make ((∅ : Dict _ _).insert "m.room.member" keys) true).contains key := by
      intro keys
      rw [contains_make,AList.lookup_insert_ne hkey]
      rfl
    refine .inr ⟨hkey,?_⟩
    cases f.types.lookup "m.room.member" with
    | none => cases f.includeOthers <;> first | exact contains_all | exact hmake _
    | some keys => cases keys <;> first | exact contains_all | exact hmake _

theorem contains_of_mem_concreteTypes (h : key ∈ f.concreteTypes) : f.contains key := by
  obtain ⟨keys,hlookup,hin⟩ := mem_concreteTypes.mp h
  simp [contains,hlookup,hin]

theorem nodup_concreteTypes : f.concreteTypes.Nodup := by
  refine nodup_flatMap.mpr ⟨fun entry _ => ?_,(nodupKeys_iff_pairwise.mp f.types.nodupKeys).imp ?_⟩
  · cases entry.2 with
    | none => exact nodup_nil
    | some keys => exact keys.2.map fun _ _ h => (Prod.mk.inj h).2
  · intro entry other hne key hkey hother
    have htype : ∀ e : (_ : String) × Option (FrozenSet String), key ∈ (match e.2 with
        | some keys => keys.1.map fun key => (e.1,key)
        | Option.none => []) → key.1 = e.1 := by
      intro e h
      split at h
      · obtain ⟨_,-,rfl⟩ := mem_map.mp h
        rfl
      · cases h
    exact hne ((htype entry hkey).symm.trans (htype other hother))

def addType (typeDict : Dict String (Option (FrozenSet String)))
    (entry : String × Option String) : Dict String (Option (FrozenSet String)) :=
  match typeDict.lookup entry.1, entry.2 with
  | some Option.none, _ => typeDict
  | _, Option.none => typeDict.insert entry.1 Option.none
  | some (some keys), some key => typeDict.insert entry.1 (some ⟨keys.1.insert key,keys.2.insert⟩)
  | Option.none, some key => typeDict.insert entry.1 (some ⟨[key],nodup_singleton key⟩)

def fromTypes (types : List (String × Option String)) : StateFilter :=
  make (types.foldl addType ∅) false

theorem matched_addType {typeDict : Dict String (Option (FrozenSet String))}
    {entry : String × Option String} : matched (addType typeDict entry) key ↔
      matched typeDict key ∨ entry = (key.1,Option.none) ∨ entry = (key.1,some key.2) := by
  obtain ⟨type,stateKey⟩ := entry
  obtain ⟨t,k⟩ := key
  by_cases htype : t = type
  · subst htype
    unfold addType matched
    cases hlookup : typeDict.lookup t with
    | none => cases stateKey <;> simp [eq_comm]
    | some keys =>
      cases keys with
      | none => simp [hlookup]
      | some keys =>
        cases stateKey with
        | none => simp
        | some stateKey =>
          simp only [AList.lookup_insert,decide_eq_true_eq]
          simp [eq_comm,or_comm]
  · have hsame : (addType typeDict (type,stateKey)).lookup t = typeDict.lookup t := by
      unfold addType
      split
      · rfl
      · exact AList.lookup_insert_ne htype
      · exact AList.lookup_insert_ne htype
      · exact AList.lookup_insert_ne htype
    simp [matched,hsame,Ne.symm htype]

theorem contains_fromTypes {types : List (String × Option String)} :
    (fromTypes types).contains key ↔ (key.1,Option.none) ∈ types ∨ (key.1,some key.2) ∈ types := by
  have hfold : ∀ typeDict, matched (types.foldl addType typeDict) key ↔
      matched typeDict key ∨ (key.1,Option.none) ∈ types ∨ (key.1,some key.2) ∈ types := by
    induction types with
    | nil => simp
    | cons entry types ih =>
      intro typeDict
      rw [foldl_cons,ih,matched_addType]
      simp only [mem_cons]
      tauto
  have hempty : matched ∅ key = false := rfl
  have hmatched : (fromTypes types).contains key = matched (types.foldl addType ∅) key := by
    rw [fromTypes,contains_make]
    rfl
  rw [hmatched,hfold,hempty]
  simp

/-- The views of a filter agree, whatever asks it. -/
theorem stateFilter_views_agree (f : StateFilter) :
    (∀ (V : Type) (state : StateMap V) key v, (f.filterState state).lookup key = some v ↔
      state.lookup key = some v ∧ f.contains key) ∧
    (∀ key, meets f.makeSqlFilterClause key = f.contains key) ∧
    (∀ key, f.contains key → f.returnExpanded.contains key) ∧
    (∀ key, key.1 = "m.room.member" → f.returnExpanded.contains key = f.contains key ∧
      f.getMemberSplit.1.contains key = f.contains key) ∧
    (∀ key, key.1 ≠ "m.room.member" → f.getMemberSplit.2.contains key = f.contains key) ∧
    ∀ n, f.maxEntriesReturned = some n → {key | f.contains key}.encard = n := by
  refine ⟨fun V state key v => ?_,fun key => meets_makeSqlFilterClause,fun key h => ?_,
    fun key hkey => ⟨?_,contains_member hkey⟩,fun key hkey => contains_nonMember hkey,fun n hn => ?_⟩
  · rw [lookup_filterState]
    cases f.contains key <;> simp
  · exact contains_returnExpanded.elim (·.trans h) (·.2)
  · exact contains_returnExpanded.resolve_right fun h => h.1 hkey
  · unfold maxEntriesReturned at hn
    split at hn
    · cases hn
    · rename_i hwild
      cases hn
      have hkeys : {key | f.contains key} = ↑f.concreteTypes.toFinset := by
        ext key
        simp [contains_iff_mem_concreteTypes (Bool.not_eq_true _ ▸ hwild)]
      rw [hkeys,Set.encard_coe_eq_coe_finsetCard,toFinset_card_of_nodup nodup_concreteTypes]

end StateFilter

end TextrpBriij.Types
