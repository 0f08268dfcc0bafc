import TextrpBriij.Types.StateFilter

/-! # Subtraction of state filters

`approx_difference` works on four parts of a filter: whether it starts from everything, the types
taken away from that, the types added whole and the single keys added. Of each type a filter has
everything or finitely many keys, so the difference is least among the filters that suffice.
-/
namespace TextrpBriij.Types.StateFilter
open List
open AuthChain (Dict)

structure FourParts where
  allPart : Bool
  minusWildcards : List String
  plusWildcards : List String
  plusStateKeys : List (String × String)

def decomposeIntoFourParts (f : StateFilter) : FourParts where
  allPart := f.includeOthers
  minusWildcards := f.types.keys.filter fun _ => f.includeOthers
  plusWildcards := (f.types.entries.filter (·.2.isNone)).map (·.1)
  plusStateKeys := f.concreteTypes

/-- A key of a type that is included whole by `include_others` is left out. -/
def addStateKey (allPart : Bool) (newTypes : Dict String (Option (FrozenSet String)))
    (key : String × String) : Dict String (Option (FrozenSet String)) :=
  if (newTypes.lookup key.1).isSome || !allPart then addType newTypes (key.1,some key.2) else newTypes

def recomposeFromFourParts (parts : FourParts) : StateFilter :=
  let excluded := if parts.allPart then parts.minusWildcards else []
  let newTypes := excluded.foldl (fun types type => types.insert type (some ⟨[],nodup_nil⟩)) ∅
  let newTypes := parts.plusWildcards.foldl (fun types type => types.insert type Option.none) newTypes
  make (parts.plusStateKeys.foldl (addStateKey parts.allPart) newTypes) parts.allPart

def approxDifference (f other : StateFilter) : StateFilter :=
  let self := f.decomposeIntoFourParts
  let other := other.decomposeIntoFourParts
  let newWildcards := self.plusWildcards.filter (· ∉ other.plusWildcards)
  let newConcreteKeys := self.plusStateKeys.filter fun key =>
    key.1 ∉ other.plusWildcards ∧ key ∉ other.plusStateKeys
  if other.allPart then
    let added := if self.allPart then other.minusWildcards.filter (· ∉ self.minusWildcards) else []
    recomposeFromFourParts ⟨false,[],(newWildcards ++ added).filter (· ∈ other.minusWildcards),
      newConcreteKeys.filter (·.1 ∈ other.minusWildcards)⟩
  else recomposeFromFourParts
    ⟨self.allPart,self.minusWildcards ++ other.plusWildcards,newWildcards,newConcreteKeys⟩

variable {f other : StateFilter} {parts : FourParts} {key : String × String} {allPart : Bool}
  {types : Dict String (Option (FrozenSet String))}

theorem lookup_foldl_insert {keys : Option (FrozenSet String)} {l : List String} {type : String} :
    (l.foldl (fun types type => types.insert type keys) types).lookup type =
      if type ∈ l then some keys else types.lookup type := by
  rcases Entries.foldl_insert_cases id (fun _ => keys) l type with ⟨a,ha,ht,h⟩ | ⟨hnone,h⟩
  · rw [if_pos (ht ▸ ha)]
    exact h
  · rw [if_neg fun hin => hnone _ hin rfl]
    exact h

theorem contains_addStateKey {added : String × String} :
    (make (addStateKey allPart types added) allPart).contains key ↔
      (make types allPart).contains key ∨ key = added := by
  obtain ⟨type,stateKey⟩ := added
  obtain ⟨t,k⟩ := key
  by_cases htype : t = type
  · subst htype
    unfold addStateKey addType
    cases hlookup : types.lookup t with
    | none => cases allPart <;> simp [contains_make,hlookup]
    | some keys => cases keys <;> simp [contains_make,hlookup,or_comm]
  · have hsame : (addStateKey allPart types (type,stateKey)).lookup t = types.lookup t := by
      unfold addStateKey addType
      split_ifs
      · split <;> first | rfl | exact AList.lookup_insert_ne htype
      · rfl
    simp [contains_make,hsame,htype]

/-- Every key of the type is matched. -/
def FourParts.Wild (parts : FourParts) (type : String) : Prop :=
  (parts.allPart ∧ type ∉ parts.minusWildcards) ∨ type ∈ parts.plusWildcards

theorem contains_recompose : (recomposeFromFourParts parts).contains key ↔
    parts.Wild key.1 ∨ key ∈ parts.plusStateKeys := by
  have hkeys : ∀ types (l : List (String × String)),
      (make (l.foldl (addStateKey parts.allPart) types) parts.allPart).contains key ↔
        (make types parts.allPart).contains key ∨ key ∈ l := by
    intro types l
    induction l generalizing types with
    | nil => simp
    | cons added l ih => rw [foldl_cons,ih,contains_addStateKey,mem_cons,or_assoc]
  unfold recomposeFromFourParts FourParts.Wild
  rw [hkeys,contains_make,lookup_foldl_insert,lookup_foldl_insert]
  split_ifs <;> simp_all

theorem contains_iff (f : StateFilter) (key : String × String) :
    (f.contains key ↔ f.decomposeIntoFourParts.Wild key.1 ∨ key ∈ f.decomposeIntoFourParts.plusStateKeys) ∧
    (key ∈ f.decomposeIntoFourParts.plusStateKeys → ¬f.decomposeIntoFourParts.Wild key.1) ∧
    if f.includeOthers then f.decomposeIntoFourParts.plusWildcards = []
    else f.decomposeIntoFourParts.minusWildcards = [] := by
  have hplus : ∀ type, type ∈ f.decomposeIntoFourParts.plusWildcards ↔
      f.types.lookup type = some Option.none := by
    intro type
    rw [← Option.mem_def,AList.mem_lookup_iff]
    simp [decomposeIntoFourParts]
  have hminus : ∀ type, type ∈ f.decomposeIntoFourParts.minusWildcards ↔
      f.includeOthers ∧ f.types.lookup type ≠ Option.none := by
    simp [decomposeIntoFourParts,AList.mem_keys,AList.lookup_eq_none,and_comm]
  have hkeys : key ∈ f.decomposeIntoFourParts.plusStateKeys ↔ _ := mem_concreteTypes
  have hall : f.decomposeIntoFourParts.allPart = f.includeOthers := rfl
  unfold FourParts.Wild contains
  refine ⟨by grind,by grind,?_⟩
  split
  · rename_i hothers
    refine eq_nil_iff_forall_not_mem.mpr fun type hin => ?_
    have hcanonical := f.canonical type _ ((hplus type).mp hin)
    rw [if_pos hothers] at hcanonical
    exact hcanonical rfl
  · rename_i hothers
    exact eq_nil_iff_forall_not_mem.mpr fun type hin => hothers ((hminus type).mp hin).1

theorem contains_approxDifference : (f.approxDifference other).contains key ↔
    f.contains key ∧ ¬other.decomposeIntoFourParts.Wild key.1 ∧
      (f.decomposeIntoFourParts.Wild key.1 ∨ ¬other.contains key) := by
  obtain ⟨hf,hfkeys,hfnil⟩ := f.contains_iff key
  obtain ⟨hother,hotherkeys,hothernil⟩ := other.contains_iff key
  unfold approxDifference
  dsimp only
  split <;> rw [contains_recompose] <;> unfold FourParts.Wild at * <;> grind

theorem exists_unlisted (l : List (String × String)) (type : String) : ∃ k, (type,k) ∉ l := by
  obtain ⟨k,hk⟩ := Infinite.exists_notMem_finset (l.map (·.2)).toFinset
  exact ⟨k,fun hin => hk (mem_toFinset.mpr (mem_map_of_mem hin))⟩

theorem approxDifference_tight (f other : StateFilter) :
    (∀ key, f.contains key → ¬other.contains key → (f.approxDifference other).contains key) ∧
    (∀ key, (f.approxDifference other).contains key → f.contains key) ∧
    (∀ g : StateFilter, (∀ key, f.contains key → ¬other.contains key → g.contains key) →
      ∀ key, (f.approxDifference other).contains key → g.contains key) ∧
    ∀ key, (recomposeFromFourParts f.decomposeIntoFourParts).contains key ↔ f.contains key := by
  refine ⟨fun key hin hout => ?_,fun key h => (contains_approxDifference.mp h).1,fun g hg key h => ?_,
    fun key => contains_recompose.trans (f.contains_iff key).1.symm⟩
  · refine contains_approxDifference.mpr ⟨hin,fun hwild => hout ?_,.inr hout⟩
    exact (other.contains_iff key).1.mpr (.inl hwild)
  · obtain ⟨hin,hwild,hwhole | hout⟩ := contains_approxDifference.mp h
    · obtain ⟨k,hk⟩ := exists_unlisted (other.decomposeIntoFourParts.plusStateKeys ++
        g.decomposeIntoFourParts.plusStateKeys) key.1
      rw [mem_append,not_or] at hk
      have hother : ¬other.contains (key.1,k) := by
        rw [(other.contains_iff _).1,not_or]
        exact ⟨hwild,hk.1⟩
      have hgk := hg (key.1,k) ((f.contains_iff _).1.mpr (.inl hwhole)) hother
      have hgwild := ((g.contains_iff _).1.mp hgk).resolve_right hk.2
      exact (g.contains_iff key).1.mpr (.inl hgwild)
    · exact hg key hin hout

end TextrpBriij.Types.StateFilter
