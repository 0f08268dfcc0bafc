import TextrpBriij.State.StateMap

/-! # The cache of stream positions at which entities changed

The cache maps positions to the entities whose latest change was there, and entities to that
position. It knows of all changes after the earliest known position. A cache that was told of a
list of changes answers for each position without leaving out an entity that changed after it.
-/
namespace TextrpBriij.Util
open List AList Option
open AuthChain (Dict)

/-- The sorted dict of sets is a dict whose keys are sorted where the order matters. -/
structure StreamChangeCache where
  maxSize : ℕ
  cache : Dict ℤ (List String)
  entityToKey : Dict String ℤ
  earliestKnownStreamPos : ℤ

namespace StreamChangeCache

variable (c : StreamChangeCache)

def firstPos : Option ℤ := c.cache.keys.min?

def lastPos : Option ℤ := c.cache.keys.max?

def evictFirst : StreamChangeCache :=
  match c.firstPos with
  | none => c
  | some k =>
    { c with
      cache := c.cache.erase k
      earliestKnownStreamPos := max k c.earliestKnownStreamPos
      entityToKey := ((c.cache.lookup k).getD []).foldl (fun d entity => d.erase entity) c.entityToKey }

def evictRounds : ℕ → StreamChangeCache → StreamChangeCache
  | 0,c => c
  | rounds + 1,c => if c.cache.entries.length > c.maxSize then evictRounds rounds c.evictFirst else c

/-- Each round takes one position out, so there are not more rounds than positions. -/
def evict : StreamChangeCache := evictRounds c.cache.entries.length c

def setMaxSize (newSize : ℕ) : StreamChangeCache :=
  if newSize ≠ c.maxSize then evict { c with maxSize := newSize } else c

def removeAt (cache : Dict ℤ (List String)) (oldPos : ℤ) (entity : String) : Dict ℤ (List String) :=
  let e := ((cache.lookup oldPos).getD []).filter (· ≠ entity)
  if e.isEmpty then cache.erase oldPos else cache.insert oldPos e

def addAt (cache : Dict ℤ (List String)) (streamPos : ℤ) (entity : String) : Dict ℤ (List String) :=
  cache.insert streamPos (((cache.lookup streamPos).getD []).insert entity)

def entityHasChanged (entity : String) (streamPos : ℤ) : StreamChangeCache :=
  if streamPos ≤ c.earliestKnownStreamPos then c
  else
    match c.entityToKey.lookup entity with
    | some oldPos =>
      if oldPos ≥ streamPos then c
      else evict { c with
        cache := addAt (removeAt c.cache oldPos entity) streamPos entity
        entityToKey := c.entityToKey.insert entity streamPos }
    | none => evict { c with
        cache := addAt c.cache streamPos entity
        entityToKey := c.entityToKey.insert entity streamPos }

def allEntitiesChanged (streamPos : ℤ) : StreamChangeCache :=
  { c with cache := ∅, entityToKey := ∅, earliestKnownStreamPos := streamPos }

def hasEntityChanged (entity : String) (streamPos : ℤ) : Bool :=
  if streamPos < c.earliestKnownStreamPos then true
  else
    match c.entityToKey.lookup entity with
    | none => false
    | some latestEntityChangePos => streamPos < latestEntityChangePos

def getAllEntitiesChanged (streamPos : ℤ) : Option (List String) :=
  if streamPos < c.earliestKnownStreamPos then none
  else some (((c.cache.keys.filter (streamPos < ·)).mergeSort (· ≤ ·)).flatMap fun k =>
    (c.cache.lookup k).getD [])

def getEntitiesChanged (entities : List String) (streamPos : ℤ) (perfFactor : ℤ) : List String :=
  match c.lastPos with
  | none => entities.dedup
  | some maxStreamPos =>
    if streamPos < c.earliestKnownStreamPos then entities.dedup
    else if maxStreamPos - streamPos > perfFactor * entities.length then
      (entities.filter fun entity => (c.entityToKey.lookup entity).getD (-1) > streamPos).dedup
    else
      match c.getAllEntitiesChanged streamPos with
      | some changed => (entities.filter (· ∈ changed)).dedup
      | none => entities.dedup

def hasAnyEntityChanged (streamPos : ℤ) : Bool :=
  streamPos < c.earliestKnownStreamPos || c.lastPos.any (streamPos < ·)

def getEarliestKnownPosition : ℤ := c.earliestKnownStreamPos

def entitiesAt (cache : Dict ℤ (List String)) (pos : ℤ) : List String := (cache.lookup pos).getD []

def InSync : Prop :=
  ∀ entity pos, c.entityToKey.lookup entity = some pos ↔ entity ∈ entitiesAt c.cache pos

/-- Every change after the earliest known position is covered by the latest change of its entity
that the cache knows. -/
def Sound (changed : String → ℤ → Prop) : Prop :=
  ∀ entity pos, changed entity pos → c.earliestKnownStreamPos < pos →
    ∃ latest, c.entityToKey.lookup entity = some latest ∧ pos ≤ latest

variable {c} {changed : String → ℤ → Prop} {cache : Dict ℤ (List String)}
  {entity : String} {pos streamPos : ℤ}

theorem entitiesAt_erase {erased : ℤ} : entitiesAt (cache.erase erased) pos =
    if pos = erased then [] else entitiesAt cache pos := by
  unfold entitiesAt
  obtain rfl | h := eq_or_ne pos erased
  · simp
  · simp [h]

variable {entities : List String}

theorem entitiesAt_insert {inserted : ℤ} : entitiesAt (cache.insert inserted entities) pos =
      if pos = inserted then entities else entitiesAt cache pos := by
  unfold entitiesAt
  obtain rfl | h := eq_or_ne pos inserted
  · simp
  · simp [h]

theorem mem_removeAt {oldPos : ℤ} {x : String} : x ∈ entitiesAt (removeAt cache oldPos entity) pos ↔
    x ∈ entitiesAt cache pos ∧ ¬(pos = oldPos ∧ x = entity) := by
  have hremoved : entitiesAt (removeAt cache oldPos entity) pos =
      if pos = oldPos then (entitiesAt cache oldPos).filter (· ≠ entity) else entitiesAt cache pos := by
    unfold removeAt
    dsimp only
    split
    · rename_i hempty
      rw [entitiesAt_erase,← List.isEmpty_iff.mp hempty]
      rfl
    · exact entitiesAt_insert
  rw [hremoved]
  by_cases hpos : pos = oldPos
  · simp [hpos]
  · simp [hpos]

theorem mem_addAt {x : String} : x ∈ entitiesAt (addAt cache streamPos entity) pos ↔
    x ∈ entitiesAt cache pos ∨ (pos = streamPos ∧ x = entity) := by
  unfold addAt
  rw [entitiesAt_insert]
  obtain rfl | hpos := eq_or_ne pos streamPos
  · simp [entitiesAt,or_comm]
  · simp [hpos]

theorem lookup_foldl_erase {d : Dict String ℤ} {x : String} :
    (entities.foldl (fun d entity => d.erase entity) d).lookup x =
      if x ∈ entities then none else d.lookup x := by
  induction entities generalizing d with
  | nil => simp
  | cons entity entities ih =>
    rw [foldl_cons,ih]
    obtain rfl | hx := eq_or_ne x entity
    · simp
    · simp [hx]

/-- The maps agree, and the changes are covered. -/
structure Valid (c : StreamChangeCache) (changed : String → ℤ → Prop) : Prop where
  inSync : c.InSync
  sound : c.Sound changed

theorem Valid.mono {changed' : String → ℤ → Prop} (h : c.Valid changed)
    (hsub : ∀ entity pos, changed' entity pos → changed entity pos) : c.Valid changed' :=
  ⟨h.inSync,fun entity pos hchanged => h.sound entity pos (hsub entity pos hchanged)⟩

theorem Valid.evictFirst (h : c.Valid changed) : c.evictFirst.Valid changed := by
  unfold StreamChangeCache.evictFirst
  cases c.firstPos with
  | none => exact h
  | some k =>
    constructor
    · intro entity pos
      rw [lookup_foldl_erase,entitiesAt_erase]
      change (if entity ∈ entitiesAt c.cache k then none else _) = some pos ↔ _
      simp only [← h.inSync entity k]
      by_cases hpos : pos = k
      · simp [hpos]
      · rw [if_neg hpos,← h.inSync entity pos]
        split
        · rename_i hk
          simp [hk,Ne.symm hpos]
        · rfl
    · intro entity pos hchanged hpos
      have hlater : max k c.earliestKnownStreamPos < pos := hpos
      obtain ⟨latest,hlatest,hle⟩ := h.sound entity pos hchanged (by omega)
      refine ⟨latest,?_,hle⟩
      rw [lookup_foldl_erase,if_neg,hlatest]
      intro hin
      have heq := some.inj (((h.inSync entity k).mpr hin).symm.trans hlatest)
      omega

theorem Valid.evict (h : c.Valid changed) : c.evict.Valid changed := by
  unfold StreamChangeCache.evict
  generalize c.cache.entries.length = rounds
  induction rounds generalizing c with
  | zero => exact h
  | succ rounds ih =>
    unfold evictRounds
    split
    · exact ih h.evictFirst
    · exact h

theorem Valid.setMaxSize (h : c.Valid changed) (newSize : ℕ) : (c.setMaxSize newSize).Valid changed := by
  unfold StreamChangeCache.setMaxSize
  split
  · exact Valid.evict ⟨h.inSync,h.sound⟩
  · exact h

theorem Valid.entityHasChanged (h : c.Valid changed) (entity : String) (streamPos : ℤ) :
    (c.entityHasChanged entity streamPos).Valid fun x pos =>
      changed x pos ∨ (x = entity ∧ pos = streamPos) := by
  unfold StreamChangeCache.entityHasChanged
  set changed' : String → ℤ → Prop := fun x pos => changed x pos ∨ (x = entity ∧ pos = streamPos)
  -- A cache that stays as it is covers the change already.
  have hkeep (hcovered : c.earliestKnownStreamPos < streamPos →
      ∃ latest, c.entityToKey.lookup entity = some latest ∧ streamPos ≤ latest) : c.Valid changed' := by
    refine ⟨h.inSync,?_⟩
    rintro x pos (hold | ⟨rfl,rfl⟩) hpos
    · exact h.sound x pos hold hpos
    · exact hcovered hpos
  have hput : ∀ cache : Dict ℤ (List String), (∀ x pos, x ∈ entitiesAt cache pos ↔
      x ∈ entitiesAt c.cache pos ∧ x ≠ entity) →
      (∀ oldPos, c.entityToKey.lookup entity = some oldPos → oldPos < streamPos) →
      ({ c with cache := addAt cache streamPos entity,
                entityToKey := c.entityToKey.insert entity streamPos } : StreamChangeCache).Valid changed' := by
    intro cache hcache hold
    constructor
    · intro x pos
      rw [mem_addAt,hcache]
      obtain rfl | hx := eq_or_ne x entity
      · simp [eq_comm]
      · simp [hx,h.inSync x pos]
    · rintro x pos (hbefore | ⟨rfl,rfl⟩) hpos
      · obtain ⟨latest,hlatest,hle⟩ := h.sound x pos hbefore hpos
        obtain rfl | hx := eq_or_ne x entity
        · exact ⟨streamPos,lookup_insert _,hle.trans (hold latest hlatest).le⟩
        · exact ⟨latest,by rw [lookup_insert_ne hx,hlatest],hle⟩
      · exact ⟨pos,lookup_insert _,le_rfl⟩
  split
  · exact hkeep (by omega)
  cases hlookup : c.entityToKey.lookup entity with
  | none =>
    apply Valid.evict
    apply hput
    · intro x pos
      refine (and_iff_left_of_imp ?_).symm
      rintro hx rfl
      rw [← h.inSync x pos,hlookup] at hx
      cases hx
    · simp [hlookup]
  | some oldPos =>
    dsimp only
    split
    · rename_i hge
      exact hkeep fun _ => ⟨oldPos,hlookup,hge⟩
    · apply Valid.evict
      apply hput
      · intro x pos
        rw [mem_removeAt]
        refine and_congr_right fun hx => not_congr (and_iff_right_of_imp ?_)
        rintro rfl
        rw [← h.inSync x pos,hlookup] at hx
        exact (some.inj hx).symm
      · intro pos hpos
        rw [hlookup] at hpos
        have heq := some.inj hpos
        omega

theorem valid_allEntitiesChanged (hall : ∀ entity pos, changed entity pos → pos ≤ streamPos) :
    (c.allEntitiesChanged streamPos).Valid changed := by
  constructor
  · intro entity pos
    simp [StreamChangeCache.allEntitiesChanged,entitiesAt]
  · intro entity pos hchanged hpos
    have hle := hall entity pos hchanged
    have hlt : streamPos < pos := hpos
    omega

inductive CacheOp where
  | changed (entity : String) (pos : ℤ)
  | allChanged (pos : ℤ)
  | resize (newSize : ℕ)

def step (c : StreamChangeCache) : CacheOp → StreamChangeCache
  | .changed entity pos => c.entityHasChanged entity pos
  | .allChanged pos => c.allEntitiesChanged pos
  | .resize newSize => c.setMaxSize newSize

def new (currentStreamPos : ℤ) (maxSize : ℕ) : StreamChangeCache := ⟨maxSize,∅,∅,currentStreamPos⟩

def Told (ops : List CacheOp) (entity : String) (pos : ℤ) : Prop :=
  .changed entity pos ∈ ops ∨ .allChanged pos ∈ ops

variable (currentStreamPos : ℤ) (maxSize : ℕ) (ops : List CacheOp)

/-- A cache covers all changes it was ever told of, if it is told that everything changed only
at positions not before these. -/
theorem run_valid
    (hall : ∀ pre pos, pre ++ [.allChanged pos] <+: ops →
      ∀ entity before, Told pre entity before → before ≤ pos) :
    (ops.foldl step (new currentStreamPos maxSize)).Valid (Told ops) := by
  induction ops using reverseRecOn with
  | nil =>
    constructor
    · intro entity pos
      simp [new,entitiesAt]
    · intro entity pos hchanged
      simp [Told] at hchanged
  | append_singleton ops op ih =>
    have hbefore := ih fun pre pos hpre => hall pre pos (hpre.trans (prefix_append ops [op]))
    rw [foldl_append]
    cases op with
    | changed entity pos =>
      refine (hbefore.entityHasChanged entity pos).mono fun x before htold => ?_
      simpa [Told,or_right_comm] using htold
    | allChanged pos =>
      refine valid_allEntitiesChanged fun entity before htold => ?_
      obtain hold | rfl : Told ops entity before ∨ before = pos := by
        simp only [Told,mem_append,mem_singleton,CacheOp.allChanged.injEq] at htold ⊢
        tauto
      · exact hall ops pos prefix_rfl entity before hold
      · exact le_rfl
    | resize newSize =>
      refine (hbefore.setMaxSize newSize).mono fun x before htold => ?_
      simpa [Told] using htold

section
variable (h : c.Valid changed) (hchanged : changed entity pos) (hlater : streamPos < pos)
include h hchanged hlater

theorem exists_latest (hknown : ¬streamPos < c.earliestKnownStreamPos) :
    ∃ latest, c.entityToKey.lookup entity = some latest ∧ streamPos < latest ∧ latest ∈ c.cache.keys ∧
      entity ∈ entitiesAt c.cache latest := by
  obtain ⟨latest,hlatest,hle⟩ := h.sound entity pos hchanged (by omega)
  have hmem := (h.inSync entity latest).mp hlatest
  refine ⟨latest,hlatest,by omega,?_,hmem⟩
  by_contra hkey
  simp [entitiesAt,AList.lookup_eq_none.mpr hkey] at hmem

theorem hasEntityChanged_of_changed : c.hasEntityChanged entity streamPos = true := by
  unfold hasEntityChanged
  split
  · rfl
  · rename_i hknown
    obtain ⟨latest,hlatest,hlt,-⟩ := exists_latest h hchanged hlater hknown
    simp [hlatest,hlt]

theorem hasAnyEntityChanged_of_changed : c.hasAnyEntityChanged streamPos = true := by
  by_cases hknown : streamPos < c.earliestKnownStreamPos
  · simp [hasAnyEntityChanged,hknown]
  · obtain ⟨latest,-,hlt,hkey,-⟩ := exists_latest h hchanged hlater hknown
    rw [hasAnyEntityChanged,lastPos]
    cases hmax : c.cache.keys.max? with
    | none => simp [List.max?_eq_none_iff.mp hmax] at hkey
    | some m => simp [hlt.trans_le ((List.max?_eq_some_iff.mp hmax).2 latest hkey)]

theorem mem_getAllEntitiesChanged {l : List String}
    (hl : c.getAllEntitiesChanged streamPos = some l) : entity ∈ l := by
  obtain ⟨hknown,hl⟩ := ite_none_left_eq_some.mp hl
  cases hl
  obtain ⟨latest,-,hlt,hkey,hmem⟩ := exists_latest h hchanged hlater hknown
  simp only [mem_flatMap,mem_mergeSort,mem_filter,decide_eq_true_eq]
  exact ⟨latest,⟨hkey,hlt⟩,hmem⟩

end

theorem mem_getEntitiesChanged (h : c.Valid changed)
    {perfFactor : ℤ} (hentity : entity ∈ entities) (hchanged : changed entity pos)
    (hlater : streamPos < pos) : entity ∈ c.getEntitiesChanged entities streamPos perfFactor := by
  have hall := mem_dedup.mpr hentity
  unfold getEntitiesChanged
  cases c.lastPos with
  | none => exact hall
  | some maxStreamPos =>
    dsimp only
    split
    · exact hall
    rename_i hknown
    split
    · obtain ⟨latest,hlatest,hlt,-⟩ := exists_latest h hchanged hlater hknown
      simp [hentity,hlatest,hlt]
    · split
      · rename_i l hl
        simp [hentity,mem_getAllEntitiesChanged h hchanged hlater hl]
      · exact hall

/-- Every query before a position of a change that was told reports the entity. -/
def NeverHides (c : StreamChangeCache) (told : String → ℤ → Prop) : Prop :=
  ∀ entity pos streamPos, told entity pos → streamPos < pos →
    c.hasEntityChanged entity streamPos ∧ c.hasAnyEntityChanged streamPos ∧
    (∀ entities perfFactor, entity ∈ entities → entity ∈ c.getEntitiesChanged entities streamPos perfFactor) ∧
    ∀ l, c.getAllEntitiesChanged streamPos = some l → entity ∈ l

theorem length_evictFirst (hpos : 0 < c.cache.entries.length) :
    c.evictFirst.cache.entries.length + 1 = c.cache.entries.length ∧ c.evictFirst.maxSize = c.maxSize := by
  have hkeys (cache : Dict ℤ (List String)) : cache.entries.length = cache.keys.length := by
    simp [AList.keys,List.keys]
  simp only [hkeys] at hpos ⊢
  unfold evictFirst firstPos
  cases hmin : c.cache.keys.min? with
  | none => simp [List.min?_eq_none_iff.mp hmin] at hpos
  | some k =>
    rw [keys_erase,length_erase_of_mem (List.min?_eq_some_iff.mp hmin).1]
    exact ⟨Nat.sub_add_cancel hpos,rfl⟩

def Bounded (c : StreamChangeCache) : Prop := c.cache.entries.length ≤ c.maxSize

theorem bounded_evictRounds {rounds : ℕ} (h : c.cache.entries.length ≤ c.maxSize + rounds) :
    (evictRounds rounds c).Bounded := by
  induction rounds generalizing c with
  | zero => exact h
  | succ rounds ih =>
    unfold evictRounds
    split
    · obtain ⟨hlength,hsize⟩ := @length_evictFirst c (by omega)
      exact ih (by omega)
    · exact not_lt.mp ‹_›

theorem bounded_evict : c.evict.Bounded := bounded_evictRounds (Nat.le_add_left ..)

theorem Bounded.step (h : c.Bounded) (op : CacheOp) : (c.step op).Bounded := by
  cases op with
  | changed entity pos => grind [StreamChangeCache.step,entityHasChanged,bounded_evict]
  | allChanged pos => exact Nat.zero_le _
  | resize newSize => grind [StreamChangeCache.step,setMaxSize,bounded_evict]

/-- No state of a run hides a change if and only if the cache is told that everything changed
only at positions not before those it was told of. -/
theorem never_hides_iff :
    ((∀ pre, pre <+: ops → NeverHides (pre.foldl step (new currentStreamPos maxSize)) (Told pre)) ↔
      ∀ pre pos, pre ++ [.allChanged pos] <+: ops →
        ∀ entity before, Told pre entity before → before ≤ pos) ∧
    (ops.foldl step (new currentStreamPos maxSize)).Bounded := by
  refine ⟨⟨fun h pre pos hpre entity before htold => ?_,fun h pre hpre entity pos streamPos htold hlt => ?_⟩,
    foldlRecOn ops step (Nat.zero_le _) fun c h op _ => h.step op⟩
  · by_contra hlt
    have hhas := (h _ hpre entity before pos (htold.imp (mem_append_left _) (mem_append_left _))
      (by omega)).1
    simp [step,allEntitiesChanged,hasEntityChanged] at hhas
  · have hvalid := run_valid currentStreamPos maxSize pre fun pre' pos' hpre' =>
      h pre' pos' (hpre'.trans hpre)
    exact ⟨hasEntityChanged_of_changed hvalid htold hlt,hasAnyEntityChanged_of_changed hvalid htold hlt,
      fun entities _ hentity => mem_getEntitiesChanged hvalid hentity htold hlt,
      fun l => mem_getAllEntitiesChanged hvalid htold hlt⟩

/-- A change at 10 is hidden at 7 once everything has changed at 5. -/
theorem change_hidden_by_earlier_reset :
    ([.changed "@u:h" 10,.allChanged 5].foldl step (new 0 10)).hasEntityChanged "@u:h" 7 = false := by
  decide

end StreamChangeCache
end TextrpBriij.Util
