import TextrpBriij.AuthChain.BreadthFirst
import TextrpBriij.AuthChain.CoverKnown

/-! # Marks of the breadth first walk

The state sets that are noted as missing for an event are exactly those that do not reach it
along the auth events walked so far. This is kept by every row that the walk takes in.
-/
namespace TextrpBriij.AuthChain
open Relation List

def Recorded (authEvents : Dict String (List String)) (e a : String) : Prop :=
  ∃ l, authEvents.lookup e = some l ∧ a ∈ l

variable {e a x : String} {authEvents : Dict String (List String)}

theorem mem_getD_iff : a ∈ (authEvents.lookup e).getD [] ↔ Recorded authEvents e a := by
  cases h : authEvents.lookup e <;> simp [Recorded,h]

section marks
variable {m m' : Dict String (List ℕ)} {e a : String} {sets : List ℕ} {marked marked' : Set String}

/-- The events of a set are noted as reached by all but the given state sets. -/
structure Marks (m : Dict String (List ℕ)) (marked : Set String) (sets : List ℕ)
    (m' : Dict String (List ℕ)) : Prop where
  keys : ∀ f, f ∈ m' ↔ f ∈ m
  sets : ∀ f l l', m.lookup f = some l → m'.lookup f = some l' → ∀ i, i ∈ l' ↔ i ∈ l ∧ (f ∈ marked → i ∈ sets)

theorem Marks.refl (m : Dict String (List ℕ)) (sets : List ℕ) : Marks m ∅ sets m := by
  refine ⟨fun _ => Iff.rfl,fun f l l' hl hl' i => ?_⟩
  cases hl.symm.trans hl'
  simp

theorem Marks.trans {m'' : Dict String (List ℕ)} (h : Marks m marked sets m')
    (h' : Marks m' marked' sets m'') : Marks m (marked ∪ marked') sets m'' := by
  refine ⟨fun f => (h'.keys f).trans (h.keys f),fun f l l'' hl hl'' i => ?_⟩
  obtain ⟨l',hl'⟩ := Dict.mem_iff.mp ((h.keys f).mpr (Dict.mem_iff.mpr ⟨l,hl⟩))
  rw [h'.sets f l' l'' hl' hl'' i,h.sets f l l' hl hl' i,and_assoc,Set.mem_union,or_imp]

theorem Marks.congr (h : Marks m marked sets m') (hsame : ∀ f ∈ m, f ∈ marked ↔ f ∈ marked') :
    Marks m marked' sets m' := by
  refine ⟨h.keys,fun f l l' hl hl' i => ?_⟩
  rw [h.sets f l l' hl hl' i,hsame f (Dict.mem_iff.mpr ⟨l,hl⟩)]

theorem markReachable_ok (ha : a ∈ m) (he : m.lookup e = some sets) :
    ∃ m', markReachable e m a = .ok m' ∧ Marks m {a} sets m' ∧ ∀ f, f ≠ a → m'.lookup f = m.lookup f := by
  obtain ⟨l,hl⟩ := Dict.mem_iff.mp ha
  refine ⟨m.insert a (l.filter (· ∈ sets)),?_,⟨fun f => ?_,fun f k k' hk hk' i => ?_⟩,
    fun f hf => AList.lookup_insert_ne hf⟩
  · rw [markReachable,Dict.get_eq_ok.mpr hl,Dict.get_eq_ok.mpr he]
    rfl
  · rw [AList.mem_insert]
    exact or_iff_right_of_imp fun hf => hf ▸ ha
  · rcases Entries.insert_cases hk' with ⟨rfl,rfl⟩ | ⟨hf,hold⟩
    · cases hl.symm.trans hk
      simp
    · cases hk.symm.trans hold
      simp [hf]

theorem foldlM_markReachable_ok {ids : List String} (hids : ∀ a ∈ ids, a ∈ m ∧ a ≠ e)
    (he : m.lookup e = some sets) :
    ∃ m', ids.foldlM (markReachable e) m = .ok m' ∧ Marks m {a | a ∈ ids} sets m' ∧
      m'.lookup e = some sets := by
  apply Fallible.foldlM_spec (fun (pre : List String) t =>
    Marks m {a | a ∈ pre} sets t ∧ t.lookup e = some sets)
  · exact ⟨(Marks.refl m sets).congr (by simp),he⟩
  intro pre a post t hsplit ht
  obtain ⟨ha,hne⟩ := hids a (by simp [hsplit])
  obtain ⟨t',hrun,hmarks,hsame⟩ := markReachable_ok ((ht.1.keys a).mpr ha) ht.2
  refine ⟨t',hrun,(ht.1.trans hmarks).congr (by simp [or_comm]),?_⟩
  rw [hsame e hne.symm]
  exact ht.2

variable {authEvents : Dict String (List String)}

open Classical in
noncomputable def ahead (authEvents : Dict String (List String)) (a : String) : Finset String :=
  authEvents.keys.toFinset.filter fun k => ReflTransGen (Recorded authEvents) a k

theorem mem_ahead {k : String} : k ∈ ahead authEvents a ↔
    k ∈ authEvents.keys ∧ ReflTransGen (Recorded authEvents) a k := by
  simp [ahead]

theorem ahead_card_le (authEvents : Dict String (List String)) (a : String) :
    (ahead authEvents a).card ≤ authEvents.entries.length := by
  have hsub : ahead authEvents a ⊆ authEvents.keys.toFinset := by
    intro k hk
    exact mem_toFinset.mpr (mem_ahead.mp hk).1
  apply (Finset.card_le_card hsub).trans
  apply (toFinset_card_le _).trans
  rw [AList.keys,keys,length_map]

theorem ahead_card_lt {b : String} (hacyclic : ∀ x, ¬TransGen (Recorded authEvents) x x)
    (h : Recorded authEvents a b) : (ahead authEvents b).card < (ahead authEvents a).card := by
  have hkey : a ∈ authEvents.keys := by
    obtain ⟨l,hl,-⟩ := h
    exact AList.mem_keys.mpr (Dict.mem_iff.mpr ⟨l,hl⟩)
  apply Finset.card_lt_card
  rw [Finset.ssubset_iff_of_subset]
  · refine ⟨a,mem_ahead.mpr ⟨hkey,.refl⟩,fun hin => ?_⟩
    exact hacyclic a (TransGen.head' h (mem_ahead.mp hin).2)
  · intro k hk
    have hk' := mem_ahead.mp hk
    exact mem_ahead.mpr ⟨hk'.1,.head h hk'.2⟩

def descendants (authEvents : Dict String (List String)) (ids : List String) : Set String :=
  {f | ∃ b ∈ ids, ReflTransGen (Recorded authEvents) b f}

theorem markAncestors_ok (hacyclic : ∀ x, ¬TransGen (Recorded authEvents) x x) (fuel : ℕ)
    {ids : List String} (hfuel : ∀ b ∈ ids, (ahead authEvents b).card < fuel)
    (hids : ∀ f ∈ descendants authEvents ids, f ∈ m ∧ f ≠ e) (he : m.lookup e = some sets) :
    ∃ m', markAncestors authEvents e fuel ids m = .ok m' ∧
      Marks m (descendants authEvents ids) sets m' ∧ m'.lookup e = some sets := by
  have hempty : ∀ {m : Dict String (List ℕ)}, Marks m (descendants authEvents []) sets m := by
    intro m
    exact (Marks.refl m sets).congr (by simp [descendants])
  induction fuel generalizing ids m with
  | zero =>
    obtain rfl : ids = [] := by
      apply eq_nil_iff_forall_not_mem.mpr
      intro b hb
      exact absurd (hfuel b hb) (by omega)
    exact ⟨m,rfl,hempty,he⟩
  | succ fuel ih =>
    cases ids with
    | nil => exact ⟨m,rfl,hempty,he⟩
    | cons b rest =>
      have hself : ∀ a ∈ b :: rest, a ∈ descendants authEvents (b :: rest) :=
        fun a ha => ⟨a,ha,.refl⟩
      obtain ⟨m₁,hrun,hmarks,he₁⟩ := foldlM_markReachable_ok (fun a ha => hids a (hself a ha)) he
      let next := ((b :: rest).flatMap fun a => (authEvents.lookup a).getD []).dedup
      have hnext : ∀ c, c ∈ next ↔ ∃ a ∈ b :: rest, Recorded authEvents a c := by
        intro c
        simp only [next,mem_dedup,mem_flatMap,mem_getD_iff]
      have hsub : ∀ f ∈ descendants authEvents next, f ∈ descendants authEvents (b :: rest) := by
        rintro f ⟨c,hc,hr⟩
        obtain ⟨a,ha,hac⟩ := (hnext c).mp hc
        exact ⟨a,ha,.head hac hr⟩
      have hless : ∀ c ∈ next, (ahead authEvents c).card < fuel := by
        intro c hc
        obtain ⟨a,ha,hac⟩ := (hnext c).mp hc
        have hlt := ahead_card_lt hacyclic hac
        have hle := hfuel a ha
        omega
      have hknown : ∀ f ∈ descendants authEvents next, f ∈ m₁ ∧ f ≠ e := by
        intro f hf
        have hin := hids f (hsub f hf)
        exact ⟨(hmarks.keys f).mpr hin.1,hin.2⟩
      obtain ⟨m₂,hrun₂,hmarks₂,he₂⟩ := ih hless hknown he₁
      refine ⟨m₂,?_,(hmarks.trans hmarks₂).congr fun f _ => ⟨?_,?_⟩,he₂⟩
      · rw [markAncestors,hrun]
        exact hrun₂
      · rintro (hin | hin)
        · exact hself f hin
        · exact hsub f hin
      · rintro ⟨a,ha,hr⟩
        rcases ReflTransGen.cases_head hr with rfl | ⟨c,hac,hr⟩
        · exact .inl ha
        · exact .inr ⟨c,(hnext c).mpr ⟨a,ha,hac⟩,hr⟩

end marks

def ReachedBy (edge : String → String → Prop) (stateSets : List (List String)) (i : ℕ) (e : String) : Prop :=
  ∃ s ∈ stateSets.getD i [], ReflTransGen edge s e

variable {edge edge' : String → String → Prop}

theorem ReachedBy.mono {stateSets : List (List String)} {i : ℕ} (h : ReachedBy edge stateSets i e)
    (hsub : ∀ x y, edge x y → edge' x y) : ReachedBy edge' stateSets i e := by
  obtain ⟨s,hs,hr⟩ := h
  exact ⟨s,hs,ReflTransGen.mono hsub _ _ hr⟩

theorem reachedBy_insert (hedge : ∀ u v, edge' u v ↔ edge u v ∨ u = x ∧ v = a)
    {stateSets : List (List String)} {i : ℕ} : ReachedBy edge' stateSets i e ↔
      ReachedBy edge stateSets i e ∨ ReachedBy edge stateSets i x ∧ ReflTransGen edge' a e := by
  have hsub : ∀ u v, edge u v → edge' u v := fun u v h => (hedge u v).mpr (.inl h)
  constructor
  · rintro ⟨s,hs,hr⟩
    induction hr with
    | refl => exact .inl ⟨s,hs,.refl⟩
    | @tail u v _ huv ih =>
      rcases ih with ⟨s',hs',hr'⟩ | ⟨hx,hau⟩
      · rcases (hedge u v).mp huv with huv | ⟨rfl,rfl⟩
        · exact .inl ⟨s',hs',hr'.tail huv⟩
        · exact .inr ⟨⟨s',hs',hr'⟩,.refl⟩
      · exact .inr ⟨hx,hau.tail huv⟩
  · rintro (h | ⟨⟨s,hs,hr⟩,hae⟩)
    · exact h.mono hsub
    · have hx := ReflTransGen.mono hsub _ _ hr
      exact ⟨s,hs,(hx.tail ((hedge x a).mpr (.inr ⟨rfl,rfl⟩))).trans hae⟩

/-- The marks are exact for the edges that are recorded. -/
structure Walk.Marked (room : Room) (stateSets : List (List String)) (w : Walk) : Prop where
  real : ∀ x a, Recorded w.eventToAuthEvents x a → room.edge x a
  seen : ∀ x a, Recorded w.eventToAuthEvents x a → x ∈ w.eventToMissingSets ∧ a ∈ w.eventToMissingSets
  initial : ∀ s ∈ stateSets, ∀ e ∈ s, e ∈ w.eventToMissingSets
  marks : ∀ e l, w.eventToMissingSets.lookup e = some l → ∀ i,
    i ∈ l ↔ i < stateSets.length ∧ ¬ReachedBy (Recorded w.eventToAuthEvents) stateSets i e

theorem recorded_insert {u v : String} :
    Recorded (authEvents.insert x (((authEvents.lookup x).getD []).insert a)) u v ↔
      Recorded authEvents u v ∨ u = x ∧ v = a := by
  by_cases hu : u = x
  · subst hu
    simp only [Recorded,AList.lookup_insert,Option.some.injEq,exists_eq_left',
      mem_insert_iff,mem_getD_iff,true_and]
    exact or_comm
  · simp [Recorded,hu]

section row
variable {room : Room} {stateSets : List (List String)} {w : Walk}

theorem Walk.Marked.mem_of_reachedBy (h : w.Marked room stateSets) {i : ℕ}
    (hr : ReachedBy (Recorded w.eventToAuthEvents) stateSets i e) : e ∈ w.eventToMissingSets := by
  obtain ⟨s,hs,hr⟩ := hr
  rcases ReflTransGen.cases_tail hr with rfl | ⟨u,-,hue⟩
  · rw [getD_eq_getElem?_getD] at hs
    cases hget : stateSets[i]? with
    | none =>
      rw [hget] at hs
      cases hs
    | some stateSet =>
      rw [hget] at hs
      exact h.initial stateSet (mem_of_getElem? hget) e hs
  · exact (h.seen u e hue).2

/-- What one row does: the edge is recorded, and a new auth event waits to be walked. -/
structure Walk.Added (room : Room) (stateSets : List (List String)) (w : Walk)
    (row : String × String × ℤ) (w' : Walk) : Prop where
  marked : w'.Marked room stateSets
  recorded : ∀ u v, Recorded w'.eventToAuthEvents u v ↔
    Recorded w.eventToAuthEvents u v ∨ u = row.1 ∧ v = row.2.1
  keys : ∀ e, e ∈ w'.eventToMissingSets ↔ e = row.2.1 ∨ e ∈ w.eventToMissingSets
  search : w'.search = w.search ++
    if row.2.1 ∈ w.eventToMissingSets then [] else [(row.2.2,row.2.1)]

theorem Walk.Marked.insert (h : w.Marked room stateSets) (hedge : room.edge x a)
    {sets : List ℕ} (hx : w.eventToMissingSets.lookup x = some sets) {w' : Walk}
    (hrecorded : ∀ u v, Recorded w'.eventToAuthEvents u v ↔ Recorded w.eventToAuthEvents u v ∨ u = x ∧ v = a)
    (hkeys : ∀ e, e ∈ w'.eventToMissingSets ↔ e = a ∨ e ∈ w.eventToMissingSets)
    (hmarks : ∀ e l', w'.eventToMissingSets.lookup e = some l' → ∀ i, i ∈ l' ↔
      (i < stateSets.length ∧ ¬ReachedBy (Recorded w.eventToAuthEvents) stateSets i e) ∧
        (ReflTransGen (Recorded w'.eventToAuthEvents) a e → i ∈ sets)) :
    w'.Marked room stateSets := by
  refine ⟨fun u v huv => ?_,fun u v huv => ?_,fun s hs e he => ?_,fun e l' hl' i => ?_⟩
  · rcases (hrecorded u v).mp huv with huv | ⟨rfl,rfl⟩
    · exact h.real u v huv
    · exact hedge
  · rw [hkeys,hkeys]
    rcases (hrecorded u v).mp huv with huv | ⟨rfl,rfl⟩
    · exact ⟨.inr (h.seen u v huv).1,.inr (h.seen u v huv).2⟩
    · exact ⟨.inr (Dict.mem_iff.mpr ⟨sets,hx⟩),.inl rfl⟩
  · exact (hkeys e).mpr (.inr (h.initial s hs e he))
  · rw [hmarks e l' hl' i,reachedBy_insert hrecorded,h.marks x sets hx i]
    tauto

variable {row : String × String × ℤ}

section
variable (h : w.Marked room stateSets) (hx : row.1 ∈ w.eventToMissingSets) (hedge : room.edge row.1 row.2.1)
include h hx hedge

theorem Walk.Marked.addFound_new (hnew : row.2.1 ∉ w.eventToMissingSets) :
    ∃ w', w.addFound stateSets.length row = .ok w' ∧ w.Added room stateSets row w' := by
  obtain ⟨x,a,depth⟩ := row
  obtain ⟨sets,hsets⟩ := Dict.mem_iff.mp hx
  have hne : x ≠ a := fun heq => hnew (heq ▸ hx)
  let start := w.eventToMissingSets.insert a (range stateSets.length)
  have hin : a ∈ start := (AList.mem_insert _).mpr (.inl rfl)
  have hstart : start.lookup x = some sets := by rw [AList.lookup_insert_ne hne,hsets]
  obtain ⟨m',hrun,hmarks,-⟩ := markReachable_ok hin hstart
  have hkeys : ∀ e, e ∈ m' ↔ e = a ∨ e ∈ w.eventToMissingSets := by
    intro e
    rw [hmarks.keys,AList.mem_insert]
  let w' : Walk := ⟨w.search ++ [(depth,a)],m',w.eventToAuthEvents.insert x
    (((w.eventToAuthEvents.lookup x).getD []).insert a)⟩
  -- nothing is recorded for the new event, so it leads to itself only
  have halone : ∀ e, ReflTransGen (Recorded w'.eventToAuthEvents) a e ↔ e = a := by
    intro e
    constructor
    · intro hr
      rcases ReflTransGen.cases_head hr with heq | ⟨c,hac,-⟩
      · exact heq.symm
      · rcases recorded_insert.mp hac with hac | ⟨heq,-⟩
        · exact absurd (h.seen a c hac).1 hnew
        · exact absurd heq.symm hne
    · rintro rfl
      exact .refl
  refine ⟨w',?_,?_,fun u v => recorded_insert,hkeys,by simp [w',hnew]⟩
  · simp only [Walk.addFound,AList.lookup_eq_none.mpr hnew]
    rw [hrun]
    rfl
  · apply h.insert hedge hsets (fun u v => recorded_insert) hkeys
    intro e l' hl' i
    rw [halone]
    by_cases he : e = a
    · subst he
      rw [hmarks.sets e _ l' (AList.lookup_insert _) hl' i]
      have hunreached : ¬ReachedBy (Recorded w.eventToAuthEvents) stateSets i e :=
        fun hr => hnew (h.mem_of_reachedBy hr)
      simp [hunreached]
    · obtain ⟨l,hl⟩ := Dict.mem_iff.mp (((hkeys e).mp (Dict.mem_iff.mpr ⟨l',hl'⟩)).resolve_left he)
      rw [hmarks.sets e l l' (by rw [AList.lookup_insert_ne he,hl]) hl' i,← h.marks e l hl i]
      simp [he]

theorem Walk.Marked.addFound_seen (hseen : row.2.1 ∈ w.eventToMissingSets) :
    ∃ w', w.addFound stateSets.length row = .ok w' ∧ w.Added room stateSets row w' := by
  obtain ⟨x,a,depth⟩ := row
  obtain ⟨sets,hsets⟩ := Dict.mem_iff.mp hx
  obtain ⟨old,hold⟩ := Dict.mem_iff.mp hseen
  let authEvents := w.eventToAuthEvents.insert x (((w.eventToAuthEvents.lookup x).getD []).insert a)
  have hrecorded : ∀ u v, Recorded authEvents u v ↔
      Recorded w.eventToAuthEvents u v ∨ u = x ∧ v = a := fun u v => recorded_insert
  have hreal : ∀ u v, Recorded authEvents u v → room.edge u v := by
    intro u v huv
    rcases (hrecorded u v).mp huv with huv | ⟨rfl,rfl⟩
    · exact h.real u v huv
    · exact hedge
  have hacyclic : ∀ y, ¬TransGen (Recorded authEvents) y y := fun y hy =>
    room.acyclic y (TransGen.mono hreal _ _ hy)
  have hxa : Recorded authEvents x a := (hrecorded x a).mpr (.inr ⟨rfl,rfl⟩)
  let ids := (authEvents.lookup a).getD []
  have hids : ∀ f ∈ descendants authEvents ids, f ∈ w.eventToMissingSets ∧ f ≠ x := by
    rintro f ⟨b,hb,hr⟩
    have hab : TransGen (Recorded authEvents) a f := TransGen.head' (mem_getD_iff.mp hb) hr
    refine ⟨?_,fun heq => ?_⟩
    case refine_2 =>
      subst heq
      exact hacyclic _ (TransGen.head hxa hab)
    obtain ⟨u,-,huf⟩ := TransGen.tail'_iff.mp hab
    rcases (hrecorded u f).mp huf with huf | ⟨-,rfl⟩
    · exact (h.seen u f huf).2
    · exact hseen
  have hfuel : ∀ b ∈ ids, (ahead authEvents b).card < authEvents.entries.length + 1 := fun b _ =>
    Nat.lt_succ_of_le (ahead_card_le authEvents b)
  obtain ⟨m₁,hrun₁,hmarks₁,hx₁⟩ := markAncestors_ok hacyclic _ hfuel hids hsets
  obtain ⟨m₂,hrun₂,hmarks₂,-⟩ := markReachable_ok ((hmarks₁.keys a).mpr hseen) hx₁
  have hkeys : ∀ e, e ∈ m₂ ↔ e = a ∨ e ∈ w.eventToMissingSets := by
    intro e
    rw [hmarks₂.keys,hmarks₁.keys]
    exact (or_iff_right_of_imp fun he => he ▸ hseen).symm
  have hreach : ∀ e, e ∈ descendants authEvents ids ∪ {a} ↔ ReflTransGen (Recorded authEvents) a e := by
    intro e
    constructor
    · rintro (⟨b,hb,hr⟩ | rfl)
      · exact .head (mem_getD_iff.mp hb) hr
      · exact .refl
    · intro hr
      rcases ReflTransGen.cases_head hr with rfl | ⟨b,hab,hr⟩
      · exact .inr rfl
      · exact .inl ⟨b,mem_getD_iff.mpr hab,hr⟩
  refine ⟨⟨w.search,m₂,authEvents⟩,?_,?_,hrecorded,hkeys,by simp [hseen]⟩
  · simp only [Walk.addFound,hold]
    rw [hrun₁,Fallible.ok_bind,hrun₂]
    rfl
  · apply h.insert hedge hsets hrecorded hkeys
    intro e l' hl' i
    have hin : e ∈ w.eventToMissingSets :=
      ((hkeys e).mp (Dict.mem_iff.mpr ⟨l',hl'⟩)).elim (fun he => he ▸ hseen) id
    obtain ⟨l,hl⟩ := Dict.mem_iff.mp hin
    rw [(hmarks₁.trans hmarks₂).sets e l l' hl hl' i,hreach,h.marks e l hl i]

theorem Walk.Marked.addFound :
    ∃ w', w.addFound stateSets.length row = .ok w' ∧ w.Added room stateSets row w' := by
  by_cases hseen : row.2.1 ∈ w.eventToMissingSets
  · exact h.addFound_seen hx hedge hseen
  · exact h.addFound_new hx hedge hseen

end

end row

end TextrpBriij.AuthChain
