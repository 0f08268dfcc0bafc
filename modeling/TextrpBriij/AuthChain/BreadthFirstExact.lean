import TextrpBriij.AuthChain.BreadthFirstMarks
import TextrpBriij.AuthChain.DifferenceFixup

/-! # What the breadth first walk returns

Which events are walked in which round does not depend on the marks. When the walk stops, the
marks tell which state sets reach an event along the auth events of walked events. These are the
auth chains of the state sets only as far as no event that still waits leads back to an event
that was met before.
-/
namespace TextrpBriij.AuthChain
open Api Relation List Fallible

structure Course where
  search : List (ℤ × String)
  seen : List String

def Course.rest (c : Course) : List (ℤ × String) := c.search.take (c.search.length - 100)

def Course.chunk (c : Course) : List String :=
  (c.search.drop (c.search.length - 100)).map fun s => s.2

def Course.pending (c : Course) : List String := c.search.map fun s => s.2

def AuthTables.newEvents (t : AuthTables) (seen chunk : List String) : List (ℤ × String) :=
  ((chunk.flatMap t.authRows).dedup.filter fun row => row.1 ∉ seen).map fun row => (row.2,row.1)

def AuthTables.advance (t : AuthTables) (c : Course) : Course :=
  let new := t.newEvents c.seen c.chunk
  ⟨sortSearch (c.rest ++ new),c.seen ++ new.map fun s => s.2⟩

def AuthTables.course (t : AuthTables) (stateSets : List (List String)) : ℕ → Course
  | 0 => ⟨(t.startWalk stateSets).search,stateSets.flatten.dedup⟩
  | k + 1 => t.advance (t.course stateSets k)

def Course.Walked (c : Course) (e : String) : Prop := e ∈ c.seen ∧ e ∉ c.pending

def Course.edge (room : Room) (c : Course) (e a : String) : Prop := c.Walked e ∧ room.edge e a

/-- The stored auth events are those of the room, and all of them have a depth. -/
structure AuthTables.Stores (room : Room) (t : AuthTables) : Prop where
  auth : ∀ e a, a ∈ room.auth e ↔ (e,a) ∈ t.eventAuth
  stored : ∀ e a, (e,a) ∈ t.eventAuth → a ∈ t.depth

variable {e a : String}

theorem AuthTables.mem_authRows {t : AuthTables} {depth : ℤ} :
    (a,depth) ∈ t.authRows e ↔ (e,a) ∈ t.eventAuth ∧ t.depth.lookup a = some depth := by
  simp [authRows]

section sort

def searchLE (a b : ℤ × String) : Prop := a.1 < b.1 ∨ a.1 = b.1 ∧ a.2 ≤ b.2

instance : DecidableRel searchLE := fun a b =>
  inferInstanceAs (Decidable (a.1 < b.1 ∨ a.1 = b.1 ∧ a.2 ≤ b.2))

theorem searchLE_iff {a b : ℤ × String} : searchLE a b ↔ toLex a ≤ toLex b :=
  (Prod.Lex.toLex_le_toLex).symm

theorem pairwise_sortSearch (l : List (ℤ × String)) : (sortSearch l).Pairwise searchLE := by
  have : IsTrans (ℤ × String) searchLE := ⟨fun a b c hab hbc =>
    searchLE_iff.mpr ((searchLE_iff.mp hab).trans (searchLE_iff.mp hbc))⟩
  have : Std.Total searchLE := ⟨fun a b => by
    rw [searchLE_iff,searchLE_iff]
    exact le_total _ _⟩
  exact pairwise_insertionSort searchLE l

theorem sortSearch_eq_of_perm {l l' : List (ℤ × String)} (h : l.Perm l') : sortSearch l = sortSearch l' := by
  have : Std.Antisymm searchLE := ⟨fun a b hab hba =>
    toLex.injective (le_antisymm (searchLE_iff.mp hab) (searchLE_iff.mp hba))⟩
  apply Perm.eq_of_pairwise' (pairwise_sortSearch l) (pairwise_sortSearch l')
  exact (perm_insertionSort _ l).trans (h.trans (perm_insertionSort _ l').symm)

end sort

section course
variable {room : Room} {t : AuthTables} {stateSets : List (List String)} {c : Course}

/-- Every event waits once, with its depth, and was met. -/
structure Course.Proper (t : AuthTables) (c : Course) : Prop where
  nodup : c.pending.Nodup
  seen : ∀ e ∈ c.pending, e ∈ c.seen
  depth : ∀ s ∈ c.search, t.depth.lookup s.2 = some s.1
  stored : ∀ e ∈ c.seen, e ∈ t.depth

theorem Course.rest_append_chunk (c : Course) : (c.rest.map fun s => s.2) ++ c.chunk = c.pending := by
  rw [Course.rest,Course.chunk,Course.pending,← map_append,take_append_drop]

theorem AuthTables.mem_newEvents {seen chunk : List String} {depth : ℤ} : (depth,e) ∈ t.newEvents seen chunk ↔
      e ∉ seen ∧ ∃ x ∈ chunk, (x,e) ∈ t.eventAuth ∧ t.depth.lookup e = some depth := by
  simp [newEvents,mem_authRows,and_comm]

theorem AuthTables.mem_newIds {seen chunk : List String} :
    (e ∈ (t.newEvents seen chunk).map fun s => s.2) ↔
      e ∉ seen ∧ e ∈ t.depth ∧ ∃ x ∈ chunk, (x,e) ∈ t.eventAuth := by
  simp only [mem_map,Prod.exists,exists_eq_right,mem_newEvents,Dict.mem_iff]
  tauto

theorem AuthTables.nodup_newEvents (t : AuthTables) (seen chunk : List String) :
    ((t.newEvents seen chunk).map fun s => s.2).Nodup := by
  rw [newEvents,List.map_map]
  apply Nodup.map_on _ ((nodup_dedup _).filter _)
  rintro ⟨a,d⟩ ha ⟨a',d'⟩ ha' heq
  obtain rfl : a = a' := heq
  obtain ⟨x,-,hx⟩ := mem_flatMap.mp (mem_dedup.mp (mem_filter.mp ha).1)
  obtain ⟨y,-,hy⟩ := mem_flatMap.mp (mem_dedup.mp (mem_filter.mp ha').1)
  have hd := (AuthTables.mem_authRows.mp hx).2
  have hd' := (AuthTables.mem_authRows.mp hy).2
  rw [Option.some.inj (hd.symm.trans hd')]

theorem AuthTables.pending_advance_perm (t : AuthTables) (c : Course) : (t.advance c).pending.Perm
      ((c.rest.map fun s => s.2) ++ (t.newEvents c.seen c.chunk).map fun s => s.2) := by
  rw [← map_append]
  exact (perm_insertionSort _ _).map _

theorem Course.Proper.advance (h : c.Proper t) : (t.advance c).Proper t := by
  have hperm := t.pending_advance_perm c
  have hsplit := c.rest_append_chunk
  have hnodup := h.nodup
  rw [← hsplit] at hnodup
  have hrest : ∀ e ∈ c.rest.map fun s => s.2, e ∈ c.seen := by
    intro e he
    exact h.seen e (hsplit ▸ mem_append_left _ he)
  refine ⟨?_,fun e he => ?_,fun s hs => ?_,fun e he => ?_⟩
  · rw [hperm.nodup_iff]
    apply hnodup.of_append_left.append (t.nodup_newEvents _ _)
    intro e he he'
    exact (AuthTables.mem_newIds.mp he').1 (hrest e he)
  · rcases mem_append.mp (hperm.mem_iff.mp he) with he | he
    · exact mem_append_left _ (hrest e he)
    · exact mem_append_right _ he
  · rcases mem_append.mp ((perm_insertionSort _ _).mem_iff.mp hs) with hs | hs
    · exact h.depth s (mem_of_mem_take hs)
    · obtain ⟨-,x,-,-,hd⟩ := AuthTables.mem_newEvents.mp hs
      exact hd
  · rcases mem_append.mp he with he | he
    · exact h.stored e he
    · exact (AuthTables.mem_newIds.mp he).2.1

theorem Course.Proper.walked_advance (h : c.Proper t) : (t.advance c).Walked e ↔ c.Walked e ∨ e ∈ c.chunk := by
  have hperm := t.pending_advance_perm c
  have hsplit := c.rest_append_chunk
  have hnodup := h.nodup
  rw [← hsplit] at hnodup
  have hseen : e ∈ (t.advance c).seen ↔ e ∈ c.seen ∨ e ∈ (t.newEvents c.seen c.chunk).map fun s => s.2 := by
    rw [AuthTables.advance,mem_append]
  have hnew : (e ∈ (t.newEvents c.seen c.chunk).map fun s => s.2) → e ∉ c.seen := fun he =>
    (AuthTables.mem_newIds.mp he).1
  have hmem' : e ∈ (t.advance c).pending ↔ (e ∈ c.rest.map fun s => s.2) ∨
      e ∈ (t.newEvents c.seen c.chunk).map fun s => s.2 := by
    rw [hperm.mem_iff,mem_append]
  have hold := h.seen e
  rw [Course.Walked,Course.Walked,hseen,hmem']
  grind

/-- The walk is at a point of its course, and its marks are exact there. -/
structure Follows (room : Room) (stateSets : List (List String)) (c : Course) (w : Walk) :
    Prop where
  marked : w.Marked room stateSets
  search : w.search = c.search
  keys : ∀ e, e ∈ w.eventToMissingSets ↔ e ∈ c.seen
  recorded : ∀ x a, Recorded w.eventToAuthEvents x a ↔ c.edge room x a

/-- The cache has the rows of an event, or nothing. -/
def AuthTables.Caches (t : AuthTables) (cached : String → Option (List (String × ℤ))) : Prop :=
  ∀ e res, cached e = some res → ∀ row, row ∈ res ↔ row ∈ t.authRows e

variable {cached : String → Option (List (String × ℤ))}

theorem AuthTables.Caches.mem_found (h : t.Caches cached) {chunk : List String} {x : String} {depth : ℤ} :
    (x,a,depth) ∈ t.found cached chunk ↔ x ∈ chunk ∧ (a,depth) ∈ t.authRows x := by
  rw [AuthTables.found,mem_append]
  simp only [mem_flatMap,mem_map,mem_filterMap,mem_filter,decide_eq_true_eq,
    Option.map_eq_some_iff,Prod.mk.injEq,AuthTables.mem_authRows]
  constructor
  · rintro (⟨e,he,⟨a',d'⟩,hrow,rfl,hpair⟩ | ⟨⟨x',a'⟩,⟨hin,hchunk,-⟩,d,hd,rfl,rfl,rfl⟩)
    · cases hpair
      cases hcached : cached e with
      | none =>
        rw [hcached] at hrow
        cases hrow
      | some res =>
        rw [hcached] at hrow
        exact ⟨he,AuthTables.mem_authRows.mp ((h e res hcached _).mp hrow)⟩
    · exact ⟨hchunk,hin,hd⟩
  · rintro ⟨hchunk,hin,hd⟩
    cases hcached : cached x with
    | none => exact .inr ⟨(x,a),⟨hin,hchunk,by simp [hcached]⟩,depth,hd,rfl,rfl,rfl⟩
    | some res =>
      refine .inl ⟨x,hchunk,(a,depth),?_,rfl,rfl⟩
      rw [hcached]
      exact (h x res hcached _).mpr (AuthTables.mem_authRows.mpr ⟨hin,hd⟩)

structure TakenIn (room : Room) (t : AuthTables) (stateSets : List (List String)) (w : Walk)
    (rest : List (ℤ × String)) (pre : List (String × String × ℤ)) (v : Walk) : Prop where
  marked : v.Marked room stateSets
  recorded : ∀ x a, Recorded v.eventToAuthEvents x a ↔
    Recorded w.eventToAuthEvents x a ∨ ∃ depth, (x,a,depth) ∈ pre
  keys : ∀ e, e ∈ v.eventToMissingSets ↔ e ∈ w.eventToMissingSets ∨ ∃ x depth, (x,e,depth) ∈ pre
  search : ∃ new, v.search = rest ++ new ∧ (new.map fun s => s.2).Nodup ∧
    ∀ depth e, (depth,e) ∈ new ↔ e ∉ w.eventToMissingSets ∧ ∃ x, (x,e,depth) ∈ pre

variable {w : Walk}

theorem TakenIn.step {v v' : Walk} {rest : List (ℤ × String)}
    {pre : List (String × String × ℤ)} {row : String × String × ℤ}
    (h : TakenIn room t stateSets w rest pre v)
    (hdepth : ∀ r ∈ pre ++ [row], t.depth.lookup r.2.1 = some r.2.2)
    (hadded : v.Added room stateSets row v') :
    TakenIn room t stateSets w rest (pre ++ [row]) v' := by
  obtain ⟨x,a,depth⟩ := row
  obtain ⟨new,hsearch,hnodup,hnew⟩ := h.search
  have hrow := hdepth (x,a,depth) (by simp)
  refine ⟨hadded.marked,fun u b => ?_,fun e => ?_,?_⟩
  · rw [hadded.recorded,h.recorded]
    simp [exists_or,or_assoc]
  · rw [hadded.keys,h.keys]
    simp [exists_or,or_comm,or_left_comm]
  by_cases hseen : a ∈ v.eventToMissingSets
  · refine ⟨new,by rw [hadded.search,hsearch,if_pos hseen,append_nil],hnodup,fun d e => ?_⟩
    rw [hnew]
    apply and_congr_right
    intro hnot
    refine ⟨fun ⟨u,hu⟩ => ⟨u,mem_append_left _ hu⟩,fun ⟨u,hu⟩ => ?_⟩
    rcases mem_append.mp hu with hu | hu
    · exact ⟨u,hu⟩
    · -- the event was found in this round before, with the same depth
      obtain ⟨rfl,hpair⟩ := Prod.mk.inj (mem_singleton.mp hu)
      obtain ⟨rfl,rfl⟩ := Prod.mk.inj hpair
      obtain ⟨y,d',hy⟩ := ((h.keys e).mp hseen).resolve_left hnot
      have hsame := hdepth (y,e,d') (mem_append_left _ hy)
      cases hrow.symm.trans hsame
      exact ⟨y,hy⟩
  · have hfresh := mt (h.keys a).mpr hseen
    rw [not_or] at hfresh
    refine ⟨new ++ [(depth,a)],by rw [hadded.search,hsearch,if_neg hseen,append_assoc],?_, fun d e => ?_⟩
    · rw [map_append,nodup_append]
      refine ⟨hnodup,by simp,?_⟩
      rintro e he _ hlast rfl
      obtain rfl : e = a := by simpa using hlast
      obtain ⟨⟨d,f⟩,hin,rfl⟩ := mem_map.mp he
      obtain ⟨-,u,hu⟩ := (hnew d f).mp hin
      exact hfresh.2 ⟨u,d,hu⟩
    · rw [mem_append,hnew]
      constructor
      · rintro (⟨hnot,u,hu⟩ | hin)
        · exact ⟨hnot,u,mem_append_left _ hu⟩
        · cases mem_singleton.mp hin
          exact ⟨hfresh.1,x,by simp⟩
      · rintro ⟨hnot,u,hu⟩
        rcases mem_append.mp hu with hu | hu
        · exact .inl ⟨hnot,u,hu⟩
        · cases mem_singleton.mp hu
          exact .inr (by simp)

theorem Follows.round (hstores : t.Stores room) (hcached : t.Caches cached) (hproper : c.Proper t)
    (h : Follows room stateSets c w) : ∃ w', t.round cached stateSets.length w = .ok w' ∧
      Follows room stateSets (t.advance c) w' := by
  have hrows : ∀ {x a depth}, (x,a,depth) ∈ t.found cached c.chunk ↔
      x ∈ c.chunk ∧ (x,a) ∈ t.eventAuth ∧ t.depth.lookup a = some depth := by
    intro x a depth
    rw [hcached.mem_found,AuthTables.mem_authRows]
  have hedge : ∀ x a, room.edge x a ↔ ∃ depth, (x,a) ∈ t.eventAuth ∧ t.depth.lookup a = some depth := by
    intro x a
    rw [Room.edge,hstores.auth,exists_and_left,← Dict.mem_iff]
    exact (and_iff_left_of_imp (hstores.stored x a)).symm
  have hchunk : ∀ x ∈ c.chunk, x ∈ c.seen := by
    intro x hx
    exact hproper.seen x (c.rest_append_chunk ▸ mem_append_right _ hx)
  obtain ⟨v,hrun,hv⟩ : ∃ v, (t.found cached c.chunk).foldlM (Walk.addFound stateSets.length)
      { w with search := c.rest } = .ok v ∧
      TakenIn room t stateSets w c.rest (t.found cached c.chunk) v := by
    apply foldlM_spec (fun pre v => TakenIn room t stateSets w c.rest pre v)
    · exact ⟨⟨h.marked.real,h.marked.seen,h.marked.initial,h.marked.marks⟩,by simp,by simp, [],by simp⟩
    intro pre row post v hsplit hv
    have hdepth : ∀ r ∈ pre ++ [row], t.depth.lookup r.2.1 = some r.2.2 := by
      intro r hr
      have hin : r ∈ t.found cached c.chunk := by
        rw [hsplit,append_cons]
        exact mem_append_left _ hr
      exact (hrows.mp hin).2.2
    have hrow : row ∈ t.found cached c.chunk := by simp [hsplit]
    obtain ⟨hin,hauth,hd⟩ := hrows.mp hrow
    have hx : row.1 ∈ v.eventToMissingSets :=
      (hv.keys row.1).mpr (.inl ((h.keys _).mpr (hchunk _ hin)))
    obtain ⟨v',hrun,hadded⟩ := hv.marked.addFound hx ((hedge _ _).mpr ⟨_,hauth,hd⟩)
    exact ⟨v',hrun,hv.step hdepth hadded⟩
  obtain ⟨new,hsearch,hnodup,hnew⟩ := hv.search
  refine ⟨{ v with search := sortSearch v.search },?_,?_,?_,fun e => ?_,fun x a => ?_⟩
  · have hrest : w.search.take (w.search.length - 100) = c.rest := by rw [h.search,Course.rest]
    have hids : ((w.search.drop (w.search.length - 100)).map fun s => s.2) = c.chunk := by
      rw [h.search,Course.chunk]
    rw [AuthTables.round]
    simp only [hrest,hids,hrun]
    rfl
  · exact ⟨hv.marked.real,hv.marked.seen,hv.marked.initial,hv.marked.marks⟩
  · rw [hsearch]
    apply sortSearch_eq_of_perm
    apply Perm.append_left
    rw [perm_ext_iff_of_nodup hnodup.of_map (t.nodup_newEvents _ _).of_map]
    rintro ⟨d,e⟩
    rw [hnew,AuthTables.mem_newEvents,h.keys]
    simp only [hrows]
  · rw [hv.keys,h.keys,AuthTables.advance,mem_append]
    simp only [hrows,AuthTables.mem_newIds,Dict.mem_iff]
    by_cases hin : e ∈ c.seen
    · simp [hin]
    · simp only [hin,false_or,not_false_eq_true,true_and]
      tauto
  · rw [hv.recorded,h.recorded,Course.edge,Course.edge,hproper.walked_advance,or_and_right]
    simp [hrows,hedge]

theorem mem_startWalk (t : AuthTables) (stateSets : List (List String)) {l : List ℕ} :
    (t.startWalk stateSets).eventToMissingSets.lookup e = some l ↔
      e ∈ stateSets.flatten ∧ l = setsWithout stateSets e := by
  rw [← mem_dedup]
  apply foldl_spec (fun (pre : List String) (d : Dict String (List ℕ)) =>
    d.lookup e = some l ↔ e ∈ pre ∧ l = setsWithout stateSets e)
  · simp
  intro pre f post d _ hd
  by_cases heq : e = f
  · subst heq
    simp [eq_comm]
  · rw [AList.lookup_insert_ne heq,hd]
    simp [heq]

theorem course_zero_pending (hsets : ∀ s ∈ stateSets, ∀ e ∈ s, e ∈ t.depth) :
    (t.course stateSets 0).pending.Perm stateSets.flatten.dedup := by
  have hall : ∀ e ∈ stateSets.flatten.dedup, ∃ d, t.depth.lookup e = some d := by
    intro e he
    obtain ⟨s,hs,hes⟩ := mem_flatten.mp (mem_dedup.mp he)
    exact Dict.mem_iff.mp (hsets s hs e hes)
  have hmap : ∀ l : List String, (∀ e ∈ l, ∃ d, t.depth.lookup e = some d) →
      (l.filterMap fun e => (t.depth.lookup e).map fun d => (d,e)).map (fun s => s.2) = l := by
    intro l hl
    induction l with
    | nil => rfl
    | cons e l ih =>
      obtain ⟨d,hd⟩ := hl e mem_cons_self
      simp [hd,ih fun f hf => hl f (mem_cons_of_mem _ hf)]
  have hsort := (perm_insertionSort (fun a b : ℤ × String => a.1 < b.1 ∨ a.1 = b.1 ∧ a.2 ≤ b.2)
    (stateSets.flatten.dedup.filterMap fun e => (t.depth.lookup e).map fun d => (d,e))).map fun s => s.2
  rw [hmap _ hall] at hsort
  exact hsort

theorem course_proper (hsets : ∀ s ∈ stateSets, ∀ e ∈ s, e ∈ t.depth) (k : ℕ) :
    (t.course stateSets k).Proper t := by
  induction k with
  | zero =>
    have hperm := course_zero_pending hsets
    refine ⟨hperm.nodup_iff.mpr (nodup_dedup _),fun e he => hperm.mem_iff.mp he, fun s hs => ?_,fun e he => ?_⟩
    · obtain ⟨e,-,he⟩ := mem_filterMap.mp ((perm_insertionSort _ _).mem_iff.mp hs)
      obtain ⟨d,hd,rfl⟩ := Option.map_eq_some_iff.mp he
      exact hd
    · obtain ⟨s,hs,hes⟩ := mem_flatten.mp (mem_dedup.mp he)
      exact hsets s hs e hes
  | succ k ih => exact ih.advance

theorem follows_start (room : Room) (hsets : ∀ s ∈ stateSets, ∀ e ∈ s, e ∈ t.depth) :
    Follows room stateSets (t.course stateSets 0) (t.startWalk stateSets) := by
  have hnone : ∀ x a, ¬Recorded (t.startWalk stateSets).eventToAuthEvents x a := by
    rintro x a ⟨l,hl,-⟩
    cases hl
  have hkeys : ∀ e, e ∈ (t.startWalk stateSets).eventToMissingSets ↔ e ∈ stateSets.flatten := by
    intro e
    simp [Dict.mem_iff,mem_startWalk]
  refine ⟨⟨fun x a h => absurd h (hnone x a),fun x a h => absurd h (hnone x a),?_,?_⟩,rfl,?_,?_⟩
  · intro s hs e he
    exact (hkeys e).mpr (mem_flatten.mpr ⟨s,hs,he⟩)
  · intro e l hl i
    obtain ⟨-,rfl⟩ := (mem_startWalk t stateSets).mp hl
    have hreached : ReachedBy (Recorded (t.startWalk stateSets).eventToAuthEvents) stateSets i e ↔
        e ∈ stateSets.getD i [] := by
      constructor
      · rintro ⟨s,hs,hr⟩
        rcases ReflTransGen.cases_head hr with rfl | ⟨u,hu,-⟩
        · exact hs
        · exact absurd hu (hnone s u)
      · intro he
        exact ⟨e,he,.refl⟩
    rw [hreached,setsWithout,mem_filter,mem_range,decide_eq_true_eq]
  · intro e
    rw [hkeys]
    exact mem_dedup.symm
  · intro x a
    refine ⟨fun h => absurd h (hnone x a),fun h => ?_⟩
    exact absurd ((course_zero_pending hsets).mem_iff.mpr h.1.1) h.1.2

def Course.Stops (room : Room) (stateSets : List (List String)) (c : Course) : Prop :=
  ∀ e ∈ c.pending, ∀ i < stateSets.length, ReachedBy (c.edge room) stateSets i e

theorem Follows.missing_iff (h : Follows room stateSets c w) {l : List ℕ}
    (hl : w.eventToMissingSets.lookup e = some l) :
    l = [] ↔ ∀ i < stateSets.length, ReachedBy (c.edge room) stateSets i e := by
  have hedge : Recorded w.eventToAuthEvents = c.edge room := by
    funext x a
    exact propext (h.recorded x a)
  rw [eq_nil_iff_forall_not_mem]
  apply forall_congr'
  intro i
  rw [h.marked.marks e l hl i,hedge,not_and,not_not]

theorem Follows.reached (hproper : c.Proper t) (h : Follows room stateSets c w) :
    ∃ reached, (w.search.allM fun s => do
      let sets ← w.eventToMissingSets.get s.2
      pure sets.isEmpty : Except Error Bool) = .ok reached ∧
      (reached = true ↔ c.Stops room stateSets) := by
  have hstops : c.Stops room stateSets ↔ ∀ s ∈ w.search, ∀ l,
      w.eventToMissingSets.lookup s.2 = some l → l = [] := by
    rw [h.search]
    constructor
    · intro hall s hs l hl
      exact (h.missing_iff hl).mpr (hall s.2 (mem_map_of_mem hs))
    · intro hall e he
      obtain ⟨s,hs,rfl⟩ := mem_map.mp he
      obtain ⟨l,hl⟩ := Dict.mem_iff.mp ((h.keys s.2).mpr (hproper.seen s.2 he))
      exact (h.missing_iff hl).mp (hall s hs l hl)
  have hknown : ∀ s ∈ w.search, ∃ l, w.eventToMissingSets.lookup s.2 = some l := by
    intro s hs
    rw [h.search] at hs
    exact Dict.mem_iff.mp ((h.keys s.2).mpr (hproper.seen s.2 (mem_map_of_mem hs)))
  rw [hstops]
  generalize w.search = search at hknown ⊢
  induction search with
  | nil => exact ⟨true,rfl,by simp⟩
  | cons s rest ih =>
    obtain ⟨l,hl⟩ := hknown s mem_cons_self
    obtain ⟨reached,hrun,hiff⟩ := ih fun s' hs' => hknown s' (mem_cons_of_mem _ hs')
    cases l with
    | nil =>
      refine ⟨reached,?_,?_⟩
      · rw [allM,Dict.get_eq_ok.mpr hl]
        exact hrun
      · rw [hiff,forall_mem_cons]
        exact (and_iff_right fun l' hl' => (Option.some.inj (hl.symm.trans hl')).symm).symm
    | cons i l =>
      refine ⟨false,?_,?_⟩
      · rw [allM,Dict.get_eq_ok.mpr hl]
        rfl
      · simp only [Bool.false_eq_true,false_iff]
        intro hall
        cases hall s mem_cons_self _ hl

open Classical in
noncomputable def Course.remaining (t : AuthTables) (c : Course) : Finset String :=
  t.depth.keys.toFinset.filter fun e => ¬c.Walked e

theorem Course.mem_remaining : e ∈ c.remaining t ↔ e ∈ t.depth ∧ ¬c.Walked e := by
  simp [Course.remaining,AList.mem_keys]

theorem Course.remaining_card_le (t : AuthTables) (c : Course) :
    (c.remaining t).card ≤ t.depth.entries.length := by
  have hsub : c.remaining t ⊆ t.depth.keys.toFinset := by
    intro e he
    exact mem_toFinset.mpr (AList.mem_keys.mpr (mem_remaining.mp he).1)
  apply (Finset.card_le_card hsub).trans
  apply (toFinset_card_le _).trans
  rw [AList.keys,keys,length_map]

theorem Course.Proper.remaining_lt (h : c.Proper t) (hne : c.pending ≠ []) :
    ((t.advance c).remaining t).card < (c.remaining t).card := by
  have hchunk : c.chunk ≠ [] := by
    intro hnil
    have hlen := congrArg length hnil
    have hpos := length_pos_of_ne_nil hne
    simp only [Course.chunk,Course.pending,length_map,length_drop, length_nil] at hlen hpos
    omega
  obtain ⟨e,he⟩ := exists_mem_of_ne_nil _ hchunk
  have hpending : e ∈ c.pending := c.rest_append_chunk ▸ mem_append_right _ he
  apply Finset.card_lt_card
  rw [Finset.ssubset_iff_of_subset]
  · refine ⟨e,Course.mem_remaining.mpr ⟨h.stored e (h.seen e hpending),fun hw => hw.2 hpending⟩,?_⟩
    intro hin
    exact (Course.mem_remaining.mp hin).2 (h.walked_advance.mpr (.inr he))
  · intro f hf
    obtain ⟨hstored,hnot⟩ := Course.mem_remaining.mp hf
    exact Course.mem_remaining.mpr ⟨hstored,fun hw => hnot (h.walked_advance.mpr (.inl hw))⟩

theorem walk_stops {cache : AuthCache} (hstores : t.Stores room) (hcache : ∀ n, t.Caches (cache n))
    (hsets : ∀ s ∈ stateSets, ∀ e ∈ s, e ∈ t.depth) (fuel k round : ℕ)
    (h : Follows room stateSets (t.course stateSets k) w)
    (hfuel : ((t.course stateSets k).remaining t).card < fuel) :
    ∃ j w', t.walk cache stateSets.length fuel round w = .ok w' ∧
      Follows room stateSets (t.course stateSets j) w' ∧
      (t.course stateSets j).Stops room stateSets ∧
      ∀ i, k ≤ i → i < j → ¬(t.course stateSets i).Stops room stateSets := by
  induction fuel generalizing k round w with
  | zero => omega
  | succ fuel ih =>
    have hproper := course_proper hsets k
    obtain ⟨reached,hrun,hiff⟩ := h.reached hproper
    rw [AuthTables.walk,hrun]
    by_cases hstops : (t.course stateSets k).Stops room stateSets
    · obtain rfl := hiff.mpr hstops
      exact ⟨k,w,rfl,h,hstops,fun i hk hi => absurd hi (by omega)⟩
    · obtain rfl : reached = false := Bool.eq_false_iff.mpr (mt hiff.mp hstops)
      have hne : (t.course stateSets k).pending ≠ [] := by
        intro hnil
        apply hstops
        intro e he
        rw [hnil] at he
        cases he
      have hlt := hproper.remaining_lt hne
      obtain ⟨w₁,hround,h₁⟩ := h.round hstores (hcache round) hproper
      obtain ⟨j,w',hwalk,hfollows,hstop,hfirst⟩ := ih (k + 1) (round + 1) h₁ (by
        show ((t.advance (t.course stateSets k)).remaining t).card < fuel
        omega)
      refine ⟨j,w',?_,hfollows,hstop,fun i hk hi => ?_⟩
      · simp only [hround]
        exact hwalk
      · rcases Nat.eq_or_lt_of_le hk with rfl | hlt
        · exact hstops
        · exact hfirst i hlt hi

theorem reachedBy_iff {i : ℕ} (hi : i < stateSets.length) :
    ReachedBy room.edge stateSets i e ↔ room.InChain stateSets[i] e := by
  rw [Room.InChain,ReachedBy,getD_eq_getElem?_getD,getElem?_eq_getElem hi,Option.getD_some]

theorem forall_inChain_iff : (∀ s ∈ stateSets, room.InChain s e) ↔
    ∀ i < stateSets.length, ReachedBy room.edge stateSets i e := by
  rw [forall_mem_iff_getElem]
  exact forall₂_congr fun i hi => (reachedBy_iff hi).symm

theorem exists_inChain_iff : (∃ s ∈ stateSets, room.InChain s e) ↔
    ∃ i < stateSets.length, ReachedBy room.edge stateSets i e := by
  rw [exists_mem_iff_getElem]
  constructor
  · rintro ⟨i,hi,hin⟩
    exact ⟨i,hi,(reachedBy_iff hi).mpr hin⟩
  · rintro ⟨i,hi,hr⟩
    exact ⟨i,hi,(reachedBy_iff hi).mp hr⟩

theorem course_seen_reached (hstores : t.Stores room)
    (hsets : ∀ s ∈ stateSets, ∀ e ∈ s, e ∈ t.depth) (k : ℕ) (he : e ∈ (t.course stateSets k).seen) :
    ∃ i < stateSets.length, ReachedBy ((t.course stateSets k).edge room) stateSets i e := by
  induction k generalizing e with
  | zero =>
    obtain ⟨s,hs,hes⟩ := mem_flatten.mp (mem_dedup.mp he)
    obtain ⟨i,hi,rfl⟩ := mem_iff_getElem.mp hs
    refine ⟨i,hi,e,?_,.refl⟩
    rw [getD_eq_getElem?_getD,getElem?_eq_getElem hi]
    exact hes
  | succ k ih =>
    have hproper := course_proper hsets k
    have hmono : ∀ x a, (t.course stateSets k).edge room x a →
        (t.course stateSets (k + 1)).edge room x a := fun x a h =>
      ⟨hproper.walked_advance.mpr (.inl h.1),h.2⟩
    rcases mem_append.mp he with he | he
    · obtain ⟨i,hi,hr⟩ := ih he
      exact ⟨i,hi,hr.mono hmono⟩
    · obtain ⟨-,-,x,hx,hauth⟩ := AuthTables.mem_newIds.mp he
      have hpending : x ∈ (t.course stateSets k).pending :=
        (t.course stateSets k).rest_append_chunk ▸ mem_append_right _ hx
      obtain ⟨i,hi,s,hs,hr⟩ := ih (hproper.seen x hpending)
      have hedge : (t.course stateSets (k + 1)).edge room x e :=
        ⟨hproper.walked_advance.mpr (.inr hx),(hstores.auth x e).mpr hauth⟩
      exact ⟨i,hi,s,hs,(ReflTransGen.mono hmono _ _ hr).tail hedge⟩

/-- When the walk stops, an event in an auth chain was met on the way, or every state set
reaches it. -/
theorem Follows.met_or_common (h : Follows room stateSets c w)
    (hstops : c.Stops room stateSets) {i : ℕ} (hr : ReachedBy room.edge stateSets i e) :
    (e ∈ c.seen ∧ ReachedBy (c.edge room) stateSets i e) ∨
      ∀ j < stateSets.length, ReachedBy room.edge stateSets j e := by
  obtain ⟨s,hs,hr⟩ := hr
  induction hr with
  | refl =>
    have hstart : ReachedBy (Recorded w.eventToAuthEvents) stateSets i s := ⟨s,hs,.refl⟩
    exact .inl ⟨(h.keys s).mp (h.marked.mem_of_reachedBy hstart),s,hs,.refl⟩
  | @tail u v _ huv ih =>
    rcases ih with ⟨hseen,s',hs',hr'⟩ | hall
    · by_cases hpending : u ∈ c.pending
      · apply Or.inr
        intro j hj
        obtain ⟨s'',hs'',hr''⟩ := hstops u hpending j hj
        exact ⟨s'',hs'',(ReflTransGen.mono (fun _ _ he => he.2) _ _ hr'').tail huv⟩
      · have hedge : c.edge room u v := ⟨⟨hseen,hpending⟩,huv⟩
        have hrecorded := (h.recorded u v).mpr hedge
        exact .inl ⟨(h.keys v).mp (h.marked.seen u v hrecorded).2,s',hs',hr'.tail hedge⟩
    · apply Or.inr
      intro j hj
      obtain ⟨s'',hs'',hr''⟩ := hall j hj
      exact ⟨s'',hs'',hr''.tail huv⟩

end course

/-- When the walk may stop for the first time, every event that was met and that all state sets
reach is reached by all of them along the auth events of walked events. -/
def AuthTables.Settled (room : Room) (t : AuthTables) (stateSets : List (List String)) : Prop :=
  ∀ k, (t.course stateSets k).Stops room stateSets → (∀ j < k, ¬(t.course stateSets j).Stops room stateSets) →
    ∀ e ∈ (t.course stateSets k).seen, (∀ s ∈ stateSets, room.InChain s e) →
      ∀ i < stateSets.length, ReachedBy ((t.course stateSets k).edge room) stateSets i e

def lineRoom : Room where
  auth e := if e = "$c" then ["$b"] else if e = "$b" then ["$a"] else []
  acyclic := .of_rank (fun e => if e = "$c" then 2 else if e = "$b" then 1 else 0) fun n m hm => by
    split at hm
    case isTrue hn => simp [hn,mem_singleton.mp hm]
    case isFalse hn =>
      split at hm
      case isTrue hb => simp [hb,mem_singleton.mp hm]
      case isFalse => cases hm

def lineTables : AuthTables where
  depth := (((∅ : Dict String ℤ).insert "$a" 1).insert "$b" 2).insert "$c" 3
  eventAuth := [("$c","$b"),("$b","$a")]

theorem lineRoom_edges : lineRoom.edge "$c" "$b" ∧ lineRoom.edge "$b" "$a" := by
  simp [Room.edge,lineRoom]

theorem lineTables_stores : lineTables.Stores lineRoom := by
  constructor
  · intro e a
    by_cases hb : e = "$b" <;> simp [lineRoom,lineTables,hb]
  · intro e a hin
    simp only [lineTables,mem_cons,not_mem_nil,or_false] at hin
    rcases hin with ⟨-,rfl⟩ | ⟨-,rfl⟩ <;> decide

end TextrpBriij.AuthChain
