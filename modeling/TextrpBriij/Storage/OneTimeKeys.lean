import TextrpBriij.Foundation.Paging
import TextrpBriij.Foundation.Runs

/-! # One-time keys

Keys are uploaded and claimed in any interleaving. PostgreSQL claims all entries of a query list in
one statement, SQLite each of them in a transaction. An ID is uploaded once for an owner. Neither an
algorithm nor an ID has a colon, so the names of the results keep them apart.
-/
namespace TextrpBriij.Storage.OneTimeKeys
open List

structure Owner where
  userId : String
  deviceId : String
  algorithm : String
deriving DecidableEq

structure OneTimeKey (α : Type) where
  owner : Owner
  keyId : String
  keyJson : α
  tsAddedMs : ℤ

abbrev Query := Owner × ℤ

variable {α : Type}

def OneTimeKey.id (key : OneTimeKey α) : Owner × String := (key.owner,key.keyId)

/-- `ORDER BY ts_added_ms`, where equal times may come in any order. -/
structure Ranking (α : Type) where
  order : List (OneTimeKey α × ℤ) → List (OneTimeKey α × ℤ)
  perm : ∀ rows, (order rows).Perm rows
  sorted : ∀ rows, (order rows).Pairwise fun a b => a.1.tsAddedMs ≤ b.1.tsAddedMs

variable (r : Ranking α) (table : List (OneTimeKey α))

/-- The keys of an owner, each with the count of each claim on it. -/
def joined (queries : List Query) (owner : Owner) : List (OneTimeKey α × ℤ) :=
  (table.filter (·.owner = owner)).flatMap fun key =>
    (queries.filter (·.1 = owner)).map fun q => (key,q.2)

/-- A negative `LIMIT` is none. -/
def claimSimple (q : Query) : List (OneTimeKey α) :=
  let rows := (r.order (joined table [q] q.1)).map Prod.fst
  if q.2 < 0 then rows else rows.take q.2.toNat

/-- The keys of an owner whose row number is up to the count. -/
def ranked (queries : List Query) (owner : Owner) : List (OneTimeKey α) :=
  (((r.order (joined table queries owner)).zipIdx.filter fun row => (row.2 : ℤ) < row.1.2).map
    Prod.fst).map Prod.fst

def isAmong (keys : List (OneTimeKey α)) (key : OneTimeKey α) : Bool := key.id ∈ keys.map (·.id)

def claimBulk (queries : List Query) : List (OneTimeKey α) :=
  table.filter fun key => isAmong (ranked r table queries key.owner) key

/-- What is left of the last count of an owner. -/
def unfulfilled (queries : List Query) (got : List (OneTimeKey α)) (owner : Owner) : ℤ :=
  ((queries.reverse.find? (·.1 = owner)).map Prod.snd).getD 0 - got.countP (·.owner = owner)

/-- An entry with the keys that it got, and the table that they were taken from. -/
structure Served (α : Type) where
  query : Query
  got : List (OneTimeKey α)
  table : List (OneTimeKey α)

/-- A call with the entries that are left, the results for the others and what is missing. -/
structure Call (α : Type) where
  queries : List Query
  left : List Query
  served : List (Served α)
  missing : List Query

/-- The next statement of the call, and the keys that it returns. -/
def Call.advance (isPostgres : Bool) (call : Call α) : Call α × List (OneTimeKey α) :=
  if isPostgres then
    let got := claimBulk r table call.left
    ({ call with
      left := []
      served := call.served ++ call.left.map fun q => ⟨q,got.filter (·.owner = q.1),table⟩
      -- the owners in the order in which the entries put them into the dictionary
      missing := call.missing ++ (call.left.map Prod.fst).reverse.dedup.reverse.filterMap fun owner =>
        let count := unfulfilled call.left got owner
        if 0 < count then some (owner,count) else none },got)
  else match call.left with
    | [] => (call,[])
    | q :: left =>
      let got := claimSimple r table q
      let count := q.2 - got.length
      ({ call with
        left
        served := call.served ++ [⟨q,got,table⟩]
        missing := if count ≠ 0 then call.missing ++ [(q.1,count)] else call.missing },got)

/-- `stored` and `returned` are all keys that were ever uploaded, and all that were handed out. -/
structure State (α : Type) where
  table : List (OneTimeKey α)
  calls : List (Call α)
  stored : List (OneTimeKey α)
  returned : List (OneTimeKey α)

inductive Action (α : Type) where
  | upload (keys : List (OneTimeKey α))
  | claim (queries : List Query)
  | advance (i : ℕ) (r : Ranking α)

def step (isPostgres : Bool) (s : State α) : Action α → Option (State α)
  | .upload keys =>
    if ((s.stored ++ keys).map (·.id)).Nodup then some { s with
      table := s.table ++ keys
      stored := s.stored ++ keys }
    else none
  | .claim queries => some { s with calls := s.calls ++ [⟨queries,queries,[],[]⟩] }
  | .advance i r => s.calls[i]?.map fun call =>
      let next := call.advance r s.table isPostgres
      { s with
        table := s.table.filter fun key => !isAmong next.2 key
        calls := s.calls.set i next.1
        returned := s.returned ++ next.2 }

/-- The entry got as many keys as it asked for or all there were, and none that is newer than one
left behind. -/
structure Served.Fair (e : Served α) : Prop where
  own : ∀ key ∈ e.got, key ∈ e.table ∧ key.owner = e.query.1
  length : e.got.length = min e.query.2.toNat (e.table.countP (·.owner = e.query.1))
  oldest : ∀ key ∈ e.got, ∀ other ∈ e.table, other.owner = e.query.1 → other ∉ e.got →
    key.tsAddedMs ≤ other.tsAddedMs

def Served.shortfall (e : Served α) : Option Query :=
  if 0 < e.query.2 - e.got.length then some (e.query.1,e.query.2 - e.got.length) else none

/-- The entries are distinct, and ask for no negative number. -/
def Proper (queries : List Query) : Prop :=
  (queries.map Prod.fst).Nodup ∧ ∀ q ∈ queries, 0 ≤ q.2

structure Call.Answered (call : Call α) : Prop where
  entries : call.served.map Served.query ++ call.left = call.queries
  fair : ∀ e ∈ call.served, e.Fair
  missing : call.missing = call.served.filterMap Served.shortfall

variable {r table} {got : List (OneTimeKey α)} {q : Query} {queries : List Query}

theorem perm_filter_isAmong (hids : (table.map (·.id)).Nodup) (hnodup : got.Nodup)
    (hsub : got ⊆ table) : (table.filter (isAmong got)).Perm got := by
  refine (perm_ext_iff_of_nodup (hids.of_map.filter _) hnodup).mpr fun key => ?_
  simp only [mem_filter,isAmong,decide_eq_true_eq,mem_map]
  constructor
  · rintro ⟨hkey,other,hother,heq⟩
    exact inj_on_of_nodup_map hids (hsub hother) hkey heq ▸ hother
  · intro hkey
    exact ⟨hsub hkey,key,hkey,rfl⟩

theorem ordered_perm (r : Ranking α) (table : List (OneTimeKey α)) (q : Query) :
    ((r.order (joined table [q] q.1)).map Prod.fst).Perm (table.filter (·.owner = q.1)) := by
  have h := (r.perm (joined table [q] q.1)).map Prod.fst
  simpa [joined,map_flatMap] using h

/-- What an entry should get, where no other is for its owner. -/
def oldest (r : Ranking α) (table : List (OneTimeKey α)) (q : Query) : List (OneTimeKey α) :=
  ((r.order (joined table [q] q.1)).map Prod.fst).take q.2.toNat

theorem fair_of_perm (h : got.Perm (oldest r table q)) : Served.Fair ⟨q,got,table⟩ := by
  have hkeys := ordered_perm r table q
  have hown : ∀ key ∈ got, key ∈ table ∧ key.owner = q.1 := by
    intro key hkey
    simpa using hkeys.mem_iff.mp (mem_of_mem_take (h.mem_iff.mp hkey))
  refine ⟨hown,?_,?_⟩
  · rw [h.length_eq,oldest,length_take,hkeys.length_eq,countP_eq_length_filter]
  · intro key hkey other hother howner hleft
    have hsorted : ((r.order (joined table [q] q.1)).map Prod.fst).Pairwise
        fun a b => a.tsAddedMs ≤ b.tsAddedMs := pairwise_map.mpr (r.sorted _)
    rw [← take_append_drop q.2.toNat (map _ _)] at hsorted
    have hmem := hkeys.mem_iff.mpr (mem_filter.mpr ⟨hother,decide_eq_true howner⟩)
    rw [← take_append_drop q.2.toNat (map _ _)] at hmem
    have hdrop := (mem_append.mp hmem).resolve_left (mt h.mem_iff.mpr hleft)
    exact (pairwise_append.mp hsorted).2.2 key (h.mem_iff.mp hkey) other hdrop

theorem take_zipIdx {rows : List (OneTimeKey α × ℤ)} {count : ℤ} (h : ∀ row ∈ rows, row.2 = count)
    (n : ℕ) : ((rows.zipIdx n).filter fun row => (row.2 : ℤ) < row.1.2).map Prod.fst =
      rows.take (count.toNat - n) := by
  induction rows generalizing n with
  | nil => simp
  | cons row rows ih =>
    obtain ⟨rfl,hrows⟩ := forall_mem_cons.mp h
    by_cases hlt : (n : ℤ) < row.2
    · have hsucc : row.2.toNat - n = row.2.toNat - (n + 1) + 1 := by omega
      simp [hlt,ih hrows,hsucc]
    · have hzero : row.2.toNat - n = 0 ∧ row.2.toNat - (n + 1) = 0 := by omega
      simp [hlt,ih hrows,hzero]

theorem ranked_eq_oldest (h : queries.filter (·.1 = q.1) = [q]) :
    ranked r table queries q.1 = oldest r table q := by
  have hjoined : joined table queries q.1 = joined table [q] q.1 := by simp [joined,h]
  have hcount : ∀ row ∈ r.order (joined table [q] q.1), row.2 = q.2 := by
    intro row hrow
    have hmem := (r.perm _).mem_iff.mp hrow
    simp only [joined,mem_flatMap,mem_map,mem_filter,mem_singleton] at hmem
    obtain ⟨_,-,_,⟨rfl,-⟩,rfl⟩ := hmem
    rfl
  rw [ranked,hjoined,take_zipIdx hcount,map_take]
  rfl

theorem claimBulk_perm (hids : (table.map (·.id)).Nodup) (h : queries.filter (·.1 = q.1) = [q]) :
    ((claimBulk r table queries).filter (·.owner = q.1)).Perm (oldest r table q) := by
  have hown := (fair_of_perm (.refl (oldest r table q))).own
  have hnodup : (oldest r table q).Nodup :=
    ((ordered_perm r table q).nodup_iff.mpr (hids.of_map.filter _)).sublist (take_sublist ..)
  have hfilter : (claimBulk r table queries).filter (·.owner = q.1) =
      table.filter (isAmong (oldest r table q)) := by
    rw [claimBulk,filter_filter,← ranked_eq_oldest h]
    refine filter_congr fun key _ => ?_
    by_cases howner : key.owner = q.1
    · simp [howner]
    · have hnot : isAmong (ranked r table queries q.1) key = false := by
        simp only [isAmong,decide_eq_false_iff_not,mem_map,not_exists,not_and]
        intro other hother heq
        rw [ranked_eq_oldest h] at hother
        exact howner ((Prod.ext_iff.mp heq).1.symm.trans (hown other hother).2)
      simp [howner,hnot]
  rw [hfilter]
  exact perm_filter_isAmong hids hnodup fun key hkey => (hown key hkey).1

theorem filter_owner_eq (hnodup : (queries.map Prod.fst).Nodup) (hq : q ∈ queries) :
    queries.filter (·.1 = q.1) = [q] := by
  have hperm : (queries.filter (·.1 = q.1)).Perm [q] := by
    refine (perm_ext_iff_of_nodup (hnodup.of_map.filter _) (nodup_singleton q)).mpr ?_
    intro p
    simp only [mem_filter,decide_eq_true_eq,mem_singleton]
    exact ⟨fun h => inj_on_of_nodup_map hnodup h.1 hq h.2,by rintro rfl; exact ⟨hq,rfl⟩⟩
  exact perm_singleton.mp hperm

theorem Call.advance_returns (r : Ranking α) (table : List (OneTimeKey α)) (isPostgres : Bool)
    (call : Call α) : (call.advance r table isPostgres).2.Subperm table := by
  unfold advance
  split
  · exact filter_sublist.subperm
  · split
    · exact nil_subperm
    · rename_i q _ _
      have hperm := (ordered_perm r table q).subperm.trans filter_sublist.subperm
      simp only [claimSimple]
      split
      · exact hperm
      · exact (take_sublist ..).subperm.trans hperm

theorem Call.Answered.append {call : Call α} (h : call.Answered) {es : List (Served α)}
    {left missing : List Query} (hleft : call.left = es.map Served.query ++ left)
    (hfair : ∀ e ∈ es, e.Fair)
    (hmissing : missing = call.missing ++ es.filterMap Served.shortfall) :
    Call.Answered ⟨call.queries,left,call.served ++ es,missing⟩ where
  entries := by simp [← h.entries,hleft]
  fair e he := (mem_append.mp he).elim (h.fair e) (hfair e)
  missing := by rw [hmissing,h.missing,filterMap_append]

theorem Call.Answered.advance {call : Call α} (h : call.Answered) (hproper : Proper call.queries)
    (hids : (table.map (·.id)).Nodup) (isPostgres : Bool) :
    (call.advance r table isPostgres).1.Answered := by
  have hleft : Proper call.left := by
    rw [← h.entries,Proper,map_append] at hproper
    exact ⟨hproper.1.of_append_right,fun q hq => hproper.2 q (mem_append_right _ hq)⟩
  unfold Call.advance
  split
  · refine h.append (by simp [Function.comp_def]) ?_ ?_
    · simp only [forall_mem_map]
      intro q hq
      exact fair_of_perm (claimBulk_perm hids (filter_owner_eq hleft.1 hq))
    · rw [(nodup_reverse.mpr hleft.1).dedup,reverse_reverse,filterMap_map, filterMap_map]
      congr 1
      refine filterMap_congr fun q hq => ?_
      have hcount : unfulfilled call.left (claimBulk r table call.left) q.1 =
          q.2 - ((claimBulk r table call.left).filter (·.owner = q.1)).length := by
        rw [unfulfilled,← head?_filter,filter_reverse,filter_owner_eq hleft.1 hq, countP_eq_length_filter]
        rfl
      simp [hcount,Served.shortfall]
  · split
    · exact h
    · rename_i q left hq
      have hnonneg : 0 ≤ q.2 := hleft.2 q (by simp [hq])
      have hsimple : claimSimple r table q = oldest r table q := if_neg (by omega)
      have hfair := fair_of_perm (q := q) (.of_eq hsimple)
      have hlength := hfair.length
      refine h.append (by simp [hq]) (by simpa using hfair) ?_
      simp only [filterMap_cons,filterMap_nil,Served.shortfall]
      split
      · rw [if_pos (by simp only at hlength; omega)]
      · rw [if_neg (by omega),append_nil]

structure Inv (s : State α) : Prop where
  ids : (s.stored.map (·.id)).Nodup
  perm : (s.returned ++ s.table).Perm s.stored
  answered : ∀ call ∈ s.calls, Proper call.queries → call.Answered

theorem Inv.step {isPostgres : Bool} {s s' : State α} {a : Action α} (h : Inv s)
    (hstep : OneTimeKeys.step isPostgres s a = some s') : Inv s' := by
  cases a with
  | upload keys =>
    obtain ⟨hids,heq⟩ := Option.ite_none_right_eq_some.mp hstep
    cases heq
    refine { h with ids := hids, perm := ?_ }
    rw [← append_assoc]
    exact h.perm.append_right keys
  | claim queries =>
    cases hstep
    refine { h with answered := forall_mem_append.mpr ⟨h.answered,forall_mem_singleton.mpr ?_⟩ }
    exact fun _ => ⟨rfl,nofun,rfl⟩
  | advance i r =>
    obtain ⟨call,hcall,rfl⟩ := Option.map_eq_some_iff.mp hstep
    have hids := (h.perm.map OneTimeKey.id).nodup_iff.mpr h.ids
    rw [map_append] at hids
    obtain ⟨got,hgot,hsub⟩ := call.advance_returns r s.table isPostgres
    have hnodup := hgot.nodup_iff.mp (hsub.nodup hids.of_append_right.of_map)
    refine ⟨h.ids,?_,?_⟩
    · have hperm := perm_filter_isAmong hids.of_append_right hnodup fun key hkey =>
        hsub.subset (hgot.mem_iff.mpr hkey)
      rw [append_assoc]
      exact (((hperm.symm.append_right _).trans (filter_append_perm ..)).append_left _).trans h.perm
    · refine Runs.forall_mem_set h.answered ?_
      have hqueries : (call.advance r s.table isPostgres).1.queries = call.queries := by
        unfold Call.advance
        split
        · rfl
        · split <;> rfl
      intro hproper
      rw [hqueries] at hproper
      exact (h.answered call (mem_of_getElem? hcall) hproper).advance hproper hids.of_append_right isPostgres

def byTime : Ranking α :=
  ⟨Paging.orderBy (·.1.tsAddedMs),fun _ => Paging.orderBy_perm,fun _ => Paging.orderBy_sorted⟩

def phone : Owner := ⟨"@alice:example.com","PHONE","signed_curve25519"⟩

end TextrpBriij.Storage.OneTimeKeys
