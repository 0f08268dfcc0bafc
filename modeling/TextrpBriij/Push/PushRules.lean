import TextrpBriij.AuthChain.CoverIndex
import TextrpBriij.Foundation.Runs

/-! # The order of the push rules of a user

The rules of a class are ordered by their priorities, the greatest first. To make room for a
rule, the priorities from its own on are raised by one.
-/
namespace TextrpBriij.Push
open List
open AuthChain (Dict)

structure PushRule where
  priorityClass : ℤ
  priority : ℤ
  conditions : String
  actions : String

/-- The rows of one user in `push_rules`. -/
abbrev PushRules := Dict String PushRule

structure NewRule where
  ruleId : String
  priorityClass : ℤ
  conditions : String := "[]"
  actions : String := "[]"
  before : Option String := none
  after : Option String := none

inductive PushRuleError
  | ruleNotFound (message : String)
  | inconsistentRule (message : String)
  | storeError (code : ℕ) (message : String)

inductive Call
  | add (new : NewRule)
  | delete (ruleId : String)

def Call.ruleId : Call → String
  | add new => new.ruleId
  | delete ruleId => ruleId

namespace PushRules

variable (rules : PushRules) (new : NewRule) (c n : ℤ)

def raised (priority : ℤ) : ℤ := if n ≤ priority then priority + 1 else priority

def makeRoom : PushRules :=
  Entries.mapValues (fun _ rule => if rule.priorityClass = c then
    { rule with priority := raised n rule.priority } else rule) rules

def upsert : PushRules :=
  rules.insert new.ruleId ⟨new.priorityClass,n,new.conditions,new.actions⟩

/-- An empty rule ID counts as none. -/
def isBefore : Bool := (new.before.filter (· ≠ "")).isSome

def relativeToRule : Option String :=
  (new.before.filter (· ≠ "")).or (new.after.filter (· ≠ ""))

def addPushRuleRelative (relativeToRule : String) : Except PushRuleError PushRules :=
  match rules.lookup relativeToRule with
  | none => .error (.ruleNotFound ("before/after rule not found: " ++ relativeToRule))
  | some base =>
    if base.priorityClass ≠ new.priorityClass then
      .error (.inconsistentRule "Given priority class does not match class of relative rule")
    else
      let newRulePriority := if isBefore new then base.priority + 1 else base.priority
      .ok (upsert (makeRoom rules new.priorityClass newRulePriority) new newRulePriority)

def highestPriority : Option ℤ :=
  ((rules.entries.filter fun row => row.2.priorityClass = c).map fun row => row.2.priority).max?

def addPushRuleHighestPriority : PushRules :=
  upsert rules new ((highestPriority rules new.priorityClass).elim 0 (· + 1))

def addPushRule : Except PushRuleError PushRules :=
  match relativeToRule new with
  | some ruleId => addPushRuleRelative rules new ruleId
  | none => .ok (addPushRuleHighestPriority rules new)

def deletePushRule (ruleId : String) : Except PushRuleError PushRules :=
  if ruleId ∈ rules then .ok (rules.erase ruleId)
  else .error (.storeError 404 "No row found (push_rules)")

def call : Call → Except PushRuleError PushRules
  | .add new => addPushRule rules new
  | .delete ruleId => deletePushRule rules ruleId

/-- A transaction that fails is rolled back. -/
def after (a : Call) : PushRules :=
  match call rules a with
  | .ok rules' => rules'
  | .error _ => rules

/-- The priority of a rule that is in the class. -/
def rank (x : String) : Option ℤ :=
  (rules.lookup x).bind fun rule => if rule.priorityClass = c then some rule.priority else none

def Distinct : Prop := ∀ x y p, rank rules c x = some p → rank rules c y = some p → x = y

def Precedes (x y : String) : Prop := ∃ p q, rank rules c x = some p ∧ rank rules c y = some q ∧ q < p

def Directly (x y : String) : Prop :=
  Precedes rules c x y ∧ ∀ z, ¬(Precedes rules c x z ∧ Precedes rules c z y)

/-- The other rules stay in their classes and in their order. -/
def Keeps (ruleId : String) (rules' : PushRules) : Prop :=
  ∀ c x, x ≠ ruleId → (rank rules' c x).isSome = (rank rules c x).isSome ∧
    ∀ y, y ≠ ruleId → (Precedes rules' c x y ↔ Precedes rules c x y)

/-- Where the rule stands once it is added, beside another rule or first. -/
def Stands : Prop :=
  match relativeToRule new with
  | some named => if isBefore new then Directly rules new.priorityClass new.ruleId named
    else Directly rules new.priorityClass named new.ruleId
  | none => ∀ x, x ≠ new.ruleId → (rank rules new.priorityClass x).isSome →
    Precedes rules new.priorityClass new.ruleId x

/-- What a call that succeeds promises, a rule named beside itself apart. -/
def Obeys (rules' : PushRules) : Call → Prop
  | .add new => Keeps rules new.ruleId rules' ∧ (rank rules' new.priorityClass new.ruleId).isSome ∧
    (relativeToRule new ≠ some new.ruleId → Stands rules' new)
  | .delete ruleId => Keeps rules ruleId rules' ∧ ∀ c, rank rules' c ruleId = none

variable {rules new c n} {rules' : PushRules} {x : String}

/-- In a class, the priorities of the other rules are moved in step, and none to that of the rule. -/
def Moves (rules : PushRules) (c : ℤ) (ruleId : String) (rules' : PushRules) : Prop :=
  ∃ f : ℤ → ℤ, StrictMono f ∧ ∀ x, x ≠ ruleId → rank rules' c x = (rank rules c x).map f ∧
    ∀ p, rank rules' c x = some p → rank rules' c ruleId ≠ some p

theorem Moves.distinct {ruleId : String} (h : Moves rules c ruleId rules') (hc : Distinct rules c) :
    Distinct rules' c := by
  obtain ⟨f,hf,hmoves⟩ := h
  intro x y p hx hy
  by_cases hxid : x = ruleId
  · by_cases hyid : y = ruleId
    · rw [hxid,hyid]
    · exact absurd (hxid ▸ hx) ((hmoves y hyid).2 p hy)
  · by_cases hyid : y = ruleId
    · exact absurd (hyid ▸ hy) ((hmoves x hxid).2 p hx)
    · rw [(hmoves x hxid).1,Option.map_eq_some_iff] at hx
      rw [(hmoves y hyid).1,Option.map_eq_some_iff] at hy
      obtain ⟨q,hq,rfl⟩ := hx
      obtain ⟨r,hr,heq⟩ := hy
      exact hc x y q hq (hf.injective heq ▸ hr)

theorem keeps_of_moves {ruleId : String} (h : ∀ c, Moves rules c ruleId rules') :
    Keeps rules ruleId rules' := by
  intro c x hx
  obtain ⟨f,hf,hmoves⟩ := h c
  refine ⟨by rw [(hmoves x hx).1,Option.isSome_map],fun y hy => ?_⟩
  unfold Precedes
  rw [(hmoves x hx).1,(hmoves y hy).1]
  simp only [Option.map_eq_some_iff]
  constructor
  · rintro ⟨_,_,⟨p,hp,rfl⟩,⟨q,hq,rfl⟩,hlt⟩
    exact ⟨p,q,hp,hq,hf.lt_iff_lt.mp hlt⟩
  · rintro ⟨p,q,hp,hq,hlt⟩
    exact ⟨_,_,⟨p,hp,rfl⟩,⟨q,hq,rfl⟩,hf hlt⟩

theorem rank_upsert : rank (upsert rules new n) c x =
    if x = new.ruleId then (if new.priorityClass = c then some n else none) else rank rules c x := by
  unfold rank upsert
  by_cases hx : x = new.ruleId
  · subst hx
    simp
  · simp [hx,AList.lookup_insert_ne hx]

theorem rank_makeRoom {d : ℤ} : rank (makeRoom rules d n) c x =
    if d = c then (rank rules c x).map (raised n) else rank rules c x := by
  unfold rank makeRoom
  rw [Entries.lookup_mapValues]
  cases rules.lookup x with
  | none => simp
  | some rule =>
    by_cases hd : rule.priorityClass = d
    · by_cases hc : d = c <;> simp [hd,hc]
    · by_cases hc : d = c
      · simp [hc ▸ hd,hc]
      · simp [hd,hc]

theorem raised_strictMono (n : ℤ) : StrictMono (raised n) := by
  intro p q hlt
  unfold raised
  split <;> split <;> omega

theorem moves_makeRoom (n c : ℤ) :
    Moves rules c new.ruleId (upsert (makeRoom rules new.priorityClass n) new n) := by
  by_cases hc : new.priorityClass = c
  · refine ⟨raised n,raised_strictMono n,fun x hx => ?_⟩
    simp only [rank_upsert,rank_makeRoom,hx,hc,if_true,if_false,Option.map_eq_some_iff,true_and]
    rintro _ ⟨p,-,rfl⟩ heq
    have hne : raised n p ≠ n := by
      unfold raised
      split <;> omega
    exact hne (Option.some.inj heq).symm
  · refine ⟨id,strictMono_id,fun x hx => ?_⟩
    simp [rank_upsert,rank_makeRoom,hx,hc]

theorem moves_upsert (h : ∀ x p, rank rules new.priorityClass x = some p → p < n) (c : ℤ) :
    Moves rules c new.ruleId (upsert rules new n) := by
  refine ⟨id,strictMono_id,fun x hx => ⟨by simp [rank_upsert,hx],fun p hp => ?_⟩⟩
  rw [rank_upsert,if_neg hx] at hp
  by_cases hc : new.priorityClass = c
  · have hlt := h x p (hc ▸ hp)
    simp [rank_upsert,hc,hlt.ne']
  · simp [rank_upsert,hc]

theorem directly_of_rank {y : String} {p : ℤ} (hx : rank rules c x = some (p + 1))
    (hy : rank rules c y = some p) : Directly rules c x y := by
  refine ⟨⟨p + 1,p,hx,hy,by omega⟩,?_⟩
  rintro z ⟨⟨a,b,ha,hb,hlt⟩,⟨b',d,hb',hd,hlt'⟩⟩
  simp only [hx,hy,hb,Option.some.injEq] at ha hb' hd
  omega

theorem lt_highestPriority (hx : rank rules c x = some n) : n < (highestPriority rules c).elim 0 (· + 1) := by
  obtain ⟨rule,hrule,hrank⟩ := Option.bind_eq_some_iff.mp hx
  obtain ⟨hclass,hn⟩ := Option.ite_none_right_eq_some.mp hrank
  have hmem : n ∈ (rules.entries.filter fun row => row.2.priorityClass = c).map fun row => row.2.priority := by
    refine mem_map.mpr ⟨⟨x,rule⟩,mem_filter.mpr ⟨AList.mem_lookup_iff.mp hrule,?_⟩,Option.some.inj hn⟩
    exact decide_eq_true hclass
  cases hmax : highestPriority rules c with
  | none =>
    rw [highestPriority,max?_eq_none_iff] at hmax
    rw [hmax] at hmem
    cases hmem
  | some m => exact Int.lt_add_one_of_le ((max?_eq_some_iff.mp hmax).2 n hmem)

theorem obeys_of_call {a : Call} (h : call rules a = .ok rules') :
    (∀ c, Moves rules c a.ruleId rules') ∧ Obeys rules rules' a := by
  cases a with
  | delete ruleId =>
    obtain ⟨-,hok⟩ := (ite_eq_iff.mp h).resolve_right (by simp)
    cases hok
    have hnone : ∀ c, rank (rules.erase ruleId) c ruleId = none := by simp [rank]
    have hmoves : ∀ c, Moves rules c ruleId (rules.erase ruleId) := fun c =>
      ⟨id,strictMono_id,fun x hx => by simp [rank,AList.lookup_erase_ne hx]⟩
    exact ⟨hmoves,keeps_of_moves hmoves,hnone⟩
  | add new =>
    have hown : ∀ rules n, rank (upsert rules new n) new.priorityClass new.ruleId = some n := by simp [rank_upsert]
    simp only [call,addPushRule] at h
    split at h
    · rename_i named hnamed
      simp only [addPushRuleRelative] at h
      split at h
      · cases h
      rename_i base hbase
      obtain ⟨hclass,hok⟩ := (ite_eq_iff.mp h).resolve_left (by simp)
      cases hok
      refine ⟨moves_makeRoom _,keeps_of_moves (moves_makeRoom _),by simp [hown],fun hself => ?_⟩
      have hne : named ≠ new.ruleId := fun heq => hself (heq ▸ hnamed)
      have hother : ∀ n, rank (upsert (makeRoom rules new.priorityClass n) new n) new.priorityClass named =
          some (raised n base.priority) := by
        intro n
        have hbase : rank rules new.priorityClass named = some base.priority := by
          simp [rank,hbase,not_not.mp hclass]
        simp [rank_upsert,hne,rank_makeRoom,hbase]
      unfold Stands
      simp only [hnamed]
      split
      · exact directly_of_rank (hown _ _) (by rw [hother,raised,if_neg (by omega)])
      · exact directly_of_rank (by simp [hother,raised]) (hown _ _)
    · rename_i hnamed
      cases h
      have hmoves := @moves_upsert rules new _ fun x p hp => lt_highestPriority hp
      refine ⟨hmoves,keeps_of_moves hmoves,by simp [addPushRuleHighestPriority,hown],fun _ => ?_⟩
      unfold Stands
      simp only [hnamed]
      intro x hx hsome
      obtain ⟨p,hp⟩ := Option.isSome_iff_exists.mp hsome
      refine ⟨_,p,hown _ _,hp,lt_highestPriority (x := x) ?_⟩
      rwa [addPushRuleHighestPriority,rank_upsert,if_neg hx] at hp

/-- Whatever calls were made, the priorities of a class are distinct, and the next call puts
its rule where it is asked to. -/
theorem pushRules_ordered (h : Distinct rules c) (calls : List Call) (a : Call) :
    let before := calls.foldl after rules
    Distinct before c ∧ (∀ e, call before a = .error e → after before a = before) ∧
      ∀ rules', call before a = .ok rules' → after before a = rules' ∧ Obeys before rules' a := by
  refine ⟨?_,fun e he => by simp [after,he],fun rules' hok => ⟨by simp [after,hok],(obeys_of_call hok).2⟩⟩
  refine Runs.foldl_preserves (I := (Distinct · c)) (fun rules a hc => ?_) h
  unfold after
  split
  · rename_i hok
    exact ((obeys_of_call hok).1 c).distinct hc
  · exact hc

theorem pushRules_ordered_empty :
    Distinct ([Call.add ⟨"a",5,"[]","[]",none,none⟩,.add ⟨"b",5,"[]","[]",none,some "a"⟩].foldl after ∅) 5 :=
  (pushRules_ordered (by simp [Distinct,rank]) _ (.delete "a")).1

/-- A rule that is added before itself is accepted. -/
theorem added_before_itself :
    let new : NewRule := ⟨"a",5,"[]","[]",some "a",none⟩
    ∃ rules', call (after ∅ (.add ⟨"a",5,"[]","[]",none,none⟩)) (.add new) = .ok rules' ∧ ¬Stands rules' new := by
  refine ⟨_,rfl,?_⟩
  rintro ⟨⟨p,q,hp,hq,hlt⟩,-⟩
  cases hp.symm.trans hq
  exact lt_irrefl _ hlt

end PushRules

end TextrpBriij.Push
