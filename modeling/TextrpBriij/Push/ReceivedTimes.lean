import TextrpBriij.Foundation.Bisection

/-! # The first event after a time

Old push actions are deleted up to a stream ordering that is found by the time of receipt. The
search looks at the last event at or below an ordering, which may be one that was backfilled.
-/
namespace TextrpBriij.Push
open List Bisection

structure ReceivedEvent where
  streamOrdering : ℤ
  receivedTs : ℤ

/-- The `events` table. Events with a positive ordering were received in this order. -/
structure ReceivedEvents where
  rows : List ReceivedEvent
  distinct : (rows.map (·.streamOrdering)).Nodup
  ordered : ∀ a ∈ rows, ∀ b ∈ rows, 0 < a.streamOrdering → a.streamOrdering ≤ b.streamOrdering →
    a.receivedTs ≤ b.receivedTs

namespace ReceivedEvents
variable (events : ReceivedEvents) (ts n : ℤ)

def maxStreamOrdering : Option ℤ := (events.rows.map (·.streamOrdering)).max?

/-- The row with the greatest ordering at or below `n`. -/
def lastRow : Option ReceivedEvent :=
  @argmax _ _ Int.instLinearOrder.toPreorder _ (·.streamOrdering)
    (events.rows.filter (·.streamOrdering ≤ n))

/-- The last event at or below an ordering, if there is one, was received before the time. -/
def lastBefore : Bool := (events.lastRow n).all (ts > ·.receivedTs)

def findFirstStreamOrderingAfterTsTxn : ℤ :=
  match events.maxStreamOrdering with
  | none => 0
  | some maxStreamOrdering => bisect (events.lastBefore ts) 0 (maxStreamOrdering + 1)

/-- The least positive ordering of an event received at or after the time, or one more than the
greatest ordering if there is none. -/
def IsFirstAfter : Prop :=
  IsLeast {x | 0 < x ∧ ∃ row ∈ events.rows, row.streamOrdering = x ∧ ts ≤ row.receivedTs} n ∨
    (∀ row ∈ events.rows, 0 < row.streamOrdering → row.receivedTs < ts) ∧
      ∀ greatest ∈ events.maxStreamOrdering, n = greatest + 1

variable {events ts n} {row : ReceivedEvent} {greatest : ℤ}

theorem lastRow_spec (h : events.lastRow n = some row) : row ∈ events.rows ∧ row.streamOrdering ≤ n ∧
    ∀ other ∈ events.rows, other.streamOrdering ≤ n → other.streamOrdering ≤ row.streamOrdering := by
  have hmem := mem_filter.mp (argmax_mem h)
  refine ⟨hmem.1,of_decide_eq_true hmem.2,fun other hother hle => ?_⟩
  exact le_of_mem_argmax (mem_filter.mpr ⟨hother,decide_eq_true hle⟩) h

theorem exists_lastRow (h : row ∈ events.rows) (hle : row.streamOrdering ≤ n) :
    ∃ last, events.lastRow n = some last := by
  refine Option.ne_none_iff_exists'.mp fun hnone => ?_
  exact filter_eq_nil_iff.mp (argmax_eq_none.mp hnone) row h (decide_eq_true hle)

theorem received_before (h : events.lastBefore ts n) (hrow : row ∈ events.rows)
    (hpos : 0 < row.streamOrdering) (hle : row.streamOrdering ≤ n) : row.receivedTs < ts := by
  obtain ⟨last,heq⟩ := exists_lastRow hrow hle
  obtain ⟨hmem,-,hmax⟩ := lastRow_spec heq
  rw [lastBefore,heq] at h
  exact (events.ordered row hrow last hmem hpos (hmax row hrow hle)).trans_lt (of_decide_eq_true h)

/-- A positive place where the search can end is the right one. -/
theorem isFirstAfter_of_boundary (hgreatest : events.maxStreamOrdering = some greatest) (hpos : 0 < n)
    (hbelow : events.lastBefore ts (n - 1)) (hat : n = greatest + 1 ∨ events.lastBefore ts n = false) :
    events.IsFirstAfter ts n := by
  rcases hat with rfl | hat
  · refine .inr ⟨fun row hrow hpos => received_before hbelow hrow hpos ?_,by simp [hgreatest]⟩
    rw [add_sub_cancel_right]
    exact (max?_eq_some_iff.mp hgreatest).2 _ (mem_map_of_mem hrow)
  · cases hlast : events.lastRow n with
    | none => simp [lastBefore,hlast] at hat
    | some row =>
      obtain ⟨hrow,hle,hmax⟩ := lastRow_spec hlast
      simp only [lastBefore,hlast,Option.all_some,decide_eq_false_iff_not,not_lt] at hat
      have heq : row.streamOrdering = n := by
        by_contra hne
        -- Then it is also the last row below this ordering.
        obtain ⟨last,hbefore⟩ := exists_lastRow (n := n - 1) hrow (by omega)
        obtain ⟨hmem,hn,hmax'⟩ := lastRow_spec hbefore
        have hsame := inj_on_of_nodup_map events.distinct hmem hrow
          (le_antisymm (hmax last hmem (by omega)) (hmax' row hrow (by omega)))
        simp [lastBefore,hbefore,hsame,hat.not_gt] at hbelow
      refine .inl ⟨⟨hpos,row,hrow,heq,hat⟩,?_⟩
      rintro x ⟨hx,other,hother,rfl,hafter⟩
      by_contra hlt
      exact hafter.not_gt (received_before hbelow hother hx (by omega))

/-- The first ordering is found exactly if all events were backfilled or, at a half, a quarter, and
so on, of one more than the greatest ordering, some last event was received before the time. -/
theorem finds_first_iff (events : ReceivedEvents) (ts : ℤ) :
    events.IsFirstAfter ts (events.findFirstStreamOrderingAfterTsTxn ts) ↔
      ∀ greatest ∈ events.maxStreamOrdering, 0 ≤ greatest →
        ∃ k : ℕ, events.lastBefore ts ((greatest + 1) / 2 ^ (k + 1)) = true := by
  unfold findFirstStreamOrderingAfterTsTxn
  cases hgreatest : events.maxStreamOrdering with
  | none =>
    have hnil := map_eq_nil_iff.mp (max?_eq_none_iff.mp hgreatest)
    exact iff_of_true (.inr ⟨by simp [hnil],by simp [hgreatest]⟩) (by simp)
  | some greatest =>
    simp only [Option.mem_some_iff,forall_eq']
    by_cases hneg : greatest < 0
    · rw [bisect,if_neg (by omega)]
      refine iff_of_true (.inr ⟨fun row hrow hpos => ?_,by simp [hgreatest]⟩) fun h => absurd h hneg.not_ge
      have hle := (max?_eq_some_iff.mp hgreatest).2 _ (mem_map_of_mem hrow)
      omega
    rw [← bisect_pos_iff (by omega)]
    obtain ⟨-,-,hbelow,hat⟩ := bisect_boundary (p := events.lastBefore ts) (by omega : 0 ≤ greatest + 1)
    constructor
    · rintro (hleast | hnone) -
      · exact hleast.1.1
      · rw [hnone.2 greatest hgreatest]
        omega
    · intro hpos
      have hpos := hpos (not_lt.mp hneg)
      exact isFirstAfter_of_boundary hgreatest hpos (hbelow.resolve_left hpos.ne') hat

def lateBackfill : ReceivedEvents := ⟨[⟨-1,20⟩,⟨3,10⟩,⟨4,20⟩],by decide,by decide⟩

/-- The search meets the backfilled event and does not come back to the one at 4. -/
theorem backfilled_event_ends_search :
    lateBackfill.findFirstStreamOrderingAfterTsTxn 15 = 0 ∧ ¬lateBackfill.IsFirstAfter 15 0 := by
  refine ⟨by decide +kernel,?_⟩
  rintro (hleast | hnone)
  · exact absurd hleast.1.1 (by decide)
  · exact absurd (hnone.1 ⟨4,20⟩ (by simp [lateBackfill]) (by decide)) (by decide)

end ReceivedEvents

end TextrpBriij.Push
