import TextrpBriij.Types.Tokens

/-! # Tokens are vector clocks

The clock of a token is its default position and the position of each writer. Tokens are
compared and joined as their clocks are, and a token is determined by its clock.
-/
namespace TextrpBriij.Types
open Api
open AuthChain (Dict)
open State (Iteration)

namespace AbstractMultiWriterStreamToken
variable (it : Iteration) {a b : AbstractMultiWriterStreamToken}

def clock (t : AbstractMultiWriterStreamToken) : ℤ × (String → ℤ) :=
  (t.stream,t.getStreamPosForInstance)

theorem stream_le_pos (t : AbstractMultiWriterStreamToken) (w : String) :
    t.stream ≤ t.getStreamPosForInstance w := t.ahead.base_le_value w

theorem pos_eq_stream {t : AbstractMultiWriterStreamToken} {w : String}
    (h : w ∉ t.instanceMap.keys) : t.getStreamPosForInstance w = t.stream := by
  unfold getStreamPosForInstance SparseClock.value
  rw [AList.lookup_eq_none.mpr h]
  rfl

theorem eq_iff_clock_eq : a.eq b ↔ a.clock = b.clock := by
  simp only [eq_iff,clock,Prod.mk.injEq]
  constructor
  · rintro ⟨hstream,hmap⟩
    refine ⟨hstream,?_⟩
    funext w
    simp only [getStreamPosForInstance,SparseClock.value,hmap,hstream]
  · rintro ⟨hstream,hpos⟩
    refine ⟨hstream,?_⟩
    have hahead := a.ahead
    have hvalue := congrFun hpos
    simp only [getStreamPosForInstance,hstream] at hahead hvalue
    exact hahead.lookup_eq_of_value_eq b.ahead hvalue

theorem isBeforeOrEq_iff : a.isBeforeOrEq b it ↔ a.clock ≤ b.clock := by
  have hmem : ∀ w, w ∈ it.order 22 (a.instanceMap.keys ∪ b.instanceMap.keys) ↔
      w ∈ a.instanceMap.keys ∨ w ∈ b.instanceMap.keys := by
    intro w
    rw [(it.perm 22 _).mem_iff,List.mem_union_iff]
  unfold isBeforeOrEq
  simp only [clock,Prod.mk_le_mk,Pi.le_def]
  split
  · simp only [Bool.false_eq_true,false_iff]
    intro hle
    omega
  · simp only [List.all_eq_true,decide_eq_true_eq,hmem]
    constructor
    · intro h
      refine ⟨by omega,fun w => ?_⟩
      by_cases hw : w ∈ a.instanceMap.keys ∨ w ∈ b.instanceMap.keys
      · have := h w hw
        omega
      · rw [not_or] at hw
        rw [pos_eq_stream hw.1,pos_eq_stream hw.2]
        omega
    · intro h w _
      have := h.2 w
      omega

theorem copyAndAdvance_stores : SparseClock.Stores (a.copyAndAdvance b it).1 (a.copyAndAdvance b it).2 fun w =>
      max (a.getStreamPosForInstance w) (b.getStreamPosForInstance w) := by
  intro w
  simp only [copyAndAdvance]
  rw [SparseClock.lookup_collect_perm (it.perm 21 _),SparseClock.lookup_tabulate]
  simp only [(it.perm 20 _).mem_iff,List.mem_union_iff]
  by_cases hw : w ∈ a.instanceMap.keys ∨ w ∈ b.instanceMap.keys
  · rw [if_pos hw]
    rfl
  · -- Without entries the maximum is the default position, which is not ahead of itself.
    rw [if_neg hw]
    rw [not_or] at hw
    simp [pos_eq_stream hw.1,pos_eq_stream hw.2]

theorem boundStreamToken_stores (maxStream : ℤ) :
    SparseClock.Stores (a.boundStreamToken it maxStream).1 (a.boundStreamToken it maxStream).2
      fun w => min (a.getStreamPosForInstance w) maxStream := by
  intro w
  simp only [boundStreamToken]
  rw [SparseClock.lookup_collect_perm (it.perm 23 _)]
  cases hlookup : a.instanceMap.lookup w with
  | none => simp [getStreamPosForInstance,SparseClock.value,hlookup]
  | some s => simp [getStreamPosForInstance,SparseClock.value,hlookup]

variable {c : AbstractMultiWriterStreamToken}

theorem clock_copyAndAdvance (hstream : c.stream = (a.copyAndAdvance b it).1)
    (hmap : c.instanceMap = (a.copyAndAdvance b it).2) : c.clock = a.clock ⊔ b.clock := by
  have hle : ∀ w, (a.copyAndAdvance b it).1 ≤ max (a.getStreamPosForInstance w) (b.getStreamPosForInstance w) :=
    fun w => max_le_max (a.stream_le_pos w) (b.stream_le_pos w)
  unfold clock getStreamPosForInstance
  rw [hstream,hmap]
  exact Prod.ext rfl (funext fun w => (copyAndAdvance_stores it).value_eq hle w)

theorem clock_boundStreamToken {maxStream : ℤ} (hstream : c.stream = (a.boundStreamToken it maxStream).1)
    (hmap : c.instanceMap = (a.boundStreamToken it maxStream).2) (w : String) :
    c.getStreamPosForInstance w = min (a.getStreamPosForInstance w) maxStream := by
  have hle : ∀ w, (a.boundStreamToken it maxStream).1 ≤ min (a.getStreamPosForInstance w) maxStream :=
    fun w => min_le_min_right _ (a.stream_le_pos w)
  unfold getStreamPosForInstance
  rw [hstream,hmap]
  exact (boundStreamToken_stores it maxStream).value_eq hle w

end AbstractMultiWriterStreamToken

/-- The methods of a class of tokens. Those that are not live are points in the history. -/
structure TokenClass (T : Type) where
  base : T → AbstractMultiWriterStreamToken
  live : T → Prop
  getStreamPosForInstance : T → String → Except Error ℤ
  copyAndAdvance : Iteration → T → T → Except Error T
  boundStreamToken : Iteration → T → ℤ → Except Error T
  eq : T → T → Bool

def TokenClass.isBeforeOrEq {T : Type} (C : TokenClass T) (it : Iteration) (a b : T) : Bool :=
  (C.base a).isBeforeOrEq (C.base b) it

def multiWriterStreamToken : TokenClass MultiWriterStreamToken where
  base := fun t => t.toAbstractMultiWriterStreamToken
  live := fun _ => True
  getStreamPosForInstance := fun t w => pure (t.getStreamPosForInstance w)
  copyAndAdvance := fun it a b => a.copyAndAdvance b it
  boundStreamToken := fun it a m => a.boundStreamToken it m
  eq := fun a b => a.eq b.toAbstractMultiWriterStreamToken

def roomStreamToken : TokenClass RoomStreamToken where
  base := fun t => t.toAbstractMultiWriterStreamToken
  live := fun t => t.topological = none
  getStreamPosForInstance := fun t w => RoomStreamToken.getStreamPosForInstance t w
  copyAndAdvance := fun it a b => RoomStreamToken.copyAndAdvance a b it
  boundStreamToken := fun it a m => RoomStreamToken.boundStreamToken a it m
  eq := fun a b => RoomStreamToken.eq a b

/-- The live tokens of the class are vector clocks, ordered and joined writer by writer. The
operations return, and what they return is a token that the constructor accepts. -/
structure VectorClocks {T : Type} (C : TokenClass T) : Prop where
  position : ∀ a w, C.live a → ∃ n, C.getStreamPosForInstance a w = .ok n
  advance : ∀ it a b, C.live a → C.live b → ∃ c, C.copyAndAdvance it a b = .ok c ∧ C.live c ∧
    ∀ w m n, C.getStreamPosForInstance a w = .ok m → C.getStreamPosForInstance b w = .ok n →
      C.getStreamPosForInstance c w = .ok (max m n)
  before_iff : ∀ it a b, C.live a → C.live b → (C.isBeforeOrEq it a b = true ↔
    (∀ w m n, C.getStreamPosForInstance a w = .ok m → C.getStreamPosForInstance b w = .ok n →
      m ≤ n) ∧ (C.base a).stream ≤ (C.base b).stream)
  refl : ∀ it a, C.live a → C.isBeforeOrEq it a a = true
  trans : ∀ it a b c, C.live a → C.live b → C.live c → C.isBeforeOrEq it a b = true →
    C.isBeforeOrEq it b c = true → C.isBeforeOrEq it a c = true
  antisymm : ∀ it a b, C.live a → C.live b → C.isBeforeOrEq it a b = true →
    C.isBeforeOrEq it b a = true → C.eq a b = true
  upper : ∀ it a b c, C.live a → C.live b → C.copyAndAdvance it a b = .ok c →
    C.isBeforeOrEq it a c = true ∧ C.isBeforeOrEq it b c = true
  least : ∀ it a b c d, C.live a → C.live b → C.live d → C.copyAndAdvance it a b = .ok c →
    C.isBeforeOrEq it a d = true → C.isBeforeOrEq it b d = true → C.isBeforeOrEq it c d = true
  comm : ∀ it a b c d, C.live a → C.live b → C.copyAndAdvance it a b = .ok c →
    C.copyAndAdvance it b a = .ok d → C.eq c d = true
  assoc : ∀ it a b c ab bc l r, C.live a → C.live b → C.live c →
    C.copyAndAdvance it a b = .ok ab → C.copyAndAdvance it b c = .ok bc →
    C.copyAndAdvance it ab c = .ok l → C.copyAndAdvance it a bc = .ok r → C.eq l r = true
  idem : ∀ it a b, C.live a → C.copyAndAdvance it a a = .ok b → C.eq b a = true
  bound : ∀ it a m, C.live a → ∃ c, C.boundStreamToken it a m = .ok c ∧ C.live c ∧
    ∀ w n, C.getStreamPosForInstance a w = .ok n → C.getStreamPosForInstance c w = .ok (min n m)

structure TokenClass.OnClocks {T : Type} (C : TokenClass T) : Prop where
  position : ∀ a w, C.live a → C.getStreamPosForInstance a w = .ok ((C.base a).getStreamPosForInstance w)
  advance : ∀ it a b, C.live a → C.live b → ∃ c, C.copyAndAdvance it a b = .ok c ∧ C.live c ∧
    (C.base c).clock = (C.base a).clock ⊔ (C.base b).clock
  bound : ∀ it a m, C.live a → ∃ c, C.boundStreamToken it a m = .ok c ∧ C.live c ∧
    ∀ w, (C.base c).getStreamPosForInstance w = min ((C.base a).getStreamPosForInstance w) m
  eq_iff : ∀ a b, C.live a → C.live b → (C.eq a b = true ↔ (C.base a).clock = (C.base b).clock)

namespace TokenClass.OnClocks
variable {T : Type} {C : TokenClass T} (h : C.OnClocks) {it : Iteration} {a b c : T}
include h

theorem of_copyAndAdvance (ha : C.live a) (hb : C.live b) (hc : C.copyAndAdvance it a b = .ok c) :
    C.live c ∧ (C.base c).clock = (C.base a).clock ⊔ (C.base b).clock := by
  obtain ⟨c',hc',hlive,hclock⟩ := h.advance it a b ha hb
  cases hc.symm.trans hc'
  exact ⟨hlive,hclock⟩

theorem vectorClocks : VectorClocks C := by
  have before_iff : ∀ {it a b}, C.isBeforeOrEq it a b ↔ (C.base a).clock ≤ (C.base b).clock := by
    intro it a b
    exact AbstractMultiWriterStreamToken.isBeforeOrEq_iff it
  constructor
  case position => exact fun a w ha => ⟨_,h.position a w ha⟩
  case advance =>
    intro it a b ha hb
    obtain ⟨c,hc,hlive,hclock⟩ := h.advance it a b ha hb
    refine ⟨c,hc,hlive,?_⟩
    simp only [h.position _ _ ha,h.position _ _ hb,h.position _ _ hlive,Except.ok.injEq]
    rintro w _ _ rfl rfl
    exact congrFun (congrArg Prod.snd hclock) w
  case before_iff =>
    intro it a b ha hb
    simp only [before_iff,Prod.le_def,Pi.le_def,h.position a _ ha,h.position b _ hb,Except.ok.injEq]
    rw [and_comm]
    exact and_congr_left' (forall_congr' fun w => by simp [AbstractMultiWriterStreamToken.clock])
  case refl => exact fun it a _ => before_iff.mpr le_rfl
  case trans =>
    intro it a b c _ _ _ hab hbc
    exact before_iff.mpr ((before_iff.mp hab).trans (before_iff.mp hbc))
  case antisymm =>
    intro it a b ha hb hab hba
    exact (h.eq_iff a b ha hb).mpr (le_antisymm (before_iff.mp hab) (before_iff.mp hba))
  case upper =>
    intro it a b c ha hb hc
    rw [before_iff,before_iff,(h.of_copyAndAdvance ha hb hc).2]
    exact ⟨le_sup_left,le_sup_right⟩
  case least =>
    intro it a b c d ha hb _ hc had hbd
    rw [before_iff,(h.of_copyAndAdvance ha hb hc).2]
    exact sup_le (before_iff.mp had) (before_iff.mp hbd)
  case comm =>
    intro it a b c d ha hb hc hd
    obtain ⟨hlive,hclock⟩ := h.of_copyAndAdvance ha hb hc
    obtain ⟨hlive',hclock'⟩ := h.of_copyAndAdvance hb ha hd
    rw [h.eq_iff c d hlive hlive',hclock,hclock',sup_comm]
  case assoc =>
    intro it a b c ab bc l r ha hb hc hab hbc hl hr
    obtain ⟨hliveAb,hclockAb⟩ := h.of_copyAndAdvance ha hb hab
    obtain ⟨hliveBc,hclockBc⟩ := h.of_copyAndAdvance hb hc hbc
    obtain ⟨hliveL,hclockL⟩ := h.of_copyAndAdvance hliveAb hc hl
    obtain ⟨hliveR,hclockR⟩ := h.of_copyAndAdvance ha hliveBc hr
    rw [h.eq_iff l r hliveL hliveR,hclockL,hclockR,hclockAb,hclockBc,sup_assoc]
  case idem =>
    intro it a b ha hb
    obtain ⟨hlive,hclock⟩ := h.of_copyAndAdvance ha ha hb
    rw [h.eq_iff b a hlive ha,hclock,sup_idem]
  case bound =>
    intro it a m ha
    obtain ⟨c,hc,hlive,hpos⟩ := h.bound it a m ha
    refine ⟨c,hc,hlive,?_⟩
    simpa only [h.position _ _ ha,h.position _ _ hlive,Except.ok.injEq,forall_eq'] using hpos

end TokenClass.OnClocks

open AbstractMultiWriterStreamToken

theorem multiWriterStreamToken_onClocks : multiWriterStreamToken.OnClocks := by
  constructor
  case position => exact fun _ _ _ => rfl
  case advance =>
    intro it a b _ _
    exact ⟨_,MultiWriterStreamToken.new_eq_ok (copyAndAdvance_stores it).isAhead,trivial,
      clock_copyAndAdvance it rfl rfl⟩
  case bound =>
    intro it a m _
    exact ⟨_,MultiWriterStreamToken.new_eq_ok (boundStreamToken_stores it m).isAhead,trivial,
      clock_boundStreamToken it rfl rfl⟩
  case eq_iff => exact fun _ _ _ _ => eq_iff_clock_eq

theorem roomStreamToken_onClocks : roomStreamToken.OnClocks := by
  constructor
  case position =>
    intro a w (ha : a.topological = none)
    simp [roomStreamToken,RoomStreamToken.getStreamPosForInstance,ha]
  case advance =>
    intro it a b (ha : a.topological = none) (hb : b.topological = none)
    have hadvance : RoomStreamToken.copyAndAdvance a b it =
        RoomStreamToken.new none (a.toAbstractMultiWriterStreamToken.copyAndAdvance
          b.toAbstractMultiWriterStreamToken it).1 (a.toAbstractMultiWriterStreamToken.copyAndAdvance
          b.toAbstractMultiWriterStreamToken it).2 := by
      simp [RoomStreamToken.copyAndAdvance,ha,hb,isSet]
    exact ⟨_,hadvance.trans (RoomStreamToken.new_eq_ok (by simp [isSet])
      (copyAndAdvance_stores it).isAhead),rfl,clock_copyAndAdvance it rfl rfl⟩
  case bound =>
    intro it a m (ha : a.topological = none)
    have hbound : RoomStreamToken.boundStreamToken a it m =
        RoomStreamToken.new none (a.toAbstractMultiWriterStreamToken.boundStreamToken it m).1
          (a.toAbstractMultiWriterStreamToken.boundStreamToken it m).2 := by
      simp [RoomStreamToken.boundStreamToken,ha]
    exact ⟨_,hbound.trans (RoomStreamToken.new_eq_ok (by simp [isSet])
      (boundStreamToken_stores it m).isAhead),rfl,clock_boundStreamToken it rfl rfl⟩
  case eq_iff =>
    intro a b (ha : a.topological = none) (hb : b.topological = none)
    simp only [roomStreamToken,RoomStreamToken.eq,ha,hb,and_true,decide_eq_true_eq]
    exact eq_iff_clock_eq

/-- The tokens of both classes form a join-semilattice of vector clocks. -/
theorem multiWriterTokens_vectorClocks :
    VectorClocks multiWriterStreamToken ∧ VectorClocks roomStreamToken :=
  ⟨multiWriterStreamToken_onClocks.vectorClocks,roomStreamToken_onClocks.vectorClocks⟩

end TextrpBriij.Types
