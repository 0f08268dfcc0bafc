import TextrpBriij.AuthChain.BreadthFirst
import TextrpBriij.AuthChain.DifferenceExact

/-! # Reachability from the conflicted events

The numbers that are reachable backwards and forwards from a list of positions. Walking
forwards is walking backwards once links are turned around and numbers are counted from the
other end of a chain.
-/
namespace TextrpBriij.AuthChain
open ChainCover Relation List

variable {links : List (Link ℕ)} {m m' : Dict ℕ ℕ} {p q : Place ℕ}

structure Accumulated (links : List (Link ℕ)) (positions : List (Place ℕ)) (m : Dict ℕ ℕ) :
    Prop where
  starts : ∀ p ∈ positions, p.2 ≤ height m p.1
  saturated : Saturated {l | l ∈ links} (height m)
  sound : ∀ c, 0 < height m c → ∃ p ∈ positions, Reach {l | l ∈ links} p (c,height m c)

def accumulate (links : List (Link ℕ)) (m : Dict ℕ ℕ) (p : Place ℕ) : Dict ℕ ℕ :=
  materialize p links (m.insert p.1 (max p.2 (height m p.1))) true

theorem Accumulated.step {positions : List (Place ℕ)} (h : Accumulated links positions m)
    (p : Place ℕ) : Accumulated links (positions ++ [p]) (accumulate links m p) := by
  let raised := m.insert p.1 (max p.2 (height m p.1))
  have hm : Materialized links p raised (accumulate links m p) :=
    materialize_materialized links p raised
  have hraised : ∀ d, height raised d = if d = p.1 then max p.2 (height m p.1) else height m d :=
    fun d => height_insert
  have hmono : ∀ d, height m d ≤ height raised d := by
    intro d
    rw [hraised]
    split
    case isTrue heq =>
      rw [heq]
      exact le_max_right _ _
    case isFalse => exact le_rfl
  refine ⟨fun r hr => ?_,fun l hl hle => ?_,fun c hc => ?_⟩
  · rcases mem_append.mp hr with hr | hr
    · exact (h.starts r hr).trans ((hmono _).trans (hm.mono _))
    · rw [mem_singleton.mp hr]
      apply le_trans _ (hm.mono p.1)
      rw [hraised,if_pos rfl]
      exact le_max_left _ _
  · rcases (hm.mono l.origin.1).lt_or_eq with hlt | heq
    · exact hm.raised _ hlt l hl rfl hle
    · rw [← heq,hraised] at hle
      by_cases hold : l.origin.2 ≤ height m l.origin.1
      · exact (h.saturated l hl hold).trans ((hmono _).trans (hm.mono _))
      · -- only the position itself is new on its chain
        split at hle
        case isTrue hc =>
          rw [hc] at hold
          exact hm.origin l hl hc (by omega)
        case isFalse => exact absurd hle hold
  · rcases (hm.mono c).lt_or_eq with hlt | heq
    · exact ⟨p,by simp,(hm.along c hlt).1⟩
    · rw [← heq,hraised] at hc ⊢
      by_cases hcp : c = p.1
      · subst hcp
        rw [if_pos rfl] at hc ⊢
        rcases le_total p.2 (height m p.1) with hle | hle
        · rw [max_eq_right hle] at hc ⊢
          obtain ⟨r,hr,hreach⟩ := h.sound p.1 hc
          exact ⟨r,mem_append_left _ hr,hreach⟩
        · rw [max_eq_left hle]
          exact ⟨p,by simp,.refl⟩
      · rw [if_neg hcp] at hc ⊢
        obtain ⟨r,hr,hreach⟩ := h.sound c hc
        exact ⟨r,mem_append_left _ hr,hreach⟩

theorem foldl_accumulate (hpos : ∀ l ∈ links, 1 ≤ l.origin.2) (positions : List (Place ℕ)) :
    Accumulated links positions (positions.foldl (accumulate links) ∅) := by
  apply Fallible.foldl_spec (fun pre m => Accumulated links pre m)
  · refine ⟨by simp,fun l hl hle => ?_,fun c hc => absurd hc (lt_irrefl _)⟩
    have hone := hpos l hl
    have hzero : l.origin.2 ≤ 0 := hle
    omega
  · intro pre p post m _ hm
    exact hm.step p

theorem Accumulated.le_height_iff {positions : List (Place ℕ)} (h : Accumulated links positions m)
    (hq : 1 ≤ q.2) : q.2 ≤ height m q.1 ↔ ∃ p ∈ positions, Reach {l | l ∈ links} p q := by
  constructor
  · intro hle
    obtain ⟨p,hp,hreach⟩ := h.sound q.1 (by omega)
    exact ⟨p,hp,hreach.trans (Reach.down hle)⟩
  · rintro ⟨p,hp,hreach⟩
    exact h.saturated.le_of_reach hreach (h.starts p hp)

theorem foldl_accumulateBackwards (positions : List (Place ℕ)) (m : Dict ℕ ℕ) :
    positions.foldl (accumulateBackwards links) m =
      (positions.filter fun p => p.1 ∈ links.map fun l => l.origin.1).foldl (accumulate links) m := by
  induction positions generalizing m with
  | nil => rfl
  | cons p positions ih =>
    rw [foldl_cons,ih,accumulateBackwards]
    by_cases hin : p.1 ∈ links.map fun l => l.origin.1
    · rw [if_pos hin,filter_cons_of_pos (by simpa using hin)]
      rfl
    · rw [if_neg hin,filter_cons_of_neg (by simpa using hin)]

def flip (p : Place ℕ) : Place ℕ := (p.1,maxChainLength - p.2)

def flipLink (l : Link ℕ) : Link ℕ := ⟨flip l.origin,flip l.target⟩

def Short (links : List (Link ℕ)) : Prop :=
  ∀ l ∈ links, l.origin.2 < maxChainLength ∧ l.target.2 < maxChainLength

def Flipped (m m' : Dict ℕ ℕ) : Prop :=
  ∀ c, m'.lookup c = (m.lookup c).map fun s => maxChainLength - s

theorem Flipped.insert (h : Flipped m m') (c s : ℕ) :
    Flipped (m.insert c s) (m'.insert c (maxChainLength - s)) := by
  intro d
  by_cases hd : d = c
  · subst hd
    rw [AList.lookup_insert,AList.lookup_insert,Option.map_some]
  · rw [AList.lookup_insert_ne hd,AList.lookup_insert_ne hd,h d]

theorem Flipped.getD (h : Flipped m m') (c : ℕ) :
    (m'.lookup c).getD 0 = maxChainLength - (m.lookup c).getD maxChainLength := by
  rw [h c]
  cases m.lookup c <;> simp

theorem materializeLink_flip {l : Link ℕ} (hl : l.origin.2 < maxChainLength ∧
    l.target.2 < maxChainLength) (s : ℕ) (stack : List (Place ℕ)) (h : Flipped m m') :
    let forwards := materializeLink false s (stack,m) l
    let backwards := materializeLink true (maxChainLength - s) (stack.map flip,m') (flipLink l)
    backwards.1 = forwards.1.map flip ∧ Flipped forwards.2 backwards.2 := by
  have hskip : maxChainLength - s < maxChainLength - l.origin.2 ↔ l.origin.2 < s := by omega
  have hnew : (m'.lookup l.target.1).getD 0 < maxChainLength - l.target.2 ↔
      l.target.2 < (m.lookup l.target.1).getD maxChainLength := by
    rw [h.getD]
    omega
  simp only [materializeLink,flipLink,flip,Bool.false_eq_true,if_false,if_true,hskip,hnew]
  by_cases hlow : l.origin.2 < s
  · simp only [if_pos hlow]
    exact ⟨trivial,h⟩
  · by_cases hpush : l.target.2 < (m.lookup l.target.1).getD maxChainLength
    · simp only [if_neg hlow,if_pos hpush]
      exact ⟨rfl,h.insert _ _⟩
    · simp only [if_neg hlow,if_neg hpush]
      exact ⟨trivial,h⟩

theorem materializeLinks_flip (hshort : Short links) (s : ℕ) (stack : List (Place ℕ))
    (h : Flipped m m') : let forwards := links.foldl (materializeLink false s) (stack,m)
    let backwards := (links.map flipLink).foldl (materializeLink true (maxChainLength - s)) (stack.map flip,m')
    backwards.1 = forwards.1.map flip ∧ Flipped forwards.2 backwards.2 := by
  induction links generalizing stack m m' with
  | nil => exact ⟨rfl,h⟩
  | cons l links ih =>
    obtain ⟨hstack,hflip⟩ := materializeLink_flip (hshort l mem_cons_self) s stack h
    have hrest := ih (fun k hk => hshort k (mem_cons_of_mem _ hk)) (materializeLink false s (stack,m) l).1 hflip
    rw [← hstack] at hrest
    exact hrest

theorem filter_flip (links : List (Link ℕ)) (c : ℕ) : ((links.map flipLink).filter fun l => l.origin.1 = c) =
      (links.filter fun l => l.origin.1 = c).map flipLink := by
  rw [filter_map]
  rfl

theorem materializeLoop_flip (hshort : Short links) (fuel : ℕ) (stack : List (Place ℕ))
    (h : Flipped m m') : Flipped (materializeLoop links false fuel stack m)
      (materializeLoop (links.map flipLink) true fuel (stack.map flip) m') := by
  induction fuel generalizing stack m m' with
  | zero => exact h
  | succ fuel ih =>
    cases stack with
    | nil => exact h
    | cons r stack =>
      obtain ⟨c,s⟩ := r
      have hchain : Short (links.filter fun l => l.origin.1 = c) := fun l hl =>
        hshort l (mem_filter.mp hl).1
      obtain ⟨hstack,hflip⟩ := materializeLinks_flip hchain s stack h
      have hrest := ih ((links.filter fun l => l.origin.1 = c).foldl
        (materializeLink false s) (stack,m)).1 hflip
      rw [← hstack,← filter_flip] at hrest
      exact hrest

theorem materialize_flip (hshort : Short links) (p : Place ℕ) (h : Flipped m m') :
    Flipped (materialize p links m false) (materialize (flip p) (links.map flipLink) m' true) := by
  rw [materialize,materialize,length_map]
  exact materializeLoop_flip hshort _ [p] h

theorem accumulateForwards_flip (hshort : Short links) (positions : List (Place ℕ))
    (h : Flipped m m') : Flipped (accumulateForwardsReachableEvents m links positions)
      ((positions.map flip).foldl (accumulate ((generateForwardLinks links).map flipLink)) m') := by
  have hforward : Short (generateForwardLinks links) := by
    intro l hl
    obtain ⟨k,hk,rfl⟩ := mem_map.mp hl
    exact (hshort k hk).symm
  induction positions generalizing m m' with
  | nil => exact h
  | cons p positions ih =>
    apply ih
    have hmax : max (maxChainLength - p.2) (height m' p.1) =
        maxChainLength - min p.2 ((m.lookup p.1).getD maxChainLength) := by
      rw [height,h.getD]
      omega
    have hstart := h.insert p.1 (min p.2 ((m.lookup p.1).getD maxChainLength))
    rw [← hmax] at hstart
    exact materialize_flip hforward p hstart

theorem flip_flip (h : p.2 ≤ maxChainLength) : flip (flip p) = p := by
  obtain ⟨c,s⟩ := p
  simp only [flip,Prod.mk.injEq,true_and]
  omega

def turned (links : List (Link ℕ)) : List (Link ℕ) := (generateForwardLinks links).map flipLink

theorem mem_turned {l : Link ℕ} : l ∈ turned links ↔ ∃ k ∈ links, l = ⟨flip k.target,flip k.origin⟩ := by
  simp [turned,generateForwardLinks,flipLink,eq_comm]

theorem reach_of_turned (hshort : Short links) (h : Reach {l | l ∈ turned links} p q) :
    Reach {l | l ∈ links} (flip q) (flip p) := by
  induction h with
  | refl => exact .refl
  | tail _ hm ih =>
    apply ReflTransGen.trans _ ih
    cases hm with
    | @down c s s' hle => exact Reach.down (by omega)
    | @along l s hl hle =>
      obtain ⟨k,hk,rfl⟩ := mem_turned.mp hl
      have hle' : maxChainLength - k.target.2 ≤ s := hle
      have hback : flip (flip k.origin) = k.origin := flip_flip (hshort k hk).1.le
      rw [hback]
      have hdown : Reach {l | l ∈ links} (k.target.1,k.target.2)
          (k.target.1,maxChainLength - s) := Reach.down (by omega)
      exact (Reach.link hk).trans hdown

theorem turned_of_reach (h : Reach {l | l ∈ links} p q) : Reach {l | l ∈ turned links} (flip q) (flip p) := by
  induction h with
  | refl => exact .refl
  | tail _ hm ih =>
    apply ReflTransGen.trans _ ih
    cases hm with
    | @down c s s' hle => exact Reach.down (by omega)
    | @along l s hl hle =>
      have hlink : Reach {l | l ∈ turned links} (flip l.target) (flip l.origin) :=
        Reach.link (l := ⟨flip l.target,flip l.origin⟩) (mem_turned.mpr ⟨l,hl,rfl⟩)
      exact hlink.trans (Reach.down (by omega))

theorem reach_turned_iff (hshort : Short links) (hp : p.2 ≤ maxChainLength) (hq : q.2 ≤ maxChainLength) :
    Reach {l | l ∈ turned links} (flip p) (flip q) ↔ Reach {l | l ∈ links} q p := by
  constructor
  · intro h
    have hback := reach_of_turned hshort h
    rwa [flip_flip hp,flip_flip hq] at hback
  · exact turned_of_reach

end TextrpBriij.AuthChain
