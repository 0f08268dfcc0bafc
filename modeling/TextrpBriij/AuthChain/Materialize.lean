import TextrpBriij.AuthChain.Difference

/-! # Walking links backwards

What `_materialize` leaves in the dictionary of reached numbers: every chain that it walks or
raises has its links followed, nothing is lowered, and nothing is raised but along links.
-/
namespace TextrpBriij.AuthChain
open ChainCover List Fallible

variable {links : List (Link ℕ)} {m m' : Dict ℕ ℕ} {p : Place ℕ} {c d s : ℕ}
  {before middle after : List (Place ℕ) × Dict ℕ ℕ}

def height (m : Dict ℕ ℕ) (c : ℕ) : ℕ := (m.lookup c).getD 0

theorem height_insert : height (m.insert c s) d = if d = c then s else height m d := by
  unfold height
  split
  case isTrue h => rw [h,AList.lookup_insert,Option.getD_some]
  case isFalse h => rw [AList.lookup_insert_ne h]

def Followed (links : List (Link ℕ)) (m : Dict ℕ ℕ) (c s : ℕ) : Prop :=
  ∀ l ∈ links, l.origin.1 = c → l.origin.2 ≤ s → l.target.2 ≤ height m l.target.1

theorem Followed.mono (h : Followed links m c s) (hm : ∀ d, height m d ≤ height m' d) : Followed links m' c s :=
  fun l hl hc hs => (h l hl hc hs).trans (hm _)

def unmet (links : List (Link ℕ)) (m : Dict ℕ ℕ) : Finset (Link ℕ) :=
  links.toFinset.filter fun l => height m l.target.1 < l.target.2

theorem unmet_card_le (links : List (Link ℕ)) (m : Dict ℕ ℕ) : (unmet links m).card ≤ links.length :=
  (Finset.card_filter_le _ _).trans (toFinset_card_le _)

theorem unmet_insert_lt {l : Link ℕ} (hl : l ∈ links) (h : height m l.target.1 < l.target.2) :
    (unmet links (m.insert l.target.1 l.target.2)).card < (unmet links m).card := by
  apply Finset.card_lt_card
  rw [Finset.ssubset_iff_of_subset]
  · refine ⟨l,by simp [unmet,hl,h],?_⟩
    simp [unmet,height_insert]
  · intro k hk
    simp only [unmet,Finset.mem_filter,height_insert] at hk ⊢
    refine ⟨hk.1,?_⟩
    have hlt := hk.2
    split at hlt
    case isTrue heq =>
      rw [heq]
      omega
    case isFalse => exact hlt

structure Pushed (links : List (Link ℕ)) (p : Place ℕ)
    (before after : List (Place ℕ) × Dict ℕ ℕ) : Prop where
  mono : ∀ d, height before.2 d ≤ height after.2 d
  keeps : ∀ q ∈ before.1, q ∈ after.1
  raised : ∀ d, height before.2 d < height after.2 d → (d,height after.2 d) ∈ after.1 ∧
    ∃ l ∈ links, l.origin.1 = p.1 ∧ l.origin.2 ≤ p.2 ∧ l.target = (d,height after.2 d)
  fresh : ∀ q ∈ after.1, q ∈ before.1 ∨ ∃ l ∈ links, l.origin.1 = p.1 ∧ l.origin.2 ≤ p.2 ∧ l.target = q
  fuel : after.1.length + (unmet links after.2).card ≤ before.1.length + (unmet links before.2).card

theorem Pushed.refl (before : List (Place ℕ) × Dict ℕ ℕ) : Pushed links p before before :=
  ⟨fun _ => le_rfl,fun _ hq => hq,fun _ h => absurd h (lt_irrefl _),fun _ hq => .inl hq,le_rfl⟩

theorem Pushed.trans (h : Pushed links p before middle) (h' : Pushed links p middle after) :
    Pushed links p before after where
  mono d := (h.mono d).trans (h'.mono d)
  keeps q hq := h'.keeps q (h.keeps q hq)
  raised d hd := by
    rcases (h'.mono d).lt_or_eq with hlt | heq
    · exact h'.raised d hlt
    · rw [← heq] at hd ⊢
      exact ⟨h'.keeps _ (h.raised d hd).1,(h.raised d hd).2⟩
  fresh q hq := by
    rcases h'.fresh q hq with hq | hlink
    · exact h.fresh q hq
    · exact .inr hlink
  fuel := h'.fuel.trans h.fuel

theorem Pushed.push {l : Link ℕ} (hl : l ∈ links) (hc : l.origin.1 = p.1) (hs : l.origin.2 ≤ p.2)
    (h : height before.2 l.target.1 < l.target.2) :
    Pushed links p before (l.target :: before.1,before.2.insert l.target.1 l.target.2) where
  mono d := by
    rw [height_insert]
    split
    case isTrue heq =>
      rw [heq]
      exact h.le
    case isFalse => exact le_rfl
  keeps q hq := mem_cons_of_mem _ hq
  raised d hd := by
    rw [height_insert] at hd ⊢
    split at hd
    case isTrue heq =>
      subst heq
      rw [if_pos rfl]
      exact ⟨mem_cons_self,l,hl,hc,hs,rfl⟩
    case isFalse => exact absurd hd (lt_irrefl _)
  fresh q hq := by
    rcases mem_cons.mp hq with rfl | hq
    · exact .inr ⟨l,hl,hc,hs,rfl⟩
    · exact .inl hq
  fuel := by
    have hlt := unmet_insert_lt hl h
    simp only [length_cons]
    omega

theorem materializeLink_pushed (before : List (Place ℕ) × Dict ℕ ℕ) {l : Link ℕ} (hl : l ∈ links)
    (hc : l.origin.1 = p.1) : Pushed links p before (materializeLink true p.2 before l) ∧
      (l.origin.2 ≤ p.2 → l.target.2 ≤ height (materializeLink true p.2 before l).2 l.target.1) := by
  simp only [materializeLink,if_true]
  split
  case isTrue habove => exact ⟨.refl _,fun hle => absurd hle (by omega)⟩
  case isFalse habove =>
    split
    case isTrue hlt =>
      refine ⟨.push hl hc (by omega) hlt,fun _ => ?_⟩
      rw [height_insert,if_pos rfl]
    case isFalse hge => exact ⟨.refl _,fun _ => Nat.le_of_not_lt hge⟩

theorem materializeLinks_pushed (links : List (Link ℕ)) (p : Place ℕ) (before : List (Place ℕ) × Dict ℕ ℕ) :
    let after := (links.filter fun l => l.origin.1 = p.1).foldl (materializeLink true p.2) before
    Pushed links p before after ∧ Followed links after.2 p.1 p.2 := by
  intro after
  have h : Pushed links p before after ∧ ∀ l ∈ links.filter fun l => l.origin.1 = p.1,
      l.origin.2 ≤ p.2 → l.target.2 ≤ height after.2 l.target.1 := by
    apply foldl_spec (fun (pre : List (Link ℕ)) st => Pushed links p before st ∧
      ∀ l ∈ pre, l.origin.2 ≤ p.2 → l.target.2 ≤ height st.2 l.target.1) ⟨.refl _,by simp⟩
    rintro pre l post st hsplit ⟨hst,hpre⟩
    have hmem : l ∈ links.filter fun l => l.origin.1 = p.1 := by simp [hsplit]
    obtain ⟨hl,hc⟩ := mem_filter.mp hmem
    obtain ⟨hstep,hmet⟩ := materializeLink_pushed st hl (of_decide_eq_true hc)
    refine ⟨hst.trans hstep,fun k hk hle => ?_⟩
    rcases mem_append.mp hk with hk | hk
    · exact (hpre k hk hle).trans (hstep.mono _)
    · rw [mem_singleton.mp hk] at hle ⊢
      exact hmet hle
  refine ⟨h.1,fun l hl hc hs => h.2 l ?_ hs⟩
  exact mem_filter.mpr ⟨hl,decide_eq_true hc⟩

/-- The loop between two rounds: what was raised is followed or still on the stack. -/
structure Walking (links : List (Link ℕ)) (p : Place ℕ) (m : Dict ℕ ℕ)
    (st : List (Place ℕ) × Dict ℕ ℕ) : Prop where
  mono : ∀ d, height m d ≤ height st.2 d
  origin : p ∈ st.1 ∨ Followed links st.2 p.1 p.2
  raised : ∀ d, height m d < height st.2 d → (d,height st.2 d) ∈ st.1 ∨ Followed links st.2 d (height st.2 d)
  reach : ∀ q ∈ st.1, Reach {l | l ∈ links} p q
  along : ∀ d, height m d < height st.2 d →
    Reach {l | l ∈ links} p (d,height st.2 d) ∧ ∃ l ∈ links, l.target.1 = d

theorem Walking.start (links : List (Link ℕ)) (p : Place ℕ) (m : Dict ℕ ℕ) : Walking links p m ([p],m) where
  mono _ := le_rfl
  origin := .inl mem_cons_self
  raised _ h := absurd h (lt_irrefl _)
  reach q hq := by
    rw [mem_singleton.mp hq]
    exact .refl
  along _ h := absurd h (lt_irrefl _)

theorem Walking.step {q : Place ℕ} {stack : List (Place ℕ)}
    (h : Walking links p m (q :: stack,m')) (hpush : Pushed links q (stack,m') after)
    (hq : Followed links after.2 q.1 q.2) : Walking links p m after := by
  -- a place of the stack is the one that was taken, or it is still there
  have hpop : ∀ {r : Place ℕ}, r ∈ q :: stack → r ∈ after.1 ∨ Followed links after.2 r.1 r.2 := by
    intro r hr
    rcases mem_cons.mp hr with rfl | hr
    · exact .inr hq
    · exact .inl (hpush.keeps r hr)
  have hlink : ∀ {l : Link ℕ}, l ∈ links → l.origin.1 = q.1 → l.origin.2 ≤ q.2 →
      Reach {l | l ∈ links} p l.target := by
    intro l hl hc hs
    have hmove : Move {l | l ∈ links} (l.origin.1,q.2) l.target := .along hl hs
    rw [hc] at hmove
    exact (h.reach q mem_cons_self).tail hmove
  refine ⟨fun d => (h.mono d).trans (hpush.mono d),?_,fun d hd => ?_,fun r hr => ?_,fun d hd => ?_⟩
  · rcases h.origin with hin | hdone
    · exact hpop hin
    · exact .inr (hdone.mono hpush.mono)
  · rcases (hpush.mono d).lt_or_eq with hlt | heq
    · exact .inl (hpush.raised d hlt).1
    · rw [← heq] at hd ⊢
      rcases h.raised d hd with hin | hdone
      · exact hpop hin
      · exact .inr (hdone.mono hpush.mono)
  · rcases hpush.fresh r hr with hr | ⟨l,hl,hc,hs,rfl⟩
    · exact h.reach r (mem_cons_of_mem _ hr)
    · exact hlink hl hc hs
  · rcases (hpush.mono d).lt_or_eq with hlt | heq
    · obtain ⟨-,l,hl,hc,hs,htarget⟩ := hpush.raised d hlt
      exact ⟨htarget ▸ hlink hl hc hs,l,hl,by rw [htarget]⟩
    · rw [← heq] at hd ⊢
      exact h.along d hd

structure Materialized (links : List (Link ℕ)) (p : Place ℕ) (m m' : Dict ℕ ℕ) : Prop where
  mono : ∀ d, height m d ≤ height m' d
  origin : Followed links m' p.1 p.2
  raised : ∀ d, height m d < height m' d → Followed links m' d (height m' d)
  along : ∀ d, height m d < height m' d → Reach {l | l ∈ links} p (d,height m' d) ∧ ∃ l ∈ links, l.target.1 = d

theorem materializeLoop_materialized (fuel : ℕ) {st : List (Place ℕ) × Dict ℕ ℕ}
    (h : Walking links p m st) (hfuel : st.1.length + (unmet links st.2).card ≤ fuel) :
    Materialized links p m (materializeLoop links true fuel st.1 st.2) := by
  have hdone : ∀ {m'}, Walking links p m ([],m') → Materialized links p m m' := by
    intro m' h
    exact ⟨h.mono,h.origin.resolve_left (by simp), fun d hd => (h.raised d hd).resolve_left (by simp),h.along⟩
  induction fuel generalizing st with
  | zero =>
    obtain ⟨stack,m'⟩ := st
    obtain rfl : stack = [] := length_eq_zero_iff.mp (by simp only at hfuel; omega)
    exact hdone h
  | succ fuel ih =>
    obtain ⟨stack,m'⟩ := st
    cases stack with
    | nil => exact hdone h
    | cons q stack =>
      obtain ⟨hpush,hq⟩ := materializeLinks_pushed links q (stack,m')
      have hle : stack.length + (unmet links m').card ≤ fuel := by
        simp only [length_cons] at hfuel
        omega
      exact ih (h.step hpush hq) (hpush.fuel.trans hle)

theorem materialize_materialized (links : List (Link ℕ)) (p : Place ℕ) (m : Dict ℕ ℕ) :
    Materialized links p m (materialize p links m true) := by
  have hle := unmet_card_le links m
  apply materializeLoop_materialized _ (Walking.start links p m)
  simp only [length_singleton]
  omega

structure Walked (links : List (Link ℕ)) (m m' : Dict ℕ ℕ) : Prop where
  mono : ∀ d, height m d ≤ height m' d
  reach : ∀ d, 0 < height m' d → ∃ c, 0 < height m c ∧ Reach {l | l ∈ links} (c,height m c) (d,height m' d)
  raised : ∀ d, height m d < height m' d → ∃ l ∈ links, l.target.1 = d

theorem Walked.refl (links : List (Link ℕ)) (m : Dict ℕ ℕ) : Walked links m m :=
  ⟨fun _ => le_rfl,fun d hd => ⟨d,hd,.refl⟩,fun _ h => absurd h (lt_irrefl _)⟩

section
variable (hpos : ∀ l ∈ links, 1 ≤ l.origin.2)
include hpos

theorem pos_of_reach {q : Place ℕ} (hr : Reach {l | l ∈ links} p q) (hq : 0 < q.2) : 0 < p.2 := by
  by_contra hp
  have hsat : Saturated {l | l ∈ links} fun _ => 0 := by
    intro l hl hle
    have hone : 1 ≤ l.origin.2 := hpos l hl
    have hzero : l.origin.2 ≤ 0 := hle
    omega
  have hle : q.2 ≤ 0 := hsat.le_of_reach hr (Nat.le_of_not_lt hp)
  omega

theorem Walked.materialize {m₀ : Dict ℕ ℕ}
    (h : Walked links m₀ m) (hm : Materialized links (c,height m c) m m') : Walked links m₀ m' where
  mono d := (h.mono d).trans (hm.mono d)
  reach d hd := by
    rcases (hm.mono d).lt_or_eq with hlt | heq
    · have hwalk := (hm.along d hlt).1
      obtain ⟨b,hb,hr⟩ := h.reach c (pos_of_reach hpos hwalk hd)
      exact ⟨b,hb,hr.trans hwalk⟩
    · rw [← heq] at hd ⊢
      exact h.reach d hd
  raised d hd := by
    rcases (hm.mono d).lt_or_eq with hlt | heq
    · exact (hm.along d hlt).2
    · rw [← heq] at hd
      exact h.raised d hd

theorem walkChains_walked (m : Dict ℕ ℕ) : Walked links m (walkChains links m) ∧
      Saturated {l | l ∈ links} (height (walkChains links m)) := by
  have hfold : Walked links m (walkChains links m) ∧
      ∀ d, d ∈ (links.map fun l => l.origin.1).dedup ∨ height m d < height (walkChains links m) d →
        Followed links (walkChains links m) d (height (walkChains links m) d) := by
    apply foldl_spec (fun (pre : List ℕ) t => Walked links m t ∧
      ∀ d, d ∈ pre ∨ height m d < height t d → Followed links t d (height t d))
    · exact ⟨.refl links m,fun d hd => absurd hd (by simp)⟩
    intro pre c post t _ ht
    obtain ⟨hwalked,hfollowed⟩ := ht
    cases hlookup : t.lookup c with
    | none =>
      -- nothing is reached on the chain, and no link starts at zero
      have hzero : height t c = 0 := by rw [height,hlookup,Option.getD_none]
      refine ⟨hwalked,fun d hd => ?_⟩
      show Followed links t d (height t d)
      by_cases heq : d = c
      · subst heq
        intro l hl _ hle
        have := hpos l hl
        omega
      · exact hfollowed d (by simpa [heq] using hd)
    | some s =>
      have hs : height t c = s := by rw [height,hlookup,Option.getD_some]
      subst hs
      have hm := materialize_materialized links (c,height t c) t
      refine ⟨hwalked.materialize hpos hm,fun d hd => ?_⟩
      rcases (hm.mono d).lt_or_eq with hlt | heq
      · exact hm.raised d hlt
      · rw [← heq] at hd ⊢
        by_cases hdc : d = c
        · subst hdc
          exact hm.origin
        · exact (hfollowed d (by simpa [hdc] using hd)).mono hm.mono
  refine ⟨hfold.1,fun l hl hle => ?_⟩
  have hmem : l.origin.1 ∈ (links.map fun l => l.origin.1).dedup :=
    mem_dedup.mpr (mem_map_of_mem hl)
  exact hfold.2 _ (.inl hmem) l hl rfl hle

end

variable {table : List (Link ℕ)} {chains : List ℕ} {batches : List (List (Link ℕ))}

def walkBatches (batches : List (List (Link ℕ))) (m : Dict ℕ ℕ) : Dict ℕ ℕ :=
  batches.foldl (fun m links => walkChains links m) m

/-- The batches walked so far. A chain is reached from the start, or along one of their links. -/
structure WalkedBatches (table : List (Link ℕ)) (m : Dict ℕ ℕ) (pre : List (List (Link ℕ)))
    (m' : Dict ℕ ℕ) : Prop where
  mono : ∀ d, height m d ≤ height m' d
  saturated : ∀ links ∈ pre, Saturated {l | l ∈ links} (height m')
  reach : ∀ d, 0 < height m' d → ∃ c, 0 < height m c ∧ Reach {l | l ∈ table} (c,height m c) (d,height m' d)
  raised : ∀ d, height m d < height m' d → ∃ links ∈ pre, ∃ l ∈ links, l.target.1 = d

section
variable (hfetched : FetchedLinks table chains batches) (hpos : ∀ l ∈ table, 1 ≤ l.origin.2)
include hfetched hpos

/-- One more batch. It holds all links of the chains that it raises, so the earlier batches
stay saturated. -/
theorem WalkedBatches.step {m₀ : Dict ℕ ℕ} {pre : List (List (Link ℕ))}
    (hlinks : links ∈ batches) (hpre : ∀ earlier ∈ pre, earlier ∈ batches)
    (h : WalkedBatches table m₀ pre m) :
    WalkedBatches table m₀ (pre ++ [links]) (walkChains links m) := by
  have hsub : {l | l ∈ links} ⊆ {l | l ∈ table} := hfetched.sub links hlinks
  obtain ⟨hwalked,hsat⟩ := walkChains_walked (fun l hl => hpos l (hsub hl)) m
  refine ⟨fun d => (h.mono d).trans (hwalked.mono d),?_,fun d hd => ?_,fun d hd => ?_⟩
  · intro earlier hearlier l hl hle
    rcases mem_append.mp hearlier with hin | hin
    · rcases (hwalked.mono l.origin.1).lt_or_eq with hlt | heq
      · obtain ⟨k,hk,htarget⟩ := hwalked.raised _ hlt
        have htable := hfetched.sub earlier (hpre earlier hin) l hl
        exact hsat l (hfetched.closed links hlinks k hk l htable (.inr htarget.symm)) hle
      · rw [← heq] at hle
        exact (h.saturated earlier hin l hl hle).trans (hwalked.mono _)
    · rw [mem_singleton.mp hin] at hl
      exact hsat l hl hle
  · obtain ⟨b,hb,hr⟩ := hwalked.reach d hd
    obtain ⟨c,hc,hr'⟩ := h.reach b hb
    exact ⟨c,hc,hr'.trans (hr.mono hsub)⟩
  · rcases (hwalked.mono d).lt_or_eq with hlt | heq
    · obtain ⟨l,hl,htarget⟩ := hwalked.raised d hlt
      exact ⟨links,by simp,l,hl,htarget⟩
    · rw [← heq] at hd
      obtain ⟨earlier,hin,hlink⟩ := h.raised d hd
      exact ⟨earlier,mem_append_left _ hin,hlink⟩

theorem walkBatches_saturated (hstart : ∀ c, 0 < height m c → c ∈ chains) :
    WalkedBatches table m batches (walkBatches batches m) ∧
      Saturated {l | l ∈ table} (height (walkBatches batches m)) := by
  have h : WalkedBatches table m batches (walkBatches batches m) := by
    apply foldl_spec (fun pre t => WalkedBatches table m pre t)
    · exact ⟨fun _ => le_rfl,by simp,fun d hd => ⟨d,hd,.refl⟩,fun _ hd => absurd hd (lt_irrefl _)⟩
    · intro pre links post t hsplit ht
      exact ht.step hfetched hpos (by simp [hsplit]) fun earlier hin => by simp [hsplit,hin]
  refine ⟨h,fun l hl hle => ?_⟩
  have hone := hpos l hl
  rcases (h.mono l.origin.1).lt_or_eq with hlt | heq
  · obtain ⟨links,hlinks,k,hk,htarget⟩ := h.raised _ hlt
    exact h.saturated links hlinks l (hfetched.closed links hlinks k hk l hl (.inr htarget.symm)) hle
  · obtain ⟨links,hlinks,hin⟩ := hfetched.fetched l hl (hstart _ (by omega))
    exact h.saturated links hlinks l hin hle

end

end TextrpBriij.AuthChain
