import TextrpBriij.Foundation.ChainCover
import TextrpBriij.Foundation.Fallible

/-! # Helpers for iterables

`sorted_topologically` is Kahn's algorithm with a heap. The model keeps the heap as a sorted
list and the two dicts of the first loop as the functions they are looked up as.
-/
namespace TextrpBriij.Util
open Relation List Function

variable {T : Type} [LinearOrder T]

/-- Rounds of `batch_iter`, which stops at the first empty batch. -/
def batches {α : Type} (size : ℕ) : ℕ → List α → List (List α)
  | 0, _ => []
  | _ + 1, [] => []
  | rounds + 1, x :: xs => (x :: xs).take size :: batches size rounds ((x :: xs).drop size)

def batchIter {α : Type} (iterable : List α) (size : ℕ) : List (List α) :=
  batches size iterable.length iterable

theorem mem_batches {α : Type} {size : ℕ} (hsize : 0 < size) (a : α) (rounds : ℕ) {xs : List α}
    (h : xs.length ≤ rounds) : a ∈ xs ↔ ∃ batch ∈ batches size rounds xs, a ∈ batch := by
  induction rounds generalizing xs with
  | zero => simp [batches,length_eq_zero_iff.mp (Nat.le_zero.mp h)]
  | succ rounds ih =>
    cases xs with
    | nil => simp [batches]
    | cons x xs =>
      have hlen : ((x :: xs).drop size).length ≤ rounds := by
        rw [length_drop,length_cons]
        rw [length_cons] at h
        omega
      rw [batches,exists_mem_cons_iff,← ih hlen,← mem_append,take_append_drop]

abbrev Graph (T : Type) := AList (fun _ : T => List T)

def Graph.edges (graph : Graph T) (node : T) : List T := (graph.lookup node).getD []

/-- `degree_map` after the first loop, for a node that is one of its keys. -/
def degreeMap (nodes : List T) (graph : Graph T) (node : T) : ℤ :=
  ((graph.edges node).toFinset.filter (· ∈ nodes)).card

def reverseGraph (nodes : List T) (graph : Graph T) (edge : T) : List T :=
  (graph.keys.filter (· ∈ nodes)).filter (fun node => edge ∈ graph.edges node)

def relax (nodes : List T) (s : List T × (T → ℤ)) (edge : T) : List T × (T → ℤ) :=
  if edge ∈ nodes then
    let degree := update s.2 edge (s.2 edge - 1)
    (if degree edge = 0 then s.1.orderedInsert (· ≤ ·) edge else s.1,degree)
  else s

/-- The loop over the heap. Each round yields a node that was not yielded before, so one
round for each node is enough. -/
def drain (nodes : List T) (graph : Graph T) : ℕ → List T → (T → ℤ) → List T
  | 0, _, _ => []
  | _ + 1, [], _ => []
  | fuel + 1, node :: heap, degree =>
    let s := (reverseGraph nodes graph node).foldl (relax nodes) (heap,degree)
    node :: drain nodes graph fuel s.1 s.2

def sortedTopologically (nodes : List T) (graph : Graph T) : List T :=
  let degree := degreeMap nodes graph
  drain nodes graph nodes.toFinset.card
    ((nodes.dedup.filter (fun node => degree node = 0)).insertionSort (· ≤ ·)) degree

structure Topological (edges : T → List T) (nodes order : List T) : Prop where
  nodup : order.Nodup
  mem : ∀ n, n ∈ order ↔ n ∈ nodes
  earlier : ∀ pre n post, order = pre ++ n :: post → ∀ m ∈ edges n, m ∈ nodes → m ∈ pre

def Acyclic (edges : T → List T) : Prop := ∀ n, ¬TransGen (fun a b => b ∈ edges a) n n

omit [LinearOrder T] in
theorem Acyclic.mono {edges edges' : T → List T} (h : Acyclic edges)
    (hsub : ∀ n, ∀ m ∈ edges' n, m ∈ edges n) : Acyclic edges' :=
  fun n hn => h n (TransGen.mono hsub _ _ hn)

omit [LinearOrder T] in
theorem Acyclic.of_rank {edges : T → List T} (rank : T → ℕ)
    (h : ∀ n, ∀ m ∈ edges n, rank m < rank n) : Acyclic edges := by
  have hlt : ∀ {a b}, TransGen (fun a b => b ∈ edges a) a b → rank b < rank a := by
    intro a b hab
    induction hab with
    | single hedge => exact h _ _ hedge
    | tail _ hedge ih => exact (h _ _ hedge).trans ih
  exact fun n hn => lt_irrefl _ (hlt hn)

omit [LinearOrder T] in
theorem Acyclic.exists_sink {edges : T → List T} (h : Acyclic edges) {s : Finset T}
    (hs : s.Nonempty) : ∃ n ∈ s, ∀ m ∈ s, m ∉ edges n := by
  have hswap : ∀ n, ¬TransGen (fun a b => a ∈ edges b) n n := fun n hn =>
    h n (transGen_swap.mp hn)
  obtain ⟨n,hn,htop⟩ := ChainCover.exists_top hswap hs
  exact ⟨n,hn,fun m hm hedge => htop m hm (.single hedge)⟩

section kahn
variable {nodes heap : List T} {graph : Graph T} {done : Finset T} {degree : T → ℤ}

theorem mem_reverseGraph {node edge : T} :
    node ∈ reverseGraph nodes graph edge ↔ node ∈ nodes ∧ edge ∈ graph.edges node := by
  simp only [reverseGraph,mem_filter,decide_eq_true_eq]
  refine ⟨fun h => ⟨h.1.2,h.2⟩,fun h => ⟨⟨?_,h.1⟩,h.2⟩⟩
  by_contra hnot
  simp [Graph.edges,AList.lookup_eq_none.mpr hnot] at h

theorem reverseGraph_nodup (edge : T) : (reverseGraph nodes graph edge).Nodup :=
  (graph.keys_nodup.filter _).filter _

def pending (nodes : List T) (graph : Graph T) (done : Finset T) (n : T) : Finset T :=
  (graph.edges n).toFinset.filter (· ∈ nodes) \ done

theorem pending_insert (node n : T) :
    pending nodes graph (insert node done) n = (pending nodes graph done n).erase node :=
  Finset.sdiff_insert _ _ _

theorem mem_pending {n m : T} :
    m ∈ pending nodes graph done n ↔ (m ∈ graph.edges n ∧ m ∈ nodes) ∧ m ∉ done := by
  simp [pending]

structure Kahn (nodes : List T) (graph : Graph T) (done : Finset T) (heap : List T)
    (degree : T → ℤ) : Prop where
  degree_eq : ∀ n ∈ nodes, degree n = (pending nodes graph done n).card
  heap_nodup : heap.Nodup
  mem_heap : ∀ n, n ∈ heap ↔ n ∈ nodes ∧ n ∉ done ∧ pending nodes graph done n = ∅
  closed : ∀ n ∈ done, pending nodes graph done n = ∅

theorem relax_foldl (degree : T → ℤ) {edges : List T} (hsub : ∀ n ∈ edges, n ∈ nodes) (hnodup : edges.Nodup)
    (hheap : heap.Nodup) (hpos : ∀ n ∈ edges, n ∉ heap) :
    let s := edges.foldl (relax nodes) (heap,degree)
    (∀ n, s.2 n = if n ∈ edges then degree n - 1 else degree n) ∧ s.1.Nodup ∧
      ∀ n, n ∈ s.1 ↔ n ∈ heap ∨ n ∈ edges ∧ degree n = 1 := by
  refine Fallible.foldl_spec (fun pre (s : List T × (T → ℤ)) =>
    (∀ n, s.2 n = if n ∈ pre then degree n - 1 else degree n) ∧ s.1.Nodup ∧
      ∀ n, n ∈ s.1 ↔ n ∈ heap ∨ n ∈ pre ∧ degree n = 1) (by simp [hheap]) ?_
  rintro pre a post ⟨heap',degree'⟩ hsplit ⟨hdeg,hnd,hmem⟩
  have ha : a ∈ edges := by simp [hsplit]
  have hfresh : a ∉ pre := by
    rw [hsplit] at hnodup
    exact fun h => (nodup_append.mp hnodup).2.2 a h a mem_cons_self rfl
  have hdega : degree' a = degree a := by simpa [hfresh] using hdeg a
  have hnota : a ∉ heap' := fun h => by
    rcases (hmem a).mp h with h | h
    · exact hpos a ha h
    · exact hfresh h.1
  simp only [relax,hsub a ha,if_true,update_self,hdega]
  refine ⟨fun n => ?_,?_,fun n => ?_⟩
  · by_cases hn : n = a
    · subst hn
      simp
    · simp only [update_of_ne hn,mem_append,mem_singleton,hn,or_false]
      exact hdeg n
  · split
    · exact (perm_orderedInsert _ a heap').nodup_iff.mpr (nodup_cons.mpr ⟨hnota,hnd⟩)
    · exact hnd
  · have hone : degree a - 1 = 0 ↔ degree a = 1 := by omega
    simp only [hone,mem_append,mem_singleton]
    split
    · rename_i hzero
      rw [mem_orderedInsert,hmem]
      constructor
      · rintro (rfl | h | h)
        · exact .inr ⟨.inr rfl,hzero⟩
        · exact .inl h
        · exact .inr ⟨.inl h.1,h.2⟩
      · rintro (h | ⟨h | rfl,h'⟩)
        · exact .inr (.inl h)
        · exact .inr (.inr ⟨h,h'⟩)
        · exact .inl rfl
    · rename_i hzero
      rw [hmem]
      constructor
      · rintro (h | h)
        · exact .inl h
        · exact .inr ⟨.inl h.1,h.2⟩
      · rintro (h | ⟨h | rfl,h'⟩)
        · exact .inl h
        · exact .inr ⟨h,h'⟩
        · exact absurd h' hzero

theorem Kahn.pop {node : T} (h : Kahn nodes graph done (node :: heap) degree) :
    let s := (reverseGraph nodes graph node).foldl (relax nodes) (heap,degree)
    Kahn nodes graph (insert node done) s.1 s.2 := by
  obtain ⟨hnode,hdone,hnone⟩ := (h.mem_heap node).mp mem_cons_self
  obtain ⟨hnotin,hnd⟩ := nodup_cons.mp h.heap_nodup
  -- a node with an edge to the popped one is neither done nor in the heap
  have hwaits : ∀ n ∈ reverseGraph nodes graph node, node ∈ pending nodes graph done n :=
    fun n hn => mem_pending.mpr ⟨⟨(mem_reverseGraph.mp hn).2,hnode⟩,hdone⟩
  have hnew : ∀ n ∈ reverseGraph nodes graph node, n ∉ node :: heap := fun n hn hin => by
    have := hwaits n hn
    rw [((h.mem_heap n).mp hin).2.2] at this
    simp at this
  obtain ⟨hdeg,hnd',hmem⟩ := relax_foldl degree
    (fun n hn => (mem_reverseGraph.mp hn).1) (reverseGraph_nodup node) hnd
    (fun n hn hin => hnew n hn (mem_cons_of_mem _ hin))
  have hkeep : ∀ n, n ∈ nodes → n ∉ reverseGraph nodes graph node →
      pending nodes graph (insert node done) n = pending nodes graph done n := by
    intro n hn hnot
    rw [pending_insert]
    refine Finset.erase_eq_of_notMem fun hin => hnot ?_
    exact mem_reverseGraph.mpr ⟨hn,(mem_pending.mp hin).1.1⟩
  have hsmall : ∀ n, pending nodes graph done n = ∅ →
      pending nodes graph (insert node done) n = ∅ := fun n hn => by
    rw [pending_insert,hn]
    rfl
  refine ⟨fun n hn => ?_,hnd',fun n => ?_,fun n hn => ?_⟩
  · rw [hdeg]
    split
    · rename_i hin
      rw [pending_insert,Finset.card_erase_of_mem (hwaits n hin),h.degree_eq n hn]
      have := Finset.card_pos.mpr ⟨node,hwaits n hin⟩
      omega
    · rename_i hnot
      rw [hkeep n hn hnot,h.degree_eq n hn]
  · rw [hmem,Finset.mem_insert,not_or]
    constructor
    · rintro (hin | ⟨hin,hone⟩)
      · obtain ⟨hn,hnd,he⟩ := (h.mem_heap n).mp (mem_cons_of_mem _ hin)
        exact ⟨hn,⟨fun heq => hnotin (heq ▸ hin),hnd⟩,hsmall n he⟩
      · have hn := (mem_reverseGraph.mp hin).1
        refine ⟨hn,⟨fun heq => hnew n hin (heq ▸ mem_cons_self),fun hd => ?_⟩,?_⟩
        · have := hwaits n hin
          rw [h.closed n hd] at this
          simp at this
        · rw [pending_insert,← Finset.card_eq_zero,Finset.card_erase_of_mem (hwaits n hin)]
          have := h.degree_eq n hn
          omega
    · rintro ⟨hn,⟨hne,hnd⟩,he⟩
      by_cases hin : n ∈ reverseGraph nodes graph node
      · rw [pending_insert,← Finset.card_eq_zero,Finset.card_erase_of_mem (hwaits n hin)] at he
        have := Finset.card_pos.mpr ⟨node,hwaits n hin⟩
        have := h.degree_eq n hn
        exact .inr ⟨hin,by omega⟩
      · rw [hkeep n hn hin] at he
        have := (h.mem_heap n).mpr ⟨hn,hnd,he⟩
        exact .inl ((mem_cons.mp this).resolve_left hne)
  · rcases Finset.mem_insert.mp hn with rfl | hn
    · exact hsmall n hnone
    · exact hsmall n (h.closed n hn)

/-- With an empty heap nothing is left, or the nodes left would form a cycle. -/
theorem Kahn.finished (h : Kahn nodes graph done [] degree) (hacyclic : Acyclic graph.edges)
    {n : T} (hn : n ∈ nodes) : n ∈ done := by
  by_contra hnot
  have hne : (nodes.toFinset \ done).Nonempty := ⟨n,by simp [hn,hnot]⟩
  obtain ⟨m,hm,hsink⟩ := hacyclic.exists_sink hne
  rw [Finset.mem_sdiff,mem_toFinset] at hm
  refine not_mem_nil ((h.mem_heap m).mpr ⟨hm.1,hm.2,?_⟩)
  refine Finset.eq_empty_of_forall_notMem fun k hk => ?_
  obtain ⟨⟨hedge,hk⟩,hkd⟩ := mem_pending.mp hk
  exact hsink k (by simp [hk,hkd]) hedge

theorem drain_spec (hacyclic : Acyclic graph.edges) (fuel : ℕ)
    (h : Kahn nodes graph done heap degree) (hfuel : (nodes.toFinset \ done).card ≤ fuel) :
    (drain nodes graph fuel heap degree).Nodup ∧
    (∀ n, n ∈ drain nodes graph fuel heap degree ↔ n ∈ nodes ∧ n ∉ done) ∧
    ∀ pre n post, drain nodes graph fuel heap degree = pre ++ n :: post →
      ∀ m ∈ graph.edges n, m ∈ nodes → m ∈ pre ∨ m ∈ done := by
  induction fuel generalizing done heap degree with
  | zero =>
    have hempty := Finset.card_eq_zero.mp (Nat.le_zero.mp hfuel)
    refine ⟨nodup_nil,fun n => ?_,fun pre n post hsplit => by simp [drain] at hsplit⟩
    have hn : n ∉ nodes.toFinset \ done := by simp [hempty]
    simpa [drain] using hn
  | succ fuel ih =>
    cases heap with
    | nil =>
      refine ⟨nodup_nil,fun n => ?_,fun pre n post hsplit => by simp [drain] at hsplit⟩
      have := fun hn : n ∈ nodes => h.finished hacyclic hn
      simpa [drain] using this
    | cons node heap =>
      obtain ⟨hnode,hdone,hnone⟩ := (h.mem_heap node).mp mem_cons_self
      have hcard : (nodes.toFinset \ insert node done).card ≤ fuel := by
        have hin : node ∈ nodes.toFinset \ done := by simp [hnode,hdone]
        rw [Finset.sdiff_insert,Finset.card_erase_of_mem hin]
        omega
      obtain ⟨hnd,hmem,hord⟩ := ih h.pop hcard
      simp only [drain]
      refine ⟨nodup_cons.mpr ⟨fun hin => ?_,hnd⟩,fun n => ?_,fun pre n post hsplit => ?_⟩
      · exact ((hmem node).mp hin).2 (Finset.mem_insert_self _ _)
      · rw [mem_cons,hmem,Finset.mem_insert,not_or]
        constructor
        · rintro (rfl | ⟨hn,-,hnd⟩)
          · exact ⟨hnode,hdone⟩
          · exact ⟨hn,hnd⟩
        · rintro ⟨hn,hnd⟩
          by_cases heq : n = node
          · exact .inl heq
          · exact .inr ⟨hn,heq,hnd⟩
      · intro m hm hmn
        cases pre with
        | nil =>
          obtain ⟨rfl,-⟩ := cons.inj hsplit
          by_contra hnot
          have : m ∈ pending nodes graph done node :=
            mem_pending.mpr ⟨⟨hm,hmn⟩,fun hd => hnot (.inr hd)⟩
          rw [hnone] at this
          simp at this
        | cons x pre =>
          obtain ⟨rfl,htail⟩ := cons.inj hsplit
          rcases hord pre n post htail m hm hmn with hin | hin
          · exact .inl (mem_cons_of_mem _ hin)
          · rcases Finset.mem_insert.mp hin with rfl | hin
            · exact .inl mem_cons_self
            · exact .inr hin

end kahn

theorem sortedTopologically_topological (nodes : List T) {graph : Graph T} (hacyclic : Acyclic graph.edges) :
    Topological graph.edges nodes (sortedTopologically nodes graph) := by
  have hstart : Kahn nodes graph ∅
      ((nodes.dedup.filter (fun node => degreeMap nodes graph node = 0)).insertionSort (· ≤ ·))
      (degreeMap nodes graph) := by
    refine ⟨fun n _ => by simp [degreeMap,pending],?_,fun n => ?_,by simp⟩
    · exact (perm_insertionSort _ _).nodup_iff.mpr (nodes.nodup_dedup.filter _)
    · simp [degreeMap,pending]
  obtain ⟨hnd,hmem,hord⟩ := drain_spec hacyclic nodes.toFinset.card hstart (by simp)
  refine ⟨hnd,fun n => (hmem n).trans (by simp),fun pre n post hsplit m hm hmn => ?_⟩
  simpa using hord pre n post hsplit m hm hmn

example : sortedTopologically [1,2] ((∅ : Graph ℕ).insert 1 [2]) = [2,1] := by decide +kernel

end TextrpBriij.Util
