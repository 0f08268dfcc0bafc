import TextrpBriij.AuthChain.CoverIndex

/-! # State maps and the order of sets

A room state maps an event type and a state key to an event. Where Python iterates a set or a
dict, the order is whatever `Iteration` gives for that place in the code.
-/
namespace TextrpBriij.State
open AuthChain (Dict)

/-- A map from event types and state keys. -/
abbrev StateMap (V : Type) := Dict (String × String) V

instance lawfulKeys : LawfulBEq (String × String) := inferInstance

def values {K V : Type} (d : Dict K V) : List V := d.entries.map fun entry => entry.2

/-- The order of sets and dicts at each place where one is iterated. -/
structure Iteration where
  order : ℕ → ∀ {α : Type}, List α → List α
  perm : ∀ place {α : Type} (l : List α), (order place l).Perm l

def Iteration.listed : Iteration := ⟨fun _ _ l => l,fun _ _ l => .refl l⟩

def Iteration.startingAt (index : ℕ) : Iteration :=
  ⟨fun _ _ l => l.rotate index,fun _ _ l => List.rotate_perm l index⟩

theorem Iteration.exists_first {α : Type} {l : List α} {a : α} (h : a ∈ l) (place : ℕ) :
    ∃ it : Iteration, ∃ rest, it.order place l = a :: rest := by
  obtain ⟨before,after,rfl⟩ := List.append_of_mem h
  refine ⟨.startingAt before.length,after ++ before,?_⟩
  simp [startingAt,List.rotate_append_length_eq]

end TextrpBriij.State
