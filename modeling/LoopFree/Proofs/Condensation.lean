/-
  LoopFree.Proofs.Condensation — the components partition the graph against its edges.

  `Condenses` says of a list of lists that it has every vertex in exactly one list, that two
  vertices share a list when each reaches the other, and that an edge between two lists
  leads to the earlier one. The components are such a list, and the depth at which visits
  stop is never met (`components_condense`).

  No edge leads from a component to a later one, so whatever a vertex reaches stands no
  later than the vertex itself (`le_of_reaches`), and vertices that reach each other stand
  in one component. A vertex is then on a cycle exactly when it is its own successor or not
  alone in its component, which decides it (`onCycle_iff`).
-/

import LoopFree.Proofs.Component

namespace LoopFree.Digraph

variable {n : Nat} {g : Digraph n} {u v w : Fin n}

/-! ## Positions of components -/

section
variable {C D : List (Fin n)} {i j : Nat}

theorem disjoint_components (g : Digraph n) : g.components.Pairwise List.Disjoint :=
  (List.nodup_flatten.1 g.nodup_components).2

theorem exists_position (g : Digraph n) (v : Fin n) : ∃ (i : Nat) (C : List (Fin n)), g.components[i]? = some C ∧ v ∈ C := by
  obtain ⟨C, hC, hv⟩ := List.mem_flatten.1 (g.mem_components v)
  obtain ⟨i, hi⟩ := List.mem_iff_getElem?.1 hC
  exact ⟨i, C, hi, hv⟩

variable (hC : g.components[i]? = some C) (hD : g.components[j]? = some D)
include hC hD

/-- A vertex stands in one component. -/
theorem le_of_mem (hu : u ∈ C) (hu' : u ∈ D) : j ≤ i := by
  obtain ⟨hi, rfl⟩ := List.getElem?_eq_some_iff.1 hC
  obtain ⟨hj, rfl⟩ := List.getElem?_eq_some_iff.1 hD
  by_contra later
  have apart := List.pairwise_iff_getElem.1 g.disjoint_components i j hi hj (by omega)
  exact apart hu hu'

theorem le_of_edge (hu : u ∈ C) (hw : w ∈ D) (edge : g.edge u w) : j ≤ i := by
  obtain ⟨hi, rfl⟩ := List.getElem?_eq_some_iff.1 hC
  obtain ⟨hj, rfl⟩ := List.getElem?_eq_some_iff.1 hD
  by_contra later
  have apart := List.pairwise_iff_getElem.1 g.components_ordered i j hi hj (by omega)
  exact apart u hu w hw edge

/-- What a vertex reaches stands no later than the vertex. -/
theorem le_of_reaches (hu : u ∈ C) (hw : w ∈ D) (reach : g.Reaches u w) : j ≤ i := by
  induction reach generalizing j D with
  | refl => exact le_of_mem hC hD hu hw
  | tail _ edge ih =>
    obtain ⟨k, B, hB, hv⟩ := g.exists_position _
    exact Nat.le_trans (le_of_edge hB hD hv hw edge) (ih hB hv)

end

/-- Two vertices stand in one component when each reaches the other. -/
theorem exists_component_iff : (∃ C ∈ g.components, u ∈ C ∧ v ∈ C) ↔ g.Reaches u v ∧ g.Reaches v u := by
  constructor
  · intro given
    obtain ⟨C, hC, hu, hv⟩ := given
    obtain ⟨-, strong⟩ := components_strong hC
    exact ⟨strong u hu v hv, strong v hv u hu⟩
  · intro given
    obtain ⟨there, back⟩ := given
    obtain ⟨i, C, hC, hu⟩ := g.exists_position u
    obtain ⟨j, D, hD, hv⟩ := g.exists_position v
    have same : i = j := Nat.le_antisymm (le_of_reaches hD hC hv hu back) (le_of_reaches hC hD hu hv there)
    rw [← same, hC] at hD
    obtain rfl := Option.some.inj hD
    exact ⟨C, List.mem_of_getElem? hC, hu, hv⟩

/-! ## Cycles through a vertex -/

/-- The vertex is its own successor or not alone in its component. -/
def onCycle (g : Digraph n) (v : Fin n) : Bool :=
  g.edge v v || g.components.any fun C => v ∈ C && C.any (· ≠ v)

theorem onCycle_iff : g.onCycle v ↔ g.Walk v v := by
  simp only [onCycle, Bool.or_eq_true, List.any_eq_true, Bool.and_eq_true, decide_eq_true_eq]
  constructor
  · intro given
    rcases given with loop | ⟨C, hC, hv, w, hw, other⟩
    · exact .single loop
    · obtain ⟨there, back⟩ := exists_component_iff.1 ⟨C, hC, hv, hw⟩
      exact (there.walk_of_ne other.symm).trans (back.walk_of_ne other)
  · intro walk
    obtain ⟨w, edge, back⟩ := Relation.TransGen.head'_iff.1 walk
    by_cases same : w = v
    · exact Or.inl (same ▸ edge)
    · obtain ⟨C, hC, hv, hw⟩ := exists_component_iff.2 ⟨Reaches.of_edge edge, back⟩
      exact Or.inr ⟨C, hC, hv, w, hw, same⟩

instance (v : Fin n) : Decidable (g.Walk v v) := decidable_of_iff (g.onCycle v) onCycle_iff

/-! ## The whole list -/

/-- The lists have every vertex once, one list for the vertices that reach each other, and
    an edge from one list to another leads to the earlier one. -/
structure Condenses (g : Digraph n) (lists : List (List (Fin n))) : Prop where
  nonempty : ∀ C ∈ lists, C ≠ []
  nodup : ∀ C ∈ lists, C.Nodup
  disjoint : lists.Pairwise List.Disjoint
  covers : ∀ v, ∃ C ∈ lists, v ∈ C
  together : ∀ u v, (∃ C ∈ lists, u ∈ C ∧ v ∈ C) ↔ g.Reaches u v ∧ g.Reaches v u
  backward : ∀ u v, g.edge u v → ∀ (i j : Nat) (C D : List (Fin n)), lists[i]? = some C → lists[j]? = some D →
    u ∈ C → v ∈ D → i ≠ j → j < i

/-- The pass finds the components, each after those it leads to, and a larger depth finds
    the same. -/
theorem components_condense (g : Digraph n) :
    g.Condenses g.components ∧ ∀ k, (g.pass (n + k)).components = g.components := by
  refine ⟨?_, fun k => (g.components_pass k).trans (g.components_pass 0).symm⟩
  constructor
  · exact fun C hC => (components_strong hC).1
  · exact (List.nodup_flatten.1 g.nodup_components).1
  · exact g.disjoint_components
  · exact fun v => List.mem_flatten.1 (g.mem_components v)
  · exact fun u v => exists_component_iff
  · intro u v edge i j C D hC hD hu hv other
    have := le_of_edge hC hD hu hv edge
    omega

end LoopFree.Digraph
