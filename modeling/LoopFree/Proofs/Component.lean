/-
  LoopFree.Proofs.Component — the pass finds the components.

  Every vertex is in one list (`mem_components`, `nodup_components`), the vertices of a
  list reach each other (`components_strong`), and no edge leads from a list to a later one
  (`components_ordered`): so says the scan, whose components these are. Lists of one vertex
  each then mean that there is no cycle but loops (`isAcyclic_iff`).
-/

import LoopFree.Proofs.Lowlink

namespace LoopFree.Digraph

variable {n : Nat} {g : Digraph n}

theorem Scan.Valid.empty (g : Digraph n) : ({} : Scan n).Valid g [] := by
  constructor <;> simp [Scan.seen]

theorem scanFrom_valid {s : Scan n} (valid : s.Valid g []) (v : Fin n) :
    (g.scanFrom n s v).Valid g [] ∧ s.Grown (g.scanFrom n s v) ∧ (g.scanFrom n s v).seen v := by
  unfold scanFrom
  by_cases known : s.seen v
  · rw [if_pos known]
    exact ⟨valid, .refl s, known⟩
  · have visited := g.visitsWithin n valid known (by simp) s.card_unseen_le_card
    rw [if_neg known]
    exact ⟨visited.valid, visited.grown, visited.seen⟩

theorem foldl_scanFrom_valid {s : Scan n} (valid : s.Valid g []) (rest : List (Fin n)) :
    (rest.foldl (g.scanFrom n) s).Valid g [] ∧ s.Grown (rest.foldl (g.scanFrom n) s) ∧
      ∀ v ∈ rest, (rest.foldl (g.scanFrom n) s).seen v := by
  induction rest generalizing s with
  | nil => exact ⟨valid, .refl s, by simp⟩
  | cons w rest ih =>
    obtain ⟨valid', grown, known⟩ := scanFrom_valid valid w
    obtain ⟨final, grown', seen⟩ := ih valid'
    rw [List.foldl_cons]
    refine ⟨final, grown.trans grown', fun v hv => ?_⟩
    rcases List.mem_cons.1 hv with rfl | hv
    · exact grown'.seen known
    · exact seen v hv

/-- The pass ends with every vertex in a component. -/
theorem exists_scan (g : Digraph n) : ∃ s : Scan n, s.components = g.components ∧ s.Valid g [] ∧
    ∀ v, v ∈ s.components.flatten := by
  obtain ⟨valid, -, all⟩ := foldl_scanFrom_valid (.empty g) (List.finRange n)
  refine ⟨g.scanAll n, (g.components_pass 0).symm, valid, fun v => ?_⟩
  rcases Scan.seen_iff.1 (all v (List.mem_finRange v)) with waits | closed
  · obtain ⟨x, hx, -⟩ := valid.back v waits
    cases hx
  · exact closed

theorem mem_components (g : Digraph n) (v : Fin n) : v ∈ g.components.flatten := by
  obtain ⟨s, e, -, all⟩ := g.exists_scan
  exact e ▸ all v

theorem nodup_components (g : Digraph n) : g.components.flatten.Nodup := by
  obtain ⟨s, e, valid, -⟩ := g.exists_scan
  rw [← e]
  exact (List.nodup_append.1 valid.nodup).2.1

/-- No edge leads from a component to a later one. -/
theorem components_ordered (g : Digraph n) : g.components.Pairwise fun C D => ∀ u ∈ C, ∀ w ∈ D, ¬g.edge u w := by
  obtain ⟨s, e, valid, -⟩ := g.exists_scan
  exact e ▸ valid.ordered

theorem components_strong {C : List (Fin n)} (hC : C ∈ g.components) :
    C ≠ [] ∧ ∀ u ∈ C, ∀ w ∈ C, g.Reaches u w := by
  obtain ⟨s, e, valid, -⟩ := g.exists_scan
  exact valid.strong C (e ▸ hC)

/-- Components of one vertex each list the vertices against the edges. -/
theorem acyclic_of_components (noLoop : ∀ v, ¬g.edge v v) (single : ∀ C ∈ g.components, C.length = 1) : g.Acyclic := by
  have against : g.components.flatten.Pairwise fun u w => ¬g.edge u w := by
    refine List.pairwise_flatten.2 ⟨fun C hC => ?_, g.components_ordered⟩
    obtain ⟨v, rfl⟩ := List.length_eq_one_iff.1 (single C hC)
    exact List.pairwise_singleton _ _
  have later : ∀ u w, g.edge u w → g.components.flatten.idxOf w < g.components.flatten.idxOf u := by
    intro u w edge
    have hu := List.idxOf_lt_length_of_mem (g.mem_components u)
    have hw := List.idxOf_lt_length_of_mem (g.mem_components w)
    rcases Nat.lt_trichotomy (g.components.flatten.idxOf w) (g.components.flatten.idxOf u) with before | same | after
    · exact before
    · rw [List.idxOf_inj (g.mem_components w)] at same
      exact absurd (same ▸ edge) (noLoop u)
    · have apart := List.pairwise_iff_getElem.1 against _ _ hu hw after
      rw [List.getElem_idxOf, List.getElem_idxOf] at apart
      exact absurd edge apart
  refine acyclic_of_lt (f := fun v => g.components.flatten.length - g.components.flatten.idxOf v) fun u w edge => ?_
  have := later u w edge
  have := List.idxOf_lt_length_of_mem (g.mem_components u)
  omega

theorem length_component_of_acyclic (acyclic : g.Acyclic) {C : List (Fin n)} (hC : C ∈ g.components) :
    C.length = 1 := by
  obtain ⟨nonempty, strong⟩ := components_strong hC
  have nodup : C.Nodup := (List.nodup_flatten.1 g.nodup_components).1 C hC
  rcases C with _ | ⟨u, rest⟩
  · exact absurd rfl nonempty
  rcases rest with _ | ⟨w, rest⟩
  · rfl
  · have ne : u ≠ w := by
      intro same
      exact (List.nodup_cons.1 nodup).1 (same ▸ List.mem_cons_self)
    have there := strong u (by simp) w (by simp)
    have back := strong w (by simp) u (by simp)
    exact absurd ((there.walk_of_ne ne).trans (back.walk_of_ne ne.symm)) (acyclic u)

/-- The test for cycles is right. -/
theorem isAcyclic_iff : g.isAcyclic ↔ g.Acyclic := by
  have loops : (!g.hasSelfLoop) = true ↔ ∀ v, ¬g.edge v v := by simp [hasSelfLoop]
  rw [isAcyclic, Bool.and_eq_true, List.all_eq_true, loops]
  simp only [decide_eq_true_eq]
  refine ⟨fun ⟨noLoop, single⟩ => acyclic_of_components noLoop single, fun acyclic => ⟨?_, ?_⟩⟩
  · intro v edge
    exact acyclic v (.single edge)
  · intro C hC
    exact length_component_of_acyclic acyclic hC

end LoopFree.Digraph
