/-
  LoopFree.Proofs.DepthFirst — the depth-first resolver.

  `Valid` is what holds between any two moves of the search: a completed vertex has each
  of its edges forward in `done` or among the back edges, and a back edge goes to a vertex
  on the path or to one that leads, by edges forward in `done`, back to where it starts.
  `Visiting` adds what the visit of one vertex has done so far; it is entered, kept by
  each of the three things a successor can ask for, and closed into `Visited`. The
  recursion carries `Visited` (`findsWithin`): the depth is large enough as long as path,
  done and depth together cover the vertices (`Room`), and then a larger one finds the
  same (`Found`).

  At the end nothing is on the path, so the back edges are a cut (`depthFirstCut_resolves`)
  and each of them closes a cycle of edges that are kept (`reaches_of_mem_depthFirstCut`).
-/

import LoopFree.Graph.DepthFirst
import LoopFree.Proofs.Cut

namespace LoopFree.Digraph

variable {n : Nat} {g : Digraph n} {path past rest : List (Fin n)} {u v w x : Fin n} {s t t' : Search n}

/-- Some way from the one to the other takes only edges that point forward in the list. -/
def ReachesIn (g : Digraph n) (l : List (Fin n)) : Fin n → Fin n → Prop :=
  Relation.ReflTransGen fun u v => g.edge u v ∧ Before l u v

theorem ReachesIn.mono {l k : List (Fin n)} (h : g.ReachesIn l u v) (longer : l.Sublist k) : g.ReachesIn k u v :=
  Relation.ReflTransGen.mono (fun _ _ onward => ⟨onward.1, onward.2.mono longer⟩) _ _ h

theorem ReachesIn.reaches {l : List (Fin n)} (h : g.ReachesIn l u v) : g.Reaches u v :=
  Relation.ReflTransGen.mono (fun _ _ onward => onward.1) _ _ h

namespace Search

structure Valid (g : Digraph n) (path : List (Fin n)) (s : Search n) : Prop where
  nodup : (path ++ s.done).Nodup
  forward : ∀ u w, u ∈ s.done → g.edge u w → (u, w) ∈ s.back ∨ Before s.done u w
  once : s.back.Nodup
  edge : ∀ u w, (u, w) ∈ s.back → g.edge u w
  source : ∀ u w, (u, w) ∈ s.back → u ∈ path ∨ u ∈ s.done
  target : ∀ u w, (u, w) ∈ s.back → w ∈ path ∨ w ∈ s.done ∧ g.ReachesIn s.done w u

/-- The visit of `v` led from `s` to `t`. -/
structure Visited (g : Digraph n) (path : List (Fin n)) (v : Fin n) (s t : Search n) : Prop where
  valid : t.Valid g path
  grown : s.done <:+ t.done
  kept : s.back ⊆ t.back
  self : v ∈ t.done
  reach : ∀ x ∈ t.done, x ∉ s.done → g.ReachesIn t.done v x
  fresh : ∀ u w, (u, w) ∈ t.back → (u, w) ∈ s.back ∨ u ∈ t.done ∧ u ∉ s.done

/-- The visit of `v`, entered at `s`, stands at `t` with the successors `past` seen to. -/
structure Visiting (g : Digraph n) (path : List (Fin n)) (v : Fin n) (s : Search n) (past : List (Fin n))
    (t : Search n) : Prop where
  entry : s.Valid g path
  valid : t.Valid g (v :: path)
  grown : s.done <:+ t.done
  kept : s.back ⊆ t.back
  handled : ∀ w ∈ past, (v, w) ∈ t.back ∨ w ∈ t.done
  reach : ∀ x ∈ t.done, x ∉ s.done → ∃ w ∈ t.done, g.edge v w ∧ g.ReachesIn t.done w x
  fresh : ∀ u w, (u, w) ∈ t.back → (u, w) ∈ s.back ∨ (u ∈ t.done ∧ u ∉ s.done) ∨ (u = v ∧ w ∈ past)

/-! ## The moves of a visit -/

theorem Valid.enter (h : s.Valid g path) (new : v ∉ path ++ s.done) : Visiting g path v s [] s where
  entry := h
  valid :=
    { h with
      nodup := List.nodup_cons.2 ⟨new, h.nodup⟩
      source := fun u w back => (h.source u w back).imp_left (List.mem_cons_of_mem v)
      target := fun u w back => (h.target u w back).imp_left (List.mem_cons_of_mem v) }
  grown := List.suffix_refl _
  kept := List.Subset.refl _
  handled w hw := by cases hw
  reach x hx new := absurd hx new
  fresh u w back := Or.inl back

namespace Visiting

variable (h : Visiting g path v s past t)
include h

theorem not_mem : v ∉ path ∧ v ∉ t.done := by
  have new := (List.nodup_cons.1 h.valid.nodup).1
  exact ⟨fun mem => new (List.mem_append_left _ mem), fun mem => new (List.mem_append_right _ mem)⟩

/-- No back edge had an end at `v` when its visit began. -/
theorem not_mem_entry (back : (u, w) ∈ s.back) : u ≠ v ∧ w ≠ v := by
  obtain ⟨path, done⟩ := h.not_mem
  have done : v ∉ s.done := fun mem => done (h.grown.subset mem)
  constructor
  · rintro rfl
    exact (h.entry.source _ _ back).elim path done
  · rintro rfl
    exact (h.entry.target _ _ back).elim path fun given => done given.1

/-- The successor is on the path. -/
theorem mark (onPath : w ∈ v :: path) (edge : g.edge v w) (next : w ∉ past) :
    Visiting g path v s (past ++ [w]) { t with back := t.back ++ [(v, w)] } where
  entry := h.entry
  valid :=
    { nodup := h.valid.nodup
      forward := fun a b ha ab => (h.valid.forward a b ha ab).imp_left (List.mem_append_left _)
      once := by
        refine List.nodup_append.2 ⟨h.valid.once, List.nodup_singleton _, ?_⟩
        rintro ⟨a, b⟩ back _ added rfl
        obtain ⟨rfl, rfl⟩ := Prod.mk.inj (List.mem_singleton.1 added)
        rcases h.fresh a b back with old | ⟨done, -⟩ | ⟨-, seen⟩
        · exact (h.not_mem_entry old).1 rfl
        · exact h.not_mem.2 done
        · exact next seen
      edge := fun a b back => by
        rcases List.mem_append.1 back with back | added
        · exact h.valid.edge a b back
        · obtain ⟨rfl, rfl⟩ := Prod.mk.inj (List.mem_singleton.1 added)
          exact edge
      source := fun a b back => by
        rcases List.mem_append.1 back with back | added
        · exact h.valid.source a b back
        · obtain ⟨rfl, rfl⟩ := Prod.mk.inj (List.mem_singleton.1 added)
          exact Or.inl List.mem_cons_self
      target := fun a b back => by
        rcases List.mem_append.1 back with back | added
        · exact h.valid.target a b back
        · obtain ⟨rfl, rfl⟩ := Prod.mk.inj (List.mem_singleton.1 added)
          exact Or.inl onPath }
  grown := h.grown
  kept := fun _ ha => List.mem_append_left _ (h.kept ha)
  handled := List.forall_mem_append.2
    ⟨fun x hx => (h.handled x hx).imp_left (List.mem_append_left _),
      List.forall_mem_singleton.2 (Or.inl (List.mem_append_right _ (List.mem_singleton.2 rfl)))⟩
  reach := h.reach
  fresh a b back := by
    rcases List.mem_append.1 back with back | added
    · exact (h.fresh a b back).imp_right (Or.imp_right (And.imp_right (List.mem_append_left _)))
    · obtain ⟨rfl, rfl⟩ := Prod.mk.inj (List.mem_singleton.1 added)
      exact Or.inr (Or.inr ⟨rfl, List.mem_append_right _ (List.mem_singleton.2 rfl)⟩)

/-- The successor has been visited before. -/
theorem skip (done : w ∈ t.done) : Visiting g path v s (past ++ [w]) t :=
  { h with
    handled := List.forall_mem_append.2 ⟨h.handled, List.forall_mem_singleton.2 (Or.inr done)⟩
    fresh := fun a b back =>
      (h.fresh a b back).imp_right (Or.imp_right (And.imp_right (List.mem_append_left _))) }

/-- The successor is visited. -/
theorem visit (edge : g.edge v w) (visited : Visited g (v :: path) w t t') :
    Visiting g path v s (past ++ [w]) t' where
  entry := h.entry
  valid := visited.valid
  grown := h.grown.trans visited.grown
  kept := fun _ ha => visited.kept (h.kept ha)
  handled := by
    refine List.forall_mem_append.2 ⟨fun x hx => ?_, List.forall_mem_singleton.2 (Or.inr visited.self)⟩
    exact (h.handled x hx).imp (@visited.kept _) (@visited.grown.subset _ _ _ _)
  reach x hx new := by
    by_cases old : x ∈ t.done
    · obtain ⟨y, hy, vy, yx⟩ := h.reach x old new
      exact ⟨y, visited.grown.subset hy, vy, yx.mono visited.grown.sublist⟩
    · exact ⟨w, visited.self, edge, visited.reach x hx old⟩
  fresh a b back := by
    rcases visited.fresh a b back with back | ⟨ha, later⟩
    · rcases h.fresh a b back with old | ⟨ha, later⟩ | ⟨rfl, seen⟩
      · exact Or.inl old
      · exact Or.inr (Or.inl ⟨visited.grown.subset ha, later⟩)
      · exact Or.inr (Or.inr ⟨rfl, List.mem_append_left _ seen⟩)
    · exact Or.inr (Or.inl ⟨ha, fun old => later (h.grown.subset old)⟩)

/-- Every successor has been seen to. -/
theorem close (all : ∀ w, g.edge v w → w ∈ past) : Visited g path v s { t with done := v :: t.done } := by
  -- what was completed during the visit is reached from `v`
  have onward {x : Fin n} (hx : x ∈ t.done) (new : x ∉ s.done) : g.ReachesIn (v :: t.done) v x := by
    obtain ⟨y, hy, vy, yx⟩ := h.reach x hx new
    exact .head ⟨vy, .head hy⟩ (yx.mono (List.sublist_cons_self v _))
  have later {x : Fin n} (hx : x ∈ v :: t.done) : x = v ∨ x ∈ t.done := List.mem_cons.1 hx
  refine ⟨⟨?_, ?_, h.valid.once, h.valid.edge, ?_, ?_⟩, ?_, h.kept, List.mem_cons_self, ?_, ?_⟩
  · exact List.perm_middle.nodup_iff.2 h.valid.nodup
  · intro a b ha ab
    rcases later ha with rfl | ha
    · exact (h.handled b (all b ab)).imp_right .head
    · exact (h.valid.forward a b ha ab).imp_right fun before => before.cons v
  · intro a b back
    rcases h.valid.source a b back with onPath | done
    · rcases List.mem_cons.1 onPath with rfl | onPath
      · exact Or.inr List.mem_cons_self
      · exact Or.inl onPath
    · exact Or.inr (List.mem_cons_of_mem v done)
  · intro a b back
    rcases h.valid.target a b back with onPath | ⟨done, reach⟩
    · rcases List.mem_cons.1 onPath with rfl | onPath
      · refine Or.inr ⟨List.mem_cons_self, ?_⟩
        rcases h.fresh a b back with old | ⟨done, new⟩ | ⟨rfl, -⟩
        · exact absurd rfl (h.not_mem_entry old).2
        · exact onward done new
        · exact .refl
      · exact Or.inl onPath
    · exact Or.inr ⟨List.mem_cons_of_mem v done, reach.mono (List.sublist_cons_self v _)⟩
  · exact h.grown.trans (List.suffix_cons v _)
  · intro x hx new
    rcases later hx with rfl | hx
    · exact .refl
    · exact onward hx new
  · intro a b back
    have new : v ∉ s.done := fun mem => h.not_mem.2 (h.grown.subset mem)
    rcases h.fresh a b back with old | ⟨done, later⟩ | ⟨rfl, -⟩
    · exact Or.inl old
    · exact Or.inr ⟨List.mem_cons_of_mem v done, later⟩
    · exact Or.inr ⟨List.mem_cons_self, new⟩

end Visiting
end Search

/-! ## The recursion -/

/-- What the visit of `v` does about its successor `w`. -/
def seeTo (g : Digraph n) (depth : Nat) (path : List (Fin n)) (v : Fin n) (t : Search n) (w : Fin n) : Search n :=
  if w ∈ v :: path then { t with back := t.back ++ [(v, w)] }
  else if w ∈ t.done then t
  else g.search depth (v :: path) w t

theorem search_succ (g : Digraph n) (depth : Nat) (path : List (Fin n)) (v : Fin n) (s : Search n) :
    g.search (depth + 1) path v s = { (g.successors v).foldl (g.seeTo depth path v) s with
      done := v :: ((g.successors v).foldl (g.seeTo depth path v) s).done } := rfl

/-- The search finds what it should, and a larger depth changes nothing. -/
structure Found (g : Digraph n) (depth : Nat) (path : List (Fin n)) (v : Fin n) (s : Search n) : Prop where
  visited : Search.Visited g path v s (g.search depth path v s)
  more : ∀ k, g.search (depth + k) path v s = g.search depth path v s

/-- The vertices that are neither on the path nor completed are not more than the depth. -/
def Room (n depth : Nat) (path : List (Fin n)) (s : Search n) : Prop := n ≤ depth + (path ++ s.done).length

theorem Room.grown {depth : Nat} (h : Room n depth path s) (grown : s.done <:+ t.done) : Room n depth path t := by
  have := grown.length_le
  simp only [Room, List.length_append] at *
  omega

theorem Room.enter {depth : Nat} (h : Room n (depth + 1) path s) : Room n depth (v :: path) s := by
  simp only [Room, List.length_append, List.length_cons] at *
  omega

/-- A vertex that is neither on the path nor completed leaves no room without depth. -/
theorem not_room_zero (nodup : (path ++ s.done).Nodup) (new : v ∉ path ++ s.done) : ¬Room n 0 path s := by
  have apart := (List.nodup_cons.2 ⟨new, nodup⟩).length_le_card
  simp only [Fintype.card_fin, List.length_cons] at apart
  unfold Room
  omega

/-- With this depth every search that has room finds what it should. -/
def FindsWithin (g : Digraph n) (depth : Nat) : Prop :=
  ∀ path v s, s.Valid g path → v ∉ path ++ s.done → Room n depth path s → g.Found depth path v s

section
variable {depth : Nat} (finds : g.FindsWithin depth)
include finds

theorem FindsWithin.seeTo (h : Search.Visiting g path v s past t)
    (room : Room n depth (v :: path) t) (edge : g.edge v w) (next : w ∉ past) :
    Search.Visiting g path v s (past ++ [w]) (g.seeTo depth path v t w) ∧
      (∀ k, g.seeTo (depth + k) path v t w = g.seeTo depth path v t w) := by
  unfold Digraph.seeTo
  split
  · rename_i onPath
    exact ⟨h.mark onPath edge next, fun _ => rfl⟩
  · rename_i offPath
    split
    · rename_i done
      exact ⟨h.skip done, fun _ => rfl⟩
    · rename_i undone
      have new : w ∉ v :: path ++ t.done := by
        rw [List.mem_append]
        exact not_or_intro offPath undone
      have found := finds (v :: path) w t h.valid new room
      exact ⟨h.visit edge found.visited, found.more⟩

theorem FindsWithin.foldl_seeTo (h : Search.Visiting g path v s past t) (room : Room n depth (v :: path) s)
    (edges : ∀ w ∈ rest, g.edge v w) (nodup : (past ++ rest).Nodup) :
    Search.Visiting g path v s (past ++ rest) (rest.foldl (g.seeTo depth path v) t) ∧
      (∀ k, rest.foldl (g.seeTo (depth + k) path v) t = rest.foldl (g.seeTo depth path v) t) := by
  induction rest generalizing past t with
  | nil => exact ⟨by rwa [List.append_nil], fun _ => rfl⟩
  | cons w rest ih =>
    obtain ⟨edge, edges⟩ := List.forall_mem_cons.1 edges
    have next : w ∉ past := fun seen => (List.nodup_append.1 nodup).2.2 w seen w List.mem_cons_self rfl
    obtain ⟨step, same⟩ := finds.seeTo h (room.grown h.grown) edge next
    rw [List.append_cons] at nodup ⊢
    obtain ⟨all, others⟩ := ih step edges nodup
    refine ⟨all, fun k => ?_⟩
    rw [List.foldl_cons, List.foldl_cons, same k]
    exact others k

end

theorem findsWithin (g : Digraph n) (depth : Nat) : g.FindsWithin depth := by
  induction depth with
  | zero => exact fun path v s valid new room => absurd room (not_room_zero valid.nodup new)
  | succ depth ih =>
    intro path v s valid new room
    have edges (w : Fin n) (hw : w ∈ g.successors v) : g.edge v w := mem_successors.1 hw
    obtain ⟨visiting, same⟩ :=
      ih.foldl_seeTo (valid.enter new) room.enter edges ((List.nodup_finRange n).filter _)
    constructor
    · rw [search_succ]
      exact visiting.close fun w edge => mem_successors.2 edge
    · intro k
      rw [Nat.add_right_comm, search_succ, search_succ, same k]

/-! ## All vertices -/

/-- The search from every vertex that is not completed, with a given depth. -/
def searchFrom (g : Digraph n) (depth : Nat) (vertices : List (Fin n)) (s : Search n) : Search n :=
  vertices.foldl (fun s v => if v ∈ s.done then s else g.search depth [] v s) s

theorem searchAll_eq (g : Digraph n) : g.searchAll = g.searchFrom n (List.finRange n) {} := rfl

theorem searchFrom_valid (valid : s.Valid g []) (vertices : List (Fin n)) :
    (g.searchFrom n vertices s).Valid g [] ∧ s.done <:+ (g.searchFrom n vertices s).done ∧
      (∀ v ∈ vertices, v ∈ (g.searchFrom n vertices s).done) ∧
      (∀ k, g.searchFrom (n + k) vertices s = g.searchFrom n vertices s) := by
  induction vertices generalizing s with
  | nil => exact ⟨valid, List.suffix_refl _, List.forall_mem_nil _, fun _ => rfl⟩
  | cons v vertices ih =>
    unfold searchFrom
    simp only [List.foldl_cons]
    by_cases done : v ∈ s.done
    · simp only [if_pos done]
      obtain ⟨result, grown, others, same⟩ := ih valid
      exact ⟨result, grown, List.forall_mem_cons.2 ⟨grown.subset done, others⟩, same⟩
    · simp only [if_neg done]
      have found := g.findsWithin n [] v s valid (by rwa [List.nil_append]) (Nat.le_add_right _ _)
      obtain ⟨result, grown, others, same⟩ := ih found.visited.valid
      refine ⟨result, found.visited.grown.trans grown,
        List.forall_mem_cons.2 ⟨grown.subset found.visited.self, others⟩, fun k => ?_⟩
      rw [found.more k]
      exact same k

theorem searchAll_spec (g : Digraph n) : g.searchAll.Valid g [] ∧ (∀ v, v ∈ g.searchAll.done) ∧
    (∀ k, g.searchFrom (n + k) (List.finRange n) {} = g.searchAll) := by
  have empty : Search.Valid g [] {} := ⟨by simp, by simp, by simp, by simp, by simp, by simp⟩
  obtain ⟨valid, -, all, same⟩ := searchFrom_valid empty (List.finRange n)
  rw [searchAll_eq]
  exact ⟨valid, fun v => all v (List.mem_finRange v), same⟩

/-! ## The cut -/

theorem searchAll_done_perm (g : Digraph n) : g.searchAll.done.Perm (List.finRange n) :=
  perm_finRange g.searchAll_spec.1.nodup g.searchAll_spec.2.1

theorem depthFirstCut_arcs_perm (g : Digraph n) : g.depthFirstCut.arcs.Perm g.searchAll.back :=
  Cut.sortArcs_perm g.searchAll_done_perm g.searchAll_spec.1.once

/-- The depth-first cut breaks every graph. -/
theorem depthFirstCut_resolves (g : Digraph n) : g.depthFirstCut.Resolves g := by
  obtain ⟨valid, all, -⟩ := g.searchAll_spec
  refine Cut.Breaks.resolves (Cut.breaks_sorted g.searchAll_done_perm ?_ ?_) ?_
  · intro a ha
    exact valid.edge a.1 a.2 ha
  · intro u v edge
    exact (valid.forward u v (all u) edge).imp_right fun before => before.idxOf_lt valid.nodup
  · exact g.depthFirstCut_arcs_perm.nodup_iff.2 valid.once

/-- The end of a broken arc leads back to its start along edges that are kept. -/
theorem reaches_of_mem_depthFirstCut (arc : (u, w) ∈ g.depthFirstCut.arcs) :
    g.edge u w ∧ g.ReachesIn g.depthFirstCut.order w u := by
  have valid := g.searchAll_spec.1
  have back := g.depthFirstCut_arcs_perm.mem_iff.1 arc
  rcases valid.target u w back with onPath | ⟨-, reach⟩
  · cases onPath
  · exact ⟨valid.edge u w back, reach⟩

/-- The depth-first cut has no arcs exactly when there is no cycle. -/
theorem depthFirstCut_arcs_eq_nil_iff : g.depthFirstCut.arcs = [] ↔ g.Acyclic := by
  constructor
  · intro none
    exact (g.depthFirstCut_resolves.toBreaks.isOrder_of_nil none).acyclic
  · intro acyclic
    refine List.eq_nil_iff_forall_not_mem.2 fun ⟨u, w⟩ arc => ?_
    obtain ⟨edge, reach⟩ := reaches_of_mem_depthFirstCut arc
    exact acyclic u (Relation.TransGen.head' edge reach.reaches)

end LoopFree.Digraph
