/-
  LoopFree.Proofs.Lowlink — numbers and low numbers follow the stack.

  The waiting vertices stand on the stack in the order of their numbers, so comparing
  numbers of waiting vertices is comparing their heights. `Tracks` says of a pass that it
  stands where a scan does; `Following` adds what a visit has done so far, in particular
  that the low number of its vertex is the number of the vertex at the height found so far.
  Meeting a vertex, lowering its low number and closing a component keep this, so visits of
  the pass do what those of the scan do (`visitsAlike`), and the pass finds the components
  that the scan finds, whatever depth it is given (`components_pass`).
-/

import LoopFree.Graph.Component
import LoopFree.Proofs.Scan

namespace LoopFree.Digraph

variable {n : Nat} {g : Digraph n} {u v w : Fin n}

namespace Pass

variable {s s' s'' : Pass n} {t t' t'' : Scan n} {low inner k : Nat}

/-- The number of a vertex that has been met. -/
def numberOf (s : Pass n) (v : Fin n) : Nat := (s.number.get v).getD 0

/-- The pass stands where the scan does. -/
structure Tracks (s : Pass n) (t : Scan n) : Prop where
  stack : s.stack = t.stack.reverse
  components : s.components = t.components
  met : ∀ v, t.seen v ↔ s.number.get v = some (s.numberOf v)
  bounded : ∀ v, t.seen v → s.numberOf v < s.count
  waiting : ∀ v, s.waiting.get v = true ↔ v ∈ t.stack
  rising : t.stack.Pairwise fun u w => s.numberOf u < s.numberOf w

/-- What the pass notes of vertices it has met stays. -/
structure Keeps (s s' : Pass n) : Prop where
  number : ∀ u, s.number.get u = some (s.numberOf u) → s'.number.get u = s.number.get u
  low : ∀ u, s.number.get u = some (s.numberOf u) → s'.low.get u = s.low.get u

/-- A visit of `v` led the pass from `s` to `s'` and the scan from `t` to `t'`, which returned `low`. -/
structure Alike (v : Fin n) (s : Pass n) (t : Scan n) (low : Nat) (s' : Pass n) (t' : Scan n) : Prop where
  tracks : s'.Tracks t'
  grown : t.stack <+: t'.stack
  keeps : s.Keeps s'
  own : s'.number.get v = some s.count
  low : ∃ x, (t.stack ++ [v])[low]? = some x ∧ s'.low.get v = s'.numberOf x

/-- A visit of `v` that began at `s` and `t` stands at `s'` and `t'`, with the height `low` found so far. -/
structure Following (v : Fin n) (s : Pass n) (t : Scan n) (low : Nat) (s' : Pass n) (t' : Scan n) : Prop where
  tracks : s'.Tracks t'
  grown : t.stack ++ [v] <+: t'.stack
  keeps : s.Keeps s'
  new : s.number.get v = none
  own : s'.number.get v = some s.count
  le : low ≤ t.stack.length
  low : ∃ x, t'.stack[low]? = some x ∧ s'.low.get v = s'.numberOf x

theorem numberOf_eq {i : Nat} (h : s.number.get v = some i) : s.numberOf v = i := by
  rw [numberOf, h, Option.getD_some]

theorem numberOf_congr (e : s'.number.get v = s.number.get v) : s'.numberOf v = s.numberOf v := by
  rw [numberOf, e]
  rfl

theorem number_eq_none : s.number.get v = none ↔ s.number.get v ≠ some (s.numberOf v) := by
  unfold numberOf
  cases s.number.get v <;> simp

theorem Keeps.trans (h : s.Keeps s') (h' : s'.Keeps s'') : s.Keeps s'' := by
  have known' (u : Fin n) (known : s.number.get u = some (s.numberOf u)) : s'.number.get u = some (s'.numberOf u) := by
    rw [numberOf_congr (h.number u known), h.number u known, known]
  refine ⟨fun u known => ?_, fun u known => ?_⟩
  · rw [h'.number u (known' u known), h.number u known]
  · rw [h'.low u (known' u known), h.low u known]

namespace Tracks

variable (h : s.Tracks t)
include h

theorem known (hv : t.stack[k]? = some v) : s.number.get v = some (s.numberOf v) :=
  (h.met v).1 (Scan.seen_iff.2 (Or.inl (List.mem_of_getElem? hv)))

theorem number_eq_none (new : ¬t.seen v) : s.number.get v = none := Pass.number_eq_none.2 (mt (h.met v).2 new)

/-- Higher on the stack are larger numbers. -/
theorem lt_of_height {i j : Nat} (hu : t.stack[i]? = some u) (hw : t.stack[j]? = some w) (lower : i < j) :
    s.numberOf u < s.numberOf w := by
  obtain ⟨hi, rfl⟩ := List.getElem?_eq_some_iff.1 hu
  obtain ⟨hj, rfl⟩ := List.getElem?_eq_some_iff.1 hw
  exact List.pairwise_iff_getElem.1 h.rising i j hi hj lower

theorem nodup : t.stack.Nodup := by
  refine h.rising.imp ?_
  rintro u w less rfl
  exact Nat.lt_irrefl _ less

end Tracks

theorem Alike.getElem?_eq (h : Alike v s t low s' t') {x : Fin n} (hx : t.stack[k]? = some x) :
    t'.stack[k]? = some x := by
  obtain ⟨added, e⟩ := h.grown
  rw [← e, List.getElem?_append_left (List.getElem?_eq_some_iff.1 hx).1, hx]

/-! ## Meeting a vertex -/

theorem number_meet (s : Pass n) (v w : Fin n) :
    (s.meet v).number.get w = if w = v then some s.count else s.number.get w := get_table_set _ _ _ _

theorem numberOf_meet (s : Pass n) (v w : Fin n) :
    (s.meet v).numberOf w = if w = v then s.count else s.numberOf w := by
  rw [numberOf, number_meet]
  split
  · rfl
  · rfl

theorem Tracks.meet (h : s.Tracks t) (new : ¬t.seen v) : (s.meet v).Tracks (t.push v) where
  stack := by
    rw [Scan.push, List.reverse_append, ← h.stack]
    rfl
  components := h.components
  met w := by
    rw [Scan.seen_push, number_meet, numberOf_meet]
    by_cases own : w = v
    · simp [own]
    · simp [own, h.met]
  bounded w known := by
    rw [numberOf_meet]
    split
    · exact Nat.lt_succ_self _
    · rename_i other
      exact Nat.lt_succ_of_lt (h.bounded w ((Scan.seen_push.1 known).resolve_left other))
  waiting w := by
    have written : (s.meet v).waiting.get w = if w = v then true else s.waiting.get w := get_table_set _ _ _ _
    rw [written, Scan.push, List.mem_append, List.mem_singleton]
    by_cases own : w = v
    · simp [own]
    · simp [own, h.waiting]
  rising := by
    have other (u : Fin n) (hu : u ∈ t.stack) : u ≠ v := fun same => new (Scan.seen_iff.2 (Or.inl (same ▸ hu)))
    refine List.pairwise_append.2 ⟨h.rising.imp_of_mem fun hu hw less => ?_, List.pairwise_singleton _ _, ?_⟩
    · rwa [numberOf_meet, numberOf_meet, if_neg (other _ hu), if_neg (other _ hw)]
    · intro u hu w hw
      rw [List.mem_singleton.1 hw, numberOf_meet, numberOf_meet, if_neg (other u hu), if_pos rfl]
      exact h.bounded u (Scan.seen_iff.2 (Or.inl hu))

theorem Following.enter (h : s.Tracks t) (new : ¬t.seen v) :
    Following v s t t.stack.length (s.meet v) (t.push v) where
  tracks := h.meet new
  grown := List.prefix_refl _
  keeps := by
    have other (u : Fin n) (known : s.number.get u = some (s.numberOf u)) : u ≠ v :=
      fun same => new (same ▸ (h.met u).2 known)
    refine ⟨fun u known => ?_, fun u known => ?_⟩
    · rw [number_meet, if_neg (other u known)]
    · exact (get_table_set _ _ _ _).trans (if_neg (other u known))
  new := h.number_eq_none new
  own := by rw [number_meet, if_pos rfl]
  le := Nat.le_refl _
  low := by
    refine ⟨v, by simp [Scan.push], ?_⟩
    rw [numberOf_meet, if_pos rfl]
    exact (get_table_set _ _ _ _).trans (if_pos rfl)

/-! ## Lowering the low number -/

theorem low_lower (s : Pass n) (v : Fin n) (k : Nat) (u : Fin n) :
    (s.lower v k).low.get u = if u = v then min (s.low.get v) k else s.low.get u := get_table_set _ _ _ _

theorem Tracks.lower (h : s.Tracks t) (v : Fin n) (k : Nat) : (s.lower v k).Tracks t :=
  ⟨h.stack, h.components, h.met, h.bounded, h.waiting, h.rising⟩

/-! ## Popping the stack -/

theorem popThrough_append {a b : List (Fin n)} (off : v ∉ a) : popThrough v (a ++ v :: b) = (a ++ [v], b) := by
  induction a with
  | nil => rw [List.nil_append, popThrough, if_pos rfl, List.nil_append]
  | cons w a ih =>
    rw [List.mem_cons, not_or] at off
    rw [List.cons_append, popThrough, if_neg (Ne.symm off.1), ih off.2]
    rfl

theorem get_foldl_false (popped : List (Fin n)) (t : Vector Bool n) (u : Fin n) :
    (popped.foldl (fun (t : Vector Bool n) (w : Fin n) => t.set w false w.isLt) t).get u = true ↔
      t.get u = true ∧ u ∉ popped := by
  induction popped generalizing t with
  | nil => simp
  | cons w popped ih =>
    rw [List.foldl_cons, ih, get_table_set, List.mem_cons, not_or]
    by_cases own : u = w
    · simp [own]
    · simp [own]

namespace Following

variable (h : Following v s t low s' t')
include h

theorem length_lt : low < t'.stack.length := by
  have longer := h.grown.length_le
  have := h.le
  rw [List.length_append, List.length_singleton] at longer
  omega

theorem getElem?_eq (hk : k ≤ t.stack.length) : t'.stack[k]? = (t.stack ++ [v])[k]? := by
  obtain ⟨added, e⟩ := h.grown
  rw [← e, List.getElem?_append_left]
  rw [List.length_append, List.length_singleton]
  omega

theorem getElem?_own : t'.stack[t.stack.length]? = some v := by
  rw [h.getElem?_eq (Nat.le_refl _)]
  simp

/-- Whatever the number, the tables keep what they have of other vertices. -/
theorem set_low (number : Nat) {x : Fin n} (le : k ≤ t.stack.length) (hx : t'.stack[k]? = some x)
    (least : min (s'.low.get v) number = s'.numberOf x) : Following v s t k (s'.lower v number) t' where
  tracks := h.tracks.lower v number
  grown := h.grown
  keeps := by
    refine ⟨h.keeps.number, fun u known => ?_⟩
    have other : u ≠ v := by
      rintro rfl
      rw [h.new] at known
      cases known
    rw [low_lower, if_neg other]
    exact h.keeps.low u known
  new := h.new
  own := h.own
  le := le
  low := ⟨x, hx, by rw [low_lower, if_pos rfl, least]; rfl⟩

theorem lower_of_le {number : Nat} (le : s'.low.get v ≤ number) : Following v s t low (s'.lower v number) t' := by
  obtain ⟨x, hx, same⟩ := h.low
  exact h.set_low number h.le hx (by rw [Nat.min_eq_left le, same])

/-- The vertex leads to one that waits. -/
theorem lower (hw : t'.stack[k]? = some w) : Following v s t (min low k) (s'.lower v (s'.numberOf w)) t' := by
  obtain ⟨x, hx, same⟩ := h.low
  by_cases higher : k < low
  · have less := h.tracks.lt_of_height hw hx higher
    have le := h.le
    rw [Nat.min_eq_right (Nat.le_of_lt higher)]
    exact h.set_low _ (by omega) hw (by rw [same]; omega)
  · rw [Nat.min_eq_left (by omega)]
    refine h.lower_of_le ?_
    rw [same]
    by_cases level : low = k
    · rw [level, hw] at hx
      rw [Option.some.inj hx]
    · exact Nat.le_of_lt (h.tracks.lt_of_height hx hw (by omega))

/-- A vertex that waits no more stands above the top. -/
theorem skip (off : w ∉ t'.stack) : min low (t'.height w) = low := by
  have := h.length_lt
  rw [Scan.height, List.idxOf_eq_length off]
  omega

/-- Another vertex is visited. -/
theorem through (inside : Alike w s' t' inner s'' t'') : Following v s t low s'' t'' where
  tracks := inside.tracks
  grown := h.grown.trans inside.grown
  keeps := h.keeps.trans inside.keeps
  new := h.new
  own := by
    rw [inside.keeps.number v (h.tracks.known h.getElem?_own), h.own]
  le := h.le
  low := by
    obtain ⟨x, hx, same⟩ := h.low
    refine ⟨x, inside.getElem?_eq hx, ?_⟩
    rw [inside.keeps.low v (h.tracks.known h.getElem?_own), same,
      numberOf_congr (inside.keeps.number x (h.tracks.known hx))]

/-- The vertex leads to what a vertex visited from it leads to. -/
theorem visit (inside : Alike w s' t' inner s'' t'') :
    Following v s t (min low inner) (s''.lower v (s''.low.get w)) t'' := by
  have after := h.through inside
  obtain ⟨y, hy, lowest⟩ := inside.low
  by_cases below : inner < t'.stack.length
  · rw [List.getElem?_append_left below] at hy
    rw [lowest]
    exact after.lower (inside.getElem?_eq hy)
  · -- the vertex visited leads to nothing older, and its number is larger than all before
    obtain ⟨x, hx, same⟩ := h.low
    obtain ⟨-, hx', same'⟩ := after.low
    have top : inner = t'.stack.length := by
      have := (List.getElem?_eq_some_iff.1 hy).1
      rw [List.length_append, List.length_singleton] at this
      omega
    rw [top, List.getElem?_concat_length] at hy
    obtain rfl := Option.some.inj hy
    have := h.length_lt
    rw [top, Nat.min_eq_left (by omega)]
    refine after.lower_of_le ?_
    rw [inside.keeps.low v (h.tracks.known h.getElem?_own), lowest, numberOf_eq inside.own, same]
    exact Nat.le_of_lt (h.tracks.bounded x (Scan.seen_iff.2 (Or.inl (List.mem_of_getElem? hx))))

/-! ## At the end of a visit -/

/-- The low number is the vertex's own when the height is. -/
theorem closes_iff : s'.number.get v = some (s'.low.get v) ↔ low = t.stack.length := by
  obtain ⟨x, hx, same⟩ := h.low
  constructor
  · intro own
    by_contra other
    have := h.le
    have less := h.tracks.lt_of_height hx h.getElem?_own (by omega)
    rw [numberOf_eq own] at less
    omega
  · intro own
    rw [own, h.getElem?_own] at hx
    rw [same, ← Option.some.inj hx]
    exact h.tracks.known h.getElem?_own

theorem low_entry : ∃ x, (t.stack ++ [v])[low]? = some x ∧ s'.low.get v = s'.numberOf x := by
  obtain ⟨x, hx, same⟩ := h.low
  rw [h.getElem?_eq h.le] at hx
  exact ⟨x, hx, same⟩

/-- The vertex leads to something older. -/
theorem leave : Alike v s t low s' t' :=
  ⟨h.tracks, (List.prefix_append _ _).trans h.grown, h.keeps, h.own, h.low_entry⟩

theorem stack_eq : ∃ added, t'.stack = t.stack ++ v :: added := by
  obtain ⟨added, e⟩ := h.grown
  exact ⟨added, by rw [← e, List.append_assoc, List.singleton_append]⟩

/-- What stands on the vertex and the vertex itself are taken off the stack. -/
theorem close : Alike v s t low (s'.close v) (t'.close t.stack.length) := by
  obtain ⟨added, split⟩ := h.stack_eq
  have nodup := h.tracks.nodup
  rw [split] at nodup
  obtain ⟨-, above, apart⟩ := List.nodup_append.1 nodup
  have popped : popThrough v s'.stack = (added.reverse ++ [v], t.stack.reverse) := by
    rw [h.tracks.stack, split, List.reverse_append, List.reverse_cons, List.append_assoc, List.singleton_append]
    exact popThrough_append (mt List.mem_reverse.1 (List.nodup_cons.1 above).1)
  have lower : (t'.close t.stack.length).stack = t.stack := by rw [Scan.close, split, List.take_left]
  have above' : (t'.stack.drop t.stack.length).reverse = added.reverse ++ [v] := by
    rw [split, List.drop_left, List.reverse_cons]
  rw [Pass.close, popped]
  refine ⟨⟨?_, ?_, fun u => ?_, fun u known => ?_, fun u => ?_, ?_⟩, ?_, ⟨h.keeps.number, h.keeps.low⟩, h.own, h.low_entry⟩
  · rw [lower]
  · rw [Scan.components_close, above', h.tracks.components]
  · exact Scan.seen_close.trans (h.tracks.met u)
  · exact h.tracks.bounded u (Scan.seen_close.1 known)
  · rw [lower]
    refine (get_foldl_false _ _ u).trans ?_
    rw [h.tracks.waiting, split, ← List.reverse_cons, List.mem_reverse, List.mem_append]
    exact ⟨fun given => given.1.resolve_right given.2, fun hu => ⟨Or.inl hu, fun new => apart u hu u new rfl⟩⟩
  · rw [lower]
    exact h.tracks.rising.sublist (split ▸ List.sublist_append_left _ _)
  · rw [lower]

end Following
end Pass

/-! ## Visits -/

/-- The pass deals with one successor of `v`. -/
def attend (g : Digraph n) (depth : Nat) (v : Fin n) (s : Pass n) (w : Fin n) : Pass n :=
  match s.number.get w with
  | none => (g.visit depth w s).lower v ((g.visit depth w s).low.get w)
  | some number => if s.waiting.get w then s.lower v number else s

theorem visit_succ (g : Digraph n) (depth : Nat) (v : Fin n) (s : Pass n) : g.visit (depth + 1) v s =
    let seen := (g.successors v).foldl (g.attend depth v) (s.meet v)
    if seen.number.get v = some (seen.low.get v) then seen.close v else seen := rfl

/-- Visits with room for every vertex not seen yet do what those of the scan do. -/
def VisitsAlike (g : Digraph n) (depth : Nat) : Prop :=
  ∀ {v : Fin n} {s : Pass n} {t : Scan n}, s.Tracks t → ¬t.seen v → t.unseen.card ≤ depth →
    Pass.Alike v s t (g.scan depth v t).1 (g.visit depth v s) (g.scan depth v t).2

theorem Pass.Following.foldl {depth : Nat} (alike : g.VisitsAlike depth) {s s' : Pass n} {t : Scan n}
    {found : Nat × Scan n} (h : Pass.Following v s t found.1 s' found.2) (room : found.2.unseen.card ≤ depth)
    (rest : List (Fin n)) :
    Pass.Following v s t (rest.foldl (g.examine depth) found).1 (rest.foldl (g.attend depth v) s')
      (rest.foldl (g.examine depth) found).2 := by
  induction rest generalizing s' found with
  | nil => exact h
  | cons w rest ih =>
    rw [List.foldl_cons, List.foldl_cons]
    refine ih ?_ (Nat.le_trans (g.card_unseen_examine_le depth found w) room)
    unfold examine attend
    by_cases known : found.2.seen w
    · rw [if_pos known, (h.tracks.met w).1 known]
      dsimp only
      by_cases waits : w ∈ found.2.stack
      · rw [if_pos ((h.tracks.waiting w).2 waits)]
        exact h.lower (List.getElem?_idxOf waits)
      · rw [if_neg (mt (h.tracks.waiting w).1 waits), h.skip waits]
        exact h
    · rw [if_neg known, h.tracks.number_eq_none known]
      exact h.visit (alike h.tracks known room)

theorem visitsAlike (g : Digraph n) (depth : Nat) : g.VisitsAlike depth := by
  induction depth with
  | zero =>
    intro v s t _ new room
    have := Scan.card_unseen_pos new
    omega
  | succ depth ih =>
    intro v s t tracks new room
    have less := Scan.card_unseen_lt (.refl (t.push v)) new
    have room : (t.push v).unseen.card ≤ depth := by omega
    have entered : Pass.Following v s t (t.stack.length, t.push v).1 (s.meet v) (t.stack.length, t.push v).2 :=
      .enter tracks new
    have following := entered.foldl ih room (g.successors v)
    rw [visit_succ, scan_succ]
    dsimp only
    by_cases own : ((g.successors v).foldl (g.examine depth) (t.stack.length, t.push v)).1 = t.stack.length
    · rw [if_pos own, if_pos (following.closes_iff.2 own)]
      exact following.close
    · rw [if_neg own, if_neg (mt following.closes_iff.1 own)]
      exact following.leave

/-! ## The pass -/

theorem Pass.tracks_start : (Pass.start : Pass n).Tracks {} where
  stack := rfl
  components := rfl
  met v := by
    have none : (Pass.start : Pass n).number.get v = none := Vector.getElem_replicate v.isLt
    simp [none, Scan.seen]
  bounded v known := by simp [Scan.seen] at known
  waiting v := by
    have off : (Pass.start : Pass n).waiting.get v = false := Vector.getElem_replicate v.isLt
    simp [off]
  rising := .nil

/-- With room for all vertices the pass stands where the scan does after each vertex. -/
theorem Pass.Tracks.foldl {depth : Nat} (room : n ≤ depth) {s : Pass n} {t : Scan n} (h : s.Tracks t)
    (rest : List (Fin n)) :
    (rest.foldl (fun s v => match s.number.get v with
      | none => g.visit depth v s
      | some _ => s) s).Tracks (rest.foldl (g.scanFrom depth) t) := by
  induction rest generalizing s t with
  | nil => exact h
  | cons v rest ih =>
    rw [List.foldl_cons, List.foldl_cons]
    refine ih ?_
    unfold scanFrom
    by_cases known : t.seen v
    · rw [if_pos known, (h.met v).1 known]
      exact h
    · rw [if_neg known, h.number_eq_none known]
      exact (g.visitsAlike depth h known (Nat.le_trans t.card_unseen_le_card room)).tracks

/-- The pass finds the components that the scan finds, and more depth finds the same. -/
theorem components_pass (g : Digraph n) (k : Nat) : (g.pass (n + k)).components = (g.scanAll n).components := by
  have tracks : (g.pass (n + k)).Tracks (g.scanAll (n + k)) :=
    Pass.tracks_start.foldl (Nat.le_add_right n k) (List.finRange n)
  rw [tracks.components, scanAll_add]

end LoopFree.Digraph
