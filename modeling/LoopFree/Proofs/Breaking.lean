/-
  LoopFree.Proofs.Breaking — what breaking arcs does to one inequality.

  `Inequality.breakArc` moves the coefficient of a source to its auxiliary input and
  renames the dependency, in a row that defines the sink and needs the source.
  `Inequality.pins` are the two rows that pin the input. Whatever the list of arcs
  (repeated arcs, shared sources, loops), the outcome depends on one set only: `moved`,
  the sources of the arcs into the defined variable that the row needs (`Broken`,
  `broken_breakArcs`). The excess changes by what the moved sources contribute
  (`excess_breakArcs`).
-/

import LoopFree.Proofs.Extension
import Mathlib.Algebra.BigOperators.Group.Finset.Basic
import Mathlib.Tactic.LinearCombination
import Mathlib.Tactic.Ring

namespace LoopFree

variable {α : Type}

/-- The variable can stand at the source of a broken arc: it has its auxiliary input. -/
def Model.HasAuxiliary (m : Model α) (name : String) : Prop :=
  (∃ s ∈ m.symbols, s.name = name ∧ s.role.breakable) ∧
    ∃ x ∈ m.symbols, x.name = Symbol.auxiliaryName name ∧ x.role = .input

theorem Model.Consistent.mem_columnNames_iff {m : Model α} {s : Symbol} (con : m.Consistent) (hs : s ∈ m.symbols)
    (r : Role) : s.name ∈ m.columnNames r ↔ s.role = r := by
  rw [mem_columnNames]
  constructor
  · intro given
    obtain ⟨t, ht, role, e⟩ := given
    rw [← con.eq_of_name_eq ht hs e, role]
  · intro role
    exact ⟨s, hs, role, rfl⟩

namespace Inequality

/-- The inequality with the coefficient of a source moved to its auxiliary input. -/
def move [Zero α] [Neg α] (c : Inequality α) (s : String) : Inequality α where
  row := c.row.replaceDependency s (Symbol.auxiliaryName s)
  coefficient := Function.update (Function.update c.coefficient (Symbol.auxiliaryName s) (-c.coefficient s)) s 0
  constant := c.constant

/-- The inequality once the arc from `a.1` to `a.2` is broken. -/
def breakArc [Zero α] [Neg α] (c : Inequality α) (a : String × String) : Inequality α :=
  if c.row.defines = a.2 ∧ a.1 ∈ c.row.depends then c.move a.1 else c

def breakArcs [Zero α] [Neg α] (c : Inequality α) (arcs : List (String × String)) : Inequality α :=
  arcs.foldl breakArc c

/-- The row that bounds `x` times the source less its auxiliary input by zero. -/
def pin [Zero α] (a : String × String) (x : α) : Inequality α where
  row := { defines := a.2, depends := [Symbol.auxiliaryName a.1], tag := .pin }
  coefficient := Function.update (Function.update (fun _ => 0) (Symbol.auxiliaryName a.1) x) a.1 x
  constant := 0

def pins [Zero α] [One α] [Neg α] (a : String × String) : List (Inequality α) := [pin a 1, pin a (-1)]

/-- The sources of the arcs into the defined variable that the row needs. -/
def moved (c : Inequality α) (arcs : List (String × String)) : Finset String :=
  c.row.depends.toFinset.filter fun s => (s, c.row.defines) ∈ arcs

theorem mem_moved {c : Inequality α} {arcs : List (String × String)} {s : String} :
    s ∈ c.moved arcs ↔ s ∈ c.row.depends ∧ (s, c.row.defines) ∈ arcs := by
  simp [moved]

/-- The inequality `d` is `c` with the arcs broken. -/
structure Broken [Zero α] [Neg α] (arcs : List (String × String)) (c d : Inequality α) : Prop where
  defines : d.row.defines = c.row.defines
  tag : d.row.tag = c.row.tag
  constant : d.constant = c.constant
  depends : ∀ n, n ∈ d.row.depends ↔
    (n ∈ c.row.depends ∧ n ∉ c.moved arcs) ∨ ∃ s ∈ c.moved arcs, n = Symbol.auxiliaryName s
  source : ∀ s ∈ c.moved arcs, d.coefficient s = 0
  auxiliary : ∀ s ∈ c.moved arcs, d.coefficient (Symbol.auxiliaryName s) = -c.coefficient s
  kept : ∀ n, n ∉ c.moved arcs → (∀ s ∈ c.moved arcs, n ≠ Symbol.auxiliaryName s) → d.coefficient n = c.coefficient n

/-- No source of an arc is the auxiliary input of one. -/
def Plain (arcs : List (String × String)) : Prop := ∀ a ∈ arcs, ∀ b ∈ arcs, a.1 ≠ Symbol.auxiliaryName b.1

theorem plain_of_hasAuxiliary {m : Model α} (con : m.Consistent) {arcs : List (String × String)}
    (ready : ∀ a ∈ arcs, m.HasAuxiliary a.1) : Plain arcs := by
  intro a ha b hb e
  obtain ⟨⟨s, hs, source, breakable⟩, -⟩ := ready a ha
  obtain ⟨-, y, hy, name, input⟩ := ready b hb
  have same : s = y := con.eq_of_name_eq hs hy (by rw [source, name, e])
  rw [same, input] at breakable
  cases breakable

section
variable [Zero α] [Neg α] {c d : Inequality α} {arcs past : List (String × String)} {a : String × String}

theorem row_move (c : Inequality α) (s : String) :
    (c.move s).row = c.row.replaceDependency s (Symbol.auxiliaryName s) := rfl

theorem coefficient_move (c : Inequality α) (s : String) : (c.move s).coefficient =
    Function.update (Function.update c.coefficient (Symbol.auxiliaryName s) (-c.coefficient s)) s 0 := rfl

theorem mem_replaceDependency {r : Row} {old new n : String} :
    n ∈ (r.replaceDependency old new).depends ↔ (n ∈ r.depends ∧ n ≠ old) ∨ (old ∈ r.depends ∧ n = new) := by
  simp only [Row.replaceDependency, List.mem_map]
  constructor
  · intro given
    obtain ⟨k, hk, rfl⟩ := given
    by_cases e : k = old
    · subst e
      exact Or.inr ⟨hk, by simp⟩
    · exact Or.inl (by simpa [e] using hk)
  · intro given
    rcases given with ⟨hn, e⟩ | ⟨ho, rfl⟩
    · exact ⟨n, hn, by simp [e]⟩
    · exact ⟨old, ho, by simp⟩

theorem Broken.nil (c : Inequality α) : Broken [] c c := by
  have none : c.moved [] = ∅ := by simp [moved]
  exact ⟨rfl, rfl, rfl, by simp [none], by simp [none], by simp [none], fun _ _ _ => rfl⟩

/-- An arc that does not touch the row moves nothing more. -/
theorem Broken.moved_append_off (h : Broken past c d) (off : ¬(d.row.defines = a.2 ∧ a.1 ∈ d.row.depends)) :
    c.moved (past ++ [a]) = c.moved past := by
  ext n
  simp only [mem_moved, List.mem_append, List.mem_singleton]
  constructor
  · intro given
    rcases given with ⟨needed, listed | rfl⟩
    · exact ⟨needed, listed⟩
    · by_contra new
      have unmoved : n ∉ c.moved past := fun hn => new (mem_moved.1 hn)
      exact off ⟨h.defines, (h.depends n).2 (Or.inl ⟨needed, unmoved⟩)⟩
  · intro given
    obtain ⟨needed, listed⟩ := given
    exact ⟨needed, Or.inl listed⟩

theorem Broken.skip (h : Broken past c d) (off : ¬(d.row.defines = a.2 ∧ a.1 ∈ d.row.depends)) :
    Broken (past ++ [a]) c d := by
  have same := h.moved_append_off off
  exact ⟨h.defines, h.tag, h.constant, same ▸ h.depends, same ▸ h.source, same ▸ h.auxiliary, same ▸ h.kept⟩

/-- An arc that touches the row moves a source that was not moved before. -/
theorem Broken.moved_append (h : Broken past c d) (plain : Plain (past ++ [a])) (defines : d.row.defines = a.2)
    (needed : a.1 ∈ d.row.depends) :
    a.1 ∉ c.moved past ∧ c.moved (past ++ [a]) = insert a.1 (c.moved past) := by
  have here : a ∈ past ++ [a] := List.mem_append_right _ List.mem_cons_self
  obtain ⟨own, unmoved⟩ : a.1 ∈ c.row.depends ∧ a.1 ∉ c.moved past := by
    rcases (h.depends a.1).1 needed with own | ⟨s, hs, e⟩
    · exact own
    · exact absurd e (plain a here _ (List.mem_append_left _ (mem_moved.1 hs).2))
  refine ⟨unmoved, ?_⟩
  ext n
  simp only [mem_moved, List.mem_append, List.mem_singleton, Finset.mem_insert]
  constructor
  · intro given
    rcases given with ⟨hn, listed | e⟩
    · exact Or.inr ⟨hn, listed⟩
    · exact Or.inl (congrArg Prod.fst e)
  · intro given
    rcases given with rfl | ⟨hn, listed⟩
    · exact ⟨own, Or.inr (Prod.ext rfl (h.defines.symm.trans defines))⟩
    · exact ⟨hn, Or.inl listed⟩

theorem Broken.move (h : Broken past c d) (plain : Plain (past ++ [a])) (defines : d.row.defines = a.2)
    (needed : a.1 ∈ d.row.depends) : Broken (past ++ [a]) c (d.move a.1) := by
  obtain ⟨unmoved, moved⟩ := h.moved_append plain defines needed
  have here : a ∈ past ++ [a] := List.mem_append_right _ List.mem_cons_self
  -- the source, its auxiliary input and those of the sources moved before are different names
  have notOwn : Symbol.auxiliaryName a.1 ≠ a.1 := Symbol.auxiliaryName_ne a.1
  have ne : ∀ s ∈ c.moved past, s ≠ a.1 := fun s hs e => unmoved (e ▸ hs)
  have auxiliary_ne : ∀ s ∈ c.moved past, Symbol.auxiliaryName s ≠ a.1 := by
    intro s hs e
    exact plain a here _ (List.mem_append_left _ (mem_moved.1 hs).2) e.symm
  have ne_auxiliary : ∀ s ∈ c.moved past, s ≠ Symbol.auxiliaryName a.1 := by
    intro s hs
    exact plain _ (List.mem_append_left _ (mem_moved.1 hs).2) a here
  have auxiliary_ne_auxiliary : ∀ s ∈ c.moved past, Symbol.auxiliaryName s ≠ Symbol.auxiliaryName a.1 := by
    intro s hs e
    exact ne s hs (Symbol.auxiliaryName_inj e)
  constructor
  · exact h.defines
  · exact h.tag
  · exact h.constant
  · intro n
    rw [row_move, mem_replaceDependency, moved, h.depends n]
    simp only [Finset.mem_insert, not_or]
    constructor
    · intro given
      rcases given with ⟨⟨hn, keep⟩ | ⟨s, hs, rfl⟩, other⟩ | ⟨-, rfl⟩
      · exact Or.inl ⟨hn, other, keep⟩
      · exact Or.inr ⟨s, Or.inr hs, rfl⟩
      · exact Or.inr ⟨a.1, Or.inl rfl, rfl⟩
    · intro given
      rcases given with ⟨hn, other, keep⟩ | ⟨s, rfl | hs, rfl⟩
      · exact Or.inl ⟨Or.inl ⟨hn, keep⟩, other⟩
      · exact Or.inr ⟨needed, rfl⟩
      · exact Or.inl ⟨Or.inr ⟨s, hs, rfl⟩, auxiliary_ne s hs⟩
  · intro s hs
    rcases Finset.mem_insert.1 (moved ▸ hs) with rfl | hs
    · exact Function.update_self _ _ _
    · rw [coefficient_move, Function.update_of_ne (ne s hs), Function.update_of_ne (ne_auxiliary s hs), h.source s hs]
  · intro s hs
    rcases Finset.mem_insert.1 (moved ▸ hs) with rfl | hs
    · rw [coefficient_move, Function.update_of_ne notOwn, Function.update_self,
        h.kept a.1 unmoved fun s hs e => auxiliary_ne s hs e.symm]
    · rw [coefficient_move, Function.update_of_ne (auxiliary_ne s hs),
        Function.update_of_ne (auxiliary_ne_auxiliary s hs), h.auxiliary s hs]
  · intro n hn other
    rw [moved, Finset.mem_insert, not_or] at hn
    rw [coefficient_move, Function.update_of_ne hn.1,
      Function.update_of_ne (other a.1 (moved ▸ Finset.mem_insert_self _ _)),
      h.kept n hn.2 fun s hs => other s (moved ▸ Finset.mem_insert_of_mem hs)]

theorem Broken.breakArc (h : Broken past c d) (plain : Plain (past ++ [a])) :
    Broken (past ++ [a]) c (d.breakArc a) := by
  unfold Inequality.breakArc
  split
  · rename_i on
    exact h.move plain on.1 on.2
  · rename_i off
    exact h.skip off

theorem breakArcs_append (c : Inequality α) (past : List (String × String)) (a : String × String) :
    c.breakArcs (past ++ [a]) = (c.breakArcs past).breakArc a := by
  simp [breakArcs]

theorem Plain.of_append (h : Plain (past ++ [a])) : Plain past :=
  fun x hx y hy => h x (List.mem_append_left _ hx) y (List.mem_append_left _ hy)

/-- A nonzero coefficient was moved to an auxiliary input, or it was there before and stayed. -/
theorem Broken.of_coefficient_ne_zero (h : Broken arcs c d) {n : String} (nonzero : d.coefficient n ≠ 0) :
    (∃ s ∈ c.moved arcs, n = Symbol.auxiliaryName s) ∨ (n ∉ c.moved arcs ∧ c.coefficient n ≠ 0) := by
  by_cases auxiliary : ∃ s ∈ c.moved arcs, n = Symbol.auxiliaryName s
  · exact Or.inl auxiliary
  · have stays : n ∉ c.moved arcs := fun moved => nonzero (h.source n moved)
    rw [h.kept n stays fun s hs e => auxiliary ⟨s, hs, e⟩] at nonzero
    exact Or.inr ⟨stays, nonzero⟩

/-- Breaking a list of arcs, one after the other. -/
theorem broken_breakArcs (c : Inequality α) (arcs : List (String × String)) (plain : Plain arcs) :
    Broken arcs c (c.breakArcs arcs) := by
  induction arcs using List.reverseRecOn with
  | nil => exact Broken.nil c
  | append_singleton past a ih =>
    rw [breakArcs_append]
    exact (ih plain.of_append).breakArc plain

end

/-! ## The excess -/

section
variable [CommRing α] {m : Model α} {v : String → α}

/-- Changing one coefficient of a role. -/
theorem share_update {r : Role} (nodup : (m.columnNames r).Nodup) (f : String → α) (n : String) (x : α) :
    m.share v r (Function.update f n x) = m.share v r f + if n ∈ m.columnNames r then (x - f n) * v n else 0 := by
  unfold Model.share
  revert nodup
  induction m.columnNames r with
  | nil => intro _; simp
  | cons k names ih =>
    intro nodup
    obtain ⟨hk, nodup⟩ := List.nodup_cons.1 nodup
    rw [List.map_cons, List.map_cons, List.sum_cons, List.sum_cons, ih nodup]
    by_cases e : n = k
    · subst e
      rw [Function.update_self, if_neg hk, if_pos List.mem_cons_self]
      ring
    · rw [Function.update_of_ne (Ne.symm e)]
      simp only [List.mem_cons, e, false_or]
      ring

/-- What a source contributes to the excess once it has moved. -/
def gain (c : Inequality α) (v : String → α) (s : String) : α :=
  c.coefficient s * (v (Symbol.auxiliaryName s) - v s) +
    c.coefficient (Symbol.auxiliaryName s) * v (Symbol.auxiliaryName s)

/-- A source that its auxiliary input agrees with gains what the auxiliary column held. -/
theorem gain_of_pinned (c : Inequality α) {s : String} (pinned : v (Symbol.auxiliaryName s) = v s) :
    c.gain v s = c.coefficient (Symbol.auxiliaryName s) * v (Symbol.auxiliaryName s) := by
  rw [gain, pinned]
  ring

theorem excess_move (con : m.Consistent) {s : String} (ready : m.HasAuxiliary s) (c : Inequality α) :
    (c.move s).excess m v = c.excess m v + c.gain v s := by
  obtain ⟨⟨x, hx, rfl, breakable⟩, y, hy, e, input⟩ := ready
  have source (r : Role) : x.name ∈ m.columnNames r ↔ x.role = r := con.mem_columnNames_iff hx r
  have auxiliary (r : Role) : Symbol.auxiliaryName x.name ∈ m.columnNames r ↔ Role.input = r := by
    rw [← e, con.mem_columnNames_iff hy, input]
  have ne : x.name ≠ Symbol.auxiliaryName x.name := (Symbol.auxiliaryName_ne x.name).symm
  have step (r : Role) : m.share v r (c.move x.name).coefficient = m.share v r c.coefficient +
      (if Role.input = r then (-c.coefficient x.name - c.coefficient (Symbol.auxiliaryName x.name)) *
        v (Symbol.auxiliaryName x.name) else 0) + if x.role = r then -c.coefficient x.name * v x.name else 0 := by
    rw [coefficient_move, share_update (con.nodup_columnNames r), share_update (con.nodup_columnNames r),
      Function.update_of_ne ne]
    simp only [source, auxiliary, zero_sub]
  simp only [excess, step, gain]
  cases role : x.role with
  | discrete => simp [move]; ring
  | continuous => simp [move]; ring
  | state => simp [role, Role.breakable] at breakable
  | input => simp [role, Role.breakable] at breakable
  | output => simp [role, Role.breakable] at breakable
  | other => simp [role, Role.breakable] at breakable

/-- The excess of a row with its arcs broken, at any values of the names. -/
theorem excess_breakArcs (con : m.Consistent) (c : Inequality α) (arcs : List (String × String))
    (ready : ∀ a ∈ arcs, m.HasAuxiliary a.1) :
    (c.breakArcs arcs).excess m v = c.excess m v + ∑ s ∈ c.moved arcs, c.gain v s := by
  induction arcs using List.reverseRecOn with
  | nil => simp [breakArcs, moved]
  | append_singleton past a ih =>
    have plain := plain_of_hasAuxiliary con ready
    have here : a ∈ past ++ [a] := List.mem_append_right _ List.mem_cons_self
    have done := broken_breakArcs c past plain.of_append
    have ih := ih fun b hb => ready b (List.mem_append_left _ hb)
    rw [breakArcs_append, breakArc]
    split
    · rename_i on
      obtain ⟨unmoved, moved⟩ := done.moved_append plain on.1 on.2
      have source : (c.breakArcs past).coefficient a.1 = c.coefficient a.1 := by
        refine done.kept _ unmoved fun s hs => ?_
        exact plain a here _ (List.mem_append_left _ (mem_moved.1 hs).2)
      have auxiliary : (c.breakArcs past).coefficient (Symbol.auxiliaryName a.1) =
          c.coefficient (Symbol.auxiliaryName a.1) := by
        refine done.kept _ (fun hs => ?_) fun s hs e => ?_
        · exact plain _ (List.mem_append_left _ (mem_moved.1 hs).2) a here rfl
        · exact unmoved (Symbol.auxiliaryName_inj e ▸ hs)
      have gain : (c.breakArcs past).gain v a.1 = c.gain v a.1 := by
        simp only [Inequality.gain, source, auxiliary]
      rw [excess_move con (ready a here), gain, ih, moved, Finset.sum_insert unmoved]
      ring
    · rename_i off
      rw [ih, done.moved_append_off off]

/-- The two rows of an arc bound the difference of the source and its auxiliary input. -/
theorem excess_pin (con : m.Consistent) {a : String × String} (ready : m.HasAuxiliary a.1) (x : α) :
    (pin a x).excess m v = x * (v a.1 - v (Symbol.auxiliaryName a.1)) := by
  obtain ⟨⟨s, hs, name, breakable⟩, y, hy, e, input⟩ := ready
  have source (r : Role) : a.1 ∈ m.columnNames r ↔ s.role = r := by
    rw [← name, con.mem_columnNames_iff hs r]
  have auxiliary (r : Role) : Symbol.auxiliaryName a.1 ∈ m.columnNames r ↔ Role.input = r := by
    rw [← e, con.mem_columnNames_iff hy, input]
  have zero (r : Role) : m.share v r (fun _ => 0) = 0 := by simp [Model.share]
  have step (r : Role) : m.share v r (pin a x).coefficient =
      (if Role.input = r then x * v (Symbol.auxiliaryName a.1) else 0) +
        if s.role = r then x * v a.1 else 0 := by
    have ne := (Symbol.auxiliaryName_ne a.1).symm
    rw [pin, share_update (con.nodup_columnNames r), share_update (con.nodup_columnNames r), zero,
      Function.update_of_ne ne]
    simp only [source, auxiliary, sub_zero, zero_add]
  simp only [excess, step]
  cases role : s.role with
  | discrete => simp [pin]; ring
  | continuous => simp [pin]; ring
  | state => simp [role, Role.breakable] at breakable
  | input => simp [role, Role.breakable] at breakable
  | output => simp [role, Role.breakable] at breakable
  | other => simp [role, Role.breakable] at breakable

end
end Inequality
end LoopFree
