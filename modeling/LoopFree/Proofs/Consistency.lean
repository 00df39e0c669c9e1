/-
  LoopFree.Proofs.Consistency — what a model without errors looks like.

  `Consistent` says in the model's own terms what the checks look for: names are unique,
  the symbols of a role with columns are numbered by `ofRole` itself, the real ones
  first, every block has the shape the symbol table asks for, and there are as many
  descriptors as rows. `isValid_iff_consistent`: the checks report no error exactly then.
-/

import LoopFree.Validation
import Mathlib.Data.List.Nodup
import Mathlib.Data.List.Perm.Basic

namespace LoopFree

variable {α δ : Type}

theorem Report.isValid_iff {r : Report δ} : r.isValid ↔ ∀ i ∈ r.issues, i.severity ≠ .error := by
  simp [isValid, errors]

namespace Model

/-- The numbering of a role: `ofRole` lists its symbols with index `i` at position `i`. -/
def Numbered (m : Model α) (r : Role) : Prop :=
  (m.ofRole r).map (·.index) = (List.range (m.count r)).map fun i : Nat => some (i : Int)

/-- The real symbols of a role are those with the lowest indices. -/
def RealFirst (m : Model α) (r : Role) : Prop :=
  ∀ s ∈ m.symbols, s.role = r → (s.isReal ↔ s.index.getD 0 < m.countIn r .real)

structure Consistent (m : Model α) : Prop where
  names : (m.symbols.map (·.name)).Nodup
  numbered : ∀ r : Role, r.hasColumns → m.Numbered r
  realFirst : ∀ r : Role, r.hasColumns → m.RealFirst r
  shapes : ∀ b, (m.block b).shape = m.expectedShape m.ineqCount b
  ineqRows : m.rows.ineq.length = m.ineqCount
  outputRows : m.rows.output = [] ∨ m.rows.output.length = m.count .output

/-! ## The symbols of a role -/

variable {m : Model α} {r : Role} {s t : Symbol}

theorem ofRole_perm (m : Model α) (r : Role) : (m.ofRole r).Perm (m.symbols.filter (·.role = r)) :=
  List.mergeSort_perm _ _

@[simp] theorem mem_ofRole : s ∈ m.ofRole r ↔ s ∈ m.symbols ∧ s.role = r := by
  simp [(m.ofRole_perm r).mem_iff]

@[simp] theorem length_ofRole (m : Model α) (r : Role) : (m.ofRole r).length = m.count r := by
  rw [(m.ofRole_perm r).length_eq, ← List.countP_eq_length_filter, count]

theorem ofRole_pairwise (m : Model α) (r : Role) :
    (m.ofRole r).Pairwise fun s t => s.index.getD (-1) ≤ t.index.getD (-1) := by
  have sorted := @List.pairwise_mergeSort Symbol (fun s t => decide (s.index.getD (-1) ≤ t.index.getD (-1)))
    (by simp only [decide_eq_true_eq]; intro a b c; exact Int.le_trans)
    (by simp only [Bool.or_eq_true, decide_eq_true_eq]; intro a b; exact Int.le_total _ _)
    (m.symbols.filter (·.role = r))
  exact sorted.imp (by simp)

/-- A numbered list of the symbols of a role is the list `ofRole` makes. -/
theorem ofRole_eq {l : List Symbol} {n : Nat} (perm : l.Perm (m.symbols.filter (·.role = r)))
    (h : l.map (·.index) = (List.range n).map fun i : Nat => some (i : Int)) : m.ofRole r = l := by
  have keys : l.map (·.index.getD (-1)) = (List.range n).map fun i : Nat => (i : Int) := by
    have := congrArg (List.map (·.getD (-1))) h
    simpa [Function.comp_def] using this
  have sorted : (l.map (·.index.getD (-1))).Pairwise (· < ·) := by
    rw [keys, List.pairwise_map]
    exact List.pairwise_lt_range.imp fun h => Int.ofNat_lt.2 h
  have nodup : (l.map (·.index.getD (-1))).Nodup := sorted.imp fun h => Int.ne_of_lt h
  have total := (m.ofRole_perm r).trans perm.symm
  refine List.Perm.eq_of_pairwise ?_ (m.ofRole_pairwise r)
    ((List.pairwise_map.1 sorted).imp fun h => Int.le_of_lt h) total
  intro a b ha hb hab hba
  exact List.inj_on_of_nodup_map nodup (total.subset ha) hb (Int.le_antisymm hab hba)

theorem Numbered.getElem? (h : m.Numbered r) {i : Nat} (hs : (m.ofRole r)[i]? = some s) : s.index = some (i : Int) := by
  have := congrArg (·[i]?) h
  simp only [List.getElem?_map, hs, Option.map_some] at this
  obtain ⟨hi, -⟩ := List.getElem?_eq_some_iff.1 hs
  rw [length_ofRole] at hi
  simpa [List.getElem?_range hi] using this

/-- Every symbol of a numbered role has a place in it, and its index says which. -/
theorem Numbered.exists_index (h : m.Numbered r) (hs : s ∈ m.symbols) (hr : s.role = r) :
    ∃ i : Nat, s.index = some (i : Int) ∧ i < m.count r ∧ (m.ofRole r)[i]? = some s := by
  obtain ⟨i, hi, rfl⟩ := List.getElem_of_mem (mem_ofRole.2 ⟨hs, hr⟩)
  refine ⟨i, h.getElem? (List.getElem?_eq_getElem hi), ?_, List.getElem?_eq_getElem hi⟩
  rwa [length_ofRole] at hi

/-- Two symbols of a numbered role do not share a column. -/
theorem Numbered.eq_of_index_eq (h : m.Numbered r) (hs : s ∈ m.symbols) (hsr : s.role = r) (ht : t ∈ m.symbols)
    (htr : t.role = r) (e : s.index = t.index) : s = t := by
  obtain ⟨i, hi, -, hsi⟩ := h.exists_index hs hsr
  obtain ⟨j, hj, -, htj⟩ := h.exists_index ht htr
  rw [hi, hj, Option.some.injEq, Int.natCast_inj] at e
  subst e
  exact Option.some.inj (hsi.symm.trans htj)

/-! ## The checks -/

theorem symbolIssues_iff : (∀ i ∈ m.symbolIssues, i.severity ≠ .error) ↔ (m.symbols.map (·.name)).Nodup := by
  rw [List.nodup_iff_count_le_one]
  simp only [symbolIssues, List.mem_filterMap, List.mem_eraseDups]
  constructor
  · intro h name
    by_contra many
    have mem : name ∈ m.symbols.map (·.name) := List.count_pos_iff.1 (by omega)
    exact h _ ⟨name, mem, if_pos (by omega)⟩ rfl
  · intro h i given
    obtain ⟨name, -, hi⟩ := given
    rw [if_neg (Nat.not_lt.2 (h name))] at hi
    cases hi

theorem numbered_iff : m.Numbered r ↔
    (∀ s ∈ m.symbols, s.role = r → s.index ≠ none) ∧
    ((m.symbols.filter (·.role = r)).filterMap (·.index)).Perm ((List.range (m.count r)).map Int.ofNat) := by
  have perm := (m.ofRole_perm r).filterMap (·.index)
  constructor
  · intro h
    refine ⟨fun s hs hr => ?_, perm.symm.trans ?_⟩
    · obtain ⟨i, hi, -⟩ := h.exists_index hs hr
      simp [hi]
    · have := congrArg (List.filterMap id) h
      simp only [List.filterMap_map, Function.id_comp] at this
      rw [this, ← List.filterMap_eq_map]
      exact .refl _
  · intro given
    obtain ⟨indexed, dense⟩ := given
    have known : ∀ s ∈ m.ofRole r, s.index = some (s.index.getD (-1)) := by
      intro s hs
      obtain ⟨hs, hr⟩ := mem_ofRole.1 hs
      obtain ⟨i, hi⟩ := Option.ne_none_iff_exists'.1 (indexed s hs hr)
      simp [hi]
    have values : (m.ofRole r).filterMap (·.index) = (m.ofRole r).map (·.index.getD (-1)) := by
      rw [← List.filterMap_eq_map]
      exact List.filterMap_congr known
    have keys : (m.ofRole r).map (·.index.getD (-1)) = (List.range (m.count r)).map Int.ofNat := by
      refine List.Perm.eq_of_pairwise (fun a b _ _ => Int.le_antisymm)
        (List.pairwise_map.2 (m.ofRole_pairwise r)) ?_ ((values ▸ perm).trans dense)
      exact List.pairwise_map.2 (List.pairwise_lt_range.imp fun h => Int.ofNat_le.2 (Nat.le_of_lt h))
    calc (m.ofRole r).map (·.index)
        = ((m.ofRole r).map (·.index.getD (-1))).map some := by
          rw [List.map_map]
          exact List.map_congr_left known
      _ = (List.range (m.count r)).map fun i : Nat => some (i : Int) := by
          rw [keys, List.map_map]
          rfl

theorem realFirst_iff : m.RealFirst r ↔
    ∀ s ∈ m.symbols.filter (·.role = r),
      ¬(s.isReal != decide (s.index.getD 0 < ((m.symbols.filter (·.role = r)).countP (·.isReal) : Int))) := by
  have reals : (m.symbols.filter (·.role = r)).countP (·.isReal) = m.countIn r .real := by
    rw [List.countP_filter, countIn]
    congr 1
    funext s
    simp [Symbol.isReal, Bool.and_comm]
  rw [reals]
  simp only [RealFirst, List.mem_filter, decide_eq_true_eq, and_imp]
  refine forall_congr' fun s => forall_congr' fun _ => forall_congr' fun _ => ?_
  cases s.isReal <;> simp

theorem indexIssue?_eq_none_iff : m.indexIssue? r = none ↔ m.Numbered r ∧ m.RealFirst r := by
  have missing : ((m.symbols.filter (·.role = r)).filter (·.index.isNone)).isEmpty ↔
      ∀ s ∈ m.symbols, s.role = r → s.index ≠ none := by
    rw [List.isEmpty_iff, List.filter_eq_nil_iff]
    simp
  have misplaced (k : Int) : ((m.symbols.filter (·.role = r)).filter fun s =>
        s.isReal != decide (s.index.getD 0 < k)).isEmpty ↔
      ∀ s ∈ m.symbols.filter (·.role = r), ¬(s.isReal != decide (s.index.getD 0 < k)) := by
    rw [List.isEmpty_iff, List.filter_eq_nil_iff]
  rw [numbered_iff, realFirst_iff, ← missing, ← misplaced, ← List.isPerm_iff, count, List.countP_eq_length_filter]
  simp only [indexIssue?]
  split
  · rename_i h
    exact ⟨fun e => (nomatch e), fun e => by rw [e.1.1] at h; cases h⟩
  · rename_i someMissing
    split
    · rename_i h
      exact ⟨fun e => (nomatch e), fun e => by rw [e.1.2] at h; cases h⟩
    · rename_i sparse
      split
      · rename_i h
        exact ⟨fun e => (nomatch e), fun e => by rw [e.2] at h; cases h⟩
      · rename_i unordered
        exact ⟨fun _ => ⟨⟨by simpa using someMissing, by simpa using sparse⟩, by simpa using unordered⟩, fun _ => rfl⟩

theorem indexIssue?_kind {i : Issue Finding} (h : m.indexIssue? r = some i) :
    i.severity = .error ∧ i.category = .index := by
  simp only [indexIssue?] at h
  split at h
  · cases h; exact ⟨rfl, rfl⟩
  · split at h
    · cases h; exact ⟨rfl, rfl⟩
    · split at h
      · cases h; exact ⟨rfl, rfl⟩
      · cases h

theorem indexIssues_iff : (∀ i ∈ m.indexIssues, i.severity ≠ .error) ↔
    ∀ r : Role, r.hasColumns → m.Numbered r ∧ m.RealFirst r := by
  have roles (r : Role) : r ∈ Role.all := by cases r <;> decide
  simp only [indexIssues, List.mem_filterMap, List.mem_filter, ← indexIssue?_eq_none_iff]
  constructor
  · intro h r hr
    cases found : m.indexIssue? r with
    | none => rfl
    | some i => exact absurd (indexIssue?_kind found).1 (h i ⟨r, ⟨roles r, hr⟩, found⟩)
  · intro h i given
    obtain ⟨r, ⟨-, hr⟩, found⟩ := given
    rw [h r hr] at found
    cases found

theorem dimensionIssues_iff : (∀ i ∈ m.dimensionIssues, i.severity ≠ .error) ↔
    ∀ b, (m.block b).shape = m.expectedShape m.ineqCount b := by
  simp only [dimensionIssues, List.mem_filterMap, dimensionIssue?]
  constructor
  · intro h b
    by_contra wrong
    exact h _ ⟨b, Block.mem_all b, if_neg wrong⟩ rfl
  · intro h i given
    obtain ⟨b, -, hi⟩ := given
    rw [if_pos (h b)] at hi
    cases hi

theorem referenceIssues_kind {table : Table} {i : Issue Finding} (h : i ∈ m.referenceIssues table) :
    i.severity = .warning ∧ i.category = .undefinedVariable := by
  obtain ⟨⟨row, k⟩, -, h⟩ := List.mem_flatMap.1 h
  obtain ⟨name, -, h⟩ := List.mem_filterMap.1 h
  split at h
  · cases h
  · cases h
    exact ⟨rfl, rfl⟩

theorem rowIssues_iff : (∀ i ∈ m.rowIssues, i.severity ≠ .error) ↔
    m.rows.ineq.length = m.ineqCount ∧ (m.rows.output = [] ∨ m.rows.output.length = m.count .output) := by
  have references {table : Table} {i : Issue Finding} (h : i ∈ m.referenceIssues table) : i.severity ≠ .error := by
    simp [(referenceIssues_kind h).1]
  have counts : (∀ i ∈ m.rowIssues, i.severity ≠ .error) ↔ ∀ i ∈ m.rowCountIssues, i.severity ≠ .error := by
    simp only [rowIssues, List.mem_append]
    constructor
    · exact fun h i hi => h i (.inl (.inl hi))
    · intro h i given
      rcases given with (hi | hi) | hi
      · exact h i hi
      · exact references hi
      · exact references hi
  rw [counts, rowCountIssues, ← List.length_eq_zero_iff]
  simp only [List.mem_append, or_imp, forall_and]
  refine and_congr ?_ ?_
  · split <;> simp_all
  · split
    · simp_all
    · split <;> simp_all

/-- The checks report no error exactly when the model is consistent. -/
theorem isValid_iff_consistent : (m.validate {}).isValid ↔ m.Consistent := by
  rw [Report.isValid_iff]
  simp only [validate, if_true, List.mem_append, or_imp, forall_and]
  rw [symbolIssues_iff, indexIssues_iff, dimensionIssues_iff, rowIssues_iff]
  constructor
  · intro given
    obtain ⟨⟨⟨names, columns⟩, shapes⟩, ineqRows, outputRows⟩ := given
    exact ⟨names, fun r hr => (columns r hr).1, fun r hr => (columns r hr).2, shapes, ineqRows, outputRows⟩
  · intro given
    obtain ⟨names, numbered, realFirst, shapes, ineqRows, outputRows⟩ := given
    exact ⟨⟨⟨names, fun r hr => ⟨numbered r hr, realFirst r hr⟩⟩, shapes⟩, ineqRows, outputRows⟩

end Model
end LoopFree
