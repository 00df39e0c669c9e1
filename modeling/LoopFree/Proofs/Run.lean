/-
  LoopFree.Proofs.Run — successful runs of edits.

  `x w = .ok b w'`: the edit `x` takes the workspace `w` to `w'` and returns `b`. Each
  primitive has one lemma that says when it succeeds and what it leaves; a sequence of
  edits succeeds when each of them does. `forM_induct` carries a fact through a loop, and
  `exists_forM_eq_ok` runs a loop whose fact lets every step succeed.
-/

import LoopFree.Edit

namespace LoopFree.Edit

variable {α β γ : Type} {w w' : Workspace α}

@[simp] theorem bind_eq_ok {x : Edit α β} {f : β → Edit α γ} {c : γ} :
    (x >>= f) w = .ok c w' ↔ ∃ b v, x w = .ok b v ∧ f b v = .ok c w' := by
  show EStateM.bind x f w = .ok c w' ↔ _
  unfold EStateM.bind
  cases h : x w with
  | ok b v =>
    constructor
    · intro hf
      exact ⟨b, v, rfl, hf⟩
    · intro given
      obtain ⟨_, _, hx, hf⟩ := given
      cases hx
      exact hf
  | error f v => simp

@[simp] theorem pure_eq_ok {b c : β} : (pure b : Edit α β) w = .ok c w' ↔ b = c ∧ w = w' := by
  show EStateM.pure b w = .ok c w' ↔ _
  simp [EStateM.pure]

@[simp] theorem throw_ne_ok {f : Fault} {b : β} : (throw f : Edit α β) w ≠ .ok b w' := by
  show EStateM.Result.error f w ≠ .ok b w'
  simp

@[simp] theorem model_eq_ok {m : Model α} : (model : Edit α _) w = .ok m w' ↔ w.model = m ∧ w = w' := by
  show EStateM.Result.ok w.model w = .ok m w' ↔ _
  simp

@[simp] theorem change_eq_ok {f : Model α → Model α} {u : Unit} :
    change f w = .ok u w' ↔ { w with model := f w.model } = w' := by
  show EStateM.Result.ok () _ = .ok u w' ↔ _
  simp

@[simp] theorem setModel_eq_ok {m : Model α} {u : Unit} : setModel m w = .ok u w' ↔ { w with model := m } = w' := by
  show EStateM.Result.ok () _ = .ok u w' ↔ _
  simp

@[simp] theorem note_eq_ok {e : Event} {u : Unit} : note e w = .ok u w' ↔ { w with log := w.log ++ [e] } = w' := by
  show EStateM.Result.ok () _ = .ok u w' ↔ _
  simp

@[simp] theorem warn_eq_ok {i : Issue Finding} {u : Unit} :
    warn i w = .ok u w' ↔ { w with warnings := w.warnings ++ [i] } = w' := by
  show EStateM.Result.ok () _ = .ok u w' ↔ _
  simp

@[simp] theorem ofExcept_eq_ok {r : Except Fault β} {b : β} : ofExcept r w = .ok b w' ↔ r = .ok b ∧ w = w' := by
  cases r with
  | ok c => simp [ofExcept]
  | error f => simp [ofExcept]

@[simp] theorem ofOption_eq_ok {f : Fault} {r : Option β} {b : β} :
    ofOption f r w = .ok b w' ↔ r = some b ∧ w = w' := by
  cases r with
  | some c => simp [ofOption]
  | none => simp [ofOption]

@[simp] theorem ite_eq_ok {p : Prop} [Decidable p] {x y : Edit α β} {b : β} :
    (if p then x else y) w = .ok b w' ↔ (p ∧ x w = .ok b w') ∨ (¬p ∧ y w = .ok b w') := by
  split <;> simp [*]

/-- An optional step before the rest. -/
theorem optional_bind_eq_ok {p : Prop} [Decidable p] {x : Edit α Unit} {y : Edit α β} {b : β}
    (run : (if p then x >>= fun _ => y else y) w = .ok b w') :
    ∃ u v, (if p then x else pure ()) w = .ok u v ∧ y v = .ok b w' := by
  by_cases hp : p
  · rw [if_pos hp] at run ⊢
    exact bind_eq_ok.1 run
  · rw [if_neg hp] at run ⊢
    exact ⟨(), w, pure_eq_ok.2 ⟨rfl, rfl⟩, run⟩

@[simp] theorem discard_eq_ok {x : Edit α β} {u : Unit} : discard x w = .ok u w' ↔ ∃ b, x w = .ok b w' := by
  show EStateM.map _ x w = .ok u w' ↔ _
  unfold EStateM.map
  cases h : x w with
  | ok b v => simp
  | error f v => simp

/-- The edit succeeds on the workspace. -/
def succeeds (x : Edit α β) (w : Workspace α) : Bool :=
  match x w with
  | .ok _ _ => true
  | .error _ _ => false

theorem exists_of_succeeds {x : Edit α β} (h : x.succeeds w) : ∃ b w', x w = .ok b w' := by
  unfold succeeds at h
  cases run : x w with
  | ok b w' => exact ⟨b, w', rfl⟩
  | error f v => simp [run] at h

/-- The edit succeeds, and what it leaves passes the test. -/
def leaves (x : Edit α β) (test : Workspace α → Bool) (w : Workspace α) : Bool :=
  match x w with
  | .ok _ w' => test w'
  | .error _ _ => false

theorem exists_of_leaves {x : Edit α β} {test : Workspace α → Bool} (h : x.leaves test w) :
    ∃ b w', x w = .ok b w' ∧ test w' := by
  unfold leaves at h
  cases run : x w with
  | ok b w' => exact ⟨b, w', rfl, by rwa [run] at h⟩
  | error f v => simp [run] at h

theorem of_leaves {x : Edit α β} {test : Workspace α → Bool} {b : β} (h : x.leaves test w) (run : x w = .ok b w') :
    test w' := by
  rwa [leaves, run] at h

theorem forM_induct_from {f : β → Edit α PUnit} (P : List β → Workspace α → Prop) {all : List β}
    (step : ∀ past b v v', b ∈ all → P past v → f b v = .ok () v' → P (past ++ [b]) v') :
    ∀ {l past : List β} {w : Workspace α} {u : PUnit}, l ⊆ all → P past w → forM l f w = .ok u w' → P (past ++ l) w'
  | [], past, w, _, _, h, run => by
    obtain ⟨-, rfl⟩ := pure_eq_ok.1 run
    simpa using h
  | b :: l, past, w, _, sub, h, run => by
    obtain ⟨_, v, first, rest⟩ := bind_eq_ok.1 run
    obtain ⟨hb, sub⟩ := List.cons_subset.1 sub
    have next := forM_induct_from P step sub (step past b w v hb h first) rest
    simpa using next

/-- What holds at the start of a loop and is kept by each of its steps holds at the end. -/
theorem forM_induct {f : β → Edit α PUnit} (P : List β → Workspace α → Prop) {l : List β} {u : PUnit}
    (start : P [] w) (step : ∀ past b v v', b ∈ l → P past v → f b v = .ok () v' → P (past ++ [b]) v')
    (run : forM l f w = .ok u w') : P l w' :=
  forM_induct_from P step (List.Subset.refl l) start run

theorem exists_forM_eq_ok_from {f : β → Edit α PUnit} (P : List β → Workspace α → Prop) {all : List β}
    (step : ∀ past b rest v, all = past ++ b :: rest → P past v → ∃ v', f b v = .ok () v' ∧ P (past ++ [b]) v') :
    ∀ (l past : List β) (w : Workspace α), all = past ++ l → P past w → ∃ w', forM l f w = .ok () w' ∧ P all w'
  | [], past, w, e, h => ⟨w, pure_eq_ok.2 ⟨rfl, rfl⟩, by simpa [e] using h⟩
  | b :: l, past, w, e, h => by
    obtain ⟨v, first, kept⟩ := step past b l w e h
    obtain ⟨w', rest, done⟩ := exists_forM_eq_ok_from P step l (past ++ [b]) v (by simpa using e) kept
    exact ⟨w', bind_eq_ok.2 ⟨(), v, first, rest⟩, done⟩

/-- A loop succeeds when what its steps keep lets the next one succeed, which knows what is
    past and what is still to come. -/
theorem exists_forM_eq_ok {f : β → Edit α PUnit} (P : List β → Workspace α → Prop) {l : List β} (start : P [] w)
    (step : ∀ past b rest v, l = past ++ b :: rest → P past v → ∃ v', f b v = .ok () v' ∧ P (past ++ [b]) v') :
    ∃ w', forM l f w = .ok () w' ∧ P l w' :=
  exists_forM_eq_ok_from P step l [] w rfl start

end LoopFree.Edit
