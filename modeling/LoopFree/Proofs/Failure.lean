/-
  LoopFree.Proofs.Failure — failing runs of edits.

  `x w = .error f w'`: the edit `x` stops with the fault `f` and leaves the workspace `w'`.
  A sequence stops where its first failing step does. A loop that stops has a step that
  stops, at a workspace where whatever its earlier steps keep still holds
  (`exists_step_of_forM_eq_error`). `StopsWith` says of an edit which faults it can stop
  with, and is computed step by step; an edit that can stop with none succeeds
  (`exists_eq_ok`).
-/

import LoopFree.Proofs.Run

namespace LoopFree.Edit

variable {α β γ : Type} {w w' : Workspace α} {f : Fault}

theorem bind_eq_error {x : Edit α β} {k : β → Edit α γ} :
    (x >>= k) w = .error f w' ↔ x w = .error f w' ∨ ∃ b v, x w = .ok b v ∧ k b v = .error f w' := by
  show EStateM.bind x k w = .error f w' ↔ _
  unfold EStateM.bind
  cases x w with
  | ok b v =>
    constructor
    · intro stops
      exact Or.inr ⟨b, v, rfl, stops⟩
    · intro given
      rcases given with stops | ⟨_, _, same, stops⟩
      · cases stops
      · cases same
        exact stops
  | error g v => simp

@[simp] theorem pure_ne_error {b : β} : (pure b : Edit α β) w ≠ .error f w' := by
  show EStateM.Result.ok b w ≠ .error f w'
  simp

@[simp] theorem throw_eq_error {g : Fault} : (throw g : Edit α β) w = .error f w' ↔ g = f ∧ w = w' := by
  show EStateM.Result.error g w = .error f w' ↔ _
  simp

@[simp] theorem model_ne_error : (model : Edit α _) w ≠ .error f w' := by
  show EStateM.Result.ok w.model w ≠ .error f w'
  simp

@[simp] theorem change_ne_error {g : Model α → Model α} : change g w ≠ .error f w' := by
  show EStateM.Result.ok () _ ≠ .error f w'
  simp

@[simp] theorem setModel_ne_error {m : Model α} : setModel m w ≠ .error f w' := by
  show EStateM.Result.ok () _ ≠ .error f w'
  simp

@[simp] theorem note_ne_error {e : Event} : note e w ≠ .error f w' := by
  show EStateM.Result.ok () _ ≠ .error f w'
  simp

@[simp] theorem warn_ne_error {i : Issue Finding} : warn i w ≠ .error f w' := by
  show EStateM.Result.ok () _ ≠ .error f w'
  simp

@[simp] theorem ofExcept_eq_error {r : Except Fault β} : ofExcept r w = .error f w' ↔ r = .error f ∧ w = w' := by
  cases r with
  | ok b => simp [ofExcept]
  | error g => simp [ofExcept]

@[simp] theorem ofOption_eq_error {g : Fault} {r : Option β} :
    ofOption g r w = .error f w' ↔ r = none ∧ g = f ∧ w = w' := by
  cases r with
  | some b => simp [ofOption]
  | none => simp [ofOption]

@[simp] theorem ite_eq_error {p : Prop} [Decidable p] {x y : Edit α β} :
    (if p then x else y) w = .error f w' ↔ (p ∧ x w = .error f w') ∨ (¬p ∧ y w = .error f w') := by
  split <;> simp [*]

/-- An optional step before the rest. -/
theorem optional_bind_eq_error {p : Prop} [Decidable p] {x : Edit α Unit} {y : Edit α β}
    (run : (if p then x >>= fun _ => y else y) w = .error f w') :
    (if p then x else pure ()) w = .error f w' ∨ ∃ u v, (if p then x else pure ()) w = .ok u v ∧ y v = .error f w' := by
  by_cases hp : p
  · rw [if_pos hp] at run ⊢
    exact bind_eq_error.1 run
  · rw [if_neg hp] at run ⊢
    exact Or.inr ⟨(), w, pure_eq_ok.2 ⟨rfl, rfl⟩, run⟩

@[simp] theorem map_eq_error {g : β → γ} {x : Edit α β} : (g <$> x) w = .error f w' ↔ x w = .error f w' := by
  show EStateM.map g x w = .error f w' ↔ _
  unfold EStateM.map
  cases x w with
  | ok b v => simp
  | error e v => simp

@[simp] theorem discard_eq_error {x : Edit α β} : discard x w = .error f w' ↔ x w = .error f w' := map_eq_error

/-- The fault the edit stops with on the workspace. -/
def fault? (x : Edit α β) (w : Workspace α) : Option Fault :=
  match x w with
  | .ok _ _ => none
  | .error f _ => some f

theorem exists_of_fault? {x : Edit α β} (h : x.fault? w = some f) : ∃ w', x w = .error f w' := by
  unfold fault? at h
  cases run : x w with
  | ok b v => simp [run] at h
  | error g v =>
    rw [run] at h
    obtain rfl := Option.some.inj h
    exact ⟨v, rfl⟩

/-! ## Loops -/

theorem exists_step_of_forM_eq_error_from {k : β → Edit α PUnit} (P : List β → Workspace α → Prop) {all : List β}
    (step : ∀ past b v v', b ∈ all → P past v → k b v = .ok () v' → P (past ++ [b]) v') :
    ∀ {l past : List β} {w : Workspace α}, l ⊆ all → P past w → forM l k w = .error f w' →
      ∃ past b v, b ∈ all ∧ P past v ∧ k b v = .error f w'
  | [], past, w, _, _, run => (pure_ne_error run).elim
  | b :: l, past, w, sub, h, run => by
    obtain ⟨hb, sub⟩ := List.cons_subset.1 sub
    rcases bind_eq_error.1 run with stops | ⟨_, v, first, rest⟩
    · exact ⟨past, b, w, hb, h, stops⟩
    · exact exists_step_of_forM_eq_error_from P step sub (step past b w v hb h first) rest

/-- A loop that stops has a step that does, after steps that kept what they keep. -/
theorem exists_step_of_forM_eq_error {k : β → Edit α PUnit} (P : List β → Workspace α → Prop) {l : List β}
    (start : P [] w) (step : ∀ past b v v', b ∈ l → P past v → k b v = .ok () v' → P (past ++ [b]) v')
    (run : forM l k w = .error f w') : ∃ past b v, b ∈ l ∧ P past v ∧ k b v = .error f w' :=
  exists_step_of_forM_eq_error_from P step (List.Subset.refl l) start run

/-! ## The faults an edit can stop with -/

/-- Whenever the edit stops, its fault is one of these. -/
def StopsWith (P : Fault → Prop) (x : Edit α β) (w : Workspace α) : Prop := ∀ f w', x w = .error f w' → P f

section
variable {P : Fault → Prop}

@[simp] theorem stopsWith_bind {x : Edit α β} {k : β → Edit α γ} :
    StopsWith P (x >>= k) w ↔ StopsWith P x w ∧ ∀ b v, x w = .ok b v → StopsWith P (k b) v := by
  simp only [StopsWith, bind_eq_error]
  constructor
  · intro stops
    exact ⟨fun f w' h => stops f w' (Or.inl h), fun b v done f w' h => stops f w' (Or.inr ⟨b, v, done, h⟩)⟩
  · intro given f w' h
    obtain ⟨first, rest⟩ := given
    rcases h with h | ⟨b, v, done, h⟩
    · exact first f w' h
    · exact rest b v done f w' h

/-- A first step that is known to succeed. -/
theorem StopsWith.step {x : Edit α β} {k : β → Edit α γ} {b : β} {v : Workspace α} (run : x w = .ok b v)
    (rest : StopsWith P (k b) v) : StopsWith P (x >>= k) w := by
  refine stopsWith_bind.2 ⟨fun f w' stops => ?_, fun b' v' done => ?_⟩
  · rw [run] at stops
    cases stops
  · rw [run] at done
    cases done
    exact rest

@[simp] theorem stopsWith_pure {b : β} : StopsWith P (pure b : Edit α β) w := fun _ _ h => (pure_ne_error h).elim

@[simp] theorem stopsWith_throw {f : Fault} : StopsWith P (throw f : Edit α β) w ↔ P f := by
  simp [StopsWith]

@[simp] theorem stopsWith_model : StopsWith P (model : Edit α _) w := fun _ _ h => (model_ne_error h).elim

@[simp] theorem stopsWith_change {g : Model α → Model α} : StopsWith P (change g) w :=
  fun _ _ h => (change_ne_error h).elim

@[simp] theorem stopsWith_setModel {m : Model α} : StopsWith P (setModel m) w := fun _ _ h => (setModel_ne_error h).elim

@[simp] theorem stopsWith_note {e : Event} : StopsWith P (note e) w := fun _ _ h => (note_ne_error h).elim

@[simp] theorem stopsWith_ofExcept {r : Except Fault β} :
    StopsWith P (ofExcept r : Edit α β) w ↔ ∀ f, r = .error f → P f := by
  simp [StopsWith]

@[simp] theorem stopsWith_ofOption {g : Fault} {r : Option β} :
    StopsWith P (ofOption g r : Edit α β) w ↔ (r = none → P g) := by
  simp [StopsWith]

@[simp] theorem stopsWith_ite {p : Prop} [Decidable p] {x y : Edit α β} :
    StopsWith P (if p then x else y) w ↔ (p → StopsWith P x w) ∧ (¬p → StopsWith P y w) := by
  split <;> simp [*]

@[simp] theorem stopsWith_map {g : β → γ} {x : Edit α β} : StopsWith P (g <$> x) w ↔ StopsWith P x w := by
  simp [StopsWith]

@[simp] theorem stopsWith_discard {x : Edit α β} : StopsWith P (discard x) w ↔ StopsWith P x w := by
  simp [StopsWith]

/-- A loop stops as its steps do, where its earlier steps lead. -/
theorem stopsWith_forM {k : β → Edit α PUnit} (I : List β → Workspace α → Prop) {l : List β} (start : I [] w)
    (step : ∀ past b v v', b ∈ l → I past v → k b v = .ok () v' → I (past ++ [b]) v')
    (stops : ∀ past b v, b ∈ l → I past v → StopsWith P (k b) v) : StopsWith P (forM l k) w := by
  intro f w' h
  obtain ⟨past, b, v, hb, kept, stopped⟩ := exists_step_of_forM_eq_error I start step h
  exact stops past b v hb kept f w' stopped

/-- A loop whose steps need nothing of the earlier ones. -/
theorem stopsWith_forM_of_forall {k : β → Edit α PUnit} {l : List β} (stops : ∀ b ∈ l, ∀ v, StopsWith P (k b) v) :
    StopsWith P (forM l k) w :=
  stopsWith_forM (fun _ _ => True) trivial (fun _ _ _ _ _ _ _ => trivial) fun _ b v hb _ => stops b hb v

end

/-- An edit that stops with no fault succeeds. -/
theorem exists_eq_ok {x : Edit α β} (safe : StopsWith (fun _ => False) x w) : ∃ b w', x w = .ok b w' := by
  cases run : x w with
  | ok b v => exact ⟨b, v, rfl⟩
  | error f v => exact (safe f v run).elim

end LoopFree.Edit
