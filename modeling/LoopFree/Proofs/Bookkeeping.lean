/-
  LoopFree.Proofs.Bookkeeping — the count of auxiliary inputs over a session.

  How many inputs were given is not stored: it is the number of inputs less a stored count
  of the auxiliary ones, and that count is raised last, after steps that may stop the
  operation. A session makes any calls with any arguments and goes on after a call that
  stopped, from where it stopped. The balance of a domain, its inputs less those on record
  and its inputs marked as auxiliary less those on record, is what no step of any call
  changes (`Call.keeps_balance`), and so no session does (`balance_session`).

  `Keeps g x w`: the edit `x` leaves a workspace whose model has the same `g` as that of
  `w`, whether it succeeds or stops. It is computed step by step, as runs are.
-/

import LoopFree.Proofs.Layout
import LoopFree.Proofs.Stages

namespace LoopFree

variable {α β γ δ : Type}

namespace Edit

/-- The workspace an edit leaves, where it ends or where it stops. -/
def after (x : Edit α β) (w : Workspace α) : Workspace α :=
  match x w with
  | .ok _ w' => w'
  | .error _ w' => w'

/-- The edit leaves a model with the same `g`, also when it stops. -/
def Keeps (g : Model α → δ) (x : Edit α β) (w : Workspace α) : Prop := g (x.after w).model = g w.model

section
variable {g : Model α → δ} {w : Workspace α}

theorem after_of_eq_ok {x : Edit α β} {b : β} {w' : Workspace α} (run : x w = .ok b w') : x.after w = w' := by
  rw [after, run]

theorem after_of_eq_error {x : Edit α β} {f : Fault} {w' : Workspace α} (run : x w = .error f w') :
    x.after w = w' := by
  rw [after, run]

theorem Keeps.bind {x : Edit α β} {k : β → Edit α γ} (first : Keeps g x w)
    (rest : ∀ b v, x w = .ok b v → Keeps g (k b) v) : Keeps g (x >>= k) w := by
  unfold Keeps at first rest ⊢
  cases run : x w with
  | ok b v =>
    rw [after_of_eq_ok run] at first
    have same : (x >>= k).after w = (k b).after v := by
      show (match EStateM.bind x k w with | .ok _ w' => w' | .error _ w' => w') = _
      rw [EStateM.bind, run]
      rfl
    rw [same, rest b v run, first]
  | error f v =>
    rw [after_of_eq_error run] at first
    rw [after_of_eq_error (bind_eq_error.2 (.inl run)), first]

/-- A first step after which anything goes on. -/
theorem Keeps.seq {x : Edit α β} {k : β → Edit α γ} (first : Keeps g x w) (rest : ∀ b v, Keeps g (k b) v) :
    Keeps g (x >>= k) w := first.bind fun b v _ => rest b v

theorem Keeps.map {x : Edit α β} {k : β → γ} (kept : Keeps g x w) : Keeps g (k <$> x) w := by
  unfold Keeps at kept ⊢
  have same : (k <$> x).after w = x.after w := by
    show (match EStateM.map k x w with | .ok _ w' => w' | .error _ w' => w') = _
    rw [EStateM.map, after]
    cases x w <;> rfl
  rw [same, kept]

theorem Keeps.discard {x : Edit α β} (kept : Keeps g x w) : Keeps g (discard x) w := kept.map

@[simp] theorem keeps_pure {b : β} : Keeps g (pure b : Edit α β) w := rfl

@[simp] theorem keeps_throw {f : Fault} : Keeps g (throw f : Edit α β) w := rfl

@[simp] theorem keeps_note {e : Event} : Keeps g (note e) w := rfl

@[simp] theorem keeps_warn {i : Issue Finding} : Keeps g (warn i) w := rfl

@[simp] theorem keeps_setModel {m : Model α} : Keeps g (setModel m) w ↔ g m = g w.model := .rfl

@[simp] theorem keeps_change {f : Model α → Model α} : Keeps g (change f) w ↔ g (f w.model) = g w.model := .rfl

/-- What follows the reading of the model knows that it is the model. -/
@[simp] theorem keeps_model_bind {k : Model α → Edit α γ} : Keeps g (model >>= k) w ↔ Keeps g (k w.model) w := .rfl

theorem Keeps.ofExcept_bind {r : Except Fault β} {k : β → Edit α γ} (rest : ∀ b, r = .ok b → Keeps g (k b) w) :
    Keeps g (ofExcept r >>= k) w := by
  cases r with
  | ok b => exact rest b rfl
  | error f => rfl

theorem Keeps.ofOption_bind {f : Fault} {r : Option β} {k : β → Edit α γ} (rest : ∀ b, r = some b → Keeps g (k b) w) :
    Keeps g (ofOption f r >>= k) w := by
  cases r with
  | some b => exact rest b rfl
  | none => rfl

theorem Keeps.ite {p : Prop} [Decidable p] {x y : Edit α β} (yes : p → Keeps g x w) (no : ¬p → Keeps g y w) :
    Keeps g (if p then x else y) w := by
  by_cases hp : p
  · rw [if_pos hp]
    exact yes hp
  · rw [if_neg hp]
    exact no hp

theorem Keeps.forM {k : β → Edit α PUnit} {l : List β} (step : ∀ b ∈ l, ∀ v, Keeps g (k b) v) :
    Keeps g (l.forM k) w := by
  induction l generalizing w with
  | nil => rfl
  | cons b l ih =>
    exact (step b List.mem_cons_self w).seq fun _ _ => ih fun c hc => step c (List.mem_cons_of_mem b hc)

end
end Edit

/-! ## The balance -/

namespace Model

/-- The auxiliary inputs of a domain that are on record. -/
def recorded (m : Model α) : Domain → Nat
  | .real => m.auxiliaryReal
  | .binary => m.auxiliaryBinary

/-- The inputs of a domain that are marked as auxiliary. -/
def auxiliaryIn (m : Model α) (d : Domain) : Nat :=
  m.symbols.countP fun s => s.role = .input ∧ s.domain = d ∧ s.auxiliary

/-- The inputs that are not on record as auxiliary, and the auxiliary ones that are not on record. -/
def balance (m : Model α) (d : Domain) : Int × Int :=
  (m.countIn .input d - m.recorded d, m.auxiliaryIn d - m.recorded d)

theorem givenReal_eq (m : Model α) : m.givenReal = (m.balance .real).1 := rfl

theorem givenBinary_eq (m : Model α) : m.givenBinary = (m.balance .binary).1 := rfl

theorem recorded_eq_iff {m : Model α} {d : Domain} : m.recorded d = m.auxiliaryIn d ↔ (m.balance d).2 = 0 := by
  simp only [balance]
  omega

variable {m : Model α}

@[simp] theorem balance_setBlock (b : Block) (a : Mat α) : (m.setBlock b a).balance = m.balance := rfl

@[simp] theorem balance_renameDependency (r : Nat) (old new : String) :
    (m.renameDependency r old new).balance = m.balance := rfl

@[simp] theorem balance_appendZeroRows [Zero α] (count : Nat) : (m.appendZeroRows count).balance = m.balance := rfl

/-- Only role, domain and mark of a symbol count. -/
theorem balance_map {f : Symbol → Symbol}
    (same : ∀ s, (f s).role = s.role ∧ (f s).domain = s.domain ∧ (f s).auxiliary = s.auxiliary) :
    balance { m with symbols := m.symbols.map f } = m.balance := by
  funext d
  simp only [balance, countIn, auxiliaryIn, recorded, List.countP_map, Function.comp_def, same]

theorem balance_shiftInputs (index : Int) : (m.shiftInputs index).balance = m.balance := by
  refine balance_map fun s => ?_
  split <;> exact ⟨rfl, rfl, rfl⟩

theorem balance_mapNamed_rank (name : String) (rank : Int) :
    (m.mapNamed name fun s => { s with rank }).balance = m.balance := by
  refine balance_map fun s => ?_
  split <;> exact ⟨rfl, rfl, rfl⟩

/-- An auxiliary input joins the table and the record together. -/
theorem balance_countAuxiliary {m' : Model α} {s : Symbol} {index : Option Int}
    (added : m.addSymbol { s.auxiliaryInput with index } = .ok m') :
    (m'.countAuxiliary s.domain).balance = m.balance := by
  unfold addSymbol at added
  split at added
  · cases added
  · cases added
    funext d
    cases hs : s.domain <;> cases d <;>
      simp [balance, countIn, auxiliaryIn, recorded, countAuxiliary, Symbol.auxiliaryInput, hs]

end Model

/-! ## The steps of a call -/

namespace Edit

section
variable {w : Workspace α}

theorem keeps_openColumn [Zero α] (b : Block) (column : Nat) : Keeps Model.balance (openColumn b column) w := by
  rw [openColumn, keeps_model_bind]
  exact .ofOption_bind fun wider _ => keeps_setModel.2 (Model.balance_setBlock b wider)

theorem keeps_insertInputColumn [Zero α] (index : Int) : Keeps Model.balance (insertInputColumn index) w := by
  rw [insertInputColumn, keeps_model_bind]
  refine .ite (fun _ => ?_) fun _ => keeps_throw
  -- the indices have moved by the time a block can refuse the column
  refine (keeps_setModel.2 (Model.balance_shiftInputs index)).seq fun _ _ => ?_
  refine (keeps_openColumn _ _).seq fun _ _ => (keeps_openColumn _ _).seq fun _ _ => keeps_openColumn _ _

theorem keeps_appendIneqRows [Zero α] (count : Int) : Keeps Model.balance (appendIneqRows count) w := by
  rw [appendIneqRows, keeps_model_bind]
  have rest : Keeps Model.balance (do
      setModel (w.model.appendZeroRows count.toNat); pure w.model.ineqCount : Edit α Nat) w :=
    (keeps_setModel.2 (Model.balance_appendZeroRows _)).seq fun _ _ => keeps_pure
  exact .ite (fun _ => keeps_throw) fun _ => rest

theorem keeps_addAuxiliary [Zero α] (source : String) : Keeps Model.balance (addAuxiliary source) w := by
  rw [addAuxiliary, keeps_model_bind]
  refine .ofExcept_bind fun s _ => (keeps_insertInputColumn _).seq fun _ v => ?_
  rw [keeps_model_bind]
  refine .ofExcept_bind fun grown added => Keeps.seq ?_ fun _ _ => keeps_note.seq fun _ _ => keeps_pure
  exact keeps_setModel.2 (Model.balance_countAuxiliary added)

theorem keeps_rankVertex (g : VariableGraph) (v : Fin g.vertices.length) (r : Nat) :
    Keeps Model.balance (rankVertex g v r) w := by
  rw [rankVertex, keeps_model_bind]
  exact .ofExcept_bind fun s _ => keeps_change.2 (Model.balance_mapNamed_rank s.name r)

theorem keeps_writeBlock (b : Block) (r : Nat) (index : Option Int) (vs : List α) :
    Keeps Model.balance (writeBlock b r index vs) w := by
  rw [writeBlock, keeps_model_bind]
  exact .ofExcept_bind fun a _ => keeps_setModel.2 (Model.balance_setBlock b a)

theorem keeps_moveInRow [Zero α] [Neg α] (source : String) (b : Block) (column auxiliaryColumn : Option Int)
    (r : Nat) : Keeps Model.balance (moveInRow source b column auxiliaryColumn r) w := by
  rw [moveInRow, keeps_model_bind]
  refine .ofOption_bind fun row _ => .ite (fun _ => Keeps.seq ?_ fun _ _ => ?_) fun _ => keeps_pure
  · rw [moveCoefficient, keeps_model_bind]
    exact .ofExcept_bind fun vs _ => (keeps_writeBlock _ _ _ _).seq fun _ _ => keeps_writeBlock _ _ _ _
  · exact (keeps_change.2 (Model.balance_renameDependency _ _ _)).seq fun _ _ => keeps_note

theorem keeps_writePin [One α] [Neg α] (b : Block) (first : Nat) (column : Option Int) :
    Keeps Model.balance (writePin b first column) w := by
  rw [writePin, keeps_model_bind]
  exact .ofExcept_bind fun a _ => keeps_setModel.2 (Model.balance_setBlock b a)

theorem keeps_breakArc [Zero α] [One α] [Neg α] (source sink : String) :
    Keeps Model.balance (breakArc source sink) w := by
  rw [breakArc, keeps_model_bind]
  refine .ofExcept_bind fun auxiliary _ => .ofExcept_bind fun s _ => .ite (fun _ => keeps_throw) fun _ => ?_
  refine .ofExcept_bind fun b _ => ?_
  refine Keeps.seq (.forM fun r _ _ => keeps_moveInRow _ _ _ _ r) fun _ _ => ?_
  refine (keeps_appendIneqRows 2).seq fun first _ => (keeps_writePin _ _ _).seq fun _ _ => ?_
  exact (keeps_writePin _ _ _).seq fun _ _ => Keeps.seq (keeps_change.2 rfl) fun _ _ => keeps_pure

theorem keeps_requireValid : Keeps Model.balance (requireValid : Edit α Unit) w := by
  rw [requireValid, keeps_model_bind]
  exact Keeps.seq (.forM fun _ _ _ => keeps_warn) fun _ _ => .ite (fun _ => keeps_throw) fun _ => keeps_pure

theorem keeps_checkSources (g : VariableGraph) (c : Cut g.vertices.length) :
    Keeps Model.balance (checkSources g c : Edit α Unit) w :=
  .forM fun _ _ _ => .ite (fun _ => keeps_throw) fun _ => keeps_pure

theorem keeps_ensureAuxiliary [Zero α] (name : String) : Keeps Model.balance (ensureAuxiliary name) w := by
  rw [ensureAuxiliary, keeps_model_bind]
  split
  · exact (keeps_addAuxiliary name).discard
  · exact keeps_pure
  · exact keeps_throw

theorem keeps_chooseCut (resolver : Resolver) (validate : Bool) :
    Keeps Model.balance (chooseCut resolver validate : Edit α VariableCut) w := by
  have rest {m : Model α} {w : Workspace α} : Keeps Model.balance (do
      let c ← ofExcept (m.chosenCut resolver)
      checkSources c.graph c.cut
      return c) w :=
    .ofExcept_bind fun c _ => (keeps_checkSources _ _).seq fun _ _ => keeps_pure
  rw [chooseCut, keeps_model_bind]
  exact keeps_note.seq fun _ _ => .ite (fun _ => keeps_requireValid.seq fun _ _ => rest) fun _ => rest

theorem keeps_breakCut [Zero α] [One α] [Neg α] (validate : Bool) (c : VariableCut) :
    Keeps Model.balance (breakCut validate c) w := by
  have ranks {w : Workspace α} : Keeps Model.balance (rank c.graph c.cut.order) w :=
    .forM fun _ _ _ => keeps_rankVertex _ _ _
  have inputs {w : Workspace α} : Keeps Model.balance
      (c.cut.sources.forM fun source => ensureAuxiliary (c.name source)) w :=
    .forM fun _ _ _ => keeps_ensureAuxiliary _
  have arcs {w : Workspace α} : Keeps Model.balance (c.cut.arcs.forM fun arc => do
      note (.breakingArc (c.name arc.1) (c.name arc.2))
      discard (breakArc (α := α) (c.name arc.1) (c.name arc.2))) w :=
    .forM fun _ _ _ => keeps_note.seq fun _ _ => (keeps_breakArc _ _).discard
  refine Keeps.seq (keeps_change.2 rfl) fun _ _ => keeps_note.seq fun _ _ => ?_
  refine ranks.seq fun _ _ => inputs.seq fun _ _ => arcs.seq fun _ _ => ?_
  exact .ite (fun _ => keeps_requireValid) fun _ => keeps_pure

theorem keeps_removeLoops [Zero α] [One α] [Neg α] (resolver : Resolver) (validate : Bool) :
    Keeps Model.balance (removeLoops resolver validate) w := by
  by_cases loop : w.model.hasLoop
  · have stages : (removeLoops resolver validate).after w = (chooseCut resolver validate >>= breakCut validate).after w := by
      rw [after, removeLoops_eq loop, after]
    rw [Keeps, stages]
    exact (keeps_chooseCut resolver validate).seq fun c _ => keeps_breakCut validate c
  · rw [Keeps, after_of_eq_ok (removeLoops_eq_of_not_hasLoop loop)]

/-- Ranks the variables in the order of a sequence of positions in a graph, which need not be the model's. -/
def rankOn (g : VariableGraph) (sequence : List Int) : Edit α Unit :=
  (sequence.zipIdx 1).forM fun (i, r) => do
    rankVertex g (← ofOption .outOfRange (index? g.vertices.length i)) r

/-- Ranking on the model's own graph. -/
theorem rankBy_eq (sequence : List Int) :
    rankBy sequence = (do rankOn (← ofExcept (← model).dependencyGraph) sequence : Edit α Unit) := rfl

theorem keeps_rankOn (g : VariableGraph) (sequence : List Int) :
    Keeps Model.balance (rankOn g sequence : Edit α Unit) w :=
  .forM fun _ _ _ => .ofOption_bind fun _ _ => keeps_rankVertex _ _ _

end
end Edit

/-! ## Sessions -/

/-- A call of an operation that changes a model, with any arguments. -/
inductive Call where
  | insertInputColumn (index : Int)
  | appendIneqRows (count : Int)
  | addAuxiliary (source : String)
  | rankOn (g : VariableGraph) (sequence : List Int)
  | breakArc (source sink : String)
  | removeLoops (resolver : Resolver) (validate : Bool)

section
variable [Zero α] [One α] [Neg α]

def Call.run : Call → Edit α Unit
  | insertInputColumn index => Edit.insertInputColumn index
  | appendIneqRows count => discard (Edit.appendIneqRows count)
  | addAuxiliary source => discard (Edit.addAuxiliary source)
  | rankOn g sequence => Edit.rankOn g sequence
  | breakArc source sink => discard (Edit.breakArc source sink)
  | removeLoops resolver validate => Edit.removeLoops resolver validate

/-- What a session leaves: each call starts from what the one before it left, also when that one stopped. -/
def session (calls : List Call) (w : Workspace α) : Workspace α := calls.foldl (fun w c => c.run.after w) w

theorem Call.keeps_balance (c : Call) (w : Workspace α) : c.run.Keeps Model.balance w := by
  cases c with
  | insertInputColumn index => exact Edit.keeps_insertInputColumn index
  | appendIneqRows count => exact (Edit.keeps_appendIneqRows count).discard
  | addAuxiliary source => exact (Edit.keeps_addAuxiliary source).discard
  | rankOn g sequence => exact Edit.keeps_rankOn g sequence
  | breakArc source sink => exact (Edit.keeps_breakArc source sink).discard
  | removeLoops resolver validate => exact Edit.keeps_removeLoops resolver validate

theorem balance_session (calls : List Call) (w : Workspace α) :
    (session calls w).model.balance = w.model.balance := by
  induction calls generalizing w with
  | nil => rfl
  | cons c calls ih =>
    calc (session (c :: calls) w).model.balance
        = (session calls (c.run.after w)).model.balance := rfl
      _ = (c.run.after w).model.balance := ih _
      _ = w.model.balance := c.keeps_balance w

/-- Whatever is called and wherever the calls stop, as many inputs count as given at the end as at
    the start; and if the record of the auxiliary inputs was right at the start, it is at the end. -/
theorem session_keeps_given (calls : List Call) (w : Workspace α) :
    (session calls w).model.givenReal = w.model.givenReal ∧
    (session calls w).model.givenBinary = w.model.givenBinary ∧
    (w.model.auxiliaryReal = w.model.auxiliaryIn .real ∧ w.model.auxiliaryBinary = w.model.auxiliaryIn .binary →
      (session calls w).model.auxiliaryReal = (session calls w).model.auxiliaryIn .real ∧
      (session calls w).model.auxiliaryBinary = (session calls w).model.auxiliaryIn .binary) := by
  have same := balance_session calls w
  refine ⟨?_, ?_, fun right => ⟨?_, ?_⟩⟩
  · rw [Model.givenReal_eq, Model.givenReal_eq, same]
  · rw [Model.givenBinary_eq, Model.givenBinary_eq, same]
  · change (session calls w).model.recorded .real = _
    rw [Model.recorded_eq_iff, same, ← Model.recorded_eq_iff]
    exact right.1
  · change (session calls w).model.recorded .binary = _
    rw [Model.recorded_eq_iff, same, ← Model.recorded_eq_iff]
    exact right.2

end

/-- A column that is opened for no input; an auxiliary input for `d`; one more, which stops when its
    column is open because the name is taken; and loop removal, which refuses the model there is now. -/
theorem session_keeps_given_mixed :
    let calls : List Call := [.insertInputColumn 1, .addAuxiliary "d", .addAuxiliary "d", .removeLoops .greedy true]
    let m := (session calls (⟨Edit.mixed, [], []⟩ : Workspace Int)).model
    m.givenReal = 1 ∧ m.givenBinary = 1 ∧
    m.auxiliaryReal = m.auxiliaryIn .real ∧ m.auxiliaryBinary = m.auxiliaryIn .binary ∧
    m.auxiliaryBinary = 1 ∧ (m.block ⟨.update, .input⟩).width = 5 ∧ ¬m.loopFound := by
  intro calls m
  obtain ⟨real, binary, recorded⟩ := session_keeps_given calls (⟨Edit.mixed, [], []⟩ : Workspace Int)
  obtain ⟨recordedReal, recordedBinary⟩ := recorded (by decide +kernel)
  exact ⟨real.trans (by decide +kernel), binary.trans (by decide +kernel), recordedReal, recordedBinary,
    by decide +kernel⟩

end LoopFree
