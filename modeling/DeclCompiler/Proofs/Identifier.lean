import DeclCompiler.Proofs.Outcome

/-!
What declaring one identifier does to the state, written out. A name is either given to a value that
cannot change, or to a new variable.
-/

namespace DeclCompiler

variable {κ η : Type}

theorem Scope.bind_eq (s : Scope) (b : Binding κ) (w : CompileState κ η) :
    s.bind b w =
      if (w.own? s.table b.identifier).isSome then .error (.of (.alreadyDeclared b.identifier)) w
      else .ok () (w.enter s b) := by
  have hget : (get : CompileM κ η (CompileState κ η)) w = .ok w w := rfl
  rw [Scope.bind, bind_of_ok hget]
  split <;> rfl

theorem Scope.yields_bind (s : Scope) (b : Binding κ) (w : CompileState κ η) {ok : Unit → CompileState κ η → Prop}
    {failed : CompileError → CompileState κ η → Prop} (hok : w.own? s.table b.identifier = none → ok () (w.enter s b))
    (hfailed : ∀ e, failed e w) : Yields (s.bind b) w ok failed := by
  unfold Yields
  rw [s.bind_eq]
  split
  next h =>
    split at h <;> cases h
    next hown => exact hok (by simpa using hown)
  next h =>
    split at h <;> cases h
    exact hfailed _

section NamedValues

variable {w : CompileState κ η} {failed : CompileError → CompileState κ η → Prop}

/-- A variable is made before its name is bound. -/
theorem Scope.yields_makeStore (s : Scope) (identifier name : String) {ok : Value κ → CompileState κ η → Prop} :
    Yields (s.makeStore identifier name) w ok failed ↔
      Yields (s.bind ⟨identifier, name, s.id, .store w.values name false, false⟩) { w with values := w.values + 1 }
        (fun _ w' => ok (.store w.values name false) w') failed := by
  simp only [Scope.makeStore, newStore, DeclCompiler.yields_bind, yields_pure]
  exact Iff.rfl

theorem Scope.yields_bindBuiltins (s : Scope) {ok : Unit → CompileState κ η → Prop} :
    Yields s.bindBuiltins w ok failed ↔
      Yields (s.bind ⟨"getLink", "getLink", s.id, .function w.values .getLink, true⟩)
        { w with values := w.values + 1 } ok failed := by
  simp only [Scope.bindBuiltins, newFunction, DeclCompiler.yields_bind, yields_pure]
  exact Iff.rfl

end NamedValues

namespace Compiler

variable (c : Compiler κ η) (s : Scope) (id : Identifier)

/-- The binding of an identifier to a value. -/
def binding (v : Value κ) (constant : Bool) : Binding κ :=
  { identifier := id.name, name := c.variableName id, scope := s.id, value := v, constant }

/-- How the declaration of a constant ends whose value cannot change: the name stands for that very value. -/
def aliasResult (v : Value κ) (w : CompileState κ η) :
    EStateM.Result CompileError (CompileState κ η) (List (Instruction κ)) :=
  if (w.own? s.table id.name).isSome then .error (.of (.alreadyDeclared id.name)) w
  else .ok [] (w.enter s (c.binding s id v true))

/-- The variable that is made for an identifier in the given state. -/
def newVariable (w : CompileState κ η) : Value κ := .store w.values (c.variableName id) false

/-- The state in which that variable exists and has its name. -/
def withVariable (w : CompileState κ η) : CompileState κ η :=
  { w with values := w.values + 1 }.enter s (c.binding s id (c.newVariable id w) false)

/-- The state after a variable was declared and set to a value. -/
def afterSet (kind : DeclKind) (w : CompileState κ η) : CompileState κ η :=
  if kind.isConst then (c.withVariable s id w).setMutability (c.newVariable id w) .constantBinding
  else c.withVariable s id w

/-- How the declaration of a variable ends. A value without a place in the program is refused when the
variable is there already. -/
def variableResult (kind : DeclKind) (init : Option (Value κ)) (w : CompileState κ η) :
    EStateM.Result CompileError (CompileState κ η) (List (Instruction κ)) :=
  if (w.own? s.table id.name).isSome then
    .error (.of (.alreadyDeclared id.name)) { w with values := w.values + 1 }
  else
    match init with
    | none => .ok [] (c.withVariable s id w)
    | some v =>
      if v.isMacro then .error (.of .macroBinding) (c.withVariable s id w)
      else .ok [.set (c.newVariable id w) v] (c.afterSet s id kind w)

def identifierResult (kind : DeclKind) (init : Option (Value κ)) (w : CompileState κ η) :
    EStateM.Result CompileError (CompileState κ η) (List (Instruction κ)) :=
  match kind.isConst, init with
  | true, none => .error (.of .uninitializedConstant) w
  | true, some v => if w.mutability v = .immutable then c.aliasResult s id v w else c.variableResult s id kind init w
  | false, _ => c.variableResult s id kind init w

theorem makeStore_eq (w : CompileState κ η) :
    s.makeStore id.name (c.variableName id) w =
      if (w.own? s.table id.name).isSome then
        .error (.of (.alreadyDeclared id.name)) { w with values := w.values + 1 }
      else .ok (c.newVariable id w) (c.withVariable s id w) := by
  have hnew : (newStore (c.variableName id) false : CompileM κ η (Value κ)) w =
      .ok (c.newVariable id w) { w with values := w.values + 1 } := rfl
  have hbind := s.bind_eq (c.binding s id (c.newVariable id w) false) { w with values := w.values + 1 }
  have hown : ({ w with values := w.values + 1 } : CompileState κ η).own? s.table id.name =
    w.own? s.table id.name := rfl
  rw [Scope.makeStore, bind_of_ok hnew]
  by_cases h : (w.own? s.table id.name).isSome
  · rw [if_pos h]
    rw [binding, hown, if_pos h] at hbind
    exact bind_of_error hbind _
  · rw [if_neg h]
    rw [binding, hown, if_neg h] at hbind
    exact bind_of_ok hbind _

theorem declareVariable_eq (kind : DeclKind) (init : Option (Value κ)) (w : CompileState κ η) :
    c.declareVariable s kind id init w = c.variableResult s id kind init w := by
  have hmake := c.makeStore_eq s id w
  unfold declareVariable variableResult afterSet
  by_cases h : (w.own? s.table id.name).isSome
  · rw [if_pos h] at hmake ⊢
    exact bind_of_error hmake _
  · rw [if_neg h] at hmake ⊢
    rw [bind_of_ok hmake]
    cases init with
    | none => rfl
    | some v =>
      dsimp only
      cases v.isMacro with
      | true => rfl
      | false => cases kind.isConst <;> rfl

/-- Declaring an identifier ends as described. -/
theorem declareIdentifier_eq (kind : DeclKind) (init : Option (Value κ)) (w : CompileState κ η) :
    c.declareIdentifier s kind id init w = c.identifierResult s id kind init w := by
  have hvariable := c.declareVariable_eq s id kind init w
  unfold declareIdentifier identifierResult
  cases kind.isConst with
  | false => exact hvariable
  | true =>
    cases init with
    | none => rfl
    | some v =>
      have hget : (get : CompileM κ η (CompileState κ η)) w = .ok w w := rfl
      have hbind := s.bind_eq (c.binding s id v true) w
      rw [if_pos rfl]
      dsimp only
      rw [bind_of_ok hget]
      split
      · unfold aliasResult
        split
        next h =>
          rw [binding, if_pos h] at hbind
          exact bind_of_error hbind _
        next h =>
          rw [binding, if_neg h] at hbind
          exact bind_of_ok hbind _
      · exact hvariable

/-! ### The ways to end -/

variable {c s id} {kind : DeclKind} {init : Option (Value κ)} {w w' : CompileState κ η}

theorem variableResult_ok {code : List (Instruction κ)} (h : c.variableResult s id kind init w = .ok code w') :
    w.own? s.table id.name = none ∧
      (init = none ∧ code = [] ∧ w' = c.withVariable s id w ∨
        ∃ v, init = some v ∧ v.isMacro = false ∧ code = [.set (c.newVariable id w) v] ∧
          w' = c.afterSet s id kind w) := by
  unfold variableResult at h
  split at h
  · cases h
  next hown =>
    refine ⟨by simpa using hown, ?_⟩
    cases init with
    | none =>
      cases h
      exact .inl ⟨rfl, rfl, rfl⟩
    | some v =>
      dsimp only at h
      split at h
      · cases h
      next hv =>
        cases h
        exact .inr ⟨v, rfl, by simpa using hv, rfl, rfl⟩

/-- An identifier that was declared is another name for a value, or a variable with or without a value. In
any case the name was free. -/
theorem declareIdentifier_ok {code : List (Instruction κ)} (h : c.declareIdentifier s kind id init w = .ok code w') :
    w.own? s.table id.name = none ∧
      ((∃ v, init = some v ∧ kind.isConst ∧ w.mutability v = .immutable ∧ code = [] ∧
          w' = w.enter s (c.binding s id v true)) ∨
        (kind.isConst = false ∧ init = none ∧ code = [] ∧ w' = c.withVariable s id w) ∨
        ∃ v, init = some v ∧ v.isMacro = false ∧ code = [.set (c.newVariable id w) v] ∧
          w' = c.afterSet s id kind w) := by
  rw [declareIdentifier_eq] at h
  unfold identifierResult at h
  cases hk : kind.isConst with
  | false =>
    rw [hk] at h
    obtain ⟨hown, ⟨hinit, hcode, hw⟩ | hset⟩ := variableResult_ok h
    · exact ⟨hown, .inr (.inl ⟨rfl, hinit, hcode, hw⟩)⟩
    · exact ⟨hown, .inr (.inr hset)⟩
  | true =>
    rw [hk] at h
    cases init with
    | none => cases h
    | some v =>
      dsimp only at h
      split at h
      next hm =>
        unfold aliasResult at h
        split at h
        · cases h
        next hown =>
          cases h
          exact ⟨by simpa using hown, .inl ⟨v, rfl, rfl, hm, rfl, rfl⟩⟩
      next =>
        obtain ⟨hown, ⟨hinit, -⟩ | hset⟩ := variableResult_ok h
        · cases hinit
        · exact ⟨hown, .inr (.inr hset)⟩

theorem variableResult_error {e : CompileError} (h : c.variableResult s id kind init w = .error e w') :
    w' = { w with values := w.values + 1 } ∨
      (∃ v, init = some v ∧ v.isMacro = true) ∧ w.own? s.table id.name = none ∧ w' = c.withVariable s id w := by
  unfold variableResult at h
  split at h
  · cases h
    exact .inl rfl
  next hown =>
    cases init with
    | none => cases h
    | some v =>
      dsimp only at h
      split at h
      next hv =>
        cases h
        exact .inr ⟨⟨v, rfl, hv⟩, by simpa using hown, rfl⟩
      · cases h

/-- A value that can change has a place in the program. -/
theorem isMacro_of_mutability_ne {v : Value κ} (h : w.mutability v ≠ .immutable) : v.isMacro = false := by
  cases v with
  | void | literal | store => rfl
  | object | function => exact absurd rfl h

/-- An identifier that was not declared leaves nothing behind but, at most, a variable that was made for it.
A constant leaves not even that. -/
theorem declareIdentifier_error {e : CompileError} (h : c.declareIdentifier s kind id init w = .error e w') :
    w' = w ∨ w' = { w with values := w.values + 1 } ∨
      kind.isConst = false ∧ w.own? s.table id.name = none ∧ w' = c.withVariable s id w := by
  rw [declareIdentifier_eq] at h
  unfold identifierResult at h
  cases hk : kind.isConst with
  | false =>
    rw [hk] at h
    obtain hw | ⟨-, hown, hw⟩ := variableResult_error h
    · exact .inr (.inl hw)
    · exact .inr (.inr ⟨rfl, hown, hw⟩)
  | true =>
    rw [hk] at h
    cases init with
    | none =>
      cases h
      exact .inl rfl
    | some v =>
      dsimp only at h
      split at h
      next =>
        unfold aliasResult at h
        split at h <;> cases h
        exact .inl rfl
      next hm =>
        obtain hw | ⟨⟨v', hv', hv''⟩, -, -⟩ := variableResult_error h
        · exact .inr (.inl hw)
        · cases hv'
          rw [isMacro_of_mutability_ne hm] at hv''
          cases hv''

/-- The errors of declaring an identifier. They do not say where. -/
theorem declareIdentifier_cause {e : CompileError} (h : c.declareIdentifier s kind id init w = .error e w') :
    ∃ cause ∈ [.uninitializedConstant, .macroBinding, .alreadyDeclared id.name], e = .of cause := by
  have hvariable : c.variableResult s id kind init w = .error e w' →
      ∃ cause ∈ [.uninitializedConstant, .macroBinding, .alreadyDeclared id.name], e = .of cause := by
    intro h
    unfold variableResult at h
    split at h
    · cases h
      exact ⟨_, by simp, rfl⟩
    · cases init with
      | none => cases h
      | some v =>
        dsimp only at h
        split at h <;> cases h
        exact ⟨_, by simp, rfl⟩
  rw [declareIdentifier_eq] at h
  unfold identifierResult at h
  split at h
  · cases h
    exact ⟨_, by simp, rfl⟩
  next v =>
    split at h
    · unfold aliasResult at h
      split at h <;> cases h
      exact ⟨_, by simp, rfl⟩
    · exact hvariable h
  · exact hvariable h

end Compiler

end DeclCompiler
