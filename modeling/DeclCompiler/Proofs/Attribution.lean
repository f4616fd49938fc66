import DeclCompiler.Proofs.Course

/-!
Places of instructions and errors. What comes without a place is given one at the innermost node that it
passes, so on its way out it has one already, and the nodes around leave it alone. This makes the outer
attributions void: a declaration of several declarators is these declarators one after another, and every
place in the result of a declaration is either the one that something came with or the one of its visit.
-/

namespace DeclCompiler

variable {κ η : Type}

/-! ### Declarators one after another -/

/-- How declarators end that are compiled one after another, each in the state that the one before leaves,
until the first that fails. -/
inductive InSequence (c : Compiler κ η) (s : Scope) (kind : DeclKind) :
    List Declarator → CompileState κ η → EStateM.Result CompileError (CompileState κ η) (List (Instruction κ)) → Prop
  | done (w : CompileState κ η) : InSequence c s kind [] w (.ok [] w)
  | stop {d : Declarator} {rest : List Declarator} {w w₁ : CompileState κ η} {e : CompileError}
      (h : c.compileDeclarator s kind d w = .error e w₁) : InSequence c s kind (d :: rest) w (.error e w₁)
  | ok {d : Declarator} {rest : List Declarator} {w w₁ w₂ : CompileState κ η} {code more : List (Instruction κ)}
      (h : c.compileDeclarator s kind d w = .ok code w₁) (hrest : InSequence c s kind rest w₁ (.ok more w₂)) :
      InSequence c s kind (d :: rest) w (.ok (code ++ more) w₂)
  | error {d : Declarator} {rest : List Declarator} {w w₁ w₂ : CompileState κ η} {code : List (Instruction κ)}
      {e : CompileError} (h : c.compileDeclarator s kind d w = .ok code w₁)
      (hrest : InSequence c s kind rest w₁ (.error e w₂)) : InSequence c s kind (d :: rest) w (.error e w₂)

namespace Compiler

variable (c : Compiler κ η) (s : Scope) (kind : DeclKind)

theorem declare_attributed (p : Pattern) (init : Option (Value κ)) : Attributed (c.declare s kind p init) :=
  c.declareAt_attributed s kind 0 p init

theorem compileDeclarator_attributed (d : Declarator) : Attributed (c.compileDeclarator s kind d) :=
  .of_attributing _ _

theorem compileDeclarators_attributed (ds : List Declarator) : Attributed (c.compileDeclarators s kind ds) := by
  induction ds with
  | nil => exact .pure_nil
  | cons d rest ih => exact (c.compileDeclarator_attributed s kind d).append ih

/-- The place of a whole declaration is never used. -/
theorem compileDeclaration_eq (d : Declaration) :
    c.compileDeclaration s d = c.compileDeclarators s d.kind d.declarators :=
  (c.compileDeclarators_attributed s d.kind d.declarators).attributing_eq d.span

theorem compileDeclaration_attributed (d : Declaration) : Attributed (c.compileDeclaration s d) := by
  rw [compileDeclaration_eq]
  exact c.compileDeclarators_attributed s d.kind d.declarators

theorem compileDeclarators_append (ds more : List Declarator) :
    c.compileDeclarators s kind (ds ++ more) =
      (do return (← c.compileDeclarators s kind ds) ++ (← c.compileDeclarators s kind more)) := by
  induction ds with
  | nil => simp [compileDeclarators]
  | cons d rest ih =>
    simp only [List.cons_append, compileDeclarators, ih, bind_assoc, pure_bind, List.append_assoc]

theorem inSequence_compileDeclarators (ds : List Declarator) (w : CompileState κ η) :
    InSequence c s kind ds w (c.compileDeclarators s kind ds w) := by
  induction ds generalizing w with
  | nil => exact .done w
  | cons d rest ih =>
    rw [compileDeclarators]
    cases h : c.compileDeclarator s kind d w with
    | error e w₁ =>
      rw [bind_of_error h]
      exact .stop h
    | ok code w₁ =>
      rw [bind_of_ok h]
      have hrest := ih w₁
      cases h' : c.compileDeclarators s kind rest w₁ with
      | error e w₂ =>
        rw [h'] at hrest
        rw [bind_of_error h']
        exact .error h hrest
      | ok more w₂ =>
        rw [h'] at hrest
        rw [bind_of_ok h']
        exact .ok h hrest

variable {c s kind}

/-- There is one way to end. -/
theorem eq_of_inSequence {ds : List Declarator} {w : CompileState κ η}
    {r : EStateM.Result CompileError (CompileState κ η) (List (Instruction κ))} (h : InSequence c s kind ds w r) :
    c.compileDeclarators s kind ds w = r := by
  induction h with
  | done w => rfl
  | stop h => exact bind_of_error h _
  | ok h _ ih =>
    rw [compileDeclarators, bind_of_ok h, bind_of_ok ih]
    rfl
  | error h _ ih =>
    rw [compileDeclarators, bind_of_ok h]
    exact bind_of_error ih _

theorem compileDeclaration_eq_iff {d : Declaration} {w : CompileState κ η}
    {r : EStateM.Result CompileError (CompileState κ η) (List (Instruction κ))} :
    c.compileDeclaration s d w = r ↔ InSequence c s d.kind d.declarators w r := by
  rw [compileDeclaration_eq]
  constructor
  · rintro rfl
    exact c.inSequence_compileDeclarators s d.kind d.declarators w
  · exact eq_of_inSequence

end Compiler

/-- A declaration ends as its declarators do when they are compiled one after another. So it may be split
anywhere, and its own place has no influence. -/
theorem declaration_eq_declarators (c : Compiler κ η) (s : Scope) (kind : DeclKind) :
    (∀ ds span w r, c.compileDeclaration s ⟨kind, ds, span⟩ w = r ↔ InSequence c s kind ds w r) ∧
    (∀ ds more span span₁ span₂,
      c.compileDeclaration s ⟨kind, ds ++ more, span⟩ = do
        let code ← c.compileDeclaration s ⟨kind, ds, span₁⟩
        return code ++ (← c.compileDeclaration s ⟨kind, more, span₂⟩)) ∧
    ∀ ds span span', c.compileDeclaration s ⟨kind, ds, span⟩ = c.compileDeclaration s ⟨kind, ds, span'⟩ := by
  refine ⟨fun ds span w r => Compiler.compileDeclaration_eq_iff, fun ds more span span₁ span₂ => ?_, ?_⟩
  · simp only [Compiler.compileDeclaration_eq]
    exact c.compileDeclarators_append s kind ds more
  · intro ds span span'
    simp only [Compiler.compileDeclaration_eq]

/-! ### The innermost place -/

namespace Compiler

/-- How a declarator ends: what evaluating its expression gives has the place of the declarator, unless it
came with one, and then the pattern is declared. -/
def declaratorResult (c : Compiler κ η) (s : Scope) (kind : DeclKind) (d : Declarator) (w : CompileState κ η) :
    EStateM.Result CompileError (CompileState κ η) (List (Instruction κ)) :=
  match d.init with
  | none => c.declare s kind d.target none w
  | some expr =>
    match c.evaluator.eval s expr w with
    | .error e w₁ => .error (e.placed d.span) w₁
    | .ok (v, code) w₁ =>
      match c.declare s kind d.target (some v) w₁ with
      | .error e w₂ => .error e w₂
      | .ok more w₂ => .ok (code.map (·.placed d.span) ++ more) w₂

theorem compileDeclarator_eq (c : Compiler κ η) (s : Scope) (kind : DeclKind) (d : Declarator)
    (w : CompileState κ η) : c.compileDeclarator s kind d w = c.declaratorResult s kind d w := by
  unfold compileDeclarator declaratorResult
  cases d.init with
  | none => exact congrFun ((c.declare_attributed s kind d.target none).attributing_eq d.span) w
  | some expr =>
    dsimp only
    rw [attributing_bind]
    cases h : c.evaluator.eval s expr w with
    | error e w₁ =>
      have hlocated : locating d.span (c.evaluator.eval s expr) w = .error (e.placed d.span) w₁ := by
        rw [locating, h, ← e.withSpan_eq_placed]
      exact bind_of_error hlocated _
    | ok r w₁ =>
      obtain ⟨v, code⟩ := r
      have hlocated : locating d.span (c.evaluator.eval s expr) w = .ok (v, code) w₁ := by rw [locating, h]
      have hcode : code.map (·.withSource d.span) = code.map (·.placed d.span) :=
        List.map_congr_left fun i _ => i.withSource_eq_placed d.span
      rw [bind_of_ok hlocated]
      dsimp only
      rw [attributing_append (c.declare_attributed s kind d.target (some v)), hcode]
      cases h' : c.declare s kind d.target (some v) w₁ with
      | error e w₂ => exact bind_of_error h' _
      | ok more w₂ => exact bind_of_ok h' _

end Compiler

/-- Every instruction and every error has the place of the innermost node that it comes from. Declaring a
pattern goes as its course tells: the instructions are those of the events in their places, and the error is
that of the last event in its place, where `Visit.place` says which place that is, and `Event.Emits` and
`Event.Fails` say where instructions and errors come from. What evaluating the expression of a declarator
gives belongs to the declarator, and a declaration adds nothing to its declarators. So every instruction has
a source and every error has a place. -/
theorem attributed_to_innermost (c : Compiler κ η) (s : Scope) (kind : DeclKind) :
    (∀ p init w,
      match Visit.course c s kind (p.visits 0) [init] w with
      | (events, .ok _ w') =>
        c.declare s kind p init w = .ok (events.flatMap Event.emitted) w' ∧
          events.map (·.visit) = p.visits 0 ∧ ∀ event ∈ events, event.Emits c s
      | (events, .error e w') =>
        ∃ done last, events = done ++ [last] ∧
          c.declare s kind p init w = .error (e.placed last.visit.place) w' ∧
          events.map (·.visit) <+: p.visits 0 ∧ (∀ event ∈ done, event.Emits c s) ∧ last.Fails c s e) ∧
    (∀ d w, c.compileDeclarator s kind d w = c.declaratorResult s kind d w) ∧
    (∀ ds span w r, c.compileDeclaration s ⟨kind, ds, span⟩ w = r ↔ InSequence c s kind ds w r) ∧
    (∀ p init, Attributed (c.declare s kind p init)) ∧ (∀ d, Attributed (c.compileDeclarator s kind d)) ∧
    ∀ ds span, Attributed (c.compileDeclaration s ⟨kind, ds, span⟩) := by
  refine ⟨fun p init w => ?_, fun d w => c.compileDeclarator_eq s kind d w,
    fun ds span w r => Compiler.compileDeclaration_eq_iff, c.declare_attributed s kind,
    c.compileDeclarator_attributed s kind, fun ds span => c.compileDeclaration_attributed s _⟩
  have hfollows := c.declare_follows_course s kind p init w
  unfold Visit.Follows at hfollows
  rw [Compiler.declare_eq_run]
  rcases hcourse : Visit.course c s kind (p.visits 0) [init] w with ⟨events, result⟩
  rw [hcourse] at hfollows
  cases result with
  | ok parts w' =>
    obtain ⟨hrun, hevents⟩ := hfollows
    exact ⟨map_of_ok hrun _, hevents⟩
  | error e w' =>
    obtain ⟨done, last, rfl, hrun, hevents⟩ := hfollows
    exact ⟨done, last, rfl, map_of_error hrun _, hevents⟩

end DeclCompiler
