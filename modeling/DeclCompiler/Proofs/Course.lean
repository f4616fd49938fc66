import DeclCompiler.Proofs.Identifier
import DeclCompiler.Proofs.Run
import DeclCompiler.Proofs.Visit

/-!
The course of a declaration. Every visit either asks one thing, of the evaluator or of a value, or gets
along by itself. Written down visit by visit, with what was asked and with the instructions as they came,
this is the course of the declaration. The declaration itself differs from it in one respect: what came
without a place gets the place of its visit.
-/

namespace DeclCompiler

variable {κ η : Type}

/-! ### Places -/

/-- An instruction keeps the place that it has, and gets this one if it has none. -/
def Instruction.placed (span : Span) (i : Instruction κ) : Instruction κ :=
  { i with source := some (i.source.getD span) }

theorem Instruction.withSource_eq_placed (span : Span) (i : Instruction κ) : i.withSource span = i.placed span := by
  unfold withSource placed
  cases i.source <;> rfl

/-- An error keeps the places that it has, and gets this one if it has none. -/
def CompileError.placed (span : Span) (e : CompileError) : CompileError :=
  ⟨e.cause, if e.spans = [] then [span] else e.spans⟩

theorem CompileError.withSpan_eq_placed (span : Span) (e : CompileError) : e.withSpan span = e.placed span := by
  cases e with
  | mk cause spans => cases spans <;> rfl

/-- The place of a visit. Leaving a pattern neither fails nor emits anything, so it needs none. -/
def Visit.place : Visit → Span
  | .enter _ span | .refuse _ span | .array span | .element _ span | .object span | .key _ _ span
  | .member span => span
  | .identifier id => id.span
  | .leave => .dummy

/-! ### Queries -/

/-- What may be asked while a declaration is compiled: to evaluate or to consume an expression, to consume
a value, and to read a member. -/
inductive Query (κ : Type)
  | evaluate (e : Expr)
  | consumeExpr (e : Expr)
  | consume (v : Value κ)
  | getMember (v key : Value κ)

def Query.answer (c : Compiler κ η) (s : Scope) : Query κ → CompileM κ η (Computed κ)
  | .evaluate e => c.evaluator.eval s e
  | .consumeExpr e => c.evaluator.consume s e
  | .consume v => v.consume c.host s
  | .getMember v key => v.getMember c.host s key

/-- What is asked, without the values that it is about. -/
inductive QueryForm
  | evaluate (e : Expr)
  | consumeExpr (e : Expr)
  | consume
  | getMember

def Query.form : Query κ → QueryForm
  | .evaluate e => .evaluate e
  | .consumeExpr e => .consumeExpr e
  | .consume _ => .consume
  | .getMember _ _ => .getMember

/-- The name that a key spells out, which is an identifier that is not computed. Any other key has to be
consumed. -/
def Expr.plainKey? (key : Expr) (computed : Bool) : Option String :=
  if computed then none else key.identifier?

theorem Compiler.propertyKey_eq (c : Compiler κ η) (s : Scope) (key : Expr) (computed : Bool) :
    c.propertyKey s key computed =
      match key.plainKey? computed with
      | some name => (do return (← newLiteral (.string name), []))
      | none => c.evaluator.consume s key := by
  unfold propertyKey Expr.plainKey? Expr.identifier?
  cases key.kind with
  | identifier name => cases computed <;> rfl
  | literal | external => cases computed <;> rfl

/-- What a visit asks, and where. -/
def Visit.queryForm? : Visit → Option (Span × QueryForm)
  | .object span => some (span, .consume)
  | .key expr computed span => if (expr.plainKey? computed).isSome then none else some (span, .consumeExpr expr)
  | .member span => some (span, .getMember)
  | _ => none

/-- A compiler with these options and with nobody to ask. -/
def Options.alone (options : Options) : Compiler κ η where
  host := .inert κ η
  options := options
  evaluator := ⟨fun _ _ => throw (.of (.unknownExpression 0)), fun _ _ => throw (.of (.unknownExpression 0))⟩

/-! ### Plans -/

/-- A visit asks one thing and puts the value of the answer before the parts, or it asks nothing. -/
inductive Plan (κ η : Type)
  | ask (q : Query κ) (rest : Parts κ)
  | act (x : CompileM κ η (Parts κ × List (Instruction κ)))

namespace Plan

def query? : Plan κ η → Option (Query κ)
  | .ask q _ => some q
  | .act _ => none

/-- The instructions of an answer are emitted as they are. -/
def perform (c : Compiler κ η) (s : Scope) : Plan κ η → CompileM κ η (Parts κ × List (Instruction κ))
  | .ask q rest => do
    let (v, code) ← q.answer c s
    return (some v :: rest, code)
  | .act x => x

end Plan

namespace Visit

/-- What a visit is about to do. This is settled without the host and the evaluator of the compiler, so
they are reached by what is asked and in no other way. -/
def plan (options : Options) (s : Scope) (kind : DeclKind) (v : Visit) (parts : Parts κ) : Plan κ η :=
  match v, parts with
  | .enter depth _, _ =>
    .act (if options.maxPatternDepth ≤ depth then throw (.of (.patternTooDeep options.maxPatternDepth))
      else return (parts, []))
  | .refuse cause _, _ => .act (throw (.of cause))
  | .identifier id, init :: rest => .act do return (rest, ← options.alone.declareIdentifier s kind id init)
  | .array _, init :: _ => .act do
    let _ ← Compiler.arrayObject init
    return (parts, [])
  | .element index _, some (.object _ o) :: _ =>
    match o.get? index.repr with
    | none => .act (throw (.of (.missingIndex index)))
    | some v => .act (return (some v :: parts, []))
  | .object _, none :: _ => .act (throw (.of (.missingInitializer "object")))
  | .object _, some v :: rest => .ask (.consume v) rest
  | .key expr computed _, _ =>
    match expr.plainKey? computed with
    | some name => .act do return (some (← newLiteral (.string name)) :: parts, [])
    | none => .ask (.consumeExpr expr) parts
  | .member _, some k :: some consumed :: rest => .ask (.getMember consumed k) (some consumed :: rest)
  | .leave, _ :: rest => .act (return (rest, []))
  | _, _ => .act (throw (.of (.missingInitializer "empty")))

/-- The parts that a visit needs are there. -/
inductive Fits : Visit → Parts κ → Prop
  | enter (depth : Nat) (span : Span) (parts : Parts κ) : Fits (.enter depth span) parts
  | refuse (cause : Cause) (span : Span) (parts : Parts κ) : Fits (.refuse cause span) parts
  | identifier (id : Identifier) (init : Option (Value κ)) (rest : Parts κ) : Fits (.identifier id) (init :: rest)
  | array (span : Span) (init : Option (Value κ)) (rest : Parts κ) : Fits (.array span) (init :: rest)
  | element (index : Nat) (span : Span) (id : Nat) (o : Object κ (Value κ)) (rest : Parts κ) :
      Fits (.element index span) (some (.object id o) :: rest)
  | object (span : Span) (init : Option (Value κ)) (rest : Parts κ) : Fits (.object span) (init :: rest)
  | key (expr : Expr) (computed : Bool) (span : Span) (parts : Parts κ) : Fits (.key expr computed span) parts
  | member (span : Span) (k consumed : Value κ) (rest : Parts κ) :
      Fits (.member span) (some k :: some consumed :: rest)
  | leave (init : Option (Value κ)) (rest : Parts κ) : Fits .leave (init :: rest)

section Steps

variable (c : Compiler κ η) (s : Scope) (kind : DeclKind) {v : Visit} {parts : Parts κ}

/-- A visit that lacks its parts fails without a place. -/
theorem step_of_not_fits (h : ¬ v.Fits parts) :
    v.step c s kind parts = throw (.of (.missingInitializer "empty")) := by
  cases v with
  | enter | refuse | key => exact absurd (by constructor) h
  | identifier | array | object | leave =>
    cases parts with
    | nil => rfl
    | cons => exact absurd (by constructor) h
  | element =>
    match parts with
    | some (.object ..) :: _ => exact absurd (by constructor) h
    | [] | none :: _ => rfl
    | some (.void _) :: _ | some (.literal ..) :: _ | some (.store ..) :: _ | some (.function ..) :: _ => rfl
  | member =>
    match parts with
    | some _ :: some _ :: _ => exact absurd (by constructor) h
    | [] | [some _] | none :: _ | some _ :: none :: _ => rfl

/-- Any other visit does what is planned and gives it a place. -/
theorem step_eq_perform (h : v.Fits parts) :
    v.step c s kind parts = (do
      let (parts', code) ← locating v.place ((v.plan c.options s kind parts).perform c s)
      return (parts', code.map (·.withSource v.place))) := by
  have hask : ∀ (q : Query κ) (rest : Parts κ), (do
      let (u, code) ← locating v.place (q.answer c s)
      return (some u :: rest, code.map (·.withSource v.place)) : CompileM κ η _) = (do
      let (parts', code) ← locating v.place ((Plan.ask q rest : Plan κ η).perform c s)
      return (parts', code.map (·.withSource v.place))) := by
    intro q rest
    simp only [Plan.perform, locating_bind, locating_pure, bind_assoc, pure_bind]
  cases h with
  | enter depth span =>
    simp only [step, plan, Plan.perform, place]
    split <;> rfl
  | refuse | leave => rfl
  | identifier id init rest =>
    simp only [step, plan, Plan.perform, place, attributing, locating_bind, locating_pure, bind_assoc, pure_bind]
    rfl
  | array span init rest =>
    simp only [step, plan, Plan.perform, place, locating_bind, locating_pure, bind_assoc, pure_bind, List.map_nil]
  | element index span id o rest =>
    simp only [step, plan]
    cases o.get? index.repr <;> rfl
  | object span init rest =>
    cases init with
    | none => rfl
    | some v => exact hask (.consume v) rest
  | key expr computed span =>
    simp only [step, plan, place, c.propertyKey_eq]
    cases expr.plainKey? computed with
    | some name => rfl
    | none => exact hask (.consumeExpr expr) parts
  | member span k consumed rest => exact hask (.getMember consumed k) (some consumed :: rest)

end Steps

end Visit

/-! ### Courses -/

/-- One visit of a course: what it asked, and the instructions that it emitted, before they got places. -/
structure Event (κ : Type) where
  visit : Visit
  query : Option (Query κ)
  code : List (Instruction κ)

/-- The instructions of an event in their places. -/
def Event.emitted (e : Event κ) : List (Instruction κ) := e.code.map (·.placed e.visit.place)

/-- Where the instructions of an event come from: setting the variable of an identifier, consuming the value
of an object pattern, the key of a property, or its member. -/
inductive Event.Emits (c : Compiler κ η) (s : Scope) : Event κ → Prop
  | nothing {v : Visit} (h : v.queryForm? = none) : Emits c s ⟨v, none, []⟩
  | leaf (id : Identifier) (store v : Value κ) : Emits c s ⟨.identifier id, none, [.set store v]⟩
  | consume (span : Span) {v u : Value κ} {code : List (Instruction κ)} {w w' : CompileState κ η}
      (h : v.consume c.host s w = .ok (u, code) w') : Emits c s ⟨.object span, some (.consume v), code⟩
  | key {computed : Bool} (span : Span) {e : Expr} {u : Value κ} {code : List (Instruction κ)}
      {w w' : CompileState κ η} (hkey : e.plainKey? computed = none)
      (h : c.evaluator.consume s e w = .ok (u, code) w') :
      Emits c s ⟨.key e computed span, some (.consumeExpr e), code⟩
  | member (span : Span) {v k u : Value κ} {code : List (Instruction κ)} {w w' : CompileState κ η}
      (h : v.getMember c.host s k w = .ok (u, code) w') : Emits c s ⟨.member span, some (.getMember v k), code⟩

/-- Why a visit fails. The errors that are not those of an answer have no place yet. -/
inductive Event.Fails (c : Compiler κ η) (s : Scope) : Event κ → CompileError → Prop
  | tooDeep (depth : Nat) (span : Span) :
      Fails c s ⟨.enter depth span, none, []⟩ (.of (.patternTooDeep c.options.maxPatternDepth))
  | refused (cause : Cause) (span : Span) : Fails c s ⟨.refuse cause span, none, []⟩ (.of cause)
  | binding (id : Identifier) {cause : Cause}
      (h : cause ∈ [.uninitializedConstant, .macroBinding, .alreadyDeclared id.name]) :
      Fails c s ⟨.identifier id, none, []⟩ (.of cause)
  | array (span : Span) {cause : Cause} (h : cause ∈ [.missingInitializer "array", .notMacro, .notObject]) :
      Fails c s ⟨.array span, none, []⟩ (.of cause)
  | element (index : Nat) (span : Span) : Fails c s ⟨.element index span, none, []⟩ (.of (.missingIndex index))
  | object (span : Span) : Fails c s ⟨.object span, none, []⟩ (.of (.missingInitializer "object"))
  | consume (span : Span) {v : Value κ} {e : CompileError} {w w' : CompileState κ η}
      (h : v.consume c.host s w = .error e w') : Fails c s ⟨.object span, some (.consume v), []⟩ e
  | key {computed : Bool} (span : Span) {expr : Expr} {e : CompileError} {w w' : CompileState κ η}
      (hkey : expr.plainKey? computed = none) (h : c.evaluator.consume s expr w = .error e w') :
      Fails c s ⟨.key expr computed span, some (.consumeExpr expr), []⟩ e
  | member (span : Span) {v k : Value κ} {e : CompileError} {w w' : CompileState κ η}
      (h : v.getMember c.host s k w = .error e w') : Fails c s ⟨.member span, some (.getMember v k), []⟩ e

namespace Visit

section Course

variable (c : Compiler κ η) (s : Scope) (kind : DeclKind)

/-- The events of a run and how it ends. If it fails, the last event is the visit that failed. -/
def course : List Visit → Parts κ → CompileState κ η →
    List (Event κ) × EStateM.Result CompileError (CompileState κ η) (Parts κ)
  | [], parts, w => ([], .ok parts w)
  | v :: rest, parts, w =>
    let plan : Plan κ η := v.plan c.options s kind parts
    match plan.perform c s w with
    | .ok (parts', code) w' =>
      let (events, result) := course rest parts' w'
      (⟨v, plan.query?, code⟩ :: events, result)
    | .error e w' => ([⟨v, plan.query?, []⟩], .error e w')

/-- The run goes as its course tells. Each instruction has the place of its visit, unless it came with one,
and so has the error. The visits of the course are those of the run, up to the one that fails. -/
def Follows (visits : List Visit) (parts : Parts κ) (w : CompileState κ η) : Prop :=
  match course c s kind visits parts w with
  | (events, .ok parts' w') =>
    run c s kind visits parts w = .ok (parts', events.flatMap Event.emitted) w' ∧
      events.map (·.visit) = visits ∧ ∀ event ∈ events, event.Emits c s
  | (events, .error e w') =>
    ∃ done last, events = done ++ [last] ∧
      run c s kind visits parts w = .error (e.placed last.visit.place) w' ∧
      events.map (·.visit) <+: visits ∧ (∀ event ∈ done, event.Emits c s) ∧ last.Fails c s e

end Course

variable {c : Compiler κ η} {s : Scope} {kind : DeclKind} {v : Visit} {visits : List Visit} {parts parts' : Parts κ}
  {w w' : CompileState κ η} {code : List (Instruction κ)} {e : CompileError}

/-- What a visit emits when it succeeds, and why it fails. -/
theorem yields_perform (h : v.Fits parts) (w : CompileState κ η) :
    Yields ((v.plan c.options s kind parts).perform c s) w
      (fun r _ => Event.Emits c s ⟨v, (v.plan c.options s kind parts : Plan κ η).query?, r.2⟩)
      (fun e _ => Event.Fails c s ⟨v, (v.plan c.options s kind parts : Plan κ η).query?, []⟩ e) := by
  cases h with
  | enter depth span =>
    simp only [plan, Plan.perform]
    split
    · exact .tooDeep depth span
    · exact .nothing rfl
  | refuse cause span => exact .refused cause span
  | leave => exact .nothing rfl
  | identifier id init rest =>
    simp only [plan, Plan.perform, Plan.query?, yields_bind, yields_pure]
    unfold Yields
    split
    next code w' h =>
      obtain ⟨-, ⟨v, -, -, -, rfl, -⟩ | ⟨-, -, rfl, -⟩ | ⟨v, -, -, rfl, -⟩⟩ := Compiler.declareIdentifier_ok h
      · exact .nothing rfl
      · exact .nothing rfl
      · exact .leaf id _ v
    next e w' h =>
      obtain ⟨cause, hcause, rfl⟩ := Compiler.declareIdentifier_cause h
      exact .binding id hcause
  | array span init rest =>
    simp only [plan, Plan.perform, Plan.query?, yields_bind, yields_pure]
    cases init with
    | none => exact .array span (by simp)
    | some v =>
      cases v with
      | object => exact .nothing rfl
      | void | literal | store | function => exact .array span (by simp [Value.isMacro])
  | element index span id o rest =>
    simp only [plan]
    cases o.get? index.repr with
    | none => exact .element index span
    | some v => exact .nothing rfl
  | object span init rest =>
    cases init with
    | none => exact .object span
    | some v =>
      simp only [plan, Plan.perform, Plan.query?, Query.answer, yields_bind, yields_pure]
      unfold Yields
      split
      next h => exact .consume span h
      next h => exact .consume span h
  | key expr computed span =>
    simp only [plan]
    cases hkey : expr.plainKey? computed with
    | some name => exact .nothing (by simp [queryForm?, hkey])
    | none =>
      simp only [Plan.perform, Plan.query?, Query.answer, yields_bind, yields_pure]
      unfold Yields
      split
      next h => exact .key span hkey h
      next h => exact .key span hkey h
  | member span k consumed rest =>
    simp only [plan, Plan.perform, Plan.query?, Query.answer, yields_bind, yields_pure]
    unfold Yields
    split
    next h => exact .member span h
    next h => exact .member span h

theorem course_of_ok (h : (v.plan c.options s kind parts).perform c s w = .ok (parts', code) w') :
    course c s kind (v :: visits) parts w =
      (⟨v, (v.plan c.options s kind parts : Plan κ η).query?, code⟩ :: (course c s kind visits parts' w').1,
        (course c s kind visits parts' w').2) := by
  simp only [course, h]

theorem course_of_error (h : (v.plan c.options s kind parts).perform c s w = .error e w') :
    course c s kind (v :: visits) parts w =
      ([⟨v, (v.plan c.options s kind parts : Plan κ η).query?, []⟩], .error e w') := by
  simp only [course, h]

/-- A visit that succeeds comes before the course of the others. -/
theorem Follows.cons (hfits : v.Fits parts)
    (hperform : (v.plan c.options s kind parts).perform c s w = .ok (parts', code) w')
    (hstep : v.step c s kind parts w = .ok (parts', code.map (·.placed v.place)) w')
    (hrest : Follows c s kind visits parts' w') : Follows c s kind (v :: visits) parts w := by
  have hemits := (yields_perform hfits w).of_ok hperform
  unfold Follows at hrest ⊢
  rw [course_of_ok hperform, run_cons, bind_of_ok hstep]
  rcases hcourse : course c s kind visits parts' w' with ⟨events, result⟩
  rw [hcourse] at hrest
  cases result with
  | ok parts'' w'' =>
    obtain ⟨hrun, hvisits, hevents⟩ := hrest
    refine ⟨bind_of_ok hrun _, ?_, List.forall_mem_cons.2 ⟨hemits, hevents⟩⟩
    rw [List.map_cons, hvisits]
  | error e w'' =>
    obtain ⟨done, last, rfl, hrun, hvisits, hdone, hlast⟩ := hrest
    refine ⟨_ :: done, last, rfl, bind_of_error hrun _, ?_, List.forall_mem_cons.2 ⟨hemits, hdone⟩, hlast⟩
    rw [List.map_cons]
    exact List.cons_prefix_cons.2 ⟨rfl, hvisits⟩

/-- A visit that fails ends the course. -/
theorem Follows.stop (hfits : v.Fits parts)
    (hperform : (v.plan c.options s kind parts).perform c s w = .error e w')
    (hstep : v.step c s kind parts w = .error (e.placed v.place) w') :
    Follows c s kind (v :: visits) parts w := by
  unfold Follows
  rw [course_of_error hperform]
  refine ⟨[], _, rfl, ?_, ?_, List.forall_mem_nil _, (yields_perform hfits w).of_error hperform⟩
  · rw [run_cons, bind_of_error hstep]
  · exact List.cons_prefix_cons.2 ⟨rfl, List.nil_prefix⟩

/-- A run follows its course, as long as it does not lack parts. -/
theorem follows_course (hlacks : ∀ e w', run c s kind visits parts w = .error e w' → e.spans ≠ []) :
    Follows c s kind visits parts w := by
  induction visits generalizing parts w with
  | nil => exact ⟨rfl, rfl, List.forall_mem_nil _⟩
  | cons v rest ih =>
    by_cases hfits : v.Fits parts
    · have hstep := step_eq_perform c s kind hfits
      cases hperform : (v.plan c.options s kind parts).perform c s w with
      | error e w' =>
        have hlocated : locating v.place ((v.plan c.options s kind parts).perform c s) w =
            .error (e.placed v.place) w' := by
          rw [locating, hperform, ← e.withSpan_eq_placed]
        refine .stop hfits hperform ?_
        rw [hstep]
        exact bind_of_error hlocated _
      | ok r w' =>
        obtain ⟨parts', code⟩ := r
        have hlocated : locating v.place ((v.plan c.options s kind parts).perform c s) w = .ok (parts', code) w' := by
          rw [locating, hperform]
        have hcode : code.map (·.withSource v.place) = code.map (·.placed v.place) :=
          List.map_congr_left fun i _ => i.withSource_eq_placed v.place
        have hok : v.step c s kind parts w = .ok (parts', code.map (·.placed v.place)) w' := by
          rw [hstep, bind_of_ok hlocated, ← hcode]
          rfl
        refine .cons hfits hperform hok (ih fun e w'' hrest => hlacks e w'' ?_)
        rw [run_cons, bind_of_ok hok]
        exact bind_of_error hrest _
    · refine absurd rfl (hlacks (.of (.missingInitializer "empty")) w ?_)
      rw [run_cons, step_of_not_fits c s kind hfits]
      rfl

end Visit

/-- A declaration goes as the course of the visits of its pattern tells. -/
theorem Compiler.declare_follows_course (c : Compiler κ η) (s : Scope) (kind : DeclKind) (p : Pattern)
    (init : Option (Value κ)) (w : CompileState κ η) : Visit.Follows c s kind (p.visits 0) [init] w := by
  refine Visit.follows_course fun e w' h => ?_
  have hdeclare : c.declare s kind p init w = .error e w' := by
    rw [declare_eq_run]
    exact map_of_error h _
  exact (c.declareAt_attributed s kind 0 p init w).of_error hdeclare

end DeclCompiler
