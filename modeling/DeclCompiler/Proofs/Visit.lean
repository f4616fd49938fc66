import DeclCompiler.Proofs.Outcome

/-!
Declaring a pattern as a flat sequence of visits.

The visits of a pattern are known before anything is compiled: they are listed in source order, and
each has the place that its errors and instructions are attributed to. Running them one after another
on the stack of the values that are being taken apart is the same as declaring the pattern, so what
holds of every visit and is kept from one visit to the next holds of declarations.
-/

namespace DeclCompiler

variable {κ η : Type}

inductive Visit
  /-- Comes to a pattern that stands under `depth` others. -/
  | enter (depth : Nat) (span : Span)
  | refuse (cause : Cause) (span : Span)
  /-- Declares an identifier for the innermost value. -/
  | identifier (id : Identifier)
  /-- Makes sure that the innermost value can be taken apart by position. -/
  | array (span : Span)
  | element (index : Nat) (span : Span)
  /-- Consumes the innermost value. -/
  | object (span : Span)
  | key (expr : Expr) (computed : Bool) (span : Span)
  /-- Reads the member under the key that was found last. -/
  | member (span : Span)
  | leave

/-! ### The visits of a pattern -/

mutual

def Pattern.visits (depth : Nat) (p : Pattern) : List Visit :=
  .enter depth p.span ::
    match p with
    | .identifier id => [.identifier id]
    | .array elements span => .array span :: (Pattern.elementsVisits (depth + 1) 0 elements ++ [.leave])
    | .object properties span => .object span :: (Pattern.propertiesVisits (depth + 1) properties ++ [.leave])
    | .assignment .. | .rest .. | .member _ => [.refuse (.unsupportedPattern p.kindName) p.span]
termination_by structural p

def Pattern.elementsVisits (depth index : Nat) (elements : List (Option Pattern)) : List Visit :=
  match elements with
  | [] => []
  | element :: rest => Pattern.elementVisits depth index element ++ Pattern.elementsVisits depth (index + 1) rest
termination_by structural elements

def Pattern.elementVisits (depth index : Nat) (element : Option Pattern) : List Visit :=
  match element with
  | none => []
  | some p => .element index p.span :: p.visits depth
termination_by structural element

def Pattern.propertiesVisits (depth : Nat) (properties : List Property) : List Visit :=
  match properties with
  | [] => []
  | property :: rest => property.visits depth ++ Pattern.propertiesVisits depth rest
termination_by structural properties

def Property.visits (depth : Nat) (property : Property) : List Visit :=
  match property with
  | .rest _ span => [.refuse .restNotSupported span]
  | .keyed key p computed span => .key key computed span :: .member span :: p.visits depth
termination_by structural property

end

/-! ### The identifiers of a pattern -/

mutual

/-- The identifiers that a pattern declares, from left to right. Keys declare nothing, and neither do
patterns of a form that is refused. -/
def Pattern.identifiers (p : Pattern) : List Identifier :=
  match p with
  | .identifier id => [id]
  | .array elements _ => Pattern.elementsIdentifiers elements
  | .object properties _ => Pattern.propertiesIdentifiers properties
  | .assignment .. | .rest .. | .member _ => []
termination_by structural p

def Pattern.elementsIdentifiers (elements : List (Option Pattern)) : List Identifier :=
  match elements with
  | [] => []
  | element :: rest => Pattern.elementIdentifiers element ++ Pattern.elementsIdentifiers rest
termination_by structural elements

def Pattern.elementIdentifiers (element : Option Pattern) : List Identifier :=
  match element with
  | none => []
  | some p => p.identifiers
termination_by structural element

def Pattern.propertiesIdentifiers (properties : List Property) : List Identifier :=
  match properties with
  | [] => []
  | property :: rest => property.identifiers ++ Pattern.propertiesIdentifiers rest
termination_by structural properties

def Property.identifiers (property : Property) : List Identifier :=
  match property with
  | .rest .. => []
  | .keyed _ p _ _ => p.identifiers
termination_by structural property

end

namespace Visit

def identifier? : Visit → Option Identifier
  | .identifier id => some id
  | _ => none

def identifiers (visits : List Visit) : List Identifier := visits.filterMap identifier?

theorem identifiers_cons (v : Visit) (rest : List Visit) :
    identifiers (v :: rest) = v.identifier?.toList ++ identifiers rest := by
  unfold identifiers
  rw [List.filterMap_cons]
  cases v.identifier? <;> rfl

theorem identifiers_append (visits more : List Visit) :
    identifiers (visits ++ more) = identifiers visits ++ identifiers more := List.filterMap_append

/-- What frames the parts of a pattern declares nothing by itself. -/
theorem identifiers_frame (depth : Nat) (span : Span) (v : Visit) (hv : v.identifier? = none) (inner : List Visit) :
    identifiers (.enter depth span :: v :: (inner ++ [.leave])) = identifiers inner := by
  unfold identifiers
  rw [List.filterMap_cons_none rfl, List.filterMap_cons_none hv, List.filterMap_append]
  exact List.append_nil _

end Visit

mutual

/-- The identifiers of a pattern are visited from left to right. -/
theorem Pattern.identifiers_visits (p : Pattern) (depth : Nat) :
    Visit.identifiers (p.visits depth) = p.identifiers := by
  match p with
  | .identifier id => rfl
  | .array elements span =>
    rw [Pattern.visits, Visit.identifiers_frame _ _ _ rfl, Pattern.identifiers]
    exact Pattern.identifiers_elementsVisits elements (depth + 1) 0
  | .object properties span =>
    rw [Pattern.visits, Visit.identifiers_frame _ _ _ rfl, Pattern.identifiers]
    exact Pattern.identifiers_propertiesVisits properties (depth + 1)
  | .assignment .. | .rest .. | .member _ => rfl
termination_by structural p

theorem Pattern.identifiers_elementsVisits (elements : List (Option Pattern)) (depth index : Nat) :
    Visit.identifiers (Pattern.elementsVisits depth index elements) = Pattern.elementsIdentifiers elements := by
  match elements with
  | [] => rfl
  | element :: rest =>
    have ih := Pattern.identifiers_elementVisits element depth index
    have ih' := Pattern.identifiers_elementsVisits rest depth (index + 1)
    rw [Pattern.elementsVisits, Visit.identifiers_append, ih, ih', Pattern.elementsIdentifiers]
termination_by structural elements

theorem Pattern.identifiers_elementVisits (element : Option Pattern) (depth index : Nat) :
    Visit.identifiers (Pattern.elementVisits depth index element) = Pattern.elementIdentifiers element := by
  match element with
  | none => rfl
  | some p => exact Pattern.identifiers_visits p depth
termination_by structural element

theorem Pattern.identifiers_propertiesVisits (properties : List Property) (depth : Nat) :
    Visit.identifiers (Pattern.propertiesVisits depth properties) = Pattern.propertiesIdentifiers properties := by
  match properties with
  | [] => rfl
  | property :: rest =>
    have ih := Property.identifiers_visits property depth
    have ih' := Pattern.identifiers_propertiesVisits rest depth
    rw [Pattern.propertiesVisits, Visit.identifiers_append, ih, ih', Pattern.propertiesIdentifiers]
termination_by structural properties

theorem Property.identifiers_visits (property : Property) (depth : Nat) :
    Visit.identifiers (property.visits depth) = property.identifiers := by
  match property with
  | .rest .. => rfl
  | .keyed _ p _ _ => exact Pattern.identifiers_visits p depth
termination_by structural property

end

/-! ### Running visits -/

/-- The values that are being taken apart, the innermost first. Only a whole declaration can be
without an initial value. -/
abbrev Parts (κ : Type) := List (Option (Value κ))

namespace Visit

variable (c : Compiler κ η) (s : Scope) (kind : DeclKind)

/-- The last case does not occur, as the visits of a pattern find the parts that they need. -/
def step (v : Visit) (parts : Parts κ) : CompileM κ η (Parts κ × List (Instruction κ)) :=
  match v, parts with
  | .enter depth span, _ =>
    if c.options.maxPatternDepth ≤ depth then throw ⟨.patternTooDeep c.options.maxPatternDepth, [span]⟩
    else return (parts, [])
  | .refuse cause span, _ => throw ⟨cause, [span]⟩
  | .identifier id, init :: rest => do
    return (rest, ← attributing id.span (c.declareIdentifier s kind id init))
  | .array span, init :: _ => do
    let _ ← locating span (Compiler.arrayObject init)
    return (parts, [])
  | .element index span, some (.object _ o) :: _ =>
    match o.get? index.repr with
    | none => throw ⟨.missingIndex index, [span]⟩
    | some v => return (some v :: parts, [])
  | .object span, none :: _ => throw ⟨.missingInitializer "object", [span]⟩
  | .object span, some v :: rest => do
    let (consumed, code) ← locating span (v.consume c.host s)
    return (some consumed :: rest, code.map (·.withSource span))
  | .key expr computed span, _ => do
    let (k, code) ← locating span (c.propertyKey s expr computed)
    return (some k :: parts, code.map (·.withSource span))
  | .member span, some k :: some consumed :: rest => do
    let (v, code) ← locating span (consumed.getMember c.host s k)
    return (some v :: some consumed :: rest, code.map (·.withSource span))
  | .leave, _ :: rest => return (rest, [])
  | _, _ => throw (.of (.missingInitializer "empty"))

/-- Runs visits in order and stops at the first that fails. -/
def run : List Visit → Parts κ → CompileM κ η (Parts κ × List (Instruction κ))
  | [], parts => return (parts, [])
  | v :: rest, parts => do
    let (parts', code) ← v.step c s kind parts
    let (parts'', more) ← run rest parts'
    return (parts'', code ++ more)

@[simp] theorem run_nil (parts : Parts κ) : run c s kind [] parts = (pure (parts, []) : CompileM κ η _) := rfl

theorem run_cons (v : Visit) (rest : List Visit) (parts : Parts κ) :
    run c s kind (v :: rest) parts = (do
      let (parts', code) ← v.step c s kind parts
      let (parts'', more) ← run c s kind rest parts'
      return (parts'', code ++ more)) := rfl

theorem run_append (visits more : List Visit) (parts : Parts κ) :
    run c s kind (visits ++ more) parts = (do
      let (parts', code) ← run c s kind visits parts
      let (parts'', rest) ← run c s kind more parts'
      return (parts'', code ++ rest)) := by
  induction visits generalizing parts with
  | nil => simp
  | cons v visits ih => simp [run_cons, ih]

/-- A run that fails stops at the first visit that fails. -/
theorem run_eq_error {visits : List Visit} {parts : Parts κ} {e : CompileError} {w w' : CompileState κ η}
    (h : run c s kind visits parts w = .error e w') :
    ∃ done v rest parts' code w₁, visits = done ++ v :: rest ∧ run c s kind done parts w = .ok (parts', code) w₁ ∧
      v.step c s kind parts' w₁ = .error e w' := by
  induction visits generalizing w parts with
  | nil => cases h
  | cons v rest ih =>
    rw [run_cons] at h
    cases hstep : v.step c s kind parts w with
    | error e' w₁ =>
      rw [bind_of_error hstep] at h
      cases h
      exact ⟨[], v, rest, parts, [], w, rfl, rfl, hstep⟩
    | ok r w₁ =>
      obtain ⟨parts₁, code₁⟩ := r
      rw [bind_of_ok hstep] at h
      dsimp only at h
      cases hrest : run c s kind rest parts₁ w₁ with
      | ok r' w₂ =>
        rw [bind_of_ok hrest] at h
        cases h
      | error e' w₂ =>
        rw [bind_of_error hrest] at h
        cases h
        obtain ⟨done, v', rest', parts', code, w₃, rfl, hdone, hfail⟩ := ih hrest
        refine ⟨v :: done, v', rest', parts', code₁ ++ code, w₃, rfl, ?_, hfail⟩
        rw [run_cons, bind_of_ok hstep]
        exact bind_of_ok hdone _

end Visit

/-! ### Declarations are runs of visits -/

namespace Compiler

variable (c : Compiler κ η) (s : Scope) (kind : DeclKind)

theorem declareAt_attributed (depth : Nat) (p : Pattern) (init : Option (Value κ)) :
    Attributed (c.declareAt s kind depth p init) := by
  rw [declareAt.eq_def]
  split
  · exact Attributed.throw (by simp)
  · exact Attributed.of_attributing _ _

theorem declareElement_attributed (depth : Nat) (o : Object κ (Value κ)) (index : Nat) (element : Option Pattern) :
    Attributed (c.declareElement s kind depth o index element) := by
  rw [declareElement.eq_def]
  cases element with
  | none => exact Attributed.pure_nil
  | some p =>
    dsimp only
    split
    · exact Attributed.throw (by simp)
    · exact c.declareAt_attributed s kind depth p _

theorem declareElements_attributed (depth : Nat) (o : Object κ (Value κ)) (index : Nat)
    (elements : List (Option Pattern)) : Attributed (c.declareElements s kind depth o index elements) := by
  induction elements generalizing index with
  | nil => exact Attributed.pure_nil
  | cons element rest ih =>
    rw [declareElements.eq_def]
    exact (c.declareElement_attributed s kind depth o index element).append (ih (index + 1))

theorem declareProperty_attributed (depth : Nat) (consumed : Value κ) (property : Property) :
    Attributed (c.declareProperty s kind depth consumed property) := by
  rw [declareProperty.eq_def]
  cases property with
  | rest _ span => exact Attributed.throw (by simp)
  | keyed => exact Attributed.of_attributing _ _

theorem declareProperties_attributed (depth : Nat) (consumed : Value κ) (properties : List Property) :
    Attributed (c.declareProperties s kind depth consumed properties) := by
  induction properties with
  | nil => exact Attributed.pure_nil
  | cons property rest ih =>
    rw [declareProperties.eq_def]
    exact (c.declareProperty_attributed s kind depth consumed property).append ih

open Visit (run run_cons run_append step)

theorem run_enter (depth : Nat) (span : Span) (rest : List Visit) (parts : Parts κ) :
    run c s kind (.enter depth span :: rest) parts =
      if c.options.maxPatternDepth ≤ depth then throw ⟨.patternTooDeep c.options.maxPatternDepth, [span]⟩
      else run c s kind rest parts := by
  rw [run_cons, step]
  split <;> simp

theorem run_refuse (cause : Cause) (span : Span) (rest : List Visit) (parts : Parts κ) :
    run c s kind (.refuse cause span :: rest) parts = throw ⟨cause, [span]⟩ := rfl

theorem run_leave (init : Option (Value κ)) (parts : Parts κ) :
    run c s kind [.leave] (init :: parts) = pure (parts, []) := by
  simp [run_cons, step]

mutual

theorem run_visits (p : Pattern) (depth : Nat) (init : Option (Value κ)) (parts : Parts κ) :
    run c s kind (p.visits depth) (init :: parts) = (do return (parts, ← c.declareAt s kind depth p init)) := by
  rw [Pattern.visits.eq_def, run_enter, Compiler.declareAt.eq_def]
  split
  · rfl
  match p with
  | .identifier id => simp [run_cons, step, Pattern.span]
  | .array elements span =>
    match init with
    | some (.object id o) =>
      have helements := (c.declareElements_attributed s kind (depth + 1) o 0 elements).attributing_eq span
      have ih := run_elementsVisits elements (depth + 1) 0 id o parts
      simp [run_cons, step, Pattern.span, arrayObject, helements, run_append, ih]
    | none | some (.void _) | some (.literal ..) | some (.store ..) | some (.function ..) => rfl
  | .object properties span =>
    match init with
    | none => rfl
    | some v =>
      simp only [run_cons, step, Pattern.span, bind_assoc]
      rw [attributing_bind, bind_assoc]
      refine bind_congr fun ⟨consumed, code⟩ => ?_
      have hproperties := c.declareProperties_attributed s kind (depth + 1) consumed properties
      have ih := run_propertiesVisits properties (depth + 1) consumed parts
      simp only [pure_bind, attributing_append hproperties, run_append, ih, bind_assoc, run_leave,
        List.append_nil]
  | .assignment .. | .rest .. | .member _ => rfl
termination_by structural p

theorem run_elementsVisits (elements : List (Option Pattern)) (depth index id : Nat) (o : Object κ (Value κ))
    (parts : Parts κ) :
    run c s kind (Pattern.elementsVisits depth index elements) (some (.object id o) :: parts) =
      (do return (some (.object id o) :: parts, ← c.declareElements s kind depth o index elements)) := by
  match elements with
  | [] => simp [Pattern.elementsVisits, declareElements]
  | element :: rest =>
    have ih := run_elementVisits element depth index id o parts
    have ih' := run_elementsVisits rest depth (index + 1) id o parts
    simp [Pattern.elementsVisits, declareElements, run_append, ih, ih']
termination_by structural elements

theorem run_elementVisits (element : Option Pattern) (depth index id : Nat) (o : Object κ (Value κ))
    (parts : Parts κ) :
    run c s kind (Pattern.elementVisits depth index element) (some (.object id o) :: parts) =
      (do return (some (.object id o) :: parts, ← c.declareElement s kind depth o index element)) := by
  match element with
  | none => simp [Pattern.elementVisits, declareElement]
  | some p =>
    rw [Pattern.elementVisits, declareElement, run_cons, step]
    cases o.get? index.repr with
    | none => rfl
    | some v => simp [run_visits p depth (some v)]
termination_by structural element

theorem run_propertiesVisits (properties : List Property) (depth : Nat) (consumed : Value κ) (parts : Parts κ) :
    run c s kind (Pattern.propertiesVisits depth properties) (some consumed :: parts) =
      (do return (some consumed :: parts, ← c.declareProperties s kind depth consumed properties)) := by
  match properties with
  | [] => simp [Pattern.propertiesVisits, declareProperties]
  | property :: rest =>
    have ih := run_propertyVisits property depth consumed parts
    have ih' := run_propertiesVisits rest depth consumed parts
    simp [Pattern.propertiesVisits, declareProperties, run_append, ih, ih']
termination_by structural properties

theorem run_propertyVisits (property : Property) (depth : Nat) (consumed : Value κ) (parts : Parts κ) :
    run c s kind (property.visits depth) (some consumed :: parts) =
      (do return (some consumed :: parts, ← c.declareProperty s kind depth consumed property)) := by
  match property with
  | .rest _ span => simp [Property.visits, declareProperty, run_refuse]
  | .keyed key p computed span =>
    rw [Property.visits, declareProperty, attributing_bind]
    simp only [run_cons, step, bind_assoc, pure_bind]
    refine bind_congr fun ⟨k, keyCode⟩ => ?_
    rw [attributing_bind, bind_assoc]
    refine bind_congr fun ⟨v, getCode⟩ => ?_
    have hp := c.declareAt_attributed s kind depth p (some v)
    have ih := run_visits p depth (some v) (some consumed :: parts)
    rw [attributing_append hp, ih]
    simp only [bind_assoc, pure_bind, List.map_append, List.append_assoc]

end

/-- A declaration runs the visits of its pattern on its initial value. -/
theorem declare_eq_run (p : Pattern) (init : Option (Value κ)) :
    c.declare s kind p init = Prod.snd <$> run c s kind (p.visits 0) [init] := by
  rw [run_visits, declare]
  simp

end Compiler

end DeclCompiler
