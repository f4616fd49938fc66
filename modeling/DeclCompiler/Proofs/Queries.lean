import DeclCompiler.Proofs.Contract
import DeclCompiler.Proofs.Course

/-!
What a declaration asks. It can be read off the pattern, in order: an object pattern consumes its value
once, and then each property has its key consumed, unless the key is a plain name, and its member read,
before its own pattern is declared. A declaration that succeeds has asked just this, and one that fails has
asked a first part of it. So an evaluator that keeps a record finds the keys in it, and patterns whose keys
are plain names do not depend on the evaluator at all.
-/

namespace DeclCompiler

variable {κ η : Type}

/-! ### The queries of a pattern -/

mutual

/-- What declaring a pattern asks, with the place where it is asked. -/
def Pattern.queries (p : Pattern) : List (Span × QueryForm) :=
  match p with
  | .array elements _ => Pattern.elementsQueries elements
  | .object properties span => (span, .consume) :: Pattern.propertiesQueries properties
  | .identifier _ | .assignment .. | .rest .. | .member _ => []
termination_by structural p

def Pattern.elementsQueries (elements : List (Option Pattern)) : List (Span × QueryForm) :=
  match elements with
  | [] => []
  | element :: rest => Pattern.elementQueries element ++ Pattern.elementsQueries rest
termination_by structural elements

def Pattern.elementQueries (element : Option Pattern) : List (Span × QueryForm) :=
  match element with
  | none => []
  | some p => p.queries
termination_by structural element

def Pattern.propertiesQueries (properties : List Property) : List (Span × QueryForm) :=
  match properties with
  | [] => []
  | property :: rest => property.queries ++ Pattern.propertiesQueries rest
termination_by structural properties

/-- The key comes before the member, and the member before the pattern. -/
def Property.queries (property : Property) : List (Span × QueryForm) :=
  match property with
  | .rest .. => []
  | .keyed key p computed span =>
    (if computed || key.identifier?.isNone then [(span, .consumeExpr key)] else []) ++
      (span, .getMember) :: p.queries
termination_by structural property

end

theorem Visit.queryForm?_key (key : Expr) (computed : Bool) (span : Span) :
    (Visit.key key computed span).queryForm?.toList =
      if computed || key.identifier?.isNone then [(span, .consumeExpr key)] else [] := by
  cases computed with
  | true => rfl
  | false => cases hname : key.identifier? <;> simp [Visit.queryForm?, Expr.plainKey?, hname]

/-- What a list of visits asks. -/
def Visit.queries (visits : List Visit) : List (Span × QueryForm) := visits.filterMap Visit.queryForm?

theorem Visit.queries_cons (v : Visit) (rest : List Visit) :
    Visit.queries (v :: rest) = v.queryForm?.toList ++ Visit.queries rest := by
  unfold Visit.queries
  rw [List.filterMap_cons]
  cases v.queryForm? <;> rfl

theorem Visit.queries_append (visits more : List Visit) :
    Visit.queries (visits ++ more) = Visit.queries visits ++ Visit.queries more := List.filterMap_append

/-- What frames the parts of a pattern asks nothing more. -/
theorem Visit.queries_frame (depth : Nat) (span : Span) (v : Visit) (inner : List Visit) :
    Visit.queries (.enter depth span :: v :: (inner ++ [.leave])) = v.queryForm?.toList ++ Visit.queries inner := by
  have hleave : Visit.queries [.leave] = [] := rfl
  rw [Visit.queries_cons, Visit.queries_cons, Visit.queries_append, hleave, List.append_nil]
  rfl

mutual

/-- The visits of a pattern ask what the pattern says. -/
theorem Pattern.queries_visits (p : Pattern) (depth : Nat) : Visit.queries (p.visits depth) = p.queries := by
  match p with
  | .identifier _ | .assignment .. | .rest .. | .member _ => rfl
  | .array elements span =>
    rw [Pattern.visits, Visit.queries_frame, Pattern.queries_elementsVisits elements (depth + 1) 0,
      Pattern.queries]
    rfl
  | .object properties span =>
    rw [Pattern.visits, Visit.queries_frame, Pattern.queries_propertiesVisits properties (depth + 1),
      Pattern.queries]
    rfl
termination_by structural p

theorem Pattern.queries_elementsVisits (elements : List (Option Pattern)) (depth index : Nat) :
    Visit.queries (Pattern.elementsVisits depth index elements) = Pattern.elementsQueries elements := by
  match elements with
  | [] => rfl
  | element :: rest =>
    have ih := Pattern.queries_elementVisits element depth index
    have ih' := Pattern.queries_elementsVisits rest depth (index + 1)
    rw [Pattern.elementsVisits, Visit.queries_append, ih, ih', Pattern.elementsQueries]
termination_by structural elements

theorem Pattern.queries_elementVisits (element : Option Pattern) (depth index : Nat) :
    Visit.queries (Pattern.elementVisits depth index element) = Pattern.elementQueries element := by
  match element with
  | none => rfl
  | some p => exact Pattern.queries_visits p depth
termination_by structural element

theorem Pattern.queries_propertiesVisits (properties : List Property) (depth : Nat) :
    Visit.queries (Pattern.propertiesVisits depth properties) = Pattern.propertiesQueries properties := by
  match properties with
  | [] => rfl
  | property :: rest =>
    have ih := Property.queries_visits property depth
    have ih' := Pattern.queries_propertiesVisits rest depth
    rw [Pattern.propertiesVisits, Visit.queries_append, ih, ih', Pattern.propertiesQueries]
termination_by structural properties

theorem Property.queries_visits (property : Property) (depth : Nat) :
    Visit.queries (property.visits depth) = property.queries := by
  match property with
  | .rest .. => rfl
  | .keyed key p computed span =>
    rw [Property.visits, Visit.queries_cons, Visit.queries_cons, Visit.queryForm?_key,
      Pattern.queries_visits p depth, Property.queries]
    rfl
termination_by structural property

end

/-! ### The queries of a course -/

/-- What an event asked, and where. -/
def Event.queried? (e : Event κ) : Option (Span × QueryForm) := e.query.map fun q => (e.visit.place, q.form)

variable {c : Compiler κ η} {s : Scope} {kind : DeclKind} {visits : List Visit} {w w' : CompileState κ η}

/-- An event that succeeds asked what its visit asks. -/
theorem Event.Emits.queried? {e : Event κ} (h : e.Emits c s) : e.queried? = e.visit.queryForm? := by
  cases h with
  | nothing h => exact h.symm
  | leaf | consume | member => rfl
  | key span hkey => simp [Event.queried?, Visit.queryForm?, hkey, Query.form, Visit.place]

/-- An event that fails asked the same, or it failed before it asked anything. -/
theorem Event.Fails.queried? {e : Event κ} {error : CompileError} (h : e.Fails c s error) :
    e.queried?.toList <+: e.visit.queryForm?.toList := by
  cases h with
  | tooDeep | refused | binding | array | element | object => exact List.nil_prefix
  | consume | member => exact List.prefix_rfl
  | key span hkey => simp [Event.queried?, Visit.queryForm?, hkey, Query.form, Visit.place]

theorem Event.queries_of_emits {events : List (Event κ)} (h : ∀ e ∈ events, e.Emits c s) :
    events.filterMap Event.queried? = Visit.queries (events.map (·.visit)) := by
  induction events with
  | nil => rfl
  | cons e rest ih =>
    obtain ⟨he, hrest⟩ := List.forall_mem_cons.1 h
    rw [List.map_cons, Visit.queries_cons, ← ih hrest, ← he.queried?, List.filterMap_cons]
    cases e.queried? <;> rfl

theorem Event.queries_of_fails {done : List (Event κ)} {last : Event κ} {error : CompileError}
    (hdone : ∀ e ∈ done, e.Emits c s) (hlast : last.Fails c s error)
    (hvisits : (done ++ [last]).map (·.visit) <+: visits) :
    (done ++ [last]).filterMap Event.queried? <+: Visit.queries visits := by
  obtain ⟨rest, rfl⟩ := hvisits
  have hsingle : [last].filterMap Event.queried? = last.queried?.toList := by
    rw [List.filterMap_cons]
    cases last.queried? <;> rfl
  rw [List.filterMap_append, Event.queries_of_emits hdone, hsingle, List.map_append, List.append_assoc,
    Visit.queries_append, List.prefix_append_right_inj]
  refine hlast.queried?.trans ?_
  rw [List.map_singleton, List.singleton_append, Visit.queries_cons]
  exact List.prefix_append ..

/-! ### Records -/

/-- Host code leaves this view of its state as it is. -/
def Host.Spares {α : Type} (host : Host κ η) (view : η → α) : Prop :=
  ∀ code s arguments w, Yields (host.invoke code s arguments) w
    (fun _ w' => view w'.host = view w.host) (fun _ w' => view w'.host = view w.host)

/-- The evaluator notes down what it is asked, whether it can answer or not. -/
structure Evaluator.Records (evaluator : Evaluator κ η) (log : η → List QueryForm) : Prop where
  eval : ∀ s e w, Yields (evaluator.eval s e) w (fun _ w' => log w'.host = log w.host ++ [.evaluate e])
    (fun _ w' => log w'.host = log w.host ++ [.evaluate e])
  consume : ∀ s e w, Yields (evaluator.consume s e) w (fun _ w' => log w'.host = log w.host ++ [.consumeExpr e])
    (fun _ w' => log w'.host = log w.host ++ [.consumeExpr e])

/-- The contract of everything but the evaluator: a view of the state of the host is left as it is. -/
def sparing {α : Type} (κ : Type) (view : η → α) : Contract κ η where
  valid _ := True
  knows _ _ := True
  knowsFn _ _ := True
  allows w _ w' := view w'.host = view w.host

theorem sparing_laws {α : Type} {view : η → α} : (sparing κ view).Laws where
  refl _ := rfl
  trans h h' := h'.trans h
  valid_next _ _ := trivial
  knows_next _ _ := trivial
  knows_member _ _ := trivial
  knows_handler _ _ := trivial
  knows_function _ := trivial
  literal _ hmake := by
    cases hmake
    exact ⟨rfl, trivial⟩
  temporary _ _ _ hmake _ := by
    cases hmake
    exact ⟨rfl, trivial⟩
  assign _ _ _ _ _ _ := rfl
  forget h := h
  withSource _ h := h

theorem Host.Spares.binds {α : Type} {host : Host κ η} {view : η → α} (h : host.Spares view) :
    (sparing κ view).Binds host :=
  fun _ code s arguments w _ _ _ =>
    (h code s arguments w).mono (fun _ _ h => ⟨h, fun _ _ => trivial⟩) (fun _ _ h => h)

/-- Declaring an identifier does not concern the host. -/
theorem Compiler.declareIdentifier_host (c : Compiler κ η) (s : Scope) (kind : DeclKind) (id : Identifier)
    (init : Option (Value κ)) (w : CompileState κ η) :
    Yields (c.declareIdentifier s kind id init) w (fun _ w' => w'.host = w.host) (fun _ w' => w'.host = w.host) := by
  unfold Yields
  split
  next code w' h =>
    obtain ⟨-, ⟨v, -, -, -, -, rfl⟩ | ⟨-, -, -, rfl⟩ | ⟨v, -, -, -, rfl⟩⟩ := declareIdentifier_ok h
    · rfl
    · rfl
    · unfold afterSet
      split <;> rfl
  next e w' h =>
    obtain rfl | rfl | ⟨-, -, rfl⟩ := declareIdentifier_error h <;> rfl

def QueryForm.key? : QueryForm → Option Expr
  | .consumeExpr e => some e
  | .evaluate _ | .consume | .getMember => none

/-- The keys that are consumed in a list of queries. -/
def keysAmong (queries : List (Span × QueryForm)) : List Expr := queries.filterMap fun q => q.2.key?

theorem keysAmong_append (queries more : List (Span × QueryForm)) :
    keysAmong (queries ++ more) = keysAmong queries ++ keysAmong more := List.filterMap_append

variable {log : η → List QueryForm} {parts : Parts κ}

/-- The record tells that the given keys were consumed, or the first of them if the action fails. -/
abbrev Notes {α : Type} (log : η → List QueryForm) (keys : List Expr) (x : CompileM κ η α)
    (w : CompileState κ η) : Prop :=
  Yields x w (fun _ w' => log w'.host = log w.host ++ keys.map .consumeExpr)
    (fun _ w' => ∃ asked, asked <+: keys ∧ log w'.host = log w.host ++ asked.map .consumeExpr)

/-- An action that does not concern the record notes nothing. -/
theorem Notes.of_spared {α : Type} {x : CompileM κ η α}
    (h : Yields x w (fun _ w' => log w'.host = log w.host) (fun _ w' => log w'.host = log w.host)) :
    Notes log [] x w :=
  h.mono (fun _ _ h => by simpa using h) (fun _ _ h => ⟨[], List.prefix_rfl, by simpa using h⟩)

/-- What a visit asks of the evaluator is to consume its key. -/
theorem Visit.perform_notes (hhost : c.host.Spares log) (hev : c.evaluator.Records log) {v : Visit}
    (hfits : v.Fits parts) (w : CompileState κ η) :
    Notes log (keysAmong v.queryForm?.toList) ((v.plan c.options s kind parts).perform c s) w := by
  cases hfits with
  | enter depth span =>
    simp only [plan, Plan.perform]
    split <;> exact .of_spared rfl
  | refuse | leave => exact .of_spared rfl
  | identifier id init rest =>
    refine .of_spared ?_
    simp only [plan, Plan.perform, yields_bind, yields_pure]
    exact (c.options.alone.declareIdentifier_host s kind id init w).mono (fun _ _ h => by rw [h])
      (fun _ _ h => by rw [h])
  | array span init rest =>
    refine .of_spared ?_
    simp only [plan, Plan.perform, yields_bind, yields_pure]
    cases init with
    | none => rfl
    | some v => cases v <;> rfl
  | element index span id o rest =>
    simp only [plan]
    cases o.get? index.repr <;> exact .of_spared rfl
  | object span init rest =>
    cases init with
    | none => exact .of_spared rfl
    | some v =>
      refine .of_spared ?_
      simp only [plan, Plan.perform, Query.answer, yields_bind, yields_pure]
      exact (sparing_laws.computes_consume hhost.binds trivial trivial).mono (fun _ _ h => h.1) (fun _ _ h => h)
  | key expr computed span =>
    simp only [plan, queryForm?]
    cases expr.plainKey? computed with
    | some name => exact .of_spared rfl
    | none =>
      simp only [Plan.perform, Query.answer, Notes, yields_bind, yields_pure]
      exact (hev.consume s expr w).mono (fun _ _ h => h) (fun _ _ h => ⟨_, List.prefix_rfl, h⟩)
  | member span k consumed rest =>
    refine .of_spared ?_
    simp only [plan, Plan.perform, Query.answer, yields_bind, yields_pure]
    exact (sparing_laws.computes_getMember hhost.binds trivial trivial trivial).mono (fun _ _ h => h.1) (fun _ _ h => h)

theorem Visit.step_notes (hhost : c.host.Spares log) (hev : c.evaluator.Records log) (v : Visit) (parts : Parts κ)
    (w : CompileState κ η) : Notes log (keysAmong v.queryForm?.toList) (v.step c s kind parts) w := by
  by_cases hfits : v.Fits parts
  · rw [step_eq_perform c s kind hfits]
    simp only [Notes, yields_bind, yields_locating, yields_pure]
    exact perform_notes hhost hev hfits w
  · rw [step_of_not_fits c s kind hfits]
    exact ⟨[], List.nil_prefix, (List.append_nil _).symm⟩

/-- What a run asks of the evaluator is to consume the keys of its visits. -/
theorem Visit.run_notes (hhost : c.host.Spares log) (hev : c.evaluator.Records log) (visits : List Visit)
    (parts : Parts κ) (w : CompileState κ η) :
    Notes log (keysAmong (Visit.queries visits)) (Visit.run c s kind visits parts) w := by
  induction visits generalizing parts w with
  | nil => exact .of_spared rfl
  | cons v rest ih =>
    rw [Visit.run_cons, Visit.queries_cons, keysAmong_append]
    simp only [Notes, yields_bind, yields_pure]
    refine (step_notes hhost hev v parts w).mono (fun r w₁ h => ?_) (fun e w₁ h => ?_)
    · refine (ih r.1 w₁).mono (fun _ w₂ h' => ?_) (fun _ w₂ h' => ?_)
      · rw [h', h, List.append_assoc, List.map_append]
      · obtain ⟨asked, hasked, hlog⟩ := h'
        refine ⟨_, (List.prefix_append_right_inj _).2 hasked, ?_⟩
        rw [hlog, h, List.append_assoc, List.map_append]
    · obtain ⟨asked, hasked, hlog⟩ := h
      exact ⟨asked, hasked.trans (List.prefix_append ..), hlog⟩

/-! ### Patterns with plain keys -/

/-- A visit that asks nothing of the evaluator is the same with any other. -/
theorem Visit.step_withEvaluator {v : Visit} (hv : keysAmong v.queryForm?.toList = []) (parts : Parts κ)
    (evaluator : Evaluator κ η) :
    v.step { c with evaluator } s kind parts = v.step c s kind parts := by
  by_cases hfits : v.Fits parts
  · cases hfits with
    | enter | refuse | identifier | array | element | member | leave => rfl
    | object span init rest => cases init <;> rfl
    | key expr computed span =>
      simp only [step, Compiler.propertyKey_eq]
      cases hkey : expr.plainKey? computed with
      | some name => rfl
      | none => simp [queryForm?, hkey, keysAmong, QueryForm.key?] at hv
  · rw [step_of_not_fits c s kind hfits, step_of_not_fits _ s kind hfits]

theorem Visit.run_withEvaluator (hvisits : keysAmong (Visit.queries visits) = []) (parts : Parts κ)
    (evaluator : Evaluator κ η) :
    Visit.run { c with evaluator } s kind visits parts = Visit.run c s kind visits parts := by
  induction visits generalizing parts with
  | nil => rfl
  | cons v rest ih =>
    rw [Visit.queries_cons, keysAmong_append, List.append_eq_nil_iff] at hvisits
    simp only [Visit.run_cons, Visit.step_withEvaluator hvisits.1, ih hvisits.2]

/-- A declaration that succeeds has asked what its pattern says, each thing once and in this order, and one
that fails has asked a first part of it. All that it asks of the evaluator directly is to consume the keys
that are no plain names, as any evaluator finds in its record. Without such keys the evaluator does not
matter, and its record stays as it is. -/
theorem declare_asks (c : Compiler κ η) (s : Scope) (kind : DeclKind) (p : Pattern) (init : Option (Value κ)) :
    (∀ w,
      match Visit.course c s kind (p.visits 0) [init] w with
      | (events, .ok _ w') =>
        c.declare s kind p init w = .ok (events.flatMap Event.emitted) w' ∧
          events.filterMap Event.queried? = p.queries
      | (events, .error e w') =>
        (∃ last ∈ events.getLast?, c.declare s kind p init w = .error (e.placed last.visit.place) w') ∧
          events.filterMap Event.queried? <+: p.queries) ∧
    (∀ log, c.host.Spares log → c.evaluator.Records log →
      ∀ w, Notes log (keysAmong p.queries) (c.declare s kind p init) w) ∧
    (keysAmong p.queries = [] →
      ∀ evaluator, Compiler.declare { c with evaluator } s kind p init = c.declare s kind p init) := by
  rw [← p.queries_visits 0]
  refine ⟨fun w => ?_, fun log hhost hev w => ?_, fun hkeys evaluator => ?_⟩
  · have hfollows := c.declare_follows_course s kind p init w
    unfold Visit.Follows at hfollows
    rw [Compiler.declare_eq_run]
    rcases hcourse : Visit.course c s kind (p.visits 0) [init] w with ⟨events, result⟩
    rw [hcourse] at hfollows
    cases result with
    | ok parts w' =>
      obtain ⟨hrun, hvisits, hemits⟩ := hfollows
      refine ⟨map_of_ok hrun _, ?_⟩
      rw [Event.queries_of_emits hemits, hvisits]
    | error e w' =>
      obtain ⟨done, last, rfl, hrun, hvisits, hdone, hlast⟩ := hfollows
      exact ⟨⟨last, by simp, map_of_error hrun _⟩, Event.queries_of_fails hdone hlast hvisits⟩
  · rw [Compiler.declare_eq_run, Notes, yields_map]
    exact Visit.run_notes hhost hev (p.visits 0) [init] w
  · rw [Compiler.declare_eq_run, Compiler.declare_eq_run, Visit.run_withEvaluator hkeys]

/-! ### An evaluator that keeps a record -/

/-- Every expression stands for the text `k`, and what is asked is noted down. -/
def Evaluator.noting : Evaluator Unit (List QueryForm) where
  eval _ e := do
    modify fun w => { w with host := w.host ++ [.evaluate e] }
    return (← newLiteral (.string "k"), [])
  consume _ e := do
    modify fun w => { w with host := w.host ++ [.consumeExpr e] }
    return (← newLiteral (.string "k"), [])

theorem Evaluator.noting_records : Evaluator.noting.Records id := ⟨fun _ _ _ => rfl, fun _ _ _ => rfl⟩

/-- `{[1]: a, l: {}}` -/
def oneKey : Pattern :=
  .object [.keyed ⟨.external 1, .onLine 1 6 7⟩ (.identifier ⟨"a", .onLine 1 10 11⟩) true (.onLine 1 5 11),
    .keyed ⟨.identifier "l", .onLine 1 13 14⟩ (.object [] (.onLine 1 16 18)) false (.onLine 1 13 18)]
    (.onLine 1 4 19)

/-- `{k: true, l: {}}` -/
def oneKeyValue : Value Unit :=
  .object 2 { members := [("k", .literal 0 (.bool true)), ("l", .object 1 {})] }

/-- Two object patterns are consumed, and one key. -/
theorem oneKey_declare_asks :
    oneKey.queries = [(.onLine 1 4 19, .consume), (.onLine 1 5 11, .consumeExpr ⟨.external 1, .onLine 1 6 7⟩),
      (.onLine 1 5 11, .getMember), (.onLine 1 13 18, .getMember), (.onLine 1 16 18, .consume)] ∧
    ∃ code w', Compiler.declare ⟨.inert Unit _, .standard, .noting⟩ ⟨0, 0, 0, []⟩ .const oneKey (some oneKeyValue)
        (CompileState.initial []).addRoot.2 = .ok code w' ∧
      w'.host = [.consumeExpr ⟨.external 1, .onLine 1 6 7⟩] := by
  have hasks := declare_asks ⟨.inert Unit _, .standard, .noting⟩ ⟨0, 0, 0, []⟩ .const oneKey (some oneKeyValue)
  have hrun : Compiler.declare ⟨.inert Unit _, .standard, .noting⟩ ⟨0, 0, 0, []⟩ .const oneKey (some oneKeyValue)
    (CompileState.initial []).addRoot.2 = .ok _ _ := rfl
  exact ⟨rfl, _, _, hrun, (hasks.2.1 id (fun _ _ _ _ => rfl) Evaluator.noting_records _).of_ok hrun⟩

end DeclCompiler
