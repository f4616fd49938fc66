import DeclCompiler.Proofs.Course
import DeclCompiler.Proofs.Leaves

/-!
The limit on the nesting of patterns.

A compiler may as well keep the nesting in a count of its own, which goes up where it comes to a pattern
and down where it leaves it, on success and on failure. Whatever such a compiler did before, its count is
back at zero, so it declares like one that is given the depth of each pattern.

The limit is looked at where a pattern is entered and nowhere else. So two limits make a difference only
from the first pattern on that one of them refuses, and as patterns are entered from the outside in, that
one stands right below the limit.
-/

namespace DeclCompiler

variable {κ η α β : Type}

/-! ### Levels -/

/-- `p.AtLevel n q` says that `q` is the `n`th pattern on a way from `p` inwards. -/
inductive Pattern.AtLevel : Pattern → Nat → Pattern → Prop
  | root (p : Pattern) : AtLevel p 1 p
  | element {elements : List (Option Pattern)} {span : Span} {p q : Pattern} {n : Nat} (hp : some p ∈ elements)
      (h : AtLevel p n q) : AtLevel (.array elements span) (n + 1) q
  | value {properties : List Property} {span place : Span} {key : Expr} {computed : Bool} {p q : Pattern} {n : Nat}
      (hp : .keyed key p computed place ∈ properties) (h : AtLevel p n q) : AtLevel (.object properties span) (n + 1) q

namespace Pattern

theorem one_le_depth (p : Pattern) : 1 ≤ p.depth := by
  cases p <;> simp [depth]

theorem depth_le_elementsDepth {p : Pattern} {elements : List (Option Pattern)} (h : some p ∈ elements) :
    p.depth ≤ elementsDepth elements := by
  induction elements with
  | nil => cases h
  | cons element rest ih =>
    rw [elementsDepth]
    rcases List.mem_cons.1 h with rfl | h
    · exact Nat.le_max_left _ _
    · have := ih h
      omega

theorem depth_le_propertiesDepth {p : Pattern} {key : Expr} {computed : Bool} {span : Span}
    {properties : List Property} (h : .keyed key p computed span ∈ properties) :
    p.depth ≤ propertiesDepth properties := by
  induction properties with
  | nil => cases h
  | cons property rest ih =>
    rw [propertiesDepth]
    rcases List.mem_cons.1 h with rfl | h
    · exact Nat.le_max_left _ _
    · have := ih h
      omega

theorem AtLevel.le_depth {p q : Pattern} {n : Nat} (h : p.AtLevel n q) : n ≤ p.depth := by
  induction h with
  | root p => exact p.one_le_depth
  | element hp _ ih =>
    have := depth_le_elementsDepth hp
    rw [depth]
    omega
  | value hp _ ih =>
    have := depth_le_propertiesDepth hp
    rw [depth]
    omega

/-- The deepest element is as deep as they all are together. -/
theorem exists_element {n : Nat} {elements : List (Option Pattern)} (h : n + 1 ≤ elementsDepth elements) :
    ∃ p, some p ∈ elements ∧ n + 1 ≤ p.depth := by
  induction elements with
  | nil => simp [elementsDepth] at h
  | cons element rest ih =>
    rw [elementsDepth] at h
    by_cases hrest : n + 1 ≤ elementsDepth rest
    · obtain ⟨p, hp, hn⟩ := ih hrest
      exact ⟨p, List.mem_cons_of_mem _ hp, hn⟩
    · cases element with
      | none => simp only [elementDepth] at h; omega
      | some p => exact ⟨p, List.mem_cons_self .., by simp only [elementDepth] at h; omega⟩

theorem exists_value {n : Nat} {properties : List Property} (h : n + 1 ≤ propertiesDepth properties) :
    ∃ key p computed span, .keyed key p computed span ∈ properties ∧ n + 1 ≤ p.depth := by
  induction properties with
  | nil => simp [propertiesDepth] at h
  | cons property rest ih =>
    rw [propertiesDepth] at h
    by_cases hrest : n + 1 ≤ propertiesDepth rest
    · obtain ⟨key, p, computed, span, hp, hn⟩ := ih hrest
      exact ⟨key, p, computed, span, List.mem_cons_of_mem _ hp, hn⟩
    · cases property with
      | rest => simp only [Property.depth] at h; omega
      | keyed key p computed span =>
        exact ⟨key, p, computed, span, List.mem_cons_self .., by simp only [Property.depth] at h; omega⟩

/-- There is a pattern at every level down to the depth. -/
theorem exists_atLevel {n : Nat} {p : Pattern} (h : n + 1 ≤ p.depth) : ∃ q, p.AtLevel (n + 1) q := by
  induction n generalizing p with
  | zero => exact ⟨p, .root p⟩
  | succ n ih =>
    cases p with
    | identifier | assignment | rest | member => simp only [depth] at h; omega
    | array elements span =>
      have helements : n + 1 ≤ elementsDepth elements := by simp only [depth] at h; omega
      obtain ⟨p, hp, hn⟩ := exists_element helements
      obtain ⟨q, hq⟩ := ih hn
      exact ⟨q, .element hp hq⟩
    | object properties span =>
      have hproperties : n + 1 ≤ propertiesDepth properties := by simp only [depth] at h; omega
      obtain ⟨key, p, computed, place, hp, hn⟩ := exists_value hproperties
      obtain ⟨q, hq⟩ := ih hn
      exact ⟨q, .value hp hq⟩

end Pattern

/-! ### Where patterns are entered -/

/-- The visit enters a pattern that the limit refuses. -/
def Visit.exceeds (limit : Nat) : Visit → Bool
  | .enter depth _ => limit ≤ depth
  | _ => false

namespace Pattern

theorem mem_elementsVisits {p : Pattern} {elements : List (Option Pattern)} (hp : some p ∈ elements) {depth : Nat}
    {v : Visit} (hv : v ∈ p.visits depth) (index : Nat) : v ∈ elementsVisits depth index elements := by
  induction elements generalizing index with
  | nil => cases hp
  | cons element rest ih =>
    rw [elementsVisits]
    rcases List.mem_cons.1 hp with rfl | hp
    · exact List.mem_append_left _ (List.mem_cons_of_mem _ hv)
    · exact List.mem_append_right _ (ih hp (index + 1))

theorem mem_propertiesVisits {p : Pattern} {key : Expr} {computed : Bool} {span : Span} {properties : List Property}
    (hp : .keyed key p computed span ∈ properties) {depth : Nat} {v : Visit} (hv : v ∈ p.visits depth) :
    v ∈ propertiesVisits depth properties := by
  induction properties with
  | nil => cases hp
  | cons property rest ih =>
    rw [propertiesVisits]
    rcases List.mem_cons.1 hp with rfl | hp
    · exact List.mem_append_left _ (List.mem_cons_of_mem _ (List.mem_cons_of_mem _ hv))
    · exact List.mem_append_right _ (ih hp)

/-- Every pattern at a level is entered at the depth of that level. -/
theorem AtLevel.mem_visits {p q : Pattern} {n : Nat} (h : p.AtLevel n q) (depth : Nat) :
    ∃ inner, depth + n = inner + 1 ∧ .enter inner q.span ∈ p.visits depth := by
  induction h generalizing depth with
  | root p =>
    refine ⟨depth, rfl, ?_⟩
    rw [visits.eq_def]
    exact List.mem_cons_self ..
  | element hp _ ih =>
    obtain ⟨inner, hinner, hmem⟩ := ih (depth + 1)
    refine ⟨inner, by omega, ?_⟩
    rw [visits]
    exact List.mem_cons_of_mem _ (List.mem_cons_of_mem _ (List.mem_append_left _ (mem_elementsVisits hp hmem 0)))
  | value hp _ ih =>
    obtain ⟨inner, hinner, hmem⟩ := ih (depth + 1)
    refine ⟨inner, by omega, ?_⟩
    rw [visits]
    exact List.mem_cons_of_mem _ (List.mem_cons_of_mem _ (List.mem_append_left _ (mem_propertiesVisits hp hmem)))

end Pattern

/-- What frames the parts of a pattern enters nothing but the pattern itself. -/
theorem Visit.find?_frame {limit depth : Nat} (h : depth < limit) (span : Span) {v : Visit}
    (hv : v.exceeds limit = false) (inner : List Visit) :
    (.enter depth span :: v :: (inner ++ [.leave])).find? (·.exceeds limit) = inner.find? (·.exceeds limit) := by
  have henter : Visit.exceeds limit (.enter depth span) = false := decide_eq_false (by omega)
  rw [List.find?_cons_of_neg (by simp [henter]), List.find?_cons_of_neg (by simp [hv]), List.find?_append]
  simp [Visit.exceeds]

/-- A visit that is found in one of two lists is found in the first or in the second. -/
theorem Visit.find?_append_cases {test : Visit → Bool} {visits more : List Visit} {v : Visit}
    (h : (visits ++ more).find? test = some v) : visits.find? test = some v ∨ more.find? test = some v := by
  rw [List.find?_append] at h
  cases hfirst : visits.find? test with
  | none => rw [hfirst] at h; exact .inr h
  | some u => rw [hfirst] at h; exact .inl h

mutual

/-- The first pattern that a limit refuses stands right below the limit. -/
theorem Pattern.find?_visits (p : Pattern) {limit depth : Nat} {v : Visit} (hdepth : depth ≤ limit) :
    (p.visits depth).find? (·.exceeds limit) = some v →
      ∃ q n, p.AtLevel n q ∧ depth + n = limit + 1 ∧ v = .enter limit q.span := by
  intro hfind
  by_cases heq : depth = limit
  · -- The pattern itself is the first.
    subst heq
    have henter : Visit.exceeds depth (.enter depth p.span) = true := decide_eq_true (Nat.le_refl _)
    rw [Pattern.visits.eq_def, List.find?_cons_of_pos henter] at hfind
    exact ⟨p, 1, .root p, rfl, (Option.some.inj hfind).symm⟩
  have hlt : depth < limit := by omega
  match p with
  | .array elements span =>
    rw [Pattern.visits, Visit.find?_frame hlt _ rfl] at hfind
    obtain ⟨p, q, n, hp, hq, hn, hv⟩ := Pattern.find?_elementsVisits elements (by omega) hfind
    exact ⟨q, n + 1, .element hp hq, by omega, hv⟩
  | .object properties span =>
    rw [Pattern.visits, Visit.find?_frame hlt _ rfl] at hfind
    obtain ⟨key, p, computed, place, q, n, hp, hq, hn, hv⟩ :=
      Pattern.find?_propertiesVisits properties (by omega) hfind
    exact ⟨q, n + 1, .value hp hq, by omega, hv⟩
  | .identifier _ | .assignment .. | .rest .. | .member _ =>
    rw [Pattern.visits, List.find?_cons_of_neg (by simp [Visit.exceeds]; omega)] at hfind
    simp [Visit.exceeds] at hfind
termination_by structural p

theorem Pattern.find?_elementsVisits (elements : List (Option Pattern)) {limit depth index : Nat} {v : Visit}
    (hdepth : depth ≤ limit) :
    (Pattern.elementsVisits depth index elements).find? (·.exceeds limit) = some v →
      ∃ p q n, some p ∈ elements ∧ p.AtLevel n q ∧ depth + n = limit + 1 ∧ v = .enter limit q.span := by
  intro hfind
  match elements with
  | [] => cases hfind
  | element :: rest =>
    rw [Pattern.elementsVisits] at hfind
    rcases Visit.find?_append_cases hfind with hfirst | hrest
    · obtain ⟨p, q, n, rfl, hq⟩ := Pattern.find?_elementVisits element hdepth hfirst
      exact ⟨p, q, n, List.mem_cons_self .., hq⟩
    · obtain ⟨p, q, n, hp, hq⟩ := Pattern.find?_elementsVisits rest hdepth hrest
      exact ⟨p, q, n, List.mem_cons_of_mem _ hp, hq⟩
termination_by structural elements

theorem Pattern.find?_elementVisits (element : Option Pattern) {limit depth index : Nat} {v : Visit}
    (hdepth : depth ≤ limit) :
    (Pattern.elementVisits depth index element).find? (·.exceeds limit) = some v →
      ∃ p q n, element = some p ∧ p.AtLevel n q ∧ depth + n = limit + 1 ∧ v = .enter limit q.span := by
  intro hfind
  match element with
  | none => cases hfind
  | some p =>
    obtain ⟨q, n, hq⟩ := Pattern.find?_visits p hdepth hfind
    exact ⟨p, q, n, rfl, hq⟩
termination_by structural element

theorem Pattern.find?_propertiesVisits (properties : List Property) {limit depth : Nat} {v : Visit}
    (hdepth : depth ≤ limit) :
    (Pattern.propertiesVisits depth properties).find? (·.exceeds limit) = some v →
      ∃ key p computed span q n, .keyed key p computed span ∈ properties ∧ p.AtLevel n q ∧
        depth + n = limit + 1 ∧ v = .enter limit q.span := by
  intro hfind
  match properties with
  | [] => cases hfind
  | property :: rest =>
    rw [Pattern.propertiesVisits] at hfind
    rcases Visit.find?_append_cases hfind with hfirst | hrest
    · obtain ⟨key, p, computed, span, q, n, rfl, hq⟩ := Property.find?_visits property hdepth hfirst
      exact ⟨key, p, computed, span, q, n, List.mem_cons_self .., hq⟩
    · obtain ⟨key, p, computed, span, q, n, hp, hq⟩ := Pattern.find?_propertiesVisits rest hdepth hrest
      exact ⟨key, p, computed, span, q, n, List.mem_cons_of_mem _ hp, hq⟩
termination_by structural properties

theorem Property.find?_visits (property : Property) {limit depth : Nat} {v : Visit} (hdepth : depth ≤ limit) :
    (property.visits depth).find? (·.exceeds limit) = some v →
      ∃ key p computed span q n, property = .keyed key p computed span ∧ p.AtLevel n q ∧
        depth + n = limit + 1 ∧ v = .enter limit q.span := by
  intro hfind
  match property with
  | .rest .. => cases hfind
  | .keyed key p computed span =>
    obtain ⟨q, n, hq⟩ := Pattern.find?_visits p hdepth hfind
    exact ⟨key, p, computed, span, q, n, rfl, hq⟩
termination_by structural property

end

/-! ### Two limits -/

/-- The same compiler with another limit on the nesting. -/
def Compiler.withLimit (c : Compiler κ η) (limit : Nat) : Compiler κ η :=
  { c with options := { c.options with maxPatternDepth := limit } }

namespace Visit

variable (c : Compiler κ η) (s : Scope) (kind : DeclKind)

theorem step_exceeds {limit : Nat} {v : Visit} (h : v.exceeds limit = true) (parts : Parts κ) :
    ∃ depth span, v = .enter depth span ∧
      v.step (c.withLimit limit) s kind parts = throw ⟨.patternTooDeep limit, [span]⟩ := by
  cases v with
  | enter depth span => exact ⟨depth, span, rfl, if_pos (of_decide_eq_true h)⟩
  | _ => cases h

/-- A limit that does not refuse the visit has no influence on it. -/
theorem step_withLimit {limit limit' : Nat} {v : Visit} (h : v.exceeds limit = false) (h' : v.exceeds limit' = false)
    (parts : Parts κ) : v.step (c.withLimit limit) s kind parts = v.step (c.withLimit limit') s kind parts := by
  by_cases hfits : v.Fits parts
  · cases hfits with
    | enter depth span =>
      have hstep : ∀ {limit}, Visit.exceeds limit (.enter depth span) = false →
          (Visit.enter depth span).step (c.withLimit limit) s kind parts = pure (parts, []) :=
        fun h => if_neg (of_decide_eq_false h)
      rw [hstep h, hstep h']
    | object span init rest => cases init <;> rfl
    | refuse | identifier | array | element | key | member | leave => rfl
  · rw [step_of_not_fits _ s kind hfits, step_of_not_fits _ s kind hfits]

/-- Runs under two limits go the same way up to the first pattern that the lower one refuses. -/
theorem run_withLimit (limit : Nat) {limit' : Nat} {visits : List Visit} (h' : ∀ v ∈ visits, v.exceeds limit' = false)
    (parts : Parts κ) (w : CompileState κ η) :
    run (c.withLimit limit) s kind visits parts w = run (c.withLimit limit') s kind visits parts w ∨
      ∃ depth span w', visits.find? (·.exceeds limit) = some (.enter depth span) ∧
        run (c.withLimit limit) s kind visits parts w = .error ⟨.patternTooDeep limit, [span]⟩ w' := by
  induction visits generalizing parts w with
  | nil => exact .inl rfl
  | cons v rest ih =>
    obtain ⟨hv', hrest'⟩ := List.forall_mem_cons.1 h'
    cases hv : v.exceeds limit with
    | true =>
      obtain ⟨depth, span, rfl, hstep⟩ := step_exceeds c s kind hv parts
      refine .inr ⟨depth, span, w, List.find?_cons_of_pos hv, ?_⟩
      rw [run_cons, hstep]
      rfl
    | false =>
      rw [run_cons, run_cons, step_withLimit c s kind hv hv', List.find?_cons_of_neg (by simp [hv])]
      cases hstep : v.step (c.withLimit limit') s kind parts w with
      | error e w₁ =>
        rw [bind_of_error hstep, bind_of_error hstep]
        exact .inl rfl
      | ok r w₁ =>
        rw [bind_of_ok hstep, bind_of_ok hstep]
        rcases ih hrest' r.1 w₁ with heq | ⟨depth, span, w', hfind, hrun⟩
        · left
          simp only [bind, EStateM.bind, heq]
        · exact .inr ⟨depth, span, w', hfind, bind_of_error hrun _⟩

/-- A run that succeeds enters no pattern that the limit refuses. -/
theorem not_exceeds_of_run {limit : Nat} {visits : List Visit} {parts : Parts κ} {w w' : CompileState κ η}
    {r : Parts κ × List (Instruction κ)} (h : run (c.withLimit limit) s kind visits parts w = .ok r w') :
    ∀ v ∈ visits, v.exceeds limit = false := by
  induction visits generalizing parts w r w' with
  | nil => exact List.forall_mem_nil _
  | cons v rest ih =>
    rw [run_cons] at h
    cases hv : v.exceeds limit with
    | true =>
      obtain ⟨depth, span, rfl, hstep⟩ := step_exceeds c s kind hv parts
      rw [hstep] at h
      cases h
    | false =>
      cases hstep : v.step (c.withLimit limit) s kind parts w with
      | error e w₁ =>
        rw [bind_of_error hstep] at h
        cases h
      | ok r₁ w₁ =>
        rw [bind_of_ok hstep] at h
        cases hrest : run (c.withLimit limit) s kind rest r₁.1 w₁ with
        | ok r₂ w₂ => exact List.forall_mem_cons.2 ⟨hv, ih hrest⟩
        | error e w₂ =>
          dsimp only at h
          rw [bind_of_error hrest] at h
          cases h

end Visit

namespace Compiler

variable (c : Compiler κ η) (s : Scope) (kind : DeclKind) (p : Pattern) (init : Option (Value κ))

/-- A limit that leaves room for the whole pattern is compared with any other. -/
theorem declare_withLimit (limit : Nat) {limit' : Nat} (h' : p.depth ≤ limit') (w : CompileState κ η) :
    (c.withLimit limit).declare s kind p init w = (c.withLimit limit').declare s kind p init w ∨
      ∃ q w', p.AtLevel (limit + 1) q ∧
        (c.withLimit limit).declare s kind p init w = .error ⟨.patternTooDeep limit, [q.span]⟩ w' := by
  have hroom : ∀ v ∈ p.visits 0, v.exceeds limit' = false := by
    intro v hv
    refine Bool.eq_false_iff.2 fun hexceeds => ?_
    -- A refused pattern would stand right below the limit, deeper than the pattern is.
    obtain ⟨u, hu⟩ := Option.isSome_iff_exists.1 (List.find?_isSome.2 ⟨v, hv, hexceeds⟩)
    obtain ⟨q, n, hq, hn, -⟩ := p.find?_visits (Nat.zero_le limit') hu
    have := hq.le_depth
    omega
  rw [declare_eq_run, declare_eq_run]
  rcases Visit.run_withLimit c s kind limit hroom [init] w with heq | ⟨depth, span, w', hfind, hrun⟩
  · left
    rw [← bind_pure_comp, ← bind_pure_comp]
    simp only [bind, EStateM.bind, heq]
  · obtain ⟨q, n, hq, hn, hv⟩ := p.find?_visits (Nat.zero_le limit) hfind
    obtain ⟨rfl, rfl⟩ : depth = limit ∧ span = q.span := by simpa using hv
    obtain rfl : n = depth + 1 := by omega
    exact .inr ⟨q, w', hq, map_of_error hrun _⟩

theorem declare_of_depth_le {limit limit' : Nat} (h : p.depth ≤ limit) (h' : p.depth ≤ limit') :
    (c.withLimit limit).declare s kind p init = (c.withLimit limit').declare s kind p init := by
  funext w
  rcases c.declare_withLimit s kind p init limit h' w with heq | ⟨q, w', hq, -⟩
  · exact heq
  · have := hq.le_depth
    omega

theorem declare_ne_ok {limit : Nat} (h : limit < p.depth) (w w' : CompileState κ η) (code : List (Instruction κ)) :
    (c.withLimit limit).declare s kind p init w ≠ .ok code w' := by
  intro hok
  rw [declare_eq_run] at hok
  obtain ⟨q, hq⟩ := Pattern.exists_atLevel (p := p) (n := limit) (by omega)
  obtain ⟨inner, hinner, hmem⟩ := hq.mem_visits 0
  cases hrun : Visit.run (c.withLimit limit) s kind (p.visits 0) [init] w with
  | error e w₁ =>
    rw [map_of_error hrun] at hok
    cases hok
  | ok r w₁ =>
    have hexceeds := Visit.not_exceeds_of_run c s kind hrun _ hmem
    simp [Visit.exceeds] at hexceeds
    omega

end Compiler

/-! ### A compiler that counts -/

/-- How many patterns a compiler is inside of, and the state of the compilation. -/
structure Progress (κ η : Type) where
  depth : Nat
  state : CompileState κ η

abbrev CountM (κ η : Type) := EStateM CompileError (Progress κ η)

/-- An action that has nothing to do with the count. -/
def uncounted (x : CompileM κ η α) : CountM κ η α := fun g =>
  match x g.state with
  | .ok a w => .ok a ⟨g.depth, w⟩
  | .error e w => .error e ⟨g.depth, w⟩

/-- The count is one higher while the action runs, and goes down again when it ends, however it does. -/
def counted (x : CountM κ η α) : CountM κ η α := fun g =>
  match x ⟨g.depth + 1, g.state⟩ with
  | .ok a g' => .ok a ⟨g'.depth - 1, g'.state⟩
  | .error e g' => .error e ⟨g'.depth - 1, g'.state⟩

namespace Compiler

mutual

/-- Declares a pattern under as many others as were counted. -/
def declareCounting (c : Compiler κ η) (s : Scope) (kind : DeclKind) (p : Pattern) (init : Option (Value κ)) :
    CountM κ η (List (Instruction κ)) := do
  if c.options.maxPatternDepth ≤ (← get).depth then throw ⟨.patternTooDeep c.options.maxPatternDepth, [p.span]⟩
  else counted <| attributing p.span <|
    match p with
    | .identifier id => uncounted (c.declareIdentifier s kind id init)
    | .array elements _ => do
      let o ← uncounted (arrayObject init)
      elementsCounting c s kind o 0 elements
    | .object properties _ =>
      match init with
      | none => throw (.of (.missingInitializer "object"))
      | some v => do
        let (consumed, code) ← uncounted (v.consume c.host s)
        return code ++ (← propertiesCounting c s kind consumed properties)
    | .assignment .. | .rest .. | .member _ => throw (.of (.unsupportedPattern p.kindName))
termination_by structural p

def elementsCounting (c : Compiler κ η) (s : Scope) (kind : DeclKind) (o : Object κ (Value κ)) (index : Nat)
    (elements : List (Option Pattern)) : CountM κ η (List (Instruction κ)) :=
  match elements with
  | [] => return []
  | element :: rest => do
    let code ← elementCounting c s kind o index element
    return code ++ (← elementsCounting c s kind o (index + 1) rest)
termination_by structural elements

def elementCounting (c : Compiler κ η) (s : Scope) (kind : DeclKind) (o : Object κ (Value κ)) (index : Nat)
    (element : Option Pattern) : CountM κ η (List (Instruction κ)) :=
  match element with
  | none => return []
  | some p =>
    match o.get? index.repr with
    | none => throw ⟨.missingIndex index, [p.span]⟩
    | some v => declareCounting c s kind p (some v)
termination_by structural element

def propertiesCounting (c : Compiler κ η) (s : Scope) (kind : DeclKind) (consumed : Value κ)
    (properties : List Property) : CountM κ η (List (Instruction κ)) :=
  match properties with
  | [] => return []
  | property :: rest => do
    let code ← propertyCounting c s kind consumed property
    return code ++ (← propertiesCounting c s kind consumed rest)
termination_by structural properties

def propertyCounting (c : Compiler κ η) (s : Scope) (kind : DeclKind) (consumed : Value κ) (property : Property) :
    CountM κ η (List (Instruction κ)) :=
  match property with
  | .rest _ span => throw ⟨.restNotSupported, [span]⟩
  | .keyed key p computed span => attributing span do
    let (k, keyCode) ← uncounted (c.propertyKey s key computed)
    let (v, getCode) ← uncounted (consumed.getMember c.host s k)
    return keyCode ++ getCode ++ (← declareCounting c s kind p (some v))
termination_by structural property

end

end Compiler

/-- At this count the first action does what the second does, and leaves the count as it was. -/
def Counts (depth : Nat) (x : CountM κ η α) (y : CompileM κ η α) : Prop :=
  ∀ w, x ⟨depth, w⟩ = uncounted y ⟨depth, w⟩

namespace Counts

variable {depth : Nat}

theorem pure (a : α) : Counts depth (pure a) (pure a : CompileM κ η α) := fun _ => rfl

theorem throw (e : CompileError) : Counts depth (throw e) (throw e : CompileM κ η α) := fun _ => rfl

theorem uncounted (x : CompileM κ η α) : Counts depth (uncounted x) x := fun _ => rfl

theorem bind {x : CountM κ η α} {y : CompileM κ η α} {f : α → CountM κ η β} {g : α → CompileM κ η β}
    (h : Counts depth x y) (hrest : ∀ a, Counts depth (f a) (g a)) : Counts depth (x >>= f) (y >>= g) := by
  intro w
  simp only [Bind.bind, EStateM.bind, DeclCompiler.uncounted, h w]
  cases y w with
  | ok a w' => exact hrest a w'
  | error e w' => rfl

theorem attributing {x : CountM κ η (List (Instruction κ))} {y : CompileM κ η (List (Instruction κ))}
    (h : Counts depth x y) (span : Span) : Counts depth (attributing span x) (attributing span y) := by
  intro w
  simp only [DeclCompiler.attributing, locating, Bind.bind, EStateM.bind, DeclCompiler.uncounted, h w]
  cases y w <;> rfl

/-- What is counted up is counted down again, on success and on failure. -/
theorem counted {x : CountM κ η α} {y : CompileM κ η α} (h : Counts (depth + 1) x y) :
    Counts depth (counted x) y := by
  intro w
  simp only [DeclCompiler.counted, DeclCompiler.uncounted, h w]
  cases y w <;> rfl

end Counts

namespace Compiler

variable (c : Compiler κ η) (s : Scope) (kind : DeclKind)

mutual

/-- Counting patterns is the same as being told how deep they stand. -/
theorem counts_declareAt (p : Pattern) (depth : Nat) (init : Option (Value κ)) :
    Counts depth (c.declareCounting s kind p init) (c.declareAt s kind depth p init) := by
  intro w
  have hget : (get : CountM κ η (Progress κ η)) ⟨depth, w⟩ = .ok _ _ := rfl
  rw [declareCounting.eq_def, bind_of_ok hget, declareAt.eq_def]
  dsimp only
  split
  · rfl
  refine Counts.counted (Counts.attributing ?_ _) w
  match p with
  | .identifier id => exact .uncounted _
  | .array elements span => exact .bind (.uncounted _) fun o => counts_declareElements elements (depth + 1) o 0
  | .object properties span =>
    match init with
    | none => exact .throw _
    | some v =>
      refine .bind (.uncounted _) fun r => ?_
      exact .bind (counts_declareProperties properties (depth + 1) r.1) fun more => .pure _
  | .assignment .. | .rest .. | .member _ => exact .throw _
termination_by structural p

theorem counts_declareElements (elements : List (Option Pattern)) (depth : Nat) (o : Object κ (Value κ))
    (index : Nat) :
    Counts depth (c.elementsCounting s kind o index elements) (c.declareElements s kind depth o index elements) := by
  match elements with
  | [] => exact .pure _
  | element :: rest =>
    rw [elementsCounting, declareElements]
    refine .bind (counts_declareElement element depth o index) fun code => ?_
    exact .bind (counts_declareElements rest depth o (index + 1)) fun more => .pure _
termination_by structural elements

theorem counts_declareElement (element : Option Pattern) (depth : Nat) (o : Object κ (Value κ)) (index : Nat) :
    Counts depth (c.elementCounting s kind o index element) (c.declareElement s kind depth o index element) := by
  match element with
  | none => exact .pure _
  | some p =>
    rw [elementCounting, declareElement]
    cases o.get? index.repr with
    | none => exact .throw _
    | some v => exact counts_declareAt p depth (some v)
termination_by structural element

theorem counts_declareProperties (properties : List Property) (depth : Nat) (consumed : Value κ) :
    Counts depth (c.propertiesCounting s kind consumed properties)
      (c.declareProperties s kind depth consumed properties) := by
  match properties with
  | [] => exact .pure _
  | property :: rest =>
    rw [propertiesCounting, declareProperties]
    refine .bind (counts_declareProperty property depth consumed) fun code => ?_
    exact .bind (counts_declareProperties rest depth consumed) fun more => .pure _
termination_by structural properties

theorem counts_declareProperty (property : Property) (depth : Nat) (consumed : Value κ) :
    Counts depth (c.propertyCounting s kind consumed property) (c.declareProperty s kind depth consumed property) := by
  match property with
  | .rest _ span => exact .throw _
  | .keyed key p computed span =>
    rw [propertyCounting, declareProperty]
    refine .attributing (.bind (.uncounted _) fun k => .bind (.uncounted _) fun v => ?_) span
    exact .bind (counts_declareAt p depth (some v.1)) fun more => .pure _
termination_by structural property

end

/-- Where a compiler can be that started with the count at zero and declared any patterns in any scopes, some
of them in vain, while others changed the state of the compilation in between. -/
inductive Reaches (c : Compiler κ η) : Progress κ η → Prop
  | start (w : CompileState κ η) : Reaches c ⟨0, w⟩
  | meanwhile {g : Progress κ η} (w : CompileState κ η) : Reaches c g → Reaches c ⟨g.depth, w⟩
  | ok {s : Scope} {kind : DeclKind} {p : Pattern} {init : Option (Value κ)} {code : List (Instruction κ)}
      {g g' : Progress κ η} : Reaches c g → c.declareCounting s kind p init g = .ok code g' → Reaches c g'
  | error {s : Scope} {kind : DeclKind} {p : Pattern} {init : Option (Value κ)} {e : CompileError}
      {g g' : Progress κ η} : Reaches c g → c.declareCounting s kind p init g = .error e g' → Reaches c g'

/-- The count is back where it was. -/
theorem declareCounting_eq (p : Pattern) (init : Option (Value κ)) (g : Progress κ η) :
    c.declareCounting s kind p init g = uncounted (c.declareAt s kind g.depth p init) g :=
  c.counts_declareAt s kind p g.depth init g.state

theorem Reaches.depth_eq {c : Compiler κ η} {g : Progress κ η} (h : c.Reaches g) : g.depth = 0 := by
  induction h with
  | start => rfl
  | meanwhile _ _ ih => exact ih
  | ok _ hdeclare ih =>
    rw [declareCounting_eq, uncounted] at hdeclare
    split at hdeclare <;> cases hdeclare
    exact ih
  | error _ hdeclare ih =>
    rw [declareCounting_eq, uncounted] at hdeclare
    split at hdeclare <;> cases hdeclare
    exact ih

end Compiler

/-! ### The limit only refuses -/

/-- The nesting limit refuses patterns that are too deep, and does nothing else. A compiler that counts
declares, after whatever it did before, like one that was just made. Limits that leave room for the pattern
all give the same outcome. A limit that does not leave room makes the declaration fail, either as it fails
with room, or at a pattern right below the limit. -/
theorem limit_only_refuses (c : Compiler κ η) (s : Scope) (kind : DeclKind) (p : Pattern)
    (init : Option (Value κ)) :
    (∀ g, c.Reaches g → c.declareCounting s kind p init g = uncounted (c.declare s kind p init) ⟨0, g.state⟩) ∧
    (p.depth ≤ c.options.maxPatternDepth → ∀ limit, p.depth ≤ limit →
      c.declare s kind p init = (c.withLimit limit).declare s kind p init) ∧
    (c.options.maxPatternDepth < p.depth → ∀ w, ∃ e w', c.declare s kind p init w = .error e w' ∧
      ((c.withLimit p.depth).declare s kind p init w = .error e w' ∨
        ∃ q, p.AtLevel (c.options.maxPatternDepth + 1) q ∧
          e = ⟨.patternTooDeep c.options.maxPatternDepth, [q.span]⟩)) := by
  have hself : c.withLimit c.options.maxPatternDepth = c := rfl
  refine ⟨fun g hg => ?_, fun hroom limit hlimit => ?_, fun hdeep w => ?_⟩
  · obtain ⟨depth, w⟩ := g
    obtain rfl : depth = 0 := hg.depth_eq
    exact c.counts_declareAt s kind p 0 init w
  · rw [← hself]
    exact c.declare_of_depth_le s kind p init hroom hlimit
  · have hne := fun w' code => c.declare_ne_ok s kind p init hdeep w w' code
    have hcases := c.declare_withLimit s kind p init c.options.maxPatternDepth (Nat.le_refl p.depth) w
    rw [hself] at hne hcases
    cases hdeclare : c.declare s kind p init w with
    | ok code w' => exact absurd hdeclare (hne w' code)
    | error e w' =>
      refine ⟨e, w', rfl, ?_⟩
      rcases hcases with heq | ⟨q, w₁, hq, herror⟩
      · exact .inl (heq.symm.trans hdeclare)
      · rw [hdeclare] at herror
        cases herror
        exact .inr ⟨q, hq, rfl⟩

/-- `[[a]]` -/
def nestedTwice : Pattern :=
  .array [some (.array [some (.identifier ⟨"a", .onLine 1 8 9⟩)] (.onLine 1 7 10))] (.onLine 1 6 11)

/-- `[["b"]]` -/
def nestedItems : Value Unit :=
  .object 0 { members := [("0", .object 1 { members := [("0", .literal 2 (.string "b"))] })] }

/-- Under the limit two the identifier is refused, and from three on all limits are alike. -/
theorem nestedTwice_limit_only_refuses :
    nestedTwice.depth = 3 ∧
      (∃ q w', nestedTwice.AtLevel 3 q ∧ q.span = .onLine 1 8 9 ∧
        ((Compiler.standard (.inert Unit Unit)).withLimit 2).declare ⟨0, 0, 0, []⟩ .const nestedTwice
          (some nestedItems) (CompileState.initial ()).addRoot.2 = .error ⟨.patternTooDeep 2, [q.span]⟩ w') ∧
      ((Compiler.standard (.inert Unit Unit)).withLimit 3).declare ⟨0, 0, 0, []⟩ .const nestedTwice (some nestedItems) =
        (Compiler.standard (.inert Unit Unit)).declare ⟨0, 0, 0, []⟩ .const nestedTwice (some nestedItems) := by
  have hrefuse := (limit_only_refuses ((Compiler.standard (.inert Unit Unit)).withLimit 2) ⟨0, 0, 0, []⟩ .const
    nestedTwice (some nestedItems)).2.2 (by decide) (CompileState.initial ()).addRoot.2
  have hroom := (limit_only_refuses ((Compiler.standard (.inert Unit Unit)).withLimit 3) ⟨0, 0, 0, []⟩ .const
    nestedTwice (some nestedItems)).2.1 (by decide) 512 (by decide)
  have hrun : ((Compiler.standard (.inert Unit Unit)).withLimit 2).declare ⟨0, 0, 0, []⟩ .const nestedTwice
    (some nestedItems) (CompileState.initial ()).addRoot.2 = .error ⟨.patternTooDeep 2, [.onLine 1 8 9]⟩ _ := rfl
  refine ⟨rfl, ?_, hroom⟩
  obtain ⟨e, w', hdeclare, hroomy | ⟨q, hq, rfl⟩⟩ := hrefuse
  · cases hroomy
  · have hspan : q.span = .onLine 1 8 9 := by
      rw [hrun] at hdeclare
      simp only [EStateM.Result.error.injEq, CompileError.mk.injEq, List.cons.injEq] at hdeclare
      exact hdeclare.1.2.1.symm
    exact ⟨q, w', hq, hspan, hdeclare⟩

end DeclCompiler
