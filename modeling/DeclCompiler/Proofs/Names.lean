import DeclCompiler.Proofs.Declaration
import DeclCompiler.Proofs.Later

/-!
What a declaration does to name tables. Its identifiers are bound one by one from left to right, each as it
is visited, and what was bound stays bound when a later visit fails. So a declaration adds to the table of
its scope the bindings of a first part of its identifiers, which is all of them if it succeeds.
-/

namespace DeclCompiler

variable {κ η : Type}

/-! ### Patterns that are supported -/

mutual

/-- No pattern in the pattern is of a form that is refused. -/
def Pattern.isSupported (p : Pattern) : Bool :=
  match p with
  | .identifier _ => true
  | .array elements _ => Pattern.elementsSupported elements
  | .object properties _ => Pattern.propertiesSupported properties
  | .assignment .. | .rest .. | .member _ => false
termination_by structural p

def Pattern.elementsSupported (elements : List (Option Pattern)) : Bool :=
  match elements with
  | [] => true
  | element :: rest => Pattern.elementSupported element && Pattern.elementsSupported rest
termination_by structural elements

def Pattern.elementSupported (element : Option Pattern) : Bool :=
  match element with
  | none => true
  | some p => p.isSupported
termination_by structural element

def Pattern.propertiesSupported (properties : List Property) : Bool :=
  match properties with
  | [] => true
  | property :: rest => property.isSupported && Pattern.propertiesSupported rest
termination_by structural properties

def Property.isSupported (property : Property) : Bool :=
  match property with
  | .rest .. => false
  | .keyed _ p _ _ => p.isSupported
termination_by structural property

end

def Visit.refuses : Visit → Bool
  | .refuse .. => true
  | _ => false

mutual

/-- A pattern none of whose visits refuses is supported. -/
theorem Pattern.isSupported_of_visits (p : Pattern) (depth : Nat) :
    (∀ v ∈ p.visits depth, v.refuses = false) → p.isSupported = true := by
  intro h
  match p with
  | .identifier _ => rfl
  | .array elements span =>
    refine Pattern.elementsSupported_of_visits elements (depth + 1) 0 fun v hv => h v ?_
    exact List.mem_cons_of_mem _ (List.mem_cons_of_mem _ (List.mem_append_left _ hv))
  | .object properties span =>
    refine Pattern.propertiesSupported_of_visits properties (depth + 1) fun v hv => h v ?_
    exact List.mem_cons_of_mem _ (List.mem_cons_of_mem _ (List.mem_append_left _ hv))
  | .assignment .. | .rest .. | .member _ =>
    exact absurd (h _ (List.mem_cons_of_mem _ (List.mem_singleton_self _))) (by simp [Visit.refuses])
termination_by structural p

theorem Pattern.elementsSupported_of_visits (elements : List (Option Pattern)) (depth index : Nat) :
    (∀ v ∈ Pattern.elementsVisits depth index elements, v.refuses = false) →
      Pattern.elementsSupported elements = true := by
  intro h
  match elements with
  | [] => rfl
  | element :: rest =>
    have hp := Pattern.elementSupported_of_visits element depth index fun v hv => h v (List.mem_append_left _ hv)
    have hrest := Pattern.elementsSupported_of_visits rest depth (index + 1) fun v hv =>
      h v (List.mem_append_right _ hv)
    rw [Pattern.elementsSupported, hp, hrest, Bool.and_self]
termination_by structural elements

theorem Pattern.elementSupported_of_visits (element : Option Pattern) (depth index : Nat) :
    (∀ v ∈ Pattern.elementVisits depth index element, v.refuses = false) →
      Pattern.elementSupported element = true := by
  intro h
  match element with
  | none => rfl
  | some p => exact Pattern.isSupported_of_visits p depth fun v hv => h v (List.mem_cons_of_mem _ hv)
termination_by structural element

theorem Pattern.propertiesSupported_of_visits (properties : List Property) (depth : Nat) :
    (∀ v ∈ Pattern.propertiesVisits depth properties, v.refuses = false) →
      Pattern.propertiesSupported properties = true := by
  intro h
  match properties with
  | [] => rfl
  | property :: rest =>
    have hp := Property.isSupported_of_visits property depth fun v hv => h v (List.mem_append_left _ hv)
    have hrest := Pattern.propertiesSupported_of_visits rest depth fun v hv => h v (List.mem_append_right _ hv)
    rw [Pattern.propertiesSupported, hp, hrest, Bool.and_self]
termination_by structural properties

theorem Property.isSupported_of_visits (property : Property) (depth : Nat) :
    (∀ v ∈ property.visits depth, v.refuses = false) → property.isSupported = true := by
  intro h
  match property with
  | .rest .. => exact absurd (h _ (List.mem_singleton_self _)) (by simp [Visit.refuses])
  | .keyed _ p _ _ =>
    exact Pattern.isSupported_of_visits p depth fun v hv =>
      h v (List.mem_cons_of_mem _ (List.mem_cons_of_mem _ hv))
termination_by structural property

end

/-! ### Added bindings -/

variable {s : Scope} {bound more : List (Binding κ)} {w w' w₁ w₂ : CompileState κ η}

/-- The table of the scope gets the given bindings at its end, and no other table changes. There may be new
scopes. -/
structure Adds (s : Scope) (bound : List (Binding κ)) (w w' : CompileState κ η) : Prop where
  own : ∀ bindings, w.tables[s.table]? = some (some bindings) →
    w'.tables[s.table]? = some (some (bindings ++ bound))
  others : ∀ (i : Nat) t, i ≠ s.table → w.tables[i]? = some t → w'.tables[i]? = some t

theorem Adds.nil (h : w.tables <+: w'.tables) : Adds s [] w w' := by
  have hkept : ∀ (i : Nat) t, w.tables[i]? = some t → w'.tables[i]? = some t := by
    intro i t ht
    obtain ⟨more, hmore⟩ := h
    rw [← hmore, List.getElem?_append_left (List.getElem?_eq_some_iff.1 ht).1]
    exact ht
  exact ⟨fun bindings hb => by simpa using hkept _ _ hb, fun i t _ ht => hkept i t ht⟩

theorem Adds.trans (h : Adds s bound w w₁) (h' : Adds s more w₁ w₂) : Adds s (bound ++ more) w w₂ where
  own bindings hb := by simpa using h'.own _ (h.own bindings hb)
  others i t hi ht := h'.others i t hi (h.others i t hi ht)

theorem Adds.enter (w : CompileState κ η) (s : Scope) (b : Binding κ) : Adds s [b] w (w.enter s b) where
  own bindings hb := by rw [CompileState.tables_enter, if_pos rfl, hb]; rfl
  others i t hi ht := by rw [CompileState.tables_enter, if_neg (Ne.symm hi), ht]

theorem Adds.isOpen (h : Adds s bound w w') (hopen : w.IsOpen s) : w'.IsOpen s := by
  obtain ⟨bindings, hb⟩ := hopen
  exact ⟨_, h.own bindings hb⟩

/-- A name of the scope is one that it had or one that was added. -/
theorem Adds.own? (h : Adds s bound w w') (hopen : w.IsOpen s) (name : String) :
    w'.own? s.table name = (w.own? s.table name).or (bound.find? (·.identifier == name)) := by
  obtain ⟨bindings, hb⟩ := hopen
  rw [CompileState.own?_of_tables hb, CompileState.own?_of_tables (h.own bindings hb), List.find?_append]

/-! ### Host code that binds nothing -/

/-- The action changes no name table, whether it succeeds or fails. It may open scopes. -/
def KeepsTables {α : Type} (x : CompileM κ η α) : Prop :=
  ∀ w, Yields x w (fun _ w' => w.tables <+: w'.tables) (fun _ w' => w.tables <+: w'.tables)

def Host.KeepsTables (host : Host κ η) : Prop :=
  ∀ code s arguments, DeclCompiler.KeepsTables (host.invoke code s arguments)

def Evaluator.KeepsTables (evaluator : Evaluator κ η) : Prop :=
  ∀ s e, DeclCompiler.KeepsTables (evaluator.eval s e) ∧ DeclCompiler.KeepsTables (evaluator.consume s e)

/-- The contract of everything but the declaration of identifiers: name tables stay as they are. -/
def framing (κ η : Type) : DeclarationContract κ η where
  valid _ := True
  knows _ _ := True
  knowsFn _ _ := True
  allows w _ w' := w.tables <+: w'.tables
  emits w _ w' := w.tables <+: w'.tables
  leaves w w' := w.tables <+: w'.tables

theorem framing_laws : (framing κ η).Laws where
  refl _ := List.prefix_rfl
  trans h h' := h.trans h'
  valid_next _ _ := trivial
  knows_next _ _ := trivial
  knows_member _ _ := trivial
  knows_handler _ _ := trivial
  knows_function _ := trivial
  literal _ hmake := by
    cases hmake
    exact ⟨List.prefix_rfl, trivial⟩
  temporary _ _ _ hmake _ := by
    cases hmake
    exact ⟨List.prefix_rfl, trivial⟩
  assign _ _ _ _ _ _ := List.prefix_rfl
  forget h := h
  withSource _ h := h
  emits_of_allows h := h
  emits_trans h h' := h.trans h'
  emits_withSource _ h := h
  leaves_of_emits h := h
  leaves_trans h h' := h.trans h'
  valid_of_leaves _ _ := trivial
  knows_of_leaves _ _ := trivial

theorem Host.KeepsTables.binds {host : Host κ η} (h : host.KeepsTables) : (framing κ η).Binds host :=
  fun _ code s arguments w _ _ _ =>
    (h code s arguments w).mono (fun _ _ h => ⟨h, fun _ _ => trivial⟩) (fun _ _ h => h)

theorem Evaluator.KeepsTables.binds {evaluator : Evaluator κ η} (h : evaluator.KeepsTables) :
    (framing κ η).BindsEvaluator evaluator :=
  fun s e w _ =>
    ⟨((h s e).1 w).mono (fun _ _ h => ⟨h, trivial⟩) (fun _ _ h => h),
      ((h s e).2 w).mono (fun _ _ h => ⟨h, trivial⟩) (fun _ _ h => h)⟩

/-! ### Identifiers that are bound -/

/-- The identifiers had no bindings in the scope, and each got one, in their order. Their names differ. -/
def BindsAll (s : Scope) (ids : List Identifier) (w w' : CompileState κ η) : Prop :=
  ∃ bound, Adds s bound w w' ∧ bound.map (·.identifier) = ids.map (·.name) ∧ (ids.map (·.name)).Nodup ∧
    ∀ id ∈ ids, w.own? s.table id.name = none

theorem BindsAll.nil (h : w.tables <+: w'.tables) : BindsAll s [] w w' :=
  ⟨[], .nil h, rfl, List.nodup_nil, List.forall_mem_nil _⟩

theorem BindsAll.of_adds {b : Binding κ} {id : Identifier} (h : Adds s [b] w w') (hb : b.identifier = id.name)
    (hnone : w.own? s.table id.name = none) : BindsAll s [id] w w' :=
  ⟨[b], h, by simp [hb], by simp, by simpa using hnone⟩

theorem BindsAll.isOpen {ids : List Identifier} (h : BindsAll s ids w w') (hopen : w.IsOpen s) : w'.IsOpen s := by
  obtain ⟨bound, hadds, -⟩ := h
  exact hadds.isOpen hopen

theorem BindsAll.append {ids ids' : List Identifier} (h : BindsAll s ids w w₁) (h' : BindsAll s ids' w₁ w₂)
    (hopen : w.IsOpen s) : BindsAll s (ids ++ ids') w w₂ := by
  obtain ⟨bound, hadds, hnames, hnodup, hnone⟩ := h
  obtain ⟨more, hadds', hnames', hnodup', hnone'⟩ := h'
  -- A name that is free after the first bindings was free before, and it is none of theirs.
  have hfree : ∀ id ∈ ids', w.own? s.table id.name = none ∧ id.name ∉ ids.map (·.name) := by
    intro id hid
    have hown := hnone' id hid
    rw [hadds.own? hopen, Option.or_eq_none_iff] at hown
    refine ⟨hown.1, fun hmem => ?_⟩
    rw [← hnames] at hmem
    obtain ⟨b, hb, heq⟩ := List.mem_map.1 hmem
    exact absurd (beq_iff_eq.2 heq) (List.find?_eq_none.1 hown.2 b hb)
  refine ⟨bound ++ more, hadds.trans hadds', by simp [hnames, hnames'], ?_, fun id hid => ?_⟩
  · rw [List.map_append, List.nodup_append]
    refine ⟨hnodup, hnodup', fun name hname name' hname' heq => ?_⟩
    obtain ⟨id, hid, rfl⟩ := List.mem_map.1 hname'
    exact (hfree id hid).2 (heq ▸ hname)
  · rcases List.mem_append.1 hid with hid | hid
    · exact hnone id hid
    · exact (hfree id hid).1

/-! ### Visits -/

variable {c : Compiler κ η} {kind : DeclKind} {id : Identifier}

theorem adds_withVariable (w : CompileState κ η) :
    Adds s [c.binding s id (c.newVariable id w) false] w (c.withVariable s id w) :=
  have h := Adds.enter { w with values := w.values + 1 } s (c.binding s id (c.newVariable id w) false)
  ⟨h.own, h.others⟩

theorem adds_afterSet (w : CompileState κ η) :
    Adds s [c.binding s id (c.newVariable id w) false] w (c.afterSet s id kind w) := by
  have h : Adds s [c.binding s id (c.newVariable id w) false] w (c.withVariable s id w) := adds_withVariable w
  unfold Compiler.afterSet
  split
  · exact ⟨h.own, h.others⟩
  · exact h

/-- Declaring an identifier binds it. If that fails, it is bound or not, and nothing else happens to the tables. -/
theorem declareIdentifier_bindsAll (c : Compiler κ η) (s : Scope) (kind : DeclKind) (id : Identifier)
    (init : Option (Value κ)) (w : CompileState κ η) :
    Yields (c.declareIdentifier s kind id init) w (fun _ w' => BindsAll s [id] w w')
      (fun _ w' => BindsAll s [] w w' ∨ BindsAll s [id] w w') := by
  unfold Yields
  split
  next code w' h =>
    obtain ⟨hnone, ⟨v, -, -, -, -, rfl⟩ | ⟨-, -, -, rfl⟩ | ⟨v, -, -, -, rfl⟩⟩ := Compiler.declareIdentifier_ok h
    · exact .of_adds (.enter w s _) rfl hnone
    · exact .of_adds (adds_withVariable w) rfl hnone
    · exact .of_adds (adds_afterSet w) rfl hnone
  next e w' h =>
    obtain rfl | rfl | ⟨-, hnone, rfl⟩ := Compiler.declareIdentifier_error h
    · exact .inl (.nil List.prefix_rfl)
    · exact .inl (.nil List.prefix_rfl)
    · exact .inr (.of_adds (adds_withVariable w) rfl hnone)

/-- A visit binds its identifier, if it has one. One that fails may have bound it nevertheless. -/
theorem step_bindsAll (hhost : c.host.KeepsTables) (hev : c.evaluator.KeepsTables) (v : Visit) (parts : Parts κ)
    (w : CompileState κ η) :
    Yields (v.step c s kind parts) w (fun _ w' => v.refuses = false ∧ BindsAll s v.identifier?.toList w w')
      (fun _ w' => BindsAll s [] w w' ∨ BindsAll s v.identifier?.toList w w') := by
  have hsilent : v.identifier? = none → (framing κ η).Visits (v.step c s kind parts) w :=
    fun hv => framing_laws.visits_step_of_none hhost.binds hev.binds trivial hv fun _ _ _ _ => trivial
  cases v with
  | refuse cause span => exact .inl (.nil List.prefix_rfl)
  | identifier id =>
    cases parts with
    | nil => exact .inl (.nil List.prefix_rfl)
    | cons init rest =>
      simp only [Visit.step, yields_bind, yields_attributing, yields_pure]
      exact (declareIdentifier_bindsAll c s kind id init w).mono (fun _ _ h => ⟨rfl, h⟩) (fun _ _ h => h)
  | _ =>
    exact (hsilent rfl).mono (fun _ _ h => ⟨rfl, .nil h.1⟩) (fun _ _ h => .inl (.nil h))

/-- A run that succeeds binds all its identifiers, and none of its visits refuses. -/
theorem run_bindsAll (hhost : c.host.KeepsTables) (hev : c.evaluator.KeepsTables) (visits : List Visit)
    (parts : Parts κ) (hopen : w.IsOpen s) :
    Yields (Visit.run c s kind visits parts) w
      (fun _ w' => BindsAll s (Visit.identifiers visits) w w' ∧ ∀ v ∈ visits, v.refuses = false)
      (fun _ _ => True) := by
  induction visits generalizing w parts with
  | nil => exact ⟨.nil List.prefix_rfl, List.forall_mem_nil _⟩
  | cons v rest ih =>
    rw [Visit.run_cons]
    simp only [yields_bind, yields_pure]
    refine (step_bindsAll hhost hev v parts w).mono (fun r w₁ hstep => ?_) (fun _ _ _ => trivial)
    refine (ih r.1 (hstep.2.isOpen hopen)).mono (fun _ w₂ hrest => ?_) (fun _ _ h => h)
    rw [Visit.identifiers_cons]
    exact ⟨hstep.2.append hrest.1 hopen, List.forall_mem_cons.2 ⟨hstep.1, hrest.2⟩⟩

/-- Declaring a pattern adds bindings to the table of the scope and changes no other table. If it succeeds,
they are those of all identifiers of the pattern, whose names differ and were free, and the pattern has no
form that is refused. If it fails, it fails at some visit. The bindings are those of the identifiers visited
before, which are the first ones of the pattern, and perhaps that of the identifier where it fails. -/
theorem declare_bindsAll (c : Compiler κ η) (s : Scope) (kind : DeclKind) (p : Pattern) (init : Option (Value κ))
    (hhost : c.host.KeepsTables) (hev : c.evaluator.KeepsTables) (hopen : w.IsOpen s) :
    Yields (c.declare s kind p init) w
      (fun _ w' => BindsAll s p.identifiers w w' ∧ p.isSupported = true)
      (fun e w' => ∃ done v rest parts code w₁, p.visits 0 = done ++ v :: rest ∧
        Visit.run c s kind done [init] w = .ok (parts, code) w₁ ∧ v.step c s kind parts w₁ = .error e w' ∧
        ∃ ids, BindsAll s ids w w' ∧ ids <+: p.identifiers ∧
          (ids = Visit.identifiers done ∨ ∃ id, v = .identifier id ∧ ids = Visit.identifiers done ++ [id])) := by
  rw [Compiler.declare_eq_run, yields_map]
  unfold Yields
  cases h : Visit.run c s kind (p.visits 0) [init] w with
  | ok r w' =>
    obtain ⟨hbinds, hrefuses⟩ := (run_bindsAll hhost hev (p.visits 0) [init] hopen).of_ok h
    rw [p.identifiers_visits] at hbinds
    exact ⟨hbinds, p.isSupported_of_visits 0 hrefuses⟩
  | error e w' =>
    obtain ⟨done, v, rest, parts, code, w₁, hvisits, hdone, hfail⟩ := Visit.run_eq_error c s kind h
    refine ⟨done, v, rest, parts, code, w₁, hvisits, hdone, hfail, ?_⟩
    have hbefore := ((run_bindsAll hhost hev done [init] hopen).of_ok hdone).1
    have hids : p.identifiers = Visit.identifiers done ++ (v.identifier?.toList ++ Visit.identifiers rest) := by
      rw [← p.identifiers_visits 0, hvisits, Visit.identifiers_append, Visit.identifiers_cons]
    rcases (step_bindsAll hhost hev v parts w₁).of_error hfail with hnone | hsome
    · refine ⟨Visit.identifiers done, ?_, ⟨_, hids.symm⟩, .inl rfl⟩
      simpa using hbefore.append hnone hopen
    · refine ⟨_, hbefore.append hsome hopen, ⟨Visit.identifiers rest, by rw [hids, List.append_assoc]⟩, ?_⟩
      cases v with
      | identifier id => exact .inr ⟨id, rfl, rfl⟩
      | _ => exact .inl (List.append_nil _)

/-! ### A declaration that fails halfway -/

theorem Evaluator.basic_keepsTables {host : Host κ η} (hhost : host.KeepsTables)
    (externals : List (Nat × Value κ)) : (Evaluator.basic host externals).KeepsTables := by
  have hbinds : (framing κ η).BindsEvaluator (.basic host externals) :=
    framing_laws.bindsEvaluator_basic hhost.binds (fun _ _ _ _ _ _ => trivial) (fun _ _ _ _ _ => trivial)
  intro s e
  exact ⟨fun w => (hbinds s e w trivial).1.mono (fun _ _ h => h.1) (fun _ _ h => h),
    fun w => (hbinds s e w trivial).2.mono (fun _ _ h => h.1) (fun _ _ h => h)⟩

theorem Host.keeping_keepsTables : Host.keeping.KeepsTables := by
  have hinert : (Host.inert Unit Unit).KeepsTables := fun _ _ _ _ => List.prefix_rfl
  intro code s arguments w
  match arguments with
  | [] | _ :: _ :: _ => exact List.prefix_rfl
  | [v] =>
    unfold Host.keeping
    simp only [yields_bind, yields_pure, yields_makeTemporary]
    exact Yields.mono (framing_laws.computes_operate hinert.binds trivial trivial fun _ _ => trivial)
      (fun _ _ h => h.1) (fun _ _ h => h)

/-- `{k: a, l: a}` -/
def twice : Pattern :=
  .object [.keyed ⟨.identifier "k", .onLine 1 5 6⟩ (.identifier ⟨"a", .onLine 1 8 9⟩) false (.onLine 1 5 9),
    .keyed ⟨.identifier "l", .onLine 1 11 12⟩ (.identifier ⟨"a", .onLine 1 14 15⟩) false (.onLine 1 11 15)]
    (.onLine 1 4 16)

/-- The second declaration of a name fails, and the first is kept. -/
theorem twice_declare_bindsAll :
    ∃ e w', (Compiler.standard .keeping).declare ⟨0, 0, 0, []⟩ .letDecl twice (some answering)
        (CompileState.initial ()).addRoot.2 = .error e w' ∧ (w'.own? 0 "a").isSome ∧
      ∃ ids, BindsAll ⟨0, 0, 0, []⟩ ids (CompileState.initial ()).addRoot.2 w' ∧
        ids <+: [⟨"a", .onLine 1 8 9⟩, ⟨"a", .onLine 1 14 15⟩] := by
  have hopen : (CompileState.initial (κ := Unit) ()).addRoot.2.IsOpen ⟨0, 0, 0, []⟩ := ⟨[], rfl⟩
  have hbinds := declare_bindsAll (.standard .keeping) ⟨0, 0, 0, []⟩ .letDecl twice (some answering)
    Host.keeping_keepsTables (Evaluator.basic_keepsTables Host.keeping_keepsTables []) hopen
  have hfails : Yields ((Compiler.standard .keeping).declare ⟨0, 0, 0, []⟩ .letDecl twice (some answering))
    (CompileState.initial ()).addRoot.2 (fun _ _ => False) (fun _ w' => (w'.own? 0 "a").isSome = true) := rfl
  unfold Yields at hbinds hfails
  split at hfails
  next => exact hfails.elim
  next e w' h =>
    rw [h] at hbinds
    obtain ⟨-, -, -, -, -, -, -, -, -, ids, hids, hfirst, -⟩ := hbinds
    exact ⟨e, w', h, hfails, ids, hids, hfirst⟩

end DeclCompiler
