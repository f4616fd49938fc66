import DeclCompiler.Proofs.Contract
import DeclCompiler.Proofs.Visit

/-!
Contracts for declarations. A declaration uses capabilities, asks the evaluator, and declares
identifiers. If it may do the first two by a contract, and declaring one identifier keeps to what is said
of declarations, then so does every declaration, with any pattern.
-/

namespace DeclCompiler

variable {κ η : Type}

/-- A contract together with what declarations may do: `emits` is said of those that succeed, and
`leaves` of the state that any of them leaves behind. -/
structure DeclarationContract (κ η : Type) extends Contract κ η where
  emits : CompileState κ η → List (Instruction κ) → CompileState κ η → Prop
  leaves : CompileState κ η → CompileState κ η → Prop

namespace DeclarationContract

structure Laws (D : DeclarationContract κ η) : Prop extends D.toContract.Laws where
  emits_of_allows {w w' code} : D.allows w code w' → D.emits w code w'
  emits_trans {w w₁ w₂ code more} : D.emits w code w₁ → D.emits w₁ more w₂ → D.emits w (code ++ more) w₂
  emits_withSource {w w' code} (span : Span) : D.emits w code w' → D.emits w (code.map (·.withSource span)) w'
  leaves_of_emits {w w' code} : D.emits w code w' → D.leaves w w'
  leaves_trans {w w₁ w₂} : D.leaves w w₁ → D.leaves w₁ w₂ → D.leaves w w₂
  valid_of_leaves {w w'} : D.valid w → D.leaves w w' → D.valid w'
  knows_of_leaves {w w' v} : D.leaves w w' → D.knows w v → D.knows w' v

/-- Declaring one of the given identifiers keeps the contract. -/
def BindsIdentifiers (D : DeclarationContract κ η) (c : Compiler κ η) (s : Scope) (kind : DeclKind)
    (ids : List Identifier) : Prop :=
  ∀ id ∈ ids, ∀ init w, D.valid w → (∀ v ∈ init, D.knows w v) →
    Yields (c.declareIdentifier s kind id init) w (fun code w' => D.emits w code w') (fun _ w' => D.leaves w w')

/-- All values that are being taken apart are known. -/
def Holds (D : DeclarationContract κ η) (w : CompileState κ η) (parts : Parts κ) : Prop :=
  ∀ init ∈ parts, ∀ v ∈ init, D.knows w v

variable {D : DeclarationContract κ η} {c : Compiler κ η} {s : Scope} {kind : DeclKind} {ids : List Identifier}
  {w w' : CompileState κ η}

theorem Laws.leaves_of_allows (hD : D.Laws) {code : List (Instruction κ)} (h : D.allows w code w') :
    D.leaves w w' :=
  hD.leaves_of_emits (hD.emits_of_allows h)

theorem Laws.holds_of_leaves (hD : D.Laws) {parts : Parts κ} (h : D.leaves w w') (hparts : D.Holds w parts) :
    D.Holds w' parts :=
  fun init hinit v hv => hD.knows_of_leaves h (hparts init hinit v hv)

/-! ### Visits -/

/-- What a visit may do. -/
abbrev Visits (D : DeclarationContract κ η) (x : CompileM κ η (Parts κ × List (Instruction κ)))
    (w : CompileState κ η) : Prop :=
  Yields x w (fun r w' => D.emits w r.2 w' ∧ D.Holds w' r.1) (fun _ w' => D.leaves w w')

theorem Laws.visits_pure (hD : D.Laws) (hw : D.valid w) {parts : Parts κ} (hparts : D.Holds w parts) :
    D.Visits (pure (parts, [])) w :=
  ⟨hD.emits_of_allows (hD.refl hw), hparts⟩

theorem Laws.visits_throw (hD : D.Laws) (hw : D.valid w) (e : CompileError) : D.Visits (throw e) w :=
  hD.leaves_of_allows (hD.refl hw)

/-- A visit that computes a value and puts it before the parts that remain. -/
theorem Laws.visits_computed (hD : D.Laws) {x : CompileM κ η (Computed κ)} {parts : Parts κ} (span : Span)
    (hx : D.Computes x w) (hparts : D.Holds w parts) :
    D.Visits (do
      let (v, code) ← locating span x
      return (some v :: parts, code.map (·.withSource span))) w := by
  simp only [yields_bind, yields_locating, yields_pure]
  refine Yields.mono hx (fun r w' hr => ?_) (fun _ w' h => hD.leaves_of_allows h)
  have hemits := hD.emits_of_allows hr.1
  refine ⟨hD.emits_withSource span hemits, ?_⟩
  intro init hinit
  rcases List.mem_cons.1 hinit with rfl | hinit
  · simpa using hr.2
  · exact hD.holds_of_leaves (hD.leaves_of_emits hemits) hparts init hinit

/-- A compiler whose host, evaluator and declarations of the given identifiers keep the contract. -/
structure Governs (D : DeclarationContract κ η) (c : Compiler κ η) (s : Scope) (kind : DeclKind)
    (ids : List Identifier) : Prop where
  host : D.Binds c.host
  evaluator : D.BindsEvaluator c.evaluator
  identifiers : D.BindsIdentifiers c s kind ids

theorem Laws.computes_propertyKey (hD : D.Laws) (hc : D.BindsEvaluator c.evaluator) (hw : D.valid w) (key : Expr)
    (computed : Bool) : D.Computes (c.propertyKey s key computed) w := by
  unfold Compiler.propertyKey
  split
  · exact hD.computes_newLiteral _ hw
  · exact (hc s key w hw).2

/-- A visit that declares no identifier keeps the contract. -/
theorem Laws.visits_step_of_none (hD : D.Laws) (hhost : D.Binds c.host) (hev : D.BindsEvaluator c.evaluator)
    (hw : D.valid w) {v : Visit} (hv : v.identifier? = none) {parts : Parts κ} (hparts : D.Holds w parts) :
    D.Visits (v.step c s kind parts) w := by
  have hrest : ∀ {init rest}, D.Holds w (init :: rest) → D.Holds w rest :=
    fun h init hinit => h init (List.mem_cons_of_mem _ hinit)
  unfold Visit.step
  split
  next =>
    split
    · exact hD.visits_throw hw _
    · exact hD.visits_pure hw hparts
  next => exact hD.visits_throw hw _
  next => cases hv
  next span init rest =>
    cases init with
    | none => exact hD.visits_throw hw _
    | some v =>
      cases v with
      | object => exact hD.visits_pure hw hparts
      | void | literal | store | function => exact hD.visits_throw hw _
  next index span id o rest =>
    cases ho : o.get? index.repr with
    | none => exact hD.visits_throw hw _
    | some member =>
      refine hD.visits_pure hw fun init hinit => ?_
      rcases List.mem_cons.1 hinit with rfl | hinit
      · have hknows := hD.knows_member (hparts _ (List.mem_cons_self ..) _ rfl) ho
        simpa using hknows
      · exact hparts init hinit
  next => exact hD.visits_throw hw _
  next span v rest =>
    have hv := hparts _ (List.mem_cons_self ..) v rfl
    exact hD.visits_computed span (hD.computes_consume hhost hw hv) (hrest hparts)
  next expr computed span =>
    exact hD.visits_computed span (hD.computes_propertyKey hev hw expr computed) hparts
  next span k consumed rest =>
    have hconsumed := hparts (some consumed) (by simp) consumed rfl
    exact hD.visits_computed span
      (hD.computes_getMember hhost hw hconsumed (hparts _ (List.mem_cons_self ..) k rfl)) (hrest hparts)
  next => exact hD.visits_pure hw (hrest hparts)
  next => exact hD.visits_throw hw _

/-- One visit keeps the contract. -/
theorem Laws.visits_step (hD : D.Laws) (hc : D.Governs c s kind ids) (hw : D.valid w) {v : Visit}
    (hv : ∀ id ∈ v.identifier?, id ∈ ids) {parts : Parts κ} (hparts : D.Holds w parts) :
    D.Visits (v.step c s kind parts) w := by
  cases v with
  | identifier id =>
    cases parts with
    | nil => exact hD.visits_throw hw _
    | cons init rest =>
      simp only [Visit.step, yields_bind, yields_attributing, yields_pure]
      refine Yields.mono (hc.identifiers id (hv id rfl) init w hw (hparts init (by simp))) (fun code w' h => ?_)
        (fun _ _ h => h)
      exact ⟨hD.emits_withSource _ h, hD.holds_of_leaves (hD.leaves_of_emits h)
        fun init hinit => hparts init (List.mem_cons_of_mem _ hinit)⟩
  | _ => exact hD.visits_step_of_none hc.host hc.evaluator hw rfl hparts

/-- So does any number of visits, one after another. -/
theorem Laws.visits_run (hD : D.Laws) (hc : D.Governs c s kind ids) {visits : List Visit}
    (hids : Visit.identifiers visits ⊆ ids) {parts : Parts κ} (hw : D.valid w) (hparts : D.Holds w parts) :
    D.Visits (Visit.run c s kind visits parts) w := by
  induction visits generalizing w parts with
  | nil => exact hD.visits_pure hw hparts
  | cons v rest ih =>
    rw [Visit.identifiers_cons, List.append_subset] at hids
    rw [Visit.run_cons]
    simp only [yields_bind, yields_pure]
    refine Yields.mono (hD.visits_step hc hw (fun id hid => hids.1 (Option.mem_toList.2 hid)) hparts)
      (fun r w₁ hr => ?_) (fun _ _ h => h)
    have hleaves := hD.leaves_of_emits hr.1
    refine Yields.mono (ih hids.2 (hD.valid_of_leaves hw hleaves) hr.2) (fun r' w₂ hr' => ?_) (fun _ w₂ h => ?_)
    · exact ⟨hD.emits_trans hr.1 hr'.1, hr'.2⟩
    · exact hD.leaves_trans hleaves h

/-! ### Declarations -/

/-- What a declaration may do. -/
abbrev Declares (D : DeclarationContract κ η) (x : CompileM κ η (List (Instruction κ)))
    (w : CompileState κ η) : Prop :=
  Yields x w (fun code w' => D.emits w code w') (fun _ w' => D.leaves w w')

theorem Laws.declares_attributing (hD : D.Laws) (span : Span) {x : CompileM κ η (List (Instruction κ))}
    (hx : D.Declares x w) : D.Declares (attributing span x) w := by
  rw [Declares, yields_attributing]
  exact hx.mono (fun code w' h => hD.emits_withSource span h) (fun _ _ h => h)

theorem Laws.declares_append (hD : D.Laws) {w₁ : CompileState κ η} {code : List (Instruction κ)}
    {y : CompileM κ η (List (Instruction κ))} (hx : D.emits w code w₁) (hy : D.Declares y w₁) :
    Yields (do return code ++ (← y)) w₁ (fun code w' => D.emits w code w') (fun _ w' => D.leaves w w') := by
  simp only [yields_bind, yields_pure]
  exact hy.mono (fun more w' h => hD.emits_trans hx h) (fun _ w' h => hD.leaves_trans (hD.leaves_of_emits hx) h)

theorem Laws.declares_declare (hD : D.Laws) (hc : D.Governs c s kind ids) {p : Pattern} (hp : p.identifiers ⊆ ids)
    (init : Option (Value κ)) (hw : D.valid w) (hinit : ∀ v ∈ init, D.knows w v) :
    D.Declares (c.declare s kind p init) w := by
  rw [← p.identifiers_visits 0] at hp
  rw [Declares, Compiler.declare_eq_run, yields_map]
  refine Yields.mono (hD.visits_run hc hp hw ?_) (fun r w' h => h.1) (fun _ _ h => h)
  simpa [Holds] using hinit

theorem Laws.declares_compileDeclarator (hD : D.Laws) (hc : D.Governs c s kind ids) {d : Declarator}
    (hd : d.target.identifiers ⊆ ids) (hw : D.valid w) : D.Declares (c.compileDeclarator s kind d) w := by
  refine hD.declares_attributing d.span ?_
  cases d.init with
  | none => exact hD.declares_declare hc hd none hw (by simp)
  | some e =>
    simp only [Declares, yields_bind]
    refine Yields.mono (hc.evaluator s e w hw).1 (fun r w₁ hr => ?_) (fun _ w' h => hD.leaves_of_allows h)
    have hemits := hD.emits_of_allows hr.1
    have hdeclares := hD.declares_declare hc hd (some r.1)
      (hD.valid_of_leaves hw (hD.leaves_of_emits hemits)) (by simpa using hr.2)
    simpa using hD.declares_append hemits hdeclares

theorem Laws.declares_compileDeclarators (hD : D.Laws) (hc : D.Governs c s kind ids) {ds : List Declarator}
    (hds : ds.flatMap (·.target.identifiers) ⊆ ids) (hw : D.valid w) :
    D.Declares (c.compileDeclarators s kind ds) w := by
  induction ds generalizing w with
  | nil => exact hD.emits_of_allows (hD.refl hw)
  | cons d rest ih =>
    rw [List.flatMap_cons, List.append_subset] at hds
    simp only [Compiler.compileDeclarators, Declares, yields_bind]
    refine Yields.mono (hD.declares_compileDeclarator hc hds.1 hw) (fun code w₁ h => ?_) (fun _ _ h => h)
    simpa using hD.declares_append h (ih hds.2 (hD.valid_of_leaves hw (hD.leaves_of_emits h)))

theorem Laws.declares_compileDeclaration (hD : D.Laws) {d : Declaration} (hc : D.Governs c s d.kind ids)
    (hd : d.declarators.flatMap (·.target.identifiers) ⊆ ids) (hw : D.valid w) :
    D.Declares (c.compileDeclaration s d) w :=
  hD.declares_attributing d.span (hD.declares_compileDeclarators hc hd hw)

/-- A declaration of any form. -/
theorem Laws.declares_form (hD : D.Laws) (d : DeclarationForm κ) (hc : D.Governs c s d.kind d.identifiers)
    (hw : D.valid w) (hinit : ∀ v ∈ d.init?, D.knows w v) : D.Declares (d.run c s) w := by
  cases d with
  | pattern kind p init => exact hD.declares_declare hc (List.Subset.refl _) init hw hinit
  | declarator kind d => exact hD.declares_compileDeclarator hc (List.Subset.refl _) hw
  | declaration d => exact hD.declares_compileDeclaration hc (List.Subset.refl _) hw

/-! ### Declared identifiers -/

/-- On the way from one state to the other the identifier was declared. -/
def Declared (D : DeclarationContract κ η) (c : Compiler κ η) (s : Scope) (kind : DeclKind) (id : Identifier)
    (w w' : CompileState κ η) : Prop :=
  ∃ init w₁ code w₂, D.leaves w w₁ ∧ D.valid w₁ ∧ (∀ v ∈ init, D.knows w₁ v) ∧
    c.declareIdentifier s kind id init w₁ = .ok code w₂ ∧ D.leaves w₂ w'

theorem Laws.declared_after (hD : D.Laws) {id : Identifier} {w₀ : CompileState κ η} (h : D.leaves w₀ w)
    (hid : D.Declared c s kind id w w') : D.Declared c s kind id w₀ w' := by
  obtain ⟨init, w₁, code, w₂, hw₁, hrest⟩ := hid
  exact ⟨init, w₁, code, w₂, hD.leaves_trans h hw₁, hrest⟩

theorem Laws.declared_before (hD : D.Laws) {id : Identifier} {w₀ : CompileState κ η} (h : D.leaves w' w₀)
    (hid : D.Declared c s kind id w w') : D.Declared c s kind id w w₀ := by
  obtain ⟨init, w₁, code, w₂, hw₁, hvalid, hinit, hdeclare, hw₂⟩ := hid
  exact ⟨init, w₁, code, w₂, hw₁, hvalid, hinit, hdeclare, hD.leaves_trans hw₂ h⟩

/-- A successful visit of an identifier declares it. -/
theorem Laws.declared_step (hD : D.Laws) (hw : D.valid w) (v : Visit) {parts : Parts κ} (hparts : D.Holds w parts) :
    Yields (v.step c s kind parts) w (fun _ w' => D.valid w' → ∀ id ∈ v.identifier?, D.Declared c s kind id w w')
      (fun _ _ => True) := by
  unfold Yields
  split
  next r w' h =>
    intro hw' id hid
    cases v with
    | identifier id' =>
      obtain rfl : id' = id := by simpa [Visit.identifier?] using hid
      cases parts with
      | nil => cases h
      | cons init rest =>
        have hstep : Yields (Visit.step c s kind (.identifier id') (init :: rest)) w
            (fun _ w' => ∃ code, c.declareIdentifier s kind id' init w = .ok code w') (fun _ _ => True) := by
          simp only [Visit.step, yields_bind, yields_attributing, yields_pure]
          unfold Yields
          split
          next code w' hdeclare => exact ⟨code, hdeclare⟩
          next => trivial
        obtain ⟨code, hdeclare⟩ := hstep.of_ok h
        exact ⟨init, w, code, w', hD.leaves_of_allows (hD.refl hw), hw, hparts init (by simp), hdeclare,
          hD.leaves_of_allows (hD.refl hw')⟩
    | _ => cases hid
  next => trivial

/-- Every identifier of a successful run was declared in its course. -/
theorem Laws.declared_run (hD : D.Laws) (hc : D.Governs c s kind ids) {visits : List Visit}
    (hids : Visit.identifiers visits ⊆ ids) {parts : Parts κ} (hw : D.valid w) (hparts : D.Holds w parts) :
    Yields (Visit.run c s kind visits parts) w
      (fun _ w' => ∀ id ∈ Visit.identifiers visits, D.Declared c s kind id w w') (fun _ _ => True) := by
  induction visits generalizing w parts with
  | nil => exact List.forall_mem_nil _
  | cons v rest ih =>
    rw [Visit.identifiers_cons, List.append_subset] at hids
    have hstep := hD.visits_step hc hw (fun id hid => hids.1 (Option.mem_toList.2 hid)) hparts
    rw [Visit.run_cons]
    simp only [yields_bind, yields_pure]
    refine Yields.mono (hstep.and (hD.declared_step hw v hparts)) (fun r w₁ hr => ?_) (fun _ _ _ => trivial)
    obtain ⟨⟨hemits, hholds⟩, hdeclared⟩ := hr
    have hleaves := hD.leaves_of_emits hemits
    have hw₁ := hD.valid_of_leaves hw hleaves
    refine Yields.mono ((hD.visits_run hc hids.2 hw₁ hholds).and (ih hids.2 hw₁ hholds)) (fun r' w₂ hr' => ?_)
      (fun _ _ _ => trivial)
    intro id hid
    obtain ⟨v', hv', hid'⟩ := List.mem_filterMap.1 hid
    rcases List.mem_cons.1 hv' with rfl | hv'
    · exact hD.declared_before (hD.leaves_of_emits hr'.1.1) (hdeclared hw₁ id hid')
    · exact hD.declared_after hleaves (hr'.2 id (List.mem_filterMap.2 ⟨v', hv', hid'⟩))

theorem Laws.declared_declare (hD : D.Laws) (hc : D.Governs c s kind ids) {p : Pattern} (hp : p.identifiers ⊆ ids)
    (init : Option (Value κ)) (hw : D.valid w) (hinit : ∀ v ∈ init, D.knows w v) :
    Yields (c.declare s kind p init) w (fun _ w' => ∀ id ∈ p.identifiers, D.Declared c s kind id w w')
      (fun _ _ => True) := by
  rw [← p.identifiers_visits 0] at hp
  rw [Compiler.declare_eq_run, yields_map, ← p.identifiers_visits 0]
  exact hD.declared_run hc hp hw (by simpa [Holds] using hinit)

theorem Laws.declared_compileDeclarator (hD : D.Laws) (hc : D.Governs c s kind ids) {d : Declarator}
    (hd : d.target.identifiers ⊆ ids) (hw : D.valid w) :
    Yields (c.compileDeclarator s kind d) w (fun _ w' => ∀ id ∈ d.target.identifiers, D.Declared c s kind id w w')
      (fun _ _ => True) := by
  rw [Compiler.compileDeclarator, yields_attributing]
  cases d.init with
  | none => exact hD.declared_declare hc hd none hw (by simp)
  | some e =>
    simp only [yields_bind, yields_pure]
    refine Yields.mono (hc.evaluator s e w hw).1 (fun r w₁ hr => ?_) (fun _ _ _ => trivial)
    have hleaves := hD.leaves_of_allows hr.1
    refine Yields.mono (hD.declared_declare hc hd (some r.1) (hD.valid_of_leaves hw hleaves)
      (by simpa using hr.2)) (fun _ w' h id hid => ?_) (fun _ _ _ => trivial)
    exact hD.declared_after hleaves (h id hid)

theorem Laws.declared_compileDeclarators (hD : D.Laws) (hc : D.Governs c s kind ids) {ds : List Declarator}
    (hds : ds.flatMap (·.target.identifiers) ⊆ ids) (hw : D.valid w) :
    Yields (c.compileDeclarators s kind ds) w
      (fun _ w' => ∀ id ∈ ds.flatMap (·.target.identifiers), D.Declared c s kind id w w') (fun _ _ => True) := by
  induction ds generalizing w with
  | nil => exact List.forall_mem_nil _
  | cons d rest ih =>
    rw [List.flatMap_cons, List.append_subset] at hds
    simp only [Compiler.compileDeclarators, yields_bind, yields_pure]
    refine Yields.mono ((hD.declares_compileDeclarator hc hds.1 hw).and (hD.declared_compileDeclarator hc hds.1 hw))
      (fun _ w₁ h => ?_) (fun _ _ _ => trivial)
    have hleaves := hD.leaves_of_emits h.1
    have hw₁ := hD.valid_of_leaves hw hleaves
    refine Yields.mono ((hD.declares_compileDeclarators hc hds.2 hw₁).and (ih hds.2 hw₁)) (fun _ w₂ h' => ?_)
      (fun _ _ _ => trivial)
    intro id hid
    rcases List.mem_append.1 (List.flatMap_cons ▸ hid) with hid | hid
    · exact hD.declared_before (hD.leaves_of_emits h'.1) (h.2 id hid)
    · exact hD.declared_after hleaves (h'.2 id hid)

theorem Laws.declared_compileDeclaration (hD : D.Laws) {d : Declaration} (hc : D.Governs c s d.kind ids)
    (hd : d.declarators.flatMap (·.target.identifiers) ⊆ ids) (hw : D.valid w) :
    Yields (c.compileDeclaration s d) w
      (fun _ w' => ∀ id ∈ d.declarators.flatMap (·.target.identifiers), D.Declared c s d.kind id w w')
      (fun _ _ => True) := by
  rw [Compiler.compileDeclaration, yields_attributing]
  exact hD.declared_compileDeclarators hc hd hw

theorem Laws.declared_form (hD : D.Laws) (d : DeclarationForm κ) (hc : D.Governs c s d.kind d.identifiers)
    (hw : D.valid w) (hinit : ∀ v ∈ d.init?, D.knows w v) :
    Yields (d.run c s) w (fun _ w' => ∀ id ∈ d.identifiers, D.Declared c s d.kind id w w') (fun _ _ => True) := by
  cases d with
  | pattern kind p init => exact hD.declared_declare hc (List.Subset.refl _) init hw hinit
  | declarator kind d => exact hD.declared_compileDeclarator hc (List.Subset.refl _) hw
  | declaration d => exact hD.declared_compileDeclaration hc (List.Subset.refl _) hw

end DeclarationContract

end DeclCompiler
