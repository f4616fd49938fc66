import DeclCompiler.Proofs.Locality
import DeclCompiler.Proofs.Names

/-!
Accounts of what is done in a scope. Whatever host code, the evaluator and declarations do there, it comes
down to a few changes of the state: values are made, temporaries are numbered, and free names are bound. An
account lists the changes that leave a trace, and names the identifier of a declaration that a binding is for.
-/

namespace DeclCompiler

variable {κ η α : Type}

/-! ### Deeds -/

/-- What an account lists. -/
inductive Deed (κ : Type)
  /-- The scope asked for a temporary. -/
  | temporary (s : Scope) (v : Value κ)
  /-- A variable was made for an identifier of a declaration. -/
  | declared (s : Scope) (id : Identifier) (v : Value κ)
  /-- An identifier of a declaration became another name for a value. -/
  | aliased (s : Scope) (id : Identifier) (v : Value κ)
  | bound (s : Scope) (b : Binding κ)

namespace Deed

def leaf? : Deed κ → Option Identifier
  | .declared _ id _ | .aliased _ id _ => some id
  | .temporary .. | .bound .. => none

def binding? : Deed κ → Option (Binding κ)
  | .bound _ b => some b
  | .temporary .. | .declared .. | .aliased .. => none

/-- The identifiers of declarations that were declared, in their order. -/
def leaves (log : List (Deed κ)) : List Identifier := log.filterMap leaf?

/-- All bindings, in the order in which they were made. -/
def bindings (log : List (Deed κ)) : List (Binding κ) := log.filterMap binding?

@[simp] theorem bindings_nil : bindings ([] : List (Deed κ)) = [] := rfl

@[simp] theorem leaves_append (log more : List (Deed κ)) : leaves (log ++ more) = leaves log ++ leaves more :=
  List.filterMap_append

@[simp] theorem bindings_append (log more : List (Deed κ)) :
    bindings (log ++ more) = bindings log ++ bindings more :=
  List.filterMap_append

end Deed

/-! ### Changes -/

/-- A change of the state that is made in the scope, with its deeds. Names are bound in the scope itself,
while temporaries may be numbered for any. -/
inductive Change (s : Scope) : List (Deed κ) → CompileState κ η → CompileState κ η → Prop
  | value (w : CompileState κ η) : Change s [] w { w with values := w.values + 1 }
  | grade (w : CompileState κ η) (v : Value κ) (m : Mutability) : Change s [] w (w.setMutability v m)
  | note (w : CompileState κ η) (state : η) : Change s [] w { w with host := state }
  | temporary {w w' : CompileState κ η} {v : Value κ} (t : Scope) (ht : t.compilation < w.counters.length)
      (h : t.makeTemporary w = .ok v w') : Change s [.temporary t v] w w'
  | bind {w w' : CompileState κ η} (b : Binding κ) (h : s.bind b w = .ok () w') : Change s [.bound s b] w w'
  | declared {w w' : CompileState κ η} {v : Value κ} (c : Compiler κ η) (id : Identifier)
      (h : s.makeStore id.name (c.variableName id) w = .ok v w') :
      Change s [.declared s id v, .bound s (c.binding s id v false)] w w'
  | aliased {w w' : CompileState κ η} (c : Compiler κ η) (id : Identifier) (v : Value κ)
      (hv : w.mutability v = .immutable) (h : s.bind (c.binding s id v true) w = .ok () w') :
      Change s [.aliased s id v, .bound s (c.binding s id v true)] w w'

/-- Changes one after another. -/
inductive Changes (s : Scope) : List (Deed κ) → CompileState κ η → CompileState κ η → Prop
  | refl (w : CompileState κ η) : Changes s [] w w
  | snoc {log more : List (Deed κ)} {w w₁ w₂ : CompileState κ η} (h : Changes s log w w₁) (h' : Change s more w₁ w₂) :
      Changes s (log ++ more) w w₂

variable {s : Scope} {log more : List (Deed κ)} {w w' w₁ w₂ : CompileState κ η}

theorem Changes.single (h : Change s log w w') : Changes s log w w' := .snoc (.refl w) h

theorem Changes.trans (h : Changes s log w w₁) (h' : Changes s more w₁ w₂) : Changes s (log ++ more) w w₂ := by
  induction h' with
  | refl w₁ => rwa [List.append_nil]
  | snoc _ hlast ih =>
    rw [← List.append_assoc]
    exact .snoc (ih h) hlast

/-- The records that deeds are about are the same. -/
structure SameRecords (w w' : CompileState κ η) : Prop where
  tables : w'.tables = w.tables
  counters : w'.counters = w.counters
  owners : w'.owners = w.owners

theorem SameRecords.own? (h : SameRecords w w') (i : Nat) (identifier : String) :
    w'.own? i identifier = w.own? i identifier := by
  simp only [CompileState.own?, CompileState.table, h.tables]

theorem SameRecords.owner? (h : SameRecords w w') (v : Value κ) : w'.owner? v = w.owner? v := by
  simp only [CompileState.owner?, h.owners, h.own?]

theorem Scope.bind_eq_ok {b : Binding κ} (h : s.bind b w = .ok () w') :
    w.own? s.table b.identifier = none ∧ w' = w.enter s b := by
  rw [Scope.bind_eq] at h
  split at h
  · cases h
  next hnone =>
    cases h
    exact ⟨by simpa using hnone, rfl⟩

theorem Scope.bind_of_none {b : Binding κ} (h : w.own? s.table b.identifier = none) :
    s.bind b w = .ok () (w.enter s b) := by
  simp [Scope.bind_eq, h]

/-- A change leaves the records alone, or numbers a temporary, or enters a binding whose name was free. -/
theorem Change.cases (h : Change s log w w') :
    (log = [] ∧ SameRecords w w') ∨
    (∃ t v, log = [.temporary t v] ∧ t.compilation < w.counters.length ∧ t.makeTemporary w = .ok v w') ∨
    ∃ b w₀, Deed.bindings log = [b] ∧ (∀ deed ∈ log, ∀ t v, deed ≠ .temporary t v) ∧
      w.own? s.table b.identifier = none ∧ SameRecords w w₀ ∧ w' = w₀.enter s b := by
  cases h with
  | value | grade | note => exact .inl ⟨rfl, rfl, rfl, rfl⟩
  | temporary t ht h => exact .inr (.inl ⟨t, _, rfl, ht, h⟩)
  | bind b h =>
    obtain ⟨hnone, rfl⟩ := Scope.bind_eq_ok h
    exact .inr (.inr ⟨b, w, rfl, by simp, hnone, ⟨rfl, rfl, rfl⟩, rfl⟩)
  | aliased c id v hv h =>
    obtain ⟨hnone, rfl⟩ := Scope.bind_eq_ok h
    exact .inr (.inr ⟨_, w, rfl, by simp, hnone, ⟨rfl, rfl, rfl⟩, rfl⟩)
  | declared c id h =>
    rw [c.makeStore_eq] at h
    split at h
    · cases h
    next hnone =>
      cases h
      refine .inr (.inr ⟨_, { w with values := w.values + 1 }, rfl, by simp, ?_, ⟨rfl, rfl, rfl⟩, rfl⟩)
      simpa [Compiler.binding] using hnone

/-! ### What is done besides declaring -/

/-- Changes by which no identifier of a declaration is declared. -/
def Aside (s : Scope) (w w' : CompileState κ η) : Prop := ∃ log, Changes s log w w' ∧ Deed.leaves log = []

theorem Aside.refl (w : CompileState κ η) : Aside s w w := ⟨[], .refl w, rfl⟩

theorem Aside.trans (h : Aside s w w₁) (h' : Aside s w₁ w₂) : Aside s w w₂ := by
  obtain ⟨log, hlog, hleaves⟩ := h
  obtain ⟨more, hmore, hleaves'⟩ := h'
  exact ⟨log ++ more, hlog.trans hmore, by rw [Deed.leaves_append, hleaves, hleaves']; rfl⟩

theorem Aside.single (h : Change s log w w') (hleaves : Deed.leaves log = []) : Aside s w w' :=
  ⟨log, .single h, hleaves⟩

theorem Aside.value (w : CompileState κ η) : Aside s w { w with values := w.values + 1 } :=
  .single (.value w) rfl

/-- A scope of no compilation gets a value and no number. -/
theorem Aside.temporary (t : Scope) {v : Value κ} (h : t.makeTemporary w = .ok v w') : Aside s w w' := by
  by_cases ht : t.compilation < w.counters.length
  · exact .single (.temporary t ht h) rfl
  · have hmake : t.makeTemporary w = .ok (.store w.values (temporaryName (w.countersOf t).temporaries) true)
        { (w.addTemporary t).2 with values := w.values + 1 } := rfl
    have hcounters : (w.addTemporary t).2.counters = w.counters := List.modify_eq_self (by omega)
    rw [hmake] at h
    cases h
    rw [show ({ (w.addTemporary t).2 with values := w.values + 1 } : CompileState κ η) =
      { w with values := w.values + 1 } by rw [CompileState.mk.injEq]; exact ⟨rfl, rfl, hcounters, rfl, rfl, rfl⟩]
    exact .value w

/-- However it ends, the action declares no identifier and binds names in the scope alone. -/
def StaysIn (s : Scope) (x : CompileM κ η α) : Prop :=
  ∀ w, Yields x w (fun _ w' => Aside s w w') (fun _ w' => Aside s w w')

/-- Host code that does its work in the scope where it is called. -/
def Host.Local (host : Host κ η) : Prop := ∀ code s arguments, StaysIn s (host.invoke code s arguments)

def Evaluator.Local (evaluator : Evaluator κ η) : Prop :=
  ∀ s e, StaysIn s (evaluator.eval s e) ∧ StaysIn s (evaluator.consume s e)

def accounting (κ η : Type) (s : Scope) : DeclarationContract κ η where
  valid _ := True
  knows _ _ := True
  knowsFn _ _ := True
  allows w _ w' := Aside s w w'
  emits w _ w' := Aside s w w'
  leaves w w' := Aside s w w'

theorem accounting_laws (s : Scope) : (accounting κ η s).Laws where
  refl _ := .refl _
  trans h h' := h.trans h'
  valid_next _ _ := trivial
  knows_next _ _ := trivial
  knows_member _ _ := trivial
  knows_handler _ _ := trivial
  knows_function _ := trivial
  literal _ hmake := by
    cases hmake
    exact ⟨.value _, trivial⟩
  temporary _ _ _ hmake _ := ⟨.temporary _ hmake, trivial⟩
  assign _ _ _ _ _ _ := .refl _
  forget h := h
  withSource _ h := h
  emits_of_allows h := h
  emits_trans h h' := h.trans h'
  emits_withSource _ h := h
  leaves_of_emits h := h
  leaves_trans h h' := h.trans h'
  valid_of_leaves _ _ := trivial
  knows_of_leaves _ _ := trivial

theorem Host.Local.binds {host : Host κ η} (h : host.Local) (s : Scope) :
    (accounting κ η s).Binds (host.within s) :=
  (accounting_laws s).toLaws.binds_within fun _ code arguments w _ _ _ =>
    (h code s arguments w).mono (fun _ _ h => ⟨h, fun _ _ => trivial⟩) (fun _ _ h => h)

theorem Evaluator.Local.binds {evaluator : Evaluator κ η} (h : evaluator.Local) (s : Scope) :
    (accounting κ η s).BindsEvaluator (evaluator.within s) :=
  (accounting_laws s).toLaws.bindsEvaluator_within fun e w _ =>
    ⟨((h s e).1 w).mono (fun _ _ h => ⟨h, trivial⟩) (fun _ _ h => h),
      ((h s e).2 w).mono (fun _ _ h => ⟨h, trivial⟩) (fun _ _ h => h)⟩

/-- Every use of a capability stays in its scope. -/
theorem Host.Local.request {host : Host κ η} (h : host.Local) (s : Scope) (q : Request κ) :
    StaysIn s (q.run host s) := by
  intro w
  rw [← Request.run_within]
  exact Yields.mono ((accounting_laws s).calls_request (h.binds s) trivial fun _ _ => trivial)
    (fun _ _ h => h.1) (fun _ _ h => h)

theorem Evaluator.basic_local {host : Host κ η} (h : host.Local) (externals : List (Nat × Value κ)) :
    (Evaluator.basic host externals).Local := by
  intro s e
  have hbinds : (accounting κ η s).BindsEvaluator (.basic (host.within s) externals) :=
    (accounting_laws s).bindsEvaluator_basic (h.binds s) (fun _ _ _ _ _ _ => trivial) (fun _ _ _ _ _ => trivial)
  have hconsume : (Evaluator.basic (host.within s) externals).consume s e =
      (Evaluator.basic host externals).consume s e := consumeAfter_within host s _ e
  refine ⟨fun w => ?_, fun w => ?_⟩
  · exact (hbinds s e w trivial).1.mono (fun _ _ h => h.1) (fun _ _ h => h)
  · rw [← hconsume]
    exact (hbinds s e w trivial).2.mono (fun _ _ h => h.1) (fun _ _ h => h)

/-! ### Declarations -/

/-- The action declares the given identifiers, or a first part of them if it fails. -/
def Accounts (s : Scope) (ids : List Identifier) (x : CompileM κ η α) : Prop :=
  ∀ w, Yields x w (fun _ w' => ∃ log, Changes s log w w' ∧ Deed.leaves log = ids)
    (fun _ w' => ∃ log, Changes s log w w' ∧ Deed.leaves log <+: ids)

theorem StaysIn.accounts {x : CompileM κ η α} (h : StaysIn s x) : Accounts s [] x :=
  fun w => (h w).mono (fun _ _ h => h) (fun _ _ ⟨log, hlog, hleaves⟩ => ⟨log, hlog, by simp [hleaves]⟩)

theorem Accounts.pure (a : α) : Accounts s [] (pure a : CompileM κ η α) := fun w => ⟨[], .refl w, rfl⟩

theorem Accounts.bind {β : Type} {ids ids' : List Identifier} {x : CompileM κ η α} {f : α → CompileM κ η β}
    (hx : Accounts s ids x) (hf : ∀ a, Accounts s ids' (f a)) : Accounts s (ids ++ ids') (x >>= f) := by
  intro w
  rw [yields_bind]
  refine (hx w).mono (fun a w₁ ⟨log, hlog, hids⟩ => ?_) (fun _ _ ⟨log, hlog, hids⟩ => ?_)
  · refine (hf a w₁).mono (fun _ _ ⟨more, hmore, hids'⟩ => ?_) (fun _ _ ⟨more, hmore, hids'⟩ => ?_)
    · exact ⟨log ++ more, hlog.trans hmore, by rw [Deed.leaves_append, hids, hids']⟩
    · refine ⟨log ++ more, hlog.trans hmore, ?_⟩
      rw [Deed.leaves_append, hids]
      exact (List.prefix_append_right_inj ids).2 hids'
  · exact ⟨log, hlog, hids.trans (List.prefix_append ids ids')⟩

theorem Accounts.map {β : Type} {ids : List Identifier} {x : CompileM κ η α} (hx : Accounts s ids x) (f : α → β) :
    Accounts s ids (f <$> x) :=
  fun w => (yields_map f).2 (hx w)

section Declaring

variable {c : Compiler κ η} {kind : DeclKind}

theorem changes_withVariable (c : Compiler κ η) {id : Identifier} (hnone : w.own? s.table id.name = none) :
    Changes s [.declared s id (c.newVariable id w), .bound s (c.binding s id (c.newVariable id w) false)] w
      (c.withVariable s id w) :=
  .single (.declared c id (by simp [c.makeStore_eq, hnone]))

theorem accounts_declareIdentifier (c : Compiler κ η) (s : Scope) (kind : DeclKind) (id : Identifier)
    (init : Option (Value κ)) : Accounts s [id] (c.declareIdentifier s kind id init) := by
  intro w
  unfold Yields
  split
  next code w' h =>
    obtain ⟨hnone, ⟨v, -, -, hv, -, rfl⟩ | ⟨-, -, -, rfl⟩ | ⟨v, -, -, -, rfl⟩⟩ := Compiler.declareIdentifier_ok h
    · exact ⟨_, .single (.aliased c id v hv (Scope.bind_of_none hnone)), rfl⟩
    · exact ⟨_, changes_withVariable c hnone, rfl⟩
    · unfold Compiler.afterSet
      split
      · exact ⟨_, (changes_withVariable c hnone).snoc (.grade _ _ _), rfl⟩
      · exact ⟨_, changes_withVariable c hnone, rfl⟩
  next e w' h =>
    obtain rfl | rfl | ⟨-, hnone, rfl⟩ := Compiler.declareIdentifier_error h
    · exact ⟨[], .refl _, List.nil_prefix⟩
    · exact ⟨[], .single (.value w), List.nil_prefix⟩
    · exact ⟨_, changes_withVariable c hnone, List.prefix_rfl⟩

theorem accounts_step (hhost : c.host.Local) (hev : c.evaluator.Local) (v : Visit) (parts : Parts κ) :
    Accounts s v.identifier?.toList (v.step c s kind parts) := by
  have hsilent : v.identifier? = none → StaysIn s (v.step c s kind parts) := by
    intro hv w
    rw [← Visit.step_within]
    exact Yields.mono ((accounting_laws s).visits_step_of_none (hhost.binds s) (hev.binds s) trivial hv
      fun _ _ _ _ => trivial) (fun _ _ h => h.1) (fun _ _ h => h)
  cases v with
  | identifier id =>
    cases parts with
    | nil => exact fun w => ⟨[], .refl w, List.nil_prefix⟩
    | cons init rest =>
      intro w
      simp only [Visit.step, yields_bind, yields_attributing, yields_pure]
      exact accounts_declareIdentifier c s kind id init w
  | _ => exact (hsilent rfl).accounts

theorem accounts_run (hhost : c.host.Local) (hev : c.evaluator.Local) (visits : List Visit) (parts : Parts κ) :
    Accounts s (Visit.identifiers visits) (Visit.run c s kind visits parts) := by
  induction visits generalizing parts with
  | nil => exact .pure _
  | cons v rest ih =>
    rw [Visit.run_cons, Visit.identifiers_cons]
    refine (accounts_step hhost hev v parts).bind fun r => ?_
    simpa using (ih r.1).bind fun _ => .pure _

/-- A declaration accounts for the identifiers of its pattern. -/
theorem accounts_declare (hhost : c.host.Local) (hev : c.evaluator.Local) (p : Pattern) (init : Option (Value κ)) :
    Accounts s p.identifiers (c.declare s kind p init) := by
  rw [Compiler.declare_eq_run, ← p.identifiers_visits 0]
  exact (accounts_run hhost hev (p.visits 0) [init]).map _

theorem Accounts.attributing {ids : List Identifier} {x : CompileM κ η (List (Instruction κ))}
    (hx : Accounts s ids x) (span : Span) : Accounts s ids (attributing span x) := by
  intro w
  rw [yields_attributing]
  exact hx w

theorem accounts_compileDeclarator (hhost : c.host.Local) (hev : c.evaluator.Local) (d : Declarator) :
    Accounts s d.target.identifiers (c.compileDeclarator s kind d) := by
  refine Accounts.attributing ?_ d.span
  cases d.init with
  | none => exact accounts_declare hhost hev d.target none
  | some e =>
    refine ((hev s e).1.accounts).bind fun r => ?_
    simpa using (accounts_declare hhost hev d.target (some r.1)).bind fun _ => .pure _

/-- A declaration with several declarators accounts for the identifiers of all. -/
theorem accounts_compileDeclaration (hhost : c.host.Local) (hev : c.evaluator.Local) (d : Declaration) :
    Accounts s (d.declarators.flatMap (·.target.identifiers)) (c.compileDeclaration s d) := by
  refine Accounts.attributing ?_ d.span
  induction d.declarators with
  | nil => exact .pure _
  | cons d rest ih =>
    rw [List.flatMap_cons]
    refine (accounts_compileDeclarator hhost hev d).bind fun code => ?_
    simpa using ih.bind fun _ => .pure _

end Declaring

end DeclCompiler
