import DeclCompiler.Proofs.Declaration
import DeclCompiler.Proofs.Identifier

/-!
What exists only while compiling stays out of the program. An instruction is clean if none of its operands
is an object or a function and it writes a variable, which is its first operand. As long as host code
returns clean instructions, so does everything that can be asked of the compiler.
-/

namespace DeclCompiler

variable {κ η : Type}

def Value.isStore : Value κ → Bool
  | .store .. => true
  | _ => false

structure Instruction.Clean (i : Instruction κ) : Prop where
  operands : ∀ v ∈ i.operands, v.isMacro = false
  output : ∃ output ∈ i.output, output.isStore = true ∧ ∃ first ∈ i.operands.head?, output.same first = true

/-- Macro functions and handlers return clean instructions only. -/
def Host.EmitsClean (host : Host κ η) : Prop :=
  ∀ code s arguments w r w', host.invoke code s arguments w = .ok r w' → ∀ i ∈ r.2, i.Clean

def Evaluator.EmitsClean (evaluator : Evaluator κ η) : Prop :=
  ∀ s e w r w', evaluator.eval s e w = .ok r w' ∨ evaluator.consume s e w = .ok r w' → ∀ i ∈ r.2, i.Clean

/-- The evaluator of an action, if it has one, returns clean instructions only. -/
def Action.EvaluatesClean : Action κ η → Prop
  | .act _ (.declare _ evaluator _) => evaluator.EmitsClean
  | _ => True

namespace Clean

theorem into {opcode : Opcode} {output : Value κ} {arguments : List (Value κ)} (hout : output.isStore = true)
    (ha : ∀ v ∈ arguments, v.isMacro = false) : (Instruction.into opcode output arguments).Clean := by
  have hm : output.isMacro = false := by
    cases output <;> simp_all [Value.isStore, Value.isMacro]
  refine ⟨?_, output, rfl, hout, output, rfl, ?_⟩
  · simpa [Instruction.into] using ⟨hm, ha⟩
  · simp [Value.same]

theorem withSource {i : Instruction κ} (h : i.Clean) (span : Span) : (i.withSource span).Clean :=
  ⟨h.operands, h.output⟩

/-- Nothing is said about states and values, only that instructions are clean. -/
def contract (κ η : Type) : DeclarationContract κ η where
  valid _ := True
  knows _ _ := True
  knowsFn _ _ := True
  allows _ code _ := ∀ i ∈ code, i.Clean
  emits _ code _ := ∀ i ∈ code, i.Clean
  leaves _ _ := True

theorem append {code more : List (Instruction κ)} (h : ∀ i ∈ code, i.Clean) (h' : ∀ i ∈ more, i.Clean) :
    ∀ i ∈ code ++ more, i.Clean :=
  List.forall_mem_append.2 ⟨h, h'⟩

theorem map_withSource {code : List (Instruction κ)} (span : Span) (h : ∀ i ∈ code, i.Clean) :
    ∀ i ∈ code.map (·.withSource span), i.Clean := by
  intro i hi
  obtain ⟨j, hj, rfl⟩ := List.mem_map.1 hi
  exact withSource (h j hj) span

theorem contract_laws : (contract κ η).Laws where
  refl _ := List.forall_mem_nil _
  trans h h' := append h h'
  valid_next _ _ := trivial
  knows_next _ _ := trivial
  knows_member _ _ := trivial
  knows_handler _ _ := trivial
  knows_function _ := trivial
  literal _ _ := ⟨List.forall_mem_nil _, trivial⟩
  temporary opcode arguments _ hmake ha := by
    cases hmake
    exact ⟨List.forall_mem_singleton.2 (into rfl fun v hv => (ha v hv).1), trivial⟩
  assign opcode arguments _ _ _ ha := List.forall_mem_singleton.2 (into rfl fun v hv => (ha v hv).1)
  forget _ := List.forall_mem_nil _
  withSource span h := map_withSource span h
  emits_of_allows h := h
  emits_trans h h' := append h h'
  emits_withSource span h := map_withSource span h
  leaves_of_emits _ := trivial
  leaves_trans _ _ := trivial
  valid_of_leaves _ _ := trivial
  knows_of_leaves _ _ := trivial

theorem binds {host : Host κ η} (h : host.EmitsClean) : (contract κ η).Binds host := by
  intro name code s arguments w _ _ _
  unfold Contract.Calls Contract.Keeps Yields
  split
  next r w' hr => exact ⟨h code s arguments w r w' hr, fun _ _ => trivial⟩
  next => exact List.forall_mem_nil _

theorem bindsEvaluator {evaluator : Evaluator κ η} (h : evaluator.EmitsClean) :
    (contract κ η).BindsEvaluator evaluator := by
  intro s e w _
  unfold Contract.Computes Contract.Keeps Yields
  constructor
  · split
    next r w' hr => exact ⟨h s e w r w' (.inl hr), trivial⟩
    next => exact List.forall_mem_nil _
  · split
    next r w' hr => exact ⟨h s e w r w' (.inr hr), trivial⟩
    next => exact List.forall_mem_nil _

theorem bindsIdentifiers (c : Compiler κ η) (s : Scope) (kind : DeclKind) (ids : List Identifier) :
    (contract κ η).BindsIdentifiers c s kind ids := by
  intro id _ init w _ _
  unfold Yields
  split
  next code w' h =>
    obtain ⟨-, ⟨v, -, -, -, rfl, -⟩ | ⟨-, -, rfl, -⟩ | ⟨v, -, hv, rfl, -⟩⟩ := Compiler.declareIdentifier_ok h
    · exact List.forall_mem_nil _
    · exact List.forall_mem_nil _
    · exact List.forall_mem_singleton.2 (into rfl (by simpa using hv))
  next => trivial

theorem governs {host : Host κ η} {evaluator : Evaluator κ η} (hhost : host.EmitsClean)
    (hev : evaluator.EmitsClean) (options : Options) (s : Scope) (kind : DeclKind) (ids : List Identifier) :
    (contract κ η).Governs ⟨host, options, evaluator⟩ s kind ids :=
  ⟨binds hhost, bindsEvaluator hev, bindsIdentifiers _ s kind ids⟩

/-- The instructions of one action are clean. -/
theorem action {host : Host κ η} (hhost : host.EmitsClean) {a : Action κ η} (ha : a.EvaluatesClean)
    {w w' : CompileState κ η} {code : List (Instruction κ)} (h : a.run host w = .ok code w') :
    ∀ i ∈ code, i.Clean := by
  have hlaws := contract_laws (κ := κ) (η := η)
  cases a with
  | openRoot | openChild | drop =>
    rw [eq_of_map_const h]
    exact List.forall_mem_nil _
  | act s op =>
    cases op with
    | makeValue | makeStore | makeTemporary | bind | bindBuiltins | note =>
      rw [eq_of_map_const h]
      exact List.forall_mem_nil _
    | request q => exact (hlaws.yields_request (binds hhost) s trivial fun v _ => trivial).of_ok h
    | declare options evaluator d =>
      exact (hlaws.declares_form d (governs hhost ha options s d.kind _) trivial fun _ _ => trivial).of_ok h

theorem basicEvaluator {host : Host κ η} (hhost : host.EmitsClean) (externals : List (Nat × Value κ)) :
    (Evaluator.basic host externals).EmitsClean := by
  have hbinds : (contract κ η).BindsEvaluator (.basic host externals) :=
    contract_laws.bindsEvaluator_basic (binds hhost) (fun _ _ _ _ _ _ => trivial) (fun _ _ _ _ _ => trivial)
  intro s e w r w' h
  rcases h with h | h
  · exact ((hbinds s e w trivial).1.of_ok h).1
  · exact ((hbinds s e w trivial).2.of_ok h).1

end Clean

/-- As long as host code and evaluators return clean instructions, so does every action, from any state. So
no run, however long, puts an object or a function into the program. -/
theorem actions_emit_clean {host : Host κ η} (hhost : host.EmitsClean) :
    (∀ (a : Action κ η) w code w', a.EvaluatesClean → a.run host w = .ok code w' → ∀ i ∈ code, i.Clean) ∧
      ∀ w program w', Run host (fun _ a => a.EvaluatesClean) w program w' →
        ∀ i ∈ program, i.Clean ∧ ∀ v ∈ i.operands, v.isMacro = false := by
  have haction : ∀ (a : Action κ η) w code w', a.EvaluatesClean → a.run host w = .ok code w' → ∀ i ∈ code, i.Clean :=
    fun a w code w' ha h => Clean.action hhost ha h
  refine ⟨haction, fun w program w' hrun => ?_⟩
  have hprogram : ∀ i ∈ program, i.Clean := by
    induction hrun with
    | start => exact List.forall_mem_nil _
    | ok _ ha h ih => exact Clean.append ih (haction _ _ _ _ ha h)
    | error _ _ _ ih => exact ih
  exact fun i hi => ⟨hprogram i hi, (hprogram i hi).operands⟩

/-! ### A declaration that runs host code -/

theorem Host.keeping_emitsClean : Host.keeping.EmitsClean := by
  intro code s arguments w r w' h
  have hinert : (Host.inert Unit Unit).EmitsClean := by
    intro code s arguments w r w' h
    cases h
  match arguments with
  | [] | _ :: _ :: _ => cases h
  | [v] =>
    have hrun : Yields (Host.keeping.invoke code s [v]) w (fun r _ => ∀ i ∈ r.2, i.Clean) (fun _ _ => True) := by
      unfold Host.keeping
      simp only [yields_bind, yields_pure, yields_makeTemporary]
      refine Yields.mono (Clean.contract_laws.computes_operate (Clean.binds hinert) trivial trivial ?_)
        (fun r' _ hr' => hr'.1) (fun _ _ _ => trivial)
      exact fun _ _ => trivial
    exact hrun.of_ok h

/-- `let {k: a} = o`, where reading the member emits an instruction. -/
def readMember : Action Unit Unit :=
  .act ⟨0, 0, 0, []⟩ (.declare .standard (.basic .keeping []) (.pattern .letDecl
    (.object [.keyed ⟨.identifier "k", .onLine 1 5 6⟩ (.identifier ⟨"a", .onLine 1 8 9⟩) false (.onLine 1 5 9)]
      (.onLine 1 4 10))
    (some answering)))

theorem readMember_emits_clean :
    ∃ code w', readMember.run .keeping (CompileState.initial ()).addRoot.2 = .ok code w' ∧ code.length = 2 ∧
      ∀ i ∈ code, i.Clean := by
  have hrun : readMember.run .keeping (CompileState.initial ()).addRoot.2 = .ok _ _ := rfl
  have hev := Clean.basicEvaluator Host.keeping_emitsClean []
  exact ⟨_, _, hrun, rfl, (actions_emit_clean Host.keeping_emitsClean).1 readMember _ _ _ hev hrun⟩

end DeclCompiler
