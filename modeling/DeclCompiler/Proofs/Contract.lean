import DeclCompiler.Proofs.Run

/-!
Contracts that host code and the built-in operations keep alike.

A contract says which states it is about, which values and functions may be used in a state, and which
changes of the state may go with which instructions. If it allows the few things that built-in operations
do by themselves, and host code keeps it, then every use of a capability keeps it, however host code and
built-in operations call one another.
-/

namespace DeclCompiler

variable {κ η α : Type}

/-- An instruction that computes its output from the arguments. -/
def Instruction.into (opcode : Opcode) (output : Value κ) (arguments : List (Value κ)) : Instruction κ :=
  { opcode := opcode, output := some output, operands := output :: arguments }

structure Contract (κ η : Type) where
  valid : CompileState κ η → Prop
  knows : CompileState κ η → Value κ → Prop
  knowsFn : CompileState κ η → MacroFn κ → Prop
  /-- Whether the state may change from the first to the second while the instructions are emitted. -/
  allows : CompileState κ η → List (Instruction κ) → CompileState κ η → Prop

namespace Contract

variable (K : Contract κ η)

/-- What built-in operations need of a contract. Apart from calling host code, all they do is to make a
constant, to write a new temporary, and to assign to a variable that may be assigned. -/
structure Laws : Prop where
  refl {w} : K.valid w → K.allows w [] w
  trans {w w₁ w₂ code more} : K.allows w code w₁ → K.allows w₁ more w₂ → K.allows w (code ++ more) w₂
  valid_next {w w' code} : K.valid w → K.allows w code w' → K.valid w'
  knows_next {w w' code v} : K.allows w code w' → K.knows w v → K.knows w' v
  knows_member {w id o key v} : K.knows w (.object id o) → o.get? key = some v → K.knows w v
  knows_handler {w id o h f} : K.knows w (.object id o) → o.handler? h = some f → K.knowsFn w f
  knows_function {w id f} : K.knows w (.function id f) → K.knowsFn w f
  literal {w w' l v} : K.valid w → newLiteral l w = .ok v w' → K.allows w [] w' ∧ K.knows w' v
  temporary {w w' output} {s : Scope} (opcode arguments) : K.valid w → s.makeTemporary w = .ok output w' →
    (∀ v ∈ arguments, v.isMacro = false ∧ K.knows w v) →
    K.allows w [.into opcode output arguments] w' ∧ K.knows w' output
  assign {w id name temporary} (opcode arguments) : K.valid w → K.knows w (.store id name temporary) →
    w.mutability (.store id name temporary) = .writable →
    (∀ v ∈ arguments, v.isMacro = false ∧ K.knows w v) →
    K.allows w [.into opcode (.store id name temporary) arguments] w
  /-- Instructions may be dropped altogether. -/
  forget {w w' code} : K.allows w code w' → K.allows w [] w'
  withSource {w w' code} (span : Span) : K.allows w code w' → K.allows w (code.map (·.withSource span)) w'

/-- The action does what the contract allows. `known` says what is known about its result. -/
def Keeps (known : CompileState κ η → α → Prop) (x : CompileM κ η (α × List (Instruction κ)))
    (w : CompileState κ η) : Prop :=
  Yields x w (fun r w' => K.allows w r.2 w' ∧ known w' r.1) (fun _ w' => K.allows w [] w')

abbrev Computes (x : CompileM κ η (Computed κ)) (w : CompileState κ η) : Prop := K.Keeps K.knows x w

abbrev Calls (x : CompileM κ η (Called κ)) (w : CompileState κ η) : Prop :=
  K.Keeps (fun w' r => ∀ v ∈ r, K.knows w' v) x w

/-- Host code keeps the contract wherever it may be called. -/
def Binds (host : Host κ η) : Prop :=
  ∀ name code s arguments w, K.valid w → K.knowsFn w (.host name code) → (∀ v ∈ arguments, K.knows w v) →
    K.Calls (host.invoke code s arguments) w

def BindsEvaluator (evaluator : Evaluator κ η) : Prop :=
  ∀ s e w, K.valid w → K.Computes (evaluator.eval s e) w ∧ K.Computes (evaluator.consume s e) w

variable {K} {host : Host κ η} {s : Scope} {w : CompileState κ η}

/-! ### Built-in operations -/

theorem Laws.computes_pure (hK : K.Laws) (hw : K.valid w) {v : Value κ} (hv : K.knows w v) :
    K.Computes (pure (v, [])) w :=
  ⟨hK.refl hw, hv⟩

theorem Laws.computes_newLiteral (hK : K.Laws) (l : Literal) (hw : K.valid w) :
    K.Computes (do return (← newLiteral l, [])) w :=
  hK.literal (l := l) hw rfl

/-- Writing a new temporary. -/
theorem Laws.yields_temporary (hK : K.Laws) (opcode : Opcode) (arguments : List (Value κ)) (hw : K.valid w)
    (ha : ∀ v ∈ arguments, v.isMacro = false ∧ K.knows w v) :
    Yields s.makeTemporary w (fun output w' => K.allows w [.into opcode output arguments] w' ∧ K.knows w' output)
      (fun _ w' => K.allows w [] w') :=
  hK.temporary opcode arguments hw rfl ha

theorem Laws.computes_emitOp (hK : K.Laws) (m : MachineOp) (arguments : List (Value κ)) (hw : K.valid w)
    (ha : ∀ v ∈ arguments, v.isMacro = false ∧ K.knows w v) :
    K.Computes (Value.emitOp s m arguments : CompileM κ η (Computed κ)) w := by
  unfold Computes Keeps Value.emitOp
  simp only [yields_bind, yields_pure]
  exact hK.yields_temporary (.op m) arguments hw ha

theorem Laws.calls_getLink (hK : K.Laws) (hw : K.valid w) {arguments : List (Value κ)}
    (ha : ∀ v ∈ arguments, K.knows w v) : K.Calls (callGetLink s arguments) w := by
  unfold Calls Keeps callGetLink
  match arguments with
  | [] | _ :: _ :: _ => exact hK.refl hw
  | [index] =>
    have hindex : K.knows w index := ha index (by simp)
    have hwrite (hm : index.isMacro = false) :=
      hK.yields_temporary (s := s) .getLink [index] hw (by simpa using ⟨hm, hindex⟩)
    cases index with
    | void | object | function => exact hK.refl hw
    | store =>
      simp only [yields_bind, yields_pure]
      exact (hwrite rfl).mono (fun output w' h => ⟨h.1, by simpa using h.2⟩) (fun _ _ h => h)
    | literal id l =>
      cases l with
      | string | bool => exact hK.refl hw
      | number =>
        simp only [yields_bind, yields_pure]
        exact (hwrite rfl).mono (fun output w' h => ⟨h.1, by simpa using h.2⟩) (fun _ _ h => h)

theorem Laws.computes_emitBinary (hK : K.Laws) (op : BinaryOp) {left right : Value κ} (hw : K.valid w)
    (hl : left.isMacro = false) (hleft : K.knows w left) (hright : K.knows w right) :
    K.Computes (Value.emitBinary s op left right : CompileM κ η (Computed κ)) w := by
  unfold Value.emitBinary
  cases hm : right.isMacro with
  | true => exact hK.refl hw
  | false =>
    cases MachineOp.ofBinary? op with
    | none => exact hK.refl hw
    | some m => exact hK.computes_emitOp m _ hw (by simp [hm, hl, hleft, hright])

/-- An operation of a variable with a new constant. -/
theorem Laws.computes_withLiteral (hK : K.Laws) (m : MachineOp) (l : Literal) {v : Value κ} (hw : K.valid w)
    (hm : v.isMacro = false) (hv : K.knows w v) (arguments : Value κ → List (Value κ))
    (ha : ∀ a, ∀ x ∈ arguments a, x = v ∨ x = a) :
    K.Computes (do Value.emitOp s m (arguments (← newLiteral l)) : CompileM κ η (Computed κ)) w := by
  obtain ⟨hallows, hknows⟩ := hK.literal (l := l) hw rfl
  have hemit := hK.computes_emitOp (s := s) m (arguments (.literal w.values l))
    (hK.valid_next hw hallows) fun x hx => by
      rcases ha _ x hx with rfl | rfl
      · exact ⟨hm, hK.knows_next hallows hv⟩
      · exact ⟨rfl, hknows⟩
  unfold Computes Keeps
  rw [yields_bind, yields_newLiteral]
  exact Yields.mono hemit (fun r w' h => ⟨hK.trans hallows h.1, h.2⟩) (fun _ w' h => hK.trans hallows h)

theorem Laws.computes_emitUnary (hK : K.Laws) (op : UnaryOp) {v : Value κ} (hw : K.valid w)
    (hm : v.isMacro = false) (hv : K.knows w v) :
    K.Computes (Value.emitUnary s op v : CompileM κ η (Computed κ)) w := by
  cases op with
  | neg => exact hK.computes_withLiteral .sub _ hw hm hv (fun a => [a, v]) (by simp)
  | plus => exact hK.computes_withLiteral .add _ hw hm hv (fun a => [v, a]) (by simp)
  | not => exact hK.computes_withLiteral .equal _ hw hm hv (fun a => [v, a]) (by simp)
  | bitNot => exact hK.computes_emitOp .not _ hw (by simp [hm, hv])
  | typeOf => exact hK.refl hw

theorem Laws.computes_emitAssign (hK : K.Laws) (op : AssignOp) {id : Nat} {name : String} {temporary : Bool}
    {value : Value κ} (hw : K.valid w) (htarget : K.knows w (.store id name temporary)) (hvalue : K.knows w value) :
    K.Computes (Value.emitAssign op name (.store id name temporary) value : CompileM κ η (Computed κ)) w := by
  unfold Computes Keeps Value.emitAssign
  simp only [yields_bind, yields_get]
  split
  · exact hK.refl hw
  next hm =>
    have hwritable : w.mutability (.store id name temporary) = .writable := by simpa using hm
    cases hv : value.isMacro with
    | true => exact hK.refl hw
    | false =>
      have hassign := fun opcode arguments => hK.assign opcode arguments hw htarget hwritable
      simp only [Bool.false_eq_true, ↓reduceIte]
      cases op.binary? with
      | none => exact ⟨hassign .set [value] (by simp [hv, hvalue]), htarget⟩
      | some binary =>
        dsimp only
        cases MachineOp.ofBinary? binary with
        | none => exact hK.refl hw
        | some m =>
          have hstore : (Value.store id name temporary : Value κ).isMacro = false := rfl
          exact ⟨hassign (.op m) [.store id name temporary, value] (by simp [hv, hvalue, htarget, hstore]), htarget⟩

/-! ### Capabilities -/

theorem Laws.calls_invoke (hK : K.Laws) (hhost : K.Binds host) {f : MacroFn κ} {arguments : List (Value κ)}
    (hw : K.valid w) (hf : K.knowsFn w f) (ha : ∀ v ∈ arguments, K.knows w v) :
    K.Calls (f.invoke host s arguments) w := by
  cases f with
  | getLink => exact hK.calls_getLink hw ha
  | host name code => exact hhost name code s arguments w hw hf ha

theorem Laws.computes_runHandler (hK : K.Laws) (hhost : K.Binds host) (h : Handler) {f : MacroFn κ}
    {arguments : List (Value κ)} (hw : K.valid w) (hf : K.knowsFn w f) (ha : ∀ v ∈ arguments, K.knows w v) :
    K.Computes (Value.runHandler host s h f arguments) w := by
  unfold Computes Keeps Value.runHandler
  simp only [yields_bind]
  refine Yields.mono (hK.calls_invoke hhost hw hf ha) (fun r w' hr => ?_) (fun _ _ h => h)
  obtain ⟨value, code⟩ := r
  cases value with
  | none => exact hK.forget hr.1
  | some v => exact ⟨hr.1, hr.2 v rfl⟩

theorem Laws.computes_eval (hK : K.Laws) (hhost : K.Binds host) {v : Value κ} (hw : K.valid w)
    (hv : K.knows w v) : K.Computes (v.eval host s) w := by
  cases v with
  | void => exact hK.refl hw
  | literal | store | function => exact hK.computes_pure hw hv
  | object id o =>
    dsimp only [Value.eval]
    cases hf : o.handler? .eval with
    | none => exact hK.computes_pure hw hv
    | some f => exact hK.computes_runHandler hhost .eval hw (hK.knows_handler hv hf) (by simp)

theorem Laws.computes_consume (hK : K.Laws) (hhost : K.Binds host) {v : Value κ} (hw : K.valid w)
    (hv : K.knows w v) : K.Computes (v.consume host s) w := by
  cases v with
  | void => exact hK.refl hw
  | literal | store | function => exact hK.computes_pure hw hv
  | object id o =>
    dsimp only [Value.consume]
    cases hf : o.handler? .consume with
    | some f => exact hK.computes_runHandler hhost .consume hw (hK.knows_handler hv hf) (by simp)
    | none =>
      unfold Computes Keeps
      simp only [yields_bind, yields_pure]
      refine Yields.mono (hK.computes_eval hhost hw hv) (fun r w' hr => ?_) (fun _ _ h => h)
      cases hresult : r.1 with
      | void | literal => simpa [Value.ensureOwned, hresult] using hK.forget hr.1
      | store | object | function => simpa [Value.ensureOwned, hresult] using hr

theorem Laws.computes_getMember (hK : K.Laws) (hhost : K.Binds host) {v key : Value κ} (hw : K.valid w)
    (hv : K.knows w v) (hkey : K.knows w key) : K.Computes (v.getMember host s key) w := by
  cases v with
  | void | store | function => exact hK.refl hw
  | literal id l =>
    cases l with
    | number | bool => exact hK.refl hw
    | string text =>
      dsimp only [Value.getMember]
      split
      · exact hK.computes_newLiteral _ hw
      · exact hK.refl hw
  | object id o =>
    dsimp only [Value.getMember]
    cases hm : o.member? key with
    | some member =>
      obtain ⟨l, -, hget⟩ := Option.bind_eq_some_iff.1 hm
      exact ⟨hK.refl hw, hK.knows_member hv hget⟩
    | none =>
      cases hf : o.handler? .get with
      | none => exact hK.refl hw
      | some f => exact hK.computes_runHandler hhost .get hw (hK.knows_handler hv hf) (by simpa using hkey)

theorem Laws.calls_call (hK : K.Laws) (hhost : K.Binds host) {v : Value κ} {arguments : List (Value κ)}
    (hw : K.valid w) (hv : K.knows w v) (ha : ∀ x ∈ arguments, K.knows w x) :
    K.Calls (v.call host s arguments) w := by
  cases v with
  | void | literal | store => exact hK.refl hw
  | function id f => exact hK.calls_invoke hhost hw (hK.knows_function hv) ha
  | object id o =>
    dsimp only [Value.call]
    cases hf : o.handler? .call with
    | none => exact hK.refl hw
    | some f => exact hK.calls_invoke hhost hw (hK.knows_handler hv hf) ha

theorem Laws.computes_operateLiteral (hK : K.Laws) {id : Nat} {l : Literal} {op : Operator}
    {operands : List (Value κ)} (hw : K.valid w) (hv : K.knows w (.literal id l)) (ho : ∀ x ∈ operands, K.knows w x) :
    K.Computes ((Value.literal id l).operate host s op operands) w := by
  dsimp only [Value.operate]
  split
  · exact hK.computes_newLiteral _ hw
  next op binary right =>
    cases hr : right.literal? with
    | none => exact hK.computes_emitBinary binary hw rfl hv (ho right (by simp))
    | some r =>
      dsimp only
      cases l.foldBinary? binary r with
      | none => exact hK.refl hw
      | some result => exact hK.computes_newLiteral _ hw
  · exact hK.refl hw

theorem Laws.computes_operateStore (hK : K.Laws) {id : Nat} {name : String} {temporary : Bool} {op : Operator}
    {operands : List (Value κ)} (hw : K.valid w) (hv : K.knows w (.store id name temporary))
    (ho : ∀ x ∈ operands, K.knows w x) :
    K.Computes ((Value.store id name temporary).operate host s op operands) w := by
  dsimp only [Value.operate]
  split
  next assign value => exact hK.computes_emitAssign assign hw hv (ho value (by simp))
  next binary right => exact hK.computes_emitBinary binary hw rfl hv (ho right (by simp))
  next unary => exact hK.computes_emitUnary unary hw rfl hv
  next => exact hK.refl hw

theorem Laws.computes_operate (hK : K.Laws) (hhost : K.Binds host) {v : Value κ} {op : Operator}
    {operands : List (Value κ)} (hw : K.valid w) (hv : K.knows w v) (ho : ∀ x ∈ operands, K.knows w x) :
    K.Computes (v.operate host s op operands) w := by
  cases v with
  | void => exact hK.refl hw
  | literal => exact hK.computes_operateLiteral hw hv ho
  | store => exact hK.computes_operateStore hw hv ho
  | function =>
    dsimp only [Value.operate]
    split
    · exact hK.computes_newLiteral _ hw
    · exact hK.refl hw
  | object id o =>
    dsimp only [Value.operate]
    split
    · exact hK.computes_newLiteral _ hw
    · cases hf : o.handler? (.operator op) with
      | none => exact hK.refl hw
      | some f => exact hK.computes_runHandler hhost _ hw (hK.knows_handler hv hf) ho

/-- Every use of a capability keeps the contract. -/
theorem Laws.calls_request (hK : K.Laws) (hhost : K.Binds host) {q : Request κ} (hw : K.valid w)
    (hq : ∀ v ∈ q.values, K.knows w v) : K.Calls (q.run host s) w := by
  have hcalled : ∀ x : CompileM κ η (Computed κ), K.Computes x w → K.Calls (Request.called <$> x) w := by
    intro x hx
    unfold Calls Keeps
    rw [yields_map]
    exact Yields.mono hx (fun r w' h => ⟨h.1, by simpa [Request.called] using h.2⟩) (fun _ _ h => h)
  cases q with
  | eval v => exact hcalled _ (hK.computes_eval hhost hw (hq v (by simp [Request.values])))
  | consume v => exact hcalled _ (hK.computes_consume hhost hw (hq v (by simp [Request.values])))
  | getMember v key =>
    simp only [Request.values, List.mem_cons, List.not_mem_nil, or_false, forall_eq_or_imp, forall_eq] at hq
    exact hcalled _ (hK.computes_getMember hhost hw hq.1 hq.2)
  | call v arguments =>
    simp only [Request.values, List.mem_cons, forall_eq_or_imp] at hq
    exact hK.calls_call hhost hw hq.1 hq.2
  | operate v op operands =>
    simp only [Request.values, List.mem_cons, forall_eq_or_imp] at hq
    exact hcalled _ (hK.computes_operate hhost hw hq.1 hq.2)

theorem Laws.yields_request (hK : K.Laws) (hhost : K.Binds host) (s : Scope) {q : Request κ} (hw : K.valid w)
    (hq : ∀ v ∈ q.values, K.knows w v) :
    Yields (Prod.snd <$> q.run host s) w (fun code w' => K.allows w code w') (fun _ w' => K.allows w [] w') := by
  rw [yields_map]
  exact Yields.mono (hK.calls_request hhost hw hq) (fun _ _ h => h.1) (fun _ _ h => h)

/-! ### The basic evaluator -/

/-- The basic evaluator keeps the contract, as long as names and external expressions stand for known values. -/
theorem Laws.bindsEvaluator_basic (hK : K.Laws) (hhost : K.Binds host) {externals : List (Nat × Value κ)}
    (hnames : ∀ w s name b, K.valid w → w.lookup? s name = some b → K.knows w b.value)
    (hexternals : ∀ w id v, K.valid w → Entries.get? id externals = some v → K.knows w v) :
    K.BindsEvaluator (.basic host externals) := by
  have heval : ∀ s e w, K.valid w → K.Computes (Evaluator.evalBasic externals s e) w := by
    intro s e w hw
    unfold Computes Keeps Evaluator.evalBasic
    rw [yields_locating]
    cases e.kind with
    | identifier name =>
      simp only [yields_bind, yields_get]
      cases hb : w.lookup? s name with
      | none => exact hK.refl hw
      | some b => exact ⟨hK.refl hw, hnames w s name b hw hb⟩
    | literal l => exact hK.computes_newLiteral l hw
    | external id =>
      dsimp only
      cases hv : Entries.get? id externals with
      | none => exact hK.refl hw
      | some v => exact ⟨hK.refl hw, hexternals w id v hw hv⟩
  refine fun s e w hw => ⟨heval s e w hw, ?_⟩
  unfold Computes Keeps
  simp only [Evaluator.basic, Evaluator.consumeAfter, yields_bind, yields_pure]
  refine Yields.mono (heval s e w hw) (fun r w₁ hr => ?_) (fun _ _ h => h)
  refine Yields.mono (hK.computes_consume hhost (hK.valid_next hw hr.1) hr.2) (fun _ w₂ h => ?_) (fun _ w₂ h => ?_)
  · exact ⟨hK.trans hr.1 h.1, h.2⟩
  · simpa using hK.trans (hK.forget hr.1) h

end Contract

end DeclCompiler
