import DeclCompiler.Proofs.Contract
import DeclCompiler.Proofs.Course

/-!
What is done in a scope calls host code and the evaluator in that scope only. So host code that answers in
one scope and refuses all others cannot be told from the host itself by what is done in that scope, and a
contract that host code keeps in one scope is kept by all that is done there.
-/

namespace DeclCompiler

variable {κ η : Type}

/-- Host code that refuses to be called in any scope but one. -/
def Host.within (host : Host κ η) (s : Scope) : Host κ η where
  invoke code t arguments :=
    if t = s then host.invoke code t arguments else throw (.of (.arityMismatch "within" 0 arguments.length))

/-- An evaluator that refuses to be asked in any scope but one. -/
def Evaluator.within (evaluator : Evaluator κ η) (s : Scope) : Evaluator κ η where
  eval t e := if t = s then evaluator.eval t e else throw (.of (.unknownExpression 0))
  consume t e := if t = s then evaluator.consume t e else throw (.of (.unknownExpression 0))

def Compiler.within (c : Compiler κ η) (s : Scope) : Compiler κ η :=
  { c with host := c.host.within s, evaluator := c.evaluator.within s }

/-! ### Capabilities -/

section Capabilities

variable (host : Host κ η) (s : Scope)

@[simp] theorem Evaluator.eval_within (evaluator : Evaluator κ η) (e : Expr) :
    (evaluator.within s).eval s e = evaluator.eval s e := if_pos rfl

@[simp] theorem Evaluator.consume_within (evaluator : Evaluator κ η) (e : Expr) :
    (evaluator.within s).consume s e = evaluator.consume s e := if_pos rfl

@[simp] theorem MacroFn.invoke_within (f : MacroFn κ) (arguments : List (Value κ)) :
    f.invoke (host.within s) s arguments = f.invoke host s arguments := by
  cases f with
  | getLink => rfl
  | host name code => exact if_pos rfl

namespace Value

@[simp] theorem runHandler_within (h : Handler) (f : MacroFn κ) (arguments : List (Value κ)) :
    runHandler (host.within s) s h f arguments = runHandler host s h f arguments := by
  simp only [runHandler, MacroFn.invoke_within]

@[simp] theorem eval_within (v : Value κ) : v.eval (host.within s) s = v.eval host s := by
  cases v with
  | object id o => simp only [eval, runHandler_within]
  | void | literal | store | function => rfl

@[simp] theorem consume_within (v : Value κ) : v.consume (host.within s) s = v.consume host s := by
  cases v with
  | object id o => simp only [consume, runHandler_within, eval_within]
  | void | literal | store | function => rfl

@[simp] theorem getMember_within (v key : Value κ) : v.getMember (host.within s) s key = v.getMember host s key := by
  cases v with
  | object id o => simp only [getMember, runHandler_within]
  | literal id l => cases l <;> rfl
  | void | store | function => rfl

@[simp] theorem call_within (v : Value κ) (arguments : List (Value κ)) :
    v.call (host.within s) s arguments = v.call host s arguments := by
  cases v with
  | object id o => simp only [call, MacroFn.invoke_within]
  | function id f => exact MacroFn.invoke_within host s f arguments
  | void | literal | store => rfl

@[simp] theorem operate_within (v : Value κ) (op : Operator) (operands : List (Value κ)) :
    v.operate (host.within s) s op operands = v.operate host s op operands := by
  cases v with
  | object id o => simp only [operate, runHandler_within]
  | void | literal | store | function => rfl

end Value

theorem Request.run_within (q : Request κ) : q.run (host.within s) s = q.run host s := by
  cases q <;> simp [run]

theorem Evaluator.consumeAfter_within (eval : Scope → Expr → CompileM κ η (Computed κ)) (e : Expr) :
    consumeAfter (host.within s) eval s e = consumeAfter host eval s e := by
  simp only [consumeAfter, Value.consume_within]

end Capabilities

/-! ### Declarations -/

section Declarations

variable (c : Compiler κ η) (s : Scope) (kind : DeclKind)

theorem Query.answer_within (q : Query κ) : q.answer (c.within s) s = q.answer c s := by
  cases q <;> simp [answer, Compiler.within]

theorem Plan.perform_within (plan : Plan κ η) : plan.perform (c.within s) s = plan.perform c s := by
  cases plan with
  | ask q rest => simp only [perform, Query.answer_within]
  | act x => rfl

theorem Visit.step_within (v : Visit) (parts : Parts κ) : v.step (c.within s) s kind parts = v.step c s kind parts := by
  by_cases hfits : v.Fits parts
  · have hoptions : (c.within s).options = c.options := rfl
    rw [step_eq_perform _ s kind hfits, step_eq_perform _ s kind hfits, hoptions, Plan.perform_within]
  · rw [step_of_not_fits _ s kind hfits, step_of_not_fits _ s kind hfits]

end Declarations

/-! ### Contracts in one scope -/

namespace Contract

variable {K : Contract κ η} {host : Host κ η} {evaluator : Evaluator κ η} {s : Scope}

/-- Host code keeps the contract when it is called in the scope. -/
def BindsIn (K : Contract κ η) (s : Scope) (host : Host κ η) : Prop :=
  ∀ name code arguments w, K.valid w → K.knowsFn w (.host name code) → (∀ v ∈ arguments, K.knows w v) →
    K.Calls (host.invoke code s arguments) w

def BindsEvaluatorIn (K : Contract κ η) (s : Scope) (evaluator : Evaluator κ η) : Prop :=
  ∀ e w, K.valid w → K.Computes (evaluator.eval s e) w ∧ K.Computes (evaluator.consume s e) w

theorem Laws.binds_within (hK : K.Laws) (h : K.BindsIn s host) : K.Binds (host.within s) := by
  intro name code t arguments w hw hf ha
  by_cases ht : t = s
  · subst ht
    have hinvoke : (host.within t).invoke code t arguments = host.invoke code t arguments := if_pos rfl
    rw [hinvoke]
    exact h name code arguments w hw hf ha
  · have hinvoke : (host.within s).invoke code t arguments = throw _ := if_neg ht
    rw [hinvoke]
    exact hK.refl hw

theorem Laws.bindsEvaluator_within (hK : K.Laws) (h : K.BindsEvaluatorIn s evaluator) :
    K.BindsEvaluator (evaluator.within s) := by
  intro t e w hw
  by_cases ht : t = s
  · subst ht
    simpa using h e w hw
  · have heval : (evaluator.within s).eval t e = throw _ := if_neg ht
    have hconsume : (evaluator.within s).consume t e = throw _ := if_neg ht
    rw [heval, hconsume]
    exact ⟨hK.refl hw, hK.refl hw⟩

end Contract

end DeclCompiler
