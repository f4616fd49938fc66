import DeclCompiler.Proofs.Course

/-!
Where void gets into the program. Void supports nothing itself, but it is not refused where macro values are: when a
name is bound to it, when it is assigned to a variable, and as the right operand of a constant or a variable. These are
the only ways. As long as host code and evaluators return no instruction with a void operand, an action emits one
exactly if it comes to one of them.
-/

namespace DeclCompiler

variable {κ η : Type}

def Value.isVoid : Value κ → Bool
  | .void _ => true
  | _ => false

theorem Value.isVoid_iff {v : Value κ} : v.isVoid = true ↔ ∃ n, v = .void n := by
  constructor
  · intro h
    cases v with
    | void n => exact ⟨n, rfl⟩
    | literal | store | object | function => cases h
  · rintro ⟨n, rfl⟩
    rfl

/-- No instruction has void among its operands. -/
def VoidFree (code : List (Instruction κ)) : Prop := ∀ i ∈ code, ∀ v ∈ i.operands, v.isVoid = false

/-- Macro functions and handlers return no instruction with a void operand. -/
def Host.EmitsVoidFree (host : Host κ η) : Prop :=
  ∀ code s arguments w r w', host.invoke code s arguments w = .ok r w' → VoidFree r.2

def Evaluator.EmitsVoidFree (evaluator : Evaluator κ η) : Prop :=
  ∀ s e w r w', evaluator.eval s e w = .ok r w' ∨ evaluator.consume s e w = .ok r w' → VoidFree r.2

structure Compiler.EmitsVoidFree (c : Compiler κ η) : Prop where
  host : c.host.EmitsVoidFree
  evaluator : c.evaluator.EmitsVoidFree

namespace VoidFree

theorem nil : VoidFree ([] : List (Instruction κ)) := List.forall_mem_nil _

theorem append_iff {code more : List (Instruction κ)} : VoidFree (code ++ more) ↔ VoidFree code ∧ VoidFree more :=
  List.forall_mem_append

theorem singleton_iff {i : Instruction κ} : VoidFree [i] ↔ ∀ v ∈ i.operands, v.isVoid = false :=
  List.forall_mem_singleton

theorem map_withSource_iff {code : List (Instruction κ)} (span : Span) :
    VoidFree (code.map (·.withSource span)) ↔ VoidFree code := List.forall_mem_map

end VoidFree

/-! ### Capabilities other than operators -/

/-- The action returns no instruction with a void operand. -/
abbrev ReturnsVoidFree {α : Type} (x : CompileM κ η (α × List (Instruction κ))) (w : CompileState κ η) : Prop :=
  Yields x w (fun r _ => VoidFree r.2) (fun _ _ => True)

section

variable {host : Host κ η} (hhost : host.EmitsVoidFree) {s : Scope} {w : CompileState κ η}

/-- A link is only read at a number or at a variable. -/
theorem callGetLink_voidFree (arguments : List (Value κ)) : ReturnsVoidFree (callGetLink s arguments) w := by
  unfold callGetLink
  split
  next index =>
    split
    · exact VoidFree.singleton_iff.2 (List.forall_mem_cons.2 ⟨rfl, List.forall_mem_singleton.2 rfl⟩)
    · exact VoidFree.singleton_iff.2 (List.forall_mem_cons.2 ⟨rfl, List.forall_mem_singleton.2 rfl⟩)
    · trivial
  next => trivial

include hhost

theorem invoke_voidFree (f : MacroFn κ) (arguments : List (Value κ)) :
    ReturnsVoidFree (f.invoke host s arguments) w := by
  cases f with
  | getLink => exact callGetLink_voidFree arguments
  | host name code =>
    unfold ReturnsVoidFree Yields
    split
    next r w' hr => exact hhost code s arguments w r w' hr
    next => trivial

theorem runHandler_voidFree (h : Handler) (f : MacroFn κ) (arguments : List (Value κ)) :
    ReturnsVoidFree (Value.runHandler host s h f arguments) w := by
  unfold ReturnsVoidFree Value.runHandler
  rw [yields_bind]
  refine (invoke_voidFree hhost f arguments).mono (fun r w' hr => ?_) (fun _ _ _ => trivial)
  obtain ⟨value, code⟩ := r
  cases value with
  | none => trivial
  | some v => exact hr

theorem eval_voidFree (v : Value κ) : ReturnsVoidFree (v.eval host s) w := by
  cases v with
  | void => trivial
  | literal | store | function => exact VoidFree.nil
  | object id o =>
    dsimp only [Value.eval]
    cases o.handler? .eval with
    | none => exact VoidFree.nil
    | some f => exact runHandler_voidFree hhost .eval f []

theorem consume_voidFree (v : Value κ) : ReturnsVoidFree (v.consume host s) w := by
  cases v with
  | void => trivial
  | literal | store | function => exact VoidFree.nil
  | object id o =>
    dsimp only [Value.consume]
    cases o.handler? .consume with
    | some f => exact runHandler_voidFree hhost .consume f []
    | none =>
      simp only [ReturnsVoidFree, yields_bind, yields_pure]
      refine (eval_voidFree hhost (.object id o)).mono (fun r w' hr => ?_) (fun _ _ _ => trivial)
      cases r.1 with
      | void | literal => trivial
      | store | object | function => exact hr

theorem getMember_voidFree (v key : Value κ) : ReturnsVoidFree (v.getMember host s key) w := by
  cases v with
  | void | store | function => trivial
  | literal id l =>
    cases l with
    | number | bool => trivial
    | string text =>
      dsimp only [Value.getMember]
      split
      · exact VoidFree.nil
      · trivial
  | object id o =>
    dsimp only [Value.getMember]
    cases o.member? key with
    | some member => exact VoidFree.nil
    | none =>
      cases o.handler? .get with
      | none => trivial
      | some f => exact runHandler_voidFree hhost .get f [key]

theorem call_voidFree (v : Value κ) (arguments : List (Value κ)) : ReturnsVoidFree (v.call host s arguments) w := by
  cases v with
  | void | literal | store => trivial
  | function id f => exact invoke_voidFree hhost f arguments
  | object id o =>
    dsimp only [Value.call]
    cases o.handler? .call with
    | none => trivial
    | some f => exact invoke_voidFree hhost f arguments

end

/-! ### Operators -/

/-- Void is the right operand of a value that has a place in the program. -/
def Value.TakesVoid (v : Value κ) (operands : List (Value κ)) : Prop := v.isMacro = false ∧ ∃ n, operands = [.void n]

theorem not_takesVoid_nil (v : Value κ) : ¬ v.TakesVoid [] := by
  rintro ⟨-, n, h⟩
  cases h

/-- An operator with its only further operand. -/
theorem takesVoid_singleton {v right : Value κ} (hv : v.isMacro = false) :
    v.TakesVoid [right] ↔ right.isVoid = true := by
  rw [Value.TakesVoid, and_iff_right hv, Value.isVoid_iff]
  simp only [List.cons.injEq, and_true]

section

variable {host : Host κ η} (hhost : host.EmitsVoidFree) {s : Scope} {w : CompileState κ η}

theorem emitOp_voidFree_iff (m : MachineOp) (arguments : List (Value κ)) :
    Yields (Value.emitOp s m arguments : CompileM κ η (Computed κ)) w
      (fun r _ => VoidFree r.2 ↔ ∀ v ∈ arguments, v.isVoid = false) (fun _ _ => True) := by
  simp only [Value.emitOp, yields_bind, yields_pure, yields_makeTemporary, VoidFree.singleton_iff]
  exact List.forall_mem_cons.trans (and_iff_right rfl)

theorem emitBinary_voidFree_iff (op : BinaryOp) {left right : Value κ} (hplaced : left.isMacro = false)
    (hleft : left.isVoid = false) :
    Yields (Value.emitBinary s op left right : CompileM κ η (Computed κ)) w
      (fun r _ => VoidFree r.2 ↔ ¬ left.TakesVoid [right]) (fun _ _ => True) := by
  unfold Value.emitBinary
  cases right.isMacro with
  | true => trivial
  | false =>
    cases MachineOp.ofBinary? op with
    | none => trivial
    | some m =>
      refine (emitOp_voidFree_iff m [left, right]).mono (fun r w' hr => ?_) (fun _ _ _ => trivial)
      rw [hr, takesVoid_singleton hplaced, List.forall_mem_cons, List.forall_mem_singleton, and_iff_right hleft,
        Bool.not_eq_true]

theorem emitUnary_voidFree (op : UnaryOp) {v : Value κ} (hv : v.isVoid = false) :
    ReturnsVoidFree (Value.emitUnary s op v : CompileM κ η (Computed κ)) w := by
  have hop : ∀ (m : MachineOp) {arguments : List (Value κ)} {w : CompileState κ η},
      (∀ a ∈ arguments, a.isVoid = false) → ReturnsVoidFree (Value.emitOp s m arguments) w := fun m _ _ ha =>
    (emitOp_voidFree_iff m _).mono (fun _ _ hr => hr.2 ha) (fun _ _ h => h)
  cases op with
  | neg => exact hop .sub (List.forall_mem_cons.2 ⟨rfl, List.forall_mem_singleton.2 hv⟩)
  | plus => exact hop .add (List.forall_mem_cons.2 ⟨hv, List.forall_mem_singleton.2 rfl⟩)
  | not => exact hop .equal (List.forall_mem_cons.2 ⟨hv, List.forall_mem_singleton.2 rfl⟩)
  | bitNot => exact hop .not (List.forall_mem_singleton.2 hv)
  | typeOf => trivial

theorem emitAssign_voidFree_iff (op : AssignOp) (name : String) {target value : Value κ}
    (hplaced : target.isMacro = false) (htarget : target.isVoid = false) :
    Yields (Value.emitAssign op name target value : CompileM κ η (Computed κ)) w
      (fun r _ => VoidFree r.2 ↔ ¬ target.TakesVoid [value]) (fun _ _ => True) := by
  have hoperands : ∀ {i : Instruction κ}, i.operands = [target, value] ∨ i.operands = [target, target, value] →
      (VoidFree [i] ↔ ¬ target.TakesVoid [value]) := by
    rintro i (hi | hi)
    · rw [VoidFree.singleton_iff, takesVoid_singleton hplaced, hi, Bool.not_eq_true]
      simp [htarget]
    · rw [VoidFree.singleton_iff, takesVoid_singleton hplaced, hi, Bool.not_eq_true]
      simp [htarget]
  simp only [Value.emitAssign, yields_bind, yields_get]
  split
  · trivial
  cases value.isMacro with
  | true => trivial
  | false =>
    cases op.binary? with
    | none => exact hoperands (.inl rfl)
    | some binary =>
      dsimp only
      cases MachineOp.ofBinary? binary with
      | none => trivial
      | some m => exact hoperands (.inr rfl)

include hhost

/-- Operators emit a void operand exactly if void is the right operand of a constant or of a variable. -/
theorem operate_voidFree_iff (v : Value κ) (op : Operator) (operands : List (Value κ)) :
    Yields (v.operate host s op operands) w (fun r _ => VoidFree r.2 ↔ ¬ v.TakesVoid operands) (fun _ _ => True) := by
  have hfree : ∀ {x : CompileM κ η (Computed κ)}, ¬ v.TakesVoid operands → ReturnsVoidFree x w →
      Yields x w (fun r _ => VoidFree r.2 ↔ ¬ v.TakesVoid operands) (fun _ _ => True) := fun hnot hx =>
    hx.mono (fun _ _ hr => iff_of_true hr hnot) (fun _ _ h => h)
  have hliteral : ∀ l, ReturnsVoidFree (do return (← newLiteral l, []) : CompileM κ η (Computed κ)) w := fun _ =>
    VoidFree.nil
  cases v with
  | void => trivial
  | literal id l =>
    dsimp only [Value.operate]
    split
    next unary => exact hfree (not_takesVoid_nil _) (hliteral _)
    next binary right =>
      cases hr : right.literal? with
      | none => exact emitBinary_voidFree_iff binary rfl rfl
      | some r =>
        have hnot : ¬ (Value.literal id l).TakesVoid [right] := by
          rw [takesVoid_singleton rfl]
          cases right with
          | void => cases hr
          | literal | store | object | function => exact Bool.false_ne_true
        dsimp only
        cases l.foldBinary? binary r with
        | none => trivial
        | some result => exact hfree hnot (hliteral _)
    next => trivial
  | store id name temporary =>
    dsimp only [Value.operate]
    split
    next assign value => exact emitAssign_voidFree_iff assign name rfl rfl
    next binary right => exact emitBinary_voidFree_iff binary rfl rfl
    next unary => exact hfree (not_takesVoid_nil _) (emitUnary_voidFree unary rfl)
    next => trivial
  | object id o =>
    have hnot : ¬ (Value.object id o).TakesVoid operands := fun h => Bool.noConfusion h.1
    dsimp only [Value.operate]
    split
    · exact hfree hnot (hliteral _)
    · cases o.handler? (.operator op) with
      | none => trivial
      | some f => exact hfree hnot (runHandler_voidFree hhost _ f operands)
  | function id f =>
    have hnot : ¬ (Value.function id f).TakesVoid operands := fun h => Bool.noConfusion h.1
    dsimp only [Value.operate]
    split
    · exact hfree hnot (hliteral _)
    · trivial

end

/-! ### Declarations -/

/-- The run of the visits comes to one of them, with the parts and the state that it finds. -/
inductive Visit.Comes (c : Compiler κ η) (s : Scope) (kind : DeclKind) :
    List Visit → Parts κ → CompileState κ η → Visit → Parts κ → CompileState κ η → Prop
  | here {v : Visit} {rest : List Visit} {parts : Parts κ} {w : CompileState κ η} :
    Comes c s kind (v :: rest) parts w v parts w
  | next {v u : Visit} {rest : List Visit} {parts parts₁ parts' : Parts κ} {w w₁ w' : CompileState κ η}
    {code : List (Instruction κ)} (h : v.step c s kind parts w = .ok (parts₁, code) w₁)
    (hrest : Comes c s kind rest parts₁ w₁ u parts' w') : Comes c s kind (v :: rest) parts w u parts' w'

/-- The run comes to an identifier whose part of the value is void. -/
def Visit.NamesVoid (c : Compiler κ η) (s : Scope) (kind : DeclKind) (visits : List Visit) (parts : Parts κ)
    (w : CompileState κ η) : Prop :=
  ∃ id n rest w', Comes c s kind visits parts w (.identifier id) (some (.void n) :: rest) w'

/-- The run of the declarators comes to one of them. -/
inductive Compiler.Comes (c : Compiler κ η) (s : Scope) (kind : DeclKind) :
    List Declarator → CompileState κ η → Declarator → CompileState κ η → Prop
  | here {d : Declarator} {rest : List Declarator} {w : CompileState κ η} : Comes c s kind (d :: rest) w d w
  | next {d d' : Declarator} {rest : List Declarator} {w w₁ w' : CompileState κ η} {code : List (Instruction κ)}
    (h : c.compileDeclarator s kind d w = .ok code w₁) (hrest : Comes c s kind rest w₁ d' w') :
    Comes c s kind (d :: rest) w d' w'

namespace Compiler

variable (c : Compiler κ η) (s : Scope) (kind : DeclKind)

/-- Declaring the pattern gives a name to void. -/
def NamesVoid (p : Pattern) (init : Option (Value κ)) (w : CompileState κ η) : Prop :=
  Visit.NamesVoid c s kind (p.visits 0) [init] w

/-- The value of the declarator, where it is evaluated, has a part that is void and gets a name. -/
def DeclaratorNamesVoid (d : Declarator) (w : CompileState κ η) : Prop :=
  d.init.elim (c.NamesVoid s kind d.target none w) fun e =>
    ∃ v code w₁, c.evaluator.eval s e w = .ok (v, code) w₁ ∧ c.NamesVoid s kind d.target (some v) w₁

def DeclaratorsNameVoid (ds : List Declarator) (w : CompileState κ η) : Prop :=
  ∃ d w', c.Comes s kind ds w d w' ∧ c.DeclaratorNamesVoid s kind d w'

end Compiler

namespace Visit

variable {c : Compiler κ η} {s : Scope} {kind : DeclKind} {w w₁ : CompileState κ η} {v : Visit} {rest : List Visit}
  {parts parts₁ : Parts κ} {code : List (Instruction κ)}

theorem not_namesVoid_nil : ¬ NamesVoid c s kind [] parts w := by
  rintro ⟨id, n, rest, w', h⟩
  cases h

theorem namesVoid_cons (h : v.step c s kind parts w = .ok (parts₁, code) w₁) :
    NamesVoid c s kind (v :: rest) parts w ↔
      (∃ id n others, v = .identifier id ∧ parts = some (.void n) :: others) ∨ NamesVoid c s kind rest parts₁ w₁ := by
  constructor
  · rintro ⟨id, n, others, w', hcomes⟩
    cases hcomes with
    | here => exact .inl ⟨id, n, others, rfl, rfl⟩
    | next h' hrest =>
      rw [h] at h'
      cases h'
      exact .inr ⟨id, n, others, w', hrest⟩
  · rintro (⟨id, n, others, rfl, rfl⟩ | ⟨id, n, others, w', hcomes⟩)
    · exact ⟨id, n, others, w, .here⟩
    · exact ⟨id, n, others, w', .next h hcomes⟩

/-- A visit that declares no identifier returns the instructions of what it asks. -/
theorem step_voidFree (hc : c.EmitsVoidFree) (hv : v.identifier? = none) :
    ReturnsVoidFree (v.step c s kind parts) w := by
  by_cases hfits : v.Fits parts
  · rw [ReturnsVoidFree, step_eq_perform c s kind hfits]
    simp only [yields_bind, yields_locating, yields_pure, VoidFree.map_withSource_iff]
    refine (yields_perform hfits w).mono (fun r w' hr => ?_) (fun _ _ _ => trivial)
    obtain ⟨parts', code⟩ := r
    generalize (v.plan c.options s kind parts : Plan κ η).query? = query at hr
    cases hr with
    | nothing => exact VoidFree.nil
    | leaf => cases hv
    | consume span h => exact (consume_voidFree hc.host _).of_ok h
    | key span hkey h => exact hc.evaluator s _ _ _ _ (.inr h)
    | member span h => exact (getMember_voidFree hc.host _ _).of_ok h
  · rw [step_of_not_fits c s kind hfits]
    trivial

/-- The declaration of an identifier sets it to void exactly if that is its value, whatever the kind of declaration. -/
theorem declareIdentifier_voidFree_iff (id : Identifier) (init : Option (Value κ)) :
    Yields (c.declareIdentifier s kind id init) w (fun code _ => VoidFree code ↔ ¬ ∃ n, init = some (.void n))
      (fun _ _ => True) := by
  unfold Yields
  split
  next code w' h =>
    obtain ⟨-, ⟨v, rfl, -, hm, rfl, -⟩ | ⟨-, rfl, rfl, -⟩ | ⟨v, rfl, -, rfl, -⟩⟩ := Compiler.declareIdentifier_ok h
    · -- void can change, so no constant is another name for it
      refine iff_of_true VoidFree.nil ?_
      rintro ⟨n, ⟨⟩⟩
      cases hm
    · exact iff_of_true VoidFree.nil nofun
    · have hvoid : (∃ n, some v = some (.void n)) ↔ v.isVoid = true := by
        rw [Value.isVoid_iff]
        simp only [Option.some.injEq]
      rw [VoidFree.singleton_iff, hvoid, Bool.not_eq_true]
      exact List.forall_mem_cons.trans ((and_iff_right rfl).trans List.forall_mem_singleton)
  next => trivial

theorem step_voidFree_iff (hc : c.EmitsVoidFree) :
    Yields (v.step c s kind parts) w
      (fun r _ => VoidFree r.2 ↔ ¬ ∃ id n others, v = .identifier id ∧ parts = some (.void n) :: others)
      (fun _ _ => True) := by
  cases v with
  | identifier id =>
    cases parts with
    | nil => trivial
    | cons init rest =>
      simp only [step, yields_bind, yields_attributing, yields_pure, VoidFree.map_withSource_iff]
      refine (declareIdentifier_voidFree_iff id init).mono (fun code w' h => ?_) (fun _ _ _ => trivial)
      rw [h]
      refine not_congr ⟨?_, ?_⟩
      · rintro ⟨n, rfl⟩
        exact ⟨id, n, rest, rfl, rfl⟩
      · rintro ⟨id', n, others, -, hparts⟩
        cases hparts
        exact ⟨n, rfl⟩
  | enter | refuse | array | element | object | key | member | leave =>
    refine (step_voidFree hc rfl).mono (fun r w' hr => iff_of_true hr ?_) (fun _ _ h => h)
    rintro ⟨id, n, others, ⟨⟩, -⟩

/-- A run of visits emits a void operand exactly if it gives a name to void. -/
theorem run_voidFree_iff (hc : c.EmitsVoidFree) (visits : List Visit) :
    Yields (run c s kind visits parts) w (fun r _ => VoidFree r.2 ↔ ¬ NamesVoid c s kind visits parts w)
      (fun _ _ => True) := by
  induction visits generalizing parts w with
  | nil => exact iff_of_true VoidFree.nil not_namesVoid_nil
  | cons v rest ih =>
    rw [run_cons, yields_bind]
    unfold Yields
    split
    next r w₁ hstep =>
      obtain ⟨parts₁, code⟩ := r
      have hcode := (step_voidFree_iff hc).of_ok hstep
      change Yields _ w₁ _ _
      simp only [yields_bind, yields_pure]
      refine ih.mono (fun r' w' hr' => ?_) (fun _ _ h => h)
      rw [VoidFree.append_iff, hr', hcode, namesVoid_cons hstep, not_or]
    next => trivial

end Visit

namespace Compiler

variable {c : Compiler κ η} (hc : c.EmitsVoidFree) {s : Scope} {kind : DeclKind} {w : CompileState κ η}

include hc

theorem declare_voidFree_iff (p : Pattern) (init : Option (Value κ)) :
    Yields (c.declare s kind p init) w (fun code _ => VoidFree code ↔ ¬ c.NamesVoid s kind p init w)
      (fun _ _ => True) := by
  rw [declare_eq_run, yields_map]
  exact Visit.run_voidFree_iff hc (p.visits 0)

theorem compileDeclarator_voidFree_iff (d : Declarator) :
    Yields (c.compileDeclarator s kind d) w (fun code _ => VoidFree code ↔ ¬ c.DeclaratorNamesVoid s kind d w)
      (fun _ _ => True) := by
  rw [compileDeclarator, yields_attributing]
  simp only [VoidFree.map_withSource_iff]
  unfold DeclaratorNamesVoid
  cases d.init with
  | none => exact declare_voidFree_iff hc d.target none
  | some e =>
    simp only [Option.elim_some, yields_bind, yields_pure]
    unfold Yields
    split
    next r w₁ heval =>
      obtain ⟨v, code⟩ := r
      have hcode : VoidFree code := hc.evaluator s e w _ w₁ (.inl heval)
      have hnames : (∃ u code' w', c.evaluator.eval s e w = .ok (u, code') w' ∧
          c.NamesVoid s kind d.target (some u) w') ↔ c.NamesVoid s kind d.target (some v) w₁ := by
        constructor
        · rintro ⟨u, code', w', heval', h⟩
          rw [heval] at heval'
          cases heval'
          exact h
        · exact fun h => ⟨v, code, w₁, heval, h⟩
      refine (declare_voidFree_iff hc d.target (some v)).mono (fun more w' h => ?_) (fun _ _ h => h)
      rw [VoidFree.append_iff, and_iff_right hcode, h, hnames]
    next => trivial

theorem compileDeclarators_voidFree_iff (ds : List Declarator) :
    Yields (c.compileDeclarators s kind ds) w (fun code _ => VoidFree code ↔ ¬ c.DeclaratorsNameVoid s kind ds w)
      (fun _ _ => True) := by
  induction ds generalizing w with
  | nil =>
    refine iff_of_true VoidFree.nil ?_
    rintro ⟨d, w', hcomes, -⟩
    cases hcomes
  | cons d rest ih =>
    simp only [compileDeclarators, yields_bind, yields_pure]
    unfold Yields
    split
    next code w₁ hd =>
      have hcode := (compileDeclarator_voidFree_iff hc d).of_ok hd
      have hnames : c.DeclaratorsNameVoid s kind (d :: rest) w ↔
          c.DeclaratorNamesVoid s kind d w ∨ c.DeclaratorsNameVoid s kind rest w₁ := by
        constructor
        · rintro ⟨d', w', hcomes, h⟩
          cases hcomes with
          | here => exact .inl h
          | next hd' hrest =>
            rw [hd] at hd'
            cases hd'
            exact .inr ⟨d', w', hrest, h⟩
        · rintro (h | ⟨d', w', hrest, h⟩)
          · exact ⟨d, w, .here, h⟩
          · exact ⟨d', w', .next hd hrest, h⟩
      refine ih.mono (fun more w' h => ?_) (fun _ _ h => h)
      rw [VoidFree.append_iff, hcode, h, hnames, not_or]
    next => trivial

theorem compileDeclaration_voidFree_iff (d : Declaration) :
    Yields (c.compileDeclaration s d) w (fun code _ => VoidFree code ↔ ¬ c.DeclaratorsNameVoid s d.kind d.declarators w)
      (fun _ _ => True) := by
  rw [compileDeclaration, yields_attributing]
  simp only [VoidFree.map_withSource_iff]
  exact compileDeclarators_voidFree_iff hc d.declarators

end Compiler

/-! ### Actions -/

/-- In the given state a declaration comes to give a name to void. -/
def DeclarationForm.NamesVoid (c : Compiler κ η) (s : Scope) (w : CompileState κ η) : DeclarationForm κ → Prop
  | .pattern kind p init => c.NamesVoid s kind p init w
  | .declarator kind d => c.DeclaratorNamesVoid s kind d w
  | .declaration d => c.DeclaratorsNameVoid s d.kind d.declarators w

theorem DeclarationForm.voidFree_iff {c : Compiler κ η} (hc : c.EmitsVoidFree) {s : Scope} (d : DeclarationForm κ)
    {w : CompileState κ η} :
    Yields (d.run c s) w (fun code _ => VoidFree code ↔ ¬ d.NamesVoid c s w) (fun _ _ => True) := by
  cases d with
  | pattern kind p init => exact Compiler.declare_voidFree_iff hc p init
  | declarator kind d => exact Compiler.compileDeclarator_voidFree_iff hc d
  | declaration d => exact Compiler.compileDeclaration_voidFree_iff hc d

namespace Action

/-- The evaluator of an action, if it has one, returns no instruction with a void operand. -/
def EvaluatesVoidFree : Action κ η → Prop
  | .act _ (.declare _ evaluator _) => evaluator.EmitsVoidFree
  | _ => True

/-- In the given state the action comes to give a name to void, or it is an operation with void on the right. -/
def PassesVoid (host : Host κ η) (w : CompileState κ η) : Action κ η → Prop
  | .act _ (.request (.operate v _ operands)) => v.TakesVoid operands
  | .act s (.declare options evaluator d) => d.NamesVoid ⟨host, options, evaluator⟩ s w
  | _ => False

theorem request_voidFree_iff {host : Host κ η} (hhost : host.EmitsVoidFree) (s : Scope) (q : Request κ)
    {w : CompileState κ η} :
    Yields (q.run host s) w (fun r _ => VoidFree r.2 ↔ ¬ (Action.act s (.request q) : Action κ η).PassesVoid host w)
      (fun _ _ => True) := by
  have hfree : ∀ {α : Type} {x : CompileM κ η (α × List (Instruction κ))}, ReturnsVoidFree x w →
      Yields x w (fun r _ => VoidFree r.2 ↔ ¬ False) (fun _ _ => True) := fun hx =>
    hx.mono (fun _ _ hr => iff_of_true hr not_false) (fun _ _ h => h)
  cases q with
  | eval v =>
    rw [Request.run, yields_map]
    exact hfree (eval_voidFree hhost v)
  | consume v =>
    rw [Request.run, yields_map]
    exact hfree (consume_voidFree hhost v)
  | getMember v key =>
    rw [Request.run, yields_map]
    exact hfree (getMember_voidFree hhost v key)
  | call v arguments => exact hfree (call_voidFree hhost v arguments)
  | operate v op operands =>
    rw [Request.run, yields_map]
    exact operate_voidFree_iff hhost v op operands

/-- An action that succeeds emits a void operand exactly if it passes void on. -/
theorem voidFree_iff {host : Host κ η} (hhost : host.EmitsVoidFree) {a : Action κ η} (ha : a.EvaluatesVoidFree)
    {w w' : CompileState κ η} {code : List (Instruction κ)} (h : a.run host w = .ok code w') :
    VoidFree code ↔ ¬ a.PassesVoid host w := by
  cases a with
  | openRoot | openChild | drop =>
    rw [eq_of_map_const h]
    exact iff_of_true VoidFree.nil not_false
  | act s op =>
    cases op with
    | makeValue | makeStore | makeTemporary | bind | bindBuiltins | note =>
      rw [eq_of_map_const h]
      exact iff_of_true VoidFree.nil not_false
    | request q =>
      have hrequest : Yields (Prod.snd <$> q.run host s) w
          (fun code _ => VoidFree code ↔ ¬ (Action.act s (.request q) : Action κ η).PassesVoid host w)
          (fun _ _ => True) := by
        rw [yields_map]
        exact request_voidFree_iff hhost s q
      exact hrequest.of_ok h
    | declare options evaluator d =>
      have hc : (⟨host, options, evaluator⟩ : Compiler κ η).EmitsVoidFree := ⟨hhost, ha⟩
      exact (d.voidFree_iff hc).of_ok h

end Action

/-- A run in which no action passes void on leaves void out of the program. -/
theorem Run.voidFree {host : Host κ η} (hhost : host.EmitsVoidFree) {w w' : CompileState κ η}
    {program : List (Instruction κ)}
    (h : Run host (fun w a => a.EvaluatesVoidFree ∧ ¬ a.PassesVoid host w) w program w') : VoidFree program := by
  induction h with
  | start => exact VoidFree.nil
  | ok _ ha hrun ih => exact VoidFree.append_iff.2 ⟨ih, (Action.voidFree_iff hhost ha.1 hrun).2 ha.2⟩
  | error _ _ _ ih => exact ih

theorem Evaluator.basic_emitsVoidFree {host : Host κ η} (hhost : host.EmitsVoidFree)
    (externals : List (Nat × Value κ)) : (Evaluator.basic host externals).EmitsVoidFree := by
  have heval : ∀ s e w, ReturnsVoidFree (Evaluator.evalBasic externals s e : CompileM κ η (Computed κ)) w := by
    intro s e w
    rw [ReturnsVoidFree, Evaluator.evalBasic, yields_locating]
    cases e.kind with
    | identifier name =>
      simp only [yields_bind, yields_get]
      cases w.lookup? s name with
      | none => trivial
      | some b => exact VoidFree.nil
    | literal l => exact VoidFree.nil
    | external id =>
      dsimp only
      cases Entries.get? id externals with
      | none => trivial
      | some v => exact VoidFree.nil
  have hconsume : ∀ s e w, ReturnsVoidFree ((Evaluator.basic host externals).consume s e) w := by
    intro s e w
    simp only [Evaluator.basic, Evaluator.consumeAfter, ReturnsVoidFree, yields_bind, yields_pure]
    refine (heval s e w).mono (fun r w₁ hr => ?_) (fun _ _ h => h)
    exact (consume_voidFree hhost r.1).mono (fun _ _ hr' => VoidFree.append_iff.2 ⟨hr, hr'⟩) (fun _ _ h => h)
  rintro s e w r w' (h | h)
  · exact (heval s e w).of_ok h
  · exact (hconsume s e w).of_ok h

/-! ### What is refused and what is let through -/

/-- The guards against macro values let void through. -/
structure LetsVoidThrough (host : Host κ η) : Prop where
  named {c : Compiler κ η} {s : Scope} {id : Identifier} {w : CompileState κ η} (kind : DeclKind) (n : Nat)
    (h : w.own? s.table id.name = none) :
    c.declareIdentifier s kind id (some (.void n)) w =
      .ok [.set (c.newVariable id w) (.void n)] (c.afterSet s id kind w)
  assigned {s : Scope} {id : Nat} {name : String} {temporary : Bool} {w : CompileState κ η} (n : Nat)
    (h : w.mutability (.store id name temporary) = .writable) :
    (Value.store id name temporary).operate host s (.assign .plain) [.void n] w =
      .ok (.store id name temporary, [.set (.store id name temporary) (.void n)]) w
  combined {s : Scope} {id : Nat} {name : String} {temporary : Bool} {w : CompileState κ η} {op : AssignOp}
    {m : MachineOp} (n : Nat) (h : w.mutability (.store id name temporary) = .writable)
    (hm : op.binary?.bind MachineOp.ofBinary? = some m) :
    (Value.store id name temporary).operate host s (.assign op) [.void n] w =
      .ok (.store id name temporary, [.op m (.store id name temporary) [.store id name temporary, .void n]]) w
  operand {s : Scope} {left : Value κ} {op : BinaryOp} {m : MachineOp} (n : Nat) (w : CompileState κ η)
    (hplaced : left.isMacro = false) (hvoid : left.isVoid = false) (hm : MachineOp.ofBinary? op = some m) :
    ∃ t w', left.operate host s (.binary op) [.void n] w = .ok (t, [.op m t [left, .void n]]) w'

theorem emitAssign_void {w : CompileState κ η} {target : Value κ} (h : w.mutability target = .writable) (op : AssignOp)
    (name : String) (n : Nat) :
    Value.emitAssign op name target (.void n) w =
      (op.binary?.elim (pure (target, [.set target (.void n)])) fun binary =>
        (MachineOp.ofBinary? binary).elim (throw (.unsupportedOperator (.assign op) target)) fun m =>
          pure (target, [.op m target [target, .void n]]) : CompileM κ η (Computed κ)) w := by
  have hget : (get : CompileM κ η (CompileState κ η)) w = .ok w w := rfl
  rw [Value.emitAssign, bind_of_ok hget, if_neg fun hne => hne h]
  cases op.binary? with
  | none => rfl
  | some binary =>
    cases hm : MachineOp.ofBinary? binary with
    | none => simp [hm, Value.isMacro]
    | some m => simp [hm, Value.isMacro]

theorem letsVoidThrough (host : Host κ η) : LetsVoidThrough host where
  named {c s id w} kind n h := by
    have hfree : ¬ (w.own? s.table id.name).isSome = true := by
      rw [h]
      exact Bool.false_ne_true
    have hvariable : c.variableResult s id kind (some (.void n)) w =
        .ok [.set (c.newVariable id w) (.void n)] (c.afterSet s id kind w) := by
      rw [Compiler.variableResult, if_neg hfree]
      rfl
    have hwritable : ¬ w.mutability (.void n : Value κ) = .immutable := fun h => Mutability.noConfusion h
    rw [Compiler.declareIdentifier_eq]
    unfold Compiler.identifierResult
    cases hk : kind.isConst with
    | true => exact (if_neg hwritable).trans hvariable
    | false => exact hvariable
  assigned n h := emitAssign_void h .plain _ n
  combined {s id name temporary w op m} n h hm := by
    obtain ⟨binary, hbinary, hm⟩ := Option.bind_eq_some_iff.1 hm
    have hassign := emitAssign_void h op name n
    rw [hbinary, Option.elim_some, hm, Option.elim_some] at hassign
    exact hassign
  operand {s left op m} n w hplaced hvoid hm := by
    have hemit : ∃ t w', Value.emitBinary s op left (.void n) w = .ok (t, [.op m t [left, .void n]]) w' := by
      unfold Value.emitBinary
      rw [hm]
      exact ⟨_, _, rfl⟩
    cases left with
    | literal | store => exact hemit
    | void => cases hvoid
    | object | function => cases hplaced

/-- Nothing can be done with void itself. -/
theorem void_supports_nothing (host : Host κ η) (s : Scope) {q : Request κ} {n : Nat}
    (h : q.values.head? = some (.void n)) (w : CompileState κ η) : ∃ e, q.run host s w = .error e w := by
  cases q with
  | eval v | consume v | getMember v key | call v arguments | operate v op operands =>
    cases h
    exact ⟨_, rfl⟩

/-- As long as host code and evaluators return no instruction with a void operand, an action that succeeds emits one
exactly if it gives a name to void or has void as a right operand. So a run leaves void out of the program as long as
it does neither. Both are let through, while nothing can be done with void itself. -/
theorem void_operands_exactly {host : Host κ η} (hhost : host.EmitsVoidFree) :
    (∀ (a : Action κ η) w code w', a.EvaluatesVoidFree → a.run host w = .ok code w' →
      (VoidFree code ↔ ¬ a.PassesVoid host w)) ∧
    (∀ w program w', Run host (fun w a => a.EvaluatesVoidFree ∧ ¬ a.PassesVoid host w) w program w' →
      VoidFree program) ∧
    LetsVoidThrough host ∧
    ∀ (s : Scope) (q : Request κ) (n : Nat) (w : CompileState κ η), q.values.head? = some (.void n) →
      ∃ e, q.run host s w = .error e w :=
  ⟨fun _ _ _ _ ha h => Action.voidFree_iff hhost ha h, fun _ _ _ h => h.voidFree hhost, letsVoidThrough host,
    fun s _ _ w h => void_supports_nothing host s h w⟩

/-- `let x = void`. -/
def nameVoid : Action Unit Unit :=
  .act ⟨0, 0, 0, []⟩ (.declare .standard (.basic (.inert Unit Unit) [])
    (.pattern .letDecl (.identifier ⟨"x", .onLine 1 4 5⟩) (some (.void 0))))

theorem nameVoid_emits_void :
    ∃ code w', nameVoid.run (.inert Unit Unit) (CompileState.initial ()).addRoot.2 = .ok code w' ∧ code.length = 1 ∧
      ¬ VoidFree code := by
  have hhost : (Host.inert Unit Unit).EmitsVoidFree := by
    intro code s arguments w r w' h
    cases h
  have hev := Evaluator.basic_emitsVoidFree hhost []
  have hrun : nameVoid.run (.inert Unit Unit) (CompileState.initial ()).addRoot.2 = .ok _ _ := rfl
  have hiff := (void_operands_exactly hhost).1 nameVoid _ _ _ hev hrun
  refine ⟨_, _, hrun, rfl, fun hfree => hiff.1 hfree ?_⟩
  exact ⟨⟨"x", .onLine 1 4 5⟩, 0, [], _, .next rfl .here⟩

end DeclCompiler
