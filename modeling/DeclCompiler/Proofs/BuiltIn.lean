import DeclCompiler.Proofs.Contract

/-!
Built-in operations are all or nothing. Every check comes before anything is changed, so an operation that fails
leaves the state as it was. One that succeeds emits nothing, or assigns to the variable that it was asked of, or
computes one new temporary.
-/

namespace DeclCompiler

variable {κ η : Type}

/-! ### Requests that no host code takes part in -/

/-- The value leaves nothing to handlers. -/
def Value.Unhandled : Value κ → Prop
  | .object _ o => o.handlers = []
  | .void _ | .literal .. | .store .. | .function .. => True

theorem Value.Unhandled.handler? {id : Nat} {o : Object κ (Value κ)} (h : (Value.object id o).Unhandled)
    (handler : Handler) : o.handler? handler = none := by
  have hnil : o.handlers = [] := h
  rw [Object.handler?, hnil]
  rfl

/-- The value leaves nothing to handlers, and no function of the host is called. -/
def Request.IsBuiltIn : Request κ → Prop
  | .eval v | .consume v | .getMember v _ | .operate v _ _ => v.Unhandled
  | .call v _ => v.Unhandled ∧ ∀ id name code, v ≠ .function id (.host name code)

/-! ### Effects -/

/-- How a built-in operation succeeds in the state `w`. On the way `made` constants are made. -/
inductive Effect (s : Scope) (q : Request κ) (w : CompileState κ η) : Called κ → CompileState κ η → Prop
  | silent (v : Value κ) (made : Nat) : Effect s q w (some v, []) { w with values := w.values + made }
  | assigned {v : Value κ} {op : AssignOp} {operands : List (Value κ)} (hq : q = .operate v (.assign op) operands)
      (opcode : Opcode) (arguments : List (Value κ)) : Effect s q w (some v, [.into opcode v arguments]) w
  | computed {v : Value κ} (made : Nat) (opcode : Opcode) (arguments : List (Value κ))
      (hv : v = .store (w.values + made) (temporaryName (w.countersOf s).temporaries) true) :
      Effect s q w (some v, [.into opcode v arguments])
        { (w.addTemporary s).2 with values := w.values + made + 1 }

/-- The action has such an effect, or it fails without a trace. -/
abbrev AllOrNothing (s : Scope) (q : Request κ) (w : CompileState κ η) (x : CompileM κ η (Called κ)) : Prop :=
  Yields x w (Effect s q w) (fun _ w' => w' = w)

section AllOrNothing

variable {host : Host κ η} {s : Scope} {q : Request κ} {w : CompileState κ η}

theorem allOrNothing_pure (v : Value κ) : AllOrNothing s q w (Request.called <$> pure (v, [])) := Effect.silent v 0

theorem allOrNothing_newLiteral (l : Literal) :
    AllOrNothing s q w (Request.called <$> (do return (← newLiteral l, []))) :=
  Effect.silent (.literal w.values l) 1

theorem allOrNothing_throw (e : CompileError) : AllOrNothing s q w (throw e) := rfl

theorem allOrNothing_emitOp (m : MachineOp) (arguments : List (Value κ)) :
    AllOrNothing s q w (Request.called <$> Value.emitOp s m arguments) :=
  Effect.computed 0 (.op m) arguments rfl

/-- The constant is made before the temporary. -/
theorem allOrNothing_emitOp_newLiteral (m : MachineOp) (l : Literal) (arguments : Value κ → List (Value κ)) :
    AllOrNothing s q w (Request.called <$> (do Value.emitOp s m (arguments (← newLiteral l)))) :=
  Effect.computed 1 (.op m) (arguments (.literal w.values l)) rfl

theorem allOrNothing_emitBinary (op : BinaryOp) (left right : Value κ) :
    AllOrNothing s q w (Request.called <$> Value.emitBinary s op left right) := by
  unfold Value.emitBinary
  split
  · exact allOrNothing_throw _
  · split
    · exact allOrNothing_throw _
    · exact allOrNothing_emitOp _ _

theorem allOrNothing_emitUnary (op : UnaryOp) (v : Value κ) :
    AllOrNothing s q w (Request.called <$> Value.emitUnary s op v) := by
  cases op with
  | neg => exact allOrNothing_emitOp_newLiteral .sub _ fun a => [a, v]
  | plus => exact allOrNothing_emitOp_newLiteral .add _ fun a => [v, a]
  | not => exact allOrNothing_emitOp_newLiteral .equal _ fun a => [v, a]
  | bitNot => exact allOrNothing_emitOp .not [v]
  | typeOf => exact allOrNothing_throw _

theorem allOrNothing_emitAssign {op : AssignOp} {target value : Value κ} (name : String)
    (hq : q = .operate target (.assign op) [value]) :
    AllOrNothing s q w (Request.called <$> Value.emitAssign op name target value) := by
  -- nothing is made for an assignment, so that a refusal may come at any of its checks
  unfold AllOrNothing Value.emitAssign
  simp only [yields_map, yields_bind, yields_get]
  split
  · rfl
  · split
    · rfl
    · split
      · exact Effect.assigned hq .set [value]
      · split
        · rfl
        next m _ => exact Effect.assigned hq (.op m) [target, value]

theorem allOrNothing_callGetLink (arguments : List (Value κ)) : AllOrNothing s q w (callGetLink s arguments) := by
  match arguments with
  | [] | _ :: _ :: _ => exact allOrNothing_throw _
  | [index] =>
    cases index with
    | void | object | function => exact allOrNothing_throw _
    | store id name temporary => exact Effect.computed 0 .getLink [.store id name temporary] rfl
    | literal id l =>
      cases l with
      | string | bool => exact allOrNothing_throw _
      | number x => exact Effect.computed 0 .getLink [.literal id (.number x)] rfl

/-! ### Capabilities -/

theorem allOrNothing_eval {v : Value κ} (hv : v.Unhandled) : AllOrNothing s q w (Request.called <$> v.eval host s) := by
  cases v with
  | void => exact allOrNothing_throw _
  | literal | store | function => exact allOrNothing_pure _
  | object id o =>
    simp only [Value.eval, hv.handler?]
    exact allOrNothing_pure _

theorem allOrNothing_consume {v : Value κ} (hv : v.Unhandled) :
    AllOrNothing s q w (Request.called <$> v.consume host s) := by
  cases v with
  | void => exact allOrNothing_throw _
  | literal | store | function => exact allOrNothing_pure _
  | object id o =>
    simp only [Value.consume, Value.eval, hv.handler?]
    exact allOrNothing_pure _

theorem allOrNothing_getMember {v : Value κ} (hv : v.Unhandled) (key : Value κ) :
    AllOrNothing s q w (Request.called <$> v.getMember host s key) := by
  cases v with
  | void | store | function => exact allOrNothing_throw _
  | literal id l =>
    cases l with
    | number | bool => exact allOrNothing_throw _
    | string text =>
      dsimp only [Value.getMember]
      split
      · exact allOrNothing_newLiteral _
      · exact allOrNothing_throw _
  | object id o =>
    simp only [Value.getMember, hv.handler?]
    cases o.member? key with
    | none => exact allOrNothing_throw _
    | some member => exact allOrNothing_pure _

theorem allOrNothing_call {v : Value κ} (hv : v.Unhandled) (hhost : ∀ id name code, v ≠ .function id (.host name code))
    (arguments : List (Value κ)) : AllOrNothing s q w (v.call host s arguments) := by
  cases v with
  | void | literal | store => exact allOrNothing_throw _
  | function id f =>
    cases f with
    | getLink => exact allOrNothing_callGetLink arguments
    | host name code => exact absurd rfl (hhost id name code)
  | object id o =>
    simp only [Value.call, hv.handler?]
    exact allOrNothing_throw _

theorem allOrNothing_operate {v : Value κ} (hv : v.Unhandled) {op : Operator} {operands : List (Value κ)}
    (hq : q = .operate v op operands) : AllOrNothing s q w (Request.called <$> v.operate host s op operands) := by
  cases v with
  | void => exact allOrNothing_throw _
  | literal id l =>
    dsimp only [Value.operate]
    split
    next => exact allOrNothing_newLiteral _
    next binary right =>
      cases right.literal? with
      | none => exact allOrNothing_emitBinary _ _ _
      | some r =>
        dsimp only
        cases l.foldBinary? binary r with
        | none => exact allOrNothing_throw _
        | some result => exact allOrNothing_newLiteral _
    next => exact allOrNothing_throw _
  | store id name temporary =>
    dsimp only [Value.operate]
    split
    next => exact allOrNothing_emitAssign name hq
    next => exact allOrNothing_emitBinary _ _ _
    next => exact allOrNothing_emitUnary _ _
    next => exact allOrNothing_throw _
  | object id o =>
    simp only [Value.operate, hv.handler?]
    split
    · exact allOrNothing_newLiteral _
    · exact allOrNothing_throw _
  | function id f =>
    dsimp only [Value.operate]
    split
    · exact allOrNothing_newLiteral _
    · exact allOrNothing_throw _

theorem allOrNothing_run (hq : q.IsBuiltIn) : AllOrNothing s q w (q.run host s) := by
  cases q with
  | eval v => exact allOrNothing_eval hq
  | consume v => exact allOrNothing_consume hq
  | getMember v key => exact allOrNothing_getMember hq key
  | call v arguments => exact allOrNothing_call hq.1 hq.2 arguments
  | operate v op operands => exact allOrNothing_operate hq rfl

end AllOrNothing

/-! ### Constants -/

/-- A constant, and no instruction. -/
def Called.IsConstant (r : Called κ) : Prop := r.2 = [] ∧ ∃ id l, r.1 = some (.literal id l)

section Constants

variable {host : Host κ η} {s : Scope} {w : CompileState κ η}

theorem Value.eq_literal {v : Value κ} (h : v.literal?.isSome) : ∃ id l, v = .literal id l := by
  cases v with
  | literal id l => exact ⟨id, l, rfl⟩
  | void | store | object | function => cases h

/-- Operations on constants are folded. -/
theorem constant_operate (id : Nat) (l : Literal) (op : Operator) {operands : List (Value κ)}
    (hoperands : ∀ v ∈ operands, v.literal?.isSome) :
    Yields (Request.called <$> (Value.literal id l).operate host s op operands) w (fun r _ => Called.IsConstant r)
      (fun _ _ => True) := by
  dsimp only [Value.operate]
  split
  next => exact ⟨rfl, _, _, rfl⟩
  next binary right =>
    obtain ⟨id', r, rfl⟩ := Value.eq_literal (hoperands right (by simp))
    dsimp only [Value.literal?]
    cases l.foldBinary? binary r with
    | none => trivial
    | some result => exact ⟨rfl, _, _, rfl⟩
  next => trivial

theorem constant_run {q : Request κ} (hq : ∀ v ∈ q.values, v.literal?.isSome) :
    Yields (q.run host s) w (fun r _ => Called.IsConstant r) (fun _ _ => True) := by
  cases q with
  | eval v | consume v =>
    obtain ⟨id, l, rfl⟩ := Value.eq_literal (hq v (by simp [Request.values]))
    exact ⟨rfl, id, l, rfl⟩
  | getMember v key =>
    obtain ⟨id, l, rfl⟩ := Value.eq_literal (hq v (by simp [Request.values]))
    cases l with
    | number | bool => trivial
    | string text =>
      dsimp only [Request.run, Value.getMember]
      split
      · exact ⟨rfl, _, _, rfl⟩
      · trivial
  | call v arguments =>
    obtain ⟨id, l, rfl⟩ := Value.eq_literal (hq v (by simp [Request.values]))
    trivial
  | operate v op operands =>
    obtain ⟨id, l, rfl⟩ := Value.eq_literal (hq v (by simp [Request.values]))
    exact constant_operate id l op fun u hu => hq u (by simp [Request.values, hu])

end Constants

/-! ### All or nothing -/

/-- All that is on record about names and values is the same. -/
structure CompileState.SameNames (w w' : CompileState κ η) : Prop where
  tables : w'.tables = w.tables
  owners : w'.owners = w.owners
  mutabilities : w'.mutabilities = w.mutabilities
  host : w'.host = w.host

theorem Effect.sameNames {s : Scope} {q : Request κ} {w w' : CompileState κ η} {r : Called κ}
    (h : Effect s q w r w') : w.SameNames w' := by
  cases h <;> exact ⟨rfl, rfl, rfl, rfl⟩

/-- Numbering a temporary concerns the counter of one compilation. -/
theorem CompileState.countersOf_addTemporary {w : CompileState κ η} {s : Scope}
    (hs : s.compilation < w.counters.length) (t : Scope) :
    (w.addTemporary s).2.countersOf t =
      if t.compilation = s.compilation then
        { w.countersOf s with temporaries := (w.countersOf s).temporaries + 1 }
      else w.countersOf t := by
  simp only [countersOf, addTemporary, List.getElem?_modify]
  split
  next h =>
    rw [if_pos h.symm, ← h, List.getElem?_eq_getElem hs]
    rfl
  next h =>
    rw [if_neg (Ne.symm h)]
    cases w.counters[t.compilation]? <;> rfl

/-- The temporary variable that is made next in a scope. -/
def CompileState.IsNextTemporary (w : CompileState κ η) (s : Scope) (v : Value κ) : Prop :=
  ∃ id, w.values ≤ id ∧ v = .store id (temporaryName (w.countersOf s).temporaries) true

/-- A counter of 32 bits that does not run over. -/
theorem Counters.exists_word {n : Nat} (h : n + 1 < limit) : ∃ k : BitVec 32, k.toNat = n ∧ (k + 1).toNat = n + 1 := by
  have hn : (BitVec.ofNat 32 n).toNat = n := Nat.mod_eq_of_lt (Nat.lt_of_succ_lt h)
  refine ⟨BitVec.ofNat 32 n, hn, ?_⟩
  rw [BitVec.toNat_add, hn]
  exact Nat.mod_eq_of_lt h

/-- A built-in operation that fails leaves no trace. One that succeeds leaves names, owners and mutabilities as they
are. It emits nothing and numbers no temporary, or it emits one instruction, which writes the value that it returns:
the variable that it assigns to, or the next temporary, whose number a counter of 32 bits shows as long as it does not
run over. On constants it emits nothing. -/
theorem builtIn_all_or_nothing (host : Host κ η) (s : Scope) {q : Request κ} (hq : q.IsBuiltIn)
    {w : CompileState κ η} (hs : s.compilation < w.counters.length) :
    Yields (q.run host s) w
      (fun r w' => w.SameNames w' ∧
        (r.2 = [] ∧ w'.counters = w.counters ∨
          ∃ v i, r = (some v, [i]) ∧ i.output = some v ∧
            ((∃ op operands, q = .operate v (.assign op) operands) ∧ w'.counters = w.counters ∨
              w.IsNextTemporary s v ∧
              (∀ t : Scope, w'.countersOf t =
                if t.compilation = s.compilation then
                  { w.countersOf s with temporaries := (w.countersOf s).temporaries + 1 }
                else w.countersOf t) ∧
              ((w'.countersOf s).temporaries < Counters.limit → ∃ n : BitVec 32,
                n.toNat = (w.countersOf s).temporaries ∧ (n + 1).toNat = (w'.countersOf s).temporaries))) ∧
        ((∀ v ∈ q.values, v.literal?.isSome) → Called.IsConstant r))
      (fun _ w' => w' = w) := by
  have hall : AllOrNothing s q w (q.run host s) := allOrNothing_run hq
  have hconstant : Yields (q.run host s) w
      (fun r _ => (∀ v ∈ q.values, v.literal?.isSome) → Called.IsConstant r) (fun _ _ => True) := by
    unfold Yields
    split
    next r w' hrun =>
      intro hliterals
      exact (constant_run hliterals).of_ok hrun
    next => trivial
  refine (hall.and hconstant).mono (fun r w' h => ⟨h.1.sameNames, ?_, h.2⟩) (fun _ _ h => h.1)
  cases h.1 with
  | silent v made => exact .inl ⟨rfl, rfl⟩
  | assigned hq opcode arguments => exact .inr ⟨_, _, rfl, rfl, .inl ⟨⟨_, _, hq⟩, rfl⟩⟩
  | computed made opcode arguments hv =>
    have hnext : w.IsNextTemporary s _ := ⟨w.values + made, Nat.le_add_right _ _, hv⟩
    refine .inr ⟨_, _, rfl, rfl, .inr ⟨hnext, CompileState.countersOf_addTemporary hs, fun hlt => ?_⟩⟩
    have hnumber : ((w.addTemporary s).2.countersOf s).temporaries = (w.countersOf s).temporaries + 1 := by
      rw [CompileState.countersOf_addTemporary hs, if_pos rfl]
    obtain ⟨n, hn, hsucc⟩ := Counters.exists_word (Nat.lt_of_le_of_lt (Nat.le_of_eq hnumber.symm) hlt)
    exact ⟨n, hn, hsucc.trans hnumber.symm⟩

/-- A root scope in which a variable and a constant exist. -/
def CompileState.withTwo : CompileState Unit Unit := { (CompileState.initial ()).addRoot.2 with values := 2 }

/-- Negating a variable makes a constant and the first temporary; the constant comes first. -/
theorem negation_all_or_nothing :
    (Request.operate (κ := Unit) (.store 0 "x:1:4" false) (.unary .neg) []).IsBuiltIn ∧
      ∃ r w', (Request.operate (.store 0 "x:1:4" false) (.unary .neg) []).run (.inert Unit Unit) ⟨0, 0, 0, []⟩
          CompileState.withTwo = .ok r w' ∧
        r.1 = some (.store 3 "&t0" true) ∧ r.2.length = 1 ∧ CompileState.withTwo.SameNames w' ∧
        (w'.countersOf ⟨0, 0, 0, []⟩).temporaries = 1 := by
  have hall := builtIn_all_or_nothing (.inert Unit Unit) ⟨0, 0, 0, []⟩
    (q := .operate (.store 0 "x:1:4" false) (.unary .neg) []) (w := .withTwo) trivial (by decide)
  have hrun : (Request.operate (.store 0 "x:1:4" false) (.unary .neg) []).run (.inert Unit Unit) ⟨0, 0, 0, []⟩
    CompileState.withTwo = .ok _ _ := rfl
  exact ⟨trivial, _, _, hrun, rfl, rfl, (hall.of_ok hrun).1, rfl⟩

end DeclCompiler
