import DeclCompiler.Proofs.Later
import DeclCompiler.Proofs.Visit
import Mathlib.Data.List.Forall2
import Mathlib.Order.Defs.PartialOrder

/-!
Two compilations side by side. A correspondence says which names, values and states of the one stand for which of the
other. It does so for each of a number of worlds, as more values stand for each other when more are made. Actions mirror
each other if they end alike from states that correspond. A declaration decides by the shape of values, by what is on
record about them and by the names that are taken, so if a correspondence keeps these, two declarations of one
pattern mirror each other.
-/

namespace DeclCompiler

variable {W κ η α β : Type}

/-! ### Optional things -/

section OptionRel

variable {R S : α → β → Prop} {a : Option α} {b : Option β}

theorem optionRel_mono (hRS : ∀ a b, R a b → S a b) (h : Option.Rel R a b) : Option.Rel S a b := by
  cases h with
  | some h => exact .some (hRS _ _ h)
  | none => exact .none

theorem optionRel_cases (h : Option.Rel R a b) : a = none ∧ b = none ∨ ∃ x y, a = some x ∧ b = some y ∧ R x y := by
  cases h with
  | some h => exact .inr ⟨_, _, rfl, rfl, h⟩
  | none => exact .inl ⟨rfl, rfl⟩

theorem optionRel_isSome (h : Option.Rel R a b) : a.isSome = b.isSome := by
  cases h <;> rfl

end OptionRel

/-! ### Things made of names and values -/

/-- An error tells a variable by its name. -/
inductive Cause.Alike (names : String → String → Prop) : Cause → Cause → Prop
  | same (cause : Cause) : Alike names cause cause
  | unsupported (operation : String) {v v' : String} (h : names v v') :
    Alike names (.unsupported operation v) (.unsupported operation v')

structure CompileError.Alike (names : String → String → Prop) (e e' : CompileError) : Prop where
  cause : e.cause.Alike names e'.cause
  spans : e.spans = e'.spans

/-- Instructions of the same form and from the same place, whose values stand for each other. -/
structure Instruction.Alike (values : Value κ → Value κ → Prop) (i i' : Instruction κ) : Prop where
  opcode : i.opcode = i'.opcode
  output : Option.Rel values i.output i'.output
  operands : List.Forall₂ values i.operands i'.operands
  source : i.source = i'.source
  alwaysRuns : i.alwaysRuns = i'.alwaysRuns

/-- Instruction lists that are alike one by one. -/
abbrev CodeAlike (values : Value κ → Value κ → Prop) : List (Instruction κ) → List (Instruction κ) → Prop :=
  List.Forall₂ (Instruction.Alike values)

structure Binding.Alike (names : String → String → Prop) (values : Value κ → Value κ → Prop) (b b' : Binding κ) :
    Prop where
  identifier : b.identifier = b'.identifier
  name : names b.name b'.name
  scope : b.scope = b'.scope
  value : values b.value b'.value
  constant : b.constant = b'.constant

/-- Name tables that bind the same names in the same order to values that stand for each other. There may be none, or a
table may have been dropped. -/
abbrev TableAlike (names : String → String → Prop) (values : Value κ → Value κ → Prop) :
    Option (Option (List (Binding κ))) → Option (Option (List (Binding κ))) → Prop :=
  Option.Rel (Option.Rel (List.Forall₂ (Binding.Alike names values)))

/-- Values of the same kind. Literals are the same, and objects have the same keys and handlers. -/
inductive Value.SameShape (values : Value κ → Value κ → Prop) (functions : MacroFn κ → MacroFn κ → Prop) :
    Value κ → Value κ → Prop
  | void (id id' : Nat) : SameShape values functions (.void id) (.void id')
  | literal (id id' : Nat) (l : Literal) : SameShape values functions (.literal id l) (.literal id' l)
  | store (id id' : Nat) (name name' : String) (temporary : Bool) :
    SameShape values functions (.store id name temporary) (.store id' name' temporary)
  | object (id id' : Nat) {o o' : Object κ (Value κ)} (members : ∀ key, Option.Rel values (o.get? key) (o'.get? key))
      (handlers : ∀ h, Option.Rel functions (o.handler? h) (o'.handler? h)) :
    SameShape values functions (.object id o) (.object id' o')
  | function (id id' : Nat) (f f' : MacroFn κ) : SameShape values functions (.function id f) (.function id' f')

section Alike

variable {names : String → String → Prop} {values values' : Value κ → Value κ → Prop}
  {functions : MacroFn κ → MacroFn κ → Prop}

theorem CompileError.Alike.refl (e : CompileError) : e.Alike names e := ⟨.same _, rfl⟩

theorem CompileError.Alike.withSpan {e e' : CompileError} (h : e.Alike names e') (span : Span) :
    (e.withSpan span).Alike names (e'.withSpan span) := by
  unfold CompileError.withSpan CompileError.withSpans
  rw [h.spans]
  split
  · exact ⟨h.cause, rfl⟩
  · exact h

/-- If variables keep their names, errors that are alike are equal. -/
theorem CompileError.Alike.eq (hnames : ∀ a b, names a b → a = b) {e e' : CompileError} (h : e.Alike names e') :
    e = e' := by
  obtain ⟨cause, spans⟩ := e
  obtain ⟨cause', spans'⟩ := e'
  obtain ⟨hcause, rfl⟩ := h
  cases hcause with
  | same => rfl
  | unsupported operation h => rw [hnames _ _ h]

theorem Instruction.Alike.imp {i i' : Instruction κ} (h : i.Alike values i')
    (himp : ∀ v v', values v v' → values' v v') : i.Alike values' i' where
  opcode := h.opcode
  output := optionRel_mono himp h.output
  operands := h.operands.imp himp
  source := h.source
  alwaysRuns := h.alwaysRuns

/-- An instruction that writes its first operand. -/
theorem Instruction.Alike.into {opcode : Opcode} {output output' : Value κ} {arguments arguments' : List (Value κ)}
    (h : values output output') (ha : List.Forall₂ values arguments arguments') :
    Instruction.Alike values { opcode, output := some output, operands := output :: arguments }
      { opcode, output := some output', operands := output' :: arguments' } where
  opcode := rfl
  output := .some h
  operands := .cons h ha
  source := rfl
  alwaysRuns := rfl

theorem CodeAlike.withSource {code code' : List (Instruction κ)} (h : CodeAlike values code code') (span : Span) :
    CodeAlike values (code.map (·.withSource span)) (code'.map (·.withSource span)) := by
  refine List.rel_map (fun i i' hi => ?_) h
  exact { hi with source := by rw [Instruction.withSource, Instruction.withSource, hi.source] }

theorem Binding.Alike.imp {b b' : Binding κ} (h : b.Alike names values b')
    (himp : ∀ v v', values v v' → values' v v') : b.Alike names values' b' :=
  { h with value := himp _ _ h.value }

section Tables

variable {w w' : CompileState κ η} {i : Nat}

theorem TableAlike.imp {t t' : Option (Option (List (Binding κ)))} (h : TableAlike names values t t')
    (himp : ∀ v v', values v v' → values' v v') : TableAlike names values' t t' :=
  optionRel_mono (fun _ _ => optionRel_mono fun _ _ ht => ht.imp fun _ _ hb => hb.imp himp) h

theorem TableAlike.own? (h : TableAlike names values w.tables[i]? w'.tables[i]?) (identifier : String) :
    Option.Rel (Binding.Alike names values) (w.own? i identifier) (w'.own? i identifier) := by
  have htable : List.Forall₂ (Binding.Alike names values) (w.table i) (w'.table i) := by
    unfold CompileState.table
    obtain ⟨ht, ht'⟩ | ⟨t, t', ht, ht', htable⟩ := optionRel_cases h
    · rw [ht, ht']
      exact .nil
    · rw [ht, ht']
      cases htable with
      | none => exact .nil
      | some hbindings => exact hbindings
  unfold CompileState.own?
  generalize w.table i = t at htable ⊢
  generalize w'.table i = t' at htable ⊢
  induction htable with
  | nil => exact .none
  | @cons b b' _ _ hb _ ih =>
    rw [List.find?_cons, List.find?_cons, hb.identifier]
    cases b'.identifier == identifier with
    | true => exact .some hb
    | false => exact ih

theorem TableAlike.enter {s : Scope} (h : TableAlike names values w.tables[s.table]? w'.tables[s.table]?)
    {b b' : Binding κ} (hb : b.Alike names values b') :
    TableAlike names values (w.enter s b).tables[s.table]? (w'.enter s b').tables[s.table]? := by
  rw [CompileState.tables_enter, CompileState.tables_enter, if_pos rfl, if_pos rfl]
  obtain ⟨ht, ht'⟩ | ⟨t, t', ht, ht', htable⟩ := optionRel_cases h
  · rw [ht, ht']
    exact .none
  · rw [ht, ht']
    cases htable with
    | none => exact .some .none
    | some hbindings => exact .some (.some (List.rel_append hbindings (.cons hb .nil)))

end Tables

theorem Value.SameShape.isMacro_eq {v v' : Value κ} (h : v.SameShape values functions v') :
    v.isMacro = v'.isMacro := by
  cases h <;> rfl

theorem Value.SameShape.literal?_eq {v v' : Value κ} (h : v.SameShape values functions v') :
    v.literal? = v'.literal? := by
  cases h <;> rfl

end Alike

/-! ### Correspondences -/

/-- What stands for what in two compilations. Functions stand for each other as handlers, which are called. -/
structure Correspondence (W κ η : Type) where
  names : String → String → Prop
  values : W → Value κ → Value κ → Prop
  functions : W → MacroFn κ → MacroFn κ → Prop
  states : W → CompileState κ η → CompileState κ η → Prop

namespace Correspondence

section Results

variable (R : Correspondence W κ η) (ρ : W)

abbrev errors : CompileError → CompileError → Prop := CompileError.Alike R.names

abbrev code : List (Instruction κ) → List (Instruction κ) → Prop := CodeAlike (R.values ρ)

abbrev inits : Option (Value κ) → Option (Value κ) → Prop := Option.Rel (R.values ρ)

abbrev parts : Parts κ → Parts κ → Prop := List.Forall₂ (R.inits ρ)

def computed (r r' : Computed κ) : Prop := R.values ρ r.1 r'.1 ∧ R.code ρ r.2 r'.2

def called (r r' : Called κ) : Prop := R.inits ρ r.1 r'.1 ∧ R.code ρ r.2 r'.2

/-- The parts that are left and the instructions of a visit. -/
def visited (r r' : Parts κ × List (Instruction κ)) : Prop := R.parts ρ r.1 r'.1 ∧ R.code ρ r.2 r'.2

end Results

variable [Preorder W]

/-- Both actions succeed or both fail, in states that correspond. More may stand for each other by then. -/
inductive EndAlike (R : Correspondence W κ η) (failed : CompileError → CompileError → Prop)
    (result : W → α → α → Prop) (ρ : W) :
    EStateM.Result CompileError (CompileState κ η) α → EStateM.Result CompileError (CompileState κ η) α → Prop
  | ok {ρ' a a' w w'} (hρ : ρ ≤ ρ') (hw : R.states ρ' w w') (h : result ρ' a a') :
    EndAlike R failed result ρ (.ok a w) (.ok a' w')
  | error {ρ' e e' w w'} (hρ : ρ ≤ ρ') (hw : R.states ρ' w w') (h : failed e e') :
    EndAlike R failed result ρ (.error e w) (.error e' w')

def Mirrors (R : Correspondence W κ η) (failed : CompileError → CompileError → Prop) (result : W → α → α → Prop)
    (ρ : W) (x x' : CompileM κ η α) : Prop :=
  ∀ w w', R.states ρ w w' → R.EndAlike failed result ρ (x w) (x' w')

section Mirrors

variable {R : Correspondence W κ η} {failed failed' : CompileError → CompileError → Prop}
  {result : W → α → α → Prop} {result' : W → β → β → Prop} {ρ ρ' : W}

theorem EndAlike.weaken {r r' : EStateM.Result CompileError (CompileState κ η) α}
    (h : R.EndAlike failed result ρ' r r') (hρ : ρ ≤ ρ') (hfailed : ∀ e e', failed e e' → failed' e e') :
    R.EndAlike failed' result ρ r r' := by
  cases h with
  | ok hρ' hw h => exact .ok (le_trans hρ hρ') hw h
  | error hρ' hw h => exact .error (le_trans hρ hρ') hw (hfailed _ _ h)

theorem Mirrors.weaken {x x' : CompileM κ η α} (hx : R.Mirrors failed result ρ x x')
    (hfailed : ∀ e e', failed e e' → failed' e e') : R.Mirrors failed' result ρ x x' :=
  fun w w' hw => (hx w w' hw).weaken (le_refl ρ) hfailed

theorem Mirrors.pure {a a' : α} (h : result ρ a a') : R.Mirrors failed result ρ (pure a) (pure a') :=
  fun _ _ hw => .ok (le_refl ρ) hw h

theorem Mirrors.throw {e e' : CompileError} (h : failed e e') :
    R.Mirrors failed result ρ (throw e : CompileM κ η α) (throw e') :=
  fun _ _ hw => .error (le_refl ρ) hw h

theorem Mirrors.bind {x x' : CompileM κ η α} {f f' : α → CompileM κ η β} (hx : R.Mirrors failed result ρ x x')
    (hf : ∀ ρ', ρ ≤ ρ' → ∀ a a', result ρ' a a' → R.Mirrors failed result' ρ' (f a) (f' a')) :
    R.Mirrors failed result' ρ (x >>= f) (x' >>= f') := by
  intro w w' hw
  have hend := hx w w' hw
  cases hxw : x w with
  | ok a w₁ =>
    cases hxw' : x' w' with
    | ok a' w₁' =>
      rw [hxw, hxw'] at hend
      rw [bind_of_ok hxw, bind_of_ok hxw']
      cases hend with
      | ok hρ hw₁ ha => exact (hf _ hρ a a' ha w₁ w₁' hw₁).weaken hρ fun _ _ h => h
    | error e' w₁' =>
      rw [hxw, hxw'] at hend
      cases hend
  | error e w₁ =>
    cases hxw' : x' w' with
    | ok a' w₁' =>
      rw [hxw, hxw'] at hend
      cases hend
    | error e' w₁' =>
      rw [hxw, hxw'] at hend
      rw [bind_of_error hxw, bind_of_error hxw']
      cases hend with
      | error hρ hw₁ he => exact .error hρ hw₁ he

theorem Mirrors.locating {x x' : CompileM κ η α} (hx : R.Mirrors R.errors result ρ x x') (span : Span) :
    R.Mirrors R.errors result ρ (locating span x) (locating span x') := by
  intro w w' hw
  have hend := hx w w' hw
  unfold DeclCompiler.locating
  revert hend
  generalize x w = r
  generalize x' w' = r'
  intro hend
  cases hend with
  | ok hρ hw₁ ha => exact .ok hρ hw₁ ha
  | error hρ hw₁ he => exact .error hρ hw₁ (he.withSpan span)

theorem Mirrors.attributing {x x' : CompileM κ η (List (Instruction κ))} (hx : R.Mirrors R.errors R.code ρ x x')
    (span : Span) : R.Mirrors R.errors R.code ρ (attributing span x) (attributing span x') :=
  (hx.locating span).bind fun _ _ _ _ hcode => .pure (hcode.withSource span)

end Mirrors

/-! ### What declarations depend on -/

/-- A declaration in the scope cannot tell apart what corresponds. -/
structure Laws (R : Correspondence W κ η) (s : Scope) : Prop where
  mono : ∀ {ρ ρ' v v'}, ρ ≤ ρ' → R.values ρ v v' → R.values ρ' v v'
  text : ∀ {ρ v v'}, R.values ρ v v' → R.names v.text v'.text
  shape : ∀ {ρ v v'}, R.values ρ v v' → v.SameShape (R.values ρ) (R.functions ρ) v'
  own : ∀ {ρ w w'}, R.states ρ w w' → ∀ name, (w.own? s.table name).isSome = (w'.own? s.table name).isSome
  lookup : ∀ {ρ w w'}, R.states ρ w w' → ∀ name,
    Option.Rel (fun b b' => R.values ρ b.value b'.value) (w.lookup? s name) (w'.lookup? s name)
  mutability : ∀ {ρ w w' v v'}, R.states ρ w w' → R.values ρ v v' → w.mutability v = w'.mutability v'
  /-- The next values of both compilations can stand for each other. -/
  next : ∀ {ρ w w'}, R.states ρ w w' → ∃ ρ', ρ ≤ ρ' ∧
    R.states ρ' { w with values := w.values + 1 } { w' with values := w'.values + 1 } ∧
    (∀ l, R.values ρ' (.literal w.values l) (.literal w'.values l)) ∧
    ∀ name name', R.names name name' → R.values ρ' (.store w.values name false) (.store w'.values name' false)
  enter : ∀ {ρ w w' b b'}, R.states ρ w w' → Binding.Alike R.names (R.values ρ) b b' →
    R.states ρ (w.enter s b) (w'.enter s b')
  setMutability : ∀ {ρ w w' v v'}, R.states ρ w w' → R.values ρ v v' → ∀ m,
    R.states ρ (w.setMutability v m) (w'.setMutability v' m)

/-- Handlers that stand for each other mirror each other, called with arguments that do. -/
def HostsAlike (R : Correspondence W κ η) (s : Scope) (host host' : Host κ η) : Prop :=
  ∀ ρ f f' arguments arguments', R.functions ρ f f' → List.Forall₂ (R.values ρ) arguments arguments' →
    R.Mirrors R.errors R.called ρ (f.invoke host s arguments) (f'.invoke host' s arguments')

/-- Compilers that refuse the same patterns, and whose hosts and evaluators mirror each other. -/
structure CompilersAlike (R : Correspondence W κ η) (s : Scope) (ρ : W) (c c' : Compiler κ η) : Prop where
  host : R.HostsAlike s c.host c'.host
  eval : ∀ ρ', ρ ≤ ρ' → ∀ e,
    R.Mirrors R.errors R.computed ρ' (c.evaluator.eval s e) (c'.evaluator.eval s e)
  consume : ∀ ρ', ρ ≤ ρ' → ∀ e,
    R.Mirrors R.errors R.computed ρ' (c.evaluator.consume s e) (c'.evaluator.consume s e)
  maxPatternDepth : c.options.maxPatternDepth = c'.options.maxPatternDepth
  variableName : ∀ id, R.names (c.variableName id) (c'.variableName id)

theorem CompilersAlike.mono {R : Correspondence W κ η} {s : Scope} {ρ ρ' : W} {c c' : Compiler κ η}
    (h : R.CompilersAlike s ρ c c') (hρ : ρ ≤ ρ') : R.CompilersAlike s ρ' c c' :=
  { h with
    eval := fun ρ₁ hρ₁ => h.eval ρ₁ (le_trans hρ hρ₁)
    consume := fun ρ₁ hρ₁ => h.consume ρ₁ (le_trans hρ hρ₁) }

namespace Laws

variable {R : Correspondence W κ η} {s : Scope} {ρ ρ' : W} (hR : R.Laws s)

include hR

theorem code_mono {code code' : List (Instruction κ)} (h : R.code ρ code code') (hρ : ρ ≤ ρ') :
    R.code ρ' code code' :=
  h.imp fun _ _ hi => hi.imp fun _ _ => hR.mono hρ

theorem parts_mono {parts parts' : Parts κ} (h : R.parts ρ parts parts') (hρ : ρ ≤ ρ') : R.parts ρ' parts parts' :=
  h.imp fun _ _ => optionRel_mono fun _ _ => hR.mono hρ

/-- The error about a value that does not support an operation names the value. -/
theorem unsupported {v v' : Value κ} (h : R.values ρ v v') (operation : String) :
    R.errors (.unsupported operation v) (.unsupported operation v') :=
  ⟨.unsupported operation (hR.text h), rfl⟩

theorem mirrors_newLiteral (failed : CompileError → CompileError → Prop) (l : Literal) :
    R.Mirrors failed R.values ρ (newLiteral l) (newLiteral l) := by
  intro w w' hw
  obtain ⟨ρ', hρ, hnext, hliteral, -⟩ := hR.next hw
  exact .ok hρ hnext (hliteral l)

/-! ### Capabilities -/

section Capabilities

variable {host host' : Host κ η} (hhost : R.HostsAlike s host host')

include hhost

omit hR in
theorem mirrors_runHandler (h : Handler) {f f' : MacroFn κ} (hf : R.functions ρ f f')
    {arguments arguments' : List (Value κ)} (ha : List.Forall₂ (R.values ρ) arguments arguments') :
    R.Mirrors R.errors R.computed ρ (Value.runHandler host s h f arguments)
      (Value.runHandler host' s h f' arguments') := by
  unfold Value.runHandler
  refine (hhost ρ f f' arguments arguments' hf ha).bind fun ρ' hρ r r' hr => ?_
  obtain ⟨v, code⟩ := r
  obtain ⟨v', code'⟩ := r'
  obtain ⟨hv, hcode⟩ := hr
  cases hv with
  | none => exact .throw (.refl _)
  | some hv => exact .pure ⟨hv, hcode⟩

theorem mirrors_eval {v v' : Value κ} (hv : R.values ρ v v') :
    R.Mirrors R.errors R.computed ρ (v.eval host s) (v'.eval host' s) := by
  have hself : R.Mirrors R.errors R.computed ρ (pure (v, []) : CompileM κ η (Computed κ)) (pure (v', [])) :=
    .pure ⟨hv, .nil⟩
  cases hR.shape hv with
  | void => exact .throw (hR.unsupported hv _)
  | literal | store | function => exact hself
  | object id id' members handlers =>
    unfold Value.eval
    dsimp only
    obtain ⟨hf, hf'⟩ | ⟨f, f', hf, hf', hff⟩ := optionRel_cases (handlers .eval)
    · rw [hf, hf']
      exact hself
    · rw [hf, hf']
      exact mirrors_runHandler hhost .eval hff .nil

theorem mirrors_consume {v v' : Value κ} (hv : R.values ρ v v') :
    R.Mirrors R.errors R.computed ρ (v.consume host s) (v'.consume host' s) := by
  have hself : R.Mirrors R.errors R.computed ρ (pure (v, []) : CompileM κ η (Computed κ)) (pure (v', [])) :=
    .pure ⟨hv, .nil⟩
  have heval := hR.mirrors_eval hhost hv
  cases hR.shape hv with
  | void => exact .throw (hR.unsupported hv _)
  | literal | store | function => exact hself
  | object id id' members handlers =>
    unfold Value.consume
    dsimp only
    obtain ⟨hf, hf'⟩ | ⟨f, f', hf, hf', hff⟩ := optionRel_cases (handlers .consume)
    · rw [hf, hf']
      refine heval.bind fun ρ' hρ r r' hr => ?_
      obtain ⟨v, code⟩ := r
      obtain ⟨v', code'⟩ := r'
      have hv' : R.values ρ' v v' := hr.1
      cases hR.shape hv' with
      | void | literal => exact .throw (hR.unsupported hv' _)
      | store | object | function => exact .pure hr
    · rw [hf, hf']
      exact mirrors_runHandler hhost .consume hff .nil

theorem mirrors_getMember {v v' key key' : Value κ} (hv : R.values ρ v v') (hkey : R.values ρ key key') :
    R.Mirrors R.errors R.computed ρ (v.getMember host s key) (v'.getMember host' s key') := by
  have hunsupported : R.Mirrors R.errors R.computed ρ (throw (.unsupported "get" v) : CompileM κ η (Computed κ))
    (throw (.unsupported "get" v')) := .throw (hR.unsupported hv _)
  have hliteral := (hR.shape hkey).literal?_eq
  cases hR.shape hv with
  | void | store | function => exact hunsupported
  | literal id id' l =>
    cases l with
    | number | bool => exact hunsupported
    | string text =>
      unfold Value.getMember
      dsimp only
      rw [hliteral]
      split
      · exact (hR.mirrors_newLiteral _ _).bind fun ρ' hρ a a' ha => .pure ⟨ha, .nil⟩
      · exact hunsupported
  | @object id id' o o' members handlers =>
    have hmember : R.inits ρ (o.member? key) (o'.member? key') := by
      unfold Object.member?
      rw [hliteral]
      cases key'.literal? with
      | none => exact .none
      | some l => exact members l.key
    unfold Value.getMember
    dsimp only
    obtain ⟨hm, hm'⟩ | ⟨m, m', hm, hm', hmm⟩ := optionRel_cases hmember
    · rw [hm, hm']
      dsimp only
      obtain ⟨hf, hf'⟩ | ⟨f, f', hf, hf', hff⟩ := optionRel_cases (handlers .get)
      · rw [hf, hf']
        exact .throw (.refl _)
      · rw [hf, hf']
        exact mirrors_runHandler hhost .get hff (.cons hkey .nil)
    · rw [hm, hm']
      exact .pure ⟨hmm, .nil⟩

end Capabilities

/-! ### Expressions -/

section Expressions

variable {externals externals' : List (Nat × Value κ)}
  (hexternals : ∀ id, R.inits ρ (Entries.get? id externals) (Entries.get? id externals'))

include hexternals

theorem mirrors_evalBasic (e : Expr) :
    R.Mirrors R.errors R.computed ρ (Evaluator.evalBasic externals s e) (Evaluator.evalBasic externals' s e) := by
  unfold Evaluator.evalBasic
  refine Mirrors.locating ?_ e.span
  cases e.kind with
  | identifier name =>
    intro w w' hw
    have hget : (get : CompileM κ η (CompileState κ η)) w = .ok w w := rfl
    have hget' : (get : CompileM κ η (CompileState κ η)) w' = .ok w' w' := rfl
    dsimp only
    rw [bind_of_ok hget, bind_of_ok hget']
    obtain ⟨hb, hb'⟩ | ⟨b, b', hb, hb', hvalue⟩ := optionRel_cases (hR.lookup hw name)
    · rw [hb, hb']
      exact Mirrors.throw (.refl _) w w' hw
    · rw [hb, hb']
      exact Mirrors.pure ⟨hvalue, .nil⟩ w w' hw
  | literal l => exact (hR.mirrors_newLiteral _ l).bind fun ρ' hρ v v' hv => .pure ⟨hv, .nil⟩
  | external id =>
    dsimp only
    obtain ⟨hv, hv'⟩ | ⟨v, v', hv, hv', hvv⟩ := optionRel_cases (hexternals id)
    · rw [hv, hv']
      exact .throw (.refl _)
    · rw [hv, hv']
      exact .pure ⟨hvv, .nil⟩

/-- The basic evaluators for external expressions that correspond make compilers that do. -/
theorem compilersAlike_basic {c c' : Compiler κ η} (hhost : R.HostsAlike s c.host c'.host)
    (hevaluator : c.evaluator = .basic c.host externals) (hevaluator' : c'.evaluator = .basic c'.host externals')
    (hdepth : c.options.maxPatternDepth = c'.options.maxPatternDepth)
    (hnames : ∀ id, R.names (c.variableName id) (c'.variableName id)) : R.CompilersAlike s ρ c c' := by
  have heval (ρ' : W) (hρ : ρ ≤ ρ') (e : Expr) := hR.mirrors_evalBasic (ρ := ρ')
    (fun id => optionRel_mono (fun _ _ => hR.mono hρ) (hexternals id)) e
  refine ⟨hhost, ?_, fun ρ₁ hρ₁ e => ?_, hdepth, hnames⟩
  · rw [hevaluator, hevaluator']
    exact heval
  · rw [hevaluator, hevaluator']
    refine (heval ρ₁ hρ₁ e).bind fun ρ₂ hρ₂ r r' hr => ?_
    refine (hR.mirrors_consume hhost hr.1).bind fun ρ₃ hρ₃ q q' hq => ?_
    exact .pure ⟨hq.1, List.rel_append (hR.code_mono hr.2 hρ₃) hq.2⟩

end Expressions

/-! ### Identifiers -/

section Declarations

variable {kind : DeclKind} {c c' : Compiler κ η} (hc : R.CompilersAlike s ρ c c')

include hc

omit hR in
theorem binding_alike (id : Identifier) {v v' : Value κ} (hv : R.values ρ v v') (constant : Bool) :
    Binding.Alike R.names (R.values ρ) (c.binding s id v constant) (c'.binding s id v' constant) :=
  ⟨rfl, hc.variableName id, rfl, hv, rfl⟩

/-- The variables that both compilations make for an identifier stand for each other. -/
theorem withVariable_alike (id : Identifier) {w w' : CompileState κ η} (hw : R.states ρ w w') :
    ∃ ρ', ρ ≤ ρ' ∧ R.values ρ' (c.newVariable id w) (c'.newVariable id w') ∧
      R.states ρ' (c.withVariable s id w) (c'.withVariable s id w') := by
  obtain ⟨ρ', hρ, hnext, -, hstore⟩ := hR.next hw
  have hvariable : R.values ρ' (c.newVariable id w) (c'.newVariable id w') := hstore _ _ (hc.variableName id)
  exact ⟨ρ', hρ, hvariable, hR.enter hnext (binding_alike (hc.mono hρ) id hvariable false)⟩

variable (kind) in
theorem variableResult_alike (id : Identifier) {w w' : CompileState κ η} (hw : R.states ρ w w')
    {init init' : Option (Value κ)} (hinit : R.inits ρ init init') :
    R.EndAlike R.errors R.code ρ (c.variableResult s id kind init w) (c'.variableResult s id kind init' w') := by
  unfold Compiler.variableResult
  rw [hR.own hw]
  split
  · obtain ⟨ρ', hρ, hnext, -⟩ := hR.next hw
    exact .error hρ hnext (.refl _)
  · obtain ⟨ρ', hρ, hvariable, hmade⟩ := hR.withVariable_alike hc id hw
    cases hinit with
    | none => exact .ok hρ hmade .nil
    | some hv =>
      dsimp only
      rw [(hR.shape hv).isMacro_eq]
      split
      · exact .error hρ hmade (.refl _)
      · refine .ok hρ ?_ (.cons (.into hvariable (.cons (hR.mono hρ hv) .nil)) .nil)
        unfold Compiler.afterSet
        split
        · exact hR.setMutability hmade hvariable .constantBinding
        · exact hmade

theorem mirrors_declareIdentifier (id : Identifier) {init init' : Option (Value κ)} (hinit : R.inits ρ init init') :
    R.Mirrors R.errors R.code ρ (c.declareIdentifier s kind id init) (c'.declareIdentifier s kind id init') := by
  intro w w' hw
  have hvariable := hR.variableResult_alike kind hc id hw hinit
  rw [Compiler.declareIdentifier_eq, Compiler.declareIdentifier_eq]
  unfold Compiler.identifierResult
  cases kind.isConst with
  | false => exact hvariable
  | true =>
    cases hinit with
    | none => exact .error (le_refl ρ) hw (.refl _)
    | some hv =>
      dsimp only
      rw [hR.mutability hw hv]
      split
      · unfold Compiler.aliasResult
        rw [hR.own hw]
        split
        · exact .error (le_refl ρ) hw (.refl _)
        · exact .ok (le_refl ρ) (hR.enter hw (binding_alike hc id hv true)) .nil
      · exact hvariable

/-! ### Visits -/

theorem mirrors_propertyKey (key : Expr) (computed : Bool) :
    R.Mirrors R.errors R.computed ρ (c.propertyKey s key computed) (c'.propertyKey s key computed) := by
  have hconsume := hc.consume ρ (le_refl ρ) key
  unfold Compiler.propertyKey
  split
  · exact (hR.mirrors_newLiteral _ _).bind fun ρ' hρ v v' hv => .pure ⟨hv, .nil⟩
  · exact hconsume

omit hc in
theorem mirrors_arrayObject {init init' : Option (Value κ)} (hinit : R.inits ρ init init') :
    R.Mirrors R.errors (fun _ _ _ => True) ρ (Compiler.arrayObject init : CompileM κ η (Object κ (Value κ)))
      (Compiler.arrayObject init') := by
  cases hinit with
  | none => exact .throw (.refl _)
  | some hv =>
    cases hR.shape hv with
    | object => exact .pure trivial
    | void | literal | store | function => exact .throw (.refl _)

omit hc in
theorem mirrors_element (index : Nat) (span : Span) {init init' : Option (Value κ)} {rest rest' : Parts κ}
    (hinit : R.inits ρ init init') (hrest : R.parts ρ rest rest') :
    R.Mirrors R.errors R.visited ρ ((Visit.element index span).step c s kind (init :: rest))
      ((Visit.element index span).step c' s kind (init' :: rest')) := by
  have hparts : R.parts ρ (init :: rest) (init' :: rest') := .cons hinit hrest
  cases hinit with
  | none => exact .throw (.refl _)
  | some hv =>
    cases hR.shape hv with
    | void | literal | store | function => exact .throw (.refl _)
    | object id id' members =>
      unfold Visit.step
      dsimp only
      obtain ⟨hm, hm'⟩ | ⟨m, m', hm, hm', hmm⟩ := optionRel_cases (members index.repr)
      · rw [hm, hm']
        exact .throw (.refl _)
      · rw [hm, hm']
        exact .pure ⟨.cons (.some hmm) hparts, .nil⟩

omit hc in
/-- A value that a visit computes takes the place of the parts that it was computed from. -/
theorem mirrors_computed {x x' : CompileM κ η (Computed κ)} (hx : R.Mirrors R.errors R.computed ρ x x') (span : Span)
    {rest rest' : Parts κ} (hrest : R.parts ρ rest rest') :
    R.Mirrors R.errors R.visited ρ
      (do let (v, code) ← locating span x; return (some v :: rest, code.map (·.withSource span)))
      (do let (v, code) ← locating span x'; return (some v :: rest', code.map (·.withSource span))) :=
  (hx.locating span).bind fun _ hρ _ _ hr =>
    .pure ⟨.cons (.some hr.1) (hR.parts_mono hrest hρ), hr.2.withSource span⟩

theorem mirrors_step (v : Visit) {parts parts' : Parts κ} (hparts : R.parts ρ parts parts') :
    R.Mirrors R.errors R.visited ρ (v.step c s kind parts) (v.step c' s kind parts') := by
  cases v with
  | enter depth span =>
    simp only [Visit.step, hc.maxPatternDepth]
    split
    · exact .throw (.refl _)
    · exact .pure ⟨hparts, .nil⟩
  | refuse cause span => exact .throw (.refl _)
  | identifier id =>
    cases hparts with
    | nil => exact .throw (.refl _)
    | cons hinit hrest =>
      refine ((hR.mirrors_declareIdentifier hc id hinit).attributing id.span).bind fun ρ' hρ code code' hcode => ?_
      exact .pure ⟨hR.parts_mono hrest hρ, hcode⟩
  | array span =>
    cases hparts with
    | nil => exact .throw (.refl _)
    | cons hinit hrest =>
      refine ((hR.mirrors_arrayObject hinit).locating span).bind fun ρ' hρ _ _ _ => ?_
      exact .pure ⟨hR.parts_mono (.cons hinit hrest) hρ, .nil⟩
  | element index span =>
    cases hparts with
    | nil => exact .throw (.refl _)
    | cons hinit hrest => exact hR.mirrors_element index span hinit hrest
  | object span =>
    cases hparts with
    | nil => exact .throw (.refl _)
    | cons hinit hrest =>
      cases hinit with
      | none => exact .throw (.refl _)
      | some hv => exact hR.mirrors_computed (hR.mirrors_consume hc.host hv) span hrest
  | key expr computed span => exact hR.mirrors_computed (hR.mirrors_propertyKey hc expr computed) span hparts
  | member span =>
    cases hparts with
    | nil => exact .throw (.refl _)
    | cons hkey hparts =>
      cases hparts with
      | nil => cases hkey <;> exact .throw (.refl _)
      | cons hinit hrest =>
        cases hkey with
        | none => exact .throw (.refl _)
        | some hk =>
          cases hinit with
          | none => exact .throw (.refl _)
          | some hv => exact hR.mirrors_computed (hR.mirrors_getMember hc.host hv hk) span (.cons (.some hv) hrest)
  | leave =>
    cases hparts with
    | nil => exact .throw (.refl _)
    | cons hinit hrest => exact .pure ⟨hrest, .nil⟩

theorem mirrors_run (visits : List Visit) {parts parts' : Parts κ} (hparts : R.parts ρ parts parts') :
    R.Mirrors R.errors R.visited ρ (Visit.run c s kind visits parts) (Visit.run c' s kind visits parts') := by
  induction visits generalizing ρ parts parts' with
  | nil => exact .pure ⟨hparts, .nil⟩
  | cons v rest ih =>
    rw [Visit.run_cons, Visit.run_cons]
    refine (hR.mirrors_step hc v hparts).bind fun ρ₁ hρ₁ r r' hr => ?_
    refine (ih (hc.mono hρ₁) hr.1).bind fun ρ₂ hρ₂ q q' hq => ?_
    exact .pure ⟨hq.1, List.rel_append (hR.code_mono hr.2 hρ₂) hq.2⟩

/-! ### Whole declarations -/

/-- Declaring one pattern for values that stand for each other ends alike. -/
theorem mirrors_declareAt (depth : Nat) (p : Pattern) {init init' : Option (Value κ)} (hinit : R.inits ρ init init') :
    R.Mirrors R.errors R.code ρ (c.declareAt s kind depth p init) (c'.declareAt s kind depth p init') := by
  have heq : ∀ (c : Compiler κ η) init, c.declareAt s kind depth p init =
      Visit.run c s kind (p.visits depth) [init] >>= fun r => pure r.2 := by
    intro c init
    rw [Compiler.run_visits]
    simp
  rw [heq c, heq c']
  exact (hR.mirrors_run hc (p.visits depth) (.cons hinit .nil)).bind fun _ _ _ _ hr => .pure hr.2

theorem mirrors_compileDeclarator (d : Declarator) :
    R.Mirrors R.errors R.code ρ (c.compileDeclarator s kind d) (c'.compileDeclarator s kind d) := by
  unfold Compiler.compileDeclarator
  refine Mirrors.attributing ?_ d.span
  cases d.init with
  | none => exact hR.mirrors_declareAt hc 0 d.target .none
  | some e =>
    refine (hc.eval ρ (le_refl ρ) e).bind fun ρ₁ hρ₁ r r' hr => ?_
    refine (hR.mirrors_declareAt (hc.mono hρ₁) 0 d.target (.some hr.1)).bind fun ρ₂ hρ₂ code code' hcode => ?_
    exact .pure (List.rel_append (hR.code_mono hr.2 hρ₂) hcode)

theorem mirrors_compileDeclarators (declarators : List Declarator) :
    R.Mirrors R.errors R.code ρ (c.compileDeclarators s kind declarators)
      (c'.compileDeclarators s kind declarators) := by
  induction declarators generalizing ρ with
  | nil => exact .pure .nil
  | cons d rest ih =>
    refine (hR.mirrors_compileDeclarator hc d).bind fun ρ₁ hρ₁ code code' hcode => ?_
    refine (ih (hc.mono hρ₁)).bind fun ρ₂ hρ₂ more more' hmore => ?_
    exact .pure (List.rel_append (hR.code_mono hcode hρ₂) hmore)

theorem mirrors_compileDeclaration (d : Declaration) :
    R.Mirrors R.errors R.code ρ (c.compileDeclaration s d) (c'.compileDeclaration s d) :=
  (hR.mirrors_compileDeclarators hc d.declarators).attributing d.span

end Declarations

end Laws

end Correspondence

end DeclCompiler
