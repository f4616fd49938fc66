import DeclCompiler.Proofs.Declaration
import DeclCompiler.Proofs.Discipline

/-!
Constants are written once. The declaration of a constant makes its variable, sets it, and then grades it
as a constant binding, with nothing in between. Before that nobody else can know the variable, and
afterwards nothing writes it: no capability does, and host code has no instructions but those of
capabilities. So whatever is compiled later, the program sets a constant once.
-/

namespace DeclCompiler

variable {κ η : Type}

/-- The instruction writes the variable with the given identity. -/
def Instruction.writes (id : Nat) (i : Instruction κ) : Bool := i.output.any (·.id == id)

theorem Instruction.writes_iff {id : Nat} {i : Instruction κ} : i.writes id = true ↔ ∃ v ∈ i.output, v.id = id := by
  unfold Instruction.writes
  cases i.output <;> simp

def writesTo (id : Nat) (code : List (Instruction κ)) : List (Instruction κ) := code.filter (·.writes id)

theorem writesTo_append (id : Nat) (code more : List (Instruction κ)) :
    writesTo id (code ++ more) = writesTo id code ++ writesTo id more := List.filter_append ..

/-- All outputs are among the first `n` values. -/
def Outputs (n : Nat) (code : List (Instruction κ)) : Prop := ∀ i ∈ code, ∀ v ∈ i.output, v.id < n

theorem Outputs.mono {n n' : Nat} {code : List (Instruction κ)} (h : Outputs n code) (hle : n ≤ n') :
    Outputs n' code :=
  fun i hi v hv => Nat.lt_of_lt_of_le (h i hi v hv) hle

theorem Outputs.append {n : Nat} {code more : List (Instruction κ)} (h : Outputs n code) (h' : Outputs n more) :
    Outputs n (code ++ more) :=
  List.forall_mem_append.2 ⟨h, h'⟩

/-- A variable that is still to be made is not written. -/
theorem Outputs.writesTo_eq_nil {n id : Nat} {code : List (Instruction κ)} (h : Outputs n code) (hid : n ≤ id) :
    writesTo id code = [] := by
  refine List.filter_eq_nil_iff.2 fun i hi hwrites => ?_
  obtain ⟨v, hv, heq⟩ := Instruction.writes_iff.1 hwrites
  have hlt := h i hi v hv
  omega

/-! ### What declarations emit -/

variable {w w' w₁ w₂ : CompileState κ η}

/-- A declaration does not write constants that exist, and it sets each constant that it makes once. -/
structure Emission (w : CompileState κ η) (code : List (Instruction κ)) (w' : CompileState κ η) : Prop where
  outputs : Outputs w'.values code
  old : ∀ id, id < w.values → w'.grade id ≠ .writable → writesTo id code = []
  new : ∀ id, w.values ≤ id → w'.grade id ≠ .writable → ∃ i, writesTo id code = [i] ∧ i.opcode = .set

variable {born : κ → Nat} {constant : Bool} {code more : List (Instruction κ)}

theorem Emission.trans (h : Emission w code w₁) (h' : Emission w₁ more w₂) (hlater : w.Later born constant w₁)
    (hlater' : w₁.Later born constant w₂) : Emission w (code ++ more) w₂ where
  outputs := (h.outputs.mono hlater'.values).append h'.outputs
  old id hid hgrade := by
    have hid₁ : id < w₁.values := Nat.lt_of_lt_of_le hid hlater.values
    rw [writesTo_append, h.old id hid (hlater'.graded hid₁ hgrade), h'.old id hid₁ hgrade]
    rfl
  new id hid hgrade := by
    rw [writesTo_append]
    by_cases hid₁ : id < w₁.values
    · -- The first part made the constant, so the second does not write it.
      rw [h'.old id hid₁ hgrade, List.append_nil]
      exact h.new id hid (hlater'.graded hid₁ hgrade)
    · rw [h.outputs.writesTo_eq_nil (by omega), List.nil_append]
      exact h'.new id (by omega) hgrade

/-- Code that writes nothing but variables that may be assigned, while no variable gets a grade. -/
theorem Emission.of_variables (hlater : w.Later born false w') (hcode : ∀ i ∈ code, i.WritesVariable w') :
    Emission w code w' where
  outputs i hi v hv := by
    obtain ⟨id, name, temporary, hout, hid, -⟩ := hcode i hi
    obtain rfl : .store id name temporary = v := by simpa [hout] using hv
    exact hid
  old id _ hgrade := by
    refine List.filter_eq_nil_iff.2 fun i hi hwrites => ?_
    obtain ⟨id', name, temporary, hout, -, hwritable⟩ := hcode i hi
    obtain ⟨v, hv, rfl⟩ := Instruction.writes_iff.1 hwrites
    obtain rfl : .store id' name temporary = v := by simpa [hout] using hv
    exact hgrade hwritable
  new id hid hgrade := by
    rcases hlater.new id hid with h | h
    · exact absurd h hgrade
    · cases h.1

theorem Emission.withSource (h : Emission w code w') (span : Span) :
    Emission w (code.map (·.withSource span)) w' := by
  have hwrites : ∀ id, writesTo id (code.map (·.withSource span)) = (writesTo id code).map (·.withSource span) :=
    fun id => List.filter_map ..
  refine ⟨fun i hi => ?_, fun id hid hgrade => ?_, fun id hid hgrade => ?_⟩
  · obtain ⟨j, hj, rfl⟩ := List.mem_map.1 hi
    exact h.outputs j hj
  · rw [hwrites, h.old id hid hgrade]
    rfl
  · obtain ⟨i, hi, hop⟩ := h.new id hid hgrade
    exact ⟨i.withSource span, by rw [hwrites, hi]; rfl, hop⟩

/-! ### Whose variables are graded -/

/-- Every variable that got its grade between the states is the own one of one of the identifiers: as long as
the scope is open, the identifier is bound to it there. -/
def GradesOwn (s : Scope) (ids : List Identifier) (w w' : CompileState κ η) : Prop :=
  s.table < w.tables.length → ∀ i, w.values ≤ i → w'.grade i ≠ .writable → ∃ id ∈ ids, w'.IsOpen s →
    ∃ b, w'.own? s.table id.name = some b ∧ b.value = .store i b.name false

variable {s : Scope} {ids : List Identifier}

theorem GradesOwn.of_later (h : w.Later born false w') : GradesOwn s ids w w' := by
  intro _ i hi hgrade
  rcases h.new i hi with hnew | hnew
  · exact absurd hnew hgrade
  · cases hnew.1

/-- A binding is kept as long as its scope is open, and scopes are not opened again. -/
theorem GradesOwn.trans (h : GradesOwn s ids w w₁) (h' : GradesOwn s ids w₁ w₂) (hlater : w.Later born constant w₁)
    (hlater' : w₁.Later born constant w₂) : GradesOwn s ids w w₂ := by
  intro hs i hi hgrade
  have hs₁ := hlater.tables.exists hs
  by_cases hi₁ : i < w₁.values
  · obtain ⟨id, hid, hbound⟩ := h hs i hi (hlater'.graded hi₁ hgrade)
    refine ⟨id, hid, fun hopen => ?_⟩
    obtain ⟨b, hb, hvalue⟩ := hbound (hlater'.tables.isOpen hs₁ hopen)
    exact ⟨b, hlater'.tables.own? hb hopen, hvalue⟩
  · exact h' hs₁ i (Nat.not_lt.1 hi₁) hgrade

/-- The contract of declarations in a scope. The flag says whether they declare constants, and the identifiers are those
that they may declare. -/
def constancy (η : Type) (born : κ → Nat) (floor : Nat) (constant : Bool) (s : Scope) (ids : List Identifier) :
    DeclarationContract κ η where
  toContract := growth η born floor
  emits w code w' := w.Later born constant w' ∧ Emission w code w' ∧ GradesOwn s ids w w'
  leaves w w' := w.Later born constant w' ∧ GradesOwn s ids w w'

variable {floor : Nat}

theorem constancy_laws : (constancy η born floor constant s ids).Laws where
  toLaws := growth_laws
  emits_of_allows h := ⟨h.1.mono (by simp), .of_variables h.1 h.2, .of_later h.1⟩
  emits_trans h h' := ⟨h.1.trans h'.1, h.2.1.trans h'.2.1 h.1 h'.1, h.2.2.trans h'.2.2 h.1 h'.1⟩
  emits_withSource span h := ⟨h.1, h.2.1.withSource span, h.2.2⟩
  leaves_of_emits h := ⟨h.1, h.2.2⟩
  leaves_trans h h' := ⟨h.1.trans h'.1, h.2.trans h'.2 h.1 h'.1⟩
  valid_of_leaves hw h := ⟨h.1.sound, Nat.le_trans hw.2 h.1.values⟩
  knows_of_leaves h hv := hv.mono h.1.values

/-! ### One identifier -/

section Identifier

variable {c : Compiler κ η} {id : Identifier} {kind : DeclKind}

theorem CompileState.Sound.withVariable (hw : w.Sound born) : w.Later born constant (c.withVariable s id w) := by
  have hnext : w.Later born constant { w with values := w.values + 1 } := hw.next
  exact hnext.trans (hnext.sound.enter s (.store (Nat.lt_succ_self _)))

theorem CompileState.Sound.afterSet (hw : w.Sound born) : w.Later born kind.isConst (c.afterSet s id kind w) := by
  have hvariable : w.Later born false (c.withVariable s id w) := hw.withVariable
  have htables : (c.afterSet s id kind w).tables = (c.withVariable s id w).tables := by
    unfold Compiler.afterSet
    split <;> rfl
  have hvalues := c.values_afterSet s id kind w
  refine ⟨by omega, hvariable.tables.trans (.of_eq htables), ⟨?_, ?_⟩, ?_, ?_⟩
  · intro i bindings hi
    rw [hvalues]
    exact hvariable.sound.bindings i bindings (by rwa [← htables])
  · intro i hi
    rw [c.grade_afterSet, if_neg (by omega)]
    exact hw.grades i (by omega)
  · intro i hi
    rw [c.grade_afterSet, if_neg (by omega)]
  · intro i hi
    rw [c.grade_afterSet]
    split
    next hnew => exact .inr ⟨hnew.1, rfl⟩
    next => exact .inl (hw.grades i hi)

/-- The one variable that is graded is new. -/
theorem eq_of_grade_afterSet (hw : w.Sound born) {i : Nat} (hi : w.values ≤ i)
    (hgrade : (c.afterSet s id kind w).grade i ≠ .writable) : i = w.values := by
  rw [c.grade_afterSet] at hgrade
  split at hgrade
  next hnew => exact hnew.2
  next => exact absurd (hw.grades i hi) hgrade

theorem own?_afterSet (hfree : w.own? s.table id.name = none) (hopen : (c.afterSet s id kind w).IsOpen s) :
    (c.afterSet s id kind w).own? s.table id.name = some (c.binding s id (c.newVariable id w) false) := by
  have htables : (c.afterSet s id kind w).tables = (c.withVariable s id w).tables := by
    unfold Compiler.afterSet
    split <;> rfl
  unfold CompileState.IsOpen at hopen
  unfold CompileState.own? CompileState.table
  rw [htables] at hopen ⊢
  exact CompileState.own?_enter (w := { w with values := w.values + 1 }) (s := s)
    (b := c.binding s id (c.newVariable id w) false) hfree hopen

theorem gradesOwn_afterSet (hw : w.Sound born) (hid : id ∈ ids) (hfree : w.own? s.table id.name = none) :
    GradesOwn s ids w (c.afterSet s id kind w) := by
  intro _ i hi hgrade
  obtain rfl := eq_of_grade_afterSet hw hi hgrade
  exact ⟨id, hid, fun hopen => ⟨_, own?_afterSet hfree hopen, rfl⟩⟩

theorem emission_afterSet (hw : w.Sound born) (v : Value κ) :
    Emission w [.set (c.newVariable id w) v] (c.afterSet s id kind w) := by
  have hvalues : w.values < (c.afterSet s id kind w).values := by
    rw [c.values_afterSet]
    exact Nat.lt_succ_self _
  have hwrites : ∀ i, (Instruction.set (c.newVariable id w) v).writes i = (w.values == i) := fun _ => rfl
  refine ⟨?_, fun i hi _ => ?_, fun i hi hgrade => ?_⟩
  · refine List.forall_mem_singleton.2 fun u hu => ?_
    obtain rfl : c.newVariable id w = u := by simpa [Instruction.set] using hu
    exact hvalues
  · refine List.filter_eq_nil_iff.2 (List.forall_mem_singleton.2 ?_)
    rw [hwrites]
    simpa using Nat.ne_of_gt hi
  · have heq := eq_of_grade_afterSet hw hi hgrade
    exact ⟨.set (c.newVariable id w) v, by simp [writesTo, hwrites, heq], rfl⟩

theorem constancy_bindsIdentifiers (c : Compiler κ η) (s : Scope) (kind : DeclKind) (ids : List Identifier) :
    (constancy η born floor kind.isConst s ids).BindsIdentifiers c s kind ids := by
  intro id hid init w hw hinit
  have hsilent : ∀ {w'}, w.Later born false w' → (constancy η born floor kind.isConst s ids).emits w [] w' :=
    fun h => ⟨h.mono (by simp), .of_variables h (List.forall_mem_nil _), .of_later h⟩
  have hfailed : ∀ {w'}, w.Later born false w' → (constancy η born floor kind.isConst s ids).leaves w w' :=
    fun h => ⟨h.mono (by simp), .of_later h⟩
  unfold Yields
  split
  next code w' h =>
    obtain ⟨hfree, ⟨v, hv, -, -, rfl, rfl⟩ | ⟨-, -, rfl, rfl⟩ | ⟨v, -, -, rfl, rfl⟩⟩ := Compiler.declareIdentifier_ok h
    · exact hsilent (hw.1.enter s (hinit v hv))
    · exact hsilent hw.1.withVariable
    · exact ⟨hw.1.afterSet, emission_afterSet hw.1 v, gradesOwn_afterSet hw.1 hid hfree⟩
  next e w' h =>
    obtain rfl | rfl | ⟨-, -, rfl⟩ := Compiler.declareIdentifier_error h
    · exact hfailed hw.1.refl
    · exact hfailed hw.1.next
    · exact hfailed hw.1.withVariable

/-- The last thing that declaring a constant does is to grade its variable. Until then the variable may be
assigned, and what sets it is an assignment. -/
theorem declareIdentifier_const_ok (hw : w.Sound born) {init : Option (Value κ)} {code : List (Instruction κ)}
    (h : c.declareIdentifier s .const id init w = .ok code w') :
    w'.mutabilities = w.mutabilities ∧ code = [] ∨
      ∃ v w₁, init = some v ∧ w₁.mutability (c.newVariable id w) = .writable ∧
        (c.newVariable id w).operate c.host s (.assign .plain) [v] w₁ = .ok (c.newVariable id w, code) w₁ ∧
        w' = w₁.setMutability (c.newVariable id w) .constantBinding := by
  obtain ⟨-, ⟨v, -, -, -, rfl, rfl⟩ | ⟨hkind, -⟩ | ⟨v, rfl, hv, rfl, rfl⟩⟩ := Compiler.declareIdentifier_ok h
  · exact .inl ⟨rfl, rfl⟩
  · cases hkind
  · have hwritable : (c.withVariable s id w).mutability (c.newVariable id w) = .writable :=
      hw.grades w.values (Nat.le_refl _)
    have hget : (get : CompileM κ η (CompileState κ η)) (c.withVariable s id w) = .ok _ _ := rfl
    refine .inr ⟨v, c.withVariable s id w, rfl, hwritable, ?_, rfl⟩
    dsimp only [Compiler.newVariable, Value.operate] at hwritable ⊢
    rw [Value.emitAssign, bind_of_ok hget, if_neg (not_not_intro hwritable), hv]
    rfl

end Identifier

/-! ### Actions -/

/-- The scope, the kind and the identifiers of an action that declares. -/
def Action.declares : Action κ η → Option (Scope × DeclKind × List Identifier)
  | .act s (.declare _ _ d) => some (s, d.kind, d.identifiers)
  | _ => none

def Action.isConst (a : Action κ η) : Bool := a.declares.any fun (_, kind, _) => kind.isConst

variable {host : Host κ η} {a : Action κ η}

theorem constancy_governs (hhost : host.Disciplined born) {evaluator : Evaluator κ η}
    (hev : evaluator.Disciplined born floor) (options : Options) (s : Scope) (kind : DeclKind)
    (ids : List Identifier) :
    (constancy η born floor kind.isConst s ids).Governs ⟨host, options, evaluator⟩ s kind ids :=
  ⟨hhost.binds, hev.binds, constancy_bindsIdentifiers _ s kind ids⟩

/-- The variables that are graded are those of constants that are declared. -/
def GradesOwnOf (declares : Option (Scope × DeclKind × List Identifier)) (w w' : CompileState κ η) : Prop :=
  ∀ i, w.values ≤ i → w'.grade i ≠ .writable → ∃ s ids, declares = some (s, .const, ids) ∧ ∃ id ∈ ids,
    w'.IsOpen s → ∃ b, w'.own? s.table id.name = some b ∧ b.value = .store i b.name false

theorem GradesOwnOf.of_later {declares : Option (Scope × DeclKind × List Identifier)} (h : w.Later born false w') :
    GradesOwnOf declares w w' := by
  intro i hi hgrade
  rcases h.new i hi with hnew | hnew
  · exact absurd hnew hgrade
  · cases hnew.1

theorem GradesOwnOf.of_gradesOwn {kind : DeclKind} (hs : s.table < w.tables.length)
    (hlater : w.Later born kind.isConst w') (h : GradesOwn s ids w w') : GradesOwnOf (some (s, kind, ids)) w w' := by
  intro i hi hgrade
  rcases hlater.new i hi with hnew | ⟨hconst, -⟩
  · exact absurd hnew hgrade
  · obtain rfl : kind = .const := by
      cases kind with
      | const => rfl
      | _ => cases hconst
    exact ⟨s, ids, rfl, h hs i hi hgrade⟩

/-- One action, whether it succeeds or fails. -/
theorem Action.Admitted.emits (ha : a.Admitted born w) (hhost : host.Disciplined born) (hw : w.Sound born) :
    Yields (a.run host) w (fun code w' => w.Later born a.isConst w' ∧ Emission w code w' ∧ GradesOwnOf a.declares w w')
      (fun _ w' => w.Later born a.isConst w' ∧ GradesOwnOf a.declares w w') := by
  have hordinary : a.Ordinary born w → Yields (a.run host) w
      (fun code w' => w.Later born a.isConst w' ∧ Emission w code w' ∧ GradesOwnOf a.declares w w')
      (fun _ w' => w.Later born a.isConst w' ∧ GradesOwnOf a.declares w w') := by
    intro ha
    have hvalid : (growth η born 0).valid w := ⟨hw, Nat.zero_le _⟩
    refine Yields.mono (ha.grows hhost.binds hvalid) (fun code w' h => ?_)
      (fun _ w' h => ⟨h.1.mono (by simp), .of_later h.1⟩)
    exact ⟨h.1.mono (by simp), .of_variables h.1 h.2, .of_later h.1⟩
  cases a with
  | openRoot | openChild | drop => exact hordinary ha
  | act s op =>
    cases op with
    | makeValue | makeStore | makeTemporary | bind | bindBuiltins | note | request => exact hordinary ha
    | declare options evaluator d =>
      obtain ⟨⟨n, hn, hev⟩, hs, hinit⟩ := ha
      have hdeclares := constancy_laws.declares_form d (constancy_governs hhost hev options s d.kind _) ⟨hw, hn⟩ hinit
      refine Yields.mono hdeclares (fun code w' h => ?_) (fun _ w' h => ?_)
      · exact ⟨h.1, h.2.1, .of_gradesOwn hs h.1 h.2.2⟩
      · exact ⟨h.1, .of_gradesOwn hs h.1 h.2⟩

/-! ### Runs -/

/-- The program sets constants at most once, and those that existed before not at all. -/
structure WritesOnce (w : CompileState κ η) (program : List (Instruction κ)) (w' : CompileState κ η) : Prop where
  outputs : Outputs w'.values program
  old : ∀ id, id < w.values → w'.grade id ≠ .writable → writesTo id program = []
  once : ∀ id, w'.grade id ≠ .writable → (writesTo id program).length ≤ 1

variable {program : List (Instruction κ)}

theorem Run.writesOnce (hrun : Run host (fun w a => a.Admitted born w) w program w') (hhost : host.Disciplined born)
    (hw : w.Sound born) : w.Later born true w' ∧ WritesOnce w program w' := by
  induction hrun with
  | start =>
    exact ⟨hw.refl, fun _ hi => absurd hi (by simp), fun _ _ _ => rfl, fun _ _ => Nat.zero_le _⟩
  | @ok program code w₁ w₂ a _ ha h ih =>
    obtain ⟨hlater, honce⟩ := ih
    obtain ⟨hlater', hemission, -⟩ := (ha.emits hhost hlater.sound).of_ok h
    refine ⟨hlater.trans (hlater'.mono fun _ => rfl),
      (honce.outputs.mono hlater'.values).append hemission.outputs, fun id hid hgrade => ?_, fun id hgrade => ?_⟩
    · have hid₁ : id < w₁.values := Nat.lt_of_lt_of_le hid hlater.values
      rw [writesTo_append, honce.old id hid (hlater'.graded hid₁ hgrade), hemission.old id hid₁ hgrade]
      rfl
    · rw [writesTo_append, List.length_append]
      by_cases hid₁ : id < w₁.values
      · have hprogram := honce.once id (hlater'.graded hid₁ hgrade)
        rw [hemission.old id hid₁ hgrade]
        simpa using hprogram
      · obtain ⟨i, hi, -⟩ := hemission.new id (by omega) hgrade
        rw [hi, honce.outputs.writesTo_eq_nil (by omega)]
        simp
  | @error program e w₁ w₂ a _ ha h ih =>
    obtain ⟨hlater, honce⟩ := ih
    obtain ⟨hlater', -⟩ := (ha.emits hhost hlater.sound).of_error h
    refine ⟨hlater.trans (hlater'.mono fun _ => rfl), honce.outputs.mono hlater'.values, fun id hid hgrade => ?_,
      fun id hgrade => ?_⟩
    · exact honce.old id hid (hlater'.graded (Nat.lt_of_lt_of_le hid hlater.values) hgrade)
    · by_cases hid₁ : id < w₁.values
      · exact honce.once id (hlater'.graded hid₁ hgrade)
      · rw [honce.outputs.writesTo_eq_nil (by omega)]
        exact Nat.zero_le _

/-! ### Names of constants -/

/-- What may not be assigned refuses every assignment, unless it is an object that handles it. -/
theorem operate_assign_eq_error {v : Value κ} (hv : w.mutability v ≠ .writable) (host : Host κ η) (s : Scope)
    (op : AssignOp) (operands : List (Value κ))
    (hhandler : ∀ id o, v = .object id o → o.handler? (.operator (.assign op)) = none) :
    ∃ e, v.operate host s (.assign op) operands w = .error e w := by
  cases v with
  | void => exact absurd rfl hv
  | literal id l => exact ⟨_, rfl⟩
  | function id f => exact ⟨_, rfl⟩
  | object id o =>
    dsimp only [Value.operate]
    rw [if_neg (by simp), hhandler id o rfl]
    exact ⟨_, rfl⟩
  | store id name temporary =>
    match operands with
    | [] | _ :: _ :: _ => exact ⟨_, rfl⟩
    | [value] =>
      have hget : (get : CompileM κ η (CompileState κ η)) w = .ok w w := rfl
      dsimp only [Value.operate]
      rw [Value.emitAssign, bind_of_ok hget, if_pos hv]
      exact ⟨_, rfl⟩

/-- The name stands for a value that exists and may not be assigned. -/
def Fixed (w : CompileState κ η) (s : Scope) (name : String) (b : Binding κ) : Prop :=
  w.own? s.table name = some b ∧ b.value.id < w.values ∧ w.mutability b.value ≠ .writable

theorem fixed_of_declared {c : Compiler κ η} {id : Identifier}
    (hid : (constancy η born floor true s ids).Declared c s .const id w w') (hs : s.table < w.tables.length)
    (hopen : w'.IsOpen s) : ∃ b, Fixed w' s id.name b := by
  obtain ⟨init, w₁, code, w₂, hbefore, hw₁, hinit, hdeclare, hafter⟩ := hid
  have hafter : w₂.Later born true w' := hafter.1
  have hs₁ : s.table < w₁.tables.length := hbefore.1.tables.exists hs
  -- The binding stands in the state right after the identifier was declared, and is kept from there.
  suffices h : ∃ b, w₁.TablesKept w₂ ∧ (w₂.IsOpen s → w₂.own? s.table id.name = some b) ∧
      b.value.id < w₂.values ∧ w₂.mutability b.value ≠ .writable by
    obtain ⟨b, htables, hown, hlt, hgrade⟩ := h
    have hopen₂ : w₂.IsOpen s := hafter.tables.isOpen (htables.exists hs₁) hopen
    refine ⟨b, hafter.tables.own? (hown hopen₂) hopen, Nat.lt_of_lt_of_le hlt hafter.values, ?_⟩
    rwa [hafter.mutability hlt]
  obtain ⟨hfree, ⟨v, hv, -, hm, -, rfl⟩ | ⟨hkind, -⟩ | ⟨v, -, -, -, rfl⟩⟩ := Compiler.declareIdentifier_ok hdeclare
  · have hmade : v.Made born w₁.values := hinit v hv
    refine ⟨c.binding s id v true, .enter _ _ _, CompileState.own?_enter hfree, hmade.id_lt, ?_⟩
    change w₁.mutability v ≠ .writable
    simp [hm]
  · cases hkind
  · have hlater : w₁.Later born (DeclKind.isConst .const) (c.afterSet s id .const w₁) := hw₁.1.afterSet
    refine ⟨c.binding s id (c.newVariable id w₁) false, hlater.tables, own?_afterSet hfree, Nat.lt_succ_self _, ?_⟩
    change (c.afterSet s id .const w₁).grade w₁.values ≠ .writable
    rw [c.grade_afterSet, if_pos ⟨rfl, rfl⟩]
    simp

/-- The names of constants that were declared, as long as their scope is open. -/
theorem Action.Admitted.fixes (ha : a.Admitted born w) (hhost : host.Disciplined born) (hw : w.Sound born) :
    Yields (a.run host) w (fun _ w' => ∀ s ids, a.declares = some (s, .const, ids) → w'.IsOpen s →
      ∀ id ∈ ids, ∃ b, Fixed w' s id.name b) (fun _ _ => True) := by
  unfold Yields
  split
  next code w' h =>
    intro s ids hdeclares hopen id hid
    cases a with
    | openRoot | openChild | drop => cases hdeclares
    | act s op =>
      cases op with
      | makeValue | makeStore | makeTemporary | bind | bindBuiltins | note | request => cases hdeclares
      | declare options evaluator d =>
        obtain ⟨⟨n, hn, hev⟩, hs, hinit⟩ := ha
        obtain ⟨rfl, hkind, rfl⟩ : s = _ ∧ d.kind = .const ∧ d.identifiers = ids := by
          simpa [Action.declares] using hdeclares
        have hgoverns := constancy_governs hhost hev options s d.kind d.identifiers
        have hdeclared := (constancy_laws.declared_form d hgoverns ⟨hw, hn⟩ hinit).of_ok h id hid
        rw [hkind] at hdeclared
        exact fixed_of_declared hdeclared hs hopen
  next => trivial

/-! ### Constants are written once -/

/-- Variables that exist keep their grades. A new one is writable when it is made, and it may be graded as a
constant binding if constants are declared and it is the own variable of one of them: as long as the scope is
open, the name is bound to it there. -/
structure Settles (declares : Option (Scope × DeclKind × List Identifier)) (w w' : CompileState κ η) : Prop where
  old : ∀ id name temporary, id < w.values →
    w'.mutability (.store id name temporary) = w.mutability (.store id name temporary)
  new : ∀ id name temporary, w.values ≤ id → w.mutability (.store id name temporary) = .writable ∧
    (w'.mutability (.store id name temporary) = .writable ∨
      id < w'.values ∧ w'.mutability (.store id name temporary) = .constantBinding ∧
        ∃ s ids, declares = some (s, .const, ids) ∧ ∃ identifier ∈ ids, w'.IsOpen s →
          ∃ b, w'.own? s.table identifier.name = some b ∧ b.value = .store id b.name false)

theorem CompileState.Later.settles {declares : Option (Scope × DeclKind × List Identifier)}
    (h : w.Later born constant w') (hw : w.Sound born) (hown : GradesOwnOf declares w w') :
    Settles declares w w' where
  old id _ _ hid := h.old id hid
  new id _ _ hid := by
    refine ⟨hw.grades id hid, (h.new id hid).imp_right fun hgrade => ?_⟩
    have hgraded : w'.grade id ≠ .writable := by simp [hgrade.2]
    exact ⟨h.sound.grade_lt hgraded, hgrade.2, hown id hid hgraded⟩

/-- In the course of a declaration, the variables that have been graded are those of the constants so far. -/
theorem settles_visits (hhost : host.Disciplined born) (hw : w.Sound born) {options : Options}
    {evaluator : Evaluator κ η} {s : Scope} {p : Pattern} {init : Option (Value κ)} {visits : List Visit}
    (ha : (Action.act s (.declare options evaluator (.pattern .const p init))).Admitted born w) :
    Yields (Visit.run ⟨host, options, evaluator⟩ s .const visits [init]) w
      (fun _ w' => Settles (some (s, .const, Visit.identifiers visits)) w w')
      (fun _ w' => Settles (some (s, .const, Visit.identifiers visits)) w w') := by
  obtain ⟨⟨n, hn, hev⟩, hs, hinit⟩ := ha
  have hgoverns := constancy_governs hhost hev options s .const (Visit.identifiers visits)
  refine Yields.mono (constancy_laws.visits_run hgoverns (List.Subset.refl _) ⟨hw, hn⟩
    (List.forall_mem_singleton.2 hinit)) (fun _ w' h => ?_) (fun _ w' h => ?_)
  · exact h.1.1.settles hw (.of_gradesOwn hs h.1.1 h.1.2.2)
  · exact h.1.settles hw (.of_gradesOwn hs h.1 h.2)

/-- The one instruction that sets a constant, in the whole program before, during and after its declaration. -/
theorem writesTo_eq_singleton (hhost : host.Disciplined born) {id : Nat} {later : List (Instruction κ)}
    {w₃ : CompileState κ η} (hprogram : Outputs w₁.values program) (hcode : Emission w₁ code w₂)
    (hw₂ : w₂.Sound born) (hrun : Run host (fun w a => a.Admitted born w) w₂ later w₃) (hid : w₁.values ≤ id)
    (hgrade : w₂.grade id ≠ .writable) : ∃ i, writesTo id (program ++ code ++ later) = [i] ∧ i.opcode = .set := by
  obtain ⟨hlater, honce⟩ := hrun.writesOnce hhost hw₂
  have hid₂ : id < w₂.values := hw₂.grade_lt hgrade
  have hrest : writesTo id later = [] := honce.old id hid₂ (by rwa [hlater.old id hid₂])
  obtain ⟨i, hi, hset⟩ := hcode.new id hid hgrade
  refine ⟨i, ?_, hset⟩
  rw [writesTo_append, writesTo_append, hprogram.writesTo_eq_nil hid, hi, hrest]
  rfl

/-- In any run, with host code that keeps to the rules: the program sets a constant at most once. An action
grades no variables but those of the constants that it declares, as constant bindings, and in its course, after
any of its visits, only those of the constants so far. If it succeeds, its constants are set exactly once in the
whole program, however the run goes on, and in every later state its names are constant and what they stand for
refuses assignments. The grade is given when all else about the constant is done. -/
theorem constants_are_written_once (hhost : host.Disciplined born) (hw : w.Sound born)
    (hrun : Run host (fun w a => a.Admitted born w) w program w₁) :
    (∀ id name temporary, w₁.mutability (.store id name temporary) = .constantBinding →
      (writesTo id program).length ≤ 1) ∧
    (∀ a : Action κ η, a.Admitted born w₁ →
      Yields (a.run host) w₁
        (fun code w₂ => Settles a.declares w₁ w₂ ∧
          ∀ later w₃, Run host (fun w a => a.Admitted born w) w₂ later w₃ →
            (∀ id name temporary, w₁.values ≤ id → w₂.mutability (.store id name temporary) = .constantBinding →
              ∃ i, writesTo id (program ++ code ++ later) = [i] ∧ i.opcode = .set) ∧
            ∀ s ids, a.declares = some (s, .const, ids) → w₂.IsOpen s → ∀ id ∈ ids, ∃ b,
              w₂.own? s.table id.name = some b ∧ (w₃.IsOpen s → w₃.own? s.table id.name = some b) ∧
              w₃.isConstant b = true ∧
              ∀ s' op operands,
                (∀ oid o, b.value = .object oid o → o.handler? (.operator (.assign op)) = none) →
                ∃ e, b.value.operate host s' (.assign op) operands w₃ = .error e w₃)
        (fun _ w₂ => Settles a.declares w₁ w₂)) ∧
    (∀ options evaluator s p init visits rest (w' : CompileState κ η), w'.Sound born →
      (Action.act s (.declare options evaluator (.pattern .const p init))).Admitted born w' →
      p.visits 0 = visits ++ rest →
      Yields (Visit.run ⟨host, options, evaluator⟩ s .const visits [init]) w'
        (fun _ w₂ => Settles (some (s, .const, Visit.identifiers visits)) w' w₂)
        (fun _ w₂ => Settles (some (s, .const, Visit.identifiers visits)) w' w₂)) ∧
    ∀ (c : Compiler κ η) s id init code w₂, c.declareIdentifier s .const id init w₁ = .ok code w₂ →
      w₂.mutabilities = w₁.mutabilities ∧ code = [] ∨
        ∃ v w', init = some v ∧ w'.mutability (c.newVariable id w₁) = .writable ∧
          (c.newVariable id w₁).operate c.host s (.assign .plain) [v] w' = .ok (c.newVariable id w₁, code) w' ∧
          w₂ = w'.setMutability (c.newVariable id w₁) .constantBinding := by
  obtain ⟨hlater, honce⟩ := hrun.writesOnce hhost hw
  refine ⟨fun id _ _ hgrade => honce.once id ?_, fun a ha => ?_,
    fun _ _ _ _ _ _ _ _ hw' ha _ => settles_visits hhost hw' ha,
    fun c s id init code w₂ h => declareIdentifier_const_ok hlater.sound h⟩
  · have hgrade : w₁.grade id = .constantBinding := hgrade
    simp [hgrade]
  have hw₁ := hlater.sound
  refine Yields.mono ((ha.emits hhost hw₁).and (ha.fixes hhost hw₁)) (fun code w₂ h => ?_)
    (fun _ w₂ h => h.1.1.settles hw₁ h.1.2)
  obtain ⟨⟨hlater₂, hemission, hown₂⟩, hfixes⟩ := h
  refine ⟨hlater₂.settles hw₁ hown₂, fun later w₃ hrun₃ => ⟨fun id _ _ hid hgrade => ?_, ?_⟩⟩
  · have hgrade : w₂.grade id = .constantBinding := hgrade
    exact writesTo_eq_singleton hhost honce.outputs hemission hlater₂.sound hrun₃ hid (by simp [hgrade])
  · intro s ids hdeclares hopen id hid
    obtain ⟨hlater₃, -⟩ := hrun₃.writesOnce hhost hlater₂.sound
    obtain ⟨b, hown, hlt, hgrade⟩ := hfixes s ids hdeclares hopen id hid
    have hgrade₃ : w₃.mutability b.value ≠ .writable := by rwa [hlater₃.mutability hlt]
    refine ⟨b, hown, fun hopen₃ => hlater₃.tables.own? hown hopen₃, ?_, fun s' op operands hhandler => ?_⟩
    · simp [CompileState.isConstant, hgrade₃]
    · exact operate_assign_eq_error hgrade₃ host s' op operands hhandler

/-! ### A constant that host code computes -/

/-- A root scope, and one value. -/
def CompileState.started : CompileState Unit Unit := { (CompileState.initial ()).addRoot.2 with values := 1 }

/-- `const {k: a} = o`, where reading the member yields a variable. -/
def constMember : Action Unit Unit :=
  .act ⟨0, 0, 0, []⟩ (.declare .standard (.basic .keeping []) (.pattern .const
    (.object [.keyed ⟨.identifier "k", .onLine 1 7 8⟩ (.identifier ⟨"a", .onLine 1 10 11⟩) false (.onLine 1 7 11)]
      (.onLine 1 6 12))
    (some answering)))

theorem constMember_admitted : constMember.Admitted (fun _ => 0) CompileState.started := by
  refine ⟨⟨0, Nat.zero_le _, Evaluator.basic_disciplined Host.keeping_disciplined ?_⟩, Nat.zero_lt_one, ?_⟩
  · intro id v h
    cases h
  · intro v hv
    obtain rfl : answering = v := Option.some.inj hv
    refine .object Nat.zero_lt_one (fun key v h => by cases h) (fun handler f h => ?_)
    simp only [Object.handler?, Entries.get?] at h
    split at h <;> cases h
    exact Nat.zero_le _

/-- The key, the temporary of the host and the constant are the values 1 to 3. The constant is set once, and
assigning to it fails. -/
theorem constMember_written_once :
    ∃ code w b, constMember.run .keeping CompileState.started = .ok code w ∧
      (∃ i, writesTo 3 code = [i] ∧ i.opcode = .set) ∧ w.own? 0 "a" = some b ∧ w.isConstant b = true ∧
      ∃ e, b.value.operate .keeping ⟨0, 0, 0, []⟩ (.assign .plain) [answering] w = .error e w := by
  have hrun : constMember.run .keeping CompileState.started = .ok _ _ := rfl
  obtain ⟨-, haction, -⟩ := constants_are_written_once Host.keeping_disciplined
    (CompileState.sound_of_empty (w := .started) rfl rfl) .start
  obtain ⟨-, hlater⟩ := (haction constMember constMember_admitted).of_ok hrun
  obtain ⟨hwrites, hnames⟩ := hlater [] _ .start
  obtain ⟨b, hown, -, hconstant, hassign⟩ :=
    hnames ⟨0, 0, 0, []⟩ [⟨"a", .onLine 1 10 11⟩] rfl ⟨_, rfl⟩ _ (List.mem_singleton.2 rfl)
  have hvariable : b.value = .store 3 "a:1:10" false := by
    cases hown
    rfl
  refine ⟨_, _, b, hrun, hwrites 3 "a:1:10" false (by decide) rfl, hown, hconstant, hassign _ _ _ ?_⟩
  intro id o ho
  cases hvariable.symm.trans ho

end DeclCompiler
