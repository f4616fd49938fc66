import DeclCompiler.Proofs.Contract
import DeclCompiler.Proofs.Later

/-!
Host code that keeps to the rules. While it runs it may do what a caller of the compiler may do, except
declare: use capabilities, make values, open and drop scopes, and bind names. It uses no values but
those that exist, and it returns no instructions but those that it got from capabilities. Such code grades
no variable, and what it emits writes variables that may be assigned.
-/

namespace DeclCompiler

variable {κ η : Type}

/-- The same instruction, perhaps attributed to another place. -/
structure Instruction.Restates (i j : Instruction κ) : Prop where
  opcode : i.opcode = j.opcode
  output : i.output = j.output
  operands : i.operands = j.operands

section Rules

variable (born : κ → Nat)

/-- The action declares nothing, and the values that it uses exist. -/
def Action.Ordinary (w : CompileState κ η) : Action κ η → Prop
  | .act _ (.bind b) => b.value.Made born w.values
  | .act _ (.request q) => ∀ v ∈ q.values, v.Made born w.values
  | .act _ (.declare ..) => False
  | _ => True

/-- Such code takes ordinary actions, with the given host to answer the calls among them. It returns a value
that exists and instructions that it received. -/
def Conducts (host : Host κ η) (x : CompileM κ η (Called κ)) (w : CompileState κ η) : Prop :=
  Yields x w
    (fun r w' => ∃ received, Run host (fun w a => a.Ordinary born w) w received w' ∧
      (∀ i ∈ r.2, ∃ j ∈ received, i.Restates j) ∧ ∀ v ∈ r.1, v.Made born w'.values)
    (fun _ w' => ∃ received, Run host (fun w a => a.Ordinary born w) w received w')

/-- Host code of finite call depth that keeps to the rules. At the bottom every call is refused. Above it,
each call may be answered by a host of its own. -/
inductive Host.Disciplined : Host κ η → Prop
  | refusing {host : Host κ η} (h : ∀ code s arguments w, ∃ e, host.invoke code s arguments w = .error e w) :
    Disciplined host
  | acting {host : Host κ η} (inner : κ → Scope → List (Value κ) → CompileState κ η → Host κ η)
    (hinner : ∀ code s arguments w, Disciplined (inner code s arguments w))
    (h : ∀ code s arguments w, w.Sound born → born code ≤ w.values → (∀ v ∈ arguments, v.Made born w.values) →
      Conducts born (inner code s arguments w) (host.invoke code s arguments) w) :
    Disciplined host

/-- An evaluator that keeps to the rules. The values that it holds on to are among the first `n`. -/
def Evaluator.Disciplined (n : Nat) (evaluator : Evaluator κ η) : Prop :=
  ∀ s e w, w.Sound born → n ≤ w.values → ∃ host : Host κ η, host.Disciplined born ∧
    Conducts born host (Request.called <$> evaluator.eval s e) w ∧
    Conducts born host (Request.called <$> evaluator.consume s e) w

/-- What may be asked of the compiler in a state: ordinary actions, and declarations in a scope that exists. -/
def Action.Admitted (w : CompileState κ η) (a : Action κ η) : Prop :=
  match a with
  | .act s (.declare _ evaluator d) =>
    (∃ n ≤ w.values, evaluator.Disciplined born n) ∧ s.table < w.tables.length ∧ ∀ v ∈ d.init?, v.Made born w.values
  | a => a.Ordinary born w

end Rules

/-! ### What it amounts to -/

variable {born : κ → Nat} {host : Host κ η} {w w' : CompileState κ η}

/-- The instruction writes a variable that may be assigned. -/
def Instruction.WritesVariable (w : CompileState κ η) (i : Instruction κ) : Prop :=
  ∃ id name temporary, i.output = some (.store id name temporary) ∧ id < w.values ∧ w.grade id = .writable

theorem Instruction.WritesVariable.later {i : Instruction κ} (hi : i.WritesVariable w) {constant : Bool}
    (h : w.Later born constant w') : i.WritesVariable w' := by
  obtain ⟨id, name, temporary, hout, hid, hgrade⟩ := hi
  exact ⟨id, name, temporary, hout, Nat.lt_of_lt_of_le hid h.values, (h.old id hid).trans hgrade⟩

theorem Instruction.WritesVariable.restate {i j : Instruction κ} (hj : j.WritesVariable w) (h : i.Restates j) :
    i.WritesVariable w := by
  obtain ⟨id, name, temporary, hout, hid⟩ := hj
  exact ⟨id, name, temporary, h.output.trans hout, hid⟩

/-- The state grows, no variable gets a grade, and only variables that may be assigned are written. The
states are those with at least `floor` values. -/
def growth (η : Type) (born : κ → Nat) (floor : Nat) : Contract κ η where
  valid w := w.Sound born ∧ floor ≤ w.values
  knows w v := v.Made born w.values
  knowsFn w f := f.Made born w.values
  allows w code w' := w.Later born false w' ∧ ∀ i ∈ code, i.WritesVariable w'

variable {floor : Nat}

theorem growth_laws : (growth η born floor).Laws where
  refl hw := ⟨hw.1.refl, List.forall_mem_nil _⟩
  trans h h' := ⟨h.1.trans h'.1, List.forall_mem_append.2 ⟨fun i hi => (h.2 i hi).later h'.1, h'.2⟩⟩
  valid_next hw h := ⟨h.1.sound, Nat.le_trans hw.2 h.1.values⟩
  knows_next h hv := hv.mono h.1.values
  knows_member hv hget := by
    cases hv with
    | object _ hmembers _ => exact hmembers _ _ hget
  knows_handler hv hf := by
    cases hv with
    | object _ _ hhandlers => exact hhandlers _ _ hf
  knows_function hv := by
    cases hv with
    | function _ hf => exact hf
  literal hw hmake := by
    cases hmake
    exact ⟨⟨hw.1.next, List.forall_mem_nil _⟩, .literal (Nat.lt_succ_self _)⟩
  temporary opcode arguments hw hmake _ := by
    cases hmake
    refine ⟨⟨hw.1.later (Nat.le_succ _) rfl rfl, List.forall_mem_singleton.2 ?_⟩, .store (Nat.lt_succ_self _)⟩
    exact ⟨_, _, _, rfl, Nat.lt_succ_self _, hw.1.grades _ (Nat.le_refl _)⟩
  assign opcode arguments hw hv hgrade _ := by
    refine ⟨hw.1.refl, List.forall_mem_singleton.2 ⟨_, _, _, rfl, ?_, hgrade⟩⟩
    exact hv.id_lt
  forget h := ⟨h.1, List.forall_mem_nil _⟩
  withSource span h := by
    refine ⟨h.1, fun i hi => ?_⟩
    obtain ⟨j, hj, rfl⟩ := List.mem_map.1 hi
    exact (h.2 j hj).restate ⟨rfl, rfl, rfl⟩

/-- An ordinary action keeps the contract if the host does. -/
theorem Action.Ordinary.grows {a : Action κ η} (ha : a.Ordinary born w) (hhost : (growth η born floor).Binds host)
    (hw : (growth η born floor).valid w) :
    Yields (a.run host) w (fun code w' => (growth η born floor).allows w code w')
      (fun _ w' => (growth η born floor).allows w [] w') := by
  have hnil : ∀ {w'}, w.Later born false w' → (growth η born floor).allows w [] w' :=
    fun h => ⟨h, List.forall_mem_nil _⟩
  have hbind {w₁} (s : Scope) {b : Binding κ} (h₁ : w.Later born false w₁) (hb : b.value.Made born w₁.values) :
      Yields (s.bind b) w₁ (fun _ w' => (growth η born floor).allows w [] w')
        (fun _ w' => (growth η born floor).allows w [] w') :=
    s.yields_bind b w₁ (fun _ => hnil (h₁.trans (h₁.sound.enter s hb))) (fun _ => hnil h₁)
  cases a with
  | openRoot | openChild => exact hnil (hw.1.open rfl rfl rfl)
  | drop s => exact hnil (hw.1.drop s)
  | act s op =>
    cases op with
    | makeValue => exact hnil hw.1.next
    | makeTemporary => exact hnil (hw.1.later (Nat.le_succ _) rfl rfl)
    | note => exact hnil (hw.1.later (Nat.le_refl _) rfl rfl)
    | makeStore identifier name =>
      exact (yields_map _).2 ((s.yields_makeStore identifier name).2 (hbind s hw.1.next (.store (Nat.lt_succ_self _))))
    | bind b => exact (yields_map _).2 (hbind s hw.1.refl ha)
    | bindBuiltins =>
      exact (yields_map _).2 (s.yields_bindBuiltins.2 (hbind s hw.1.next (.function (Nat.lt_succ_self _) trivial)))
    | request q => exact growth_laws.yields_request hhost s hw ha
    | declare => exact ha.elim

/-- So does any number of them. -/
theorem Run.grows {received : List (Instruction κ)} (hrun : Run host (fun w a => a.Ordinary born w) w received w')
    (hhost : (growth η born floor).Binds host) (hw : (growth η born floor).valid w) :
    (growth η born floor).allows w received w' := by
  induction hrun with
  | start => exact growth_laws.refl hw
  | ok _ ha h ih => exact growth_laws.trans ih ((ha.grows hhost (growth_laws.valid_next hw ih)).of_ok h)
  | error _ ha h ih =>
    simpa using growth_laws.trans ih ((ha.grows hhost (growth_laws.valid_next hw ih)).of_error h)

theorem Conducts.calls {x : CompileM κ η (Called κ)} (hx : Conducts born host x w)
    (hhost : (growth η born floor).Binds host) (hw : (growth η born floor).valid w) :
    (growth η born floor).Calls x w := by
  refine Yields.mono hx (fun r w' hr => ?_) (fun _ w' h => ?_)
  · obtain ⟨received, hrun, hcode, hv⟩ := hr
    have hgrows := hrun.grows hhost hw
    refine ⟨⟨hgrows.1, fun i hi => ?_⟩, hv⟩
    obtain ⟨j, hj, hij⟩ := hcode i hi
    exact (hgrows.2 j hj).restate hij
  · obtain ⟨received, hrun⟩ := h
    exact growth_laws.forget (hrun.grows hhost hw)

/-- Host code that keeps to the rules keeps the contract. The induction is on the depth of calls. -/
theorem Host.Disciplined.binds (h : host.Disciplined born) : (growth η born floor).Binds host := by
  induction h with
  | refusing h =>
    intro name code s arguments w hw _ _
    obtain ⟨e, he⟩ := h code s arguments w
    unfold Contract.Calls Contract.Keeps Yields
    rw [he]
    exact growth_laws.refl hw
  | acting inner _ h ih =>
    intro name code s arguments w hw hcode harguments
    exact (h code s arguments w hw.1 hcode harguments).calls (ih code s arguments w) hw

theorem Evaluator.Disciplined.binds {evaluator : Evaluator κ η} (h : evaluator.Disciplined born floor) :
    (growth η born floor).BindsEvaluator evaluator := by
  have hcomputes : ∀ {x : CompileM κ η (Computed κ)} {w}, (growth η born floor).Calls (Request.called <$> x) w →
      (growth η born floor).Computes x w := by
    intro x w hx
    unfold Contract.Calls Contract.Keeps at hx
    rw [yields_map] at hx
    exact hx.mono (fun r w' hr => ⟨hr.1, hr.2 r.1 rfl⟩) (fun _ _ h => h)
  intro s e w hw
  obtain ⟨host, hhost, heval, hconsume⟩ := h s e w hw.1 hw.2
  exact ⟨hcomputes (heval.calls hhost.binds hw), hcomputes (hconsume.calls hhost.binds hw)⟩

/-- After some ordinary actions a capability is used, and its instructions are passed on. -/
theorem Run.yields_request {w₁ : CompileState κ η} {received : List (Instruction κ)}
    (hrun : Run host (fun w a => a.Ordinary born w) w received w₁) (hhost : host.Disciplined born)
    (hw : w.Sound born) (s : Scope) {q : Request κ} (hq : ∀ v ∈ q.values, v.Made born w₁.values) :
    Yields (q.run host s) w₁
      (fun r w' => ∃ received, Run host (fun w a => a.Ordinary born w) w received w' ∧
        (∀ i ∈ r.2, ∃ j ∈ received, i.Restates j) ∧ ∀ v ∈ r.1, v.Made born w'.values)
      (fun _ w' => ∃ received, Run host (fun w a => a.Ordinary born w) w received w') := by
  have hstart : (growth η born 0).valid w := ⟨hw, Nat.zero_le _⟩
  have hw₁ := growth_laws.valid_next hstart (hrun.grows hhost.binds hstart)
  have hcalls := growth_laws.calls_request (s := s) hhost.binds hw₁ hq
  have hordinary : (Action.act s (.request q)).Ordinary born w₁ := hq
  unfold Yields
  cases hr : q.run host s w₁ with
  | ok r w' =>
    have hstep : (Action.act s (.request q)).run host w₁ = .ok r.2 w' := map_of_ok hr _
    refine ⟨received ++ r.2, hrun.ok hordinary hstep, fun i hi => ?_, (hcalls.of_ok hr).2⟩
    exact ⟨i, List.mem_append_right _ hi, rfl, rfl, rfl⟩
  | error e w' =>
    have hstep : (Action.act s (.request q)).run host w₁ = .error e w' := map_of_error hr _
    exact ⟨received, hrun.error hordinary hstep⟩

/-! ### The basic evaluator -/

theorem CompileState.Sound.own? (hw : w.Sound born) {i : Nat} {identifier : String} {b : Binding κ}
    (h : w.own? i identifier = some b) : b.value.Made born w.values := by
  cases ht : w.tables[i]? with
  | none => simp [CompileState.own?, CompileState.table, ht] at h
  | some t =>
    cases t with
    | none => simp [CompileState.own?, CompileState.table, ht] at h
    | some bindings =>
      rw [CompileState.own?_of_tables ht] at h
      exact hw.bindings i bindings ht b (List.mem_of_find?_eq_some h)

theorem CompileState.Sound.lookup? (hw : w.Sound born) {s : Scope} {identifier : String} {b : Binding κ}
    (h : w.lookup? s identifier = some b) : b.value.Made born w.values := by
  obtain ⟨i, -, hi⟩ := List.exists_of_findSome?_eq_some h
  exact hw.own? hi

/-- The basic evaluator by itself emits nothing and makes at most one value. -/
theorem Evaluator.yields_evalBasic (host : Host κ η) (hw : w.Sound born) {externals : List (Nat × Value κ)}
    (hexternals : ∀ id v, Entries.get? id externals = some v → v.Made born w.values) (s : Scope) (e : Expr) :
    Yields (Evaluator.evalBasic externals s e) w
      (fun r w' => Run host (fun w a => a.Ordinary born w) w [] w' ∧ r.2 = [] ∧ r.1.Made born w'.values)
      (fun _ w' => w' = w) := by
  unfold Evaluator.evalBasic
  rw [yields_locating]
  cases e.kind with
  | identifier name =>
    simp only [yields_bind, yields_get]
    cases hb : w.lookup? s name with
    | none => rfl
    | some b => exact ⟨.start, rfl, hw.lookup? hb⟩
  | literal l =>
    refine ⟨?_, rfl, .literal (Nat.lt_succ_self w.values)⟩
    exact Run.ok (a := .act s .makeValue) .start trivial rfl
  | external id =>
    cases hv : Entries.get? id externals with
    | none => simp [hv]
    | some v => simpa [hv] using ⟨.start, hexternals id v hv⟩

theorem Evaluator.basic_disciplined (hhost : host.Disciplined born) {n : Nat} {externals : List (Nat × Value κ)}
    (hexternals : ∀ id v, Entries.get? id externals = some v → v.Made born n) :
    (Evaluator.basic host externals).Disciplined born n := by
  intro s e w hw hn
  have heval := Evaluator.yields_evalBasic host hw
    (fun id v hv => (hexternals id v hv).mono hn) s e
  refine ⟨host, hhost, ?_, ?_⟩
  · unfold Conducts
    rw [yields_map]
    refine Yields.mono heval (fun r w' hr => ?_) (fun _ w' h => ⟨[], h ▸ .start⟩)
    exact ⟨[], hr.1, by simp [Request.called, hr.2.1], by simpa [Request.called] using hr.2.2⟩
  · -- The value is consumed as one more action, which is ordinary as the value exists.
    unfold Conducts
    simp only [Evaluator.basic, Evaluator.consumeAfter, yields_map, yields_bind, yields_pure]
    refine Yields.mono heval (fun r w₁ hr => ?_) (fun _ w' h => ⟨[], h ▸ .start⟩)
    obtain ⟨hrun, hcode, hv⟩ := hr
    have hconsume := hrun.yields_request hhost hw s (q := .consume r.1) (by simpa [Request.values] using hv)
    rw [Request.run, yields_map] at hconsume
    simpa only [hcode, List.nil_append] using hconsume

/-! ### A host -/

theorem Host.inert_disciplined (born : κ → Nat) : (Host.inert κ η).Disciplined born :=
  .refusing fun _ _ _ _ => ⟨_, rfl⟩

theorem Host.keeping_disciplined : Host.keeping.Disciplined fun _ => 0 := by
  refine .acting (fun _ _ _ _ => .inert Unit Unit) (fun _ _ _ _ => Host.inert_disciplined _) ?_
  intro code s arguments w hw _ harguments
  match arguments with
  | [] | _ :: _ :: _ => exact ⟨[], .start⟩
  | [v] =>
    unfold Conducts Host.keeping
    simp only [yields_bind, yields_makeTemporary, yields_pure]
    have hrun : Run (.inert Unit Unit) (fun w a => a.Ordinary (fun _ => 0) w) w [] _ :=
      Run.ok (a := .act s .makeTemporary) .start trivial rfl
    have hv : v.Made (fun _ => 0) (w.values + 1) := (harguments v (by simp)).mono (Nat.le_succ _)
    have hassign := hrun.yields_request (Host.inert_disciplined _) hw s
      (q := .operate (.store w.values (temporaryName (w.countersOf s).temporaries) true) (.assign .plain) [v])
      (List.forall_mem_cons.2 ⟨.store (Nat.lt_succ_self _), List.forall_mem_singleton.2 hv⟩)
    rw [Request.run, yields_map] at hassign
    exact hassign

end DeclCompiler
