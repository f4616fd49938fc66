import DeclCompiler.Proofs.Leaves
import DeclCompiler.Proofs.Names

/-!
What declared leaves leave behind. Whether leaves can be declared one after another is a matter of each leaf by itself
and of their names, which have to be free and different. What becomes of a leaf is determined by the state before all of
them: a binding that shares its part, or a variable with an instruction that sets it.
-/

namespace DeclCompiler

variable {κ η : Type}

/-! ### What is asked of a leaf -/

namespace Part

def isMacro : Part κ → Bool
  | .value v => v.isMacro
  | .length _ => false

def text : Part κ → String
  | .value v => v.text
  | .length n => (lengthLiteral n).text

/-- Whether a constant is another name for the part. -/
def isFixed (w : CompileState κ η) : Part κ → Bool
  | .value v => w.mutability v = .immutable
  | .length _ => true

/-- The value exists already. -/
def IsOld (w : CompileState κ η) : Part κ → Prop
  | .value v => v.id < w.values
  | .length _ => True

end Part

namespace Leaf

def identifier? : Leaf κ → Option Identifier
  | .bound id _ => some id
  | .missing .. | .dropped => none

theorem identifiers_cons (leaf : Leaf κ) (rest : List (Leaf κ)) :
    (leaf :: rest).filterMap identifier? = leaf.identifier?.toList ++ rest.filterMap identifier? := by
  rw [List.filterMap_cons]
  cases leaf.identifier? <;> rfl

/-- Whether the leaf can be declared if its name is free. -/
def accepted (kind : DeclKind) : Leaf κ → Bool
  | .bound _ none => !kind.isConst
  | .bound _ (some part) => kind.isConst || !part.isMacro
  | .missing .. => false
  | .dropped => true

/-- The leaf is about values that exist already. -/
def IsOld (w : CompileState κ η) (leaf : Leaf κ) : Prop := ∀ id part, leaf = .bound id (some part) → part.IsOld w

/-- The instructions that come of a leaf as they are shown, with their places. -/
def rendered (c : Compiler κ η) (kind : DeclKind) (w : CompileState κ η) : Leaf κ → List (String × Option Span)
  | .bound id (some part) =>
    if kind.isConst && part.isFixed w then []
    else [("set" ++ " " ++ c.variableName id ++ " " ++ part.text, some id.span)]
  | .bound _ none | .missing .. | .dropped => []

end Leaf

/-- An instruction as it is shown, with its place. -/
def Instruction.rendering (i : Instruction κ) : String × Option Span := (i.text, i.source)

namespace CompileState

/-- No variable is graded before it exists. -/
def Ungraded (w : CompileState κ η) : Prop := ∀ id, w.values ≤ id → w.grade id = .writable

/-- Values that exist stay, and variables among them keep their grades. -/
structure GradesKept (w w' : CompileState κ η) : Prop where
  values : w.values ≤ w'.values
  grades : ∀ id, id < w.values → w'.grade id = w.grade id

theorem GradesKept.refl (w : CompileState κ η) : w.GradesKept w := ⟨Nat.le_refl _, fun _ _ => rfl⟩

theorem GradesKept.trans {w w₁ w₂ : CompileState κ η} (h : w.GradesKept w₁) (h' : w₁.GradesKept w₂) :
    w.GradesKept w₂ where
  values := Nat.le_trans h.values h'.values
  grades id hid := (h'.grades id (Nat.lt_of_lt_of_le hid h.values)).trans (h.grades id hid)

theorem GradesKept.mutability {w w' : CompileState κ η} (h : w.GradesKept w') {v : Value κ} (hv : v.id < w.values) :
    w'.mutability v = w.mutability v := by
  cases v with
  | store id name temporary => exact h.grades id hv
  | void | literal | object | function => rfl

end CompileState

/-! ### What becomes of a leaf -/

/-- The value is the part itself, or, for a length, a number that was made for it after the state `w`. -/
def Part.IsSince (w : CompileState κ η) (part : Part κ) (v : Value κ) : Prop :=
  part.Is v ∧ ∀ n, part = .length n → w.values ≤ v.id

/-- The binding that a leaf gets: another name for a part that cannot change, or a new variable. The state `w` is one
from before, and `w'` one from after. -/
inductive Leaf.Binds (c : Compiler κ η) (s : Scope) (kind : DeclKind) (w w' : CompileState κ η) :
    Leaf κ → Binding κ → Prop
  | shared {id : Identifier} {part : Part κ} {v : Value κ} (hfixed : (kind.isConst && part.isFixed w) = true)
      (hv : part.IsSince w v) (hid : v.id < w'.values) (hgrade : w'.mutability v = .immutable) :
      Binds c s kind w w' (.bound id (some part)) (c.binding s id v true)
  | stored {id : Identifier} {part : Option (Part κ)} {i : Nat}
      (hfixed : ∀ q ∈ part, (kind.isConst && q.isFixed w) = false) (hnew : w.values ≤ i) (hid : i < w'.values)
      (hgrade : w'.grade i = if kind.isConst then .constantBinding else .writable) :
      Binds c s kind w w' (.bound id part) (c.binding s id (.store i (c.variableName id) false) false)

/-- What leaves leave behind that were declared between the states `w₁` and `w₂`. The state `w` is one from before. -/
structure Declared (c : Compiler κ η) (s : Scope) (kind : DeclKind) (w : CompileState κ η) (leaves : List (Leaf κ))
    (code : List (Instruction κ)) (w₁ w₂ : CompileState κ η) : Prop where
  grades : w₁.GradesKept w₂
  ungraded : w₂.Ungraded
  accepted : ∀ leaf ∈ leaves, leaf.accepted kind = true
  rendered : code.map Instruction.rendering = leaves.flatMap (Leaf.rendered c kind w)
  bindsAll : BindsAll s (leaves.filterMap Leaf.identifier?) w₁ w₂
  binds : ∀ id part, .bound id part ∈ leaves → ∃ b, w₂.own? s.table id.name = some b ∧
    Leaf.Binds c s kind w w₂ (.bound id part) b

section Declared

variable {c : Compiler κ η} {s : Scope} {kind : DeclKind} {w w₁ w₂ w₃ : CompileState κ η}

theorem Leaf.Binds.later {leaf : Leaf κ} {b : Binding κ} (h : leaf.Binds c s kind w w₁ b) (hgrades : w₁.GradesKept w₂) :
    leaf.Binds c s kind w w₂ b := by
  cases h with
  | shared hfixed hv hid hgrade =>
    exact .shared hfixed hv (Nat.lt_of_lt_of_le hid hgrades.values) ((hgrades.mutability hid).trans hgrade)
  | stored hfixed hnew hid hgrade =>
    exact .stored hfixed hnew (Nat.lt_of_lt_of_le hid hgrades.values) ((hgrades.grades _ hid).trans hgrade)

theorem Declared.nil (hungraded : w₁.Ungraded) : Declared c s kind w [] [] w₁ w₁ where
  grades := .refl _
  ungraded := hungraded
  accepted := by simp
  rendered := rfl
  bindsAll := .nil (List.prefix_refl _)
  binds := by simp

theorem Declared.append {leaves more : List (Leaf κ)} {code code' : List (Instruction κ)} (hopen : w₁.IsOpen s)
    (h : Declared c s kind w leaves code w₁ w₂) (h' : Declared c s kind w more code' w₂ w₃) :
    Declared c s kind w (leaves ++ more) (code ++ code') w₁ w₃ where
  grades := h.grades.trans h'.grades
  ungraded := h'.ungraded
  accepted leaf hleaf := (List.mem_append.1 hleaf).elim (h.accepted leaf) (h'.accepted leaf)
  rendered := by rw [List.map_append, h.rendered, h'.rendered, List.flatMap_append]
  bindsAll := by
    rw [List.filterMap_append]
    exact h.bindsAll.append h'.bindsAll hopen
  binds id part hleaf := by
    rcases List.mem_append.1 hleaf with hleaf | hleaf
    · obtain ⟨b, hb, hbinds⟩ := h.binds id part hleaf
      obtain ⟨bound, hadds, -⟩ := h'.bindsAll
      refine ⟨b, ?_, hbinds.later h'.grades⟩
      rw [hadds.own? (h.bindsAll.isOpen hopen), hb]
      rfl
    · exact h'.binds id part hleaf

end Declared

/-! ### One leaf -/

namespace Compiler

variable {c : Compiler κ η} {s : Scope} {kind : DeclKind} {id : Identifier} {w w' : CompileState κ η}
  {code : List (Instruction κ)}

theorem identifierResult_none_ok (h : c.identifierResult s id kind none w = .ok code w') :
    w.own? s.table id.name = none ∧ kind.isConst = false ∧ code = [] ∧ w' = c.withVariable s id w := by
  unfold identifierResult at h
  cases hkind : kind.isConst with
  | true =>
    rw [hkind] at h
    cases h
  | false =>
    rw [hkind] at h
    obtain ⟨hown, ⟨-, hcode, hw'⟩ | ⟨v, hv, -⟩⟩ := variableResult_ok h
    · exact ⟨hown, rfl, hcode, hw'⟩
    · cases hv

theorem identifierResult_some_ok {v : Value κ} (h : c.identifierResult s id kind (some v) w = .ok code w') :
    w.own? s.table id.name = none ∧ (kind.isConst || !v.isMacro) = true ∧
      if (kind.isConst && decide (w.mutability v = .immutable)) = true
      then code = [] ∧ w' = w.enter s (c.binding s id v true)
      else code = [.set (c.newVariable id w) v] ∧ w' = c.afterSet s id kind w := by
  have hvariable : c.variableResult s id kind (some v) w = .ok code w' → w.own? s.table id.name = none ∧
      v.isMacro = false ∧ code = [.set (c.newVariable id w) v] ∧ w' = c.afterSet s id kind w := by
    intro h
    obtain ⟨hown, ⟨hinit, -⟩ | ⟨u, hu, hplace, hcode, hw'⟩⟩ := variableResult_ok h
    · cases hinit
    · cases hu
      exact ⟨hown, hplace, hcode, hw'⟩
  unfold identifierResult at h
  cases hkind : kind.isConst with
  | false =>
    rw [hkind] at h
    obtain ⟨hown, hplace, hcode⟩ := hvariable h
    exact ⟨hown, by simp [hplace], by simpa using hcode⟩
  | true =>
    rw [hkind] at h
    dsimp only at h
    by_cases hfixed : w.mutability v = .immutable
    · rw [if_pos hfixed, aliasResult] at h
      split at h
      · cases h
      next hown =>
        cases h
        exact ⟨by simpa using hown, rfl, by simp [hfixed]⟩
    · rw [if_neg hfixed] at h
      obtain ⟨hown, -, hcode⟩ := hvariable h
      exact ⟨hown, rfl, by simpa [hfixed] using hcode⟩

theorem identifierResult_succeeds (c : Compiler κ η) (init : Option (Value κ)) (hown : w.own? s.table id.name = none)
    (hinit : match init with
      | none => kind.isConst = false
      | some v => (kind.isConst || !v.isMacro) = true) :
    ∃ code w', c.identifierResult s id kind init w = .ok code w' := by
  have hfree : ¬ (w.own? s.table id.name).isSome = true := by simp [hown]
  unfold identifierResult variableResult aliasResult
  cases init with
  | none => simp [hinit, hfree]
  | some v =>
    cases hkind : kind.isConst with
    | false =>
      have hplace : v.isMacro = false := by simpa [hkind] using hinit
      simp [hfree, hplace]
    | true =>
      by_cases hfixed : w.mutability v = .immutable
      · simp [hfixed, hfree]
      · simp [hfixed, hfree, isMacro_of_mutability_ne hfixed]

end Compiler

/-- What making a part does: the value is the part, and nothing is on record about it that was not before. -/
structure Part.Makes (part : Part κ) (v : Value κ) (w w' : CompileState κ η) : Prop where
  is : part.IsSince w v
  values : w.values ≤ w'.values
  tables : w'.tables = w.tables
  mutabilities : w'.mutabilities = w.mutabilities
  id_lt : part.IsOld w → v.id < w'.values
  isFixed : decide (w'.mutability v = .immutable) = part.isFixed w
  isMacro : v.isMacro = part.isMacro
  text : v.text = part.text

theorem Part.make_makes (part : Part κ) (w : CompileState κ η) :
    ∃ v w', part.make w = .ok v w' ∧ part.Makes v w w' := by
  cases part with
  | value v =>
    have his : (value v).IsSince w v := ⟨rfl, by simp⟩
    exact ⟨v, w, rfl, his, Nat.le_refl _, rfl, rfl, fun h => h, rfl, rfl, rfl⟩
  | length n =>
    have his : (length n).IsSince w (.literal w.values (lengthLiteral n)) := ⟨⟨_, rfl⟩, fun _ _ => Nat.le_refl _⟩
    exact ⟨.literal w.values (lengthLiteral n), { w with values := w.values + 1 }, rfl, his, Nat.le_succ _, rfl, rfl,
      fun _ => Nat.lt_succ_self _, rfl, rfl, rfl⟩

theorem Part.Makes.own? {part : Part κ} {v : Value κ} {w w' : CompileState κ η} (h : part.Makes v w w') (i : Nat)
    (name : String) : w'.own? i name = w.own? i name := by
  rw [CompileState.own?, CompileState.table, h.tables, CompileState.own?, CompileState.table]

section Leaf

variable {c : Compiler κ η} {s : Scope} {kind : DeclKind} {id : Identifier} {w w₁ w₂ w₃ : CompileState κ η}
  {code : List (Instruction κ)}

theorem attributing_ok {span : Span} {x : CompileM κ η (List (Instruction κ))}
    (h : attributing span x w = .ok code w₁) :
    ∃ inner, x w = .ok inner w₁ ∧ code = inner.map (·.withSource span) := by
  have hyields : Yields (attributing span x) w (fun code' w' => ∃ inner, x w = .ok inner w' ∧
      code' = inner.map (·.withSource span)) (fun _ _ => True) := by
    rw [yields_attributing, Yields]
    split
    next hx => exact ⟨_, hx, rfl⟩
    next => trivial
  exact hyields.of_ok h

theorem attributing_of_ok {span : Span} {x : CompileM κ η (List (Instruction κ))} (h : x w = .ok code w₁) :
    attributing span x w = .ok (code.map (·.withSource span)) w₁ := by
  have hlocating : locating span x w = .ok code w₁ := by rw [locating, h]
  rw [attributing, bind_of_ok hlocating]
  rfl

theorem Part.isFixed_eq {part : Part κ} (hold : part.IsOld w) (hgrades : w.GradesKept w₁) :
    part.isFixed w₁ = part.isFixed w := by
  cases part with
  | value v => rw [Part.isFixed, Part.isFixed, hgrades.mutability hold]
  | length n => rfl

theorem Declared.single {part : Option (Part κ)} {b : Binding κ} (hopen : w₁.IsOpen s)
    (hfree : w₁.own? s.table id.name = none) (hgrades : w₁.GradesKept w₂) (hungraded : w₂.Ungraded)
    (haccepted : (Leaf.bound id part).accepted kind = true)
    (hrendered : code.map Instruction.rendering = (Leaf.bound id part).rendered c kind w) (hadds : Adds s [b] w₁ w₂)
    (hname : b.identifier = id.name) (hbinds : (Leaf.bound id part).Binds c s kind w w₂ b) :
    Declared c s kind w [.bound id part] code w₁ w₂ where
  grades := hgrades
  ungraded := hungraded
  accepted := by simpa using haccepted
  rendered := by simpa using hrendered
  bindsAll := .of_adds hadds hname hfree
  binds id' part' hleaf := by
    cases List.mem_singleton.1 hleaf
    refine ⟨b, ?_, hbinds⟩
    rw [hadds.own? hopen, hfree]
    simp [hname]

theorem Declared.dropped (hungraded : w₁.Ungraded) :
    Declared c s kind w [.dropped] [] w₁ { w₁ with values := w₁.values + 1 } where
  grades := ⟨Nat.le_succ _, fun _ _ => rfl⟩
  ungraded id hid := hungraded id (Nat.le_of_succ_le hid)
  accepted := by simp [Leaf.accepted]
  rendered := rfl
  bindsAll := .nil (List.prefix_refl _)
  binds := by simp

/-- A variable that was declared without a value. -/
theorem Declared.unset (hbase : w.GradesKept w₁) (hopen : w₁.IsOpen s) (hungraded : w₁.Ungraded)
    (h : c.identifierResult s id kind none w₁ = .ok code w₂) :
    Declared c s kind w [.bound id none] (code.map (·.withSource id.span)) w₁ w₂ := by
  obtain ⟨hfree, hkind, rfl, rfl⟩ := Compiler.identifierResult_none_ok h
  refine .single hopen hfree ⟨Nat.le_succ _, fun _ _ => rfl⟩ (fun i hi => hungraded i (Nat.le_of_succ_le hi))
    (by simp [Leaf.accepted, hkind]) rfl (adds_withVariable w₁) rfl
    (.stored (by simp) hbase.values (Nat.lt_succ_self w₁.values) ?_)
  rw [hkind]
  exact hungraded w₁.values (Nat.le_refl _)

namespace Compiler

variable (c s id kind w)

theorem gradesKept_afterSet : w.GradesKept (c.afterSet s id kind w) where
  values := by
    rw [Compiler.values_afterSet]
    exact Nat.le_succ _
  grades i hi := by rw [Compiler.grade_afterSet, if_neg fun h => Nat.ne_of_lt hi h.2]

variable {w}

theorem ungraded_afterSet (hw : w.Ungraded) : (c.afterSet s id kind w).Ungraded := by
  intro i hi
  rw [Compiler.values_afterSet] at hi
  rw [Compiler.grade_afterSet, if_neg (by omega)]
  exact hw i (by omega)

end Compiler

theorem rendering_set (c : Compiler κ η) (id : Identifier) (v : Value κ) (w : CompileState κ η) :
    [Instruction.set (c.newVariable id w) v].map (Instruction.rendering ∘ (·.withSource id.span)) =
      [("set" ++ " " ++ c.variableName id ++ " " ++ v.text, some id.span)] := rfl

/-- An identifier that was declared with a part for its value. -/
theorem Declared.initialized {part : Part κ} {v : Value κ} (hbase : w.GradesKept w₁) (hold : part.IsOld w)
    (hopen : w₁.IsOpen s) (hungraded : w₁.Ungraded) (hmakes : part.Makes v w₁ w₂)
    (h : c.identifierResult s id kind (some v) w₂ = .ok code w₃) :
    Declared c s kind w [.bound id (some part)] (code.map (·.withSource id.span)) w₁ w₃ := by
  obtain ⟨hfree, haccepted, hcases⟩ := Compiler.identifierResult_some_ok h
  have hgrade (i : Nat) : w₂.grade i = w₁.grade i := by rw [CompileState.grade, hmakes.mutabilities, CompileState.grade]
  have hkept : w₁.GradesKept w₂ := ⟨hmakes.values, fun i _ => hgrade i⟩
  have hungraded₂ : w₂.Ungraded := fun i hi => (hgrade i).trans (hungraded i (Nat.le_trans hmakes.values hi))
  have hadds {b : Binding κ} (h : Adds s [b] w₂ w₃) : Adds s [b] w₁ w₃ :=
    ⟨hmakes.tables ▸ h.own, hmakes.tables ▸ h.others⟩
  have hfree₁ : w₁.own? s.table id.name = none := (hmakes.own? ..).symm.trans hfree
  have hid : v.id < w₂.values := by
    refine hmakes.id_lt ?_
    cases part with
    | value u => exact Nat.lt_of_lt_of_le hold hbase.values
    | length n => trivial
  -- acceptance and sharing depend on the part in the base state only, which is what makes them free of the order
  rw [hmakes.isMacro] at haccepted
  rw [hmakes.isFixed, Part.isFixed_eq hold hbase] at hcases
  split at hcases
  next hfixed =>
    obtain ⟨rfl, rfl⟩ := hcases
    refine .single hopen hfree₁ ⟨hkept.values, hkept.grades⟩ hungraded₂ haccepted ?_ (hadds (.enter w₂ s _)) rfl
      (.shared hfixed ⟨hmakes.is.1, fun n hn => Nat.le_trans hbase.values (hmakes.is.2 n hn)⟩ hid ?_)
    · simp [Leaf.rendered, hfixed]
    · have := hmakes.isFixed
      rw [Part.isFixed_eq hold hbase, (Bool.and_eq_true_iff.1 hfixed).2, decide_eq_true_eq] at this
      exact this
  next hfixed =>
    obtain ⟨rfl, rfl⟩ := hcases
    refine .single hopen hfree₁ (hkept.trans (c.gradesKept_afterSet ..)) (c.ungraded_afterSet s kind id hungraded₂)
      haccepted ?_ (hadds (adds_afterSet w₂)) rfl
      (.stored (i := w₂.values) ?_ (Nat.le_trans hbase.values hmakes.values) ?_ ?_)
    · rw [List.map_map, rendering_set, hmakes.text, Leaf.rendered, if_neg hfixed]
    · simpa using hfixed
    · rw [Compiler.values_afterSet]
      exact Nat.lt_succ_self _
    · rw [Compiler.grade_afterSet]
      cases kind.isConst with
      | true => simp
      | false => simpa using hungraded₂ _ (Nat.le_refl _)

/-- One leaf that was declared. -/
theorem Compiler.declareLeaf_declared {leaf : Leaf κ} (hbase : w.GradesKept w₁) (hold : leaf.IsOld w)
    (hopen : w₁.IsOpen s) (hungraded : w₁.Ungraded) (h : c.declareLeaf s kind leaf w₁ = .ok code w₂) :
    Declared c s kind w [leaf] code w₁ w₂ := by
  match leaf with
  | .missing cause span => cases h
  | .dropped =>
    cases h
    exact .dropped hungraded
  | .bound id none =>
    obtain ⟨inner, hinner, rfl⟩ := attributing_ok h
    exact .unset hbase hopen hungraded hinner
  | .bound id (some part) =>
    obtain ⟨v, w', hmake, hmakes⟩ := part.make_makes w₁
    have hmapM : (some part).mapM Part.make w₁ = .ok (some v) w' := map_of_ok hmake some
    rw [Compiler.declareLeaf, bind_of_ok hmapM] at h
    obtain ⟨inner, hinner, rfl⟩ := attributing_ok h
    exact .initialized hbase (hold id part rfl) hopen hungraded hmakes hinner

/-- A leaf that is accepted can be declared where its name is free. -/
theorem Compiler.declareLeaf_succeeds {leaf : Leaf κ} (haccepted : leaf.accepted kind = true)
    (hfree : ∀ id ∈ leaf.identifier?, w.own? s.table id.name = none) :
    ∃ code w', c.declareLeaf s kind leaf w = .ok code w' := by
  match leaf with
  | .missing cause span => cases haccepted
  | .dropped => exact ⟨_, _, rfl⟩
  | .bound id none =>
    obtain ⟨code, w', hresult⟩ := c.identifierResult_succeeds none (hfree id rfl)
      (by simpa [Leaf.accepted] using haccepted)
    exact ⟨_, w', attributing_of_ok hresult⟩
  | .bound id (some part) =>
    obtain ⟨v, w', hmake, hmakes⟩ := part.make_makes w
    have hmapM : (some part).mapM Part.make w = .ok (some v) w' := map_of_ok hmake some
    have hown : w'.own? s.table id.name = none := (hmakes.own? ..).trans (hfree id rfl)
    obtain ⟨code, w₂, hresult⟩ := c.identifierResult_succeeds (some v) hown
      (by simpa [Leaf.accepted, hmakes.isMacro] using haccepted)
    exact ⟨_, w₂, (bind_of_ok hmapM _).trans (attributing_of_ok hresult)⟩

end Leaf

/-! ### All leaves -/

section Leaves

variable {c : Compiler κ η} {s : Scope} {kind : DeclKind} {w w₁ w₂ : CompileState κ η} {leaves : List (Leaf κ)}
  {code : List (Instruction κ)}

theorem Compiler.declareLeaves_declared (hbase : w.GradesKept w₁) (hold : ∀ leaf ∈ leaves, leaf.IsOld w)
    (hopen : w₁.IsOpen s) (hungraded : w₁.Ungraded) (h : c.declareLeaves s kind leaves w₁ = .ok code w₂) :
    Declared c s kind w leaves code w₁ w₂ := by
  induction leaves generalizing w₁ code with
  | nil =>
    cases h
    exact .nil hungraded
  | cons leaf rest ih =>
    rw [Compiler.declareLeaves] at h
    cases hleaf : c.declareLeaf s kind leaf w₁ with
    | error e w' =>
      rw [bind_of_error hleaf] at h
      cases h
    | ok first w' =>
      rw [bind_of_ok hleaf] at h
      cases hrest : c.declareLeaves s kind rest w' with
      | error e w'' =>
        rw [bind_of_error hrest] at h
        cases h
      | ok more w'' =>
        rw [bind_of_ok hrest] at h
        cases h
        have hfirst := Compiler.declareLeaf_declared hbase (hold leaf (by simp)) hopen hungraded hleaf
        exact hfirst.append hopen (ih (hbase.trans hfirst.grades) (fun l hl => hold l (by simp [hl]))
          (hfirst.bindsAll.isOpen hopen) hfirst.ungraded hrest)

/-- Leaves can be declared one after another whose names are free and different, if each is accepted. -/
theorem Compiler.declareLeaves_succeeds (hbase : w.GradesKept w₁) (hold : ∀ leaf ∈ leaves, leaf.IsOld w)
    (hopen : w₁.IsOpen s) (hungraded : w₁.Ungraded) (haccepted : ∀ leaf ∈ leaves, leaf.accepted kind = true)
    (hnodup : ((leaves.filterMap Leaf.identifier?).map (·.name)).Nodup)
    (hfree : ∀ id ∈ leaves.filterMap Leaf.identifier?, w₁.own? s.table id.name = none) :
    ∃ code w₂, c.declareLeaves s kind leaves w₁ = .ok code w₂ := by
  induction leaves generalizing w₁ with
  | nil => exact ⟨[], w₁, rfl⟩
  | cons leaf rest ih =>
    rw [Leaf.identifiers_cons] at hnodup hfree
    rw [List.map_append, List.nodup_append] at hnodup
    obtain ⟨first, w', hleaf⟩ := c.declareLeaf_succeeds (haccepted leaf (by simp))
      fun id hid => hfree id (List.mem_append_left _ (by simpa using hid))
    have hfirst := Compiler.declareLeaf_declared hbase (hold leaf (by simp)) hopen hungraded hleaf
    obtain ⟨bound, hadds, hnames, -⟩ := hfirst.bindsAll
    -- the names of the rest are still free, since the first leaf took another one
    have hfree' : ∀ id ∈ rest.filterMap Leaf.identifier?, w'.own? s.table id.name = none := by
      intro id hid
      rw [hadds.own? hopen, hfree id (List.mem_append_right _ hid), Option.none_or, List.find?_eq_none]
      intro b hb heq
      have hb' : b.identifier ∈ leaf.identifier?.toList.map (·.name) := by
        have := List.mem_map_of_mem (f := (·.identifier)) hb
        rwa [hnames, Leaf.identifiers_cons, List.filterMap_nil, List.append_nil] at this
      exact hnodup.2.2 _ hb' _ (List.mem_map_of_mem hid) (beq_iff_eq.1 heq)
    obtain ⟨more, w'', hrest⟩ := ih (hbase.trans hfirst.grades) (fun l hl => hold l (by simp [hl]))
      (hfirst.bindsAll.isOpen hopen) hfirst.ungraded (fun l hl => haccepted l (by simp [hl])) hnodup.2.1 hfree'
    refine ⟨first ++ more, w'', ?_⟩
    rw [Compiler.declareLeaves, bind_of_ok hleaf, bind_of_ok hrest]
    rfl

end Leaves

/-! ### The leaves of a pattern -/

theorem Leaf.identifiers_ofDropped (part : Option (Part κ)) :
    (Leaf.ofDropped part).filterMap Leaf.identifier? = [] := by
  unfold Leaf.ofDropped
  split <;> rfl

mutual

/-- Where no part is missing, the leaves are those of all identifiers. -/
theorem Pattern.identifiers_leaves (p : Pattern) (part : Option (Part κ)) :
    p.hasNamedKeys → (∀ cause span, .missing cause span ∉ p.leaves part) →
      (p.leaves part).filterMap Leaf.identifier? = p.identifiers := by
  intro hkeys hfound
  match p with
  | .identifier id => rfl
  | .array elements span =>
    rw [Pattern.leaves, List.filterMap_append, Leaf.identifiers_ofDropped, List.nil_append]
    rw [Pattern.leaves] at hfound
    cases hpart : Part.elements? part with
    | error cause => exact absurd (by simp [hpart]) (hfound cause span)
    | ok o =>
      rw [hpart] at hfound
      exact Pattern.identifiers_elementsLeaves elements o 0 hkeys fun cause span hmem =>
        hfound cause span (List.mem_append_right _ hmem)
  | .object properties span =>
    rw [Pattern.leaves, List.filterMap_append, Leaf.identifiers_ofDropped, List.nil_append]
    rw [Pattern.leaves] at hfound
    cases hpart : Part.consumed? part with
    | error cause => exact absurd (by simp [hpart]) (hfound cause span)
    | ok consumed =>
      rw [hpart] at hfound
      exact Pattern.identifiers_propertiesLeaves properties consumed hkeys fun cause span hmem =>
        hfound cause span (List.mem_append_right _ hmem)
  | .assignment .. | .rest .. | .member _ =>
    exact absurd (List.mem_append_right _ (List.mem_singleton_self _)) (hfound _ _)
termination_by structural p

theorem Pattern.identifiers_elementsLeaves (elements : List (Option Pattern)) (o : Object κ (Value κ)) (index : Nat) :
    Pattern.elementsNamedKeys elements → (∀ cause span, .missing cause span ∉ Pattern.elementsLeaves o index elements) →
      (Pattern.elementsLeaves o index elements).filterMap Leaf.identifier? = Pattern.elementsIdentifiers elements := by
  intro hkeys hfound
  match elements with
  | [] => rfl
  | element :: rest =>
    simp only [Pattern.elementsNamedKeys, Bool.and_eq_true] at hkeys
    have ih := Pattern.identifiers_elementLeaves element o index hkeys.1 fun cause span hmem =>
      hfound cause span (List.mem_append_left _ hmem)
    have ih' := Pattern.identifiers_elementsLeaves rest o (index + 1) hkeys.2 fun cause span hmem =>
      hfound cause span (List.mem_append_right _ hmem)
    rw [Pattern.elementsLeaves, List.filterMap_append, ih, ih', Pattern.elementsIdentifiers]
termination_by structural elements

theorem Pattern.identifiers_elementLeaves (element : Option Pattern) (o : Object κ (Value κ)) (index : Nat) :
    Pattern.elementNamedKeys element → (∀ cause span, .missing cause span ∉ Pattern.elementLeaves o index element) →
      (Pattern.elementLeaves o index element).filterMap Leaf.identifier? = Pattern.elementIdentifiers element := by
  intro hkeys hfound
  match element with
  | none => rfl
  | some p =>
    rw [Pattern.elementLeaves] at hfound ⊢
    cases hmember : o.get? index.repr with
    | none => exact absurd (by simp [hmember]) (hfound (.missingIndex index) p.span)
    | some v =>
      rw [hmember] at hfound
      exact Pattern.identifiers_leaves p (some (.value v)) hkeys hfound
termination_by structural element

theorem Pattern.identifiers_propertiesLeaves (properties : List Property) (consumed : Part κ) :
    Pattern.propertiesNamedKeys properties →
      (∀ cause span, .missing cause span ∉ Pattern.propertiesLeaves consumed properties) →
      (Pattern.propertiesLeaves consumed properties).filterMap Leaf.identifier? =
        Pattern.propertiesIdentifiers properties := by
  intro hkeys hfound
  match properties with
  | [] => rfl
  | property :: rest =>
    simp only [Pattern.propertiesNamedKeys, Bool.and_eq_true] at hkeys
    have ih := Property.identifiers_leaves property consumed hkeys.1 fun cause span hmem =>
      hfound cause span (List.mem_append_left _ hmem)
    have ih' := Pattern.identifiers_propertiesLeaves rest consumed hkeys.2 fun cause span hmem =>
      hfound cause span (List.mem_append_right _ hmem)
    rw [Pattern.propertiesLeaves, List.filterMap_append, ih, ih', Pattern.propertiesIdentifiers]
termination_by structural properties

theorem Property.identifiers_leaves (property : Property) (consumed : Part κ) :
    property.hasNamedKeys → (∀ cause span, .missing cause span ∉ property.leaves consumed) →
      (property.leaves consumed).filterMap Leaf.identifier? = property.identifiers := by
  intro hkeys hfound
  match property with
  | .rest _ span => exact absurd (by simp [Property.leaves]) (hfound .restNotSupported span)
  | .keyed key p computed span =>
    simp only [Property.hasNamedKeys, Bool.and_eq_true, Bool.not_eq_true'] at hkeys
    obtain ⟨name, hname⟩ := Option.isSome_iff_exists.1 hkeys.1.1
    rw [Property.leaves, hname] at hfound ⊢
    dsimp only at hfound ⊢
    cases hmember : consumed.member? name with
    | error cause => exact absurd (by simp [hmember]) (hfound cause span)
    | ok part =>
      rw [hmember] at hfound
      exact Pattern.identifiers_leaves p (some part) hkeys.2 fun cause span hmem =>
        hfound cause span (List.mem_cons_of_mem _ hmem)
termination_by structural property

end

/-- What is found under a key has the property too. -/
def Part.Closed (P : Part κ → Prop) : Prop := ∀ part found key, P part → part.member? key = .ok found → P found

theorem Part.Closed.get? {P : Part κ → Prop} (hclosed : Part.Closed P) {id : Nat} {o : Object κ (Value κ)}
    (h : P (.value (.object id o))) {key : String} {v : Value κ} (hv : o.get? key = some v) : P (.value v) := by
  refine hclosed _ _ key h ?_
  rw [Part.member?, hv]

mutual

/-- Such a property of the value that a pattern takes apart is one of the parts of all leaves. -/
theorem Pattern.leaves_closed {P : Part κ → Prop} (hclosed : Part.Closed P) (p : Pattern) (part : Option (Part κ)) :
    (∀ q ∈ part, P q) → ∀ id q, .bound id (some q) ∈ p.leaves part → P q := by
  intro hpart id q hleaf
  have hdropped : .bound id (some q) ∉ Leaf.ofDropped part := by
    unfold Leaf.ofDropped
    split <;> simp
  match p with
  | .identifier _ =>
    cases List.mem_singleton.1 hleaf
    exact hpart q rfl
  | .array elements span =>
    have hinner := (List.mem_append.1 hleaf).resolve_left hdropped
    match part with
    | some (.value (.object i o)) =>
      exact Pattern.elementsLeaves_closed hclosed elements o 0 (fun key v hv => hclosed.get? (hpart _ rfl) hv) id q
        hinner
    | none | some (.length _) | some (.value (.void _)) | some (.value (.literal ..)) | some (.value (.store ..))
    | some (.value (.function ..)) => cases List.mem_singleton.1 hinner
  | .object properties span =>
    have hinner := (List.mem_append.1 hleaf).resolve_left hdropped
    cases part with
    | none => cases List.mem_singleton.1 hinner
    | some part =>
      cases hconsumed : Part.consumed? (some part) with
      | error cause =>
        rw [hconsumed] at hinner
        cases List.mem_singleton.1 hinner
      | ok consumed =>
        rw [hconsumed] at hinner
        obtain rfl := Part.eq_of_consumed hconsumed
        exact Pattern.propertiesLeaves_closed hclosed properties consumed (hpart _ rfl) id q hinner
  | .assignment .. | .rest .. | .member _ =>
    cases List.mem_singleton.1 ((List.mem_append.1 hleaf).resolve_left hdropped)
termination_by structural p

theorem Pattern.elementsLeaves_closed {P : Part κ → Prop} (hclosed : Part.Closed P) (elements : List (Option Pattern))
    (o : Object κ (Value κ)) (index : Nat) :
    (∀ key v, o.get? key = some v → P (.value v)) →
      ∀ id q, .bound id (some q) ∈ Pattern.elementsLeaves o index elements → P q := by
  intro ho id q hleaf
  match elements with
  | [] => cases hleaf
  | none :: more => exact Pattern.elementsLeaves_closed hclosed more o (index + 1) ho id q hleaf
  | some p :: more =>
    rcases List.mem_append.1 hleaf with hleaf | hleaf
    · rw [Pattern.elementLeaves] at hleaf
      cases hv : o.get? index.repr with
      | none =>
        rw [hv] at hleaf
        cases List.mem_singleton.1 hleaf
      | some v =>
        rw [hv] at hleaf
        exact Pattern.leaves_closed hclosed p (some (.value v)) (by simpa using ho _ v hv) id q hleaf
    · exact Pattern.elementsLeaves_closed hclosed more o (index + 1) ho id q hleaf
termination_by structural elements

theorem Pattern.propertiesLeaves_closed {P : Part κ → Prop} (hclosed : Part.Closed P) (properties : List Property)
    (consumed : Part κ) :
    P consumed → ∀ id q, .bound id (some q) ∈ Pattern.propertiesLeaves consumed properties → P q := by
  intro hconsumed id q hleaf
  match properties with
  | [] => cases hleaf
  | .rest _ span :: more =>
    rcases List.mem_append.1 hleaf with hleaf | hleaf
    · cases List.mem_singleton.1 hleaf
    · exact Pattern.propertiesLeaves_closed hclosed more consumed hconsumed id q hleaf
  | .keyed key p computed span :: more =>
    rcases List.mem_append.1 hleaf with hleaf | hleaf
    · rw [Property.leaves] at hleaf
      cases hname : key.identifier? with
      | none =>
        rw [hname] at hleaf
        cases hleaf
      | some name =>
        rw [hname] at hleaf
        dsimp only at hleaf
        cases hmember : consumed.member? name with
        | error cause =>
          rw [hmember] at hleaf
          simp at hleaf
        | ok part =>
          rw [hmember] at hleaf
          have hleaf := (List.mem_cons.1 hleaf).resolve_left (by simp)
          exact Pattern.leaves_closed hclosed p (some part) (by simpa using hclosed _ _ _ hconsumed hmember) id q hleaf
    · exact Pattern.propertiesLeaves_closed hclosed more consumed hconsumed id q hleaf
termination_by structural properties

end

theorem Value.Reaches.get? {v u : Value κ} {id : Nat} {o : Object κ (Value κ)} {key : String}
    (h : v.Reaches (.object id o)) (hu : o.get? key = some u) : v.Reaches u := by
  generalize ho : Value.object id o = w at h
  induction h with
  | refl =>
    subst ho
    exact .member hu (.refl u)
  | member hv _ ih => exact .member hv (ih ho)

/-- The part is found in the value by following keys: it is a value there, or the length of a text there. -/
def Part.Within (v : Value κ) : Part κ → Prop
  | .value u => v.Reaches u
  | .length n => ∃ id text, v.Reaches (.literal id (.string text)) ∧ n = (Text.units text).length

theorem Part.closed_within (v : Value κ) : Part.Closed (Part.Within v) := by
  intro part found key h hfound
  unfold Part.member? at hfound
  split at hfound
  · split at hfound <;> cases hfound
    next hu => exact Value.Reaches.get? h hu
  · split at hfound <;> cases hfound
    exact ⟨_, _, h, rfl⟩
  · cases hfound
  · cases hfound

theorem Pattern.within_leaves (init : Option (Value κ)) (p : Pattern) {id : Identifier} {q : Part κ}
    (hleaf : .bound id (some q) ∈ p.leaves (init.map .value)) : ∃ v ∈ init, q.Within v := by
  have hclosed : Part.Closed fun q => ∃ v ∈ init, q.Within v := by
    rintro part found key ⟨v, hv, h⟩ hfound
    exact ⟨v, hv, Part.closed_within v part found key h hfound⟩
  refine Pattern.leaves_closed hclosed p _ ?_ id q hleaf
  intro q' hq'
  obtain ⟨v, hv, rfl⟩ := Option.map_eq_some_iff.1 hq'
  exact ⟨v, hv, .refl v⟩

theorem Pattern.isOld_leaves {w : CompileState κ η} {init : Option (Value κ)}
    (hmade : ∀ v ∈ init, ∀ u, v.Reaches u → u.id < w.values) (p : Pattern) :
    ∀ leaf ∈ p.leaves (init.map .value), leaf.IsOld w := by
  rintro leaf hleaf id q rfl
  obtain ⟨v, hv, hwithin⟩ := Pattern.within_leaves init p hleaf
  cases q with
  | value u => exact hmade v hv u hwithin
  | length n => trivial

end DeclCompiler
