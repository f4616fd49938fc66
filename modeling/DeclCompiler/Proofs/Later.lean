import DeclCompiler.Proofs.Identifier

/-!
How the state of a compilation grows. Identities are given out in order, so a value that exists has a
smaller one than any value that is still to be made. A later state has the same bindings in the scopes
that are still open, and it grades the variables that existed as they were graded. What a declaration of
constants may add is the grade of variables that it makes itself.
-/

namespace DeclCompiler

variable {κ η : Type}

/-! ### Values that exist -/

section Made

variable (born : κ → Nat) (n : Nat)

/-- The values that the code holds on to are among the first `n`. -/
def MacroFn.Made : MacroFn κ → Prop
  | .getLink => True
  | .host _ code => born code ≤ n

/-- The value and all that is in it are among the first `n` values. `born code` bounds the identities
that a piece of host code holds on to. -/
inductive Value.Made : Value κ → Prop
  | void {id} (h : id < n) : Made (.void id)
  | literal {id l} (h : id < n) : Made (.literal id l)
  | store {id name temporary} (h : id < n) : Made (.store id name temporary)
  | object {id o} (h : id < n) (hmembers : ∀ key v, o.get? key = some v → Made v)
      (hhandlers : ∀ handler f, o.handler? handler = some f → f.Made born n) : Made (.object id o)
  | function {id f} (h : id < n) (hf : f.Made born n) : Made (.function id f)

end Made

variable {born : κ → Nat} {n n' : Nat}

theorem MacroFn.Made.mono {f : MacroFn κ} (h : f.Made born n) (hle : n ≤ n') : f.Made born n' := by
  cases f with
  | getLink => trivial
  | host name code => exact Nat.le_trans h hle

theorem Value.Made.mono {v : Value κ} (h : v.Made born n) (hle : n ≤ n') : v.Made born n' := by
  induction h with
  | void h => exact .void (Nat.lt_of_lt_of_le h hle)
  | literal h => exact .literal (Nat.lt_of_lt_of_le h hle)
  | store h => exact .store (Nat.lt_of_lt_of_le h hle)
  | object h _ hhandlers ih =>
    exact .object (Nat.lt_of_lt_of_le h hle) ih fun handler f hf => (hhandlers handler f hf).mono hle
  | function h hf => exact .function (Nat.lt_of_lt_of_le h hle) (hf.mono hle)

theorem Value.Made.id_lt {v : Value κ} (h : v.Made born n) : v.id < n := by
  cases h <;> assumption

/-! ### Grades of variables -/

namespace CompileState

variable {w w' w₁ w₂ : CompileState κ η}

/-- The assignability of the variable with the given identity. -/
def grade (w : CompileState κ η) (id : Nat) : Mutability := (Entries.get? id w.mutabilities).getD .writable

theorem grade_setMutability (w : CompileState κ η) (v : Value κ) (m : Mutability) (id : Nat) :
    (w.setMutability v m).grade id = if id = v.id then m else w.grade id := by
  simp only [grade, setMutability, Entries.get?_put]
  split <;> rfl

end CompileState

namespace Compiler

variable (c : Compiler κ η) (s : Scope) (id : Identifier) (kind : DeclKind) (w : CompileState κ η)

theorem values_afterSet : (c.afterSet s id kind w).values = w.values + 1 := by
  unfold afterSet
  split <;> rfl

/-- The new variable of a constant is graded, and nothing else is. -/
theorem grade_afterSet (i : Nat) : (c.afterSet s id kind w).grade i =
    if kind.isConst = true ∧ i = w.values then .constantBinding else w.grade i := by
  have hid : (c.newVariable id w).id = w.values := rfl
  unfold afterSet
  cases kind.isConst with
  | true =>
    rw [if_pos rfl, CompileState.grade_setMutability, hid]
    simp only [true_and]
    rfl
  | false =>
    simp only [Bool.false_eq_true, false_and, if_false]
    rfl

end Compiler

namespace CompileState

variable {w w' w₁ w₂ : CompileState κ η}

/-! ### Name tables -/

/-- A name table that was closed stays closed. Any other is closed, or has more bindings at its end. -/
def TableKept (t t' : Option (List (Binding κ))) : Prop :=
  t' = none ∨ ∃ bindings more, t = some bindings ∧ t' = some (bindings ++ more)

theorem TableKept.refl (t : Option (List (Binding κ))) : TableKept t t := by
  cases t with
  | none => exact .inl rfl
  | some bindings => exact .inr ⟨bindings, [], rfl, by simp⟩

theorem TableKept.trans {t t₁ t₂ : Option (List (Binding κ))} (h : TableKept t t₁) (h' : TableKept t₁ t₂) :
    TableKept t t₂ := by
  obtain rfl | ⟨bindings, more, rfl, rfl⟩ := h'
  · exact .inl rfl
  · obtain h | ⟨bindings', more', rfl, h⟩ := h
    · cases h
    · cases h
      exact .inr ⟨bindings', more' ++ more, rfl, by simp⟩

/-- Every name table is kept. -/
def TablesKept (w w' : CompileState κ η) : Prop :=
  ∀ (i : Nat) t, w.tables[i]? = some t → ∃ t', w'.tables[i]? = some t' ∧ TableKept t t'

theorem TablesKept.of_eq (h : w'.tables = w.tables) : TablesKept w w' :=
  fun i t ht => ⟨t, by rw [h]; exact ht, .refl t⟩

theorem TablesKept.trans (h : TablesKept w w₁) (h' : TablesKept w₁ w₂) : TablesKept w w₂ := by
  intro i t ht
  obtain ⟨t₁, ht₁, hkept⟩ := h i t ht
  obtain ⟨t₂, ht₂, hkept'⟩ := h' i t₁ ht₁
  exact ⟨t₂, ht₂, hkept.trans hkept'⟩

theorem tables_enter (w : CompileState κ η) (s : Scope) (b : Binding κ) (i : Nat) :
    (w.enter s b).tables[i]? =
      if s.table = i then (w.tables[i]?).map (Option.map (· ++ [b])) else w.tables[i]? := by
  simp only [enter, List.getElem?_modify]
  split <;> simp

theorem TablesKept.enter (w : CompileState κ η) (s : Scope) (b : Binding κ) : TablesKept w (w.enter s b) := by
  intro i t ht
  rw [tables_enter, ht]
  split
  · refine ⟨_, rfl, ?_⟩
    cases t with
    | none => exact .inl rfl
    | some bindings => exact .inr ⟨bindings, [b], rfl, rfl⟩
  · exact ⟨t, rfl, .refl t⟩

/-- A new scope comes after all others. -/
theorem TablesKept.of_append {more : List (Option (List (Binding κ)))} (h : w'.tables = w.tables ++ more) :
    TablesKept w w' := by
  intro i t ht
  have hi : i < w.tables.length := (List.getElem?_eq_some_iff.1 ht).1
  exact ⟨t, by rw [h, List.getElem?_append_left hi]; exact ht, .refl t⟩

theorem TablesKept.drop (w : CompileState κ η) (s : Scope) : TablesKept w (w.drop s) := by
  intro i t ht
  have hi : i < w.tables.length := (List.getElem?_eq_some_iff.1 ht).1
  by_cases hs : s.table = i
  · exact ⟨none, by simp [CompileState.drop, hs, hi], .inl rfl⟩
  · exact ⟨t, by simp [CompileState.drop, hs, ht], .refl t⟩

/-- The scope exists and was not dropped. -/
def IsOpen (w : CompileState κ η) (s : Scope) : Prop := ∃ bindings, w.tables[s.table]? = some (some bindings)

theorem own?_of_tables {i : Nat} {bindings : List (Binding κ)} (h : w.tables[i]? = some (some bindings))
    (identifier : String) : w.own? i identifier = bindings.find? (·.identifier == identifier) := by
  simp [own?, table, h]

theorem TablesKept.exists (h : TablesKept w w') {s : Scope} (hs : s.table < w.tables.length) :
    s.table < w'.tables.length := by
  obtain ⟨t', ht', -⟩ := h _ _ (List.getElem?_eq_getElem hs)
  exact (List.getElem?_eq_some_iff.1 ht').1

/-- Scopes are not opened again. -/
theorem TablesKept.isOpen (h : TablesKept w w') {s : Scope} (hs : s.table < w.tables.length) (hopen : w'.IsOpen s) :
    w.IsOpen s := by
  obtain ⟨bindings', hbindings'⟩ := hopen
  obtain ⟨t', ht', hkept⟩ := h _ _ (List.getElem?_eq_getElem hs)
  obtain rfl : t' = some bindings' := by simpa [hbindings'] using ht'.symm
  obtain h | ⟨bindings, more, h, -⟩ := hkept
  · cases h
  · exact ⟨bindings, by rw [List.getElem?_eq_getElem hs, h]⟩

/-- A name has the same binding as long as its scope is open. -/
theorem TablesKept.own? (h : TablesKept w w') {s : Scope} {identifier : String} {b : Binding κ}
    (hb : w.own? s.table identifier = some b) (hopen : w'.IsOpen s) : w'.own? s.table identifier = some b := by
  obtain ⟨bindings', hbindings'⟩ := hopen
  cases ht : w.tables[s.table]? with
  | none => simp [CompileState.own?, table, ht] at hb
  | some t =>
    obtain ⟨t', ht', hkept⟩ := h _ _ ht
    obtain rfl : t' = some bindings' := by simpa [hbindings'] using ht'.symm
    obtain h | ⟨bindings, more, rfl, h⟩ := hkept
    · cases h
    · cases h
      rw [own?_of_tables ht] at hb
      rw [own?_of_tables hbindings', List.find?_append, hb]
      rfl

/-- A name that was entered into an open scope stands for its binding. -/
theorem own?_enter {s : Scope} {b : Binding κ} (hnone : w.own? s.table b.identifier = none)
    (hopen : (w.enter s b).IsOpen s) : (w.enter s b).own? s.table b.identifier = some b := by
  obtain ⟨bindings', hbindings'⟩ := hopen
  rw [own?_of_tables hbindings']
  rw [tables_enter, if_pos rfl] at hbindings'
  obtain ⟨t, ht, h⟩ := Option.map_eq_some_iff.1 hbindings'
  obtain ⟨bindings, rfl, rfl⟩ := Option.map_eq_some_iff.1 h
  rw [own?_of_tables ht] at hnone
  simp [List.find?_append, hnone]

/-! ### Later states -/

/-- The values of all bindings exist, and no variable is graded before it exists. -/
structure Sound (born : κ → Nat) (w : CompileState κ η) : Prop where
  bindings : ∀ (i : Nat) bindings, w.tables[i]? = some (some bindings) → ∀ b ∈ bindings, b.value.Made born w.values
  grades : ∀ id, w.values ≤ id → w.grade id = .writable

/-- A compilation in which nothing is bound and nothing graded. -/
theorem sound_of_empty (htables : w.tables = [some []]) (hgrades : w.mutabilities = []) : w.Sound born := by
  refine ⟨fun i bindings hi => ?_, fun id _ => by rw [grade, hgrades]; rfl⟩
  rw [htables, List.getElem?_singleton] at hi
  split at hi <;> cases hi
  exact List.forall_mem_nil _

/-- What may happen to the state. The flag says whether new variables may be graded as constant bindings. -/
structure Later (born : κ → Nat) (constant : Bool) (w w' : CompileState κ η) : Prop where
  values : w.values ≤ w'.values
  tables : TablesKept w w'
  sound : w'.Sound born
  old : ∀ id, id < w.values → w'.grade id = w.grade id
  new : ∀ id, w.values ≤ id → w'.grade id = .writable ∨ constant = true ∧ w'.grade id = .constantBinding

variable {constant : Bool}

theorem Sound.grade_lt (hw : w.Sound born) {id : Nat} (h : w.grade id ≠ .writable) : id < w.values := by
  by_cases hid : id < w.values
  · exact hid
  · exact absurd (hw.grades id (by omega)) h

theorem Later.trans (h : Later born constant w w₁) (h' : Later born constant w₁ w₂) : Later born constant w w₂ where
  values := Nat.le_trans h.values h'.values
  tables := h.tables.trans h'.tables
  sound := h'.sound
  old id hid := (h'.old id (Nat.lt_of_lt_of_le hid h.values)).trans (h.old id hid)
  new id hid := by
    by_cases hid' : id < w₁.values
    · rw [h'.old id hid']
      exact h.new id hid
    · exact h'.new id (by omega)

theorem Later.mono {constant' : Bool} (h : Later born constant w w') (hc : constant = true → constant' = true) :
    Later born constant' w w' where
  values := h.values
  tables := h.tables
  sound := h.sound
  old := h.old
  new id hid := (h.new id hid).imp_right fun h => ⟨hc h.1, h.2⟩

theorem Later.graded (h : Later born constant w w') {id : Nat} (hid : id < w.values)
    (hgrade : w'.grade id ≠ .writable) : w.grade id ≠ .writable := by
  rwa [← h.old id hid]

/-- A value that exists keeps its grade. -/
theorem Later.mutability (h : Later born constant w w') {v : Value κ} (hv : v.id < w.values) :
    w'.mutability v = w.mutability v := by
  cases v with
  | store id name temporary => exact h.old id hv
  | void | literal | object | function => rfl

/-- Changes that concern neither bindings nor grades. -/
theorem Sound.later (hw : w.Sound born) (hvalues : w.values ≤ w'.values) (htables : w'.tables = w.tables)
    (hgrades : w'.mutabilities = w.mutabilities) : Later born constant w w' := by
  have hgrade : ∀ id, w'.grade id = w.grade id := fun id => by rw [grade, hgrades, grade]
  refine ⟨hvalues, .of_eq htables, ⟨?_, ?_⟩, fun id _ => hgrade id, fun id hid => .inl ?_⟩
  · intro i bindings hi b hb
    rw [htables] at hi
    exact (hw.bindings i bindings hi b hb).mono hvalues
  · intro id hid
    rw [hgrade]
    exact hw.grades id (Nat.le_trans hvalues hid)
  · rw [hgrade]
    exact hw.grades id hid

theorem Sound.refl (hw : w.Sound born) : Later born constant w w := hw.later (Nat.le_refl _) rfl rfl

/-- A value more. -/
theorem Sound.next (hw : w.Sound born) : Later born constant w { w with values := w.values + 1 } :=
  hw.later (Nat.le_succ _) rfl rfl

theorem Sound.enter (hw : w.Sound born) (s : Scope) {b : Binding κ} (hb : b.value.Made born w.values) :
    Later born constant w (w.enter s b) := by
  refine ⟨Nat.le_refl _, .enter w s b, ⟨?_, hw.grades⟩, fun _ _ => rfl, fun id hid => .inl (hw.grades id hid)⟩
  intro i bindings hi b' hb'
  rw [tables_enter] at hi
  split at hi
  · obtain ⟨t, ht, h⟩ := Option.map_eq_some_iff.1 hi
    obtain ⟨bindings, rfl, rfl⟩ := Option.map_eq_some_iff.1 h
    rcases List.mem_append.1 hb' with hb' | hb'
    · exact hw.bindings i _ ht b' hb'
    · obtain rfl : b' = b := by simpa using hb'
      exact hb
  · exact hw.bindings i _ hi b' hb'

/-- A new scope without bindings. -/
theorem Sound.open (hw : w.Sound born) (htables : w'.tables = w.tables ++ [some []]) (hvalues : w'.values = w.values)
    (hgrades : w'.mutabilities = w.mutabilities) : Later born constant w w' := by
  have hgrade : ∀ id, w'.grade id = w.grade id := fun id => by rw [grade, hgrades, grade]
  refine ⟨Nat.le_of_eq hvalues.symm, .of_append htables, ⟨?_, ?_⟩, fun id _ => hgrade id, fun id hid => .inl ?_⟩
  · intro i bindings hi b hb
    rw [htables, List.getElem?_append] at hi
    rw [hvalues]
    split at hi
    · exact hw.bindings i bindings hi b hb
    · rw [List.getElem?_singleton] at hi
      split at hi <;> cases hi
      cases hb
  · intro id hid
    rw [hgrade]
    exact hw.grades id (hvalues ▸ hid)
  · rw [hgrade]
    exact hw.grades id hid

theorem Sound.drop (hw : w.Sound born) (s : Scope) : Later born constant w (w.drop s) := by
  refine ⟨Nat.le_refl _, .drop w s, ⟨?_, hw.grades⟩, fun _ _ => rfl, fun id hid => .inl (hw.grades id hid)⟩
  intro i bindings hi b hb
  simp only [CompileState.drop, List.getElem?_set] at hi
  split at hi
  · split at hi <;> cases hi
  · exact hw.bindings i bindings hi b hb

end CompileState

end DeclCompiler
