import DeclCompiler.Proofs.Correspondence
import DeclCompiler.Proofs.Leaves
import DeclCompiler.Proofs.Run

/-!
Names of variables change nothing else. Two compilers that differ only in whether the names of variables have the
identifiers in them go in lockstep: they make the same values with the same identities, in the same order, and what the
one does with a variable the other does with the variable of the same identity. For this nobody may look at names, which
is why objects have no handlers here.
-/

namespace DeclCompiler

variable {κ η α : Type}

/-! ### Two names for a variable -/

/-- The names of the variable that an identifier declares, without the identifier and with it. -/
def Renames (compact full : String) : Prop :=
  ∃ id : Identifier, compact = declaredName id.span none ∧ full = declaredName id.span (some id.name)

/-- The same name, or the two names of a variable. -/
def NamesRenamed (name name' : String) : Prop := name = name' ∨ Renames name name'

/-- The same value, or a declared variable with the one name and with the other. -/
inductive Value.Renamed : Value κ → Value κ → Prop
  | same {v : Value κ} (h : v.HandlerFree) : Renamed v v
  | declared (i : Nat) {name name' : String} (h : Renames name name') :
      Renamed (.store i name false) (.store i name' false)

abbrev CodeRenamed : List (Instruction κ) → List (Instruction κ) → Prop := CodeAlike Value.Renamed

/-- States of two compilations in one scope that differ in the names of variables at most. -/
structure CompileState.Renamed (s : Scope) (w w' : CompileState κ η) : Prop where
  values : w.values = w'.values
  own : TableAlike NamesRenamed Value.Renamed w.tables[s.table]? w'.tables[s.table]?
  others : ∀ i, i ≠ s.table → w.tables[i]? = w'.tables[i]?
  counters : w.counters = w'.counters
  owners : w.owners = w'.owners
  mutabilities : w.mutabilities = w'.mutabilities
  host : w.host = w'.host

/-- Identities are the same from the beginning, so there is one world only. -/
inductive SoleWorld
  | here

instance : Preorder SoleWorld where
  le _ _ := True
  le_refl _ := trivial
  le_trans _ _ _ _ _ := trivial

/-- Names that differ as they may. No handler stands for another. -/
abbrev lockstep (s : Scope) : Correspondence SoleWorld κ η where
  names := NamesRenamed
  values _ := Value.Renamed
  functions _ _ _ := False
  states _ := CompileState.Renamed s

/-- Both actions succeeded or both failed, and the states differ in names at most. -/
abbrev EndRenamed (s : Scope) (result : α → α → Prop) :
    EStateM.Result CompileError (CompileState κ η) α → EStateM.Result CompileError (CompileState κ η) α → Prop :=
  (lockstep s).EndAlike (CompileError.Alike NamesRenamed) (fun _ => result) .here

namespace Value.Renamed

variable {v v' : Value κ}

theorem literal (id : Nat) (l : Literal) : Renamed (.literal id l : Value κ) (.literal id l) := by
  refine .same fun id' o h => ?_
  cases h

/-- A variable under names that differ as they may. -/
theorem store (id : Nat) {name name' : String} (h : NamesRenamed name name') :
    Renamed (.store id name false : Value κ) (.store id name' false) := by
  rcases h with rfl | h
  · refine .same fun id' o h => ?_
    cases h
  · exact .declared id h

theorem id_eq (h : v.Renamed v') : v.id = v'.id := by
  cases h <;> rfl

theorem text (h : v.Renamed v') : NamesRenamed v.text v'.text := by
  cases h with
  | same => exact .inl rfl
  | declared i h => exact .inr h

theorem sameShape (h : v.Renamed v') : v.SameShape Renamed (fun _ _ => False) v' := by
  cases h with
  | declared i h => exact .store _ _ _ _ _
  | same hfree =>
    cases v with
    | void => exact .void _ _
    | literal => exact .literal _ _ _
    | store => exact .store _ _ _ _ _
    | function => exact .function _ _ _ _
    | object id o =>
      refine .object _ _ (fun key => ?_) fun h => ?_
      · cases hm : o.get? key with
        | none => exact .none
        | some m => exact .some (.same (hfree.member hm))
      · rw [hfree.handler? h]
        exact .none

end Value.Renamed

/-! ### States -/

namespace CompileState.Renamed

variable {s : Scope} {w w' : CompileState κ η}

theorem isSome_own? (h : w.Renamed s w') (i : Nat) (name : String) :
    (w.own? i name).isSome = (w'.own? i name).isSome := by
  by_cases hi : i = s.table
  · rw [hi]
    exact optionRel_isSome (h.own.own? name)
  · simp only [CompileState.own?, CompileState.table, h.others i hi]

theorem isSome_owner? (h : w.Renamed s w') {v v' : Value κ} (hv : v.Renamed v') :
    (w.owner? v).isSome = (w'.owner? v').isSome := by
  unfold CompileState.owner?
  rw [h.owners, hv.id_eq]
  cases Entries.get? v'.id w'.owners with
  | none => rfl
  | some o => exact h.isSome_own? o.table o.identifier

/-- In a root scope only its own names can be looked up. -/
theorem lookup? (h : w.Renamed s w') (hroot : s.ancestors = []) (name : String) :
    Option.Rel (Binding.Alike NamesRenamed Value.Renamed) (w.lookup? s name) (w'.lookup? s name) := by
  have hlookup (w : CompileState κ η) : w.lookup? s name = w.own? s.table name := by
    simp [CompileState.lookup?, Scope.chain, hroot]
  rw [hlookup, hlookup]
  exact h.own.own? name

theorem mutability (h : w.Renamed s w') {v v' : Value κ} (hv : v.Renamed v') : w.mutability v = w'.mutability v' := by
  cases hv with
  | same => cases v <;> simp only [CompileState.mutability, h.mutabilities]
  | declared => simp only [CompileState.mutability, h.mutabilities]

theorem next (h : w.Renamed s w') :
    CompileState.Renamed s { w with values := w.values + 1 } { w' with values := w'.values + 1 } :=
  { h with values := congrArg (· + 1) h.values }

theorem enter (h : w.Renamed s w') {b b' : Binding κ} (hb : b.Alike NamesRenamed Value.Renamed b') :
    (w.enter s b).Renamed s (w'.enter s b') where
  values := h.values
  own := h.own.enter hb
  others i hi := by
    rw [CompileState.tables_enter, CompileState.tables_enter, if_neg (Ne.symm hi), if_neg (Ne.symm hi), h.others i hi]
  counters := h.counters
  owners := by
    unfold CompileState.enter
    rw [h.isSome_owner? hb.value, h.owners, hb.value.id_eq, hb.identifier]
  mutabilities := h.mutabilities
  host := h.host

theorem setMutability (h : w.Renamed s w') {v v' : Value κ} (hv : v.Renamed v') (m : Mutability) :
    (w.setMutability v m).Renamed s (w'.setMutability v' m) :=
  { h with mutabilities := by simp only [CompileState.setMutability, h.mutabilities, hv.id_eq] }

end CompileState.Renamed

/-- Declarations in a root scope decide nothing by the name of a variable. -/
theorem lockstep_laws {s : Scope} (hroot : s.ancestors = []) : (lockstep s : Correspondence SoleWorld κ η).Laws s where
  mono _ hv := hv
  text hv := hv.text
  shape hv := hv.sameShape
  own hw name := hw.isSome_own? s.table name
  lookup hw name := optionRel_mono (fun _ _ hb => hb.value) (hw.lookup? hroot name)
  mutability hw hv := hw.mutability hv
  next {_ w w'} hw := by
    have hvalues : w.values = w'.values := hw.values
    refine ⟨.here, trivial, hw.next, fun l => ?_, fun name name' hname => ?_⟩
    · rw [hvalues]
      exact .literal _ l
    · rw [hvalues]
      exact .store _ hname
  enter hw hb := hw.enter hb
  setMutability hw hv m := hw.setMutability hv m

/-! ### Declarations one after another -/

/-- How declarations end that are compiled one after another. What a failed one did stays, and the next goes on from
there. -/
def Compiler.results (c : Compiler κ η) (s : Scope) :
    List Declaration → CompileState κ η → List (EStateM.Result CompileError (CompileState κ η) (List (Instruction κ)))
  | [], _ => []
  | d :: rest, w =>
    match c.compileDeclaration s d w with
    | .ok code w' => .ok code w' :: c.results s rest w'
    | .error e w' => .error e w' :: c.results s rest w'

theorem results_renamed {s : Scope} (hroot : s.ancestors = []) {c c' : Compiler κ η}
    (hc : (lockstep s).CompilersAlike s .here c c') (declarations : List Declaration) {w w' : CompileState κ η}
    (hw : w.Renamed s w') :
    List.Forall₂ (EndRenamed s CodeRenamed) (c.results s declarations w) (c'.results s declarations w') := by
  induction declarations generalizing w w' with
  | nil => exact .nil
  | cons d rest ih =>
    have hend := (lockstep_laws hroot).mirrors_compileDeclaration hc d w w' hw
    unfold Compiler.results
    revert hend
    generalize c.compileDeclaration s d w = r
    generalize c'.compileDeclaration s d w' = r'
    intro hend
    cases hend with
    | ok hρ hw₁ hcode => exact .cons (.ok hρ hw₁ hcode) (ih hw₁)
    | error hρ hw₁ he => exact .cons (.error hρ hw₁ he) (ih hw₁)

/-- The compiler that evaluates names, constants and the given external expressions. -/
def Compiler.ofExternals (host : Host κ η) (externals : List (Nat × Value κ)) (options : Options) : Compiler κ η :=
  ⟨host, options, .basic host externals⟩

theorem Compiler.ofExternals_renamed {s : Scope} (hroot : s.ancestors = []) (host : Host κ η)
    {externals : List (Nat × Value κ)} (hexternals : ∀ id v, Entries.get? id externals = some v → v.HandlerFree)
    (limit : Nat) :
    (lockstep s).CompilersAlike s .here (ofExternals host externals ⟨true, limit⟩)
      (ofExternals host externals ⟨false, limit⟩) := by
  refine (lockstep_laws hroot).compilersAlike_basic (fun id => ?_) (fun _ _ _ _ _ hf => hf.elim) rfl rfl rfl
    fun id => .inr ⟨id, rfl, rfl⟩
  cases hv : Entries.get? id externals with
  | none => exact .none
  | some v => exact .some (.same (hexternals id v hv))

/-- A fresh root scope is no different from itself. -/
theorem CompileState.addRoot_renamed (w : CompileState κ η) : w.addRoot.2.Renamed w.addRoot.1 w.addRoot.2 where
  values := rfl
  own := by
    simp only [CompileState.addRoot, List.getElem?_concat_length]
    exact .some (.some .nil)
  others _ _ := rfl
  counters := rfl
  owners := rfl
  mutabilities := rfl
  host := rfl

/-- Leaving identifiers out of the names of variables changes nothing else. Declarations that are compiled one after
another in a fresh root scope end in lockstep: each succeeds in both compilations or fails in both, with the same kind
of error at the same places; the same names stand for the same values, or for variables of the same identity and
assignability; and the instructions differ in the names of variables at most. -/
theorem compact_names_change_only_names (host : Host κ η) (externals : List (Nat × Value κ)) (limit : Nat)
    (hexternals : ∀ id v, Entries.get? id externals = some v → v.HandlerFree) (w : CompileState κ η)
    (declarations : List Declaration) :
    List.Forall₂ (EndRenamed w.addRoot.1 CodeRenamed)
      ((Compiler.ofExternals host externals ⟨true, limit⟩).results w.addRoot.1 declarations w.addRoot.2)
      ((Compiler.ofExternals host externals ⟨false, limit⟩).results w.addRoot.1 declarations w.addRoot.2) :=
  results_renamed rfl (Compiler.ofExternals_renamed rfl host hexternals limit) declarations w.addRoot_renamed

/-! ### Three declarations -/

/-- `const {a} = #7; let b = a; let a = b`, where `#7` is an external expression -/
def rebound : List Declaration :=
  let a : Identifier := ⟨"a", .onLine 1 8 9⟩
  [⟨.const, [⟨.object [.keyed ⟨.identifier "a", a.span⟩ (.identifier a) false a.span] (.onLine 1 7 10),
      some ⟨.external 7, .onLine 1 13 15⟩, .onLine 1 7 15⟩], .onLine 1 1 15⟩,
    ⟨.letDecl, [⟨.identifier ⟨"b", .onLine 1 21 22⟩, some ⟨.identifier "a", .onLine 1 25 26⟩, .onLine 1 21 26⟩],
      .onLine 1 17 26⟩,
    ⟨.letDecl, [⟨.identifier ⟨"a", .onLine 1 32 33⟩, some ⟨.identifier "b", .onLine 1 36 37⟩, .onLine 1 32 37⟩],
      .onLine 1 28 37⟩]

/-- An object with a variable of the program in it -/
def holder : Value Unit := .object 1 { members := [("a", .store 0 "x" false)] }

def CompileState.withHolder : CompileState Unit Unit := { CompileState.initial () with values := 2 }

def Compiler.forHolder (compact : Bool) : Compiler Unit Unit :=
  .ofExternals (.inert Unit Unit) [(7, holder)] ⟨compact, 512⟩

/-- The instructions or the error of a declaration, as they are shown. -/
def shown : EStateM.Result CompileError (CompileState κ η) (List (Instruction κ)) → List String
  | .ok code _ => code.map Instruction.text
  | .error e _ => [e.message]

theorem holder_handlerFree : holder.HandlerFree := by
  refine Value.handlerFree_object rfl fun key u hu => ?_
  simp only [Object.get?, Entries.get?] at hu
  split at hu <;> cases hu
  intro id o h
  cases h

/-- The second declaration reads the variable of the first, and the third fails. -/
theorem rebound_changes_only_names :
    holder.HandlerFree ∧
    ((Compiler.forHolder true).results ⟨0, 0, 0, []⟩ rebound CompileState.withHolder.addRoot.2).map shown =
      [["set 1:8 x"], ["set 1:21 1:8"], ["a is already declared."]] ∧
    ((Compiler.forHolder false).results ⟨0, 0, 0, []⟩ rebound CompileState.withHolder.addRoot.2).map shown =
      [["set a:1:8 x"], ["set b:1:21 a:1:8"], ["a is already declared."]] ∧
    List.Forall₂ (EndRenamed ⟨0, 0, 0, []⟩ CodeRenamed)
      ((Compiler.forHolder true).results ⟨0, 0, 0, []⟩ rebound CompileState.withHolder.addRoot.2)
      ((Compiler.forHolder false).results ⟨0, 0, 0, []⟩ rebound CompileState.withHolder.addRoot.2) := by
  have hexternals : ∀ id v, Entries.get? id [(7, holder)] = some v → v.HandlerFree := by
    intro id v hv
    simp only [Entries.get?] at hv
    split at hv <;> cases hv
    exact holder_handlerFree
  exact ⟨holder_handlerFree, by decide +kernel, by decide +kernel,
    compact_names_change_only_names (.inert Unit Unit) [(7, holder)] 512 hexternals .withHolder rebound⟩

end DeclCompiler
