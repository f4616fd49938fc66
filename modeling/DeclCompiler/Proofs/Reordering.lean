import DeclCompiler.Proofs.DeclaredLeaves
import DeclCompiler.Proofs.Nesting

/-!
The order of properties does not matter. Patterns that differ only in the order of properties have the same leaves in
another order, and neither whether leaves can be declared nor what becomes of each depends on their order, but for the
identities of the values that are made on the way.
-/

namespace DeclCompiler

variable {κ η : Type}

/-! ### Shuffled patterns -/

mutual

/-- Patterns of identifiers, arrays and objects with plain names as keys that differ only in the order of properties,
at any level. -/
inductive Pattern.Shuffled : Pattern → Pattern → Prop
  | identifier (id : Identifier) : Shuffled (.identifier id) (.identifier id)
  | array {elements elements' : List (Option Pattern)} (span : Span) (h : ElementsShuffled elements elements') :
      Shuffled (.array elements span) (.array elements' span)
  | object {properties between properties' : List Property} (span : Span) (hperm : properties.Perm between)
      (h : PropertiesShuffled between properties') : Shuffled (.object properties span) (.object properties' span)

inductive Pattern.ElementsShuffled : List (Option Pattern) → List (Option Pattern) → Prop
  | nil : ElementsShuffled [] []
  | hole {rest rest' : List (Option Pattern)} (h : ElementsShuffled rest rest') :
      ElementsShuffled (none :: rest) (none :: rest')
  | element {p p' : Pattern} {rest rest' : List (Option Pattern)} (hp : Pattern.Shuffled p p')
      (h : ElementsShuffled rest rest') : ElementsShuffled (some p :: rest) (some p' :: rest')

inductive Pattern.PropertiesShuffled : List Property → List Property → Prop
  | nil : PropertiesShuffled [] []
  | keyed {key : Expr} {p p' : Pattern} {rest rest' : List Property} (span : Span) (hkey : key.identifier?.isSome)
      (hp : Pattern.Shuffled p p') (h : PropertiesShuffled rest rest') :
      PropertiesShuffled (.keyed key p false span :: rest) (.keyed key p' false span :: rest')

end

theorem Pattern.Shuffled.span_eq {p p' : Pattern} (h : p.Shuffled p') : p.span = p'.span := by
  cases h <;> rfl

section Perm

variable {properties properties' : List Property}

theorem Pattern.propertiesDepth_perm (h : properties.Perm properties') :
    Pattern.propertiesDepth properties = Pattern.propertiesDepth properties' := by
  induction h with
  | nil => rfl
  | cons property _ ih => rw [Pattern.propertiesDepth, Pattern.propertiesDepth, ih]
  | swap a b rest => simp only [Pattern.propertiesDepth, Nat.max_left_comm]
  | trans _ _ ih ih' => exact ih.trans ih'

theorem Pattern.propertiesNamedKeys_perm (h : properties.Perm properties') :
    Pattern.propertiesNamedKeys properties = Pattern.propertiesNamedKeys properties' := by
  induction h with
  | nil => rfl
  | cons property _ ih => rw [Pattern.propertiesNamedKeys, Pattern.propertiesNamedKeys, ih]
  | swap a b rest => simp only [Pattern.propertiesNamedKeys, Bool.and_left_comm]
  | trans _ _ ih ih' => exact ih.trans ih'

theorem Pattern.propertiesLeaves_perm (consumed : Part κ) (h : properties.Perm properties') :
    (Pattern.propertiesLeaves consumed properties).Perm (Pattern.propertiesLeaves consumed properties') := by
  induction h with
  | nil => exact .refl _
  | cons property _ ih => exact ih.append_left _
  | swap a b rest =>
    simp only [Pattern.propertiesLeaves, ← List.append_assoc]
    exact List.perm_append_comm.append_right _
  | trans _ _ ih ih' => exact ih.trans ih'

end Perm

mutual

/-- The induction is on the second pattern: its properties are in the order in which they correspond. -/
theorem Pattern.Shuffled.depth_keys (p' p : Pattern) (h : p.Shuffled p') :
    p.depth = p'.depth ∧ p.hasNamedKeys ∧ p'.hasNamedKeys := by
  match p', h with
  | .identifier id, .identifier _ => exact ⟨rfl, rfl, rfl⟩
  | .array elements' span, .array _ h =>
    obtain ⟨hdepth, hkeys, hkeys'⟩ := Pattern.ElementsShuffled.depth_keys elements' _ h
    exact ⟨by rw [Pattern.depth, Pattern.depth, hdepth], hkeys, hkeys'⟩
  | .object properties' span, .object _ hperm h =>
    obtain ⟨hdepth, hkeys, hkeys'⟩ := Pattern.PropertiesShuffled.depth_keys properties' _ h
    refine ⟨by rw [Pattern.depth, Pattern.depth, Pattern.propertiesDepth_perm hperm, hdepth], ?_, hkeys'⟩
    rw [Pattern.hasNamedKeys, Pattern.propertiesNamedKeys_perm hperm]
    exact hkeys
termination_by structural p'

theorem Pattern.ElementsShuffled.depth_keys (elements' elements : List (Option Pattern))
    (h : Pattern.ElementsShuffled elements elements') :
    Pattern.elementsDepth elements = Pattern.elementsDepth elements' ∧ Pattern.elementsNamedKeys elements ∧
      Pattern.elementsNamedKeys elements' := by
  match elements', h with
  | [], .nil => exact ⟨rfl, rfl, rfl⟩
  | none :: rest', .hole h =>
    obtain ⟨hdepth, hkeys, hkeys'⟩ := Pattern.ElementsShuffled.depth_keys rest' _ h
    exact ⟨by rw [Pattern.elementsDepth, Pattern.elementsDepth, hdepth], hkeys, hkeys'⟩
  | some p' :: rest', .element hp h =>
    obtain ⟨hdepth, hkeys, hkeys'⟩ := Pattern.Shuffled.depth_keys p' _ hp
    obtain ⟨hdepths, hrest, hrest'⟩ := Pattern.ElementsShuffled.depth_keys rest' _ h
    simp [Pattern.elementsDepth, Pattern.elementDepth, Pattern.elementsNamedKeys, Pattern.elementNamedKeys, *]
termination_by structural elements'

theorem Pattern.PropertiesShuffled.depth_keys (properties' properties : List Property)
    (h : Pattern.PropertiesShuffled properties properties') :
    Pattern.propertiesDepth properties = Pattern.propertiesDepth properties' ∧ Pattern.propertiesNamedKeys properties ∧
      Pattern.propertiesNamedKeys properties' := by
  match properties', h with
  | [], .nil => exact ⟨rfl, rfl, rfl⟩
  | .keyed key p' _ _ :: rest', .keyed span hkey hp h =>
    obtain ⟨hdepth, hkeys, hkeys'⟩ := Pattern.Shuffled.depth_keys p' _ hp
    obtain ⟨hdepths, hrest, hrest'⟩ := Pattern.PropertiesShuffled.depth_keys rest' _ h
    simp [Pattern.propertiesDepth, Property.depth, Pattern.propertiesNamedKeys, Property.hasNamedKeys, *]
termination_by structural properties'

end

mutual

/-- The leaves of a shuffled pattern are the same in another order. -/
theorem Pattern.Shuffled.leaves_perm (p' p : Pattern) (h : p.Shuffled p') (part : Option (Part κ)) :
    (p.leaves part).Perm (p'.leaves part) := by
  match p', h with
  | .identifier id, .identifier _ => exact .refl _
  | .array elements' span, .array _ h =>
    refine List.Perm.append_left _ ?_
    cases Part.elements? part with
    | error cause => exact .refl _
    | ok o => exact Pattern.ElementsShuffled.leaves_perm elements' _ h o 0
  | .object properties' span, .object _ hperm h =>
    refine List.Perm.append_left _ ?_
    cases Part.consumed? part with
    | error cause => exact .refl _
    | ok consumed =>
      exact (Pattern.propertiesLeaves_perm consumed hperm).trans
        (Pattern.PropertiesShuffled.leaves_perm properties' _ h consumed)
termination_by structural p'

theorem Pattern.ElementsShuffled.leaves_perm (elements' elements : List (Option Pattern))
    (h : Pattern.ElementsShuffled elements elements') (o : Object κ (Value κ)) (index : Nat) :
    (Pattern.elementsLeaves o index elements).Perm (Pattern.elementsLeaves o index elements') := by
  match elements', h with
  | [], .nil => exact .refl _
  | none :: rest', .hole h => exact Pattern.ElementsShuffled.leaves_perm rest' _ h o (index + 1)
  | some p' :: rest', .element hp h =>
    refine List.Perm.append ?_ (Pattern.ElementsShuffled.leaves_perm rest' _ h o (index + 1))
    rw [Pattern.elementLeaves, Pattern.elementLeaves]
    cases o.get? index.repr with
    | none => rw [hp.span_eq]
    | some v => exact Pattern.Shuffled.leaves_perm p' _ hp (some (.value v))
termination_by structural elements'

theorem Pattern.PropertiesShuffled.leaves_perm (properties' properties : List Property)
    (h : Pattern.PropertiesShuffled properties properties') (consumed : Part κ) :
    (Pattern.propertiesLeaves consumed properties).Perm (Pattern.propertiesLeaves consumed properties') := by
  match properties', h with
  | [], .nil => exact .refl _
  | .keyed key p' _ _ :: rest', .keyed span hkey hp h =>
    refine List.Perm.append ?_ (Pattern.PropertiesShuffled.leaves_perm rest' _ h consumed)
    rw [Property.leaves, Property.leaves]
    cases key.identifier? with
    | none => exact .refl _
    | some name =>
      refine List.Perm.cons _ ?_
      cases consumed.member? name with
      | error cause => exact .refl _
      | ok part => exact Pattern.Shuffled.leaves_perm p' _ hp (some part)
termination_by structural properties'

end

/-! ### Bindings in two runs -/

/-- What a part of the initial value is in two runs from the state `w`: one and the same value, or, for the length of a
text, an equal number that each run has made for itself. -/
inductive Part.SameIn (w : CompileState κ η) : Part κ → Value κ → Value κ → Prop
  | value (v : Value κ) : SameIn w (.value v) v v
  | length (n : Nat) {i i' : Nat} (hi : w.values ≤ i) (hi' : w.values ≤ i') :
      SameIn w (.length n) (.literal i (lengthLiteral n)) (.literal i' (lengthLiteral n))

/-- The bindings that an identifier gets in two runs from the state `w`, which end in `w₁` and `w₂`, are the same in all
that they say. A constant that is another name for its part shows the same part in both runs, and all other names stand
for variables with the same name, each of which was made in its run. -/
structure Binding.SameIn (w w₁ w₂ : CompileState κ η) (part : Option (Part κ)) (b b' : Binding κ) : Prop where
  identifier : b.identifier = b'.identifier
  name : b.name = b'.name
  scope : b.scope = b'.scope
  constant : b.constant = b'.constant
  mutability : w₁.mutability b.value = w₂.mutability b'.value
  shared : b.constant = true → ∃ q ∈ part, q.SameIn w b.value b'.value
  stored : b.constant = false → ∃ i i', w.values ≤ i ∧ w.values ≤ i' ∧ b.value = .store i b.name false ∧
    b'.value = .store i' b'.name false

section Same

variable {c : Compiler κ η} {s : Scope} {kind : DeclKind} {w w₁ w₂ : CompileState κ η}

theorem Part.IsSince.sameIn {part : Part κ} {v v' : Value κ} (h : part.IsSince w v) (h' : part.IsSince w v') :
    part.SameIn w v v' := by
  obtain ⟨his, hnew⟩ := h
  obtain ⟨his', hnew'⟩ := h'
  cases part with
  | value u =>
    obtain rfl : v = u := his
    obtain rfl : v' = v := his'
    exact .value v'
  | length n =>
    obtain ⟨i, rfl⟩ := his
    obtain ⟨i', rfl⟩ := his'
    exact .length n (hnew n rfl) (hnew' n rfl)

/-- What becomes of a leaf is the same in two runs from one state. -/
theorem Leaf.Binds.sameIn {id : Identifier} {part : Option (Part κ)} {b b' : Binding κ}
    (h : (Leaf.bound id part).Binds c s kind w w₁ b) (h' : (Leaf.bound id part).Binds c s kind w w₂ b') :
    b.SameIn w w₁ w₂ part b' := by
  cases h with
  | shared hfixed hv hid hgrade =>
    cases h' with
    | shared hfixed' hv' hid' hgrade' =>
      exact ⟨rfl, rfl, rfl, rfl, hgrade.trans hgrade'.symm, fun _ => ⟨_, rfl, hv.sameIn hv'⟩, nofun⟩
    | stored hfixed' => exact absurd hfixed (by simp [hfixed' _ rfl])
  | stored hfixed hnew hid hgrade =>
    cases h' with
    | shared hfixed' => exact absurd hfixed' (by simp [hfixed _ rfl])
    | stored hfixed' hnew' hid' hgrade' =>
      exact ⟨rfl, rfl, rfl, rfl, hgrade.trans hgrade'.symm, nofun, fun _ => ⟨_, _, hnew, hnew', rfl, rfl⟩⟩

end Same

section Orders

variable {c : Compiler κ η} {s : Scope} {kind : DeclKind} {w w₁ w₂ : CompileState κ η} {leaves leaves' : List (Leaf κ)}

/-- Leaves that were declared in one order can be declared in any. -/
theorem Declared.succeeds_perm {code : List (Instruction κ)} (hperm : leaves.Perm leaves')
    (hold : ∀ leaf ∈ leaves, leaf.IsOld w) (hopen : w.IsOpen s) (hungraded : w.Ungraded)
    (h : Declared c s kind w leaves code w w₁) : ∃ code' w₂, c.declareLeaves s kind leaves' w = .ok code' w₂ := by
  obtain ⟨bound, -, -, hnodup, hfree⟩ := h.bindsAll
  have hids := hperm.filterMap Leaf.identifier?
  refine c.declareLeaves_succeeds (.refl w) (fun leaf hleaf => hold leaf (hperm.mem_iff.2 hleaf)) hopen hungraded
    (fun leaf hleaf => h.accepted leaf (hperm.mem_iff.2 hleaf)) ((hids.map _).nodup_iff.1 hnodup) ?_
  exact fun id hid => hfree id (hids.mem_iff.2 hid)

/-- In both orders the leaves get the same bindings and give the same instructions. -/
theorem Declared.same_perm {code code' : List (Instruction κ)} (hperm : leaves.Perm leaves')
    (h : Declared c s kind w leaves code w w₁) (h' : Declared c s kind w leaves' code' w w₂) :
    (∀ id part, .bound id part ∈ leaves → ∃ b b', w₁.own? s.table id.name = some b ∧
      w₂.own? s.table id.name = some b' ∧ b.SameIn w w₁ w₂ part b') ∧
    (code.map Instruction.rendering).Perm (code'.map Instruction.rendering) := by
  refine ⟨fun id part hleaf => ?_, ?_⟩
  · obtain ⟨b, hb, hbinds⟩ := h.binds id part hleaf
    obtain ⟨b', hb', hbinds'⟩ := h'.binds id part (hperm.mem_iff.1 hleaf)
    exact ⟨b, b', hb, hb', hbinds.sameIn hbinds'⟩
  · rw [h.rendered, h'.rendered]
    exact hperm.flatMap_right _

end Orders

/-- Both patterns are declared by their leaves, if the nesting is not too deep. -/
theorem Pattern.Shuffled.declare_eq {p p' : Pattern} (h : p.Shuffled p') (c : Compiler κ η) (s : Scope)
    (kind : DeclKind) {init : Option (Value κ)} (hfree : ∀ v ∈ init, v.HandlerFree)
    (hdepth : p.depth ≤ c.options.maxPatternDepth) :
    c.declare s kind p init = c.declareLeaves s kind (p.leaves (init.map .value)) ∧
      c.declare s kind p' init = c.declareLeaves s kind (p'.leaves (init.map .value)) := by
  obtain ⟨heq, hkeys, hkeys'⟩ := Pattern.Shuffled.depth_keys p' p h
  have hparts := Part.handlerFree_map hfree
  rw [c.declare_eq_make, c.declare_eq_make, c.declareAt_eq_leaves s kind p 0 _ hkeys (by omega) hparts,
    c.declareAt_eq_leaves s kind p' 0 _ hkeys' (by omega) hparts]
  exact ⟨rfl, rfl⟩

/-- The order of properties does not matter. A pattern of identifiers, arrays and objects with plain names as keys can
be declared if and only if it can with its properties in another order, and then every name gets the same binding, with
the same part of the initial value behind it, and the instructions are the same in another order. -/
theorem property_order_is_irrelevant (c : Compiler κ η) (s : Scope) (kind : DeclKind) {p p' : Pattern}
    {init : Option (Value κ)} {w : CompileState κ η} (hshuffled : p.Shuffled p') (hfree : ∀ v ∈ init, v.HandlerFree)
    (hmade : ∀ v ∈ init, ∀ u, v.Reaches u → u.id < w.values) (hopen : w.IsOpen s) (hungraded : w.Ungraded) :
    ((∃ code w₁, c.declare s kind p init w = .ok code w₁) ↔ ∃ code' w₂, c.declare s kind p' init w = .ok code' w₂) ∧
    ∀ code w₁ code' w₂, c.declare s kind p init w = .ok code w₁ → c.declare s kind p' init w = .ok code' w₂ →
      (∀ id ∈ p.identifiers, ∃ part b b', .bound id part ∈ p.leaves (init.map .value) ∧
        .bound id part ∈ p'.leaves (init.map .value) ∧ (∀ q ∈ part, ∃ v ∈ init, q.Within v) ∧
        w₁.own? s.table id.name = some b ∧ w₂.own? s.table id.name = some b' ∧ b.SameIn w w₁ w₂ part b') ∧
      (code.map Instruction.rendering).Perm (code'.map Instruction.rendering) := by
  obtain ⟨hdepths, hkeys, -⟩ := Pattern.Shuffled.depth_keys p' p hshuffled
  by_cases hdepth : p.depth ≤ c.options.maxPatternDepth
  · obtain ⟨heq, heq'⟩ := hshuffled.declare_eq c s kind hfree hdepth
    have hperm := Pattern.Shuffled.leaves_perm p' p hshuffled (init.map Part.value)
    have hold := Pattern.isOld_leaves hmade p
    have hold' := Pattern.isOld_leaves hmade p'
    have hdeclared {code w₁} (h : c.declare s kind p init w = .ok code w₁) :=
      c.declareLeaves_declared (.refl w) hold hopen hungraded (heq ▸ h)
    have hdeclared' {code w₂} (h : c.declare s kind p' init w = .ok code w₂) :=
      c.declareLeaves_declared (.refl w) hold' hopen hungraded (heq' ▸ h)
    refine ⟨⟨?_, ?_⟩, fun code w₁ code' w₂ h h' => ?_⟩
    · rintro ⟨code, w₁, h⟩
      rw [heq']
      exact (hdeclared h).succeeds_perm hperm hold hopen hungraded
    · rintro ⟨code', w₂, h'⟩
      rw [heq]
      exact (hdeclared' h').succeeds_perm hperm.symm hold' hopen hungraded
    · obtain ⟨hbindings, hcode⟩ := (hdeclared h).same_perm hperm (hdeclared' h')
      refine ⟨fun id hid => ?_, hcode⟩
      have hfound : ∀ cause span, .missing cause span ∉ p.leaves (init.map .value) :=
        fun cause span hmem => absurd ((hdeclared h).accepted _ hmem) (by simp [Leaf.accepted])
      rw [← Pattern.identifiers_leaves p _ hkeys hfound] at hid
      obtain ⟨leaf, hleaf, hid⟩ := List.mem_filterMap.1 hid
      cases leaf with
      | bound id' part =>
        cases hid
        obtain ⟨b, b', hb, hb', hsame⟩ := hbindings id part hleaf
        refine ⟨part, b, b', hleaf, hperm.mem_iff.1 hleaf, ?_, hb, hb', hsame⟩
        rintro q ⟨⟩
        exact Pattern.within_leaves init p hleaf
      | missing | dropped => cases hid
  · -- the depth is the same in both orders, so that both are refused
    have hself : c.withLimit c.options.maxPatternDepth = c := rfl
    have hne {code w₁} : c.declare s kind p init w ≠ .ok code w₁ :=
      hself ▸ c.declare_ne_ok s kind p init (by omega) w w₁ code
    have hne' {code w₂} : c.declare s kind p' init w ≠ .ok code w₂ :=
      hself ▸ c.declare_ne_ok s kind p' init (by omega) w w₂ code
    refine ⟨⟨?_, ?_⟩, fun _ _ _ _ h => absurd h hne⟩
    · rintro ⟨_, _, h⟩
      exact absurd h hne
    · rintro ⟨_, _, h'⟩
      exact absurd h' hne'

/-! ### Properties at two levels -/

/-- The property whose key is also the identifier that it declares. -/
def shorthand (name : String) (column : Nat) : Property :=
  .keyed ⟨.identifier name, .onLine 1 column (column + 1)⟩ (.identifier ⟨name, .onLine 1 column (column + 1)⟩) false
    (.onLine 1 column (column + 1))

/-- `b: {…}` -/
def inner (properties : List Property) : Property :=
  .keyed ⟨.identifier "b", .onLine 1 10 11⟩ (.object properties (.onLine 1 13 19)) false (.onLine 1 10 19)

/-- `{a, b: {c, d}}` -/
def ordered : Pattern := .object [shorthand "a" 7, inner [shorthand "c" 14, shorthand "d" 17]] (.onLine 1 6 20)

/-- `{b: {d, c}, a}`, with the places of the other one -/
def reordered : Pattern := .object [inner [shorthand "d" 17, shorthand "c" 14], shorthand "a" 7] (.onLine 1 6 20)

theorem ordered_shuffled : ordered.Shuffled reordered := by
  have hidentifiers (name name' : String) (column column' : Nat) :
      Pattern.PropertiesShuffled [shorthand name column, shorthand name' column']
        [shorthand name column, shorthand name' column'] :=
    .keyed _ rfl (.identifier _) (.keyed _ rfl (.identifier _) .nil)
  exact .object _ (.swap ..)
    (.keyed _ rfl (.object _ (.swap ..) (hidentifiers ..)) (.keyed _ rfl (.identifier _) .nil))

/-- `{a: true, b: {c: x, d: false}}` -/
def twoLevels : Value Unit :=
  .object 4 { members := [("a", .literal 0 (.bool true)), ("b", .object 3 { members := [("c", .store 1 "x" false),
    ("d", .literal 2 (.bool false))] })] }

def CompileState.withFive : CompileState Unit Unit :=
  { values := 5, tables := [some []], counters := [⟨1, 0⟩], owners := [], mutabilities := [], host := () }

theorem Entries.eq_of_get?_pair {key a b : String} {u v v' : Value κ}
    (h : Entries.get? key [(a, v), (b, v')] = some u) : u = v ∨ u = v' := by
  simp only [Entries.get?] at h
  split at h
  next =>
    cases h
    exact .inl rfl
  next =>
    split at h
    next =>
      cases h
      exact .inr rfl
    next => cases h

theorem twoLevels_reaches {u : Value Unit} (h : twoLevels.Reaches u) :
    u.id < 5 ∧ ∀ id o, u = .object id o → o.handlers = [] := by
  cases h with
  | refl => exact ⟨by decide, by rintro _ _ ⟨⟩; rfl⟩
  | member hu h =>
    rcases Entries.eq_of_get?_pair hu with rfl | rfl
    · cases h
      exact ⟨by decide, by simp⟩
    · cases h with
      | refl => exact ⟨by decide, by rintro _ _ ⟨⟩; rfl⟩
      | member hu h =>
        rcases Entries.eq_of_get?_pair hu with rfl | rfl <;> cases h <;> exact ⟨by decide, by simp⟩

/-- Constants from an object with a variable in it: one instruction, and the same bindings, in both orders. -/
theorem nested_order_is_irrelevant :
    ordered.Shuffled reordered ∧ twoLevels.HandlerFree ∧ CompileState.withFive.IsOpen ⟨0, 0, 0, []⟩ ∧
      ∃ code w₁ code' w₂,
        (Compiler.standard (.inert Unit Unit)).declare ⟨0, 0, 0, []⟩ .const ordered (some twoLevels) .withFive =
          .ok code w₁ ∧
        (Compiler.standard (.inert Unit Unit)).declare ⟨0, 0, 0, []⟩ .const reordered (some twoLevels) .withFive =
          .ok code' w₂ ∧
        (∀ id ∈ ordered.identifiers, ∃ part b b', .bound id part ∈ ordered.leaves (some (.value twoLevels)) ∧
          .bound id part ∈ reordered.leaves (some (.value twoLevels)) ∧
          (∀ q ∈ part, ∃ v ∈ some twoLevels, q.Within v) ∧ w₁.own? 0 id.name = some b ∧ w₂.own? 0 id.name = some b' ∧
          b.SameIn .withFive w₁ w₂ part b') ∧
        (code.map Instruction.rendering).Perm (code'.map Instruction.rendering) := by
  have hfree : twoLevels.HandlerFree := fun id o h => (twoLevels_reaches h).2 id o rfl
  have hopen : CompileState.withFive.IsOpen ⟨0, 0, 0, []⟩ := ⟨[], rfl⟩
  have hinit : ∀ v ∈ some twoLevels, v.HandlerFree := by simpa using hfree
  have hmade : ∀ v ∈ some twoLevels, ∀ u, v.Reaches u → u.id < CompileState.withFive.values := by
    rintro v ⟨⟩ u hu
    exact (twoLevels_reaches hu).1
  have hmain := property_order_is_irrelevant (Compiler.standard (.inert Unit Unit)) ⟨0, 0, 0, []⟩ .const
    ordered_shuffled hinit hmade hopen fun _ _ => rfl
  have hordered : ∃ code w₁, (Compiler.standard (.inert Unit Unit)).declare ⟨0, 0, 0, []⟩ .const ordered
    (some twoLevels) .withFive = .ok code w₁ := ⟨_, _, rfl⟩
  obtain ⟨code', w₂, hreordered⟩ := hmain.1.1 hordered
  obtain ⟨code, w₁, hordered⟩ := hordered
  obtain ⟨hbindings, hcode⟩ := hmain.2 _ _ _ _ hordered hreordered
  exact ⟨ordered_shuffled, hfree, hopen, code, w₁, code', w₂, hordered, hreordered, hbindings, hcode⟩

end DeclCompiler
