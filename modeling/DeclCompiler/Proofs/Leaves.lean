import DeclCompiler.Proofs.Identifier
import DeclCompiler.Proofs.Visit

/-!
Destructuring as a flat list. As long as no handler interferes, the value that an identifier of a
pattern stands for is known before anything is declared: it is found by following the keys. So a
pattern and a value give a list of leaves, and declaring the pattern is declaring the leaves one
after another until the first that fails.
-/

namespace DeclCompiler

variable {κ η : Type}

/-! ### Parts of a value -/

/-- A part of an initial value. The length of a text is no part that exists: it is made when it is
asked for. -/
inductive Part (κ : Type)
  | value (v : Value κ)
  | length (n : Nat)

namespace Part

def make : Part κ → CompileM κ η (Value κ)
  | .value v => return v
  | .length n => newLiteral (lengthLiteral n)

/-- Making a part does not fail. -/
theorem locating_make (span : Span) (part : Part κ) :
    locating span (part.make : CompileM κ η (Value κ)) = part.make := by
  cases part <;> rfl

/-- The object in which an array pattern looks for its elements, if there is one. -/
def elements? : Option (Part κ) → Except Cause (Object κ (Value κ))
  | none => .error (.missingInitializer "array")
  | some (.value (.object _ o)) => .ok o
  | some (.value v) => .error (if v.isMacro then .notObject else .notMacro)
  | some (.length _) => .error .notMacro

/-- The part in which an object pattern looks for its members, if there is one. -/
def consumed? : Option (Part κ) → Except Cause (Part κ)
  | none => .error (.missingInitializer "object")
  | some (.value (.void _)) => .error (.unsupported "consume" "void")
  | some part => .ok part

/-- What is found under a key: a member of an object, or the length of a text. -/
def member? (key : String) : Part κ → Except Cause (Part κ)
  | .value (.object _ o) =>
    match o.get? key with
    | some v => .ok (.value v)
    | none => .error .undefinedMember
  | .value (.literal id (.string text)) =>
    if key = "length" then .ok (.length (Text.units text).length)
    else .error (.unsupported "get" (Value.literal (κ := κ) id (.string text)).text)
  | .value v => .error (.unsupported "get" v.text)
  | .length n => .error (.unsupported "get" (lengthLiteral n).text)

end Part

/-! ### Leaves -/

/-- An identifier with its part of the value, or a place where there is no such part. A constant that is
made on the way and then dropped takes an identity all the same. -/
inductive Leaf (κ : Type)
  | bound (id : Identifier) (part : Option (Part κ))
  | missing (cause : Cause) (span : Span)
  | dropped

/-- A length that is taken apart in its turn is dropped. -/
def Leaf.ofDropped : Option (Part κ) → List (Leaf κ)
  | some (.length _) => [.dropped]
  | _ => []

mutual

/-- The leaves of a pattern from left to right. -/
def Pattern.leaves (p : Pattern) (part : Option (Part κ)) : List (Leaf κ) :=
  match p with
  | .identifier id => [.bound id part]
  | .array elements span =>
    Leaf.ofDropped part ++
      match Part.elements? part with
      | .error cause => [.missing cause span]
      | .ok o => Pattern.elementsLeaves o 0 elements
  | .object properties span =>
    Leaf.ofDropped part ++
      match Part.consumed? part with
      | .error cause => [.missing cause span]
      | .ok consumed => Pattern.propertiesLeaves consumed properties
  | .assignment .. | .rest .. | .member _ =>
    Leaf.ofDropped part ++ [.missing (.unsupportedPattern p.kindName) p.span]
termination_by structural p

def Pattern.elementsLeaves (o : Object κ (Value κ)) (index : Nat) (elements : List (Option Pattern)) :
    List (Leaf κ) :=
  match elements with
  | [] => []
  | element :: rest => Pattern.elementLeaves o index element ++ Pattern.elementsLeaves o (index + 1) rest
termination_by structural elements

/-- A hole has no leaves. It is counted. -/
def Pattern.elementLeaves (o : Object κ (Value κ)) (index : Nat) (element : Option Pattern) : List (Leaf κ) :=
  match element with
  | none => []
  | some p =>
    match o.get? index.repr with
    | none => [.missing (.missingIndex index) p.span]
    | some v => p.leaves (some (.value v))
termination_by structural element

def Pattern.propertiesLeaves (consumed : Part κ) (properties : List Property) : List (Leaf κ) :=
  match properties with
  | [] => []
  | property :: rest => property.leaves consumed ++ Pattern.propertiesLeaves consumed rest
termination_by structural properties

/-- The name of a property is made into a constant to look it up, and this constant is dropped. Keys that
are no names are not followed. -/
def Property.leaves (consumed : Part κ) (property : Property) : List (Leaf κ) :=
  match property with
  | .rest _ span => [.missing .restNotSupported span]
  | .keyed key p _ span =>
    match key.identifier? with
    | none => []
    | some name =>
      .dropped ::
        match consumed.member? name with
        | .error cause => [.missing cause span]
        | .ok part => p.leaves (some part)
termination_by structural property

end

mutual

/-- Whether all properties of a pattern have names as keys. -/
def Pattern.hasNamedKeys (p : Pattern) : Bool :=
  match p with
  | .array elements _ => Pattern.elementsNamedKeys elements
  | .object properties _ => Pattern.propertiesNamedKeys properties
  | .identifier _ | .assignment .. | .rest .. | .member _ => true
termination_by structural p

def Pattern.elementsNamedKeys (elements : List (Option Pattern)) : Bool :=
  match elements with
  | [] => true
  | element :: rest => Pattern.elementNamedKeys element && Pattern.elementsNamedKeys rest
termination_by structural elements

def Pattern.elementNamedKeys (element : Option Pattern) : Bool :=
  match element with
  | none => true
  | some p => p.hasNamedKeys
termination_by structural element

def Pattern.propertiesNamedKeys (properties : List Property) : Bool :=
  match properties with
  | [] => true
  | property :: rest => property.hasNamedKeys && Pattern.propertiesNamedKeys rest
termination_by structural properties

def Property.hasNamedKeys (property : Property) : Bool :=
  match property with
  | .rest .. => true
  | .keyed key p computed _ => key.identifier?.isSome && !computed && p.hasNamedKeys
termination_by structural property

end

mutual

/-- How many patterns are nested in one another. -/
def Pattern.depth (p : Pattern) : Nat :=
  match p with
  | .array elements _ => Pattern.elementsDepth elements + 1
  | .object properties _ => Pattern.propertiesDepth properties + 1
  | .identifier _ | .assignment .. | .rest .. | .member _ => 1
termination_by structural p

def Pattern.elementsDepth (elements : List (Option Pattern)) : Nat :=
  match elements with
  | [] => 0
  | element :: rest => max (Pattern.elementDepth element) (Pattern.elementsDepth rest)
termination_by structural elements

def Pattern.elementDepth (element : Option Pattern) : Nat :=
  match element with
  | none => 0
  | some p => p.depth
termination_by structural element

def Pattern.propertiesDepth (properties : List Property) : Nat :=
  match properties with
  | [] => 0
  | property :: rest => max property.depth (Pattern.propertiesDepth rest)
termination_by structural properties

def Property.depth (property : Property) : Nat :=
  match property with
  | .rest .. => 0
  | .keyed _ p _ _ => p.depth
termination_by structural property

end

/-! ### Values without handlers -/

/-- The values that are found by following keys. -/
inductive Value.Reaches : Value κ → Value κ → Prop
  | refl (v : Value κ) : Reaches v v
  | member {id : Nat} {o : Object κ (Value κ)} {key : String} {u v : Value κ} (hu : o.get? key = some u)
      (h : Reaches u v) : Reaches (.object id o) v

/-- No object in the value has handlers. -/
def Value.HandlerFree (v : Value κ) : Prop := ∀ id o, v.Reaches (.object id o) → o.handlers = []

theorem Value.HandlerFree.handler? {id : Nat} {o : Object κ (Value κ)} (h : (Value.object id o).HandlerFree)
    (handler : Handler) : o.handler? handler = none := by
  rw [Object.handler?, h id o (.refl _)]
  rfl

theorem Value.HandlerFree.member {id : Nat} {o : Object κ (Value κ)} {key : String} {u : Value κ}
    (h : (Value.object id o).HandlerFree) (hu : o.get? key = some u) : u.HandlerFree :=
  fun id' o' hreach => h id' o' (.member hu hreach)

theorem Value.handlerFree_object {id : Nat} {o : Object κ (Value κ)} (hhandlers : o.handlers = [])
    (hmembers : ∀ key u, o.get? key = some u → u.HandlerFree) : (Value.object id o).HandlerFree := by
  intro id' o' h
  cases h with
  | refl => exact hhandlers
  | member hu h => exact hmembers _ _ hu id' o' h

namespace Part

def HandlerFree : Part κ → Prop
  | .value v => v.HandlerFree
  | .length _ => True

@[simp] theorem handlerFree_value (v : Value κ) : (value v).HandlerFree ↔ v.HandlerFree := Iff.rfl

theorem handlerFree_map {init : Option (Value κ)} (h : ∀ v ∈ init, v.HandlerFree) :
    ∀ q ∈ init.map value, q.HandlerFree := by
  intro q hq
  obtain ⟨v, hv, rfl⟩ := Option.map_eq_some_iff.1 hq
  exact h v hv

theorem HandlerFree.member {part found : Part κ} {key : String} (hfree : part.HandlerFree)
    (h : part.member? key = .ok found) : found.HandlerFree := by
  unfold member? at h
  split at h
  · split at h <;> cases h
    next hv => exact Value.HandlerFree.member hfree hv
  · split at h <;> cases h
    trivial
  · cases h
  · cases h

theorem eq_of_consumed {part consumed : Part κ} (h : consumed? (some part) = .ok consumed) : consumed = part := by
  unfold consumed? at h
  split at h <;> cases h
  next heq => exact (Option.some.inj heq).symm

/-- A value is the part, or one that was made for it. -/
def Is (v : Value κ) : Part κ → Prop
  | .value u => v = u
  | .length n => ∃ id, v = .literal id (lengthLiteral n)

end Part

/-! ### Declaring leaves -/

namespace Compiler

variable (c : Compiler κ η) (s : Scope) (kind : DeclKind)

def declareLeaf : Leaf κ → CompileM κ η (List (Instruction κ))
  | .bound id part => do
    let init ← part.mapM Part.make
    attributing id.span (c.identifierResult s id kind init)
  | .missing cause span => throw ⟨cause, [span]⟩
  | .dropped => do
    let _ ← fresh
    return []

/-- Declares leaves from left to right and stops at the first that fails. -/
def declareLeaves : List (Leaf κ) → CompileM κ η (List (Instruction κ))
  | [] => return []
  | leaf :: rest => do
    let code ← c.declareLeaf s kind leaf
    return code ++ (← declareLeaves rest)

theorem declareLeaves_append (leaves more : List (Leaf κ)) :
    c.declareLeaves s kind (leaves ++ more) =
      (do return (← c.declareLeaves s kind leaves) ++ (← c.declareLeaves s kind more)) := by
  induction leaves with
  | nil => simp [declareLeaves]
  | cons leaf rest ih => simp only [List.cons_append, declareLeaves, ih, bind_assoc, pure_bind, List.append_assoc]

theorem declareLeaves_dropped (rest : List (Leaf κ)) :
    c.declareLeaves s kind (.dropped :: rest) = (do let _ ← fresh; c.declareLeaves s kind rest) := by
  simp [declareLeaves, declareLeaf]

/-! ### What is found under a key -/

/-- Without handlers only the void cannot be consumed, and all else is consumed as it is. -/
theorem consume_eq {v : Value κ} (hfree : v.HandlerFree) :
    v.consume c.host s =
      match Part.consumed? (some (.value v)) with
      | .error cause => throw (.of cause)
      | .ok _ => pure (v, []) := by
  cases v with
  | void | literal | store | function => rfl
  | object id o =>
    unfold Value.consume Value.eval
    simp only [hfree.handler?]
    rfl

/-- Without handlers a member is what is found under its name. -/
theorem getMember_eq {v : Value κ} {part : Part κ} (hv : part.Is v) (hfree : part.HandlerFree) (id : Nat)
    (name : String) :
    v.getMember c.host s (.literal id (.string name)) =
      match part.member? name with
      | .error cause => throw (.of cause)
      | .ok found => (do return (← found.make, [])) := by
  cases part with
  | length n =>
    obtain ⟨id', rfl⟩ := hv
    rfl
  | value u =>
    obtain rfl : v = u := hv
    cases v with
    | void | store | function => rfl
    | object id' o =>
      have hkey : o.member? (Value.literal (κ := κ) id (.string name)) = o.get? name := rfl
      have hget : o.handler? .get = none := Value.HandlerFree.handler? hfree _
      simp only [Value.getMember, Part.member?, hkey, hget]
      cases o.get? name <;> rfl
    | literal id' l =>
      cases l with
      | string text =>
        simp only [Value.getMember, Part.member?, Value.literal?, Option.some.injEq, Literal.string.injEq]
        split <;> rfl
      | _ => rfl

/-! ### Declarations are lists of leaves -/

mutual

theorem declareAt_eq_leaves (p : Pattern) (depth : Nat) (part : Option (Part κ)) :
    p.hasNamedKeys → depth + p.depth ≤ c.options.maxPatternDepth → (∀ q ∈ part, q.HandlerFree) →
      (do c.declareAt s kind depth p (← part.mapM Part.make)) = c.declareLeaves s kind (p.leaves part) := by
  intro hkeys hdepth hfree
  have hlimit : ¬ c.options.maxPatternDepth ≤ depth := by
    have hpos : 0 < p.depth := by
      rw [Pattern.depth.eq_def]
      split <;> omega
    omega
  simp only [declareAt.eq_def c s kind depth p, if_neg hlimit]
  match p with
  | .identifier id =>
    have hid : ∀ init, c.declareIdentifier s kind id init = c.identifierResult s id kind init :=
      fun init => funext (c.declareIdentifier_eq s id kind init)
    simp [Pattern.leaves, declareLeaves, declareLeaf, Pattern.span, hid]
  | .array elements span =>
    rw [Pattern.depth] at hdepth
    match part with
    | some (.value (.object id o)) =>
      have helements := (c.declareElements_attributed s kind (depth + 1) o 0 elements).attributing_eq span
      have ih := declareElements_eq_leaves elements (depth + 1) 0 o hkeys (by omega)
        fun key v hv => Value.HandlerFree.member (hfree _ rfl) hv
      exact helements.trans ih
    | none | some (.length _) => rfl
    | some (.value (.void _)) | some (.value (.literal ..)) | some (.value (.store ..))
    | some (.value (.function ..)) => rfl
  | .object properties span =>
    rw [Pattern.depth] at hdepth
    have ih := fun v q => declareProperties_eq_leaves properties (depth + 1) v q hkeys (by omega)
    -- Nothing is emitted before the properties, and they have places already.
    have hproperties : ∀ v,
        attributing span (do return [] ++ (← c.declareProperties s kind (depth + 1) v properties)) =
          c.declareProperties s kind (depth + 1) v properties := by
      intro v
      simp [(c.declareProperties_attributed s kind (depth + 1) v properties).attributing_eq]
    match part with
    | none => rfl
    | some (.length n) =>
      have hleaves : Pattern.leaves (.object properties span) (some (.length n : Part κ)) =
        .dropped :: Pattern.propertiesLeaves (.length n) properties := rfl
      have hconsume : ∀ id, (Value.literal id (lengthLiteral n)).consume c.host s =
        pure (Value.literal id (lengthLiteral n), []) := fun _ => rfl
      rw [hleaves, declareLeaves_dropped, Option.mapM_some]
      simp only [Part.make, newLiteral, bind_assoc, pure_bind, map_eq_pure_bind, hconsume]
      refine bind_congr fun id => ?_
      rw [← ih (.literal id (lengthLiteral n)) (.length n) trivial ⟨id, rfl⟩]
      exact hproperties _
    | some (.value v) =>
      have hv : v.HandlerFree := hfree _ rfl
      rw [Pattern.leaves, Option.mapM_some]
      simp only [Part.make, pure_bind, map_pure, c.consume_eq s hv, Leaf.ofDropped, List.nil_append]
      cases hconsumed : Part.consumed? (some (.value v)) with
      | error cause => rfl
      | ok consumed =>
        obtain rfl := Part.eq_of_consumed hconsumed
        rw [← ih v (.value v) hv rfl]
        exact hproperties v
  | .assignment .. | .rest .. | .member _ =>
    match part with
    | none | some (.value _) | some (.length _) => rfl
termination_by structural p

theorem declareElements_eq_leaves (elements : List (Option Pattern)) (depth index : Nat)
    (o : Object κ (Value κ)) :
    Pattern.elementsNamedKeys elements → depth + Pattern.elementsDepth elements ≤ c.options.maxPatternDepth →
      (∀ key v, o.get? key = some v → v.HandlerFree) →
      c.declareElements s kind depth o index elements =
        c.declareLeaves s kind (Pattern.elementsLeaves o index elements) := by
  intro hkeys hdepth hfree
  match elements with
  | [] => rfl
  | element :: rest =>
    simp only [Pattern.elementsNamedKeys, Bool.and_eq_true] at hkeys
    simp only [Pattern.elementsDepth] at hdepth
    have ih := declareElement_eq_leaves element depth index o hkeys.1 (by omega) hfree
    have ih' := declareElements_eq_leaves rest depth (index + 1) o hkeys.2 (by omega) hfree
    rw [declareElements, Pattern.elementsLeaves, declareLeaves_append, ih, ih']
termination_by structural elements

theorem declareElement_eq_leaves (element : Option Pattern) (depth index : Nat) (o : Object κ (Value κ)) :
    Pattern.elementNamedKeys element → depth + Pattern.elementDepth element ≤ c.options.maxPatternDepth →
      (∀ key v, o.get? key = some v → v.HandlerFree) →
      c.declareElement s kind depth o index element =
        c.declareLeaves s kind (Pattern.elementLeaves o index element) := by
  intro hkeys hdepth hfree
  match element with
  | none => rfl
  | some p =>
    rw [Pattern.elementDepth] at hdepth
    rw [Pattern.elementNamedKeys] at hkeys
    rw [declareElement, Pattern.elementLeaves]
    cases hv : o.get? index.repr with
    | none => rfl
    | some v =>
      exact declareAt_eq_leaves p depth (some (.value v)) hkeys hdepth (by simpa using hfree _ _ hv)
termination_by structural element

theorem declareProperties_eq_leaves (properties : List Property) (depth : Nat) (v : Value κ) (part : Part κ) :
    Pattern.propertiesNamedKeys properties →
      depth + Pattern.propertiesDepth properties ≤ c.options.maxPatternDepth → part.HandlerFree → part.Is v →
      c.declareProperties s kind depth v properties =
        c.declareLeaves s kind (Pattern.propertiesLeaves part properties) := by
  intro hkeys hdepth hfree hv
  match properties with
  | [] => rfl
  | property :: rest =>
    simp only [Pattern.propertiesNamedKeys, Bool.and_eq_true] at hkeys
    simp only [Pattern.propertiesDepth] at hdepth
    have ih := declareProperty_eq_leaves property depth v part hkeys.1 (by omega) hfree hv
    have ih' := declareProperties_eq_leaves rest depth v part hkeys.2 (by omega) hfree hv
    rw [declareProperties, Pattern.propertiesLeaves, declareLeaves_append, ih, ih']
termination_by structural properties

theorem declareProperty_eq_leaves (property : Property) (depth : Nat) (v : Value κ) (part : Part κ) :
    property.hasNamedKeys → depth + property.depth ≤ c.options.maxPatternDepth → part.HandlerFree → part.Is v →
      c.declareProperty s kind depth v property = c.declareLeaves s kind (property.leaves part) := by
  intro hkeys hdepth hfree hv
  match property with
  | .rest _ span => rfl
  | .keyed key p computed span =>
    simp only [Property.hasNamedKeys, Bool.and_eq_true, Bool.not_eq_true'] at hkeys
    obtain ⟨⟨hname, rfl⟩, hp⟩ := hkeys
    obtain ⟨name, hname⟩ := Option.isSome_iff_exists.1 hname
    rw [Property.depth] at hdepth
    rw [declareProperty, Property.leaves, hname]
    simp only [declareLeaves_dropped]
    have hkey : c.propertyKey s key false = (do return (← newLiteral (.string name), [])) := by
      unfold Expr.identifier? at hname
      unfold propertyKey
      split at hname <;> cases hname
      next heq => rw [heq]
    simp only [hkey, newLiteral, bind_assoc, pure_bind]
    rw [attributing_bind]
    have hfresh : locating span (fresh : CompileM κ η Nat) = fresh := rfl
    rw [hfresh]
    refine bind_congr fun id => ?_
    rw [c.getMember_eq s hv hfree, attributing_bind]
    cases hmember : part.member? name with
    | error cause => rfl
    | ok found =>
      have ih := declareAt_eq_leaves p depth (some found) hp hdepth (by simpa using hfree.member hmember)
      rw [← ih, Option.mapM_some]
      simp only [locating_bind, found.locating_make, locating_pure, bind_assoc, pure_bind, map_eq_pure_bind]
      refine bind_congr fun v => ?_
      simp [(c.declareAt_attributed s kind depth p (some v)).attributing_eq]
termination_by structural property

end

/-- An initial value is a part that needs not be made. -/
theorem declare_eq_make (p : Pattern) (init : Option (Value κ)) :
    c.declare s kind p init = (do c.declareAt s kind 0 p (← (init.map Part.value).mapM Part.make)) := by
  cases init <;> rfl

end Compiler

/-- Declaring a pattern is declaring its leaves from left to right until the first that fails: the result, the
instructions and the state are the same, whatever the state before. -/
theorem declare_eq_declareLeaves (c : Compiler κ η) (s : Scope) (kind : DeclKind) (p : Pattern)
    (init : Option (Value κ)) (hkeys : p.hasNamedKeys) (hdepth : p.depth ≤ c.options.maxPatternDepth)
    (hfree : ∀ v ∈ init, v.HandlerFree) :
    c.declare s kind p init = c.declareLeaves s kind (p.leaves (init.map .value)) := by
  rw [c.declare_eq_make, c.declareAt_eq_leaves s kind p 0 _ hkeys (by omega) (Part.handlerFree_map hfree)]

/-! ### A pattern with a hole and a length -/

/-- `[a, , {length: n}]` -/
def holed : Pattern :=
  .array [some (.identifier ⟨"a", .onLine 1 7 8⟩), none,
    some (.object [.keyed ⟨.identifier "length", .onLine 1 13 19⟩ (.identifier ⟨"n", .onLine 1 21 22⟩) false
      (.onLine 1 13 22)] (.onLine 1 12 23))] (.onLine 1 6 24)

/-- `[true, true, "xyz"]` -/
def items : Value Unit :=
  .object 3 { members := [("0", .literal 0 (.bool true)), ("1", .literal 1 (.bool true)),
    ("2", .literal 2 (.string "xyz"))] }

theorem items_handlerFree : items.HandlerFree := by
  refine Value.handlerFree_object rfl fun key u hu => ?_
  have hliteral : ∃ id l, u = .literal id l := by
    simp only [Object.get?, Entries.get?] at hu
    repeat (split at hu; · cases hu; exact ⟨_, _, rfl⟩)
    cases hu
  obtain ⟨id, l, rfl⟩ := hliteral
  intro id' o' h
  cases h

/-- The leaves of `holed` in `items`: the hole is skipped, and the length is a new constant. -/
theorem holed_declare_eq_declareLeaves :
    holed.hasNamedKeys ∧ holed.depth = 3 ∧ items.HandlerFree ∧
      (Compiler.standard (κ := Unit) (η := Unit) ⟨fun _ _ _ => return (none, [])⟩).declare ⟨0, 0, 0, []⟩ .const holed
          (some items) =
        (Compiler.standard ⟨fun _ _ _ => return (none, [])⟩).declareLeaves ⟨0, 0, 0, []⟩ .const
          [.bound ⟨"a", .onLine 1 7 8⟩ (some (.value (.literal 0 (.bool true)))), .dropped,
            .bound ⟨"n", .onLine 1 21 22⟩ (some (.length 3))] :=
  ⟨rfl, rfl, items_handlerFree,
    declare_eq_declareLeaves _ _ _ holed (some items) rfl (by decide) (by simpa using items_handlerFree)⟩

end DeclCompiler
