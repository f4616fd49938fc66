import DeclCompiler.Proofs.Likeness
import DeclCompiler.Proofs.Run
import DeclCompiler.Proofs.WholeNumber

/-!
Taking a value apart by position and by key. An array pattern reaches the part at a position, and an object
pattern with a number as a key reaches the part of that name. For an object without handlers of its own both are
the same part, so the two patterns declare the same. All that differs is that a key is a value, which takes an
identity, and what the error says when there is no such part.
-/

namespace DeclCompiler

variable {κ η : Type}

/-! ### Parts by position and by key -/

/-- A part of a pattern, together with the key by which an object pattern reaches it. -/
structure Slot where
  pattern : Pattern
  key : Expr
  computed : Bool
  span : Span

namespace Slot

def property (slot : Slot) : Property := .keyed slot.key slot.pattern slot.computed slot.span

/-- The elements of the array pattern. -/
def elements (slots : List (Option Slot)) : List (Option Pattern) := slots.map (·.map pattern)

/-- The properties of the object pattern, which has none for a hole. -/
def properties (slots : List (Option Slot)) : List Property := slots.filterMap (·.map property)

/-- The key is the number `i`. Larger numbers than `2 ^ 53` do not all have a literal. -/
def IsNumbered (slot : Slot) (i : Nat) : Prop :=
  i ≤ twoPow 53 ∧ ∃ x, slot.key.kind = .literal (.number x) ∧ Binary64.IsNat x i

end Slot

/-- A number as a key reaches the member at that position. -/
theorem Object.member?_number (o : Object κ (Value κ)) {x : Float} {i : Nat} (hi : i ≤ twoPow 53)
    (hx : Binary64.IsNat x i) (id : Nat) : o.member? (.literal id (.number x)) = o.get? i.repr := by
  change o.get? (Numeral.text x) = o.get? i.repr
  rw [Numeral.text_of_isNat hx hi]

namespace Compiler

variable {c : Compiler κ η} {s : Scope} {kind : DeclKind}

/-- A key that is a constant is a new value. -/
theorem propertyKey_literal {host : Host κ η} {externals : List (Nat × Value κ)}
    (hevaluator : c.evaluator = .basic host externals) {key : Expr} {l : Literal} (hkey : key.kind = .literal l)
    (computed : Bool) (w : CompileState κ η) :
    c.propertyKey s key computed w = .ok (.literal w.values l, []) { w with values := w.values + 1 } := by
  obtain ⟨k, span⟩ := key
  change k = .literal l at hkey
  subst hkey
  unfold propertyKey
  rw [hevaluator]
  rfl

/-- Declaring the part under a number, written out. -/
theorem declareProperty_numbered {externals : List (Nat × Value κ)} (hevaluator : c.evaluator = .basic c.host externals)
    {id : Nat} {o : Object κ (Value κ)} (hget : o.handler? .get = none) {slot : Slot} {i : Nat}
    (hslot : slot.IsNumbered i) (depth : Nat) (w : CompileState κ η) :
    c.declareProperty s kind depth (.object id o) slot.property w =
      match o.get? i.repr with
      | none => .error ⟨.undefinedMember, [slot.span]⟩ { w with values := w.values + 1 }
      | some v => c.declareAt s kind depth slot.pattern (some v) { w with values := w.values + 1 } := by
  obtain ⟨hi, x, hkey, hx⟩ := hslot
  have hmember := o.member?_number hi hx w.values
  have hattributed := fun v => (c.declareAt_attributed s kind depth slot.pattern (some v)).attributing_eq slot.span
  have hrun := c.propertyKey_literal (s := s) hevaluator hkey slot.computed w
  have hlocated : locating slot.span (c.propertyKey s slot.key slot.computed) w =
      .ok (.literal w.values (.number x), []) { w with values := w.values + 1 } := by rw [locating, hrun]
  unfold Slot.property
  rw [declareProperty, attributing_bind, bind_of_ok hlocated]
  dsimp only [Value.getMember]
  rw [hmember]
  cases o.get? i.repr with
  | none =>
    rw [hget]
    rfl
  | some v =>
    have hv := congrFun (hattributed v) { w with values := w.values + 1 }
    simpa using hv

end Compiler

/-! ### Both patterns side by side -/

/-- How the errors of the two patterns go together. They are equal, except where a part is missing and where
the patterns themselves are refused. Then each pattern says so in its own way and at its own place. -/
inductive Slot.ErrorsMatch (limit : Nat) (span span' : Span) (o : Object κ (Value κ)) (index : Nat)
    (slots : List (Option Slot)) : CompileError → CompileError → Prop
  | same (e : CompileError) : ErrorsMatch limit span span' o index slots e e
  | missing {i slot} (hslot : slots[i]? = some (some slot)) (hmember : o.get? (index + i).repr = none) :
    ErrorsMatch limit span span' o index slots ⟨.missingIndex (index + i), [slot.pattern.span]⟩
      ⟨.undefinedMember, [slot.span]⟩
  | tooDeep (h : limit = 0) :
    ErrorsMatch limit span span' o index slots ⟨.patternTooDeep 0, [span]⟩ ⟨.patternTooDeep 0, [span']⟩

theorem Slot.ErrorsMatch.cons {limit : Nat} {span span' : Span} {o : Object κ (Value κ)} {index : Nat}
    {slots : List (Option Slot)} {e e' : CompileError} (slot : Option Slot)
    (h : ErrorsMatch limit span span' o (index + 1) slots e e') :
    ErrorsMatch limit span span' o index (slot :: slots) e e' := by
  cases h with
  | same => exact .same e
  | tooDeep h => exact .tooDeep h
  | @missing i slot' hslot hmember =>
    have hindex : index + 1 + i = index + (i + 1) := by omega
    rw [hindex] at hmember ⊢
    exact .missing (by simpa using hslot) hmember

section Slots

variable {L : Likeness κ η} {ρ : Pairing} {c : Compiler κ η} {externals : List (Nat × Value κ)} {s : Scope}
  {kind : DeclKind} {id : Nat} {o : Object κ (Value κ)} {limit : Nat} {span span' : Span}

/-- One part is declared alike by position and by key. -/
theorem mirrors_slot (hnames : ∀ a b, L.names a b → a = b) (hc : L.correspondence.CompilersAlike s ρ c c)
    (hevaluator : c.evaluator = .basic c.host externals) (ho : (Value.object id o).Alike L ρ (.object id o))
    (hget : o.handler? .get = none) {slot : Slot} {index : Nat} (hslot : slot.IsNumbered index)
    (rest : List (Option Slot)) (depth : Nat) :
    L.correspondence.Mirrors (Slot.ErrorsMatch limit span span' o index (some slot :: rest)) L.correspondence.code ρ
      (c.declareElement s kind depth o index (some slot.pattern))
      (c.declareProperty s kind depth (.object id o) slot.property) := by
  intro w w' hw
  rw [Compiler.declareProperty_numbered hevaluator hget hslot, Compiler.declareElement]
  obtain ⟨hv, -⟩ | ⟨v, v', hv, hv', hvv⟩ := optionRel_cases (ho.get? index.repr)
  · rw [hv]
    exact .error (le_refl ρ) hw.skip (.missing (i := 0) rfl hv)
  · obtain rfl : v = v' := Option.some.inj (hv.symm.trans hv')
    rw [hv]
    exact ((L.laws s).mirrors_declareAt hc depth slot.pattern (.some hvv) w _ hw.skip).weaken (le_refl ρ)
      fun e e' he => he.eq hnames ▸ .same e

theorem mirrors_slots (hnames : ∀ a b, L.names a b → a = b) (hc : L.correspondence.CompilersAlike s ρ c c)
    (hevaluator : c.evaluator = .basic c.host externals) (ho : (Value.object id o).Alike L ρ (.object id o))
    (hget : o.handler? .get = none) {slots : List (Option Slot)} {index : Nat}
    (hslots : ∀ (i : Nat) (slot : Slot), slots[i]? = some (some slot) → slot.IsNumbered (index + i)) (depth : Nat) :
    L.correspondence.Mirrors (Slot.ErrorsMatch limit span span' o index slots) L.correspondence.code ρ
      (c.declareElements s kind depth o index (Slot.elements slots))
      (c.declareProperties s kind depth (.object id o) (Slot.properties slots)) := by
  induction slots generalizing ρ index with
  | nil => exact .pure .nil
  | cons slot rest ih =>
    have hrest : ∀ (i : Nat) (slot : Slot), rest[i]? = some (some slot) → slot.IsNumbered (index + 1 + i) := by
      intro i slot' hslot'
      have hindex : index + 1 + i = index + (i + 1) := by omega
      rw [hindex]
      exact hslots (i + 1) slot' (by simpa using hslot')
    have hlater := fun (ρ' : Pairing) (hρ : ρ ≤ ρ') =>
      (ih (hc.mono hρ) (ho.mono hρ) hrest).weaken fun e e' he => he.cons slot
    cases slot with
    | none =>
      -- A hole is an element that declares nothing, and it has no property at all.
      have hhole : c.declareElements s kind depth o index (Slot.elements (none :: rest)) =
          c.declareElements s kind depth o (index + 1) (Slot.elements rest) := by
        simp [Slot.elements, Compiler.declareElements, Compiler.declareElement]
      rw [hhole]
      exact hlater ρ (le_refl ρ)
    | some slot =>
      have hslot : slot.IsNumbered index := hslots 0 slot rfl
      have helements : Slot.elements (some slot :: rest) = some slot.pattern :: Slot.elements rest := rfl
      have hproperties : Slot.properties (some slot :: rest) = slot.property :: Slot.properties rest := rfl
      rw [helements, hproperties, Compiler.declareElements, Compiler.declareProperties]
      refine (mirrors_slot hnames hc hevaluator ho hget hslot rest depth).bind fun ρ₁ hρ₁ code code' hcode => ?_
      refine (hlater ρ₁ hρ₁).bind fun ρ₂ hρ₂ more more' hmore => ?_
      exact .pure (List.rel_append ((L.laws s).code_mono hcode hρ₂) hmore)

variable (s id) in
/-- An object without handlers of its own is consumed as it is. -/
theorem consume_object (host : Host κ η) (heval : o.handler? .eval = none) (hconsume : o.handler? .consume = none) :
    (Value.object id o).consume host s = (pure (.object id o, []) : CompileM κ η (Computed κ)) := by
  unfold Value.consume Value.eval
  dsimp only
  rw [hconsume, heval]
  rfl

/-- The basic evaluator makes a compiler that is alike to itself, if its host is and the external expressions are. -/
theorem Compiler.alike_self (hhost : c.host.Alike L c.host) (hevaluator : c.evaluator = .basic c.host externals)
    (hexternals : ∀ i v, Entries.get? i externals = some v → v.Alike L ρ v) :
    L.correspondence.CompilersAlike s ρ c c := by
  refine (L.laws s).compilersAlike_basic (fun i => ?_) (hhost.hostsAlike s) hevaluator hevaluator rfl
    fun id => L.names_refl _
  cases hv : Entries.get? i externals with
  | none => exact .none
  | some v => exact .some (hexternals i v hv)

end Slots

/-- An array pattern, and the object pattern that has for each element, in order, the property with its position
as the key, declare alike from one state. Both succeed or both fail. Name tables, counters and instructions are the
same up to the identities of new values, and the errors go together. -/
theorem array_declares_like_object (L : Likeness κ η) (hnames : ∀ a b, L.names a b → a = b) {c : Compiler κ η}
    (hhost : c.host.Alike L c.host) {externals : List (Nat × Value κ)}
    (hevaluator : c.evaluator = .basic c.host externals) (s : Scope) (kind : DeclKind) {id : Nat}
    {o : Object κ (Value κ)} (hget : o.handler? .get = none) (heval : o.handler? .eval = none)
    (hconsume : o.handler? .consume = none) {slots : List (Option Slot)}
    (hslots : ∀ (i : Nat) (slot : Slot), slots[i]? = some (some slot) → slot.IsNumbered i) (span span' : Span)
    {w : CompileState κ η} (hw : w.Alike L (.upTo w.values) w)
    (hexternals : ∀ i v, Entries.get? i externals = some v → v.Alike L (.upTo w.values) v)
    (ho : (Value.object id o).Alike L (.upTo w.values) (.object id o)) :
    L.correspondence.EndAlike (Slot.ErrorsMatch c.options.maxPatternDepth span span' o 0 slots) L.correspondence.code
      (.upTo w.values)
      (c.declare s kind (.array (Slot.elements slots) span) (some (.object id o)) w)
      (c.declare s kind (.object (Slot.properties slots) span') (some (.object id o)) w) := by
  have hc := Compiler.alike_self (s := s) hhost hevaluator hexternals
  have hfrom : ∀ (i : Nat) (slot : Slot), slots[i]? = some (some slot) → slot.IsNumbered (0 + i) := by
    simpa using hslots
  have harray := (c.declareElements_attributed s kind 1 o 0 (Slot.elements slots)).attributing_eq span
  have hobject := (c.declareProperties_attributed s kind 1 (.object id o) (Slot.properties slots)).attributing_eq span'
  unfold Compiler.declare
  rw [Compiler.declareAt, Compiler.declareAt]
  split
  next hlimit =>
    have hzero : c.options.maxPatternDepth = 0 := by omega
    rw [hzero]
    exact .error (le_refl _) hw (.tooDeep rfl)
  next =>
    have hconsumed := consume_object s id c.host heval hconsume
    simp only [Compiler.arrayObject, pure_bind, hconsumed, List.nil_append, bind_pure, Pattern.span, Nat.zero_add,
      harray, hobject]
    exact mirrors_slots hnames hc hevaluator ho hget hfrom 1 w w hw

/-! ### Parts that are read through a handler -/

/-- Host code that refuses every call asks for no identity. -/
theorem Host.inert_alike (L : Likeness κ η) : (Host.inert κ η).Alike L (.inert κ η) := by
  intro ρ code code' s arguments arguments' _ ha
  have hlength := ha.length_eq
  simp only [Host.inert, hlength]
  exact .throw (.refl _)

/-- Variables keep their names, and the host has nothing to tell apart. -/
def Likeness.named : Likeness Unit Unit where
  names := Eq
  codes _ _ _ := True
  handlers _ _ _ := True
  hosts _ _ _ := True
  names_refl _ := rfl
  codes_mono _ _ := trivial
  handlers_mono _ _ := trivial
  hosts_mono _ _ := trivial

/-- A root scope, and three values. -/
def CompileState.withThree : CompileState Unit Unit := { (CompileState.initial ()).addRoot.2 with values := 3 }

theorem CompileState.withThree_alike : withThree.Alike .named (.upTo withThree.values) withThree := by
  have hsound : withThree.Sound fun _ => 0 := sound_of_empty rfl rfl
  exact .of_sound hsound (fun _ _ => ⟨rfl, rfl⟩) (fun _ _ => ⟨trivial, trivial⟩) trivial

/-- An object with a constant at 0 and, at 2, an object whose members are links. -/
def linked : Object Unit (Value Unit) where
  members := [("0", .literal 0 (.bool true)), ("2", .object 1 { handlers := [(.get, .getLink)] })]

theorem linked_made : (Value.object 2 linked).Made (fun _ => 0) 3 := by
  have hlinks : (Value.object 1 { handlers := [(.get, .getLink)] } : Value Unit).Made (fun _ => 0) 3 := by
    refine .object (by decide) (fun key v h => by cases h) fun handler f h => ?_
    simp only [Object.handler?, Entries.get?] at h
    split at h <;> cases h
    trivial
  refine .object (by decide) (fun key v h => ?_) (fun handler f h => by cases h)
  simp only [Object.get?, linked, Entries.get?] at h
  split at h
  · cases h
    exact .literal (by decide)
  · split at h <;> cases h
    exact hlinks

/-- `[a, , {2: b}]` or `{0: a, [2]: {2: b}}` -/
def linkedSlots : List (Option Slot) :=
  let two : Expr := ⟨.literal (.number (Float.ofBits 0x4000000000000000)), .onLine 1 20 21⟩
  [some ⟨.identifier ⟨"a", .onLine 1 6 7⟩, ⟨.literal (.number (Float.ofBits 0)), .onLine 1 3 4⟩, false, .onLine 1 3 7⟩,
    none,
    some ⟨.object [.keyed two (.identifier ⟨"b", .onLine 1 15 16⟩) false (.onLine 1 12 16)] (.onLine 1 11 17),
      two, true, .onLine 1 8 17⟩]

theorem linkedSlots_numbered (i : Nat) (slot : Slot) (h : linkedSlots[i]? = some (some slot)) : slot.IsNumbered i := by
  match i with
  | 0 =>
    cases h
    exact ⟨by decide, _, rfl, by decide, by decide +kernel⟩
  | 1 => cases h
  | 2 =>
    cases h
    exact ⟨by decide, _, rfl, by decide, by decide +kernel⟩
  | _ + 3 => cases h

/-- The link that `b` is set to is read through the handler. -/
theorem linked_declares_like_object :
    ∃ code w code' w' ρ,
      Compiler.declare (.standard (.inert Unit Unit)) ⟨0, 0, 0, []⟩ .letDecl
          (.array (Slot.elements linkedSlots) (.onLine 1 1 18)) (some (.object 2 linked)) .withThree = .ok code w ∧
      Compiler.declare (.standard (.inert Unit Unit)) ⟨0, 0, 0, []⟩ .letDecl
          (.object (Slot.properties linkedSlots) (.onLine 1 1 18)) (some (.object 2 linked)) .withThree =
        .ok code' w' ∧
      code.map Instruction.opcode = [.set, .getLink, .set] ∧
      .upTo 3 ≤ ρ ∧ w.Alike .named ρ w' ∧ CodeAlike (Value.Alike .named ρ) code code' := by
  have hobject : (Value.object 2 linked).Alike .named (.upTo CompileState.withThree.values) (.object 2 linked) :=
    .of_made (fun _ _ => ⟨trivial, trivial⟩) linked_made
  have hend := array_declares_like_object (c := .standard (.inert Unit Unit)) (w := .withThree) .named (fun _ _ h => h)
    (Host.inert_alike _) rfl ⟨0, 0, 0, []⟩ .letDecl rfl rfl rfl linkedSlots_numbered (.onLine 1 1 18) (.onLine 1 1 18)
    CompileState.withThree_alike (fun i v h => by cases h) hobject
  have hrun : Compiler.declare (.standard (.inert Unit Unit)) ⟨0, 0, 0, []⟩ .letDecl
    (.array (Slot.elements linkedSlots) (.onLine 1 1 18)) (some (.object 2 linked)) .withThree = .ok _ _ := rfl
  rw [hrun] at hend
  cases hrun' : Compiler.declare (.standard (.inert Unit Unit)) ⟨0, 0, 0, []⟩ .letDecl
      (.object (Slot.properties linkedSlots) (.onLine 1 1 18)) (some (.object 2 linked)) .withThree with
  | ok code' w' =>
    rw [hrun'] at hend
    cases hend with
    | ok hρ hw hcode => exact ⟨_, _, code', w', _, hrun, rfl, rfl, hρ, hw, hcode⟩
  | error e' w' =>
    rw [hrun'] at hend
    cases hend

end DeclCompiler
