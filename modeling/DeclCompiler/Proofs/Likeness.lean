import DeclCompiler.Proofs.Correspondence

/-!
Compilations that are alike.

Two compilations may differ in the identities that they give to their values, and in how they name the variables
of the program. A pairing says which identity of the one stands for which of the other. Values, instructions and
states are alike if they differ in nothing else. What host code and the host's own state have to share is left to
the host to say.

Nothing that a declaration does depends on identities or on names of variables, so likeness is a correspondence, and
two declarations of one pattern mirror each other, provided that the handlers of the host do.
-/

namespace DeclCompiler

variable {κ η : Type}

/-! ### Pairings -/

/-- Which identity of one compilation stands for which identity of another. -/
structure Pairing where
  pairs : Nat → Nat → Prop
  left : ∀ {a b b'}, pairs a b → pairs a b' → b = b'
  right : ∀ {a a' b}, pairs a b → pairs a' b → a = a'

/-- A pairing grows as values are made. -/
instance : Preorder Pairing where
  le ρ ρ' := ∀ a b, ρ.pairs a b → ρ'.pairs a b
  le_refl _ _ _ h := h
  le_trans _ _ _ h h' a b hab := h' a b (h a b hab)

namespace Pairing

/-- Every identity below `n` stands for itself. -/
def upTo (n : Nat) : Pairing where
  pairs a b := a = b ∧ a < n
  left h h' := h.1.symm.trans h'.1
  right h h' := h.1.trans h'.1.symm

/-- Pairs two identities that had no counterpart. -/
def extend (ρ : Pairing) (a b : Nat) (ha : ∀ y, ¬ ρ.pairs a y) (hb : ∀ x, ¬ ρ.pairs x b) : Pairing where
  pairs x y := ρ.pairs x y ∨ x = a ∧ y = b
  left := by
    rintro x y y' (h | ⟨rfl, rfl⟩) (h' | ⟨hx, rfl⟩)
    · exact ρ.left h h'
    · exact absurd (hx ▸ h) (ha y)
    · exact absurd h' (ha y')
    · rfl
  right := by
    rintro x x' y (h | ⟨rfl, rfl⟩) (h' | ⟨rfl, hy⟩)
    · exact ρ.right h h'
    · exact absurd (hy ▸ h) (hb x)
    · exact absurd h' (hb x')
    · rfl

theorem eq_iff (ρ : Pairing) {a a' b b' : Nat} (h : ρ.pairs a b) (h' : ρ.pairs a' b') : a = a' ↔ b = b' :=
  ⟨fun e => ρ.left h (e ▸ h'), fun e => ρ.right h (e ▸ h')⟩

end Pairing

/-! ### Values -/

/-- What two compilations share beyond the content of values. Function values hold on to code, and objects have
handlers, which are called; what is alike stays alike when more values are paired. -/
structure Likeness (κ η : Type) where
  names : String → String → Prop
  codes : Pairing → κ → κ → Prop
  handlers : Pairing → κ → κ → Prop
  hosts : Pairing → η → η → Prop
  names_refl : ∀ name, names name name
  codes_mono : ∀ {ρ ρ' c c'}, ρ ≤ ρ' → codes ρ c c' → codes ρ' c c'
  handlers_mono : ∀ {ρ ρ' c c'}, ρ ≤ ρ' → handlers ρ c c' → handlers ρ' c c'
  hosts_mono : ∀ {ρ ρ' h h'}, ρ ≤ ρ' → hosts ρ h h' → hosts ρ' h h'

inductive MacroFn.Alike (codes : κ → κ → Prop) : MacroFn κ → MacroFn κ → Prop
  | getLink : Alike codes .getLink .getLink
  | host {name code code'} (h : codes code code') : Alike codes (.host name code) (.host name code')

/-- Two values of the same content whose identities are paired, and so on for all that is in them. -/
inductive Value.Alike (L : Likeness κ η) (ρ : Pairing) : Value κ → Value κ → Prop
  | void {id id'} (h : ρ.pairs id id') : Alike L ρ (.void id) (.void id')
  | literal {id id' l} (h : ρ.pairs id id') : Alike L ρ (.literal id l) (.literal id' l)
  | store {id id' name name' temporary} (h : ρ.pairs id id') (hname : L.names name name') :
    Alike L ρ (.store id name temporary) (.store id' name' temporary)
  | object {id id' o o'} (h : ρ.pairs id id') (hkeys : o.keys = o'.keys)
      (hmembers : ∀ key v v', o.get? key = some v → o'.get? key = some v' → Alike L ρ v v')
      (hhandlers : o.handlers.map Prod.fst = o'.handlers.map Prod.fst)
      (hfunctions : ∀ h f f', o.handler? h = some f → o'.handler? h = some f' → f.Alike (L.handlers ρ) f') :
    Alike L ρ (.object id o) (.object id' o')
  | function {id id' f f'} (h : ρ.pairs id id') (hf : f.Alike (L.codes ρ) f') :
    Alike L ρ (.function id f) (.function id' f')

variable {L : Likeness κ η} {ρ ρ' : Pairing}

theorem Entries.rel_get? {α β γ : Type} [DecidableEq α] {R : β → γ → Prop} {entries : List (α × β)}
    {entries' : List (α × γ)} (hkeys : entries.map Prod.fst = entries'.map Prod.fst)
    (h : ∀ k v v', Entries.get? k entries = some v → Entries.get? k entries' = some v' → R v v') (k : α) :
    Option.Rel R (Entries.get? k entries) (Entries.get? k entries') := by
  have hnone : Entries.get? k entries = none ↔ Entries.get? k entries' = none := by
    rw [Entries.get?_eq_none_iff, Entries.get?_eq_none_iff, hkeys]
  cases hv : Entries.get? k entries with
  | none =>
    rw [hnone.1 hv]
    exact .none
  | some v =>
    cases hv' : Entries.get? k entries' with
    | none => rw [hnone.2 hv'] at hv; cases hv
    | some v' => exact .some (h k v v' hv hv')

theorem MacroFn.Alike.mono {codes codes' : κ → κ → Prop} {f f' : MacroFn κ} (h : f.Alike codes f')
    (hcodes : ∀ c c', codes c c' → codes' c c') : f.Alike codes' f' := by
  cases h with
  | getLink => exact .getLink
  | host h => exact .host (hcodes _ _ h)

theorem MacroFn.Alike.of_made {codes : κ → κ → Prop} {born : κ → Nat} {n : Nat} {f : MacroFn κ}
    (hcodes : ∀ code, born code ≤ n → codes code code) (h : f.Made born n) : f.Alike codes f := by
  cases f with
  | getLink => exact .getLink
  | host name code => exact .host (hcodes code h)

namespace Value.Alike

variable {v v' : Value κ}

theorem mono (h : v.Alike L ρ v') (hρ : ρ ≤ ρ') : v.Alike L ρ' v' := by
  induction h with
  | void h => exact .void (hρ _ _ h)
  | literal h => exact .literal (hρ _ _ h)
  | store h hname => exact .store (hρ _ _ h) hname
  | object h hkeys _ hhandlers hfunctions ih =>
    exact .object (hρ _ _ h) hkeys ih hhandlers fun handler f f' hf hf' =>
      (hfunctions handler f f' hf hf').mono fun _ _ => L.handlers_mono hρ
  | function h hf => exact .function (hρ _ _ h) (hf.mono fun _ _ => L.codes_mono hρ)

theorem paired (h : v.Alike L ρ v') : ρ.pairs v.id v'.id := by
  cases h <;> assumption

theorem text (h : v.Alike L ρ v') : L.names v.text v'.text := by
  cases h with
  | void | literal | object => exact L.names_refl _
  | store _ hname => exact hname
  | function _ hf => cases hf <;> exact L.names_refl _

/-- A value that exists is alike to itself, if host code that holds on to existing values is. -/
theorem of_made {born : κ → Nat} {n : Nat}
    (hcodes : ∀ code, born code ≤ n → L.codes (.upTo n) code code ∧ L.handlers (.upTo n) code code)
    (h : v.Made born n) : v.Alike L (.upTo n) v := by
  induction h with
  | void h => exact .void ⟨rfl, h⟩
  | literal h => exact .literal ⟨rfl, h⟩
  | store h => exact .store ⟨rfl, h⟩ (L.names_refl _)
  | object h hmembers hhandlers ih =>
    refine .object ⟨rfl, h⟩ rfl (fun key v v' hv hv' => ?_) rfl fun handler f f' hf hf' => ?_
    · obtain rfl : v = v' := Option.some.inj (hv.symm.trans hv')
      exact ih key v hv
    · obtain rfl : f = f' := Option.some.inj (hf.symm.trans hf')
      exact .of_made (fun code hcode => (hcodes code hcode).2) (hhandlers handler f hf)
  | function h hf => exact .function ⟨rfl, h⟩ (.of_made (fun code hcode => (hcodes code hcode).1) hf)

variable {id id' : Nat} {o o' : Object κ (Value κ)}

theorem get? (h : (Value.object id o).Alike L ρ (.object id' o')) (key : String) :
    Option.Rel (Value.Alike L ρ) (o.get? key) (o'.get? key) := by
  cases h with
  | object _ hkeys hmembers => exact Entries.rel_get? hkeys hmembers key

end Value.Alike

/-! ### States -/

namespace CompileState

/-- Nothing is on record about values that are still to be made. -/
def Unrecorded (w : CompileState κ η) : Prop :=
  ∀ id, w.values ≤ id → Entries.get? id w.owners = none ∧ Entries.get? id w.mutabilities = none

theorem Unrecorded.setMutability {w : CompileState κ η} (hw : w.Unrecorded) {v : Value κ} (hv : v.id < w.values)
    (m : Mutability) : (w.setMutability v m).Unrecorded := by
  intro id hid
  change w.values ≤ id at hid
  refine ⟨(hw id hid).1, ?_⟩
  rw [CompileState.setMutability, Entries.get?_put, if_neg (by omega)]
  exact (hw id hid).2

theorem Unrecorded.enter {w : CompileState κ η} (hw : w.Unrecorded) {b : Binding κ} (hb : b.value.id < w.values)
    (s : Scope) : (w.enter s b).Unrecorded := by
  intro id hid
  change w.values ≤ id at hid
  refine ⟨?_, (hw id hid).2⟩
  rw [CompileState.enter]
  split
  · exact (hw id hid).1
  · rw [Entries.get?_put, if_neg (by omega)]
    exact (hw id hid).1

/-- Paired values exist, and all that is on record about them is the same. -/
structure Alike (L : Likeness κ η) (ρ : Pairing) (w w' : CompileState κ η) : Prop where
  made : ∀ a b, ρ.pairs a b → a < w.values ∧ b < w'.values
  tables : ∀ i : Nat, TableAlike L.names (Value.Alike L ρ) w.tables[i]? w'.tables[i]?
  counters : w.counters = w'.counters
  owners : ∀ a b, ρ.pairs a b → Entries.get? a w.owners = Entries.get? b w'.owners
  mutabilities : ∀ a b, ρ.pairs a b → Entries.get? a w.mutabilities = Entries.get? b w'.mutabilities
  unrecorded : w.Unrecorded
  unrecorded' : w'.Unrecorded
  host : L.hosts ρ w.host w'.host

namespace Alike

variable {w w' : CompileState κ η}

/-- A state in which all that is bound exists is alike to itself. -/
theorem of_sound {born : κ → Nat} (hw : w.Sound born) (hunrecorded : w.Unrecorded)
    (hcodes : ∀ code, born code ≤ w.values →
      L.codes (.upTo w.values) code code ∧ L.handlers (.upTo w.values) code code)
    (hhost : L.hosts (.upTo w.values) w.host w.host) : w.Alike L (.upTo w.values) w where
  made := by
    rintro a b ⟨rfl, h⟩
    exact ⟨h, h⟩
  tables i := by
    cases ht : w.tables[i]? with
    | none => exact .none
    | some t =>
      cases t with
      | none => exact .some .none
      | some bindings =>
        refine .some (.some (List.forall₂_same.2 fun b hb => ?_))
        exact ⟨rfl, L.names_refl _, rfl, .of_made hcodes (hw.bindings i bindings ht b hb), rfl⟩
  counters := rfl
  owners := by
    rintro a b ⟨rfl, -⟩
    rfl
  mutabilities := by
    rintro a b ⟨rfl, -⟩
    rfl
  unrecorded := hunrecorded
  unrecorded' := hunrecorded
  host := hhost

/-! ### Views of states that are alike -/

theorem own? (h : w.Alike L ρ w') (i : Nat) (identifier : String) :
    Option.Rel (Binding.Alike L.names (Value.Alike L ρ)) (w.own? i identifier) (w'.own? i identifier) :=
  (h.tables i).own? identifier

theorem lookup? (h : w.Alike L ρ w') (s : Scope) (identifier : String) :
    Option.Rel (Binding.Alike L.names (Value.Alike L ρ)) (w.lookup? s identifier) (w'.lookup? s identifier) := by
  unfold CompileState.lookup?
  induction s.chain with
  | nil => exact .none
  | cons i rest ih =>
    rw [List.findSome?_cons, List.findSome?_cons]
    obtain ⟨hb, hb'⟩ | ⟨b, b', hb, hb', hbinding⟩ := optionRel_cases (h.own? i identifier)
    · rw [hb, hb']
      exact ih
    · rw [hb, hb']
      exact .some hbinding

theorem mutability (h : w.Alike L ρ w') {v v' : Value κ} (hv : v.Alike L ρ v') : w.mutability v = w'.mutability v' := by
  cases hv with
  | store hid => exact congrArg (·.getD .writable) (h.mutabilities _ _ hid)
  | void | literal | object | function => rfl

theorem owner?_isSome (h : w.Alike L ρ w') {v v' : Value κ} (hv : v.Alike L ρ v') :
    (w.owner? v).isSome = (w'.owner? v').isSome := by
  unfold CompileState.owner?
  rw [h.owners _ _ hv.paired]
  cases Entries.get? v'.id w'.owners with
  | none => rfl
  | some owner => exact optionRel_isSome (h.own? owner.table owner.identifier)

/-! ### Changes of states that are alike -/

/-- A value that only one of the two compilations makes stands for nothing. -/
theorem skip (h : w.Alike L ρ w') : w.Alike L ρ { w' with values := w'.values + 1 } where
  made a b hab := ⟨(h.made a b hab).1, Nat.lt_succ_of_lt (h.made a b hab).2⟩
  tables := h.tables
  counters := h.counters
  owners := h.owners
  mutabilities := h.mutabilities
  unrecorded := h.unrecorded
  unrecorded' id hid := h.unrecorded' id (Nat.le_of_succ_le hid)
  host := h.host

/-- The next values of both compilations can be paired. -/
theorem next (h : w.Alike L ρ w') :
    ∃ ρ', ρ ≤ ρ' ∧ ρ'.pairs w.values w'.values ∧
      ({ w with values := w.values + 1 } : CompileState κ η).Alike L ρ' { w' with values := w'.values + 1 } := by
  have hnew : ∀ y, ¬ ρ.pairs w.values y := fun y hy => Nat.lt_irrefl _ (h.made _ _ hy).1
  have hnew' : ∀ x, ¬ ρ.pairs x w'.values := fun x hx => Nat.lt_irrefl _ (h.made _ _ hx).2
  have hle : ρ ≤ ρ.extend w.values w'.values hnew hnew' := fun a b hab => .inl hab
  obtain ⟨howner, hmutability⟩ := h.unrecorded w.values (Nat.le_refl _)
  obtain ⟨howner', hmutability'⟩ := h.unrecorded' w'.values (Nat.le_refl _)
  refine ⟨_, hle, .inr ⟨rfl, rfl⟩, ?_⟩
  exact {
    made := by
      rintro a b (hab | ⟨rfl, rfl⟩)
      · exact ⟨Nat.lt_succ_of_lt (h.made a b hab).1, Nat.lt_succ_of_lt (h.made a b hab).2⟩
      · exact ⟨Nat.lt_succ_self _, Nat.lt_succ_self _⟩
    tables := fun i => (h.tables i).imp fun _ _ hv => hv.mono hle
    counters := h.counters
    owners := by
      rintro a b (hab | ⟨rfl, rfl⟩)
      · exact h.owners a b hab
      · exact howner.trans howner'.symm
    mutabilities := by
      rintro a b (hab | ⟨rfl, rfl⟩)
      · exact h.mutabilities a b hab
      · exact hmutability.trans hmutability'.symm
    unrecorded := fun id hid => h.unrecorded id (Nat.le_of_succ_le hid)
    unrecorded' := fun id hid => h.unrecorded' id (Nat.le_of_succ_le hid)
    host := L.hosts_mono hle h.host }

theorem addTemporary (h : w.Alike L ρ w') (s : Scope) : (w.addTemporary s).2.Alike L ρ (w'.addTemporary s).2 where
  made := h.made
  tables := h.tables
  counters := by simp only [CompileState.addTemporary, h.counters]
  owners := h.owners
  mutabilities := h.mutabilities
  unrecorded := h.unrecorded
  unrecorded' := h.unrecorded'
  host := h.host

theorem setMutability (h : w.Alike L ρ w') {v v' : Value κ} (hv : v.Alike L ρ v') (m : Mutability) :
    (w.setMutability v m).Alike L ρ (w'.setMutability v' m) where
  made := h.made
  tables := h.tables
  counters := h.counters
  owners := h.owners
  mutabilities a b hab := by
    have heq := ρ.eq_iff hab hv.paired
    simp only [CompileState.setMutability, Entries.get?_put, heq, h.mutabilities a b hab]
  unrecorded := h.unrecorded.setMutability (h.made _ _ hv.paired).1 m
  unrecorded' := h.unrecorded'.setMutability (h.made _ _ hv.paired).2 m
  host := h.host

theorem enter (h : w.Alike L ρ w') (s : Scope) {b b' : Binding κ} (hb : b.Alike L.names (Value.Alike L ρ) b') :
    (w.enter s b).Alike L ρ (w'.enter s b') where
  made := h.made
  tables i := by
    by_cases hi : s.table = i
    · rw [← hi]
      exact (h.tables s.table).enter hb
    · rw [tables_enter, tables_enter, if_neg hi, if_neg hi]
      exact h.tables i
  counters := h.counters
  owners a a' ha := by
    have heq := ρ.eq_iff ha hb.value.paired
    simp only [CompileState.enter, h.owner?_isSome hb.value, hb.identifier]
    split
    · exact h.owners a a' ha
    · simp only [Entries.get?_put, heq, h.owners a a' ha]
  mutabilities := h.mutabilities
  unrecorded := h.unrecorded.enter (h.made _ _ hb.value.paired).1 s
  unrecorded' := h.unrecorded'.enter (h.made _ _ hb.value.paired).2 s
  host := h.host

end Alike

end CompileState

/-! ### The correspondence -/

/-- Likeness as a correspondence, whose worlds are the pairings. -/
abbrev Likeness.correspondence (L : Likeness κ η) : Correspondence Pairing κ η where
  names := L.names
  values := Value.Alike L
  functions ρ := MacroFn.Alike (L.handlers ρ)
  states := CompileState.Alike L

theorem Value.Alike.sameShape {v v' : Value κ} (h : v.Alike L ρ v') :
    v.SameShape (Value.Alike L ρ) (MacroFn.Alike (L.handlers ρ)) v' := by
  cases h with
  | void => exact .void _ _
  | literal => exact .literal _ _ _
  | store => exact .store _ _ _ _ _
  | object h hkeys hmembers hhandlers hfunctions =>
    exact .object _ _ (Entries.rel_get? hkeys hmembers) (Entries.rel_get? hhandlers hfunctions)
  | function => exact .function _ _ _ _

theorem Likeness.laws (L : Likeness κ η) (s : Scope) : L.correspondence.Laws s where
  mono hρ hv := hv.mono hρ
  text hv := hv.text
  shape hv := hv.sameShape
  own hw name := optionRel_isSome (hw.own? s.table name)
  lookup hw name := optionRel_mono (fun _ _ hb => hb.value) (hw.lookup? s name)
  mutability hw hv := hw.mutability hv
  next hw := by
    obtain ⟨ρ', hρ, hpair, hnext⟩ := hw.next
    exact ⟨ρ', hρ, hnext, fun l => .literal hpair, fun name name' hname => .store hpair hname⟩
  enter hw hb := hw.enter s hb
  setMutability hw hv m := hw.setMutability hv m

/-! ### Handlers -/

/-- Handlers of the host that are alike, called with arguments that are alike, mirror each other. In particular
they do not ask for the number of an identity. -/
def Host.Alike (L : Likeness κ η) (host host' : Host κ η) : Prop :=
  ∀ ρ code code' s arguments arguments', L.handlers ρ code code' →
    List.Forall₂ (Value.Alike L ρ) arguments arguments' →
    L.correspondence.Mirrors L.correspondence.errors L.correspondence.called ρ (host.invoke code s arguments)
      (host'.invoke code' s arguments')

theorem mirrors_makeTemporary (failed : CompileError → CompileError → Prop) (s : Scope) :
    L.correspondence.Mirrors failed (Value.Alike L) ρ (s.makeTemporary : CompileM κ η (Value κ)) s.makeTemporary := by
  intro w w' hw
  obtain ⟨ρ', hρ, hpair, hnext⟩ := (hw.addTemporary s).next
  have hcounters : w.countersOf s = w'.countersOf s := by simp only [CompileState.countersOf, hw.counters]
  refine .ok hρ hnext (.store hpair ?_)
  rw [hcounters]
  exact L.names_refl _

theorem mirrors_callGetLink {s : Scope} {arguments arguments' : List (Value κ)}
    (ha : List.Forall₂ (Value.Alike L ρ) arguments arguments') :
    L.correspondence.Mirrors L.correspondence.errors L.correspondence.called ρ (callGetLink s arguments)
      (callGetLink s arguments') := by
  cases ha with
  | nil => exact .throw (.refl _)
  | cons hindex hrest =>
    cases hrest with
    | cons hnext hmore =>
      have hlength := hmore.length_eq
      unfold callGetLink
      simp only [List.length_cons, hlength]
      exact .throw (.refl _)
    | nil =>
      have hread : ∀ index index' : Value κ, index.Alike L ρ index' →
          L.correspondence.Mirrors L.correspondence.errors L.correspondence.called ρ
            (do let output ← s.makeTemporary; return (some output, [.getLink output index]))
            (do let output ← s.makeTemporary; return (some output, [.getLink output index'])) := by
        intro index index' h
        refine (mirrors_makeTemporary _ s).bind fun ρ' hρ output output' ho => .pure ⟨.some ho, ?_⟩
        exact .cons (.into ho (.cons (h.mono hρ) .nil)) .nil
      cases hindex with
      | void | object | function => exact .throw (.refl _)
      | store h hname => exact hread _ _ (.store h hname)
      | @literal id id' l h =>
        cases l with
        | number => exact hread _ _ (.literal h)
        | string | bool => exact .throw (.refl _)

theorem Host.Alike.hostsAlike {host host' : Host κ η} (h : host.Alike L host') (s : Scope) :
    L.correspondence.HostsAlike s host host' := by
  intro ρ f f' arguments arguments' hf ha
  cases hf with
  | getLink => exact mirrors_callGetLink ha
  | host hcode => exact h ρ _ _ s arguments arguments' hcode ha

end DeclCompiler
