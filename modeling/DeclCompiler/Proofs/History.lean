import DeclCompiler.Proofs.Account

/-!
Histories of scopes. Scopes are opened as roots or in other scopes, names and temporaries are asked for in
any of the open ones, and a scope is dropped when none is open in it. A history is any such sequence of actions,
as a run is, but with an account of what was done in place of the instructions. The handles of the open scopes
stay in keeping with the state: each has a name table of its own, knows the tables of the scopes around it, and
has a number that no other scope of its compilation has.
-/

namespace DeclCompiler

variable {κ η : Type}

/-! ### Actions with their accounts -/

/-- The open scopes, each with the scope that it was opened in, and the state. -/
structure Site (κ η : Type) where
  scopes : List (Scope × Option Scope)
  state : CompileState κ η

/-- The identifiers that the operation is to declare. -/
def Operation.identifiers : Operation κ η → List Identifier
  | .declare _ _ d => d.identifiers
  | _ => []

/-- Expressions are evaluated in the scope where they stand. -/
def Operation.IsLocal : Operation κ η → Prop
  | .declare _ evaluator _ => evaluator.Local
  | _ => True

namespace Site

def IsOpen (site : Site κ η) (s : Scope) : Prop := ∃ parent, (s, parent) ∈ site.scopes

/-- Nothing was opened yet, and no value has an owner. There may be values. -/
structure IsFresh (site : Site κ η) : Prop where
  scopes : site.scopes = []
  tables : site.state.tables = []
  counters : site.state.counters = []
  owners : site.state.owners = []

def withRoot (site : Site κ η) : Site κ η :=
  ⟨(site.state.addRoot.1, none) :: site.scopes, site.state.addRoot.2⟩

def withChild (site : Site κ η) (parent : Scope) : Site κ η :=
  ⟨((site.state.addChild parent).1, some parent) :: site.scopes, (site.state.addChild parent).2⟩

def without (site : Site κ η) (s : Scope) : Site κ η :=
  ⟨site.scopes.filter (·.1 ≠ s), site.state.drop s⟩

end Site

/-- One action, with its account. An operation may fail, and then it has declared a first part of its
identifiers. -/
inductive Advance (host : Host κ η) (site : Site κ η) : Action κ η → List (Deed κ) → Site κ η → Prop
  | openRoot : Advance host site .openRoot [] site.withRoot
  | openChild {parent : Scope} (h : site.IsOpen parent) :
      Advance host site (.openChild parent) [] (site.withChild parent)
  | drop {s : Scope} (h : site.IsOpen s) (hchildless : ∀ t, (t, some s) ∉ site.scopes) :
      Advance host site (.drop s) [] (site.without s)
  | act {s : Scope} {op : Operation κ η} {log : List (Deed κ)} {w : CompileState κ η} (h : site.IsOpen s)
      (hlocal : op.IsLocal)
      (hends : Yields (op.run host s) site.state (fun _ w' => w' = w ∧ Deed.leaves log = op.identifiers)
        (fun _ w' => w' = w ∧ Deed.leaves log <+: op.identifiers))
      (hlog : Changes s log site.state w) : Advance host site (.act s op) log ⟨site.scopes, w⟩

inductive History (host : Host κ η) (start : Site κ η) : List (Action κ η) → List (Deed κ) → Site κ η → Prop
  | start : History host start [] [] start
  | snoc {actions : List (Action κ η)} {a : Action κ η} {log more : List (Deed κ)} {site site' : Site κ η}
      (h : History host start actions log site) (hstep : Advance host site a more site') :
      History host start (actions ++ [a]) (log ++ more) site'

/-! ### Every operation has an account -/

section Accounts

variable {host : Host κ η} {s : Scope}

theorem staysIn_bind (s : Scope) (b : Binding κ) : StaysIn s (s.bind b : CompileM κ η Unit) :=
  fun w => s.yields_bind b w (fun hnone => .single (.bind b (Scope.bind_of_none hnone)) rfl) fun _ => .refl w

/-- Making a value and giving it a name. -/
theorem yields_bind_new (s : Scope) (b : Binding κ) (w : CompileState κ η) :
    Yields (s.bind b) { w with values := w.values + 1 } (fun _ w' => Aside s w w') (fun _ w' => Aside s w w') :=
  (staysIn_bind s b { w with values := w.values + 1 }).mono (fun _ _ h => (Aside.value w).trans h)
    (fun _ _ h => (Aside.value w).trans h)

theorem StaysIn.map {α β : Type} {x : CompileM κ η α} (h : StaysIn s x) (f : α → β) : StaysIn s (f <$> x) :=
  fun w => (yields_map f).2 (h w)

theorem staysIn_makeStore (s : Scope) (identifier name : String) :
    StaysIn s (s.makeStore identifier name : CompileM κ η (Value κ)) :=
  fun w => (s.yields_makeStore identifier name).2 (yields_bind_new s _ w)

theorem staysIn_bindBuiltins (s : Scope) : StaysIn s (s.bindBuiltins : CompileM κ η Unit) :=
  fun w => s.yields_bindBuiltins.2 (yields_bind_new s _ w)

/-- A declaration accounts for its identifiers, whatever its form. -/
theorem accounts_form {c : Compiler κ η} (hhost : c.host.Local) (hev : c.evaluator.Local) (s : Scope)
    (d : DeclarationForm κ) : Accounts s d.identifiers (d.run c s) := by
  cases d with
  | pattern kind p init => exact accounts_declare hhost hev p init
  | declarator kind d => exact accounts_compileDeclarator hhost hev d
  | declaration d => exact accounts_compileDeclaration hhost hev d

/-- Every operation accounts for its identifiers. -/
theorem Operation.accounts (hhost : host.Local) (s : Scope) {op : Operation κ η} (h : op.IsLocal) :
    Accounts s op.identifiers (op.run host s) := by
  cases op with
  | makeValue => exact StaysIn.accounts fun w => Aside.value w
  | makeStore identifier name => exact ((staysIn_makeStore s identifier name).map _).accounts
  | makeTemporary => exact StaysIn.accounts fun w => Aside.temporary s rfl
  | bind b => exact ((staysIn_bind s b).map _).accounts
  | bindBuiltins => exact ((staysIn_bindBuiltins s).map _).accounts
  | note state => exact StaysIn.accounts fun w => .single (.note w state) rfl
  | request q => exact ((hhost.request s q).map _).accounts
  | declare options evaluator d => exact accounts_form (c := ⟨host, options, evaluator⟩) hhost h s d

/-- So there is no operation that a history cannot go on with. -/
theorem Operation.exists_advance (hhost : host.Local) {site : Site κ η} (hs : site.IsOpen s) {op : Operation κ η}
    (h : op.IsLocal) : ∃ log site', Advance host site (.act s op) log site' := by
  have haccounts := Operation.accounts hhost s h site.state
  unfold Yields at haccounts
  cases hrun : op.run host s site.state with
  | ok a w =>
    rw [hrun] at haccounts
    obtain ⟨log, hlog, hleaves⟩ := haccounts
    exact ⟨log, _, .act hs h (by rw [Yields, hrun]; exact ⟨rfl, hleaves⟩) hlog⟩
  | error e w =>
    rw [hrun] at haccounts
    obtain ⟨log, hlog, hleaves⟩ := haccounts
    exact ⟨log, _, .act hs h (by rw [Yields, hrun]; exact ⟨rfl, hleaves⟩) hlog⟩

end Accounts

/-! ### What changes keep -/

namespace CompileState

/-- Which name tables are open. -/
def opened (w : CompileState κ η) : List Bool := w.tables.map Option.isSome

/-- How many scopes each compilation has had. -/
def numbers (w : CompileState κ η) : List Nat := w.counters.map Counters.scopes

theorem opened_enter (w : CompileState κ η) (s : Scope) (b : Binding κ) : (w.enter s b).opened = w.opened := by
  apply List.ext_getElem?
  intro i
  simp only [opened, List.getElem?_map, tables_enter]
  split
  · cases w.tables[i]? <;> simp
  · rfl

theorem numbers_addTemporary (w : CompileState κ η) (s : Scope) : (w.addTemporary s).2.numbers = w.numbers := by
  apply List.ext_getElem?
  intro i
  simp only [numbers, addTemporary, List.getElem?_map, List.getElem?_modify]
  split
  · cases w.counters[i]? <;> rfl
  · cases w.counters[i]? <;> rfl

theorem opened_addRoot (w : CompileState κ η) : w.addRoot.2.opened = w.opened ++ [true] := by
  simp [opened, addRoot]

theorem numbers_addRoot (w : CompileState κ η) : w.addRoot.2.numbers = w.numbers ++ [1] := by
  simp [numbers, addRoot]

theorem opened_addChild (w : CompileState κ η) (parent : Scope) :
    (w.addChild parent).2.opened = w.opened ++ [true] := by
  simp [opened, addChild]

theorem numbers_addChild (w : CompileState κ η) (parent : Scope) :
    (w.addChild parent).2.numbers = w.numbers.modify parent.compilation (· + 1) := by
  apply List.ext_getElem?
  intro i
  simp only [numbers, addChild, List.getElem?_map, List.getElem?_modify]
  split
  · cases w.counters[i]? <;> rfl
  · cases w.counters[i]? <;> rfl

theorem isOpen_iff (w : CompileState κ η) (s : Scope) : w.IsOpen s ↔ w.opened[s.table]? = some true := by
  simp only [IsOpen, opened, List.getElem?_map]
  cases w.tables[s.table]? with
  | none => simp
  | some t => cases t <;> simp

end CompileState

section Changes

variable {s : Scope} {log : List (Deed κ)} {w w' : CompileState κ η}

theorem Adds.of_same (h : w'.tables = w.tables) : Adds s [] w w' := .nil (by simp [h])

theorem Change.adds (h : Change s log w w') : Adds s (Deed.bindings log) w w' := by
  obtain ⟨rfl, hsame⟩ | ⟨t, v, rfl, -, hmake⟩ | ⟨b, w₀, hb, -, -, hsame, rfl⟩ := h.cases
  · exact .of_same hsame.tables
  · cases hmake
    exact .of_same rfl
  · rw [hb]
    exact (Adds.of_same hsame.tables).trans (.enter w₀ s b)

/-- The bindings of the account are those that the table of the scope gets. -/
theorem Changes.adds (h : Changes s log w w') : Adds s (Deed.bindings log) w w' := by
  induction h with
  | refl w => exact .of_same rfl
  | snoc _ hlast ih =>
    rw [Deed.bindings_append]
    exact ih.trans hlast.adds

/-- Nothing that is done in a scope opens or drops one. -/
theorem Changes.opened (h : Changes s log w w') : w'.opened = w.opened ∧ w'.numbers = w.numbers := by
  induction h with
  | refl w => exact ⟨rfl, rfl⟩
  | @snoc _ _ _ w₁ w₂ _ hlast ih =>
    have hlast : w₂.opened = w₁.opened ∧ w₂.numbers = w₁.numbers := by
      obtain ⟨-, hsame⟩ | ⟨t, v, -, -, hmake⟩ | ⟨b, w₀, -, -, -, hsame, rfl⟩ := hlast.cases
      · exact ⟨by rw [CompileState.opened, hsame.tables]; rfl, by rw [CompileState.numbers, hsame.counters]; rfl⟩
      · cases hmake
        exact ⟨rfl, w₁.numbers_addTemporary t⟩
      · rw [CompileState.opened_enter]
        refine ⟨by rw [CompileState.opened, hsame.tables]; rfl, ?_⟩
        show w₀.numbers = _
        rw [CompileState.numbers, hsame.counters]
        rfl
    exact ⟨hlast.1.trans ih.1, hlast.2.trans ih.2⟩

end Changes

/-! ### Handles -/

namespace Site

variable {site site' : Site κ η} {s t parent : Scope}

/-- The handles of the open scopes are in keeping with the state. -/
structure Sound (site : Site κ η) : Prop where
  opened : ∀ i, site.state.opened[i]? = some true ↔ ∃ s, site.IsOpen s ∧ s.table = i
  apart : ∀ s t, site.IsOpen s → site.IsOpen t → s.table = t.table → s = t
  root : ∀ s, (s, none) ∈ site.scopes → s.ancestors = []
  child : ∀ s parent, (s, some parent) ∈ site.scopes →
    site.IsOpen parent ∧ s.ancestors = parent.chain ∧ s.compilation = parent.compilation ∧ parent.table < s.table
  numbered : ∀ s, site.IsOpen s → ∃ n, site.state.numbers[s.compilation]? = some n ∧ s.id < n
  distinct : ∀ s t, site.IsOpen s → site.IsOpen t → s.compilation = t.compilation → s.id = t.id → s = t

theorem Sound.isOpen (h : site.Sound) (hs : site.IsOpen s) : site.state.IsOpen s :=
  (site.state.isOpen_iff s).2 ((h.opened s.table).2 ⟨s, hs, rfl⟩)

theorem Sound.table_lt (h : site.Sound) (hs : site.IsOpen s) : s.table < site.state.opened.length :=
  (List.getElem?_eq_some_iff.1 ((h.opened s.table).2 ⟨s, hs, rfl⟩)).1

theorem IsFresh.sound (h : site.IsFresh) : site.Sound := by
  have hnone : ∀ s, ¬ site.IsOpen s := by
    rintro s ⟨parent, hs⟩
    rw [h.scopes] at hs
    cases hs
  refine ⟨fun i => ?_, fun s _ hs => absurd hs (hnone s), fun s hs => absurd ⟨_, hs⟩ (hnone s),
    fun s _ hs => absurd ⟨_, hs⟩ (hnone s), fun s hs => absurd hs (hnone s), fun s _ hs => absurd hs (hnone s)⟩
  constructor
  · intro hi
    simp [CompileState.opened, h.tables] at hi
  · rintro ⟨s, hs, -⟩
    exact absurd hs (hnone s)

theorem isOpen_cons {scopes : List (Scope × Option Scope)} {w : CompileState κ η} {parent? : Option Scope} :
    (Site.mk ((s, parent?) :: scopes) w).IsOpen t ↔ t = s ∨ (Site.mk scopes w).IsOpen t := by
  constructor
  · rintro ⟨parent, ht⟩
    rcases List.mem_cons.1 ht with ht | ht
    · exact .inl (Prod.mk.inj ht).1
    · exact .inr ⟨parent, ht⟩
  · rintro (rfl | ⟨parent, ht⟩)
    · exact ⟨parent?, List.mem_cons_self ..⟩
    · exact ⟨parent, List.mem_cons_of_mem _ ht⟩

/-- Opening a scope with a new table and a new number. -/
theorem Sound.withScope (h : site.Sound) {w : CompileState κ η} {parent? : Option Scope}
    (htable : s.table = site.state.opened.length) (hopened : w.opened = site.state.opened ++ [true])
    (hparent : match parent? with
      | none => s.ancestors = []
      | some parent => site.IsOpen parent ∧ s.ancestors = parent.chain ∧ s.compilation = parent.compilation)
    (hnumber : ∃ n, w.numbers[s.compilation]? = some n ∧ s.id < n)
    (hnumbers : ∀ (k n : Nat), site.state.numbers[k]? = some n → ∃ n', w.numbers[k]? = some n' ∧ n ≤ n')
    (hid : ∀ t, site.IsOpen t → t.compilation = s.compilation → t.id ≠ s.id) :
    (Site.mk ((s, parent?) :: site.scopes) w).Sound := by
  have hlt : ∀ t, site.IsOpen t → t.table < s.table := fun t ht => htable ▸ h.table_lt ht
  refine ⟨fun i => ?_, fun t u ht hu heq => ?_, fun t ht => ?_, fun t parent ht => ?_, fun t ht => ?_,
    fun t u ht hu hcomp hids => ?_⟩
  · rw [hopened]
    by_cases hi : i < site.state.opened.length
    · rw [List.getElem?_append_left hi, h.opened i]
      constructor
      · rintro ⟨t, ht, rfl⟩
        exact ⟨t, isOpen_cons.2 (.inr ht), rfl⟩
      · rintro ⟨t, ht, rfl⟩
        rcases isOpen_cons.1 ht with rfl | ht
        · omega
        · exact ⟨t, ht, rfl⟩
    · rw [List.getElem?_append_right (by omega), List.getElem?_singleton]
      constructor
      · intro hi'
        split at hi'
        · exact ⟨s, isOpen_cons.2 (.inl rfl), by omega⟩
        · cases hi'
      · rintro ⟨t, ht, rfl⟩
        rcases isOpen_cons.1 ht with rfl | ht
        · simp [htable]
        · exact absurd (h.table_lt ht) hi
  · rcases isOpen_cons.1 ht with rfl | ht' <;> rcases isOpen_cons.1 hu with rfl | hu'
    · rfl
    · exact absurd heq (Nat.ne_of_gt (hlt u hu'))
    · exact absurd heq (Nat.ne_of_lt (hlt t ht'))
    · exact h.apart t u ht' hu' heq
  · rcases List.mem_cons.1 ht with ht | ht
    · cases ht
      exact hparent
    · exact h.root t ht
  · rcases List.mem_cons.1 ht with ht | ht
    · cases ht
      obtain ⟨hopen, hancestors, hcomp⟩ := hparent
      exact ⟨isOpen_cons.2 (.inr hopen), hancestors, hcomp, hlt parent hopen⟩
    · obtain ⟨hopen, hrest⟩ := h.child t parent ht
      exact ⟨isOpen_cons.2 (.inr hopen), hrest⟩
  · rcases isOpen_cons.1 ht with rfl | ht
    · exact hnumber
    · obtain ⟨n, hn, hlt⟩ := h.numbered t ht
      obtain ⟨n', hn', hle⟩ := hnumbers _ _ hn
      exact ⟨n', hn', Nat.lt_of_lt_of_le hlt hle⟩
  · rcases isOpen_cons.1 ht with rfl | ht' <;> rcases isOpen_cons.1 hu with rfl | hu'
    · rfl
    · exact absurd hids.symm (hid u hu' hcomp.symm)
    · exact absurd hids (hid t ht' hcomp)
    · exact h.distinct t u ht' hu' hcomp hids

theorem Sound.withRoot (h : site.Sound) : site.withRoot.Sound := by
  have hnew : site.state.addRoot.1.compilation = site.state.numbers.length := by
    simp [CompileState.addRoot, CompileState.numbers]
  refine h.withScope (by simp [CompileState.addRoot, CompileState.opened]) site.state.opened_addRoot rfl
    ⟨1, ?_, Nat.one_pos⟩ ?_ ?_
  · rw [hnew, CompileState.numbers_addRoot, List.getElem?_concat_length]
  · intro k n hn
    refine ⟨n, ?_, Nat.le_refl n⟩
    rw [CompileState.numbers_addRoot, List.getElem?_append_left (List.getElem?_eq_some_iff.1 hn).1]
    exact hn
  · intro t ht hcomp
    obtain ⟨n, hn, -⟩ := h.numbered t ht
    have hlt := (List.getElem?_eq_some_iff.1 hn).1
    omega

theorem Sound.withChild (h : site.Sound) (hparent : site.IsOpen parent) : (site.withChild parent).Sound := by
  obtain ⟨n, hn, -⟩ := h.numbered parent hparent
  have hcomp : (site.state.addChild parent).1.compilation = parent.compilation := rfl
  have hid : (site.state.addChild parent).1.id = n := by
    simp only [CompileState.numbers, List.getElem?_map, Option.map_eq_some_iff] at hn
    obtain ⟨counters, hcounters, rfl⟩ := hn
    simp [CompileState.addChild, CompileState.countersOf, hcounters]
  refine h.withScope (by simp [CompileState.addChild, CompileState.opened]) (site.state.opened_addChild parent)
    ⟨hparent, rfl, rfl⟩ ⟨n + 1, ?_, by omega⟩ ?_ ?_
  · rw [hcomp, CompileState.numbers_addChild, List.getElem?_modify, hn]
    simp
  · intro k m hm
    rw [CompileState.numbers_addChild, List.getElem?_modify, hm]
    split
    · exact ⟨m + 1, rfl, Nat.le_succ m⟩
    · exact ⟨m, rfl, Nat.le_refl m⟩
  · intro t ht hcomp' hids
    obtain ⟨m, hm, hlt⟩ := h.numbered t ht
    rw [hcomp', hcomp, hn, Option.some.injEq] at hm
    omega

theorem isOpen_without : (site.without s).IsOpen t ↔ site.IsOpen t ∧ t ≠ s := by
  constructor
  · rintro ⟨parent, ht⟩
    obtain ⟨ht, hne⟩ := List.mem_filter.1 ht
    exact ⟨⟨parent, ht⟩, by simpa using hne⟩
  · rintro ⟨⟨parent, ht⟩, hne⟩
    exact ⟨parent, List.mem_filter.2 ⟨ht, by simpa using hne⟩⟩

/-- A scope may be dropped when none is open in it. -/
theorem Sound.without (h : site.Sound) (hs : site.IsOpen s) (hchildless : ∀ t, (t, some s) ∉ site.scopes) :
    (site.without s).Sound := by
  have hopened : (site.without s).state.opened = site.state.opened.set s.table false := by
    simp [Site.without, CompileState.drop, CompileState.opened, List.map_set]
  have hmem : ∀ {entry}, entry ∈ (site.without s).scopes → entry ∈ site.scopes := fun h => (List.mem_filter.1 h).1
  refine ⟨fun i => ?_, fun t u ht hu => ?_, fun t ht => h.root t (hmem ht), fun t parent ht => ?_, fun t ht => ?_,
    fun t u ht hu => ?_⟩
  · rw [hopened, List.getElem?_set]
    constructor
    · intro hi
      split at hi
      · split at hi <;> cases hi
      next hne =>
        obtain ⟨t, ht, rfl⟩ := (h.opened i).1 hi
        exact ⟨t, isOpen_without.2 ⟨ht, fun heq => hne (by rw [heq])⟩, rfl⟩
    · rintro ⟨t, ht, rfl⟩
      obtain ⟨ht, hne⟩ := isOpen_without.1 ht
      rw [if_neg fun heq => hne (h.apart t s ht hs heq.symm)]
      exact (h.opened t.table).2 ⟨t, ht, rfl⟩
  · exact h.apart t u (isOpen_without.1 ht).1 (isOpen_without.1 hu).1
  · obtain ⟨hopen, hrest⟩ := h.child t parent (hmem ht)
    refine ⟨isOpen_without.2 ⟨hopen, ?_⟩, hrest⟩
    rintro rfl
    exact hchildless t (hmem ht)
  · exact h.numbered t (isOpen_without.1 ht).1
  · exact h.distinct t u (isOpen_without.1 ht).1 (isOpen_without.1 hu).1

theorem Sound.withState (h : site.Sound) {w : CompileState κ η} (hopened : w.opened = site.state.opened)
    (hnumbers : w.numbers = site.state.numbers) : (Site.mk site.scopes w).Sound :=
  ⟨by rw [hopened]; exact h.opened, h.apart, h.root, h.child, by rw [hnumbers]; exact h.numbered, h.distinct⟩

end Site

/-! ### Steps and histories -/

section Histories

variable {host : Host κ η} {site site' start : Site κ η} {a : Action κ η} {actions : List (Action κ η)}
  {log : List (Deed κ)}

theorem Advance.sound (hstep : Advance host site a log site') (h : site.Sound) : site'.Sound := by
  cases hstep with
  | openRoot => exact h.withRoot
  | openChild hparent => exact h.withChild hparent
  | drop hs hchildless => exact h.without hs hchildless
  | act _ _ _ hlog => exact h.withState hlog.opened.1 hlog.opened.2

theorem History.sound (h : History host start actions log site) (hstart : start.Sound) : site.Sound := by
  induction h with
  | start => exact hstart
  | snoc _ hstep ih => exact hstep.sound ih

/-- Only dropping closes a scope. -/
theorem Advance.isOpen (hstep : Advance host site a log site') {s : Scope} (hs : site.IsOpen s) (hdrop : a ≠ .drop s) :
    site'.IsOpen s := by
  cases hstep with
  | openRoot | openChild => exact Site.isOpen_cons.2 (.inr hs)
  | drop => exact Site.isOpen_without.2 ⟨hs, fun heq => hdrop (by rw [heq])⟩
  | act => exact hs

theorem History.isOpen (h : History host site actions log site') {s : Scope} (hs : site.IsOpen s)
    (hdrop : .drop s ∉ actions) : site'.IsOpen s := by
  induction h with
  | start => exact hs
  | snoc _ hstep ih =>
    rw [List.mem_append, not_or, List.mem_singleton] at hdrop
    exact hstep.isOpen (ih hdrop.1) fun heq => hdrop.2 heq.symm

end Histories

/-! ### A name in two scopes -/

theorem yields_of_ok {α : Type} {x : CompileM κ η α} {w w' : CompileState κ η} {a : α}
    {ok : α → CompileState κ η → Prop} {failed : CompileError → CompileState κ η → Prop} (hx : x w = .ok a w')
    (h : ok a w') : Yields x w ok failed := by
  rwa [Yields, hx]

theorem Host.inert_local : (Host.inert κ η).Local := fun _ _ _ w => Aside.refl w

/-- The site before anything was opened. -/
def Site.initial : Site Unit Unit := ⟨[], .initial ()⟩

theorem Site.initial_isFresh : Site.initial.IsFresh := ⟨rfl, rfl, rfl, rfl⟩

def outerScope : Scope := ⟨0, 0, 0, []⟩

def innerScope : Scope := ⟨1, 1, 0, [0]⟩

def outerX : Binding Unit := ⟨"x", "x:1:4", 0, .store 0 "x:1:4" false, false⟩

/-- The identifier in `let x;` on the second line. -/
def secondX : Identifier := ⟨"x", .onLine 2 4 5⟩

def innerX : Binding Unit := ⟨"x", "x:2:4", 1, .store 1 "x:2:4" false, false⟩

/-- Both scopes have a variable `x`, and there is a temporary. -/
def Site.shadowed : Site Unit Unit where
  scopes := [(innerScope, some outerScope), (outerScope, none)]
  state :=
    { values := 3
      tables := [some [outerX], some [innerX]]
      counters := [⟨2, 1⟩]
      owners := [(0, ⟨0, "x"⟩), (1, ⟨1, "x"⟩)]
      mutabilities := []
      host := () }

def shadowingActions : List (Action Unit Unit) :=
  [.openRoot, .openChild outerScope, .act outerScope (.makeStore "x" "x:1:4"),
    .act innerScope (.declare .standard (.basic (.inert Unit Unit) []) (.pattern .letDecl (.identifier secondX) none)),
    .act innerScope .makeTemporary]

def shadowingLog : List (Deed Unit) :=
  [.bound outerScope outerX, .declared innerScope secondX innerX.value, .bound innerScope innerX,
    .temporary innerScope (.store 2 "&t0" true)]

theorem outerScope_isOpen : Site.shadowed.IsOpen outerScope := ⟨none, List.mem_of_mem_tail (List.mem_singleton_self _)⟩

theorem innerScope_isOpen : Site.shadowed.IsOpen innerScope := ⟨some outerScope, List.mem_cons_self ..⟩

theorem shadowed_history : History (.inert Unit Unit) .initial shadowingActions shadowingLog .shadowed := by
  have hevaluator : (Evaluator.basic (.inert Unit Unit) []).Local := Evaluator.basic_local Host.inert_local []
  have hopened : History (.inert Unit Unit) .initial [.openRoot, .openChild outerScope] [] _ :=
    (History.start.snoc .openRoot).snoc (.openChild ⟨none, List.mem_singleton_self _⟩)
  have houter : History (.inert Unit Unit) .initial (shadowingActions.take 3) (shadowingLog.take 1) _ :=
    hopened.snoc (.act ⟨none, List.mem_of_mem_tail (List.mem_singleton_self _)⟩ trivial (yields_of_ok rfl ⟨rfl, rfl⟩)
      ((Changes.single (.value _)).snoc (.bind outerX rfl)))
  have hinner : History (.inert Unit Unit) .initial (shadowingActions.take 4) (shadowingLog.take 3) _ :=
    houter.snoc (.act ⟨some outerScope, List.mem_cons_self ..⟩ hevaluator (yields_of_ok rfl ⟨rfl, rfl⟩)
      (.single (.declared (.standard (.inert Unit Unit)) secondX rfl)))
  exact hinner.snoc (.act ⟨some outerScope, List.mem_cons_self ..⟩ trivial (yields_of_ok rfl ⟨rfl, rfl⟩)
    (.single (.temporary innerScope Nat.one_pos rfl)))

end DeclCompiler
