import DeclCompiler.Proofs.History

/-!
Names in a chain of scopes. In every history the table of a scope only grows, by what is done in that very
scope, so a name stands for its binding until the scope is dropped. A name that is taken cannot be bound
again, and the attempt leaves all records as they were. A name is looked up in one scope after another, from
the scope itself out to its root.
-/

namespace DeclCompiler

variable {κ η α : Type}

/-! ### Names that are taken -/

/-- The computation is to give the name a binding in the scope, made from its result. If the scope has the name
already, it fails for that reason, and name tables, counters and owners stay as they were. Otherwise it
succeeds, and the name has the binding. -/
def BindsIfFree (s : Scope) (identifier : String) (made : α → Binding κ) (x : CompileM κ η α)
    (w : CompileState κ η) : Prop :=
  match w.own? s.table identifier with
  | some _ => ∃ w', x w = .error (.of (.alreadyDeclared identifier)) w' ∧ w'.tables = w.tables ∧
      w'.counters = w.counters ∧ ∀ v, w'.owner? v = w.owner? v
  | none => ∃ a w', x w = .ok a w' ∧ w'.own? s.table identifier = some (made a)

section Free

variable {s : Scope} {w : CompileState κ η}

theorem bind_bindsIfFree (hopen : w.IsOpen s) (b : Binding κ) :
    BindsIfFree s b.identifier (fun _ => b) (s.bind b) w := by
  unfold BindsIfFree
  cases hown : w.own? s.table b.identifier with
  | some taken => exact ⟨w, by simp [Scope.bind_eq, hown], rfl, rfl, fun _ => rfl⟩
  | none =>
    refine ⟨(), w.enter s b, Scope.bind_of_none hown, ?_⟩
    exact CompileState.own?_enter hown ((Adds.enter w s b).isOpen hopen)

/-- A new value that is to be bound is made in any case. -/
theorem bindsIfFree_bind_new (hopen : w.IsOpen s) {identifier : String} (made : α → Binding κ) (result : Nat → α)
    (hmade : ∀ id, (made (result id)).identifier = identifier) :
    BindsIfFree s identifier made (do let id ← fresh; s.bind (made (result id)); return result id) w := by
  have hfresh : (fresh : CompileM κ η Nat) w = .ok w.values { w with values := w.values + 1 } := rfl
  have hbind := bind_bindsIfFree (w := { w with values := w.values + 1 }) hopen (made (result w.values))
  unfold BindsIfFree at hbind ⊢
  rw [hmade, show ({ w with values := w.values + 1 } : CompileState κ η).own? s.table identifier =
    w.own? s.table identifier from rfl] at hbind
  rw [bind_of_ok hfresh]
  cases hown : w.own? s.table identifier with
  | some taken =>
    rw [hown] at hbind
    obtain ⟨w', hfail, hrecords⟩ := hbind
    exact ⟨w', bind_of_error hfail _, hrecords⟩
  | none =>
    rw [hown] at hbind
    obtain ⟨_, w', hok, hentry⟩ := hbind
    exact ⟨result w.values, w', bind_of_ok hok _, hentry⟩

theorem makeStore_bindsIfFree (hopen : w.IsOpen s) (identifier name : String) :
    BindsIfFree s identifier (fun v => ⟨identifier, name, s.id, v, false⟩) (s.makeStore identifier name) w := by
  have h := bindsIfFree_bind_new hopen (fun v => ⟨identifier, name, s.id, v, false⟩)
    (fun id => .store id name false) (fun _ => rfl)
  simpa [Scope.makeStore, newStore, bind_assoc] using h

end Free

/-! ### Tables -/

def Action.scope? : Action κ η → Option Scope
  | .openRoot | .openChild _ => none
  | .drop s | .act s _ => some s

section Tables

variable {host : Host κ η} {site site' start : Site κ η} {a : Action κ η} {actions : List (Action κ η)}
  {log : List (Deed κ)} {s : Scope}

theorem Adds.tablesKept {bound : List (Binding κ)} {w w' : CompileState κ η} (h : Adds s bound w w')
    (hopen : w.IsOpen s) : CompileState.TablesKept w w' := by
  intro i t ht
  by_cases hi : i = s.table
  · subst hi
    obtain ⟨bindings, hbindings⟩ := hopen
    obtain rfl : t = some bindings := by simpa [hbindings] using ht.symm
    exact ⟨_, h.own bindings hbindings, .inr ⟨bindings, bound, rfl, rfl⟩⟩
  · exact ⟨t, h.others i t hi ht, .refl t⟩

theorem Advance.tablesKept (hstep : Advance host site a log site') (h : site.Sound) :
    CompileState.TablesKept site.state site'.state := by
  cases hstep with
  | openRoot | openChild => exact .of_append rfl
  | drop => exact .drop _ _
  | act hs _ _ hlog => exact hlog.adds.tablesKept (h.isOpen hs)

theorem History.tablesKept (h : History host site actions log site') (hsound : site.Sound) :
    CompileState.TablesKept site.state site'.state := by
  induction h with
  | start => exact .of_eq rfl
  | snoc h hstep ih => exact ih.trans (hstep.tablesKept (h.sound hsound))

/-- A name has the same binding until its scope is dropped. -/
theorem History.own? (h : History host site actions log site') (hsound : site.Sound) (hs : site.IsOpen s)
    (hdrop : .drop s ∉ actions) {identifier : String} {b : Binding κ}
    (hb : site.state.own? s.table identifier = some b) : site'.state.own? s.table identifier = some b :=
  (h.tablesKept hsound).own? hb ((h.sound hsound).isOpen (h.isOpen hs hdrop))

theorem Adds.table_of_ne {bound : List (Binding κ)} {w w' : CompileState κ η} (h : Adds s bound w w') {i : Nat}
    (hi : i ≠ s.table) (hlt : i < w.tables.length) : w'.tables[i]? = w.tables[i]? := by
  have hentry := List.getElem?_eq_getElem hlt
  rw [h.others i _ hi hentry, hentry]

/-- An action leaves the tables of all scopes alone but for the one it is about. -/
theorem Advance.table_of_ne (hstep : Advance host site a log site') (h : site.Sound) {t : Scope} (ht : site.IsOpen t)
    (hother : a.scope? ≠ some t) : site'.state.tables[t.table]? = site.state.tables[t.table]? := by
  have hlt : t.table < site.state.tables.length := by
    have hlt := h.table_lt ht
    rwa [CompileState.opened, List.length_map] at hlt
  have hne : ∀ s, site.IsOpen s → a.scope? = some s → t.table ≠ s.table := by
    intro s hs hscope heq
    exact hother (by rw [hscope, h.apart t s ht hs heq])
  cases hstep with
  | openRoot | openChild => exact List.getElem?_append_left hlt
  | drop hs => exact List.getElem?_set_ne (hne _ hs rfl).symm
  | act hs _ _ hlog => exact hlog.adds.table_of_ne (hne _ hs rfl) hlt

end Tables

/-! ### Looking names up -/

namespace Site

variable {site : Site κ η} {s : Scope} {chain : List Scope}

/-- The scopes from the given one out to its root. -/
inductive Lineage (site : Site κ η) : Scope → List Scope → Prop
  | root {s : Scope} (h : (s, none) ∈ site.scopes) : Lineage site s [s]
  | child {s parent : Scope} {chain : List Scope} (h : (s, some parent) ∈ site.scopes)
      (hparent : Lineage site parent chain) : Lineage site s (s :: chain)

theorem Lineage.isOpen (h : site.Lineage s chain) : ∀ t ∈ chain, site.IsOpen t := by
  induction h with
  | root h => simpa using ⟨none, h⟩
  | child h _ ih => exact List.forall_mem_cons.2 ⟨⟨_, h⟩, ih⟩

theorem Lineage.tables (h : site.Lineage s chain) (hsound : site.Sound) : chain.map (·.table) = s.chain := by
  induction h with
  | root h => simp [Scope.chain, hsound.root _ h]
  | child h _ ih =>
    obtain ⟨-, hancestors, -⟩ := hsound.child _ _ h
    rw [List.map_cons, ih, ← hancestors]
    rfl

/-- A scope is opened after the one it is opened in, so that the way out comes to an end. -/
theorem Sound.exists_lineage (hsound : site.Sound) (hs : site.IsOpen s) : ∃ chain, site.Lineage s chain := by
  induction htable : s.table using Nat.strongRecOn generalizing s with
  | ind n ih =>
    obtain ⟨parent?, hs⟩ := hs
    cases parent? with
    | none => exact ⟨[s], .root hs⟩
    | some parent =>
      obtain ⟨hparent, -, -, hlt⟩ := hsound.child s parent hs
      obtain ⟨chain, hchain⟩ := ih parent.table (htable ▸ hlt) hparent rfl
      exact ⟨s :: chain, .child hs hchain⟩

theorem Lineage.lookup? (h : site.Lineage s chain) (hsound : site.Sound) (identifier : String) :
    site.state.lookup? s identifier = chain.findSome? fun t => site.state.own? t.table identifier := by
  rw [CompileState.lookup?, ← h.tables hsound, List.findSome?_map]
  rfl

end Site

/-- The scope chain in every history. A name of an open scope keeps its binding until the scope is dropped. A
name can be bound, to a given value or to a new variable, unless the scope itself has it, in which case nothing
changes. An action has no influence on the tables of scopes that it is not about. A name that is looked up stands
for its binding in the nearest scope of the lineage that has one. And no operation stops a history, whether it
succeeds or fails. -/
theorem scopes_keep_names {host : Host κ η} {start site : Site κ η} {actions : List (Action κ η)} {log : List (Deed κ)}
    (hstart : start.IsFresh) (h : History host start actions log site) :
    (∀ actions' more site' s identifier b, History host site actions' more site' → site.IsOpen s → .drop s ∉ actions' →
      site.state.own? s.table identifier = some b → site'.state.own? s.table identifier = some b) ∧
    (∀ s, site.IsOpen s → (∀ b, BindsIfFree s b.identifier (fun _ => b) (s.bind b) site.state) ∧
      ∀ identifier name, BindsIfFree s identifier (fun v => ⟨identifier, name, s.id, v, false⟩)
        (s.makeStore identifier name) site.state) ∧
    (∀ a more site' t, Advance host site a more site' → site.IsOpen t → a.scope? ≠ some t →
      site'.state.tables[t.table]? = site.state.tables[t.table]?) ∧
    (∀ s, site.IsOpen s → (∃ chain, site.Lineage s chain) ∧
      ∀ chain, site.Lineage s chain → (∀ t ∈ chain, site.IsOpen t) ∧ ∀ identifier,
        (∀ b, site.state.lookup? s identifier = some b ↔ ∃ inner t outer, chain = inner ++ t :: outer ∧
          site.state.own? t.table identifier = some b ∧ ∀ u ∈ inner, site.state.own? u.table identifier = none) ∧
        (site.state.lookup? s identifier = none ↔ ∀ t ∈ chain, site.state.own? t.table identifier = none)) ∧
    (host.Local → ∀ s op, site.IsOpen s → op.IsLocal → ∃ more site', Advance host site (.act s op) more site') := by
  have hsound : site.Sound := h.sound hstart.sound
  refine ⟨fun actions' more site' s identifier b h' hs hdrop hb => h'.own? hsound hs hdrop hb,
    fun s hs => ⟨bind_bindsIfFree (hsound.isOpen hs), makeStore_bindsIfFree (hsound.isOpen hs)⟩,
    fun a more site' t hstep ht hother => hstep.table_of_ne hsound ht hother, fun s hs => ?_,
    fun hhost s op hs hop => Operation.exists_advance hhost hs hop⟩
  refine ⟨hsound.exists_lineage hs, fun chain hchain => ⟨hchain.isOpen, fun identifier => ?_⟩⟩
  rw [hchain.lookup? hsound]
  exact ⟨fun b => List.findSome?_eq_some_iff, List.findSome?_eq_none_iff⟩

/-- The inner `x` is found first and cannot be declared again, and the outer one outlives the inner scope. -/
theorem shadowed_keeps_names :
    Site.initial.IsFresh ∧ History (.inert Unit Unit) .initial shadowingActions shadowingLog .shadowed ∧
      (∃ w, innerScope.makeStore "x" "x:3:4" Site.shadowed.state = .error (.of (.alreadyDeclared "x")) w ∧
        w.tables = Site.shadowed.state.tables) ∧
      Site.shadowed.state.lookup? innerScope "x" = some innerX ∧
      (∃ near t far, [innerScope, outerScope] = near ++ t :: far ∧ Site.shadowed.state.own? t.table "x" = some innerX ∧
        ∀ u ∈ near, Site.shadowed.state.own? u.table "x" = none) ∧
      ∃ site, History (.inert Unit Unit) .shadowed [.drop innerScope] [] site ∧
        site.state.own? outerScope.table "x" = some outerX := by
  obtain ⟨hkeep, hbind, -, hlookup, -⟩ := scopes_keep_names Site.initial_isFresh shadowed_history
  have hchain : Site.shadowed.Lineage innerScope [innerScope, outerScope] :=
    .child (List.mem_cons_self ..) (.root (List.mem_of_mem_tail (List.mem_singleton_self _)))
  have hdrop : History (.inert Unit Unit) .shadowed [.drop innerScope] [] _ :=
    History.start.snoc (.drop innerScope_isOpen (by simp [Site.shadowed, innerScope, outerScope]))
  have hfound : Site.shadowed.state.lookup? innerScope "x" = some innerX := rfl
  obtain ⟨w, hfail, htables, -⟩ := (hbind innerScope innerScope_isOpen).2 "x" "x:3:4"
  exact ⟨Site.initial_isFresh, shadowed_history, ⟨w, hfail, htables⟩, hfound,
    ((((hlookup innerScope innerScope_isOpen).2 _ hchain).2 "x").1 innerX).1 hfound,
    _, hdrop, hkeep _ _ _ outerScope "x" outerX hdrop outerScope_isOpen (by simp [innerScope, outerScope]) rfl⟩

end DeclCompiler
