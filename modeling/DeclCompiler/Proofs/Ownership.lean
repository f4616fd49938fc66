import DeclCompiler.Proofs.ScopeChain

/-!
Owners of values. A value belongs to the first binding that is made for it while it belongs to none, and it
does so as long as the scope of that binding is there. The state keeps the place of the binding, not the
binding itself, so what has to be shown is that such a place is never taken by another binding: it holds the
one that was entered there until the scope is dropped, and a table that was dropped is never used again.
-/

namespace DeclCompiler

variable {κ η : Type}

/-! ### Places of owners -/

namespace CompileState

variable {w w' : CompileState κ η} {s : Scope} {b : Binding κ}

/-- Every owner's place is in a table that exists. As long as the table is open, the binding there has the
value that is owned. -/
def OwnersSound (w : CompileState κ η) : Prop :=
  ∀ id o, Entries.get? id w.owners = some o → o.table < w.opened.length ∧
    (w.opened[o.table]? = some true → ∃ b, w.own? o.table o.identifier = some b ∧ b.value.id = id)

theorem owner?_eq_some {v : Value κ} (h : w.owner? v = some b) :
    ∃ o, Entries.get? v.id w.owners = some o ∧ w.own? o.table o.identifier = some b := Option.bind_eq_some_iff.1 h

theorem owner?_congr {v v' : Value κ} (h : v.id = v'.id) : w.owner? v = w.owner? v' := by
  rw [owner?, h, owner?]

theorem opened_of_own? {i : Nat} {identifier : String} (h : w.own? i identifier = some b) :
    w.opened[i]? = some true := by
  rw [opened, List.getElem?_map]
  cases ht : w.tables[i]? with
  | none => simp [own?, table, ht] at h
  | some t =>
    cases t with
    | none => simp [own?, table, ht] at h
    | some bindings => rfl

theorem identifier_of_own? {i : Nat} {identifier : String} (h : w.own? i identifier = some b) :
    b.identifier = identifier := by
  simpa using List.find?_some h

theorem own?_of_tables_eq {i : Nat} (h : w'.tables[i]? = w.tables[i]?) (identifier : String) :
    w'.own? i identifier = w.own? i identifier := by
  rw [own?, table, h, own?, table]

/-- Owners do not change when their places do not. -/
theorem owner?_of_places (howners : w'.owners = w.owners)
    (h : ∀ id o, Entries.get? id w.owners = some o → w'.own? o.table o.identifier = w.own? o.table o.identifier)
    (v : Value κ) : w'.owner? v = w.owner? v := by
  rw [owner?, howners, owner?]
  cases ho : Entries.get? v.id w.owners with
  | none => rfl
  | some o => exact h v.id o ho

theorem OwnersSound.of_places (hw : w.OwnersSound) (howners : w'.owners = w.owners)
    (hlength : w.opened.length ≤ w'.opened.length)
    (h : ∀ id o, Entries.get? id w.owners = some o → w'.opened[o.table]? = some true →
      w.opened[o.table]? = some true ∧ w'.own? o.table o.identifier = w.own? o.table o.identifier) :
    w'.OwnersSound := by
  intro id o ho
  rw [howners] at ho
  obtain ⟨hlt, hstands⟩ := hw id o ho
  refine ⟨Nat.lt_of_lt_of_le hlt hlength, fun hopen => ?_⟩
  obtain ⟨hopen, hown⟩ := h id o ho hopen
  rw [hown]
  exact hstands hopen

/-- A binding that is entered takes no place of another. -/
theorem OwnersSound.own?_enter (hw : w.OwnersSound) (hopen : w.IsOpen s) {id : Nat} {o : Owner}
    (ho : Entries.get? id w.owners = some o) :
    (w.enter s b).own? o.table o.identifier = w.own? o.table o.identifier := by
  by_cases htable : o.table = s.table
  · obtain ⟨-, hstands⟩ := hw id o ho
    obtain ⟨owner, hown, -⟩ := hstands (htable ▸ (w.isOpen_iff s).1 hopen)
    rw [hown]
    rw [htable] at hown ⊢
    rw [(Adds.enter w s b).own? hopen, hown]
    rfl
  · apply own?_of_tables_eq
    rw [tables_enter, if_neg (Ne.symm htable)]

/-- The value of a new binding belongs to it, unless it belongs to another. All other values belong where
they did. -/
theorem OwnersSound.owner?_enter (hw : w.OwnersSound) (hopen : w.IsOpen s)
    (hnone : w.own? s.table b.identifier = none) (v : Value κ) :
    (w.enter s b).owner? v = (w.owner? v).or (if b.value.same v then some b else none) := by
  have hplaces : ∀ id o, Entries.get? id w.owners = some o →
      (w.enter s b).own? o.table o.identifier = w.own? o.table o.identifier := fun id o ho => hw.own?_enter hopen ho
  by_cases howned : (w.owner? b.value).isSome
  · have howners : (w.enter s b).owners = w.owners := if_pos howned
    rw [owner?_of_places howners hplaces]
    split
    next hsame =>
      have hid : b.value.id = v.id := beq_iff_eq.1 hsame
      obtain ⟨owner, howner⟩ := Option.isSome_iff_exists.1 howned
      rw [← owner?_congr hid, howner]
      rfl
    · simp
  · have howners : (w.enter s b).owners = Entries.put b.value.id ⟨s.table, b.identifier⟩ w.owners := if_neg howned
    have hfree : w.owner? b.value = none := by simpa using howned
    rw [owner?, howners, Entries.get?_put]
    by_cases hid : v.id = b.value.id
    · have hsame : b.value.same v = true := beq_iff_eq.2 hid.symm
      rw [if_pos hid, if_pos hsame, owner?_congr hid, hfree]
      exact CompileState.own?_enter hnone ((Adds.enter w s b).isOpen hopen)
    · have hsame : ¬ b.value.same v = true := fun h => hid (beq_iff_eq.1 h).symm
      rw [if_neg hid, if_neg hsame, Option.or_none, owner?]
      cases ho : Entries.get? v.id w.owners with
      | none => rfl
      | some o => exact hplaces v.id o ho

theorem OwnersSound.enter (hw : w.OwnersSound) (hopen : w.IsOpen s)
    (hnone : w.own? s.table b.identifier = none) : (w.enter s b).OwnersSound := by
  intro id o ho
  rw [opened_enter]
  have hold : Entries.get? id w.owners = some o → o.table < w.opened.length ∧ (w.opened[o.table]? = some true →
      ∃ b', (w.enter s b).own? o.table o.identifier = some b' ∧ b'.value.id = id) := by
    intro ho
    rw [hw.own?_enter hopen ho]
    exact hw id o ho
  by_cases howned : (w.owner? b.value).isSome
  · exact hold ((congrArg (Entries.get? id) (if_pos howned)).symm.trans ho)
  · have howners : (w.enter s b).owners = Entries.put b.value.id ⟨s.table, b.identifier⟩ w.owners := if_neg howned
    rw [howners, Entries.get?_put] at ho
    split at ho
    next hid =>
      cases ho
      have htable := (w.isOpen_iff s).1 hopen
      refine ⟨(List.getElem?_eq_some_iff.1 htable).1, fun _ => ⟨b, ?_, hid.symm⟩⟩
      exact CompileState.own?_enter hnone ((Adds.enter w s b).isOpen hopen)
    · exact hold ho

theorem OwnersSound.of_same (hw : w.OwnersSound) (h : SameRecords w w') : w'.OwnersSound := by
  have hopened : w'.opened = w.opened := by rw [opened, h.tables, opened]
  refine hw.of_places h.owners (Nat.le_of_eq (by rw [hopened])) fun id o ho hopen => ⟨hopened ▸ hopen, h.own? _ _⟩

theorem tables_of_append {more : List (Option (List (Binding κ)))} (h : w'.tables = w.tables ++ more) {i : Nat}
    (hi : i < w.opened.length) : w'.tables[i]? = w.tables[i]? := by
  rw [h, List.getElem?_append_left (by simpa [opened] using hi)]

/-- New tables have no owner's place. -/
theorem OwnersSound.append (hw : w.OwnersSound) {more : List (Option (List (Binding κ)))}
    (htables : w'.tables = w.tables ++ more) (howners : w'.owners = w.owners) : w'.OwnersSound := by
  refine hw.of_places howners (by simp [opened, htables]) fun id o ho hopen => ?_
  have hkept := tables_of_append htables (hw id o ho).1
  refine ⟨?_, own?_of_tables_eq hkept _⟩
  rw [opened, List.getElem?_map] at hopen ⊢
  rwa [← hkept]

theorem OwnersSound.owner?_append (hw : w.OwnersSound) {more : List (Option (List (Binding κ)))}
    (htables : w'.tables = w.tables ++ more) (howners : w'.owners = w.owners) (v : Value κ) :
    w'.owner? v = w.owner? v :=
  owner?_of_places howners (fun id o ho => own?_of_tables_eq (tables_of_append htables (hw id o ho).1) _) v

/-- The value belongs to the binding, which stands in the scope. -/
structure Owned (w : CompileState κ η) (s : Scope) (v : Value κ) (b : Binding κ) : Prop where
  place : Entries.get? v.id w.owners = some ⟨s.table, b.identifier⟩
  stands : w.own? s.table b.identifier = some b

theorem Owned.owner? {v : Value κ} (h : w.Owned s v b) : w.owner? v = some b := by
  rw [CompileState.owner?, h.place]
  exact h.stands

theorem Owned.later {v : Value κ} (h : w.Owned s v b) (htables : TablesKept w w') (hopen : w'.IsOpen s)
    (howners : Entries.get? v.id w'.owners = Entries.get? v.id w.owners) : w'.Owned s v b :=
  ⟨howners.trans h.place, htables.own? h.stands hopen⟩

/-- Entering a binding takes no value from its owner. -/
theorem Owned.get?_enter {v : Value κ} (h : w.Owned s v b) (t : Scope) (b' : Binding κ) :
    Entries.get? v.id (w.enter t b').owners = Entries.get? v.id w.owners := by
  by_cases howned : (w.owner? b'.value).isSome
  · exact congrArg (Entries.get? v.id) (if_pos howned)
  · have hid : v.id ≠ b'.value.id := by
      intro hid
      rw [← owner?_congr hid, h.owner?] at howned
      exact howned rfl
    rw [show (w.enter t b').owners = _ from if_neg howned, Entries.get?_put, if_neg hid]

theorem tables_drop_of_ne {i : Nat} (h : i ≠ s.table) : (w.drop s).tables[i]? = w.tables[i]? :=
  List.getElem?_set_ne (Ne.symm h)

theorem OwnersSound.drop (hw : w.OwnersSound) (s : Scope) : (w.drop s).OwnersSound := by
  refine hw.of_places rfl (Nat.le_of_eq (by simp [opened, CompileState.drop])) fun id o ho hopen => ?_
  have hne : o.table ≠ s.table := by
    intro heq
    simp only [opened, CompileState.drop, List.getElem?_map, heq, List.getElem?_set_self'] at hopen
    cases ht : w.tables[s.table]? <;> simp [ht] at hopen
  refine ⟨?_, own?_of_tables_eq (tables_drop_of_ne hne) _⟩
  rw [opened, List.getElem?_map] at hopen ⊢
  rwa [tables_drop_of_ne hne] at hopen

end CompileState

/-! ### Changes -/

section Changes

variable {s : Scope} {log more : List (Deed κ)} {w w' : CompileState κ η}

theorem Changes.isOpen (h : Changes s log w w') (hopen : w.IsOpen s) : w'.IsOpen s := h.adds.isOpen hopen

theorem Change.ownersSound (h : Change s log w w') (hw : w.OwnersSound) (hopen : w.IsOpen s) :
    w'.OwnersSound ∧ ∀ v, w'.owner? v = (w.owner? v).or ((Deed.bindings log).find? (·.value.same v)) := by
  obtain ⟨rfl, hsame⟩ | ⟨t, v, rfl, -, hmake⟩ | ⟨b, w₀, hb, -, hnone, hsame, rfl⟩ := h.cases
  · exact ⟨hw.of_same hsame, fun v => by simp [hsame.owner?]⟩
  · cases hmake
    refine ⟨hw.of_places rfl (Nat.le_refl _) fun _ _ _ h => ⟨h, rfl⟩, fun v => ?_⟩
    show _ = (w.owner? v).or none
    rw [Option.or_none]
    exact CompileState.owner?_of_places rfl (fun _ _ _ => rfl) v
  · have hw₀ := hw.of_same hsame
    have hopen₀ : w₀.IsOpen s := (Adds.of_same hsame.tables).isOpen hopen
    rw [← hsame.own?] at hnone
    refine ⟨hw₀.enter hopen₀ hnone, fun v => ?_⟩
    rw [hw₀.owner?_enter hopen₀ hnone, hsame.owner?, hb]
    cases hv : b.value.same v <;> simp [hv]

/-- What is done in a scope gives owners to the values that it binds and that have none. The owner is the
first of the bindings. -/
theorem Changes.ownersSound (h : Changes s log w w') (hw : w.OwnersSound) (hopen : w.IsOpen s) :
    w'.OwnersSound ∧ ∀ v, w'.owner? v = (w.owner? v).or ((Deed.bindings log).find? (·.value.same v)) := by
  induction h with
  | refl w => exact ⟨hw, fun v => by simp⟩
  | snoc h hlast ih =>
    obtain ⟨hw₁, howner₁⟩ := ih hw hopen
    obtain ⟨hw₂, howner₂⟩ := hlast.ownersSound hw₁ (h.isOpen hopen)
    refine ⟨hw₂, fun v => ?_⟩
    rw [howner₂, howner₁, Deed.bindings_append, List.find?_append, Option.or_assoc]

/-- What is done in a scope takes no value from its owner. -/
theorem Changes.owned (h : Changes s log w w') (hopen : w.IsOpen s) {t : Scope} (ht : w.IsOpen t) {v : Value κ}
    {b : Binding κ} (hv : w.Owned t v b) : w'.Owned t v b := by
  induction h with
  | refl w => exact hv
  | @snoc log more w w₁ w₂ h hlast ih =>
    have hv₁ := ih hopen ht hv
    have ht₂ : w₂.IsOpen t := by
      rw [CompileState.isOpen_iff, (h.snoc hlast).opened.1]
      exact (w.isOpen_iff t).1 ht
    refine hv₁.later (hlast.adds.tablesKept (h.isOpen hopen)) ht₂ ?_
    obtain ⟨-, hsame⟩ | ⟨u, x, -, -, hmake⟩ | ⟨b', w₀, -, -, -, hsame, rfl⟩ := hlast.cases
    · rw [hsame.owners]
    · cases hmake
      rfl
    · have hv₀ : w₀.Owned t v b := ⟨by rw [hsame.owners]; exact hv₁.place, by rw [hsame.own?]; exact hv₁.stands⟩
      rw [hv₀.get?_enter, hsame.owners]

/-- A binding of the account is one whose name was free, and that the name has afterwards. -/
theorem Changes.own?_bound (h : Changes s log w w') (hopen : w.IsOpen s) {b : Binding κ} (hb : b ∈ Deed.bindings log) :
    w.own? s.table b.identifier = none ∧ w'.own? s.table b.identifier = some b := by
  induction h with
  | refl w => cases hb
  | @snoc log more w w₁ w₂ h hlast ih =>
    have hopen₁ := h.isOpen hopen
    rw [Deed.bindings_append, List.mem_append] at hb
    rcases hb with hb | hb
    · obtain ⟨hnone, hsome⟩ := ih hopen hb
      refine ⟨hnone, ?_⟩
      rw [hlast.adds.own? hopen₁, hsome]
      rfl
    · obtain ⟨rfl, -⟩ | ⟨t, v, rfl, -, -⟩ | ⟨b', w₀, hb', -, hnone, hsame, rfl⟩ := hlast.cases
      · cases hb
      · cases hb
      · obtain rfl : b = b' := by simpa [hb'] using hb
        have hnone₁ := hnone
        rw [h.adds.own? hopen, Option.or_eq_none_iff] at hnone₁
        rw [← hsame.own?] at hnone
        refine ⟨hnone₁.1, CompileState.own?_enter hnone ?_⟩
        exact (Adds.enter w₀ s b).isOpen ((Adds.of_same hsame.tables).isOpen hopen₁)

end Changes

/-! ### Steps -/

section Steps

variable {host : Host κ η} {site site' start : Site κ η} {a : Action κ η} {actions : List (Action κ η)}
  {log more : List (Deed κ)} {s : Scope}

theorem Site.IsFresh.ownersSound (h : site.IsFresh) : site.state.OwnersSound := by
  intro id o ho
  rw [h.owners] at ho
  cases ho

theorem Advance.ownersSound (hstep : Advance host site a log site') (h : site.Sound) (hw : site.state.OwnersSound) :
    site'.state.OwnersSound := by
  cases hstep with
  | openRoot | openChild => exact hw.append rfl rfl
  | drop => exact hw.drop _
  | act hs _ _ hlog => exact (hlog.ownersSound hw (h.isOpen hs)).1

theorem History.ownersSound (h : History host start actions log site) (hstart : start.IsFresh) :
    site.state.OwnersSound := by
  induction h with
  | start => exact hstart.ownersSound
  | snoc h hstep ih => exact hstep.ownersSound (h.sound hstart.sound) ih

/-- As long as nothing is dropped, values get owners and keep them. -/
theorem Advance.owner? (hstep : Advance host site a log site') (h : site.Sound) (hw : site.state.OwnersSound)
    (hdrop : ∀ s, a ≠ .drop s) (v : Value κ) :
    site'.state.owner? v = (site.state.owner? v).or ((Deed.bindings log).find? (·.value.same v)) := by
  cases hstep with
  | openRoot | openChild =>
    rw [Deed.bindings_nil, List.find?_nil, Option.or_none]
    apply hw.owner?_append
    · rfl
    · rfl
  | drop => exact absurd rfl (hdrop _)
  | act hs _ _ hlog => exact (hlog.ownersSound hw (h.isOpen hs)).2 v

theorem History.owner? (h : History host start actions log site) (hstart : start.IsFresh)
    (hdrop : ∀ s, .drop s ∉ actions) (v : Value κ) :
    site.state.owner? v = (Deed.bindings log).find? (·.value.same v) := by
  induction h with
  | start => simp [CompileState.owner?, hstart.owners]
  | snoc h hstep ih =>
    simp only [List.mem_append, not_or, List.mem_singleton] at hdrop
    rw [hstep.owner? (h.sound hstart.sound) (h.ownersSound hstart) (fun s heq => (hdrop s).2 heq.symm),
      ih fun s => (hdrop s).1, Deed.bindings_append, List.find?_append]

/-- The owner of a value stands in an open scope and has that very value. -/
theorem Site.Sound.exists_owned (h : site.Sound) (hw : site.state.OwnersSound) {v : Value κ} {b : Binding κ}
    (hb : site.state.owner? v = some b) :
    b.value.same v = true ∧ ∃ s, site.IsOpen s ∧ site.state.Owned s v b := by
  obtain ⟨⟨i, identifier⟩, ho, hown⟩ := CompileState.owner?_eq_some hb
  obtain rfl := CompileState.identifier_of_own? hown
  have hopen := CompileState.opened_of_own? hown
  obtain ⟨b', hown', hid⟩ := (hw _ _ ho).2 hopen
  obtain rfl : b = b' := Option.some.inj (hown.symm.trans hown')
  obtain ⟨s, hs, rfl⟩ := (h.opened i).1 hopen
  exact ⟨beq_iff_eq.2 hid, s, hs, ho, hown⟩

/-- A value keeps its owner until the scope of the owner is dropped. -/
theorem Advance.owned (hstep : Advance host site a log site') (h : site.Sound) {v : Value κ} {b : Binding κ}
    (hs : site.IsOpen s) (hv : site.state.Owned s v b) (hdrop : a ≠ .drop s) : site'.state.Owned s v b := by
  have hopen := (hstep.sound h).isOpen (hstep.isOpen hs hdrop)
  have hkept := hstep.tablesKept h
  cases hstep with
  | openRoot | openChild | drop => exact hv.later hkept hopen rfl
  | act ht _ _ hlog => exact hlog.owned (h.isOpen ht) (h.isOpen hs) hv

theorem History.owned (h : History host site actions log site') (hsound : site.Sound) {v : Value κ} {b : Binding κ}
    (hs : site.IsOpen s) (hv : site.state.Owned s v b) (hdrop : .drop s ∉ actions) : site'.state.Owned s v b := by
  induction h with
  | start => exact hv
  | snoc h hstep ih =>
    rw [List.mem_append, not_or, List.mem_singleton] at hdrop
    exact hstep.owned (h.sound hsound) (h.isOpen hs hdrop.1) (ih hdrop.1) fun heq => hdrop.2 heq.symm

end Steps

/-! ### Tables and accounts -/

namespace Deed

def boundIn? (s : Scope) : Deed κ → Option (Binding κ)
  | .bound t b => if t = s then some b else none
  | .temporary .. | .declared .. | .aliased .. => none

/-- The bindings that were made in the scope, in their order. -/
def boundIn (s : Scope) (log : List (Deed κ)) : List (Binding κ) := log.filterMap (boundIn? s)

variable {s : Scope} {log : List (Deed κ)}

theorem boundIn_append (s : Scope) (log more : List (Deed κ)) :
    boundIn s (log ++ more) = boundIn s log ++ boundIn s more :=
  List.filterMap_append

theorem mem_boundIn {b : Binding κ} : b ∈ boundIn s log ↔ .bound s b ∈ log := by
  rw [boundIn, List.mem_filterMap]
  constructor
  · rintro ⟨deed, hdeed, hb⟩
    cases deed with
    | bound t b' =>
      rw [boundIn?] at hb
      split at hb <;> cases hb
      next ht =>
        subst ht
        exact hdeed
    | temporary | declared | aliased => cases hb
  · intro h
    exact ⟨_, h, if_pos rfl⟩

theorem boundIn_eq_nil (h : ∀ b, .bound s b ∉ log) : boundIn s log = [] :=
  List.eq_nil_iff_forall_not_mem.2 fun b hb => h b (mem_boundIn.1 hb)

theorem mem_bindings {b : Binding κ} (h : b ∈ bindings log) : ∃ t, .bound t b ∈ log := by
  rw [bindings, List.mem_filterMap] at h
  obtain ⟨deed, hdeed, hb⟩ := h
  cases deed with
  | bound t b' =>
    cases hb
    exact ⟨t, hdeed⟩
  | temporary | declared | aliased => cases hb

/-- Where all bindings are made in one scope. -/
theorem boundIn_eq_bindings (h : ∀ t b, .bound t b ∈ log → t = s) : boundIn s log = bindings log := by
  induction log with
  | nil => rfl
  | cons deed rest ih =>
    have hrest := ih fun t b ht => h t b (List.mem_cons_of_mem _ ht)
    rw [boundIn, bindings] at hrest ⊢
    cases deed with
    | bound t b =>
      have ht : t = s := h t b (List.mem_cons_self ..)
      rw [List.filterMap_cons_some (show boundIn? s (.bound t b) = some b from if_pos ht),
        List.filterMap_cons_some (show binding? (.bound t b) = some b from rfl), hrest]
    | temporary | declared | aliased => exact hrest

end Deed

theorem Changes.bound_scope {s : Scope} {log : List (Deed κ)} {w w' : CompileState κ η} (h : Changes s log w w') :
    ∀ t b, .bound t b ∈ log → t = s := by
  induction h with
  | refl => simp
  | snoc _ hlast ih =>
    intro t b hb
    rcases List.mem_append.1 hb with hb | hb
    · exact ih t b hb
    · cases hlast <;> simp_all

/-- The table of every open scope is what the account says, and the account is about scopes that exist. -/
structure Site.Recorded (site : Site κ η) (log : List (Deed κ)) : Prop where
  tables : ∀ s, site.IsOpen s → site.state.tables[s.table]? = some (some (Deed.boundIn s log))
  old : ∀ s b, .bound s b ∈ log → s.table < site.state.opened.length

section Recorded

variable {host : Host κ η} {site site' start : Site κ η} {a : Action κ η} {actions : List (Action κ η)}
  {log more : List (Deed κ)} {s : Scope}

/-- A scope that was just opened. -/
theorem Site.Recorded.withScope (h : site.Recorded log) (hsound : site.Sound) {w : CompileState κ η}
    {parent? : Option Scope} (htable : s.table = site.state.opened.length)
    (hw : w.tables = site.state.tables ++ [some []]) : (Site.mk ((s, parent?) :: site.scopes) w).Recorded log := by
  refine ⟨fun t ht => ?_, fun t b hb => ?_⟩
  · rcases Site.isOpen_cons.1 ht with rfl | ht
    · rw [Deed.boundIn_eq_nil fun b hb => Nat.lt_irrefl _ (htable ▸ h.old t b hb), hw, htable]
      simp [CompileState.opened]
    · rw [CompileState.tables_of_append hw (hsound.table_lt ht)]
      exact h.tables t ht
  · have hlt := h.old t b hb
    simp only [CompileState.opened, List.length_map] at hlt ⊢
    rw [hw, List.length_append]
    omega

/-- What is done in a scope is recorded in its table and in no other. -/
theorem Site.Recorded.withChanges (h : site.Recorded log) (hsound : site.Sound) {w : CompileState κ η}
    (hs : site.IsOpen s) (hmore : Changes s more site.state w) : (Site.mk site.scopes w).Recorded (log ++ more) := by
  refine ⟨fun t (ht : site.IsOpen t) => ?_, fun t b hb => ?_⟩
  · rw [Deed.boundIn_append]
    by_cases heq : t = s
    · subst heq
      rw [Deed.boundIn_eq_bindings hmore.bound_scope]
      exact hmore.adds.own _ (h.tables t ht)
    · rw [Deed.boundIn_eq_nil fun b hb => heq (hmore.bound_scope t b hb), List.append_nil]
      exact hmore.adds.others _ _ (fun htable => heq (hsound.apart t s ht hs htable)) (h.tables t ht)
  · show t.table < w.opened.length
    rw [hmore.opened.1]
    rcases List.mem_append.1 hb with hb | hb
    · exact h.old t b hb
    · rw [hmore.bound_scope t b hb]
      exact hsound.table_lt hs

theorem Advance.recorded (hstep : Advance host site a more site') (h : site.Sound) (hlog : site.Recorded log) :
    site'.Recorded (log ++ more) := by
  cases hstep with
  | openRoot =>
    rw [List.append_nil]
    exact hlog.withScope h (by simp [CompileState.addRoot, CompileState.opened]) rfl
  | openChild =>
    rw [List.append_nil]
    exact hlog.withScope h (by simp [CompileState.addChild, CompileState.opened]) rfl
  | drop hs _ =>
    rw [List.append_nil]
    refine ⟨fun t ht => ?_, fun t b hb => ?_⟩
    · obtain ⟨ht, hne⟩ := Site.isOpen_without.1 ht
      rw [← hlog.tables t ht]
      exact CompileState.tables_drop_of_ne fun htable => hne (h.apart t _ ht hs htable)
    · have hlt := hlog.old t b hb
      simpa [Site.without, CompileState.opened, CompileState.drop] using hlt
  | act hs _ _ hmore => exact hlog.withChanges h hs hmore

theorem History.recorded (h : History host start actions log site) (hstart : start.IsFresh) : site.Recorded log := by
  induction h with
  | start =>
    refine ⟨fun s hs => ?_, fun s b hb => ?_⟩
    · obtain ⟨parent, hs⟩ := hs
      rw [hstart.scopes] at hs
      cases hs
    · cases hb
  | snoc h hstep ih => exact hstep.recorded (h.sound hstart.sound) ih

theorem Site.Recorded.bound_of_own? (h : site.Recorded log) (hs : site.IsOpen s) {identifier : String}
    {b : Binding κ} (hb : site.state.own? s.table identifier = some b) : .bound s b ∈ log := by
  rw [CompileState.own?_of_tables (h.tables s hs)] at hb
  exact Deed.mem_boundIn.1 (List.mem_of_find?_eq_some hb)

theorem Advance.changes {op : Operation κ η} (hstep : Advance host site (.act s op) log site') :
    site.IsOpen s ∧ Changes s log site.state site'.state := by
  cases hstep with
  | act hs _ _ hlog => exact ⟨hs, hlog⟩

/-- A value that gets an owner by an operation is one that the operation bound. -/
theorem Advance.bound_of_owner? {op : Operation κ η} (hstep : Advance host site (.act s op) log site') (h : site.Sound)
    (hw : site.state.OwnersSound) {v : Value κ} {b : Binding κ} (hnone : site.state.owner? v = none)
    (hb : site'.state.owner? v = some b) : b ∈ Deed.bindings log ∧ b.value.same v = true := by
  rw [hstep.owner? h hw (by simp), hnone, Option.none_or] at hb
  have hsame := List.find?_some hb
  exact ⟨List.mem_of_find?_eq_some hb, hsame⟩

end Recorded

/-- A scope was numbered by the counter of its compilation. -/
theorem Site.Sound.id_lt {site : Site κ η} (h : site.Sound) {s : Scope} (hs : site.IsOpen s) :
    s.id < (site.state.countersOf s).scopes := by
  obtain ⟨n, hn, hlt⟩ := h.numbered s hs
  obtain ⟨c, hc, rfl⟩ := Option.map_eq_some_iff.1 (List.getElem?_map .. ▸ hn)
  rwa [CompileState.countersOf, hc, Option.getD_some]

theorem Site.Sound.eq_of_words {site : Site κ η} (h : site.Sound) {s t : Scope} (hs : site.IsOpen s)
    (ht : site.IsOpen t) (hcomp : t.compilation = s.compilation)
    (hlt : (site.state.countersOf s).scopes < Counters.limit)
    (hid : BitVec.ofNat 32 t.id = BitVec.ofNat 32 s.id) : t = s := by
  have hword {n : Nat} (hn : n < (site.state.countersOf s).scopes) : (BitVec.ofNat 32 n).toNat = n :=
    Nat.mod_eq_of_lt (Nat.lt_trans hn hlt)
  have ht' : t.id < (site.state.countersOf s).scopes := by
    have hlt' := h.id_lt ht
    rwa [CompileState.countersOf, hcomp] at hlt'
  refine h.distinct t s ht hs hcomp ?_
  rw [← hword ht', hid, hword (h.id_lt hs)]

/-- Owners in every history in which bindings carry the number of their scope. The owner of a value is a binding
with that very value, it stands under its name in the open scope whose number it carries, and it stays the owner
until that scope is dropped. The number tells the scope from the others of its compilation, and so do 32 bits of it
as long as these are enough to count them. An operation, whether it succeeds or fails, gives no value an owner but
those that it binds, under names that were free. Until a scope is dropped, the owner of a value is the first binding
that was made for it. The account has all bindings, as name tables show. -/
theorem owners_are_first_bindings {host : Host κ η} {start site : Site κ η} {actions : List (Action κ η)}
    {log : List (Deed κ)} (hstart : start.IsFresh) (h : History host start actions log site)
    (hids : ∀ s b, .bound s b ∈ log → b.scope = s.id) :
    (∀ v b, site.state.owner? v = some b → b.value.same v = true ∧
      ∃ s, site.IsOpen s ∧ s.id = b.scope ∧
        (∀ t, site.IsOpen t → t.compilation = s.compilation → t.id = b.scope → t = s) ∧
        ((site.state.countersOf s).scopes < Counters.limit → ∀ t, site.IsOpen t → t.compilation = s.compilation →
          BitVec.ofNat 32 t.id = BitVec.ofNat 32 b.scope → t = s) ∧
        site.state.own? s.table b.identifier = some b ∧
        ∀ actions' more site', History host site actions' more site' → .drop s ∉ actions' →
          site'.state.owner? v = some b) ∧
    (∀ s op more site', Advance host site (.act s op) more site' → ∀ v b, site.state.owner? v = none →
      site'.state.owner? v = some b → .bound s b ∈ more ∧ b.value.same v = true ∧
        site.state.own? s.table b.identifier = none ∧ site'.state.own? s.table b.identifier = some b) ∧
    ((∀ s, .drop s ∉ actions) → ∀ v, site.state.owner? v = (Deed.bindings log).find? (·.value.same v)) ∧
    ∀ s, site.IsOpen s → site.state.table s.table = Deed.boundIn s log := by
  have hsound := h.sound hstart.sound
  have hw := h.ownersSound hstart
  have hrecorded := h.recorded hstart
  refine ⟨fun v b hb => ?_, fun s op more site' hstep v b hnone hb => ?_, fun hdrop v => h.owner? hstart hdrop v,
    fun s hs => ?_⟩
  · obtain ⟨hsame, s, hs, hv⟩ := hsound.exists_owned hw hb
    have hid : b.scope = s.id := hids s b (hrecorded.bound_of_own? hs hv.stands)
    refine ⟨hsame, s, hs, hid.symm, fun t ht hcomp ht' => ?_, fun hlt t ht hcomp ht' => ?_, hv.stands,
      fun actions' more site' h' hdrop => ?_⟩
    · exact hsound.distinct t s ht hs hcomp (ht'.trans hid)
    · exact hsound.eq_of_words hs ht hcomp hlt (hid ▸ ht')
    · exact (h'.owned hsound hs hv hdrop).owner?
  · obtain ⟨hs, hchanges⟩ := hstep.changes
    obtain ⟨hbound, hsame⟩ := hstep.bound_of_owner? hsound hw hnone hb
    obtain ⟨t, ht⟩ := Deed.mem_bindings hbound
    obtain rfl := hchanges.bound_scope t b ht
    exact ⟨ht, hsame, hchanges.own?_bound (hsound.isOpen hs) hbound⟩
  · rw [CompileState.table, hrecorded.tables s hs]

/-- Another name for the outer variable, in the inner scope. -/
def aliasX : Binding Unit := ⟨"y", "y:3:4", 1, outerX.value, true⟩

def aliasActions : List (Action Unit Unit) := [.act innerScope (.bind aliasX), .drop innerScope]

/-- The outer variable belongs to its first binding, and neither the alias nor the end of the alias changes that. -/
theorem shadowed_owners :
    Site.initial.IsFresh ∧ History (.inert Unit Unit) .initial shadowingActions shadowingLog .shadowed ∧
      (∀ s b, .bound s b ∈ shadowingLog → b.scope = s.id) ∧ Site.shadowed.state.owner? outerX.value = some outerX ∧
      ∃ site, History (.inert Unit Unit) .shadowed aliasActions [.bound innerScope aliasX] site ∧
        site.state.owner? outerX.value = some outerX := by
  have hids : ∀ s b, .bound s b ∈ shadowingLog → b.scope = s.id := by
    intro s b hb
    simp only [shadowingLog, List.mem_cons, Deed.bound.injEq, reduceCtorEq, List.not_mem_nil, or_false,
      false_or] at hb
    rcases hb with ⟨rfl, rfl⟩ | ⟨rfl, rfl⟩
    · rfl
    · rfl
  have hfirst : Site.shadowed.state.owner? outerX.value = some outerX := rfl
  have halias : History (.inert Unit Unit) .shadowed (aliasActions.take 1) [.bound innerScope aliasX] _ :=
    History.start.snoc (.act innerScope_isOpen trivial (yields_of_ok rfl ⟨rfl, rfl⟩) (.single (.bind aliasX rfl)))
  have hlater : History (.inert Unit Unit) .shadowed aliasActions [.bound innerScope aliasX] _ :=
    halias.snoc (.drop innerScope_isOpen (by simp [Site.shadowed, innerScope, outerScope]))
  obtain ⟨howner, -⟩ := owners_are_first_bindings Site.initial_isFresh shadowed_history hids
  obtain ⟨-, s, ⟨parent, hs⟩, hid, -, -, -, hkept⟩ := howner _ _ hfirst
  have houter : s = outerScope := by
    simp only [Site.shadowed, List.mem_cons, Prod.mk.injEq, List.not_mem_nil, or_false] at hs
    rcases hs with ⟨rfl, -⟩ | ⟨rfl, -⟩
    · cases hid
    · rfl
  exact ⟨Site.initial_isFresh, shadowed_history, hids, hfirst, _, hlater,
    hkept _ _ _ hlater (by simp [aliasActions, houter, innerScope, outerScope])⟩

end DeclCompiler
