import DeclCompiler.Proofs.History

/-!
Names of the variables in the program. A declared variable is named after its identifier, unless that is left
out, and the place of the identifier; the place can be read off the end of the name, whatever the identifier
is. A temporary is named after its number, which its compilation gives out once. So variables of one
compilation have different names if their identifiers stand in different places.
-/

namespace DeclCompiler

variable {κ η : Type}

/-! ### Reading names -/

theorem colon_notMem_toDigits (n : Nat) : ':' ∉ Nat.toDigits 10 n := by
  intro h
  have hdigit := Nat.isDigit_of_mem_toDigits (by decide) (by decide) h
  exact absurd hdigit (by decide)

theorem toDigits_inj {m n : Nat} : Nat.toDigits 10 m = Nat.toDigits 10 n ↔ m = n := by
  constructor
  · intro h
    have hread := congrArg (Nat.ofDigitChars 10 · 0) h
    simpa using hread
  · rintro rfl
    rfl

/-- A text is cut at its last colon in one way. -/
theorem append_colon_inj {a a' d d' : List Char} (hd : ':' ∉ d) (hd' : ':' ∉ d') :
    a ++ ':' :: d = a' ++ ':' :: d' ↔ a = a' ∧ d = d' := by
  constructor
  · intro h
    rcases List.append_eq_append_iff.1 h with ⟨gap, rfl, hgap⟩ | ⟨gap, rfl, hgap⟩
    · cases gap with
      | nil => simpa using hgap
      | cons c rest =>
        obtain ⟨-, rfl⟩ := List.cons.inj hgap
        exact absurd (List.mem_append_right rest (List.mem_cons_self ..)) hd
    · cases gap with
      | nil => simpa using hgap.symm
      | cons c rest =>
        obtain ⟨-, rfl⟩ := List.cons.inj hgap
        exact absurd (List.mem_append_right rest (List.mem_cons_self ..)) hd'
  · rintro ⟨rfl, rfl⟩
    rfl

/-- What stands before the column in the name of a declared variable. -/
def nameHead (line : Nat) : Option String → List Char
  | none => Nat.toDigits 10 line
  | some identifier => identifier.toList ++ ':' :: Nat.toDigits 10 line

theorem toList_declaredName (span : Span) (identifier : Option String) :
    (declaredName span identifier).toList =
      nameHead span.start.line identifier ++ ':' :: Nat.toDigits 10 span.start.column := by
  cases identifier <;> simp [declaredName, nameHead, Position.text]

theorem nameHead_inj {line line' : Nat} {identifier identifier' : Option String} :
    nameHead line identifier = nameHead line' identifier' ↔ line = line' ∧ identifier = identifier' := by
  have hne (name : String) (line line' : Nat) : nameHead line none ≠ nameHead line' (some name) := by
    intro h
    have hcolon : ':' ∈ nameHead line' (some name) := List.mem_append_right _ (List.mem_cons_self ..)
    rw [← h] at hcolon
    exact colon_notMem_toDigits line hcolon
  cases identifier with
  | none =>
    cases identifier' with
    | none => simp [nameHead, toDigits_inj]
    | some name' => simp [hne name' line line']
  | some name =>
    cases identifier' with
    | none => simp [(hne name line' line).symm]
    | some name' =>
      rw [nameHead, nameHead, append_colon_inj (colon_notMem_toDigits _) (colon_notMem_toDigits _), toDigits_inj,
        String.toList_inj, Option.some.injEq, and_comm]

/-- The name of a declared variable tells its place and its identifier, if it has one. -/
theorem declaredName_eq_iff (span span' : Span) (identifier identifier' : Option String) :
    declaredName span identifier = declaredName span' identifier' ↔
      span.start.line = span'.start.line ∧ span.start.column = span'.start.column ∧ identifier = identifier' := by
  rw [← String.toList_inj, toList_declaredName, toList_declaredName,
    append_colon_inj (colon_notMem_toDigits _) (colon_notMem_toDigits _), nameHead_inj, toDigits_inj]
  constructor
  · rintro ⟨⟨hline, hidentifier⟩, hcolumn⟩
    exact ⟨hline, hcolumn, hidentifier⟩
  · rintro ⟨hline, hcolumn, hidentifier⟩
    exact ⟨⟨hline, hidentifier⟩, hcolumn⟩

theorem temporaryName_inj {m n : Nat} : temporaryName m = temporaryName n ↔ m = n := by
  rw [temporaryName, temporaryName, String.append_right_inj, ← String.toList_inj, Nat.toList_repr, Nat.toList_repr,
    toDigits_inj]

/-- The name of a declared variable has a colon, and that of a temporary has none. -/
theorem declaredName_ne_temporaryName (span : Span) (identifier : Option String) (n : Nat) :
    declaredName span identifier ≠ temporaryName n := by
  intro h
  have hcolon : ':' ∈ (declaredName span identifier).toList := by
    rw [toList_declaredName]
    exact List.mem_append_right _ (List.mem_cons_self ..)
  have hnone : ':' ∉ (temporaryName n).toList := by
    simp [temporaryName, colon_notMem_toDigits]
  exact hnone (h ▸ hcolon)

/-! ### Numbers of temporaries -/

/-- How many temporaries the compilation has had. -/
def CompileState.temporaries (w : CompileState κ η) (k : Nat) : Nat := (w.counters[k]?.getD ⟨0, 0⟩).temporaries

namespace Deed

def temporary? (k : Nat) : Deed κ → Option (Value κ)
  | .temporary t v => if t.compilation = k then some v else none
  | .declared .. | .aliased .. | .bound .. => none

def store? (k : Nat) : Deed κ → Option (Identifier × Value κ)
  | .declared s id v => if s.compilation = k then some (id, v) else none
  | .temporary .. | .aliased .. | .bound .. => none

/-- The temporaries of a compilation, in the order of their making. -/
def temporaries (k : Nat) (log : List (Deed κ)) : List (Value κ) := log.filterMap (temporary? k)

/-- The variables that declarations made in a compilation, with their identifiers. -/
def stores (k : Nat) (log : List (Deed κ)) : List (Identifier × Value κ) := log.filterMap (store? k)

variable {k : Nat} {log : List (Deed κ)}

theorem temporaries_append (k : Nat) (log more : List (Deed κ)) :
    temporaries k (log ++ more) = temporaries k log ++ temporaries k more :=
  List.filterMap_append

theorem temporaries_eq_nil (h : ∀ deed ∈ log, ∀ t v, deed ≠ .temporary t v) : temporaries k log = [] := by
  rw [temporaries, List.filterMap_eq_nil_iff]
  intro deed hdeed
  cases deed with
  | temporary t v => exact absurd rfl (h _ hdeed t v)
  | declared | aliased | bound => rfl

theorem mem_stores {id : Identifier} {v : Value κ} (h : (id, v) ∈ stores k log) : ∃ s, .declared s id v ∈ log := by
  rw [stores, List.mem_filterMap] at h
  obtain ⟨deed, hdeed, heq⟩ := h
  cases deed with
  | declared s id' v' =>
    rw [store?] at heq
    split at heq <;> cases heq
    exact ⟨s, hdeed⟩
  | temporary | aliased | bound => cases heq

end Deed

/-- The temporaries of every compilation are named after the numbers from zero on, and the state counts them. -/
def CompileState.Counts (w : CompileState κ η) (log : List (Deed κ)) : Prop :=
  ∀ k, (Deed.temporaries k log).map Value.text = (List.range (w.temporaries k)).map temporaryName

section Counting

variable {host : Host κ η} {site site' start : Site κ η} {a : Action κ η} {actions : List (Action κ η)}
  {log more : List (Deed κ)} {s t : Scope} {w w' : CompileState κ η} {v : Value κ} {k : Nat}

theorem CompileState.Counts.of_same (h : w.Counts log) (hcounters : ∀ k, w'.temporaries k = w.temporaries k)
    (hmore : ∀ k, Deed.temporaries k more = []) : w'.Counts (log ++ more) := by
  intro k
  rw [Deed.temporaries_append, hmore, List.append_nil, hcounters]
  exact h k

/-- Only the compilation of the scope counts a temporary more. -/
theorem temporaries_makeTemporary (ht : t.compilation < w.counters.length) (h : t.makeTemporary w = .ok v w') :
    v.text = temporaryName (w.temporaries t.compilation) ∧
      ∀ k, w'.temporaries k = if t.compilation = k then w.temporaries k + 1 else w.temporaries k := by
  cases h
  refine ⟨rfl, fun k => ?_⟩
  simp only [CompileState.temporaries, List.getElem?_modify]
  split
  next hk =>
    subst hk
    simp [List.getElem?_eq_getElem ht]
  · simp

theorem Change.counts (h : Change s more w w') (hw : w.Counts log) : w'.Counts (log ++ more) := by
  obtain ⟨rfl, hsame⟩ | ⟨t, v, rfl, ht, hmake⟩ | ⟨b, w₀, -, hmore, -, hsame, rfl⟩ := h.cases
  · exact hw.of_same (fun k => by rw [CompileState.temporaries, hsame.counters]; rfl) fun _ => rfl
  · obtain ⟨hname, hcount⟩ := temporaries_makeTemporary ht hmake
    intro k
    rw [Deed.temporaries_append, List.map_append, hw k, hcount]
    by_cases hk : t.compilation = k
    · subst hk
      simp [Deed.temporaries, Deed.temporary?, List.range_succ, hname]
    · simp [Deed.temporaries, Deed.temporary?, hk]
  · refine hw.of_same (fun k => ?_) fun k => Deed.temporaries_eq_nil hmore
    show w₀.temporaries k = w.temporaries k
    rw [CompileState.temporaries, hsame.counters]
    rfl

theorem Changes.counts (h : Changes s more w w') (hw : w.Counts log) : w'.Counts (log ++ more) := by
  induction h with
  | refl w => rwa [List.append_nil]
  | snoc _ hlast ih =>
    rw [← List.append_assoc]
    exact hlast.counts (ih hw)

theorem temporaries_addRoot (w : CompileState κ η) (k : Nat) : w.addRoot.2.temporaries k = w.temporaries k := by
  simp only [CompileState.temporaries, CompileState.addRoot, List.getElem?_append]
  split
  · rfl
  next hk =>
    rw [List.getElem?_eq_none (Nat.le_of_not_lt hk), List.getElem?_singleton]
    split <;> rfl

theorem temporaries_addChild (w : CompileState κ η) (parent : Scope) (k : Nat) :
    (w.addChild parent).2.temporaries k = w.temporaries k := by
  simp only [CompileState.temporaries, CompileState.addChild, List.getElem?_modify]
  split
  · cases w.counters[k]? <;> rfl
  · cases w.counters[k]? <;> rfl

theorem Advance.counts (hstep : Advance host site a more site') (h : site.state.Counts log) :
    site'.state.Counts (log ++ more) := by
  cases hstep with
  | openRoot => exact h.of_same (temporaries_addRoot _) fun _ => rfl
  | openChild => exact h.of_same (temporaries_addChild _ _) fun _ => rfl
  | drop => exact h.of_same (fun _ => rfl) fun _ => rfl
  | act _ _ _ hlog => exact hlog.counts h

theorem History.counts (h : History host start actions log site) (hstart : start.IsFresh) :
    site.state.Counts log := by
  induction h with
  | start =>
    intro k
    simp [CompileState.temporaries, hstart.counters, Deed.temporaries]
  | snoc _ hstep ih => exact hstep.counts ih

end Counting

/-! ### Names of declared variables -/

/-- Every variable of the account is named after its identifier, in the one way or the other. -/
def Deed.Named (log : List (Deed κ)) : Prop :=
  ∀ s id v, .declared s id v ∈ log → ∃ identifier, v.text = declaredName id.span identifier

theorem Changes.named {s : Scope} {log : List (Deed κ)} {w w' : CompileState κ η} (h : Changes s log w w') :
    Deed.Named log := by
  induction h with
  | refl => exact fun _ _ _ h => absurd h List.not_mem_nil
  | snoc _ hlast ih =>
    intro s id v hv
    rcases List.mem_append.1 hv with hv | hv
    · exact ih s id v hv
    · cases hlast with
      | declared c id' h =>
        simp only [List.mem_cons, Deed.declared.injEq, reduceCtorEq, List.not_mem_nil, or_false] at hv
        obtain ⟨-, rfl, rfl⟩ := hv
        rw [c.makeStore_eq] at h
        split at h <;> cases h
        exact ⟨_, rfl⟩
      | value | grade | note | temporary | bind | aliased => simp at hv

theorem Advance.named {host : Host κ η} {site site' : Site κ η} {a : Action κ η} {log : List (Deed κ)}
    (hstep : Advance host site a log site') : Deed.Named log := by
  cases hstep with
  | openRoot | openChild | drop => exact fun _ _ _ h => absurd h List.not_mem_nil
  | act _ _ _ hlog => exact hlog.named

theorem History.named {host : Host κ η} {start site : Site κ η} {actions : List (Action κ η)} {log : List (Deed κ)}
    (h : History host start actions log site) : Deed.Named log := by
  induction h with
  | start => exact fun _ _ _ h => absurd h List.not_mem_nil
  | snoc _ hstep ih =>
    intro s id v hv
    rcases List.mem_append.1 hv with hv | hv
    · exact ih s id v hv
    · exact hstep.named s id v hv

theorem temporaryNames_nodup (n : Nat) : ((List.range n).map temporaryName).Nodup := by
  rw [List.Nodup, List.pairwise_map]
  exact List.pairwise_lt_range.imp fun hlt heq => Nat.ne_of_lt hlt (temporaryName_inj.1 heq)

/-- Variables whose identifiers stand in different places have different names. -/
theorem Deed.Named.nodup {log : List (Deed κ)} (h : Deed.Named log) {k : Nat}
    (hplaces : ((Deed.stores k log).map (·.1.span.start)).Nodup) : ((Deed.stores k log).map (·.2.text)).Nodup := by
  rw [List.Nodup, List.pairwise_map] at hplaces ⊢
  refine hplaces.imp_of_mem fun {x y} hx hy hne heq => ?_
  obtain ⟨s, hx⟩ := Deed.mem_stores hx
  obtain ⟨t, hy⟩ := Deed.mem_stores hy
  obtain ⟨identifier, hname⟩ := h _ _ _ hx
  obtain ⟨identifier', hname'⟩ := h _ _ _ hy
  rw [hname, hname', declaredName_eq_iff] at heq
  exact hne (by rw [Position.mk.injEq]; exact ⟨heq.1, heq.2.1⟩)

/-- Names of variables in every history. The temporaries of a compilation are named after their numbers, in the
order in which they were asked for in any of its scopes. If its declared variables come from identifiers in
different places, all their names and those of the temporaries differ. Every run has an account that tells which
identifiers were declared. A name tells the place and the identifier that it was made of, and no declared variable
is named like a temporary. -/
theorem store_names_differ {host : Host κ η} {start site : Site κ η} {actions : List (Action κ η)} {log : List (Deed κ)}
    (hstart : start.IsFresh) (h : History host start actions log site) :
    (∀ k, (Deed.temporaries k log).map Value.text =
        (List.range (Deed.temporaries k log).length).map temporaryName ∧
      (((Deed.stores k log).map (·.1.span.start)).Nodup →
        ((Deed.temporaries k log ++ (Deed.stores k log).map (·.2)).map Value.text).Nodup)) ∧
    (host.Local → ∀ s op, site.IsOpen s → op.IsLocal → ∃ more site', Advance host site (.act s op) more site') ∧
    (∀ span span' identifier identifier', declaredName span identifier = declaredName span' identifier' ↔
      span.start.line = span'.start.line ∧ span.start.column = span'.start.column ∧ identifier = identifier') ∧
    ∀ span identifier n, declaredName span identifier ≠ temporaryName n := by
  have hcounts := h.counts hstart
  refine ⟨fun k => ⟨?_, fun hplaces => ?_⟩, fun hhost s op hs hop => Operation.exists_advance hhost hs hop,
    declaredName_eq_iff, declaredName_ne_temporaryName⟩
  · have hlength : (Deed.temporaries k log).length = site.state.temporaries k := by
      have hlength := congrArg List.length (hcounts k)
      simpa using hlength
    rw [hlength]
    exact hcounts k
  · rw [List.map_append, List.map_map, hcounts k, List.nodup_append]
    refine ⟨temporaryNames_nodup _, h.named.nodup hplaces, ?_⟩
    intro name hname name' hname' heq
    obtain ⟨n, -, rfl⟩ := List.mem_map.1 hname
    obtain ⟨⟨id, v⟩, hv, rfl⟩ := List.mem_map.1 hname'
    obtain ⟨s, hs⟩ := Deed.mem_stores hv
    obtain ⟨identifier, hidentifier⟩ := h.named s id v hs
    exact declaredName_ne_temporaryName id.span identifier n (hidentifier ▸ heq.symm)

/-- The identifier in `let y;` on the first line. -/
def firstY : Identifier := ⟨"y", .onLine 1 9 10⟩

def compactY : Binding Unit := ⟨"y", "1:9", 0, .store 3 "1:9" false, false⟩

def Options.compact : Options := { Options.standard with compactNames := true }

/-- Both scopes declare a variable and ask for a temporary, the one with compact names and the other without. -/
def mixedActions : List (Action Unit Unit) :=
  shadowingActions ++
    [.act outerScope
      (.declare .compact (.basic (.inert Unit Unit) []) (.pattern .letDecl (.identifier firstY) none))] ++
    [.act outerScope .makeTemporary]

def mixedLog : List (Deed Unit) :=
  shadowingLog ++ [.declared outerScope firstY compactY.value, .bound outerScope compactY] ++
    [.temporary outerScope (.store 4 "&t1" true)]

theorem mixed_history : ∃ site, History (.inert Unit Unit) .initial mixedActions mixedLog site := by
  have hevaluator : (Evaluator.basic (.inert Unit Unit) []).Local := Evaluator.basic_local Host.inert_local []
  have hdeclared : History (.inert Unit Unit) .initial (mixedActions.take 6) (mixedLog.take 6) _ :=
    shadowed_history.snoc (.act outerScope_isOpen hevaluator (yields_of_ok rfl ⟨rfl, rfl⟩)
      (.single (.declared ⟨.inert Unit Unit, .compact, .basic (.inert Unit Unit) []⟩ firstY rfl)))
  exact ⟨_, hdeclared.snoc (.act outerScope_isOpen trivial (yields_of_ok rfl ⟨rfl, rfl⟩)
    (.single (.temporary outerScope Nat.one_pos rfl)))⟩

theorem mixed_names_differ :
    Site.initial.IsFresh ∧ (∃ site, History (.inert Unit Unit) .initial mixedActions mixedLog site) ∧
      ((Deed.stores 0 mixedLog).map (·.1.span.start)).Nodup ∧
      (Deed.temporaries 0 mixedLog ++ (Deed.stores 0 mixedLog).map (·.2)).map Value.text =
        ["&t0", "&t1", "x:2:4", "1:9"] ∧
      ((Deed.temporaries 0 mixedLog ++ (Deed.stores 0 mixedLog).map (·.2)).map Value.text).Nodup := by
  have hplaces : ((Deed.stores 0 mixedLog).map (·.1.span.start)).Nodup := by decide
  obtain ⟨site, hmixed⟩ := mixed_history
  exact ⟨Site.initial_isFresh, ⟨site, hmixed⟩, hplaces, rfl,
    ((store_names_differ Site.initial_isFresh hmixed).1 0).2 hplaces⟩

end DeclCompiler
