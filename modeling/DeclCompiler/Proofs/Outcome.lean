import DeclCompiler.Compiler

/-!
How actions end. An action either succeeds or fails, and in both cases it leaves a state behind, so
a statement about it has two parts. The laws below take actions apart at their binds, and move the
attribution of errors and instructions inwards.
-/

namespace DeclCompiler

section Yields

variable {ε σ α β : Type}

/-- From the state `w` the action succeeds as `ok` says or fails as `failed` says. -/
def Yields (x : EStateM ε σ α) (w : σ) (ok : α → σ → Prop) (failed : ε → σ → Prop) : Prop :=
  match x w with
  | .ok a w' => ok a w'
  | .error e w' => failed e w'

variable {x : EStateM ε σ α} {w : σ} {ok ok' : α → σ → Prop} {failed failed' : ε → σ → Prop}

theorem Yields.mono (h : Yields x w ok failed) (hok : ∀ a w', ok a w' → ok' a w')
    (hfailed : ∀ e w', failed e w' → failed' e w') : Yields x w ok' failed' := by
  unfold Yields at h ⊢
  cases hx : x w with
  | ok a w' => rw [hx] at h; exact hok a w' h
  | error e w' => rw [hx] at h; exact hfailed e w' h

theorem Yields.and (h : Yields x w ok failed) (h' : Yields x w ok' failed') :
    Yields x w (fun a w' => ok a w' ∧ ok' a w') (fun e w' => failed e w' ∧ failed' e w') := by
  unfold Yields at h h' ⊢
  cases hx : x w with
  | ok a w' =>
    rw [hx] at h h'
    exact ⟨h, h'⟩
  | error e w' =>
    rw [hx] at h h'
    exact ⟨h, h'⟩

theorem Yields.of_ok {a : α} {w' : σ} (h : Yields x w ok failed) (hx : x w = .ok a w') : ok a w' := by
  unfold Yields at h
  rwa [hx] at h

theorem Yields.of_error {e : ε} {w' : σ} (h : Yields x w ok failed) (hx : x w = .error e w') : failed e w' := by
  unfold Yields at h
  rwa [hx] at h

@[simp] theorem yields_pure (a : α) : Yields (pure a) w ok failed ↔ ok a w := Iff.rfl

@[simp] theorem yields_throw (e : ε) : Yields (throw e : EStateM ε σ α) w ok failed ↔ failed e w := Iff.rfl

@[simp] theorem yields_bind (f : α → EStateM ε σ β) {ok : β → σ → Prop} :
    Yields (x >>= f) w ok failed ↔ Yields x w (fun a w' => Yields (f a) w' ok failed) failed := by
  unfold Yields
  simp only [bind, EStateM.bind]
  cases x w <;> rfl

@[simp] theorem yields_map (f : α → β) {ok : β → σ → Prop} :
    Yields (f <$> x) w ok failed ↔ Yields x w (fun a w' => ok (f a) w') failed := by
  rw [← bind_pure_comp, yields_bind]
  rfl

@[simp] theorem yields_get {ok : σ → σ → Prop} :
    Yields (get : EStateM ε σ σ) w ok failed ↔ ok w w := Iff.rfl

theorem bind_of_ok {a : α} {w' : σ} (hx : x w = .ok a w') (f : α → EStateM ε σ β) : (x >>= f) w = f a w' := by
  simp only [bind, EStateM.bind, hx]

theorem bind_of_error {e : ε} {w' : σ} (hx : x w = .error e w') (f : α → EStateM ε σ β) :
    (x >>= f) w = .error e w' := by
  simp only [bind, EStateM.bind, hx]

theorem map_of_ok {a : α} {w' : σ} (hx : x w = .ok a w') (f : α → β) : (f <$> x) w = .ok (f a) w' := by
  rw [← bind_pure_comp, bind_of_ok hx]
  rfl

theorem map_of_error {e : ε} {w' : σ} (hx : x w = .error e w') (f : α → β) : (f <$> x) w = .error e w' := by
  rw [← bind_pure_comp, bind_of_error hx]

theorem eq_of_map_const {b b' : β} {w' : σ} (h : ((fun _ => b) <$> x) w = .ok b' w') : b' = b := by
  cases hx : x w with
  | ok a w₁ =>
    rw [map_of_ok hx] at h
    cases h
    rfl
  | error e w₁ =>
    rw [map_of_error hx] at h
    cases h

@[simp] theorem throw_bind (e : ε) (f : α → EStateM ε σ β) : (throw e : EStateM ε σ α) >>= f = throw e := rfl

@[simp] theorem map_throw (e : ε) (f : α → β) : f <$> (throw e : EStateM ε σ α) = throw e := rfl

end Yields

/-! ### New values -/

section NewValues

variable {κ η : Type} {w : CompileState κ η} {ok : Value κ → CompileState κ η → Prop}
  {failed : CompileError → CompileState κ η → Prop}

@[simp] theorem yields_newLiteral (l : Literal) :
    Yields (newLiteral l) w ok failed ↔ ok (.literal w.values l) { w with values := w.values + 1 } := Iff.rfl

@[simp] theorem yields_makeTemporary (s : Scope) :
    Yields s.makeTemporary w ok failed ↔
      ok (.store w.values (temporaryName (w.countersOf s).temporaries) true)
        { (w.addTemporary s).2 with values := w.values + 1 } := Iff.rfl

end NewValues

/-! ### Attribution -/

section Attribution

variable {κ σ α β : Type} {w : σ}

@[simp] theorem yields_locating (span : Span) {x : EStateM CompileError σ α} {ok : α → σ → Prop}
    {failed : CompileError → σ → Prop} :
    Yields (locating span x) w ok failed ↔ Yields x w ok (fun e w' => failed (e.withSpan span) w') := by
  unfold Yields locating
  cases x w <;> rfl

@[simp] theorem yields_attributing (span : Span) {x : EStateM CompileError σ (List (Instruction κ))}
    {ok : List (Instruction κ) → σ → Prop} {failed : CompileError → σ → Prop} :
    Yields (attributing span x) w ok failed ↔
      Yields x w (fun code w' => ok (code.map (·.withSource span)) w')
        (fun e w' => failed (e.withSpan span) w') := by
  simp [attributing]

@[simp] theorem locating_pure (span : Span) (a : α) :
    locating span (pure a : EStateM CompileError σ α) = pure a := rfl

@[simp] theorem locating_throw (span : Span) (e : CompileError) :
    locating span (throw e : EStateM CompileError σ α) = throw (e.withSpan span) := rfl

theorem locating_bind (span : Span) (x : EStateM CompileError σ α) (f : α → EStateM CompileError σ β) :
    locating span (x >>= f) = locating span x >>= fun a => locating span (f a) := by
  funext w
  simp only [locating, bind, EStateM.bind]
  cases x w <;> rfl

theorem attributing_bind (span : Span) (x : EStateM CompileError σ α)
    (f : α → EStateM CompileError σ (List (Instruction κ))) :
    attributing span (x >>= f) = locating span x >>= fun a => attributing span (f a) := by
  simp only [attributing, locating_bind, bind_assoc]

/-- An error without a place gets one, and any other stays as it is. -/
theorem CompileError.withSpan_of_ne_nil {e : CompileError} (h : e.spans ≠ []) (span : Span) :
    e.withSpan span = e := by
  simp [withSpan, withSpans, h]

theorem CompileError.spans_withSpan_ne_nil (e : CompileError) (span : Span) :
    (e.withSpan span).spans ≠ [] := by
  simp only [withSpan, withSpans]
  split <;> simp_all

theorem Instruction.withSource_of_isSome {i : Instruction κ} (h : i.source.isSome) (span : Span) :
    i.withSource span = i := by
  obtain ⟨at', h'⟩ := Option.isSome_iff_exists.1 h
  cases i
  simp_all [withSource]

/-- Every error of the action has a place, and so has every instruction. -/
def Attributed (x : EStateM CompileError σ (List (Instruction κ))) : Prop :=
  ∀ w, Yields x w (fun code _ => ∀ i ∈ code, i.source.isSome) (fun e _ => e.spans ≠ [])

theorem Attributed.pure_nil : Attributed (pure [] : EStateM CompileError σ (List (Instruction κ))) := by
  intro w; simp

theorem Attributed.throw {e : CompileError} (h : e.spans ≠ []) :
    Attributed (throw e : EStateM CompileError σ (List (Instruction κ))) := by
  intro w; simpa using h

theorem Attributed.of_attributing (span : Span) (x : EStateM CompileError σ (List (Instruction κ))) :
    Attributed (attributing span x) := by
  intro w
  unfold Yields attributing locating
  simp only [bind, EStateM.bind]
  cases x w with
  | ok code w' => simp [pure, EStateM.pure, Instruction.withSource]
  | error e w' => exact e.spans_withSpan_ne_nil span

theorem Attributed.append {x y : EStateM CompileError σ (List (Instruction κ))} (hx : Attributed x)
    (hy : Attributed y) : Attributed (do return (← x) ++ (← y)) := by
  intro w
  simp only [yields_bind, yields_pure]
  refine (hx w).mono (fun code w' hcode => (hy w').mono (fun more _ hmore => ?_) (fun _ _ h => h)) (fun _ _ h => h)
  intro i hi
  rcases List.mem_append.1 hi with hi | hi
  · exact hcode i hi
  · exact hmore i hi

/-- The innermost attribution stays. -/
theorem Attributed.attributing_eq {x : EStateM CompileError σ (List (Instruction κ))} (hx : Attributed x)
    (span : Span) : attributing span x = x := by
  funext w
  have h := hx w
  unfold Yields at h
  unfold attributing locating
  simp only [bind, EStateM.bind]
  cases hxw : x w with
  | ok code w' =>
    rw [hxw] at h
    have hcode : code.map (·.withSource span) = code :=
      (List.map_congr_left fun i hi => Instruction.withSource_of_isSome (h i hi) span).trans (List.map_id _)
    simp [pure, EStateM.pure, hcode]
  | error e w' =>
    rw [hxw] at h
    simp [CompileError.withSpan_of_ne_nil h]

/-- Attribution of an action that is followed by an attributed one. -/
theorem attributing_append {y : EStateM CompileError σ (List (Instruction κ))} (hy : Attributed y)
    (span : Span) (code : List (Instruction κ)) :
    attributing span (do return code ++ (← y)) = do return code.map (·.withSource span) ++ (← y) := by
  conv => rhs; rw [← hy.attributing_eq span]
  simp only [attributing, locating_bind, locating_pure, bind_assoc, pure_bind, List.map_append]

end Attribution

end DeclCompiler
