import DeclCompiler.Proofs.ExactIntegers
import DeclCompiler.Proofs.Positional
import DeclCompiler.Proofs.RoundTrip

/-!
Members by number, by text and by position. A number used as a key stands for its text. Texts of numbers read back, so
different numbers have different keys, and the key of a natural number is its decimal text, which is also the key that
an array has for the position.
-/

namespace DeclCompiler

open Binary64

/-! ### Keys of numbers -/

namespace Numeral

theorem rank_dropZeroSign (x : Float) : rank (dropZeroSign x) = rank x := by
  by_cases h : magnitude x = 0
  · rw [dropZeroSign_of_eq h]
    exact rank_eq_iff.2 (.inr ⟨by decide +kernel, h⟩)
  · rw [dropZeroSign_of_ne h]

theorem isNumber_dropZeroSign (x : Float) : IsNumber (dropZeroSign x) ↔ IsNumber x := by
  by_cases h : magnitude x = 0
  · rw [dropZeroSign_of_eq h, IsNumber, IsNumber, h]
    exact iff_of_true (by decide +kernel) (Nat.zero_le _)
  · rw [dropZeroSign_of_ne h]

theorem text_of_magnitude_eq_zero {x : Float} (h : magnitude x = 0) : text x = "0" := by
  have hpos : 0 < infinity := by decide
  unfold text
  dsimp only
  rw [if_neg (by omega), if_neg (by omega), if_pos h]

/-- Numbers are written alike only if they are equal, and so is what is not a number. -/
theorem text_eq_iff {x y : Float} : text x = text y ↔ (x == y) = true ∨ (x.isNaN = true ∧ y.isNaN = true) := by
  rw [beq_iff, isNaN_iff, isNaN_iff]
  constructor
  · intro h
    -- texts read back up to the sign of zero, which neither the rank nor being a number depends on
    have hread : dropZeroSign x = dropZeroSign y := by rw [← value_text, ← value_text, h]
    have hrank : rank x = rank y := by rw [← rank_dropZeroSign, hread, rank_dropZeroSign]
    have hnumber : IsNumber x ↔ IsNumber y := by rw [← isNumber_dropZeroSign, hread, isNumber_dropZeroSign]
    by_cases hx : IsNumber x
    · exact .inl ⟨hx, hnumber.1 hx, hrank⟩
    · exact .inr ⟨hx, fun hy => hx (hnumber.2 hy)⟩
  · rintro (⟨-, -, hrank⟩ | ⟨hx, hy⟩)
    · rcases rank_eq_iff.1 hrank with rfl | ⟨hx, hy⟩
      · rfl
      · rw [text_of_magnitude_eq_zero hx, text_of_magnitude_eq_zero hy]
    · rw [eq_nan (Nat.not_le.1 hx), eq_nan (Nat.not_le.1 hy)]

end Numeral

/-! ### Reading members -/

section

variable {κ η : Type}

theorem Object.member?_text (o : Object κ (Value κ)) (x : Float) (k k' : Nat) :
    o.member? (.literal k (.number x)) = o.member? (.literal k' (.string (Numeral.text x))) := rfl

theorem Object.member?_insert_number (o : Object κ (Value κ)) (x y : Float) (v : Value κ) (k : Nat) :
    (o.insert (Literal.number x).key v).member? (.literal k (.number y)) =
      if (x == y) = true ∨ (x.isNaN = true ∧ y.isNaN = true) then some v
      else o.member? (.literal k (.number y)) := by
  change (o.insert (Numeral.text x) v).get? (Numeral.text y) = _
  rw [o.get?_insert]
  refine if_congr ?_ rfl rfl
  rw [eq_comm, Numeral.text_eq_iff]

theorem Value.getMember_of_member? {o : Object κ (Value κ)} {key v : Value κ} (h : o.member? key = some v)
    (host : Host κ η) (s : Scope) (id : Nat) : (Value.object id o).getMember host s key = pure (v, []) := by
  unfold getMember
  dsimp only
  rw [h]

namespace Compiler

variable (c : Compiler κ η) (s : Scope) (kind : DeclKind)

/-- The elements before a place are declared first, and it is their number at which the rest begins. -/
theorem declareElements_append (depth : Nat) (o : Object κ (Value κ)) (i : Nat) (before after : List (Option Pattern)) :
    c.declareElements s kind depth o i (before ++ after) = do
      let code ← c.declareElements s kind depth o i before
      return code ++ (← c.declareElements s kind depth o (i + before.length) after) := by
  induction before generalizing i with
  | nil => simp [declareElements]
  | cons element before ih =>
    have hindex : i + 1 + before.length = i + (element :: before).length := by rw [List.length_cons]; omega
    rw [List.cons_append, declareElements, declareElements, ih]
    simp only [bind_assoc, pure_bind, List.append_assoc, hindex]

/-- An array pattern declares at a position the member that the number of that position reads. -/
theorem declareAt_array_member {depth : Nat} (hdepth : depth < c.options.maxPatternDepth) (id : Nat)
    (o : Object κ (Value κ)) {before : List (Option Pattern)} (hbefore : before.length ≤ twoPow 53) (p : Pattern)
    (after : List (Option Pattern)) (span : Span) (k : Nat) :
    c.declareAt s kind depth (.array (before ++ some p :: after) span) (some (.object id o)) = attributing span do
      let first ← c.declareElements s kind (depth + 1) o 0 before
      let own ← (o.member? (.literal k (.number (Float.ofNat before.length)))).elim
        (throw ⟨.missingIndex before.length, [p.span]⟩) fun v => c.declareAt s kind (depth + 1) p (some v)
      let rest ← c.declareElements s kind (depth + 1) o (before.length + 1) after
      return first ++ (own ++ rest) := by
  rw [declareAt, if_neg (by omega), o.member?_number hbefore (isNat_ofNat hbefore)]
  change attributing span (c.declareElements s kind (depth + 1) o 0 (before ++ some p :: after)) = _
  rw [declareElements_append, Nat.zero_add]
  conv => lhs; rw [declareElements, declareElement]
  simp only [bind_assoc, pure_bind]
  cases o.get? before.length.repr with
  | none => simp only [Option.elim_none]
  | some v => simp only [Option.elim_some]

end Compiler

/-- Keys are canonical. A natural number has its decimal text as key, and two numbers have the same key only if they are
equal or neither is a number. So a member is the same by number, by text and by position, and numbers do not collide. -/
theorem memberKeys_canonical :
    (∀ i ≤ 2 ^ 53, number? (Float.ofNat i) = some (i : ℚ) ∧ (Literal.string i.repr).key = i.repr ∧
      ∀ x, number? x = some (i : ℚ) → (Literal.number x).key = i.repr) ∧
    (∀ x y, (Literal.number x).key = (Literal.number y).key ↔
      (x == y) = true ∨ (x.isNaN = true ∧ y.isNaN = true)) ∧
    (∀ (o : Object κ (Value κ)) (x : Float) (k k' : Nat),
      o.member? (.literal k (.number x)) = o.member? (.literal k' (.string (Numeral.text x))) ∧
      ∀ v, o.member? (.literal k (.number x)) = some v → ∀ (host : Host κ η) (s : Scope) (id : Nat),
        (Value.object id o).getMember host s (.literal k (.number x)) = pure (v, []) ∧
        (Value.object id o).getMember host s (.literal k' (.string (Numeral.text x))) = pure (v, [])) ∧
    (∀ (c : Compiler κ η) (s : Scope) (kind : DeclKind) (depth : Nat), depth < c.options.maxPatternDepth →
      ∀ (id : Nat) (o : Object κ (Value κ)) (before : List (Option Pattern)), before.length ≤ 2 ^ 53 →
      ∀ (p : Pattern) (after : List (Option Pattern)) (span : Span) (k : Nat),
      c.declareAt s kind depth (.array (before ++ some p :: after) span) (some (.object id o)) = attributing span do
        let first ← c.declareElements s kind (depth + 1) o 0 before
        let own ← (o.member? (.literal k (.number (Float.ofNat before.length)))).elim
          (throw ⟨.missingIndex before.length, [p.span]⟩) fun v => c.declareAt s kind (depth + 1) p (some v)
        let rest ← c.declareElements s kind (depth + 1) o (before.length + 1) after
        return first ++ (own ++ rest)) ∧
    ∀ (o : Object κ (Value κ)) (x y : Float) (v : Value κ) (k : Nat),
      (o.insert (Literal.number x).key v).member? (.literal k (.number y)) =
        if (x == y) = true ∨ (x.isNaN = true ∧ y.isNaN = true) then some v
        else o.member? (.literal k (.number y)) := by
  refine ⟨fun i hi => ⟨number?_ofNat hi, rfl, fun x hx => Numeral.text_of_isNat (isNat_of_number? hx) hi⟩,
    fun x y => Numeral.text_eq_iff, fun o x k k' => ⟨o.member?_text x k k', fun v hv host s id => ⟨?_, ?_⟩⟩,
    fun c s kind depth hdepth id o before hbefore p after span k =>
      c.declareAt_array_member s kind hdepth id o hbefore p after span k,
    Object.member?_insert_number⟩
  · exact Value.getMember_of_member? hv host s id
  · exact Value.getMember_of_member? ((o.member?_text x k k').symm.trans hv) host s id

/-- The member under one, by number and by text, and as the second element of an array pattern. -/
theorem second_memberKeys_canonical :
    let o : Object Unit (Value Unit) := ({} : Object Unit (Value Unit)).insert (Literal.number 1).key (.void 0)
    let p : Pattern := .identifier ⟨"b", .onLine 1 3 4⟩
    let c := Compiler.standard Host.keeping
    let s : Scope := ⟨0, 0, 0, []⟩
    (Value.object 1 o).getMember Host.keeping s (.literal 2 (.number 1)) = pure (.void 0, []) ∧
    (Value.object 1 o).getMember Host.keeping s (.literal 3 (.string "1")) = pure (.void 0, []) ∧
    c.declareAt s .letDecl 0 (.array [none, some p] (.onLine 1 0 5)) (some (.object 1 o)) =
      attributing (.onLine 1 0 5) (c.declareAt s .letDecl 1 p (some (.void 0))) := by
  intro o p c s
  obtain ⟨-, -, hread, harray, hinsert⟩ := @memberKeys_canonical Unit Unit
  have hown : o.member? (.literal 2 (.number 1)) = some (.void 0) :=
    (hinsert {} 1 1 (.void 0) 2).trans (if_pos (.inl (by decide +kernel)))
  have htext : Numeral.text 1 = "1" := by decide +kernel
  obtain ⟨hnumber, hstring⟩ := (hread o 1 2 3).2 _ hown Host.keeping s 1
  refine ⟨hnumber, htext ▸ hstring, ?_⟩
  have hone : Float.ofNat [none (α := Pattern)].length = 1 := by decide +kernel
  have hsecond := harray c s .letDecl 0 (by decide) 1 o [none] (by decide) p [] (.onLine 1 0 5) 2
  rw [hone, hown] at hsecond
  simpa [Compiler.declareElements, Compiler.declareElement] using hsecond

end

end DeclCompiler
