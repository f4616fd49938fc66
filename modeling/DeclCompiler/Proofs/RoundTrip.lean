import DeclCompiler.Literal.Fold
import DeclCompiler.Proofs.Doubles
import DeclCompiler.Proofs.ShortestDigits

/-!
The text of a number reads back as the number.

Every text that the layout makes is a `Written` decimal: digits, digits after a point, and an exponent. Reading takes
such a text apart again, and what it denotes is the number that was laid out.
-/

namespace DeclCompiler.Numeral

open Binary64

/-! ### Characters -/

/-- A test that only characters below `0x80` pass is a list of them. -/
theorem test_iff_mem {p : Char → Bool} {alphabet : List Char} (hascii : ∀ c, p c = true → c.toNat < 0x80)
    (htable : (List.range 0x80).all (fun n => p (Char.ofNat n) == alphabet.contains (Char.ofNat n)) = true)
    (hlist : alphabet.all p = true) (c : Char) : p c = true ↔ c ∈ alphabet := by
  refine ⟨fun hc => ?_, List.all_eq_true.1 hlist c⟩
  have hrow := List.all_eq_true.1 htable c.toNat (List.mem_range.2 (hascii c hc))
  rw [Char.ofNat_toNat, hc, beq_iff_eq] at hrow
  exact List.contains_iff_mem.1 hrow.symm

theorem toNat_of_isDigit {c : Char} (h : c.isDigit = true) : 48 ≤ c.toNat ∧ c.toNat ≤ 57 := by
  simpa [Char.isDigit, UInt32.le_iff_toNat_le] using h

theorem isDecimalChar_of_isDigit {c : Char} (h : c.isDigit = true) : isDecimalChar c = true := by
  simp [isDecimalChar, h]

/-- What holds of each character of decimals by inspection. -/
theorem forall_isDecimalChar {p : Char → Bool} (hp : "0123456789.eE+-".toList.all p = true) {c : Char}
    (hc : isDecimalChar c = true) : p c = true := by
  refine List.all_eq_true.1 hp c ((test_iff_mem (fun c hc => ?_) (by decide +kernel) (by decide +kernel) c).1 hc)
  simp only [isDecimalChar, Bool.or_eq_true, beq_iff_eq] at hc
  rcases hc with ((((hc | rfl) | rfl) | rfl) | rfl) | rfl
  · have := toNat_of_isDigit hc
    omega
  all_goals decide

/-! ### Written decimals -/

/-- The parts of a decimal as it is written. A point stands only before digits. -/
structure Written where
  whole : List Char
  fraction : List Char
  exponent? : Option Int
  whole_ne_nil : whole ≠ []
  isDigit_whole : ∀ c ∈ whole, c.isDigit = true
  isDigit_fraction : ∀ c ∈ fraction, c.isDigit = true

namespace Written

def fractionText (w : Written) : List Char := if w.fraction = [] then [] else '.' :: w.fraction

def exponentText (w : Written) : List Char :=
  match w.exponent? with
  | none => []
  | some e => 'e' :: (if e < 0 then '-' else '+') :: Nat.toDigits 10 e.natAbs

def text (w : Written) : List Char := w.whole ++ w.fractionText ++ w.exponentText

def decimal (w : Written) : Decimal :=
  ⟨Nat.ofDigitChars 10 (w.whole ++ w.fraction) 0, w.exponent?.getD 0 - w.fraction.length⟩

end Written

theorem span_digits {ds rest : List Char} (hds : ∀ c ∈ ds, c.isDigit = true)
    (hrest : ∀ c ∈ rest.head?, c.isDigit = false) : (ds ++ rest).span Char.isDigit = (ds, rest) := by
  rw [List.span_eq_takeWhile_dropWhile, List.takeWhile_append_of_pos hds, List.dropWhile_append_of_pos hds]
  cases rest with
  | nil => simp
  | cons c cs => simp [hrest c rfl]

namespace Written

variable (w : Written)

theorem head_exponentText : ∀ c ∈ w.exponentText.head?, c = 'e' := by
  unfold exponentText
  split <;> simp

theorem head_afterWhole : ∀ c ∈ (w.fractionText ++ w.exponentText).head?, c.isDigit = false := by
  intro c hc
  unfold fractionText at hc
  split at hc
  · rw [w.head_exponentText c hc]
    rfl
  · cases hc
    rfl

theorem takeFraction_text : takeFraction (w.fractionText ++ w.exponentText) = (w.fraction, w.exponentText) := by
  have hhead := w.head_exponentText
  unfold fractionText
  split
  next hnil =>
    rw [hnil, List.nil_append]
    unfold takeFraction
    split
    next heq => exact absurd (hhead '.' (by rw [heq]; rfl)) (by decide)
    next => rfl
  next =>
    refine span_digits w.isDigit_fraction fun c hc => ?_
    rw [hhead c hc]
    rfl

theorem readExponent?_text : readExponent? w.exponentText = some (w.exponent?.getD 0) := by
  unfold exponentText
  cases w.exponent? with
  | none => rfl
  | some e =>
    have hdigits : (Nat.toDigits 10 e.natAbs).all Char.isDigit = true :=
      List.all_eq_true.2 fun _ hc => Nat.isDigit_of_mem_toDigits (by decide) (by decide) hc
    have hsign : takeSign ((if e < 0 then '-' else '+') :: Nat.toDigits 10 e.natAbs) =
        (decide (e < 0), Nat.toDigits 10 e.natAbs) := by
      by_cases he : e < 0 <;> simp [he, takeSign]
    have habs : (if e < 0 then -|e| else |e|) = e := by
      split
      next he => rw [abs_of_neg he, neg_neg]
      next he => exact abs_of_nonneg (not_lt.1 he)
    simp [readExponent?, hsign, hdigits, Nat.ofDigitChars_ten_toDigits, habs]

/-- Reading takes a written decimal apart. -/
theorem readDecimal?_text : readDecimal? w.text = some w.decimal := by
  rw [text, List.append_assoc, readDecimal?, span_digits w.isDigit_whole w.head_afterWhole]
  simp [w.takeFraction_text, w.readExponent?_text, w.whole_ne_nil, decimal]

theorem isDecimalChar_text : ∀ c ∈ w.text, isDecimalChar c = true := by
  intro c hc
  simp only [text, List.mem_append, fractionText, exponentText] at hc
  rcases hc with (hc | hc) | hc
  · exact isDecimalChar_of_isDigit (w.isDigit_whole c hc)
  · split at hc
    · cases hc
    · rcases List.mem_cons.1 hc with rfl | hc
      · rfl
      · exact isDecimalChar_of_isDigit (w.isDigit_fraction c hc)
  · split at hc
    · cases hc
    next e _ =>
      rcases List.mem_cons.1 hc with rfl | hc
      · rfl
      rcases List.mem_cons.1 hc with rfl | hc
      · split <;> rfl
      · exact isDecimalChar_of_isDigit (Nat.isDigit_of_mem_toDigits (by decide) (by decide) hc)

theorem exists_text_eq_cons : ∃ c cs, w.text = c :: cs ∧ c.isDigit = true := by
  cases hwhole : w.whole with
  | nil => exact absurd hwhole w.whole_ne_nil
  | cons c cs => exact ⟨c, _, by rw [text, hwhole]; rfl, w.isDigit_whole c (by simp [hwhole])⟩

end Written

/-! ### Reading a whole text -/

theorem isBlank_of_isDecimalChar {c : Char} (h : isDecimalChar c = true) : Text.isBlank c = false := by
  simpa using forall_isDecimalChar (p := fun c => !Text.isBlank c) (by decide) h

theorem markRadix?_of_isDecimalChar {c : Char} (h : isDecimalChar c = true) : markRadix? c = none := by
  simpa using forall_isDecimalChar (p := fun c => (markRadix? c).isNone) (by decide) h

theorem toLower_of_isDecimalChar {c : Char} (h : isDecimalChar c = true) : c.toLower ≠ 'i' ∧ c.toLower ≠ 'n' := by
  simpa using forall_isDecimalChar (p := fun c => c.toLower != 'i' && c.toLower != 'n') (by decide) h

theorem trim_eq_self {cs : List Char} (h : ∀ c ∈ cs, Text.isBlank c = false) : Text.trim cs = cs := by
  have hdrop (l : List Char) (hl : ∀ c ∈ l, Text.isBlank c = false) : l.dropWhile Text.isBlank = l := by
    cases l with
    | nil => rfl
    | cons c cs => simp [hl c]
  rw [Text.trim, hdrop cs h, hdrop cs.reverse fun c hc => h c (List.mem_reverse.1 hc), List.reverse_reverse]

theorem mem_of_mem_takeSign {cs : List Char} {c : Char} (h : c ∈ (takeSign cs).2) : c ∈ cs := by
  unfold takeSign at h
  split at h
  · exact List.mem_cons_of_mem _ h
  · exact List.mem_cons_of_mem _ h
  · exact h

section

variable {cs : List Char} (h : ∀ c ∈ cs, isDecimalChar c = true)

include h

theorem wordMagnitude?_eq_none : wordMagnitude? cs = none := by
  cases cs with
  | nil => rfl
  | cons c cs =>
    obtain ⟨hi, hn⟩ := toLower_of_isDecimalChar (h c List.mem_cons_self)
    simp [wordMagnitude?, hi, hn]

theorem takeMark?_eq_none : takeMark? cs = none := by
  unfold takeMark?
  split
  next mark digits =>
    rw [markRadix?_of_isDecimalChar (h mark (by simp)), Option.map_none]
  next => rfl

/-- Characters of decimals make up no word and no mark, so a text of them is read as a signed decimal or not at all. -/
theorem readSigned?_eq : readSigned? cs =
    (readDecimal? (takeSign cs).2).map fun d => ofMagnitude (takeSign cs).1 d.magnitude := by
  have hrest : wordMagnitude? (takeSign cs).2 = none :=
    wordMagnitude?_eq_none fun c hc => h c (mem_of_mem_takeSign hc)
  rw [readSigned?, if_pos (List.all_eq_true.2 h), parse?]
  dsimp only
  rw [hrest, Option.or_none, Option.map_map]
  rfl

theorem read?_eq_readSigned? (hne : cs ≠ []) : read? cs = readSigned? cs := by
  have hword (word : String) (hw : word.toList.all isDecimalChar = false) : cs ≠ word.toList := by
    rintro rfl
    exact absurd (List.all_eq_true.2 h) (by simp [hw])
  rw [read?, if_neg hne, if_neg (not_or.2 ⟨hword _ (by decide), hword _ (by decide)⟩), if_neg (hword _ (by decide)),
    takeMark?_eq_none h]

theorem value_ofList (hne : cs ≠ []) : value (String.ofList cs) = (readSigned? cs).getD nan := by
  rw [value, String.toList_ofList, trim_eq_self fun c hc => isBlank_of_isDecimalChar (h c hc),
    read?_eq_readSigned? h hne]

end

namespace Written

variable (w : Written)

theorem takeSign_text : takeSign w.text = (false, w.text) := by
  obtain ⟨c, cs, htext, hc⟩ := w.exists_text_eq_cons
  rw [htext]
  unfold takeSign
  split
  next heq =>
    cases heq
    exact absurd hc (by decide)
  next heq =>
    cases heq
    exact absurd hc (by decide)
  next => rfl

/-- A written decimal, alone or after a minus, is the nearest double of its sign. -/
theorem value_text : value (String.ofList w.text) = ofMagnitude false w.decimal.magnitude := by
  obtain ⟨c, cs, htext, -⟩ := w.exists_text_eq_cons
  rw [value_ofList w.isDecimalChar_text (by simp [htext]), readSigned?_eq w.isDecimalChar_text, w.takeSign_text,
    w.readDecimal?_text, Option.map_some, Option.getD_some]

theorem value_minus_text : value (String.ofList ('-' :: w.text)) = ofMagnitude true w.decimal.magnitude := by
  have hchars : ∀ c ∈ '-' :: w.text, isDecimalChar c = true := List.forall_mem_cons.2 ⟨rfl, w.isDecimalChar_text⟩
  rw [value_ofList hchars (by simp), readSigned?_eq hchars, takeSign, w.readDecimal?_text, Option.map_some,
    Option.getD_some]

end Written

/-! ### The layout -/

/-- A cut that has to fall within a text. -/
def cut? (n : Nat) (cs : List Char) : Option (List Char × List Char) :=
  if n ≤ cs.length then some (cs.take n, cs.drop n) else none

/-- The layout with each of its cuts checked. -/
def layout? (digits : List Char) (exponent : Int) : Option (List Char) :=
  let point := exponent + 1
  if digits.length ≤ point ∧ point ≤ 21 then
    some (digits ++ List.replicate (point - digits.length).toNat '0')
  else if 0 < point ∧ point ≤ 21 then
    (cut? point.toNat digits).map fun (whole, fraction) => whole ++ '.' :: fraction
  else if -6 < point ∧ point ≤ 0 then
    some ('0' :: '.' :: List.replicate (-point).toNat '0' ++ digits)
  else
    (cut? 1 digits).map fun (first, rest) =>
      (if rest = [] then first else first ++ '.' :: rest) ++
        'e' :: (if exponent < 0 then '-' else '+') :: Nat.toDigits 10 exponent.natAbs

/-- Every cut of the layout falls within the digits. -/
theorem layout?_eq {digits : List Char} (hne : digits ≠ []) (e : Int) :
    layout? digits e = some (layout digits e) := by
  unfold layout? layout
  dsimp only
  split
  · rfl
  split
  · rw [cut?, if_pos (by omega)]
    rfl
  split
  · rfl
  · cases digits with
    | nil => exact absurd rfl hne
    | cons first rest => cases rest <;> rfl

/-- The digits that a layout starts from: at least one, and nothing else. -/
structure IsDigits (digits : List Char) : Prop where
  ne_nil : digits ≠ []
  isDigit : ∀ c ∈ digits, c.isDigit = true

/-- The number that digits denote whose first one counts `10 ^ exponent`. -/
def denoted (digits : List Char) (exponent : Int) : ℚ :=
  Nat.ofDigitChars 10 digits 0 * 10 ^ (exponent + 1 - digits.length)

theorem isDigit_replicate (n : Nat) : ∀ c ∈ List.replicate n '0', c.isDigit = true := by
  intro c hc
  rw [List.eq_of_mem_replicate hc]
  rfl

/-- The text is a written decimal of the number. -/
def Writes (cs : List Char) (q : ℚ) : Prop := ∃ w : Written, cs = w.text ∧ w.decimal.value = q

theorem Written.value_decimal {w : Written} {digits : List Char} {e : Int}
    (hnumber : Nat.ofDigitChars 10 (w.whole ++ w.fraction) 0 = Nat.ofDigitChars 10 digits 0)
    (hexponent : w.exponent?.getD 0 - w.fraction.length = e + 1 - digits.length) :
    w.decimal.value = denoted digits e := by
  rw [Decimal.value, Written.decimal, denoted, hnumber, hexponent]

section

variable {digits : List Char} {e : Int} (h : IsDigits digits)

include h

/-- Zeros fill up to the point. -/
theorem writes_zeros (hpoint : digits.length ≤ e + 1) :
    Writes (digits ++ List.replicate (e + 1 - digits.length).toNat '0') (denoted digits e) := by
  have hdigit : ∀ c ∈ digits ++ List.replicate (e + 1 - digits.length).toNat '0', c.isDigit = true := by
    intro c hc
    exact (List.mem_append.1 hc).elim (h.isDigit c) (isDigit_replicate _ c)
  refine ⟨⟨_, [], none, by simp [h.ne_nil], hdigit, by simp⟩, ?_, ?_⟩
  · simp [Written.text, Written.fractionText, Written.exponentText]
  · obtain ⟨n, hn⟩ : ∃ n : Nat, e + 1 - digits.length = n := Int.eq_ofNat_of_zero_le (by omega)
    simp [Decimal.value, Written.decimal, denoted, hn, Nat.ofDigitChars_append, Nat.ofDigitChars_replicate_zero]
    exact mul_comm _ _

/-- The point falls between two digits. -/
theorem writes_point (hpos : 0 < e + 1) (hpoint : e + 1 < digits.length) :
    Writes (digits.take (e + 1).toNat ++ '.' :: digits.drop (e + 1).toNat) (denoted digits e) := by
  have hdrop : digits.drop (e + 1).toNat ≠ [] := by
    intro hnil
    have := List.drop_eq_nil_iff.1 hnil
    omega
  refine ⟨⟨digits.take (e + 1).toNat, digits.drop (e + 1).toNat, none, ?_, ?_, ?_⟩, ?_, ?_⟩
  · exact fun hnil => (List.take_eq_nil_iff.1 hnil).elim (by omega) h.ne_nil
  · exact fun c hc => h.isDigit c (List.mem_of_mem_take hc)
  · exact fun c hc => h.isDigit c (List.mem_of_mem_drop hc)
  · simp [Written.text, Written.fractionText, Written.exponentText, hdrop]
  · refine Written.value_decimal ?_ ?_
    · rw [List.take_append_drop]
    · simp only [Option.getD_none, List.length_drop]
      omega

/-- Zeros stand between the point and the digits. -/
theorem writes_fraction (hpoint : e + 1 ≤ 0) :
    Writes ('0' :: '.' :: List.replicate (-(e + 1)).toNat '0' ++ digits) (denoted digits e) := by
  have hdigit : ∀ c ∈ List.replicate (-(e + 1)).toNat '0' ++ digits, c.isDigit = true := by
    intro c hc
    exact (List.mem_append.1 hc).elim (isDigit_replicate _ c) (h.isDigit c)
  refine ⟨⟨['0'], _, none, by simp, by simp, hdigit⟩, ?_, ?_⟩
  · simp [Written.text, Written.fractionText, Written.exponentText, h.ne_nil]
  · refine Written.value_decimal ?_ ?_
    · -- the zero before the point is one more of the zeros after it
      rw [List.singleton_append, ← List.cons_append, ← List.replicate_succ, Nat.ofDigitChars_append,
        Nat.ofDigitChars_replicate_zero, Nat.mul_zero]
    · simp only [Option.getD_none, List.length_append, List.length_replicate]
      omega

/-- The point follows the first digit, and the exponent is written out. -/
theorem writes_exponent {first : Char} {rest : List Char} (hdigits : digits = first :: rest) :
    Writes (first :: (if rest = [] then [] else '.' :: rest) ++
      'e' :: (if e < 0 then '-' else '+') :: Nat.toDigits 10 e.natAbs) (denoted digits e) := by
  subst hdigits
  refine ⟨⟨[first], rest, some e, by simp, ?_, ?_⟩, rfl, ?_⟩
  · simpa using h.isDigit first
  · exact fun c hc => h.isDigit c (List.mem_cons_of_mem _ hc)
  · refine Written.value_decimal rfl ?_
    simp only [Option.getD_some, List.length_cons]
    omega

/-- The layout writes the number that the digits denote. -/
theorem writes_layout : Writes (layout digits e) (denoted digits e) := by
  unfold layout
  dsimp only
  split
  · exact writes_zeros h (by omega)
  split
  · exact writes_point h (by omega) (by omega)
  split
  · exact writes_fraction h (by omega)
  · match digits with
    | [] => exact absurd rfl h.ne_nil
    | [first] => exact writes_exponent h rfl
    | first :: next :: rest => exact writes_exponent h rfl

end

/-! ### Numbers -/

theorem isDigits_toDigits (n : Nat) : IsDigits (Nat.toDigits 10 n) :=
  ⟨Nat.toDigits_ne_nil, fun _ hc => Nat.isDigit_of_mem_toDigits (by decide) (by decide) hc⟩

/-- The text of a magnitude writes its shortest decimal. -/
theorem writes_magnitudeText (b : Nat) : Writes (magnitudeText b) (Decimal.shortest b).value := by
  unfold magnitudeText
  generalize Decimal.shortest b = d
  have hwrites := writes_layout (e := d.exponent + (Nat.toDigits 10 d.digits).length - 1) (isDigits_toDigits d.digits)
  rwa [denoted, Nat.ofDigitChars_ten_toDigits, sub_add_cancel, add_sub_cancel_right] at hwrites

theorem exists_written_magnitudeText {b : Nat} (hb : 0 < b) (hfinite : b < infinity) :
    ∃ w : Written, magnitudeText b = w.text ∧ w.decimal.value = (Decimal.shortest b).value ∧
      w.decimal.magnitude = b := by
  obtain ⟨w, htext, hvalue⟩ := writes_magnitudeText b
  refine ⟨w, htext, hvalue, Decimal.magnitude_eq hb hfinite ?_⟩
  rw [Decimal.readsBackAs_congr hvalue]
  exact Decimal.shortest_readsBack hb

/-- The number without the sign of a zero, which the text of a number does not show. -/
def dropZeroSign (x : Float) : Float := if x = ofMagnitude true 0 then ofMagnitude false 0 else x

theorem dropZeroSign_of_ne {x : Float} (h : magnitude x ≠ 0) : dropZeroSign x = x := by
  refine if_neg ?_
  rintro rfl
  exact h (by decide +kernel)

theorem dropZeroSign_of_eq {x : Float} (h : magnitude x = 0) : dropZeroSign x = ofMagnitude false 0 := by
  have hx := ofMagnitude_magnitude x
  rw [h] at hx
  cases hsign : isNegative x with
  | true => exact if_pos (hsign ▸ hx).symm
  | false =>
    rw [← hx, hsign]
    exact ite_id _

/-- The text of a number reads back as the number. -/
theorem value_text (x : Float) : value (text x) = dropZeroSign x := by
  have hx := ofMagnitude_magnitude x
  unfold text
  dsimp only
  split
  next hnan =>
    rw [dropZeroSign_of_ne (by omega), eq_nan hnan]
    decide +kernel
  split
  next hinfinity =>
    rw [dropZeroSign_of_ne (hinfinity ▸ by decide), ← hx, hinfinity]
    generalize isNegative x = negative
    cases negative <;> decide +kernel
  split
  next hzero =>
    rw [dropZeroSign_of_eq hzero]
    decide +kernel
  next hne =>
    obtain ⟨w, htext, -, hmagnitude⟩ := exists_written_magnitudeText (Nat.pos_of_ne_zero hne) (by omega)
    rw [dropZeroSign_of_ne hne, htext]
    cases hsign : isNegative x with
    | true => rw [if_pos rfl, w.value_minus_text, hmagnitude, ← hsign, hx]
    | false => rw [if_neg (by decide), w.value_text, hmagnitude, ← hsign, hx]

/-- Number text round-trips. Reading the text of a number gives the number, but for the sign of a zero; so does the
plus of its concatenation to the empty string; and what is not a number gives the one pattern for it. The text of a
magnitude is in the grammar of decimals. Whatever digits and exponent a layout starts from, it cuts the digits only
where there are digits, and its text denotes the number that they denote. -/
theorem number_text_round_trips :
    (∀ x, value (text x) = dropZeroSign x) ∧
    (∀ x, (Literal.foldBinary? .add (.string "") (.number x)).map (Literal.foldUnary .plus) =
      some (.number (dropZeroSign x))) ∧
    (∀ x, infinity < magnitude x → value (text x) = nan) ∧
    (∀ b, 0 < b → b < infinity → ∃ d, readDecimal? (magnitudeText b) = some d ∧
      d.value = (Decimal.shortest b).value ∧ d.magnitude = b) ∧
    ∀ digits e, IsDigits digits → layout? digits e = some (layout digits e) ∧
      ∃ d, readDecimal? (layout digits e) = some d ∧ d.value = denoted digits e := by
  refine ⟨value_text, fun x => ?_, fun x hnan => ?_, fun b hb hfinite => ?_, fun digits e hdigits => ?_⟩
  · have hconcat : "" ++ text x = text x := String.empty_append
    simp [Literal.foldBinary?, Literal.isString, Literal.content, Literal.foldUnary, Literal.toNumber, hconcat,
      value_text]
  · rw [value_text, dropZeroSign_of_ne (by omega), eq_nan hnan]
  · obtain ⟨w, htext, hvalue, hmagnitude⟩ := exists_written_magnitudeText hb hfinite
    exact ⟨w.decimal, htext ▸ w.readDecimal?_text, hvalue, hmagnitude⟩
  · obtain ⟨w, htext, hvalue⟩ := writes_layout (e := e) hdigits
    exact ⟨layout?_eq hdigits.ne_nil e, w.decimal, htext ▸ w.readDecimal?_text, hvalue⟩

/-- One eighth from its digits, the least positive double, and what is not a number. -/
theorem eighth_round_trips :
    (IsDigits ['1', '2', '5'] ∧ denoted ['1', '2', '5'] (-1) = 1 / 8 ∧ ∃ d,
      layout? ['1', '2', '5'] (-1) = some ['0', '.', '1', '2', '5'] ∧
      readDecimal? ['0', '.', '1', '2', '5'] = some d ∧ d.value = 1 / 8) ∧
    (∃ d, readDecimal? (magnitudeText 1) = some d ∧ d.magnitude = 1) ∧
    infinity < magnitude nan ∧ value (text nan) = nan := by
  have hall : ['1', '2', '5'].all Char.isDigit = true := by decide
  have hdigits : IsDigits ['1', '2', '5'] := ⟨by decide, List.all_eq_true.1 hall⟩
  have hnumber : Nat.ofDigitChars 10 ['1', '2', '5'] 0 = 125 := by decide
  have hdenoted : denoted ['1', '2', '5'] (-1) = 1 / 8 := by
    rw [denoted, hnumber]
    norm_num
  have hnan : infinity < magnitude nan := by decide +kernel
  obtain ⟨-, -, hnumberless, hmagnitude, hlayout⟩ := number_text_round_trips
  obtain ⟨hcuts, d, hd, hvalue⟩ := hlayout _ (-1) hdigits
  obtain ⟨least, hleast, -, hone⟩ := hmagnitude 1 (by decide) (by decide)
  exact ⟨⟨hdigits, hdenoted, d, hcuts, hd, hvalue.trans hdenoted⟩, ⟨least, hleast, hone⟩, hnan, hnumberless nan hnan⟩

end DeclCompiler.Numeral
