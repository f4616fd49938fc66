import DeclCompiler.Proofs.Accumulation
import DeclCompiler.Proofs.RoundTrip

/-!
The texts that denote numbers. They are given here by a grammar of their own, and reading accepts exactly these: it
finds the parts of every text of the grammar, and whatever it accepts has such parts. What it reads is a number in
each case, since decimals are rounded to one and digits in a radix add up to one.
-/

namespace DeclCompiler.Numeral

open Binary64

/-! ### The grammar -/

def decimalDigits : List Char := "0123456789".toList

def hexadecimalDigits : List Char := "0123456789abcdefABCDEF".toList

def octalDigits : List Char := "01234567".toList

def binaryDigits : List Char := "01".toList

/-- One or more of the given characters. -/
def AreDigits (alphabet cs : List Char) : Prop := cs ≠ [] ∧ ∀ c ∈ cs, c ∈ alphabet

inductive IsSign : List Char → Prop
  | absent : IsSign []
  | plus : IsSign ['+']
  | minus : IsSign ['-']

inductive IsMantissa : List Char → Prop
  | whole {ds : List Char} (h : AreDigits decimalDigits ds) : IsMantissa ds
  | pointed {ds fs : List Char} (h : AreDigits decimalDigits ds) (hfs : ∀ c ∈ fs, c ∈ decimalDigits) :
    IsMantissa (ds ++ '.' :: fs)
  | fraction {fs : List Char} (h : AreDigits decimalDigits fs) : IsMantissa ('.' :: fs)

inductive IsExponent : List Char → Prop
  | absent : IsExponent []
  | marked {mark : Char} {sign ds : List Char} (hmark : mark = 'e' ∨ mark = 'E') (hsign : IsSign sign)
    (h : AreDigits decimalDigits ds) : IsExponent (mark :: (sign ++ ds))

/-- The mark of a radix, and the digits of the radix. -/
inductive Marks : Char → List Char → Prop
  | hexadecimal {mark : Char} (h : mark = 'x' ∨ mark = 'X') : Marks mark hexadecimalDigits
  | octal {mark : Char} (h : mark = 'o' ∨ mark = 'O') : Marks mark octalDigits
  | binary {mark : Char} (h : mark = 'b' ∨ mark = 'B') : Marks mark binaryDigits

/-- The texts, without blanks around them, that denote numbers. -/
inductive IsSpelling : List Char → Prop
  | empty : IsSpelling []
  | infinity {sign : List Char} (hsign : IsSign sign) : IsSpelling (sign ++ "Infinity".toList)
  | marked {mark : Char} {alphabet ds : List Char} (hmark : Marks mark alphabet) (h : AreDigits alphabet ds) :
    IsSpelling ('0' :: mark :: ds)
  | decimal {sign m e : List Char} (hsign : IsSign sign) (hm : IsMantissa m) (he : IsExponent e) :
    IsSpelling (sign ++ (m ++ e))

/-- Code points with the property White_Space. -/
def whiteSpace : List Nat :=
  [0x9, 0xA, 0xB, 0xC, 0xD, 0x20, 0x85, 0xA0, 0x1680, 0x2000, 0x2001, 0x2002, 0x2003, 0x2004, 0x2005, 0x2006, 0x2007,
    0x2008, 0x2009, 0x200A, 0x2028, 0x2029, 0x202F, 0x205F, 0x3000]

def IsOuter (c : Char) : Prop := c.toNat ∈ whiteSpace ∨ c.toNat = 0xFEFF

/-- What is left of a text when white space and byte order marks are taken away from both of its ends. -/
structure Trims (cs t : List Char) : Prop where
  exists_around : ∃ before after, cs = before ++ (t ++ after) ∧ (∀ c ∈ before, IsOuter c) ∧ ∀ c ∈ after, IsOuter c
  head : ∀ c ∈ t.head?, ¬ IsOuter c
  last : ∀ c ∈ t.getLast?, ¬ IsOuter c

/-! ### Characters -/

theorem isBlank_iff (c : Char) : Text.isBlank c = true ↔ IsOuter c := by
  simp [Text.isBlank, IsOuter, whiteSpace]
  omega

theorem isDigit_iff (c : Char) : c.isDigit = true ↔ c ∈ decimalDigits :=
  test_iff_mem (fun c hc => by have := toNat_of_isDigit hc; omega) (by decide +kernel) (by decide +kernel) c

theorem digitValue?_ascii {radix : Nat} {c : Char} (h : (digitValue? radix c).isSome = true) : c.toNat < 0x80 := by
  unfold digitValue? at h
  dsimp only at h
  split at h
  next hdigit =>
    have := toNat_of_isDigit hdigit
    omega
  next =>
    split at h
    next hlower => exact (UInt32.le_iff_toNat_le.1 hlower.2).trans_lt (by decide)
    next =>
      split at h
      next hupper => exact (UInt32.le_iff_toNat_le.1 hupper.2).trans_lt (by decide)
      next => cases h

theorem markRadix?_of_marks {mark : Char} {alphabet : List Char} (h : Marks mark alphabet) :
    ∃ radix, markRadix? mark = some radix ∧ ∀ c, (digitValue? radix c).isSome = true ↔ c ∈ alphabet := by
  cases h with
  | hexadecimal h =>
    refine ⟨16, by rcases h with rfl | rfl <;> rfl, ?_⟩
    exact test_iff_mem (fun c => digitValue?_ascii) (by decide +kernel) (by decide +kernel)
  | octal h =>
    refine ⟨8, by rcases h with rfl | rfl <;> rfl, ?_⟩
    exact test_iff_mem (fun c => digitValue?_ascii) (by decide +kernel) (by decide +kernel)
  | binary h =>
    refine ⟨2, by rcases h with rfl | rfl <;> rfl, ?_⟩
    exact test_iff_mem (fun c => digitValue?_ascii) (by decide +kernel) (by decide +kernel)

theorem exists_marks {mark : Char} {radix : Nat} (h : markRadix? mark = some radix) :
    (0 < radix ∧ radix ≤ 16) ∧ ∃ alphabet, Marks mark alphabet := by
  unfold markRadix? at h
  split at h <;> cases h
  · exact ⟨by decide, _, .hexadecimal (.inl rfl)⟩
  · exact ⟨by decide, _, .hexadecimal (.inr rfl)⟩
  · exact ⟨by decide, _, .octal (.inl rfl)⟩
  · exact ⟨by decide, _, .octal (.inr rfl)⟩
  · exact ⟨by decide, _, .binary (.inl rfl)⟩
  · exact ⟨by decide, _, .binary (.inr rfl)⟩

/-! ### Digits in a radix -/

theorem isSome_mapM {α β : Type} (f : α → Option β) (l : List α) :
    (l.mapM f).isSome = true ↔ ∀ a ∈ l, (f a).isSome = true := by
  induction l with
  | nil => simp
  | cons a l ih =>
    rw [List.mapM_cons, List.forall_mem_cons, ← ih]
    cases f a with
    | none => simp
    | some b => cases l.mapM f <;> simp

theorem isSome_readRadix? (radix : Nat) (cs : List Char) :
    (readRadix? radix cs).isSome = true ↔ cs ≠ [] ∧ ∀ c ∈ cs, (digitValue? radix c).isSome = true := by
  unfold readRadix?
  cases cs with
  | nil => simp
  | cons c cs => rw [if_neg (by simp), Option.isSome_map, isSome_mapM, and_iff_right (by simp)]

theorem digitValue?_lt {radix d : Nat} {c : Char} (h : digitValue? radix c = some d) : d < radix :=
  of_decide_eq_true (Option.filter_eq_some_iff.1 h).2

theorem lt_of_mapM_digitValue? {radix : Nat} {cs : List Char} {ds : List Nat}
    (h : cs.mapM (digitValue? radix) = some ds) : ∀ d ∈ ds, d < radix := by
  induction cs generalizing ds with
  | nil =>
    cases h
    exact fun d hd => absurd hd List.not_mem_nil
  | cons c cs ih =>
    rw [List.mapM_cons] at h
    obtain ⟨d, hd, h⟩ := Option.bind_eq_some_iff.1 h
    obtain ⟨rest, hrest, h⟩ := Option.bind_eq_some_iff.1 h
    cases h
    exact List.forall_mem_cons.2 ⟨digitValue?_lt hd, ih hrest⟩

theorem isUnsigned_readRadix? {radix : Nat} (hpos : 0 < radix) (hradix : radix ≤ 16) {cs : List Char} {x : Float}
    (h : readRadix? radix cs = some x) : IsUnsigned x := by
  have h53 : 16 ≤ twoPow 53 := by decide
  unfold readRadix? at h
  split at h
  · cases h
  · obtain ⟨ds, hds, rfl⟩ := Option.map_eq_some_iff.1 h
    refine isUnsigned_accumulate hpos (by omega) fun d hd => ?_
    have := lt_of_mapM_digitValue? hds d hd
    omega

/-! ### Signs -/

theorem exists_sign (cs : List Char) :
    ∃ sign, IsSign sign ∧ cs = sign ++ (takeSign cs).2 ∧ (takeSign cs).1 = decide (sign = ['-']) := by
  unfold takeSign
  split
  · exact ⟨['-'], .minus, rfl, rfl⟩
  · exact ⟨['+'], .plus, rfl, rfl⟩
  · exact ⟨[], .absent, rfl, rfl⟩

theorem takeSign_append {sign cs : List Char} (hsign : IsSign sign) (hcs : ∀ c ∈ cs.head?, c ≠ '-' ∧ c ≠ '+') :
    takeSign (sign ++ cs) = (decide (sign = ['-']), cs) := by
  cases hsign with
  | plus => rfl
  | minus => rfl
  | absent =>
    rw [List.nil_append]
    unfold takeSign
    split
    · exact absurd rfl (hcs '-' rfl).1
    · exact absurd rfl (hcs '+' rfl).2
    · rfl

/-! ### Decimals -/

/-- A text up to the first character that fails a test. -/
theorem exists_front (p : Char → Bool) (cs : List Char) : ∃ front rest, cs = front ++ rest ∧ (∀ c ∈ front, p c = true) ∧
    ∀ c ∈ rest.head?, p c = false := by
  refine ⟨cs.takeWhile p, cs.dropWhile p, List.takeWhile_append_dropWhile.symm, fun c hc => List.mem_takeWhile_imp hc,
    fun c hc => ?_⟩
  have hhead := List.head?_dropWhile_not p cs
  rw [Option.mem_def.1 hc] at hhead
  exact hhead

theorem areDigits_iff {cs : List Char} : AreDigits decimalDigits cs ↔ cs ≠ [] ∧ ∀ c ∈ cs, c.isDigit = true := by
  unfold AreDigits
  simp only [isDigit_iff]

theorem head_ne_sign {cs : List Char} (h : ∀ c ∈ cs.head?, c.isDigit = true ∨ c = '.') :
    ∀ c ∈ cs.head?, c ≠ '-' ∧ c ≠ '+' := by
  intro c hc
  rcases h c hc with h | rfl
  · constructor <;> rintro rfl <;> exact absurd h (by decide)
  · decide

theorem isSome_readExponent?_cons (c : Char) (cs : List Char) : (readExponent? (c :: cs)).isSome = true ↔
    (c = 'e' ∨ c = 'E') ∧ AreDigits decimalDigits (takeSign cs).2 := by
  rw [areDigits_iff, readExponent?]
  by_cases hmark : c = 'e' ∨ c = 'E'
  · rw [if_pos hmark, and_iff_right hmark]
    dsimp only
    split
    next h => simpa [imp_iff_not_or] using h
    next h => simpa using h
  · rw [if_neg hmark]
    exact iff_of_false Bool.false_ne_true fun h => hmark h.1

theorem isSome_readExponent? (cs : List Char) : (readExponent? cs).isSome = true ↔ IsExponent cs := by
  constructor
  · intro h
    cases cs with
    | nil => exact .absent
    | cons c cs =>
      obtain ⟨hmark, hdigits⟩ := (isSome_readExponent?_cons c cs).1 h
      obtain ⟨sign, hsign, hcs, -⟩ := exists_sign cs
      rw [hcs]
      exact .marked hmark hsign hdigits
  · intro h
    cases h with
    | absent => rfl
    | @marked mark sign ds hmark hsign h =>
      have hhead := head_ne_sign fun c hc => .inl ((areDigits_iff.1 h).2 c (List.mem_of_mem_head? hc))
      rw [isSome_readExponent?_cons, takeSign_append hsign hhead]
      exact ⟨hmark, h⟩

theorem head_exponent {e : List Char} (h : IsExponent e) : ∀ c ∈ e.head?, c = 'e' ∨ c = 'E' := by
  cases h with
  | absent => exact nofun
  | marked hmark _ _ =>
    intro c hc
    cases hc
    exact hmark

/-- Reading a decimal, given its digits before the point and what follows them. -/
theorem isSome_readDecimal?_append {ds rest : List Char} (hds : ∀ c ∈ ds, c.isDigit = true)
    (hrest : ∀ c ∈ rest.head?, c.isDigit = false) : (readDecimal? (ds ++ rest)).isSome = true ↔
      ¬ (ds = [] ∧ (takeFraction rest).1 = []) ∧ IsExponent (takeFraction rest).2 := by
  rw [readDecimal?, span_digits hds hrest, ← isSome_readExponent?]
  dsimp only
  split
  next h =>
    refine iff_of_false Bool.false_ne_true fun h' => h'.1 ?_
    simpa using h
  next h =>
    rw [Option.isSome_map, and_iff_right]
    simpa using h

theorem takeFraction_point {fs rest : List Char} (hfs : ∀ c ∈ fs, c.isDigit = true)
    (hrest : ∀ c ∈ rest.head?, c.isDigit = false) : takeFraction ('.' :: (fs ++ rest)) = (fs, rest) :=
  span_digits hfs hrest

theorem takeFraction_of_ne {cs : List Char} (h : ∀ c ∈ cs.head?, c ≠ '.') : takeFraction cs = ([], cs) := by
  unfold takeFraction
  split
  · exact absurd rfl (h '.' rfl)
  · rfl

theorem isSome_readDecimal? (cs : List Char) :
    (readDecimal? cs).isSome = true ↔ ∃ m e, cs = m ++ e ∧ IsMantissa m ∧ IsExponent e := by
  constructor
  · intro h
    obtain ⟨ds, rest, rfl, hds, hrest⟩ := exists_front Char.isDigit cs
    obtain ⟨hne, he⟩ := (isSome_readDecimal?_append hds hrest).1 h
    by_cases hpoint : ∃ tail, rest = '.' :: tail
    · obtain ⟨tail, rfl⟩ := hpoint
      obtain ⟨fs, e, rfl, hfs, hhead⟩ := exists_front Char.isDigit tail
      rw [takeFraction_point hfs hhead] at hne he
      by_cases hnil : ds = []
      · exact ⟨'.' :: fs, e, by simp [hnil], .fraction (areDigits_iff.2 ⟨fun h => hne ⟨hnil, h⟩, hfs⟩), he⟩
      · exact ⟨ds ++ '.' :: fs, e, by simp,
          .pointed (areDigits_iff.2 ⟨hnil, hds⟩) fun c hc => (isDigit_iff c).1 (hfs c hc), he⟩
    · have hhead : ∀ c ∈ rest.head?, c ≠ '.' := by
        rintro c hc rfl
        exact hpoint ⟨rest.tail, (List.cons_head?_tail hc).symm⟩
      rw [takeFraction_of_ne hhead] at hne he
      exact ⟨ds, rest, rfl, .whole (areDigits_iff.2 ⟨fun h => hne ⟨h, rfl⟩, hds⟩), he⟩
  · rintro ⟨m, e, rfl, hm, he⟩
    -- an exponent begins with neither a digit nor a point, so the digits end where the mantissa does
    have hexponent := head_exponent he
    have hdigit : ∀ c ∈ e.head?, c.isDigit = false := by
      intro c hc
      rcases hexponent c hc with rfl | rfl <;> rfl
    have hpoint : ∀ c ∈ e.head?, c ≠ '.' := by
      intro c hc
      rcases hexponent c hc with rfl | rfl <;> decide
    cases hm with
    | whole h =>
      obtain ⟨hne, hds⟩ := areDigits_iff.1 h
      rw [isSome_readDecimal?_append hds hdigit, takeFraction_of_ne hpoint]
      exact ⟨fun h => hne h.1, he⟩
    | @pointed ds fs h hfs =>
      obtain ⟨hne, hds⟩ := areDigits_iff.1 h
      rw [List.append_assoc, List.cons_append, isSome_readDecimal?_append hds (by simp),
        takeFraction_point (fun c hc => (isDigit_iff c).2 (hfs c hc)) hdigit]
      exact ⟨fun h => hne h.1, he⟩
    | @fraction fs h =>
      obtain ⟨hne, hfs⟩ := areDigits_iff.1 h
      have hread := @isSome_readDecimal?_append [] ('.' :: (fs ++ e)) nofun (by simp)
      rw [takeFraction_point hfs hdigit] at hread
      exact hread.2 ⟨fun h => hne h.2, he⟩

/-! ### Signed decimals -/

theorem AreDigits.exists_cons {cs : List Char} (h : AreDigits decimalDigits cs) :
    ∃ c rest, cs = c :: rest ∧ c.isDigit = true := by
  obtain ⟨hne, hds⟩ := areDigits_iff.1 h
  obtain ⟨c, rest, rfl⟩ := List.exists_cons_of_ne_nil hne
  exact ⟨c, rest, rfl, hds c List.mem_cons_self⟩

theorem IsMantissa.exists_cons {m : List Char} (h : IsMantissa m) :
    ∃ c rest, m = c :: rest ∧ (c.isDigit = true ∨ c = '.') := by
  cases h with
  | whole h =>
    obtain ⟨c, rest, rfl, hc⟩ := h.exists_cons
    exact ⟨c, rest, rfl, .inl hc⟩
  | pointed h _ =>
    obtain ⟨c, rest, rfl, hc⟩ := h.exists_cons
    exact ⟨c, _, rfl, .inl hc⟩
  | fraction _ => exact ⟨'.', _, rfl, .inr rfl⟩

theorem takeSign_mantissa {sign m e : List Char} (hsign : IsSign sign) (hm : IsMantissa m) :
    takeSign (sign ++ (m ++ e)) = (decide (sign = ['-']), m ++ e) := by
  refine takeSign_append hsign (head_ne_sign fun c hc => ?_)
  obtain ⟨d, rest, rfl, hd⟩ := hm.exists_cons
  cases hc
  exact hd

theorem isDecimalChar_of_digits {cs : List Char} (h : ∀ c ∈ cs, c ∈ decimalDigits) :
    ∀ c ∈ cs, isDecimalChar c = true :=
  fun c hc => isDecimalChar_of_isDigit ((isDigit_iff c).2 (h c hc))

theorem IsSign.isDecimalChar {sign : List Char} (h : IsSign sign) : ∀ c ∈ sign, isDecimalChar c = true := by
  cases h with
  | absent => exact fun c hc => absurd hc List.not_mem_nil
  | plus => exact List.forall_mem_singleton.2 rfl
  | minus => exact List.forall_mem_singleton.2 rfl

theorem IsMantissa.isDecimalChar {m : List Char} (h : IsMantissa m) : ∀ c ∈ m, isDecimalChar c = true := by
  cases h with
  | whole h => exact isDecimalChar_of_digits h.2
  | pointed h hfs =>
    exact List.forall_mem_append.2
      ⟨isDecimalChar_of_digits h.2, List.forall_mem_cons.2 ⟨rfl, isDecimalChar_of_digits hfs⟩⟩
  | fraction h => exact List.forall_mem_cons.2 ⟨rfl, isDecimalChar_of_digits h.2⟩

theorem IsExponent.isDecimalChar {e : List Char} (h : IsExponent e) : ∀ c ∈ e, isDecimalChar c = true := by
  cases h with
  | absent => exact fun c hc => absurd hc List.not_mem_nil
  | @marked mark sign ds hmark hsign h =>
    have hchar : Numeral.isDecimalChar mark = true := by rcases hmark with rfl | rfl <;> rfl
    exact List.forall_mem_cons.2
      ⟨hchar, List.forall_mem_append.2 ⟨hsign.isDecimalChar, isDecimalChar_of_digits h.2⟩⟩

theorem isDecimalChar_signed {sign m e : List Char} (hsign : IsSign sign) (hm : IsMantissa m) (he : IsExponent e) :
    ∀ c ∈ sign ++ (m ++ e), isDecimalChar c = true :=
  List.forall_mem_append.2 ⟨hsign.isDecimalChar, List.forall_mem_append.2 ⟨hm.isDecimalChar, he.isDecimalChar⟩⟩

theorem isDecimalChar_of_isSome {cs : List Char} (h : (readSigned? cs).isSome = true) :
    ∀ c ∈ cs, isDecimalChar c = true := by
  unfold readSigned? at h
  split at h
  next hall => exact List.all_eq_true.1 hall
  next => cases h

/-- Behind the test of the characters, the parser accepts signed decimals and nothing else. -/
theorem isSome_readSigned? (cs : List Char) : (readSigned? cs).isSome = true ↔
    ∃ sign m e, cs = sign ++ (m ++ e) ∧ IsSign sign ∧ IsMantissa m ∧ IsExponent e := by
  constructor
  · intro h
    rw [readSigned?_eq (isDecimalChar_of_isSome h), Option.isSome_map, isSome_readDecimal?] at h
    obtain ⟨m, e, hrest, hm, he⟩ := h
    obtain ⟨sign, hsign, hcs, -⟩ := exists_sign cs
    exact ⟨sign, m, e, hcs.trans (by rw [hrest]), hsign, hm, he⟩
  · rintro ⟨sign, m, e, rfl, hsign, hm, he⟩
    rw [readSigned?_eq (isDecimalChar_signed hsign hm he), takeSign_mantissa hsign hm, Option.isSome_map,
      isSome_readDecimal?]
    exact ⟨m, e, rfl, hm, he⟩

theorem Decimal.magnitude_le (d : Decimal) : d.magnitude ≤ infinity := by
  unfold Decimal.magnitude
  split
  · exact Nat.zero_le _
  split
  · exact le_rfl
  split
  · exact Nat.zero_le _
  · exact Nat.min_le_left ..

theorem isNaN_ofMagnitude (negative : Bool) {b : Nat} (hb : b ≤ infinity) : (ofMagnitude negative b).isNaN = false := by
  rw [← Bool.not_eq_true, isNaN_iff, not_not, IsNumber, magnitude_ofMagnitude negative hb]
  exact hb

theorem isNaN_readSigned? {cs : List Char} {x : Float} (h : readSigned? cs = some x) : x.isNaN = false := by
  rw [readSigned?_eq (isDecimalChar_of_isSome (by rw [h]; rfl))] at h
  obtain ⟨d, -, rfl⟩ := Option.map_eq_some_iff.1 h
  exact isNaN_ofMagnitude _ (Decimal.magnitude_le d)

/-! ### Whole texts -/

theorem takeMark?_eq_some {cs digits : List Char} {radix : Nat} :
    takeMark? cs = some (radix, digits) ↔ ∃ mark, cs = '0' :: mark :: digits ∧ markRadix? mark = some radix := by
  constructor
  · intro h
    unfold takeMark? at h
    split at h
    next mark rest =>
      obtain ⟨radix', hmark, heq⟩ := Option.map_eq_some_iff.1 h
      cases heq
      exact ⟨mark, rfl, hmark⟩
    next => cases h
  · rintro ⟨mark, rfl, hmark⟩
    rw [takeMark?, hmark, Option.map_some]

theorem read?_marked {mark : Char} {radix : Nat} (h : markRadix? mark = some radix) (cs : List Char) :
    read? ('0' :: mark :: cs) = readRadix? radix cs := by
  rw [read?, if_neg (by simp), if_neg (by simp), if_neg (by simp), takeMark?_eq_some.2 ⟨mark, rfl, h⟩]

theorem read?_infinity {sign : List Char} (hsign : IsSign sign) :
    read? (sign ++ "Infinity".toList) = some (ofMagnitude (decide (sign = ['-'])) infinity) := by
  unfold read?
  cases hsign with
  | absent => rw [if_neg (by decide), if_pos (by decide), decide_eq_false (by decide)]
  | plus => rw [if_neg (by decide), if_pos (by decide), decide_eq_false (by decide)]
  | minus => rw [if_neg (by decide), if_neg (by decide), if_pos (by decide), decide_eq_true rfl]

/-- Reading accepts the texts of the grammar. -/
theorem isSome_read? (cs : List Char) : (read? cs).isSome = true ↔ IsSpelling cs := by
  constructor
  · intro h
    unfold read? at h
    split at h
    next hnil =>
      rw [hnil]
      exact .empty
    split at h
    next hword =>
      rcases hword with rfl | rfl
      · exact .infinity .absent
      · exact .infinity .plus
    split at h
    next hword =>
      rw [hword]
      exact .infinity .minus
    split at h
    next radix digits htake =>
      obtain ⟨mark, rfl, hmark⟩ := takeMark?_eq_some.1 htake
      obtain ⟨-, alphabet, hmarks⟩ := exists_marks hmark
      obtain ⟨radix', hmark', hdigits⟩ := markRadix?_of_marks hmarks
      obtain rfl : radix = radix' := Option.some.inj (hmark.symm.trans hmark')
      simp only [isSome_readRadix?, hdigits] at h
      exact .marked hmarks h
    next =>
      obtain ⟨sign, m, e, rfl, hsign, hm, he⟩ := (isSome_readSigned? cs).1 h
      exact .decimal hsign hm he
  · intro h
    cases h with
    | empty => rfl
    | infinity hsign => rw [read?_infinity hsign, Option.isSome_some]
    | marked hmarks h =>
      obtain ⟨radix, hmark, hdigits⟩ := markRadix?_of_marks hmarks
      simp only [read?_marked hmark, isSome_readRadix?, hdigits]
      exact h
    | @decimal sign m e hsign hm he =>
      have hne : sign ++ (m ++ e) ≠ [] := by
        obtain ⟨c, rest, rfl, -⟩ := hm.exists_cons
        simp
      rw [read?_eq_readSigned? (isDecimalChar_signed hsign hm he) hne, isSome_readSigned?]
      exact ⟨sign, m, e, rfl, hsign, hm, he⟩

/-- What is read is a number. -/
theorem isNaN_read? {cs : List Char} {x : Float} (h : read? cs = some x) : x.isNaN = false := by
  unfold read? at h
  split at h
  next =>
    cases h
    exact (isUnsigned_ofNat (Nat.zero_le _)).isNaN
  split at h
  next =>
    cases h
    exact isNaN_ofMagnitude _ le_rfl
  split at h
  next =>
    cases h
    exact isNaN_ofMagnitude _ le_rfl
  split at h
  next radix digits htake =>
    obtain ⟨mark, -, hmark⟩ := takeMark?_eq_some.1 htake
    obtain ⟨⟨hpos, hle⟩, -⟩ := exists_marks hmark
    exact (isUnsigned_readRadix? hpos hle h).isNaN
  next => exact isNaN_readSigned? h

/-! ### Words -/

/-- The words that the parser knows, in any case. -/
def IsWord (cs : List Char) : Prop := cs.map Char.toLower ∈ ["inf".toList, "infinity".toList, "nan".toList]

theorem IsWord.exists_cons {word : List Char} (h : IsWord word) :
    ∃ c rest, word = c :: rest ∧ (c.toLower = 'i' ∨ c.toLower = 'n') := by
  cases word with
  | nil => exact absurd h (by unfold IsWord; decide)
  | cons c rest =>
    refine ⟨c, rest, rfl, ?_⟩
    simp only [IsWord, List.map_cons, List.mem_cons, List.not_mem_nil, or_false] at h
    rcases h with h | h | h
    · exact .inl (List.cons.inj h).1
    · exact .inl (List.cons.inj h).1
    · exact .inr (List.cons.inj h).1

theorem takeSign_word {sign word : List Char} (hsign : IsSign sign) (hword : IsWord word) :
    takeSign (sign ++ word) = (decide (sign = ['-']), word) := by
  refine takeSign_append hsign fun c hc => ?_
  obtain ⟨d, rest, rfl, hd⟩ := hword.exists_cons
  cases hc
  constructor <;> rintro rfl <;> exact absurd hd (by decide)

theorem isSome_parse?_word {sign word : List Char} (hsign : IsSign sign) (hword : IsWord word) :
    (parse? (sign ++ word)).isSome = true := by
  have hsome : (wordMagnitude? word).isSome = true := by
    simp only [IsWord, List.mem_cons, List.not_mem_nil, or_false] at hword
    rcases hword with h | h | h <;> simp [wordMagnitude?, h]
  rw [parse?, takeSign_word hsign hword]
  dsimp only
  rw [Option.isSome_map, Option.isSome_or, hsome, Bool.or_true]

/-- What stands after the sign in a text of the grammar. -/
theorem IsSpelling.afterSign {cs : List Char} (h : IsSpelling cs) : (takeSign cs).2 = [] ∨
    (takeSign cs).2 = "Infinity".toList ∨ ∃ c ∈ (takeSign cs).2.head?, isDecimalChar c = true := by
  cases h with
  | empty => exact .inl rfl
  | infinity hsign =>
    refine .inr (.inl ?_)
    cases hsign <;> rfl
  | marked _ _ => exact .inr (.inr ⟨'0', rfl, rfl⟩)
  | decimal hsign hm he =>
    rw [takeSign_mantissa hsign hm]
    obtain ⟨c, rest, rfl, -⟩ := hm.exists_cons
    exact .inr (.inr ⟨c, rfl, hm.isDecimalChar c List.mem_cons_self⟩)

/-- Of the words, the grammar has one, in one spelling. -/
theorem isSpelling_word {sign word : List Char} (hsign : IsSign sign) (hword : IsWord word) :
    IsSpelling (sign ++ word) ↔ word = "Infinity".toList := by
  refine ⟨fun h => ?_, ?_⟩
  · have hafter := h.afterSign
    rw [takeSign_word hsign hword] at hafter
    obtain ⟨c, rest, rfl, hc⟩ := hword.exists_cons
    rcases hafter with hnil | hinfinity | ⟨d, hd, hchar⟩
    · cases hnil
    · exact hinfinity
    · cases hd
      obtain ⟨hi, hn⟩ := toLower_of_isDecimalChar hchar
      exact absurd hc (not_or.2 ⟨hi, hn⟩)
  · rintro rfl
    exact .infinity hsign

/-! ### Blanks around a text -/

theorem dropWhile_blank {before cs : List Char} (hbefore : ∀ c ∈ before, IsOuter c)
    (hcs : ∀ c ∈ cs.head?, ¬ IsOuter c) : (before ++ cs).dropWhile Text.isBlank = cs := by
  rw [List.dropWhile_append_of_pos fun c hc => (isBlank_iff c).2 (hbefore c hc)]
  cases cs with
  | nil => rfl
  | cons c cs => exact List.dropWhile_cons_of_neg fun h => hcs c rfl ((isBlank_iff c).1 h)

/-- Trimming takes away just the blanks at the two ends. -/
theorem trim_append {before t after : List Char} (hbefore : ∀ c ∈ before, IsOuter c) (hafter : ∀ c ∈ after, IsOuter c)
    (hhead : ∀ c ∈ t.head?, ¬ IsOuter c) (hlast : ∀ c ∈ t.getLast?, ¬ IsOuter c) :
    Text.trim (before ++ (t ++ after)) = t := by
  unfold Text.trim
  rcases eq_or_ne t [] with rfl | hne
  · have hblank : ∀ c ∈ before ++ after, IsOuter c := List.forall_mem_append.2 ⟨hbefore, hafter⟩
    have hdrop := @dropWhile_blank _ [] hblank nofun
    rw [List.append_nil] at hdrop
    rw [List.nil_append, hdrop]
    rfl
  · rw [dropWhile_blank hbefore, List.reverse_append, dropWhile_blank, List.reverse_reverse]
    · exact fun c hc => hafter c (List.mem_reverse.1 hc)
    · rwa [List.head?_reverse]
    · rwa [List.head?_append_of_ne_nil _ hne]

theorem Trims.eq_trim {cs t : List Char} (h : Trims cs t) : t = Text.trim cs := by
  obtain ⟨before, after, rfl, hbefore, hafter⟩ := h.exists_around
  exact (trim_append hbefore hafter h.head h.last).symm

theorem exists_trims (cs : List Char) : ∃ t, Trims cs t := by
  obtain ⟨before, rest, rfl, hbefore, hrest⟩ := exists_front Text.isBlank cs
  obtain ⟨after, front, hfront, hafter, hlast⟩ := exists_front Text.isBlank rest.reverse
  simp only [isBlank_iff, ← Bool.not_eq_true] at hbefore hrest hafter hlast
  have hrest' : rest = front.reverse ++ after.reverse := by
    rw [← List.reverse_append, ← hfront, List.reverse_reverse]
  refine ⟨front.reverse, ⟨before, after.reverse, by rw [hrest'], hbefore, fun c hc => hafter c (List.mem_reverse.1 hc)⟩,
    fun c hc => hrest c ?_, fun c hc => hlast c ?_⟩
  · rw [hrest', List.head?_append, Option.mem_def.1 hc]
    rfl
  · rwa [List.getLast?_reverse] at hc

theorem trims_iff {cs t : List Char} : Trims cs t ↔ t = Text.trim cs := by
  refine ⟨Trims.eq_trim, ?_⟩
  rintro rfl
  obtain ⟨t, ht⟩ := exists_trims cs
  rwa [← ht.eq_trim]

/-! ### Cuts between bytes -/

/-- The characters in the first `n` bytes of a text, and those after them. There are none if the cut falls within a
character or behind the end. -/
def cutBytes? : Nat → List Char → Option (List Char × List Char)
  | 0, cs => some ([], cs)
  | _ + 1, [] => none
  | n + 1, c :: cs =>
    if c.utf8Size ≤ n + 1 then (cutBytes? (n + 1 - c.utf8Size) cs).map fun cut => (c :: cut.1, cut.2) else none

/-- The radix that the beginning of a text announces. -/
def frontRadix? : List Char → Option Nat
  | ['0', mark] => markRadix? mark
  | _ => none

/-- Reading with a checked cut after the mark of a radix. -/
def readCutting? (cs : List Char) : Option (Option Float) :=
  if cs = [] then some (some 0)
  else if cs = "Infinity".toList ∨ cs = "+Infinity".toList then some (some (ofMagnitude false infinity))
  else if cs = "-Infinity".toList then some (some (ofMagnitude true infinity))
  else
    match (cutBytes? 2 cs).bind fun cut => frontRadix? cut.1 with
    | some radix => (cutBytes? 2 cs).map fun cut => readRadix? radix cut.2
    | none => some (readSigned? cs)

theorem append_of_cutBytes? {n : Nat} {cs front rest : List Char} (h : cutBytes? n cs = some (front, rest)) :
    cs = front ++ rest := by
  fun_induction cutBytes? n cs generalizing front with
  | case1 cs =>
    cases h
    rfl
  | case2 => cases h
  | case3 n c cs hsize ih =>
    obtain ⟨⟨front', rest'⟩, hcut, h⟩ := Option.map_eq_some_iff.1 h
    cases h
    rw [ih hcut, List.cons_append]
  | case4 => cases h

/-- A mark is a single byte, so the cut after it falls between characters. -/
theorem cutBytes?_marked {mark : Char} {radix : Nat} (h : markRadix? mark = some radix) (cs : List Char) :
    cutBytes? 2 ('0' :: mark :: cs) = some (['0', mark], cs) := by
  have hfirst : '0'.utf8Size = 1 := by decide
  have hmark : mark.utf8Size = 1 := by
    obtain ⟨-, alphabet, hmarks⟩ := exists_marks h
    cases hmarks with
    | hexadecimal h => rcases h with rfl | rfl <;> decide
    | octal h => rcases h with rfl | rfl <;> decide
    | binary h => rcases h with rfl | rfl <;> decide
  simp [cutBytes?, hfirst, hmark]

theorem frontRadix?_eq_some {front : List Char} {radix : Nat} (h : frontRadix? front = some radix) :
    ∃ mark, front = ['0', mark] ∧ markRadix? mark = some radix := by
  unfold frontRadix? at h
  split at h
  next mark => exact ⟨mark, rfl, h⟩
  next => cases h

theorem takeMark?_of_cut {cs : List Char} (h : ((cutBytes? 2 cs).bind fun cut => frontRadix? cut.1) = none) :
    takeMark? cs = none := by
  refine Option.eq_none_iff_forall_ne_some.2 fun p hp => ?_
  obtain ⟨mark, rfl, hmark⟩ := takeMark?_eq_some.1 hp
  rw [cutBytes?_marked hmark] at h
  exact absurd (hmark.symm.trans h) (Option.some_ne_none _)

/-- No cut is out of place. -/
theorem readCutting?_eq (cs : List Char) : readCutting? cs = some (read? cs) := by
  unfold readCutting? read?
  split
  · rfl
  split
  · rfl
  split
  · rfl
  split
  next radix h =>
    obtain ⟨⟨front, rest⟩, hcut, hfront⟩ := Option.bind_eq_some_iff.1 h
    obtain ⟨mark, rfl, hmark⟩ := frontRadix?_eq_some hfront
    have htake : takeMark? cs = some (radix, rest) := takeMark?_eq_some.2 ⟨mark, append_of_cutBytes? hcut, hmark⟩
    rw [hcut, htake, Option.map_some]
  next h => rw [takeMark?_of_cut h]

/-! ### Strings -/

theorem isNaN_value (s : String) : (value s).isNaN = false ↔ IsSpelling (Text.trim s.toList) := by
  rw [← isSome_read?, value]
  cases h : read? (Text.trim s.toList) with
  | none =>
    have hnan : nan.isNaN = true := by decide +kernel
    rw [Option.getD_none, hnan]
    exact iff_of_false (by decide) Bool.false_ne_true
  | some x => exact iff_of_true (isNaN_read? h) rfl

/-- The strings that convert to numbers are those of the grammar, once white space and byte order marks around them are
taken away. Nothing at all converts to zero, and `Infinity` to the infinity of its sign. The parser behind the
conversion takes more words, and in any case; none of the others makes a number. -/
theorem strings_convert_by_grammar (s : String) : ∃ t, (∀ t', Trims s.toList t' ↔ t' = t) ∧
    ((Literal.string s).toNumber.isNaN = false ↔ IsSpelling t) ∧
    (t = [] → (Literal.string s).toNumber = 0) ∧
    (∀ sign, IsSign sign → t = sign ++ "Infinity".toList →
      (Literal.string s).toNumber = if sign = ['-'] then -1 / 0 else 1 / 0) ∧
    (∀ sign word, IsSign sign → IsWord word → t = sign ++ word → (parse? t).isSome = true ∧
      ((Literal.string s).toNumber.isNaN = false ↔ word = "Infinity".toList)) ∧
    (readCutting? t).map (·.getD nan) = some (Literal.string s).toNumber := by
  refine ⟨Text.trim s.toList, fun t' => trims_iff, isNaN_value s, fun h => ?_, fun sign hsign h => ?_,
    fun sign word hsign hword h => ?_, ?_⟩
  · rw [Literal.toNumber, value, h]
    rfl
  · rw [Literal.toNumber, value, h, read?_infinity hsign, Option.getD_some]
    by_cases hminus : sign = ['-']
    · rw [if_pos hminus, decide_eq_true hminus]
      decide +kernel
    · rw [if_neg hminus, decide_eq_false hminus]
      decide +kernel
  · rw [Literal.toNumber, isNaN_value, h]
    exact ⟨isSome_parse?_word hsign hword, isSpelling_word hsign hword⟩
  · rw [readCutting?_eq]
    rfl

/-- A word between a byte order mark and a line break, and a text of blanks only. -/
theorem blanks_convert_by_grammar :
    (Trims "\ufeff -Infinity\n".toList "-Infinity".toList ∧ IsSign ['-'] ∧
      (Literal.string "\ufeff -Infinity\n").toNumber = -1 / 0) ∧
    Trims " \u3000".toList [] ∧ (Literal.string " \u3000").toNumber = 0 := by
  have hword : Trims "\ufeff -Infinity\n".toList "-Infinity".toList := trims_iff.2 (by decide +kernel)
  have hblank : Trims " \u3000".toList [] := trims_iff.2 (by decide +kernel)
  obtain ⟨t, ht, -, -, hinfinity, -⟩ := strings_convert_by_grammar "\ufeff -Infinity\n"
  obtain ⟨u, hu, -, hzero, -⟩ := strings_convert_by_grammar " \u3000"
  refine ⟨⟨hword, .minus, ?_⟩, hblank, hzero ((hu []).1 hblank).symm⟩
  exact (hinfinity ['-'] .minus ((ht _).1 hword).symm).trans (if_pos rfl)

end DeclCompiler.Numeral
