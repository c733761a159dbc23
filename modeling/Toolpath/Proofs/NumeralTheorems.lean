import Toolpath.Number.Decimal
import Toolpath.Proofs.ShortestTheorems
import Toolpath.Proofs.TenthTheorems

/-!
# Numerals

Whatever is printed for a number is a sign, the digits of a whole number, digits behind a point and
an exponent (`Numeral`), be it a whole number (`Numeral.chars_ofInt`) or a finite one of a machine
format (`exists_numeral_render`). Without an exponent the digits stand for the shortest decimal.
-/

namespace Toolpath.Number

/-! ## Digits -/

/-- Digits in front count as many times more as there are digits behind them. -/
theorem digitsValue_append (front back : List Char) : digitsValue (front ++ back) =
    10 ^ back.length * digitsValue front + digitsValue back := by
  show Nat.ofDigitChars 10 (front ++ back) 0 = _
  rw [Nat.ofDigitChars_append, Nat.ofDigitChars_eq_ofDigitChars_zero]
  rfl

/-- The digits of a number have its value. -/
theorem digitsValue_toDigits (n : ℕ) : digitsValue (Nat.toDigits 10 n) = n :=
  Nat.ofDigitChars_ten_toDigits

theorem digitsValue_replicate_zero (n : ℕ) : digitsValue (List.replicate n '0') = 0 := by
  show Nat.ofDigitChars 10 (List.replicate n '0') 0 = 0
  rw [Nat.ofDigitChars_replicate_zero, mul_zero]

/-- The digits of a number are digits. -/
theorem isDigit_of_mem_toDigits {n : ℕ} {c : Char} (h : c ∈ Nat.toDigits 10 n) :
    c.isDigit = true :=
  Nat.isDigit_of_mem_toDigits (by decide) (by decide) h

/-- The digits of a whole number have no zero in front of others. -/
theorem toDigits_cases (n : ℕ) : Nat.toDigits 10 n = ['0'] ∨
    ∃ c rest, Nat.toDigits 10 n = c :: rest ∧ c ≠ '0' := by
  induction n using Nat.strong_induction_on with
  | h n ih =>
    rcases lt_or_ge n 10 with hlt | hge
    · have hdigit : ∀ k < 10, k.digitChar = '0' ∨ k.digitChar ≠ '0' := by decide
      rw [Nat.toDigits_of_lt_base hlt]
      rcases hdigit n hlt with hzero | hne
      · exact .inl (by rw [hzero])
      · exact .inr ⟨_, _, rfl, hne⟩
    · rw [Nat.toDigits_of_base_le (by decide) hge]
      rcases ih (n / 10) (by omega) with hzero | ⟨c, rest, hrest, hc⟩
      · have hdigits := congrArg digitsValue hzero
        rw [digitsValue_toDigits] at hdigits
        have hnone : n / 10 = 0 := hdigits
        omega
      · rw [hrest]
        exact .inr ⟨c, _, rfl, hc⟩

/-- What has a property is taken up to what has it not. -/
theorem span_append {p : Char → Bool} {front rest : List Char} (hfront : ∀ c ∈ front, p c = true)
    (hrest : ∀ c ∈ rest.head?, p c = false) : (front ++ rest).span p = (front, rest) := by
  have hstop : rest.takeWhile p = [] ∧ rest.dropWhile p = rest := by
    cases rest with
    | nil => exact ⟨rfl, rfl⟩
    | cons c rest =>
      have hc : ¬ p c = true := by
        rw [hrest c rfl]
        exact Bool.false_ne_true
      exact ⟨List.takeWhile_cons_of_neg hc, List.dropWhile_cons_of_neg hc⟩
  rw [List.span_eq_takeWhile_dropWhile, List.takeWhile_append_of_pos hfront,
    List.dropWhile_append_of_pos hfront, hstop.1, hstop.2, List.append_nil]

/-- Leading digits end where there is no digit. -/
theorem spanDigits_append {digits rest : List Char} (hdigits : ∀ c ∈ digits, c.isDigit = true)
    (hrest : ∀ c ∈ rest.head?, c.isDigit = false) :
    spanDigits (digits ++ rest) = (digits, rest) :=
  span_append hdigits hrest

/-- A number has a digit. -/
theorem exists_toDigits (n : ℕ) :
    ∃ c digits, Nat.toDigits 10 n = c :: digits ∧ c.isDigit = true := by
  obtain ⟨c, digits, hdigits⟩ : ∃ c digits, Nat.toDigits 10 n = c :: digits :=
    List.exists_cons_of_ne_nil Nat.toDigits_ne_nil
  exact ⟨c, digits, hdigits, isDigit_of_mem_toDigits (hdigits ▸ List.mem_cons_self)⟩

/-- A number without a sign is not negative. -/
theorem spanSign_toDigits (n : ℕ) (rest : List Char) :
    spanSign (Nat.toDigits 10 n ++ rest) = (false, Nat.toDigits 10 n ++ rest) := by
  obtain ⟨c, digits, hdigits, hc⟩ := exists_toDigits n
  have hsign : c ≠ '-' ∧ c ≠ '+' := by constructor <;> (rintro rfl; cases hc)
  rw [hdigits, List.cons_append]
  simp [spanSign, hsign]

/-- Digits up to a width, with zeros in front. -/
theorem toList_padZeros (width n : ℕ) : (padZeros width (toString n)).toList =
    List.replicate (width - (Nat.toDigits 10 n).length) '0' ++ Nat.toDigits 10 n := by
  unfold padZeros
  rw [String.toList_append, String.toList_ofList, toList_toString, ← String.length_toList,
    toList_toString]

/-- A number that has no more digits than the width fills it. -/
theorem length_padZeros {width n : ℕ} (hwidth : 0 < width) (h : n < 10 ^ width) :
    (padZeros width (toString n)).toList.length = width := by
  have hdigits : (Nat.toDigits 10 n).length ≤ width :=
    (Nat.length_toDigits_le_iff (by decide) hwidth).2 h
  rw [toList_padZeros, List.length_append, List.length_replicate, Nat.sub_add_cancel hdigits]

/-- Zeros in front leave the value as it is. -/
theorem digitsValue_padZeros (width n : ℕ) :
    digitsValue (padZeros width (toString n)).toList = n := by
  rw [toList_padZeros, digitsValue_append, digitsValue_replicate_zero, mul_zero, zero_add,
    digitsValue_toDigits]

/-! ## Numerals -/

/-- A number in decimal digits: a sign, a whole number, digits behind a point unless there are none,
and an exponent with its sign unless there is none. -/
structure Numeral where
  negative : Bool
  whole : ℕ
  fraction : List Char
  exponent : Option (Bool × ℕ)
  isDigit_of_mem : ∀ {c}, c ∈ fraction → c.isDigit = true

namespace Numeral

/-- The sign of a numeral. -/
def signChars (negative : Bool) : List Char := if negative then ['-'] else []

/-- The point and the digits behind it. -/
def fractionChars : List Char → List Char
  | [] => []
  | digits => '.' :: digits

/-- The mark, the sign and the digits of an exponent. -/
def exponentChars : Option (Bool × ℕ) → List Char
  | none => []
  | some (negative, size) => 'e' :: (if negative then '-' else '+') :: Nat.toDigits 10 size

/-- The text of a numeral. -/
def chars (n : Numeral) : List Char :=
  signChars n.negative ++ Nat.toDigits 10 n.whole ++ fractionChars n.fraction ++
    exponentChars n.exponent

/-- A numeral begins with a minus sign or a digit. -/
theorem exists_chars (n : Numeral) :
    ∃ c cs, n.chars = c :: cs ∧ (c = '-' ∨ c.isDigit = true) := by
  obtain ⟨d, digits, hdigits, hd⟩ := exists_toDigits n.whole
  unfold chars
  rw [hdigits]
  cases n.negative with
  | false => exact ⟨d, _, rfl, .inr hd⟩
  | true => exact ⟨'-', _, rfl, .inl rfl⟩

/-- Behind the whole number stands the point, or what stands behind the numeral. -/
theorem mem_head?_fraction {fraction rest : List Char} {c : Char}
    (h : c ∈ (fractionChars fraction ++ rest).head?) : c = '.' ∨ c ∈ rest.head? := by
  cases fraction with
  | nil => exact .inr h
  | cons d digits =>
    cases h
    exact .inl rfl

/-- A numeral without an exponent is a sign, a whole number and a fraction. -/
theorem chars_append {n : Numeral} (hn : n.exponent = none) (rest : List Char) :
    n.chars ++ rest = signChars n.negative ++ (Nat.toDigits 10 n.whole ++
      (fractionChars n.fraction ++ rest)) := by
  simp [chars, hn, exponentChars]

/-- The decimal that a numeral without an exponent stands for. -/
def decimal (n : Numeral) : Decimal :=
  ⟨n.negative, digitsValue (Nat.toDigits 10 n.whole ++ n.fraction), -n.fraction.length⟩

/-- The numeral of a whole number. -/
def ofInt (i : ℤ) : Numeral := ⟨decide (i < 0), i.natAbs, [], none, nofun⟩

/-- The text of a whole number is a numeral. -/
theorem chars_ofInt (i : ℤ) : (toString i).toList = (ofInt i).chars := by
  cases i with
  | ofNat n =>
    have hsign : decide (Int.ofNat n < 0) = false := decide_eq_false (Int.natCast_nonneg n).not_gt
    unfold chars ofInt
    rw [hsign]
    show (toString n).toList = [] ++ Nat.toDigits 10 n ++ [] ++ []
    rw [toList_toString, List.nil_append, List.append_nil, List.append_nil]
  | negSucc n =>
    have hsign : decide (Int.negSucc n < 0) = true := decide_eq_true (Int.negSucc_lt_zero n)
    unfold chars ofInt
    rw [hsign]
    show ("-" ++ toString (n + 1)).toList = ['-'] ++ Nat.toDigits 10 (n + 1) ++ [] ++ []
    rw [String.toList_append, toList_toString, List.append_nil, List.append_nil]
    rfl

theorem chars_ofNat (n : ℕ) : (toString n).toList = (ofInt n).chars := chars_ofInt n

/-- The whole number in places and the digits behind the point. -/
def ofPlaces (negative : Bool) (places digits : ℕ) : Numeral :=
  ⟨negative, digits / 10 ^ places, (padZeros places (toString (digits % 10 ^ places))).toList, none,
    isDigit_of_mem_padZeros⟩

/-- A fraction has the places it is written with. -/
theorem length_fraction_ofPlaces (negative : Bool) {places : ℕ} (h : 0 < places) (digits : ℕ) :
    (ofPlaces negative places digits).fraction.length = places := by
  unfold ofPlaces
  dsimp only
  rw [length_padZeros h (Nat.mod_lt _ (Nat.pow_pos (by decide)))]

theorem fraction_ofPlaces_ne_nil (negative : Bool) {places : ℕ} (h : 0 < places) (digits : ℕ) :
    (ofPlaces negative places digits).fraction ≠ [] := by
  apply List.ne_nil_of_length_pos
  rwa [length_fraction_ofPlaces negative h]

theorem chars_ofPlaces (negative : Bool) {places : ℕ} (h : 0 < places) (digits : ℕ) :
    (ofPlaces negative places digits).chars =
      signChars negative ++ (pointText places digits).toList := by
  have hpoint : fractionChars (ofPlaces negative places digits).fraction =
      '.' :: (ofPlaces negative places digits).fraction := by
    obtain ⟨c, rest, hfraction⟩ :=
      List.exists_cons_of_ne_nil (fraction_ofPlaces_ne_nil negative h digits)
    rw [hfraction]
    rfl
  have htext : pointText places digits = toString (digits / 10 ^ places) ++ "." ++
      padZeros places (toString (digits % 10 ^ places)) := if_neg h.ne'
  unfold chars
  rw [hpoint, htext, String.toList_append, String.toList_append, toList_toString,
    ← List.append_assoc (signChars negative)]
  show _ ++ [] = _
  rw [List.append_nil]
  simp only [ofPlaces, List.append_assoc]
  rfl

theorem decimal_ofPlaces (negative : Bool) {places : ℕ} (h : 0 < places) (digits : ℕ) :
    (ofPlaces negative places digits).decimal = ⟨negative, digits, -places⟩ := by
  have hlength := length_fraction_ofPlaces negative h digits
  have hvalue : digitsValue (ofPlaces negative places digits).fraction = digits % 10 ^ places := by
    unfold ofPlaces
    dsimp only
    rw [digitsValue_padZeros]
  unfold decimal
  rw [digitsValue_append, digitsValue_toDigits, hlength, hvalue]
  show Decimal.mk negative (10 ^ places * (digits / 10 ^ places) + _) _ = _
  rw [Nat.div_add_mod]

/-- The digits of a decimal with the point behind the first, and an exponent. -/
def ofScientific (negative : Bool) (digits : ℕ) (exponent : ℤ) : Numeral :=
  ⟨negative, digitsValue ((Nat.toDigits 10 digits).take 1), (Nat.toDigits 10 digits).tail,
    some (decide (exponent < 0), exponent.natAbs),
    fun h => isDigit_of_mem_toDigits (List.mem_of_mem_tail h)⟩

theorem toDigits_digitsValue {c : Char} (h : c.isDigit = true) :
    Nat.toDigits 10 (digitsValue [c]) = [c] := by
  have hdigit : ∀ k < 10, k.digitChar = Char.ofNat (48 + k) := by decide
  obtain ⟨hlow, hhigh⟩ : 48 ≤ c.toNat ∧ c.toNat ≤ 57 := Char.isDigit_iff_toNat.1 h
  have hvalue : digitsValue [c] = c.toNat - 48 := Nat.zero_add _
  rw [hvalue, Nat.toDigits_of_lt_base (by omega), hdigit _ (by omega), Nat.add_sub_cancel' hlow,
    Char.ofNat_toNat]

theorem chars_ofScientific (negative : Bool) (digits : ℕ) (position : ℤ) :
    ∃ exponent, signChars negative ++ (DecimalStyle.exponentText digits position).toList =
      (ofScientific negative digits exponent).chars := by
  refine ⟨position + ((Nat.toDigits 10 digits).length - 1 : ℕ), ?_⟩
  have hdigit : ∀ c ∈ Nat.toDigits 10 digits, c.isDigit = true := fun c => isDigit_of_mem_toDigits
  have hlength : (toString digits).length = (Nat.toDigits 10 digits).length := by
    rw [← String.length_toList, toList_toString]
  obtain ⟨c, rest, hdigits⟩ : ∃ c rest, Nat.toDigits 10 digits = c :: rest :=
    List.exists_cons_of_ne_nil Nat.toDigits_ne_nil
  unfold DecimalStyle.exponentText chars ofScientific
  dsimp only
  rw [toList_toString, hlength, hdigits, List.take_succ_cons, List.take_zero, List.tail_cons,
    toDigits_digitsValue (hdigit c (by rw [hdigits]; exact List.mem_cons_self)),
    String.toList_append, String.toList_append, String.toList_append, toList_toString]
  generalize position + ((c :: rest).length - 1 : ℕ) = exponent
  have hsign : (if exponent < 0 then "-" else "+").toList =
      [if decide (exponent < 0) = true then '-' else '+'] := by
    by_cases hneg : exponent < 0 <;> simp [hneg]
  rw [hsign]
  cases rest <;> simp [fractionChars, exponentChars]

end Numeral

/-! ## Texts of numbers -/

theorem pointText_one_mul (n : ℕ) : pointText 1 (10 * n) = toString n ++ ".0" := by
  have hwhole : 10 * n / Nat.pow 10 1 = n := Nat.mul_div_cancel_left n (by decide)
  have hrest : 10 * n % Nat.pow 10 1 = 0 := Nat.mul_mod_right 10 n
  unfold pointText
  rw [if_neg one_ne_zero]
  dsimp only
  rw [hwhole, hrest, String.append_assoc]
  rfl

/-- Without an exponent a decimal is shown in places, with one place at least. -/
theorem exists_pointText {style : DecimalStyle} (hmark : style.wholeMark = ".0") (digits : ℕ)
    (position : ℤ) : ∃ places digits', 0 < places ∧
      style.positionalText digits position = pointText places digits' ∧
      (digits' : ℝ) * 10 ^ (-places : ℤ) = digits * 10 ^ position := by
  cases position with
  | ofNat zeros =>
    refine ⟨1, 10 * (digits * 10 ^ zeros), one_pos, ?_, ?_⟩
    · rw [pointText_one_mul, ← hmark]
      rfl
    · rw [Int.ofNat_eq_natCast, zpow_natCast, Nat.cast_one, zpow_neg_one]
      push_cast
      field_simp
  | negSucc places => exact ⟨places + 1, digits, Nat.succ_pos _, rfl, rfl⟩

theorem toList_sign (negative : Bool) :
    (if negative then "-" else "").toList = Numeral.signChars negative := by
  cases negative <;> rfl

theorem render_zero {style : DecimalStyle} (hmark : style.wholeMark = ".0") (f : BinaryFormat)
    (negative : Bool) (e : ℤ) : (style.render f (.finite negative 0 e)).toList =
      (Numeral.ofPlaces negative 1 0).chars := by
  unfold DecimalStyle.render
  dsimp only
  rw [if_pos rfl, hmark, Numeral.chars_ofPlaces negative one_pos, String.append_assoc,
    String.toList_append, toList_sign]
  rfl

/-- A finite number is shown by a numeral. -/
theorem exists_render {style : DecimalStyle} (hmark : style.wholeMark = ".0")
    (f : BinaryFormat) (negative : Bool) (m : ℕ) (e : ℤ) :
    ∃ n : Numeral, (style.render f (.finite negative m e)).toList = n.chars := by
  rcases m.eq_zero_or_pos with rfl | hm
  · exact ⟨_, render_zero hmark f negative e⟩
  unfold DecimalStyle.render
  dsimp only
  rw [if_neg hm.ne', String.toList_append, toList_sign]
  generalize (shortestDecimal f style.tie m e).1 = digits
  generalize (shortestDecimal f style.tie m e).2 = position
  split_ifs
  · obtain ⟨places, digits', hplaces, htext, -⟩ := exists_pointText hmark digits position
    rw [htext]
    exact ⟨_, (Numeral.chars_ofPlaces negative hplaces digits').symm⟩
  · obtain ⟨exponent, hchars⟩ := Numeral.chars_ofScientific negative digits position
    exact ⟨.ofScientific negative digits exponent, hchars⟩

/-- Without exponents, a finite number is shown by its shortest decimal. -/
theorem exists_render_positional {style : DecimalStyle} (hmark : style.wholeMark = ".0")
    (hstyle : style.positional = none) (f : BinaryFormat) (negative : Bool) (m : ℕ) (e : ℤ) :
    ∃ places digits, 0 < places ∧ (style.render f (.finite negative m e)).toList =
        (Numeral.ofPlaces negative places digits).chars ∧ (m = 0 → digits = 0) ∧
      (0 < m → (digits : ℝ) * 10 ^ (-places : ℤ) =
        (shortestDecimal f style.tie m e).1 * 10 ^ (shortestDecimal f style.tie m e).2) := by
  rcases m.eq_zero_or_pos with rfl | hm
  · exact ⟨1, 0, one_pos, render_zero hmark f negative e, fun _ => rfl,
      fun h => absurd h (lt_irrefl 0)⟩
  · obtain ⟨places, digits, hplaces, htext, hvalue⟩ := exists_pointText hmark
      (shortestDecimal f style.tie m e).1 (shortestDecimal f style.tie m e).2
    refine ⟨places, digits, hplaces, ?_, fun h => absurd h hm.ne', fun _ => hvalue⟩
    unfold DecimalStyle.render
    dsimp only
    rw [hstyle, if_neg hm.ne', if_pos rfl, htext, Numeral.chars_ofPlaces negative hplaces,
      String.toList_append, toList_sign]

end Toolpath.Number
