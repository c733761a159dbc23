import Toolpath.Toml.Reader
import Toolpath.Toml.Printer
import Toolpath.Proofs.NumeralTheorems
import Toolpath.Proofs.ShortestTheorems

/-!
# Printed TOML values

The text of a number is read as this number, be it infinite or none (`valueWithin?_real`), and so
is that of a whole number of 64 bits and of a plain name. Arrays of such values are read item by
item, so every value that is printed is read back (`isRead_of_isPrintable`).
-/

namespace Toolpath.Toml

open Number (Numeral)

/-- What stands behind a printed value. -/
def EndsValue (rest : List Char) : Prop := ∀ c ∈ rest.head?, c = ',' ∨ c = '\n'

variable {rest : List Char}

/-! ## Numbers -/

/-- Digits are read up to what is neither a digit nor a mark between digits. -/
theorem moreDigits?_append {digits : List Char} (hdigits : ∀ c ∈ digits, c.isDigit = true)
    (hrest : ∀ c ∈ rest.head?, c.isDigit = false ∧ c ≠ '_') :
    moreDigits? Char.isDigit (digits ++ rest) = some (digits, rest) := by
  induction digits with
  | nil =>
    cases rest with
    | nil => rfl
    | cons c rest =>
      obtain ⟨hc, hmark⟩ := hrest c rfl
      simp [moreDigits?, hc, hmark]
  | cons c digits ih =>
    obtain ⟨hc, hdigits⟩ := List.forall_mem_cons.1 hdigits
    have hmark : c ≠ '_' := by
      rintro rfl
      cases hc
    simp [moreDigits?, hc, hmark, ih hdigits]

theorem groupedDigits?_append {c : Char} {digits : List Char}
    (hdigits : ∀ d ∈ c :: digits, d.isDigit = true)
    (hrest : ∀ c ∈ rest.head?, c.isDigit = false ∧ c ≠ '_') :
    groupedDigits? Char.isDigit (c :: digits ++ rest) = some (c :: digits, rest) := by
  obtain ⟨hc, hdigits⟩ := List.forall_mem_cons.1 hdigits
  simp [groupedDigits?, hc, moreDigits?_append hdigits hrest]

/-- The digits of a whole number are read back; none begins with a needless zero. -/
theorem wholeDigits?_toDigits (n : ℕ) (hrest : ∀ c ∈ rest.head?, c.isDigit = false ∧ c ≠ '_') :
    wholeDigits? (Nat.toDigits 10 n ++ rest) = some (Nat.toDigits 10 n, rest) := by
  have hdigit : ∀ c ∈ Nat.toDigits 10 n, c.isDigit = true :=
    fun c => Number.isDigit_of_mem_toDigits
  rcases Number.toDigits_cases n with hzero | ⟨c, digits, hdigits, hc⟩
  · rw [hzero]
    rfl
  · rw [hdigits] at hdigit ⊢
    have hgrouped := groupedDigits?_append hdigit hrest
    rw [List.cons_append] at hgrouped ⊢
    simp [wholeDigits?, hc, hgrouped]

/-- The digits behind the point are read, and none where there is no point. -/
theorem fraction?_append {fraction : List Char} (hdigits : ∀ c ∈ fraction, c.isDigit = true)
    (hrest : EndsValue rest) :
    fraction? (Numeral.fractionChars fraction ++ rest) = some (fraction, rest) := by
  cases fraction with
  | nil =>
    show fraction? rest = some ([], rest)
    unfold fraction?
    split
    · rcases hrest '.' rfl with hcomma | hline
      · cases hcomma
      · cases hline
    · rfl
  | cons c digits =>
    refine groupedDigits?_append hdigits fun c hc => ?_
    rcases hrest c hc with rfl | rfl <;> decide

/-- Behind a printed value stands no exponent. -/
theorem exponent?_eq_none (hrest : EndsValue rest) : exponent? rest = some (none, rest) := by
  cases rest with
  | nil => rfl
  | cons c rest =>
    rcases hrest c rfl with rfl | rfl <;> rfl

/-- The value of a numeral without an exponent. -/
def numeralValue? (n : Numeral) : Option Toml :=
  if n.fraction.isEmpty then integer? (if n.negative then -n.whole else n.whole)
  else realValue? n.decimal

/-- Behind the whole number of a numeral stands the point or what stands behind a value. -/
theorem head_cases {n : Numeral} (hrest : EndsValue rest) {c : Char}
    (hc : c ∈ (Numeral.fractionChars n.fraction ++ rest).head?) : c = '.' ∨ c = ',' ∨ c = '\n' :=
  (Numeral.mem_head?_fraction hc).imp_right (hrest c)

/-- The sign of a numeral stands in front of its digits. -/
theorem spanSign_chars {n : Numeral} (hn : n.exponent = none) (rest : List Char) :
    Number.spanSign (n.chars ++ rest) = (n.negative,
      Nat.toDigits 10 n.whole ++ (Numeral.fractionChars n.fraction ++ rest)) := by
  rw [Numeral.chars_append hn]
  cases n.negative with
  | false => exact Number.spanSign_toDigits n.whole _
  | true => rfl

/-- A numeral without an exponent is read as its value. -/
theorem decimal?_chars {n : Numeral} (hn : n.exponent = none) (hrest : EndsValue rest) :
    decimal? (n.chars ++ rest) = (numeralValue? n).map fun value => (value, rest) := by
  have hend : ∀ c ∈ (Numeral.fractionChars n.fraction ++ rest).head?,
      c.isDigit = false ∧ c ≠ '_' := by
    intro c hc
    rcases head_cases hrest hc with rfl | rfl | rfl <;> decide
  have hwhole := wholeDigits?_toDigits n.whole hend
  have hfraction := fraction?_append (fun c => n.isDigit_of_mem) hrest
  have hexponent := exponent?_eq_none hrest
  obtain ⟨d, digits, hdigits, hd⟩ := Number.exists_toDigits n.whole
  have hvalue := Number.digitsValue_toDigits n.whole
  unfold decimal? numeralValue? Numeral.decimal
  rw [spanSign_chars hn rest]
  rw [hdigits] at hwhole hvalue ⊢
  dsimp only
  rw [List.cons_append] at hwhole ⊢
  split
  · rename_i heq
    obtain ⟨rfl, -⟩ := List.cons.inj heq
    cases hd
  · rename_i heq
    obtain ⟨rfl, -⟩ := List.cons.inj heq
    cases hd
  · rw [hwhole]
    simp only [Option.bind_eq_bind, Option.bind_some, hfraction, hexponent]
    by_cases hempty : n.fraction.isEmpty = true
    · simp [hempty, hvalue, Option.map_eq_bind]
    · simp [hempty, Option.map_eq_bind]

/-- A sign or a digit is none of the characters that are neither. -/
theorem not_mem_of_head {c : Char} (hc : c = '-' ∨ c.isDigit = true) {cs : List Char}
    (hcs : (cs.any fun d => d == '-' || d.isDigit) = false) : c ∉ cs := by
  intro hmem
  have hany : (cs.any fun d => d == '-' || d.isDigit) = true := by
    refine List.any_eq_true.2 ⟨c, hmem, ?_⟩
    rcases hc with rfl | hdigit
    · rfl
    · rw [hdigit, Bool.or_true]
  rw [hcs] at hany
  cases hany

/-- A numeral without an exponent is made of digits, a sign and a point. -/
theorem mem_chars {n : Numeral} (hn : n.exponent = none) {c : Char} (hc : c ∈ n.chars) :
    c.isDigit = true ∨ c = '-' ∨ c = '.' := by
  unfold Numeral.chars at hc
  rw [hn, List.mem_append, List.mem_append, List.mem_append] at hc
  rcases hc with ((hsign | hwhole) | hfraction) | hexponent
  · cases hnegative : n.negative with
    | false =>
      rw [hnegative] at hsign
      cases hsign
    | true =>
      rw [hnegative] at hsign
      exact .inr (.inl (List.mem_singleton.1 hsign))
  · exact .inl (Number.isDigit_of_mem_toDigits hwhole)
  · have hdigit := fun d => n.isDigit_of_mem (c := d)
    cases hdigits : n.fraction with
    | nil =>
      rw [hdigits] at hfraction
      cases hfraction
    | cons d digits =>
      rw [hdigits] at hfraction hdigit
      rcases List.mem_cons.1 hfraction with rfl | hmem
      · exact .inr (.inr rfl)
      · exact .inl (hdigit c hmem)
  · cases hexponent

/-- No numeral is in another base. -/
theorem number?_chars {n : Numeral} (hn : n.exponent = none) (hrest : EndsValue rest) :
    number? (n.chars ++ rest) = (numeralValue? n).map fun value => (value, rest) := by
  have hmark : ∀ c ∈ (n.chars ++ rest).tail.head?, c ∉ ['x', 'o', 'b'] := by
    intro c hc
    have hmem : c ∈ n.chars ∨ c ∈ rest.head? := by
      obtain ⟨d, cs, hchars, -⟩ := n.exists_chars
      rw [hchars] at hc ⊢
      cases cs with
      | nil => exact .inr hc
      | cons e cs =>
        cases hc
        exact .inl (List.mem_cons_of_mem _ List.mem_cons_self)
    rcases hmem with hmem | hmem
    · rcases mem_chars hn hmem with hdigit | rfl | rfl
      · exact not_mem_of_head (.inr hdigit) rfl
      · decide
      · decide
    · rcases hrest c hmem with rfl | rfl <;> decide
  rw [← decimal?_chars hn hrest]
  generalize n.chars ++ rest = cs at hmark
  unfold number?
  split
  · exact absurd (hmark _ rfl) (by decide)
  · exact absurd (hmark _ rfl) (by decide)
  · exact absurd (hmark _ rfl) (by decide)
  · rfl

/-! ## What no number is taken for -/

/-- A date begins with a digit. -/
theorem date?_eq_none_of_head {c : Char} (hc : c.isDigit = false) (cs : List Char) :
    date? (c :: cs) = none := by
  unfold date?
  split
  · rename_i heq
    obtain ⟨rfl, -⟩ := List.cons.inj heq
    simp [hc]
  · rfl

/-- A time of day begins with a digit. -/
theorem timeOfDay?_eq_none_of_head {c : Char} (hc : c.isDigit = false) (cs : List Char) :
    timeOfDay? (c :: cs) = none := by
  cases cs with
  | nil => rfl
  | cons d cs => simp [timeOfDay?, twoDigits?, hc]

theorem moment?_eq_none_of_head {c : Char} (hc : c.isDigit = false) (cs : List Char) :
    moment? (c :: cs) = none := by
  unfold moment?
  rw [date?_eq_none_of_head hc]
  exact timeOfDay?_eq_none_of_head hc cs

/-- Digits without a dash behind them are no date. -/
theorem date?_append {digits : List Char} (hdigits : ∀ c ∈ digits, c.isDigit = true)
    (hrest : ∀ c ∈ rest.head?, c.isDigit = false ∧ c ≠ '-' ∧ c ≠ ':') :
    date? (digits ++ rest) = none := by
  have hspan := Number.spanDigits_append hdigits fun c hc => (hrest c hc).1
  generalize digits ++ rest = cs at hspan
  unfold date?
  split
  · rename_i a b c d cs
    by_cases hall : [a, b, c, d].all Char.isDigit = true
    · have hspan' : Number.spanDigits ([a, b, c, d] ++ '-' :: cs) = ([a, b, c, d], '-' :: cs) :=
        Number.spanDigits_append (List.all_eq_true.1 hall) (by rintro _ ⟨⟩; decide)
      obtain ⟨-, rfl⟩ := Prod.mk.inj (hspan.symm.trans hspan')
      exact absurd rfl (hrest _ rfl).2.1
    · exact if_neg hall
  · rfl

/-- Two digits are read where there are two digits. -/
theorem exists_of_twoDigits? {lo hi : ℕ} {cs rest : List Char} {n : ℕ}
    (h : twoDigits? lo hi cs = some (n, rest)) :
    ∃ a b, cs = [a, b] ++ rest ∧ ∀ c ∈ [a, b], c.isDigit = true := by
  unfold twoDigits? at h
  split at h
  · dsimp only at h
    split_ifs at h with hdigit
    cases h
    exact ⟨_, _, rfl, by simp [hdigit]⟩
  · cases h

/-- Digits without a colon behind them are no time of day. -/
theorem timeOfDay?_append {digits : List Char} (hdigits : ∀ c ∈ digits, c.isDigit = true)
    (hrest : ∀ c ∈ rest.head?, c.isDigit = false ∧ c ≠ '-' ∧ c ≠ ':') :
    timeOfDay? (digits ++ rest) = none := by
  have hspan := Number.spanDigits_append hdigits fun c hc => (hrest c hc).1
  unfold timeOfDay?
  cases htwo : twoDigits? 0 23 (digits ++ rest) with
  | none => rfl
  | some found =>
    obtain ⟨n, cs⟩ := found
    obtain ⟨a, b, hcs, hab⟩ := exists_of_twoDigits? htwo
    simp only [Option.bind_eq_bind, Option.bind_some]
    split
    · rename_i cs
      have hspan' : Number.spanDigits ([a, b] ++ ':' :: cs) = ([a, b], ':' :: cs) :=
        Number.spanDigits_append hab (by rintro _ ⟨⟩; decide)
      rw [hcs] at hspan
      obtain ⟨-, rfl⟩ := Prod.mk.inj (hspan.symm.trans hspan')
      exact absurd rfl (hrest _ rfl).2.2
    · rfl

/-- Digits are no moment unless a minus sign or a colon is behind them. -/
theorem moment?_append {digits : List Char} (hdigits : ∀ c ∈ digits, c.isDigit = true)
    (hrest : ∀ c ∈ rest.head?, c.isDigit = false ∧ c ≠ '-' ∧ c ≠ ':') :
    moment? (digits ++ rest) = none := by
  unfold moment?
  rw [date?_append hdigits hrest]
  exact timeOfDay?_append hdigits hrest

/-- No numeral is taken for a moment. -/
theorem moment?_chars {n : Numeral} (hn : n.exponent = none) (hrest : EndsValue rest) :
    moment? (n.chars ++ rest) = none := by
  have hend : ∀ c ∈ (Numeral.fractionChars n.fraction ++ rest).head?,
      c.isDigit = false ∧ c ≠ '-' ∧ c ≠ ':' := by
    intro c hc
    rcases head_cases hrest hc with rfl | rfl | rfl <;> decide
  rw [Numeral.chars_append hn]
  cases n.negative with
  | false =>
    rw [Numeral.signChars, if_neg Bool.false_ne_true, List.nil_append]
    exact moment?_append (fun c => Number.isDigit_of_mem_toDigits) hend
  | true => exact moment?_eq_none_of_head rfl _

/-- A string begins with one of the two quotes. -/
theorem string?_eq_none_of_head {c : Char} (hquote : c ≠ '"') (hmark : c ≠ '\'')
    (cs : List Char) : string? (c :: cs) = none := by
  simp [string?, hquote, hmark]

/-- A value that does not begin like any other is a number. -/
theorem valueWithin?_eq_number? {c : Char} (hc : c ∉ ['[', '\x7b', 't', 'f', '"', '\''])
    {cs : List Char} (hmoment : moment? (c :: cs) = none) (fuel levels : ℕ) :
    valueWithin? (fuel + 1) levels (c :: cs) = number? (c :: cs) := by
  simp only [List.mem_cons, List.not_mem_nil, or_false, not_or] at hc
  obtain ⟨harray, htable, htrue, hfalse, hquote, hmark⟩ := hc
  have hstring := string?_eq_none_of_head hquote hmark cs
  simp [valueWithin?, harray, htable, htrue, hfalse, hstring, hmoment]

/-- A numeral is read as a value. -/
theorem valueWithin?_chars {n : Numeral} (hn : n.exponent = none) (hrest : EndsValue rest)
    (fuel levels : ℕ) : valueWithin? (fuel + 1) levels (n.chars ++ rest) =
      (numeralValue? n).map fun value => (value, rest) := by
  have hnumber := number?_chars hn hrest
  have hmoment := moment?_chars hn hrest
  obtain ⟨c, cs, hchars, hc⟩ := n.exists_chars
  rw [hchars, List.cons_append] at hnumber hmoment ⊢
  rw [valueWithin?_eq_number? (not_mem_of_head hc rfl) hmoment, hnumber]

/-! ## Values of each kind -/

variable (fuel levels : ℕ)

/-- A whole number of 64 bits is read back. -/
theorem valueWithin?_integer {i : ℤ} (hlow : Number.leastInt64 ≤ i)
    (hhigh : i ≤ Number.greatestInt64) (hrest : EndsValue rest) :
    valueWithin? (fuel + 1) levels (valueText (.integer i) ++ rest) = some (.integer i, rest) := by
  have hsign : (if decide (i < 0) = true then -(i.natAbs : ℤ) else i.natAbs) = i := by
    split_ifs with hneg
    · have hneg := of_decide_eq_true hneg
      omega
    · have hneg : ¬ i < 0 := fun h => hneg (decide_eq_true h)
      omega
  have hvalue : numeralValue? (Numeral.ofInt i) = some (.integer i) := by
    show integer? (if decide (i < 0) = true then -(i.natAbs : ℤ) else i.natAbs) = _
    rw [hsign]
    exact if_pos ⟨hlow, hhigh⟩
  show valueWithin? (fuel + 1) levels ((toString i).toList ++ rest) = _
  rw [Numeral.chars_ofInt, valueWithin?_chars rfl hrest, hvalue]
  rfl

/-- A finite number is not infinite. -/
theorem isInf_eq_false {x : Float} (h : (Number.doubleDatum x).isFinite = true) :
    x.isInf = false := by
  rw [Double.doubleDatum_eq] at h
  show (Double.parts x).isInf = false
  cases hx : Double.parts x with
  | infinity sign =>
    rw [hx] at h
    cases h
  | _ => rfl

/-- A numeral with the shortest digits of a number is read as this number. -/
theorem numeralValue?_ofPlaces {x : Float} {negative : Bool} {m places digits : ℕ} {e : ℤ}
    (hplaces : 0 < places) (hx : Number.doubleDatum x = .finite negative m e)
    (hzero : m = 0 → digits = 0)
    (hvalue : 0 < m → (digits : ℝ) * 10 ^ (-places : ℤ) =
      (Number.shortestDecimal .double realStyle.tie m e).1 *
        10 ^ (Number.shortestDecimal .double realStyle.tie m e).2) :
    numeralValue? (Numeral.ofPlaces negative places digits) = some (.real x) := by
  have hdouble : (Number.Decimal.mk negative digits (-places)).toDouble = x :=
    Number.Decimal.toDouble_of_shortest realStyle.tie hx hzero hvalue
  have hempty : (Numeral.ofPlaces negative places digits).fraction.isEmpty = false :=
    List.isEmpty_eq_false_iff.2 (Numeral.fraction_ofPlaces_ne_nil negative hplaces digits)
  unfold numeralValue? realValue?
  dsimp only
  rw [hempty, Numeral.decimal_ofPlaces negative hplaces, hdouble,
    isInf_eq_false (by rw [hx]; rfl)]
  simp

/-- Any number is read back, be it infinite or none. -/
theorem valueWithin?_real (x : Float) (hrest : EndsValue rest) :
    valueWithin? (fuel + 1) levels (valueText (.real x) ++ rest) = some (.real x, rest) := by
  have hback := Number.doubleOfDatum_doubleDatum x
  show valueWithin? (fuel + 1) levels
    ((realStyle.render .double (Number.doubleDatum x)).toList ++ rest) = _
  -- what is not finite is spelled as a word, all else in positional digits
  cases hx : Number.doubleDatum x with
  | nan =>
    rw [hx] at hback
    show valueWithin? (fuel + 1) levels ('n' :: 'a' :: 'n' :: rest) = _
    rw [valueWithin?_eq_number? (by decide) (moment?_eq_none_of_head rfl _), ← hback]
    rfl
  | infinite negative =>
    rw [hx] at hback
    cases negative with
    | false =>
      show valueWithin? (fuel + 1) levels ('i' :: 'n' :: 'f' :: rest) = _
      rw [valueWithin?_eq_number? (by decide) (moment?_eq_none_of_head rfl _), ← hback]
      rfl
    | true =>
      show valueWithin? (fuel + 1) levels ('-' :: 'i' :: 'n' :: 'f' :: rest) = _
      rw [valueWithin?_eq_number? (by decide) (moment?_eq_none_of_head rfl _), ← hback]
      rfl
  | finite negative m e =>
    have hmark : realStyle.wholeMark = ".0" := rfl
    obtain ⟨places, digits, hplaces, htext, hzero, hvalue⟩ :=
      Number.exists_render_positional hmark rfl .double negative m e
    have hreal := numeralValue?_ofPlaces hplaces hx hzero hvalue
    rw [htext, valueWithin?_chars rfl hrest, hreal]
    rfl

/-- A name that may stand for itself, as a key or between quotes. -/
structure IsPlainName (name : String) : Prop where
  ne_empty : name ≠ ""
  isKeyChar : ∀ c ∈ name.toList, isKeyChar c = true

instance (name : String) : Decidable (IsPlainName name) :=
  decidable_of_iff (name ≠ "" ∧ name.toList.all isKeyChar = true)
    ⟨fun h => ⟨h.1, List.all_eq_true.1 h.2⟩, fun h => ⟨h.ne_empty, List.all_eq_true.2 h.isKeyChar⟩⟩

/-- A character of a key may stand in a string, and means nothing special there. -/
theorem isTextChar_of_isKeyChar {c : Char} (h : isKeyChar c = true) :
    isTextChar c = true ∧ c ∉ ['"', '\\', '\'', ' ', '\t', '.'] := by
  have hmem : c ∉ ['"', '\\', '\'', ' ', '\t', '.'] := by
    intro hmem
    fin_cases hmem <;> cases h
  have hrange : 45 ≤ c.toNat ∧ c.toNat ≤ 122 := by
    unfold isKeyChar at h
    rw [Bool.or_eq_true, Bool.or_eq_true, beq_iff_eq, beq_iff_eq] at h
    rcases h with (hword | rfl) | rfl
    · have hword : (decide ('A'.val ≤ c.val ∧ c.val ≤ 'Z'.val) ||
          (decide ('a'.val ≤ c.val) && decide (c.val ≤ 'z'.val)) || c.isDigit) = true := hword
      simp only [Bool.or_eq_true, Bool.and_eq_true, decide_eq_true_eq, UInt32.le_iff_toNat_le,
        Char.isDigit_iff_toNat] at hword
      have hvalues : 'A'.val.toNat = 65 ∧ 'Z'.val.toNat = 90 ∧ 'a'.val.toNat = 97 ∧
        'z'.val.toNat = 122 ∧ '0'.toNat = 48 ∧ '9'.toNat = 57 := ⟨rfl, rfl, rfl, rfl, rfl, rfl⟩
      have hvalue : c.toNat = c.val.toNat := rfl
      omega
    · decide
    · decide
  have hchar : 32 ≤ c.toNat ∧ c.toNat ≠ 127 := by omega
  exact ⟨by simp [isTextChar, hchar], hmem⟩

/-- The text of a plain name is read up to the quote behind it. -/
theorem basicText?_append {text : List Char} (htext : ∀ c ∈ text, isKeyChar c = true)
    (rest : List Char) (hfuel : text.length < fuel) :
    basicText? fuel (text ++ '"' :: rest) = some (text, rest) := by
  induction text generalizing fuel with
  | nil =>
    obtain ⟨fuel, rfl⟩ : ∃ k, fuel = k + 1 := ⟨fuel - 1, by omega⟩
    rfl
  | cons c text ih =>
    obtain ⟨fuel, rfl⟩ : ∃ k, fuel = k + 1 := ⟨fuel - 1, by omega⟩
    obtain ⟨hc, htext⟩ := List.forall_mem_cons.1 htext
    obtain ⟨hchar, hmem⟩ := isTextChar_of_isKeyChar hc
    simp only [List.mem_cons, List.not_mem_nil, or_false, not_or] at hmem
    have hmore := ih fuel htext (Nat.lt_of_succ_lt_succ hfuel)
    simp [basicText?, hmem, hchar, hmore]

theorem IsPlainName.exists_cons {name : String} (h : IsPlainName name) :
    ∃ c cs, name.toList = c :: cs :=
  List.exists_cons_of_ne_nil (mt String.toList_eq_nil_iff.1 h.ne_empty)

/-- A string with one quote in front of it is read to the next one. -/
theorem string?_quote {c : Char} (hc : c ≠ '"') (cs : List Char) : string? ('"' :: c :: cs) =
    (basicText? ((c :: cs).length + 1) (c :: cs)).map
      fun (text, rest) => (String.ofList text, rest) := by
  simp [string?, hc]

/-- A plain name is read back. -/
theorem valueWithin?_string {text : String} (h : IsPlainName text) (rest : List Char) :
    valueWithin? (fuel + 1) levels (valueText (.string text) ++ rest) =
      some (.string text, rest) := by
  have hchars := h.isKeyChar
  have hback := String.ofList_toList (s := text)
  obtain ⟨c, cs, htext⟩ := h.exists_cons
  rw [htext] at hchars hback
  have hquote := (isTextChar_of_isKeyChar (hchars c List.mem_cons_self)).2
  simp only [List.mem_cons, List.not_mem_nil, or_false, not_or] at hquote
  have hread := basicText?_append ((c :: (cs ++ '"' :: rest)).length + 1) hchars rest
    (by rw [List.length_cons, List.length_cons, List.length_append]; omega)
  rw [List.cons_append] at hread
  have hstring : string? ('"' :: c :: (cs ++ '"' :: rest)) = some (text, rest) := by
    rw [string?_quote hquote.1, hread, ← hback]
    rfl
  have hvalue : valueText (.string text) ++ rest = '"' :: c :: (cs ++ '"' :: rest) := by
    simp [valueText, htext]
  rw [hvalue]
  simp [valueWithin?, hstring]

/-- A truth value is read back. -/
theorem valueWithin?_boolean (b : Bool) (rest : List Char) :
    valueWithin? (fuel + 1) levels (valueText (.boolean b) ++ rest) =
      some (.boolean b, rest) := by
  cases b <;> simp [valueText, valueWithin?]

/-! ## Arrays -/

mutual

/-- What is printed as a value: numbers of 64 bits, plain names and arrays of such values, nested
up to a count of levels. -/
def IsPrintable : Toml → ℕ → Prop
  | string text, _ => IsPlainName text
  | integer n, _ => Number.leastInt64 ≤ n ∧ n ≤ Number.greatestInt64
  | real _, _ => True
  | boolean _, _ => True
  | array items, levels => 0 < levels ∧ ArePrintable items (levels - 1)
  | _, _ => False

/-- Items that are all printed as values. -/
def ArePrintable : List Toml → ℕ → Prop
  | [], _ => True
  | item :: rest, levels => IsPrintable item levels ∧ ArePrintable rest levels

end

/-- Items that are made of printable values are printable. -/
theorem arePrintable_map {α : Type} {g : α → Toml} {levels : ℕ}
    (h : ∀ a, (g a).IsPrintable levels) (items : List α) :
    ArePrintable (items.map g) levels := by
  induction items with
  | nil => exact trivial
  | cons a items ih => exact ⟨h a, ih⟩

/-- A value that is read from its text. -/
structure IsRead (levels : ℕ) (v : Toml) : Prop where
  exists_cons : ∃ c cs, valueText v = c :: cs ∧ c ∉ [' ', '\t', '#', '\n', '\r', ']']
  read : ∀ fuel rest, (valueText v).length ≤ fuel → EndsValue rest →
    valueWithin? fuel levels (valueText v ++ rest) = some (v, rest)

/-- Blanks in front of a character are left out. -/
theorem skipBlanks_replicate (n : ℕ) {c : Char} (hc : isBlankChar c = false) (cs : List Char) :
    skipBlanks (List.replicate n ' ' ++ c :: cs) = c :: cs := by
  have hblank : ∀ d ∈ List.replicate n ' ', isBlankChar d = true := fun d hd => by
    rw [List.eq_of_mem_replicate hd]
    rfl
  unfold skipBlanks
  rw [List.dropWhile_append_of_pos hblank,
    List.dropWhile_cons_of_neg (by rw [hc]; exact Bool.false_ne_true)]

/-- The indent of an item is skipped. -/
theorem skipLines_replicate (n : ℕ) {c : Char} (hc : c ∉ [' ', '\t', '#', '\n', '\r'])
    (cs : List Char) :
    skipLines (fuel + 1) (List.replicate n ' ' ++ c :: cs) = some (c :: cs) := by
  simp only [List.mem_cons, List.not_mem_nil, or_false, not_or] at hc
  have hblanks := skipBlanks_replicate n (c := c) (by simp [isBlankChar, hc]) cs
  unfold skipLines
  rw [hblanks]
  simp [hc]

/-- A new line and its indent are left out. -/
theorem skipLines_newline (n : ℕ) {c : Char} (hc : c ∉ [' ', '\t', '#', '\n', '\r'])
    (cs : List Char) :
    skipLines (fuel + 2) ('\n' :: (List.replicate n ' ' ++ c :: cs)) = some (c :: cs) := by
  rw [← skipLines_replicate fuel n hc cs]
  rfl

/-- The indent of an item is left out. -/
theorem skipLines_itemLines {item : Toml} {c : Char} {cs : List Char}
    (hvalue : valueText item = c :: cs) (hc : c ∉ [' ', '\t', '#', '\n', '\r'])
    (items : List Toml) (rest : List Char) :
    skipLines (fuel + 2) ('\n' :: (itemLines (item :: items) ++ rest)) =
      some (c :: (cs ++ ',' :: '\n' :: (itemLines items ++ rest))) := by
  have hlines : itemLines (item :: items) ++ rest =
      List.replicate 4 ' ' ++ c :: (cs ++ ',' :: '\n' :: (itemLines items ++ rest)) := by
    simp [itemLines, hvalue]
  rw [hlines]
  exact skipLines_newline fuel 4 hc _

/-- The items of an array are read back line by line, if each of them is. -/
theorem itemsWithin?_itemLines {items : List Toml} (h : ∀ item ∈ items, IsRead levels item)
    (rest : List Char) (hfuel : (itemLines items).length < fuel) :
    itemsWithin? fuel levels ('\n' :: (itemLines items ++ ']' :: rest)) = some (items, rest) := by
  induction items generalizing fuel with
  | nil =>
    obtain ⟨fuel, rfl⟩ : ∃ k, fuel = k + 1 := ⟨fuel - 1, by omega⟩
    have hstart : skipLines (('\n' :: ']' :: rest).length + 1) ('\n' :: ']' :: rest) =
        some (']' :: rest) :=
      skipLines_newline _ 0 (by decide) rest
    show itemsWithin? (fuel + 1) levels ('\n' :: ']' :: rest) = _
    unfold itemsWithin?
    rw [hstart]
    rfl
  | cons item items ih =>
    obtain ⟨fuel, rfl⟩ : ∃ k, fuel = k + 1 := ⟨fuel - 1, by omega⟩
    obtain ⟨hitem, hitems⟩ := List.forall_mem_cons.1 h
    have hlength : (itemLines (item :: items)).length =
        (valueText item).length + (itemLines items).length + 6 := by
      simp [itemLines]
      omega
    have hmore := ih fuel hitems (by omega)
    have hread := hitem.read fuel (',' :: '\n' :: (itemLines items ++ ']' :: rest)) (by omega)
      (by rintro _ ⟨⟩; exact .inl rfl)
    have hcomma : skipLines ((',' :: '\n' :: (itemLines items ++ ']' :: rest)).length + 1)
        (',' :: '\n' :: (itemLines items ++ ']' :: rest)) =
          some (',' :: '\n' :: (itemLines items ++ ']' :: rest)) :=
      skipLines_replicate _ 0 (by decide) _
    -- an item never starts like the bracket that closes the array
    obtain ⟨c, cs, hvalue, hc⟩ := hitem.exists_cons
    rw [hvalue] at hread
    have hstart : skipLines (('\n' :: (itemLines (item :: items) ++ ']' :: rest)).length + 1)
        ('\n' :: (itemLines (item :: items) ++ ']' :: rest)) =
          some (c :: (cs ++ ',' :: '\n' :: (itemLines items ++ ']' :: rest))) :=
      skipLines_itemLines _ hvalue (fun hmem => hc (List.mem_append_left [']'] hmem)) items _
    rw [List.cons_append] at hread
    unfold itemsWithin?
    rw [hstart]
    simp only [Option.bind_eq_bind, Option.bind_some]
    split
    · rename_i heq
      obtain ⟨rfl, -⟩ := List.cons.inj heq
      exact absurd (by decide) hc
    · rw [hread]
      simp only [Option.bind_some]
      rw [hcomma]
      simp only [Option.bind_some]
      rw [hmore]
      rfl

variable {fuel levels}

/-- Fuel for the text is fuel for one step at least. -/
theorem IsRead.of_succ {v : Toml}
    (hcons : ∃ c cs, valueText v = c :: cs ∧ c ∉ [' ', '\t', '#', '\n', '\r', ']'])
    (hread : ∀ fuel rest, (valueText v).length ≤ fuel + 1 → EndsValue rest →
      valueWithin? (fuel + 1) levels (valueText v ++ rest) = some (v, rest)) :
    v.IsRead levels where
  exists_cons := hcons
  read := fun fuel rest hfuel hrest => by
    obtain ⟨c, cs, hvalue, -⟩ := hcons
    obtain ⟨fuel, rfl⟩ : ∃ k, fuel = k + 1 :=
      ⟨fuel - 1, by rw [hvalue, List.length_cons] at hfuel; omega⟩
    exact hread fuel rest hfuel hrest

/-- A numeral begins with a character that nothing skips. -/
theorem exists_chars_cons {n : Numeral} {cs : List Char} (h : cs = n.chars) :
    ∃ c rest, cs = c :: rest ∧ c ∉ [' ', '\t', '#', '\n', '\r', ']'] := by
  obtain ⟨c, rest, hchars, hc⟩ := n.exists_chars
  exact ⟨c, rest, h.trans hchars, not_mem_of_head hc rfl⟩

/-- The text of a real number begins with a character that nothing skips. -/
theorem exists_real_cons (x : Float) : ∃ c cs, valueText (.real x) = c :: cs ∧
    c ∉ [' ', '\t', '#', '\n', '\r', ']'] := by
  show ∃ c cs, (realStyle.render .double (Number.doubleDatum x)).toList = c :: cs ∧ _
  cases Number.doubleDatum x with
  | nan => exact ⟨_, _, rfl, by decide⟩
  | infinite negative => cases negative <;> exact ⟨_, _, rfl, by decide⟩
  | finite negative m e =>
    have hmark : realStyle.wholeMark = ".0" := rfl
    obtain ⟨n, hn⟩ := Number.exists_render hmark .double negative m e
    exact exists_chars_cons hn

/-- An array whose items are read back is read back, one level further down. -/
theorem isRead_array {items : List Toml} (hlevels : 0 < levels)
    (h : ∀ item ∈ items, item.IsRead (levels - 1)) : (array items).IsRead levels := by
  cases items with
  | nil =>
    refine .of_succ ⟨_, _, rfl, by decide⟩ fun fuel rest hfuel _ => ?_
    obtain ⟨fuel, rfl⟩ : ∃ k, fuel = k + 1 :=
      ⟨fuel - 1, (Nat.sub_add_cancel (Nat.le_of_succ_le_succ hfuel)).symm⟩
    have hclose : skipLines ((']' :: rest).length + 1) (']' :: rest) = some (']' :: rest) :=
      skipLines_replicate _ 0 (by decide) rest
    have hitems : itemsWithin? (fuel + 1) (levels - 1) (']' :: rest) = some ([], rest) := by
      unfold itemsWithin?
      rw [hclose]
      rfl
    simp [valueWithin?, valueText, hlevels.ne', hitems]
  | cons item items =>
    refine .of_succ ⟨_, _, rfl, by decide⟩ fun fuel rest hfuel _ => ?_
    have hlength : (itemLines (item :: items)).length < fuel := by
      simp only [valueText, List.cons_append, List.length_cons, List.length_append] at hfuel
      omega
    have hitems := itemsWithin?_itemLines fuel (levels - 1) h rest hlength
    simp [valueWithin?, valueText, hlevels.ne', hitems]

mutual

/-- What is printed as a value is read as this value. -/
theorem isRead_of_isPrintable (v : Toml) (levels : ℕ) (h : v.IsPrintable levels) :
    v.IsRead levels := by
  cases v with
  | string text =>
    exact .of_succ ⟨_, _, rfl, by decide⟩ fun fuel rest _ _ =>
      valueWithin?_string fuel levels h rest
  | integer n =>
    exact .of_succ (exists_chars_cons (Numeral.chars_ofInt n)) fun fuel rest _ hrest =>
      valueWithin?_integer fuel levels h.1 h.2 hrest
  | real x =>
    exact .of_succ (exists_real_cons x) fun fuel rest _ hrest =>
      valueWithin?_real fuel levels x hrest
  | boolean b =>
    refine .of_succ ?_ fun fuel rest _ _ => valueWithin?_boolean fuel levels b rest
    cases b <;> exact ⟨_, _, rfl, by decide⟩
  | moment => exact h.elim
  | array items => exact isRead_array h.1 (areRead_of_arePrintable items (levels - 1) h.2)
  | table members => exact h.elim
termination_by structural v

/-- Printable items are all read back. -/
theorem areRead_of_arePrintable (items : List Toml) (levels : ℕ) (h : ArePrintable items levels) :
    ∀ item ∈ items, item.IsRead levels := by
  cases items with
  | nil => exact List.forall_mem_nil _
  | cons item items =>
    exact List.forall_mem_cons.2
      ⟨isRead_of_isPrintable item levels h.1, areRead_of_arePrintable items levels h.2⟩
termination_by structural items

end

end Toolpath.Toml
