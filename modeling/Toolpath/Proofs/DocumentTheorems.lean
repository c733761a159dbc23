import Toolpath.Json.Printer
import Toolpath.Json.Reader
import Toolpath.Proofs.NumeralTheorems

/-!
# Printed documents are read back

A printed value is cut into the tokens it consists of (`lexes_pretty`), and these are read as the
value (`isRead_of_isSound`). So a document whose numbers are numerals is read back as it was
(`ofText?_toPrettyText`).
-/

namespace Toolpath.Json

open Number (Numeral)

/-! ## Numbers -/

/-- What may stand behind a number. -/
def EndsNumber (rest : List Char) : Prop :=
  ∀ c ∈ rest.head?, c.isDigit = false ∧ c ≠ '.' ∧ c ≠ 'e' ∧ c ≠ 'E'

variable {rest : List Char}

/-- The digits of a whole number are read back; none begins with a needless zero. -/
theorem wholeDigits?_toDigits (n : ℕ) (hrest : ∀ c ∈ rest.head?, c.isDigit = false) :
    wholeDigits? (Nat.toDigits 10 n ++ rest) = some (Nat.toDigits 10 n, rest) := by
  unfold wholeDigits?
  rw [Number.spanDigits_append (fun c => Number.isDigit_of_mem_toDigits) hrest]
  rcases Number.toDigits_cases n with hzero | ⟨c, digits, hdigits, hc⟩
  · rw [hzero]
    rfl
  · rw [hdigits]
    dsimp only
    split
    case h_1 heq => cases heq
    case h_2 heq =>
      cases heq
      exact absurd rfl hc
    case h_3 => rfl

/-- The point is read with the digits behind it, and nothing where there is no point. -/
theorem fractionPart?_append {fraction : List Char} (hdigits : ∀ c ∈ fraction, c.isDigit = true)
    (hrest : ∀ c ∈ rest.head?, c.isDigit = false ∧ c ≠ '.') :
    fractionPart? (Numeral.fractionChars fraction ++ rest) =
      some (Numeral.fractionChars fraction, rest) := by
  cases fraction with
  | nil =>
    show fractionPart? rest = some ([], rest)
    unfold fractionPart?
    split
    · exact absurd rfl (hrest '.' rfl).2
    · rfl
  | cons d digits =>
    have hspan : Number.spanDigits (d :: digits ++ rest) = (d :: digits, rest) :=
      Number.spanDigits_append hdigits fun c hc => (hrest c hc).1
    rw [List.cons_append] at hspan
    simp [fractionPart?, Numeral.fractionChars, hspan]

/-- The exponent is read with its sign, and nothing where there is none. -/
theorem exponentPart?_append (exponent : Option (Bool × ℕ)) (hrest : EndsNumber rest) :
    exponentPart? (Numeral.exponentChars exponent ++ rest) =
      some (Numeral.exponentChars exponent, rest) := by
  rcases exponent with _ | ⟨negative, size⟩
  · show exponentPart? rest = some ([], rest)
    cases rest with
    | nil => rfl
    | cons c rest =>
      obtain ⟨-, -, hmark, hmark'⟩ := hrest c rfl
      simp [exponentPart?, hmark, hmark']
  · have hspan : Number.spanDigits (Nat.toDigits 10 size ++ rest) = (Nat.toDigits 10 size, rest) :=
      Number.spanDigits_append (fun c => Number.isDigit_of_mem_toDigits) fun c hc => (hrest c hc).1
    cases negative <;>
      simp [exponentPart?, Numeral.exponentChars, hspan, Nat.toDigits_ne_nil]

/-- A numeral is read as a number, as it is. -/
theorem numberText?_chars (n : Numeral) (hrest : EndsNumber rest) :
    numberText? (n.chars ++ rest) = some (n.chars, rest) := by
  have hexponent : ∀ c ∈ (Numeral.exponentChars n.exponent ++ rest).head?,
      c.isDigit = false ∧ c ≠ '.' := by
    cases n.exponent with
    | none => exact fun c hc => ⟨(hrest c hc).1, (hrest c hc).2.1⟩
    | some exponent =>
      rintro c ⟨⟩
      decide
  have hfraction : ∀ c ∈ (Numeral.fractionChars n.fraction ++
      (Numeral.exponentChars n.exponent ++ rest)).head?, c.isDigit = false := by
    intro c hc
    rcases Numeral.mem_head?_fraction hc with rfl | hc
    · rfl
    · exact (hexponent c hc).1
  -- digits end where the point, the mark of the exponent or the rest begins
  have hwhole := wholeDigits?_toDigits n.whole hfraction
  have hpoint := fractionPart?_append (fun c => n.isDigit_of_mem) hexponent
  have hmark := exponentPart?_append n.exponent hrest
  obtain ⟨d, digits, hdigits, hd⟩ := Number.exists_toDigits n.whole
  have hminus : d ≠ '-' := by
    rintro rfl
    cases hd
  rw [hdigits] at hwhole
  rw [List.cons_append] at hwhole
  cases hnegative : n.negative with
  | false =>
    simp [numberText?, Numeral.chars, Numeral.signChars, hnegative, hdigits, hminus, hwhole,
      hpoint, hmark]
  | true => simp [numberText?, Numeral.chars, Numeral.signChars, hnegative, hdigits, hwhole, hpoint,
      hmark]

/-! ## Strings -/

/-- What a character in a string is read as: those without a short escape as a unit. -/
def unitOf (c : Char) : StringUnit :=
  if 32 ≤ c.toNat ∨ c.toNat ∈ [8, 9, 10, 12, 13] then .char c else .unit c.toNat

/-- A control character is read back from its two digits. -/
theorem hexNumber?_hexDigits : ∀ n < 32,
    hexNumber? ['0', '0', hexDigit (n / 16), hexDigit (n % 16)] = some n := by
  decide

/-- A character is read from its text. -/
theorem stringUnits?_escapedChar (c : Char) {units : List StringUnit} {cs : List Char}
    (h : stringUnits? rest = some (units, cs)) :
    stringUnits? (escapedChar c ++ rest) = some (unitOf c :: units, cs) := by
  have hback : ∀ {n}, c.toNat = n → c = Char.ofNat n := fun hn => by rw [← hn, Char.ofNat_toNat]
  unfold escapedChar
  split_ifs with hquote hslash hplain h8 h12 hline hreturn htab
  · subst hquote
    simp [stringUnits?, shortEscape?, h, unitOf]
  · subst hslash
    simp [stringUnits?, shortEscape?, h, unitOf]
  · simp [stringUnits?, h, unitOf, hslash, hplain]
  · rw [hback h8]
    simp [stringUnits?, shortEscape?, h, unitOf]
  · rw [hback h12]
    simp [stringUnits?, shortEscape?, h, unitOf]
  · subst hline
    simp [stringUnits?, shortEscape?, h, unitOf]
  · subst hreturn
    simp [stringUnits?, shortEscape?, h, unitOf]
  · subst htab
    simp [stringUnits?, shortEscape?, h, unitOf]
  -- the control characters with a short escape were all dealt with before
  · have hlong : unitOf c = .unit c.toNat := by
      refine if_neg (not_or.2 ⟨hplain, fun hmem => ?_⟩)
      simp only [List.mem_cons, List.not_mem_nil, or_false] at hmem
      rcases hmem with h8' | h9 | h10 | h12' | h13
      · exact h8 h8'
      · exact htab (hback h9)
      · exact hline (hback h10)
      · exact h12 h12'
      · exact hreturn (hback h13)
    have hnumber := hexNumber?_hexDigits c.toNat (not_le.1 hplain)
    simp [stringUnits?, hnumber, h, hlong]

/-- A text is read up to the quote behind it. -/
theorem stringUnits?_escaped (text rest : List Char) :
    stringUnits? (text.flatMap escapedChar ++ '"' :: rest) = some (text.map unitOf, rest) := by
  induction text with
  | nil => simp [stringUnits?]
  | cons c text ih =>
    rw [List.flatMap_cons, List.append_assoc, stringUnits?_escapedChar c ih, List.map_cons]

/-- A unit below 32 is no half of a pair. -/
theorem joinUnits?_unit {n : ℕ} (h : n < 32) (units : List StringUnit) :
    joinUnits? (.unit n :: units) = (joinUnits? units).map (Char.ofNat n :: ·) := by
  have hhigh : isHighHalf n = false := by
    simp [isHighHalf]
    omega
  have hlow : isLowHalf n = false := by
    simp [isLowHalf]
    omega
  cases units with
  | nil => simp [joinUnits?, hhigh, hlow]
  | cons u units =>
    cases u with
    | char c => simp [joinUnits?, hhigh, hlow]
    | unit m => simp [joinUnits?, hhigh, hlow]

/-- Characters are read back from their units one by one. -/
theorem joinUnits?_map_unitOf (text : List Char) : joinUnits? (text.map unitOf) = some text := by
  induction text with
  | nil => simp [joinUnits?]
  | cons c text ih =>
    rw [List.map_cons]
    by_cases hplain : 32 ≤ c.toNat ∨ c.toNat ∈ [8, 9, 10, 12, 13]
    · rw [show unitOf c = .char c from if_pos hplain, joinUnits?, ih]
      rfl
    · have hlt : c.toNat < 32 := not_le.1 (not_or.1 hplain).1
      rw [show unitOf c = .unit c.toNat from if_neg hplain, joinUnits?_unit hlt, ih,
        Char.ofNat_toNat]
      rfl

/-! ## Tokens -/

/-- The tokens of a text. -/
def Lexes (cs : List Char) (tokens : List Token) : Prop :=
  ∀ fuel, cs.length ≤ fuel → tokensWithin? fuel cs = some tokens

namespace Lexes

variable {tokens : List Token} {token : Token} {c : Char} {cs : List Char}

theorem nil : Lexes [] [] := fun fuel _ => by cases fuel <;> rfl

/-- A space between tokens is skipped. -/
theorem space (hc : isSpace c = true) (h : Lexes rest tokens) : Lexes (c :: rest) tokens := by
  intro fuel hfuel
  obtain _ | fuel := fuel
  · cases hfuel
  · rw [tokensWithin?, if_pos hc]
    exact h fuel (Nat.le_of_succ_le_succ hfuel)

/-- A token that is read off the front comes first. -/
theorem cons (htoken : token? (c :: cs) = some (token, rest)) (hc : isSpace c = false)
    (hle : rest.length ≤ cs.length) (h : Lexes rest tokens) :
    Lexes (c :: cs) (token :: tokens) := by
  intro fuel hfuel
  obtain _ | fuel := fuel
  · cases hfuel
  · have hrest := h fuel (hle.trans (Nat.le_of_succ_le_succ hfuel))
    rw [tokensWithin?, if_neg (by rw [hc]; exact Bool.false_ne_true), htoken]
    dsimp only
    rw [hrest]
    rfl

/-- A line break and the indent behind it are skipped. -/
theorem lineBreak (level : ℕ) (h : Lexes rest tokens) :
    Lexes (lineBreak level ++ rest) tokens := by
  apply space rfl
  induction 2 * level with
  | zero => exact h
  | succ n ih => exact space rfl ih

theorem openArray (h : Lexes rest tokens) : Lexes ('[' :: rest) (.openArray :: tokens) :=
  cons rfl rfl le_rfl h

theorem closeArray (h : Lexes rest tokens) : Lexes (']' :: rest) (.closeArray :: tokens) :=
  cons rfl rfl le_rfl h

theorem openObject (h : Lexes rest tokens) : Lexes ('\x7b' :: rest) (.openObject :: tokens) :=
  cons rfl rfl le_rfl h

theorem closeObject (h : Lexes rest tokens) : Lexes ('\x7d' :: rest) (.closeObject :: tokens) :=
  cons rfl rfl le_rfl h

theorem comma (h : Lexes rest tokens) : Lexes (',' :: rest) (.comma :: tokens) :=
  cons rfl rfl le_rfl h

theorem colon (h : Lexes rest tokens) : Lexes (':' :: rest) (.colon :: tokens) :=
  cons rfl rfl le_rfl h

/-- A quoted string is one token. -/
theorem quoted (text : String) (h : Lexes rest tokens) :
    Lexes (quoted text ++ rest) (.string (some text) :: tokens) := by
  have hunits := stringUnits?_escaped text.toList rest
  have hjoin := joinUnits?_map_unitOf text.toList
  show Lexes ('"' :: (text.toList.flatMap escapedChar ++ ['"'] ++ rest)) _
  rw [List.append_assoc, List.singleton_append]
  refine cons ?_ rfl ?_ h
  · show Option.map _ (stringUnits? _) = _
    rw [hunits, Option.map_some]
    dsimp only
    rw [hjoin, Option.map_some, String.ofList_toList]
  · rw [List.length_append, List.length_cons]
    omega

end Lexes

/-- A sign or a digit begins a number. -/
theorem token?_eq {c : Char} (hc : c = '-' ∨ c.isDigit = true) (cs : List Char) :
    token? (c :: cs) =
      (numberText? (c :: cs)).map fun (text, rest) => (.number (String.ofList text), rest) := by
  unfold token?
  split <;> first
    | rfl
    | rename_i heq
      cases heq
      exact absurd hc (by decide)

/-- A numeral is one token, up to what ends a number. -/
theorem Lexes.number (n : Numeral) {tokens : List Token} (hrest : EndsNumber rest)
    (h : Lexes rest tokens) :
    Lexes (n.chars ++ rest) (.number (String.ofList n.chars) :: tokens) := by
  have hnumber := numberText?_chars n hrest
  obtain ⟨c, cs, hchars, hc⟩ := n.exists_chars
  rw [hchars, List.cons_append] at hnumber ⊢
  refine cons ?_ ?_ ?_ h
  · rw [token?_eq hc, hnumber]
    rfl
  · rcases hc with rfl | hdigit
    · rfl
    · simp only [isSpace, Bool.or_eq_false_iff, beq_eq_false_iff_ne]
      refine ⟨⟨⟨?_, ?_⟩, ?_⟩, ?_⟩ <;> (rintro rfl; cases hdigit)
  · rw [List.length_append]
    omega

/-! ## Printed values -/

mutual

/-- The tokens of a value. -/
def tokensOf : Json → List Token
  | null => [.null]
  | boolean b => [.boolean b]
  | number text => [.number text]
  | string text => [.string (some text)]
  | malformed => [.null]
  | array [] => [.openArray, .closeArray]
  | array (item :: rest) => .openArray :: tokensOf item ++ itemTokens rest
  | object [] => [.openObject, .closeObject]
  | object (member :: rest) =>
    .openObject :: .string (some member.1) :: .colon :: tokensOf member.2 ++ memberTokens rest

/-- The tokens of the items after the first, with the closing bracket. -/
def itemTokens : List Json → List Token
  | [] => [.closeArray]
  | item :: rest => .comma :: tokensOf item ++ itemTokens rest

/-- The tokens of the members after the first, with the closing brace. -/
def memberTokens : List (String × Json) → List Token
  | [] => [.closeObject]
  | (name, value) :: rest =>
    .comma :: .string (some name) :: .colon :: tokensOf value ++ memberTokens rest

end

mutual

/-- A value whose numbers are numerals and whose strings all stand for something. -/
def IsSound : Json → Prop
  | number text => ∃ n : Numeral, text.toList = n.chars
  | malformed => False
  | array items => AreSound items
  | object members => AreSoundMembers members
  | _ => True

/-- Items that are all sound. -/
def AreSound : List Json → Prop
  | [] => True
  | item :: rest => IsSound item ∧ AreSound rest

/-- Members whose values are all sound. -/
def AreSoundMembers : List (String × Json) → Prop
  | [] => True
  | (_, value) :: rest => IsSound value ∧ AreSoundMembers rest

end

theorem areSound_map {α : Type} {g : α → Json} {items : List α}
    (h : ∀ a ∈ items, (g a).IsSound) : AreSound (items.map g) := by
  induction items with
  | nil => exact trivial
  | cons a items ih =>
    rw [List.forall_mem_cons] at h
    exact ⟨h.1, ih h.2⟩

/-- A number ends at a comma and at the end of its line. -/
theorem endsNumber_of_head {c : Char} {cs : List Char} (hc : c = ',' ∨ c = '\n') :
    EndsNumber (c :: cs) := by
  rintro _ ⟨⟩
  rcases hc with rfl | rfl <;> decide

/-- A number ends at whatever stands behind an item of an array. -/
theorem endsNumber_prettyItems (level : ℕ) (items : List Json) (rest : List Char) :
    EndsNumber (prettyItems level items ++ rest) := by
  cases items with
  | nil => exact endsNumber_of_head (.inr rfl)
  | cons item items => exact endsNumber_of_head (.inl rfl)

/-- A number ends at whatever stands behind a member of an object. -/
theorem endsNumber_prettyMembers (level : ℕ) (members : List (String × Json))
    (rest : List Char) : EndsNumber (prettyMembers level members ++ rest) := by
  cases members with
  | nil => exact endsNumber_of_head (.inr rfl)
  | cons member members => exact endsNumber_of_head (.inl rfl)

mutual

/-- The tokens of a printed value, which ends where a number may end. -/
theorem lexes_pretty (level : ℕ) (j : Json) (h : j.IsSound) {tokens : List Token}
    {rest : List Char} (hend : EndsNumber rest) (hrest : Lexes rest tokens) :
    Lexes (pretty level j ++ rest) (tokensOf j ++ tokens) := by
  -- containers are read member by member, one level further in
  cases j with
  | null => exact .cons rfl rfl (by simp; omega) hrest
  | boolean b => cases b <;> exact .cons rfl rfl (by simp; omega) hrest
  | number text =>
    obtain ⟨n, hn⟩ := h
    have hlexes := Lexes.number n hend hrest
    rwa [← hn, String.ofList_toList] at hlexes
  | string text => exact .quoted text hrest
  | malformed => exact h.elim
  | array items =>
    cases items with
    | nil => exact .openArray (.closeArray hrest)
    | cons item items =>
      obtain ⟨hitem, hitems⟩ := h
      have hlexes := lexes_pretty (level + 1) item hitem (endsNumber_prettyItems level items rest)
        (lexes_prettyItems level items hitems hrest)
      simpa [pretty, tokensOf] using Lexes.openArray (.lineBreak (level + 1) hlexes)
  | object members =>
    cases members with
    | nil => exact .openObject (.closeObject hrest)
    | cons member members =>
      obtain ⟨name, value⟩ := member
      obtain ⟨hvalue, hmembers⟩ := h
      have hlexes := lexes_pretty (level + 1) value hvalue
        (endsNumber_prettyMembers level members rest)
        (lexes_prettyMembers level members hmembers hrest)
      simpa [pretty, tokensOf] using Lexes.openObject (.lineBreak (level + 1)
        (.quoted name (.colon (.space rfl hlexes))))
termination_by structural j

/-- The tokens of the lines of more items. -/
theorem lexes_prettyItems (level : ℕ) (items : List Json) (h : AreSound items)
    {tokens : List Token} {rest : List Char} (hrest : Lexes rest tokens) :
    Lexes (prettyItems level items ++ rest) (itemTokens items ++ tokens) := by
  cases items with
  | nil => simpa [prettyItems, itemTokens] using Lexes.lineBreak level (.closeArray hrest)
  | cons item items =>
    obtain ⟨hitem, hitems⟩ := h
    have hlexes := lexes_pretty (level + 1) item hitem (endsNumber_prettyItems level items rest)
      (lexes_prettyItems level items hitems hrest)
    simpa [prettyItems, itemTokens] using Lexes.comma (.lineBreak (level + 1) hlexes)
termination_by structural items

/-- The tokens of the lines of more members. -/
theorem lexes_prettyMembers (level : ℕ) (members : List (String × Json))
    (h : AreSoundMembers members) {tokens : List Token} {rest : List Char}
    (hrest : Lexes rest tokens) :
    Lexes (prettyMembers level members ++ rest) (memberTokens members ++ tokens) := by
  cases members with
  | nil => simpa [prettyMembers, memberTokens] using Lexes.lineBreak level (.closeObject hrest)
  | cons member members =>
    obtain ⟨name, value⟩ := member
    obtain ⟨hvalue, hmembers⟩ := h
    have hlexes := lexes_pretty (level + 1) value hvalue
      (endsNumber_prettyMembers level members rest)
      (lexes_prettyMembers level members hmembers hrest)
    simpa [prettyMembers, memberTokens] using Lexes.comma (.lineBreak (level + 1)
      (.quoted name (.colon (.space rfl hlexes))))
termination_by structural members

end

/-! ## Values from their tokens -/

/-- A value that is read off the front of any tokens behind its own. -/
def IsRead (j : Json) : Prop := ∀ fuel (rest : List Token), (tokensOf j).length ≤ fuel →
  valueWithin? fuel (tokensOf j ++ rest) = some (j, rest)

/-- No value begins with a closing bracket. -/
theorem exists_tokensOf (j : Json) : ∃ token tokens, tokensOf j = token :: tokens ∧
    token ≠ .closeArray := by
  unfold tokensOf
  split <;> exact ⟨_, _, rfl, Token.noConfusion⟩

/-- The items of an array are read back from their tokens, if each of them is. -/
theorem itemsWithin?_tokens {item : Json} {items : List Json} (hitem : item.IsRead)
    (hitems : ∀ i ∈ items, i.IsRead) {fuel : ℕ} (rest : List Token)
    (hfuel : (tokensOf item ++ itemTokens items).length ≤ fuel) :
    itemsWithin? fuel (tokensOf item ++ itemTokens items ++ rest) = some (item :: items, rest) := by
  induction items generalizing item fuel with
  | nil =>
    simp only [itemTokens, List.length_append, List.length_singleton] at hfuel
    obtain ⟨fuel, rfl⟩ : ∃ k, fuel = k + 1 := ⟨fuel - 1, by omega⟩
    have hread := hitem fuel (.closeArray :: rest) (by omega)
    simp [itemsWithin?, itemTokens, hread]
  | cons next items ih =>
    simp only [itemTokens, List.length_append, List.length_cons] at hfuel
    obtain ⟨fuel, rfl⟩ : ∃ k, fuel = k + 1 := ⟨fuel - 1, by omega⟩
    obtain ⟨hnext, hitems⟩ := List.forall_mem_cons.1 hitems
    have hlength : (tokensOf next ++ itemTokens items).length ≤ fuel := by
      rw [List.length_append]
      omega
    have hmore := ih hnext hitems hlength
    have hread := hitem fuel
      (.comma :: (tokensOf next ++ itemTokens items ++ rest)) (by omega)
    simp only [List.append_assoc] at hmore hread
    simp [itemsWithin?, itemTokens, hread, hmore]

/-- The members of an object are read back from their tokens, if each value is. -/
theorem membersWithin?_tokens (name : String) {value : Json} {members : List (String × Json)}
    (hvalue : value.IsRead) (hmembers : ∀ member ∈ members, member.2.IsRead) {fuel : ℕ}
    (rest : List Token) (hfuel : (tokensOf value ++ memberTokens members).length ≤ fuel) :
    membersWithin? fuel (.string (some name) :: .colon :: tokensOf value ++ memberTokens members ++
        rest) =
      some (((name, value) :: members).map fun member => (some member.1, member.2), rest) := by
  induction members generalizing name value fuel with
  | nil =>
    simp only [memberTokens, List.length_append, List.length_singleton] at hfuel
    obtain ⟨fuel, rfl⟩ : ∃ k, fuel = k + 1 := ⟨fuel - 1, by omega⟩
    have hread := hvalue fuel (.closeObject :: rest) (by omega)
    simp [membersWithin?, memberTokens, hread]
  | cons next members ih =>
    -- a comma is followed by a name, so a member is read along with its successor's name
    obtain ⟨nextName, next⟩ := next
    simp only [memberTokens, List.length_append, List.length_cons] at hfuel
    obtain ⟨fuel, rfl⟩ : ∃ k, fuel = k + 1 := ⟨fuel - 1, by omega⟩
    obtain ⟨hnext, hmembers⟩ := List.forall_mem_cons.1 hmembers
    have hlength : (tokensOf next ++ memberTokens members).length ≤ fuel := by
      rw [List.length_append]
      omega
    have hmore := ih nextName hnext hmembers hlength
    have hread := hvalue fuel (.comma :: .string (some nextName) :: .colon ::
      (tokensOf next ++ memberTokens members ++ rest)) (by omega)
    simp only [List.cons_append, List.append_assoc] at hmore hread
    simp [membersWithin?, memberTokens, hread, hmore]

theorem ofMembers_map_some (members : List (String × Json)) :
    ofMembers (members.map fun member => (some member.1, member.2)) = .object members := by
  have hmap : ∀ named : Option String × Json → Option (String × Json),
      (∀ member : String × Json, named (some member.1, member.2) = some member) →
        (members.map fun member => (some member.1, member.2)).mapM named = some members := by
    intro named hnamed
    induction members with
    | nil => rfl
    | cons member members ih => simp [hnamed, ih]
  unfold ofMembers
  rw [hmap _ fun _ => rfl]

mutual

/-- A sound value is read back from its tokens. -/
theorem isRead_of_isSound (j : Json) (h : j.IsSound) : j.IsRead := by
  intro fuel rest hfuel
  have hpos : 0 < (tokensOf j).length := by
    obtain ⟨_, _, htokens, -⟩ := exists_tokensOf j
    rw [htokens]
    exact Nat.succ_pos _
  obtain ⟨fuel, rfl⟩ : ∃ k, fuel = k + 1 := ⟨fuel - 1, by omega⟩
  -- items and values are smaller, so the recursion reads them
  cases j with
  | malformed => exact h.elim
  | array items =>
    cases items with
    | nil => rfl
    | cons item items =>
      have hlength : (tokensOf item ++ itemTokens items).length ≤ fuel := by
        simpa [tokensOf] using hfuel
      have hitems := itemsWithin?_tokens (isRead_of_isSound item h.1)
        (areRead_of_areSound items h.2) rest hlength
      obtain ⟨token, tokens, htokens, htoken⟩ := exists_tokensOf item
      rw [htokens] at hitems
      simp only [List.cons_append, List.append_assoc] at hitems
      simp [tokensOf, htokens, valueWithin?, htoken, hitems]
  | object members =>
    cases members with
    | nil => rfl
    | cons member members =>
      obtain ⟨name, value⟩ := member
      have hlength : (tokensOf value ++ memberTokens members).length ≤ fuel := by
        simp only [tokensOf, List.cons_append, List.length_cons] at hfuel
        omega
      have hmembers := membersWithin?_tokens name (isRead_of_isSound value h.1)
        (areRead_of_areSoundMembers members h.2) rest hlength
      have hobject := ofMembers_map_some ((name, value) :: members)
      simp only [List.cons_append, List.append_assoc] at hmembers
      rw [List.map_cons] at hmembers hobject
      simp [tokensOf, valueWithin?, hmembers, hobject]
  | _ => rfl
termination_by structural j

/-- Sound items are all read back from their tokens. -/
theorem areRead_of_areSound (items : List Json) (h : AreSound items) : ∀ i ∈ items, i.IsRead := by
  cases items with
  | nil => exact List.forall_mem_nil _
  | cons item items =>
    exact List.forall_mem_cons.2 ⟨isRead_of_isSound item h.1, areRead_of_areSound items h.2⟩
termination_by structural items

/-- Sound members are all read back from their tokens. -/
theorem areRead_of_areSoundMembers (members : List (String × Json)) (h : AreSoundMembers members) :
    ∀ member ∈ members, member.2.IsRead := by
  cases members with
  | nil => exact List.forall_mem_nil _
  | cons member members =>
    exact List.forall_mem_cons.2
      ⟨isRead_of_isSound member.2 h.1, areRead_of_areSoundMembers members h.2⟩
termination_by structural members

end

/-- A printed document is read back. -/
theorem ofText?_toPrettyText {j : Json} (h : j.IsSound) : ofText? j.toPrettyText = some j := by
  have hlexes : Lexes (pretty 0 j ++ []) (tokensOf j ++ []) :=
    lexes_pretty 0 j h nofun .nil
  have htokens : tokens? (pretty 0 j) = some (tokensOf j) := by
    rw [List.append_nil, List.append_nil] at hlexes
    exact hlexes _ le_rfl
  have hread := isRead_of_isSound j h (2 * (tokensOf j).length + 1) [] (by omega)
  rw [List.append_nil] at hread
  show ofChars? (String.ofList (pretty 0 j)).toList = some j
  unfold ofChars?
  rw [String.toList_ofList, htokens]
  dsimp only
  rw [hread]

end Toolpath.Json
