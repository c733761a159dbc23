import Toolpath.Proofs.LexemeTheorems

/-!
# Printed TOML documents

A document of plain paths and of values that are printed is read back line by line as the
statements it was printed from (`statements?_toText`).
-/

namespace Toolpath.Toml

variable {rest : List Char}

/-! ## Paths -/

/-- A path of plain names, not too many. -/
structure IsPlainPath (path : List String) : Prop where
  ne_nil : path ≠ []
  length_lt : path.length < depthLimit
  isPlainName : ∀ name ∈ path, IsPlainName name

/-- A plain name is read up to a character that is not of a key. -/
theorem key?_append {name : String} (h : IsPlainName name)
    (hrest : ∀ c ∈ rest.head?, isKeyChar c = false) :
    key? (name.toList ++ rest) = some (name, rest) := by
  have hchars := h.isKeyChar
  have hback : String.ofList name.toList = name := String.ofList_toList
  have hspan := Number.span_append hchars hrest
  obtain ⟨c, cs, hname⟩ := h.exists_cons
  rw [hname] at hchars hback hspan ⊢
  have hquote := (isTextChar_of_isKeyChar (hchars c List.mem_cons_self)).2
  simp only [List.mem_cons, List.not_mem_nil, or_false, not_or] at hquote
  unfold key?
  split
  · rename_i heq
    exact absurd (List.cons.inj heq).1 hquote.1
  · rename_i heq
    exact absurd (List.cons.inj heq).1 hquote.2.2.1
  · rw [hspan]
    show some (String.ofList (c :: cs), rest) = _
    rw [hback]

theorem pathText_singleton (name : String) : pathText [name] = name.toList := by
  simp [pathText]

theorem pathText_cons (name next : String) (path : List String) :
    pathText (name :: next :: path) = name.toList ++ '.' :: pathText (next :: path) := by
  simp [pathText]

/-- What may stand behind a path. -/
def EndsPath (rest : List Char) : Prop :=
  (∀ c ∈ rest.head?, isKeyChar c = false) ∧ ∀ c ∈ (skipBlanks rest).head?, c ≠ '.'

/-- No character of a key is a blank. -/
theorem isBlankChar_of_isKeyChar {c : Char} (h : isKeyChar c = true) : isBlankChar c = false := by
  have hmem := (isTextChar_of_isKeyChar h).2
  simp only [List.mem_cons, List.not_mem_nil, or_false, not_or] at hmem
  simp [isBlankChar, hmem]

/-- A path begins with a character of its first name. -/
theorem exists_pathText_cons {path : List String} (h : path ≠ [])
    (hplain : ∀ name ∈ path, IsPlainName name) :
    ∃ c cs, pathText path = c :: cs ∧ isKeyChar c = true := by
  obtain ⟨name, path, rfl⟩ := List.exists_cons_of_ne_nil h
  have hname := hplain name List.mem_cons_self
  obtain ⟨c, cs, hcs⟩ := hname.exists_cons
  have hc : isKeyChar c = true := hname.isKeyChar c (by rw [hcs]; exact List.mem_cons_self)
  cases path with
  | nil =>
    rw [pathText_singleton]
    exact ⟨c, cs, hcs, hc⟩
  | cons next path =>
    rw [pathText_cons, hcs]
    exact ⟨c, _, rfl, hc⟩

/-- A path is read name by name, as long as there is fuel for each name. -/
theorem pathWithin?_append {path : List String} (h : path ≠ [])
    (hplain : ∀ name ∈ path, IsPlainName name) (hrest : EndsPath rest) {fuel : ℕ}
    (hfuel : path.length ≤ fuel) :
    pathWithin? fuel (pathText path ++ rest) = some (path, skipBlanks rest) := by
  induction path generalizing fuel with
  | nil => exact absurd rfl h
  | cons name path ih =>
    obtain ⟨fuel, rfl⟩ : ∃ k, fuel = k + 1 :=
      ⟨fuel - 1, by rw [List.length_cons] at hfuel; omega⟩
    obtain ⟨c, cs, hcs, hc⟩ := exists_pathText_cons h hplain
    have hblanks :
        skipBlanks (pathText (name :: path) ++ rest) = pathText (name :: path) ++ rest := by
      rw [hcs]
      exact skipBlanks_replicate 0 (isBlankChar_of_isKeyChar hc) (cs ++ rest)
    obtain ⟨hname, hpath⟩ := List.forall_mem_cons.1 hplain
    unfold pathWithin?
    rw [hblanks]
    -- the last name of a path is followed by no point
    cases path with
    | nil =>
      rw [pathText_singleton, key?_append hname hrest.1]
      simp only [Option.bind_eq_bind, Option.bind_some]
      split
      · rename_i heq
        exact absurd rfl (hrest.2 '.' (by rw [heq]; rfl))
      · rfl
    | cons next path =>
      have hmore := ih (List.cons_ne_nil next path) hpath (Nat.le_of_succ_le_succ hfuel)
      have hkey : key? (name.toList ++ '.' :: (pathText (next :: path) ++ rest)) =
          some (name, '.' :: (pathText (next :: path) ++ rest)) :=
        key?_append hname (by rintro _ ⟨⟩; decide)
      have hpoint : skipBlanks ('.' :: (pathText (next :: path) ++ rest)) =
          '.' :: (pathText (next :: path) ++ rest) :=
        skipBlanks_replicate 0 rfl _
      rw [pathText_cons, List.append_assoc, List.cons_append, hkey]
      simp only [Option.bind_eq_bind, Option.bind_some]
      rw [hpoint]
      show (pathWithin? fuel (pathText (next :: path) ++ rest)).bind _ = _
      rw [hmore]
      rfl

/-- A path is read back, and the blanks behind it are skipped. -/
theorem path?_append {path : List String} (h : IsPlainPath path) (hrest : EndsPath rest) :
    path? (pathText path ++ rest) = some (path, skipBlanks rest) :=
  pathWithin?_append h.ne_nil h.isPlainName hrest (Nat.le_sub_one_of_lt h.length_lt)

/-! ## Statements -/

/-- A statement that is printed. -/
def Statement.IsPrintable : Statement → Prop
  | .heading path => IsPlainPath path
  | .arrayHeading path => IsPlainPath path
  | .entry path value => IsPlainPath path ∧ value.IsPrintable (depthLimit - 1)

theorem lineEnd?_newline (rest : List Char) : lineEnd? ('\n' :: rest) = some rest := rfl

/-- A path ends at the bracket of a heading. -/
theorem endsPath_bracket (rest : List Char) : EndsPath (']' :: rest) :=
  ⟨by rintro _ ⟨⟩; decide, by rintro _ ⟨⟩; decide⟩

/-- A path ends at the sign of an entry. -/
theorem endsPath_equals (rest : List Char) : EndsPath (' ' :: '=' :: rest) :=
  ⟨by rintro _ ⟨⟩; decide, by rintro _ ⟨⟩; decide⟩

/-- The heading of a table is read back. -/
theorem headingLine?_heading {path : List String} (h : IsPlainPath path) (rest : List Char) :
    headingLine? (statementText (.heading path) ++ rest) = some (.heading path, rest) := by
  have hpath := path?_append h (endsPath_bracket ('\n' :: rest))
  have hbracket : skipBlanks (']' :: '\n' :: rest) = ']' :: '\n' :: rest :=
    skipBlanks_replicate 0 rfl _
  obtain ⟨c, cs, hcs, hc⟩ := exists_pathText_cons h.ne_nil h.isPlainName
  have hopen : c ≠ '[' := by
    rintro rfl
    cases hc
  rw [hbracket, hcs] at hpath
  have htext : statementText (.heading path) ++ rest = '[' :: c :: (cs ++ ']' :: '\n' :: rest) := by
    simp [statementText, hcs]
  rw [htext]
  rw [List.cons_append] at hpath
  simp [headingLine?, hopen, hpath, lineEnd?_newline]

/-- The heading of an array of tables is read back. -/
theorem headingLine?_arrayHeading {path : List String} (h : IsPlainPath path) (rest : List Char) :
    headingLine? (statementText (.arrayHeading path) ++ rest) =
      some (.arrayHeading path, rest) := by
  have hpath := path?_append h (endsPath_bracket (']' :: '\n' :: rest))
  have hbracket : skipBlanks (']' :: ']' :: '\n' :: rest) = ']' :: ']' :: '\n' :: rest :=
    skipBlanks_replicate 0 rfl _
  rw [hbracket] at hpath
  have htext : statementText (.arrayHeading path) ++ rest =
      '[' :: '[' :: (pathText path ++ ']' :: ']' :: '\n' :: rest) := by
    simp [statementText]
  rw [htext]
  simp [headingLine?, hpath, lineEnd?_newline]

/-- The value of an entry is read behind a blank. -/
theorem value?_append {v : Toml} (h : v.IsPrintable (depthLimit - 1)) (hrest : EndsValue rest) :
    value? (skipBlanks (' ' :: (valueText v ++ rest))) = some (v, rest) := by
  obtain ⟨⟨c, cs, hcs, hc⟩, hread⟩ := isRead_of_isPrintable v (depthLimit - 1) h
  have hblank : isBlankChar c = false := by
    simp only [List.mem_cons, List.not_mem_nil, or_false, not_or] at hc
    simp [isBlankChar, hc]
  have hskip : skipBlanks (' ' :: (valueText v ++ rest)) = valueText v ++ rest := by
    rw [hcs]
    exact skipBlanks_replicate 1 hblank (cs ++ rest)
  rw [hskip]
  exact hread _ rest (by rw [List.length_append]; omega) hrest

/-- An entry is read back. -/
theorem entryLine?_entry {path : List String} {value : Toml} (hpath : IsPlainPath path)
    (hvalue : value.IsPrintable (depthLimit - 1)) (rest : List Char) :
    entryLine? (statementText (.entry path value) ++ rest) = some (.entry path value, rest) := by
  have hpath := path?_append hpath (endsPath_equals (' ' :: (valueText value ++ '\n' :: rest)))
  have hequals : skipBlanks (' ' :: '=' :: ' ' :: (valueText value ++ '\n' :: rest)) =
      '=' :: ' ' :: (valueText value ++ '\n' :: rest) :=
    skipBlanks_replicate 1 rfl _
  have hread : value? (skipBlanks (' ' :: (valueText value ++ '\n' :: rest))) =
      some (value, '\n' :: rest) :=
    value?_append hvalue (by rintro _ ⟨⟩; exact .inr rfl)
  rw [hequals] at hpath
  have htext : statementText (.entry path value) ++ rest =
      pathText path ++ ' ' :: '=' :: ' ' :: (valueText value ++ '\n' :: rest) := by
    simp [statementText]
  rw [htext]
  simp [entryLine?, hpath, hread, lineEnd?_newline]

/-! ## Documents -/

/-- A line that opens with a bracket is a heading. -/
theorem statementsWithin?_bracket (fuel : ℕ) (cs : List Char) :
    statementsWithin? (fuel + 1) ('[' :: cs) = (headingLine? ('[' :: cs)).bind fun (s, rest) =>
      (statementsWithin? fuel rest).map (s :: ·) := by
  have hskip : skipBlanks ('[' :: cs) = '[' :: cs := skipBlanks_replicate 0 rfl cs
  rw [statementsWithin?, hskip]
  simp [Option.map_eq_bind]

/-- A line that opens with a character of a key is an entry. -/
theorem statementsWithin?_cons {c : Char} (hc : isKeyChar c = true) (fuel : ℕ) (cs : List Char) :
    statementsWithin? (fuel + 1) (c :: cs) = (entryLine? (c :: cs)).bind fun (s, rest) =>
      (statementsWithin? fuel rest).map (s :: ·) := by
  have hskip : skipBlanks (c :: cs) = c :: cs :=
    skipBlanks_replicate 0 (isBlankChar_of_isKeyChar hc) cs
  have hstart : c ∉ ['#', '\n', '\r', '['] := by
    intro hmem
    fin_cases hmem <;> cases hc
  simp only [List.mem_cons, List.not_mem_nil, or_false, not_or] at hstart
  rw [statementsWithin?, hskip]
  simp [hstart, Option.map_eq_bind]

/-- The first statement is read off the front of a text. -/
theorem statementsWithin?_append {s : Statement} (h : s.IsPrintable) (fuel : ℕ)
    (rest : List Char) : statementsWithin? (fuel + 1) (statementText s ++ rest) =
      (statementsWithin? fuel rest).map (s :: ·) := by
  cases s with
  | heading path =>
    have hline := headingLine?_heading h rest
    obtain ⟨cs, hcs⟩ : ∃ cs, statementText (.heading path) ++ rest = '[' :: cs := ⟨_, rfl⟩
    rw [hcs] at hline ⊢
    rw [statementsWithin?_bracket, hline]
    rfl
  | arrayHeading path =>
    have hline := headingLine?_arrayHeading h rest
    obtain ⟨cs, hcs⟩ : ∃ cs, statementText (.arrayHeading path) ++ rest = '[' :: cs := ⟨_, rfl⟩
    rw [hcs] at hline ⊢
    rw [statementsWithin?_bracket, hline]
    rfl
  | entry path value =>
    obtain ⟨hpath, hvalue⟩ := h
    have hline := entryLine?_entry hpath hvalue rest
    obtain ⟨c, cs, hcs, hc⟩ : ∃ c cs, statementText (.entry path value) ++ rest = c :: cs ∧
        isKeyChar c = true := by
      obtain ⟨c, cs, hcs, hc⟩ := exists_pathText_cons hpath.ne_nil hpath.isPlainName
      rw [statementText, hcs]
      exact ⟨c, _, rfl, hc⟩
    rw [hcs] at hline ⊢
    rw [statementsWithin?_cons hc, hline]
    rfl

/-- The text of a statement is not empty, and opens with no mark of its encoding. -/
theorem exists_statementText_cons {s : Statement} (h : s.IsPrintable) :
    ∃ c cs, statementText s = c :: cs ∧ c ≠ '\ufeff' := by
  cases s with
  | heading path => exact ⟨_, _, rfl, by decide⟩
  | arrayHeading path => exact ⟨_, _, rfl, by decide⟩
  | entry path value =>
    obtain ⟨c, cs, hcs, hc⟩ := exists_pathText_cons h.1.ne_nil h.1.isPlainName
    rw [statementText, hcs]
    refine ⟨c, _, rfl, ?_⟩
    rintro rfl
    cases hc

/-- A blank line in front of a heading is left out. -/
theorem statementsWithin?_newline (fuel : ℕ) (cs : List Char) :
    statementsWithin? (fuel + 1) ('\n' :: cs) = statementsWithin? fuel cs := rfl

/-- The statements behind the first are read one after another. -/
theorem statementsWithin?_more {statements : List Statement}
    (h : ∀ s ∈ statements, s.IsPrintable) {fuel : ℕ}
    (hfuel : (moreStatementsText statements).length < fuel) :
    statementsWithin? fuel (moreStatementsText statements) = some statements := by
  induction statements generalizing fuel with
  | nil =>
    obtain ⟨fuel, rfl⟩ : ∃ k, fuel = k + 1 := ⟨fuel - 1, by omega⟩
    rfl
  | cons s statements ih =>
    obtain ⟨hs, hmore⟩ := List.forall_mem_cons.1 h
    have hpos : 0 < (statementText s).length := by
      obtain ⟨c, cs, hcs, -⟩ := exists_statementText_cons hs
      rw [hcs]
      exact Nat.succ_pos _
    -- an entry stands on the next line, a heading behind a blank one
    obtain ⟨lines, hlines, htext⟩ : ∃ lines ≤ 1, moreStatementsText (s :: statements) =
        List.replicate lines '\n' ++ (statementText s ++ moreStatementsText statements) := by
      cases s with
      | entry path value => exact ⟨0, by decide, rfl⟩
      | heading path => exact ⟨1, by decide, rfl⟩
      | arrayHeading path => exact ⟨1, by decide, rfl⟩
    rw [htext] at hfuel ⊢
    rw [List.length_append, List.length_append, List.length_replicate] at hfuel
    obtain ⟨fuel, rfl⟩ : ∃ k, fuel = k + 1 + lines := ⟨fuel - 1 - lines, by omega⟩
    have hskip : statementsWithin? (fuel + 1 + lines) (List.replicate lines '\n' ++
        (statementText s ++ moreStatementsText statements)) =
          statementsWithin? (fuel + 1) (statementText s ++ moreStatementsText statements) := by
      obtain rfl | rfl : lines = 0 ∨ lines = 1 := by omega
      · rfl
      · exact statementsWithin?_newline (fuel + 1) _
    rw [hskip, statementsWithin?_append hs, ih hmore (by omega)]
    rfl

/-- A printed document is read back. -/
theorem statements?_toText {statements : List Statement} (h : ∀ s ∈ statements, s.IsPrintable) :
    statements? (toText statements).toList = some statements := by
  cases statements with
  | nil => rfl
  | cons s statements =>
    obtain ⟨hs, hmore⟩ := List.forall_mem_cons.1 h
    have hread := statementsWithin?_append hs
      (statementText s ++ moreStatementsText statements).length (moreStatementsText statements)
    obtain ⟨c, cs, hcs, hc⟩ := exists_statementText_cons hs
    have hfuel : (moreStatementsText statements).length <
        (statementText s ++ moreStatementsText statements).length := by
      rw [hcs, List.cons_append, List.length_cons, List.length_append]
      omega
    rw [statementsWithin?_more hmore hfuel] at hread
    show statements? (String.ofList (statementText s ++ moreStatementsText statements)).toList = _
    rw [String.toList_ofList]
    rw [hcs, List.cons_append] at hread ⊢
    unfold statements?
    split
    · rename_i heq
      exact absurd (List.cons.inj heq).1 hc
    · exact hread

end Toolpath.Toml
