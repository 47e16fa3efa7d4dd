import PatternGraph.Text.Quoted

/-!
# Quoted texts — one line each, and read back in one way

1. The hexadecimal digits of a number tell the number (`hexValue_hexDigits`), and no other
   character is among them.
2. `readChar` takes the first character off a text between quotes. It finds what was written
   (`readChar_quoteChar`), so two texts that are written the same are the same
   (`quote_append_inj`), whatever comes behind them.
3. A quoted text has no line break in it (`newline_notMem_quote`).
-/

namespace PatternGraph.Text

variable {c d : Char} {n : Nat} {r t u v : List Char}

/-! ## Hexadecimal digits -/

/-- The number that a hexadecimal digit in lower case stands for. -/
def digitValue (c : Char) : Nat :=
  if c.isDigit then c.toNat - '0'.toNat else c.toNat - 'a'.toNat + 10

/-- The number that has these hexadecimal digits. -/
def hexValue (digits : List Char) : Nat :=
  digits.foldl (fun n c => 16 * n + digitValue c) 0

theorem digitValue_digitChar (h : n < 16) : digitValue n.digitChar = n := by
  have hall : ∀ n < 16, digitValue (Nat.digitChar n) = n := by decide
  exact hall n h

/-- One more digit at the end. -/
theorem hexValue_concat (digits : List Char) (c : Char) :
    hexValue (digits ++ [c]) = 16 * hexValue digits + digitValue c := by
  simp [hexValue]

/-- The digits of a number have the number for their value. -/
theorem hexValue_hexDigits (n : Nat) : hexValue (hexDigits n) = n := by
  induction n using Nat.strongRecOn with
  | ind n ih =>
    unfold hexDigits at ih ⊢
    rw [Nat.toDigits_eq_if (by decide)]
    split
    · next hlt => simp [hexValue, digitValue_digitChar hlt]
    · have hless : n / 16 < n := by omega
      rw [hexValue_concat, ih (n / 16) hless, digitValue_digitChar (Nat.mod_lt n (by decide))]
      exact Nat.div_add_mod n 16

/-- Every digit stands for a number below sixteen. -/
theorem exists_digit_of_mem_hexDigits (h : c ∈ hexDigits n) : ∃ d < 16, c = Nat.digitChar d := by
  induction n using Nat.strongRecOn with
  | ind n ih =>
    unfold hexDigits at ih h
    rw [Nat.toDigits_eq_if (by decide)] at h
    split at h
    · next hlt => exact ⟨n, hlt, List.mem_singleton.1 h⟩
    · rcases List.mem_append.1 h with hc | hc
      · exact ih (n / 16) (by omega) hc
      · exact ⟨n % 16, Nat.mod_lt n (by decide), List.mem_singleton.1 hc⟩

/-- Neither a brace nor a line break is a digit. -/
theorem ne_of_mem_hexDigits (h : c ∈ hexDigits n) : c ≠ '\x7d' ∧ c ≠ '\n' := by
  have hall : ∀ d < 16, Nat.digitChar d ≠ '\x7d' ∧ Nat.digitChar d ≠ '\n' := by decide
  obtain ⟨d, hd, rfl⟩ := exists_digit_of_mem_hexDigits h
  exact hall d hd

/-! ## Reading a character back -/

/-- The first character that is written at the front of a text between quotes, and what is written
behind it; there is none at the closing quote. -/
def readChar : List Char → Option (Char × List Char)
  | [] => none
  | '"' :: _ => none
  | '\\' :: 't' :: rest => some ('\t', rest)
  | '\\' :: 'r' :: rest => some ('\r', rest)
  | '\\' :: 'n' :: rest => some ('\n', rest)
  | '\\' :: '0' :: rest => some ('\x00', rest)
  | '\\' :: 'u' :: '\x7b' :: rest =>
    some (Char.ofNat (hexValue (rest.takeWhile (· ≠ '\x7d'))),
      (rest.dropWhile (· ≠ '\x7d')).tail)
  | '\\' :: c :: rest => some (c, rest)
  | c :: rest => some (c, rest)

/-- Whatever character was written, it is read back, with what follows it. Six characters have an
escape of their own; of the others, those that cannot be shown are written in digits. -/
theorem readChar_quoteChar (c : Char) (rest : List Char) :
    readChar (quoteChar c ++ rest) = some (c, rest) := by
  unfold quoteChar
  split
  · rfl
  · rfl
  · rfl
  · rfl
  · rfl
  · rfl
  · next hquote hbackslash _ =>
    split
    · -- the digits end at the closing brace
      have hdigits : ∀ d ∈ hexDigits c.toNat, decide (d ≠ '\x7d') = true := by
        intro d hd
        exact decide_eq_true (ne_of_mem_hexDigits hd).1
      show some (Char.ofNat (hexValue
          ((hexDigits c.toNat ++ ['\x7d'] ++ rest).takeWhile (· ≠ '\x7d'))),
        ((hexDigits c.toNat ++ ['\x7d'] ++ rest).dropWhile (· ≠ '\x7d')).tail) = _
      rw [List.append_assoc, List.takeWhile_append_of_pos hdigits,
        List.dropWhile_append_of_pos hdigits]
      simp [hexValue_hexDigits]
    -- a character that stands for itself is no quote and no backslash
    · show readChar (c :: rest) = _
      unfold readChar
      split <;> simp_all

/-- So what is written tells the first character, and what comes behind it. -/
theorem quoteChar_append_inj (h : quoteChar c ++ r = quoteChar d ++ t) : c = d ∧ r = t := by
  have hread := readChar_quoteChar c r
  rw [h, readChar_quoteChar] at hread
  exact Prod.mk.inj (Option.some.inj hread.symm)

/-- No character is written as the closing quote. -/
theorem quoteChar_append_ne_quote (c : Char) (r t : List Char) :
    quoteChar c ++ r ≠ '"' :: t := by
  intro h
  have hread := readChar_quoteChar c r
  rw [h] at hread
  cases hread

/-! ## Reading a text back -/

/-- What stands between two quotes tells the text, and where the closing quote is. -/
theorem quoted_append_inj (h : u.flatMap quoteChar ++ '"' :: r = v.flatMap quoteChar ++ '"' :: t) :
    u = v ∧ r = t := by
  induction u generalizing v with
  | nil =>
    cases v with
    | nil => exact ⟨rfl, (List.cons.inj h).2⟩
    | cons d v =>
      rw [List.flatMap_cons, List.append_assoc] at h
      exact absurd h.symm (quoteChar_append_ne_quote d _ _)
  | cons c u ih =>
    cases v with
    | nil =>
      rw [List.flatMap_cons, List.append_assoc] at h
      exact absurd h (quoteChar_append_ne_quote c _ _)
    | cons d v =>
      rw [List.flatMap_cons, List.flatMap_cons, List.append_assoc, List.append_assoc] at h
      obtain ⟨rfl, hrest⟩ := quoteChar_append_inj h
      obtain ⟨rfl, hbehind⟩ := ih hrest
      exact ⟨rfl, hbehind⟩

theorem toList_quote (text : String) :
    (quote text).toList = '"' :: (text.toList.flatMap quoteChar ++ ['"']) := by
  simp [quote]

/-- A quoted text tells by itself where it ends, and which text was quoted. -/
theorem quote_append_inj {text text' : String}
    (h : (quote text).toList ++ r = (quote text').toList ++ t) : text = text' ∧ r = t := by
  simp only [toList_quote, List.cons_append, List.append_assoc] at h
  obtain ⟨hsame, hbehind⟩ := quoted_append_inj (List.cons.inj h).2
  exact ⟨String.toList_inj.1 hsame, hbehind⟩

/-! ## One line -/

/-- A character is written without a line break, a line break included. -/
theorem newline_notMem_quoteChar (c : Char) : '\n' ∉ quoteChar c := by
  unfold quoteChar
  split
  · decide
  · decide
  · decide
  · decide
  · decide
  · decide
  · -- the character is no escape: it is written by its number, or as it is and then is no line
    -- break
    next hnewline _ _ _ =>
    split
    · intro h
      simp only [List.mem_append, List.mem_cons, List.not_mem_nil, or_false] at h
      rcases h with (h | hdigit) | h
      · revert h
        decide
      · exact (ne_of_mem_hexDigits hdigit).2 rfl
      · revert h
        decide
    · intro h
      exact hnewline (List.mem_singleton.1 h).symm

/-- A quoted text is one line, whatever text was quoted. -/
theorem newline_notMem_quote (text : String) : '\n' ∉ (quote text).toList := by
  intro h
  simp only [toList_quote, List.mem_cons, List.mem_append, List.mem_flatMap, List.not_mem_nil,
    or_false] at h
  rcases h with h | ⟨c, -, hc⟩ | h
  · revert h
    decide
  · exact newline_notMem_quoteChar c hc
  · revert h
    decide

end PatternGraph.Text
