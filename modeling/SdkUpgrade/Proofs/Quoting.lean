import SdkUpgrade.Proofs.Names
import SdkUpgrade.Text.Quoted
import SdkUpgrade.Text.Setting

/-!
# Quoted texts are printable and show where they end

Whatever a text holds, its quoted form has printable characters only:
`isPrintable_of_mem_quoted`. So it stays on one line, and holds no escape character. What a
character is written as is looked at case by case in `isPrintable_of_mem_quotedChar`; only the
digits of numeric escapes need an induction.

A quoted text also shows what it quotes and where it ends, whatever is behind it:
`quoted_append_inj`. For a single character this is so because it can be read back,
`readQuotedChar?_quotedChar`; the closing quote is met only where the text ends, since inside the
quotes nothing that is written begins with one.
-/

namespace SdkUpgrade

namespace Text

open Source

/-- The characters of ASCII from the space to the tilde are printable. -/
theorem isPrintable_of_ascii {c : Char} (hlow : 32 ≤ c.toNat) (hhigh : c.toNat ≤ 126) :
    isPrintable c = true := by
  rw [isPrintable, printableRanges, Ranges.contains, if_neg (Nat.not_lt.2 hlow), if_pos hhigh]

theorem isPrintable_of_isDigit {c : Char} (h : c.isDigit = true) : isPrintable c = true := by
  have hrange := toNat_of_isDigit h
  exact isPrintable_of_ascii (by omega) (by omega)

/-- Hexadecimal digits are printable. -/
theorem isPrintable_of_mem_toDigits {n : Nat} {c : Char} (h : c ∈ Nat.toDigits 16 n) :
    isPrintable c = true := by
  have hdigits : ∀ digit < 16, isPrintable (Nat.digitChar digit) = true := by decide
  induction n using Nat.strongRecOn with
  | ind n ih =>
      rw [Nat.toDigits_eq_if (by decide)] at h
      split at h
      · rename_i hlt
        rw [List.mem_singleton.1 h]
        exact hdigits n hlt
      · rename_i hle
        rcases List.mem_append.1 h with hfirst | hlast
        · exact ih (n / 16) (Nat.div_lt_self (by omega) (by decide)) hfirst
        · rw [List.mem_singleton.1 hlast]
          exact hdigits (n % 16) (Nat.mod_lt n (by decide))

theorem isPrintable_of_mem_hexadecimal {width n : Nat} {c : Char} (h : c ∈ hexadecimal width n) :
    isPrintable c = true := by
  rcases List.mem_append.1 h with hzero | hdigit
  · rw [(List.mem_replicate.1 hzero).2]
    decide
  · exact isPrintable_of_mem_toDigits hdigit

theorem isPrintable_of_mem_numericEscape {c d : Char} (h : d ∈ numericEscape c) :
    isPrintable d = true := by
  have hmarks : ∀ mark ∈ ["\\x".toList, "\\u".toList, "\\U".toList],
      mark.all isPrintable = true := by decide
  have hescape : ∀ mark ∈ ["\\x".toList, "\\u".toList, "\\U".toList], ∀ width,
      d ∈ mark ++ hexadecimal width c.toNat → isPrintable d = true := by
    intro mark hmark width hmem
    rcases List.mem_append.1 hmem with hmem | hmem
    · exact List.all_eq_true.1 (hmarks mark hmark) d hmem
    · exact isPrintable_of_mem_hexadecimal hmem
  unfold numericEscape at h
  split at h
  · exact hescape _ (by simp) 2 h
  · split at h
    · exact hescape _ (by simp) 4 h
    · exact hescape _ (by simp) 8 h

/-- Inside printable quotes every character is written by printable ones. -/
theorem isPrintable_of_mem_quotedChar {quote c d : Char} (hquote : isPrintable quote = true)
    (h : d ∈ quotedChar quote c) : isPrintable d = true := by
  have hescapes : ∀ escape ∈ ["\\t".toList, "\\n".toList, "\\r".toList],
      escape.all isPrintable = true := by decide
  unfold quotedChar at h
  split at h
  · rename_i hc
    rcases List.mem_cons.1 h with rfl | h
    · decide
    · rw [List.mem_singleton.1 h]
      rcases hc with rfl | rfl
      · exact hquote
      · decide
  · split at h
    · exact List.all_eq_true.1 (hescapes _ (by simp)) d h
    · split at h
      · exact List.all_eq_true.1 (hescapes _ (by simp)) d h
      · split at h
        · exact List.all_eq_true.1 (hescapes _ (by simp)) d h
        · split at h
          · rename_i hprintable
            rw [List.mem_singleton.1 h]
            exact hprintable
          · exact isPrintable_of_mem_numericEscape h

/-- A quoted text consists of printable characters. -/
theorem isPrintable_of_mem_quoted {text : Text} {c : Char} (h : c ∈ quoted text) :
    isPrintable c = true := by
  have hquote : isPrintable (quoteFor text) = true := by
    unfold quoteFor
    split <;> decide
  rcases List.mem_append.1 h with h | h
  · rcases List.mem_append.1 h with h | h
    · rw [List.mem_singleton.1 h]
      exact hquote
    · obtain ⟨d, -, hd⟩ := List.mem_flatMap.1 h
      exact isPrintable_of_mem_quotedChar hquote hd
  · rw [List.mem_singleton.1 h]
    exact hquote

/-! ## Reading a quoted text -/

section Hexadecimal

theorem numberIn_append_singleton (base : Nat) (digits : Text) (c : Char) :
    numberIn base (digits ++ [c]) = base * numberIn base digits + numberIn base [c] := by
  simp [numberIn, List.foldl_append]

theorem numberIn_zeros_append (base zeros : Nat) (digits : Text) :
    numberIn base (List.replicate zeros '0' ++ digits) = numberIn base digits := by
  induction zeros with
  | zero => rfl
  | succ zeros ih =>
      rw [← ih]
      show List.foldl _ (base * 0 + 0) (List.replicate zeros '0' ++ digits) = _
      rw [Nat.mul_zero]
      rfl

theorem numberIn_toDigits (n : Nat) : numberIn 16 (Nat.toDigits 16 n) = n := by
  have hdigit : ∀ digit < 16, numberIn 16 [Nat.digitChar digit] = digit := by decide
  induction n using Nat.strongRecOn with
  | ind n ih =>
      rw [Nat.toDigits_eq_if (by decide)]
      split
      · rename_i hlt
        exact hdigit n hlt
      · rename_i hle
        rw [numberIn_append_singleton, ih (n / 16) (Nat.div_lt_self (by omega) (by decide)),
          hdigit (n % 16) (Nat.mod_lt n (by decide))]
        exact Nat.div_add_mod n 16

/-- A number is read back from its hexadecimal digits. -/
theorem numberIn_hexadecimal (width n : Nat) : numberIn 16 (hexadecimal width n) = n :=
  (numberIn_zeros_append 16 _ _).trans (numberIn_toDigits n)

/-- A number that is small enough has as many digits as it should have. -/
theorem length_hexadecimal {width n : Nat} (hwidth : 0 < width) (h : n < Nat.pow 16 width) :
    (hexadecimal width n).length = width := by
  have hlength : (Nat.toDigits 16 n).length ≤ width :=
    (Nat.length_toDigits_le_iff (by decide) hwidth).2 h
  rw [hexadecimal, List.length_append, List.length_replicate]
  omega

/-- The character whose code point has the given number of digits, and what is behind it. -/
def readCode (width : Nat) (text : Text) : Char × Text :=
  (Char.ofNat (numberIn 16 (text.take width)), text.drop width)

theorem readCode_hexadecimal {width : Nat} {c : Char} (hwidth : 0 < width)
    (h : c.toNat < Nat.pow 16 width) (rest : Text) :
    readCode width (hexadecimal width c.toNat ++ rest) = (c, rest) := by
  have hlength := length_hexadecimal hwidth h
  rw [readCode, List.take_left' hlength, List.drop_left' hlength, numberIn_hexadecimal,
    Char.ofNat_toNat]

end Hexadecimal

/-- The character that is written at the beginning of a text inside quotes, and what is behind
it. -/
def readQuotedChar? : Text → Option (Char × Text)
  | [] => none
  | '\\' :: 'x' :: text => some (readCode 2 text)
  | '\\' :: 'u' :: text => some (readCode 4 text)
  | '\\' :: 'U' :: text => some (readCode 8 text)
  | '\\' :: 't' :: text => some ('\t', text)
  | '\\' :: 'n' :: text => some ('\n', text)
  | '\\' :: 'r' :: text => some ('\r', text)
  | '\\' :: c :: text => some (c, text)
  | ['\\'] => none
  | c :: text => some (c, text)

theorem readQuotedChar?_numericEscape (c : Char) (rest : Text) :
    readQuotedChar? (numericEscape c ++ rest) = some (c, rest) := by
  unfold numericEscape
  split
  · rename_i hlt
    exact congrArg some (readCode_hexadecimal (by decide) hlt rest)
  · split
    · rename_i hlt
      exact congrArg some (readCode_hexadecimal (by decide) hlt rest)
    · have hlt : c.toNat < Nat.pow 16 8 := c.val.toNat_lt
      exact congrArg some (readCode_hexadecimal (by decide) hlt rest)

/-- Inside quotes a character can be read back, whatever is behind it. -/
theorem readQuotedChar?_quotedChar {quote : Char} (hquote : isQuote quote = true) (c : Char)
    (rest : Text) : readQuotedChar? (quotedChar quote c ++ rest) = some (c, rest) := by
  unfold quotedChar
  split
  · rename_i hc
    rcases hc with rfl | rfl
    · rcases isQuote_iff.1 hquote with rfl | rfl <;> rfl
    · rfl
  · rename_i hc
    rw [not_or] at hc
    split
    · rename_i htab
      rw [htab]
      rfl
    · split
      · rename_i hfeed
        rw [hfeed]
        rfl
      · split
        · rename_i hreturn
          rw [hreturn]
          rfl
        · split
          · rw [List.singleton_append, readQuotedChar?]
            all_goals simp [hc.2]
          · exact readQuotedChar?_numericEscape c rest

theorem quotedChar_append_inj {quote : Char} (hquote : isQuote quote = true) {c d : Char}
    {rest behind : Text} (h : quotedChar quote c ++ rest = quotedChar quote d ++ behind) :
    c = d ∧ rest = behind := by
  have hread := readQuotedChar?_quotedChar hquote c rest
  rw [h, readQuotedChar?_quotedChar hquote] at hread
  obtain ⟨hchar, hrest⟩ := Prod.mk.inj (Option.some.inj hread)
  exact ⟨hchar.symm, hrest.symm⟩

/-- Inside quotes nothing that is written begins with the quote. -/
theorem quotedChar_append_ne {quote : Char} (hquote : isQuote quote = true) (c : Char)
    (rest behind : Text) : quotedChar quote c ++ rest ≠ quote :: behind := by
  intro h
  have hread := readQuotedChar?_quotedChar hquote c rest
  rw [h] at hread
  rcases isQuote_iff.1 hquote with rfl | rfl
  all_goals
    obtain ⟨rfl, rfl⟩ := Prod.mk.inj (Option.some.inj hread)
    exact absurd (List.cons.inj h).1 (by decide)

/-- What is written inside quotes ends at the closing quote. -/
theorem flatMap_quotedChar_append_inj {quote : Char} (hquote : isQuote quote = true)
    {first second rest behind : Text}
    (h : first.flatMap (quotedChar quote) ++ quote :: rest =
      second.flatMap (quotedChar quote) ++ quote :: behind) : first = second ∧ rest = behind := by
  induction first generalizing second with
  | nil =>
      cases second with
      | nil => exact ⟨rfl, (List.cons.inj h).2⟩
      | cons d second =>
          rw [List.flatMap_cons, List.append_assoc] at h
          exact absurd h.symm (quotedChar_append_ne hquote d _ rest)
  | cons c first ih =>
      rw [List.flatMap_cons, List.append_assoc] at h
      cases second with
      | nil => exact absurd h (quotedChar_append_ne hquote c _ behind)
      | cons d second =>
          rw [List.flatMap_cons, List.append_assoc] at h
          obtain ⟨rfl, hrest⟩ := quotedChar_append_inj hquote h
          obtain ⟨rfl, hend⟩ := ih hrest
          exact ⟨rfl, hend⟩

theorem isQuote_quoteFor (text : Text) : isQuote (quoteFor text) = true := by
  unfold quoteFor
  split <;> decide

/-- A quoted text shows where it ends and what it quotes, whatever is behind it. -/
theorem quoted_append_inj {first second rest behind : Text}
    (h : quoted first ++ rest = quoted second ++ behind) : first = second ∧ rest = behind := by
  have hform : ∀ text behind, quoted text ++ behind =
      quoteFor text :: (text.flatMap (quotedChar (quoteFor text)) ++
        quoteFor text :: behind) := by
    intro text behind
    simp [quoted]
  rw [hform, hform] at h
  obtain ⟨hquote, hbody⟩ := List.cons.inj h
  rw [← hquote] at hbody
  exact flatMap_quotedChar_append_inj (isQuote_quoteFor first) hbody

end Text

end SdkUpgrade
