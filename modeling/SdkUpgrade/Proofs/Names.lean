import SdkUpgrade.Source.Call
import SdkUpgrade.Source.Key

/-!
# Names and what stands around them

The classes of characters exclude each other: whitespace and quotes are no word characters. A
dotted name is therefore fixed by its two ends, and `dottedName?_eq_some_iff` says so without
mentioning how it is read. `AllNames` speaks of all names that begin in a stretch of text, each
with what follows it, and is decomposed along the stretch.
-/

namespace SdkUpgrade

open Text Source

/-! ## Classes of characters -/

/-- A member of a list of ranges lies in one of them. -/
theorem Text.Ranges.exists_of_contains {ranges : List (Nat × Nat)} {n : Nat}
    (h : contains ranges n = true) : ∃ range ∈ ranges, range.1 ≤ n ∧ n ≤ range.2 := by
  induction ranges with
  | nil => simp [contains] at h
  | cons range ranges ih =>
      simp only [contains] at h
      split at h
      · simp at h
      · split at h
        · exact ⟨range, List.mem_cons_self, by omega, by omega⟩
        · obtain ⟨other, hmem, hn⟩ := ih h
          exact ⟨other, List.mem_cons_of_mem _ hmem, hn⟩

/-- No code point of whitespace is one of a letter, a number or the underscore. -/
theorem blankRanges_disjoint : ∀ range ∈ blankRanges, ∀ k ∈ List.range (range.2 - range.1 + 1),
    Ranges.contains alphanumericRanges (range.1 + k) = false ∧ range.1 + k ≠ '_'.toNat ∧
      range.1 + k ≠ '.'.toNat := by
  decide +kernel

/-- The code points of ASCII letters are code points of letters. -/
theorem letters_alphanumeric : ∀ k ∈ List.range 26,
    Ranges.contains alphanumericRanges (65 + k) = true ∧
      Ranges.contains alphanumericRanges (97 + k) = true := by
  decide +kernel

/-- Whitespace belongs to no name. -/
theorem isNameChar_of_isBlank {c : Char} (h : isBlank c = true) : isNameChar c = false := by
  obtain ⟨range, hmem, hlow, hhigh⟩ := Ranges.exists_of_contains h
  have hk : c.toNat - range.1 ∈ List.range (range.2 - range.1 + 1) := by
    rw [List.mem_range]
    omega
  have hdisjoint := blankRanges_disjoint range hmem _ hk
  rw [show range.1 + (c.toNat - range.1) = c.toNat by omega] at hdisjoint
  obtain ⟨halpha, hline, hdot⟩ := hdisjoint
  have hline : c ≠ '_' := fun heq => hline (congrArg Char.toNat heq)
  have hdot : c ≠ '.' := fun heq => hdot (congrArg Char.toNat heq)
  simp [isNameChar, isWord, isAlphanumeric, halpha, hline, hdot]

/-- Word characters belong to names. -/
theorem isNameChar_of_isWord {c : Char} (h : isWord c = true) : isNameChar c = true := by
  simp [isNameChar, h]

/-- A character outside of names is no word character. -/
theorem isWord_of_isNameChar_eq_false {c : Char} (h : isNameChar c = false) :
    isWord c = false := by
  cases hw : isWord c with
  | false => rfl
  | true => rw [isNameChar_of_isWord hw] at h; exact h

/-- Whitespace is no word character. -/
theorem isWord_of_isBlank {c : Char} (h : isBlank c = true) : isWord c = false :=
  isWord_of_isNameChar_eq_false (isNameChar_of_isBlank h)

/-- A name character is not whitespace. -/
theorem isBlank_of_isNameChar {c : Char} (h : isNameChar c = true) : isBlank c = false := by
  cases hb : isBlank c with
  | false => rfl
  | true => rw [isNameChar_of_isBlank hb] at h; exact absurd h (by simp)

/-- The code points of ASCII letters. -/
theorem toNat_of_isAlpha {c : Char} (h : c.isAlpha = true) :
    (65 ≤ c.toNat ∧ c.toNat ≤ 90) ∨ (97 ≤ c.toNat ∧ c.toNat ≤ 122) := by
  change (decide (c.val ≥ 'A'.val ∧ c.val ≤ 'Z'.val) ||
    decide (c.val ≥ 'a'.val) && decide (c.val ≤ 'z'.val)) = true at h
  simp only [Bool.or_eq_true, Bool.and_eq_true, decide_eq_true_eq, ge_iff_le,
    UInt32.le_iff_toNat_le] at h
  exact h

/-- What may begin a name is a word character. -/
theorem isWord_of_isNameStart {c : Char} (h : isNameStart c = true) : isWord c = true := by
  simp only [isNameStart, Bool.or_eq_true, beq_iff_eq] at h
  rcases h with h | rfl
  · have halpha : isAlphanumeric c = true := by
      rcases toNat_of_isAlpha h with ⟨hlow, hhigh⟩ | ⟨hlow, hhigh⟩
      · have hk := letters_alphanumeric (c.toNat - 65) (List.mem_range.2 (by omega))
        rw [show 65 + (c.toNat - 65) = c.toNat by omega] at hk
        exact hk.1
      · have hk := letters_alphanumeric (c.toNat - 97) (List.mem_range.2 (by omega))
        rw [show 97 + (c.toNat - 97) = c.toNat by omega] at hk
        exact hk.2
    simp [isWord, halpha]
  · decide

/-- The code points of digits are code points of numbers. -/
theorem digits_alphanumeric : ∀ k ∈ List.range 10,
    Ranges.contains alphanumericRanges (48 + k) = true := by
  decide +kernel

/-- The code points of digits. -/
theorem toNat_of_isDigit {c : Char} (h : c.isDigit = true) : 48 ≤ c.toNat ∧ c.toNat ≤ 57 := by
  change (decide (c.val ≥ '0'.val) && decide (c.val ≤ '9'.val)) = true at h
  simp only [Bool.and_eq_true, decide_eq_true_eq, ge_iff_le, UInt32.le_iff_toNat_le] at h
  exact h

/-- A digit is a number. -/
theorem isAlphanumeric_of_isDigit {c : Char} (h : c.isDigit = true) :
    isAlphanumeric c = true := by
  have hcode := toNat_of_isDigit h
  have hk := digits_alphanumeric (c.toNat - 48) (List.mem_range.2 (by omega))
  rw [show 48 + (c.toNat - 48) = c.toNat by omega] at hk
  exact hk

/-- A digit is not whitespace. -/
theorem isBlank_of_isDigit {c : Char} (h : c.isDigit = true) : isBlank c = false :=
  isBlank_of_isNameChar (by simp [isNameChar, isWord, isAlphanumeric_of_isDigit h])

/-- A number is written in digits. -/
theorem isDigit_of_mem_ofNat {n : Nat} {c : Char} (h : c ∈ Text.ofNat n) : c.isDigit = true :=
  Nat.isDigit_of_mem_toDigits (by decide) (by decide) h

/-- There are two quotes. -/
theorem isQuote_iff {c : Char} : isQuote c = true ↔ c = '"' ∨ c = '\'' := by
  simp [isQuote]

/-- A quote belongs to no name. -/
theorem isNameChar_of_isQuote {c : Char} (h : isQuote c = true) : isNameChar c = false := by
  rcases isQuote_iff.1 h with rfl | rfl <;> decide

/-- A quote is not whitespace. -/
theorem isBlank_of_isQuote {c : Char} (h : isQuote c = true) : isBlank c = false := by
  rcases isQuote_iff.1 h with rfl | rfl <;> decide

/-! ## Longest stretches -/

section Stretches

variable {p : Char → Bool} {stretch rest text : Text}

/-- A stretch of a class that ends where the class ends is the longest one. -/
theorem takeWhile_stretch (hs : ∀ c ∈ stretch, p c = true) (hr : rest.head?.any p = false) :
    (stretch ++ rest).takeWhile p = stretch := by
  rw [List.takeWhile_append_of_pos hs]
  cases rest with
  | nil => simp
  | cons c rest => simp_all

/-- What follows the longest stretch of a class. -/
theorem dropWhile_stretch (hs : ∀ c ∈ stretch, p c = true) (hr : rest.head?.any p = false) :
    (stretch ++ rest).dropWhile p = rest := by
  rw [List.dropWhile_append_of_pos hs]
  cases rest with
  | nil => simp
  | cons c rest => simp_all

/-- A longest stretch consists of characters of its class. -/
theorem mem_takeWhile {c : Char} (h : c ∈ text.takeWhile p) : p c = true :=
  List.all_eq_true.1 List.all_takeWhile c h

/-- No character of the class stands behind a longest stretch. -/
theorem head?_dropWhile (p : Char → Bool) (text : Text) :
    (text.dropWhile p).head?.any p = false := by
  have hnot := List.head?_dropWhile_not p text
  cases hh : (text.dropWhile p).head? with
  | none => rfl
  | some c => simpa [hh] using hnot

/-- A text that begins with a stretch outside of a class does not begin with one of the class. -/
theorem head?_stretch (hne : stretch ≠ []) (hs : ∀ c ∈ stretch, p c = false) :
    (stretch ++ rest).head?.any p = false := by
  obtain ⟨c, stretch, rfl⟩ := List.exists_cons_of_ne_nil hne
  exact hs c List.mem_cons_self

/-- Whitespace in front of other characters is all the whitespace at the beginning. -/
theorem skipBlanks_stretch (hs : ∀ c ∈ stretch, isBlank c = true)
    (hr : rest.head?.any isBlank = false) : skipBlanks (stretch ++ rest) = rest :=
  dropWhile_stretch hs hr

/-- Whitespace in front of a text does not matter for what follows the whitespace. -/
theorem skipBlanks_append (hs : ∀ c ∈ stretch, isBlank c = true) :
    skipBlanks (stretch ++ rest) = skipBlanks rest :=
  List.dropWhile_append_of_pos hs

/-- A text that does not begin with whitespace has none to skip. -/
theorem skipBlanks_eq_self (h : text.head?.any isBlank = false) : skipBlanks text = text :=
  @dropWhile_stretch isBlank [] text (by simp) h

end Stretches

/-- A text without characters of a class neither begins nor ends with one. -/
theorem ends_of_forall_mem {p : Char → Bool} {text : Text} (h : ∀ c ∈ text, p c = false) :
    text.head?.any p = false ∧ text.getLast?.any p = false :=
  ⟨(Option.any_eq_false _ _).2 fun c hc => h c (List.mem_of_head? hc),
    (Option.any_eq_false _ _).2 fun c hc => h c (List.mem_of_getLast? hc)⟩

/-- The class of the last character of a text, or else of what stands in front of the text, is
read off from behind the first character. -/
theorem getD_getLast?_cons (p : Char → Bool) (front : Bool) (c : Char) (text : Text) :
    ((c :: text).getLast?.map p).getD front = (text.getLast?.map p).getD (p c) := by
  rw [List.getLast?_cons]
  cases text.getLast? with
  | none => rfl
  | some d => rfl

/-- A text that neither begins nor ends with whitespace has none to strip. -/
theorem strip_of_ends {text : Text} (hhead : text.head?.any isBlank = false)
    (hlast : text.getLast?.any isBlank = false) : strip text = text := by
  rw [strip, skipBlanks_eq_self hhead, skipBlanks_eq_self (by rwa [List.head?_reverse]),
    List.reverse_reverse]

/-- A text without whitespace has none at its ends. -/
theorem strip_eq_self {text : Text} (h : ∀ c ∈ text, isBlank c = false) : strip text = text :=
  strip_of_ends (ends_of_forall_mem h).1 (ends_of_forall_mem h).2

/-! ## Dotted names -/

/-- A dotted name stands at a place exactly if no name character stands in front, it begins as
names do, and it ends where the name characters end. -/
theorem dottedName?_eq_some_iff {before after name rest : Text} :
    dottedName? ⟨before, after⟩ = some (name, rest) ↔
      before.head?.any isNameChar = false ∧ after = name ++ rest ∧
        name.head?.any isNameStart = true ∧ (∀ c ∈ name, isNameChar c = true) ∧
        rest.head?.any isNameChar = false := by
  constructor
  · intro h
    have happend := dottedName?_eq_some h
    unfold dottedName? at h
    split at h
    · simp at h
    · rename_i hbefore
      split at h
      · rename_i hstart
        obtain ⟨rfl, rfl⟩ := Prod.mk.inj (Option.some.inj h)
        refine ⟨by simpa [Cursor.follows] using hbefore, happend, ?_, fun c => mem_takeWhile,
          head?_dropWhile _ _⟩
        cases after with
        | nil => simp at hstart
        | cons c after =>
            have hc : isNameStart c = true := by simpa using hstart
            have hname := isNameChar_of_isWord (isWord_of_isNameStart hc)
            simp [hname, hc]
      · simp at h
  · rintro ⟨hbefore, rfl, hstart, hname, hrest⟩
    have hhead : (name ++ rest).head?.any isNameStart = true := by
      cases name with
      | nil => simp at hstart
      | cons c name => simpa using hstart
    simp only [dottedName?, Cursor.follows, hbefore, hhead, takeWhile_stretch hname hrest,
      dropWhile_stretch hname hrest, Bool.false_eq_true, if_true, if_false]

/-- A word between two places where names end is a whole name. -/
theorem dottedName?_word {before word rest : Text} (hb : before.head?.any isNameChar = false)
    (hstart : word.head?.any isNameStart = true) (hword : ∀ c ∈ word, isNameChar c = true)
    (hrest : rest.head?.any isNameChar = false) :
    dottedName? ⟨before, word ++ rest⟩ = some (word, rest) :=
  dottedName?_eq_some_iff.2 ⟨hb, rfl, hstart, hword, hrest⟩

/-! ## All names of a stretch -/

/-- `P` holds of every name that begins in `text` and what follows it, if `rest` stands behind the
text. The flag tells whether a name character stands in front. -/
def AllNames (P : Text → Text → Prop) : (inName : Bool) → (text rest : Text) → Prop
  | _, [], _ => True
  | inName, c :: text, rest =>
      (inName = false → isNameStart c = true →
        P ((c :: text ++ rest).takeWhile isNameChar) ((c :: text ++ rest).dropWhile isNameChar)) ∧
      AllNames P (isNameChar c) text rest

/-- A name character stands at the end of the text, or in front of it if it is empty. -/
def endsInName (inName : Bool) (text : Text) : Bool :=
  (text.getLast?.map isNameChar).getD inName

section AllNames

variable {P Q : Text → Text → Prop} {inName : Bool} {first text rest : Text}

/-- The names of two stretches are those of the first and those of the second. -/
theorem allNames_append :
    AllNames P inName (first ++ text) rest ↔
      AllNames P inName first (text ++ rest) ∧
        AllNames P (endsInName inName first) text rest := by
  induction first generalizing inName with
  | nil => simp [AllNames, endsInName]
  | cons c first ih =>
      have hend : endsInName inName (c :: first) = endsInName (isNameChar c) first :=
        getD_getLast?_cons isNameChar inName c first
      simp only [List.cons_append, AllNames, ih, hend, List.append_assoc, and_assoc]

/-- Fewer names begin in a stretch if a name character stands in front. -/
theorem AllNames.of_false (h : AllNames P false text rest) : AllNames P inName text rest := by
  cases text with
  | nil => trivial
  | cons c text => exact ⟨fun _ hc => h.1 rfl hc, h.2⟩

/-- What all names have implies what they have in common with it. -/
theorem AllNames.imp (h : AllNames P inName text rest)
    (himp : ∀ name behind, P name behind → Q name behind) : AllNames Q inName text rest := by
  induction text generalizing inName with
  | nil => trivial
  | cons c text ih => exact ⟨fun hin hstart => himp _ _ (h.1 hin hstart), ih h.2⟩

/-- No name begins where no character may begin one. -/
theorem allNames_of_not_start (h : ∀ c ∈ text, isNameStart c = false) :
    AllNames P inName text rest := by
  induction text generalizing inName with
  | nil => trivial
  | cons c text ih =>
      refine ⟨fun _ hc => ?_, ih fun d hd => h d (List.mem_cons_of_mem _ hd)⟩
      rw [h c List.mem_cons_self] at hc
      exact absurd hc (by simp)

/-- No name begins behind the first character of a stretch of name characters. -/
theorem allNames_inside (h : ∀ c ∈ text, isNameChar c = true) : AllNames P true text rest := by
  induction text with
  | nil => trivial
  | cons c text ih =>
      refine ⟨fun hfalse => absurd hfalse (by simp), ?_⟩
      rw [h c List.mem_cons_self]
      exact ih fun d hd => h d (List.mem_cons_of_mem _ hd)

/-- In a stretch of name characters that is not continued, only the stretch itself can be a
name. -/
theorem allNames_name (h : ∀ c ∈ text, isNameChar c = true)
    (hr : rest.head?.any isNameChar = false) (hP : text ≠ [] → P text rest) :
    AllNames P inName text rest := by
  cases text with
  | nil => trivial
  | cons c text =>
      refine ⟨fun _ _ => ?_, ?_⟩
      · rw [takeWhile_stretch h hr, dropWhile_stretch h hr]
        exact hP (by simp)
      · rw [h c List.mem_cons_self]
        exact allNames_inside fun d hd => h d (List.mem_cons_of_mem _ hd)

/-- What holds of all names holds of the name at any place of the stretch. -/
theorem AllNames.at_place (h : AllNames P false text rest) {before left right name behind : Text}
    (htext : text = left ++ right) (hne : right ≠ [])
    (hname : dottedName? ⟨left.reverse ++ before, right ++ rest⟩ = some (name, behind)) :
    P name behind := by
  obtain ⟨hbefore, hsplit, hstart, hall, hbehind⟩ := dottedName?_eq_some_iff.1 hname
  obtain ⟨c, right, rfl⟩ := List.exists_cons_of_ne_nil hne
  subst htext
  have hright := (allNames_append.1 h).2.1
  -- The flag in front of the place is the class of the character there.
  have hflag : endsInName false left = false := by
    cases hl : left.getLast? with
    | none => simp [endsInName, hl]
    | some d =>
        have hd : left.reverse.head? = some d := by rw [List.head?_reverse, hl]
        rw [List.head?_append, hd] at hbefore
        simpa [endsInName, hl] using hbefore
  rw [hsplit, takeWhile_stretch hall hbehind, dropWhile_stretch hall hbehind] at hright
  refine hright hflag ?_
  cases name with
  | nil => simp at hstart
  | cons d name =>
      obtain ⟨rfl, -⟩ := List.cons.inj hsplit
      simpa using hstart

/-- What holds of the name at every place of the stretch holds of all names. -/
theorem allNames_of_places {before : Text}
    (h : ∀ {left right name behind : Text}, text = left ++ right → right ≠ [] →
      dottedName? ⟨left.reverse ++ before, right ++ rest⟩ = some (name, behind) → P name behind) :
    AllNames P (before.head?.any isNameChar) text rest := by
  induction text generalizing before with
  | nil => trivial
  | cons c text ih =>
      refine ⟨fun hbefore hstart => ?_, ?_⟩
      · refine @h [] (c :: text) _ _ rfl (by simp) ?_
        simp [dottedName?, Cursor.follows, hbefore, hstart]
      · refine @ih (c :: before) fun {left right name behind} hsplit hne hname => ?_
        refine @h (c :: left) right name behind (by rw [hsplit]; rfl) hne ?_
        simpa using hname

end AllNames

end SdkUpgrade
