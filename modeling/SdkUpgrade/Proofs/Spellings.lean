import Mathlib.Data.List.Basic
import Mathlib.Data.List.TakeWhile
import SdkUpgrade.Proofs.Readers
import SdkUpgrade.Text.Setting

/-!
# How settings are written

A setting that is given as a text may have whitespace around it, which changes nothing:
`trimmed?_around` for a single value and `names_around` for a list of names. Decimal digits are
read back as the number that they were written for, and names with commas between them as these
names: `integer?_ofInt` and `names_join`.
-/

namespace SdkUpgrade

namespace Text

/-! ## Whitespace around a text -/

section Around

variable {lead trail : Text}

theorem isGap_singleton {c : Char} (h : isBlank c = true) : IsGap [c] :=
  fun _ hmem => List.mem_singleton.1 hmem ▸ h

theorem strip_gap_append (hl : IsGap lead) (text : Text) : strip (lead ++ text) = strip text := by
  unfold strip
  rw [skipBlanks_append hl]

theorem strip_append_gap (ht : IsGap trail) (text : Text) :
    strip (text ++ trail) = strip text := by
  have hback : IsGap trail.reverse := fun c hc => ht c (List.mem_reverse.1 hc)
  have hnone : skipBlanks trail = [] := List.dropWhile_eq_nil_iff.2 ht
  unfold strip
  -- Either nothing but whitespace stands in front of the trail, or the trail comes off last.
  have hskip : skipBlanks (text ++ trail) =
      if (skipBlanks text).isEmpty then skipBlanks trail else skipBlanks text ++ trail :=
    List.dropWhile_append
  cases hrest : skipBlanks text with
  | nil => simp [hskip, hrest, hnone]
  | cons c rest =>
      rw [hskip, hrest, if_neg (by simp), List.reverse_append, skipBlanks_append hback]

/-- Nothing is left of a text exactly if it is blank. -/
theorem trimmed?_eq_none_iff {text : Text} : trimmed? text = none ↔ IsGap text := by
  have hstrip : trimmed? text = none ↔ strip text = [] := by
    unfold trimmed?
    split
    · rename_i hnil
      simp [hnil]
    · rename_i hsome
      exact iff_of_false (by simp) hsome
  rw [hstrip]
  constructor
  · intro h
    have hrest : IsGap (skipBlanks text) := fun c hc =>
      List.dropWhile_eq_nil_iff.1 (List.reverse_eq_nil_iff.1 h) c (List.mem_reverse.2 hc)
    rw [← blanks_append_skipBlanks text]
    intro c hc
    exact (List.mem_append.1 hc).elim (isGap_blanks text c) (hrest c)
  · intro h
    have hnone : skipBlanks text = [] := List.dropWhile_eq_nil_iff.2 h
    rw [strip, hnone]
    rfl

theorem trimmed?_gap_append (hl : IsGap lead) (text : Text) :
    trimmed? (lead ++ text) = trimmed? text := by
  rw [trimmed?, strip_gap_append hl, trimmed?]

theorem trimmed?_append_gap (ht : IsGap trail) (text : Text) :
    trimmed? (text ++ trail) = trimmed? text := by
  rw [trimmed?, strip_append_gap ht, trimmed?]

/-- Whitespace around a text does not matter for what is left of it. -/
theorem trimmed?_around (hl : IsGap lead) (ht : IsGap trail) (text : Text) :
    trimmed? (lead ++ text ++ trail) = trimmed? text := by
  rw [trimmed?_append_gap ht, trimmed?_gap_append hl]

end Around

/-- A text without whitespace is left as it is. -/
theorem trimmed?_eq_some_self {text : Text} (hne : text ≠ [])
    (h : ∀ c ∈ text, isBlank c = false) : trimmed? text = some text := by
  unfold trimmed?
  rw [strip_eq_self h]
  split
  · exact absurd rfl hne
  · rfl

/-! ## Lists of names -/

/-- The pieces of two texts, one behind the other: the last piece of the first text and the first
piece of the second make up one piece. -/
theorem exists_split_append (separator : Char) (first second : Text) :
    ∃ front last head back, split separator first = front ++ [last] ∧
      split separator second = head :: back ∧
      split separator (first ++ second) = front ++ (last ++ head) :: back := by
  induction first with
  | nil =>
      obtain ⟨head, back, hsecond⟩ := List.exists_cons_of_ne_nil (split_ne_nil separator second)
      exact ⟨[], [], head, back, rfl, hsecond, hsecond⟩
  | cons c first ih =>
      obtain ⟨front, last, head, back, hfirst, hsecond, hboth⟩ := ih
      by_cases hc : c = separator
      · exact ⟨[] :: front, last, head, back, by simp [split, hc, hfirst], hsecond,
          by simp [split, hc, hboth]⟩
      · cases front with
        | nil =>
            exact ⟨[], c :: last, head, back, by simp [split, hc, hfirst], hsecond,
              by simp [split, hc, hboth]⟩
        | cons piece front =>
            exact ⟨(c :: piece) :: front, last, head, back, by simp [split, hc, hfirst], hsecond,
              by simp [split, hc, hboth]⟩

/-- A text without the separator is one piece. -/
theorem split_eq_singleton {separator : Char} {text : Text} (h : separator ∉ text) :
    split separator text = [text] := by
  induction text with
  | nil => rfl
  | cons c text ih =>
      have hc : c ≠ separator := fun heq => h (heq ▸ List.mem_cons_self)
      have hrest := ih fun hmem => h (List.mem_cons_of_mem c hmem)
      simp [split, hc, hrest]

/-- A text without the separator belongs to the first piece of what follows it. -/
theorem exists_split_cons {separator : Char} {text : Text} (h : separator ∉ text) (rest : Text) :
    ∃ head back, split separator rest = head :: back ∧
      split separator (text ++ rest) = (text ++ head) :: back := by
  obtain ⟨front, last, head, back, htext, hrest, hboth⟩ := exists_split_append separator text rest
  have hfront : front = [] := by
    have hlength := congrArg List.length htext
    simp only [split_eq_singleton h, List.length_append, List.length_singleton] at hlength
    exact List.length_eq_zero_iff.1 (by omega)
  subst hfront
  rw [split_eq_singleton h] at htext
  obtain ⟨rfl, -⟩ := List.cons.inj htext
  exact ⟨head, back, hrest, hboth⟩

/-- Texts that are joined by a separator which is in none of them are the pieces between it. -/
theorem split_join {separator : Char} {texts : List Text} (hne : texts ≠ [])
    (h : ∀ text ∈ texts, separator ∉ text) :
    split separator (join [separator] texts) = texts := by
  induction texts with
  | nil => exact absurd rfl hne
  | cons text texts ih =>
      cases texts with
      | nil => exact split_eq_singleton (h text List.mem_cons_self)
      | cons next texts =>
          have hrest := ih (by simp) fun other hmem => h other (List.mem_cons_of_mem text hmem)
          have hbreak : split separator (separator :: join [separator] (next :: texts)) =
              [] :: next :: texts := by
            rw [split, if_pos rfl, hrest]
          obtain ⟨head, back, hsplit, hboth⟩ := exists_split_cons (h text List.mem_cons_self)
            (separator :: join [separator] (next :: texts))
          obtain ⟨rfl, rfl⟩ := List.cons.inj (hbreak.symm.trans hsplit)
          show split separator (text ++ [separator] ++ join [separator] (next :: texts)) = _
          rw [List.append_assoc, List.singleton_append, hboth, List.append_nil]

/-- Nothing is left out of a list without repetitions. -/
theorem distinct_eq_self {α : Type} [DecidableEq α] {xs : List α} (h : xs.Nodup) :
    distinct xs = xs := by
  induction xs with
  | nil => rfl
  | cons x xs ih =>
      obtain ⟨hnot, hrest⟩ := List.nodup_cons.1 h
      rw [distinct, ih hrest, List.filter_eq_self.2]
      intro y hy
      exact decide_eq_true fun heq => hnot (heq ▸ hy)

theorem comma_notMem_gap {gap : Text} (h : IsGap gap) : ',' ∉ gap := by
  intro hmem
  exact absurd (h ',' hmem) (by decide)

/-- Whitespace around a list of names does not matter. -/
theorem names_around {lead trail : Text} (hl : IsGap lead) (ht : IsGap trail) (text : Text) :
    names (lead ++ text ++ trail) = names text := by
  have hlead : ∀ text, (split ',' (lead ++ text)).filterMap trimmed? =
      (split ',' text).filterMap trimmed? := by
    intro text
    obtain ⟨head, back, htext, hboth⟩ := exists_split_cons (comma_notMem_gap hl) text
    rw [hboth, htext, List.filterMap_cons, trimmed?_gap_append hl, List.filterMap_cons]
  have htrail : (split ',' (text ++ trail)).filterMap trimmed? =
      (split ',' text).filterMap trimmed? := by
    obtain ⟨front, last, head, back, htext, hgap, hboth⟩ := exists_split_append ',' text trail
    rw [split_eq_singleton (comma_notMem_gap ht)] at hgap
    obtain ⟨rfl, rfl⟩ := List.cons.inj hgap
    rw [hboth, htext, List.filterMap_append, List.filterMap_append, List.filterMap_cons,
      trimmed?_append_gap ht, List.filterMap_cons]
  unfold names
  rw [List.append_assoc, hlead, htrail]

/-- Names with commas between them are read back, each once, if no name has a comma or whitespace
at its ends. -/
theorem names_join {ids : List Text} (hids : ∀ id ∈ ids, trimmed? id = some id ∧ ',' ∉ id)
    (hdistinct : ids.Nodup) : names (join [','] ids) = ids := by
  unfold names
  by_cases hnil : ids = []
  · subst hnil
    rfl
  · rw [split_join hnil fun id hid => (hids id hid).2,
      List.filterMap_congr fun id hid => (hids id hid).1, List.filterMap_some,
      distinct_eq_self hdistinct]

/-! ## Decimal numbers -/

/-- An ASCII digit is the first digit of its script's row. -/
theorem digitValue?_eq_some {c : Char} (h : c.isDigit = true) :
    digitValue? c = some (c.toNat - '0'.toNat) := by
  have hrange := toNat_of_isDigit h
  have hlow : ¬ c.toNat < 48 := by omega
  have hhigh : c.toNat < 48 + 10 := by omega
  rw [digitValue?, digitZeros, digitValueFrom?, if_neg hlow, if_pos hhigh]
  rfl

/-- ASCII digits are read one by one. -/
theorem digits?_eq_some {text : Text} (hne : text ≠ []) (h : ∀ c ∈ text, c.isDigit = true) :
    digits? text = some (text.map fun c => c.toNat - '0'.toNat) := by
  fun_induction digits? text with
  | case1 => exact absurd rfl hne
  | case2 c => simp [digitValue?_eq_some (h c List.mem_cons_self)]
  | case3 c text d hd ih =>
      exact absurd (h '_' (by simp)) (by decide)
  | case4 c text hd =>
      exact absurd (h '_' (by simp)) (by decide)
  | case5 c next text hnext d hd ih =>
      have hrest := ih (by simp) fun other hmem => h other (List.mem_cons_of_mem c hmem)
      obtain rfl := Option.some.inj (hd.symm.trans (digitValue?_eq_some (h c List.mem_cons_self)))
      rw [hrest]
      rfl
  | case6 c next text hnext hd =>
      exact absurd (hd.symm.trans (digitValue?_eq_some (h c List.mem_cons_self))) (by simp)

theorem length_ofNat_le {n limit : Nat} (hlimit : 0 < limit) (h : n < Nat.pow 10 limit) :
    (ofNat n).length ≤ limit :=
  (Nat.length_toDigits_le_iff (by decide) hlimit).2 h

/-- The digits of a number that is not too long are read as that number. -/
theorem natural?_ofNat {n : Nat} (h : n < Nat.pow 10 digitLimit) :
    natural? (ofNat n) = some n := by
  have hdigits : digits? (ofNat n) = some ((ofNat n).map fun c => c.toNat - '0'.toNat) :=
    digits?_eq_some Nat.toDigits_ne_nil fun _ hmem => isDigit_of_mem_ofNat hmem
  have hlength : (ofNat n).length ≤ digitLimit := length_ofNat_le (by decide) h
  have hvalue : numberOf ((ofNat n).map fun c => c.toNat - '0'.toNat) = n := by
    rw [numberOf, List.foldl_map, ← Nat.ofDigitChars_eq_foldl]
    exact Nat.ofDigitChars_ten_toDigits
  rw [natural?, hdigits]
  simp only [List.length_map, if_pos hlength, hvalue]

/-- A text of digits has no whitespace around it. -/
theorem stripMargins_eq_self {text : Text} (h : ∀ c ∈ text, c.isDigit = true) :
    stripMargins text = text := by
  have hdigit : ∀ c, c.isDigit = true → isMargin c = false := by
    intro c hc
    rw [isMargin, isBlank_of_isDigit hc, Bool.false_and]
  have hfirst : ∀ text : Text, (∀ c ∈ text, c.isDigit = true) →
      text.dropWhile isMargin = text := by
    intro text h
    cases text with
    | nil => rfl
    | cons c text =>
        refine List.dropWhile_cons_of_neg ?_
        simp [hdigit c (h c List.mem_cons_self)]
  rw [stripMargins, hfirst text h,
    hfirst text.reverse fun c hmem => h c (List.mem_reverse.1 hmem), List.reverse_reverse]

theorem trimmed?_ofInt {n : Int} (hpos : 0 ≤ n) : trimmed? (ofInt n) = some (ofInt n) := by
  obtain ⟨m, rfl⟩ := Int.eq_ofNat_of_zero_le hpos
  exact trimmed?_eq_some_self Nat.toDigits_ne_nil fun _ hmem =>
    isBlank_of_isDigit (isDigit_of_mem_ofNat hmem)

/-- The digits of a natural number that is not too long are read as that number. -/
theorem integer?_ofInt {n : Int} (hpos : 0 ≤ n) (h : n.natAbs < Nat.pow 10 digitLimit) :
    integer? (ofInt n) = some n := by
  obtain ⟨m, rfl⟩ := Int.eq_ofNat_of_zero_le hpos
  have hdigit : ∀ c ∈ ofNat m, c.isDigit = true := fun _ hmem => isDigit_of_mem_ofNat hmem
  have hread : natural? (ofNat m) = some m := natural?_ofNat h
  show integer? (ofNat m) = some (m : Int)
  rw [integer?, stripMargins_eq_self hdigit]
  split
  · rename_i rest hrest
    exact absurd (hdigit '-' (by simp [hrest])) (by decide)
  · rename_i rest hrest
    exact absurd (hdigit '+' (by simp [hrest])) (by decide)
  · rw [hread]
    rfl

end Text

end SdkUpgrade
