import SdkUpgrade.Proofs.Names
import SdkUpgrade.Rule.AccessPath
import SdkUpgrade.Rule.CallShape
import SdkUpgrade.Rule.ModelName
import SdkUpgrade.Rule.Parameter

/-!
# What the readers accept

The rules are built from small readers: whitespace and a parenthesis, an index between brackets, a
quoted key between brackets, the end of a key, a quoted name. Each statement here says exactly
which texts a reader accepts and what it leaves, in terms of the characters that stand there. A
reader is not opened again after this module.
-/

namespace SdkUpgrade

open Text Source

/-- A text of whitespace. -/
def IsGap (gap : Text) : Prop :=
  ∀ c ∈ gap, isBlank c = true

/-- The empty text is a gap. -/
theorem isGap_nil : IsGap [] :=
  fun _ hc => absurd hc List.not_mem_nil

/-- The whitespace at the beginning of a text is a gap. -/
theorem isGap_blanks (text : Text) : IsGap (blanks text) :=
  fun _ hc => mem_takeWhile hc

/-- No whitespace follows the whitespace at the beginning of a text. -/
theorem head?_skipBlanks (text : Text) : (skipBlanks text).head?.any isBlank = false :=
  head?_dropWhile isBlank text

/-- Whitespace in front of other characters is all the whitespace at the beginning. -/
theorem blanks_gap {gap rest : Text} (hg : IsGap gap) (hr : rest.head?.any isBlank = false) :
    blanks (gap ++ rest) = gap :=
  takeWhile_stretch hg hr

/-- The character behind the whitespace at the beginning of a text. -/
theorem head?_skipBlanks_eq_some_iff {text : Text} {c : Char} (hc : isBlank c = false) :
    (skipBlanks text).head? = some c ↔ ∃ gap rest, IsGap gap ∧ text = gap ++ c :: rest := by
  constructor
  · intro h
    obtain ⟨rest, hrest⟩ := List.head?_eq_some_iff.1 h
    refine ⟨blanks text, rest, isGap_blanks text, ?_⟩
    rw [← hrest, blanks_append_skipBlanks]
  · rintro ⟨gap, rest, hg, rfl⟩
    rw [skipBlanks_stretch hg (by simpa using hc)]
    rfl

/-- Whitespace in front of another character is read in one way. -/
theorem IsGap.unique {gap gap' rest rest' : Text} {c d : Char} (hg : IsGap gap) (hg' : IsGap gap')
    (hc : isBlank c = false) (hd : isBlank d = false)
    (h : gap ++ c :: rest = gap' ++ d :: rest') :
    gap = gap' ∧ c = d ∧ rest = rest' := by
  have hgap := congrArg blanks h
  rw [blanks_gap hg (by simpa using hc), blanks_gap hg' (by simpa using hd)] at hgap
  subst hgap
  obtain ⟨hcd, hrest⟩ := List.cons.inj (List.append_cancel_left h)
  exact ⟨rfl, hcd, hrest⟩

/-! ## Calls -/

namespace RetiredCall

/-- A call stands at a place exactly if a dotted name does that splits at one of the methods and
is followed by a parenthesis, whitespace apart. -/
theorem at?_eq_some_iff {methods : List Text} {c : Cursor} {call : RetiredCall} :
    at? methods c = some call ↔ call.receiver ≠ [] ∧ IsGap call.gap ∧ ∃ name rest,
      dottedName? c = some (name, call.gap ++ '(' :: rest) ∧
        splitName? methods name = some (call.receiver, call.method) := by
  constructor
  · intro h
    unfold at? at h
    split at h
    · simp at h
    · rename_i name rest hd
      split at h
      · simp at h
      · rename_i receiver method hs
        split at h
        · rename_i hc
          obtain rfl := Option.some.inj h
          obtain ⟨following, hf⟩ := List.head?_eq_some_iff.1 hc.2
          have hgap := blanks_append_skipBlanks rest
          rw [hf] at hgap
          refine ⟨hc.1, isGap_blanks rest, name, following, ?_, hs⟩
          show dottedName? c = some (name, blanks rest ++ '(' :: following)
          rw [hgap, hd]
        · simp at h
  · rintro ⟨hne, hg, name, rest, hd, hs⟩
    have hparen : ('(' :: rest).head?.any isBlank = false := (by decide : isBlank '(' = false)
    have hhead : (skipBlanks (call.gap ++ '(' :: rest)).head? = some '(' := by
      rw [skipBlanks_stretch hg hparen]
      rfl
    simp [at?, hd, hs, hne, hhead, blanks_gap hg hparen]

end RetiredCall

/-! ## Indices and quoted keys -/

/-- A word with whitespace around it. -/
def IsIndex (index : Text) : Prop :=
  ∃ left word right, IsGap left ∧ word ≠ [] ∧ (∀ c ∈ word, isWord c = true) ∧ IsGap right ∧
    index = left ++ (word ++ right)

namespace ChoiceAccess

/-- An index is read exactly off a word with whitespace around it between brackets. -/
theorem index?_eq_some_iff {text index rest : Text} :
    index? text = some (index, rest) ↔ IsIndex index ∧ text = '[' :: (index ++ ']' :: rest) := by
  constructor
  · intro h
    refine ⟨?_, by simpa using index?_eq_some h⟩
    unfold index? at h
    split at h
    · simp at h
    · rename_i inner hi
      dsimp only at h
      split at h
      · simp at h
      · rename_i hword
        obtain ⟨outer, ho, heq⟩ := Option.map_eq_some_iff.1 h
        obtain ⟨rfl, rfl⟩ := Prod.mk.inj heq
        exact ⟨_, _, _, isGap_blanks _, hword, fun c => mem_takeWhile, isGap_blanks _,
          List.append_assoc _ _ _⟩
  · rintro ⟨⟨left, word, right, hl, hne, hw, hr, rfl⟩, rfl⟩
    have hclose : (']' :: rest).head?.any isBlank = false := (by decide : isBlank ']' = false)
    have hword : (word ++ (right ++ ']' :: rest)).head?.any isBlank = false := by
      obtain ⟨c, word, rfl⟩ := List.exists_cons_of_ne_nil hne
      exact isBlank_of_isNameChar (isNameChar_of_isWord (hw c List.mem_cons_self))
    have hbehind : (right ++ ']' :: rest).head?.any isWord = false := by
      cases right with
      | nil => exact (by decide : isWord ']' = false)
      | cons c right => exact isWord_of_isBlank (hr c List.mem_cons_self)
    simp [index?, skipBlanks_stretch hl hword, blanks_gap hl hword,
      takeWhile_stretch hw hbehind, dropWhile_stretch hw hbehind, skipBlanks_stretch hr hclose,
      blanks_gap hr hclose, hne, after?]

/-- An index in front of a bracket is read in one way. -/
theorem index_unique {index index' rest rest' : Text} (h : IsIndex index) (h' : IsIndex index')
    (heq : index ++ ']' :: rest = index' ++ ']' :: rest') : index = index' ∧ rest = rest' := by
  have hread : index? ('[' :: (index ++ ']' :: rest)) = some (index, rest) :=
    index?_eq_some_iff.2 ⟨h, rfl⟩
  have hread' : index? ('[' :: (index' ++ ']' :: rest')) = some (index', rest') :=
    index?_eq_some_iff.2 ⟨h', rfl⟩
  rw [heq, hread'] at hread
  obtain ⟨rfl, rfl⟩ := Prod.mk.inj (Option.some.inj hread)
  exact ⟨rfl, rfl⟩

/-- A quoted key is read exactly off the key between two equal quotes between brackets. -/
theorem quotedKey?_eq_some_iff {key text rest : Text} {quote : Char} :
    quotedKey? key text = some (quote, rest) ↔
      isQuote quote = true ∧ text = '[' :: quote :: (key ++ quote :: ']' :: rest) := by
  constructor
  · intro h
    refine ⟨?_, by simpa using quotedKey?_eq_some h⟩
    unfold quotedKey? at h
    split at h
    · split at h
      · rename_i hq
        obtain ⟨outer, ho, heq⟩ := Option.map_eq_some_iff.1 h
        obtain ⟨rfl, rfl⟩ := Prod.mk.inj heq
        exact hq
      · simp at h
    · simp at h
  · rintro ⟨hq, rfl⟩
    have hkey : after? (key ++ [quote, ']']) (key ++ quote :: ']' :: rest) = some rest := by
      rw [after?_eq_some_iff]
      simp
    simp [quotedKey?, after?, hq, hkey]

end ChoiceAccess

/-! ## Ends of keys -/

namespace Source

/-- A mark is read exactly off whitespace and a colon, or an equals sign that no other one
follows. -/
theorem mark?_eq_some_iff {text mark rest : Text} :
    mark? text = some (mark, rest) ↔ text = mark ++ rest ∧ ∃ gap sign, IsGap gap ∧
      mark = gap ++ [sign] ∧ (sign = ':' ∨ sign = '=' ∧ rest.head? ≠ some '=') := by
  constructor
  · intro h
    refine ⟨mark?_eq_some h, blanks text, ?_⟩
    unfold mark? at h
    split at h
    · obtain ⟨rfl, rfl⟩ := Prod.mk.inj (Option.some.inj h)
      exact ⟨':', isGap_blanks text, rfl, .inl rfl⟩
    · split at h
      · simp at h
      · rename_i hnext
        obtain ⟨rfl, rfl⟩ := Prod.mk.inj (Option.some.inj h)
        exact ⟨'=', isGap_blanks text, rfl, .inr ⟨rfl, hnext⟩⟩
    · simp at h
  · rintro ⟨rfl, gap, sign, hg, rfl, hsign⟩
    have hblank : (sign :: rest).head?.any isBlank = false := by
      rcases hsign with rfl | ⟨rfl, -⟩
      · exact (by decide : isBlank ':' = false)
      · exact (by decide : isBlank '=' = false)
    rw [List.append_assoc, List.singleton_append]
    unfold mark?
    rw [skipBlanks_stretch hg hblank, blanks_gap hg hblank]
    rcases hsign with rfl | ⟨rfl, hnext⟩
    · rfl
    · simp [hnext]

/-- A quote or nothing. -/
def IsOptionalQuote (quote : Text) : Prop :=
  quote = [] ∨ ∃ q, isQuote q = true ∧ quote = [q]

/-- An optional quote is a quote or nothing. -/
theorem isOptionalQuote_optionalQuote (text : Text) : IsOptionalQuote (optionalQuote text).1 := by
  cases text with
  | nil => exact .inl rfl
  | cons c text =>
      by_cases hq : isQuote c = true
      · exact .inr ⟨c, hq, by simp [optionalQuote, hq]⟩
      · exact .inl (by simp [optionalQuote, hq])

/-- A quote is found where it stands in front of something that is no quote. -/
theorem optionalQuote_append_eq {quote rest : Text} (hq : IsOptionalQuote quote)
    (hr : rest.head?.any isQuote = false) : optionalQuote (quote ++ rest) = (quote, rest) := by
  rcases hq with rfl | ⟨q, hq, rfl⟩
  · cases rest with
    | nil => rfl
    | cons c rest =>
        have hc : isQuote c = false := by simpa using hr
        simp [optionalQuote, hc]
  · simp [optionalQuote, hq]

/-- The end of a key: an optional quote, whitespace and a sign. -/
def IsKeyEnd (close : Text) (sign : Char) : Prop :=
  ∃ quote gap, IsOptionalQuote quote ∧ IsGap gap ∧ (sign = ':' ∨ sign = '=') ∧
    close = quote ++ (gap ++ [sign])

/-- No quote stands at the beginning of whitespace and a sign. -/
theorem head?_gap_sign {gap rest : Text} {sign : Char} (hg : IsGap gap)
    (hs : sign = ':' ∨ sign = '=') : (gap ++ sign :: rest).head?.any isQuote = false := by
  cases gap with
  | nil =>
      rcases hs with rfl | rfl
      · exact (by decide : isQuote ':' = false)
      · exact (by decide : isQuote '=' = false)
  | cons c gap =>
      have hc := hg c List.mem_cons_self
      cases hq : isQuote c with
      | false => exact hq
      | true =>
          rw [isBlank_of_isQuote hq] at hc
          exact absurd hc (by simp)

/-- The end of a key is read exactly off an optional quote, whitespace and a sign that is not the
first half of a comparison. -/
theorem keyEnd?_eq_some_iff {text close rest : Text} :
    keyEnd? text = some (close, rest) ↔ text = close ++ rest ∧ ∃ sign, IsKeyEnd close sign ∧
      (sign = '=' → rest.head? ≠ some '=') := by
  constructor
  · intro h
    refine ⟨keyEnd?_eq_some h, ?_⟩
    obtain ⟨⟨mark, following⟩, hm, heq⟩ := Option.map_eq_some_iff.1 h
    obtain ⟨rfl, rfl⟩ := Prod.mk.inj heq
    obtain ⟨-, gap, sign, hg, rfl, hsign⟩ := mark?_eq_some_iff.1 hm
    refine ⟨sign, ⟨_, gap, isOptionalQuote_optionalQuote text, hg, ?_, rfl⟩, ?_⟩
    · exact hsign.imp_right And.left
    · rintro rfl
      rcases hsign with hsign | hsign
      · exact absurd hsign (by decide)
      · exact hsign.2
  · rintro ⟨rfl, sign, ⟨quote, gap, hq, hg, hs, rfl⟩, hnext⟩
    have hquote : optionalQuote (quote ++ (gap ++ sign :: rest)) = (quote, gap ++ sign :: rest) :=
      optionalQuote_append_eq hq (head?_gap_sign hg hs)
    have hmark : mark? (gap ++ sign :: rest) = some (gap ++ [sign], rest) := by
      rw [mark?_eq_some_iff]
      exact ⟨by simp, gap, sign, hg, rfl, hs.imp_right fun h => ⟨h, hnext h⟩⟩
    simp [keyEnd?, hquote, hmark]

/-- The end of a key does not begin with a name character. -/
theorem head?_keyEnd {close rest : Text} {sign : Char} (h : IsKeyEnd close sign) :
    (close ++ rest).head?.any isNameChar = false := by
  obtain ⟨quote, gap, hquote, hg, hs, rfl⟩ := h
  rcases hquote with rfl | ⟨q, hq, rfl⟩
  · cases gap with
    | nil =>
        rcases hs with rfl | rfl
        · exact (by decide : isNameChar ':' = false)
        · exact (by decide : isNameChar '=' = false)
    | cons c gap => exact isNameChar_of_isBlank (hg c List.mem_cons_self)
  · exact isNameChar_of_isQuote hq

/-- The end of a key is read in one way, unless its sign is the first half of a comparison. -/
theorem keyEnd_unique {close close' rest rest' : Text} {sign sign' : Char}
    (h : IsKeyEnd close sign) (h' : IsKeyEnd close' sign') (hnext : rest.head? ≠ some '=')
    (hnext' : rest'.head? ≠ some '=') (heq : close ++ rest = close' ++ rest') :
    close = close' ∧ rest = rest' := by
  have hread : keyEnd? (close ++ rest) = some (close, rest) :=
    keyEnd?_eq_some_iff.2 ⟨rfl, sign, h, fun _ => hnext⟩
  have hread' : keyEnd? (close' ++ rest') = some (close', rest') :=
    keyEnd?_eq_some_iff.2 ⟨rfl, sign', h', fun _ => hnext'⟩
  rw [heq, hread'] at hread
  obtain ⟨rfl, rfl⟩ := Prod.mk.inj (Option.some.inj hread)
  exact ⟨rfl, rfl⟩

/-- Whitespace and a quote do not begin with an equals sign. -/
theorem head?_gap_quote {gap rest : Text} {q : Char} (hg : IsGap gap) (hq : isQuote q = true) :
    (gap ++ q :: rest).head? ≠ some '=' := by
  intro heq
  cases gap with
  | nil =>
      obtain rfl : q = '=' := by simpa using heq
      exact absurd hq (by decide)
  | cons d gap =>
      obtain rfl : d = '=' := by simpa using heq
      exact absurd (hg '=' List.mem_cons_self) (by decide)

/-- A separator: whitespace around a sign. -/
def IsSeparator (separator : Text) : Prop :=
  ∃ left sign right, IsGap left ∧ (sign = ':' ∨ sign = '=') ∧ IsGap right ∧
    separator = left ++ sign :: right

/-- A separator takes all the whitespace around its sign. -/
theorem isSeparator_of_separator? {text separator rest : Text}
    (h : separator? text = some (separator, rest)) :
    IsSeparator separator ∧ rest.head?.any isBlank = false := by
  obtain ⟨⟨mark, following⟩, hm, heq⟩ := Option.map_eq_some_iff.1 h
  obtain ⟨rfl, rfl⟩ := Prod.mk.inj heq
  obtain ⟨-, gap, sign, hg, rfl, hsign⟩ := mark?_eq_some_iff.1 hm
  refine ⟨⟨gap, sign, blanks following, hg, hsign.imp_right And.left, isGap_blanks _, ?_⟩,
    head?_skipBlanks _⟩
  simp

/-- A separator is read exactly off whitespace around a sign that is not the first half of a
comparison. -/
theorem separator?_eq_some_iff {text separator rest : Text} :
    separator? text = some (separator, rest) ↔ text = separator ++ rest ∧
      rest.head?.any isBlank = false ∧ ∃ left sign right, IsGap left ∧ IsGap right ∧
        separator = left ++ sign :: right ∧
        (sign = ':' ∨ sign = '=' ∧ (right ++ rest).head? ≠ some '=') := by
  constructor
  · intro h
    refine ⟨separator?_eq_some h, (isSeparator_of_separator? h).2, ?_⟩
    obtain ⟨⟨mark, following⟩, hm, heq⟩ := Option.map_eq_some_iff.1 h
    obtain ⟨rfl, rfl⟩ := Prod.mk.inj heq
    obtain ⟨-, gap, sign, hg, rfl, hsign⟩ := mark?_eq_some_iff.1 hm
    refine ⟨gap, sign, blanks following, hg, isGap_blanks _, by simp, ?_⟩
    rw [blanks_append_skipBlanks]
    exact hsign
  · rintro ⟨rfl, hrest, left, sign, right, hl, hr, rfl, hsign⟩
    have hmark :
        mark? (left ++ sign :: (right ++ rest)) = some (left ++ [sign], right ++ rest) := by
      rw [mark?_eq_some_iff]
      exact ⟨by simp, left, sign, hl, rfl, hsign⟩
    rw [List.append_assoc, List.cons_append, separator?, hmark]
    simp [blanks_gap hr hrest, skipBlanks_stretch hr hrest]

/-- The characters of an optional quote belong to no name. -/
theorem isNameChar_optionalQuote {quote : Text} (h : IsOptionalQuote quote) :
    ∀ c ∈ quote, isNameChar c = false := by
  intro c hc
  rcases h with rfl | ⟨q, hq, rfl⟩
  · simp at hc
  · rw [List.mem_singleton.1 hc]
    exact isNameChar_of_isQuote hq

/-- The characters of the end of a key belong to no name. -/
theorem isNameChar_keyEnd {close : Text} {sign : Char} (h : IsKeyEnd close sign) :
    ∀ c ∈ close, isNameChar c = false := by
  obtain ⟨quote, gap, hquote, hg, hs, rfl⟩ := h
  intro c hc
  simp only [List.mem_append, List.mem_singleton] at hc
  rcases hc with hc | hc | rfl
  · rcases hquote with rfl | ⟨q, hq, rfl⟩
    · simp at hc
    · rw [List.mem_singleton.1 hc]
      exact isNameChar_of_isQuote hq
  · exact isNameChar_of_isBlank (hg c hc)
  · rcases hs with rfl | rfl <;> decide

/-- The characters of a separator belong to no name. -/
theorem isNameChar_separator {separator : Text} (h : IsSeparator separator) :
    ∀ c ∈ separator, isNameChar c = false := by
  obtain ⟨left, sign, right, hl, hs, hr, rfl⟩ := h
  intro c hc
  rcases List.mem_append.1 hc with hc | hc
  · exact isNameChar_of_isBlank (hl c hc)
  · rcases List.mem_cons.1 hc with rfl | hc
    · rcases hs with rfl | rfl <;> decide
    · exact isNameChar_of_isBlank (hr c hc)

/-- The quote around a key is a quote or nothing. -/
theorem isOptionalQuote_of_key? {name text quote rest : Text}
    (h : key? name text = some (quote, rest)) : IsOptionalQuote quote := by
  obtain ⟨following, -, heq⟩ := Option.map_eq_some_iff.1 h
  obtain ⟨rfl, rfl⟩ := Prod.mk.inj heq
  exact isOptionalQuote_optionalQuote text

/-- A key in its quotes is read off where it stands. -/
theorem key?_append {name quote : Text} (hquote : IsOptionalQuote quote) (hne : name ≠ [])
    (hname : name.head?.any isQuote = false) (rest : Text) :
    key? name (quote ++ (name ++ (quote ++ rest))) = some (quote, rest) := by
  have hhead : (name ++ (quote ++ rest)).head?.any isQuote = false := by
    obtain ⟨c, name, rfl⟩ := List.exists_cons_of_ne_nil hne
    exact hname
  have hafter : after? (name ++ quote) (name ++ (quote ++ rest)) = some rest := by
    rw [← List.append_assoc]
    exact after?_append _ rest
  simp only [key?, optionalQuote_append_eq hquote hhead, hafter, Option.map_some]

end Source

/-! ## Quoted names -/

namespace ModelMention

/-- A quoted name is found exactly where one of the names stands between two equal quotes. -/
theorem quotedName?_ne_none_iff {names : List Text} {text : Text} :
    quotedName? names text ≠ none ↔ ∃ quote name rest, isQuote quote = true ∧ name ∈ names ∧
      text = quote :: (name ++ quote :: rest) := by
  constructor
  · intro h
    cases text with
    | nil => exact absurd rfl h
    | cons quote text =>
        simp only [quotedName?] at h
        split at h
        · rename_i hq
          rw [ne_eq, Option.map_eq_none_iff] at h
          obtain ⟨name, hn⟩ := Option.ne_none_iff_exists'.1 h
          have hfound : (after? (name ++ [quote]) text).isSome := by
            simpa using List.find?_some hn
          obtain ⟨rest, hrest⟩ := Option.isSome_iff_exists.1 hfound
          refine ⟨quote, name, rest, hq, List.mem_of_find?_eq_some hn, ?_⟩
          rw [after?_eq_some_iff.1 hrest]
          simp
        · exact absurd rfl h
  · rintro ⟨quote, name, rest, hq, hname, rfl⟩ hnone
    simp only [quotedName?, hq, if_true, Option.map_eq_none_iff, List.find?_eq_none] at hnone
    refine hnone name hname ?_
    rw [Option.isSome_iff_exists]
    exact ⟨rest, by rw [after?_eq_some_iff]; simp⟩

end ModelMention

end SdkUpgrade
