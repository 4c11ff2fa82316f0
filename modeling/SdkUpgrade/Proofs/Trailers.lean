import SdkUpgrade.Proofs.Readers

/-!
# Trailers of names

Seven kinds of change look for a name and for what follows it: a parenthesis, an index and an
attribute, subscripts, the end of a key, a key with a quoted model. Such a continuation is a
`Trailer`. The question of this module is what happens to a trailer when some text is put into the
middle of it: `Opening` collects how the replacements of all rules begin, and `Trailer.Guarded`
says that no trailer can continue with such a text, except by ending at its first character.
-/

namespace SdkUpgrade

open Text Source

/-- What has to follow a name: the tails that may stand there, and the characters that may not
stand behind a tail. -/
structure Trailer where
  form : Text → Prop
  barred : Text → Char → Bool

namespace Trailer

/-- The trailer stands at the beginning of a text. -/
def Follows (trailer : Trailer) (rest : Text) : Prop :=
  ∃ tail more, rest = tail ++ more ∧ trailer.form tail ∧
    more.head?.any (trailer.barred tail) = false

/-- The parenthesis of a call. -/
def call : Trailer where
  form tail := ∃ gap, IsGap gap ∧ tail = gap ++ ['(']
  barred _ _ := false

/-- An index and the attribute `text`, which no word character may continue. -/
def choiceText : Trailer where
  form tail := ∃ index, IsIndex index ∧ tail = '[' :: (index ++ ']' :: '.' :: "text")
  barred _ c := isWord c

/-- The subscripts that lead to the text of a choice. -/
def subscripts : Trailer where
  form tail := ∃ first index second, isQuote first = true ∧ IsIndex index ∧
    isQuote second = true ∧ tail = '[' :: first :: ("choices" ++ first :: ']' :: '[' ::
      (index ++ ']' :: '[' :: second :: ("text" ++ [second, ']'])))
  barred _ _ := false

/-- The end of a key. -/
def key : Trailer where
  form tail := ∃ sign, IsKeyEnd tail sign
  barred tail c := tail.getLast? == some '=' && c == '='

/-- The end of a key with a short model name for its value. -/
def shortModel : Trailer where
  form tail := ∃ close sign gap quote name, IsKeyEnd close sign ∧ IsGap gap ∧
    isQuote quote = true ∧ name ∈ RetiredModel.shortNames ∧
    tail = close ++ (gap ++ quote :: (name ++ [quote]))
  barred _ _ := false

end Trailer

/-! ## How replacements begin -/

/-- The words that a trailer has in front of a quote. -/
def quotedWords : List Text :=
  "choices" :: "text" :: RetiredModel.shortNames

/-- How a text with a replacement at its beginning reads. Behind whitespace there is no
parenthesis, bracket, dot or sign. A word at the beginning is not closed by a bracket, nor
is it one of the words that a trailer has in front of a quote. A quote at the beginning
opens none of these words. -/
structure Opening (text : Text) : Prop where
  paren : text.head?.any isBlank = true → (skipBlanks text).head? ≠ some '('
  head : ∀ c ∈ ['[', '.', ':', '='], (skipBlanks text).head? ≠ some c
  index : (skipBlanks ((skipBlanks text).dropWhile isWord)).head? ≠ some ']'
  quoted : ∀ quote rest, isQuote quote = true → skipBlanks text = quote :: rest →
    (∃ c ∈ ['m', 'g', 'o', 'p', 'e'], rest.head? = some c) ∨ "text-" <+: rest
  word : ∀ word ∈ quotedWords, ∀ quote, isQuote quote = true → ¬ word ++ [quote] <+: text

/-- No text can be put into a trailer whose continuation would read as a replacement, except in
front of a last parenthesis or quote. The last premise says that no name character begins the text
where one stands in front of it; in front of the trailer there is always one. -/
def Trailer.Guarded (trailer : Trailer) : Prop :=
  ∀ first second text, trailer.form (first ++ second) → second ≠ [] → second <+: text →
    Opening text → (endsInName true first = true → text.head?.any isNameChar = false) →
    ∃ c, second = [c] ∧ (c = '(' ∨ isQuote c = true)

namespace Opening

variable {text : Text}

/-- A text that begins as replacements do has no index at its beginning, nor the end of one. -/
theorem not_index (h : Opening text) {left word right rest : Text} (hl : IsGap left)
    (hw : ∀ c ∈ word, isWord c = true) (hr : IsGap right) :
    ¬ left ++ (word ++ (right ++ ']' :: rest)) <+: text := by
  rintro ⟨more, rfl⟩
  refine h.index ?_
  have hbracket : ((']' :: rest) ++ more).head?.any isBlank = false :=
    (by decide : isBlank ']' = false)
  have hclose : skipBlanks (right ++ ((']' :: rest) ++ more)) = ']' :: (rest ++ more) :=
    skipBlanks_stretch hr hbracket
  have hbehind : (right ++ ((']' :: rest) ++ more)).head?.any isWord = false := by
    cases right with
    | nil => exact (by decide : isWord ']' = false)
    | cons c right => exact isWord_of_isBlank (hr c List.mem_cons_self)
  simp only [List.append_assoc]
  rw [skipBlanks_append hl]
  cases word with
  | nil =>
      rw [List.nil_append, hclose]
      rfl
  | cons c word =>
      have hc := hw c List.mem_cons_self
      have hself : skipBlanks (c :: word ++ (right ++ ((']' :: rest) ++ more))) =
          c :: word ++ (right ++ ((']' :: rest) ++ more)) :=
        skipBlanks_eq_self (isBlank_of_isNameChar (isNameChar_of_isWord hc))
      rw [hself, dropWhile_stretch hw hbehind, hclose]
      rfl

/-- Such a text does not begin with a closing bracket. -/
theorem not_bracket (h : Opening text) {rest : Text} : ¬ ']' :: rest <+: text :=
  h.not_index isGap_nil (fun _ hc => absurd hc List.not_mem_nil) isGap_nil

/-- Such a text begins with none of the characters that only trailers have. -/
theorem not_head (h : Opening text) {c : Char} {rest : Text} (hc : c ∈ ['[', '.', ':', '=']) :
    ¬ c :: rest <+: text := by
  rintro ⟨more, rfl⟩
  refine h.head c hc ?_
  have hblank : isBlank c = false := by
    simp only [List.mem_cons, List.not_mem_nil, or_false] at hc
    rcases hc with rfl | rfl | rfl | rfl <;> decide
  rw [skipBlanks_eq_self (by simpa using hblank)]
  rfl

/-- Behind whitespace there is no sign. -/
theorem not_sign (h : Opening text) {gap rest : Text} {sign : Char} (hg : IsGap gap)
    (hs : sign = ':' ∨ sign = '=') : ¬ gap ++ sign :: rest <+: text := by
  rintro ⟨more, rfl⟩
  have hblank : isBlank sign = false := by rcases hs with rfl | rfl <;> decide
  refine h.head sign (by rcases hs with rfl | rfl <;> simp) ?_
  rw [head?_skipBlanks_eq_some_iff hblank]
  exact ⟨gap, rest ++ more, hg, by simp⟩

/-- A quote, behind whitespace or not, opens one of a few texts. -/
theorem not_quoted (h : Opening text) {gap rest : Text} {quote c : Char} (hg : IsGap gap)
    (hq : isQuote quote = true) (hc : c ∉ ['m', 'g', 'o', 'p', 'e', 't']) :
    ¬ gap ++ quote :: c :: rest <+: text := by
  rintro ⟨more, rfl⟩
  have hskip : skipBlanks (gap ++ quote :: c :: rest ++ more) = quote :: c :: (rest ++ more) := by
    have hstop : (quote :: c :: (rest ++ more)).head?.any isBlank = false := by
      simpa using isBlank_of_isQuote hq
    simpa using skipBlanks_stretch hg hstop
  simp only [List.mem_cons, List.not_mem_nil, or_false, not_or] at hc
  rcases h.quoted quote _ hq hskip with ⟨d, hd, hhead⟩ | ⟨following, hf⟩
  · simp only [List.mem_cons, List.not_mem_nil, or_false] at hd
    have hcd : c = d := by simpa using hhead
    subst hcd
    rcases hd with rfl | rfl | rfl | rfl | rfl <;> simp at hc
  · have hct : c = 't' := by simpa using (congrArg List.head? hf).symm
    exact hc.2.2.2.2.2 hct

/-- A quote does not open the word that subscripts end with. -/
theorem not_quoted_text (h : Opening text) {rest : Text} {quote close : Char}
    (hq : isQuote quote = true) (hc : isQuote close = true) :
    ¬ quote :: ("text" ++ close :: rest) <+: text := by
  rintro ⟨more, rfl⟩
  have hskip : skipBlanks (quote :: ("text" ++ close :: rest) ++ more) =
      quote :: ("text" ++ close :: (rest ++ more)) := by
    rw [skipBlanks_eq_self (by simpa using isBlank_of_isQuote hq)]
    simp
  rcases h.quoted quote _ hq hskip with ⟨d, hd, hhead⟩ | ⟨following, hf⟩
  · have hdt : 't' = d := by simpa using hhead
    subst hdt
    simp at hd
  · have hdash : '-' = close := by simpa using congrArg (fun text => (text.drop 4).head?) hf
    subst hdash
    exact absurd hc (by decide)

end Opening

/-! ## The trailers are guarded -/

section Splitting

variable {first second : Text}

/-- A cut through two stretches is in the first one or behind it. -/
theorem split_append {left right : Text} (h : first ++ second = left ++ right) :
    (∃ rest, rest ≠ [] ∧ left = first ++ rest ∧ second = rest ++ right) ∨
      ∃ more, first = left ++ more ∧ more ++ second = right := by
  rcases List.append_eq_append_iff.1 h with ⟨rest, hl, hs⟩ | ⟨more, hf, hr⟩
  · cases rest with
    | nil => exact .inr ⟨[], by simpa using hl.symm, by simpa using hs⟩
    | cons c rest => exact .inl ⟨c :: rest, by simp, hl, hs⟩
  · exact .inr ⟨more, hf, hr.symm⟩

/-- A cut through a text is in front of its first character or behind it. -/
theorem split_cons {c : Char} {right : Text} (h : first ++ second = c :: right) :
    (first = [] ∧ second = c :: right) ∨ ∃ more, first = c :: more ∧ more ++ second = right := by
  cases first with
  | nil => exact .inl ⟨rfl, h⟩
  | cons d first =>
      obtain ⟨rfl, hrest⟩ := List.cons.inj h
      exact .inr ⟨first, rfl, hrest⟩

/-- No replacement begins inside a word. -/
theorem not_inside_word {text before left right : Text}
    (hedge : endsInName true (before ++ left) = true → text.head?.any isNameChar = false)
    (hword : ∀ c ∈ left ++ right, isNameChar c = true) (hl : left ≠ []) (hr : right ≠ []) :
    ¬ right <+: text := by
  rintro ⟨more, rfl⟩
  obtain ⟨c, right, rfl⟩ := List.exists_cons_of_ne_nil hr
  have hc : isNameChar c = true := hword c (by simp)
  have hend : endsInName true (before ++ left) = true := by
    have hlast := List.getLast?_eq_some_getLast hl
    rw [endsInName, List.getLast?_append, hlast]
    exact hword _ (List.mem_append_left _ (List.getLast_mem hl))
  have hhead := hedge hend
  simp [hc] at hhead

end Splitting

namespace Trailer

theorem guarded_call : call.Guarded := by
  rintro first second text ⟨gap, hg, htail⟩ hne hp hopen -
  rcases split_append htail with ⟨rest, hrest, rfl, rfl⟩ | ⟨more, rfl, hmore⟩
  · exfalso
    obtain ⟨tail, rfl⟩ := hp
    have hgap : IsGap rest := fun c hc => hg c (List.mem_append_right _ hc)
    refine hopen.paren ?_ ?_
    · obtain ⟨c, rest, rfl⟩ := List.exists_cons_of_ne_nil hrest
      simpa using hgap c List.mem_cons_self
    · rw [head?_skipBlanks_eq_some_iff (by decide)]
      exact ⟨rest, tail, hgap, by simp⟩
  · rcases split_cons hmore with ⟨-, rfl⟩ | ⟨_, -, hnil⟩
    · exact ⟨'(', rfl, .inl rfl⟩
    · exact absurd (List.append_eq_nil_iff.1 hnil).2 hne

/-- An index with its closing bracket cannot be continued by a replacement. -/
theorem not_inside_index {first second index rest text : Text} (hindex : IsIndex index)
    (hsplit : first ++ second = index ++ ']' :: rest) (hp : second <+: text)
    (hopen : Opening text) : ∃ more, first = index ++ ']' :: more ∧ more ++ second = rest := by
  obtain ⟨left, word, right, hl, -, hw, hr, rfl⟩ := hindex
  simp only [List.append_assoc] at hsplit ⊢
  have hempty : ∀ c ∈ ([] : Text), isWord c = true := fun c hc => absurd hc (by simp)
  rcases split_append hsplit with ⟨left', -, rfl, rfl⟩ | ⟨inWord, rfl, hword⟩
  · have hl' : IsGap left' := fun c hc => hl c (List.mem_append_right _ hc)
    exact absurd hp (hopen.not_index hl' hw hr)
  rcases split_append hword with ⟨word', -, rfl, rfl⟩ | ⟨inRight, rfl, hright⟩
  · have hw' : ∀ c ∈ word', isWord c = true := fun c hc => hw c (List.mem_append_right _ hc)
    exact absurd hp (hopen.not_index isGap_nil hw' hr)
  rcases split_append hright with ⟨right', -, rfl, rfl⟩ | ⟨inClose, rfl, hclose⟩
  · have hr' : IsGap right' := fun c hc => hr c (List.mem_append_right _ hc)
    exact absurd hp (hopen.not_index isGap_nil hempty hr')
  rcases split_cons hclose with ⟨rfl, rfl⟩ | ⟨more, rfl, hmore⟩
  · exact absurd hp (hopen.not_index isGap_nil hempty isGap_nil)
  · exact ⟨more, rfl, hmore⟩

theorem guarded_choiceText : choiceText.Guarded := by
  rintro first second text ⟨index, hindex, htail⟩ hne hp hopen hedge
  exfalso
  rcases split_cons htail with ⟨rfl, rfl⟩ | ⟨inIndex, rfl, hinIndex⟩
  · exact hopen.not_head (by simp) hp
  obtain ⟨inDot, rfl, hinDot⟩ := not_inside_index hindex hinIndex hp hopen
  rcases split_cons hinDot with ⟨rfl, rfl⟩ | ⟨more, rfl, hmore⟩
  · exact hopen.not_head (by simp) hp
  -- What is left of the tail is the end of a word behind a dot.
  have hword : ∀ c ∈ '.' :: more ++ second, isNameChar c = true := by
    rw [List.cons_append, hmore]
    exact List.all_eq_true.1 (by decide)
  have hedge' : endsInName true (('[' :: (index ++ [']'])) ++ '.' :: more) = true →
      text.head?.any isNameChar = false := by simpa using hedge
  exact not_inside_word hedge' hword (by simp) hne hp

/-- A word in front of a quote cannot be continued by a replacement. -/
theorem not_inside_quotedWord {before first second word rest text : Text} {quote : Char}
    (hword : word ∈ quotedWords) (hq : isQuote quote = true)
    (hsplit : first ++ second = word ++ quote :: rest) (hp : second <+: text)
    (hopen : Opening text)
    (hedge : endsInName true (before ++ first) = true → text.head?.any isNameChar = false) :
    ∃ more, first = word ++ more ∧ more ++ second = quote :: rest := by
  have hname : ∀ word ∈ quotedWords, word.all isNameChar = true := by decide
  rcases split_append hsplit with ⟨word', hne, rfl, rfl⟩ | hbehind
  · exfalso
    cases hf : first with
    | nil =>
        refine hopen.word word' (by simpa [hf] using hword) quote hq ?_
        exact List.IsPrefix.trans ⟨rest, by simp⟩ hp
    | cons c cs =>
        have hword' := (List.prefix_append word' (quote :: rest)).trans hp
        exact not_inside_word hedge (List.all_eq_true.1 (hname _ hword)) (by simp [hf]) hne hword'
  · exact hbehind

theorem guarded_subscripts : subscripts.Guarded := by
  rintro first second text ⟨q, index, q', hq, hindex, hq', htail⟩ hne hp hopen hedge
  exfalso
  rcases split_cons htail with ⟨rfl, rfl⟩ | ⟨f₁, rfl, h₁⟩
  · exact hopen.not_head (by simp) hp
  rcases split_cons h₁ with ⟨rfl, rfl⟩ | ⟨f₂, rfl, h₂⟩
  · exact hopen.not_quoted isGap_nil hq (by decide) hp
  obtain ⟨f₃, rfl, h₃⟩ :=
    @not_inside_quotedWord ['[', q] _ _ _ _ _ _ (by decide) hq h₂ hp hopen hedge
  rcases split_cons h₃ with ⟨rfl, rfl⟩ | ⟨f₄, rfl, h₄⟩
  · exact hopen.not_quoted isGap_nil hq (by decide) hp
  rcases split_cons h₄ with ⟨rfl, rfl⟩ | ⟨f₅, rfl, h₅⟩
  · exact hopen.not_bracket hp
  rcases split_cons h₅ with ⟨rfl, rfl⟩ | ⟨f₆, rfl, h₆⟩
  · exact hopen.not_head (by simp) hp
  obtain ⟨f₇, rfl, h₇⟩ := not_inside_index hindex h₆ hp hopen
  rcases split_cons h₇ with ⟨rfl, rfl⟩ | ⟨f₈, rfl, h₈⟩
  · exact hopen.not_head (by simp) hp
  rcases split_cons h₈ with ⟨rfl, rfl⟩ | ⟨f₉, rfl, h₉⟩
  · exact hopen.not_quoted_text hq' hq' hp
  have hedge' : endsInName true (('[' :: q :: ("choices" ++ q :: ']' :: '[' ::
      (index ++ [']', '[', q']))) ++ f₉) = true → text.head?.any isNameChar = false := by
    simpa using hedge
  obtain ⟨f₁₀, rfl, h₁₀⟩ := not_inside_quotedWord (by decide) hq' h₉ hp hopen hedge'
  rcases split_cons h₁₀ with ⟨rfl, rfl⟩ | ⟨f₁₁, rfl, h₁₁⟩
  · exact hopen.not_quoted isGap_nil hq' (by decide) hp
  rcases split_cons h₁₁ with ⟨rfl, rfl⟩ | ⟨f₁₂, rfl, h₁₂⟩
  · exact hopen.not_bracket hp
  exact hne (List.append_eq_nil_iff.1 h₁₂).2

/-- The end of a key cannot be continued by a replacement. -/
theorem not_inside_keyEnd {first second close rest text : Text} {sign : Char}
    (hclose : IsKeyEnd close sign) (hsplit : first ++ second = close ++ rest)
    (hp : second <+: text) (hopen : Opening text) :
    ∃ more, first = close ++ more ∧ more ++ second = rest := by
  obtain ⟨quote, gap, hquote, hg, hs, rfl⟩ := hclose
  simp only [List.append_assoc, List.singleton_append] at hsplit ⊢
  -- Behind the optional quote there is whitespace and the sign.
  have hbehind : ∀ {before : Text}, before ++ second = gap ++ sign :: rest →
      ∃ more, before = gap ++ sign :: more ∧ more ++ second = rest := by
    intro before hb
    rcases split_append hb with ⟨gap', -, rfl, rfl⟩ | ⟨inSign, rfl, hinSign⟩
    · have hg' : IsGap gap' := fun c hc => hg c (List.mem_append_right _ hc)
      exact absurd hp (hopen.not_sign hg' hs)
    rcases split_cons hinSign with ⟨rfl, rfl⟩ | ⟨more, rfl, hmore⟩
    · exact absurd hp (hopen.not_head (by rcases hs with rfl | rfl <;> simp))
    · exact ⟨more, rfl, hmore⟩
  rcases hquote with rfl | ⟨q, hq, rfl⟩
  · exact hbehind hsplit
  rcases split_cons hsplit with ⟨rfl, rfl⟩ | ⟨before, rfl, hb⟩
  · exfalso
    cases gap with
    | nil =>
        refine hopen.not_quoted isGap_nil hq ?_ hp
        rcases hs with rfl | rfl <;> decide
    | cons c gap =>
        refine hopen.not_quoted isGap_nil hq ?_ hp
        intro hc
        have hblank := hg c List.mem_cons_self
        simp only [List.mem_cons, List.not_mem_nil, or_false] at hc
        rcases hc with rfl | rfl | rfl | rfl | rfl | rfl <;> exact absurd hblank (by decide)
  · obtain ⟨more, rfl, hmore⟩ := hbehind hb
    exact ⟨more, rfl, hmore⟩

theorem guarded_key : key.Guarded := by
  rintro first second text ⟨sign, hclose⟩ hne hp hopen -
  have hsplit : first ++ second = first ++ second ++ [] := (List.append_nil _).symm
  obtain ⟨more, -, hmore⟩ := not_inside_keyEnd hclose hsplit hp hopen
  exact absurd (List.append_eq_nil_iff.1 hmore).2 hne

theorem guarded_shortModel : shortModel.Guarded := by
  rintro first second text ⟨close, sign, gap, q, name, hclose, hg, hq, hname, htail⟩ hne hp hopen
    hedge
  obtain ⟨inGap, rfl, hinGap⟩ := not_inside_keyEnd hclose htail hp hopen
  have hinitial : ∀ name ∈ RetiredModel.shortNames, ∃ c rest, name = c :: rest ∧
      c ∉ ['m', 'g', 'o', 'p', 'e', 't'] := by
    intro name hmem
    simp only [RetiredModel.shortNames, List.mem_cons, List.not_mem_nil, or_false] at hmem
    rcases hmem with rfl | rfl | rfl | rfl <;> exact ⟨_, _, rfl, by decide⟩
  obtain ⟨c, rest, rfl, hc⟩ := hinitial name hname
  rcases split_append hinGap with ⟨gap', -, rfl, rfl⟩ | ⟨inQuote, rfl, hinQuote⟩
  · have hg' : IsGap gap' := fun c hc => hg c (List.mem_append_right _ hc)
    exact absurd hp (hopen.not_quoted hg' hq hc)
  rcases split_cons hinQuote with ⟨rfl, rfl⟩ | ⟨inName, rfl, hinName⟩
  · exact absurd hp (hopen.not_quoted isGap_nil hq hc)
  have hedge' : endsInName true ((close ++ (gap ++ [q])) ++ inName) = true →
      text.head?.any isNameChar = false := by simpa using hedge
  obtain ⟨more, rfl, hmore⟩ := not_inside_quotedWord
    (List.mem_cons_of_mem _ (List.mem_cons_of_mem _ hname)) hq hinName hp hopen hedge'
  rcases split_cons hmore with ⟨-, rfl⟩ | ⟨_, -, hnil⟩
  · exact ⟨q, rfl, .inr hq⟩
  · exact absurd (List.append_eq_nil_iff.1 hnil).2 hne

/-- What the trailers have in common. They are guarded, they have no closing brace and do not end
in whitespace. Only an equals sign or the continuation of a word can be barred, and nothing is
behind a last parenthesis or quote. -/
structure Sound (trailer : Trailer) : Prop where
  guarded : trailer.Guarded
  barred : ∀ {tail : Text} {c : Char}, trailer.form tail → trailer.barred tail c = true →
    c = '=' ∨ isNameChar c = true ∧ endsInName true tail = true
  closed : ∀ {tail : Text} {c d : Char}, trailer.form (tail ++ [c]) →
    c = '(' ∨ isQuote c = true → trailer.barred (tail ++ [c]) d = false
  brace : ∀ {tail : Text}, trailer.form tail → '\x7d' ∉ tail
  solid : ∀ {tail : Text}, trailer.form tail → ∃ c, tail.getLast? = some c ∧ isBlank c = false

/-- There is no brace in whitespace. -/
theorem brace_notMem_gap {gap : Text} (hg : IsGap gap) : '\x7d' ∉ gap :=
  fun hmem => absurd (hg _ hmem) (by decide)

/-- There is no brace in an index. -/
theorem brace_notMem_index {index : Text} (h : IsIndex index) : '\x7d' ∉ index := by
  obtain ⟨left, word, right, hl, -, hw, hr, rfl⟩ := h
  have hword : '\x7d' ∉ word := fun hmem => absurd (hw _ hmem) (by decide)
  simp [brace_notMem_gap hl, hword, brace_notMem_gap hr]

/-- There is no brace in the end of a key. -/
theorem brace_notMem_keyEnd {close : Text} {sign : Char} (h : IsKeyEnd close sign) :
    '\x7d' ∉ close := by
  obtain ⟨quote, gap, hquote, hg, hs, rfl⟩ := h
  have hq : '\x7d' ∉ quote := by
    rcases hquote with rfl | ⟨q, hq, rfl⟩
    · simp
    · rcases isQuote_iff.1 hq with rfl | rfl <;> decide
  rcases hs with rfl | rfl <;> simp [hq, brace_notMem_gap hg]

theorem sound_call : call.Sound where
  guarded := guarded_call
  barred _ h := absurd h (by simp [call])
  closed _ _ := rfl
  brace := by
    rintro tail ⟨gap, hg, rfl⟩
    simp [brace_notMem_gap hg]
  solid := by
    rintro tail ⟨gap, hg, rfl⟩
    exact ⟨'(', by simp, by decide⟩

theorem sound_choiceText : choiceText.Sound where
  guarded := guarded_choiceText
  barred := by
    rintro tail c ⟨index, -, rfl⟩ hc
    exact .inr ⟨isNameChar_of_isWord hc, by simp [endsInName, List.getLast?_cons]; decide⟩
  closed := by
    rintro tail c d ⟨index, -, htail⟩ hc
    have hlast : c = 't' := by
      have h := congrArg List.getLast? htail
      simpa [List.getLast?_cons] using h
    subst hlast
    exact absurd hc (by decide)
  brace := by
    rintro tail ⟨index, hindex, rfl⟩
    simp [brace_notMem_index hindex]
  solid := by
    rintro tail ⟨index, -, rfl⟩
    exact ⟨'t', by simp [List.getLast?_cons], by decide⟩

theorem sound_subscripts : subscripts.Sound where
  guarded := guarded_subscripts
  barred _ h := absurd h (by simp [subscripts])
  closed _ _ := rfl
  brace := by
    rintro tail ⟨q, index, q', hq, hindex, hq', rfl⟩
    rcases isQuote_iff.1 hq with rfl | rfl <;> rcases isQuote_iff.1 hq' with rfl | rfl <;>
      simp [brace_notMem_index hindex]
  solid := by
    rintro tail ⟨q, index, q', hq, hindex, hq', rfl⟩
    exact ⟨']', by simp [List.getLast?_cons], by decide⟩

theorem sound_key : key.Sound where
  guarded := guarded_key
  barred := by
    rintro tail c - hc
    simp only [key, Bool.and_eq_true, beq_iff_eq] at hc
    exact .inl hc.2
  closed := by
    rintro tail c d - hc
    have hne : c ≠ '=' := by
      rintro rfl
      exact absurd hc (by decide)
    simp [key, hne]
  brace := by
    rintro tail ⟨sign, hclose⟩
    exact brace_notMem_keyEnd hclose
  solid := by
    rintro tail ⟨sign, quote, gap, -, -, hs, rfl⟩
    exact ⟨sign, by simp, by rcases hs with rfl | rfl <;> decide⟩

theorem sound_shortModel : shortModel.Sound where
  guarded := guarded_shortModel
  barred _ h := absurd h (by simp [shortModel])
  closed _ _ := rfl
  brace := by
    rintro tail ⟨close, sign, gap, q, name, hclose, hg, hq, hname, rfl⟩
    have hbrace : ∀ name ∈ RetiredModel.shortNames, '\x7d' ∉ name := by decide
    rcases isQuote_iff.1 hq with rfl | rfl <;>
      simp [brace_notMem_keyEnd hclose, brace_notMem_gap hg, hbrace name hname]
  solid := by
    rintro tail ⟨close, sign, gap, q, name, hclose, hg, hq, hname, rfl⟩
    exact ⟨q, by simp [List.getLast?_cons], isBlank_of_isQuote hq⟩

end Trailer

end SdkUpgrade
