import SdkUpgrade.Proofs.Trailers
import SdkUpgrade.Rule.Prompt

/-!
# What each rule takes

For every rule, what its answer says about the text: which characters stand at the place, in front
of it and behind what was taken. The rules that look for a name answer exactly where a name of
their form stands in front of their trailer; for these the statements are equivalences, so that
they also say where the rule is silent.
-/

namespace SdkUpgrade

open Text Source

/-! ## Calls -/

/-- The trailer of a call is a parenthesis behind whitespace. -/
theorem Trailer.follows_call_iff {rest : Text} :
    Trailer.call.Follows rest ↔ ∃ gap more, IsGap gap ∧ rest = gap ++ '(' :: more := by
  constructor
  · rintro ⟨tail, more, rfl, ⟨gap, hg, rfl⟩, -⟩
    exact ⟨gap, more, hg, by simp⟩
  · rintro ⟨gap, more, hg, rfl⟩
    exact ⟨gap ++ ['('], more, by simp, ⟨gap, hg, rfl⟩, by simp [Trailer.call]⟩

/-! ## Access paths -/

namespace ChoiceAccess

/-- An access by attributes stands at a place exactly if a name that ends in `choices` does, with
an index and the attribute `text` behind it. -/
theorem attributesAt?_eq_some_iff {c : Cursor} {access : ChoiceAccess} :
    attributesAt? c = some access ↔ access.form = .attributes ∧ access.receiver ≠ [] ∧
      IsIndex access.index ∧ ∃ more, more.head?.any isWord = false ∧
        dottedName? c = some (access.receiver ++ ".choices",
          '[' :: (access.index ++ ']' :: '.' :: ("text" ++ more))) := by
  constructor
  · intro h
    unfold attributesAt? at h
    split at h
    · simp at h
    · rename_i name rest hd
      split at h
      · rename_i receiver index behind hr hi
        split at h
        · rename_i more hm
          split at h
          · rename_i hcond
            obtain rfl := Option.some.inj h
            obtain ⟨hindex, rfl⟩ := index?_eq_some_iff.1 hi
            obtain rfl := before?_eq_some_iff.1 hr
            obtain rfl := after?_eq_some_iff.1 hm
            exact ⟨rfl, hcond.1, hindex, more, hcond.2, hd⟩
          · simp at h
        · simp at h
      · simp at h
  · rintro ⟨hform, hne, hindex, more, hmore, hd⟩
    have hname : before? ".choices" (access.receiver ++ ".choices") = some access.receiver :=
      before?_eq_some_iff.2 rfl
    have hi : index? ('[' :: (access.index ++ ']' :: '.' :: ("text" ++ more))) =
        some (access.index, '.' :: ("text" ++ more)) :=
      index?_eq_some_iff.2 ⟨hindex, rfl⟩
    have htext : after? ".text" ('.' :: ("text" ++ more)) = some more :=
      after?_eq_some_iff.2 rfl
    obtain ⟨receiver, form, index⟩ := access
    subst hform
    unfold attributesAt?
    rw [hd]
    simp only [hname, hi, htext]
    rw [if_pos ⟨hne, hmore⟩]

/-- An access by subscripts stands at a place exactly if a name does, with the two quoted keys and
an index between them behind it. -/
theorem subscriptsAt?_eq_some_iff {c : Cursor} {access : ChoiceAccess} :
    subscriptsAt? c = some access ↔ IsIndex access.index ∧ ∃ q q' more, isQuote q = true ∧
      isQuote q' = true ∧ access.form = .subscripts q q' ∧
        dottedName? c = some (access.receiver, '[' :: q :: ("choices" ++ q :: ']' :: '[' ::
          (access.index ++ ']' :: '[' :: q' :: ("text" ++ q' :: ']' :: more)))) := by
  constructor
  · intro h
    unfold subscriptsAt? at h
    split at h
    · simp at h
    · rename_i receiver rest hd
      split at h
      · simp at h
      · rename_i q inner hq
        split at h
        · simp at h
        · rename_i index behind hi
          obtain ⟨⟨q', more⟩, hs, rfl⟩ := Option.map_eq_some_iff.1 h
          obtain ⟨hfirst, rfl⟩ := quotedKey?_eq_some_iff.1 hq
          obtain ⟨hindex, rfl⟩ := index?_eq_some_iff.1 hi
          obtain ⟨hsecond, rfl⟩ := quotedKey?_eq_some_iff.1 hs
          exact ⟨hindex, q, q', more, hfirst, hsecond, rfl, hd⟩
  · rintro ⟨hindex, q, q', more, hq, hq', hform, hd⟩
    obtain ⟨receiver, form, index⟩ := access
    subst hform
    unfold subscriptsAt?
    rw [hd]
    simp only [quotedKey?_eq_some_iff.2 ⟨hq, rfl⟩, index?_eq_some_iff.2 ⟨hindex, rfl⟩,
      quotedKey?_eq_some_iff.2 ⟨hq', rfl⟩, Option.map_some]

end ChoiceAccess

/-! ## Model names -/

/-- The names that count as models are registered. -/
theorem RetiredModel.mem_registry {model : Text} (h : model ∈ longNames ∨ model ∈ shortNames) :
    model ∈ registry.map name := by
  have hshort : ∀ model ∈ shortNames, model ∈ registry.map name := by decide
  exact h.elim (fun hlong => (List.mem_filter.1 hlong).1) (hshort model)

namespace ModelMention

/-- A quoted name stands in quotes. -/
theorem isQuote_of_quotedName? {names : List Text} {text name : Text} {quote : Char}
    (h : quotedName? names text = some (quote, name)) : isQuote quote = true := by
  cases text with
  | nil => simp [quotedName?] at h
  | cons first rest =>
      simp only [quotedName?] at h
      split at h
      · rename_i hquote
        obtain ⟨found, -, heq⟩ := Option.map_eq_some_iff.1 h
        obtain ⟨rfl, rfl⟩ := Prod.mk.inj heq
        exact hquote
      · simp at h

/-- A long name stands between two equal quotes at the place. -/
theorem of_longAt?_eq_some {c : Cursor} {mention : ModelMention} (h : longAt? c = some mention) :
    mention.lead = [] ∧ isQuote mention.quote = true ∧
      mention.model ∈ RetiredModel.longNames := by
  obtain ⟨⟨quote, name⟩, hq, rfl⟩ := Option.map_eq_some_iff.1 h
  exact ⟨rfl, isQuote_of_quotedName? hq, (quotedName?_eq_some hq).1⟩

/-- The keys of short names are words that begin as names do. -/
theorem keys_words : ∀ key ∈ keys, key.head?.any isNameStart = true ∧
    ∀ c ∈ key, isNameChar c = true := by
  have hkeys : ∀ key ∈ keys, key.head?.any isNameStart = true ∧ key.all isNameChar = true := by
    decide
  exact fun key hkey => (hkeys key hkey).imp_right List.all_eq_true.1

/-- A key of short names is read off where it stands. -/
theorem afterAny?_keys {name : Text} (hname : name ∈ keys) (rest : Text) :
    afterAny? keys (name ++ rest) = some (name, rest) := by
  simp only [keys, List.mem_cons, List.not_mem_nil, or_false] at hname
  rcases hname with rfl | rfl
  · simp [afterAny?, keys, after?]
  · simp [afterAny?, keys, after?]

/-- A short name stands behind one of its keys and the end of the key. -/
theorem of_shortAt?_eq_some {c : Cursor} {mention : ModelMention}
    (h : shortAt? c = some mention) :
    mention.model ∈ RetiredModel.shortNames ∧ isQuote mention.quote = true ∧
      ∃ key close sign gap more, key ∈ keys ∧ IsKeyEnd close sign ∧ IsGap gap ∧
        mention.lead = key ++ close ++ gap ∧ dottedName? c = some (key,
          close ++ (gap ++ mention.quote :: (mention.model ++ mention.quote :: more))) := by
  obtain ⟨before, after⟩ := c
  unfold shortAt? at h
  split at h
  · simp at h
  · rename_i hbefore
    split at h
    · simp at h
    · rename_i key rest hk
      split at h
      · simp at h
      · rename_i close behind hm
        obtain ⟨⟨quote, name⟩, hq, rfl⟩ := Option.map_eq_some_iff.1 h
        obtain ⟨hkey, rfl⟩ := afterAny?_eq_some hk
        obtain ⟨rfl, sign, hclose, -⟩ := keyEnd?_eq_some_iff.1 hm
        obtain ⟨hname, more, hmore⟩ := quotedName?_eq_some hq
        have hbehind := blanks_append_skipBlanks behind
        rw [← hmore] at hbehind
        refine ⟨hname, isQuote_of_quotedName? hq, key, close, sign, blanks behind, more,
          hkey, hclose, isGap_blanks behind, rfl, ?_⟩
        have hrest : close ++ behind =
            close ++ (blanks behind ++ quote :: (name ++ quote :: more)) := by
          conv => lhs; rw [← hbehind]
          simp
        have hword : key.head?.any isNameStart = true ∧ ∀ c ∈ key, isNameChar c = true :=
          keys_words key hkey
        rw [← hrest]
        exact dottedName?_word (by simpa [Cursor.follows] using hbefore) hword.1 hword.2
          (head?_keyEnd hclose)

/-- A short name is found exactly where a key of short names is a name with its trailer behind
it. -/
theorem shortAt?_ne_none_iff {c : Cursor} : shortAt? c ≠ none ↔
    ∃ name rest, dottedName? c = some (name, rest) ∧ name ∈ keys ∧
      Trailer.shortModel.Follows rest := by
  obtain ⟨before, after⟩ := c
  constructor
  · intro h
    obtain ⟨mention, hm⟩ := Option.ne_none_iff_exists'.1 h
    obtain ⟨hmodel, hq, key, close, sign, gap, more, hkey, hclose, hg, -, hd⟩ :=
      of_shortAt?_eq_some hm
    refine ⟨key, _, hd, hkey,
      close ++ (gap ++ mention.quote :: (mention.model ++ [mention.quote])), more, by simp,
      ⟨close, sign, gap, _, _, hclose, hg, hq, hmodel, rfl⟩, ?_⟩
    simp [Trailer.shortModel]
  · rintro ⟨key, rest, hd, hkey, tail, more, rfl,
      ⟨close, sign, gap, q, name, hclose, hg, hq, hname, rfl⟩, -⟩
    obtain ⟨hbefore, rfl, -⟩ := dottedName?_eq_some_iff.1 hd
    have hafter := afterAny?_keys hkey (close ++ (gap ++ q :: (name ++ q :: more)))
    have hend : keyEnd? (close ++ (gap ++ q :: (name ++ q :: more))) =
        some (close, gap ++ q :: (name ++ q :: more)) :=
      keyEnd?_eq_some_iff.2 ⟨rfl, sign, hclose, fun _ => head?_gap_quote hg hq⟩
    have hskip : skipBlanks (gap ++ q :: (name ++ q :: more)) = q :: (name ++ q :: more) :=
      skipBlanks_stretch hg (by simpa using isBlank_of_isQuote hq)
    have hquoted : quotedName? RetiredModel.shortNames (q :: (name ++ q :: more)) ≠ none :=
      quotedName?_ne_none_iff.2 ⟨q, name, more, hq, hname, rfl⟩
    simpa [shortAt?, Cursor.follows, hbefore, hafter, hend, hskip] using hquoted

end ModelMention

/-! ## The token limit -/

/-- The trailer of a key is there exactly if the end of a key can be read. -/
theorem Trailer.follows_key_iff {rest : Text} :
    Trailer.key.Follows rest ↔ (keyEnd? rest).isSome = true := by
  have hlast : ∀ {close : Text} {sign : Char}, IsKeyEnd close sign →
      close.getLast? = some sign := by
    rintro close sign ⟨quote, gap, -, -, -, rfl⟩
    simp
  constructor
  · rintro ⟨close, more, rfl, ⟨sign, hclose⟩, hmore⟩
    rw [Option.isSome_iff_exists]
    refine ⟨(close, more), keyEnd?_eq_some_iff.2 ⟨rfl, sign, hclose, ?_⟩⟩
    rintro rfl hhead
    simp [Trailer.key, hlast hclose, hhead] at hmore
  · intro h
    obtain ⟨⟨close, more⟩, hend⟩ := Option.isSome_iff_exists.1 h
    obtain ⟨rfl, sign, hclose, hnext⟩ := keyEnd?_eq_some_iff.1 hend
    refine ⟨close, more, rfl, ⟨sign, hclose⟩, ?_⟩
    cases hm : more.head? with
    | none => rfl
    | some d =>
        by_cases hs : sign = '='
        · have hd : d ≠ '=' := fun heq => hnext hs (by rw [hm, heq])
          simp [Trailer.key, hd]
        · simp [Trailer.key, hlast hclose, hs]

/-- A token limit is found exactly where its name stands in front of the end of a key. -/
theorem tokenLimitHit?_ne_none_iff {c : Cursor} : tokenLimitHit? c ≠ none ↔
    ∃ name rest, dottedName? c = some (name, rest) ∧ name = tokenLimitName ∧
      Trailer.key.Follows rest := by
  obtain ⟨before, after⟩ := c
  constructor
  · intro h
    unfold tokenLimitHit? at h
    split at h
    · simp at h
    · rename_i hbefore
      split at h
      · rename_i rest hr
        split at h
        · rename_i hend
          obtain rfl := after?_eq_some_iff.1 hr
          have hfollows := Trailer.follows_key_iff.2 hend
          obtain ⟨close, more, rfl, ⟨sign, hclose⟩, -⟩ := hfollows
          refine ⟨tokenLimitName, close ++ more, ?_, rfl, Trailer.follows_key_iff.2 hend⟩
          exact dottedName?_word (by simpa [Cursor.follows] using hbefore) (by decide)
            (List.all_eq_true.1 (by decide)) (head?_keyEnd hclose)
        · simp at h
      · simp at h
  · rintro ⟨name, rest, hd, rfl, hfollows⟩
    obtain ⟨hbefore, rfl, -⟩ := dottedName?_eq_some_iff.1 hd
    simp [tokenLimitHit?, Cursor.follows, hbefore, Trailer.follows_key_iff.1 hfollows]

/-! ## Prompts -/

namespace Source

/-- A literal is delimited by one quote or by three equal ones. -/
def IsDelimiter (delimiter : Text) : Prop :=
  ∃ q, isQuote q = true ∧ (delimiter = [q] ∨ delimiter = [q, q, q])

/-- What is read as a literal is delimited like one. -/
theorem Literal.isDelimiter_of_read? {text rest : Text} {literal : Literal}
    (h : read? text = some (literal, rest)) : IsDelimiter literal.delimiter := by
  cases text with
  | nil => simp [read?] at h
  | cons q text =>
      simp only [read?] at h
      split at h
      · rename_i hq
        split at h
        · rename_i long hl
          obtain rfl := Option.some.inj h
          exact ⟨q, hq, .inr (between?_eq_some hl).1⟩
        · exact ⟨q, hq, .inl (between?_eq_some h).1⟩
      · simp at h

end Source

namespace PromptArgument

/-- A prompt consists of a key in its quotes, a separator and a literal, and it
does not continue a word. -/
theorem of_at?_eq_some {c : Cursor} {prompt : PromptArgument} (h : at? c = some prompt) :
    c.follows joinsKey = false ∧ IsOptionalQuote prompt.keyQuote ∧
      IsSeparator prompt.separator ∧ IsDelimiter prompt.value.delimiter := by
  unfold at? at h
  split at h
  · simp at h
  · rename_i hbefore
    split at h
    · simp at h
    · rename_i keyQuote rest hk
      split at h
      · simp at h
      · rename_i separator behind hs
        obtain ⟨⟨value, following⟩, hv, rfl⟩ := Option.map_eq_some_iff.1 h
        exact ⟨by simpa using hbefore, isOptionalQuote_of_key? hk,
          (isSeparator_of_separator? hs).1, Literal.isDelimiter_of_read? hv⟩

end PromptArgument

/-! ## Engine keys -/

namespace EngineKey

/-- A key behind a lead has all the whitespace in front of it in its lead. -/
theorem of_behind?_eq_some {lead text : Text} {key : EngineKey}
    (h : behind? lead text = some key) :
    key.lead = lead ++ blanks text ∧ IsOptionalQuote key.keyQuote ∧ IsSeparator key.separator ∧
      IsOptionalQuote key.valueQuote := by
  unfold behind? at h
  split at h
  · simp at h
  · rename_i keyQuote rest hk
    obtain ⟨⟨separator, following⟩, hs, rfl⟩ := Option.map_eq_some_iff.1 h
    exact ⟨rfl, isOptionalQuote_of_key? hk, (isSeparator_of_separator? hs).1,
      isOptionalQuote_optionalQuote following⟩

/-- A key at a place has a lead that begins there. Only at the beginning of a line may the lead be
whitespace alone. -/
theorem of_at?_eq_some {c : Cursor} {key : EngineKey} (h : at? c = some key) :
    (IsGap key.lead ∧ atLineStart c = true ∨
      ∃ d gap, opensKey d = true ∧ IsGap gap ∧ key.lead = d :: gap) ∧
      IsOptionalQuote key.keyQuote ∧ IsSeparator key.separator ∧
        IsOptionalQuote key.valueQuote := by
  unfold at? at h
  split at h
  · rename_i found hf
    obtain rfl := Option.some.inj h
    split at hf
    · rename_i hline
      obtain ⟨hlead, hrest⟩ := of_behind?_eq_some hf
      exact ⟨.inl ⟨by rw [hlead]; exact isGap_blanks _, hline⟩, hrest⟩
    · simp at hf
  · unfold behindOpening? at h
    split at h
    · simp at h
    · rename_i first rest hc
      split at h
      · rename_i hopens
        obtain ⟨hlead, hrest⟩ := of_behind?_eq_some h
        exact ⟨.inr ⟨first, blanks rest, hopens, isGap_blanks _, hlead⟩, hrest⟩
      · simp at h

end EngineKey

end SdkUpgrade
