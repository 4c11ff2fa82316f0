import SdkUpgrade.Proofs.Residue

/-!
# Words that a rule changes

Four kinds of change respell one word: the rules for long and for short model names, for the token
limit and for engine keys. What such a rule takes is a `Site`: the word, what was read in front of
it and what was read behind it. Only the word gets another spelling, `Kind.hit?_eq_map_site`.

`Kind.exists_reading` says what a site looks like. The word and the key that may stand in front of
it are made of letters, digits, dots and hyphens; all else that was read consists of other
characters. And the rule finds the same site again at every place where the same characters stand,
if the neighbours on both sides are of the same sort.
-/

namespace SdkUpgrade

open Text Source

/-! ## Words and signs -/

/-- A character of names, with the hyphen that names of models have. -/
def isTokenChar (c : Char) : Bool :=
  isNameChar c || c == '-'

/-- A text of characters that belong to no word. -/
def IsSigns (text : Text) : Prop :=
  ∀ c ∈ text, isTokenChar c = false

/-- A character that shows that a word in front of it is a key or stands in quotes. -/
def isCloser (c : Char) : Bool :=
  isQuote c || c == ':' || c == '='

/-- The text begins with a closer, whitespace apart. -/
def IsClosed (text : Text) : Prop :=
  ∃ gap c rest, IsGap gap ∧ isCloser c = true ∧ text = gap ++ c :: rest

/-- The characters in front of two places are alike: both belong to names or both do not, and both
places begin a line or both do not. -/
def SameFront (before before' : Text) : Prop :=
  before.head?.any isNameChar = before'.head?.any isNameChar ∧
    before.head?.all (· == '\n') = before'.head?.all (· == '\n')

/-- Two texts begin with the same sign, or both with no sign. -/
def SameSign (text text' : Text) : Prop :=
  ∀ c, isTokenChar c = false → (text.head? = some c ↔ text'.head? = some c)

/-- What belongs to no word belongs to no name. -/
theorem isNameChar_of_isTokenChar_eq_false {c : Char} (h : isTokenChar c = false) :
    isNameChar c = false := by
  simp only [isTokenChar, Bool.or_eq_false_iff] at h
  exact h.1

/-- What belongs to no name is no part of a word, the hyphen apart. -/
theorem isTokenChar_eq_false {c : Char} (h : isNameChar c = false) (hc : c ≠ '-') :
    isTokenChar c = false := by
  simp [isTokenChar, h, hc]

/-- Whitespace belongs to no word. -/
theorem isTokenChar_of_isBlank {c : Char} (h : isBlank c = true) : isTokenChar c = false := by
  refine isTokenChar_eq_false (isNameChar_of_isBlank h) ?_
  rintro rfl
  exact absurd h (by decide)

/-- Closers belong to no word. -/
theorem isTokenChar_of_isCloser {c : Char} (h : isCloser c = true) : isTokenChar c = false := by
  simp only [isCloser, Bool.or_eq_true, beq_iff_eq] at h
  rcases h with (h | rfl) | rfl
  · rcases isQuote_iff.1 h with rfl | rfl <;> decide
  · decide
  · decide

/-- Quotes belong to no word. -/
theorem isTokenChar_of_isQuote {c : Char} (h : isQuote c = true) : isTokenChar c = false :=
  isTokenChar_of_isCloser (by simp [isCloser, h])

section Signs

variable {first second text rest : Text}

/-- Signs behind signs are signs. -/
theorem isSigns_append : IsSigns (first ++ second) ↔ IsSigns first ∧ IsSigns second := by
  simp [IsSigns, or_imp, forall_and]

/-- Nothing is a text of signs. -/
theorem isSigns_nil : IsSigns [] :=
  fun _ hc => absurd hc List.not_mem_nil

/-- A sign is a text of signs. -/
theorem isSigns_singleton {c : Char} (h : isTokenChar c = false) : IsSigns [c] := by
  intro d hd
  rw [List.mem_singleton.1 hd]
  exact h

/-- Whitespace consists of signs. -/
theorem isSigns_gap (h : IsGap text) : IsSigns text :=
  fun c hc => isTokenChar_of_isBlank (h c hc)

/-- An optional quote consists of signs. -/
theorem isSigns_optionalQuote (h : IsOptionalQuote text) : IsSigns text := by
  rcases h with rfl | ⟨q, hq, rfl⟩
  · exact isSigns_nil
  · exact isSigns_singleton (isTokenChar_of_isQuote hq)

/-- A colon or an equals sign belongs to no word. -/
theorem isTokenChar_sign {sign : Char} (h : sign = ':' ∨ sign = '=') :
    isTokenChar sign = false := by
  rcases h with rfl | rfl <;> decide

/-- The end of a key consists of signs. -/
theorem isSigns_keyEnd {sign : Char} (h : IsKeyEnd text sign) : IsSigns text := by
  obtain ⟨quote, gap, hquote, hg, hs, rfl⟩ := h
  exact isSigns_append.2 ⟨isSigns_optionalQuote hquote, isSigns_append.2 ⟨isSigns_gap hg,
    isSigns_singleton (isTokenChar_sign hs)⟩⟩

/-- A separator consists of signs. -/
theorem isSigns_separator (h : IsSeparator text) : IsSigns text := by
  obtain ⟨left, sign, right, hl, hs, hr, rfl⟩ := h
  rw [← List.singleton_append]
  exact isSigns_append.2 ⟨isSigns_gap hl,
    isSigns_append.2 ⟨isSigns_singleton (isTokenChar_sign hs), isSigns_gap hr⟩⟩

/-- What begins with a closer still does so with more text behind it. -/
theorem IsClosed.append (h : IsClosed text) (rest : Text) : IsClosed (text ++ rest) := by
  obtain ⟨gap, c, more, hg, hc, rfl⟩ := h
  exact ⟨gap, c, more ++ rest, hg, hc, by simp⟩

/-- A closer, whitespace apart, does not continue a word. -/
theorem IsClosed.head? (h : IsClosed text) : text.head?.any isTokenChar = false := by
  obtain ⟨gap, c, more, hg, hc, rfl⟩ := h
  cases gap with
  | nil => exact isTokenChar_of_isCloser hc
  | cons d gap => exact isTokenChar_of_isBlank (hg d List.mem_cons_self)

/-- A quote closes. -/
theorem isClosed_quote {q : Char} (hq : isQuote q = true) (rest : Text) : IsClosed (q :: rest) :=
  ⟨[], q, rest, isGap_nil, by simp [isCloser, hq], rfl⟩

/-- A sign behind whitespace closes. -/
theorem isClosed_sign {gap : Text} {sign : Char} (hg : IsGap gap) (hs : sign = ':' ∨ sign = '=')
    (rest : Text) : IsClosed (gap ++ sign :: rest) := by
  refine ⟨gap, sign, rest, hg, ?_, rfl⟩
  rcases hs with rfl | rfl <;> decide

/-- The end of a key closes. -/
theorem isClosed_keyEnd {sign : Char} (h : IsKeyEnd text sign) : IsClosed text := by
  obtain ⟨quote, gap, hquote, hg, hs, rfl⟩ := h
  rcases hquote with rfl | ⟨q, hq, rfl⟩
  · exact isClosed_sign hg hs []
  · exact isClosed_quote hq _

/-- A separator closes, with or without a quote in front of it. -/
theorem isClosed_separator {quote : Text} (hquote : IsOptionalQuote quote)
    (h : IsSeparator text) :
    IsClosed (quote ++ (text ++ rest)) := by
  obtain ⟨left, sign, right, hl, hs, hr, rfl⟩ := h
  rcases hquote with rfl | ⟨q, hq, rfl⟩
  · rw [List.nil_append, List.append_assoc, List.cons_append]
    exact isClosed_sign hl hs _
  · exact isClosed_quote hq _

end Signs

/-! ## Sites -/

/-- A word that a rule changes, with what the rule takes in front of it and behind it. -/
structure Site where
  lead : Text
  word : Text
  tail : Text
  deriving DecidableEq, Repr

namespace Site

/-- The site as it is written. -/
def text (site : Site) : Text :=
  site.lead ++ (site.word ++ site.tail)

/-- The hit of a site whose word gets another spelling. -/
def hit (new : Text) (site : Site) : Hit :=
  ⟨site.text, site.lead ++ (new ++ site.tail)⟩

/-- The pieces of a site whose word gets another spelling. All characters but those
of the word are kept. -/
def pieces (new : Text) (site : Site) : List Piece :=
  site.lead.map .kept ++ .hit ⟨site.word, new⟩ :: site.tail.map .kept

end Site

/-- The site of a mention: its model, in quotes. -/
def ModelMention.site (mention : ModelMention) : Site :=
  ⟨mention.lead ++ [mention.quote], mention.model, [mention.quote]⟩

namespace EngineKey

/-- The site of an engine key: its name. -/
def site (key : EngineKey) : Site :=
  ⟨key.lead ++ key.keyQuote, "engine", key.keyQuote ++ (key.separator ++ key.valueQuote)⟩

/-- The name of a key at a site with a quoted value or inside a `create` call is a new one. -/
def nameAt (c : Cursor) (site : Site) : Text :=
  if site.tail.getLast?.any isQuote ||
      (enclosingCallee? (site.lead.reverse ++ c.before)).any (endsWith ".create") then "model"
  else "engine"

end EngineKey

namespace Kind

/-- The kinds that change one word. -/
def values : List Kind :=
  [modelName, shortModelName, tokenLimit, engineKey]

/-- The kinds that run before these in the usual order. -/
def shapes : List Kind :=
  [completionCall, chatCompletionCall, embeddingCall, choiceAttributes, choiceSubscripts,
   promptMessage]

/-- Every kind changes one word or runs before the kinds that do. -/
theorem all_eq : all = shapes ++ values :=
  rfl

/-- The site that a kind finds at a place. -/
def site? : Kind → Cursor → Option Site
  | modelName, c => (ModelMention.longAt? c).map ModelMention.site
  | shortModelName, c => (ModelMention.shortAt? c).map ModelMention.site
  | tokenLimit, c => (tokenLimitHit? c).map fun hit => ⟨[], hit.matched, []⟩
  | engineKey, c => (EngineKey.at? c).map EngineKey.site
  | _, _ => none

/-- The spelling that a kind gives to the word of a site. -/
def newWord (radius : Option Nat) : Kind → Cursor → Site → Text
  | modelName, c, site | shortModelName, c, site =>
      successorIn site.word
        (Window.around radius c.source c.offset (c.offset + site.text.length)).text
  | tokenLimit, _, _ => "max_completion_tokens"
  | engineKey, c, site => EngineKey.nameAt c site
  | _, _, site => site.word

/-- The keys that a kind reads in front of its word. -/
def keys : Kind → List Text
  | shortModelName => ModelMention.keys
  | _ => [[]]

/-- The words that a kind looks for. -/
def oldWords : Kind → List Text
  | modelName => RetiredModel.longNames
  | shortModelName => RetiredModel.shortNames
  | tokenLimit => [tokenLimitName]
  | engineKey => ["engine"]
  | _ => []

/-- The words that a kind writes. -/
def newWords : Kind → List Text
  | modelName | shortModelName => ModelMention.successors
  | tokenLimit => ["max_completion_tokens"]
  | engineKey => ["model", "engine"]
  | _ => []

/-- The words that a kind looks for or writes. -/
def words (kind : Kind) : List Text :=
  kind.oldWords ++ kind.newWords

/-- A kind writes one of its words. -/
theorem newWord_mem {kind : Kind} (hkind : kind ∈ values) (radius : Option Nat) (c : Cursor)
    (site : Site) : kind.newWord radius c site ∈ kind.newWords := by
  simp only [values, List.mem_cons, List.not_mem_nil, or_false] at hkind
  rcases hkind with rfl | rfl | rfl | rfl
  · exact ModelMention.successorOf_mem _ _
  · exact ModelMention.successorOf_mem _ _
  · exact List.mem_singleton_self _
  · show EngineKey.nameAt c site ∈ ["model".toList, "engine".toList]
    unfold EngineKey.nameAt
    split
    · exact List.mem_cons_self
    · exact List.mem_cons_of_mem _ List.mem_cons_self

end Kind

/-! ## One spelling for another -/

/-- A quote in front of a place does not matter for the call around it. -/
theorem Source.enclosingCallee?_quote {quote : Text} (h : IsOptionalQuote quote) (before : Text) :
    enclosingCallee? (quote ++ before) = enclosingCallee? before := by
  rcases h with rfl | ⟨q, hq, rfl⟩
  · rfl
  · rcases isQuote_iff.1 hq with rfl | rfl <;> rfl

namespace EngineKey

/-- A key has a quoted value exactly if its site ends with a quote. -/
theorem getLast?_site {key : EngineKey} (hs : IsSeparator key.separator)
    (hv : IsOptionalQuote key.valueQuote) :
    key.site.tail.getLast?.any isQuote = true ↔ key.valueQuote ≠ [] := by
  show (key.keyQuote ++ (key.separator ++ key.valueQuote)).getLast?.any isQuote = true ↔ _
  rcases hv with hnil | ⟨q, hq, hcons⟩
  · obtain ⟨left, sign, right, -, hsign, hr, hsep⟩ := hs
    have hlast : ∀ c ∈ sign :: right, isQuote c = false := by
      intro c hc
      rcases List.mem_cons.1 hc with rfl | hc
      · rcases hsign with rfl | rfl <;> decide
      · cases hq : isQuote c with
        | false => rfl
        | true =>
            have hblank := hr c hc
            rw [isBlank_of_isQuote hq] at hblank
            exact absurd hblank (by simp)
    rw [hnil, hsep, List.append_nil, ← List.append_assoc,
      getLast?_append_ne_nil (List.cons_ne_nil sign right),
      List.getLast?_eq_some_getLast (List.cons_ne_nil sign right), Option.any_some,
      hlast _ (List.getLast_mem _)]
    simp
  · rw [hcons, ← List.append_assoc, getLast?_append_ne_nil (List.cons_ne_nil q [])]
    simp [hq]

/-- A key gets the new name that its site gets. -/
theorem nameAt_site {c : Cursor} {key : EngineKey} (h : at? c = some key) :
    nameAt c key.site =
      (if key.valueQuote ≠ [] ∨ inCreateCall c key then "model" else "engine" : Text) := by
  obtain ⟨-, hquote, hs, hv⟩ := of_at?_eq_some h
  have hcall : enclosingCallee? (key.site.lead.reverse ++ c.before) =
      enclosingCallee? (key.lead.reverse ++ c.before) := by
    have hreverse : key.site.lead.reverse ++ c.before =
        key.keyQuote.reverse ++ (key.lead.reverse ++ c.before) := by simp [site]
    rw [hreverse, enclosingCallee?_quote]
    rcases hquote with hnil | ⟨q, hq, hcons⟩
    · exact .inl (by rw [hnil]; rfl)
    · exact .inr ⟨q, hq, by rw [hcons]; rfl⟩
  have hrenames : (key.site.tail.getLast?.any isQuote ||
      (enclosingCallee? (key.site.lead.reverse ++ c.before)).any (endsWith ".create")) = true ↔
        key.valueQuote ≠ [] ∨ inCreateCall c key = true := by
    rw [Bool.or_eq_true, getLast?_site hs hv, hcall]
    rfl
  unfold nameAt
  by_cases hnew : key.valueQuote ≠ [] ∨ inCreateCall c key = true
  · rw [if_pos (hrenames.2 hnew), if_pos hnew]
  · rw [if_neg fun hold => hnew (hrenames.1 hold), if_neg hnew]

end EngineKey

/-- The hit of a mention respells the word of its site. -/
theorem ModelMention.hit_eq_site (radius : Option Nat) (c : Cursor) (mention : ModelMention) :
    hit radius c mention = mention.site.hit (successorIn mention.site.word
      (Window.around radius c.source c.offset (c.offset + mention.site.text.length)).text) := by
  have htext : mention.site.text = mention.text := by simp [site, Site.text, text]
  rw [Site.hit, htext]
  simp [hit, site, naming, text, successorIn, intent]

/-- What the kinds of one word change is the word of their site. -/
theorem Kind.hit?_eq_map_site {kind : Kind} (hkind : kind ∈ values) (radius : Option Nat)
    (c : Cursor) : kind.hit? radius c =
      (kind.site? c).map fun site => site.hit (kind.newWord radius c site) := by
  simp only [values, List.mem_cons, List.not_mem_nil, or_false] at hkind
  rcases hkind with rfl | rfl | rfl | rfl
  · show (ModelMention.longAt? c).map (ModelMention.hit radius c) =
      ((ModelMention.longAt? c).map ModelMention.site).map _
    rw [Option.map_map]
    exact congrArg (Option.map · _) (funext fun mention => mention.hit_eq_site radius c)
  · show (ModelMention.shortAt? c).map (ModelMention.hit radius c) =
      ((ModelMention.shortAt? c).map ModelMention.site).map _
    rw [Option.map_map]
    exact congrArg (Option.map · _) (funext fun mention => mention.hit_eq_site radius c)
  · show tokenLimitHit? c =
      ((tokenLimitHit? c).map fun hit => (⟨[], hit.matched, []⟩ : Site)).map _
    cases hh : tokenLimitHit? c with
    | none => rfl
    | some found =>
        rw [(of_tokenLimitHit?_eq_some hh).1]
        rfl
  · show (EngineKey.at? c).map _ = ((EngineKey.at? c).map EngineKey.site).map _
    cases hk : EngineKey.at? c with
    | none => rfl
    | some key =>
        show some (Hit.mk _ _) = some (Site.hit (EngineKey.nameAt c key.site) key.site)
        rw [EngineKey.nameAt_site hk]
        simp only [EngineKey.named_eq, Site.hit, Site.text, EngineKey.site, List.append_assoc]

/-! ## Readers, exactly -/

/-- A quoted name is read exactly off one of the names between two equal quotes, if no name has a
quote in it. -/
theorem ModelMention.quotedName?_eq_some_iff {names : List Text} {text name : Text} {quote : Char}
    (hnames : ∀ name ∈ names, ∀ c ∈ name, isQuote c = false) :
    quotedName? names text = some (quote, name) ↔ isQuote quote = true ∧ name ∈ names ∧
      ∃ rest, text = quote :: (name ++ quote :: rest) := by
  constructor
  · intro h
    obtain ⟨hname, rest, hrest⟩ := quotedName?_eq_some h
    exact ⟨isQuote_of_quotedName? h, hname, rest, by rw [← hrest]; simp⟩
  · rintro ⟨hquote, hname, rest, rfl⟩
    have hfound := quotedName?_ne_none_iff.2 ⟨quote, name, rest, hquote, hname, rfl⟩
    obtain ⟨⟨quote', name'⟩, hread⟩ := Option.ne_none_iff_exists'.1 hfound
    obtain ⟨hname', rest', hrest'⟩ := quotedName?_eq_some hread
    rw [List.append_assoc, List.append_assoc, List.singleton_append,
      List.singleton_append] at hrest'
    obtain ⟨rfl, hsplit⟩ := List.cons.inj hrest'
    -- Both names end at the first quote.
    have hstop : ∀ rest : Text, (quote' :: rest).head?.any (fun c => !isQuote c) = false := by
      intro rest
      simp [hquote]
    have hplain : ∀ name ∈ names, ∀ c ∈ name, (!isQuote c) = true := by
      intro name hname c hc
      simp [hnames name hname c hc]
    have hsame := congrArg (List.takeWhile fun c => !isQuote c) hsplit
    rw [takeWhile_stretch (hplain name' hname') (hstop _),
      takeWhile_stretch (hplain name hname) (hstop _)] at hsame
    rw [hread, hsame]

/-- No name of a retired model has a quote in it. -/
theorem RetiredModel.isQuote_of_mem {name : Text} (h : name ∈ longNames ∨ name ∈ shortNames) :
    ∀ c ∈ name, isQuote c = false := by
  have hall : ∀ name ∈ longNames ++ shortNames, name.all (fun c => !isQuote c) = true := by decide
  intro c hc
  simpa using List.all_eq_true.1 (hall name (List.mem_append.2 h)) c hc

/-- A short name is found behind any of its keys. -/
theorem ModelMention.shortAt?_append {before key close gap name rest : Text} {sign quote : Char}
    (hbefore : before.head?.any isNameChar = false) (hkey : key ∈ keys)
    (hclose : IsKeyEnd close sign)
    (hg : IsGap gap) (hquote : isQuote quote = true) (hname : name ∈ RetiredModel.shortNames) :
    shortAt? ⟨before, key ++ (close ++ (gap ++ quote :: (name ++ quote :: rest)))⟩ =
      some ⟨key ++ close ++ gap, quote, name⟩ := by
  have hend : keyEnd? (close ++ (gap ++ quote :: (name ++ quote :: rest))) =
      some (close, gap ++ quote :: (name ++ quote :: rest)) :=
    keyEnd?_eq_some_iff.2 ⟨rfl, sign, hclose, fun _ => head?_gap_quote hg hquote⟩
  have hblank : (quote :: (name ++ quote :: rest)).head?.any isBlank = false :=
    isBlank_of_isQuote hquote
  have hquoted : quotedName? RetiredModel.shortNames (quote :: (name ++ quote :: rest)) =
      some (quote, name) :=
    (quotedName?_eq_some_iff fun name hname => RetiredModel.isQuote_of_mem (.inr hname)).2
      ⟨hquote, hname, rest, rfl⟩
  simp only [shortAt?, Cursor.follows, hbefore, afterAny?_keys hkey, hend, hquoted,
    skipBlanks_stretch hg hblank, blanks_gap hg hblank, Option.map_some, Bool.false_eq_true,
    if_false]

/-- A token limit is found in front of the end of a key. -/
theorem tokenLimitHit?_append {before close rest : Text} {sign : Char}
    (hbefore : before.head?.any isNameChar = false) (hclose : IsKeyEnd close sign)
    (hnext : sign = '=' → rest.head? ≠ some '=') :
    tokenLimitHit? ⟨before, tokenLimitName ++ (close ++ rest)⟩ =
      some ⟨tokenLimitName, "max_completion_tokens"⟩ := by
  have hend : keyEnd? (close ++ rest) = some (close, rest) :=
    keyEnd?_eq_some_iff.2 ⟨rfl, sign, hclose, hnext⟩
  simp only [tokenLimitHit?, Cursor.follows, hbefore, after?_append, hend, Option.isSome_some,
    Bool.false_eq_true, if_false, if_true]

namespace EngineKey

/-- A key is read behind a lead exactly off whitespace, the name in its quotes, a separator and a
quote if there is one. -/
theorem behind?_eq_some_iff {lead text : Text} {key : EngineKey} :
    behind? lead text = some key ↔ ∃ gap rest, IsGap gap ∧ key.lead = lead ++ gap ∧
      IsOptionalQuote key.keyQuote ∧
      separator? (key.separator ++ (key.valueQuote ++ rest)) =
        some (key.separator, key.valueQuote ++ rest) ∧
      optionalQuote (key.valueQuote ++ rest) = (key.valueQuote, rest) ∧
      text = gap ++ (key.keyQuote ++ ("engine" ++ (key.keyQuote ++ (key.separator ++
        (key.valueQuote ++ rest))))) := by
  constructor
  · intro h
    unfold behind? at h
    split at h
    · simp at h
    · rename_i keyQuote following hk
      obtain ⟨⟨separator, behind⟩, hs, rfl⟩ := Option.map_eq_some_iff.1 h
      have hvalue := optionalQuote_append behind
      refine ⟨blanks text, (optionalQuote behind).2, isGap_blanks text, rfl,
        isOptionalQuote_of_key? hk, ?_, ?_, ?_⟩
      · rw [hvalue, ← separator?_eq_some hs, hs]
      · rw [hvalue]
      · have htext := blanks_append_skipBlanks text
        rw [key?_eq_some hk, separator?_eq_some hs] at htext
        rw [hvalue]
        exact htext.symm.trans (by simp)
  · rintro ⟨gap, rest, hg, hlead, hquote, hs, hvalue, rfl⟩
    have hname : (key.keyQuote ++ ("engine" ++ (key.keyQuote ++ (key.separator ++
        (key.valueQuote ++ rest))))).head?.any isBlank = false := by
      rcases hquote with hnil | ⟨q, hq, hcons⟩
      · rw [hnil]
        exact (by decide : isBlank 'e' = false)
      · rw [hcons]
        exact isBlank_of_isQuote hq
    have hkey : key? "engine" (key.keyQuote ++ ("engine" ++ (key.keyQuote ++ (key.separator ++
        (key.valueQuote ++ rest))))) =
          some (key.keyQuote, key.separator ++ (key.valueQuote ++ rest)) :=
      key?_append hquote (by decide) (by decide) _
    simp only [behind?, skipBlanks_stretch hg hname, blanks_gap hg hname, hkey, hs, hvalue,
      Option.map_some, ← hlead]

/-- No key is read off a text that begins with an opening character. -/
theorem behind?_opening {lead text : Text} {d : Char} (hd : opensKey d = true) :
    behind? lead (d :: text) = none := by
  cases hk : behind? lead (d :: text) with
  | none => rfl
  | some key =>
      exfalso
      obtain ⟨-, -, hblank, hplain, -⟩ := opensKey_class hd
      obtain ⟨gap, rest, hg, -, hquote, -, -, htext⟩ := behind?_eq_some_iff.1 hk
      cases gap with
      | cons c gap =>
          obtain ⟨rfl, -⟩ := List.cons.inj htext
          rw [hg d List.mem_cons_self] at hblank
          exact absurd hblank (by simp)
      | nil =>
          rcases hquote with hnil | ⟨q, hq, hcons⟩
          · rw [hnil] at htext
            obtain rfl : d = 'e' := (List.cons.inj htext).1
            exact absurd hd (by decide)
          · rw [hcons] at htext
            obtain rfl : d = q := (List.cons.inj htext).1
            rw [hq] at hplain
            exact absurd hplain (by simp)

end EngineKey

/-! ## What a site looks like -/

/-- What a kind reads at a place, apart from the word and the tail of its site: the key in
front, the signs between the key and the word, the signs that it looks at behind the site, and
the text behind these. -/
structure Reading (kind : Kind) (before : Text) (site : Site) (key glue ahead more : Text) :
    Prop where
  lead : site.lead = key ++ glue
  key_mem : key ∈ kind.keys
  word_mem : site.word ∈ kind.oldWords
  glue_signs : IsSigns glue
  tail_signs : IsSigns (site.tail ++ ahead)
  glued : key ≠ [] → glue ≠ []
  front : glue = [] → before.head?.any isNameChar = false
  closed : IsClosed (site.tail ++ ahead)
  again : ∀ {before' key' more' : Text}, key' ∈ kind.keys → SameFront before before' →
    SameSign more more' → kind.site? ⟨before', key' ++ (glue ++ (site.word ++ (site.tail ++
      (ahead ++ more'))))⟩ = some ⟨key' ++ glue, site.word, site.tail⟩

namespace Reading

/-- The reading of a long name. -/
theorem exists_long {before after : Text} {site : Site}
    (h : Kind.modelName.site? ⟨before, after⟩ = some site) : ∃ key glue ahead more,
      after = site.text ++ (ahead ++ more) ∧
        Reading .modelName before site key glue ahead more := by
  have hplain : ∀ name ∈ RetiredModel.longNames, ∀ c ∈ name, isQuote c = false :=
    fun name hname => RetiredModel.isQuote_of_mem (.inl hname)
  obtain ⟨mention, hm, rfl⟩ := Option.map_eq_some_iff.1 h
  obtain ⟨⟨q, name⟩, hread, rfl⟩ := Option.map_eq_some_iff.1 hm
  obtain ⟨hq, hname, rest, htext⟩ := (ModelMention.quotedName?_eq_some_iff hplain).1 hread
  change after = _ at htext
  have hsigns : IsSigns [q] := isSigns_singleton (isTokenChar_of_isQuote hq)
  refine ⟨[], [q], [], rest, by simp [htext, ModelMention.site, Site.text], rfl,
    List.mem_singleton_self _, hname, hsigns, hsigns, fun hne => absurd rfl hne,
    fun hnil => absurd hnil (by simp), isClosed_quote hq [], ?_⟩
  intro before' key' more' hkey _ _
  obtain rfl := List.mem_singleton.1 hkey
  have hagain : ModelMention.quotedName? RetiredModel.longNames (q :: (name ++ q :: more')) =
      some (q, name) :=
    (ModelMention.quotedName?_eq_some_iff hplain).2 ⟨hq, hname, more', rfl⟩
  show Option.map _
    ((ModelMention.quotedName? RetiredModel.longNames (q :: (name ++ q :: more'))).map _) = _
  rw [hagain]
  rfl

/-- The reading of a short name. -/
theorem exists_short {before after : Text} {site : Site}
    (h : Kind.shortModelName.site? ⟨before, after⟩ = some site) : ∃ key glue ahead more,
      after = site.text ++ (ahead ++ more) ∧
        Reading .shortModelName before site key glue ahead more := by
  obtain ⟨mention, hm, rfl⟩ := Option.map_eq_some_iff.1 h
  obtain ⟨hname, hq, key, close, sign, gap, more, hkey, hclose, hg, hlead, hd⟩ :=
    ModelMention.of_shortAt?_eq_some hm
  obtain ⟨hbefore, htext, -⟩ := dottedName?_eq_some_iff.1 hd
  have hquote : IsSigns [mention.quote] := isSigns_singleton (isTokenChar_of_isQuote hq)
  refine ⟨key, close ++ (gap ++ [mention.quote]), [], more,
    by simp [htext, ModelMention.site, Site.text, hlead],
    by simp [ModelMention.site, hlead], hkey, hname, ?_, hquote, fun _ => by simp,
    fun hnil => absurd hnil (by simp), isClosed_quote hq [], ?_⟩
  · exact isSigns_append.2 ⟨isSigns_keyEnd hclose, isSigns_append.2 ⟨isSigns_gap hg, hquote⟩⟩
  · intro before' key' more' hkey' hfront _
    have hfound := @ModelMention.shortAt?_append before' key' close gap mention.model more' sign
      mention.quote (hfront.1 ▸ hbefore) hkey' hclose hg hq hname
    have hplace : key' ++ ((close ++ (gap ++ [mention.quote])) ++ (mention.model ++
        ([mention.quote] ++ ([] ++ more')))) =
          key' ++
            (close ++ (gap ++ mention.quote :: (mention.model ++ mention.quote :: more'))) := by
      simp
    show (ModelMention.shortAt? ⟨before', key' ++ ((close ++ (gap ++ [mention.quote])) ++
      (mention.model ++ ([mention.quote] ++ ([] ++ more'))))⟩).map ModelMention.site = _
    rw [hplace, hfound]
    simp [ModelMention.site]

/-- The reading of a token limit. -/
theorem exists_limit {before after : Text} {site : Site}
    (h : Kind.tokenLimit.site? ⟨before, after⟩ = some site) : ∃ key glue ahead more,
      after = site.text ++ (ahead ++ more) ∧
        Reading .tokenLimit before site key glue ahead more := by
  obtain ⟨hit, hh, rfl⟩ := Option.map_eq_some_iff.1 h
  obtain ⟨rfl, close, sign, more, hclose, hnext, hd⟩ := of_tokenLimitHit?_eq_some hh
  obtain ⟨hbefore, htext, -⟩ := dottedName?_eq_some_iff.1 hd
  refine ⟨[], [], close, more, by simp [htext, Site.text], rfl, List.mem_singleton_self _,
    List.mem_singleton_self _, isSigns_nil, isSigns_keyEnd hclose, fun hne => absurd rfl hne,
    fun _ => hbefore, isClosed_keyEnd hclose, ?_⟩
  intro before' key' more' hkey hfront hmore
  obtain rfl := List.mem_singleton.1 hkey
  have hfound : tokenLimitHit? ⟨before', tokenLimitName ++ (close ++ more')⟩ =
      some ⟨tokenLimitName, "max_completion_tokens"⟩ := by
    refine tokenLimitHit?_append (hfront.1 ▸ hbefore) hclose fun hsign hhead => ?_
    exact hnext hsign ((hmore '=' (by decide)).2 hhead)
  show (tokenLimitHit? ⟨before', tokenLimitName ++ (close ++ more')⟩).map _ = _
  rw [hfound]
  rfl

/-- A key that was read behind a lead is read again where the same characters stand behind another
lead, in front of a text that begins with the same sign. -/
theorem behind?_again {lead text : Text} {key : EngineKey}
    (h : EngineKey.behind? lead text = some key) :
    ∃ gap more, IsGap gap ∧ key.lead = lead ++ gap ∧
      text = gap ++ (key.keyQuote ++ ("engine" ++ (key.site.tail ++ more))) ∧
      ∀ lead' more' : Text, SameSign more more' →
        EngineKey.behind? lead'
          (gap ++ (key.keyQuote ++ ("engine" ++ (key.site.tail ++ more')))) =
          some { key with lead := lead' ++ gap } := by
  obtain ⟨gap, more, hg, hlead, hquote, hs, hv, htext⟩ := EngineKey.behind?_eq_some_iff.1 h
  have htail : ∀ rest, key.site.tail ++ rest =
      key.keyQuote ++ (key.separator ++ (key.valueQuote ++ rest)) := by
    intro rest
    simp [EngineKey.site]
  refine ⟨gap, more, hg, hlead, by rw [htext, htail], ?_⟩
  intro lead' more' hmore
  -- The value has a quote of its own, or both texts go on with the same sign.
  have hvalue : ∀ c, isTokenChar c = false →
      (key.valueQuote ++ more').head? = some c → (key.valueQuote ++ more).head? = some c := by
    intro c hc hhead
    cases hcons : key.valueQuote with
    | nil => exact (hmore c hc).2 (by simpa [hcons] using hhead)
    | cons q rest => simpa [hcons] using hhead
  obtain ⟨-, hblank, left, sign, right, hl, hr, hsep, hsign⟩ := separator?_eq_some_iff.1 hs
  refine EngineKey.behind?_eq_some_iff.2 ⟨gap, more', hg, rfl, hquote, ?_, ?_, htail more' ▸ rfl⟩
  · refine separator?_eq_some_iff.2 ⟨rfl, ?_, left, sign, right, hl, hr, hsep, ?_⟩
    · cases hhead : (key.valueQuote ++ more').head? with
      | none => rfl
      | some c =>
          cases hc : isBlank c with
          | false => simpa using hc
          | true =>
              rw [hvalue c (isTokenChar_of_isBlank hc) hhead] at hblank
              simp [hc] at hblank
    · refine hsign.imp_right (And.imp_right fun hold hnew => hold ?_)
      cases hgap : right with
      | nil =>
          rw [hgap, List.nil_append] at hnew
          exact hvalue '=' (by decide) hnew
      | cons c rest => simpa [hgap] using hnew
  · cases hcons : key.valueQuote with
    | cons q rest =>
        have hone : IsOptionalQuote key.valueQuote := by
          have hquote := isOptionalQuote_optionalQuote (key.valueQuote ++ more)
          rw [hv] at hquote
          exact hquote
        rcases hone with hnil | ⟨q', hq', hsingle⟩
        · rw [hnil] at hcons
          exact absurd hcons (by simp)
        · rw [← hcons, hsingle]
          simp [optionalQuote, hq']
    | nil =>
        refine optionalQuote_append_eq (.inl rfl) ?_
        rw [hcons] at hv
        cases hhead : more'.head? with
        | none => rfl
        | some c =>
            cases hc : isQuote c with
            | false => simpa using hc
            | true =>
                have hold := (hmore c (isTokenChar_of_isQuote hc)).2 hhead
                obtain ⟨rest, hrest⟩ := List.head?_eq_some_iff.1 hold
                simp [hrest, optionalQuote, hc] at hv

/-- An engine key is found again where the same characters stand between alike neighbours. -/
theorem at?_again {before after : Text} {key : EngineKey}
    (h : EngineKey.at? ⟨before, after⟩ = some key) : ∃ more,
      after = key.lead ++ (key.keyQuote ++ ("engine" ++ (key.site.tail ++ more))) ∧
      ∀ {before' more' : Text}, SameFront before before' → SameSign more more' →
        EngineKey.at? ⟨before', key.lead ++ (key.keyQuote ++ ("engine" ++
          (key.site.tail ++ more')))⟩ = some key := by
  unfold EngineKey.at? at h
  split at h
  · rename_i found hfound
    obtain rfl := Option.some.inj h
    split at hfound
    · rename_i hline
      obtain ⟨gap, more, hg, hlead, htext, hagain⟩ := behind?_again hfound
      rw [List.nil_append] at hlead
      refine ⟨more, by rw [hlead]; exact htext, ?_⟩
      intro before' more' hfront hmore
      have hline' : ∀ text, EngineKey.atLineStart ⟨before', text⟩ = true :=
        fun _ => hfront.2.symm.trans hline
      have hread := hagain [] more' hmore
      rw [List.nil_append, ← hlead] at hread
      simp only [EngineKey.at?, hline', if_true, hread]
    · simp at hfound
  · unfold EngineKey.behindOpening? at h
    split at h
    · simp at h
    · rename_i d text hafter
      change after = d :: text at hafter
      split at h
      · rename_i hd
        obtain ⟨gap, more, hg, hlead, htext, hagain⟩ := behind?_again h
        rw [List.singleton_append] at hlead
        refine ⟨more, by rw [hlead, hafter, htext]; rfl, ?_⟩
        intro before' more' hfront hmore
        have hread := hagain [d] more' hmore
        rw [List.singleton_append, ← hlead] at hread
        have hnone : ∀ text, (if EngineKey.atLineStart ⟨before', d :: text⟩ then
            EngineKey.behind? [] (d :: text) else none) = none := by
          intro text
          rw [EngineKey.behind?_opening hd, ite_self]
        rw [hlead, List.cons_append, EngineKey.at?, hnone]
        simp only [EngineKey.behindOpening?, hd, if_true, hread]
      · simp at h

/-- The reading of an engine key. -/
theorem exists_engine {before after : Text} {site : Site}
    (h : Kind.engineKey.site? ⟨before, after⟩ = some site) : ∃ key glue ahead more,
      after = site.text ++ (ahead ++ more) ∧
        Reading .engineKey before site key glue ahead more := by
  obtain ⟨key, hk, rfl⟩ := Option.map_eq_some_iff.1 h
  obtain ⟨hlead, hquote, hs, hv⟩ := EngineKey.of_at?_eq_some hk
  obtain ⟨more, htext, hagain⟩ := at?_again hk
  have hleadSigns : IsSigns key.lead := by
    rcases hlead with ⟨hg, -⟩ | ⟨d, gap, hd, hg, hcons⟩
    · exact isSigns_gap hg
    · rw [hcons, ← List.singleton_append]
      refine isSigns_append.2 ⟨isSigns_singleton
        (isTokenChar_eq_false (EngineKey.opensKey_class hd).1 ?_), isSigns_gap hg⟩
      rintro rfl
      exact absurd hd (by decide)
  have htail : IsSigns (key.site.tail ++ []) := by
    rw [List.append_nil]
    exact isSigns_append.2 ⟨isSigns_optionalQuote hquote, isSigns_append.2 ⟨isSigns_separator hs,
      isSigns_optionalQuote hv⟩⟩
  have hclosed : IsClosed (key.site.tail ++ []) := by
    rw [List.append_nil]
    exact isClosed_separator hquote hs
  refine ⟨[], key.site.lead, [], more, by simp [htext, EngineKey.site, Site.text], rfl,
    List.mem_singleton_self _, List.mem_singleton_self _,
    isSigns_append.2 ⟨hleadSigns, isSigns_optionalQuote hquote⟩, htail, fun hne => absurd rfl hne,
    fun hnil => ?_, hclosed, ?_⟩
  · exact (EngineKey.isNameChar_lead hlead).2 (List.append_eq_nil_iff.1 hnil).1
  · intro before' key' more' hkey hfront hmore
    obtain rfl := List.mem_singleton.1 hkey
    have hplace : [] ++ (key.site.lead ++ (key.site.word ++ (key.site.tail ++ ([] ++ more')))) =
        key.lead ++ (key.keyQuote ++ ("engine".toList ++ (key.site.tail ++ more'))) := by
      simp [EngineKey.site]
    rw [hplace]
    show (EngineKey.at? _).map EngineKey.site = _
    rw [hagain hfront hmore]
    rfl

end Reading

/-- Every site of a kind of one word has a reading. -/
theorem Kind.exists_reading {kind : Kind} (hkind : kind ∈ values) {before after : Text}
    {site : Site} (h : kind.site? ⟨before, after⟩ = some site) : ∃ key glue ahead more,
      after = site.text ++ (ahead ++ more) ∧ Reading kind before site key glue ahead more := by
  simp only [values, List.mem_cons, List.not_mem_nil, or_false] at hkind
  rcases hkind with rfl | rfl | rfl | rfl
  · exact Reading.exists_long h
  · exact Reading.exists_short h
  · exact Reading.exists_limit h
  · exact Reading.exists_engine h

end SdkUpgrade
