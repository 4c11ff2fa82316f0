import SdkUpgrade.Proofs.Hits
import SdkUpgrade.Proofs.Tame
import SdkUpgrade.Rule.Basic

/-!
# How the rules write

The replacement of a rule begins with a name, with a key in quotes, with a quoted model, or with
the character behind which a key may begin. Each of these beginnings is an `Opening`. Together
with what is known about the first and last characters this makes every rule tame: `Kind.tame`.
-/

namespace SdkUpgrade

open Text Source

/-! ## Ways to begin -/

namespace Opening

variable {text rest : Text}

/-- The words in front of which trailers have a quote consist of word characters. -/
theorem not_quotedWord_prefix {c : Char} {word : Text} {more : Text} (hc : isWord c = false)
    (hword : word ∈ quotedWords) : ¬ word ++ more <+: c :: rest := by
  have hchars : ∀ word ∈ quotedWords, word.head?.any isWord = true := by decide
  intro hp
  cases word with
  | nil => exact absurd (hchars [] hword) (by simp)
  | cons d word =>
      rw [List.cons_append, List.cons_prefix_cons] at hp
      have hd := hchars _ hword
      simp [hp.1, hc] at hd

/-- A word at the beginning is followed neither by a closing bracket nor, if it is one of the
words in front of which trailers have a quote, by a quote. -/
theorem of_word {word : Text} (hne : word ≠ []) (hword : ∀ c ∈ word, isWord c = true)
    (hrest : rest.head?.any isWord = false) (hclose : (skipBlanks rest).head? ≠ some ']')
    (hquote : word ∈ quotedWords → rest.head?.any isQuote = false) : Opening (word ++ rest) := by
  obtain ⟨c, word, rfl⟩ := List.exists_cons_of_ne_nil hne
  have hc : isWord c = true := hword c List.mem_cons_self
  have hblank : isBlank c = false := isBlank_of_isNameChar (isNameChar_of_isWord hc)
  have hskip : skipBlanks (c :: word ++ rest) = c :: word ++ rest :=
    skipBlanks_eq_self (by simpa using hblank)
  refine ⟨?_, ?_, ?_, ?_, ?_⟩
  · intro hhead
    simp [hblank] at hhead
  · intro d hd hhead
    rw [hskip] at hhead
    obtain rfl : c = d := by simpa using hhead
    simp only [List.mem_cons, List.not_mem_nil, or_false] at hd
    rcases hd with rfl | rfl | rfl | rfl <;> exact absurd hc (by decide)
  · rw [hskip, dropWhile_stretch hword hrest]
    exact hclose
  · intro quote following hq htext
    rw [hskip, List.cons_append] at htext
    obtain ⟨rfl, -⟩ := List.cons.inj htext
    have hname := isNameChar_of_isQuote hq
    rw [isNameChar_of_isWord hc] at hname
    exact absurd hname (by simp)
  · rintro other hother quote hq ⟨more, hmore⟩
    -- Both words are all the word characters at the beginning, so they are equal.
    have hchars : ∀ word ∈ quotedWords, word.all isWord = true := by decide
    have hother' := List.all_eq_true.1 (hchars other hother)
    have hstop : (quote :: more).head?.any isWord = false :=
      isWord_of_isNameChar_eq_false (isNameChar_of_isQuote hq)
    rw [List.append_assoc, List.singleton_append] at hmore
    have hsame := congrArg (List.takeWhile isWord) hmore
    rw [takeWhile_stretch hother' hstop, takeWhile_stretch hword hrest] at hsame
    have hbehind := congrArg (List.dropWhile isWord) hmore
    rw [dropWhile_stretch hother' hstop, dropWhile_stretch hword hrest] at hbehind
    have hno := hquote (hsame ▸ hother)
    rw [← hbehind] at hno
    simp [hq] at hno

/-- A word with a dot behind it begins a replacement. -/
theorem of_dotted {name : Text} (hstart : name.head?.any isNameStart = true)
    (hname : ∀ c ∈ name, isNameChar c = true) (hdot : '.' ∈ name) : Opening (name ++ rest) := by
  have hsplit : name.takeWhile isWord ++ (name.dropWhile isWord ++ rest) = name ++ rest := by
    rw [← List.append_assoc, List.takeWhile_append_dropWhile]
  obtain ⟨c, name, rfl⟩ := List.exists_cons_of_ne_nil
    (show name ≠ [] by rintro rfl; simp at hstart)
  have hc : isWord c = true := isWord_of_isNameStart (by simpa using hstart)
  -- The first word ends at a dot, since only a dot is a name character and no word character.
  have hbehind : ∃ more, (c :: name).dropWhile isWord = '.' :: more := by
    have hmem : '.' ∈ (c :: name).dropWhile isWord := by
      rw [← @List.takeWhile_append_dropWhile _ isWord (c :: name),
        List.mem_append] at hdot
      exact hdot.resolve_left fun hmem => absurd (mem_takeWhile hmem) (by decide)
    obtain ⟨d, more, hd⟩ := List.exists_cons_of_ne_nil (List.ne_nil_of_mem hmem)
    have hdname : isNameChar d = true :=
      hname d ((List.dropWhile_sublist isWord).subset (by rw [hd]; exact List.mem_cons_self))
    have hdword : isWord d = false := by simpa [hd] using head?_dropWhile isWord (c :: name)
    obtain rfl : d = '.' := by simpa [isNameChar, hdword] using hdname
    exact ⟨more, hd⟩
  obtain ⟨more, hmore⟩ := hbehind
  rw [← hsplit, hmore]
  refine of_word (by simp [hc]) (fun d => mem_takeWhile)
    (by exact (by decide : isWord '.' = false)) ?_ (fun _ => (by decide : isQuote '.' = false))
  rw [List.cons_append, skipBlanks_eq_self (by exact (by decide : isBlank '.' = false))]
  simp

/-- A key begins a replacement, unless it is one of the words in front of which trailers have a
quote. -/
theorem of_key {word : Text} {c : Char} (hne : word ≠ []) (hword : ∀ c ∈ word, isWord c = true)
    (hother : word ∉ quotedWords) (hrest : (skipBlanks rest).head? = some c)
    (hc : isQuote c = true ∨ c = ':' ∨ c = '=') : Opening (word ++ rest) := by
  have hclass : isWord c = false ∧ isBlank c = false ∧ c ≠ ']' := by
    rcases hc with hq | rfl | rfl
    · rcases isQuote_iff.1 hq with rfl | rfl <;> decide
    · decide
    · decide
  refine of_word hne hword ?_ ?_ (fun hmem => absurd hmem hother)
  · obtain ⟨gap, more, hg, rfl⟩ := (head?_skipBlanks_eq_some_iff hclass.2.1).1 hrest
    cases gap with
    | nil => simpa using hclass.1
    | cons d gap => exact isWord_of_isBlank (hg d List.mem_cons_self)
  · rw [hrest]
    simpa using hclass.2.2

/-- A character that belongs to no name and opens no trailer begins a replacement, as long as it
is neither whitespace nor a quote. -/
theorem of_char {c : Char} (hword : isWord c = false) (hblank : isBlank c = false)
    (hquote : isQuote c = false) (hc : c ∉ ['[', '.', ':', '=', ']']) : Opening (c :: rest) := by
  have hskip : skipBlanks (c :: rest) = c :: rest := skipBlanks_eq_self (by simpa using hblank)
  refine ⟨?_, ?_, ?_, ?_, ?_⟩
  · intro hhead
    simp [hblank] at hhead
  · intro d hd hhead
    rw [hskip] at hhead
    obtain rfl : c = d := by simpa using hhead
    exact hc (List.mem_append_left [']'] hd)
  · rw [hskip, List.dropWhile_cons_of_neg (by simp [hword]), hskip]
    rintro hhead
    obtain rfl : c = ']' := by simpa using hhead
    simp at hc
  · intro quote following hq htext
    rw [hskip] at htext
    obtain ⟨rfl, -⟩ := List.cons.inj htext
    simp [hquote] at hq
  · intro word hmem quote hq hp
    exact not_quotedWord_prefix hword hmem hp

/-- A quote begins a replacement if one of a few texts stands behind it. -/
theorem of_quote {q : Char} (hq : isQuote q = true)
    (hrest : (∃ c ∈ ['m', 'g', 'o', 'p', 'e'], rest.head? = some c) ∨ "text-" <+: rest) :
    Opening (q :: rest) := by
  have hclass : isWord q = false ∧ isBlank q = false ∧ q ∉ ['[', '.', ':', '=', ']'] := by
    rcases isQuote_iff.1 hq with rfl | rfl <;> decide
  have hskip : skipBlanks (q :: rest) = q :: rest :=
    skipBlanks_eq_self (by simpa using hclass.2.1)
  refine ⟨?_, ?_, ?_, ?_, ?_⟩
  · intro hhead
    simp [hclass.2.1] at hhead
  · intro d hd hhead
    rw [hskip] at hhead
    obtain rfl : q = d := by simpa using hhead
    exact hclass.2.2 (List.mem_append_left [']'] hd)
  · rw [hskip, List.dropWhile_cons_of_neg (by simp [hclass.1]), hskip]
    rintro hhead
    obtain rfl : q = ']' := by simpa using hhead
    exact absurd hq (by decide)
  · intro quote following _ htext
    rw [hskip] at htext
    obtain ⟨-, rfl⟩ := List.cons.inj htext
    exact hrest
  · intro word hmem quote _ hp
    exact not_quotedWord_prefix hclass.1 hmem hp

/-- Whitespace may stand in front of a replacement that does not begin with a parenthesis. -/
theorem of_gap {gap : Text} (hg : IsGap gap) (h : Opening text)
    (hblank : text.head?.any isBlank = false) (hparen : text.head? ≠ some '(') :
    Opening (gap ++ text) := by
  cases gap with
  | nil => exact h
  | cons c gap =>
      have hskip : skipBlanks (c :: gap ++ text) = skipBlanks text := skipBlanks_append hg
      refine ⟨?_, ?_, ?_, ?_, ?_⟩
      · intro _
        rw [hskip, skipBlanks_eq_self hblank]
        exact hparen
      · rw [hskip]
        exact h.head
      · rw [hskip]
        exact h.index
      · rw [hskip]
        exact h.quoted
      · intro word hmem quote _ hp
        exact not_quotedWord_prefix (isWord_of_isBlank (hg c List.mem_cons_self)) hmem hp

end Opening

/-! ## Rules that begin with a name -/

/-- A parenthesis or a quote begins no name. -/
theorem isNameStart_of_opens {c : Char} (h : c = '(' ∨ isQuote c = true) :
    isNameStart c = false := by
  rcases h with rfl | hq
  · decide
  · rcases isQuote_iff.1 hq with rfl | rfl <;> decide

/-- A rule is tame if its hits are names that begin as their replacements do, if these begin as
replacements should, and if hits and replacements end alike. -/
theorem Tame.of_names {find? : Cursor → Option Hit} (hrec : Recognises find?)
    (hopening : ∀ {before rest : Text} {hit : Hit},
      find? ⟨before, hit.matched ++ rest⟩ = some hit →
      Opening (hit.replacement ++ rewritten find? (hit.matched.reverse ++ before) rest))
    (hfollows : ∀ {c : Cursor} {hit : Hit}, find? c = some hit → c.follows isNameChar = false)
    (hhead : ∀ {c : Cursor} {hit : Hit}, find? c = some hit →
      hit.replacement.head?.any isNameStart = true ∧ hit.matched.head?.any isNameStart = true)
    (hlast : ∀ {c : Cursor} {hit : Hit}, find? c = some hit →
      hit.replacement.getLast?.any isNameChar = false →
        hit.matched.getLast?.any isNameChar = false) : Tame find? where
  recognises := hrec
  opening := hopening
  nonempty := by
    intro c hit hh hnil
    simpa [hnil] using (hhead hh).1
  inner := by
    intro c hit hh hc
    rw [hfollows hh] at hc
    exact absurd hc (by simp)
  sameHead := by
    intro c hit d hh hd hclass
    have hstart := (hhead hh).1
    rw [hd, Option.any_some, isNameStart_of_opens hclass] at hstart
    exact absurd hstart (by simp)
  notEquals := by
    intro c hit hh heq
    have hstart := (hhead hh).2
    rw [heq] at hstart
    exact absurd hstart (by decide)
  last := hlast

/-- A rule is tame if it keeps a receiver and writes a path of attributes behind it. -/
theorem Tame.of_receiver {find? : Cursor → Option Hit} (hrec : Recognises find?)
    (h : ∀ {c : Cursor} {hit : Hit}, find? c = some hit → ∃ receiver path more behind,
      c.follows isNameChar = false ∧ receiver.head?.any isNameStart = true ∧
      (∀ d ∈ receiver, isNameChar d = true) ∧ (∀ d ∈ path, isNameChar d = true) ∧ '.' ∈ path ∧
      hit.replacement = receiver ++ path ++ more ∧ hit.matched = receiver ++ behind)
    (hlast : ∀ {c : Cursor} {hit : Hit}, find? c = some hit →
      hit.replacement.getLast?.any isNameChar = false →
        hit.matched.getLast?.any isNameChar = false) : Tame find? := by
  have hne : ∀ {receiver : Text}, receiver.head?.any isNameStart = true → receiver ≠ [] := by
    rintro receiver hstart rfl
    simp at hstart
  refine .of_names hrec ?_ ?_ ?_ hlast
  · intro before rest hit hh
    obtain ⟨receiver, path, more, behind, -, hstart, hr, hp, hdot, hreplacement, -⟩ := h hh
    rw [hreplacement, List.append_assoc]
    refine .of_dotted ?_ ?_ (List.mem_append_right _ hdot)
    · rw [head?_append_any (hne hstart)]
      exact hstart
    · intro d hd
      rcases List.mem_append.1 hd with hd | hd
      · exact hr d hd
      · exact hp d hd
  · intro c hit hh
    obtain ⟨_, _, _, _, hbefore, -⟩ := h hh
    exact hbefore
  · intro c hit hh
    obtain ⟨receiver, path, more, behind, -, hstart, -, -, -, hreplacement, hmatched⟩ := h hh
    rw [hreplacement, hmatched, List.append_assoc, head?_append_any (hne hstart),
      head?_append_any (hne hstart)]
    exact ⟨hstart, hstart⟩

namespace RetiredCall

/-- The name in front of a call's parenthesis is the receiver with the method. -/
theorem of_at?_eq_some {methods : List Text} {c : Cursor} {call : RetiredCall}
    (h : at? methods c = some call) : call.receiver ≠ [] ∧ IsGap call.gap ∧
      call.method ∈ methods ∧ ∃ rest,
        dottedName? c = some (call.receiver ++ call.method, call.gap ++ '(' :: rest) := by
  obtain ⟨hne, hg, name, rest, hd, hs⟩ := at?_eq_some_iff.1 h
  obtain ⟨hmethod, rfl⟩ := splitName?_eq_some hs
  exact ⟨hne, hg, hmethod, rest, hd⟩

/-- A rule that gives calls another method takes a call. -/
theorem of_map_hit {methods : List Text} {modern : Text} {c : Cursor} {found : Hit}
    (h : (at? methods c).map (hit modern) = some found) :
    ∃ call, at? methods c = some call ∧ found = hit modern call := by
  obtain ⟨call, hcall, rfl⟩ := Option.map_eq_some_iff.1 h
  exact ⟨call, hcall, rfl⟩

/-- A one-shot completion is a call as well. -/
theorem of_completionHit?_eq_some {c : Cursor} {found : Hit} (h : completionHit? c = some found) :
    ∃ call, at? [".Completion.create", ".completions.create"] c = some call ∧
      found = hit chatCompletion call := by
  obtain ⟨call, hcall, rfl⟩ := Option.map_eq_some_iff.1 h
  exact ⟨call, (Option.filter_eq_some_iff.1 hcall).1, rfl⟩

/-- Rules that give calls another method are tame. -/
theorem tame {find? : Cursor → Option Hit} (hrec : Recognises find?) {methods : List Text}
    {modern : Text} (hfind : ∀ {c : Cursor} {found : Hit}, find? c = some found →
      ∃ call, at? methods c = some call ∧ found = hit modern call)
    (hmodern : ∀ d ∈ modern, isNameChar d = true) (hdot : '.' ∈ modern) : Tame find? := by
  refine .of_receiver hrec ?_ ?_
  · intro c found hh
    obtain ⟨call, hcall, rfl⟩ := hfind hh
    obtain ⟨hne, -, -, rest, hd⟩ := of_at?_eq_some hcall
    obtain ⟨hbefore, -, hstart, hname, -⟩ := dottedName?_eq_some_iff.1 hd
    rw [head?_append_any hne] at hstart
    exact ⟨call.receiver, modern, call.gap ++ ['('], call.method ++ (call.gap ++ ['(']), hbefore,
      hstart, fun d hd => hname d (List.mem_append_left _ hd), hmodern, hdot,
      by simp [hit, text], by simp [hit, text]⟩
  · intro c found hh _
    obtain ⟨call, -, rfl⟩ := hfind hh
    simpa [hit, text] using (by decide : isNameChar '(' = false)

end RetiredCall

namespace ChoiceAccess

/-- An access has a name for its receiver. -/
def HasReceiver (c : Cursor) (access : ChoiceAccess) : Prop :=
  c.follows isNameChar = false ∧ access.receiver.head?.any isNameStart = true ∧
    ∀ d ∈ access.receiver, isNameChar d = true

theorem hasReceiver_of_attributesAt? {c : Cursor} {access : ChoiceAccess}
    (h : attributesAt? c = some access) : HasReceiver c access := by
  obtain ⟨-, hne, -, more, -, hd⟩ := attributesAt?_eq_some_iff.1 h
  obtain ⟨hbefore, -, hstart, hname, -⟩ := dottedName?_eq_some_iff.1 hd
  rw [head?_append_any hne] at hstart
  exact ⟨hbefore, hstart, fun d hd => hname d (List.mem_append_left _ hd)⟩

theorem hasReceiver_of_subscriptsAt? {c : Cursor} {access : ChoiceAccess}
    (h : subscriptsAt? c = some access) : HasReceiver c access := by
  obtain ⟨-, q, q', more, -, -, -, hd⟩ := subscriptsAt?_eq_some_iff.1 h
  obtain ⟨hbefore, -, hstart, hname, -⟩ := dottedName?_eq_some_iff.1 hd
  exact ⟨hbefore, hstart, hname⟩

/-- Rules that write the path to the content of a message are tame. -/
theorem tame {find? : Cursor → Option Hit} (hrec : Recognises find?)
    (hfind : ∀ {c : Cursor} {found : Hit}, find? c = some found →
      ∃ access, HasReceiver c access ∧ found = hit access) : Tame find? := by
  refine .of_receiver hrec ?_ ?_
  · intro c found hh
    obtain ⟨access, ⟨hbefore, hstart, hname⟩, rfl⟩ := hfind hh
    refine ⟨access.receiver, ".choices", '[' :: (access.index ++ "].message.content"),
      access.text.drop access.receiver.length, hbefore, hstart, hname,
      List.all_eq_true.1 (by decide), by decide,
      by simp [hit, modern], ?_⟩
    show access.text = _
    unfold text
    split <;> simp
  · intro c found hh hend
    obtain ⟨access, -, rfl⟩ := hfind hh
    have hlast : access.modern.getLast? = some 't' := by
      simp [modern, List.getLast?_append, List.getLast?_cons]
    rw [show (hit access).replacement = access.modern from rfl, hlast] at hend
    exact absurd hend (by decide)

end ChoiceAccess

/-! ## Rules for keys and model names -/

/-- The first character of the end of a key, whitespace apart, is a quote or a sign. -/
theorem head?_skipBlanks_keyEnd {close rest : Text} {sign : Char} (h : IsKeyEnd close sign) :
    ∃ c, (skipBlanks (close ++ rest)).head? = some c ∧
      (isQuote c = true ∨ c = ':' ∨ c = '=') := by
  obtain ⟨quote, gap, hquote, hg, hs, rfl⟩ := h
  rcases hquote with rfl | ⟨q, hq, rfl⟩
  · have hblank : isBlank sign = false := by rcases hs with rfl | rfl <;> decide
    refine ⟨sign, ?_, .inr hs⟩
    rw [head?_skipBlanks_eq_some_iff hblank]
    exact ⟨gap, rest, hg, by simp⟩
  · refine ⟨q, ?_, .inl hq⟩
    rw [head?_skipBlanks_eq_some_iff (isBlank_of_isQuote hq)]
    exact ⟨[], gap ++ [sign] ++ rest, isGap_nil, by simp⟩

/-- A separator is the end of a bare key with whitespace behind it. -/
theorem head?_skipBlanks_separator {separator rest : Text} (h : IsSeparator separator) :
    ∃ c, (skipBlanks (separator ++ rest)).head? = some c ∧
      (isQuote c = true ∨ c = ':' ∨ c = '=') := by
  obtain ⟨left, sign, right, hl, hs, -, rfl⟩ := h
  have hend : IsKeyEnd (left ++ [sign]) sign := ⟨[], left, .inl rfl, hl, hs, by simp⟩
  simpa using @head?_skipBlanks_keyEnd _ (right ++ rest) _ hend

namespace ModelMention

/-- The successors of retired models. -/
def successors : List Text :=
  ["o1", "gpt-4.1", "o1-mini", "gpt-4.1-mini", "text-embedding-3-large", "text-embedding-3-small"]

/-- Every model has a successor. -/
theorem successorOf_mem (model : Text) (intent : Intent) :
    successorOf model intent ∈ successors := by
  have htier : ∀ tier : Tier, tier.successor intent ∈ successors := by
    intro tier
    cases tier <;> cases intent <;> decide
  unfold successorOf
  split
  · exact htier _
  · cases intent <;> decide

/-- A quoted successor begins a replacement. -/
theorem opening_successor {q : Char} (hq : isQuote q = true) {model rest : Text}
    (hmodel : model ∈ successors) : Opening (q :: (model ++ rest)) := by
  refine .of_quote hq ?_
  simp only [successors, List.mem_cons, List.not_mem_nil, or_false] at hmodel
  rcases hmodel with rfl | rfl | rfl | rfl | rfl | rfl
  · exact .inl ⟨'o', by decide, rfl⟩
  · exact .inl ⟨'g', by decide, rfl⟩
  · exact .inl ⟨'o', by decide, rfl⟩
  · exact .inl ⟨'g', by decide, rfl⟩
  · exact .inr ⟨"embedding-3-large" ++ rest, by simp⟩
  · exact .inr ⟨"embedding-3-small" ++ rest, by simp⟩

/-- What a long name gives way to. -/
theorem of_longHit?_eq_some {radius : Option Nat} {c : Cursor} {found : Hit}
    (h : longHit? radius c = some found) : ∃ q model successor, isQuote q = true ∧
      model ∈ RetiredModel.longNames ∧ successor ∈ successors ∧
      found.matched = q :: (model ++ [q]) ∧ found.replacement = q :: (successor ++ [q]) := by
  obtain ⟨mention, hm, rfl⟩ := Option.map_eq_some_iff.1 h
  obtain ⟨hlead, hq, hmodel⟩ := of_longAt?_eq_some hm
  exact ⟨mention.quote, mention.model, _, hq, hmodel,
    successorOf_mem mention.model (mention.intent radius c), by simp [hit, text, hlead],
    by simp [hit, text, naming, hlead]⟩

/-- The rule for long names is tame. -/
theorem tame_longHit? (radius : Option Nat) : Tame (longHit? radius) where
  recognises := recognises_longHit? radius
  opening := by
    intro before rest hit hh
    obtain ⟨q, model, successor, hq, -, hsuccessor, -, hreplacement⟩ := of_longHit?_eq_some hh
    rw [hreplacement, List.cons_append, List.append_assoc]
    exact opening_successor hq hsuccessor
  nonempty := by
    intro c hit hh
    obtain ⟨q, model, successor, -, -, -, -, hreplacement⟩ := of_longHit?_eq_some hh
    simp [hreplacement]
  inner := by
    intro c hit hh _
    obtain ⟨q, model, successor, hq, -, -, hmatched, hreplacement⟩ := of_longHit?_eq_some hh
    simp [hmatched, hreplacement, isNameChar_of_isQuote hq]
  sameHead := by
    intro c hit d hh hd _
    obtain ⟨q, model, successor, -, -, -, hmatched, hreplacement⟩ := of_longHit?_eq_some hh
    rw [hmatched, ← hd, hreplacement]
    rfl
  notEquals := by
    intro c hit hh heq
    obtain ⟨q, model, successor, hq, -, -, hmatched, -⟩ := of_longHit?_eq_some hh
    obtain rfl : q = '=' := by simpa [hmatched] using heq
    exact absurd hq (by decide)
  last := by
    intro c hit hh _
    obtain ⟨q, model, successor, hq, -, -, hmatched, -⟩ := of_longHit?_eq_some hh
    simp [hmatched, List.getLast?_cons, isNameChar_of_isQuote hq]

/-- What a short name gives way to. -/
theorem of_shortHit?_eq_some {radius : Option Nat} {c : Cursor} {found : Hit}
    (h : shortHit? radius c = some found) :
    ∃ key close sign gap q model successor more, key ∈ keys ∧ IsKeyEnd close sign ∧ IsGap gap ∧
      isQuote q = true ∧ model ∈ RetiredModel.shortNames ∧ successor ∈ successors ∧
      found.matched = key ++ (close ++ (gap ++ q :: (model ++ [q]))) ∧
      found.replacement = key ++ (close ++ (gap ++ q :: (successor ++ [q]))) ∧
      dottedName? c = some (key, close ++ (gap ++ q :: (model ++ q :: more))) := by
  obtain ⟨mention, hm, rfl⟩ := Option.map_eq_some_iff.1 h
  obtain ⟨hmodel, hq, key, close, sign, gap, more, hkey, hclose, hg, hlead, hd⟩ :=
    of_shortAt?_eq_some hm
  exact ⟨key, close, sign, gap, mention.quote, mention.model, _, more, hkey, hclose, hg,
    hq, hmodel, successorOf_mem mention.model (mention.intent radius c),
    by simp [hit, text, hlead], by simp [hit, text, naming, hlead], hd⟩

/-- The keys of short names are no words in front of which trailers have a quote. -/
theorem keys_open : ∀ key ∈ keys, key ≠ [] ∧ (∀ c ∈ key, isWord c = true) ∧
    key ∉ quotedWords := by
  have hkeys : ∀ key ∈ keys, key ≠ [] ∧ key.all isWord = true ∧ key ∉ quotedWords := by decide
  exact fun key hkey => (hkeys key hkey).imp_right (And.imp_left List.all_eq_true.1)

/-- The rule for short names is tame. -/
theorem tame_shortHit? (radius : Option Nat) : Tame (shortHit? radius) := by
  refine .of_names (recognises_shortHit? radius) ?_ ?_ ?_ ?_
  · intro before rest hit hh
    obtain ⟨key, close, sign, gap, q, model, successor, more, hkey, hclose, -, -, -, -, -,
      hreplacement, -⟩ := of_shortHit?_eq_some hh
    obtain ⟨hne, hword, hother⟩ := keys_open key hkey
    rw [hreplacement, List.append_assoc, List.append_assoc]
    obtain ⟨c, hhead, hc⟩ := head?_skipBlanks_keyEnd hclose
    exact .of_key hne hword hother hhead hc
  · intro c hit hh
    obtain ⟨_, _, _, _, _, _, _, _, -, -, -, -, -, -, -, -, hd⟩ := of_shortHit?_eq_some hh
    exact (dottedName?_eq_some_iff.1 hd).1
  · intro c hit hh
    obtain ⟨key, _, _, _, _, _, _, _, hkey, -, -, -, -, -, hmatched, hreplacement, -⟩ :=
      of_shortHit?_eq_some hh
    rw [hmatched, hreplacement, head?_append_any (keys_open key hkey).1,
      head?_append_any (keys_open key hkey).1]
    exact ⟨(keys_words key hkey).1, (keys_words key hkey).1⟩
  · intro c hit hh _
    obtain ⟨_, _, _, _, q, _, _, _, -, -, -, hq, -, -, hmatched, -⟩ := of_shortHit?_eq_some hh
    simp [hmatched, List.getLast?_append, List.getLast?_cons, isNameChar_of_isQuote hq]

end ModelMention

/-- A token limit is recognised at the first character of its name only. -/
theorem tokenLimitHit?_eq_none {before after : Text} {c : Char} (hc : c ≠ 'm') :
    tokenLimitHit? ⟨before, c :: after⟩ = none := by
  cases hh : tokenLimitHit? ⟨before, c :: after⟩ with
  | none => rfl
  | some hit =>
      obtain ⟨name, rest, hd, rfl, -⟩ := tokenLimitHit?_ne_none_iff.1
        (Option.ne_none_iff_exists'.2 ⟨hit, hh⟩)
      have hafter := (dottedName?_eq_some_iff.1 hd).2.1
      exact absurd (List.cons.inj hafter).1 hc

/-- What a token limit gives way to. -/
theorem of_tokenLimitHit?_eq_some {c : Cursor} {hit : Hit} (h : tokenLimitHit? c = some hit) :
    hit = ⟨tokenLimitName, "max_completion_tokens"⟩ ∧ ∃ close sign more,
      IsKeyEnd close sign ∧ (sign = '=' → more.head? ≠ some '=') ∧
      dottedName? c = some (tokenLimitName, close ++ more) := by
  obtain ⟨name, rest, hd, rfl, hfollows⟩ := tokenLimitHit?_ne_none_iff.1
    (Option.ne_none_iff_exists'.2 ⟨hit, h⟩)
  obtain ⟨⟨close, more⟩, hend⟩ := Option.isSome_iff_exists.1 (Trailer.follows_key_iff.1 hfollows)
  obtain ⟨rfl, sign, hclose, hnext⟩ := keyEnd?_eq_some_iff.1 hend
  refine ⟨?_, close, sign, more, hclose, hnext, hd⟩
  unfold tokenLimitHit? at h
  split at h
  · simp at h
  · split at h
    · split at h
      · exact (Option.some.inj h).symm
      · simp at h
    · simp at h

/-- A token limit is read exactly where its name stands in front of the end of a key. -/
theorem tokenLimitHit?_eq_some_iff {c : Cursor} {hit : Hit} :
    tokenLimitHit? c = some hit ↔ hit = ⟨tokenLimitName, "max_completion_tokens"⟩ ∧
      ∃ close sign more, IsKeyEnd close sign ∧ (sign = '=' → more.head? ≠ some '=') ∧
        dottedName? c = some (tokenLimitName, close ++ more) := by
  refine ⟨of_tokenLimitHit?_eq_some, ?_⟩
  rintro ⟨rfl, close, sign, more, hclose, hnext, hd⟩
  have hend : (keyEnd? (close ++ more)).isSome = true := by
    rw [keyEnd?_eq_some_iff.2 ⟨rfl, sign, hclose, hnext⟩]
    rfl
  obtain ⟨found, hfound⟩ := Option.ne_none_iff_exists'.1
    (tokenLimitHit?_ne_none_iff.2 ⟨_, _, hd, rfl, Trailer.follows_key_iff.2 hend⟩)
  rw [hfound, (of_tokenLimitHit?_eq_some hfound).1]

/-- What stands behind a token limit is the end of a key before and after the pass. -/
theorem keyEnd_rewritten {before rest : Text} {hit : Hit}
    (h : tokenLimitHit? ⟨before, hit.matched ++ rest⟩ = some hit) (seen : Text) :
    ∃ close sign more, IsKeyEnd close sign ∧ rewritten tokenLimitHit? seen rest =
      close ++ more := by
  obtain ⟨rfl, close, sign, more, hclose, -, hd⟩ := of_tokenLimitHit?_eq_some h
  obtain rfl := List.append_cancel_left (dottedName?_eq_some_iff.1 hd).2.1
  refine ⟨close, sign, _, hclose, rewritten_stretch fun first second hsplit hne => ?_⟩
  obtain ⟨c, second, rfl⟩ := List.exists_cons_of_ne_nil hne
  refine tokenLimitHit?_eq_none ?_
  rintro rfl
  have hmem : 'm' ∈ close := by
    rw [hsplit]
    exact List.mem_append_right _ List.mem_cons_self
  exact absurd (isNameChar_keyEnd hclose _ hmem) (by decide)

/-- The rule for token limits is tame. -/
theorem tame_tokenLimitHit? : Tame tokenLimitHit? := by
  refine .of_names recognises_tokenLimitHit? ?_ ?_ ?_ ?_
  · intro before rest hit hh
    obtain ⟨close, sign, more, hclose, hwritten⟩ :=
      keyEnd_rewritten hh (hit.matched.reverse ++ before)
    rw [hwritten, (of_tokenLimitHit?_eq_some hh).1]
    obtain ⟨c, hhead, hc⟩ := head?_skipBlanks_keyEnd hclose
    exact .of_key (by decide) (List.all_eq_true.1 (by decide)) (by decide) hhead hc
  · intro c hit hh
    obtain ⟨-, _, _, _, -, -, hd⟩ := of_tokenLimitHit?_eq_some hh
    exact (dottedName?_eq_some_iff.1 hd).1
  · intro c hit hh
    rw [(of_tokenLimitHit?_eq_some hh).1]
    decide
  · intro c hit hh hlast
    rw [(of_tokenLimitHit?_eq_some hh).1] at hlast
    exact absurd hlast (by decide)

/-! ## Prompts and engine keys -/

/-- The keys that prompts and engine keys are written with. -/
def writtenKeys : List Text :=
  ["prompt", "messages", "engine", "model"]

/-- A key in quotes or in front of a separator begins a replacement. -/
theorem Opening.of_writtenKey {quote key separator rest : Text} (hquote : IsOptionalQuote quote)
    (hkey : key ∈ writtenKeys) (hs : IsSeparator separator) :
    Opening (quote ++ (key ++ (quote ++ (separator ++ rest)))) := by
  rcases hquote with rfl | ⟨q, hq, rfl⟩
  · have hkeys : ∀ key ∈ writtenKeys, key ≠ [] ∧ key.all isWord = true ∧ key ∉ quotedWords := by
      decide
    obtain ⟨hne, hword, hother⟩ := hkeys key hkey
    obtain ⟨c, hhead, hc⟩ := head?_skipBlanks_separator hs
    show Opening (key ++ (separator ++ rest))
    exact .of_key hne (List.all_eq_true.1 hword) hother hhead hc
  · refine .of_quote hq (.inl ?_)
    simp only [writtenKeys, List.mem_cons, List.not_mem_nil, or_false] at hkey
    rcases hkey with rfl | rfl | rfl | rfl
    · exact ⟨'p', by decide, rfl⟩
    · exact ⟨'m', by decide, rfl⟩
    · exact ⟨'e', by decide, rfl⟩
    · exact ⟨'m', by decide, rfl⟩

/-- The first character of a key in its quotes is a quote or a letter. -/
theorem head?_writtenKey {quote key rest : Text} (hquote : IsOptionalQuote quote)
    (hkey : key ∈ writtenKeys) : ∃ c, (quote ++ (key ++ rest)).head? = some c ∧
      (isQuote c = true ∧ quote = [c] ∨ isNameStart c = true ∧ quote = []) := by
  rcases hquote with rfl | ⟨q, hq, rfl⟩
  · have hkeys : ∀ key ∈ writtenKeys, key ≠ [] ∧ key.head?.any isNameStart = true := by decide
    obtain ⟨hne, hstart⟩ := hkeys key hkey
    obtain ⟨c, key, rfl⟩ := List.exists_cons_of_ne_nil hne
    exact ⟨c, rfl, .inr ⟨by simpa using hstart, rfl⟩⟩
  · exact ⟨q, rfl, .inl ⟨hq, rfl⟩⟩

namespace PromptArgument

/-- How a list with one message begins if its keys stand in quotes. -/
def quotedOpening (q : Char) : Text :=
  '[' :: '\x7b' :: q :: ("role" ++ q :: ':' :: ' ' :: q :: ("user" ++ q :: ',' :: ' ' :: q ::
    ("content" ++ q :: ':' :: [' '])))

/-- How a list with one message begins if its keys are bare. -/
def bareOpening (q : Char) : Text :=
  '[' :: '\x7b' :: ' ' :: ("role" ++ ':' :: ' ' :: q :: ("user" ++ q :: ',' :: ' ' ::
    ("content" ++ ':' :: [' '])))

/-- What a list with one message has around the literal that it says. -/
inductive Frame (left right : Text) : Prop where
  | quoted (q : Char) : isQuote q = true → left = quotedOpening q → right = ['\x7d', ']'] →
      Frame left right
  | bare (q : Char) : isQuote q = true → left = bareOpening q → right = [' ', '\x7d', ']'] →
      Frame left right

/-- What closes a message belongs to no name. -/
theorem Frame.isNameChar_right {left right : Text} (h : Frame left right) :
    ∀ c ∈ right, isNameChar c = false := by
  cases h with
  | quoted _ _ _ hright =>
      rw [hright]
      simp only [List.forall_mem_cons]
      exact ⟨by decide, by decide, by simp⟩
  | bare _ _ _ hright =>
      rw [hright]
      simp only [List.forall_mem_cons]
      exact ⟨by decide, by decide, by decide, by simp⟩

/-- The list with one message has the literal in a frame. -/
theorem messages_eq {prompt : PromptArgument} (hquote : IsOptionalQuote prompt.keyQuote)
    (hvalue : IsDelimiter prompt.value.delimiter) : ∃ left right, Frame left right ∧
      prompt.messages = prompt.keyQuote ++ ("messages" ++ (prompt.keyQuote ++ (prompt.separator ++
        (left ++ (prompt.value.text ++ right))))) := by
  rcases hquote with hnil | ⟨q, hq, hcons⟩
  · by_cases hsign : '=' ∈ prompt.separator
    · exact ⟨_, _, .quoted '"' (by decide) rfl rfl, by
        simp [messages, quotedOpening, hnil, hsign]⟩
    · obtain ⟨q, hq, hdelimiter⟩ := hvalue
      have htake : prompt.value.delimiter.take 1 = [q] := by
        rcases hdelimiter with h | h <;> simp [h]
      exact ⟨_, _, .bare q hq rfl rfl, by
        simp [messages, bareOpening, hnil, hsign, htake]⟩
  · exact ⟨_, _, .quoted q hq rfl rfl, by simp [messages, quotedOpening, hcons]⟩

/-- What a prompt gives way to. -/
theorem of_hit?_eq_some {c : Cursor} {found : Hit} (h : hit? c = some found) :
    ∃ prompt : PromptArgument, c.follows joinsKey = false ∧ IsOptionalQuote prompt.keyQuote ∧
      IsSeparator prompt.separator ∧ IsDelimiter prompt.value.delimiter ∧
      found.matched = prompt.keyQuote ++ ("prompt" ++ (prompt.keyQuote ++ (prompt.separator ++
        prompt.value.text))) ∧
      (found.replacement = found.matched ∨ ∃ left right, Frame left right ∧
        found.replacement = prompt.keyQuote ++ ("messages" ++ (prompt.keyQuote ++
          (prompt.separator ++ (left ++ (prompt.value.text ++ right)))))) := by
  obtain ⟨prompt, hp, rfl⟩ := Option.map_eq_some_iff.1 h
  obtain ⟨hbefore, hquote, hs, hvalue⟩ := of_at?_eq_some hp
  refine ⟨prompt, hbefore, hquote, hs, hvalue, by simp [text], ?_⟩
  by_cases hchat : inChatCall c = true
  · obtain ⟨left, right, hframe, hmessages⟩ := messages_eq hquote hvalue
    refine .inr ⟨left, right, hframe, ?_⟩
    show (if inChatCall c then prompt.messages else prompt.text) = _
    rw [if_pos hchat, hmessages]
  · exact .inl (if_neg hchat)

/-- A literal stands in quotes. -/
theorem exists_quotes {value : Literal} (h : IsDelimiter value.delimiter) :
    ∃ q inner, isQuote q = true ∧ value.text = q :: (inner ++ [q]) := by
  obtain ⟨q, hq, hd | hd⟩ := h
  · exact ⟨q, value.body, hq, by simp [Literal.text, hd]⟩
  · exact ⟨q, q :: q :: (value.body ++ [q, q]), hq, by simp [Literal.text, hd]⟩

/-- The last character of a literal is a quote. -/
theorem getLast?_text {value : Literal} (h : IsDelimiter value.delimiter) (text : Text) :
    ∃ q, (text ++ value.text).getLast? = some q ∧ isQuote q = true := by
  obtain ⟨q, inner, hq, htext⟩ := exists_quotes h
  exact ⟨q, by simp [htext, List.getLast?_append, List.getLast?_cons], hq⟩

/-- A name character joins a key. -/
theorem joinsKey_of_isNameChar {c : Char} (h : isNameChar c = true) : joinsKey c = true := by
  simp only [isNameChar, Bool.or_eq_true] at h
  rcases h with h | h <;> simp [joinsKey, h]

/-- The rule for prompts is tame. -/
theorem tame_hit? : Tame hit? where
  recognises := recognises_hit?
  opening := by
    intro before rest hit hh
    obtain ⟨prompt, -, hquote, hs, -, hmatched, hsame | ⟨left, right, -, hmessages⟩⟩ :=
      of_hit?_eq_some hh
    · rw [hsame, hmatched]
      simpa using Opening.of_writtenKey hquote (by decide : "prompt".toList ∈ writtenKeys) hs
    · rw [hmessages]
      simpa using Opening.of_writtenKey hquote (by decide : "messages".toList ∈ writtenKeys) hs
  nonempty := by
    intro c hit hh
    obtain ⟨prompt, -, -, -, -, hmatched, hsame | ⟨left, right, -, hmessages⟩⟩ :=
      of_hit?_eq_some hh
    · simp [hsame, hmatched]
    · simp [hmessages]
  inner := by
    intro c hit hh hc
    obtain ⟨prompt, hbefore, -⟩ := of_hit?_eq_some hh
    rw [Cursor.follows] at hc hbefore
    cases hb : c.before.head? with
    | none => simp [hb] at hc
    | some d =>
        rw [hb] at hc hbefore
        have hjoins := joinsKey_of_isNameChar hc
        simp [hjoins] at hbefore
  sameHead := by
    intro c hit d hh hd hclass
    obtain ⟨prompt, -, hquote, -, -, hmatched, hsame | ⟨left, right, -, hmessages⟩⟩ :=
      of_hit?_eq_some hh
    · rw [← hsame, hd]
    · obtain ⟨e, he, hcase⟩ :=
        head?_writtenKey hquote (by decide : "messages".toList ∈ writtenKeys)
      rw [hmessages, he] at hd
      obtain rfl := Option.some.inj hd
      rcases hcase with ⟨-, hkey⟩ | ⟨hstart, -⟩
      · simp [hmatched, hkey]
      · rw [isNameStart_of_opens hclass] at hstart
        exact absurd hstart (by simp)
  notEquals := by
    intro c hit hh heq
    obtain ⟨prompt, -, hquote, -, -, hmatched, -⟩ := of_hit?_eq_some hh
    obtain ⟨e, he, hcase⟩ := head?_writtenKey hquote (by decide : "prompt".toList ∈ writtenKeys)
    rw [hmatched, he] at heq
    obtain rfl := Option.some.inj heq
    rcases hcase with ⟨hq, -⟩ | ⟨hstart, -⟩
    · exact absurd hq (by decide)
    · exact absurd hstart (by decide)
  last := by
    intro c hit hh _
    obtain ⟨prompt, -, -, -, hvalue, hmatched, -⟩ := of_hit?_eq_some hh
    obtain ⟨q, hlast, hq⟩ := getLast?_text hvalue
      (prompt.keyQuote ++ ("prompt" ++ (prompt.keyQuote ++ prompt.separator)))
    rw [hmatched]
    have hassoc : prompt.keyQuote ++ ("prompt" ++ (prompt.keyQuote ++ (prompt.separator ++
        prompt.value.text))) = prompt.keyQuote ++ ("prompt" ++ (prompt.keyQuote ++
          prompt.separator)) ++ prompt.value.text := by simp
    rw [hassoc, hlast]
    exact isNameChar_of_isQuote hq

end PromptArgument

namespace EngineKey

/-- A key as it is written, with its parts from left to right. -/
theorem named_eq (name : Text) (key : EngineKey) : key.named name = key.lead ++ (key.keyQuote ++
    (name ++ (key.keyQuote ++ (key.separator ++ key.valueQuote)))) := by
  simp [named]

/-- What an engine key gives way to. -/
theorem of_hit?_eq_some {c : Cursor} {found : Hit} (h : hit? c = some found) :
    ∃ key : EngineKey, ∃ name ∈ ["engine".toList, "model".toList],
      (IsGap key.lead ∧ atLineStart c = true ∨
        ∃ d gap, opensKey d = true ∧ IsGap gap ∧ key.lead = d :: gap) ∧
      IsOptionalQuote key.keyQuote ∧ IsSeparator key.separator ∧ IsOptionalQuote key.valueQuote ∧
      found.matched = key.lead ++ (key.keyQuote ++ ("engine" ++ (key.keyQuote ++
        (key.separator ++ key.valueQuote)))) ∧
      found.replacement = key.lead ++ (key.keyQuote ++ (name ++ (key.keyQuote ++
        (key.separator ++ key.valueQuote)))) := by
  obtain ⟨key, hk, rfl⟩ := Option.map_eq_some_iff.1 h
  obtain ⟨hlead, hquote, hs, hvalue⟩ := of_at?_eq_some hk
  refine ⟨key, if key.valueQuote ≠ [] ∨ inCreateCall c key then "model" else "engine", ?_, hlead,
    hquote, hs, hvalue, named_eq _ key, named_eq _ key⟩
  split <;> simp

/-- The characters behind which a key may begin are no name characters, whitespace or quotes. -/
theorem opensKey_class {d : Char} (h : opensKey d = true) : isNameChar d = false ∧
    isWord d = false ∧ isBlank d = false ∧ isQuote d = false ∧
      d ∉ ['[', '.', ':', '=', ']'] := by
  simp only [opensKey, Bool.or_eq_true, beq_iff_eq] at h
  rcases h with (rfl | rfl) | rfl <;> decide

/-- The rule for engine keys is tame. -/
theorem tame_hit? : Tame hit? := by
  have hwritten : ∀ name ∈ ["engine".toList, "model".toList], name ∈ writtenKeys := by decide
  refine ⟨recognises_hit?, ?_, ?_, ?_, ?_, ?_, ?_⟩
  · intro before rest hit hh
    obtain ⟨key, name, hname, hlead, hquote, hs, -, -, hreplacement⟩ := of_hit?_eq_some hh
    rw [hreplacement]
    rcases hlead with ⟨hg, -⟩ | ⟨d, gap, hd, -, hlead⟩
    · have hopen := @Opening.of_writtenKey _ _ _ (key.valueQuote ++
        rewritten hit? (hit.matched.reverse ++ before) rest) hquote (hwritten name hname) hs
      obtain ⟨c, hc, hclass⟩ := @head?_writtenKey _ _ (key.keyQuote ++ (key.separator ++
        (key.valueQuote ++ rewritten hit? (hit.matched.reverse ++ before) rest))) hquote
        (hwritten name hname)
      have hplain : isBlank c = false ∧ c ≠ '(' := by
        rcases hclass with ⟨hq, -⟩ | ⟨hstart, -⟩
        · exact ⟨isBlank_of_isQuote hq, by rintro rfl; exact absurd hq (by decide)⟩
        · exact ⟨isBlank_of_isNameChar (isNameChar_of_isWord (isWord_of_isNameStart hstart)),
            by rintro rfl; exact absurd hstart (by decide)⟩
      have hall := Opening.of_gap hg hopen (by rw [hc]; exact hplain.1)
        (by rw [hc]; simpa using hplain.2)
      simpa using hall
    · obtain ⟨-, hword, hblank, hquote, hother⟩ := opensKey_class hd
      rw [hlead, List.cons_append]
      exact .of_char hword hblank hquote hother
  · intro c hit hh hnil
    obtain ⟨key, name, -, -, -, ⟨left, sign, right, -, -, -, hs⟩, -, -, hreplacement⟩ :=
      of_hit?_eq_some hh
    simp [hreplacement, hs] at hnil
  · intro c hit hh hc
    obtain ⟨key, name, -, hlead, -, -, -, hmatched, hreplacement⟩ := of_hit?_eq_some hh
    rcases hlead with ⟨-, hline⟩ | ⟨d, gap, hd, -, hlead⟩
    · exfalso
      rw [Cursor.follows] at hc
      rw [atLineStart] at hline
      cases hb : c.before.head? with
      | none => simp [hb] at hc
      | some d =>
          rw [hb] at hc hline
          obtain rfl : d = '\n' := by simpa using hline
          exact absurd hc (by decide)
    · simp [hmatched, hreplacement, hlead, (opensKey_class hd).1]
  · intro c hit d hh hd hclass
    obtain ⟨key, name, hname, -, hquote, -, -, hmatched, hreplacement⟩ := of_hit?_eq_some hh
    cases hl : key.lead with
    | cons e lead =>
        rw [hreplacement, hl] at hd
        rw [hmatched, hl]
        exact hd
    | nil =>
        obtain ⟨e, he, hcase⟩ := @head?_writtenKey _ _ (key.keyQuote ++ (key.separator ++
          key.valueQuote)) hquote (hwritten name hname)
        rw [hreplacement, hl, List.nil_append, he] at hd
        obtain rfl := Option.some.inj hd
        rcases hcase with ⟨-, hkey⟩ | ⟨hstart, -⟩
        · simp [hmatched, hl, hkey]
        · rw [isNameStart_of_opens hclass] at hstart
          exact absurd hstart (by simp)
  · intro c hit hh heq
    obtain ⟨key, name, -, hlead, hquote, -, -, hmatched, -⟩ := of_hit?_eq_some hh
    cases hl : key.lead with
    | cons e lead =>
        obtain rfl : e = '=' := by simpa [hmatched, hl] using heq
        rcases hlead with ⟨hg, -⟩ | ⟨d, gap, hd, -, hcons⟩
        · exact absurd (hg '=' (by simp [hl])) (by decide)
        · obtain rfl : '=' = d := (List.cons.inj (hl.symm.trans hcons)).1
          exact absurd hd (by decide)
    | nil =>
        obtain ⟨e, he, hcase⟩ := @head?_writtenKey _ _ (key.keyQuote ++ (key.separator ++
          key.valueQuote)) hquote (by decide : "engine".toList ∈ writtenKeys)
        rw [hmatched, hl, List.nil_append, he] at heq
        obtain rfl := Option.some.inj heq
        rcases hcase with ⟨hq, -⟩ | ⟨hstart, -⟩
        · exact absurd hq (by decide)
        · exact absurd hstart (by decide)
  · intro c hit hh hlast
    obtain ⟨key, name, -, -, -, ⟨left, sign, right, -, -, -, hs⟩, -, hmatched, hreplacement⟩ :=
      of_hit?_eq_some hh
    -- Both end with the separator and the quote of the value.
    have hend : ∀ word : Text, (key.lead ++ (key.keyQuote ++ (word ++ (key.keyQuote ++
        (key.separator ++ key.valueQuote))))).getLast? =
          (key.separator ++ key.valueQuote).getLast? := by
      intro word
      have hne : key.separator ++ key.valueQuote ≠ [] := by simp [hs]
      have hassoc : key.lead ++ (key.keyQuote ++ (word ++ (key.keyQuote ++
          (key.separator ++ key.valueQuote)))) = key.lead ++ (key.keyQuote ++ (word ++
            key.keyQuote)) ++ (key.separator ++ key.valueQuote) := by simp
      rw [hassoc, getLast?_append_ne_nil hne]
    rw [hreplacement, hend] at hlast
    rw [hmatched, hend]
    exact hlast

end EngineKey

/-- Every rule is tame. -/
theorem Kind.tame (kind : Kind) (radius : Option Nat) : Tame (kind.hit? radius) := by
  have hrec := kind.recognises_hit? radius
  cases kind with
  | completionCall =>
      exact RetiredCall.tame hrec RetiredCall.of_completionHit?_eq_some
        (List.all_eq_true.1 (by decide)) (by decide)
  | chatCompletionCall =>
      exact RetiredCall.tame hrec RetiredCall.of_map_hit (List.all_eq_true.1 (by decide))
        (by decide)
  | embeddingCall =>
      exact RetiredCall.tame hrec RetiredCall.of_map_hit (List.all_eq_true.1 (by decide))
        (by decide)
  | choiceAttributes =>
      refine ChoiceAccess.tame hrec fun {c found} h => ?_
      obtain ⟨access, haccess, rfl⟩ := Option.map_eq_some_iff.1 h
      exact ⟨access, ChoiceAccess.hasReceiver_of_attributesAt? haccess, rfl⟩
  | choiceSubscripts =>
      refine ChoiceAccess.tame hrec fun {c found} h => ?_
      obtain ⟨access, haccess, rfl⟩ := Option.map_eq_some_iff.1 h
      exact ⟨access, ChoiceAccess.hasReceiver_of_subscriptsAt? haccess, rfl⟩
  | promptMessage => exact PromptArgument.tame_hit?
  | modelName => exact ModelMention.tame_longHit? radius
  | shortModelName => exact ModelMention.tame_shortHit? radius
  | tokenLimit => exact tame_tokenLimitHit?
  | engineKey => exact EngineKey.tame_hit?

end SdkUpgrade
