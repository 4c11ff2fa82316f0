import SdkUpgrade.Proofs.Targets
import SdkUpgrade.Proofs.Trace

/-!
# What the engine leaves nothing of

A pass of any rule keeps the text free of what the rules for names look for, and a pass of such a
rule frees the text of what it looks for itself: `Kind.absent_rewritten`. The first half needs
only the names that begin inside a replacement. Nearly all of them are quiet; those inside the
literal of a prompt and the key of an engine were there before. Along the passes of the standard
catalog this becomes `Engine.no_residue`.
-/

namespace SdkUpgrade

open Text Source

/-! ## Names of replacements -/

section Names

variable {P : Text → Text → Prop} {inName : Bool} {text rest : Text}

/-- What belongs to no name begins none. -/
theorem isNameStart_of_isNameChar_eq_false {c : Char} (h : isNameChar c = false) :
    isNameStart c = false := by
  cases hs : isNameStart c with
  | false => rfl
  | true =>
      rw [isNameChar_of_isWord (isWord_of_isNameStart hs)] at h
      exact h.symm ▸ rfl

/-- The names of a text behind a character that belongs to no name. -/
theorem allNames_skip {c : Char} (hc : isNameChar c = false) (h : AllNames P false text rest) :
    AllNames P inName (c :: text) rest := by
  refine ⟨fun _ hstart => ?_, ?_⟩
  · rw [isNameStart_of_isNameChar_eq_false hc] at hstart
    exact absurd hstart (by simp)
  · rw [hc]
    exact h

/-- The names of a text behind characters that belong to no name. -/
theorem allNames_gap {gap : Text} (hg : ∀ c ∈ gap, isNameChar c = false)
    (h : AllNames P false text rest) : AllNames P false (gap ++ text) rest := by
  induction gap with
  | nil => exact h
  | cons c gap ih =>
      exact allNames_skip (hg c List.mem_cons_self)
        (ih fun d hd => hg d (List.mem_cons_of_mem _ hd))

/-- The names of a text that begins with a word in front of another character. -/
theorem allNames_word {word : Text} {c : Char} (hword : ∀ d ∈ word, isNameChar d = true)
    (hc : isNameChar c = false) (hP : word ≠ [] → P word (c :: (text ++ rest)))
    (h : AllNames P false text rest) : AllNames P inName (word ++ c :: text) rest := by
  rw [allNames_append]
  refine ⟨allNames_name hword (by simpa using hc) hP, allNames_skip hc h⟩

end Names

namespace RetiredCall

/-- The names of a rewritten call are quiet. -/
theorem allNames {call : RetiredCall} {modern rest : Text}
    (hname : ∀ c ∈ call.receiver, isNameChar c = true) (hg : IsGap call.gap)
    (hmodern : modern ∈ modernMethods) :
    AllNames Quiet false (hit modern call).replacement rest := by
  have hchars : ∀ modern ∈ modernMethods, modern.all isNameChar = true := by decide
  have hall : ∀ c ∈ call.receiver ++ modern, isNameChar c = true := by
    intro c hc
    rcases List.mem_append.1 hc with hc | hc
    · exact hname c hc
    · exact List.all_eq_true.1 (hchars modern hmodern) c hc
  have hgap : ∀ c ∈ call.gap ++ ['('], isNameChar c = false := by
    intro c hc
    rcases List.mem_append.1 hc with hc | hc
    · exact isNameChar_of_isBlank (hg c hc)
    · rw [List.mem_singleton.1 hc]
      decide
  have hstop : (call.gap ++ ['('] ++ rest).head?.any isNameChar = false :=
    head?_stretch (by simp) hgap
  show AllNames Quiet false (call.receiver ++ modern ++ call.gap ++ ['(']) rest
  rw [List.append_assoc, allNames_append]
  refine ⟨allNames_name hall hstop fun _ => ?_, ?_⟩
  · rw [List.append_assoc, List.singleton_append]
    exact RetiredCall.quiet hg hmodern
  · exact allNames_of_not_start fun c hc => isNameStart_of_isNameChar_eq_false (hgap c hc)

/-- The names of what replaces a call that was found are quiet. -/
theorem allNames_of_at? {methods : List Text} {c : Cursor} {call : RetiredCall}
    {modern rest : Text} (h : at? methods c = some call) (hmodern : modern ∈ modernMethods) :
    AllNames Quiet false (hit modern call).replacement rest := by
  obtain ⟨-, hg, -, more, hd⟩ := of_at?_eq_some h
  have hname := (dottedName?_eq_some_iff.1 hd).2.2.2.1
  exact allNames (fun d hd => hname d (List.mem_append_left _ hd)) hg hmodern

end RetiredCall

namespace ChoiceAccess

/-- The names of a rewritten access are quiet. -/
theorem allNames {access : ChoiceAccess} {rest : Text}
    (hname : ∀ c ∈ access.receiver, isNameChar c = true) (hindex : IsIndex access.index) :
    AllNames Quiet false (hit access).replacement rest := by
  have hreceiver : ∀ c ∈ access.receiver ++ ".choices", isNameChar c = true := by
    intro c hc
    rcases List.mem_append.1 hc with hc | hc
    · exact hname c hc
    · exact List.all_eq_true.1 (by decide : ".choices".toList.all isNameChar = true) c hc
  have hquiet : Quiet (access.receiver ++ ".choices") ('[' :: (access.index ++
      ("].message.content" ++ rest))) := ChoiceAccess.quiet hindex
  obtain ⟨left, word, right, hl, -, hw, hr, hsplit⟩ := hindex
  have hshape : (hit access).replacement = access.receiver ++ ".choices" ++ '[' :: (left ++
      (word ++ (right ++ ']' :: '.' :: "message.content"))) := by simp [hit, modern, hsplit]
  have hclose :
      (right ++ ']' :: '.' :: "message.content" ++ rest).head?.any isNameChar = false := by
    cases right with
    | nil => exact (by decide : isNameChar ']' = false)
    | cons c right => exact isNameChar_of_isBlank (hr c List.mem_cons_self)
  rw [hshape]
  refine allNames_word hreceiver (by decide) (fun _ => by simpa [hsplit] using hquiet) ?_
  refine allNames_gap (fun c hc => isNameChar_of_isBlank (hl c hc)) ?_
  rw [allNames_append]
  refine ⟨allNames_name (fun c hc => isNameChar_of_isWord (hw c hc)) hclose fun _ => ?_, ?_⟩
  · refine @quiet_of_next _ _ ']' ?_ (by decide) (by decide) (fun h => absurd h (by decide))
    rw [head?_skipBlanks_eq_some_iff (by decide)]
    exact ⟨right, '.' :: ("message.content" ++ rest), hr, by simp⟩
  · -- Behind the bracket there are attributes, and these are no names of their own.
    refine .of_false (allNames_gap (fun c hc => isNameChar_of_isBlank (hr c hc)) ?_)
    refine allNames_skip (by decide) ⟨fun _ hstart => absurd hstart (by decide), ?_⟩
    exact allNames_inside (List.all_eq_true.1 (by decide))

end ChoiceAccess

namespace ModelMention

/-- The names in a successor are quiet in front of a hyphen or a quote. -/
theorem allNames_successor {successor rest : Text} {q : Char} (hq : isQuote q = true)
    (hsuccessor : successor ∈ successors) : AllNames Quiet false (successor ++ [q]) rest := by
  have hquiet : ∀ {word more : Text} {d : Char}, d = '-' ∨ d = q → word ∉ soughtKeys →
      Quiet word (d :: more) := by
    intro word more d hd hword
    have hclass : isBlank d = false ∧ d ≠ '(' ∧ d ≠ '[' := by
      rcases hd with rfl | rfl
      · decide
      · rcases isQuote_iff.1 hq with rfl | rfl <;> decide
    refine quiet_of_next ?_ hclass.2.1 hclass.2.2 (fun _ => hword)
    rw [skipBlanks_eq_self (by simpa using hclass.1)]
    rfl
  have hlast : ∀ {word : Text}, word.all isNameChar = true → word ∉ soughtKeys →
      AllNames Quiet false (word ++ [q]) rest := by
    intro word hword hsought
    exact allNames_word (List.all_eq_true.1 hword) (isNameChar_of_isQuote hq)
      (fun _ => hquiet (.inr rfl) hsought) trivial
  have hhyphen : ∀ {word text : Text}, word.all isNameChar = true → word ∉ soughtKeys →
      AllNames Quiet false (text ++ [q]) rest →
      AllNames Quiet false (word ++ '-' :: text ++ [q]) rest := by
    intro word text hword hsought h
    rw [List.append_assoc, List.cons_append]
    exact allNames_word (List.all_eq_true.1 hword) (by decide)
      (fun _ => hquiet (.inl rfl) hsought) h
  have hparts : successors = ["o1".toList, "gpt" ++ '-' :: "4.1", "o1" ++ '-' :: "mini",
      "gpt" ++ '-' :: ("4.1" ++ '-' :: "mini"),
      "text" ++ '-' :: ("embedding" ++ '-' :: ("3" ++ '-' :: "large")),
      "text" ++ '-' :: ("embedding" ++ '-' :: ("3" ++ '-' :: "small"))] := by decide
  rw [hparts] at hsuccessor
  simp only [List.mem_cons, List.not_mem_nil, or_false] at hsuccessor
  rcases hsuccessor with rfl | rfl | rfl | rfl | rfl | rfl
  · exact hlast (by decide) (by decide)
  · exact hhyphen (by decide) (by decide) (hlast (by decide) (by decide))
  · exact hhyphen (by decide) (by decide) (hlast (by decide) (by decide))
  · exact hhyphen (by decide) (by decide) (hhyphen (by decide) (by decide)
      (hlast (by decide) (by decide)))
  · exact hhyphen (by decide) (by decide) (hhyphen (by decide) (by decide)
      (hhyphen (by decide) (by decide) (hlast (by decide) (by decide))))
  · exact hhyphen (by decide) (by decide) (hhyphen (by decide) (by decide)
      (hhyphen (by decide) (by decide) (hlast (by decide) (by decide))))

/-- The names of a rewritten long name are quiet. -/
theorem allNames_longHit? {radius : Option Nat} {c : Cursor} {found : Hit} {rest : Text}
    (h : longHit? radius c = some found) : AllNames Quiet false found.replacement rest := by
  obtain ⟨q, model, successor, hq, -, hsuccessor, -, hreplacement⟩ := of_longHit?_eq_some h
  rw [hreplacement]
  exact allNames_skip (isNameChar_of_isQuote hq) (allNames_successor hq hsuccessor)

/-- The names of a rewritten short name are quiet. -/
theorem allNames_shortHit? {radius : Option Nat} {c : Cursor} {found : Hit} {rest : Text}
    (h : shortHit? radius c = some found) : AllNames Quiet false found.replacement rest := by
  obtain ⟨key, close, sign, gap, q, model, successor, more, hkey, hclose, hg, hq, -,
    hsuccessor, -, hreplacement, -⟩ := of_shortHit?_eq_some h
  rw [hreplacement, allNames_append]
  refine ⟨allNames_name (keys_words key hkey).2 ?_ fun _ => ?_, .of_false ?_⟩
  · rw [List.append_assoc]
    exact head?_keyEnd hclose
  · simpa using @ModelMention.quiet _ _ _ _ rest _ _ hkey hclose hg hq hsuccessor
  · refine allNames_gap (isNameChar_keyEnd hclose) ?_
    refine allNames_gap (fun c hc => isNameChar_of_isBlank (hg c hc)) ?_
    exact allNames_skip (isNameChar_of_isQuote hq) (allNames_successor hq hsuccessor)

end ModelMention

/-- The name of a rewritten token limit is quiet. -/
theorem allNames_tokenLimitHit? {before rest : Text} {hit : Hit}
    (h : tokenLimitHit? ⟨before, hit.matched ++ rest⟩ = some hit) (seen : Text) :
    AllNames Quiet false hit.replacement (rewritten tokenLimitHit? seen rest) := by
  obtain ⟨close, sign, more, hclose, hwritten⟩ := keyEnd_rewritten h seen
  obtain ⟨d, hnext, hd⟩ := @head?_skipBlanks_keyEnd _ more _ hclose
  rw [hwritten, (of_tokenLimitHit?_eq_some h).1]
  refine allNames_name (List.all_eq_true.1 (by decide)) (head?_keyEnd hclose) fun _ => ?_
  refine quiet_of_next hnext ?_ ?_ (fun _ => by decide)
  · rintro rfl
    exact absurd hd (by decide)
  · rintro rfl
    exact absurd hd (by decide)

/-! ## Names that were there before -/

/-- Where a kind finds nothing in a text, it finds nothing at any of its names. -/
theorem Kind.not_finds {kind : Kind} (hkind : kind ∈ named) {radius : Option Nat} {text : Text}
    (h : Absent (kind.hit? radius) text) {c : Cursor} {name rest : Text} (hc : c.source = text)
    (hname : dottedName? c = some (name, rest)) : ¬ kind.Finds name rest := by
  rintro ⟨hnames, hfollows⟩
  exact (kind.readsNames hkind radius c).2 ⟨name, rest, hname, hnames, hfollows⟩ (h c hc)

/-- Behind a key in its quotes there is a quote or a sign, whitespace apart. -/
theorem next_of_key {quote separator rest : Text} (hquote : IsOptionalQuote quote)
    (hs : IsSeparator separator) :
      ∃ d, (skipBlanks (quote ++ (separator ++ rest))).head? = some d ∧
      (isQuote d = true ∨ d = ':' ∨ d = '=') := by
  obtain ⟨left, sign, right, hl, hsign, -, rfl⟩ := hs
  have hend : IsKeyEnd (quote ++ (left ++ [sign])) sign := ⟨quote, left, hquote, hl, hsign, rfl⟩
  simpa using @head?_skipBlanks_keyEnd _ (right ++ rest) _ hend

/-- No name character stands in front of what belongs to no name, unless it is empty. -/
theorem head?_reverse_stretch {stretch before : Text} (hs : ∀ c ∈ stretch, isNameChar c = false)
    (hb : stretch = [] → before.head?.any isNameChar = false) :
    (stretch.reverse ++ before).head?.any isNameChar = false := by
  by_cases hne : stretch = []
  · simpa [hne] using hb hne
  · rw [head?_reverse_append_any hne, List.getLast?_eq_some_getLast hne]
    exact hs _ (List.getLast_mem hne)

namespace EngineKey

/-- The lead of a key belongs to no name. -/
theorem isNameChar_lead {c : Cursor} {lead : Text} (h : IsGap lead ∧ atLineStart c = true ∨
      ∃ d gap, opensKey d = true ∧ IsGap gap ∧ lead = d :: gap) :
    (∀ d ∈ lead, isNameChar d = false) ∧ (lead = [] → c.follows isNameChar = false) := by
  rcases h with ⟨hg, hline⟩ | ⟨d, gap, hd, hg, rfl⟩
  · refine ⟨fun d hd => isNameChar_of_isBlank (hg d hd), fun _ => ?_⟩
    rw [atLineStart] at hline
    rw [Cursor.follows]
    cases hb : c.before.head? with
    | none => rfl
    | some d =>
        rw [hb] at hline
        obtain rfl : d = '\n' := by simpa using hline
        decide
  · refine ⟨fun e he => ?_, fun hnil => absurd hnil (by simp)⟩
    rcases List.mem_cons.1 he with rfl | he
    · exact (opensKey_class hd).1
    · exact isNameChar_of_isBlank (hg e he)

/-- If a kind found nothing before, it finds nothing at the name of a renamed key. -/
theorem allNames_hit? {kind : Kind} (hkind : kind ∈ Kind.named) {radius : Option Nat}
    {before rest : Text} {found : Hit} (h : hit? ⟨before, found.matched ++ rest⟩ = some found)
    (habsent : Absent (kind.hit? radius) (before.reverse ++ (found.matched ++ rest))) :
    AllNames (fun name behind => ¬ kind.Finds name behind) false found.replacement
      (rewritten hit? (found.matched.reverse ++ before) rest) := by
  obtain ⟨key, name, hname, hlead, hquote, hs, hvalue, hmatched, hreplacement⟩ :=
    of_hit?_eq_some h
  obtain ⟨hleadChars, hleadNil⟩ := isNameChar_lead hlead
  have hquoteChars := isNameChar_optionalQuote hquote
  have hfront : ∀ c ∈ key.lead ++ key.keyQuote, isNameChar c = false := by
    intro c hc
    exact (List.mem_append.1 hc).elim (hleadChars c) (hquoteChars c)
  have htail : ∀ c ∈ key.keyQuote ++ (key.separator ++ key.valueQuote), isNameChar c = false := by
    intro c hc
    simp only [List.mem_append] at hc
    rcases hc with hc | hc | hc
    · exact hquoteChars c hc
    · exact isNameChar_separator hs c hc
    · exact isNameChar_optionalQuote hvalue c hc
  have hstop : ∀ more : Text, (key.keyQuote ++ (key.separator ++ key.valueQuote) ++
      more).head?.any isNameChar = false := by
    obtain ⟨left, sign, right, -, -, -, hsep⟩ := hs
    exact fun more => head?_stretch (by simp [hsep]) htail
  -- In the text that the pass reads, the key is a name as well.
  have hsource : dottedName? ⟨(key.lead ++ key.keyQuote).reverse ++ before, "engine" ++
      (key.keyQuote ++ (key.separator ++ key.valueQuote) ++ rest)⟩ =
        some ("engine".toList, key.keyQuote ++ (key.separator ++ key.valueQuote) ++ rest) := by
    refine dottedName?_word (head?_reverse_stretch hfront fun hnil => ?_) (by decide)
      (List.all_eq_true.1 (by decide)) (hstop rest)
    exact hleadNil (List.append_eq_nil_iff.1 hnil).1
  have hold := kind.not_finds hkind habsent (by simp [Cursor.source, hmatched]) hsource
  have hnew : ¬ kind.Finds name (key.keyQuote ++ (key.separator ++ key.valueQuote) ++
      rewritten hit? (found.matched.reverse ++ before) rest) := by
    intro hfinds
    obtain ⟨d, hnext, hd⟩ := @next_of_key _ _ (key.valueQuote ++
      rewritten hit? (found.matched.reverse ++ before) rest) hquote hs
    rw [← List.append_assoc key.separator, ← List.append_assoc key.keyQuote] at hnext
    rcases hfinds.next hkind with ⟨-, he⟩ | ⟨-, he⟩ | ⟨hkeys, -⟩
    · obtain rfl := Option.some.inj (hnext.symm.trans he)
      exact absurd hd (by decide)
    · obtain rfl := Option.some.inj (hnext.symm.trans he)
      exact absurd hd (by decide)
    · simp only [List.mem_cons, List.not_mem_nil, or_false] at hkeys
      rcases hkeys with rfl | rfl
      · refine hold ⟨(by decide : "engine".toList ∈ ModelMention.keys), ?_⟩
        have hwhole : found.matched.reverse ++ before = (key.keyQuote ++ (key.separator ++
            key.valueQuote)).reverse ++ ("engine".toList.reverse ++
              ((key.lead ++ key.keyQuote).reverse ++ before)) := by simp [hmatched]
        rw [hwhole] at hfinds
        refine tame_hit?.follows_of_rewritten Trailer.sound_shortModel ?_ hfinds.2
        exact head?_reverse_name (by decide) (List.all_eq_true.1 (by decide)) _
      · have hlimit : name = tokenLimitName := hfinds.1
        rw [hlimit] at hname
        exact absurd hname (by decide)
  have hword : ∀ name ∈ ["engine".toList, "model".toList], name.all isNameChar = true := by
    decide
  rw [hreplacement]
  refine allNames_gap hleadChars (allNames_gap hquoteChars (allNames_append.2 ⟨?_, ?_⟩))
  · exact allNames_name (List.all_eq_true.1 (hword name hname)) (hstop _) fun _ => hnew
  · exact allNames_of_not_start fun c hc => isNameStart_of_isNameChar_eq_false (htail c hc)

end EngineKey

namespace PromptArgument

/-- A trailer in front of the frame of a message was a trailer in front of any other text, if what
stands in front of the frame ends with a quote. -/
theorem follows_of_frame {trailer : Trailer} (hs : trailer.Sound) {front left right rest : Text}
    {q : Char} (hframe : Frame left right) (hlast : front.getLast? = some q)
    (hq : isQuote q = true) {more : Text} (h : trailer.Follows (front ++ (right ++ more))) :
    trailer.Follows (front ++ rest) := by
  obtain ⟨tail, behind, hsplit, hform, hbarred⟩ := h
  rcases split_append hsplit.symm with ⟨inner, hne, rfl, rfl⟩ | ⟨beyond, rfl, hbeyond⟩
  · refine ⟨tail, inner ++ rest, by simp, hform, ?_⟩
    rw [head?_append_any hne] at hbarred ⊢
    exact hbarred
  · cases beyond with
    | nil =>
        -- The trailer ends with the quote, so nothing behind it matters.
        rw [List.append_nil] at hform
        obtain ⟨init, hinit⟩ := List.getLast?_eq_some_iff.1 hlast
        refine ⟨front, rest, rfl, hform, ?_⟩
        cases hr : rest.head? with
        | none => rfl
        | some d =>
            rw [hinit] at hform ⊢
            exact hs.closed hform (.inr hq)
    | cons c beyond =>
        -- A trailer has no brace and does not end in whitespace.
        exfalso
        have hbrace := hs.brace hform
        obtain ⟨d, hd, hblank⟩ := hs.solid hform
        cases hframe with
        | quoted _ _ _ hright =>
            rw [hright] at hbeyond
            obtain ⟨rfl, -⟩ := List.cons.inj hbeyond
            exact hbrace (by simp)
        | bare _ _ _ hright =>
            rw [hright] at hbeyond
            obtain ⟨rfl, hnext⟩ := List.cons.inj hbeyond
            cases beyond with
            | nil =>
                obtain rfl : ' ' = d := by simpa using hd
                exact absurd hblank (by decide)
            | cons e beyond =>
                obtain ⟨rfl, -⟩ := List.cons.inj hnext
                exact hbrace (by simp)

/-- Names inside a literal end inside it, since a quote closes it. -/
theorem name_in_literal {right rest name behind : Text} {q : Char}
    (hlast : right.getLast? = some q) (hq : isQuote q = true)
    (hname : ∀ c ∈ name, isNameChar c = true) (hsplit : right ++ rest = name ++ behind) :
    ∃ mid, right = name ++ mid ∧ mid.getLast? = some q ∧ behind = mid ++ rest := by
  rcases split_append hsplit.symm with ⟨mid, hne, rfl, rfl⟩ | ⟨more, rfl, -⟩
  · refine ⟨mid, rfl, ?_, rfl⟩
    obtain ⟨c, mid, rfl⟩ := List.exists_cons_of_ne_nil hne
    simpa [List.getLast?_append, List.getLast?_cons] using hlast
  · exfalso
    have hchar := hname q (List.mem_append_left _ (List.mem_of_getLast? hlast))
    rw [isNameChar_of_isQuote hq] at hchar
    exact absurd hchar (by simp)

/-- If a kind found nothing before, it finds nothing at the names inside a literal, neither where
the text goes on as the pass leaves it nor where a frame closes the message. -/
theorem allNames_value {kind : Kind} (hkind : kind ∈ Kind.named) {radius : Option Nat}
    {before rest behind : Text} {value : Literal} (hvalue : IsDelimiter value.delimiter)
    (habsent : Absent (kind.hit? radius) (before.reverse ++ (value.text ++ rest)))
    (hbefore : before.head?.any isNameChar = false)
    (hback : ∀ {front name : Text} {q : Char}, front.getLast? = some q → isQuote q = true →
      (∃ left, value.text = left ++ (name ++ front)) → (∀ c ∈ name, isNameChar c = true) →
      name ≠ [] → kind.trailer.Follows (front ++ behind) → kind.trailer.Follows (front ++ rest)) :
    AllNames (fun name behind => ¬ kind.Finds name behind) false value.text behind := by
  rw [← hbefore]
  refine allNames_of_places fun {left right name following} hsplit hne hname => ?_
  obtain ⟨hleft, hright, hstart, hall, hend⟩ := dottedName?_eq_some_iff.1 hname
  obtain ⟨q, hlast, hq⟩ := getLast?_text hvalue []
  have hlast' : right.getLast? = some q := by
    obtain ⟨c, right, rfl⟩ := List.exists_cons_of_ne_nil hne
    simpa [hsplit, List.getLast?_append, List.getLast?_cons] using hlast
  obtain ⟨front, rfl, hfront, rfl⟩ := name_in_literal hlast' hq hall hright
  rintro ⟨hnames, hfollows⟩
  have hne' : name ≠ [] := by
    rintro rfl
    simp at hstart
  have hold := hback hfront hq ⟨left, hsplit⟩ hall hne' hfollows
  -- The name stands at the same place in the text that the pass reads.
  have hfirst : ∀ more : Text, (front ++ more).head?.any isNameChar =
      front.head?.any isNameChar :=
    fun more => head?_append_any (by rintro rfl; simp at hfront)
  have hsource : dottedName? ⟨left.reverse ++ before, name ++ front ++ rest⟩ =
      some (name, front ++ rest) := by
    refine dottedName?_eq_some_iff.2 ⟨hleft, by simp, hstart, hall, ?_⟩
    rw [hfirst] at hend ⊢
    exact hend
  exact kind.not_finds hkind habsent (by simp [Cursor.source, hsplit]) hsource ⟨hnames, hold⟩

/-- The words that prompts and messages are written with are quiet in front of a quote or a
sign. -/
theorem quiet_word {word more : Text} {d : Char}
    (hword : word ∈ ["prompt".toList, "messages".toList, "role".toList, "user".toList,
      "content".toList])
    (hnext : (skipBlanks more).head? = some d) (hd : isQuote d = true ∨ d = ':' ∨ d = '=') :
    Quiet word more := by
  have hsought : ∀ word ∈ ["prompt".toList, "messages".toList, "role".toList, "user".toList,
      "content".toList], word ∉ soughtKeys := by decide
  refine quiet_of_next hnext ?_ ?_ (fun _ => hsought word hword)
  · rintro rfl
    exact absurd hd (by decide)
  · rintro rfl
    exact absurd hd (by decide)

/-- The names of a key and of what follows its separator. -/
theorem allNames_key {quote word separator text rest : Text} (hquote : IsOptionalQuote quote)
    (hs : IsSeparator separator) (hword : word ∈ ["prompt".toList, "messages".toList])
    {P : Text → Text → Prop} (hP : ∀ name behind, Quiet name behind → P name behind)
    (h : AllNames P false text rest) :
    AllNames P false (quote ++ (word ++ (quote ++ (separator ++ text)))) rest := by
  have hchars : ∀ word ∈ ["prompt".toList, "messages".toList], word.all isNameChar = true ∧
      word ∈ ["prompt".toList, "messages".toList, "role".toList, "user".toList,
        "content".toList] := by decide
  have hquoteChars := isNameChar_optionalQuote hquote
  have hsChars := isNameChar_separator hs
  have hstop : (quote ++ (separator ++ text) ++ rest).head?.any isNameChar = false := by
    obtain ⟨left, sign, right, -, -, -, hsep⟩ := hs
    rw [← List.append_assoc, List.append_assoc]
    refine head?_stretch (by simp [hsep]) fun c hc => ?_
    exact (List.mem_append.1 hc).elim (hquoteChars c) (hsChars c)
  refine allNames_gap hquoteChars (allNames_append.2 ⟨?_, ?_⟩)
  · refine allNames_name (List.all_eq_true.1 (hchars word hword).1) hstop fun _ => hP _ _ ?_
    obtain ⟨d, hnext, hd⟩ := @next_of_key _ _ (text ++ rest) hquote hs
    exact quiet_word (hchars word hword).2 (by simpa using hnext) hd
  · exact .of_false (allNames_gap hquoteChars (allNames_gap hsChars h))

/-- The names of the frame of a message and of what stands in it. -/
theorem allNames_frame {left right text rest : Text} (hframe : Frame left right)
    {P : Text → Text → Prop} (hP : ∀ name behind, Quiet name behind → P name behind)
    (h : AllNames P false text rest) : AllNames P false (left ++ text) rest := by
  -- Every word of the frame has a quote or a colon behind it.
  have hword : ∀ {word more : Text} {d : Char}, word ∈ ["role".toList, "user".toList,
      "content".toList] → isQuote d = true ∨ d = ':' → AllNames P false more rest →
      AllNames P false (word ++ d :: more) rest := by
    intro word more d hmem hd hmore
    have hchars : ∀ word ∈ ["role".toList, "user".toList, "content".toList],
        word.all isNameChar = true := by decide
    have hclass : isNameChar d = false ∧ isBlank d = false := by
      rcases hd with hq | rfl
      · exact ⟨isNameChar_of_isQuote hq, isBlank_of_isQuote hq⟩
      · decide
    refine allNames_word (List.all_eq_true.1 (hchars word hmem)) hclass.1
      (fun _ => hP _ _ ?_) hmore
    refine quiet_word (List.mem_cons_of_mem _ (List.mem_cons_of_mem _ hmem)) (d := d) ?_
      (hd.imp_right .inl)
    rw [skipBlanks_eq_self (by simpa using hclass.2)]
    rfl
  cases hframe with
  | quoted q hq hleft _ =>
      subst hleft
      have hskip := isNameChar_of_isQuote hq
      simp only [quotedOpening, List.cons_append, List.append_assoc, List.nil_append]
      refine allNames_skip (by decide) (allNames_skip (by decide) (allNames_skip hskip ?_))
      refine hword (by decide) (.inl hq) (allNames_skip (by decide) (allNames_skip (by decide)
        (allNames_skip hskip ?_)))
      refine hword (by decide) (.inl hq) (allNames_skip (by decide) (allNames_skip (by decide)
        (allNames_skip hskip ?_)))
      exact hword (by decide) (.inl hq) (allNames_skip (by decide) (allNames_skip (by decide) h))
  | bare q hq hleft _ =>
      subst hleft
      have hskip := isNameChar_of_isQuote hq
      simp only [bareOpening, List.cons_append, List.append_assoc, List.nil_append]
      refine allNames_skip (by decide) (allNames_skip (by decide) (allNames_skip (by decide) ?_))
      refine hword (by decide) (.inr rfl) (allNames_skip (by decide) (allNames_skip hskip ?_))
      refine hword (by decide) (.inl hq) (allNames_skip (by decide)
        (allNames_skip (by decide) ?_))
      exact hword (by decide) (.inr rfl) (allNames_skip (by decide) h)

/-- If a kind found nothing before, it finds nothing at the names of a message. -/
theorem allNames_hit? {kind : Kind} (hkind : kind ∈ Kind.named) {radius : Option Nat}
    {before rest : Text} {found : Hit} (h : hit? ⟨before, found.matched ++ rest⟩ = some found)
    (habsent : Absent (kind.hit? radius) (before.reverse ++ (found.matched ++ rest))) :
    AllNames (fun name behind => ¬ kind.Finds name behind) false found.replacement
      (rewritten hit? (found.matched.reverse ++ before) rest) := by
  obtain ⟨prompt, -, hquote, hs, hvalue, hmatched, hcase⟩ := of_hit?_eq_some h
  have hquiet : ∀ name behind, Quiet name behind → ¬ kind.Finds name behind :=
    fun _ _ hq => hq kind hkind
  -- What stands between the place of the prompt and its literal ends with the separator.
  have hbefore :
      ((prompt.keyQuote ++ ("prompt" ++ (prompt.keyQuote ++ prompt.separator))).reverse ++
      before).head?.any isNameChar = false := by
    have hreverse : (prompt.keyQuote ++ ("prompt" ++ (prompt.keyQuote ++
        prompt.separator))).reverse ++ before = prompt.separator.reverse ++ ((prompt.keyQuote ++
          ("prompt" ++ prompt.keyQuote)).reverse ++ before) := by simp
    rw [hreverse]
    refine head?_reverse_stretch (isNameChar_separator hs) fun hnil => ?_
    obtain ⟨left, sign, right, -, -, -, hsep⟩ := hs
    simp [hsep] at hnil
  have habsent' : Absent (kind.hit? radius) (((prompt.keyQuote ++ ("prompt" ++ (prompt.keyQuote ++
      prompt.separator))).reverse ++ before).reverse ++ (prompt.value.text ++ rest)) := by
    simpa [hmatched] using habsent
  rcases hcase with hsame | ⟨left, right, hframe, hmessages⟩
  · rw [hsame, hmatched]
    refine allNames_key hquote hs (by decide) hquiet
      (allNames_value hkind hvalue habsent' hbefore ?_)
    rintro front name q - - ⟨left, hleft⟩ hall hne hfollows
    have hwhole : found.matched.reverse ++ before = front.reverse ++ (name.reverse ++
        (left.reverse ++ ((prompt.keyQuote ++ ("prompt" ++ (prompt.keyQuote ++
          prompt.separator))).reverse ++ before))) := by simp [hmatched, hleft]
    rw [← hmatched, hwhole] at hfollows
    exact tame_hit?.follows_of_rewritten kind.sound_trailer
      (head?_reverse_name hne hall _) hfollows
  · have hright : ∀ c ∈ right, isNameStart c = false := fun c hc =>
      isNameStart_of_isNameChar_eq_false (hframe.isNameChar_right c hc)
    rw [hmessages]
    refine allNames_key hquote hs (by decide) hquiet (allNames_frame hframe hquiet
      (allNames_append.2 ⟨?_, allNames_of_not_start hright⟩))
    refine allNames_value hkind hvalue habsent' hbefore ?_
    intro front name q hlast hq _ _ _ hfollows
    exact follows_of_frame kind.sound_trailer hframe hlast hq hfollows

end PromptArgument

/-! ## Passes and residue -/

/-- What the rules for names look for is not in a text after a pass of any rule, if it was not
there before or if the rule is the one that looks for it. -/
theorem Kind.absent_rewritten {kind : Kind} (hkind : kind ∈ named) (other : Kind)
    {radius : Option Nat} {text : Text} (h : Absent (kind.hit? radius) text ∨ other = kind) :
    Absent (kind.hit? radius) (rewritten (other.hit? radius) [] text) := by
  refine SdkUpgrade.absent_rewritten (other.tame radius) kind.sound_trailer
    (kind.readsNames hkind radius) ?_ ?_
  · intro c hc hnone
    rcases h with habsent | rfl
    · exact habsent c hc
    · exact hnone
  · intro seen before rest hit hr hh
    have hquiet : ∀ {rest : Text}, AllNames Quiet false hit.replacement rest →
        AllNames (fun name behind => ¬ kind.Finds name behind) false hit.replacement rest :=
      fun hall => hall.imp fun name behind hq => hq kind hkind
    -- The rules that write a prompt or a key are not among those that look for names.
    have hfree : other ∉ named → Absent (kind.hit? radius) (before.reverse ++
        (hit.matched ++ rest)) := by
      intro hother
      rw [hr.source_eq]
      exact h.resolve_right fun heq => hother (heq ▸ hkind)
    cases other with
    | completionCall =>
        obtain ⟨call, hcall, rfl⟩ := Option.map_eq_some_iff.1 hh
        exact hquiet (RetiredCall.allNames_of_at? (Option.filter_eq_some_iff.1 hcall).1
          (by decide))
    | chatCompletionCall =>
        obtain ⟨call, hcall, rfl⟩ := Option.map_eq_some_iff.1 hh
        exact hquiet (RetiredCall.allNames_of_at? hcall (by decide))
    | embeddingCall =>
        obtain ⟨call, hcall, rfl⟩ := Option.map_eq_some_iff.1 hh
        exact hquiet (RetiredCall.allNames_of_at? hcall (by decide))
    | choiceAttributes =>
        obtain ⟨access, haccess, rfl⟩ := Option.map_eq_some_iff.1 hh
        obtain ⟨-, -, hname⟩ := ChoiceAccess.hasReceiver_of_attributesAt? haccess
        exact hquiet (ChoiceAccess.allNames hname
          (ChoiceAccess.attributesAt?_eq_some_iff.1 haccess).2.2.1)
    | choiceSubscripts =>
        obtain ⟨access, haccess, rfl⟩ := Option.map_eq_some_iff.1 hh
        obtain ⟨-, -, hname⟩ := ChoiceAccess.hasReceiver_of_subscriptsAt? haccess
        exact hquiet (ChoiceAccess.allNames hname
          (ChoiceAccess.subscriptsAt?_eq_some_iff.1 haccess).1)
    | promptMessage => exact PromptArgument.allNames_hit? hkind hh (hfree (by decide))
    | modelName => exact hquiet (ModelMention.allNames_longHit? hh)
    | shortModelName => exact hquiet (ModelMention.allNames_shortHit? hh)
    | tokenLimit => exact hquiet (allNames_tokenLimitHit? hh _)
    | engineKey => exact EngineKey.allNames_hit? hkind hh (hfree (by decide))

/-- The passes of some rules free a text of what one of them looks for. -/
theorem Kind.absent_finalText {kind : Kind} (hkind : kind ∈ named) {radius : Option Nat}
    (rules : List Rule) {text : Text}
    (h : Absent (kind.hit? radius) text ∨ kind ∈ rules.map Rule.kind) :
    Absent (kind.hit? radius) (finalText radius rules text) := by
  induction rules generalizing text with
  | nil => exact h.resolve_right (by simp)
  | cons rule rules ih =>
      show Absent (kind.hit? radius) (finalText radius rules (rule.apply radius text))
      refine ih ?_
      by_cases heq : rule.kind = kind
      · exact .inl (kind.absent_rewritten hkind rule.kind (.inr heq))
      · rcases h with habsent | hmem
        · exact .inl (kind.absent_rewritten hkind rule.kind (.inl habsent))
        · rw [List.map_cons, List.mem_cons] at hmem
          exact .inr (hmem.resolve_left fun hk => heq hk.symm)

/-- A rule that finds nothing in a text makes no edit. -/
theorem Rule.edits_eq_nil {rule : Rule} {radius : Option Nat} {text : Text}
    (h : Absent (rule.kind.hit? radius) text) : rule.edits radius text = [] := by
  have hpieces : rule.pieces radius text = text.map Piece.kept := by
    refine pieces_eq_map_kept [] text fun passed rest hsplit => h _ ?_
    simp [Cursor.source, hsplit]
  have hkept : ∀ offset, editsFrom rule.id offset (text.map Piece.kept) = [] := by
    clear h hpieces
    induction text with
    | nil => exact fun _ => rfl
    | cons c text ih => exact fun offset => ih (offset + 1)
  rw [edits, hpieces]
  exact hkept 0

/-- Where the rules for names find something does not depend on the radius. -/
theorem Kind.absent_radius {kind : Kind} (hkind : kind ∈ named) {radius radius' : Option Nat}
    {text : Text} (h : Absent (kind.hit? radius) text) : Absent (kind.hit? radius') text := by
  intro c hc
  cases hfound : kind.hit? radius' c with
  | none => rfl
  | some hit =>
      have hname := (kind.readsNames hkind radius' c).1 (by simp [hfound])
      exact absurd (h c hc) ((kind.readsNames hkind radius c).2 hname)

/-- The standard engine leaves nothing of what the rules for names look for, whatever
the radius and whether or not whitespace is collapsed. Applied to its output, none of
these rules makes an edit. -/
theorem Engine.no_residue (radius : Option Nat) (collapse : Bool) (text : Text) :
    ∀ kind ∈ Kind.named, ∀ radius' : Option Nat,
      Absent (kind.hit? radius') (Engine.run ⟨.standard, radius, collapse⟩ text).text ∧
        (Rule.ofKind kind).edits radius' (Engine.run ⟨.standard, radius, collapse⟩ text).text =
          [] := by
  intro kind hkind radius'
  have hrules : ∀ kind ∈ Kind.named, kind ∈ Catalog.standard.rules.map Rule.kind := by decide
  have habsent : Absent (kind.hit? radius)
      (Engine.run ⟨.standard, radius, collapse⟩ text).text := by
    rw [Engine.text_run]
    exact kind.absent_finalText hkind _ (.inr (hrules kind hkind))
  have habsent' := @Kind.absent_radius _ hkind _ radius' _ habsent
  exact ⟨habsent', Rule.edits_eq_nil habsent'⟩

/-- The call in a short program is rewritten, and nothing is left of it. -/
theorem Engine.no_residue_call :
    (Rule.ofKind .completionCall).edits none "openai.Completion.create()" ≠ [] ∧
      (Rule.ofKind .completionCall).edits none
        (Engine.run ⟨.standard, none, false⟩ "openai.Completion.create()").text = [] :=
  ⟨by decide, (Engine.no_residue none false "openai.Completion.create()" .completionCall
    (by decide) none).2⟩

end SdkUpgrade
