import SdkUpgrade.Proofs.Radius
import SdkUpgrade.Proofs.Reordering

/-!
# One intent for a document

With the whole text for context, all models of a run are chosen for one intent, and that is the
intent of the text that the run leaves: `Engine.run_intent`. Rules that change one word leave
the intent of a text, `Kind.classify_rewritten`. Here the same is shown of calls, accesses by
attributes and prompts. What these rules write stands between signs that no phrase reaches over,
so one hit at a time can be replaced without a change to what the text mentions,
`Unheard.mentions_rewritten`. Only accesses by subscripts are different: what they leave may
join the word behind it.
-/

namespace SdkUpgrade

open Text Source

namespace Intent

/-! ## Mentions around a sign -/

section Mentions

variable {phrases : List Phrase} (hphrases : phrases ∈ phraseLists)

/-- No phrase is empty. -/
theorem ne_nil_of_mem : ∀ phrases ∈ phraseLists, ∀ phrase ∈ phrases, phrase ≠ [] := by
  decide

include hphrases

/-- No phrase begins at a character that belongs to no word. -/
theorem mentionsFrom_sign {c : Char} (hc : isWord c = false) (inWord : Bool) (text : Text) :
    mentionsFrom phrases inWord (c :: text) = mentions phrases text := by
  have hhead : (c :: text).head?.any isWord = false := hc
  have hnone : phrases.any (beginsWith · (c :: text)) = false := by
    refine List.any_eq_false.2 fun phrase hphrase => ?_
    rw [beginsWith_eq_false (isPhrase_of_mem phrases hphrases phrase hphrase)
      (ne_nil_of_mem phrases hphrases phrase hphrase) hhead]
    exact Bool.false_ne_true
  rw [mentionsFrom, hnone, hc, Bool.and_false, Bool.false_or]
  rfl

/-- Characters that belong to no word mention nothing. -/
theorem mentions_signs {signs : Text} (hsigns : ∀ c ∈ signs, isWord c = false) (text : Text) :
    mentions phrases (signs ++ text) = mentions phrases text := by
  induction signs with
  | nil => rfl
  | cons c signs ih =>
      obtain ⟨hc, hrest⟩ := List.forall_mem_cons.1 hsigns
      rw [List.cons_append, mentions, mentionsFrom_sign hphrases hc, ih hrest]

/-- No phrase reaches over a sign. -/
theorem mentions_split {c : Char} (hword : isWord c = false) (hgap : isGap c = false)
    (front text : Text) :
    mentions phrases (front ++ c :: text) =
      (mentions phrases front || mentions phrases text) := by
  rw [mentions,
    mentionsFrom_append (isPhrase_of_mem phrases hphrases) (halts_cons hword hgap text),
    mentionsFrom_sign hphrases hword]
  rfl

/-- No phrase reaches over a dot. -/
theorem mentions_dot (front text : Text) :
    mentions phrases (front ++ '.' :: text) = (mentions phrases front || mentions phrases text) :=
  mentions_split hphrases (by decide) (by decide) front text

/-- No phrase reaches over a quote. -/
theorem mentions_quote {q : Char} (hq : isQuote q = true) (front text : Text) :
    mentions phrases (front ++ q :: text) =
      (mentions phrases front || mentions phrases text) := by
  rcases isQuote_iff.1 hq with rfl | rfl
  · exact mentions_split hphrases (by decide) (by decide) front text
  · exact mentions_split hphrases (by decide) (by decide) front text

omit hphrases in
/-- Inside a word, no phrase begins. -/
theorem mentionsFrom_inside {word : Text} (hword : ∀ c ∈ word, isWord c = true) (text : Text) :
    mentionsFrom phrases true (word ++ text) = mentionsFrom phrases true text := by
  induction word with
  | nil => rfl
  | cons c word ih =>
      obtain ⟨hc, hrest⟩ := List.forall_mem_cons.1 hword
      rw [List.cons_append, mentionsFrom, hc, ih hrest]
      rfl

/-- A word with which no phrase begins is passed over. -/
theorem mentions_word {word rest : Text} (hne : word ≠ []) (hword : ∀ c ∈ word, isWord c = true)
    (hrest : rest.head?.any isWord = false)
    (hnone : ∀ phrase ∈ phrases, ∀ first ∈ phrase.head?, afterWord? first word = none) :
    mentions phrases (word ++ rest) = mentionsFrom phrases true rest := by
  have hbegins : phrases.any (beginsWith · (word ++ rest)) = false := by
    refine List.any_eq_false.2 fun phrase hphrase => ?_
    obtain ⟨first, later, rfl⟩ :=
      List.exists_cons_of_ne_nil (ne_nil_of_mem phrases hphrases phrase hphrase)
    have hlower := (isPhrase_of_mem phrases hphrases _ hphrase first List.mem_cons_self).2
    have hread := afterWord?_append hlower hrest word
    rw [hnone _ hphrase first rfl] at hread
    cases later with
    | nil => simp [beginsWith, hread]
    | cons next later => simp [beginsWith, hread]
  obtain ⟨c, word, rfl⟩ := List.exists_cons_of_ne_nil hne
  obtain ⟨hc, hinside⟩ := List.forall_mem_cons.1 hword
  rw [List.cons_append] at hbegins ⊢
  rw [mentions, mentionsFrom, hbegins, hc, mentionsFrom_inside hinside, Bool.and_false,
    Bool.false_or]

/-- A path with a dot in front can stand for another one that mentions the same and ends alike, if
no phrase goes on behind it. -/
theorem mentions_path {old new tail : Text} (hdot : old.head? = some '.')
    (hdot' : new.head? = some '.')
    (hsame : mentions phrases old = mentions phrases new) (hlast : old.getLast? = new.getLast?)
    (htail : Halts tail) (front : Text) :
    mentions phrases (front ++ (old ++ tail)) = mentions phrases (front ++ (new ++ tail)) := by
  have hsplit : ∀ path : Text, path.head? = some '.' →
      mentions phrases (front ++ (path ++ tail)) =
      (mentions phrases front || (mentions phrases path ||
        mentionsFrom phrases ((path.getLast?.map isWord).getD false) tail)) := by
    intro path hpath
    obtain ⟨more, rfl⟩ := List.head?_eq_some_iff.1 hpath
    have hbehind :=
      mentionsFrom_append (isPhrase_of_mem phrases hphrases) htail false ('.' :: more)
    rw [List.cons_append, mentionsFrom_sign hphrases (by decide)] at hbehind
    rw [List.cons_append, mentions_dot hphrases, hbehind]
    rfl
  rw [hsplit old hdot, hsplit new hdot', hsame, hlast]

/-- A key that stands in front of a closer can become another one. -/
theorem mentions_key {front tail : Text} (hfront : front.getLast?.any isNameChar = false)
    (htail : IsClosed tail) : mentions phrases (front ++ ("prompt" ++ tail)) =
      mentions phrases (front ++ ("messages" ++ tail)) := by
  have hplain : ∀ word ∈ ["prompt".toList, "messages".toList], IsPlain word := by decide
  have hapart : ∀ phrases ∈ phraseLists, ∀ phrase ∈ phrases,
      Apart ["prompt".toList, "messages".toList] phrase := by decide
  have hnone : ∀ phrases ∈ phraseLists,
      mentions phrases "prompt" = mentions phrases "messages" := by decide
  have hisolated : Isolated ["prompt".toList, "messages".toList] []
      (front.map .kept ++ .hit ⟨"prompt", "messages"⟩ :: tail.map .kept) := by
    refine (isolated_map_kept front).2 ⟨by simp, ?_, by simpa using htail, isolated_kept _ _ _⟩
    simpa using hfront
  have hsame := mentionsFrom_respelled hplain (isPhrase_of_mem phrases hphrases)
    (hapart phrases hphrases) hisolated fun found hmem => by
      obtain rfl : found = ⟨"prompt", "messages"⟩ := by simpa using hmem
      exact hnone phrases hphrases
  simpa [mentions] using hsame

end Mentions

end Intent

/-! ## Hits that go unheard -/

open Intent

/-- Each hit of the recogniser can be replaced without a change to what the text mentions,
whatever stands in front of it, and names end where they ended before. -/
structure Unheard (find? : Cursor → Option Hit) : Prop where
  mentions : ∀ {phrases : List Phrase} {before front rest : Text} {hit : Hit},
    phrases ∈ phraseLists → find? ⟨before, hit.matched ++ rest⟩ = some hit →
    (before.head?.any isNameChar = false → front.getLast?.any isNameChar = false) →
    Intent.mentions phrases (front ++ (hit.replacement ++ rest)) =
      Intent.mentions phrases (front ++ (hit.matched ++ rest))
  last : ∀ {c : Cursor} {hit : Hit}, find? c = some hit →
    hit.matched.getLast?.any isNameChar = false → hit.replacement.getLast?.any isNameChar = false

/-- What is left of a text by hits that go unheard mentions what the text mentioned. The text in
front of the place may be another one already. -/
theorem Unheard.mentions_rewritten {find? : Cursor → Option Hit} (h : Unheard find?)
    (ht : Tame find?) {phrases : List Phrase} (hphrases : phrases ∈ phraseLists)
    (before after : Text) : ∀ seen : Text,
      (before.head?.any isNameChar = false → seen.getLast?.any isNameChar = false) →
      Intent.mentions phrases (seen ++ rewritten find? before after) =
        Intent.mentions phrases (seen ++ after) := by
  induction before, after using pass_induction ht.recognises with
  | nil before => exact fun seen hedge => rfl
  | kept before c after hc ih =>
      intro seen hedge
      have hnext := ih (seen ++ [c]) (by simp)
      rw [rewritten_kept hc]
      simpa using hnext
  | hit before hit rest hh ih =>
      intro seen hedge
      have hnext := ih (seen ++ hit.replacement) fun hname => by
        rw [head?_reverse_append_any (ht.recognises _ _ hh).1] at hname
        rw [getLast?_append_ne_nil (ht.nonempty hh)]
        exact h.last hh hname
      rw [List.append_assoc, List.append_assoc] at hnext
      rw [rewritten_hit ht.recognises hh, hnext, h.mentions hphrases hh hedge]

namespace RetiredCall

/-- Calls whose old and new paths mention the same and end alike go unheard. -/
theorem unheard {find? : Cursor → Option Hit} {methods : List Text} {modern : Text}
    (hfind : ∀ {c : Cursor} {found : Hit}, find? c = some found →
      ∃ call, at? methods c = some call ∧ found = hit modern call)
    (hmodern : modern.head? = some '.')
    (hmethods : ∀ method ∈ methods, method.head? = some '.' ∧ modern.getLast? = method.getLast? ∧
      ∀ phrases ∈ phraseLists, mentions phrases modern = mentions phrases method) :
    Unheard find? where
  mentions := by
    intro phrases before front rest found hphrases hh _
    obtain ⟨call, hcall, rfl⟩ := hfind hh
    obtain ⟨-, hg, hmethod, -⟩ := of_at?_eq_some hcall
    obtain ⟨hdot, hlast, hsame⟩ := hmethods call.method hmethod
    have htail : Halts (call.gap ++ '(' :: rest) :=
      halts_gap hg (halts_cons (by decide) (by decide) rest)
    have hpath := mentions_path hphrases hmodern hdot (hsame phrases hphrases) hlast htail
      (front ++ call.receiver)
    simpa [hit, text] using hpath
  last := by
    intro c found hh _
    obtain ⟨call, -, rfl⟩ := hfind hh
    show (_ ++ ['(']).getLast?.any isNameChar = false
    rw [List.getLast?_concat]
    decide

end RetiredCall

/-- Accesses by attributes go unheard. -/
theorem ChoiceAccess.unheard_attributesHit? : Unheard attributesHit? where
  mentions := by
    intro phrases before front rest found hphrases hh _
    obtain ⟨access, haccess, rfl⟩ := Option.map_eq_some_iff.1 hh
    obtain ⟨hform, -, -, more, hmore, hd⟩ := attributesAt?_eq_some_iff.1 haccess
    obtain rfl : rest = more := by simpa [hit, text, hform] using dottedName?_eq_some hd
    have hwords : ∀ phrases ∈ phraseLists, mentions phrases "message" = false ∧
        ∀ word ∈ ["text".toList, "content".toList], ∀ phrase ∈ phrases,
          ∀ first ∈ phrase.head?, afterWord? first word = none := by decide
    obtain ⟨hmessage, hmute⟩ := hwords phrases hphrases
    have htext : mentions phrases ("text" ++ rest) = mentionsFrom phrases true rest :=
      mentions_word hphrases (by decide) (List.all_eq_true.1 (by decide)) hmore
        (hmute _ (by simp))
    have hcontent : mentions phrases ("content" ++ rest) = mentionsFrom phrases true rest :=
      mentions_word hphrases (by decide) (List.all_eq_true.1 (by decide)) hmore
        (hmute _ (by simp))
    have hpath : mentions phrases ("message" ++ '.' :: ("content" ++ rest)) =
        mentionsFrom phrases true rest := by
      rw [mentions_dot hphrases, hmessage, hcontent, Bool.false_or]
    have hsame : ∀ path : Text, mentions phrases (path ++ '.' :: ("message" ++ '.' ::
        ("content" ++ rest))) = mentions phrases (path ++ '.' :: ("text" ++ rest)) := by
      intro path
      rw [mentions_dot hphrases, hpath, mentions_dot hphrases, htext]
    simpa [hit, text, modern, hform] using
      hsame (front ++ (access.receiver ++ ".choices[" ++ access.index ++ "]"))
  last := by
    intro c found hh hname
    obtain ⟨access, haccess, rfl⟩ := Option.map_eq_some_iff.1 hh
    obtain ⟨hform, -⟩ := attributesAt?_eq_some_iff.1 haccess
    -- An access ends in a letter, so nothing has to be shown.
    have hletter : access.text.getLast? = some 't' := by
      simp [text, hform, List.getLast?_append, List.getLast?_cons]
    simp only [hit, hletter] at hname
    exact absurd hname (by decide)

namespace PromptArgument

/-- What a list with one message begins with mentions nothing. -/
theorem mentions_opening {phrases : List Phrase} (hphrases : phrases ∈ phraseLists) {q : Char}
    (hq : isQuote q = true) : mentions phrases (quotedOpening q).tail = false ∧
      mentions phrases (bareOpening q).tail = false := by
  rcases isQuote_iff.1 hq with rfl | rfl
  · have hnone : ∀ phrases ∈ phraseLists, mentions phrases (quotedOpening '"').tail = false ∧
        mentions phrases (bareOpening '"').tail = false := by decide
    exact hnone phrases hphrases
  · have hnone : ∀ phrases ∈ phraseLists, mentions phrases (quotedOpening '\'').tail = false ∧
        mentions phrases (bareOpening '\'').tail = false := by decide
    exact hnone phrases hphrases

/-- The list that is written around a literal mentions nothing. -/
theorem Frame.mentions_eq {left right : Text} (h : Frame left right) {phrases : List Phrase}
    (hphrases : phrases ∈ phraseLists) {value : Literal} (hvalue : IsDelimiter value.delimiter)
    (front rest : Text) : mentions phrases (front ++ (left ++ (value.text ++ (right ++ rest)))) =
      mentions phrases (front ++ (value.text ++ rest)) := by
  have hleft : ∃ inner, left = '[' :: inner ∧ mentions phrases inner = false := by
    cases h with
    | quoted q hq hleft _ => exact ⟨_, hleft, (mentions_opening hphrases hq).1⟩
    | bare q hq hleft _ => exact ⟨_, hleft, (mentions_opening hphrases hq).2⟩
  have hright : mentions phrases (right ++ rest) = mentions phrases rest :=
    mentions_signs hphrases
      (fun c hc => isWord_of_isNameChar_eq_false (h.isNameChar_right c hc)) rest
  obtain ⟨opening, rfl, hopening⟩ := hleft
  obtain ⟨q, inner, hq, htext⟩ := exists_quotes hvalue
  have hbehind : ∀ behind : Text, value.text ++ behind = q :: (inner ++ q :: behind) := by
    simp [htext]
  rw [hbehind, hbehind, List.cons_append, mentions_split hphrases (by decide) (by decide),
    mentions_quote hphrases hq, mentions_quote hphrases hq, mentions_quote hphrases hq,
    mentions_quote hphrases hq, hopening, hright, Bool.false_or]

/-- A list of messages ends with no name. -/
theorem Frame.getLast?_right {left right : Text} (h : Frame left right) (front : Text) :
    (front ++ right).getLast?.any isNameChar = false := by
  cases h with
  | quoted _ _ _ hright =>
      rw [hright, getLast?_append_ne_nil (by simp)]
      decide
  | bare _ _ _ hright =>
      rw [hright, getLast?_append_ne_nil (by simp)]
      decide

/-- No name stands in front of the key of a prompt. -/
theorem isNameChar_front {before front : Text} {prompt : PromptArgument}
    (hbefore : before.head?.any joinsKey = false) (hquote : IsOptionalQuote prompt.keyQuote)
    (hedge : before.head?.any isNameChar = false → front.getLast?.any isNameChar = false) :
    (front ++ prompt.keyQuote).getLast?.any isNameChar = false := by
  rcases hquote with hnil | ⟨q, hq, hcons⟩
  · rw [hnil, List.append_nil]
    refine hedge ?_
    cases before with
    | nil => rfl
    | cons d before =>
        cases hd : isNameChar d with
        | false => exact hd
        | true => exact absurd hbefore (by simp [joinsKey_of_isNameChar hd])
  · rw [hcons, List.getLast?_concat]
    exact isNameChar_of_isQuote hq

/-- Prompts go unheard. -/
theorem unheard_hit? : Unheard hit? where
  mentions := by
    intro phrases before front rest found hphrases hh hedge
    obtain ⟨prompt, hbefore, hquote, hs, hvalue, hmatched,
      hsame | ⟨left, right, hframe, hmessages⟩⟩ := of_hit?_eq_some hh
    · rw [hsame]
    · -- The key is respelled first, and then the list is written around the literal.
      have hkey := mentions_key hphrases (isNameChar_front hbefore hquote hedge)
        (@isClosed_separator prompt.separator (prompt.value.text ++ rest) _ hquote hs)
      have hlist := hframe.mentions_eq hphrases hvalue
        (front ++ prompt.keyQuote ++ ("messages" ++ (prompt.keyQuote ++ prompt.separator))) rest
      simp only [List.append_assoc] at hkey hlist
      rw [hmatched, hmessages]
      simp only [List.append_assoc]
      rw [hlist, hkey]
  last := by
    intro c found hh hname
    obtain ⟨prompt, -, -, -, -, hmatched, hsame | ⟨left, right, hframe, hmessages⟩⟩ :=
      of_hit?_eq_some hh
    · rwa [hsame]
    · rw [hmessages]
      simp only [← List.append_assoc]
      exact hframe.getLast?_right _

end PromptArgument

namespace Kind

/-- Calls, accesses by attributes and prompts go unheard. -/
theorem unheard {kind : Kind} (hkind : kind ∈ shapes) (hne : kind ≠ choiceSubscripts)
    (radius : Option Nat) : Unheard (kind.hit? radius) := by
  cases kind with
  | completionCall =>
      exact RetiredCall.unheard RetiredCall.of_completionHit?_eq_some (by decide) (by decide)
  | chatCompletionCall =>
      exact RetiredCall.unheard RetiredCall.of_map_hit (by decide) (by decide)
  | embeddingCall =>
      exact RetiredCall.unheard RetiredCall.of_map_hit (by decide) (by decide)
  | choiceAttributes => exact ChoiceAccess.unheard_attributesHit?
  | promptMessage => exact PromptArgument.unheard_hit?
  | choiceSubscripts => exact absurd rfl hne
  | modelName => exact absurd hkind (by decide)
  | shortModelName => exact absurd hkind (by decide)
  | tokenLimit => exact absurd hkind (by decide)
  | engineKey => exact absurd hkind (by decide)

/-- Every kind changes one word or runs before the kinds that do. -/
theorem mem_shapes_or_values (kind : Kind) : kind ∈ shapes ∨ kind ∈ values := by
  cases kind <;> decide

end Kind

/-! ## The intent along a run -/

/-- A rule leaves the intent of a text, unless it changes an access by subscripts. -/
theorem Rule.classify_apply {rule : Rule} {radius : Option Nat} {text : Text}
    (h : rule.kind = .choiceSubscripts → rule.edits radius text = []) :
    classify (rule.apply radius text) = classify text := by
  by_cases hsubscripts : rule.kind = .choiceSubscripts
  · rw [rule.apply_eq_of_edits_eq_nil radius text (h hsubscripts)]
  · show classify (rewritten (rule.kind.hit? radius) [] text) = classify text
    rcases rule.kind.mem_shapes_or_values with hkind | hkind
    · refine classify_congr fun phrases hphrases => ?_
      exact (rule.kind.unheard hkind hsubscripts radius).mentions_rewritten
        (rule.kind.tame radius) hphrases [] text [] fun _ => rfl
    · exact Kind.classify_rewritten hkind radius text

/-- Passes that change no access by subscripts leave the intent of a text. -/
theorem classify_finalText {radius : Option Nat} {rules : List Rule} {text : Text}
    (h : ∀ first rule later, rules = first ++ rule :: later → rule.kind = .choiceSubscripts →
      rule.edits radius (finalText radius first text) = []) :
    classify (finalText radius rules text) = classify text := by
  induction rules generalizing text with
  | nil => rfl
  | cons rule rules ih =>
      have hrest : classify (finalText radius rules (rule.apply radius text)) =
          classify (rule.apply radius text) :=
        ih fun first other later hsplit => h (rule :: first) other later (by rw [hsplit]; rfl)
      exact hrest.trans (Rule.classify_apply (h [] rule rules rfl))

/-- Passes of rules that change one word leave the intent of a text. -/
theorem classify_finalText_values {radius : Option Nat} {rules : List Rule} {text : Text}
    (h : ∀ rule ∈ rules, rule.kind ∈ Kind.values) :
    classify (finalText radius rules text) = classify text := by
  refine classify_finalText fun first rule later hsplit hkind => ?_
  have hvalue := h rule (by simp [hsplit])
  rw [hkind] at hvalue
  exact absurd hvalue (by decide)

/-- Without a radius, a model is chosen for the intent of the whole text. -/
theorem ModelMention.intent_none (c : Cursor) (mention : ModelMention) :
    mention.intent none c = classify c.source :=
  congrArg classify (Kind.text_window_none _ _ _)

/-- Without a radius, rules that change one word choose models for the intent of the
text that they end in. -/
theorem exists_mention_of_mem_passes {rules : List Rule} (hrules : ∀ rule ∈ rules,
      rule.kind ∈ Kind.values ∧ rule.id = rule.kind.id) {text : Text} {edit : Edit}
    (hedit : edit ∈ (passes none rules text).flatMap Pass.edits)
    (hid : edit.ruleId ∈ [Kind.modelName.id, Kind.shortModelName.id]) :
    ∃ mention : ModelMention, isQuote mention.quote = true ∧
      mention.model ∈ RetiredModel.registry.map RetiredModel.name ∧ edit.before = mention.text ∧
      edit.after = (mention.naming
        (successorOf mention.model (classify (finalText none rules text)))).text := by
  obtain ⟨first, rule, later, rfl, hmem⟩ := exists_of_mem_passes hedit
  obtain ⟨-, hrule⟩ := hrules rule (by simp)
  rw [Rule.ruleId_of_mem_edits hmem, hrule] at hid
  obtain ⟨front, rest, hit, hsource, hh, rfl⟩ :=
    exists_of_mem_editsFrom (rule.kind.recognises_hit? none) [] _ hmem
  obtain ⟨mention, hquote, hmodel, hmatched, hreplacement⟩ :=
    Kind.exists_mention (rule.kind.choosesModel_iff.2 hid) hh
  -- The passes before the mention leave the intent, and so do the passes up to the end.
  have hfirst : classify (finalText none first text) = classify text :=
    classify_finalText_values fun rule hrule => (hrules rule (by simp [hrule])).1
  have hfinal : classify (finalText none (first ++ rule :: later) text) = classify text :=
    classify_finalText_values fun rule hrule => (hrules rule hrule).1
  have hintent : mention.intent none ⟨front, hit.matched ++ rest⟩ =
      classify (finalText none (first ++ rule :: later) text) := by
    rw [ModelMention.intent_none, Cursor.source, hsource, hfinal]
    exact hfirst
  rw [hintent] at hreplacement
  exact ⟨mention, hquote, RetiredModel.mem_registry hmodel, hmatched, hreplacement⟩

/-- Every model of a run with the whole text for context is chosen for the intent of the text that
the run leaves: a registered name between equal quotes gives way to its successor for that intent,
and what was read in front of it stays. It is the intent of the given text, too, if no access by
subscripts was changed. -/
theorem Engine.run_intent (text : Text) :
    let result := Engine.run {} text
    let intent := classify result.text
    (∀ edit ∈ result.edits, edit.ruleId ∈ [Kind.modelName.id, Kind.shortModelName.id] →
      ∃ mention : ModelMention, isQuote mention.quote = true ∧
        mention.model ∈ RetiredModel.registry.map RetiredModel.name ∧ edit.before = mention.text ∧
        edit.after = (mention.naming (successorOf mention.model intent)).text) ∧
      ((∀ edit ∈ result.edits, edit.ruleId ≠ Kind.choiceSubscripts.id) →
        intent = classify text) := by
  have hrules : Catalog.standard.rules =
      Kind.shapes.map Rule.ofKind ++ Kind.values.map Rule.ofKind := rfl
  have hprepare : ({} : Engine).prepare text = text := rfl
  have htext : (Engine.run {} text).text = finalText none Catalog.standard.rules text := by
    rw [text_run, hprepare]
  have hedits : (Engine.run {} text).edits =
      (SdkUpgrade.passes none Catalog.standard.rules text).flatMap Pass.edits := rfl
  simp only [htext, hedits]
  constructor
  · intro edit hedit hid
    rw [hrules] at hedit ⊢
    rw [edits_passes_append, List.mem_append] at hedit
    rcases hedit with hedit | hedit
    · -- None of the rules that run before those for names of models has such an identifier.
      have hother : ∀ id ∈ (Kind.shapes.map Rule.ofKind).map Rule.id,
          id ∉ [Kind.modelName.id, Kind.shortModelName.id] := by decide
      exact absurd hid (hother _ (ruleId_mem_of_mem_passes hedit))
    · have hvalues : ∀ rule ∈ Kind.values.map Rule.ofKind,
          rule.kind ∈ Kind.values ∧ rule.id = rule.kind.id := by decide
      have hmention := exists_mention_of_mem_passes hvalues hedit hid
      rwa [← finalText_append] at hmention
  · intro hquiet
    refine classify_finalText fun first rule later hsplit hkind => ?_
    refine List.eq_nil_iff_forall_not_mem.2 fun edit hedit => ?_
    have hid : ∀ rule ∈ Catalog.standard.rules, rule.id = rule.kind.id := by decide
    refine hquiet edit ?_ ?_
    · rw [hsplit, edits_passes_append, edits_passes_cons]
      exact List.mem_append_right _ (List.mem_append_left _ hedit)
    · rw [Rule.ruleId_of_mem_edits hedit, hid rule (by simp [hsplit]), hkind]

/-- A short name behind a call that was rewritten gives way to the successor for reasoning, of
which the document speaks in another place. -/
theorem Engine.run_intent_solve :
    let text : Text := "solve: c.Completion.create(engine=\"ada\")"
    (∀ edit ∈ (Engine.run {} text).edits, edit.ruleId ≠ Kind.choiceSubscripts.id) ∧
      classify (Engine.run {} text).text = classify text ∧
      ∃ edit ∈ (Engine.run {} text).edits, edit.ruleId = Kind.shortModelName.id ∧
        ∃ mention : ModelMention, edit.before = mention.text ∧ edit.after = (mention.naming
          (successorOf mention.model (classify (Engine.run {} text).text))).text := by
  intro text
  have hquiet : ∀ edit ∈ (Engine.run {} text).edits, edit.ruleId ≠ Kind.choiceSubscripts.id := by
    decide +kernel
  obtain ⟨edit, hedit, hid⟩ : ∃ edit ∈ (Engine.run {} text).edits,
      edit.ruleId = Kind.shortModelName.id := by decide +kernel
  obtain ⟨hmodels, hintent⟩ := Engine.run_intent text
  obtain ⟨mention, -, -, hbefore, hafter⟩ := hmodels edit hedit (by simp [hid])
  exact ⟨hquiet, hintent hquiet, edit, hedit, hid, mention, hbefore, hafter⟩

/-- An access by subscripts may join a keyword behind it and so silence it. -/
example : classify "r['choices'][0]['text']search" = .embedding ∧
    classify (Engine.run {} "r['choices'][0]['text']search").text = .general := by
  decide +kernel

end SdkUpgrade
