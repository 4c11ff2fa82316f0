import SdkUpgrade.Proofs.Intents
import SdkUpgrade.Proofs.Spacing

/-!
# Evidence for an intent

The intent of a text is the strongest one that the text has evidence for, so two texts are
compared by what they mention. Two texts with a sign between them have the evidence of both and no
more: `Intent.classify_joined`. Cleaning changes no evidence, the rules add none, and only the
rule for subscripts takes some away: `Rule.intent_survives`.

A window is a part of a text and should have no evidence that the text does not have. At
its right end this is so, since a phrase is complete where it ends. At its left end a
window may begin inside a word, and what is left of the word then counts as a word of its
own. `Window.outranks_iff` says that nothing else makes a narrow window speak for a
stronger intent than a wide one.
-/

namespace SdkUpgrade

open Text

namespace Intent

/-! ## Strength -/

/-- The stronger of two intents. -/
def stronger (intent other : Intent) : Intent :=
  if intent.rank < other.rank then other else intent

/-- The phrases that are evidence for an intent. -/
def evidence : Intent → List Phrase
  | reasoning => reasoningPhrases
  | embedding => embeddingPhrases
  | general => []

theorem evidence_mem {intent : Intent} (h : intent ≠ general) :
    intent.evidence ∈ phraseLists := by
  cases intent with
  | reasoning => exact List.mem_cons_self
  | embedding => exact List.mem_cons_of_mem _ List.mem_cons_self
  | general => exact absurd rfl h

/-- A text mentions a phrase that is evidence for its intent. -/
theorem mentions_classify {text : Text} (h : classify text ≠ general) :
    mentions (classify text).evidence text = true := by
  unfold classify at h ⊢
  split
  · assumption
  · rename_i hreasoning
    rw [if_neg hreasoning] at h
    split
    · assumption
    · rename_i hembedding
      exact absurd (if_neg hembedding) h

/-- The intent of a text is no weaker than one that the text has evidence for. -/
theorem rank_le_classify {intent : Intent} {text : Text}
    (h : mentions intent.evidence text = true) : intent.rank ≤ (classify text).rank := by
  cases intent with
  | reasoning =>
      have hreasoning : mentions reasoningPhrases text = true := h
      rw [classify, if_pos hreasoning]
  | embedding =>
      have hembedding : mentions embeddingPhrases text = true := h
      rw [classify, if_pos hembedding]
      split <;> decide
  | general => exact Nat.zero_le _

/-- A text that mentions what another one mentions has no weaker intent. -/
theorem rank_classify_le {text other : Text} (h : ∀ phrases ∈ phraseLists,
      mentions phrases text = true → mentions phrases other = true) :
    (classify text).rank ≤ (classify other).rank := by
  by_cases hgeneral : classify text = general
  · rw [hgeneral]
    exact Nat.zero_le _
  · exact rank_le_classify (h _ (evidence_mem hgeneral) (mentions_classify hgeneral))

/-- A text that mentions what either of two texts mentions has the stronger of their intents. -/
theorem classify_eq_stronger {text first second : Text} (h : ∀ phrases ∈ phraseLists,
      mentions phrases text = (mentions phrases first || mentions phrases second)) :
    classify text = (classify first).stronger (classify second) := by
  rw [classify, classify, classify, h reasoningPhrases (by simp [phraseLists]),
    h embeddingPhrases (by simp [phraseLists])]
  cases mentions reasoningPhrases first <;> cases mentions reasoningPhrases second <;>
    cases mentions embeddingPhrases first <;> cases mentions embeddingPhrases second <;> rfl

/-- Two texts with a sign between them have the stronger of their intents, if the sign belongs
neither to a word nor between the words of a phrase. -/
theorem classify_joined {c : Char} (hword : isWord c = false) (hblank : isBlank c = false)
    (hline : c ≠ '-') (front back : Text) :
    classify (front ++ c :: back) = (classify front).stronger (classify back) := by
  have hgap : isGap c = false := by simp [isGap, hblank, hline]
  exact classify_eq_stronger fun phrases hphrases => mentions_split hphrases hword hgap front back

/-- The two words of a phrase on both sides of a slash are no phrase. -/
theorem classify_joined_slash :
    (isWord '/' = false ∧ isBlank '/' = false ∧ '/' ≠ '-') ∧
      classify ("semantic problem".toList ++ '/' :: "solving".toList) = .embedding := by
  have hsign : isWord '/' = false ∧ isBlank '/' = false ∧ '/' ≠ '-' := by decide
  refine ⟨hsign, ?_⟩
  rw [classify_joined hsign.1 hsign.2.1 hsign.2.2]
  decide +kernel

/-- With a hyphen they are. -/
example : classify "problem-solving" = .reasoning ∧
    (classify "problem").stronger (classify "solving") = .general := by
  decide +kernel

/-! ## Parts of a text -/

section Parts

/-- A word is read off a longer text, too. -/
theorem afterWord?_extended {word text rest : Text} (h : afterWord? word text = some rest)
    (more : Text) : afterWord? word (text ++ more) = some (rest ++ more) := by
  induction word generalizing text with
  | nil =>
      obtain rfl : text = rest := Option.some.inj h
      rfl
  | cons c word ih =>
      cases text with
      | nil => exact absurd h (by simp [afterWord?])
      | cons d text =>
          by_cases hc : c = foldCase d
          · simp only [afterWord?, hc, if_true] at h
            simpa [afterWord?, hc] using ih h
          · exact absurd h (by simp [afterWord?, hc])

/-- A phrase that begins a text begins every longer one. -/
theorem beginsWith_extended {phrase : Phrase} (hphrase : IsPhrase phrase) {text : Text}
    (h : beginsWith phrase text = true) (more : Text) :
    beginsWith phrase (text ++ more) = true := by
  induction phrase generalizing text with
  | nil => rfl
  | cons word words ih =>
      have hwords : IsPhrase words := fun word hmem => hphrase word (List.mem_cons_of_mem _ hmem)
      cases words with
      | nil =>
          obtain ⟨rest, hread⟩ := Option.isSome_iff_exists.1 h
          simp [beginsWith, afterWord?_extended hread]
      | cons next words =>
          simp only [beginsWith] at h ⊢
          cases hread : afterWord? word text with
          | none => simp [hread] at h
          | some behind =>
              cases behind with
              | nil => simp [hread] at h
              | cons c behind =>
                  simp only [hread, Bool.and_eq_true] at h
                  -- The gap ends in the shorter text, since the phrase goes on there.
                  have hne : behind.dropWhile isGap ≠ [] := by
                    intro hnil
                    rw [hnil, beginsWith_eq_false hwords (by simp) rfl] at h
                    exact absurd h.2 (by simp)
                  rw [afterWord?_extended hread]
                  show (isGap c && beginsWith _ ((behind ++ more).dropWhile isGap)) = true
                  rw [List.dropWhile_append, if_neg (by simpa using hne), h.1, ih hwords h.2]
                  rfl

variable {phrases : List Phrase}

/-- What a text mentions is mentioned in every longer one. -/
theorem mentionsFrom_extended (hphrases : ∀ phrase ∈ phrases, IsPhrase phrase) {inWord : Bool}
    {text : Text} (h : mentionsFrom phrases inWord text = true) (more : Text) :
    mentionsFrom phrases inWord (text ++ more) = true := by
  induction text generalizing inWord with
  | nil => exact absurd h (by simp [mentionsFrom])
  | cons c text ih =>
      rw [mentionsFrom, Bool.or_eq_true, Bool.and_eq_true, List.any_eq_true] at h
      rw [List.cons_append, mentionsFrom, Bool.or_eq_true, Bool.and_eq_true, List.any_eq_true]
      rcases h with ⟨hstart, phrase, hmem, hbegins⟩ | hrest
      · exact .inl ⟨hstart, phrase, hmem, beginsWith_extended (hphrases phrase hmem) hbegins more⟩
      · exact .inr (ih hrest)

/-- What is mentioned behind a text is mentioned in both together, if the text in front is known
to end inside a word or not. -/
theorem mentionsFrom_behind {inWord : Bool} {front text : Text}
    (h : mentionsFrom phrases ((front.getLast?.map isWord).getD inWord) text = true) :
    mentionsFrom phrases inWord (front ++ text) = true := by
  induction front generalizing inWord with
  | nil => exact h
  | cons c front ih =>
      rw [getD_getLast?_cons] at h
      rw [List.cons_append, mentionsFrom, ih h, Bool.or_true]

/-- What is mentioned where a word goes on is mentioned at the beginning of a word, too. -/
theorem mentions_of_mentionsFrom {inWord : Bool} {text : Text}
    (h : mentionsFrom phrases inWord text = true) : mentions phrases text = true := by
  cases text with
  | nil => exact h
  | cons c text =>
      cases inWord with
      | false => exact h
      | true =>
          have hrest : mentionsFrom phrases (isWord c) text = true := h
          rw [mentions, mentionsFrom, hrest, Bool.or_true]

/-- A text that mentions a phrase, but not if a word goes on in it, begins with one. -/
theorem begins_of_mentions {text : Text} (h : mentions phrases text = true)
    (hinside : mentionsFrom phrases true text = false) :
    phrases.any (beginsWith · text) = true := by
  cases text with
  | nil => exact absurd h (by simp [mentions, mentionsFrom])
  | cons c text =>
      have hrest : mentionsFrom phrases (isWord c) text = false := hinside
      rw [mentions, mentionsFrom, hrest, Bool.or_false] at h
      exact h

/-- A text that begins with a phrase mentions it. -/
theorem mentions_of_begins (hphrases : phrases ∈ phraseLists) {text : Text}
    (h : phrases.any (beginsWith · text) = true) : mentions phrases text = true := by
  cases text with
  | nil =>
      obtain ⟨phrase, hmem, hbegins⟩ := List.any_eq_true.1 h
      rw [beginsWith_eq_false (isPhrase_of_mem phrases hphrases phrase hmem)
        (ne_nil_of_mem phrases hphrases phrase hmem) rfl] at hbegins
      exact absurd hbegins (by simp)
  | cons c text =>
      rw [mentions, mentionsFrom, h]
      rfl

/-- A part of a text that mentions what the text does not mention begins inside a word, and it
begins with a phrase. -/
theorem begins_inside_word (hphrases : ∀ phrase ∈ phrases, IsPhrase phrase)
    {front text back : Text} (h : mentions phrases text = true)
    (hnot : mentions phrases (front ++ (text ++ back)) = false) :
    front.getLast?.any isWord = true ∧ phrases.any (beginsWith · text) = true := by
  have hquiet : mentionsFrom phrases ((front.getLast?.map isWord).getD false) text = false := by
    rw [← Bool.not_eq_true]
    intro hmentions
    have hwhole := mentionsFrom_behind (mentionsFrom_extended hphrases hmentions back)
    rw [mentions, hwhole] at hnot
    exact absurd hnot (by simp)
  have hlast : (front.getLast?.map isWord).getD false = front.getLast?.any isWord := by
    cases front.getLast? with
    | none => rfl
    | some d => rfl
  cases hword : front.getLast?.any isWord with
  | false =>
      rw [hlast, hword] at hquiet
      exact absurd (hquiet.symm.trans h) (by simp)
  | true =>
      rw [hlast, hword] at hquiet
      exact ⟨rfl, begins_of_mentions h hquiet⟩

end Parts

end Intent

/-! ## Windows -/

namespace Text

variable {text : Text} {start middle stop : Int}

/-- The characters between two offsets in range. -/
theorem slice_eq (hstart : 0 ≤ start) (hle : start ≤ stop) (hstop : stop ≤ text.length) :
    slice text start stop = (text.take stop.toNat).drop start.toNat := by
  have hclamp : ∀ offset : Int, 0 ≤ offset → offset ≤ text.length →
      clampOffset text.length offset = offset.toNat := by
    intro offset hlow hhigh
    rw [clampOffset, if_neg (by omega)]
    omega
  rw [slice, hclamp start hstart (by omega), hclamp stop (by omega) hstop]

/-- A slice can be cut in two. -/
theorem slice_append (hstart : 0 ≤ start) (hmiddle : start ≤ middle) (hle : middle ≤ stop)
    (hstop : stop ≤ text.length) :
    slice text start stop = slice text start middle ++ slice text middle stop := by
  have hcut : text.take stop.toNat =
      text.take middle.toNat ++ (text.take stop.toNat).drop middle.toNat := by
    have hboth := List.take_append_drop middle.toNat (text.take stop.toNat)
    rw [List.take_take, show min middle.toNat stop.toNat = middle.toNat by omega] at hboth
    exact hboth.symm
  rw [slice_eq hstart (by omega) hstop, slice_eq hstart hmiddle (by omega),
    slice_eq (by omega) hle hstop]
  conv_lhs => rw [hcut]
  rw [List.drop_append_of_le_length (by rw [List.length_take]; omega)]

/-- The last character of a slice stands in front of its end. -/
theorem getLast?_slice (hstart : 0 ≤ start) (hlt : start < stop) (hstop : stop ≤ text.length) :
    (slice text start stop).getLast? = text[stop.toNat - 1]? := by
  rw [slice_eq hstart (by omega) hstop, List.getLast?_drop,
    if_neg (by rw [List.length_take]; omega), List.getLast?_take, if_neg (by omega)]
  have hsome : stop.toNat - 1 < text.length := by omega
  rw [List.getElem?_eq_getElem hsome]
  rfl

end Text

namespace Window

open Intent

/-- One radius reaches no further than another one. Without a radius the whole text is in
reach. -/
def Narrower : (radius other : Option Nat) → Prop
  | _, none => True
  | none, some _ => False
  | some r, some r' => r ≤ r'

/-- The window begins inside a word of another one: the character in front of it belongs to a word
and to the other window. -/
def CutsWord (window wider : Window) : Prop :=
  wider.windowStart < window.windowStart ∧
    window.source[window.windowStart.toNat - 1]?.any isWord = true

/-- A window of the same text inside another one. -/
structure Within (narrow wide : Window) : Prop where
  source : narrow.source = wide.source
  first : 0 ≤ wide.windowStart
  start : wide.windowStart ≤ narrow.windowStart
  ordered : narrow.windowStart ≤ narrow.windowStop
  stop : narrow.windowStop ≤ wide.windowStop
  last : wide.windowStop ≤ wide.source.length

/-- The window of a narrower radius lies in the window of a wider one. -/
theorem within_around {text : Text} {start stop : Nat} (hspan : start ≤ stop)
    (hstop : stop ≤ text.length) {radius radius' : Option Nat} (h : Narrower radius radius') :
    (around radius text start stop).Within (around radius' text start stop) := by
  cases radius with
  | none =>
      cases radius' with
      | none => constructor <;> simp only [around] <;> omega
      | some r' => exact absurd h id
  | some r =>
      cases radius' with
      | none => constructor <;> simp only [around] <;> omega
      | some r' =>
          have hle : r ≤ r' := h
          constructor <;> simp only [around] <;> omega

/-- The text of a window inside another one is a part of the other one's text. If a word character
stands in front of it there, the window begins inside a word. -/
theorem Within.exists_text {narrow wide : Window} (h : narrow.Within wide) :
    ∃ front back, wide.text = front ++ (narrow.text ++ back) ∧
      (front.getLast?.any isWord = true → narrow.CutsWord wide) := by
  obtain ⟨hsource, hfirst, hstart, hordered, hstop, hlast⟩ := h
  refine ⟨slice wide.source wide.windowStart narrow.windowStart,
    slice wide.source narrow.windowStop wide.windowStop, ?_, fun hword => ?_⟩
  · rw [text, text, hsource, slice_append hfirst hstart (by omega) hlast,
      slice_append (by omega) hordered hstop hlast]
  · by_cases hlt : wide.windowStart < narrow.windowStart
    · rw [getLast?_slice hfirst hlt (by omega)] at hword
      exact ⟨hlt, by rwa [hsource]⟩
    · -- The two windows begin at the same place, and nothing stands in front of the narrower one.
      have hnil : slice wide.source wide.windowStart narrow.windowStart = [] := by
        rw [slice_eq hfirst hstart (by omega)]
        exact List.drop_eq_nil_of_le (by rw [List.length_take]; omega)
      rw [hnil] at hword
      exact absurd hword (by simp)

/-- A narrower window speaks for a stronger intent than a wider one exactly if it begins
inside a word of the wider one, and what it begins with there is evidence for an intent that
the wider one does not reach. -/
theorem outranks_iff {text : Text} {start stop : Nat} (hspan : start ≤ stop)
    (hstop : stop ≤ text.length) {radius radius' : Option Nat}
    (hradius : Narrower radius radius') :
    let narrow := around radius text start stop
    let wide := around radius' text start stop
    (classify wide.text).rank < (classify narrow.text).rank ↔ narrow.CutsWord wide ∧
      ∃ intent : Intent, (classify wide.text).rank < intent.rank ∧
        intent.evidence.any (beginsWith · narrow.text) = true := by
  intro narrow wide
  obtain ⟨front, back, htext, hcuts⟩ := (within_around hspan hstop hradius).exists_text
  have hgeneral : ∀ {intent : Intent}, (classify wide.text).rank < intent.rank →
      intent ≠ general := by
    rintro intent hrank rfl
    exact absurd hrank (Nat.not_lt_zero _)
  constructor
  · intro hrank
    have hmentions := mentions_classify (hgeneral hrank)
    have hwide : mentions (classify narrow.text).evidence wide.text = false := by
      rw [← Bool.not_eq_true]
      intro hwide
      exact absurd (rank_le_classify hwide) (by omega)
    rw [htext] at hwide
    obtain ⟨hword, hbegins⟩ :=
      begins_inside_word (isPhrase_of_mem _ (evidence_mem (hgeneral hrank))) hmentions hwide
    exact ⟨hcuts hword, classify narrow.text, hrank, hbegins⟩
  · rintro ⟨-, intent, hrank, hbegins⟩
    have hnarrow := rank_le_classify (mentions_of_begins (evidence_mem (hgeneral hrank)) hbegins)
    omega

/-- A window that is one character wider has lost the keyword, but not the word
that it was cut out of. -/
theorem outranks_iff_vectors :
    let text : Text := "resolve vectors"
    let narrow := around (some 6) text 8 15
    let wide := around (some 7) text 8 15
    (8 ≤ 15 ∧ 15 ≤ text.length ∧ Narrower (some 6) (some 7)) ∧
      (classify wide.text).rank < (classify narrow.text).rank ∧ narrow.CutsWord wide := by
  intro text narrow wide
  have hradius : Narrower (some 6) (some 7) := by
    show 6 ≤ 7
    omega
  have hspan : 8 ≤ 15 := by omega
  have hlength : 15 ≤ text.length := by decide
  have hrank : (classify wide.text).rank < (classify narrow.text).rank := by decide +kernel
  exact ⟨⟨hspan, hlength, hradius⟩, hrank,
    ((@outranks_iff text 8 15 hspan hlength (some 6) (some 7) hradius).1 hrank).1⟩

/-- What a window leaves of a longer word may be a keyword that the whole text does not have. -/
theorem outranks_inside_word :
    let text : Text := "resolve it"
    (classify (around none text 8 10).text).rank <
      (classify (around (some 6) text 8 10).text).rank := by
  decide +kernel

end Window

/-! ## Cleaning -/

namespace Intent

open Cleaning

/-- A word is read off the merged text as off the text, since no whitespace belongs to it. -/
theorem afterWord?_mergeBlanks {word : Text} (hword : word.all Char.isLower = true)
    (text : Text) :
    afterWord? word (mergeBlanks false text) =
      (afterWord? word text).map (mergeBlanks false) := by
  induction word generalizing text with
  | nil => rfl
  | cons c word ih =>
      simp only [List.all_cons, Bool.and_eq_true] at hword
      cases text with
      | nil => rfl
      | cons d text =>
          by_cases hd : isBlank d = true
          · have hspace : c ≠ foldCase ' ' := ne_foldCase hword.1 (by decide)
            have hblank : c ≠ foldCase d := ne_foldCase hword.1 (isWord_of_isBlank hd)
            simp [mergeBlanks, hd, afterWord?, hspace, hblank]
          · by_cases hc : c = foldCase d
            · simpa [mergeBlanks, hd, afterWord?, hc] using ih hword.2 text
            · simp [mergeBlanks, hd, afterWord?, hc]

/-- The gap between two words stays one, and the text goes on behind it as before. -/
theorem dropWhile_isGap_mergeBlanks (inBlanks : Bool) (text : Text) :
    (mergeBlanks inBlanks text).dropWhile isGap = mergeBlanks false (text.dropWhile isGap) := by
  have hgap : ∀ {c : Char}, isBlank c = true → isGap c = true := fun hc => by simp [isGap, hc]
  fun_induction mergeBlanks inBlanks text with
  | case1 => rfl
  | case2 c text hc ih => rw [ih, List.dropWhile_cons_of_pos (hgap hc)]
  | case3 inBlanks c text hc _ ih =>
      rw [List.dropWhile_cons_of_pos (by decide), ih, List.dropWhile_cons_of_pos (hgap hc)]
  | case4 inBlanks c text hc ih =>
      by_cases hline : isGap c = true
      · rw [List.dropWhile_cons_of_pos hline, ih, List.dropWhile_cons_of_pos hline]
      · rw [List.dropWhile_cons_of_neg hline, List.dropWhile_cons_of_neg hline, mergeBlanks,
          if_neg hc]

/-- The merged text begins with the phrases that the text begins with. -/
theorem beginsWith_mergeBlanks {phrase : Phrase} (hphrase : IsPhrase phrase) (text : Text) :
    beginsWith phrase (mergeBlanks false text) = beginsWith phrase text := by
  induction phrase generalizing text with
  | nil => rfl
  | cons word words ih =>
      have hwords : IsPhrase words := fun word hmem => hphrase word (List.mem_cons_of_mem _ hmem)
      have hread := afterWord?_mergeBlanks (hphrase word List.mem_cons_self).2 text
      cases words with
      | nil => simp [beginsWith, hread]
      | cons next words =>
          simp only [beginsWith, hread]
          cases afterWord? word text with
          | none => rfl
          | some behind =>
              cases behind with
              | nil => rfl
              | cons c behind =>
                  by_cases hc : isBlank c = true
                  · have hspace : isGap ' ' = true := by decide
                    have hgap : isGap c = true := by simp [isGap, hc]
                    simp [mergeBlanks, hc, hspace, hgap, dropWhile_isGap_mergeBlanks, ih hwords]
                  · simp [mergeBlanks, hc, dropWhile_isGap_mergeBlanks, ih hwords]

section Cleaned

variable {phrases : List Phrase} (hphrases : phrases ∈ phraseLists)

include hphrases

/-- Merging changes nothing in what a text mentions. -/
theorem mentionsFrom_mergeBlanks {inWord inBlanks : Bool} (h : inBlanks = true → inWord = false)
    (text : Text) :
    mentionsFrom phrases inWord (mergeBlanks inBlanks text) =
      mentionsFrom phrases inWord text := by
  induction text generalizing inWord inBlanks with
  | nil => rfl
  | cons c text ih =>
      by_cases hc : isBlank c = true
      · rw [mentionsFrom_sign hphrases (isWord_of_isBlank hc)]
        have hrest : mentions phrases (mergeBlanks true text) = mentions phrases text :=
          ih fun _ => rfl
        cases inBlanks with
        | true =>
            rw [h rfl, mergeBlanks, if_pos hc, if_pos rfl]
            exact hrest
        | false =>
            rw [mergeBlanks, if_pos hc, if_neg (by simp), mentionsFrom_sign hphrases (by decide),
              hrest]
      · have hmerged : ∀ inBlanks,
            mergeBlanks inBlanks (c :: text) = c :: mergeBlanks false text :=
          fun inBlanks => by rw [mergeBlanks, if_neg hc]
        have hbegins : phrases.any (beginsWith · (c :: mergeBlanks false text)) =
            phrases.any (beginsWith · (c :: text)) := by
          rw [← hmerged false]
          exact any_beginsWith_congr fun phrase hmem =>
            beginsWith_mergeBlanks (isPhrase_of_mem phrases hphrases phrase hmem) (c :: text)
        rw [hmerged, mentionsFrom, mentionsFrom, hbegins, ih (by simp)]

/-- Whitespace in front of a text mentions nothing. -/
theorem mentions_gap {gap : Text} (hgap : IsGap gap) (rest : Text) :
    mentions phrases (gap ++ rest) = mentions phrases rest :=
  mentions_signs hphrases (fun c hc => isWord_of_isBlank (hgap c hc)) rest

/-- Whitespace by itself mentions nothing, wherever it stands. -/
theorem mentionsFrom_gap {gap : Text} (hgap : IsGap gap) (inWord : Bool) :
    mentionsFrom phrases inWord gap = false := by
  rw [← Bool.not_eq_true]
  intro h
  have hmentions := mentions_of_mentionsFrom h
  rw [← List.append_nil gap, mentions_gap hphrases hgap] at hmentions
  exact absurd hmentions (by simp [mentions, mentionsFrom])

/-- A text mentions what it mentions without the whitespace at its ends. -/
theorem mentions_strip (text : Text) : mentions phrases (strip text) = mentions phrases text := by
  obtain ⟨lead, trail, hlead, htrail, hsplit, -, -⟩ := exists_strip text
  have hhalts : Halts trail := by
    have hend := @halts_gap trail [] htrail rfl
    rwa [List.append_nil] at hend
  conv_rhs => rw [hsplit, mentions_gap hphrases hlead, mentions,
    mentionsFrom_append (isPhrase_of_mem phrases hphrases) hhalts,
    mentionsFrom_gap hphrases htrail, Bool.or_false]
  rfl

/-- Cleaning changes nothing in what a text mentions. -/
theorem mentions_clean (text : Text) :
    mentions phrases (clean [] text) = mentions phrases text := by
  rw [clean_eq_collapse, collapse, mentions_strip hphrases]
  exact mentionsFrom_mergeBlanks hphrases (by simp) text

end Cleaned

end Intent

/-! ## Rules -/

namespace ChoiceAccess

open Intent Source

variable {phrases : List Phrase} (hphrases : phrases ∈ phraseLists)

include hphrases

/-- No phrase begins with the last word of the path, whatever it runs into. -/
theorem mentions_content {rest : Text} (h : mentions phrases ("content" ++ rest) = true) :
    mentions phrases rest = true := by
  have hnone : phrases.any (beginsWith · ("content" ++ rest)) = false := by
    simp only [phraseLists, List.mem_cons, List.not_mem_nil, or_false] at hphrases
    rcases hphrases with rfl | rfl <;> rfl
  have hinside : mentionsFrom phrases true ("ontent" ++ rest) = mentionsFrom phrases true rest :=
    mentionsFrom_inside (List.all_eq_true.1 (by decide)) rest
  have hsplit : mentions phrases ("content" ++ rest) =
      (phrases.any (beginsWith · ("content" ++ rest)) ||
        mentionsFrom phrases true ("ontent" ++ rest)) := rfl
  rw [hsplit, hnone, hinside, Bool.false_or] at h
  exact mentions_of_mentionsFrom h

/-- An access by subscripts and the path that replaces it mention what their parts mention. -/
theorem mentions_parts {access : ChoiceAccess} {q q' : Char} (hq : isQuote q = true)
    (hq' : isQuote q' = true) (hform : access.form = .subscripts q q') (front rest : Text) :
    mentions phrases (front ++ (access.text ++ rest)) =
        (mentions phrases (front ++ access.receiver) || (mentions phrases access.index ||
          mentions phrases rest)) ∧
      mentions phrases (front ++ (access.modern ++ rest)) =
        (mentions phrases (front ++ access.receiver) || (mentions phrases access.index ||
          mentions phrases ("content" ++ rest))) := by
  have hwords : ∀ phrases ∈ phraseLists, mentions phrases "choices" = false ∧
      mentions phrases "text" = false ∧ mentions phrases "message" = false := by decide
  obtain ⟨hchoices, htext, hmessage⟩ := hwords phrases hphrases
  have hsign : ∀ {c : Char}, isWord c = false → ∀ text : Text,
      mentions phrases (c :: text) = mentions phrases text :=
    fun hc text => mentionsFrom_sign hphrases hc false text
  have hquote : ∀ {c : Char}, isQuote c = true → isWord c = false :=
    fun hc => isWord_of_isNameChar_eq_false (isNameChar_of_isQuote hc)
  have hold : front ++ (access.text ++ rest) = (front ++ access.receiver) ++ '[' :: q ::
      ("choices" ++ q :: ']' :: '[' :: (access.index ++
        ']' :: '[' :: q' :: ("text" ++ q' :: ']' :: rest))) := by
    simp [text, hform]
  have hnew : front ++ (access.modern ++ rest) = (front ++ access.receiver) ++ '.' ::
      ("choices" ++ '[' :: (access.index ++ ']' :: '.' :: ("message" ++ '.' ::
        ("content" ++ rest)))) := by
    simp [modern]
  have hopen : ∀ front text : Text, mentions phrases (front ++ '[' :: text) =
      (mentions phrases front || mentions phrases text) :=
    mentions_split hphrases (by decide) (by decide)
  have hclose : ∀ front text : Text, mentions phrases (front ++ ']' :: text) =
      (mentions phrases front || mentions phrases text) :=
    mentions_split hphrases (by decide) (by decide)
  constructor
  · rw [hold, hopen, hsign (hquote hq), mentions_quote hphrases hq, hsign (by decide),
      hsign (by decide), hclose, hsign (by decide), hsign (hquote hq'),
      mentions_quote hphrases hq', hsign (by decide), hchoices, htext, Bool.false_or,
      Bool.false_or]
  · rw [hnew, mentions_dot hphrases, hopen, hclose, hsign (by decide),
      mentions_dot hphrases, hchoices, hmessage, Bool.false_or, Bool.false_or]

/-- The path that replaces an access by subscripts mentions nothing new. -/
theorem mentions_subscriptsHit {c : Cursor} {hit : Hit} (h : subscriptsHit? c = some hit)
    (front rest : Text) (hquiet : mentions phrases (front ++ (hit.matched ++ rest)) = false) :
    mentions phrases (front ++ (hit.replacement ++ rest)) = false := by
  obtain ⟨access, haccess, rfl⟩ := Option.map_eq_some_iff.1 h
  obtain ⟨-, q, q', -, hq, hq', hform, -⟩ := subscriptsAt?_eq_some_iff.1 haccess
  obtain ⟨hold, hnew⟩ := mentions_parts hphrases hq hq' hform front rest
  change mentions phrases (front ++ (access.text ++ rest)) = false at hquiet
  show mentions phrases (front ++ (access.modern ++ rest)) = false
  rw [hold, Bool.or_eq_false_iff, Bool.or_eq_false_iff] at hquiet
  have hcontent : mentions phrases ("content" ++ rest) = false :=
    Bool.eq_false_iff.2 fun hmentions => by
      simp [mentions_content hphrases hmentions] at hquiet
  rw [hnew, hquiet.1, hquiet.2.1, hcontent]
  rfl

end ChoiceAccess

open Intent

/-- Cleaning leaves the intent of a text, and so does every rule but the one for subscripts. No
rule makes the intent stronger. -/
theorem Rule.intent_survives (radius : Option Nat) (text : Text) :
    classify (Cleaning.clean [] text) = classify text ∧ ∀ rule : Rule,
      (rule.kind ≠ .choiceSubscripts → classify (rule.apply radius text) = classify text) ∧
        (classify (rule.apply radius text)).rank ≤ (classify text).rank := by
  refine ⟨classify_congr fun phrases hphrases => mentions_clean hphrases text, fun rule => ?_⟩
  have hother : rule.kind ≠ .choiceSubscripts →
      classify (rule.apply radius text) = classify text :=
    fun hne => Rule.classify_apply fun hkind => absurd hkind hne
  refine ⟨hother, ?_⟩
  by_cases hkind : rule.kind = .choiceSubscripts
  · have happly : rule.apply radius text = rewritten ChoiceAccess.subscriptsHit? [] text := by
      show rewritten (rule.kind.hit? radius) [] text = _
      rw [hkind]
      rfl
    refine rank_classify_le fun phrases hphrases => ?_
    contrapose
    rw [happly, Bool.not_eq_true, Bool.not_eq_true]
    exact keeps_rewritten (P := fun text => mentions phrases text = false)
      ChoiceAccess.recognises_subscriptsHit? (ChoiceAccess.mentions_subscriptsHit hphrases)
        [] text []
  · rw [hother hkind]

/-- The call of an embedding is evidence before and after it is renamed. -/
theorem Rule.intent_survives_embedding :
    (Rule.ofKind .embeddingCall).kind ≠ .choiceSubscripts ∧
      classify ((Rule.ofKind .embeddingCall).apply none "openai.Embedding.create(x)") =
        .embedding := by
  have hkind : (Rule.ofKind .embeddingCall).kind ≠ .choiceSubscripts := by decide
  refine ⟨hkind, ?_⟩
  rw [((Rule.intent_survives none _).2 _).1 hkind]
  decide +kernel

/-- A keyword that stands directly behind the subscripts runs into the last word of the path. -/
example :
    classify ((Rule.ofKind .choiceSubscripts).apply none "r['choices'][0]['text']solve") =
      .general ∧
      classify "r['choices'][0]['text']solve" = .reasoning := by
  decide +kernel

end SdkUpgrade
