import SdkUpgrade.Proofs.Undisturbed

/-!
# Keywords beside respelled words

The intent of a text is the same before and after a rule respells words in it:
`Kind.classify_rewritten`. A phrase may begin inside a respelled word, and then it lies inside the
word as a whole, since a closer follows. Or it begins at a kept character, and then it ends in
front of the next respelled word, because the word in front of the phrase's gap cannot run into it
and no respelled word continues a phrase. What is left to check is that the old and the new
spelling of each word mention the same phrases.
-/

namespace SdkUpgrade

open Text

namespace Intent

/-! ## Reading phrases -/

/-- A phrase has no empty word, and its words are in lower case. -/
def IsPhrase (phrase : Phrase) : Prop :=
  ∀ word ∈ phrase, word ≠ [] ∧ word.all Char.isLower = true

instance (phrase : Phrase) : Decidable (IsPhrase phrase) :=
  inferInstanceAs (Decidable (∀ _ ∈ _, _ ∧ _))

/-- No text begins with the later words of the phrase. -/
def Apart (texts : List Text) : Phrase → Prop
  | [] => True
  | _ :: words => (words ≠ [] → ∀ text ∈ texts, beginsWith words text = false) ∧ Apart texts words

instance decidableApart (texts : List Text) : (phrase : Phrase) → Decidable (Apart texts phrase)
  | [] => inferInstanceAs (Decidable True)
  | _ :: words =>
      have := decidableApart texts words
      inferInstanceAs (Decidable (_ ∧ _))

/-- What counts as a letter when letter case is ignored is a word character. -/
theorem isWord_of_foldCase {c : Char} (h : (foldCase c).isLower = true) : isWord c = true := by
  unfold foldCase at h
  split at h
  · rename_i hs
    subst hs
    decide +kernel
  · split at h
    · rename_i hk
      subst hk
      decide +kernel
    · split at h
      · rename_i hi
        rcases hi with rfl | rfl <;> decide +kernel
      · refine isWord_of_isNameStart ?_
        have hletter : c.isAlpha = true := by
          refine Bool.or_eq_true_iff.2 ?_
          by_cases hupper : c.isUpper = true
          · exact .inl hupper
          · have hsame : c.toLower = c := dif_neg fun hrange => hupper (decide_eq_true hrange)
            rw [hsame] at h
            exact .inr h
        simp [isNameStart, hletter]

/-- A character that belongs to no word matches no letter. -/
theorem ne_foldCase {c d : Char} (hc : c.isLower = true) (hd : isWord d = false) :
    c ≠ foldCase d := by
  rintro rfl
  rw [isWord_of_foldCase hc] at hd
  exact absurd hd (by simp)

/-- A character between the words of a phrase belongs to no word. -/
theorem isWord_of_isGap {c : Char} (h : isGap c = true) : isWord c = false := by
  simp only [isGap, Bool.or_eq_true, beq_iff_eq] at h
  rcases h with h | rfl
  · exact isWord_of_isBlank h
  · decide

/-- No closer stands between the words of a phrase. -/
theorem isGap_of_isCloser {c : Char} (h : isCloser c = true) : isGap c = false := by
  have hline : c ≠ '-' := by
    rintro rfl
    exact absurd h (by decide)
  simp [isGap, isBlank_of_isCloser h, hline]

/-- A word is read off the front of a text alone if what follows cannot continue it. -/
theorem afterWord?_append {word rest : Text} (hword : word.all Char.isLower = true)
    (hrest : rest.head?.any isWord = false) (text : Text) :
    afterWord? word (text ++ rest) = (afterWord? word text).map (· ++ rest) := by
  induction word generalizing text with
  | nil => rfl
  | cons c word ih =>
      simp only [List.all_cons, Bool.and_eq_true] at hword
      cases text with
      | nil =>
          cases rest with
          | nil => rfl
          | cons d rest => simp [afterWord?, ne_foldCase hword.1 hrest]
      | cons d text =>
          by_cases hc : c = foldCase d
          · simpa [afterWord?, hc] using ih hword.2 text
          · simp [afterWord?, hc]

/-- No phrase goes on in the text: behind the characters that may stand between words, no word
begins. -/
def Halts (text : Text) : Prop :=
  (text.dropWhile isGap).head?.any isWord = false

/-- A text in which no phrase goes on continues no word either. -/
theorem Halts.head? {text : Text} (h : Halts text) : text.head?.any isWord = false := by
  cases text with
  | nil => rfl
  | cons c text =>
      by_cases hc : isGap c = true
      · exact isWord_of_isGap hc
      · rwa [Halts, List.dropWhile_cons_of_neg hc] at h

/-- No phrase goes on behind the gap either. -/
theorem Halts.dropWhile_isGap {text : Text} (h : Halts text) : Halts (text.dropWhile isGap) := by
  have hstop := head?_dropWhile isGap text
  cases hd : text.dropWhile isGap with
  | nil => rfl
  | cons c rest =>
      rw [hd] at hstop
      have hc : ¬ isGap c = true := by simpa using hstop
      rw [Halts, hd] at h
      rwa [Halts, List.dropWhile_cons_of_neg hc]

/-- A character that belongs neither to a word nor between words ends every phrase. -/
theorem halts_cons {c : Char} (hword : isWord c = false) (hgap : isGap c = false) (text : Text) :
    Halts (c :: text) := by
  rw [Halts, List.dropWhile_cons_of_neg (by simp [hgap])]
  exact hword

/-- A gap does not make a phrase go on. -/
theorem halts_gap {gap text : Text} (hg : IsGap gap) (h : Halts text) : Halts (gap ++ text) := by
  induction gap with
  | nil => exact h
  | cons c gap ih =>
      have hc : isGap c = true := by simp [isGap, hg c List.mem_cons_self]
      rw [Halts, List.cons_append, List.dropWhile_cons_of_pos hc]
      exact ih fun d hd => hg d (List.mem_cons_of_mem c hd)

/-- No phrase reaches over a closer. -/
theorem halts_of_isClosed {text : Text} (h : IsClosed text) : Halts text := by
  obtain ⟨gap, c, rest, hg, hc, rfl⟩ := h
  have hword : isWord c = false := isWord_of_isNameChar_eq_false
    (isNameChar_of_isTokenChar_eq_false (isTokenChar_of_isCloser hc))
  exact halts_gap hg (halts_cons hword (isGap_of_isCloser hc) rest)

/-- A text that does not begin with a word begins with no phrase. -/
theorem beginsWith_eq_false {phrase : Phrase} (hphrase : IsPhrase phrase) (hne : phrase ≠ [])
    {text : Text} (h : text.head?.any isWord = false) : beginsWith phrase text = false := by
  obtain ⟨word, words, rfl⟩ := List.exists_cons_of_ne_nil hne
  obtain ⟨hword, hlower⟩ := hphrase word List.mem_cons_self
  have hnone : afterWord? word text = none := by
    have hread := afterWord?_append hlower h []
    obtain ⟨c, word, rfl⟩ := List.exists_cons_of_ne_nil hword
    exact hread
  cases words with
  | nil => simp [beginsWith, hnone]
  | cons next words => simp [beginsWith, hnone]

/-- Whether a text begins with a phrase does not depend on what follows, if no phrase goes on
there. -/
theorem beginsWith_append {phrase : Phrase} (hphrase : IsPhrase phrase) {rest : Text}
    (hrest : Halts rest) (text : Text) :
    beginsWith phrase (text ++ rest) = beginsWith phrase text := by
  induction phrase generalizing text rest with
  | nil => rfl
  | cons word words ih =>
      obtain ⟨hword, hlower⟩ := hphrase word List.mem_cons_self
      have hwords : IsPhrase words := fun word hmem => hphrase word (List.mem_cons_of_mem _ hmem)
      have hread := afterWord?_append hlower hrest.head? text
      cases words with
      | nil => simp [beginsWith, hread]
      | cons next words =>
          simp only [beginsWith, hread]
          cases afterWord? word text with
          | none => rfl
          | some behind =>
              cases behind with
              | nil =>
                  -- The word ends the text, and the phrase would go on in what follows.
                  cases rest with
                  | nil => rfl
                  | cons c rest =>
                      show (isGap c && beginsWith (next :: words) (rest.dropWhile isGap)) = false
                      by_cases hc : isGap c = true
                      · have hdrop := hrest.dropWhile_isGap
                        rw [List.dropWhile_cons_of_pos hc] at hdrop
                        rw [beginsWith_eq_false hwords (by simp) hdrop.head?, Bool.and_false]
                      · simp [hc]
              | cons c behind =>
                  show (isGap c && beginsWith (next :: words)
                    ((behind ++ rest).dropWhile isGap)) =
                    (isGap c && beginsWith (next :: words) (behind.dropWhile isGap))
                  congr 1
                  rw [List.dropWhile_append]
                  split
                  · rename_i hempty
                    rw [List.isEmpty_iff.1 hempty, ← ih hwords hrest.dropWhile_isGap []]
                    rfl
                  · exact ih hwords hrest _

/-- Two texts begin with a phrase of a list together, if they do with each phrase of it. -/
theorem any_beginsWith_congr {phrases : List Phrase} {text other : Text}
    (h : ∀ phrase ∈ phrases, beginsWith phrase text = beginsWith phrase other) :
    phrases.any (beginsWith · text) = phrases.any (beginsWith · other) := by
  rw [Bool.eq_iff_iff, List.any_eq_true, List.any_eq_true]
  exact exists_congr fun phrase => and_congr_right fun hmem => by rw [h phrase hmem]

/-- Two texts mention together what either of them mentions, if no phrase goes on in the
second. -/
theorem mentionsFrom_append {phrases : List Phrase}
    (hphrases : ∀ phrase ∈ phrases, IsPhrase phrase) {rest : Text} (hrest : Halts rest)
    (inWord : Bool) (text : Text) :
    mentionsFrom phrases inWord (text ++ rest) = (mentionsFrom phrases inWord text ||
      mentionsFrom phrases ((text.getLast?.map isWord).getD inWord) rest) := by
  induction text generalizing inWord with
  | nil => rfl
  | cons c text ih =>
      have hbegins : phrases.any (beginsWith · (c :: (text ++ rest))) =
          phrases.any (beginsWith · (c :: text)) :=
        any_beginsWith_congr fun phrase hmem => by
          rw [← List.cons_append, beginsWith_append (hphrases phrase hmem) hrest]
      rw [List.cons_append, mentionsFrom, mentionsFrom, hbegins, ih, Bool.or_assoc,
        getD_getLast?_cons]

/-! ## Phrases in texts with respelled words -/

section Respelled

variable {words : List Text} {before : Text} {pieces : List Piece}

/-- Behind a word character, the next piece was kept. -/
theorem kept_of_isWord (h : Isolated words before pieces)
    (hbefore : before.head?.any isWord = true) :
    pieces = [] ∨ ∃ c rest, pieces = .kept c :: rest := by
  cases pieces with
  | nil => exact .inl rfl
  | cons piece rest =>
      cases piece with
      | kept c => exact .inr ⟨c, rest, rfl⟩
      | hit found =>
          exfalso
          have hname := h.2.1
          cases before with
          | nil => exact absurd hbefore (by simp)
          | cons d before =>
              have hd : isNameChar d = false := hname
              rw [isNameChar_of_isWord hbefore] at hd
              exact absurd hd (by simp)

/-- A word that begins at a kept character is read off both texts or off none, and both readings
end at the same piece. -/
theorem afterWord?_respelled {word : Text} (hlower : word.all Char.isLower = true)
    (h : Isolated words before pieces)
    (hkept : before.head?.any isWord = true ∨ ∃ c rest, pieces = .kept c :: rest) :
    (afterWord? word (sourceOf pieces) = none ∧ afterWord? word (resultOf pieces) = none) ∨
      ∃ before' rest, Isolated words before' rest ∧
        afterWord? word (sourceOf pieces) = some (sourceOf rest) ∧
        afterWord? word (resultOf pieces) = some (resultOf rest) ∧
        (before.head?.any isWord = true ∨ word ≠ [] → before'.head?.any isWord = true) := by
  induction word generalizing before pieces with
  | nil =>
      exact .inr ⟨before, pieces, h, rfl, rfl,
        fun hword => hword.resolve_right fun hne => hne rfl⟩
  | cons c word ih =>
      simp only [List.all_cons, Bool.and_eq_true] at hlower
      have hfirst : pieces = [] ∨ ∃ d rest, pieces = .kept d :: rest :=
        hkept.elim (kept_of_isWord h) .inr
      rcases hfirst with rfl | ⟨d, rest, rfl⟩
      · exact .inl ⟨rfl, rfl⟩
      · by_cases hc : c = foldCase d
        · have hd : isWord d = true := isWord_of_foldCase (hc ▸ hlower.1)
          have hnext : Isolated words (d :: before) rest := h
          simp only [sourceOf_kept, resultOf_kept, afterWord?, hc, if_true]
          rcases ih hlower.2 hnext (.inl hd) with
            hnone | ⟨before', behind, hbehind, hold, hnew, hword⟩
          · exact .inl hnone
          · exact .inr ⟨before', behind, hbehind, hold, hnew, fun _ => hword (.inl hd)⟩
        · refine .inl ⟨?_, ?_⟩ <;> simp [afterWord?, hc]

/-- The characters between the words of a phrase were kept. -/
theorem dropWhile_isGap_respelled (hw : ∀ word ∈ words, IsPlain word)
    (h : Isolated words before pieces) : ∃ before' rest, Isolated words before' rest ∧
      (sourceOf pieces).dropWhile isGap = sourceOf rest ∧
      (resultOf pieces).dropWhile isGap = resultOf rest := by
  induction pieces generalizing before with
  | nil => exact ⟨before, [], h, rfl, rfl⟩
  | cons piece pieces ih =>
      cases piece with
      | kept c =>
          have hnext : Isolated words (c :: before) pieces := h
          by_cases hc : isGap c = true
          · obtain ⟨before', rest, hrest, hold, hnew⟩ := ih hnext
            refine ⟨before', rest, hrest, ?_, ?_⟩
            · rw [sourceOf_kept, List.dropWhile_cons_of_pos hc, hold]
            · rw [resultOf_kept, List.dropWhile_cons_of_pos hc, hnew]
          · refine ⟨before, _, h, ?_, ?_⟩
            · rw [sourceOf_kept, List.dropWhile_cons_of_neg hc]
            · rw [resultOf_kept, List.dropWhile_cons_of_neg hc]
      | hit found =>
          have hstop : ∀ word ∈ words, ∀ rest, (word ++ rest).dropWhile isGap = word ++ rest := by
            intro word hword rest
            have hfirst := (hw word hword).2.1
            cases word with
            | nil => exact absurd hfirst (by simp)
            | cons c word =>
                have hc : isWord c = true := hfirst
                refine List.dropWhile_cons_of_neg fun hgap => ?_
                rw [isWord_of_isGap hgap] at hc
                exact absurd hc (by simp)
          exact ⟨before, _, h, hstop _ h.1.1 _, hstop _ h.1.2 _⟩

/-- A phrase that begins at a kept character, or that no respelled word begins with,
begins both texts or none. -/
theorem beginsWith_respelled (hw : ∀ word ∈ words, IsPlain word) {phrase : Phrase}
    (hphrase : IsPhrase phrase) (hapart : Apart words phrase) (h : Isolated words before pieces)
    (hstart : (∃ c rest, pieces = .kept c :: rest) ∨
      ∀ word ∈ words, beginsWith phrase word = false) :
    beginsWith phrase (sourceOf pieces) = beginsWith phrase (resultOf pieces) := by
  induction phrase generalizing before pieces with
  | nil => rfl
  | cons first later ih =>
      cases pieces with
      | nil => rfl
      | cons piece pieces =>
          cases piece with
          | hit found =>
              rcases hstart with ⟨c, rest, hcons⟩ | hnone
              · exact absurd hcons (by simp)
              · obtain ⟨⟨hold, hnew⟩, -, hclosed, hrest⟩ := h
                rw [sourceOf_hit, resultOf_hit,
                  beginsWith_append hphrase (halts_of_isClosed hclosed),
                  beginsWith_append hphrase (halts_of_isClosed (hrest.closed hw hclosed)),
                  hnone _ hold, hnone _ hnew]
          | kept c =>
              obtain ⟨hne, hlower⟩ := hphrase first List.mem_cons_self
              have hread := afterWord?_respelled hlower h (.inr ⟨c, pieces, rfl⟩)
              cases later with
              | nil =>
                  rcases hread with ⟨hold, hnew⟩ | ⟨_, rest, _, hold, hnew, _⟩
                  · simp only [beginsWith, hold, hnew]
                  · simp only [beginsWith, hold, hnew, Option.isSome_some]
              | cons next later =>
                  rcases hread with ⟨hold, hnew⟩ | ⟨before', rest, hrest, hold, hnew, hword⟩
                  · simp only [beginsWith, hold, hnew]
                  · simp only [beginsWith, hold, hnew]
                    -- The phrase goes on behind a gap, where a respelled word may begin.
                    rcases kept_of_isWord hrest (hword (.inr hne)) with rfl | ⟨gap, behind, rfl⟩
                    · rfl
                    · have hnext : Isolated words (gap :: before') behind := hrest
                      obtain ⟨_, final, hfinal, hdrop, hdrop'⟩ :=
                        dropWhile_isGap_respelled hw hnext
                      simp only [sourceOf_kept, resultOf_kept, hdrop, hdrop']
                      rw [ih (fun word hmem => hphrase word (List.mem_cons_of_mem _ hmem))
                        hapart.2 hfinal (.inr (hapart.1 (by simp)))]

/-- Two texts mention the same phrases if each respelled word does in both spellings. -/
theorem mentionsFrom_respelled (hw : ∀ word ∈ words, IsPlain word) {phrases : List Phrase}
    (hphrases : ∀ phrase ∈ phrases, IsPhrase phrase)
    (hapart : ∀ phrase ∈ phrases, Apart words phrase)
    (h : Isolated words before pieces)
    (hsame : ∀ found, .hit found ∈ pieces → mentions phrases found.matched =
      mentions phrases found.replacement) :
    mentionsFrom phrases (before.head?.any isWord) (sourceOf pieces) =
      mentionsFrom phrases (before.head?.any isWord) (resultOf pieces) := by
  induction pieces generalizing before with
  | nil => rfl
  | cons piece pieces ih =>
      have hrest := fun found hmem => hsame found (List.mem_cons_of_mem piece hmem)
      cases piece with
      | kept c =>
          have hnext : Isolated words (c :: before) pieces := h
          have hbegins : phrases.any (beginsWith · (sourceOf (.kept c :: pieces))) =
              phrases.any (beginsWith · (resultOf (.kept c :: pieces))) :=
            any_beginsWith_congr fun phrase hmem => beginsWith_respelled hw (hphrases phrase hmem)
              (hapart phrase hmem) h (.inl ⟨c, pieces, rfl⟩)
          rw [sourceOf_kept, resultOf_kept] at hbegins ⊢
          rw [mentionsFrom, mentionsFrom, hbegins]
          congr 1
          exact ih hnext hrest
      | hit found =>
          -- No phrase reaches over the closer, so the word counts by itself.
          obtain ⟨⟨hold, hnew⟩, hname, hclosed, hnext⟩ := h
          have hbefore : before.head?.any isWord = false := by
            cases before with
            | nil => rfl
            | cons d before => exact isWord_of_isNameChar_eq_false hname
          have hlast : ∀ word ∈ words, (word.getLast?.map isWord).getD false = true := by
            intro word hword
            have hend := (hw word hword).2.2
            cases hl : word.getLast? with
            | none => simp [hl] at hend
            | some d => simpa [hl] using hend
          rw [sourceOf_hit, resultOf_hit, hbefore,
            mentionsFrom_append hphrases (halts_of_isClosed hclosed),
            mentionsFrom_append hphrases (halts_of_isClosed (hnext.closed hw hclosed)),
            hlast _ hold, hlast _ hnew]
          congr 1
          · exact hsame found List.mem_cons_self
          · obtain ⟨c, rest, hc, hcons⟩ := (hw _ hold).exists_last before
            have hinside : (found.matched.reverse ++ before).head?.any isWord = true := by
              rw [hcons]
              exact hc
            have hmentions := ih hnext hrest
            rwa [hinside] at hmentions

end Respelled

/-- The phrases that tell an intent. -/
def phraseLists : List (List Phrase) :=
  [reasoningPhrases, embeddingPhrases]

/-- All phrases consist of words in lower case. -/
theorem isPhrase_of_mem : ∀ phrases ∈ phraseLists, ∀ phrase ∈ phrases, IsPhrase phrase := by
  decide

/-- The intent of a text is told by the phrases that it mentions. -/
theorem classify_congr {text text' : Text}
    (h : ∀ phrases ∈ phraseLists, mentions phrases text = mentions phrases text') :
    classify text = classify text' := by
  rw [classify, classify, h reasoningPhrases (by simp [phraseLists]),
    h embeddingPhrases (by simp [phraseLists])]

end Intent

namespace Kind

open Intent

variable {kind : Kind}

/-- No word that is looked for or written continues a phrase. -/
theorem apart_words : ∀ kind ∈ values, ∀ phrases ∈ phraseLists, ∀ phrase ∈ phrases,
    Apart kind.words phrase := by
  decide

/-- A model and its successors mention the same phrases. -/
theorem mentions_successorOf : ∀ phrases ∈ phraseLists,
    ∀ model ∈ RetiredModel.longNames ++ RetiredModel.shortNames, ∀ intent ∈ Intent.all,
      mentions phrases model = mentions phrases (successorOf model intent) := by
  decide

/-- The names of parameters mention no phrases. -/
theorem mentions_parameter : ∀ phrases ∈ phraseLists,
    ∀ word ∈ tokenLimit.words ++ engineKey.words, mentions phrases word = false := by
  decide

/-- The new spelling of a word mentions the phrases that the old one mentions. -/
theorem mentions_newWord (hkind : kind ∈ values) {phrases : List Phrase}
    (hphrases : phrases ∈ phraseLists) (radius : Option Nat) (c : Cursor) {site : Site}
    (hword : site.word ∈ kind.oldWords) :
    mentions phrases site.word = mentions phrases (kind.newWord radius c site) := by
  have hintent : ∀ intent : Intent, intent ∈ Intent.all := by
    intro intent
    cases intent <;> decide
  have hnew := newWord_mem hkind radius c site
  simp only [values, List.mem_cons, List.not_mem_nil, or_false] at hkind
  rcases hkind with rfl | rfl | rfl | rfl
  · exact mentions_successorOf phrases hphrases _ (List.mem_append_left _ hword) _ (hintent _)
  · exact mentions_successorOf phrases hphrases _ (List.mem_append_right _ hword) _ (hintent _)
  · have hnone := mentions_parameter phrases hphrases
    rw [hnone _ (List.mem_append_left _ (List.mem_append_left _ hword)),
      hnone _ (List.mem_append_left _ (List.mem_append_right _ hnew))]
  · have hnone := mentions_parameter phrases hphrases
    rw [hnone _ (List.mem_append_right _ (List.mem_append_left _ hword)),
      hnone _ (List.mem_append_right _ (List.mem_append_right _ hnew))]

/-- All words that a kind respells mention the same phrases in both spellings. -/
theorem mentions_respellings (hkind : kind ∈ values) {phrases : List Phrase}
    (hphrases : phrases ∈ phraseLists) (radius : Option Nat) (before after : Text) :
    ∀ found, .hit found ∈ kind.respellings radius 0 before after →
      mentions phrases found.matched = mentions phrases found.replacement := by
  induction before, after using site_induction hkind with
  | nil before => exact fun found hmem => absurd hmem List.not_mem_nil
  | kept before c after hnone ih =>
      intro found hmem
      rw [respellings, hnone] at hmem
      simp only [List.mem_cons, reduceCtorEq, false_or] at hmem
      exact ih found hmem
  | site before site rest hsite ih =>
      intro found hmem
      rw [respellings_site hkind radius hsite] at hmem
      simp only [Site.pieces, List.mem_append, List.mem_map, List.mem_cons, Piece.hit.injEq,
        reduceCtorEq, and_false, exists_false, false_or, or_false] at hmem
      rcases hmem with rfl | hmem
      · obtain ⟨_, _, _, _, _, reading⟩ := exists_reading hkind hsite
        exact mentions_newWord hkind hphrases radius _ reading.word_mem
      · exact ih found hmem

/-- A kind that changes one word leaves the intent of the text. -/
theorem classify_rewritten (hkind : kind ∈ values) (radius : Option Nat) (text : Text) :
    classify (rewritten (kind.hit? radius) [] text) = classify text := by
  refine classify_congr fun phrases hphrases => ?_
  have hsame :=
    mentionsFrom_respelled (isPlain_words kind hkind) (isPhrase_of_mem phrases hphrases)
      (apart_words kind hkind phrases hphrases) (isolated_respellings hkind radius [] text)
    (mentions_respellings hkind hphrases radius [] text)
  rw [sourceOf_respellings hkind, resultOf_respellings hkind] at hsame
  exact hsame.symm

end Kind

end SdkUpgrade
