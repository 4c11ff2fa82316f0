import SdkUpgrade.Proofs.Residue

/-!
# The weight of a text

The weight of a text is the number of places where a retired key or the family name of a retired
model begins. A weight is at most the length of its text. No rule makes a text heavier, and every
edit of the rules for prompts, long names and engine keys makes it lighter:
`Kind.weight_rewritten`.

Weights add up wherever no keyword reaches across, so the weight of a replacement is read off its
parts. The weight of what was taken needs only a lower bound, and parts always give one.
-/

namespace SdkUpgrade

open Text Source

/-- The words that replacements never add. -/
def keywords : List Text :=
  ["prompt", "engine", "davinci", "curie", "babbage", "ada"]

/-- A keyword begins the text. -/
def beginsKeyword (text : Text) : Bool :=
  keywords.any fun word => word.isPrefixOf text

/-- The number of places of a text where a keyword begins. -/
def weight : Text → Nat
  | [] => 0
  | c :: text => (if beginsKeyword (c :: text) then 1 else 0) + weight text

/-- A letter of some keyword. -/
def isKeywordLetter (c : Char) : Bool :=
  keywords.any fun word => word.contains c

/-- A letter of some keyword that is not its last one. -/
def isInnerLetter (c : Char) : Bool :=
  keywords.any fun word => word.dropLast.contains c

section Weight

variable {first second text : Text}

/-- A keyword begins a text exactly if one is its beginning. -/
theorem beginsKeyword_iff : beginsKeyword text = true ↔ ∃ word ∈ keywords, word <+: text := by
  simp [beginsKeyword, List.any_eq_true, List.isPrefixOf_iff_prefix]

/-- A text weighs at most its length. -/
theorem weight_le_length (text : Text) : weight text ≤ text.length := by
  induction text with
  | nil => exact Nat.le_refl 0
  | cons c text ih =>
      simp only [weight, List.length_cons]
      split <;> omega

/-- A text weighs at least as much as its parts together. -/
theorem le_weight_append (first second : Text) :
    weight first + weight second ≤ weight (first ++ second) := by
  induction first with
  | nil => simp [weight]
  | cons c first ih =>
      have hmono : beginsKeyword (c :: first) = true →
          beginsKeyword (c :: (first ++ second)) = true := by
        simp only [beginsKeyword_iff]
        rintro ⟨word, hword, hp⟩
        exact ⟨word, hword, hp.trans (List.prefix_append (c :: first) second)⟩
      simp only [List.cons_append, weight]
      split
      · rename_i hbegins
        rw [if_pos (hmono hbegins)]
        omega
      · omega

/-- No keyword begins in the first text and ends in the second one. -/
def Parted (first second : Text) : Prop :=
  ∀ word ∈ keywords, ∀ left right, word = left ++ right → left ≠ [] → right ≠ [] →
    left <:+ first → ¬ right <+: second

/-- Where no keyword reaches across, weights add up. -/
theorem weight_append (h : Parted first second) :
    weight (first ++ second) = weight first + weight second := by
  induction first with
  | nil => simp [weight]
  | cons c first ih =>
      have hrest : Parted first second := by
        intro word hword left right hsplit hleft hright hsuffix
        exact h word hword left right hsplit hleft hright
          (hsuffix.trans (List.suffix_cons c first))
      have hsame : beginsKeyword (c :: (first ++ second)) = beginsKeyword (c :: first) := by
        rw [Bool.eq_iff_iff, beginsKeyword_iff, beginsKeyword_iff]
        constructor
        · rintro ⟨word, hword, more, hmore⟩
          refine ⟨word, hword, ?_⟩
          rw [← List.cons_append] at hmore
          rcases split_append hmore with ⟨rest, -, hin, -⟩ | ⟨right, hword', hright⟩
          · exact ⟨rest, hin.symm⟩
          · -- The word would reach into the second text.
            cases right with
            | nil => exact ⟨[], by simp [hword']⟩
            | cons d right =>
                exact absurd ⟨more, hright⟩
                  (h word hword (c :: first) (d :: right) hword' (by simp) (by simp)
                    List.suffix_rfl)
        · rintro ⟨word, hword, hp⟩
          exact ⟨word, hword, hp.trans (List.prefix_append (c :: first) second)⟩
      simp only [List.cons_append, weight, hsame, ih hrest]
      omega

/-- No keyword goes on behind a character that is no letter of one, or only a last one. -/
theorem parted_of_last (h : first.getLast?.any isInnerLetter = false) : Parted first second := by
  rintro word hword left right rfl hleft hright hsuffix -
  have hlast : first.getLast? = some (left.getLast hleft) := by
    obtain ⟨front, rfl⟩ := hsuffix
    rw [List.getLast?_append, List.getLast?_eq_some_getLast hleft]
    rfl
  rw [hlast, Option.any_some, isInnerLetter, List.any_eq_false] at h
  refine h _ hword ?_
  rw [List.dropLast_append_of_ne_nil hright, List.contains_iff_mem]
  exact List.mem_append_left _ (List.getLast_mem hleft)

/-- What is no letter of a keyword is no inner letter of one. -/
theorem isInnerLetter_eq_false {c : Char} (h : isKeywordLetter c = false) :
    isInnerLetter c = false := by
  rw [isKeywordLetter, List.any_eq_false] at h
  rw [isInnerLetter, List.any_eq_false]
  intro word hword hc
  refine h word hword ?_
  rw [List.contains_iff_mem] at hc ⊢
  exact (List.dropLast_sublist word).subset hc

/-- No keyword reaches across the beginning of a text that begins with no letter of one. -/
theorem parted_of_head (h : second.head?.any isKeywordLetter = false) : Parted first second := by
  rintro word hword left right rfl - hright - hp
  obtain ⟨c, right, rfl⟩ := List.exists_cons_of_ne_nil hright
  have hhead : second.head? = some c := by
    obtain ⟨more, rfl⟩ := hp
    rfl
  rw [hhead, Option.any_some, isKeywordLetter, List.any_eq_false] at h
  exact h _ hword (by simp)

/-- One character is too short for a keyword. -/
theorem weight_singleton (c : Char) : weight [c] = 0 := by
  have hlong : ∀ word ∈ keywords, 1 < word.length := by decide
  have hbegins : beginsKeyword [c] = false := by
    rw [Bool.eq_false_iff, ne_eq, beginsKeyword_iff]
    rintro ⟨word, hword, hp⟩
    have hlength : word.length ≤ 1 := hp.length_le
    exact absurd (hlong word hword) (by omega)
  simp [weight, hbegins]

/-- What stands behind a character that is no letter of a keyword. -/
theorem weight_cons {c : Char} (hc : isKeywordLetter c = false) :
    weight (c :: text) = weight text := by
  have hparted : Parted [c] text := parted_of_last (by simpa using isInnerLetter_eq_false hc)
  calc weight (c :: text) = weight ([c] ++ text) := rfl
    _ = weight [c] + weight text := weight_append hparted
    _ = weight text := by rw [weight_singleton, Nat.zero_add]

/-- A character that is no letter of a keyword parts a text. -/
theorem weight_append_cons {c : Char} (hc : isKeywordLetter c = false) :
    weight (first ++ c :: text) = weight first + weight text := by
  rw [weight_append (parted_of_head (by simpa using hc)), weight_cons hc]

/-- Characters that are no letters of keywords may be left out in front of a text. -/
theorem weight_stretch {stretch : Text} (h : ∀ c ∈ stretch, isKeywordLetter c = false) :
    weight (stretch ++ text) = weight text := by
  induction stretch with
  | nil => rfl
  | cons c stretch ih =>
      rw [List.cons_append, weight_cons (h c List.mem_cons_self),
        ih fun d hd => h d (List.mem_cons_of_mem _ hd)]

/-- A stretch of characters that are no letters of keywords parts a text. -/
theorem weight_append_stretch {stretch : Text} (hne : stretch ≠ [])
    (h : ∀ c ∈ stretch, isKeywordLetter c = false) :
    weight (first ++ (stretch ++ text)) = weight first + weight text := by
  rw [weight_append (parted_of_head (head?_stretch hne h)), weight_stretch h]

/-- Characters that are no letters of keywords may be left out behind a text. -/
theorem weight_append_last {stretch : Text} (h : ∀ c ∈ stretch, isKeywordLetter c = false) :
    weight (first ++ stretch) = weight first := by
  by_cases hne : stretch = []
  · rw [hne, List.append_nil]
  · have hparts := @weight_append_stretch first [] stretch hne h
    simpa [weight] using hparts

/-- Letters of keywords are name characters. -/
theorem isNameChar_of_isKeywordLetter {c : Char} (h : isKeywordLetter c = true) :
    isNameChar c = true := by
  have hletters : ∀ word ∈ keywords, word.all isNameChar = true := by decide
  rw [isKeywordLetter, List.any_eq_true] at h
  obtain ⟨word, hword, hc⟩ := h
  exact List.all_eq_true.1 (hletters word hword) c (by simpa using hc)

/-- What belongs to no name is no letter of a keyword. -/
theorem isKeywordLetter_eq_false {c : Char} (h : isNameChar c = false) :
    isKeywordLetter c = false := by
  cases hc : isKeywordLetter c with
  | false => rfl
  | true =>
      rw [isNameChar_of_isKeywordLetter hc] at h
      exact h

end Weight

/-! ## Passes -/

/-- The replacements of the recogniser are not heavier than what they replace, and lighter by the
given cost if they are something else. No keyword reaches from a replacement into what follows. -/
def Lighter (cost : Nat) (find? : Cursor → Option Hit) : Prop :=
  ∀ (before rest : Text) (hit : Hit), find? ⟨before, hit.matched ++ rest⟩ = some hit →
    Parted hit.replacement (rewritten find? (hit.matched.reverse ++ before) rest) ∧
      weight hit.replacement + (if hit.replacement = hit.matched then 0 else cost) ≤
        weight hit.matched

/-- A keyword that begins with a character that the pass keeps was there before. -/
theorem beginsKeyword_of_rewritten {find? : Cursor → Option Hit} (ht : Tame find?)
    {before after : Text} {c : Char} (hc : find? ⟨before, c :: after⟩ = none)
    (h : beginsKeyword (rewritten find? before (c :: after)) = true) :
    beginsKeyword (c :: after) = true := by
  have hletters : ∀ word ∈ keywords, word.all isNameChar = true := by decide
  obtain ⟨word, hword, hp⟩ := beginsKeyword_iff.1 h
  rcases prefix_rewritten ht.recognises before (c :: after) hp with
    ⟨rest, hrest, -⟩ | ⟨left, right, rest, hit, rfl, hne, hsplit, hh, hp⟩
  · exact beginsKeyword_iff.2 ⟨word, hword, rest, hrest.symm⟩
  · -- A hit would begin behind a letter of the word, with another letter of it.
    exfalso
    have hleft : left ≠ [] := by
      rintro rfl
      rw [List.nil_append] at hsplit
      rw [List.reverse_nil, List.nil_append, ← hsplit, hc] at hh
      simp at hh
    have hfollows := head?_reverse_name hleft
      (fun d hd => List.all_eq_true.1 (hletters _ hword) d (List.mem_append_left _ hd)) before
    have hinner := (ht.inner hh hfollows).2
    obtain ⟨d, right, rfl⟩ := List.exists_cons_of_ne_nil hne
    obtain ⟨e, replacement, hreplacement⟩ := List.exists_cons_of_ne_nil (ht.nonempty hh)
    rw [hreplacement, List.cons_append, List.cons_prefix_cons] at hp
    rw [hreplacement, ← hp.1] at hinner
    have hd : isNameChar d = true := List.all_eq_true.1 (hletters _ hword) d (by simp)
    simp [hd] at hinner

/-- A pass does not make a text heavier, and every edit makes it lighter by the cost. -/
theorem weight_rewritten {find? : Cursor → Option Hit} {cost : Nat} (ht : Tame find?)
    (hl : Lighter cost find?) (ruleId : Text) (before after : Text) : ∀ offset,
    weight (rewritten find? before after) +
      cost * (editsFrom ruleId offset (pieces find? 0 before after)).length ≤ weight after := by
  induction before, after using pass_induction ht.recognises with
  | nil before =>
      intro offset
      simp [pieces, editsFrom, weight]
  | kept before c after hc ih =>
      intro offset
      have hbegins := @beginsKeyword_of_rewritten _ ht _ _ _ hc
      have hrest := ih (offset + 1)
      rw [rewritten_kept hc] at hbegins ⊢
      simp only [pieces, hc, editsFrom, weight]
      split
      · rename_i hword
        rw [if_pos (hbegins hword)]
        omega
      · omega
  | hit before hit rest hh ih =>
      intro offset
      obtain ⟨hparted, hweight⟩ := hl before rest hit hh
      have hrest := ih (offset + hit.matched.length)
      have hsum := le_weight_append hit.matched rest
      rw [rewritten_hit ht.recognises hh, pieces_hit ht.recognises hh, weight_append hparted]
      simp only [editsFrom]
      split
      · rename_i hsame
        rw [if_pos hsame] at hweight
        omega
      · rename_i hother
        rw [if_neg hother] at hweight
        rw [List.length_cons, Nat.mul_add, Nat.mul_one]
        omega

/-! ## The rules -/

/-- A rule is not heavier if its replacements are parted from the rest and not heavier. -/
theorem Lighter.of_le {find? : Cursor → Option Hit}
    (h : ∀ (before rest : Text) (hit : Hit), find? ⟨before, hit.matched ++ rest⟩ = some hit →
      Parted hit.replacement (rewritten find? (hit.matched.reverse ++ before) rest) ∧
        weight hit.replacement ≤ weight hit.matched) : Lighter 0 find? := by
  intro before rest hit hh
  obtain ⟨hparted, hweight⟩ := h before rest hit hh
  refine ⟨hparted, ?_⟩
  split <;> omega

/-- Whitespace has no letters of keywords. -/
theorem isKeywordLetter_gap {gap : Text} (hg : IsGap gap) :
    ∀ c ∈ gap, isKeywordLetter c = false :=
  fun c hc => isKeywordLetter_eq_false (isNameChar_of_isBlank (hg c hc))

/-- No keyword reaches across a quote. -/
theorem isKeywordLetter_quote {q : Char} (hq : isQuote q = true) : isKeywordLetter q = false :=
  isKeywordLetter_eq_false (isNameChar_of_isQuote hq)

namespace RetiredCall

/-- A rewritten call weighs as much as its receiver. -/
theorem weight_hit {call : RetiredCall} {modern : Text} (hg : IsGap call.gap)
    (hmodern : modern ∈ modernMethods) :
    weight (hit modern call).replacement = weight call.receiver := by
  have hmethods : ∀ modern ∈ modernMethods, modern.head?.any isKeywordLetter = false ∧
      modern ≠ [] ∧ weight modern = 0 := by decide
  obtain ⟨hhead, hne, hzero⟩ := hmethods modern hmodern
  have htail : ∀ c ∈ call.gap ++ ['('], isKeywordLetter c = false := by
    intro c hc
    rcases List.mem_append.1 hc with hc | hc
    · exact isKeywordLetter_gap hg c hc
    · rw [List.mem_singleton.1 hc]
      decide
  have hshape : (hit modern call).replacement =
      call.receiver ++ (modern ++ (call.gap ++ ['('])) := by
    simp [hit, text]
  have hfirst : (modern ++ (call.gap ++ ['('])).head?.any isKeywordLetter = false := by
    rw [head?_append_any hne]
    exact hhead
  rw [hshape, weight_append (parted_of_head hfirst), weight_append_last htail, hzero]
  rfl

/-- A rewritten call is not heavier. -/
theorem lighter_hit {call : RetiredCall} {modern rest : Text} (hg : IsGap call.gap)
    (hmodern : modern ∈ modernMethods) : Parted (hit modern call).replacement rest ∧
      weight (hit modern call).replacement ≤ weight (hit modern call).matched := by
  have hlast : (hit modern call).replacement.getLast? = some '(' := by simp [hit, text]
  refine ⟨parted_of_last (by rw [hlast]; decide), ?_⟩
  have hsum := le_weight_append call.receiver (call.method ++ call.gap ++ ['('])
  have hshape : (hit modern call).matched =
      call.receiver ++ (call.method ++ call.gap ++ ['(']) := by
    simp [hit, text]
  rw [weight_hit hg hmodern, hshape]
  omega

end RetiredCall

namespace ChoiceAccess

/-- A rewritten access weighs as much as its receiver and its index. -/
theorem weight_modern (access : ChoiceAccess) :
    weight access.modern = weight access.receiver + weight access.index := by
  have hshape : access.modern = access.receiver ++ '.' :: ("choices" ++ '[' :: (access.index ++
      ']' :: '.' :: "message.content")) := by simp [modern]
  have hchoices : weight "choices" = 0 := by decide
  have hcontent : weight ('.' :: "message.content") = 0 := by decide
  rw [hshape, weight_append_cons (by decide), weight_append_cons (by decide),
    weight_append_cons (by decide), hchoices, hcontent]
  omega

/-- The receiver and the index weigh no more than the access. -/
theorem le_weight_text (access : ChoiceAccess) :
    weight access.receiver + weight access.index ≤ weight access.text := by
  have hparts : ∀ middle last : Text, weight access.receiver + weight access.index ≤
      weight (access.receiver ++ (middle ++ (access.index ++ last))) := by
    intro middle last
    have hreceiver := le_weight_append access.receiver (middle ++ (access.index ++ last))
    have hmiddle := le_weight_append middle (access.index ++ last)
    have hindex := le_weight_append access.index last
    omega
  unfold text
  split
  · simpa using hparts ".choices[" "].text"
  · rename_i q q' _
    simpa using hparts ('[' :: q :: ("choices" ++ q :: ']' :: ['[']))
      (']' :: '[' :: q' :: ("text" ++ [q', ']']))

/-- A rewritten access is not heavier. No keyword has a letter `t` before its end, so none goes on
behind the last attribute. -/
theorem lighter_hit (access : ChoiceAccess) (rest : Text) :
    Parted (hit access).replacement rest ∧
      weight (hit access).replacement ≤ weight (hit access).matched := by
  have hlast : access.modern.getLast? = some 't' := by
    simp [modern, List.getLast?_append, List.getLast?_cons]
  refine ⟨parted_of_last (by rw [hit, hlast]; decide), ?_⟩
  show weight access.modern ≤ weight access.text
  rw [weight_modern]
  exact le_weight_text access

end ChoiceAccess

namespace ModelMention

/-- The rule for long names makes a text lighter. -/
theorem lighter_longHit? (radius : Option Nat) : Lighter 1 (longHit? radius) := by
  have hheavy : ∀ model ∈ RetiredModel.longNames, 1 ≤ weight model := by decide
  have hlight : ∀ successor ∈ successors, weight successor = 0 := by decide
  intro before rest hit hh
  obtain ⟨q, model, successor, hq, hmodel, hsuccessor, hmatched, hreplacement⟩ :=
    of_longHit?_eq_some hh
  have hletter := isKeywordLetter_quote hq
  have hquoted : ∀ name : Text, weight (q :: (name ++ [q])) = weight name := by
    intro name
    rw [weight_cons hletter, weight_append_cons hletter]
    rfl
  have hlast : hit.replacement.getLast? = some q := by
    rw [hreplacement]
    simp [List.getLast?_cons]
  refine ⟨parted_of_last (by rw [hlast]; exact isInnerLetter_eq_false hletter), ?_⟩
  have hbefore := hheavy model hmodel
  rw [hreplacement, hmatched, hquoted, hquoted, hlight successor hsuccessor]
  split <;> omega

/-- The rule for short names does not make a text heavier. -/
theorem lighter_shortHit? (radius : Option Nat) : Lighter 0 (shortHit? radius) := by
  have hlight : ∀ successor ∈ successors, weight successor = 0 := by decide
  refine .of_le fun before rest hit hh => ?_
  obtain ⟨key, close, sign, gap, q, model, successor, more, hkey, hclose, hg, hq, -, hsuccessor,
    hmatched, hreplacement, -⟩ := of_shortHit?_eq_some hh
  have hletter := isKeywordLetter_quote hq
  have hlast : hit.replacement.getLast? = some q := by
    rw [hreplacement]
    simp [List.getLast?_append, List.getLast?_cons]
  refine ⟨parted_of_last (by rw [hlast]; exact isInnerLetter_eq_false hletter), ?_⟩
  have hend : ∀ c ∈ close, isKeywordLetter c = false :=
    fun c hc => isKeywordLetter_eq_false (isNameChar_keyEnd hclose c hc)
  have hne : close ≠ [] := by
    obtain ⟨quote, front, -, -, -, rfl⟩ := hclose
    simp
  have hvalue : weight (gap ++ q :: (successor ++ [q])) = 0 := by
    rw [weight_stretch (isKeywordLetter_gap hg), weight_cons hletter, weight_append_cons hletter,
      hlight successor hsuccessor]
    rfl
  have hsum := le_weight_append key (close ++ (gap ++ q :: (model ++ [q])))
  rw [hreplacement, hmatched, weight_append_stretch hne hend, hvalue]
  omega

end ModelMention

/-- The rule for token limits does not make a text heavier. -/
theorem lighter_tokenLimitHit? : Lighter 0 tokenLimitHit? := by
  refine .of_le fun before rest hit hh => ?_
  obtain ⟨close, sign, more, hclose, hwritten⟩ :=
    keyEnd_rewritten hh (hit.matched.reverse ++ before)
  rw [hwritten, (of_tokenLimitHit?_eq_some hh).1]
  refine ⟨parted_of_head ?_, by decide⟩
  have hhead := @head?_keyEnd _ more _ hclose
  cases hc : (close ++ more).head? with
  | none => rfl
  | some c =>
      rw [hc] at hhead
      exact isKeywordLetter_eq_false hhead

namespace PromptArgument

/-- The frame of a message weighs nothing. -/
theorem weight_frame {left right text : Text} (h : Frame left right) :
    weight (left ++ (text ++ right)) = weight text := by
  have hright : ∀ c ∈ right, isKeywordLetter c = false := fun c hc =>
    isKeywordLetter_eq_false (h.isNameChar_right c hc)
  have hrole : weight "role" = 0 := by decide
  have huser : weight "user" = 0 := by decide
  have hcontent : weight "content" = 0 := by decide
  cases h with
  | quoted q hq hleft _ =>
      subst hleft
      have hletter := isKeywordLetter_quote hq
      simp only [quotedOpening, List.cons_append, List.append_assoc, List.nil_append]
      rw [weight_cons (by decide), weight_cons (by decide), weight_cons hletter,
        weight_append_cons hletter, weight_cons (by decide), weight_cons (by decide),
        weight_cons hletter, weight_append_cons hletter, weight_cons (by decide),
        weight_cons (by decide), weight_cons hletter, weight_append_cons hletter,
        weight_cons (by decide), weight_cons (by decide), weight_append_last hright, hrole,
        huser, hcontent]
      omega
  | bare q hq hleft _ =>
      subst hleft
      have hletter := isKeywordLetter_quote hq
      simp only [bareOpening, List.cons_append, List.append_assoc, List.nil_append]
      rw [weight_cons (by decide), weight_cons (by decide), weight_cons (by decide),
        weight_append_cons (by decide), weight_cons (by decide), weight_cons hletter,
        weight_append_cons hletter, weight_cons (by decide), weight_cons (by decide),
        weight_append_cons (by decide), weight_cons (by decide), weight_append_last hright,
        hrole, huser, hcontent]
      omega

/-- The rule for prompts makes a text lighter. -/
theorem lighter_hit? : Lighter 1 hit? := by
  intro before rest hit hh
  obtain ⟨prompt, -, hquote, hs, hvalue, hmatched, hcase⟩ := of_hit?_eq_some hh
  rcases hcase with hsame | ⟨left, right, hframe, hmessages⟩
  · obtain ⟨q, hlast, hq⟩ := getLast?_text hvalue
      (prompt.keyQuote ++ ("prompt" ++ (prompt.keyQuote ++ prompt.separator)))
    have hend : hit.replacement.getLast? = some q := by
      rw [hsame, hmatched, ← hlast]
      simp
    refine ⟨parted_of_last ?_, by rw [if_pos hsame, hsame]; omega⟩
    rw [hend]
    exact isInnerLetter_eq_false (isKeywordLetter_quote hq)
  · have hend : hit.replacement.getLast? = some ']' := by
      have hassoc : hit.replacement = prompt.keyQuote ++ ("messages" ++ (prompt.keyQuote ++
          (prompt.separator ++ (left ++ prompt.value.text)))) ++ right := by simp [hmessages]
      rw [hassoc]
      cases hframe with
      | quoted _ _ _ hright => rw [hright, getLast?_append_ne_nil (by simp)]; rfl
      | bare _ _ _ hright => rw [hright, getLast?_append_ne_nil (by simp)]; rfl
    refine ⟨parted_of_last (by rw [hend]; decide), ?_⟩
    have hquoteChars : ∀ c ∈ prompt.keyQuote, isKeywordLetter c = false :=
      fun c hc => isKeywordLetter_eq_false (isNameChar_optionalQuote hquote c hc)
    have hsChars : ∀ c ∈ prompt.separator, isKeywordLetter c = false :=
      fun c hc => isKeywordLetter_eq_false (isNameChar_separator hs c hc)
    have hne : prompt.keyQuote ++ prompt.separator ≠ [] := by
      obtain ⟨front, sign, back, -, -, -, hsep⟩ := hs
      simp [hsep]
    -- The key is followed by its quote and its separator.
    have hweight : ∀ word text : Text, weight (prompt.keyQuote ++ (word ++ (prompt.keyQuote ++
        (prompt.separator ++ text)))) = weight word + weight text := by
      intro word text
      rw [weight_stretch hquoteChars, ← List.append_assoc prompt.keyQuote prompt.separator]
      exact weight_append_stretch hne fun c hc =>
        (List.mem_append.1 hc).elim (hquoteChars c) (hsChars c)
    have hold : weight "prompt" = 1 := by decide
    have hnew : weight "messages" = 0 := by decide
    rw [hmatched, hmessages, hweight, hweight, weight_frame hframe, hold, hnew]
    split <;> omega

end PromptArgument

namespace EngineKey

/-- The rule for engine keys makes a text lighter. -/
theorem lighter_hit? : Lighter 1 hit? := by
  intro before rest hit hh
  obtain ⟨key, name, hname, hlead, hquote, hs, hvalue, hmatched, hreplacement⟩ :=
    of_hit?_eq_some hh
  have hleadChars : ∀ c ∈ key.lead, isKeywordLetter c = false :=
    fun c hc => isKeywordLetter_eq_false ((isNameChar_lead hlead).1 c hc)
  have hquoteChars : ∀ c ∈ key.keyQuote, isKeywordLetter c = false :=
    fun c hc => isKeywordLetter_eq_false (isNameChar_optionalQuote hquote c hc)
  have hvalueChars : ∀ c ∈ key.separator ++ key.valueQuote, isKeywordLetter c = false := by
    intro c hc
    rcases List.mem_append.1 hc with hc | hc
    · exact isKeywordLetter_eq_false (isNameChar_separator hs c hc)
    · exact isKeywordLetter_eq_false (isNameChar_optionalQuote hvalue c hc)
  have hne : key.separator ++ key.valueQuote ≠ [] := by
    obtain ⟨front, sign, back, -, -, -, hsep⟩ := hs
    simp [hsep]
  have hend : ∃ c ∈ key.separator ++ key.valueQuote, hit.replacement.getLast? = some c := by
    refine ⟨_, List.getLast_mem hne, ?_⟩
    have hassoc : hit.replacement = key.lead ++ (key.keyQuote ++ (name ++ key.keyQuote)) ++
        (key.separator ++ key.valueQuote) := by simp [hreplacement]
    rw [hassoc, getLast?_append_ne_nil hne, List.getLast?_eq_some_getLast hne]
  obtain ⟨c, hc, hlast⟩ := hend
  refine ⟨parted_of_last (by rw [hlast]; exact isInnerLetter_eq_false (hvalueChars c hc)), ?_⟩
  have htail : ∀ c ∈ key.keyQuote ++ (key.separator ++ key.valueQuote),
      isKeywordLetter c = false := by
    intro c hc
    exact (List.mem_append.1 hc).elim (hquoteChars c) (hvalueChars c)
  have hweight : ∀ word : Text, weight (key.lead ++ (key.keyQuote ++ (word ++ (key.keyQuote ++
      (key.separator ++ key.valueQuote))))) = weight word := by
    intro word
    rw [weight_stretch hleadChars, weight_stretch hquoteChars, weight_append_last htail]
  have hold : weight "engine" = 1 := by decide
  have hnew : weight "model" = 0 := by decide
  simp only [List.mem_cons, List.not_mem_nil, or_false] at hname
  rcases hname with rfl | rfl
  · have hsame : hit.replacement = hit.matched := hreplacement.trans hmatched.symm
    rw [if_pos hsame, hsame]
    omega
  · rw [hreplacement, hmatched, hweight, hweight, hold, hnew]
    split <;> omega

end EngineKey

/-- What an edit of a kind takes off the weight of a text, at least. -/
def Kind.cost (kind : Kind) : Nat :=
  if kind ∈ named then 0 else 1

/-- No rule makes a text heavier, and the rules that look for more than a name make it lighter. -/
theorem Kind.lighter (kind : Kind) (radius : Option Nat) :
    Lighter kind.cost (kind.hit? radius) := by
  cases kind with
  | completionCall =>
      refine .of_le fun before rest hit hh => ?_
      obtain ⟨call, hcall, rfl⟩ := Option.map_eq_some_iff.1 hh
      obtain ⟨-, hg, -⟩ := RetiredCall.of_at?_eq_some (Option.filter_eq_some_iff.1 hcall).1
      exact RetiredCall.lighter_hit hg (by decide)
  | chatCompletionCall =>
      refine .of_le fun before rest hit hh => ?_
      obtain ⟨call, hcall, rfl⟩ := Option.map_eq_some_iff.1 hh
      obtain ⟨-, hg, -⟩ := RetiredCall.of_at?_eq_some hcall
      exact RetiredCall.lighter_hit hg (by decide)
  | embeddingCall =>
      refine .of_le fun before rest hit hh => ?_
      obtain ⟨call, hcall, rfl⟩ := Option.map_eq_some_iff.1 hh
      obtain ⟨-, hg, -⟩ := RetiredCall.of_at?_eq_some hcall
      exact RetiredCall.lighter_hit hg (by decide)
  | choiceAttributes =>
      refine .of_le fun before rest hit hh => ?_
      obtain ⟨access, -, rfl⟩ := Option.map_eq_some_iff.1 hh
      exact ChoiceAccess.lighter_hit access _
  | choiceSubscripts =>
      refine .of_le fun before rest hit hh => ?_
      obtain ⟨access, -, rfl⟩ := Option.map_eq_some_iff.1 hh
      exact ChoiceAccess.lighter_hit access _
  | promptMessage => exact PromptArgument.lighter_hit?
  | modelName => exact ModelMention.lighter_longHit? radius
  | shortModelName => exact ModelMention.lighter_shortHit? radius
  | tokenLimit => exact lighter_tokenLimitHit?
  | engineKey => exact EngineKey.lighter_hit?

/-- After a pass of a rule the text is not heavier, and lighter by its cost for every edit. -/
theorem Rule.weight_apply (rule : Rule) (radius : Option Nat) (text : Text) :
    weight (rule.apply radius text) + rule.kind.cost * (rule.edits radius text).length ≤
      weight text :=
  weight_rewritten (rule.kind.tame radius) (rule.kind.lighter radius) rule.id [] text 0

end SdkUpgrade
