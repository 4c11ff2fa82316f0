import SdkUpgrade.Proofs.Callees
import SdkUpgrade.Proofs.Catalogs
import SdkUpgrade.Proofs.Grammar
import SdkUpgrade.Proofs.Literals

/-!
# Prompts become messages

A prompt is recognised by the readers of its key, its separator and its literal, one behind the
other (`PromptArgument.at?_eq_some_iff`), and it is changed if the callee that is read back from
it is a chat call. Three results follow. `Rule.prompt_edits_head` says what the first prompt of a
chat call gives way to. `Rule.prompt_literal_exact_iff` says where the literal of an edit ends,
and what happens to three quotes that nothing closes. `Catalog.applyAll_completionPrompt_iff`
follows a completion through the rules for calls and for prompts: the second rule recognises the
call of the first one exactly if the whitespace in front of the parenthesis leaves room for the
method in what is searched for a callee.
-/

namespace SdkUpgrade

open Text Source

/-- A dotted name: a letter or an underscore, and then word characters and dots. -/
structure IsName (name : Text) : Prop where
  start : name.head?.any isNameStart = true
  chars : ∀ c ∈ name, isNameChar c = true

/-- A name has at least one character. -/
theorem IsName.ne_nil {name : Text} (h : IsName name) : name ≠ [] := by
  rintro rfl
  exact absurd h.start (by simp)

/-- Name characters behind a name belong to a longer name. -/
theorem IsName.append {name tail : Text} (h : IsName name)
    (ht : ∀ c ∈ tail, isNameChar c = true) :
    IsName (name ++ tail) where
  start := by
    rw [List.head?_append_of_ne_nil _ h.ne_nil]
    exact h.start
  chars c hc := (List.mem_append.1 hc).elim (h.chars c) (ht c)

/-! ## How far back a callee is found -/

namespace Source

/-- Whitespace in front of a character outside of names does not begin with a name character. -/
theorem head?_gap_isNameChar {gap rest : Text} {c : Char} (hgap : IsGap gap)
    (hc : isNameChar c = false) : (gap ++ c :: rest).head?.any isNameChar = false := by
  cases gap with
  | nil => exact hc
  | cons d gap => exact isNameChar_of_isBlank (hgap d List.mem_cons_self)

/-- Ending with a text is having it as a suffix. -/
theorem endsWith_iff {tail text : Text} : endsWith tail text = true ↔ tail <:+ text := by
  simp only [endsWith, Option.isSome_iff_exists, before?_eq_some_iff]
  exact ⟨fun ⟨front, h⟩ => ⟨front, h.symm⟩, fun ⟨front, h⟩ => ⟨front, h.symm⟩⟩

/-- The name at the end of a run of name characters keeps every end of the run that begins like a
name. -/
theorem suffix_dropWhile_nameStart {path run : Text} (hpath : path <:+ run)
    (hstart : path.head?.any isNameStart = true) : path <:+ run.dropWhile (! isNameStart ·) := by
  obtain ⟨lead, rfl⟩ := hpath
  cases path with
  | nil => exact absurd hstart (by simp)
  | cons c path =>
      have hc : isNameStart c = true := hstart
      induction lead with
      | nil => exact ⟨[], (List.dropWhile_cons_of_neg (by simp [hc])).symm⟩
      | cons d lead ih =>
          by_cases hd : isNameStart d = true
          · rw [List.cons_append, List.dropWhile_cons_of_neg (by simp [hd])]
            exact (List.suffix_append lead _).trans (List.suffix_cons d _)
          · rw [List.cons_append, List.dropWhile_cons_of_pos (by simp [hd])]
            exact ih

/-- The callee in front of a parenthesis ends in a path exactly if the run of name
characters there does. -/
theorem calleeBefore?_any_endsWith_iff {path before : Text}
    (hstart : path.head?.any isNameStart = true) :
    (calleeBefore? before).any (endsWith path) = true ↔
      path.reverse <+: (skipBlanks (before.take calleeReach)).takeWhile isNameChar := by
  have hne : path ≠ [] := by
    rintro rfl
    exact absurd hstart (by simp)
  simp only [calleeBefore?]
  generalize (skipBlanks (before.take calleeReach)).takeWhile isNameChar = run
  have hname : path.reverse <+: run ↔ path <:+ run.reverse.dropWhile (! isNameStart ·) := by
    rw [← List.reverse_reverse run, List.reverse_prefix, List.reverse_reverse]
    exact ⟨fun h => suffix_dropWhile_nameStart h hstart,
      fun h => h.trans (List.dropWhile_suffix _)⟩
  rw [hname]
  generalize run.reverse.dropWhile (! isNameStart ·) = name
  cases name with
  | nil => simp [hne]
  | cons c name => exact endsWith_iff

/-- What is read back over whitespace and a name ends in the end of this name exactly if the
whitespace and this end lie within reach. -/
theorem calleeBefore?_endsWith_iff {path name gap : Text} (far : Text)
    (hname : ∀ c ∈ name, isNameChar c = true) (hpath : path <:+ name)
    (hstart : path.head?.any isNameStart = true) (hgap : IsGap gap) :
    (calleeBefore? (gap.reverse ++ (name.reverse ++ far))).any (endsWith path) = true ↔
      gap.length + path.length ≤ calleeReach := by
  have hpos : 0 < path.length := by
    cases path with
    | nil => exact absurd hstart (by simp)
    | cons c path => simp
  have hblank : ∀ c ∈ gap.reverse.take calleeReach, isBlank c = true := fun c hc =>
    hgap c (List.mem_reverse.1 (List.mem_of_mem_take hc))
  rw [calleeBefore?_any_endsWith_iff hstart, List.take_append, skipBlanks_append hblank,
    List.length_reverse]
  constructor
  · intro h
    have hle : path.length ≤ calleeReach - gap.length := by
      calc path.length = path.reverse.length := List.length_reverse.symm
        _ ≤ _ := h.length_le
        _ ≤ _ := (List.takeWhile_prefix _).length_le
        _ ≤ _ := (List.dropWhile_suffix _).length_le
        _ ≤ _ := List.length_take_le _ _
    omega
  · intro h
    obtain ⟨lead, rfl⟩ := hpath
    have hchars : ∀ c ∈ path.reverse, isNameChar c = true := fun c hc =>
      hname c (List.mem_append_right _ (List.mem_reverse.1 hc))
    have hnear : ∃ more, ((lead ++ path).reverse ++ far).take (calleeReach - gap.length) =
        path.reverse ++ more := by
      rw [List.reverse_append, List.append_assoc, List.take_append,
        List.take_of_length_le (by rw [List.length_reverse]; omega)]
      exact ⟨_, rfl⟩
    obtain ⟨more, hnear⟩ := hnear
    have hself : skipBlanks (path.reverse ++ more) = path.reverse ++ more := by
      apply skipBlanks_eq_self
      obtain ⟨c, back, hback⟩ := List.exists_cons_of_ne_nil
        (List.length_pos_iff.1 (by rw [List.length_reverse]; exact hpos) : path.reverse ≠ [])
      rw [hback]
      exact isBlank_of_isNameChar (hchars c (by rw [hback]; exact List.mem_cons_self))
    rw [hnear, hself, List.takeWhile_append_of_pos hchars]
    exact List.prefix_append _ _

end Source

/-! ## Where prompts stand -/

namespace PromptArgument

variable {c : Cursor} {prompt : PromptArgument}

/-- A prompt stands exactly where its key does not continue a word and its readers come through,
one behind the other. -/
theorem at?_eq_some_iff : at? c = some prompt ↔ c.follows joinsKey = false ∧
    IsOptionalQuote prompt.keyQuote ∧ IsSeparator prompt.separator ∧
    ∃ rest, c.after = prompt.keyQuote ++ ("prompt" ++ (prompt.keyQuote ++ (prompt.separator ++
        (prompt.value.text ++ rest)))) ∧
      Literal.read? (prompt.value.text ++ rest) = some (prompt.value, rest) := by
  constructor
  · intro h
    obtain ⟨hfollows, hquote, hseparator, -⟩ := of_at?_eq_some h
    refine ⟨hfollows, hquote, hseparator, ?_⟩
    rw [at?, if_neg (by simp [hfollows])] at h
    split at h
    · exact absurd h (by simp)
    · rename_i keyQuote rest hkey
      split at h
      · exact absurd h (by simp)
      · rename_i separator behind hbehind
        obtain ⟨⟨value, following⟩, hread, rfl⟩ := Option.map_eq_some_iff.1 h
        have hvalue := Literal.read?_eq_some hread
        refine ⟨following, ?_, by rw [← hvalue]; exact hread⟩
        rw [key?_eq_some hkey, separator?_eq_some hbehind, hvalue]
        simp
  · rintro ⟨hfollows, hquote, ⟨left, sign, right, hleft, hsign, hright, hseparator⟩, rest,
      hafter, hread⟩
    obtain ⟨q, hq, ⟨more, hvalue⟩, -⟩ := Literal.exact_iff_of_read? hread
    have hbehind : separator? (prompt.separator ++ (prompt.value.text ++ rest)) =
        some (prompt.separator, prompt.value.text ++ rest) := by
      refine separator?_eq_some_iff.2 ⟨rfl, ?_, left, sign, right, hleft, hright, hseparator, ?_⟩
      · rw [← hvalue]
        exact isBlank_of_isQuote hq
      · rw [← hvalue]
        exact hsign.imp_right fun h => ⟨h, head?_gap_quote hright hq⟩
    have hkey := key?_append hquote (by decide : "prompt".toList ≠ []) (by decide)
      (prompt.separator ++ (prompt.value.text ++ rest))
    rw [at?, if_neg (by simp [hfollows]), hafter, hkey]
    simp only [hbehind, hread, Option.map_some]

/-- A prompt begins with a quote or with its key. -/
theorem head?_of_at? (h : at? c = some prompt) :
    ∃ d, c.after.head? = some d ∧ (isQuote d = true ∨ d = 'p') := by
  obtain ⟨-, hquote, -, rest, hafter, -⟩ := at?_eq_some_iff.1 h
  rw [hafter]
  rcases hquote with hnil | ⟨q, hq, hcons⟩
  · rw [hnil]
    exact ⟨'p', rfl, .inr rfl⟩
  · rw [hcons]
    exact ⟨q, rfl, .inl hq⟩

/-- No prompt begins at a character that is neither a quote nor the first letter of the key. -/
theorem hit?_eq_none_of_head {before after : Text} {d : Char} (hd : isQuote d = false)
    (hp : d ≠ 'p') : hit? ⟨before, d :: after⟩ = none := by
  rw [hit?, Option.map_eq_none_iff]
  cases h : at? ⟨before, d :: after⟩ with
  | none => rfl
  | some prompt =>
      obtain ⟨e, he, hquote | rfl⟩ := head?_of_at? h
      · obtain rfl := Option.some.inj he
        exact absurd (hd.symm.trans hquote) (by simp)
      · exact absurd (Option.some.inj he) hp

/-- A name in front of a parenthesis is not the key of a prompt: a sign would stand in the
place of the parenthesis. -/
theorem not_key_of_name {name gap after keyQuote separator rest : Text} (hname : IsName name)
    (hgap : IsGap gap) (hquote : IsOptionalQuote keyQuote) (hseparator : IsSeparator separator) :
    name ++ (gap ++ '(' :: after) ≠
      keyQuote ++ ("prompt" ++ (keyQuote ++ (separator ++ rest))) := by
  intro heq
  have hbare : keyQuote = [] := by
    rcases hquote with hnil | ⟨q, hq, rfl⟩
    · exact hnil
    · obtain ⟨d, more, rfl⟩ := List.exists_cons_of_ne_nil hname.ne_nil
      obtain ⟨rfl, -⟩ := List.cons.inj heq
      have hchar := hname.chars d List.mem_cons_self
      exact absurd ((isNameChar_of_isQuote hq).symm.trans hchar) (by simp)
  subst hbare
  obtain ⟨left, sign, right, hleft, hsign, -, rfl⟩ := hseparator
  have hsplit : name ++ (gap ++ '(' :: after) =
      "prompt".toList ++ (left ++ sign :: (right ++ rest)) := by
    simpa using heq
  have hparen : (gap ++ '(' :: after).head?.any isNameChar = false :=
    head?_gap_isNameChar hgap (by decide)
  have hsigned : (left ++ sign :: (right ++ rest)).head?.any isNameChar = false :=
    head?_gap_isNameChar hleft (by rcases hsign with rfl | rfl <;> decide)
  -- The name ends where the key ends, since neither is followed by a name character.
  have hkey := List.all_eq_true.1 (by decide : "prompt".toList.all isNameChar = true)
  have hbehind := congrArg (List.dropWhile isNameChar) hsplit
  rw [dropWhile_stretch hname.chars hparen, dropWhile_stretch hkey hsigned] at hbehind
  have hblank : isBlank sign = false := by rcases hsign with rfl | rfl <;> decide
  obtain ⟨-, rfl, -⟩ := hgap.unique hleft (by decide) hblank hbehind
  exact absurd hsign (by decide)

/-- No prompt begins in a name in front of a parenthesis. -/
theorem hit?_eq_none_of_name {name gap first second : Text} (hname : IsName name)
    (hgap : IsGap gap) (hsplit : name = first ++ second) (hne : second ≠ []) (after : Text) :
    hit? ⟨first.reverse, second ++ (gap ++ '(' :: after)⟩ = none := by
  rw [hit?, Option.map_eq_none_iff]
  cases h : at? ⟨first.reverse, second ++ (gap ++ '(' :: after)⟩ with
  | none => rfl
  | some prompt =>
      exfalso
      obtain ⟨hfollows, hquote, hseparator, rest, hafter, -⟩ := at?_eq_some_iff.1 h
      by_cases hfirst : first = []
      · subst hfirst
        obtain rfl : name = second := hsplit
        exact not_key_of_name hname hgap hquote hseparator hafter
      · -- Inside the name the character in front belongs to it.
        have hchars : ∀ c ∈ first, isNameChar c = true := fun c hc =>
          hname.chars c (by rw [hsplit]; exact List.mem_append_left _ hc)
        have hlast := head?_reverse_name hfirst hchars []
        rw [List.append_nil] at hlast
        obtain ⟨d, hd, hnamed⟩ := (Option.any_eq_true _ _).1 hlast
        have hjoins : first.reverse.head?.any joinsKey = true := by
          rw [hd]
          exact joinsKey_of_isNameChar hnamed
        exact absurd (hjoins.symm.trans hfollows) (by simp)

/-- A pass over a name and a parenthesis keeps all of it. -/
theorem pieces_call {name gap : Text} (hname : IsName name) (hgap : IsGap gap)
    (after : Text) : pieces hit? 0 [] (name ++ gap ++ ['('] ++ after) =
      (name ++ gap ++ ['(']).map .kept ++
        pieces hit? 0 ('(' :: (gap.reverse ++ (name.reverse ++ []))) after := by
  have hfirst :=
    @pieces_stretch hit? [] name (gap ++ '(' :: after) fun first second hsplit hne => by
    rw [List.append_nil]
    exact hit?_eq_none_of_name hname hgap hsplit hne after
  have hsecond := @pieces_stretch hit? (name.reverse ++ []) (gap ++ ['(']) after
    fun first second hsplit hne => by
      obtain ⟨d, more, rfl⟩ := List.exists_cons_of_ne_nil hne
      have hmem : d ∈ gap ++ ['('] := by
        rw [hsplit]
        exact List.mem_append_right _ List.mem_cons_self
      rcases List.mem_append.1 hmem with hblank | hparen
      · refine hit?_eq_none_of_head ?_ ?_
        · cases hq : isQuote d with
          | false => rfl
          | true => exact absurd ((isBlank_of_isQuote hq).symm.trans (hgap d hblank)) (by simp)
        · rintro rfl
          exact absurd (hgap _ hblank) (by decide)
      · obtain rfl := List.mem_singleton.1 hparen
        exact hit?_eq_none_of_head (by decide) (by decide)
  have hreverse : (gap ++ ['(']).reverse ++ (name.reverse ++ []) =
      '(' :: (gap.reverse ++ (name.reverse ++ [])) := by simp
  rw [hreverse, List.append_assoc, List.singleton_append] at hsecond
  rw [List.append_assoc, List.append_assoc, List.singleton_append, hfirst, hsecond]
  simp

/-- Behind the parenthesis of a chat call and whitespace, the call is recognised exactly if the
whitespace leaves room for its method in what is searched for a callee. -/
theorem inChatCall_iff {name gap : Text} (hname : IsName name) (hgap : IsGap gap)
    (hchat : "chat.completions.create".toList <:+ name) (after : Text) :
    inChatCall ⟨'(' :: (gap.reverse ++ (name.reverse ++ [])), after⟩ = true ↔
      gap.length ≤ 177 := by
  have hreach := calleeBefore?_endsWith_iff [] hname.chars hchat (by decide) hgap
  have hlength : "chat.completions.create".toList.length = 23 := by decide
  rw [hlength, calleeReach] at hreach
  exact hreach.trans (by omega)

/-! ## The message -/

/-- A message of the user in a list of its own, its keys in the given quotes. -/
def quotedMessage (q : Char) (content : Text) : Text :=
  "[\x7b" ++ betweenQuotes q "role" ++ ": " ++ betweenQuotes q "user" ++ ", " ++
    betweenQuotes q "content" ++ ": " ++ content ++ "\x7d]"

/-- A message of the user in a list of its own, its keys bare. -/
def bareMessage (q : Char) (content : Text) : Text :=
  "[\x7b role: " ++ betweenQuotes q "user" ++ ", content: " ++ content ++ " \x7d]"

/-- The message that a prompt in the quotes `q` gives way to, in the way its key is written. -/
def userMessage (keyQuote separator : Text) (q : Char) (content : Text) : Text :=
  match keyQuote with
  | k :: _ => quotedMessage k content
  | [] => if '=' ∈ separator then quotedMessage '"' content else bareMessage q content

/-- The quoted message, with the literal in its frame. -/
theorem quotedMessage_eq (q : Char) (content : Text) :
    quotedMessage q content = quotedOpening q ++ (content ++ ['\x7d', ']']) :=
  rfl

/-- The bare message, with the literal in its frame. -/
theorem bareMessage_eq (q : Char) (content : Text) :
    bareMessage q content = bareOpening q ++ (content ++ [' ', '\x7d', ']']) :=
  rfl

/-- A prompt gives way to the message with its literal, behind its key and its separator. -/
theorem messages_eq_userMessage {q : Char} (hquote : IsOptionalQuote prompt.keyQuote)
    (hvalue : prompt.value.delimiter.take 1 = [q]) :
    prompt.messages = prompt.keyQuote ++ ("messages" ++ (prompt.keyQuote ++ (prompt.separator ++
      userMessage prompt.keyQuote prompt.separator q prompt.value.text))) := by
  rcases hquote with hnil | ⟨k, -, hcons⟩
  · rw [hnil, userMessage]
    by_cases hsign : '=' ∈ prompt.separator
    · rw [if_pos hsign, quotedMessage_eq]
      simp [messages, quotedOpening, hnil, hsign]
    · rw [if_neg hsign, bareMessage_eq]
      simp [messages, bareOpening, hnil, hsign, hvalue]
  · rw [hcons, userMessage, quotedMessage_eq]
    simp [messages, quotedOpening, hcons]

/-- The key of a message differs from the key of a prompt, so that every message is an edit. -/
theorem messages_ne_text {q : Char} (hquote : IsOptionalQuote prompt.keyQuote)
    (hvalue : prompt.value.delimiter.take 1 = [q]) : prompt.messages ≠ prompt.text := by
  intro heq
  simp only [messages_eq_userMessage hquote hvalue, text, List.append_assoc] at heq
  exact absurd (List.cons.inj (List.append_cancel_left heq)).1 (by decide)

/-- A pass over a call whose first argument is a prompt with a well-formed literal. -/
theorem pieces_argument {name gap rest : Text} {q : Char} (hname : IsName name) (hgap : IsGap gap)
    (hchat : "chat.completions.create".toList <:+ name) (hquote : IsOptionalQuote prompt.keyQuote)
    (hseparator : IsSeparator prompt.separator) (hvalue : prompt.value.WellFormed q)
    (hrest : rest.head?.any isQuote = false) :
    pieces hit? 0 [] (name ++ gap ++ ['('] ++ (prompt.text ++ rest)) =
      (name ++ gap ++ ['(']).map .kept ++
        .hit ⟨prompt.text, if gap.length ≤ 177 then prompt.messages else prompt.text⟩ ::
          pieces hit? 0 (prompt.text.reverse ++ '(' :: (gap.reverse ++ (name.reverse ++ [])))
            rest := by
  have hat : at? ⟨'(' :: (gap.reverse ++ (name.reverse ++ [])), prompt.text ++ rest⟩ =
      some prompt :=
    at?_eq_some_iff.2 ⟨(by decide : joinsKey '(' = false), hquote, hseparator, rest,
      by simp [text], hvalue.read? hrest⟩
  have hfound : hit? ⟨'(' :: (gap.reverse ++ (name.reverse ++ [])), prompt.text ++ rest⟩ =
      some ⟨prompt.text, if gap.length ≤ 177 then prompt.messages else prompt.text⟩ := by
    have hchat := inChatCall_iff hname hgap hchat (prompt.text ++ rest)
    rw [hit?, hat, Option.map_some]
    by_cases hlength : gap.length ≤ 177
    · rw [if_pos (hchat.2 hlength), if_pos hlength]
    · rw [if_neg (mt hchat.1 hlength), if_neg hlength]
  have hpieces := @pieces_hit _ recognises_hit? _ rest ⟨prompt.text, _⟩ hfound
  rw [pieces_call hname hgap, hpieces]

end PromptArgument

namespace Rule

open PromptArgument Literal

/-- The first edit of a call whose first argument is a prompt: the key, the separator and the
whole literal give way to a message that says the literal, in the way the key is written. -/
theorem prompt_edits_head (radius : Option Nat) {callee keyQuote separator rest : Text}
    {value : Literal} {q : Char} (hcallee : IsName callee)
    (hchat : "chat.completions.create".toList <:+ callee) (hquote : IsOptionalQuote keyQuote)
    (hseparator : IsSeparator separator) (hvalue : value.WellFormed q)
    (hrest : rest.head?.any isQuote = false) :
    let argument := keyQuote ++ "prompt" ++ keyQuote ++ separator ++ value.text
    ((Rule.ofKind .promptMessage).edits radius (callee ++ "(" ++ argument ++ rest)).head? =
      some (Edit.behind "prompt.messages" (callee ++ "(") argument (keyQuote ++ "messages" ++
        keyQuote ++ separator ++ userMessage keyQuote separator q value.text)) := by
  let prompt : PromptArgument := ⟨keyQuote, separator, value⟩
  have hpieces :=
    @pieces_argument prompt callee [] rest q hcallee isGap_nil hchat hquote hseparator
      hvalue hrest
  rw [List.append_nil, if_pos (by decide : ([] : Text).length ≤ 177)] at hpieces
  have hmessages := @messages_eq_userMessage prompt q hquote hvalue.take_delimiter
  simp only [← List.append_assoc] at hmessages
  have hedits : (Rule.ofKind .promptMessage).edits radius (callee ++ "(" ++ prompt.text ++ rest) =
      editsFrom "prompt.messages" 0
        (SdkUpgrade.pieces hit? 0 [] (callee ++ ['('] ++ (prompt.text ++ rest))) := by
    rw [← List.append_assoc]
    rfl
  intro argument
  show (edits _ radius (callee ++ "(" ++ prompt.text ++ rest)).head? = _
  rw [hedits, hpieces, editsFrom_map_kept, editsFrom,
    if_neg (messages_ne_text hquote hvalue.take_delimiter), Nat.zero_add, hmessages]
  rfl

/-- The literal keeps an escaped quote, and the message takes the literal's quotes. -/
theorem prompt_edits_head_escaped :
    ((Rule.ofKind .promptMessage).edits none
      "v.chat.completions.create(prompt: 'it\\'s')").head? =
      some (Edit.behind "prompt.messages" "v.chat.completions.create(" "prompt: 'it\\'s'"
        "messages: [\x7b role: 'user', content: 'it\\'s' \x7d]") := by
  have hbody : IsBody ['\''] false "it\\'s".toList :=
    ((body?_eq_some_iff (delimits_quotes (by decide) [])).1
      (by decide : Literal.body? ['\''] false "it\\'s'".toList = some ("it\\'s".toList, []))).1
  have hhead :=
    @prompt_edits_head none "v.chat.completions.create".toList [] ": ".toList ")".toList
      ⟨['\''], "it\\'s".toList⟩ '\'' ⟨by decide, List.all_eq_true.1 (by decide)⟩
    ⟨"v.".toList, by decide⟩ (.inl rfl)
    ⟨[], ':', [' '], isGap_nil, .inl rfl,
      List.all_eq_true.1 (by decide : [' '].all isBlank = true), rfl⟩
    (.short (by decide) rfl hbody) (by decide)
  have htext : "v.chat.completions.create(prompt: 'it\\'s')".toList =
      "v.chat.completions.create".toList ++ "(".toList ++
        ([] ++ "prompt".toList ++ [] ++ ": ".toList ++
        (['\''] ++ "it\\'s".toList ++ ['\''])) ++ ")".toList := by decide
  rw [htext]
  exact hhead.trans (by decide)

/-! ## Where the literal of a prompt ends -/

/-- The literal of an edit ends with the first delimiter that closes it, unless the value begins
with three quotes that nothing closes. Then the literal consists of the first two of them. -/
theorem prompt_literal_exact_iff {radius : Option Nat} {text : Text} {edit : Edit}
    (h : edit ∈ (Rule.ofKind .promptMessage).edits radius text) :
    ∃ front keyQuote separator value, ∃ literal : Literal,
      text = front ++ (keyQuote ++ "prompt" ++ keyQuote ++ separator ++ value) ∧
      IsOptionalQuote keyQuote ∧ IsSeparator separator ∧ literal.text <+: value ∧
      edit.start = front.length ∧
      edit.before = keyQuote ++ "prompt" ++ keyQuote ++ separator ++ literal.text ∧
      ∃ q, isQuote q = true ∧ [q] <+: value ∧
        (literal.Exact value ↔ ¬ Literal.Unclosed q value) ∧
        (Literal.Unclosed q value → literal = ⟨[q], []⟩) := by
  obtain ⟨front, rest, hit, hsource, hfound, rfl⟩ :=
    exists_of_mem_editsFrom recognises_hit? [] text h
  obtain ⟨prompt, hat, hhit⟩ := Option.map_eq_some_iff.1 hfound
  have hmatched : hit.matched = prompt.text := by rw [← hhit]
  obtain ⟨-, hquote, hseparator, behind, hafter, hread⟩ := at?_eq_some_iff.1 hat
  refine ⟨front.reverse, prompt.keyQuote, prompt.separator, prompt.value.text ++ behind,
    prompt.value, ?_, hquote, hseparator, List.prefix_append _ _,
    List.length_reverse.symm, hmatched, exact_iff_of_read? hread⟩
  have htext : text = front.reverse ++ (hit.matched ++ rest) := by simpa using hsource.symm
  have hafter : hit.matched ++ rest = _ := hafter
  rw [htext, hafter]
  simp only [List.append_assoc]

/-- The literal is closed by three quotes, and the two quotes inside of it are part of it. -/
theorem prompt_literal_exact_iff_long :
    let edit := Edit.behind "prompt.messages" "chat.completions.create(" "prompt='''a''b'''"
      "messages=[\x7b\"role\": \"user\", \"content\": '''a''b'''\x7d]"
    edit ∈ (Rule.ofKind .promptMessage).edits none "chat.completions.create(prompt='''a''b''')" ∧
    ∃ front keyQuote separator value, ∃ literal : Literal,
      "chat.completions.create(prompt='''a''b''')".toList =
        front ++ (keyQuote ++ "prompt" ++ keyQuote ++ separator ++ value) ∧
      IsOptionalQuote keyQuote ∧ IsSeparator separator ∧ literal.text <+: value ∧
      edit.start = front.length ∧
      edit.before = keyQuote ++ "prompt" ++ keyQuote ++ separator ++ literal.text ∧
      ∃ q, isQuote q = true ∧ [q] <+: value ∧
        (literal.Exact value ↔ ¬ Unclosed q value) ∧
          (Unclosed q value → literal = ⟨[q], []⟩) := by
  intro edit
  have hmem : edit ∈ (Rule.ofKind .promptMessage).edits none
      "chat.completions.create(prompt='''a''b''')" := by decide +kernel
  exact ⟨hmem, prompt_literal_exact_iff hmem⟩

/-- Three quotes that nothing closes are not left alone: the first two of them become the
literal of a message. -/
theorem prompt_unclosed_edit : Unclosed '"' "\"\"\"open)".toList ∧
    (Rule.ofKind .promptMessage).edits none "chat.completions.create(prompt=\"\"\"open)" =
      [Edit.behind "prompt.messages" "chat.completions.create(" "prompt=\"\""
        "messages=[\x7b\"role\": \"user\", \"content\": \"\"\x7d]"] := by
  have hnone : ∀ n, ¬ StandsAt ['"', '"', '"'] "open)".toList n :=
    (body?_eq_none_iff (delimits_quotes (by decide) _)).1 (by decide)
  exact ⟨⟨⟨"open)".toList, by decide⟩, hnone⟩, by decide +kernel⟩

end Rule

/-! ## A completion through two rules -/

/-- A rule for calls finds nothing where no parenthesis follows. -/
theorem Kind.call_hit?_eq_none {kind : Kind} {radius : Option Nat} {before after : Text}
    (hkind : kind ∈ calls) (h : '(' ∉ after) : kind.hit? radius ⟨before, after⟩ = none := by
  cases hfound : kind.hit? radius ⟨before, after⟩ with
  | none => rfl
  | some found =>
      obtain ⟨receiver, method, modern, gap, rest, -, -, -, hname, -⟩ :=
        (call_hit?_eq_some_iff hkind).1 hfound
      rw [(dottedName?_eq_some_iff.1 hname).2.1] at h
      exact absurd (by simp) h

/-- The rule for completions renames a call and writes what follows as it is, if no
parenthesis opens there. -/
theorem Rule.apply_completionCall (radius : Option Nat) {receiver gap rest : Text}
    (hreceiver : IsName receiver)
    (hchat : (Text.split '.' receiver).getLast? ≠ some "chat".toList)
    (hgap : IsGap gap) (hrest : '(' ∉ rest) :
    (Rule.ofKind .completionCall).apply radius
        (receiver ++ ".Completion.create" ++ gap ++ ['('] ++ rest) =
      receiver ++ ".chat.completions.create" ++ gap ++ ['('] ++ rest := by
  have hf := Kind.completionCall.recognises_hit? radius
  have hmem : Kind.completionCall ∈ Kind.calls := List.mem_cons_self
  have hmethod : IsName (receiver ++ ".Completion.create") :=
    hreceiver.append (List.all_eq_true.1 (by decide))
  have hname : dottedName? ⟨[], receiver ++ ".Completion.create" ++ gap ++ ['('] ++ rest⟩ =
      some (receiver ++ ".Completion.create", gap ++ '(' :: rest) :=
    dottedName?_eq_some_iff.2 ⟨rfl, by simp, hmethod.start, hmethod.chars,
      head?_gap_isNameChar hgap (by decide)⟩
  have hfound := (@Kind.call_hit?_eq_some_iff _ radius _ _ hmem).2
    ⟨receiver, _, _, gap, rest, .completion hchat, hreceiver.ne_nil, hgap, hname, rfl⟩
  have hkept : ∀ before, rewritten (Kind.completionCall.hit? radius) before rest = rest := by
    intro before
    have hstretch := @rewritten_stretch (Kind.completionCall.hit? radius) before rest []
      fun first second hsplit _ => Kind.call_hit?_eq_none hmem (by
        rw [List.append_nil]
        exact fun hopen => hrest (hsplit ▸ List.mem_append_right _ hopen))
    rwa [List.append_nil, rewritten_nil, List.append_nil] at hstretch
  show rewritten (Kind.completionCall.hit? radius) [] _ = _
  rw [@rewritten_hit _ hf [] rest ⟨_, _⟩ hfound, hkept]

namespace PromptArgument

/-- A pass over a call with a prompt as its only argument. -/
theorem apply_argument (radius : Option Nat) {prompt : PromptArgument} {name gap : Text}
    {q : Char} (hname : IsName name) (hgap : IsGap gap)
    (hchat : "chat.completions.create".toList <:+ name)
    (hquote : IsOptionalQuote prompt.keyQuote) (hseparator : IsSeparator prompt.separator)
    (hvalue : prompt.value.WellFormed q) :
    (Rule.ofKind .promptMessage).apply radius (name ++ gap ++ ['('] ++ (prompt.text ++ [')'])) =
      name ++ gap ++ ['('] ++
        ((if gap.length ≤ 177 then prompt.messages else prompt.text) ++ [')']) := by
  have hpieces :=
    @pieces_argument prompt name gap [')'] q hname hgap hchat hquote hseparator hvalue (by decide)
  have hlast : ∀ before, pieces hit? 0 before [')'] = [.kept ')'] := by
    intro before
    rw [pieces, hit?_eq_none_of_head (by decide) (by decide)]
    rfl
  show (pieces hit? 0 [] _).flatMap Piece.result = _
  rw [hpieces, hlast, List.flatMap_append, flatMap_result_map_kept]
  rfl

/-- Letters and spaces are the body of a literal in one line. -/
theorem isBody_of_letters {body : Text} (h : ∀ c ∈ body, c.isAlpha = true ∨ c = ' ') :
    IsBody ['"'] false body := by
  induction body with
  | nil => exact .nil
  | cons c body ih =>
      have hc := h c List.mem_cons_self
      refine .plain ?_ (fun _ => ?_) ?_ (ih fun d hd => h d (List.mem_cons_of_mem _ hd))
      · rintro rfl
        exact absurd hc (by decide)
      · rintro rfl
        exact absurd hc (by decide)
      · rintro ⟨more, hmore⟩
        obtain ⟨rfl, -⟩ := List.cons.inj hmore
        exact absurd hc (by decide)

/-- A prompt behind an equals sign, in double quotes. -/
def doubleQuoted (body : Text) : PromptArgument :=
  ⟨[], ['='], ⟨['"'], body⟩⟩

/-- The prompt in double quotes, written out. -/
theorem text_doubleQuoted (body : Text) :
    (doubleQuoted body).text = "prompt=\"" ++ body ++ "\"" := by
  simp [doubleQuoted, text, Literal.text]

/-- The message that says a prompt in double quotes, written out. -/
theorem messages_doubleQuoted (body : Text) : (doubleQuoted body).messages =
    "messages=[\x7b\"role\": \"user\", \"content\": \"" ++ body ++ "\"\x7d]" := by
  simp [doubleQuoted, messages, Literal.text]

end PromptArgument

namespace Catalog

open PromptArgument

/-- The catalog of the rules for completions and for prompts, in this order. -/
theorem exists_completionPrompt :
    ∃ catalog, ofRules [.ofKind .completionCall, .ofKind .promptMessage] = .ok catalog ∧
      catalog.rules = [.ofKind .completionCall, .ofKind .promptMessage] := by
  obtain ⟨catalog, hok, hrules⟩ :=
    @exists_ofRules _ [.ofKind .completionCall, .ofKind .promptMessage] (by decide)
  refine ⟨catalog, hok, hrules.trans ?_⟩
  exact List.mergeSort_of_pairwise (List.pairwise_pair.2 (by decide))

/-- A completion with a prompt of letters and spaces becomes a chat call with a message exactly if
at most 177 characters of whitespace stand in front of the parenthesis: these and the method are
the 200 characters that are searched for the callee. Behind more whitespace the call is renamed
and keeps its prompt. -/
theorem applyAll_completionPrompt_iff (radius : Option Nat) {receiver gap body : Text}
    (hreceiver : IsName receiver)
    (hchat : (Text.split '.' receiver).getLast? ≠ some "chat".toList)
    (hgap : IsGap gap) (hbody : ∀ c ∈ body, c.isAlpha = true ∨ c = ' ') :
    ∃ catalog, ofRules [.ofKind .completionCall, .ofKind .promptMessage] = .ok catalog ∧
      let call := receiver ++ ".chat.completions.create" ++ gap
      let result := catalog.applyAll radius
        (receiver ++ ".Completion.create" ++ gap ++ "(prompt=\"" ++ body ++ "\")")
      (result = call ++ "(messages=[\x7b\"role\": \"user\", \"content\": \"" ++ body ++
        "\"\x7d])" ↔
        gap.length ≤ 177) ∧
      (177 < gap.length → result = call ++ "(prompt=\"" ++ body ++ "\")") := by
  obtain ⟨catalog, hok, hrules⟩ := exists_completionPrompt
  refine ⟨catalog, hok, ?_⟩
  intro call result
  have hopen : '(' ∉ (doubleQuoted body).text ++ [')'] := by
    rw [text_doubleQuoted]
    intro hmem
    simp only [List.mem_append, or_assoc] at hmem
    rcases hmem with hmem | hmem | hmem | hmem
    · exact absurd hmem (by decide)
    · exact absurd (hbody _ hmem) (by decide)
    · exact absurd hmem (by decide)
    · exact absurd hmem (by decide)
  have hvalue : (doubleQuoted body).value.WellFormed '"' :=
    .short (by decide) rfl (isBody_of_letters hbody)
  have hresult : result = call ++ ['('] ++ ((if gap.length ≤ 177 then
      (doubleQuoted body).messages else (doubleQuoted body).text) ++ [')']) := by
    have hfirst := Rule.apply_completionCall radius hreceiver hchat hgap hopen
    have hsecond := @apply_argument radius (doubleQuoted body)
      (receiver ++ ".chat.completions.create") gap '"'
      (hreceiver.append (List.all_eq_true.1 (by decide))) hgap ⟨receiver ++ ['.'], by simp⟩
        (.inl rfl)
      ⟨[], '=', [], isGap_nil, .inr rfl, isGap_nil, rfl⟩ hvalue
    have htext : receiver ++ ".Completion.create" ++ gap ++ "(prompt=\"" ++ body ++ "\")" =
        receiver ++ ".Completion.create" ++ gap ++ ['('] ++
          ((doubleQuoted body).text ++ [')']) := by
      rw [text_doubleQuoted]
      simp
    show catalog.applyAll radius _ = _
    rw [applyAll, hrules, htext, List.foldl_cons, hfirst, List.foldl_cons, hsecond]
    rfl
  have hmessage : call ++ ['('] ++ ((doubleQuoted body).messages ++ [')']) =
      call ++ "(messages=[\x7b\"role\": \"user\", \"content\": \"" ++ body ++ "\"\x7d])" := by
    rw [messages_doubleQuoted]
    simp
  have hprompt : call ++ ['('] ++ ((doubleQuoted body).text ++ [')']) =
      call ++ "(prompt=\"" ++ body ++ "\")" := by
    rw [text_doubleQuoted]
    simp
  by_cases hlength : gap.length ≤ 177
  · rw [if_pos hlength, hmessage] at hresult
    exact ⟨iff_of_true hresult hlength, fun hlong => absurd hlong (by omega)⟩
  · rw [if_neg hlength, hprompt] at hresult
    refine ⟨iff_of_false (fun hsame => ?_) hlength, fun _ => hresult⟩
    have hkeys := hresult.symm.trans hsame
    rw [← hprompt, ← hmessage, List.append_cancel_left_eq, List.append_cancel_right_eq] at hkeys
    exact messages_ne_text (.inl rfl) hvalue.take_delimiter hkeys.symm

/-- Two spaces leave room for the method. -/
theorem applyAll_completionPrompt_spaces :
    ∃ catalog, ofRules [.ofKind .completionCall, .ofKind .promptMessage] = .ok catalog ∧
      catalog.applyAll (some 40)
          ("v" ++ ".Completion.create" ++ [' ', ' '] ++ "(prompt=\"" ++ "hi" ++ "\")") =
        "v" ++ ".chat.completions.create" ++ [' ', ' '] ++
          "(messages=[\x7b\"role\": \"user\", \"content\": \"" ++ "hi" ++ "\"\x7d])" := by
  obtain ⟨catalog, hok, hiff, -⟩ := @applyAll_completionPrompt_iff (some 40) "v".toList [' ', ' ']
    "hi".toList ⟨by decide, List.all_eq_true.1 (by decide)⟩ (by decide)
    (List.all_eq_true.1 (by decide : [' ', ' '].all isBlank = true))
    fun c hc => .inl (List.all_eq_true.1 (by decide : "hi".toList.all Char.isAlpha = true) c hc)
  exact ⟨catalog, hok, hiff.2 (by decide)⟩

/-- A call can be left half changed: behind 178 spaces it is renamed, but its
prompt is not wrapped. -/
theorem applyAll_completionPrompt_far :
    ∃ catalog, ofRules [.ofKind .completionCall, .ofKind .promptMessage] = .ok catalog ∧
      catalog.applyAll none
          ("v.Completion.create" ++ List.replicate 178 ' ' ++ "(prompt=\"hi\")") =
        "v.chat.completions.create" ++ List.replicate 178 ' ' ++ "(prompt=\"hi\")" := by
  obtain ⟨catalog, hok, hrules⟩ := exists_completionPrompt
  refine ⟨catalog, hok, ?_⟩
  rw [applyAll, hrules]
  decide +kernel

end Catalog

end SdkUpgrade
