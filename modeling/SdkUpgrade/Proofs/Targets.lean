import SdkUpgrade.Proofs.Replacements

/-!
# What the rules for names look for

Seven kinds of change look for a name in front of a trailer. `Kind.readsNames` says so for each of
them, and `Quiet` says that none of the seven finds anything at a name. Most names are quiet
because of the next character that is no whitespace, `quiet_of_next`; the other names of
replacements are quiet because a trailer is read in one way only.
-/

namespace SdkUpgrade

open Text Source

namespace Kind

/-- The kinds of change that look for a name in front of a trailer. -/
def named : List Kind :=
  [completionCall, chatCompletionCall, embeddingCall, choiceAttributes, choiceSubscripts,
   shortModelName, tokenLimit]

/-- The names that a kind of change looks for. -/
def Names : Kind → Text → Prop
  | completionCall, name => ∃ receiver, receiver ≠ [] ∧ lastSegment receiver ≠ "chat".toList ∧
      (name = receiver ++ ".Completion.create" ∨ name = receiver ++ ".completions.create")
  | chatCompletionCall, name =>
      ∃ receiver : Text, receiver ≠ [] ∧ name = receiver ++ ".ChatCompletion.create"
  | embeddingCall, name =>
      ∃ receiver : Text, receiver ≠ [] ∧ name = receiver ++ ".Embedding.create"
  | choiceAttributes, name => ∃ receiver : Text, receiver ≠ [] ∧ name = receiver ++ ".choices"
  | choiceSubscripts, _ => True
  | shortModelName, name => name ∈ ModelMention.keys
  | tokenLimit, name => name = tokenLimitName
  | _, _ => False

/-- What has to follow such a name. -/
def trailer : Kind → Trailer
  | choiceAttributes => .choiceText
  | choiceSubscripts => .subscripts
  | shortModelName => .shortModel
  | tokenLimit => .key
  | _ => .call

/-- The trailers are sound. -/
theorem sound_trailer (kind : Kind) : kind.trailer.Sound := by
  cases kind with
  | choiceAttributes => exact Trailer.sound_choiceText
  | choiceSubscripts => exact Trailer.sound_subscripts
  | shortModelName => exact Trailer.sound_shortModel
  | tokenLimit => exact Trailer.sound_key
  | _ => exact Trailer.sound_call

/-- The kind finds something where the name stands in front of the rest. -/
def Finds (kind : Kind) (name rest : Text) : Prop :=
  kind.Names name ∧ kind.trailer.Follows rest

end Kind

namespace RetiredCall

/-- A call is found exactly at a name that splits, with a parenthesis behind it. -/
theorem at?_ne_none_iff {methods : List Text} {c : Cursor} : at? methods c ≠ none ↔
    ∃ name rest, dottedName? c = some (name, rest) ∧
      (∃ receiver method, splitName? methods name = some (receiver, method) ∧ receiver ≠ []) ∧
      Trailer.call.Follows rest := by
  constructor
  · intro h
    obtain ⟨call, hcall⟩ := Option.ne_none_iff_exists'.1 h
    obtain ⟨hne, hg, name, rest, hd, hs⟩ := at?_eq_some_iff.1 hcall
    exact ⟨name, _, hd, ⟨_, _, hs, hne⟩, Trailer.follows_call_iff.2 ⟨call.gap, rest, hg, rfl⟩⟩
  · rintro ⟨name, rest, hd, ⟨receiver, method, hs, hne⟩, hfollows⟩
    obtain ⟨gap, more, hg, rfl⟩ := Trailer.follows_call_iff.1 hfollows
    have hcall : at? methods c = some ⟨receiver, method, gap⟩ :=
      at?_eq_some_iff.2 ⟨hne, hg, name, more, hd, hs⟩
    simp [hcall]

/-- A name splits at the only method if it ends with it. -/
theorem splitName?_singleton {method name : Text} :
    (∃ receiver found, splitName? [method] name = some (receiver, found) ∧ receiver ≠ []) ↔
      ∃ receiver, receiver ≠ [] ∧ name = receiver ++ method := by
  constructor
  · rintro ⟨receiver, found, hs, hne⟩
    obtain ⟨hmem, rfl⟩ := splitName?_eq_some hs
    obtain rfl : found = method := by simpa using hmem
    exact ⟨receiver, hne, rfl⟩
  · rintro ⟨receiver, hne, rfl⟩
    have hbefore : before? method (receiver ++ method) = some receiver :=
      before?_eq_some_iff.2 rfl
    exact ⟨receiver, method, by simp [splitName?, hbefore], hne⟩

/-- The two methods of one-shot completions do not end the same name. -/
theorem splitName?_completion {receiver : Text} :
    splitName? [".Completion.create", ".completions.create"] (receiver ++ ".Completion.create") =
        some (receiver, ".Completion.create".toList) ∧
      splitName? [".Completion.create", ".completions.create"]
        (receiver ++ ".completions.create") =
        some (receiver, ".completions.create".toList) := by
  have hfirst : before? ".Completion.create" (receiver ++ ".Completion.create") = some receiver :=
    before?_eq_some_iff.2 rfl
  have hsecond : before? ".completions.create" (receiver ++ ".completions.create") =
      some receiver :=
    before?_eq_some_iff.2 rfl
  have hother : before? ".Completion.create" (receiver ++ ".completions.create") = none := by
    simp [before?, after?]
  exact ⟨by simp only [splitName?, hfirst], by simp only [splitName?, hother, hsecond]⟩

/-- A one-shot completion is found exactly at a name that ends in one of its methods behind a
receiver other than a chat. -/
theorem completionHit?_ne_none_iff {c : Cursor} : completionHit? c ≠ none ↔
    ∃ name rest, dottedName? c = some (name, rest) ∧ Kind.completionCall.Names name ∧
      Trailer.call.Follows rest := by
  constructor
  · intro h
    obtain ⟨found, hfound⟩ := Option.ne_none_iff_exists'.1 h
    obtain ⟨call, hcall, -⟩ := Option.map_eq_some_iff.1 hfound
    obtain ⟨hat, hchat⟩ := Option.filter_eq_some_iff.1 hcall
    obtain ⟨hne, hg, hmethod, rest, hd⟩ := of_at?_eq_some hat
    refine ⟨_, _, hd, ⟨call.receiver, hne, by simpa using hchat, ?_⟩,
      Trailer.follows_call_iff.2 ⟨call.gap, rest, hg, rfl⟩⟩
    simp only [List.mem_cons, List.not_mem_nil, or_false] at hmethod
    exact hmethod.imp (congrArg _) (congrArg _)
  · rintro ⟨name, rest, hd, ⟨receiver, hne, hchat, hname⟩, hfollows⟩
    obtain ⟨gap, more, hg, rfl⟩ := Trailer.follows_call_iff.1 hfollows
    have hsplit : ∃ method, splitName? [".Completion.create", ".completions.create"] name =
        some (receiver, method) := by
      rcases hname with rfl | rfl
      · exact ⟨_, splitName?_completion.1⟩
      · exact ⟨_, splitName?_completion.2⟩
    obtain ⟨method, hs⟩ := hsplit
    have hcall : at? [".Completion.create", ".completions.create"] c =
        some ⟨receiver, method, gap⟩ :=
      at?_eq_some_iff.2 ⟨hne, hg, name, more, hd, hs⟩
    simp only [completionHit?, hcall, Option.filter_some, hchat, ne_eq, not_false_eq_true,
      decide_true, if_true, Option.map_some, reduceCtorEq]

end RetiredCall

namespace ChoiceAccess

/-- An access by attributes is found exactly at a name that ends in `choices`, with its trailer
behind it. -/
theorem attributesAt?_ne_none_iff {c : Cursor} : attributesAt? c ≠ none ↔
    ∃ name rest, dottedName? c = some (name, rest) ∧ Kind.choiceAttributes.Names name ∧
      Trailer.choiceText.Follows rest := by
  constructor
  · intro h
    obtain ⟨access, haccess⟩ := Option.ne_none_iff_exists'.1 h
    obtain ⟨-, hne, hindex, more, hmore, hd⟩ := attributesAt?_eq_some_iff.1 haccess
    exact ⟨_, _, hd, ⟨access.receiver, hne, rfl⟩,
      '[' :: (access.index ++ ']' :: '.' :: "text"), more, by simp,
      ⟨access.index, hindex, rfl⟩, hmore⟩
  · rintro ⟨name, rest, hd, ⟨receiver, hne, rfl⟩, tail, more, rfl, ⟨index, hindex, rfl⟩, hmore⟩
    have haccess : attributesAt? c = some ⟨receiver, .attributes, index⟩ := by
      refine attributesAt?_eq_some_iff.2 ⟨rfl, hne, hindex, more, hmore, ?_⟩
      rw [hd]
      simp
    simp [haccess]

/-- An access by subscripts is found exactly at a name with its trailer behind it. -/
theorem subscriptsAt?_ne_none_iff {c : Cursor} : subscriptsAt? c ≠ none ↔
    ∃ name rest, dottedName? c = some (name, rest) ∧ Kind.choiceSubscripts.Names name ∧
      Trailer.subscripts.Follows rest := by
  constructor
  · intro h
    obtain ⟨access, haccess⟩ := Option.ne_none_iff_exists'.1 h
    obtain ⟨hindex, q, q', more, hq, hq', -, hd⟩ := subscriptsAt?_eq_some_iff.1 haccess
    refine ⟨_, _, hd, trivial, '[' :: q :: ("choices" ++ q :: ']' :: '[' ::
      (access.index ++ ']' :: '[' :: q' :: ("text" ++ [q', ']']))), more, by simp,
      ⟨q, access.index, q', hq, hindex, hq', rfl⟩, ?_⟩
    simp [Trailer.subscripts]
  · rintro ⟨name, rest, hd, -, tail, more, rfl, ⟨q, index, q', hq, hindex, hq', rfl⟩, -⟩
    have haccess : subscriptsAt? c = some ⟨name, .subscripts q q', index⟩ := by
      refine subscriptsAt?_eq_some_iff.2 ⟨hindex, q, q', more, hq, hq', rfl, ?_⟩
      rw [hd]
      simp
    simp [haccess]

end ChoiceAccess

/-- The rules for names find something exactly where a name that they look for stands in front of
its trailer. -/
theorem Kind.readsNames {kind : Kind} (hkind : kind ∈ named) (radius : Option Nat) :
    ReadsNames (kind.hit? radius) kind.Names kind.trailer := by
  intro c
  have hmap : ∀ {α : Type} {answer : Option α} {f : α → Hit}, answer.map f ≠ none ↔
      answer ≠ none :=
    fun {α answer f} => not_congr Option.map_eq_none_iff
  cases kind with
  | completionCall => exact RetiredCall.completionHit?_ne_none_iff
  | chatCompletionCall =>
      refine hmap.trans (RetiredCall.at?_ne_none_iff.trans ?_)
      simp only [RetiredCall.splitName?_singleton]
      rfl
  | embeddingCall =>
      refine hmap.trans (RetiredCall.at?_ne_none_iff.trans ?_)
      simp only [RetiredCall.splitName?_singleton]
      rfl
  | choiceAttributes => exact hmap.trans ChoiceAccess.attributesAt?_ne_none_iff
  | choiceSubscripts => exact hmap.trans ChoiceAccess.subscriptsAt?_ne_none_iff
  | shortModelName => exact hmap.trans ModelMention.shortAt?_ne_none_iff
  | tokenLimit => exact tokenLimitHit?_ne_none_iff
  | promptMessage => exact absurd hkind (by decide)
  | modelName => exact absurd hkind (by decide)
  | engineKey => exact absurd hkind (by decide)

/-! ## Names at which nothing is found -/

/-- No kind of change finds anything where the name stands in front of the rest. -/
def Quiet (name rest : Text) : Prop :=
  ∀ kind ∈ Kind.named, ¬ kind.Finds name rest

/-- The keys that are looked for. -/
def soughtKeys : List Text :=
  tokenLimitName :: ModelMention.keys

namespace Trailer

variable {rest : Text}

/-- Behind whitespace, the trailer of a call has a parenthesis. -/
theorem next_of_follows_call (h : call.Follows rest) : (skipBlanks rest).head? = some '(' := by
  rw [head?_skipBlanks_eq_some_iff (by decide)]
  exact follows_call_iff.1 h

/-- The trailer of an access by attributes begins with a bracket. -/
theorem head?_of_follows_choiceText (h : choiceText.Follows rest) : rest.head? = some '[' := by
  obtain ⟨tail, more, rfl, ⟨index, -, rfl⟩, -⟩ := h
  rfl

/-- The trailer of an access by subscripts begins with a bracket and a quote. -/
theorem head?_of_follows_subscripts (h : subscripts.Follows rest) :
    ∃ q more, isQuote q = true ∧ rest = '[' :: q :: more := by
  obtain ⟨tail, more, rfl, ⟨q, index, q', hq, -, -, rfl⟩, -⟩ := h
  exact ⟨q, _, hq, rfl⟩

/-- Behind whitespace, the trailer of a key has a quote or a sign. -/
theorem next_of_follows_key (h : key.Follows rest) :
    ∃ d, (skipBlanks rest).head? = some d ∧ (isQuote d = true ∨ d = ':' ∨ d = '=') := by
  obtain ⟨close, more, rfl, ⟨sign, hclose⟩, -⟩ := h
  exact head?_skipBlanks_keyEnd hclose

/-- Behind whitespace, the trailer of a short name has a quote or a sign. -/
theorem next_of_follows_shortModel (h : shortModel.Follows rest) :
    ∃ d, (skipBlanks rest).head? = some d ∧ (isQuote d = true ∨ d = ':' ∨ d = '=') := by
  obtain ⟨tail, more, rfl, ⟨close, sign, gap, q, name, hclose, -, -, -, rfl⟩, -⟩ := h
  rw [List.append_assoc]
  exact head?_skipBlanks_keyEnd hclose

end Trailer

/-- A bracket at the beginning of a text is what stands there behind whitespace, too. -/
theorem next_of_bracket {rest : Text} (h : rest.head? = some '[') :
    (skipBlanks rest).head? = some '[' := by
  rw [skipBlanks_eq_self (by rw [h]; exact (by decide : isBlank '[' = false)), h]

/-- What a kind finds determines the next character behind whitespace: a parenthesis behind calls,
a bracket behind accesses, and a quote or a sign behind keys. -/
theorem Kind.Finds.next {kind : Kind} {name rest : Text} (h : kind.Finds name rest)
    (hkind : kind ∈ named) :
    kind ∈ [completionCall, chatCompletionCall, embeddingCall] ∧
        (skipBlanks rest).head? = some '(' ∨
      kind ∈ [choiceAttributes, choiceSubscripts] ∧ (skipBlanks rest).head? = some '[' ∨
      kind ∈ [shortModelName, tokenLimit] ∧ name ∈ soughtKeys ∧
        ∃ d, (skipBlanks rest).head? = some d ∧ (isQuote d = true ∨ d = ':' ∨ d = '=') := by
  obtain ⟨hname, hfollows⟩ := h
  cases kind with
  | completionCall => exact .inl ⟨by decide, Trailer.next_of_follows_call hfollows⟩
  | chatCompletionCall => exact .inl ⟨by decide, Trailer.next_of_follows_call hfollows⟩
  | embeddingCall => exact .inl ⟨by decide, Trailer.next_of_follows_call hfollows⟩
  | choiceAttributes =>
      have hhead := next_of_bracket (Trailer.head?_of_follows_choiceText hfollows)
      exact .inr (.inl ⟨by decide, hhead⟩)
  | choiceSubscripts =>
      obtain ⟨q, more, -, rfl⟩ := Trailer.head?_of_follows_subscripts hfollows
      exact .inr (.inl ⟨by decide, next_of_bracket rfl⟩)
  | shortModelName =>
      exact .inr (.inr ⟨by decide, List.mem_cons_of_mem _ hname,
        Trailer.next_of_follows_shortModel hfollows⟩)
  | tokenLimit =>
      obtain rfl : name = tokenLimitName := hname
      exact .inr (.inr ⟨by decide, List.mem_cons_self, Trailer.next_of_follows_key hfollows⟩)
  | promptMessage => exact absurd hkind (by decide)
  | modelName => exact absurd hkind (by decide)
  | engineKey => exact absurd hkind (by decide)

/-- A name is quiet in front of a character that begins no trailer. A quote or a sign begins the
trailer of a key, so the name must not be one of the keys then. -/
theorem quiet_of_next {name rest : Text} {d : Char} (hnext : (skipBlanks rest).head? = some d)
    (hparen : d ≠ '(') (hbracket : d ≠ '[')
    (hkey : isQuote d = true ∨ d = ':' ∨ d = '=' → name ∉ soughtKeys) : Quiet name rest := by
  intro kind hkind hfinds
  have hsame : ∀ {e : Char}, (skipBlanks rest).head? = some e → d = e :=
    fun he => Option.some.inj (hnext.symm.trans he)
  rcases hfinds.next hkind with ⟨-, he⟩ | ⟨-, he⟩ | ⟨-, hsought, e, he, hclass⟩
  · exact hparen (hsame he)
  · exact hbracket (hsame he)
  · obtain rfl := hsame he
    exact hkey hclass hsought

/-- The last segment of a name behind a dot. -/
theorem lastSegment_append {receiver segment : Text} (h : '.' ∉ segment) :
    lastSegment (receiver ++ '.' :: segment) = segment := by
  have hall : ∀ c ∈ segment.reverse, decide (c ≠ '.') = true := by
    intro c hc
    rw [decide_eq_true_eq]
    rintro rfl
    exact h (List.mem_reverse.1 hc)
  have hstop : ('.' :: receiver.reverse).head?.any (fun c => decide (c ≠ '.')) = false := rfl
  rw [lastSegment, List.reverse_append, List.reverse_cons, List.append_assoc,
    List.singleton_append, takeWhile_stretch hall hstop, List.reverse_reverse]

namespace RetiredCall

/-- The methods that retired calls are given. -/
def modernMethods : List Text :=
  [chatCompletion, ".embeddings.create"]

/-- No name ends both in a new method and in a retired one, a chat completion apart. -/
theorem not_retired : ∀ modern ∈ modernMethods, ∀ retired ∈ [".Completion.create".toList,
    ".ChatCompletion.create".toList, ".Embedding.create".toList],
    ¬ modern <:+ retired ∧ ¬ retired <:+ modern := by
  decide

/-- The name in front of a rewritten call is none that the rules for calls look for. -/
theorem not_names {receiver modern : Text} (hmodern : modern ∈ modernMethods) :
    ∀ kind ∈ [Kind.completionCall, Kind.chatCompletionCall, Kind.embeddingCall],
      ¬ kind.Names (receiver ++ modern) := by
  have hends : ∀ retired ∈ [".Completion.create".toList, ".ChatCompletion.create".toList,
      ".Embedding.create".toList], ∀ other : Text, receiver ++ modern ≠ other ++ retired := by
    intro retired hretired other heq
    obtain ⟨hleft, hright⟩ := not_retired modern hmodern retired hretired
    have hsuffix : retired <:+ receiver ++ modern := ⟨other, heq.symm⟩
    rcases List.suffix_or_suffix_of_suffix (List.suffix_append receiver modern) hsuffix with h | h
    · exact hleft h
    · exact hright h
  simp only [List.mem_cons, List.not_mem_nil, or_false]
  rintro kind (rfl | rfl | rfl)
  · rintro ⟨other, -, hchat, heq | heq⟩
    · exact hends _ (by simp) other heq
    · simp only [modernMethods, List.mem_cons, List.not_mem_nil, or_false] at hmodern
      rcases hmodern with rfl | rfl
      · -- The receiver of such a completion is a chat.
        have hsplit : chatCompletion = '.' :: "chat".toList ++ ".completions.create".toList := by
          decide
        rw [hsplit, ← List.append_assoc] at heq
        rw [← List.append_cancel_right heq] at hchat
        exact hchat (lastSegment_append (by decide))
      · have hsuffix : ".completions.create".toList <:+ receiver ++ ".embeddings.create".toList :=
          ⟨other, heq.symm⟩
        have hboth := List.suffix_or_suffix_of_suffix
          (List.suffix_append receiver ".embeddings.create".toList) hsuffix
        exact absurd hboth (by decide)
  · rintro ⟨other, -, heq⟩
    exact hends _ (by simp) other heq
  · rintro ⟨other, -, heq⟩
    exact hends _ (by simp) other heq

/-- The name in front of a rewritten call is quiet. -/
theorem quiet {receiver gap rest modern : Text} (hg : IsGap gap)
    (hmodern : modern ∈ modernMethods) : Quiet (receiver ++ modern) (gap ++ '(' :: rest) := by
  have hnext : (skipBlanks (gap ++ '(' :: rest)).head? = some '(' := by
    rw [head?_skipBlanks_eq_some_iff (by decide)]
    exact ⟨gap, rest, hg, rfl⟩
  intro kind hkind hfinds
  rcases hfinds.next hkind with ⟨hcall, -⟩ | ⟨-, he⟩ | ⟨-, -, e, he, hclass⟩
  · exact not_names hmodern kind hcall hfinds.1
  · exact absurd (Option.some.inj (hnext.symm.trans he)) (by decide)
  · obtain rfl := Option.some.inj (hnext.symm.trans he)
    exact absurd hclass (by decide)

end RetiredCall

/-- The name in front of a rewritten access is quiet. -/
theorem ChoiceAccess.quiet {name index rest : Text} (hindex : IsIndex index) :
    Quiet name ('[' :: (index ++ ']' :: '.' :: 'm' :: rest)) := by
  have hnext := @next_of_bracket ('[' :: (index ++ ']' :: '.' :: 'm' :: rest)) rfl
  intro kind hkind hfinds
  rcases hfinds.next hkind with ⟨-, he⟩ | ⟨haccess, -⟩ | ⟨-, -, e, he, hclass⟩
  · exact absurd (Option.some.inj (hnext.symm.trans he)) (by decide)
  · simp only [List.mem_cons, List.not_mem_nil, or_false] at haccess
    rcases haccess with rfl | rfl
    · -- An index is read in one way, and behind it there is another attribute.
      obtain ⟨-, tail, more, htail, ⟨other, hother, rfl⟩, -⟩ := hfinds
      have hsame : index ++ ']' :: '.' :: 'm' :: rest =
          other ++ ']' :: '.' :: ("text" ++ more) := by
        simpa using htail
      have hbehind := (index_unique hindex hother hsame).2
      exact absurd (List.cons.inj (List.cons.inj hbehind).2).1 (by decide)
    · -- An index does not begin with a quote.
      obtain ⟨q, more, hq, hquote⟩ := Trailer.head?_of_follows_subscripts hfinds.2
      obtain ⟨left, word, right, hl, hne, hw, -, rfl⟩ := hindex
      have hinner := (List.cons.inj hquote).2
      cases left with
      | nil =>
          obtain ⟨c, word, rfl⟩ := List.exists_cons_of_ne_nil hne
          obtain rfl : c = q := (List.cons.inj hinner).1
          have hc := isNameChar_of_isWord (hw c List.mem_cons_self)
          rw [isNameChar_of_isQuote hq] at hc
          exact absurd hc (by simp)
      | cons c left =>
          obtain rfl : c = q := (List.cons.inj hinner).1
          have hc := hl c List.mem_cons_self
          rw [isBlank_of_isQuote hq] at hc
          exact absurd hc (by simp)
  · obtain rfl := Option.some.inj (hnext.symm.trans he)
    exact absurd hclass (by decide)

/-- A key in front of the name of a successor is quiet. -/
theorem ModelMention.quiet {key close gap successor rest : Text} {sign q : Char}
    (hkey : key ∈ keys) (hclose : IsKeyEnd close sign) (hg : IsGap gap) (hq : isQuote q = true)
    (hsuccessor : successor ∈ successors) :
    Quiet key (close ++ (gap ++ q :: (successor ++ q :: rest))) := by
  obtain ⟨d, hnext, hd⟩ :=
    @head?_skipBlanks_keyEnd _ (gap ++ q :: (successor ++ q :: rest)) _ hclose
  intro kind hkind hfinds
  rcases hfinds.next hkind with ⟨-, he⟩ | ⟨-, he⟩ | ⟨hkeys, -⟩
  · obtain rfl := Option.some.inj (hnext.symm.trans he)
    exact absurd hd (by decide)
  · obtain rfl := Option.some.inj (hnext.symm.trans he)
    exact absurd hd (by decide)
  · simp only [List.mem_cons, List.not_mem_nil, or_false] at hkeys
    rcases hkeys with rfl | rfl
    · -- The value is read in one way, and no successor begins as a short name does.
      obtain ⟨-, tail, more, htail,
        ⟨close', sign', gap', q', name, hclose', hg', hq', hname, rfl⟩, -⟩ := hfinds
      have hsame : close ++ (gap ++ q :: (successor ++ q :: rest)) =
          close' ++ (gap' ++ q' :: (name ++ q' :: more)) := by simpa using htail
      have hvalue :=
        (keyEnd_unique hclose hclose' (head?_gap_quote hg hq) (head?_gap_quote hg' hq') hsame).2
      obtain ⟨-, -, hmodel⟩ :=
        hg.unique hg' (isBlank_of_isQuote hq) (isBlank_of_isQuote hq') hvalue
      have hheads : ∀ successor ∈ successors, ∀ name ∈ RetiredModel.shortNames,
          successor ≠ [] ∧ name ≠ [] ∧ successor.head? ≠ name.head? := by decide
      obtain ⟨hne, hne', hhead⟩ := hheads successor hsuccessor name hname
      obtain ⟨c, successor, rfl⟩ := List.exists_cons_of_ne_nil hne
      obtain ⟨d, name, rfl⟩ := List.exists_cons_of_ne_nil hne'
      exact hhead (congrArg some (List.cons.inj hmodel).1)
    · obtain ⟨hname, -⟩ := hfinds
      obtain rfl : key = tokenLimitName := hname
      exact absurd hkey (by decide)

end SdkUpgrade
