import Mathlib.Data.List.Infix
import SdkUpgrade.Proofs.Convergence

/-!
# Texts that are up to date

Whatever a rule takes has a spelling in it that modern code and most prose do not have: the
retired method of a call, the end of an access, a key, a quoted model name. A text without these
spellings is `Modern`, and no engine changes it: `Engine.run_modern`. The one spelling that old
and modern calls share is `.completions.create`. It belongs to a modern call exactly if the
receiver ends in the segment `chat`.
-/

namespace SdkUpgrade

open Text Source

/-- The spellings of which everything retired has one in it, model names and some calls apart. -/
def legacyTokens : List Text :=
  [".Completion.create", ".ChatCompletion.create", ".Embedding.create", "].text", "text\"]",
   "text']", "prompt", "max_tokens", "engine"]

/-- The text ends in `chat`, with no word character in front of that. -/
def endsInChat (text : Text) : Bool :=
  (before? "chat" text).any fun front => !front.getLast?.any isWord

/-- The text has no retired spelling in it, no registered name between equal quotes, and its calls
of `.completions.create` are calls of a chat. -/
structure Modern (text : Text) : Prop where
  tokens : ∀ token ∈ legacyTokens, ¬ token <:+: text
  models : ∀ q, isQuote q = true → ∀ model ∈ RetiredModel.registry.map RetiredModel.name,
    ¬ q :: (model ++ [q]) <:+: text
  chats : ∀ before, (before ++ ".completions.create" : Text) <+: text → endsInChat before = true

/-- Only prefixes of the text and the two quotes have to be tried. -/
theorem modern_iff {text : Text} : Modern text ↔ (∀ token ∈ legacyTokens, ¬ token <:+: text) ∧
    (∀ model ∈ RetiredModel.registry.map RetiredModel.name,
      ¬ '"' :: (model ++ ['"']) <:+: text ∧ ¬ '\'' :: (model ++ ['\'']) <:+: text) ∧
    ∀ before ∈ text.inits, (before ++ ".completions.create" : Text) <+: text →
      endsInChat before = true := by
  constructor
  · intro h
    refine ⟨h.tokens, fun model hmodel => ?_, fun before _ => h.chats before⟩
    exact ⟨h.models '"' (by decide) model hmodel, h.models '\'' (by decide) model hmodel⟩
  · intro ⟨htokens, hmodels, hchats⟩
    refine ⟨htokens, fun q hq model hmodel => ?_, fun before hbefore => ?_⟩
    · rcases isQuote_iff.1 hq with rfl | rfl
      · exact (hmodels model hmodel).1
      · exact (hmodels model hmodel).2
    · have hprefix : before <+: text := (List.prefix_append _ _).trans hbefore
      exact hchats before ((List.mem_inits _ _).2 hprefix) hbefore

instance (text : Text) : Decidable (Modern text) :=
  decidable_of_iff' _ modern_iff

/-- A receiver that only ends in the letters of `chat` is not a chat. -/
example : ¬ Modern "mychat.completions.create()" ∧ Modern "my.chat.completions.create()" := by
  decide +kernel

/-- A receiver that ends a text in `chat` has `chat` for its last segment. -/
theorem lastSegment_of_endsInChat {before receiver : Text}
    (hbefore : before.head?.any isNameChar = false) (hname : ∀ c ∈ receiver, isNameChar c = true)
    (h : endsInChat (before.reverse ++ receiver) = true) :
    lastSegment receiver = "chat".toList := by
  obtain ⟨front, hfront, hlast⟩ : ∃ front,
      before? "chat" (before.reverse ++ receiver) = some front ∧
        front.getLast?.any isWord = false := by
    simpa [endsInChat, Option.any_eq_true] using h
  rw [before?_eq_some_iff] at hfront
  rcases List.append_eq_append_iff.1 hfront with ⟨inner, rfl, rfl⟩ | ⟨inner, hsplit, hchat⟩
  · -- The receiver ends in `chat`, which begins it or stands behind a dot.
    rcases List.eq_nil_or_concat inner with rfl | ⟨first, d, rfl⟩
    · rfl
    · have hd : isNameChar d = true := hname d (by simp)
      have hword : isWord d = false := by simpa using hlast
      obtain rfl : d = '.' := by simpa [isNameChar, hword] using hd
      have hsegment : '.' ∉ "chat".toList := by decide
      simpa using @lastSegment_append first _ hsegment
  · -- Otherwise `chat` begins in front of the receiver, and a name character stands there.
    rcases List.eq_nil_or_concat inner with rfl | ⟨first, d, rfl⟩
    · rw [List.nil_append] at hchat
      rw [← hchat]
      rfl
    · have hletters : "chat".toList.all isNameChar = true := by decide
      have hd : isNameChar d = true := List.all_eq_true.1 hletters d (by simp [hchat])
      have hhead : before.head? = some d := by
        have hreverse := congrArg List.getLast? hsplit
        simpa using hreverse
      simp [hhead, hd] at hbefore

namespace Modern

variable {c : Cursor}

/-- At a name in a modern text, no rule finds what it looks for. -/
theorem not_finds (h : Modern c.source) {name rest : Text}
    (hd : dottedName? c = some (name, rest)) {kind : Kind} (hkind : kind ∈ Kind.named) :
    ¬ kind.Finds name rest := by
  obtain ⟨before, after⟩ := c
  obtain ⟨hbefore, rfl, -, hname, -⟩ := dottedName?_eq_some_iff.1 hd
  rintro ⟨hnames, hfollows⟩
  cases kind with
  | completionCall =>
      obtain ⟨receiver, hne, hchat, rfl | rfl⟩ := hnames
      · exact h.tokens ".Completion.create" (by decide)
          ⟨before.reverse ++ receiver, rest, by simp [Cursor.source]⟩
      · have hends := h.chats (before.reverse ++ receiver) ⟨rest, by simp [Cursor.source]⟩
        exact hchat (lastSegment_of_endsInChat hbefore
          (fun c hc => hname c (List.mem_append_left _ hc)) hends)
  | chatCompletionCall =>
      obtain ⟨receiver, -, rfl⟩ := hnames
      exact h.tokens ".ChatCompletion.create" (by decide)
        ⟨before.reverse ++ receiver, rest, by simp [Cursor.source]⟩
  | embeddingCall =>
      obtain ⟨receiver, -, rfl⟩ := hnames
      exact h.tokens ".Embedding.create" (by decide)
        ⟨before.reverse ++ receiver, rest, by simp [Cursor.source]⟩
  | choiceAttributes =>
      obtain ⟨tail, more, rfl, ⟨index, -, rfl⟩, -⟩ := hfollows
      exact h.tokens "].text" (by decide)
        ⟨before.reverse ++ (name ++ '[' :: index), more, by simp [Cursor.source]⟩
  | choiceSubscripts =>
      obtain ⟨tail, more, rfl, ⟨first, index, second, -, -, hsecond, rfl⟩, -⟩ := hfollows
      have htoken := List.infix_append' (before.reverse ++ (name ++ '[' :: first :: ("choices" ++
        first :: ']' :: '[' :: (index ++ [']', '[', second]))))
          ("text".toList ++ [second, ']']) more
      rcases isQuote_iff.1 hsecond with rfl | rfl
      · exact h.tokens "text\"]" (by decide) (by simpa [Cursor.source] using htoken)
      · exact h.tokens "text']" (by decide) (by simpa [Cursor.source] using htoken)
  | shortModelName =>
      obtain ⟨tail, more, rfl, ⟨close, sign, gap, q, model, -, -, hq, hmodel, rfl⟩, -⟩ := hfollows
      exact h.models q hq model (RetiredModel.mem_registry (.inr hmodel))
        ⟨before.reverse ++ (name ++ (close ++ gap)), more, by simp [Cursor.source]⟩
  | tokenLimit =>
      obtain rfl := hnames
      exact h.tokens tokenLimitName (by decide) ⟨before.reverse, rest, List.append_assoc _ _ _⟩
  | promptMessage => exact absurd hkind (by decide)
  | modelName => exact absurd hkind (by decide)
  | engineKey => exact absurd hkind (by decide)

end Modern

/-- What is recognised at a place is a part of the text. -/
theorem Recognises.isInfix {find? : Cursor → Option Hit} (hf : Recognises find?) {c : Cursor}
    {hit : Hit} (h : find? c = some hit) : hit.matched <:+: c.source :=
  (hf c hit h).2.isInfix.trans (List.suffix_append _ _).isInfix

/-- No rule finds anything in a modern text. -/
theorem Modern.absent {text : Text} (h : Modern text) (kind : Kind) (radius : Option Nat) :
    Absent (kind.hit? radius) text := by
  rintro c rfl
  by_contra hsome
  obtain ⟨hit, hh⟩ := Option.ne_none_iff_exists'.1 hsome
  have hinfix := (kind.recognises_hit? radius).isInfix hh
  by_cases hkind : kind ∈ Kind.named
  · obtain ⟨name, rest, hd, hnames, hfollows⟩ := (kind.readsNames hkind radius c).1 hsome
    exact h.not_finds hd hkind ⟨hnames, hfollows⟩
  · have hother : kind = .promptMessage ∨ kind = .modelName ∨ kind = .engineKey := by
      cases kind <;> simp [Kind.named] at hkind ⊢
    rcases hother with rfl | rfl | rfl
    · obtain ⟨prompt, -, -, -, -, hmatched, -⟩ := PromptArgument.of_hit?_eq_some hh
      refine h.tokens "prompt" (by decide) (List.IsInfix.trans ?_ hinfix)
      rw [hmatched, ← List.append_assoc]
      exact ⟨prompt.keyQuote, _, rfl⟩
    · obtain ⟨q, model, -, hq, hmodel, -, hmatched, -⟩ := ModelMention.of_longHit?_eq_some hh
      exact h.models q hq model (RetiredModel.mem_registry (.inl hmodel)) (hmatched ▸ hinfix)
    · obtain ⟨key, -, -, -, -, -, -, hmatched, -⟩ := EngineKey.of_hit?_eq_some hh
      refine h.tokens "engine" (by decide) (List.IsInfix.trans ?_ hinfix)
      rw [hmatched, ← List.append_assoc, ← List.append_assoc]
      exact ⟨key.lead ++ key.keyQuote, _, rfl⟩

/-- An engine leaves a modern text as it is and makes no edit, whatever rules it has. -/
theorem Engine.run_modern (catalog : Catalog) (radius : Option Nat) {text : Text}
    (h : Modern text) : Engine.run ⟨catalog, radius, false⟩ text = ⟨text, []⟩ := by
  have hnone : ∀ rule ∈ catalog.rules, rule.edits radius text = [] :=
    fun rule _ => Rule.edits_eq_nil (h.absent rule.kind radius)
  have hrun : Engine.run ⟨catalog, radius, false⟩ text = ⟨finalText radius catalog.rules text,
      (SdkUpgrade.passes radius catalog.rules text).flatMap Pass.edits⟩ :=
    congrArg (Result.mk · _) (text_run ⟨catalog, radius, false⟩ text)
  rw [hrun, finalText_eq_of_edits _ hnone, (edits_passes_eq_nil_iff _ text).2 hnone]

/-- A modern call with a modern model is left alone. -/
theorem Engine.run_modern_call :
    Modern "c.chat.completions.create(model=\"o1\")" ∧
      Engine.run ⟨.standard, some 7, false⟩ "c.chat.completions.create(model=\"o1\")" =
        ⟨"c.chat.completions.create(model=\"o1\")", []⟩ := by
  have h : Modern "c.chat.completions.create(model=\"o1\")" := by decide +kernel
  exact ⟨h, Engine.run_modern .standard (some 7) h⟩

end SdkUpgrade
