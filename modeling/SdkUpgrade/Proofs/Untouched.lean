import SdkUpgrade.Proofs.Replacements
import SdkUpgrade.Proofs.Trace

/-!
# What no rule touches

The rules rewrite names, keys, quotes and the punctuation of lists. All of that is written with
ASCII letters and digits, the space and twelve signs. Every other character of a text is outside
of what the rules know, and it survives each of them: `outside_run`.

A replacement is put together from parts of what was taken, which it keeps as they are, and from
fixed words. So it is enough that the fixed words, old and new, have nothing outside in them.
-/

namespace SdkUpgrade

open Text Source

/-- The signs that the rules write or take away. -/
def writtenSigns : Text :=
  " .-_[]\x7b\x7d\"':,"

/-- A character that some rule writes or takes away. -/
def isWritten (c : Char) : Bool :=
  c.isAlphanum || writtenSigns.contains c

/-- The characters of a text that the rules neither write nor take away, in order. -/
def outside (text : Text) : Text :=
  text.filter fun c => !isWritten c

@[simp] theorem outside_append (first second : Text) :
    outside (first ++ second) = outside first ++ outside second :=
  List.filter_append first second

/-- A text has nothing outside if the rules know all of its characters. -/
theorem outside_eq_nil {text : Text} (h : text.all isWritten = true) : outside text = [] := by
  refine List.filter_eq_nil_iff.2 fun c hc => ?_
  simpa using List.all_eq_true.1 h c hc

/-- A quote is not outside. -/
theorem outside_quote {q : Char} (hq : isQuote q = true) : outside [q] = [] := by
  rcases isQuote_iff.1 hq with rfl | rfl
  · exact outside_eq_nil (by decide)
  · exact outside_eq_nil (by decide)

/-- Nothing of an optional quote is outside. -/
theorem outside_optionalQuote {quote : Text} (h : IsOptionalQuote quote) :
    outside quote = [] := by
  rcases h with rfl | ⟨q, hq, rfl⟩
  · rfl
  · exact outside_quote hq

/-- A text in quotes has outside what stands between the quotes. -/
theorem outside_quoted {q : Char} (hq : isQuote q = true) (text rest : Text) :
    outside (q :: (text ++ q :: rest)) = outside text ++ outside rest := by
  have hsplit : q :: (text ++ q :: rest) = [q] ++ (text ++ ([q] ++ rest)) := by simp
  rw [hsplit, outside_append, outside_append, outside_append, outside_quote hq]
  simp

/-! ## One hit -/

/-- The replacement has outside what the characters taken have outside. -/
def Hit.Keeps (hit : Hit) : Prop :=
  outside hit.replacement = outside hit.matched

/-- A call keeps its receiver and its gap. -/
theorem RetiredCall.keeps_hit {methods : List Text} {c : Cursor} {call : RetiredCall}
    {modern : Text} (h : at? methods c = some call) (hold : methods.all (·.all isWritten) = true)
    (hnew : modern.all isWritten = true) : (hit modern call).Keeps := by
  obtain ⟨-, -, name, rest, -, hsplit⟩ := at?_eq_some_iff.1 h
  have hmethod : call.method.all isWritten = true :=
    List.all_eq_true.1 hold _ (splitName?_eq_some hsplit).1
  show outside (text { call with method := modern }) = outside call.text
  simp only [text, outside_append, outside_eq_nil hmethod, outside_eq_nil hnew]

/-- An access keeps its receiver and its index. -/
theorem ChoiceAccess.keeps_hit {access : ChoiceAccess}
    (h : ∀ first second, access.form = .subscripts first second →
      isQuote first = true ∧ isQuote second = true) : access.hit.Keeps := by
  have hfixed : outside ".choices[" = [] ∧ outside "].text" = [] ∧
      outside "].message.content" = [] ∧ outside "[" = [] ∧ outside "choices" = [] ∧
      outside "][" = [] ∧ outside "text" = [] ∧ outside "]" = [] := by decide
  obtain ⟨hchoices, htext, hcontent, hopen, hkey, hbetween, hlast, hclose⟩ := hfixed
  -- Apart from the receiver and the index, both paths consist of fixed words and quotes.
  show outside access.modern = outside access.text
  cases hform : access.form with
  | attributes => simp only [modern, text, hform, outside_append, hchoices, htext, hcontent]
  | subscripts first second =>
      obtain ⟨hfirst, hsecond⟩ := h first second hform
      simp only [modern, text, hform, outside_append, hchoices, hcontent, hopen, hkey, hbetween,
        hlast, hclose, outside_quote hfirst, outside_quote hsecond, List.append_nil]

/-- A message has outside what its literal has outside. -/
theorem PromptArgument.Frame.outside_eq_nil {left right : Text} (h : Frame left right) :
    outside left = [] ∧ outside right = [] := by
  cases h with
  | quoted q hq hleft hright =>
      rw [hleft, hright]
      rcases isQuote_iff.1 hq with rfl | rfl <;> decide
  | bare q hq hleft hright =>
      rw [hleft, hright]
      rcases isQuote_iff.1 hq with rfl | rfl <;> decide

/-- A prompt keeps its separator and its literal. -/
theorem PromptArgument.keeps_hit {c : Cursor} {found : Hit} (h : hit? c = some found) :
    found.Keeps := by
  obtain ⟨prompt, -, hquote, -, -, hmatched, hsame | ⟨left, right, hframe, hmessages⟩⟩ :=
    of_hit?_eq_some h
  · rw [Hit.Keeps, hsame]
  · have hwords : outside "prompt" = [] ∧ outside "messages" = [] := by decide
    obtain ⟨hleft, hright⟩ := hframe.outside_eq_nil
    rw [Hit.Keeps, hmatched, hmessages]
    simp only [outside_append, outside_optionalQuote hquote, hwords.1, hwords.2, hleft, hright,
      List.nil_append, List.append_nil]

/-- Names of models are not outside, whether they are retired or not. -/
theorem ModelMention.outside_model {model : Text}
    (h : model ∈ RetiredModel.longNames ∨ model ∈ RetiredModel.shortNames ∨ model ∈ successors) :
    outside model = [] := by
  have hnames : ∀ model ∈ RetiredModel.longNames ++ (RetiredModel.shortNames ++ successors),
      model.all isWritten = true := by decide
  exact SdkUpgrade.outside_eq_nil (hnames model (by simpa [List.mem_append] using h))

/-- A key keeps its lead, its separator and the quote of its value. -/
theorem EngineKey.keeps_hit {c : Cursor} {found : Hit} (h : hit? c = some found) :
    found.Keeps := by
  obtain ⟨key, name, hname, -, -, -, -, hmatched, hreplacement⟩ := of_hit?_eq_some h
  have hwords : ∀ name ∈ ["engine".toList, "model".toList], outside name = [] := by decide
  rw [Hit.Keeps, hmatched, hreplacement]
  simp only [outside_append, hwords name hname, hwords "engine".toList (by decide)]

/-- Whatever is outside survives a hit of any kind, once and in its place. -/
theorem Kind.keeps_hit? {kind : Kind} {radius : Option Nat} {c : Cursor} {found : Hit}
    (h : kind.hit? radius c = some found) : found.Keeps := by
  cases kind with
  | completionCall =>
      obtain ⟨call, hcall, rfl⟩ := Option.map_eq_some_iff.1 h
      exact RetiredCall.keeps_hit (Option.filter_eq_some_iff.1 hcall).1 (by decide) (by decide)
  | chatCompletionCall =>
      obtain ⟨call, hcall, rfl⟩ := Option.map_eq_some_iff.1 h
      exact RetiredCall.keeps_hit hcall (by decide) (by decide)
  | embeddingCall =>
      obtain ⟨call, hcall, rfl⟩ := Option.map_eq_some_iff.1 h
      exact RetiredCall.keeps_hit hcall (by decide) (by decide)
  | choiceAttributes =>
      obtain ⟨access, haccess, rfl⟩ := Option.map_eq_some_iff.1 h
      have hform := (ChoiceAccess.attributesAt?_eq_some_iff.1 haccess).1
      exact ChoiceAccess.keeps_hit fun first second hother => by simp [hform] at hother
  | choiceSubscripts =>
      obtain ⟨access, haccess, rfl⟩ := Option.map_eq_some_iff.1 h
      obtain ⟨-, q, q', -, hq, hq', hform, -⟩ := ChoiceAccess.subscriptsAt?_eq_some_iff.1 haccess
      refine ChoiceAccess.keeps_hit fun first second hother => ?_
      obtain ⟨rfl, rfl⟩ := AccessForm.subscripts.inj (hform.symm.trans hother)
      exact ⟨hq, hq'⟩
  | promptMessage => exact PromptArgument.keeps_hit h
  | modelName =>
      obtain ⟨q, model, successor, hq, hmodel, hsuccessor, hmatched, hreplacement⟩ :=
        ModelMention.of_longHit?_eq_some h
      rw [Hit.Keeps, hmatched, hreplacement, outside_quoted hq, outside_quoted hq,
        ModelMention.outside_model (.inl hmodel),
        ModelMention.outside_model (.inr (.inr hsuccessor))]
  | shortModelName =>
      obtain ⟨key, close, sign, gap, q, model, successor, more, -, -, -, hq, hmodel, hsuccessor,
        hmatched, hreplacement, -⟩ := ModelMention.of_shortHit?_eq_some h
      simp only [Hit.Keeps, hmatched, hreplacement, outside_append, outside_quoted hq,
        ModelMention.outside_model (.inr (.inl hmodel)),
        ModelMention.outside_model (.inr (.inr hsuccessor))]
  | tokenLimit =>
      rw [(of_tokenLimitHit?_eq_some h).1]
      show outside _ = outside _
      decide
  | engineKey => exact EngineKey.keeps_hit h

/-! ## Whole runs -/

/-- A pass over a text keeps what is outside. -/
theorem outside_rewritten {find? : Cursor → Option Hit} (hf : Recognises find?)
    (hkeeps : ∀ {c : Cursor} {hit : Hit}, find? c = some hit → hit.Keeps) (before after : Text) :
    outside (rewritten find? before after) = outside after := by
  induction before, after using pass_induction hf with
  | nil before => rfl
  | kept before c after hc ih =>
      rw [rewritten_kept hc, ← List.singleton_append, outside_append, ih, ← outside_append]
      rfl
  | hit before hit rest hh ih =>
      rw [rewritten_hit hf hh, outside_append, outside_append, ih, hkeeps hh]

/-- The passes of any rules keep what is outside. -/
theorem outside_finalText (radius : Option Nat) (rules : List Rule) (text : Text) :
    outside (finalText radius rules text) = outside text := by
  induction rules generalizing text with
  | nil => rfl
  | cons rule rules ih =>
      show outside (finalText radius rules (rule.apply radius text)) = outside text
      rw [ih]
      exact outside_rewritten (rule.kind.recognises_hit? radius) Kind.keeps_hit? [] text

/-- What the rules write is ASCII. -/
theorem toNat_lt_of_isWritten {c : Char} (h : isWritten c = true) : c.toNat < 128 := by
  have hsigns : writtenSigns.all (fun d => decide (d.toNat < 128)) = true := by decide
  rw [isWritten, Bool.or_eq_true, List.contains_iff_mem] at h
  rcases h with h | h
  · rcases Bool.or_eq_true_iff.1 h with h | h
    · have hcode := toNat_of_isAlpha h
      omega
    · have hcode := toNat_of_isDigit h
      omega
  · exact of_decide_eq_true (List.all_eq_true.1 hsigns c h)

/-- Beyond ASCII, and among the usual signs of program text, characters are outside. -/
theorem isWritten_eq_false {c : Char} (h : c ∈ "\n\t()=;\\".toList ∨ 128 ≤ c.toNat) :
    isWritten c = false := by
  have hsigns : "\n\t()=;\\".toList.all (fun d => !isWritten d) = true := by decide
  rcases h with h | h
  · simpa using List.all_eq_true.1 hsigns c h
  · cases hc : isWritten c with
    | false => rfl
    | true => exact absurd (toNat_lt_of_isWritten hc) (by omega)

/-- Without collapsed whitespace, an engine with any rules in any order keeps the characters
outside of what the rules know, each once and in order. Line breaks, tabs, parentheses, equals
signs, semicolons, backslashes and everything beyond ASCII are among them. -/
theorem Engine.outside_run (catalog : Catalog) (radius : Option Nat) (text : Text) :
    let result := Engine.run ⟨catalog, radius, false⟩ text
    outside result.text = outside text ∧
      ∀ c, c ∈ "\n\t()=;\\".toList ∨ 128 ≤ c.toNat → result.text.count c = text.count c := by
  have hsame : outside (Engine.run ⟨catalog, radius, false⟩ text).text = outside text := by
    rw [Engine.text_run]
    exact outside_finalText radius catalog.rules text
  refine ⟨hsame, fun c hc => ?_⟩
  -- A character outside occurs in a text as often as in its part outside.
  have hcount : ∀ other : Text, (outside other).count c = other.count c := fun other =>
    List.count_filter (by simp [isWritten_eq_false hc])
  rw [← hcount, hsame, hcount]

end SdkUpgrade
