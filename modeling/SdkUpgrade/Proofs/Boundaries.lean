import SdkUpgrade.Proofs.Replacements
import SdkUpgrade.Proofs.Trace

/-!
# Words next to an edit

An edit must not run together with the words around it. It would do so if a word character stands
directly behind its span and the new wording ends with a word character though the old one did
not, or likewise in front. No edit does so in front: `Rule.fuses_iff`. Behind its span an edit
does so exactly if it rewrites subscripts that a word follows directly: the old wording ends with
a bracket, the new one with a name, and nothing keeps the word apart.
-/

namespace SdkUpgrade

open Text Source

namespace Edit

/-- The edit runs together with a word in front of its span. -/
def FusesInFront (text : Text) (edit : Edit) : Prop :=
  (text.take edit.start).getLast?.any isWord = true ∧ edit.after.head?.any isWord = true ∧
    edit.before.head?.any isWord = false

/-- The edit runs together with a word behind its span. -/
def FusesBehind (text : Text) (edit : Edit) : Prop :=
  text[edit.stop]?.any isWord = true ∧ edit.after.getLast?.any isWord = true ∧
    edit.before.getLast?.any isWord = false

instance (text : Text) (edit : Edit) : Decidable (edit.FusesInFront text) :=
  inferInstanceAs (Decidable (_ ∧ _))

instance (text : Text) (edit : Edit) : Decidable (edit.FusesBehind text) :=
  inferInstanceAs (Decidable (_ ∧ _))

end Edit

/-! ## The ends of a replacement -/

namespace Hit

/-- The replacement begins with a word character exactly if the characters taken do. -/
def SameHead (hit : Hit) : Prop :=
  hit.replacement.head?.any isWord = hit.matched.head?.any isWord

/-- The replacement ends with a word character exactly if the characters taken do. -/
def SameLast (hit : Hit) : Prop :=
  hit.replacement.getLast?.any isWord = hit.matched.getLast?.any isWord

/-- What begins alike has the same kind of first character. -/
theorem sameHead_of_append {hit : Hit} (first old new : Text) (hne : first ≠ [])
    (hmatched : hit.matched = first ++ old) (hreplacement : hit.replacement = first ++ new) :
    hit.SameHead := by
  rw [SameHead, hmatched, hreplacement, head?_append_any hne, head?_append_any hne]

/-- What ends alike has the same kind of last character. -/
theorem sameLast_of_append {hit : Hit} (last old new : Text) (hne : last ≠ [])
    (hmatched : hit.matched = old ++ last) (hreplacement : hit.replacement = new ++ last) :
    hit.SameLast := by
  rw [SameLast, hmatched, hreplacement, getLast?_append_ne_nil hne, getLast?_append_ne_nil hne]

end Hit

/-- A call keeps its receiver and its parenthesis. -/
theorem RetiredCall.sameEnds_hit {call : RetiredCall} {modern : Text} (hne : call.receiver ≠ []) :
    (hit modern call).SameHead ∧ (hit modern call).SameLast := by
  constructor
  · exact Hit.sameHead_of_append call.receiver (call.method ++ (call.gap ++ ['(']))
      (modern ++ (call.gap ++ ['('])) hne (by simp [hit, text]) (by simp [hit, text])
  · exact Hit.sameLast_of_append ['('] _ _ (List.cons_ne_nil '(' []) rfl rfl

namespace ChoiceAccess

/-- An access keeps its receiver. -/
theorem sameHead_hit {access : ChoiceAccess} (hne : access.receiver ≠ []) :
    access.hit.SameHead := by
  refine Hit.sameHead_of_append access.receiver (access.text.drop access.receiver.length)
    (".choices[" ++ (access.index ++ "].message.content")) hne ?_ (by simp [hit, modern])
  show access.text = access.receiver ++ access.text.drop access.receiver.length
  unfold text
  split <;> simp

/-- The path to the content of a message ends with a name. -/
theorem getLast?_modern (access : ChoiceAccess) : access.modern.getLast?.any isWord = true := by
  have hlast : access.modern.getLast? = some 't' := by
    simp [modern, List.getLast?_append, List.getLast?_cons]
  rw [hlast]
  decide

/-- An access by attributes ends with a name, one by subscripts with a bracket. -/
theorem getLast?_text (access : ChoiceAccess) :
    access.text.getLast?.any isWord = decide (access.form = .attributes) := by
  cases hform : access.form with
  | attributes =>
      have hlast : access.text.getLast? = some 't' := by
        simp [text, hform, List.getLast?_append, List.getLast?_cons]
      rw [hlast]
      decide
  | subscripts first second =>
      have hlast : access.text.getLast? = some ']' := by
        simp [text, hform, List.getLast?_append, List.getLast?_cons]
      rw [hlast]
      simp only [reduceCtorEq, decide_false]
      decide

end ChoiceAccess

/-- A prompt keeps the quote of its key, and neither a prompt nor a message ends with a word. -/
theorem PromptArgument.sameEnds_hit {c : Cursor} {found : Hit} (h : hit? c = some found) :
    found.SameHead ∧ found.SameLast := by
  obtain ⟨prompt, -, hquote, -, hvalue, hmatched, hsame | ⟨left, right, hframe, hmessages⟩⟩ :=
    of_hit?_eq_some h
  · rw [Hit.SameHead, Hit.SameLast, hsame]
    exact ⟨rfl, rfl⟩
  · constructor
    · rw [Hit.SameHead, hmatched, hmessages]
      rcases hquote with hnil | ⟨q, -, hcons⟩
      · rw [hnil]
        show isWord 'm' = isWord 'p'
        decide
      · rw [hcons]
        rfl
    · obtain ⟨q, hlast, hq⟩ := getLast?_text hvalue
        (prompt.keyQuote ++ ("prompt" ++ (prompt.keyQuote ++ prompt.separator)))
      have hold : found.matched.getLast?.any isWord = false := by
        have hassoc : found.matched = prompt.keyQuote ++ ("prompt" ++ (prompt.keyQuote ++
            prompt.separator)) ++ prompt.value.text := by simp [hmatched]
        rw [hassoc, hlast]
        exact isWord_of_isNameChar_eq_false (isNameChar_of_isQuote hq)
      have hnew : found.replacement.getLast? = some ']' := by
        cases hframe with
        | quoted _ _ _ hright =>
            simp [hmessages, hright, List.getLast?_append, List.getLast?_cons]
        | bare _ _ _ hright => simp [hmessages, hright, List.getLast?_append, List.getLast?_cons]
      rw [Hit.SameLast, hold, hnew]
      decide

/-- A renamed key keeps its lead, and it begins with a letter where there is none. -/
theorem EngineKey.sameEnds_hit {c : Cursor} {found : Hit} (h : hit? c = some found) :
    found.SameHead ∧ found.SameLast := by
  obtain ⟨key, name, hname, -, hquote, ⟨left, sign, right, -, -, -, hs⟩, -, hmatched,
    hreplacement⟩ := of_hit?_eq_some h
  constructor
  · -- Without a lead and a quote, the name itself stands at the beginning.
    by_cases hfront : key.lead ++ key.keyQuote = []
    · obtain ⟨hlead, hkey⟩ := List.append_eq_nil_iff.1 hfront
      have hletter : ∀ name ∈ ["engine".toList, "model".toList],
          name ≠ [] ∧ name.head?.any isWord = true := by decide
      have hhead : ∀ name ∈ ["engine".toList, "model".toList], ∀ rest : Text,
          (name ++ rest).head?.any isWord = true := fun name hname rest => by
        rw [head?_append_any (hletter name hname).1, (hletter name hname).2]
      rw [Hit.SameHead, hmatched, hreplacement, hlead, hkey]
      simp only [List.nil_append]
      rw [hhead name hname, hhead "engine".toList (by decide)]
    · exact Hit.sameHead_of_append (key.lead ++ key.keyQuote)
        ("engine" ++ (key.keyQuote ++ (key.separator ++ key.valueQuote)))
        (name ++ (key.keyQuote ++ (key.separator ++ key.valueQuote))) hfront
        (by simp [hmatched]) (by simp [hreplacement])
  · exact Hit.sameLast_of_append (key.separator ++ key.valueQuote)
      (key.lead ++ (key.keyQuote ++ ("engine" ++ key.keyQuote)))
      (key.lead ++ (key.keyQuote ++ (name ++ key.keyQuote))) (by simp [hs])
      (by simp [hmatched]) (by simp [hreplacement])

/-- At the beginning a replacement is a word where the characters taken are one. At
the end this holds of every kind but the one for subscripts, whose hits end with a
bracket and become a name. -/
theorem Kind.ends_hit? {kind : Kind} {radius : Option Nat} {c : Cursor} {found : Hit}
    (h : kind.hit? radius c = some found) : found.SameHead ∧
      (kind ≠ .choiceSubscripts → found.SameLast) ∧ (kind = .choiceSubscripts →
        found.matched.getLast?.any isWord = false ∧
          found.replacement.getLast?.any isWord = true) := by
  cases kind with
  | completionCall =>
      obtain ⟨call, hcall, rfl⟩ := Option.map_eq_some_iff.1 h
      obtain ⟨hne, -⟩ := RetiredCall.at?_eq_some_iff.1 (Option.filter_eq_some_iff.1 hcall).1
      exact ⟨(RetiredCall.sameEnds_hit hne).1, fun _ => (RetiredCall.sameEnds_hit hne).2, nofun⟩
  | chatCompletionCall =>
      obtain ⟨call, hcall, rfl⟩ := Option.map_eq_some_iff.1 h
      obtain ⟨hne, -⟩ := RetiredCall.at?_eq_some_iff.1 hcall
      exact ⟨(RetiredCall.sameEnds_hit hne).1, fun _ => (RetiredCall.sameEnds_hit hne).2, nofun⟩
  | embeddingCall =>
      obtain ⟨call, hcall, rfl⟩ := Option.map_eq_some_iff.1 h
      obtain ⟨hne, -⟩ := RetiredCall.at?_eq_some_iff.1 hcall
      exact ⟨(RetiredCall.sameEnds_hit hne).1, fun _ => (RetiredCall.sameEnds_hit hne).2, nofun⟩
  | choiceAttributes =>
      obtain ⟨access, haccess, rfl⟩ := Option.map_eq_some_iff.1 h
      obtain ⟨hform, hne, -⟩ := ChoiceAccess.attributesAt?_eq_some_iff.1 haccess
      refine ⟨ChoiceAccess.sameHead_hit hne, fun _ => ?_, nofun⟩
      show access.modern.getLast?.any isWord = access.text.getLast?.any isWord
      rw [access.getLast?_modern, access.getLast?_text]
      simp [hform]
  | choiceSubscripts =>
      obtain ⟨access, haccess, rfl⟩ := Option.map_eq_some_iff.1 h
      obtain ⟨-, hstart, -⟩ := ChoiceAccess.hasReceiver_of_subscriptsAt? haccess
      obtain ⟨-, q, q', more, -, -, hform, -⟩ := ChoiceAccess.subscriptsAt?_eq_some_iff.1 haccess
      refine ⟨ChoiceAccess.sameHead_hit ?_, fun hne => absurd rfl hne, fun _ => ⟨?_, ?_⟩⟩
      · intro hnil
        simp [hnil] at hstart
      · show access.text.getLast?.any isWord = false
        rw [access.getLast?_text]
        simp [hform]
      · exact access.getLast?_modern
  | promptMessage =>
      obtain ⟨hhead, hlast⟩ := PromptArgument.sameEnds_hit h
      exact ⟨hhead, fun _ => hlast, nofun⟩
  | modelName =>
      obtain ⟨q, model, successor, -, -, -, hmatched, hreplacement⟩ :=
        ModelMention.of_longHit?_eq_some h
      have hne : [q] ≠ [] := List.cons_ne_nil q []
      exact ⟨Hit.sameHead_of_append [q] _ _ hne hmatched hreplacement,
        fun _ => Hit.sameLast_of_append [q] (q :: model) (q :: successor) hne hmatched
          hreplacement,
        nofun⟩
  | shortModelName =>
      obtain ⟨key, close, sign, gap, q, model, successor, more, hkey, -, -, -, -, -, hmatched,
        hreplacement, -⟩ := ModelMention.of_shortHit?_eq_some h
      refine ⟨Hit.sameHead_of_append key _ _ (ModelMention.keys_open key hkey).1 hmatched
        hreplacement, fun _ => ?_, nofun⟩
      exact Hit.sameLast_of_append [q] (key ++ (close ++ (gap ++ q :: model)))
        (key ++ (close ++ (gap ++ q :: successor))) (List.cons_ne_nil q [])
        (by simp [hmatched]) (by simp [hreplacement])
  | tokenLimit =>
      rw [(of_tokenLimitHit?_eq_some h).1]
      refine ⟨?_, fun _ => ?_, nofun⟩
      · show Option.any isWord _ = Option.any isWord _
        decide
      · show Option.any isWord _ = Option.any isWord _
        decide
  | engineKey =>
      obtain ⟨hhead, hlast⟩ := EngineKey.sameEnds_hit h
      exact ⟨hhead, fun _ => hlast, nofun⟩

/-! ## Edits -/

/-- No edit runs together with a word in front of it. An edit runs together with a word behind it
exactly if it belongs to the rule for subscripts and a word character follows its span. -/
theorem Rule.fuses_iff {rule : Rule} {radius : Option Nat} {text : Text} {edit : Edit}
    (h : edit ∈ rule.edits radius text) : ¬ edit.FusesInFront text ∧
      (edit.FusesBehind text ↔
        rule.kind = .choiceSubscripts ∧ text[edit.stop]?.any isWord = true) := by
  obtain ⟨front, rest, hit, -, hh, rfl⟩ :=
    exists_of_mem_editsFrom (rule.kind.recognises_hit? radius) [] text h
  obtain ⟨hhead, hlast, hsubscripts⟩ := Kind.ends_hit? hh
  refine ⟨?_, ?_, ?_⟩
  · rintro ⟨-, hnew, hold⟩
    rw [show hit.replacement.head?.any isWord = hit.matched.head?.any isWord from hhead] at hnew
    exact absurd (hnew.symm.trans hold) (by simp)
  · rintro ⟨hbehind, hnew, hold⟩
    -- All other rules leave the sort of the last character as it is.
    by_cases hkind : rule.kind = .choiceSubscripts
    · exact ⟨hkind, hbehind⟩
    · rw [show hit.replacement.getLast?.any isWord = hit.matched.getLast?.any isWord from
        hlast hkind] at hnew
      exact absurd (hnew.symm.trans hold) (by simp)
  · rintro ⟨hkind, hbehind⟩
    obtain ⟨hold, hnew⟩ := hsubscripts hkind
    exact ⟨hbehind, hnew, hold⟩

/-- Subscripts with a space behind them do not run together with what follows. -/
theorem Rule.fuses_iff_spaced :
    let text : Text := "r['choices'][0]['text'] if r else s"
    let edit : Edit := ⟨"access-path.subscript", 0, 23, "r['choices'][0]['text']",
      "r.choices[0].message.content"⟩
    edit ∈ (Rule.ofKind .choiceSubscripts).edits none text ∧ ¬ edit.FusesInFront text ∧
      ¬ edit.FusesBehind text := by
  intro text edit
  have hmem : edit ∈ (Rule.ofKind .choiceSubscripts).edits none text := by decide +kernel
  obtain ⟨hfront, hbehind⟩ := Rule.fuses_iff hmem
  refine ⟨hmem, hfront, fun hfuses => ?_⟩
  exact absurd (hbehind.1 hfuses).2 (by decide +kernel)

/-- A conditional expression may follow a bracket directly. Its keyword becomes part of the
name. -/
theorem Rule.fuses_conditional :
    ∃ edit ∈ (Rule.ofKind .choiceSubscripts).edits none "r['choices'][0]['text']if r else s",
      edit.FusesBehind "r['choices'][0]['text']if r else s" := by
  decide +kernel

end SdkUpgrade
