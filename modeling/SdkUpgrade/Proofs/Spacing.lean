import Mathlib.Data.List.Chain
import SdkUpgrade.Proofs.Replacements
import SdkUpgrade.Proofs.Trace

/-!
# Whitespace that stays collapsed

A text is collapsed if all its whitespace consists of single spaces, each between two other
characters. Cleaning leaves a collapsed text, and it leaves a text as it is exactly if the text is
collapsed: `clean_eq_self_iff`.

An engine cleans once, before its rules run, and the rules copy whitespace from what they take and
write spaces of their own. `KeepsSpacing` says when one stretch of a text can stand for another
one wherever it stands: it has single spaces if the other one has, and it begins and ends with
whitespace only where the other one does. Stretches around it do not matter, so a replacement is
compared with what was taken part by part. All ten kinds keep the spacing, and a run leaves a
collapsed text: `Engine.run_collapsed`.
-/

namespace SdkUpgrade

open Text Source

namespace Cleaning

/-! ## Single spaces -/

/-- The whitespace of the text consists of spaces, no two of them side by side. -/
structure Spaced (text : Text) : Prop where
  space : ∀ c ∈ text, isBlank c = true → c = ' '
  apart : text.IsChain fun c d => isBlank c = false ∨ isBlank d = false

/-- The whitespace of the text consists of single spaces between other characters. -/
structure Collapsed (text : Text) : Prop extends Spaced text where
  head : text.head?.any isBlank = false
  last : text.getLast?.any isBlank = false

instance (text : Text) : Decidable (Spaced text) :=
  decidable_of_iff ((text.all fun c => !isBlank c || c == ' ') = true ∧
      text.IsChain fun c d => isBlank c = false ∨ isBlank d = false) <| by
    simp only [List.all_eq_true, Bool.or_eq_true, Bool.not_eq_true', beq_iff_eq]
    refine ⟨fun h => ⟨fun c hc hblank => ?_, h.2⟩, fun h => ⟨fun c hc => ?_, h.apart⟩⟩
    · exact (h.1 c hc).resolve_left (by simp [hblank])
    · cases hblank : isBlank c with
      | false => exact .inl rfl
      | true => exact .inr (h.space c hc hblank)

/-- A text without whitespace has single spaces. -/
theorem spaced_of_solid {text : Text} (h : ∀ c ∈ text, isBlank c = false) : Spaced text where
  space c hc hblank := by
    rw [h c hc] at hblank
    exact absurd hblank (by simp)
  apart := by
    induction text with
    | nil => exact .nil
    | cons c text ih =>
        exact (ih fun d hd => h d (List.mem_cons_of_mem c hd)).cons
          fun _ _ => .inl (h c List.mem_cons_self)

/-- Two texts have single spaces together if each of them has and they do not meet in
whitespace. -/
theorem spaced_append {first second : Text} : Spaced (first ++ second) ↔
    Spaced first ∧ Spaced second ∧
      (first.getLast?.any isBlank = false ∨ second.head?.any isBlank = false) := by
  have hmeet : (∀ c ∈ first.getLast?, ∀ d ∈ second.head?, isBlank c = false ∨ isBlank d = false) ↔
      (first.getLast?.any isBlank = false ∨ second.head?.any isBlank = false) := by
    cases first.getLast? with
    | none => simp
    | some c =>
        cases second.head? with
        | none => simp
        | some d => simp
  constructor
  · rintro ⟨hspace, hchain⟩
    obtain ⟨hfirst, hsecond, hjoin⟩ := List.isChain_append.1 hchain
    exact ⟨⟨fun c hc => hspace c (List.mem_append_left _ hc), hfirst⟩,
      ⟨fun c hc => hspace c (List.mem_append_right _ hc), hsecond⟩, hmeet.1 hjoin⟩
  · rintro ⟨hfirst, hsecond, hjoin⟩
    refine ⟨fun c hc => ?_, List.isChain_append.2 ⟨hfirst.apart, hsecond.apart, hmeet.2 hjoin⟩⟩
    exact (List.mem_append.1 hc).elim (hfirst.space c) (hsecond.space c)

/-- A text has single spaces if all but its first character has, and a space in front stands
alone. -/
theorem spaced_cons {c : Char} {text : Text} : Spaced (c :: text) ↔
    (isBlank c = true → c = ' ' ∧ text.head?.any isBlank = false) ∧ Spaced text := by
  rw [← List.singleton_append, spaced_append]
  show _ ∧ _ ∧ (isBlank c = false ∨ _) ↔ _
  cases hc : isBlank c with
  | false =>
      have hsolid : Spaced [c] := spaced_of_solid fun d hd => List.mem_singleton.1 hd ▸ hc
      simp [hsolid]
  | true =>
      have hspace : Spaced [c] ↔ c = ' ' :=
        ⟨fun h => h.space c List.mem_cons_self hc, fun h => h ▸ by decide⟩
      simp only [hspace, Bool.true_eq_false, false_or, forall_const]
      exact ⟨fun h => ⟨⟨h.1, h.2.2⟩, h.2.1⟩, fun h => ⟨h.1.1, h.2, h.1.2⟩⟩

/-! ## What cleaning leaves -/

/-- Whatever line endings become, they are whitespace. -/
theorem mergeBlanks_unifyLineEndings (inBlanks : Bool) (text : Text) :
    mergeBlanks inBlanks (unifyLineEndings text) = mergeBlanks inBlanks text := by
  have hreturn : isBlank '\r' = true := by decide
  have hline : isBlank '\n' = true := by decide
  fun_induction unifyLineEndings text generalizing inBlanks with
  | case1 => rfl
  | case2 text ih => simp [mergeBlanks, hreturn, hline, ih]
  | case3 c text _ ih =>
      by_cases hc : c = '\r'
      · simp [mergeBlanks, hc, hreturn, hline, ih]
      · simp [mergeBlanks, hc, ih]

/-- The usual steps leave what collapsing alone leaves. -/
theorem clean_eq_collapse (text : Text) : clean [] text = collapse text := by
  show strip (mergeBlanks false (unifyLineEndings text)) = strip (mergeBlanks false text)
  rw [mergeBlanks_unifyLineEndings]

/-- Merging leaves single spaces, and none in front if a run of whitespace goes on. -/
theorem spaced_mergeBlanks (inBlanks : Bool) (text : Text) : Spaced (mergeBlanks inBlanks text) ∧
    (inBlanks = true → (mergeBlanks inBlanks text).head?.any isBlank = false) := by
  fun_induction mergeBlanks inBlanks text with
  | case1 => exact ⟨by decide, fun _ => rfl⟩
  | case2 c text hc ih => exact ⟨ih.1, fun _ => ih.2 rfl⟩
  | case3 inBlanks c text hc hnew ih =>
      exact ⟨spaced_cons.2 ⟨fun _ => ⟨rfl, ih.2 rfl⟩, ih.1⟩, fun htrue => absurd htrue hnew⟩
  | case4 inBlanks c text hc ih =>
      exact ⟨spaced_cons.2 ⟨fun hblank => absurd hblank hc, ih.1⟩, fun _ => by simpa using hc⟩

/-- Single spaces are left as they are. -/
theorem mergeBlanks_eq_self {inBlanks : Bool} {text : Text} (h : Spaced text)
    (hhead : inBlanks = true → text.head?.any isBlank = false) :
    mergeBlanks inBlanks text = text := by
  induction text generalizing inBlanks with
  | nil => rfl
  | cons c text ih =>
      obtain ⟨hspace, hrest⟩ := spaced_cons.1 h
      by_cases hc : isBlank c = true
      · obtain ⟨rfl, hnext⟩ := hspace hc
        have hfirst : ¬ inBlanks = true := fun htrue => by
          have hnone : isBlank ' ' = false := hhead htrue
          rw [hc] at hnone
          exact absurd hnone (by simp)
        rw [mergeBlanks, if_pos hc, if_neg hfirst, ih hrest fun _ => hnext]
      · rw [mergeBlanks, if_neg hc, ih hrest (by simp)]

/-- What is cut off the two ends of a text is whitespace, and no whitespace is left there. -/
theorem exists_strip (text : Text) : ∃ lead trail, IsGap lead ∧ IsGap trail ∧
    text = lead ++ (strip text ++ trail) ∧ (strip text).head?.any isBlank = false ∧
      (strip text).getLast?.any isBlank = false := by
  have hback := congrArg List.reverse (blanks_append_skipBlanks (skipBlanks text).reverse)
  rw [List.reverse_append, List.reverse_reverse] at hback
  change strip text ++ _ = skipBlanks text at hback
  refine ⟨blanks text, (blanks (skipBlanks text).reverse).reverse, isGap_blanks text,
    fun c hc => isGap_blanks _ c (List.mem_reverse.1 hc), ?_, ?_, ?_⟩
  · rw [hback, blanks_append_skipBlanks]
  · by_cases hne : strip text = []
    · rw [hne]
      rfl
    · have hhead := head?_skipBlanks text
      rwa [← hback, head?_append_any hne] at hhead
  · rw [strip, List.getLast?_reverse]
    exact head?_skipBlanks _

/-- Cleaning leaves a collapsed text. -/
theorem collapsed_clean (text : Text) : Collapsed (clean [] text) := by
  rw [clean_eq_collapse]
  obtain ⟨lead, trail, -, -, hsplit, hhead, hlast⟩ := exists_strip (mergeBlanks false text)
  have hspaced := (spaced_mergeBlanks false text).1
  rw [hsplit] at hspaced
  exact ⟨(spaced_append.1 (spaced_append.1 hspaced).2.1).1, hhead, hlast⟩

/-- Cleaning leaves a text as it is exactly if it is collapsed. -/
theorem clean_eq_self_iff {text : Text} : clean [] text = text ↔ Collapsed text := by
  constructor
  · intro h
    rw [← h]
    exact collapsed_clean text
  · intro h
    rw [clean_eq_collapse, collapse, mergeBlanks_eq_self h.toSpaced (by simp),
      strip_of_ends h.head h.last]

/-! ## Stretches that keep the spacing -/

/-- The new stretch can stand for the old one wherever that one stands among single spaces. -/
structure KeepsSpacing (old new : Text) : Prop where
  ne_nil : new ≠ []
  spaced : Spaced old → Spaced new
  head : new.head?.any isBlank = true → old.head?.any isBlank = true
  last : new.getLast?.any isBlank = true → old.getLast?.any isBlank = true

/-- A stretch can stand for itself. -/
theorem KeepsSpacing.refl {text : Text} (h : text ≠ []) : KeepsSpacing text text :=
  ⟨h, id, id, id⟩

/-- What can stand for a stretch that can stand for another one can stand for that one. -/
theorem KeepsSpacing.trans {old between new : Text} (h : KeepsSpacing old between)
    (h' : KeepsSpacing between new) : KeepsSpacing old new :=
  ⟨h'.ne_nil, fun hold => h'.spaced (h.spaced hold), fun hnew => h.head (h'.head hnew),
    fun hnew => h.last (h'.last hnew)⟩

/-- A word without whitespace can stand for every stretch. -/
theorem keepsSpacing_word {new : Text} (hne : new ≠ [])
    (h : new.all (fun c => !isBlank c) = true) (old : Text) : KeepsSpacing old new := by
  have hsolid : ∀ c ∈ new, isBlank c = false := by simpa using h
  obtain ⟨hhead, hlast⟩ := ends_of_forall_mem hsolid
  refine ⟨hne, fun _ => spaced_of_solid hsolid, fun hblank => ?_, fun hblank => ?_⟩
  · exact absurd (hhead.symm.trans hblank) (by simp)
  · exact absurd (hlast.symm.trans hblank) (by simp)

/-- Text in front of two stretches does not matter. -/
theorem KeepsSpacing.append_left {old new : Text} (h : KeepsSpacing old new) (front : Text) :
    KeepsSpacing (front ++ old) (front ++ new) where
  ne_nil := by simp [h.ne_nil]
  spaced hspaced := by
    obtain ⟨hfront, hold, hmeet⟩ := spaced_append.1 hspaced
    refine spaced_append.2 ⟨hfront, h.spaced hold, hmeet.imp_right fun hhead => ?_⟩
    exact Bool.eq_false_iff.2 fun hnew => by simp [h.head hnew] at hhead
  head hnew := by
    cases front with
    | nil => exact h.head hnew
    | cons c front => exact hnew
  last hnew := by
    rw [getLast?_append_ne_nil h.ne_nil] at hnew
    have hlast := h.last hnew
    have hne : old ≠ [] := by
      rintro rfl
      exact absurd hlast (by simp)
    rwa [getLast?_append_ne_nil hne]

/-- Text behind two stretches does not matter. -/
theorem KeepsSpacing.append_right {old new : Text} (h : KeepsSpacing old new) (back : Text) :
    KeepsSpacing (old ++ back) (new ++ back) where
  ne_nil := by simp [h.ne_nil]
  spaced hspaced := by
    obtain ⟨hold, hback, hmeet⟩ := spaced_append.1 hspaced
    refine spaced_append.2 ⟨h.spaced hold, hback, hmeet.imp_left fun hlast => ?_⟩
    exact Bool.eq_false_iff.2 fun hnew => by simp [h.last hnew] at hlast
  head hnew := by
    rw [head?_append_any h.ne_nil] at hnew
    have hhead := h.head hnew
    have hne : old ≠ [] := by
      rintro rfl
      exact absurd hhead (by simp)
    rwa [head?_append_any hne]
  last hnew := by
    by_cases hne : back = []
    · subst hne
      simpa using h.last (by simpa using hnew)
    · rwa [getLast?_append_ne_nil hne] at hnew ⊢

/-- What can stand for a collapsed text is collapsed. -/
theorem KeepsSpacing.collapsed {old new : Text} (h : KeepsSpacing old new)
    (hold : Collapsed old) :
    Collapsed new where
  toSpaced := h.spaced hold.toSpaced
  head := Bool.eq_false_iff.2 fun hnew => by simpa [hold.head] using h.head hnew
  last := Bool.eq_false_iff.2 fun hnew => by simpa [hold.last] using h.last hnew

end Cleaning

/-! ## One hit -/

open Cleaning

/-- A call keeps the gap in front of its parenthesis. -/
theorem RetiredCall.keepsSpacing_hit {modern : Text} (hne : modern ≠ [])
    (h : modern.all (fun c => !isBlank c) = true) (call : RetiredCall) :
    KeepsSpacing (hit modern call).matched (hit modern call).replacement :=
  (((keepsSpacing_word hne h call.method).append_left call.receiver).append_right
    call.gap).append_right ['(']

/-- An access keeps the whitespace around its index. -/
theorem ChoiceAccess.keepsSpacing_hit (access : ChoiceAccess) :
    KeepsSpacing access.hit.matched access.hit.replacement := by
  -- Both forms have the receiver and the index in common with the path, and a word on each side.
  obtain ⟨first, second, htext⟩ : ∃ first second,
      access.text = access.receiver ++ (first ++ (access.index ++ second)) := by
    cases hform : access.form with
    | attributes => exact ⟨".choices[", "].text", by simp [text, hform]⟩
    | subscripts q q' =>
        exact ⟨"[" ++ [q] ++ "choices" ++ [q] ++ "][", "][" ++ [q'] ++ "text" ++ [q'] ++ "]", by
          simp [text, hform]⟩
  have hfirst := keepsSpacing_word (by decide : ".choices[".toList ≠ []) (by decide) first
  have hsecond :=
    keepsSpacing_word (by decide : "].message.content".toList ≠ []) (by decide) second
  have hboth := ((hfirst.append_right (access.index ++ second)).trans
    ((hsecond.append_left access.index).append_left ".choices[")).append_left access.receiver
  simpa [hit, htext, modern] using hboth

/-- A frame has single spaces and a bracket at either end. -/
theorem PromptArgument.Frame.spaced {left right : Text} (h : Frame left right) :
    Spaced left ∧ Spaced right ∧ left.head? = some '[' ∧ right.getLast? = some ']' := by
  cases h with
  | quoted q hq hleft hright =>
      rw [hleft, hright]
      rcases isQuote_iff.1 hq with rfl | rfl <;> decide
  | bare q hq hleft hright =>
      rw [hleft, hright]
      rcases isQuote_iff.1 hq with rfl | rfl <;> decide

/-- A literal can be put into a frame, since it begins and ends with a quote. -/
theorem PromptArgument.Frame.keepsSpacing {left right : Text} (h : Frame left right)
    {value : Literal} (hvalue : IsDelimiter value.delimiter) :
    KeepsSpacing value.text (left ++ (value.text ++ right)) := by
  obtain ⟨hleft, hright, hhead, hlast⟩ := h.spaced
  obtain ⟨q, inner, hq, htext⟩ := exists_quotes hvalue
  have hblank := isBlank_of_isQuote hq
  have hfirst : ∀ rest, (value.text ++ rest).head?.any isBlank = false := fun rest => by
    simpa [htext] using hblank
  have hquote : value.text.getLast?.any isBlank = false := by
    simpa [htext, List.getLast?_cons] using hblank
  refine ⟨by simp [htext], fun hspaced => ?_, fun hnew => ?_, fun hnew => ?_⟩
  · exact spaced_append.2 ⟨hleft, spaced_append.2 ⟨hspaced, hright, .inl hquote⟩, .inr (hfirst _)⟩
  · rw [List.head?_append, hhead] at hnew
    exact absurd (show isBlank '[' = true from hnew) (by decide)
  · rw [← List.append_assoc, List.getLast?_append, hlast] at hnew
    exact absurd (show isBlank ']' = true from hnew) (by decide)

/-- A prompt keeps the whitespace in its separator and in its literal. -/
theorem PromptArgument.keepsSpacing_hit {c : Cursor} {found : Hit} (h : hit? c = some found) :
    KeepsSpacing found.matched found.replacement := by
  obtain ⟨prompt, -, -, -, hvalue, hmatched, hsame | ⟨left, right, hframe, hmessages⟩⟩ :=
    of_hit?_eq_some h
  · rw [hsame]
    exact .refl (recognises_hit? _ _ h).1
  · have hkey := keepsSpacing_word (by decide : "messages".toList ≠ []) (by decide) "prompt"
    have hkey := (hkey.append_right (prompt.keyQuote ++ (prompt.separator ++
      prompt.value.text))).append_left prompt.keyQuote
    have hlist := (hframe.keepsSpacing hvalue).append_left
      (prompt.keyQuote ++ ("messages" ++ (prompt.keyQuote ++ prompt.separator)))
    rw [hmatched, hmessages]
    refine hkey.trans ?_
    simpa using hlist

/-- A successor stands for a name of a model. -/
theorem ModelMention.keepsSpacing_successor {successor : Text} (h : successor ∈ successors)
    (model : Text) : KeepsSpacing model successor := by
  have hnames : ∀ successor ∈ successors,
      successor ≠ [] ∧ successor.all (fun c => !isBlank c) = true := by decide
  exact keepsSpacing_word (hnames successor h).1 (hnames successor h).2 model

/-- A key keeps the whitespace in front of it and in its separator. -/
theorem EngineKey.keepsSpacing_hit {c : Cursor} {found : Hit} (h : hit? c = some found) :
    KeepsSpacing found.matched found.replacement := by
  obtain ⟨key, name, hname, -, -, -, -, hmatched, hreplacement⟩ := of_hit?_eq_some h
  have hwords : ∀ name ∈ ["engine".toList, "model".toList],
      name ≠ [] ∧ name.all (fun c => !isBlank c) = true := by decide
  rw [hmatched, hreplacement]
  exact (((keepsSpacing_word (hwords name hname).1 (hwords name hname).2 _).append_right
    _).append_left key.keyQuote).append_left key.lead

/-- A hit of any kind keeps the spacing. -/
theorem Kind.keepsSpacing_hit? {kind : Kind} {radius : Option Nat} {c : Cursor} {found : Hit}
    (h : kind.hit? radius c = some found) : KeepsSpacing found.matched found.replacement := by
  cases kind with
  | completionCall =>
      obtain ⟨call, -, rfl⟩ := RetiredCall.of_completionHit?_eq_some h
      exact RetiredCall.keepsSpacing_hit (by decide) (by decide) call
  | chatCompletionCall =>
      obtain ⟨call, -, rfl⟩ := RetiredCall.of_map_hit h
      exact RetiredCall.keepsSpacing_hit (by decide) (by decide) call
  | embeddingCall =>
      obtain ⟨call, -, rfl⟩ := RetiredCall.of_map_hit h
      exact RetiredCall.keepsSpacing_hit (by decide) (by decide) call
  | choiceAttributes =>
      obtain ⟨access, -, rfl⟩ := Option.map_eq_some_iff.1 h
      exact access.keepsSpacing_hit
  | choiceSubscripts =>
      obtain ⟨access, -, rfl⟩ := Option.map_eq_some_iff.1 h
      exact access.keepsSpacing_hit
  | promptMessage => exact PromptArgument.keepsSpacing_hit h
  | modelName =>
      obtain ⟨q, model, successor, -, -, hsuccessor, hmatched, hreplacement⟩ :=
        ModelMention.of_longHit?_eq_some h
      rw [hmatched, hreplacement]
      have hkeeps := ModelMention.keepsSpacing_successor hsuccessor model
      exact (hkeeps.append_right [q]).append_left [q]
  | shortModelName =>
      obtain ⟨key, close, sign, gap, q, model, successor, more, -, -, -, -, -,
        hsuccessor, hmatched, hreplacement, -⟩ := ModelMention.of_shortHit?_eq_some h
      have hquoted :=
        ((ModelMention.keepsSpacing_successor hsuccessor model).append_right [q]).append_left [q]
      rw [hmatched, hreplacement]
      exact ((hquoted.append_left gap).append_left close).append_left key
  | tokenLimit =>
      rw [(of_tokenLimitHit?_eq_some h).1]
      exact keepsSpacing_word (by decide) (by decide) _
  | engineKey => exact EngineKey.keepsSpacing_hit h

/-! ## Whole runs -/

/-- What the passes of any rules leave of a collapsed text is collapsed. -/
theorem collapsed_finalText (radius : Option Nat) (rules : List Rule) {text : Text}
    (h : Collapsed text) : Collapsed (finalText radius rules text) := by
  induction rules generalizing text with
  | nil => exact h
  | cons rule rules ih =>
      refine ih (keeps_rewritten (rule.kind.recognises_hit? radius) ?_ [] text [] h)
      intro c hit hh front rest
      exact (((Kind.keepsSpacing_hit? hh).append_right rest).append_left front).collapsed

/-- With collapsed whitespace, an engine with any rules in any order leaves a text with single
spaces between other characters as its only whitespace, and cleaning has nothing to do on it. -/
theorem Engine.run_collapsed (catalog : Catalog) (radius : Option Nat) (text : Text) :
    let result := Engine.run ⟨catalog, radius, true⟩ text
    Collapsed result.text ∧ Cleaning.clean [] result.text = result.text := by
  have hcollapsed : Collapsed (Engine.run ⟨catalog, radius, true⟩ text).text := by
    rw [Engine.text_run]
    exact collapsed_finalText radius catalog.rules (collapsed_clean text)
  exact ⟨hcollapsed, clean_eq_self_iff.2 hcollapsed⟩

end SdkUpgrade
