import SdkUpgrade.Proofs.Catalogs
import SdkUpgrade.Proofs.Replacements
import SdkUpgrade.Proofs.Trace

/-!
# Rules that do not look past a divider

Calls, accesses and the token limit are recognised by a name and what stands directly behind it,
and all of that is made of word characters, whitespace and a few signs. Any other character is a
divider: no match reaches across it, from either side. So a pass over two texts with a divider
between them is a pass over each of the texts, `Barred.pieces`, and the edits of the second text
are moved by the length of the first one and the divider. A catalog of such rules works on the two
texts apart: `Catalog.applyAll_divided`.
-/

namespace SdkUpgrade

open Text Source

/-- A character that ends every name and every trailer of a call, an access or a key. -/
def isDivider (c : Char) : Bool :=
  !(isWord c || isBlank c || decide (c ∈ ['.', '[', ']', '(', ')', '"', '\'', ':', '=']))

/-- The reader does not look past the character, neither forwards nor backwards. -/
structure Barred {α : Type} (read? : Cursor → Option α) (c : Char) : Prop where
  ahead : ∀ before rest behind, read? ⟨before, rest ++ c :: behind⟩ = read? ⟨before, rest⟩
  back : ∀ before front after, read? ⟨before ++ c :: front, after⟩ = read? ⟨before, after⟩

/-! ## Passes -/

namespace Barred

variable {c : Char}

theorem map {α β : Type} {read? : Cursor → Option α} (h : Barred read? c) (f : α → β) :
    Barred (fun place => (read? place).map f) c where
  ahead before rest behind := congrArg (Option.map f) (h.ahead before rest behind)
  back before front after := congrArg (Option.map f) (h.back before front after)

theorem filter {α : Type} {read? : Cursor → Option α} (h : Barred read? c) (p : α → Bool) :
    Barred (fun place => (read? place).filter p) c where
  ahead before rest behind := congrArg (Option.filter p) (h.ahead before rest behind)
  back before front after := congrArg (Option.filter p) (h.back before front after)

variable {find? : Cursor → Option Hit}

/-- What stands in front of a bar makes no difference behind it. -/
theorem pieces_back (h : Barred find? c) (hf : Recognises find?) (before front after : Text) :
    SdkUpgrade.pieces find? 0 (before ++ c :: front) after =
      SdkUpgrade.pieces find? 0 before after := by
  induction before, after using pass_induction hf with
  | nil before => rfl
  | kept before d after hd ih =>
      have hd' := h.back before front (d :: after)
      rw [hd] at hd'
      rw [List.cons_append] at ih
      simp only [SdkUpgrade.pieces, hd, hd', ih]
  | hit before hit rest hh ih =>
      have hh' := h.back before front (hit.matched ++ rest)
      rw [hh] at hh'
      rw [pieces_hit hf hh, pieces_hit hf hh', ← List.append_assoc, ih]

/-- A pass over two texts with a bar between them is a pass over each of them. -/
theorem pieces (h : Barred find? c) (hf : Recognises find?) (before first second : Text) :
    SdkUpgrade.pieces find? 0 before (first ++ c :: second) =
      SdkUpgrade.pieces find? 0 before first ++ .kept c :: scan find? second := by
  induction before, first using pass_induction hf with
  | nil before =>
      have hnone : find? ⟨before, []⟩ = none := by
        cases hh : find? ⟨before, []⟩ with
        | none => rfl
        | some hit => exact absurd (List.prefix_nil.1 (hf _ _ hh).2) (hf _ _ hh).1
      have hbar := h.ahead before [] second
      rw [hnone, List.nil_append] at hbar
      have hback := h.pieces_back hf [] before second
      rw [List.nil_append] at hback
      simp only [SdkUpgrade.pieces, List.nil_append, hbar, hback]
      rfl
  | kept before d first hd ih =>
      have hd' := h.ahead before (d :: first) second
      rw [hd, List.cons_append] at hd'
      simp only [SdkUpgrade.pieces, List.cons_append, hd, hd', ih]
  | hit before hit rest hh ih =>
      have hh' := h.ahead before (hit.matched ++ rest) second
      rw [hh, List.append_assoc] at hh'
      rw [List.append_assoc, pieces_hit hf hh', pieces_hit hf hh, ih]
      rfl

end Barred

/-! ## Edits -/

/-- The edit, at a place that is so many characters further on. -/
def Edit.moved (distance : Nat) (edit : Edit) : Edit :=
  { edit with start := distance + edit.start, stop := distance + edit.stop }

/-- A pass that begins further on makes the same edits further on. -/
theorem editsFrom_add (ruleId : Text) (distance offset : Nat) (pieces : List Piece) :
    editsFrom ruleId (distance + offset) pieces =
      (editsFrom ruleId offset pieces).map (Edit.moved distance) := by
  induction pieces generalizing offset with
  | nil => rfl
  | cons piece pieces ih =>
      cases piece with
      | kept c => exact ih (offset + 1)
      | hit found =>
          have hrest := ih (offset + found.matched.length)
          rw [← Nat.add_assoc] at hrest
          simp only [editsFrom]
          split
          · exact hrest
          · rw [List.map_cons, hrest, Nat.add_assoc]
            rfl

/-- The edits of two lists of pieces, one after the other. -/
theorem editsFrom_append (ruleId : Text) (offset : Nat) (first second : List Piece) :
    editsFrom ruleId offset (first ++ second) = editsFrom ruleId offset first ++
      editsFrom ruleId (offset + (first.flatMap Piece.source).length) second := by
  induction first generalizing offset with
  | nil => rfl
  | cons piece first ih =>
      cases piece with
      | kept c =>
          have hrest := ih (offset + 1)
          rw [Nat.add_assoc, Nat.add_comm 1] at hrest
          exact hrest
      | hit found =>
          have hrest := ih (offset + found.matched.length)
          rw [Nat.add_assoc, ← List.length_append] at hrest
          simp only [editsFrom, List.cons_append]
          split
          · exact hrest
          · rw [hrest]
            rfl

namespace Rule

variable {rule : Rule} {radius : Option Nat} {c : Char}

/-- A rule that does not look past a character works on the texts around it apart. -/
theorem apply_divided (h : Barred (rule.kind.hit? radius) c) (first second : Text) :
    rule.apply radius (first ++ c :: second) =
      rule.apply radius first ++ c :: rule.apply radius second := by
  have hpieces := h.pieces (rule.kind.recognises_hit? radius) [] first second
  simp only [apply, pieces_eq, scan, hpieces, List.flatMap_append, List.flatMap_cons,
    Piece.result, List.singleton_append]

/-- A rule that does not look past a character makes the edits of the text in front of it and,
further on, those of the text behind it. -/
theorem edits_divided (h : Barred (rule.kind.hit? radius) c) (first second : Text) :
    rule.edits radius (first ++ c :: second) = rule.edits radius first ++
      (rule.edits radius second).map (Edit.moved (first.length + 1)) := by
  have hpieces := h.pieces (rule.kind.recognises_hit? radius) [] first second
  have hsource := rule.flatMap_source_pieces radius first
  have hmoved := editsFrom_add rule.id (first.length + 1) 0 (rule.pieces radius second)
  show editsFrom rule.id 0
    (SdkUpgrade.pieces (rule.kind.hit? radius) 0 [] (first ++ c :: second)) = _
  rw [hpieces, editsFrom_append]
  show rule.edits radius first ++ editsFrom rule.id
    (0 + ((rule.pieces radius first).flatMap Piece.source).length + 1)
    (rule.pieces radius second) = _
  rw [hsource, Nat.zero_add]
  exact congrArg (rule.edits radius first ++ ·) hmoved

end Rule

/-! ## Names in front of a divider -/

/-- Whitespace is no divider, and neither are word characters and quotes. -/
theorem isDivider_of_isBlank {d : Char} (h : isBlank d = true) : isDivider d = false := by
  simp [isDivider, h]

theorem isDivider_of_isWord {d : Char} (h : isWord d = true) : isDivider d = false := by
  simp [isDivider, h]

theorem isDivider_of_isQuote {d : Char} (h : isQuote d = true) : isDivider d = false := by
  rcases isQuote_iff.1 h with rfl | rfl <;> decide

/-- An index has no divider in it. -/
theorem isDivider_index {index : Text} (h : IsIndex index) :
    ∀ d ∈ index, isDivider d = false := by
  obtain ⟨left, word, right, hl, -, hw, hr, rfl⟩ := h
  simp only [List.forall_mem_append]
  exact ⟨fun d hd => isDivider_of_isBlank (hl d hd), fun d hd => isDivider_of_isWord (hw d hd),
    fun d hd => isDivider_of_isBlank (hr d hd)⟩

/-- The keys of an access have no divider in them. -/
theorem isDivider_keys : (∀ d ∈ "choices".toList, isDivider d = false) ∧
    ∀ d ∈ "text".toList, isDivider d = false := by
  have hwords : "choices".toList.all isWord = true ∧ "text".toList.all isWord = true := by decide
  exact ⟨fun d hd => isDivider_of_isWord (List.all_eq_true.1 hwords.1 d hd),
    fun d hd => isDivider_of_isWord (List.all_eq_true.1 hwords.2 d hd)⟩

/-- The end of a key has no divider in it. -/
theorem isDivider_keyEnd {close : Text} {sign : Char} (h : IsKeyEnd close sign) :
    ∀ d ∈ close, isDivider d = false := by
  obtain ⟨quote, gap, hquote, hg, hsign, rfl⟩ := h
  have hquotes : ∀ d ∈ quote, isDivider d = false := by
    rcases hquote with rfl | ⟨q, hq, rfl⟩
    · exact fun d hd => absurd hd List.not_mem_nil
    · simpa using isDivider_of_isQuote hq
  have hsigns : isDivider sign = false := by rcases hsign with rfl | rfl <;> decide
  simp only [List.forall_mem_append, List.forall_mem_singleton]
  exact ⟨hquotes, fun d hd => isDivider_of_isBlank (hg d hd), hsigns⟩

section Readers

variable {c : Char} (hc : isDivider c = true)

include hc

/-- A divider is no word character, no whitespace and none of the signs of the readers. -/
theorem isDivider_class : isWord c = false ∧ isBlank c = false ∧
    c ∉ ['.', '[', ']', '(', ')', '"', '\'', ':', '='] := by
  simpa [isDivider, and_assoc] using hc

/-- A divider belongs to no name. -/
theorem isNameChar_of_isDivider : isNameChar c = false := by
  obtain ⟨hword, -, hsign⟩ := isDivider_class hc
  have hdot : c ≠ '.' := fun heq => hsign (heq ▸ List.mem_cons_self)
  simp [isNameChar, hword, hdot]

omit hc in
/-- A character that does not count may follow a text or not. -/
theorem head?_append_cons_any {p : Char → Bool} (hp : p c = false) (text behind : Text) :
    (text ++ c :: behind).head?.any p = text.head?.any p := by
  cases text with
  | nil => simpa using hp
  | cons d text => rfl

/-- A stretch without dividers that begins a text with a divider in it ends in front of the
divider. -/
theorem exists_of_append_eq {stretch more rest behind : Text}
    (hstretch : ∀ d ∈ stretch, isDivider d = false) (h : rest ++ c :: behind = stretch ++ more) :
    ∃ inner, rest = stretch ++ inner ∧ more = inner ++ c :: behind := by
  rcases List.append_eq_append_iff.1 h with ⟨extra, rfl, hextra⟩ | ⟨inner, hrest, hmore⟩
  · cases extra with
    | nil => exact ⟨[], by simp, hextra.symm⟩
    | cons d extra =>
        obtain ⟨rfl, -⟩ := List.cons.inj hextra
        have hfree := hstretch c (List.mem_append_right rest List.mem_cons_self)
        rw [hc] at hfree
        exact absurd hfree (by decide)
  · exact ⟨inner, hrest, hmore⟩

/-- A name and a stretch behind it are read in front of a divider exactly if they are read
without the divider and what stands behind it. -/
theorem dottedName?_ahead {before rest behind name stretch : Text} {P : Text → Prop}
    (hstretch : ∀ d ∈ stretch, isDivider d = false)
    (hP : ∀ inner, P (inner ++ c :: behind) ↔ P inner) :
    (∃ more, P more ∧
        dottedName? ⟨before, rest ++ c :: behind⟩ = some (name, stretch ++ more)) ↔
      ∃ more, P more ∧ dottedName? ⟨before, rest⟩ = some (name, stretch ++ more) := by
  have hnext : ∀ inner, (stretch ++ (inner ++ c :: behind)).head?.any isNameChar =
      (stretch ++ inner).head?.any isNameChar := by
    intro inner
    rw [← List.append_assoc, head?_append_cons_any (isNameChar_of_isDivider hc)]
  simp only [dottedName?_eq_some_iff]
  constructor
  · rintro ⟨more, hmore, hbefore, hsplit, hstart, hchars, hbehind⟩
    have hname : ∀ d ∈ name ++ stretch, isDivider d = false := by
      refine List.forall_mem_append.2 ⟨fun d hd => ?_, hstretch⟩
      cases hsep : isDivider d with
      | false => rfl
      | true => exact absurd (hchars d hd) (by simp [isNameChar_of_isDivider hsep])
    rw [← List.append_assoc] at hsplit
    obtain ⟨inner, rfl, rfl⟩ := exists_of_append_eq hc hname hsplit
    rw [hnext] at hbehind
    exact ⟨inner, (hP inner).1 hmore, hbefore, by simp, hstart, hchars, hbehind⟩
  · rintro ⟨inner, hinner, hbefore, rfl, hstart, hchars, hbehind⟩
    rw [← hnext] at hbehind
    exact ⟨_, (hP inner).2 hinner, hbefore, by simp, hstart, hchars, hbehind⟩

/-- What stands in front of a divider makes no difference to the names behind it. -/
theorem dottedName?_back (before front after : Text) :
    dottedName? ⟨before ++ c :: front, after⟩ = dottedName? ⟨before, after⟩ := by
  have hfollows : Cursor.follows isNameChar ⟨before ++ c :: front, after⟩ =
      Cursor.follows isNameChar ⟨before, after⟩ :=
    head?_append_cons_any (isNameChar_of_isDivider hc) before front
  simp only [dottedName?, hfollows]

/-! ## The rules that do not look past a divider -/

/-- Calls are read on one side of a divider. -/
theorem RetiredCall.barred_at? (methods : List Text) : Barred (at? methods) c where
  ahead before rest behind := by
    refine Option.ext fun call => ?_
    rw [at?_eq_some_iff, at?_eq_some_iff]
    refine and_congr_right fun _ => and_congr_right fun hg => exists_congr fun name => ?_
    have hstretch : ∀ d ∈ call.gap ++ ['('], isDivider d = false := by
      simp only [List.forall_mem_append, List.forall_mem_singleton]
      exact ⟨fun d hd => isDivider_of_isBlank (hg d hd), by decide⟩
    have hread := @dottedName?_ahead c hc before rest behind name _
      (fun _ => splitName? methods name = some (call.receiver, call.method)) hstretch
      (fun _ => Iff.rfl)
    simpa [and_comm] using hread
  back before front after := by
    refine Option.ext fun call => ?_
    rw [at?_eq_some_iff, at?_eq_some_iff, dottedName?_back hc]

/-- Accesses by attributes are read on one side of a divider. -/
theorem ChoiceAccess.barred_attributesAt? : Barred attributesAt? c where
  ahead before rest behind := by
    refine Option.ext fun access => ?_
    rw [attributesAt?_eq_some_iff, attributesAt?_eq_some_iff]
    refine and_congr_right fun _ => and_congr_right fun _ => and_congr_right fun hindex => ?_
    have hstretch : ∀ d ∈ '[' :: (access.index ++ ']' :: '.' :: "text".toList),
        isDivider d = false := by
      simp only [List.forall_mem_append, List.forall_mem_cons]
      exact ⟨by decide, isDivider_index hindex, by decide, by decide, isDivider_keys.2⟩
    have hread := @dottedName?_ahead c hc before rest behind (access.receiver ++ ".choices") _
      (fun more => more.head?.any isWord = false) hstretch fun inner => by
        rw [head?_append_cons_any (isDivider_class hc).1]
    simpa using hread
  back before front after := by
    refine Option.ext fun access => ?_
    rw [attributesAt?_eq_some_iff, attributesAt?_eq_some_iff, dottedName?_back hc]

/-- Accesses by subscripts are read on one side of a divider. -/
theorem ChoiceAccess.barred_subscriptsAt? : Barred subscriptsAt? c where
  ahead before rest behind := by
    refine Option.ext fun access => ?_
    rw [subscriptsAt?_eq_some_iff, subscriptsAt?_eq_some_iff]
    refine and_congr_right fun hindex => exists_congr fun q => exists_congr fun q' => ?_
    by_cases hquotes : isQuote q = true ∧ isQuote q' = true
    · have hq := isDivider_of_isQuote hquotes.1
      have hq' := isDivider_of_isQuote hquotes.2
      have hstretch : ∀ d ∈ '[' :: q :: ("choices".toList ++ q :: ']' :: '[' ::
          (access.index ++ ']' :: '[' :: q' :: ("text".toList ++ [q', ']']))),
            isDivider d = false := by
        simp only [List.forall_mem_append, List.forall_mem_cons]
        exact ⟨by decide, hq, isDivider_keys.1, hq, by decide, by decide, isDivider_index hindex,
          by decide, by decide, hq', isDivider_keys.2, hq', by decide, by simp⟩
      have hread := @dottedName?_ahead c hc before rest behind access.receiver _
        (fun _ => access.form = .subscripts q q') hstretch (fun _ => Iff.rfl)
      simpa [hquotes] using hread
    · constructor
      · exact fun ⟨_, hq, hq', _⟩ => absurd ⟨hq, hq'⟩ hquotes
      · exact fun ⟨_, hq, hq', _⟩ => absurd ⟨hq, hq'⟩ hquotes
  back before front after := by
    refine Option.ext fun access => ?_
    rw [subscriptsAt?_eq_some_iff, subscriptsAt?_eq_some_iff, dottedName?_back hc]

/-- Token limits are read on one side of a divider. -/
theorem barred_tokenLimitHit? : Barred tokenLimitHit? c where
  ahead before rest behind := by
    refine Option.ext fun hit => ?_
    rw [tokenLimitHit?_eq_some_iff, tokenLimitHit?_eq_some_iff]
    refine and_congr_right fun _ => exists_congr fun close => exists_congr fun sign => ?_
    by_cases hclose : IsKeyEnd close sign
    · have hequals : c ≠ '=' := fun heq => (isDivider_class hc).2.2 (by simp [heq])
      have hread := @dottedName?_ahead c hc before rest behind tokenLimitName _
        (fun more => sign = '=' → more.head? ≠ some '=') (isDivider_keyEnd hclose) fun inner => by
          cases inner with
          | nil => simp [hequals]
          | cons d inner => rfl
      simpa [hclose] using hread
    · constructor
      · exact fun ⟨_, hclose', _⟩ => absurd hclose' hclose
      · exact fun ⟨_, hclose', _⟩ => absurd hclose' hclose
  back before front after := by
    refine Option.ext fun hit => ?_
    rw [tokenLimitHit?_eq_some_iff, tokenLimitHit?_eq_some_iff, dottedName?_back hc]

/-- The kinds of change with a fixed replacement do not look past a divider. -/
theorem Kind.barred {kind : Kind} (hkind : kind.isFixed = true) (radius : Option Nat) :
    Barred (kind.hit? radius) c := by
  cases kind with
  | completionCall => exact ((RetiredCall.barred_at? hc _).filter _).map _
  | chatCompletionCall => exact (RetiredCall.barred_at? hc _).map _
  | embeddingCall => exact (RetiredCall.barred_at? hc _).map _
  | choiceAttributes => exact (ChoiceAccess.barred_attributesAt? hc).map _
  | choiceSubscripts => exact (ChoiceAccess.barred_subscriptsAt? hc).map _
  | tokenLimit => exact barred_tokenLimitHit? hc
  | promptMessage => exact absurd hkind (by decide)
  | modelName => exact absurd hkind (by decide)
  | shortModelName => exact absurd hkind (by decide)
  | engineKey => exact absurd hkind (by decide)

/-- Rules with fixed replacements work on the texts around a divider apart. -/
theorem finalText_divided {rules : List Rule} (h : ∀ rule ∈ rules, rule.kind.isFixed = true)
    (radius : Option Nat) (first second : Text) :
    finalText radius rules (first ++ c :: second) =
      finalText radius rules first ++ c :: finalText radius rules second := by
  induction rules generalizing first second with
  | nil => rfl
  | cons rule rules ih =>
      obtain ⟨hrule, hrules⟩ := List.forall_mem_cons.1 h
      show finalText radius rules (rule.apply radius (first ++ c :: second)) = _
      rw [Rule.apply_divided (rule.kind.barred hc hrule radius)]
      exact ih hrules _ _

end Readers

namespace Catalog

/-- The usual catalog can do without its rules for prompts, model names and engine keys.
What is left works on the texts around a divider apart, and each of its rules makes the
edits of the text in front of the divider and, further on by that text and the divider, the
edits of the text behind it. -/
theorem applyAll_divided : ∃ catalog, Catalog.standard.without [Kind.promptMessage.id,
      Kind.modelName.id, Kind.shortModelName.id, Kind.engineKey.id] = .ok catalog ∧
    ∀ (radius : Option Nat) (first second : Text) (c : Char), isDivider c = true →
      catalog.applyAll radius (first ++ c :: second) =
          catalog.applyAll radius first ++ c :: catalog.applyAll radius second ∧
        ∀ rule ∈ catalog.rules, rule.edits radius (first ++ c :: second) =
          rule.edits radius first ++
            (rule.edits radius second).map (Edit.moved (first.length + 1)) := by
  obtain ⟨catalog, hwithout⟩ := @exists_without _ Catalog.standard [Kind.promptMessage.id,
    Kind.modelName.id, Kind.shortModelName.id, Kind.engineKey.id] (by decide)
  have hfixed : ∀ rule ∈ catalog.rules, rule.kind.isFixed = true := by
    rw [(without_eq_ok_iff.1 hwithout).2]
    decide
  refine ⟨catalog, hwithout, ?_⟩
  intro radius first second c hc
  refine ⟨finalText_divided hc hfixed radius first second, ?_⟩
  intro rule hrule
  exact Rule.edits_divided (rule.kind.barred hc (hfixed rule hrule) radius) first second

/-- A call and a token limit are rewritten on either side of a comma as they are on their own. -/
theorem applyAll_divided_comma : ∃ catalog, Catalog.standard.without [Kind.promptMessage.id,
      Kind.modelName.id, Kind.shortModelName.id, Kind.engineKey.id] = .ok catalog ∧
    catalog.applyAll none ("f(a.Completion.create(x)" ++ ',' :: "max_tokens=5)") =
      catalog.applyAll none "f(a.Completion.create(x)" ++
        ',' :: catalog.applyAll none "max_tokens=5)" ∧
    ∀ rule ∈ catalog.rules,
      rule.edits none ("f(a.Completion.create(x)" ++ ',' :: "max_tokens=5)") =
        rule.edits none "f(a.Completion.create(x)" ++
          (rule.edits none "max_tokens=5)").map (Edit.moved 25) := by
  obtain ⟨catalog, hwithout, h⟩ := applyAll_divided
  exact ⟨catalog, hwithout, h none "f(a.Completion.create(x)" "max_tokens=5)" ',' (by decide)⟩

end Catalog

end SdkUpgrade
