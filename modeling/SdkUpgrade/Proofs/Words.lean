import SdkUpgrade.Proofs.Spacing
import SdkUpgrade.Proofs.Spellings

/-!
# Cleaning to words

The words of a text are its longest stretches without whitespace. Every text has exactly one list
of words: `exists_words` and `Words.unique`. Cleaning leaves these words with single spaces
between them. Read `clean_canonical` first: it says this, and what follows from it.

The usual steps are not the only ones. `clean_eq` shows that the order and the number of steps do
not matter, only whether whitespace is collapsed at all.
-/

namespace SdkUpgrade

open Text

namespace Cleaning

/-! ## Words -/

/-- The words of a text: its longest stretches without whitespace, in their order. -/
inductive Words : Text → List Text → Prop where
  /-- Whitespace has no words. -/
  | none {gap : Text} (hgap : IsGap gap) : Words gap []
  /-- The first word stands behind whitespace, if there is any, and goes on to the next whitespace
  or to the end of the text. -/
  | next {gap word rest : Text} {words : List Text} (hgap : IsGap gap) (hne : word ≠ [])
      (hsolid : ∀ c ∈ word, isBlank c = false) (hend : rest.head?.all isBlank = true)
      (hrest : Words rest words) : Words (gap ++ (word ++ rest)) (word :: words)

/-- Every text has words. -/
theorem exists_words (text : Text) : ∃ words, Words text words := by
  induction text with
  | nil => exact ⟨[], .none isGap_nil⟩
  | cons c text ih =>
      obtain ⟨words, h⟩ := ih
      cases hc : isBlank c with
      | true =>
          -- The character belongs to the gap in front of the first word.
          cases h with
          | none hgap => exact ⟨[], .none (List.forall_mem_cons.2 ⟨hc, hgap⟩)⟩
          | @next gap word rest words hgap hne hsolid hend hrest =>
              have hlonger : IsGap (c :: gap) := List.forall_mem_cons.2 ⟨hc, hgap⟩
              exact ⟨word :: words, .next hlonger hne hsolid hend hrest⟩
      | false =>
          by_cases hhead : text.head?.all isBlank = true
          · have hsolid : ∀ d ∈ [c], isBlank d = false := fun d hd => List.mem_singleton.1 hd ▸ hc
            exact ⟨[c] :: words, .next isGap_nil (by simp) hsolid hhead h⟩
          · -- The character belongs to the first word, in front of which there is no gap.
            cases h with
            | none hgap =>
                refine absurd ?_ hhead
                cases text with
                | nil => rfl
                | cons d text => exact hgap d List.mem_cons_self
            | @next gap word rest words hgap hne hsolid hend hrest =>
                cases gap with
                | nil =>
                    have hlonger : ∀ d ∈ c :: word, isBlank d = false :=
                      List.forall_mem_cons.2 ⟨hc, hsolid⟩
                    exact ⟨(c :: word) :: words, .next isGap_nil (by simp) hlonger hend hrest⟩
                | cons d gap => exact absurd (hgap d List.mem_cons_self) hhead

/-- What follows a word does not go on with it. -/
theorem head?_not_blank {rest : Text} (h : rest.head?.all isBlank = true) :
    rest.head?.any (fun c => !isBlank c) = false := by
  cases hhead : rest.head? with
  | none => rfl
  | some c => simpa [hhead] using h

/-- Whitespace has no word in it. -/
theorem not_isGap_of_word {gap word rest : Text} (hne : word ≠ [])
    (hsolid : ∀ c ∈ word, isBlank c = false) : ¬ IsGap (gap ++ (word ++ rest)) := by
  intro h
  obtain ⟨c, word, rfl⟩ := List.exists_cons_of_ne_nil hne
  have hblank := h c (by simp)
  rw [hsolid c List.mem_cons_self] at hblank
  exact absurd hblank (by simp)

/-- A text has only one list of words. -/
theorem Words.unique {text : Text} {words others : List Text} (h : Words text words)
    (hothers : Words text others) : words = others := by
  induction h generalizing others with
  | none hgap =>
      cases hothers with
      | none => rfl
      | next _ hne hsolid => exact absurd hgap (not_isGap_of_word hne hsolid)
  | @next gap word rest words hgap hne hsolid hend hrest ih =>
      generalize htext : gap ++ (word ++ rest) = text at hothers
      cases hothers with
      | none hnone => exact absurd (htext ▸ hnone) (not_isGap_of_word hne hsolid)
      | @next gap' word' rest' words' hgap' hne' hsolid' hend' hrest' =>
          have hafter := congrArg skipBlanks htext
          rw [skipBlanks_stretch hgap (head?_stretch hne hsolid),
            skipBlanks_stretch hgap' (head?_stretch hne' hsolid')] at hafter
          have hword := congrArg (List.takeWhile fun c => !isBlank c) hafter
          rw [takeWhile_stretch (by simpa using hsolid) (head?_not_blank hend),
            takeWhile_stretch (by simpa using hsolid') (head?_not_blank hend')] at hword
          subst hword
          obtain rfl := List.append_cancel_left hafter
          rw [ih hrest']

/-! ## What cleaning leaves of a text -/

/-- Of a run of whitespace that goes on nothing is left. -/
theorem mergeBlanks_gap {gap : Text} (h : IsGap gap) (text : Text) :
    mergeBlanks true (gap ++ text) = mergeBlanks true text := by
  induction gap with
  | nil => rfl
  | cons c gap ih =>
      obtain ⟨hc, hgap⟩ := List.forall_mem_cons.1 h
      rw [List.cons_append, mergeBlanks, if_pos hc, if_pos rfl, ih hgap]

/-- A word is left as it is, and ends a run of whitespace. -/
theorem mergeBlanks_word {word : Text} (hne : word ≠ []) (h : ∀ c ∈ word, isBlank c = false)
    (inBlanks : Bool) (text : Text) :
    mergeBlanks inBlanks (word ++ text) = word ++ mergeBlanks false text := by
  induction word generalizing inBlanks with
  | nil => exact absurd rfl hne
  | cons c word ih =>
      obtain ⟨hc, hword⟩ := List.forall_mem_cons.1 h
      rw [List.cons_append, mergeBlanks, if_neg (by simp [hc]), List.cons_append]
      by_cases hnil : word = []
      · rw [hnil]
        rfl
      · rw [ih hnil hword]

/-- Whether a run of whitespace goes on matters for the beginning only. -/
theorem exists_mergeBlanks_false (text : Text) :
    ∃ lead, IsGap lead ∧ mergeBlanks false text = lead ++ mergeBlanks true text := by
  cases text with
  | nil => exact ⟨[], isGap_nil, rfl⟩
  | cons c text =>
      by_cases hc : isBlank c = true
      · refine ⟨[' '], isGap_singleton (by decide), ?_⟩
        rw [mergeBlanks, if_pos hc, if_neg (by simp), mergeBlanks, if_pos hc, if_pos rfl]
        rfl
      · refine ⟨[], isGap_nil, ?_⟩
        rw [mergeBlanks, if_neg hc, mergeBlanks, if_neg hc]
        rfl

/-- Merging leaves the words with single spaces between them, and a space behind them if
whitespace ended the text. -/
theorem Words.exists_mergeBlanks {text : Text} {words : List Text} (h : Words text words) :
    ∃ trail, IsGap trail ∧ mergeBlanks true text = join [' '] words ++ trail := by
  induction h with
  | @none gap hgap =>
      have hmerged := mergeBlanks_gap hgap []
      rw [List.append_nil] at hmerged
      exact ⟨[], isGap_nil, hmerged⟩
  | @next gap word rest words hgap hne hsolid hend hrest ih =>
      rw [mergeBlanks_gap hgap, mergeBlanks_word hne hsolid]
      obtain ⟨trail, htrail, hmerged⟩ := ih
      cases rest with
      | nil =>
          obtain rfl : words = [] := hrest.unique (.none isGap_nil)
          exact ⟨[], isGap_nil, rfl⟩
      | cons c rest =>
          -- The run of whitespace behind the word becomes the space in front of the next one.
          have hc : isBlank c = true := hend
          rw [mergeBlanks, if_pos hc, if_pos rfl] at hmerged
          rw [mergeBlanks, if_pos hc, if_neg (by simp), hmerged]
          cases words with
          | nil => exact ⟨' ' :: trail, List.forall_mem_cons.2 ⟨by decide, htrail⟩, rfl⟩
          | cons next words => exact ⟨trail, htrail, by simp [join]⟩

/-- Joined words begin and end with words. -/
theorem Words.ends_join {text : Text} {words : List Text} (h : Words text words) :
    (join [' '] words).head?.any isBlank = false ∧
      (join [' '] words).getLast?.any isBlank = false ∧ (words ≠ [] → join [' '] words ≠ []) := by
  induction h with
  | none => exact ⟨rfl, rfl, fun hne => absurd rfl hne⟩
  | @next gap word rest words hgap hne hsolid hend hrest ih =>
      obtain ⟨-, hlast, hjoin⟩ := ih
      cases words with
      | nil =>
          obtain ⟨hhead, hlast⟩ := ends_of_forall_mem hsolid
          exact ⟨hhead, hlast, fun _ => hne⟩
      | cons next words =>
          have hrest : join [' '] (next :: words) ≠ [] := hjoin (by simp)
          refine ⟨?_, ?_, fun _ => by simp [join]⟩
          · rw [join, List.append_assoc]
            exact head?_stretch hne hsolid
          · rwa [join, getLast?_append_ne_nil hrest]

/-- Collapsing leaves the words of a text with single spaces between them. -/
theorem Words.collapse_eq {text : Text} {words : List Text} (h : Words text words) :
    collapse text = join [' '] words := by
  obtain ⟨lead, hlead, hbegin⟩ := exists_mergeBlanks_false text
  obtain ⟨trail, htrail, hmerged⟩ := h.exists_mergeBlanks
  obtain ⟨hhead, hlast, -⟩ := h.ends_join
  rw [collapse, hbegin, hmerged, strip_gap_append hlead, strip_append_gap htrail,
    strip_of_ends hhead hlast]

/-- The characters of a text that are not whitespace. -/
def solids (text : Text) : Text :=
  text.filter fun c => !isBlank c

theorem solids_append (first second : Text) :
    solids (first ++ second) = solids first ++ solids second :=
  List.filter_append ..

theorem solids_gap {gap : Text} (h : IsGap gap) : solids gap = [] :=
  List.filter_eq_nil_iff.2 fun c hc => by simp [h c hc]

/-- Merging loses no other characters. -/
theorem solids_mergeBlanks (inBlanks : Bool) (text : Text) :
    solids (mergeBlanks inBlanks text) = solids text := by
  have hspace : isBlank ' ' = true := by decide
  fun_induction mergeBlanks inBlanks text with
  | case1 => rfl
  | case2 c text hc ih => simpa [solids, hc] using ih
  | case3 inBlanks c text hc hnew ih => simpa [solids, hc, hspace] using ih
  | case4 inBlanks c text hc ih => simpa [solids, hc] using ih

/-- Stripping loses no other characters. -/
theorem solids_strip (text : Text) : solids (strip text) = solids text := by
  obtain ⟨lead, trail, hlead, htrail, hsplit, -, -⟩ := exists_strip text
  conv => rhs; rw [hsplit]
  rw [solids_append, solids_append, solids_gap hlead, solids_gap htrail, List.nil_append,
    List.append_nil]

theorem solids_collapse (text : Text) : solids (collapse text) = solids text := by
  rw [collapse, solids_strip, solids_mergeBlanks]

/-! ## Steps of cleaning -/

/-- A text without carriage returns has its line endings unified. -/
theorem unifyLineEndings_eq_self {text : Text} (h : '\r' ∉ text) :
    unifyLineEndings text = text := by
  fun_induction unifyLineEndings text with
  | case1 => rfl
  | case2 text ih => exact absurd List.mem_cons_self h
  | case3 c text _ ih =>
      rw [List.mem_cons, not_or] at h
      rw [if_neg (Ne.symm h.1), ih h.2]

theorem return_notMem_unifyLineEndings (text : Text) : '\r' ∉ unifyLineEndings text := by
  fun_induction unifyLineEndings text with
  | case1 => simp
  | case2 text ih => simpa using ih
  | case3 c text _ ih =>
      rw [List.mem_cons, not_or]
      refine ⟨?_, ih⟩
      split
      · decide
      · exact Ne.symm ‹_›

/-- Collapsed whitespace has no line endings. -/
theorem unifyLineEndings_collapse (text : Text) :
    unifyLineEndings (collapse text) = collapse text := by
  refine unifyLineEndings_eq_self fun hmem => ?_
  have hcollapsed := collapsed_clean text
  rw [clean_eq_collapse] at hcollapsed
  exact absurd (hcollapsed.space '\r' hmem (by decide)) (by decide)

theorem collapse_collapse (text : Text) : collapse (collapse text) = collapse text := by
  rw [← clean_eq_collapse, ← clean_eq_collapse, clean_eq_self_iff]
  exact collapsed_clean text

theorem collapse_unifyLineEndings (text : Text) :
    collapse (unifyLineEndings text) = collapse text := by
  rw [collapse, mergeBlanks_unifyLineEndings, collapse]

/-- Steps one after the other do what one of them does: collapsing, if it is among them. -/
theorem foldl_apply (steps : List Step) (text : Text) :
    steps.foldl (fun text step => step.apply text) text =
      if .collapse ∈ steps then collapse text
      else if steps = [] then text else unifyLineEndings text := by
  induction steps generalizing text with
  | nil => rfl
  | cons step steps ih =>
      rw [List.foldl_cons, ih]
      cases step with
      | lineEndings =>
          simp only [Step.apply, collapse_unifyLineEndings,
            unifyLineEndings_eq_self (return_notMem_unifyLineEndings text)]
          simp
      | collapse =>
          simp only [Step.apply, collapse_collapse, unifyLineEndings_collapse]
          simp

/-- Any steps either collapse whitespace or unify line endings only. -/
theorem clean_eq (steps : List Step) (text : Text) :
    clean steps text =
      if steps = [] ∨ .collapse ∈ steps then collapse text else unifyLineEndings text := by
  by_cases hsteps : steps = []
  · rw [hsteps, clean_eq_collapse]
    rfl
  · rw [clean, if_neg hsteps, foldl_apply]
    simp [hsteps]

/-- Cleaning finds the canonical form of a text: its words, which are uniquely determined, with
single spaces between them. What is clean stays as it is, no other characters than whitespace are
lost or change places, and collapsing alone does the same. Whatever steps are asked for, doing
them again changes nothing. -/
theorem clean_canonical (text : Text) (steps : List Step) :
    (∃ words, Words text words ∧ (∀ others, Words text others → others = words) ∧
        clean [] text = join [' '] words) ∧
      clean [] (clean [] text) = clean [] text ∧
      ((clean [] text).filter fun c => !isBlank c) = (text.filter fun c => !isBlank c) ∧
      clean [] text = Step.collapse.apply text ∧
      clean steps (clean steps text) = clean steps text := by
  have hagain : ∀ steps, clean steps (clean steps text) = clean steps text := by
    intro steps
    simp only [clean_eq]
    split
    · exact collapse_collapse text
    · exact unifyLineEndings_eq_self (return_notMem_unifyLineEndings text)
  obtain ⟨words, h⟩ := exists_words text
  refine ⟨⟨words, h, fun others hothers => hothers.unique h, ?_⟩, hagain [], ?_, ?_, hagain steps⟩
  · rw [clean_eq_collapse, h.collapse_eq]
  · rw [clean_eq_collapse]
    exact solids_collapse text
  · exact clean_eq_collapse text

end Cleaning

end SdkUpgrade
