import SdkUpgrade.Proofs.Weight

/-!
# Running the engine again

The output of the engine is clear of what the rules for names look for, so a second run can only
change prompts, long names and engine keys, and every such edit takes something off the weight of
the text. Runs that follow each other therefore settle down: `Engine.settles`. The same weight
shows that a run with edits never ends in the text it started from: `Engine.changed_run_iff`.
-/

namespace SdkUpgrade

open Text Source

/-- The text has nothing that the rules for names look for. -/
def Clear (radius : Option Nat) (text : Text) : Prop :=
  ∀ kind ∈ Kind.named, Absent (kind.hit? radius) text

section Passes

variable {radius : Option Nat}

/-- Passes do not make a text heavier. -/
theorem weight_finalText_le (rules : List Rule) (text : Text) :
    weight (finalText radius rules text) ≤ weight text := by
  induction rules generalizing text with
  | nil => exact Nat.le_refl _
  | cons rule rules ih =>
      have hfirst := rule.weight_apply radius text
      have hrest := ih (rule.apply radius text)
      show weight (finalText radius rules (rule.apply radius text)) ≤ weight text
      omega

/-- Every edit of the passes makes a text lighter, if those rules among them that look for names
find none in it. -/
theorem weight_passes (rules : List Rule) {text : Text}
    (h : ∀ rule ∈ rules, rule.kind ∈ Kind.named → Absent (rule.kind.hit? radius) text) :
    weight (finalText radius rules text) +
      ((passes radius rules text).flatMap Pass.edits).length ≤ weight text := by
  induction rules generalizing text with
  | nil => exact Nat.le_refl _
  | cons rule rules ih =>
      obtain ⟨hrule, hrules⟩ := List.forall_mem_cons.1 h
      have hrest : weight (finalText radius rules (rule.apply radius text)) +
          ((passes radius rules (rule.apply radius text)).flatMap Pass.edits).length ≤
            weight (rule.apply radius text) :=
        ih fun later hlater hkind =>
          later.kind.absent_rewritten hkind rule.kind (.inl (hrules later hlater hkind))
      have hfirst := rule.weight_apply radius text
      have hedits : (rule.edits radius text).length ≤
          rule.kind.cost * (rule.edits radius text).length := by
        by_cases hkind : rule.kind ∈ Kind.named
        · rw [Rule.edits_eq_nil (hrule hkind)]
          exact Nat.zero_le _
        · simp [Kind.cost, hkind]
      rw [edits_passes_cons, List.length_append]
      show weight (finalText radius rules (rule.apply radius text)) + _ ≤ weight text
      omega

/-- The passes over a text make no edit exactly if none of the rules does. -/
theorem edits_passes_eq_nil_iff (rules : List Rule) (text : Text) :
    (passes radius rules text).flatMap Pass.edits = [] ↔
      ∀ rule ∈ rules, rule.edits radius text = [] := by
  induction rules with
  | nil => simp [passes]
  | cons rule rules ih =>
      rw [edits_passes_cons, List.append_eq_nil_iff, List.forall_mem_cons]
      refine and_congr_right fun hnone => ?_
      rw [rule.apply_eq_of_edits_eq_nil radius text hnone, ih]

/-- Without edits, passes leave the text as it is. -/
theorem finalText_eq_of_edits (rules : List Rule) {text : Text}
    (h : ∀ rule ∈ rules, rule.edits radius text = []) : finalText radius rules text = text := by
  induction rules with
  | nil => rfl
  | cons rule rules ih =>
      obtain ⟨hfirst, hrest⟩ := List.forall_mem_cons.1 h
      show finalText radius rules (rule.apply radius text) = text
      rw [rule.apply_eq_of_edits_eq_nil radius text hfirst]
      exact ih hrest

end Passes

/-! ## Whether a run changed anything -/

/-- Passes that end in the text they started from make no edit. -/
theorem edits_passes_eq_nil_of_finalText {radius : Option Nat} {rules : List Rule} {text : Text}
    (h : finalText radius rules text = text) :
    (passes radius rules text).flatMap Pass.edits = [] := by
  -- What a rule for names looks for is not in the final text, so it was not in the first one.
  have hweight := weight_passes rules fun rule hrule hkind => by
    have hfinal : Absent (rule.kind.hit? radius) (finalText radius rules text) :=
      rule.kind.absent_finalText hkind rules (.inr (List.mem_map_of_mem hrule))
    rwa [h] at hfinal
  rw [h] at hweight
  exact List.length_eq_zero_iff.1 (by omega)

namespace Engine

/-- Every edit of a run changes something. -/
theorem changed_run (engine : Engine) (text : Text) :
    (engine.run text).changed = true ↔ (engine.run text).edits ≠ [] := by
  rw [Result.changed, List.any_eq_true]
  constructor
  · rintro ⟨edit, hmem, -⟩ hnone
    rw [hnone] at hmem
    exact List.not_mem_nil hmem
  · intro hsome
    obtain ⟨edit, hmem⟩ := List.exists_mem_of_ne_nil _ hsome
    obtain ⟨first, rule, later, -, hedit⟩ := exists_of_mem_passes hmem
    have hfits := (rule.groupFits_edits engine.radius _).fits edit hedit
    exact ⟨edit, hmem, decide_eq_true hfits.changes⟩

/-- A run is reported as a change exactly if its text is another one than the text that the rules
started from. No trace with an edit in it ends where it began. -/
theorem changed_run_iff (engine : Engine) (text : Text) :
    ((engine.run text).changed = true ↔ (engine.run text).text ≠ engine.prepare text) ∧
      ((engine.run text).edits ≠ [] ↔ (engine.run text).text ≠ engine.prepare text) := by
  have hedits : (engine.run text).edits = [] ↔ (engine.run text).text = engine.prepare text := by
    rw [text_run]
    constructor
    · intro hnone
      exact finalText_eq_of_edits _ ((edits_passes_eq_nil_iff _ _).1 hnone)
    · exact edits_passes_eq_nil_of_finalText
  exact ⟨(changed_run engine text).trans (not_congr hedits), not_congr hedits⟩

end Engine

/-! ## Runs -/

namespace Engine

/-- The engine with the usual rules that leaves whitespace alone. Without a radius it is the
engine that is used by default. -/
def plain (radius : Option Nat) : Engine :=
  ⟨.standard, radius, false⟩

example : plain none = {} := rfl

/-- The text after a number of runs. -/
def repeated (engine : Engine) : Nat → Text → Text
  | 0, text => text
  | n + 1, text => engine.repeated n (engine.run text).text

variable (radius : Option Nat) (text : Text)

/-- The output of a run is clear. -/
theorem clear_run : Clear radius ((plain radius).run text).text := by
  have hrules : ∀ kind ∈ Kind.named, kind ∈ Catalog.standard.rules.map Rule.kind := by decide
  intro kind hkind
  rw [text_run]
  exact kind.absent_finalText hkind _ (.inr (hrules kind hkind))

/-- A run does not make a text heavier. -/
theorem weight_run_le : weight ((plain radius).run text).text ≤ weight text := by
  rw [text_run]
  exact weight_finalText_le _ text

variable {radius text}

/-- Every edit of a run over a clear text makes it lighter. -/
theorem weight_run_add_edits (h : Clear radius text) :
    weight ((plain radius).run text).text + ((plain radius).run text).edits.length ≤
      weight text := by
  rw [text_run]
  exact weight_passes _ fun rule _ hkind => h rule.kind hkind

/-- A run without edits leaves the text as it is. -/
theorem text_run_of_edits (h : ((plain radius).run text).edits = []) :
    ((plain radius).run text).text = text := by
  rw [text_run]
  exact finalText_eq_of_edits _ ((edits_passes_eq_nil_iff _ text).1 h)

/-- Where a run makes no edit, no later run does. -/
theorem repeated_of_edits (h : ((plain radius).run text).edits = []) (n : Nat) :
    (plain radius).repeated n text = text := by
  induction n with
  | zero => rfl
  | succ n ih =>
      show (plain radius).repeated n ((plain radius).run text).text = text
      rw [text_run_of_edits h]
      exact ih

/-- Runs can be counted in two parts. -/
theorem repeated_add (engine : Engine) (m n : Nat) (text : Text) :
    engine.repeated (m + n) text = engine.repeated n (engine.repeated m text) := by
  induction m generalizing text with
  | zero => rw [Nat.zero_add]; rfl
  | succ m ih =>
      rw [Nat.succ_add]
      exact ih (engine.run text).text

/-- From a clear text on, there are at most as many runs with edits as its weight. -/
theorem exists_quiet_run (bound : Nat) {text : Text} (h : Clear radius text)
    (hbound : weight text ≤ bound) : ∃ n ≤ bound,
      (∀ i < n, ((plain radius).run ((plain radius).repeated i text)).edits ≠ []) ∧
        ((plain radius).run ((plain radius).repeated n text)).edits = [] := by
  induction bound generalizing text with
  | zero =>
      refine ⟨0, Nat.le_refl 0, fun i hi => absurd hi (Nat.not_lt_zero i), ?_⟩
      have hweight := weight_run_add_edits h
      show ((plain radius).run text).edits = []
      exact List.length_eq_zero_iff.1 (by omega)
  | succ bound ih =>
      by_cases hnone : ((plain radius).run text).edits = []
      · exact ⟨0, Nat.zero_le _, fun i hi => absurd hi (Nat.not_lt_zero i), hnone⟩
      · have hweight := weight_run_add_edits h
        have hpos := List.length_pos_iff.2 hnone
        obtain ⟨n, hn, hsome, hquiet⟩ := ih (clear_run radius text) (by omega)
        refine ⟨n + 1, Nat.succ_le_succ hn, ?_, hquiet⟩
        intro i hi
        cases i with
        | zero => exact hnone
        | succ i => exact hsome i (Nat.lt_of_succ_lt_succ hi)

/-- Repeated runs settle down. There is a number of runs, at most one more than the length of the
text, such that exactly the runs before it make edits; from then on no run makes an edit and the
text stays as it is. -/
theorem settles (radius : Option Nat) (text : Text) : ∃ n ≤ text.length + 1,
    (∀ i < n, ((plain radius).run ((plain radius).repeated i text)).edits ≠ []) ∧
      ∀ i, n ≤ i → ((plain radius).run ((plain radius).repeated i text)).edits = [] ∧
        (plain radius).repeated i text = (plain radius).repeated n text := by
  -- It is enough to find the first run without edits.
  have hlater : ∀ {n : Nat}, ((plain radius).run ((plain radius).repeated n text)).edits = [] →
      ∀ i, n ≤ i → ((plain radius).run ((plain radius).repeated i text)).edits = [] ∧
        (plain radius).repeated i text = (plain radius).repeated n text := by
    intro n hquiet i hi
    have hsame : (plain radius).repeated i text = (plain radius).repeated n text := by
      obtain ⟨k, rfl⟩ := Nat.exists_eq_add_of_le hi
      rw [repeated_add, repeated_of_edits hquiet]
    exact ⟨by rw [hsame, hquiet], hsame⟩
  by_cases hnone : ((plain radius).run text).edits = []
  · exact ⟨0, Nat.zero_le _, fun i hi => absurd hi (Nat.not_lt_zero i), @hlater 0 hnone⟩
  · -- The first run clears the text, and each later one takes something off its weight.
    have hweight : weight ((plain radius).run text).text ≤ text.length :=
      Nat.le_trans (weight_run_le radius text) (weight_le_length text)
    obtain ⟨n, hn, hsome, hquiet⟩ := exists_quiet_run text.length (clear_run radius text) hweight
    refine ⟨n + 1, Nat.succ_le_succ hn, ?_, @hlater (n + 1) hquiet⟩
    intro i hi
    cases i with
    | zero => exact hnone
    | succ i => exact hsome i (Nat.lt_of_succ_lt_succ hi)

end Engine

end SdkUpgrade
