import SdkUpgrade.Engine
import SdkUpgrade.Proofs.Pass

/-!
# Replaying a trace

The edits of a run are enough to repeat it. Grouped by rule, in the order in which they were made,
each group replaces spans of the text that the groups before have left. Read `replays_run` first:
replaying all groups from the prepared text ends in the text of the result, and the rules that
fired are rules of the catalog, each once, in its order.

The replay itself knows nothing of rules: `splice` copies a text and puts the new wording in place
of the given spans, and `Edit.Fits` says when a span can be replaced at all.
-/

namespace SdkUpgrade

/-- The text from `cursor` on, with the span of every edit replaced and all else copied. -/
def splice (text : Text) : (cursor : Nat) → List Edit → Text
  | cursor, [] => text.drop cursor
  | cursor, edit :: edits =>
      (text.take edit.start).drop cursor ++ edit.after ++ splice text edit.stop edits

/-- The edit replaces a span of the text: the span is not empty and lies within the text, the
edit's old wording is what stands there, and its new wording is another one. -/
structure Edit.Fits (text : Text) (edit : Edit) : Prop where
  nonempty : edit.start < edit.stop
  inBounds : edit.stop ≤ text.length
  reads : (text.take edit.stop).drop edit.start = edit.before
  changes : edit.before ≠ edit.after

/-- The edits replace spans of one text that follow each other from left to right. -/
structure GroupFits (text : Text) (edits : List Edit) : Prop where
  fits : ∀ edit ∈ edits, edit.Fits text
  ascending : edits.Pairwise fun first second => first.stop ≤ second.start

/-- Replacing the spans of the groups one after the other leads from one text to another. -/
inductive Replays : Text → List (List Edit) → Text → Prop where
  | done (text : Text) : Replays text [] text
  | group {text final : Text} {edits : List Edit} {groups : List (List Edit)} :
      edits ≠ [] → GroupFits text edits → Replays (splice text 0 edits) groups final →
      Replays text (edits :: groups) final

/-- The rules of the edits, each once, in the order of their first edit. -/
def ruleIds (edits : List Edit) : List Text :=
  Text.distinct (edits.map Edit.ruleId)

/-- The edits rule by rule. -/
def groupsByRule (edits : List Edit) : List (List Edit) :=
  (ruleIds edits).map fun id => edits.filter fun edit => decide (edit.ruleId = id)

/-! ## The edits of one pass -/

/-- The hits among the pieces take at least one character each. -/
def Proper (pieces : List Piece) : Prop :=
  ∀ hit, Piece.hit hit ∈ pieces → hit.matched ≠ []

/-- The hits of a pass take at least one character each. -/
theorem proper_pieces {find? : Cursor → Option Hit} (hf : Recognises find?)
    (covered : Nat) (before after : Text) : Proper (pieces find? covered before after) := by
  induction after generalizing covered before with
  | nil =>
      intro hit hmem
      simp [pieces] at hmem
  | cons c after ih =>
      intro hit hmem
      cases covered with
      | succ covered => exact ih covered (c :: before) hit hmem
      | zero =>
          cases hh : find? ⟨before, c :: after⟩ with
          | none =>
              simp only [pieces, hh, List.mem_cons, reduceCtorEq, false_or] at hmem
              exact ih 0 (c :: before) hit hmem
          | some found =>
              simp only [pieces, hh, List.mem_cons, Piece.hit.injEq] at hmem
              rcases hmem with rfl | hmem
              · exact (hf _ _ hh).1
              · exact ih _ (c :: before) hit hmem

/-- Every edit of a pass carries the identifier of its rule. -/
theorem ruleId_of_mem_editsFrom {ruleId : Text} {offset : Nat} {pieces : List Piece} {edit : Edit}
    (h : edit ∈ editsFrom ruleId offset pieces) : edit.ruleId = ruleId := by
  induction pieces generalizing offset with
  | nil => simp [editsFrom] at h
  | cons piece rest ih =>
      cases piece with
      | kept c => exact ih h
      | hit found =>
          simp only [editsFrom] at h
          split at h
          · exact ih h
          · rcases List.mem_cons.1 h with rfl | h
            · rfl
            · exact ih h

/-- Kept characters leave no edits. -/
theorem editsFrom_map_kept (ruleId : Text) (offset : Nat) (text : Text) (rest : List Piece) :
    editsFrom ruleId offset (text.map .kept ++ rest) =
      editsFrom ruleId (offset + text.length) rest := by
  induction text generalizing offset with
  | nil => rfl
  | cons c text ih =>
      show editsFrom ruleId (offset + 1) (text.map .kept ++ rest) = _
      rw [ih, List.length_cons]
      congr 1
      omega

/-- Every edit of a pass comes from a hit at its place that changes something. -/
theorem exists_of_mem_editsFrom {find? : Cursor → Option Hit} (hf : Recognises find?)
    {ruleId : Text} (before after : Text) {edit : Edit} :
    edit ∈ editsFrom ruleId before.length (pieces find? 0 before after) →
      ∃ front rest, ∃ hit : Hit, front.reverse ++ (hit.matched ++ rest) =
        before.reverse ++ after ∧
        find? ⟨front, hit.matched ++ rest⟩ = some hit ∧ edit = ⟨ruleId, front.length,
          front.length + hit.matched.length, hit.matched, hit.replacement⟩ := by
  induction before, after using pass_induction hf with
  | nil before => exact fun hmem => absurd hmem List.not_mem_nil
  | kept before c after hc ih =>
      intro hmem
      simp only [pieces, hc, editsFrom] at hmem
      simpa using ih hmem
  | hit before hit rest hh ih =>
      intro hmem
      rw [pieces_hit hf hh] at hmem
      have hbehind : edit ∈ editsFrom ruleId (hit.matched.reverse ++ before).length
          (pieces find? 0 (hit.matched.reverse ++ before) rest) →
          ∃ front more, ∃ found : Hit, front.reverse ++ (found.matched ++ more) =
            before.reverse ++ (hit.matched ++ rest) ∧
            find? ⟨front, found.matched ++ more⟩ = some found ∧ edit = ⟨ruleId, front.length,
              front.length + found.matched.length, found.matched, found.replacement⟩ := by
        intro hmem
        simpa using ih hmem
      have hlength : (hit.matched.reverse ++ before).length =
          before.length + hit.matched.length := by
        simp [Nat.add_comm]
      rw [hlength] at hbehind
      simp only [editsFrom] at hmem
      split at hmem
      · exact hbehind hmem
      · rcases List.mem_cons.1 hmem with rfl | hmem
        · exact ⟨before, rest, hit, rfl, hh, rfl⟩
        · exact hbehind hmem

/-- No edit of a pass begins in front of the pass. -/
theorem le_start_of_mem_editsFrom {ruleId : Text} {offset : Nat} {pieces : List Piece}
    {edit : Edit} (h : edit ∈ editsFrom ruleId offset pieces) : offset ≤ edit.start := by
  induction pieces generalizing offset with
  | nil => simp [editsFrom] at h
  | cons piece rest ih =>
      cases piece with
      | kept c =>
          have hstart := ih h
          omega
      | hit found =>
          simp only [editsFrom] at h
          split at h
          · have hstart := ih h
            omega
          · rcases List.mem_cons.1 h with rfl | h
            · exact Nat.le_refl _
            · have hstart := ih h
              omega

/-- The spans of the edits of a pass follow each other. -/
theorem ascending_editsFrom (ruleId : Text) (offset : Nat) (pieces : List Piece) :
    (editsFrom ruleId offset pieces).Pairwise fun first second => first.stop ≤ second.start := by
  induction pieces generalizing offset with
  | nil => exact List.Pairwise.nil
  | cons piece rest ih =>
      cases piece with
      | kept c => exact ih (offset + 1)
      | hit found =>
          simp only [editsFrom]
          split
          · exact ih _
          · exact List.Pairwise.cons (fun second hs => le_start_of_mem_editsFrom hs) (ih _)

/-- Every edit of a pass fits the text that the pass runs over. -/
theorem fits_of_mem_editsFrom {ruleId : Text} {pieces : List Piece} (hp : Proper pieces)
    (lead : Text) {edit : Edit} (h : edit ∈ editsFrom ruleId lead.length pieces) :
    edit.Fits (lead ++ pieces.flatMap Piece.source) := by
  induction pieces generalizing lead with
  | nil => simp [editsFrom] at h
  | cons piece rest ih =>
      have hrest : Proper rest := fun hit hmem => hp hit (List.mem_cons_of_mem _ hmem)
      -- The pieces behind the first one run over the same text, with a longer lead.
      have hbehind : edit ∈ editsFrom ruleId (lead ++ piece.source).length rest →
          edit.Fits (lead ++ (piece :: rest).flatMap Piece.source) := by
        intro hmem
        simpa using ih hrest (lead ++ piece.source) hmem
      cases piece with
      | kept c => exact hbehind (by simpa [editsFrom, Piece.source] using h)
      | hit found =>
          simp only [editsFrom] at h
          split at h
          · exact hbehind (by simpa [Piece.source] using h)
          · rename_i hchange
            rcases List.mem_cons.1 h with rfl | h
            · have hpos : 0 < found.matched.length :=
                List.length_pos_iff.2 (hp found List.mem_cons_self)
              refine ⟨by simpa using hpos, by simp [Piece.source], ?_,
                fun heq => hchange heq.symm⟩
              simp [Piece.source, List.take_append]
            · exact hbehind (by simpa [Piece.source] using h)

/-- Splicing the edits of a pass gives what the pass leaves. The characters between `cursor` and
the beginning of the pass are copied too. -/
theorem splice_editsFrom (ruleId : Text) (pieces : List Piece) (lead : Text) (cursor : Nat)
    (hc : cursor ≤ lead.length) :
    splice (lead ++ pieces.flatMap Piece.source) cursor (editsFrom ruleId lead.length pieces) =
      lead.drop cursor ++ pieces.flatMap Piece.result := by
  induction pieces generalizing lead cursor with
  | nil => simp [editsFrom, splice]
  | cons piece rest ih =>
      have hkeep : splice (lead ++ (piece :: rest).flatMap Piece.source) cursor
          (editsFrom ruleId (lead ++ piece.source).length rest) =
            lead.drop cursor ++ piece.source ++ rest.flatMap Piece.result := by
        have hmore := ih (lead ++ piece.source) cursor (by simp; omega)
        rw [List.drop_append_of_le_length hc] at hmore
        simpa using hmore
      cases piece with
      | kept c => simpa [editsFrom, Piece.source, Piece.result] using hkeep
      | hit found =>
          simp only [editsFrom]
          split
          · rename_i hsame
            simpa [Piece.source, Piece.result, hsame] using hkeep
          · have hbehind := ih (lead ++ found.matched) (lead ++ found.matched).length
              (Nat.le_refl _)
            simp only [List.length_append, List.append_assoc] at hbehind
            simp [splice, Piece.source, Piece.result, hbehind]

namespace Rule

variable {κ : Type} [Recogniser κ]

/-- The edits of a rule replace spans of the text that the rule is applied to. -/
theorem groupFits_edits (rule : Rule κ) (radius : Option Nat) (text : Text) :
    GroupFits text (rule.edits radius text) := by
  have hsource := rule.flatMap_source_pieces radius text
  refine ⟨fun edit hmem => ?_, ascending_editsFrom _ _ _⟩
  have hfits := fits_of_mem_editsFrom
    (proper_pieces (Recogniser.recognises radius rule.kind) 0 [] text) [] hmem
  rw [← hsource]
  exact hfits

/-- Splicing the edits of a rule applies the rule. -/
theorem splice_edits (rule : Rule κ) (radius : Option Nat) (text : Text) :
    splice text 0 (rule.edits radius text) = rule.apply radius text := by
  have hsplice := splice_editsFrom rule.id (rule.pieces radius text) [] 0 (Nat.le_refl _)
  rw [List.nil_append, rule.flatMap_source_pieces radius text] at hsplice
  exact hsplice

/-- The edits of a rule carry its identifier. -/
theorem ruleId_of_mem_edits {rule : Rule κ} {radius : Option Nat} {text : Text} {edit : Edit}
    (h : edit ∈ rule.edits radius text) : edit.ruleId = rule.id :=
  ruleId_of_mem_editsFrom h

end Rule

/-! ## Grouping by rule -/

section Grouping

variable {id : Text} {first rest : List Edit}

/-- Edits of one rule in front of edits of other rules make that rule the first. -/
theorem ruleIds_append (hne : first ≠ []) (hfirst : ∀ edit ∈ first, edit.ruleId = id)
    (hrest : ∀ edit ∈ rest, edit.ruleId ≠ id) : ruleIds (first ++ rest) = id :: ruleIds rest := by
  have hkeep : (ruleIds rest).filter (· ≠ id) = ruleIds rest := by
    refine List.filter_eq_self.2 fun other hmem => ?_
    obtain ⟨edit, hedit, rfl⟩ := List.mem_map.1 (Text.mem_distinct.1 hmem)
    simpa using hrest edit hedit
  induction first with
  | nil => exact absurd rfl hne
  | cons edit first ih =>
      have hid : edit.ruleId = id := hfirst edit List.mem_cons_self
      have htail : ∀ other ∈ first, other.ruleId = id := fun other hmem =>
        hfirst other (List.mem_cons_of_mem _ hmem)
      show Text.distinct (edit.ruleId :: (first ++ rest).map Edit.ruleId) = _
      rw [Text.distinct, hid]
      cases first with
      | nil => exact congrArg (id :: ·) hkeep
      | cons next first =>
          have hnext : Text.distinct ((next :: first ++ rest).map Edit.ruleId) =
              id :: ruleIds rest :=
            ih (by simp) htail
          rw [hnext]
          simpa using hkeep

/-- Edits of one rule in front of edits of other rules are a group of their own. -/
theorem groupsByRule_append (hne : first ≠ []) (hfirst : ∀ edit ∈ first, edit.ruleId = id)
    (hrest : ∀ edit ∈ rest, edit.ruleId ≠ id) :
    groupsByRule (first ++ rest) = first :: groupsByRule rest := by
  rw [groupsByRule, ruleIds_append hne hfirst hrest, List.map_cons, List.filter_append,
    List.filter_eq_self.2 (by simpa using hfirst),
    List.filter_eq_nil_iff.2 (by simpa using hrest), List.append_nil]
  refine congrArg (first :: ·) (List.map_congr_left fun other hmem => ?_)
  have hother : other ≠ id := by
    obtain ⟨edit, hedit, rfl⟩ := List.mem_map.1 (Text.mem_distinct.1 hmem)
    exact hrest edit hedit
  have hnone : first.filter (fun edit => decide (edit.ruleId = other)) = [] := by
    refine List.filter_eq_nil_iff.2 fun edit hedit => ?_
    simpa [hfirst edit hedit] using hother.symm
  rw [List.filter_append, hnone, List.nil_append]

end Grouping

/-! ## The trace of a run -/

variable {κ : Type} [Recogniser κ]

/-- The text that the passes of some rules end in. -/
def finalText (radius : Option Nat) (rules : List (Rule κ)) (text : Text) : Text :=
  rules.foldl (fun text rule => rule.apply radius text) text

/-- Rules that follow others go on with the text that these have left. -/
theorem finalText_append (radius : Option Nat) (first second : List (Rule κ)) (text : Text) :
    finalText radius (first ++ second) text =
      finalText radius second (finalText radius first text) :=
  List.foldl_append

/-- The last pass of a run ends in the text after all rules. -/
theorem getLast?_passes (radius : Option Nat) (rules : List (Rule κ)) (text : Text) :
    (((passes radius rules text).getLast?).map Pass.text).getD text =
      finalText radius rules text := by
  induction rules generalizing text with
  | nil => rfl
  | cons rule rules ih =>
      have hlast := ih (rule.apply radius text)
      cases hp : passes radius rules (rule.apply radius text) with
      | nil => simpa [passes, hp, finalText] using hlast
      | cons pass more =>
          have hsome := List.getLast?_eq_some_getLast (List.cons_ne_nil pass more)
          rw [hp, hsome] at hlast
          simpa [passes, hp, finalText, List.getLast?_cons_cons, hsome] using hlast

/-- The edits of a run are those of its first rule, followed by those of the other rules. -/
theorem edits_passes_cons (radius : Option Nat) (rule : Rule κ) (rules : List (Rule κ))
    (text : Text) :
    (passes radius (rule :: rules) text).flatMap Pass.edits =
      rule.edits radius text ++
        (passes radius rules (rule.apply radius text)).flatMap Pass.edits :=
  rfl

/-- The edits of the passes of two lists of rules, one after the other. -/
theorem edits_passes_append (radius : Option Nat) (first second : List (Rule κ)) (text : Text) :
    (passes radius (first ++ second) text).flatMap Pass.edits =
      (passes radius first text).flatMap Pass.edits ++
        (passes radius second (finalText radius first text)).flatMap Pass.edits := by
  induction first generalizing text with
  | nil => rfl
  | cons rule first ih =>
      rw [List.cons_append, edits_passes_cons, edits_passes_cons, ih, List.append_assoc]
      rfl

/-- Every edit of a run is one of a rule over the text that the rules in front of it have left. -/
theorem exists_of_mem_passes {radius : Option Nat} {rules : List (Rule κ)} {text : Text}
    {edit : Edit} (h : edit ∈ (passes radius rules text).flatMap Pass.edits) :
    ∃ first rule later, rules = first ++ rule :: later ∧
      edit ∈ rule.edits radius (finalText radius first text) := by
  induction rules generalizing text with
  | nil => exact absurd h List.not_mem_nil
  | cons rule rules ih =>
      rw [edits_passes_cons, List.mem_append] at h
      rcases h with h | h
      · exact ⟨[], rule, rules, rfl, h⟩
      · obtain ⟨first, other, later, rfl, hedit⟩ := ih h
        exact ⟨rule :: first, other, later, rfl, hedit⟩

/-- Every edit of a run belongs to one of its rules. -/
theorem ruleId_mem_of_mem_passes {radius : Option Nat} {rules : List (Rule κ)} {text : Text}
    {edit : Edit} (h : edit ∈ (passes radius rules text).flatMap Pass.edits) :
    edit.ruleId ∈ rules.map Rule.id := by
  obtain ⟨first, rule, later, rfl, hedit⟩ := exists_of_mem_passes h
  rw [Rule.ruleId_of_mem_edits hedit]
  exact List.mem_map_of_mem (List.mem_append_right _ List.mem_cons_self)

/-- The edits of rules with distinct identifiers, grouped by rule, replay the run of these rules,
and the rules that made them stand in the order of the run. -/
theorem replays_passes (radius : Option Nat) (rules : List (Rule κ)) (text : Text)
    (hids : (rules.map Rule.id).Nodup) :
    let edits := (passes radius rules text).flatMap Pass.edits
    Replays text (groupsByRule edits) (finalText radius rules text) ∧
      (groupsByRule edits).flatten = edits ∧ (ruleIds edits).Sublist (rules.map Rule.id) := by
  induction rules generalizing text with
  | nil => exact ⟨.done text, rfl, List.Sublist.slnil⟩
  | cons rule rules ih =>
      obtain ⟨hfresh, hids⟩ := List.nodup_cons.1 hids
      obtain ⟨hreplay, hflat, hsub⟩ := ih (rule.apply radius text) hids
      simp only [edits_passes_cons]
      generalize hrest : (passes radius rules (rule.apply radius text)).flatMap Pass.edits = rest
        at hreplay hflat hsub
      by_cases hnone : rule.edits radius text = []
      · rw [hnone, List.nil_append]
        have hsame := rule.apply_eq_of_edits_eq_nil radius text hnone
        refine ⟨?_, hflat, hsub.cons _⟩
        simpa [finalText, hsame] using hreplay
      · have hfirst : ∀ edit ∈ rule.edits radius text, edit.ruleId = rule.id :=
          fun edit hmem => Rule.ruleId_of_mem_edits hmem
        have hother : ∀ edit ∈ rest, edit.ruleId ≠ rule.id := by
          intro edit hmem heq
          rw [← hrest] at hmem
          exact hfresh (heq ▸ ruleId_mem_of_mem_passes hmem)
        rw [groupsByRule_append hnone hfirst hother, ruleIds_append hnone hfirst hother]
        refine ⟨.group hnone (rule.groupFits_edits radius text) ?_, ?_, hsub.cons_cons _⟩
        · rw [rule.splice_edits radius text]
          exact hreplay
        · rw [List.flatten_cons, hflat]

namespace Engine

/-- The text of a result is the prepared text after all rules. -/
theorem text_run (engine : Engine κ) (text : Text) :
    (engine.run text).text =
      finalText engine.radius engine.catalog.rules (engine.prepare text) :=
  getLast?_passes engine.radius engine.catalog.rules (engine.prepare text)

/-- The edits of a run, grouped by rule in the order in which they were made, replay it: from the
prepared text, group by group, to the text of the result. The groups hold every edit of the run,
and the rules that fired are distinct rules of the catalog in its order. -/
theorem replays_run (engine : Engine κ) (text : Text) :
    let result := engine.run text
    Replays (engine.prepare text) (groupsByRule result.edits) result.text ∧
      (groupsByRule result.edits).flatten = result.edits ∧
      result.rulesFired = ruleIds result.edits ∧ result.rulesFired.Nodup ∧
      result.rulesFired.Sublist engine.catalog.ids := by
  obtain ⟨hreplay, hflat, hsub⟩ := replays_passes engine.radius engine.catalog.rules
    (engine.prepare text) engine.catalog.distinct
  refine ⟨?_, hflat, rfl, Text.nodup_distinct _, hsub⟩
  rw [text_run]
  exact hreplay

end Engine

end SdkUpgrade
