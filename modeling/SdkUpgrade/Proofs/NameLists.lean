import SdkUpgrade.Proofs.Loading
import SdkUpgrade.Proofs.Spacing

/-!
# Lists of names are canonical

A list of names is read from the parts of a text between its commas, or from the values of a
list. Either way whitespace around a name, blank names and repetitions are left out, and what is
left keeps its order. `Text.Firsts` says what that order is, and `Value.names_canonical` puts it
together: the names that were read are read again from themselves, whether they are given as a
list or, when they came from a text, with commas between them. Names that came from the values
of a list may have commas.
-/

namespace SdkUpgrade

namespace Text

/-! ## First occurrences -/

/-- The elements of a list, each once, in the order of their first occurrences. -/
structure Firsts {α : Type} [DecidableEq α] (items firsts : List α) : Prop where
  mem : ∀ x, x ∈ firsts ↔ x ∈ items
  order : firsts.Pairwise fun x y => items.idxOf x < items.idxOf y

/-- First occurrences are distinct. -/
theorem Firsts.nodup {α : Type} [DecidableEq α] {items firsts : List α}
    (h : Firsts items firsts) :
    firsts.Nodup := by
  refine h.order.imp fun hlt heq => ?_
  rw [heq] at hlt
  exact Nat.lt_irrefl _ hlt

/-- Leaving out repetitions leaves the first occurrences. -/
theorem firsts_distinct {α : Type} [DecidableEq α] (items : List α) :
    Firsts items (distinct items) := by
  refine ⟨fun _ => mem_distinct, ?_⟩
  induction items with
  | nil => exact .nil
  | cons x items ih =>
      -- Behind the first element stand those that differ from it, each one place later.
      have hlater : ∀ y ∈ (distinct items).filter (· ≠ x),
          (x :: items).idxOf y = items.idxOf y + 1 := by
        intro y hy
        have hne : y ≠ x := of_decide_eq_true (List.mem_filter.1 hy).2
        exact List.idxOf_cons_ne items (Ne.symm hne)
      refine List.pairwise_cons.2 ⟨fun y hy => ?_, (ih.filter _).imp_of_mem fun hy hz hlt => ?_⟩
      · rw [hlater y hy, List.idxOf_cons_self]
        exact Nat.succ_pos _
      · rw [hlater _ hy, hlater _ hz]
        exact Nat.succ_lt_succ hlt

/-! ## The names in a text -/

/-- The separator is in no piece. -/
theorem notMem_of_mem_split {separator : Char} {text piece : Text}
    (h : piece ∈ split separator text) : separator ∉ piece := by
  induction text generalizing piece with
  | nil =>
      rw [List.mem_singleton.1 h]
      exact List.not_mem_nil
  | cons c text ih =>
      obtain ⟨first, pieces, hpieces⟩ := List.exists_cons_of_ne_nil (split_ne_nil separator text)
      rw [hpieces] at ih
      by_cases hc : c = separator
      · rw [split, if_pos hc, hpieces] at h
        rcases List.mem_cons.1 h with rfl | h
        · exact List.not_mem_nil
        · exact ih h
      · rw [split, if_neg hc, hpieces] at h
        rcases List.mem_cons.1 h with rfl | h
        · rw [List.mem_cons, not_or]
          exact ⟨Ne.symm hc, ih List.mem_cons_self⟩
        · exact ih (List.mem_cons_of_mem first h)

/-- The texts without whitespace at their ends, as far as anything is left of them. -/
def stripped (texts : List Text) : List Text :=
  (texts.map strip).filter fun text => decide (text ≠ [])

theorem trimmed?_eq (text : Text) :
    trimmed? text = if strip text = [] then none else some (strip text) := by
  unfold trimmed?
  split
  · rename_i hnil
    rw [if_pos hnil]
  · rename_i hsome
    rw [if_neg hsome]

theorem filterMap_trimmed? (texts : List Text) : texts.filterMap trimmed? = stripped texts := by
  induction texts with
  | nil => rfl
  | cons text texts ih =>
      rw [List.filterMap_cons, trimmed?_eq, stripped, List.map_cons]
      by_cases hnil : strip text = []
      · rw [if_pos hnil, List.filter_cons_of_neg (by simp [hnil]), ih]
        rfl
      · rw [if_neg hnil, List.filter_cons_of_pos (by simp [hnil]), ih]
        rfl

/-- What is left of a text has no whitespace at its ends, and comes from the text. -/
theorem of_mem_stripped {texts : List Text} {name : Text} (h : name ∈ stripped texts) :
    name ≠ [] ∧ name.head?.any isBlank = false ∧ name.getLast?.any isBlank = false ∧
      ∃ text ∈ texts, name ⊆ text := by
  obtain ⟨hmem, hne⟩ := List.mem_filter.1 h
  obtain ⟨text, htext, rfl⟩ := List.mem_map.1 hmem
  obtain ⟨lead, trail, -, -, hsplit, hhead, hlast⟩ := Cleaning.exists_strip text
  refine ⟨of_decide_eq_true hne, hhead, hlast, text, htext, fun c hc => ?_⟩
  rw [hsplit]
  exact List.mem_append_right _ (List.mem_append_left _ hc)

theorem trimmed?_of_mem_stripped {texts : List Text} {name : Text} (h : name ∈ stripped texts) :
    trimmed? name = some name := by
  obtain ⟨hne, hhead, hlast, -⟩ := of_mem_stripped h
  rw [trimmed?_eq, strip_of_ends hhead hlast, if_neg hne]

/-- The names in a text are what is left of its parts between commas. -/
theorem firsts_names (text : Text) : Firsts (stripped (split ',' text)) (names text) := by
  rw [names, filterMap_trimmed?]
  exact firsts_distinct _

end Text

namespace Value

open Text

/-- A text as a value. -/
def ofText (text : Text) : Value :=
  .scalar (.text text)

/-- The value as plain text, unless it is missing. -/
def shown? : Value → Option Text
  | scalar .null => none
  | value => some value.display

/-- A value without too many digits can be read. -/
theorem trimmed_eq {value : Value} (h : value.isShort = true) :
    value.trimmed = .ok (value.shown?.bind trimmed?) := by
  have hread : value.read = .ok value.display := if_pos h
  unfold trimmed
  split
  · rfl
  · rename_i hvalue
    rw [shown?, hread]
    · rfl
    · exact hvalue

/-- Values without too many digits can be read one by one. -/
theorem mapM_trimmed {values : List Value} (h : (list values).isShort = true) :
    values.mapM trimmed = .ok (values.map fun value => value.shown?.bind trimmed?) := by
  rw [isShort] at h
  induction values with
  | nil => rfl
  | cons value values ih =>
      rw [itemsShort, Bool.and_eq_true] at h
      rw [List.mapM_cons, trimmed_eq h.1, ih h.2]
      rfl

/-- The names in a list of values are what is left of the texts of its values. -/
theorem names_values {values : List Value} (h : (list values).isShort = true) :
    (list values).names = .ok (distinct (stripped (values.filterMap shown?))) := by
  rw [names, mapM_trimmed h, ← filterMap_trimmed?, List.filterMap_filterMap]
  show Except.ok (distinct ((values.map _).filterMap id)) = _
  rw [List.filterMap_map, Function.id_comp]

/-- Distinct names without whitespace at their ends are read again from a list. -/
theorem names_again {texts ids : List Text} (h : Firsts (stripped texts) ids) :
    (list (ids.map ofText)).names = .ok ids :=
  names_list (fun id hid => trimmed?_of_mem_stripped ((h.mem id).1 hid)) h.nodup

/-- Lists of names are canonical. The names in a text are its parts between commas, without the
whitespace at their ends and without the blank ones, each once in the order of the first
occurrences; they are read again from themselves, with commas between them or as a list. The names
in a list of values, which may hold anything but integers of too many digits, come from the texts
of the values in the same way and are read again as a list. They are distinct and not empty, and
have no whitespace at their ends. -/
theorem names_canonical (text : Text) :
    (∃ items ids, items ≠ [] ∧ join [','] items = text ∧ (∀ item ∈ items, ',' ∉ item) ∧
      (ofText text).names = .ok ids ∧ Firsts (stripped items) ids ∧
      (ofText (join [','] ids)).names = .ok ids ∧ (list (ids.map ofText)).names = .ok ids) ∧
    ∀ values, (list values).isShort = true → ∃ ids, (list values).names = .ok ids ∧
      Firsts (stripped (values.filterMap shown?)) ids ∧
      (list (ids.map ofText)).names = .ok ids ∧ ids.Nodup ∧
      ∀ id ∈ ids, id ≠ [] ∧ id.head?.any isBlank = false ∧ id.getLast?.any isBlank = false := by
  constructor
  · have hfirsts := firsts_names text
    have hagain : Text.names (join [','] (Text.names text)) = Text.names text := by
      refine names_join (fun id hid => ?_) hfirsts.nodup
      have hmem := (hfirsts.mem id).1 hid
      obtain ⟨-, -, -, item, hitem, hsubset⟩ := of_mem_stripped hmem
      exact ⟨trimmed?_of_mem_stripped hmem,
        fun hcomma => notMem_of_mem_split hitem (hsubset hcomma)⟩
    exact ⟨split ',' text, Text.names text, split_ne_nil ',' text, join_split ',' text,
      fun item hitem => notMem_of_mem_split hitem, names_text text, hfirsts,
      (names_text _).trans (congrArg Except.ok hagain), names_again hfirsts⟩
  · intro values hshort
    have hfirsts := firsts_distinct (stripped (values.filterMap shown?))
    refine ⟨_, names_values hshort, hfirsts, names_again hfirsts, hfirsts.nodup, fun id hid => ?_⟩
    obtain ⟨hne, hhead, hlast, -⟩ := of_mem_stripped ((hfirsts.mem id).1 hid)
    exact ⟨hne, hhead, hlast⟩

/-- A number and a flag are the same names as their texts, a missing and a blank value are none,
and a list in the list is one name, as is a text with a comma. -/
theorem names_canonical_mixed :
    let values : List Value :=
      [ofText " 1\n", .scalar (.int 1), .scalar .null, .scalar (.bool true), ofText "True",
        .list [ofText "x", .scalar .null], ofText "a,b", ofText "\t"]
    let ids : List Text := ["1", "True", "['x', None]", "a,b"]
    (list values).isShort = true ∧ (list values).names = .ok ids ∧
      (list (ids.map ofText)).names = .ok ids := by
  intro values ids
  have hone : Scalar.isShort (.int 1) = true := Scalar.isShort_int (by decide)
  have hshort : (list values).isShort = true := by
    simp only [values, ofText, isShort, itemsShort, hone]
    rfl
  have hread : (list values).names = .ok ids := (names_values hshort).trans (by rfl)
  obtain ⟨ids', hids, -, hagain, -⟩ := (names_canonical "").2 values hshort
  obtain rfl := Except.ok.inj (hread.symm.trans hids)
  exact ⟨hshort, hread, hagain⟩

end Value

end SdkUpgrade
