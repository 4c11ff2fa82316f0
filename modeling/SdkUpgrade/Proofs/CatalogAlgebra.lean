import Mathlib.Data.List.Nodup
import SdkUpgrade.Proofs.Catalogs

/-!
# The algebra of catalogs

A catalog is determined by its set of rules. Building one sorts the rules, and since identifiers
are distinct there is only one way to do so: `Catalog.ofRules_perm`. Reducing one only asks which
identifiers are given: reductions one after the other are one reduction by all identifiers,
provided that none is given to both, and so they commute (`Catalog.without_without_iff`).

Both facts rest on the same one about texts: the distinct members of a list in the order of their
code points depend on the members alone (`Text.sorted_distinct_congr`).
`Catalog.builds_and_reduces` puts the laws together.
-/

namespace SdkUpgrade

/-- One text comes before another one in the order of code points. -/
def Text.Before (a b : Text) : Prop :=
  Text.le a b = true ∧ a ≠ b

/-- One rule is applied before another one: its order value is smaller, or the order values are
equal and its identifier comes first. -/
def Rule.Before {κ : Type} (a b : Rule κ) : Prop :=
  a.order < b.order ∨ a.order = b.order ∧ Text.Before a.id b.id

/-- Sorted lists of the same elements are equal if elements that precede each other share a key
and the keys are distinct. -/
theorem eq_of_perm_of_keys {α κ : Type} {precedes : α → α → Prop} {key : α → κ}
    {first second : List α} (hkey : ∀ a b, precedes a b → precedes b a → key a = key b)
    (hnodup : (second.map key).Nodup) (hfirst : first.Pairwise precedes)
    (hsecond : second.Pairwise precedes) (h : first.Perm second) : first = second := by
  refine h.eq_of_pairwise (fun a b ha hb hab hba => ?_) hfirst hsecond
  exact List.inj_on_of_nodup_map hnodup (h.mem_iff.1 ha) hb (hkey a b hab hba)

namespace Text

/-- Distinct texts that are sorted ascend. -/
theorem ascending_sorted_distinct (texts : List Text) :
    (sorted (distinct texts)).Pairwise Before := by
  have hnodup : (sorted (distinct texts)).Nodup :=
    (sorted_perm _).nodup_iff.2 (nodup_distinct texts)
  exact (pairwise_sorted _).and hnodup

/-- The distinct members of a list in their order depend on the members alone. -/
theorem sorted_distinct_congr {texts other : List Text}
    (h : ∀ text, text ∈ texts ↔ text ∈ other) :
    sorted (distinct texts) = sorted (distinct other) := by
  have hperm : (distinct texts).Perm (distinct other) := by
    rw [List.perm_ext_iff_of_nodup (nodup_distinct _) (nodup_distinct _)]
    intro text
    rw [mem_distinct, mem_distinct, h]
  refine List.Perm.eq_of_pairwise (fun a b _ _ => le_antisymm) (pairwise_sorted _)
    (pairwise_sorted _) ?_
  exact (sorted_perm _).trans (hperm.trans (sorted_perm _).symm)

/-- Which texts are unknown depends on the members of the list alone. -/
theorem unknownAmong_congr {known texts other : List Text}
    (h : ∀ text, text ∈ texts ↔ text ∈ other) :
    unknownAmong known texts = unknownAmong known other := by
  refine sorted_distinct_congr fun text => ?_
  rw [List.mem_filter, List.mem_filter, h]

end Text

/-- Repeated texts do not depend on the order of the list. -/
theorem repeatedTexts_perm {texts other : List Text} (h : texts.Perm other) :
    repeatedTexts texts = repeatedTexts other := by
  refine Text.sorted_distinct_congr fun text => ?_
  rw [List.mem_filter, List.mem_filter, h.mem_iff, h.count_eq]

/-- Of two rules with different identifiers, the one that precedes is applied before the other. -/
theorem Rule.before_of_precedes {κ : Type} {a b : Rule κ} (h : a.precedes b = true)
    (hne : a.id ≠ b.id) : a.Before b := by
  simp only [precedes, Bool.or_eq_true, Bool.and_eq_true, decide_eq_true_eq] at h
  rcases h with hlt | ⟨heq, hid⟩
  · exact .inl hlt
  · exact .inr ⟨heq, hid, hne⟩

/-- A rule that is applied before another one precedes it. -/
theorem Rule.Before.precedes {κ : Type} {a b : Rule κ} (h : a.Before b) :
    a.precedes b = true := by
  simp only [Rule.precedes, Bool.or_eq_true, Bool.and_eq_true, decide_eq_true_eq]
  rcases h with hlt | ⟨heq, hid, -⟩
  · exact .inl hlt
  · exact .inr ⟨heq, hid⟩

namespace Catalog

variable {κ : Type} {catalog reduced : Catalog κ} {rules other : List (Rule κ)}
  {ids first second : List Text} {id : Text} {rule : Rule κ}

/-- The rules stand in the order of application. -/
def Ascending (catalog : Catalog κ) : Prop :=
  catalog.rules.Pairwise Rule.Before

/-- Catalogs with the same rules are equal. -/
theorem eq_of_rules {catalog other : Catalog κ} (h : catalog.rules = other.rules) :
    catalog = other := by
  cases catalog
  cases other
  cases h
  rfl

/-! ## Building -/

/-- A catalog is built exactly from rules with distinct identifiers, and it holds them sorted. -/
theorem ofRules_eq_ok_iff : ofRules rules = .ok catalog ↔
    (rules.map Rule.id).Nodup ∧ catalog.rules = rules.mergeSort Rule.precedes := by
  constructor
  · intro h
    unfold ofRules at h
    split at h
    · rename_i hnone
      obtain rfl := Except.ok.inj h
      exact ⟨nodup_of_repeatedTexts_eq_nil hnone, rfl⟩
    · exact absurd h (by simp)
  · rintro ⟨hnodup, hrules⟩
    obtain ⟨built, hbuilt, hsorted⟩ := exists_ofRules hnodup
    rw [hbuilt, eq_of_rules (hsorted.trans hrules.symm)]

/-- Rules are refused exactly if they repeat an identifier, and then the
repeated ones are named. -/
theorem ofRules_eq_error_iff {error : CatalogError} : ofRules rules = .error error ↔
    ¬ (rules.map Rule.id).Nodup ∧
      error = .duplicateIds (repeatedTexts (rules.map Rule.id)) := by
  rw [← repeatedTexts_eq_nil_iff]
  unfold ofRules
  split
  · rename_i hnone
    simp [hnone]
  · rename_i hsome
    rw [Except.error.injEq, eq_comm]
    exact ⟨fun h => ⟨hsome, h⟩, And.right⟩

/-- Rules with distinct identifiers are sorted in one way only. -/
theorem mergeSort_eq_of_perm (hnodup : (rules.map Rule.id).Nodup) (h : other.Perm rules) :
    other.mergeSort Rule.precedes = rules.mergeSort Rule.precedes := by
  have hperm : (other.mergeSort Rule.precedes).Perm (rules.mergeSort Rule.precedes) :=
    (List.mergeSort_perm other _).trans (h.trans (List.mergeSort_perm rules _).symm)
  exact eq_of_perm_of_keys (fun _ _ hab hba => Rule.id_eq_of_precedes hab hba)
    (((List.mergeSort_perm rules _).map Rule.id).nodup_iff.2 hnodup)
    (Rule.pairwise_precedes other) (Rule.pairwise_precedes rules) hperm

/-- What is built from rules does not depend on the order in which they are given. -/
theorem ofRules_perm (h : other.Perm rules) : ofRules other = ofRules rules := by
  have hids := h.map Rule.id
  cases hr : ofRules rules with
  | ok catalog =>
      obtain ⟨hnodup, hrules⟩ := ofRules_eq_ok_iff.1 hr
      refine ofRules_eq_ok_iff.2 ⟨hids.nodup_iff.2 hnodup, ?_⟩
      rw [hrules, mergeSort_eq_of_perm hnodup h]
  | error error =>
      obtain ⟨hrepeat, rfl⟩ := ofRules_eq_error_iff.1 hr
      refine ofRules_eq_error_iff.2 ⟨fun hnodup => hrepeat (hids.nodup_iff.1 hnodup), ?_⟩
      rw [repeatedTexts_perm hids]

/-- The rules of a catalog that was built ascend. -/
theorem ascending_of_ofRules (h : ofRules rules = .ok catalog) : catalog.Ascending := by
  have hids : catalog.rules.Pairwise fun a b => a.id ≠ b.id :=
    List.pairwise_map.1 catalog.distinct
  obtain ⟨-, hrules⟩ := ofRules_eq_ok_iff.1 h
  have hsorted : catalog.rules.Pairwise fun a b => a.precedes b = true := by
    rw [hrules]
    exact Rule.pairwise_precedes rules
  exact (hsorted.and hids).imp fun ⟨hab, hne⟩ => Rule.before_of_precedes hab hne

/-- A catalog whose rules ascend is the one that is built from them. -/
theorem ofRules_rules (h : catalog.Ascending) : ofRules catalog.rules = .ok catalog := by
  refine ofRules_eq_ok_iff.2 ⟨catalog.distinct, ?_⟩
  exact (List.mergeSort_of_pairwise (h.imp Rule.Before.precedes)).symm

/-! ## Looking up -/

/-- A rule is found under an identifier exactly if the catalog has it and it carries it. -/
theorem get_eq_ok_iff : catalog.get id = .ok rule ↔ rule ∈ catalog.rules ∧ rule.id = id := by
  unfold get
  split
  · rename_i found hfound
    have hmem := List.mem_of_find?_eq_some hfound
    have hid : found.id = id := by simpa using List.find?_some hfound
    rw [Except.ok.injEq]
    constructor
    · rintro rfl
      exact ⟨hmem, hid⟩
    · rintro ⟨hrule, heq⟩
      exact List.inj_on_of_nodup_map catalog.distinct hmem hrule (hid.trans heq.symm)
  · rename_i hnone
    simp only [reduceCtorEq, false_iff]
    rintro ⟨hrule, heq⟩
    simpa [heq] using List.find?_eq_none.1 hnone rule hrule

/-- Something is found under an identifier exactly if the catalog has it. -/
theorem exists_get_iff : (∃ rule, catalog.get id = .ok rule) ↔ id ∈ catalog.ids := by
  simp only [get_eq_ok_iff, ids, List.mem_map]

/-! ## Reducing -/

/-- The identifiers that remain in a reduced catalog. -/
theorem mem_ids_of_without (h : catalog.without ids = .ok reduced) :
    id ∈ reduced.ids ↔ id ∈ catalog.ids ∧ id ∉ ids := by
  obtain ⟨-, hrules⟩ := without_eq_ok_iff.1 h
  simp only [Catalog.ids, hrules, List.mem_map, List.mem_filter, decide_eq_true_eq]
  constructor
  · rintro ⟨rule, ⟨hmem, hnot⟩, rfl⟩
    exact ⟨⟨rule, hmem, rfl⟩, hnot⟩
  · rintro ⟨⟨rule, hmem, rfl⟩, hnot⟩
    exact ⟨rule, ⟨hmem, hnot⟩, rfl⟩

/-- Under an identifier that remains, the rule is found that the whole catalog has. -/
theorem get_of_without (h : catalog.without ids = .ok reduced) (hid : id ∈ reduced.ids) :
    reduced.get id = catalog.get id := by
  obtain ⟨rule, hrule⟩ := exists_get_iff.2 hid
  obtain ⟨hmem, rfl⟩ := get_eq_ok_iff.1 hrule
  rw [(without_eq_ok_iff.1 h).2, List.mem_filter] at hmem
  rw [hrule, get_eq_ok_iff.2 ⟨hmem.1, rfl⟩]

/-- A reduction depends on the set of the given identifiers alone. -/
theorem without_congr (h : ∀ id, id ∈ first ↔ id ∈ second) :
    catalog.without first = catalog.without second := by
  have hunknown := @Text.unknownAmong_congr catalog.ids first second h
  cases hs : catalog.without second with
  | ok reduced =>
      obtain ⟨hknown, hrules⟩ := without_eq_ok_iff.1 hs
      refine without_eq_ok_iff.2 ⟨fun id hid => hknown id ((h id).1 hid), ?_⟩
      simp only [hrules, h]
  | error error =>
      unfold without at hs ⊢
      rw [hunknown]
      split at hs
      · exact absurd hs (by simp)
      · exact hs

/-- Leaving out the rules of two lists of identifiers leaves out those of both lists together. -/
theorem filter_filter_ids (rules : List (Rule κ)) (first second : List Text) :
    (rules.filter fun rule => decide (rule.id ∉ first)).filter
        (fun rule => decide (rule.id ∉ second)) =
      rules.filter fun rule => decide (rule.id ∉ first ++ second) := by
  rw [List.filter_filter]
  refine List.filter_congr fun rule _ => ?_
  rw [← Bool.decide_and, decide_eq_decide, List.mem_append, not_or, and_comm]

/-- Two reductions one after the other are one by all identifiers, none of which is given
twice. -/
theorem without_without_iff : (catalog.without first >>= fun part => part.without second) =
    .ok reduced ↔ catalog.without (first ++ second) = .ok reduced ∧
      ∀ id ∈ second, id ∉ first := by
  rw [bind_eq_ok_iff]
  constructor
  · rintro ⟨part, hfirst, hsecond⟩
    obtain ⟨hknown, hpart⟩ := without_eq_ok_iff.1 hfirst
    obtain ⟨hleft, hreduced⟩ := without_eq_ok_iff.1 hsecond
    have hremain : ∀ id ∈ second, id ∈ catalog.ids ∧ id ∉ first := fun id hid =>
      (mem_ids_of_without hfirst).1 (hleft id hid)
    refine ⟨without_eq_ok_iff.2 ⟨?_, ?_⟩, fun id hid => (hremain id hid).2⟩
    · intro id hid
      rcases List.mem_append.1 hid with hid | hid
      · exact hknown id hid
      · exact (hremain id hid).1
    · rw [hreduced, hpart, filter_filter_ids]
  · rintro ⟨hall, hapart⟩
    obtain ⟨hknown, hreduced⟩ := without_eq_ok_iff.1 hall
    obtain ⟨part, hfirst⟩ : ∃ part, catalog.without first = .ok part :=
      exists_without fun id hid => hknown id (List.mem_append_left _ hid)
    refine ⟨part, hfirst, without_eq_ok_iff.2 ⟨fun id hid => ?_, ?_⟩⟩
    · exact (mem_ids_of_without hfirst).2
        ⟨hknown id (List.mem_append_right _ hid), hapart id hid⟩
    · rw [hreduced, (without_eq_ok_iff.1 hfirst).2, filter_filter_ids]

/-- Reductions one after the other may change places. -/
theorem without_comm
    (h : (catalog.without first >>= fun part => part.without second) = .ok reduced) :
    (catalog.without second >>= fun part => part.without first) = .ok reduced := by
  obtain ⟨hall, hapart⟩ := without_without_iff.1 h
  refine without_without_iff.2 ⟨?_, fun id hid hmem => hapart id hmem hid⟩
  rw [← hall]
  refine without_congr fun id => ?_
  rw [List.mem_append, List.mem_append, or_comm]

/-- A catalog cannot be reduced exactly if an identifier is given that it does not have. -/
theorem exists_without_error_iff :
    (∃ error, catalog.without ids = .error error) ↔ ∃ id ∈ ids, id ∉ catalog.ids := by
  have hknown : (∃ reduced, catalog.without ids = .ok reduced) ↔ ∀ id ∈ ids, id ∈ catalog.ids :=
    ⟨fun ⟨_, h⟩ => (without_eq_ok_iff.1 h).1, exists_without⟩
  rw [exists_error_iff, hknown]
  simp

/-- A reduced catalog is the one that is built from the rules that remain. -/
theorem ofRules_of_without (hascending : catalog.Ascending)
    (h : catalog.without ids = .ok reduced) :
    ofRules (catalog.rules.filter fun rule => decide (rule.id ∉ ids)) = .ok reduced := by
  obtain ⟨-, hrules⟩ := without_eq_ok_iff.1 h
  rw [← hrules]
  refine ofRules_rules ?_
  rw [Ascending, hrules]
  exact hascending.filter _

/-! ## The laws together -/

/-- Whatever the changes of the rules are, rules are refused exactly if two of them share an
identifier, and then the identifiers that are shared are named, each once and in their order.
Otherwise the catalog holds the rules in the order of application, whatever the order in which
they were given. A catalog can be reduced exactly by identifiers that it has; what is found in
the reduced catalog is what the whole one has under the identifiers that remain; reductions one
after the other are one reduction and commute; and repetitions among the given identifiers and
their order do not matter. -/
theorem builds_and_reduces (κ : Type) :
    (∀ rules : List (Rule κ),
      ((∃ error, ofRules rules = .error error) ↔ ¬ (rules.map Rule.id).Nodup) ∧
      (∀ error, ofRules rules = .error error → ∃ ids : List Text,
        error.message = "Duplicate rule id(s): " ++ Text.join ", " ids ++ "." ∧
        ids.Pairwise Text.Before ∧ ∀ id, id ∈ ids ↔ 1 < (rules.map Rule.id).count id) ∧
      (∀ catalog, ofRules rules = .ok catalog →
        catalog.rules.Perm rules ∧ catalog.rules.Pairwise Rule.Before) ∧
      ∀ other : List (Rule κ), other.Perm rules → ofRules other = ofRules rules) ∧
    ∀ (catalog : Catalog κ) (first second : List Text),
      ((∃ error, catalog.without first = .error error) ↔ ∃ id ∈ first, id ∉ catalog.ids) ∧
      (∀ reduced, catalog.without first = .ok reduced →
        (catalog.Ascending →
          ofRules (catalog.rules.filter fun rule => decide (rule.id ∉ first)) = .ok reduced) ∧
        ∀ id, ((∃ rule, reduced.get id = .ok rule) ↔ id ∈ catalog.ids ∧ id ∉ first) ∧
          ∀ rule, reduced.get id = .ok rule → catalog.get id = .ok rule) ∧
      (∀ reduced, (catalog.without first >>= fun part => part.without second) = .ok reduced →
        catalog.without (first ++ second) = .ok reduced ∧
          (catalog.without second >>= fun part => part.without first) = .ok reduced) ∧
      ∀ given : List Text, (∀ id, id ∈ given ↔ id ∈ first) →
        catalog.without given = catalog.without first := by
  refine ⟨fun rules => ⟨?_, ?_, ?_, fun other => ofRules_perm⟩,
    fun catalog first second => ⟨exists_without_error_iff, ?_, ?_, fun given => without_congr⟩⟩
  · simp only [ofRules_eq_error_iff, exists_and_left, exists_eq, and_true]
  · intro error h
    obtain ⟨-, rfl⟩ := ofRules_eq_error_iff.1 h
    exact ⟨repeatedTexts (rules.map Rule.id), rfl, Text.ascending_sorted_distinct _,
      fun id => mem_repeatedTexts⟩
  · intro catalog h
    refine ⟨?_, ascending_of_ofRules h⟩
    rw [(ofRules_eq_ok_iff.1 h).2]
    exact List.mergeSort_perm rules _
  · intro reduced h
    refine ⟨fun hascending => ofRules_of_without hascending h,
      fun id => ⟨?_, fun rule hrule => ?_⟩⟩
    · rw [exists_get_iff, mem_ids_of_without h]
    · rw [← get_of_without h (exists_get_iff.1 ⟨rule, hrule⟩)]
      exact hrule
  · exact fun reduced h => ⟨(without_without_iff.1 h).1, without_comm h⟩

/-- A rule that is given twice is refused. The usual catalog is reduced in two ways with the same
result, though one identifier is given twice. -/
theorem builds_and_reduces_standard :
    let first : List Text := ["prompt.messages"]
    let second : List Text := ["parameter.engine", "parameter.engine"]
    (∃ error, ofRules [.ofKind .engineKey, .ofKind .tokenLimit, .ofKind .engineKey] =
        .error error) ∧
      ∃ reduced, (standard.without first >>= fun part => part.without second) = .ok reduced ∧
        standard.without (first ++ second) = .ok reduced ∧
        (standard.without second >>= fun part => part.without first) = .ok reduced := by
  intro first second
  obtain ⟨hbuild, hreduce⟩ := builds_and_reduces Kind
  have hknown : ∀ id ∈ first ++ second, id ∈ standard.ids := by decide
  obtain ⟨reduced, hall⟩ := exists_without hknown
  have htwice : (standard.without first >>= fun part => part.without second) = .ok reduced :=
    without_without_iff.2 ⟨hall, by decide⟩
  exact ⟨(hbuild _).1.2 (by decide), reduced, htwice,
    (hreduce standard first second).2.2.1 reduced htwice⟩

end Catalog

end SdkUpgrade
