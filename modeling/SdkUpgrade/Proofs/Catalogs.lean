import SdkUpgrade.Catalog

/-!
# How catalogs come about

A catalog comes from a list of rules or from another catalog. `Catalog.exists_ofRules` says that
rules with distinct identifiers are accepted and sorted; the order of application is total and
transitive, and it ties only rules of the same identifier. `Catalog.without_eq_ok_iff` says which
rules can be left out of a catalog and what remains.
-/

namespace SdkUpgrade

/-- A computation in two parts succeeds exactly if both parts do. -/
theorem bind_eq_ok_iff {ε α β : Type} {first : Except ε α} {rest : α → Except ε β} {result : β} :
    first >>= rest = .ok result ↔ ∃ value, first = .ok value ∧ rest value = .ok result := by
  cases first <;> simp [bind, Except.bind]

/-- A computation fails exactly if it has no result. -/
theorem exists_error_iff {ε α : Type} {result : Except ε α} :
    (∃ error, result = .error error) ↔ ¬ ∃ value, result = .ok value := by
  cases result <;> simp

/-- The identifier of a rule tells its kind. -/
theorem Kind.id_inj {kind other : Kind} (h : kind.id = other.id) : kind = other := by
  have hall : ∀ kind ∈ Kind.all, ∀ other ∈ Kind.all, kind.id = other.id → kind = other := by
    decide
  have hmem : ∀ kind : Kind, kind ∈ Kind.all := by
    intro kind
    cases kind <;> decide
  exact hall kind (hmem kind) other (hmem other) h

namespace Rule

variable {κ : Type}

/-- Of two rules, one comes first. -/
theorem precedes_total (a b : Rule κ) : (a.precedes b || b.precedes a) = true := by
  have hle := Text.le_total a.id b.id
  simp only [precedes, Bool.or_eq_true, Bool.and_eq_true, decide_eq_true_eq] at hle ⊢
  rcases Int.lt_trichotomy a.order b.order with hlt | heq | hgt
  · exact .inl (.inl hlt)
  · exact hle.imp (fun hid => .inr ⟨heq, hid⟩) fun hid => .inr ⟨heq.symm, hid⟩
  · exact .inr (.inl hgt)

/-- The order of application is transitive. -/
theorem precedes_trans {a b c : Rule κ} (hab : a.precedes b = true) (hbc : b.precedes c = true) :
    a.precedes c = true := by
  simp only [precedes, Bool.or_eq_true, Bool.and_eq_true, decide_eq_true_eq] at hab hbc ⊢
  rcases hab with hab | ⟨hab, hid⟩
  · rcases hbc with hbc | ⟨hbc, -⟩
    · exact .inl (by omega)
    · exact .inl (by omega)
  · rcases hbc with hbc | ⟨hbc, hid'⟩
    · exact .inl (by omega)
    · exact .inr ⟨by omega, Text.le_trans hid hid'⟩

/-- Rules that come before each other have the same identifier. -/
theorem id_eq_of_precedes {a b : Rule κ} (hab : a.precedes b = true) (hba : b.precedes a = true) :
    a.id = b.id := by
  simp only [precedes, Bool.or_eq_true, Bool.and_eq_true, decide_eq_true_eq] at hab hba
  rcases hab with hab | ⟨hab, hid⟩
  · omega
  · rcases hba with hba | ⟨-, hid'⟩
    · omega
    · exact Text.le_antisymm hid hid'

/-- Sorted rules stand in the order of application. -/
theorem pairwise_precedes (rules : List (Rule κ)) :
    (rules.mergeSort precedes).Pairwise fun a b => a.precedes b = true := by
  have htrans : ∀ a b c : Rule κ, a.precedes b = true → b.precedes c = true →
      a.precedes c = true :=
    fun _ _ _ => precedes_trans
  exact List.pairwise_mergeSort htrans precedes_total rules

end Rule

/-- A list repeats no text exactly if its texts are distinct. -/
theorem repeatedTexts_eq_nil_iff {texts : List Text} :
    repeatedTexts texts = [] ↔ texts.Nodup := by
  refine ⟨nodup_of_repeatedTexts_eq_nil, fun h => ?_⟩
  rw [List.eq_nil_iff_forall_not_mem]
  intro text hmem
  have hone := List.nodup_iff_count.1 h text
  have hmore := mem_repeatedTexts.1 hmem
  omega

/-- All texts are known exactly if none is unknown. -/
theorem Text.unknownAmong_eq_nil_iff {known texts : List Text} :
    unknownAmong known texts = [] ↔ ∀ text ∈ texts, text ∈ known := by
  rw [List.eq_nil_iff_forall_not_mem]
  simp [unknownAmong, (sorted_perm _).mem_iff, mem_distinct]

namespace Catalog

variable {κ : Type}

/-- Rules with distinct identifiers make up a catalog, in the order of application. -/
theorem exists_ofRules {rules : List (Rule κ)} (h : (rules.map Rule.id).Nodup) :
    ∃ catalog, ofRules rules = .ok catalog ∧ catalog.rules = rules.mergeSort Rule.precedes := by
  have hnone : repeatedTexts (rules.map Rule.id) = [] := repeatedTexts_eq_nil_iff.2 h
  unfold ofRules
  split
  · exact ⟨_, rfl, rfl⟩
  · rename_i hsome
    exact absurd hnone hsome

/-- A catalog can be reduced exactly by rules that it has, and keeps the others in order. -/
theorem without_eq_ok_iff {catalog reduced : Catalog κ} {ids : List Text} :
    catalog.without ids = .ok reduced ↔ (∀ id ∈ ids, id ∈ catalog.ids) ∧
      reduced.rules = catalog.rules.filter fun rule => decide (rule.id ∉ ids) := by
  rw [← Text.unknownAmong_eq_nil_iff]
  unfold without
  split
  · rename_i hknown
    rw [Except.ok.injEq]
    constructor
    · rintro rfl
      exact ⟨hknown, rfl⟩
    · rintro ⟨-, hrules⟩
      obtain ⟨rules, _⟩ := reduced
      cases hrules
      rfl
  · rename_i hunknown
    exact ⟨fun h => absurd h (by simp), fun h => absurd h.1 hunknown⟩

/-- Rules that a catalog has can be left out of it. -/
theorem exists_without {catalog : Catalog κ} {ids : List Text}
    (h : ∀ id ∈ ids, id ∈ catalog.ids) :
    ∃ reduced, catalog.without ids = .ok reduced :=
  ⟨⟨catalog.rules.filter fun rule => decide (rule.id ∉ ids),
    catalog.distinct.sublist (List.filter_sublist.map _)⟩, without_eq_ok_iff.2 ⟨h, rfl⟩⟩

end Catalog

end SdkUpgrade
