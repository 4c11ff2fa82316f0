import SdkUpgrade.Rule.Basic

/-!
# Catalogs of rules

A catalog holds rules with distinct identifiers in the order of application: by their order value,
and by identifier among equal ones. It can be reduced by leaving rules out.
-/

namespace SdkUpgrade

/-- Why a catalog, or a rule for one, was refused. -/
inductive CatalogError where
  /-- The rule is listed as depending on context, but its replacement is fixed. -/
  | fixedReplacement (id : Text)
  /-- These identifiers belong to more than one rule. -/
  | duplicateIds (ids : List Text)
  /-- The catalog has no rule with this identifier. -/
  | unknownId (id : Text)
  /-- The catalog has no rules with these identifiers. -/
  | unknownIds (ids : List Text)
  deriving DecidableEq, Repr

/-- The wording of a refusal. -/
def CatalogError.message : CatalogError → Text
  | fixedReplacement id =>
      "Rule `" ++ id ++ "` is context-sensitive but has a fixed replacement."
  | duplicateIds ids => "Duplicate rule id(s): " ++ Text.enumeration ids ++ "."
  | unknownId id => "Unknown rule id: " ++ id ++ "."
  | unknownIds ids => "Unknown rule id(s): " ++ Text.enumeration ids ++ "."

/-- A rule may be listed as depending on context only if its replacement does. -/
def Rule.check (rule : Rule) : Except CatalogError Rule :=
  if rule.contextual ∧ rule.kind.isFixed then .error (.fixedReplacement rule.id) else .ok rule

/-- The order of application: by order value, then by identifier. -/
def Rule.precedes {κ : Type} (a b : Rule κ) : Bool :=
  decide (a.order < b.order) || (decide (a.order = b.order) && Text.le a.id b.id)

/-- The texts that occur more than once in a list, each once, in the order of their code
points. -/
def repeatedTexts (texts : List Text) : List Text :=
  Text.sorted (Text.distinct (texts.filter fun text => decide (1 < texts.count text)))

/-- A text is repeated exactly if it occurs more than once. -/
theorem mem_repeatedTexts {text : Text} {texts : List Text} :
    text ∈ repeatedTexts texts ↔ 1 < texts.count text := by
  rw [repeatedTexts, (Text.sorted_perm _).mem_iff, Text.mem_distinct]
  simp only [List.mem_filter, decide_eq_true_eq, and_iff_right_iff_imp]
  intro h
  exact List.count_pos_iff.1 (by omega)

/-- Without repeated texts, no two texts of a list are equal. -/
theorem nodup_of_repeatedTexts_eq_nil {texts : List Text} (h : repeatedTexts texts = []) :
    texts.Nodup := by
  rw [List.nodup_iff_count]
  intro text
  have hnot : text ∉ repeatedTexts texts := by simp [h]
  rw [mem_repeatedTexts] at hnot
  omega

/-- Rules in the order of application. No two of them have the same identifier. -/
structure Catalog (κ : Type := Kind) where
  rules : List (Rule κ)
  distinct : (rules.map Rule.id).Nodup
  deriving DecidableEq, Repr

namespace Catalog

/-- The usual catalog: the rule of every kind. -/
def standard : Catalog :=
  ⟨Kind.all.map Rule.ofKind, by decide⟩

variable {κ : Type}

/-- The identifiers of the rules, in order. -/
def ids (catalog : Catalog κ) : List Text :=
  catalog.rules.map Rule.id

/-- The number of rules. -/
def size (catalog : Catalog κ) : Nat :=
  catalog.rules.length

/-- Sorting rules keeps their identifiers distinct. -/
theorem nodup_ids_mergeSort {rules : List (Rule κ)} (h : (rules.map Rule.id).Nodup) :
    ((rules.mergeSort Rule.precedes).map Rule.id).Nodup :=
  ((List.mergeSort_perm rules Rule.precedes).map Rule.id).symm.nodup h

/-- The catalog of the given rules, if their identifiers are distinct. -/
def ofRules (rules : List (Rule κ)) : Except CatalogError (Catalog κ) :=
  match h : repeatedTexts (rules.map Rule.id) with
  | [] =>
      .ok ⟨rules.mergeSort Rule.precedes, nodup_ids_mergeSort (nodup_of_repeatedTexts_eq_nil h)⟩
  | ids => .error (.duplicateIds ids)

/-- The rule with the given identifier. -/
def get (catalog : Catalog κ) (id : Text) : Except CatalogError (Rule κ) :=
  match catalog.rules.find? fun rule => decide (rule.id = id) with
  | some rule => .ok rule
  | none => .error (.unknownId id)

/-- The catalog without the rules of the given identifiers, all of which it must have. -/
def without (catalog : Catalog κ) (ids : List Text) : Except CatalogError (Catalog κ) :=
  match Text.unknownAmong catalog.ids ids with
  | [] =>
      .ok ⟨catalog.rules.filter fun rule => decide (rule.id ∉ ids),
        catalog.distinct.sublist (List.filter_sublist.map _)⟩
  | unknown => .error (.unknownIds unknown)

/-- The text after every rule was applied once, in order. -/
def applyAll [Recogniser κ] (catalog : Catalog κ) (radius : Option Nat) (text : Text) : Text :=
  catalog.rules.foldl (fun text rule => rule.apply radius text) text

end Catalog

end SdkUpgrade
