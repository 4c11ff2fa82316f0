import SdkUpgrade.Config.File
import SdkUpgrade.Proofs.Catalogs

/-!
# Valid configurations

A configuration is checked before it is used, and an engine makes checks of its own when it is
built. The two accept the same configurations: `Config.validate_eq_ok_iff` and
`Config.exists_engine_iff`. What a loader accepts is said part by part in
`Settings.config_eq_ok_iff` and `Environment.config_eq_ok_iff`, so every configuration that was
loaded is valid. One that is overridden is checked again; `Config.builds_exactly` puts this
together for overrides one after the other.
-/

namespace SdkUpgrade

/-- An integer is accepted as a radius exactly if it is a natural number. -/
theorem radiusOfInt?_eq_ok_iff {given : Option Int} {radius : Option Nat} :
    radiusOfInt? given = .ok radius ↔ radius.map Int.ofNat = given := by
  cases given with
  | none => simp [radiusOfInt?, eq_comm]
  | some n =>
      rw [radiusOfInt?]
      by_cases hnegative : n < 0
      · simp only [if_pos hnegative, reduceCtorEq, Option.map_eq_some_iff, false_iff, not_exists,
          not_and]
        rintro m - rfl
        exact absurd hnegative (Int.not_lt.2 (Int.natCast_nonneg m))
      · have hcast : Int.ofNat n.toNat = n := Int.toNat_of_nonneg (Int.not_lt.1 hnegative)
        rw [if_neg hnegative, Except.ok.injEq, Option.map_eq_some_iff]
        constructor
        · rintro rfl
          exact ⟨n.toNat, rfl, hcast⟩
        · rintro ⟨m, rfl, rfl⟩
          rfl

namespace Config

/-- The radius is not negative, and every disabled rule is a rule of the usual catalog. -/
structure Valid (config : Config) : Prop where
  radius : ∀ radius, config.radius = some radius → 0 ≤ radius
  disabled : ∀ id ∈ config.disabled, id ∈ Catalog.standard.ids

/-- The usual configuration is valid. -/
theorem valid_usual : Valid {} where
  radius := by simp
  disabled := by simp

variable {config other : Config}

/-- Exactly the valid configurations pass the check, and they pass it unchanged. -/
theorem validate_eq_ok_iff : config.validate = .ok other ↔ config.Valid ∧ config = other := by
  unfold validate
  by_cases hnegative : config.radius.any (· < 0) = true
  · rw [if_pos hnegative]
    refine ⟨fun h => absurd h (by simp), fun h => ?_⟩
    obtain ⟨radius, hradius, hlt⟩ := (Option.any_eq_true _ _).1 hnegative
    have hle := h.1.radius radius hradius
    have hlt := of_decide_eq_true hlt
    omega
  · rw [if_neg hnegative]
    have hradius : ∀ radius, config.radius = some radius → 0 ≤ radius := by
      intro radius hsome
      refine Int.not_lt.1 fun hlt => hnegative ?_
      exact (Option.any_eq_true _ _).2 ⟨radius, hsome, decide_eq_true hlt⟩
    split
    · rename_i hknown
      rw [Except.ok.injEq]
      have hvalid : config.Valid := ⟨hradius, Text.unknownAmong_eq_nil_iff.1 hknown⟩
      exact (and_iff_right hvalid).symm
    · rename_i hunknown
      refine ⟨fun h => absurd h (by simp), fun h => ?_⟩
      exact absurd (Text.unknownAmong_eq_nil_iff.2 h.1.disabled) hunknown

/-- The engine of a configuration has the usual rules but the disabled ones, its radius, and its
handling of whitespace. -/
theorem engine_eq_ok_iff {engine : Engine} :
    config.engine = .ok engine ↔
      Catalog.standard.without config.disabled = .ok engine.catalog ∧
        engine.radius.map Int.ofNat = config.radius ∧ engine.collapse = config.collapse := by
  rw [← radiusOfInt?_eq_ok_iff]
  obtain ⟨catalog, radius, collapse⟩ := engine
  unfold Config.engine
  cases hcatalog : Catalog.standard.without config.disabled with
  | error error => simp
  | ok reduced =>
      cases hradius : radiusOfInt? config.radius with
      | error error => simp
      | ok given => simp [eq_comm]

/-- A valid configuration gives the engine with its settings: all usual rules but the disabled
ones, its radius, and its handling of whitespace. -/
theorem Valid.exists_engine (h : config.Valid) :
    ∃ catalog, config.engine = .ok ⟨catalog, config.radius.map Int.toNat, config.collapse⟩ ∧
      catalog.rules =
        Catalog.standard.rules.filter fun rule => decide (rule.id ∉ config.disabled) := by
  obtain ⟨catalog, hcatalog⟩ := Catalog.exists_without h.disabled
  have hradius : (config.radius.map Int.toNat).map Int.ofNat = config.radius := by
    cases hsome : config.radius with
    | none => rfl
    | some radius => exact congrArg some (Int.toNat_of_nonneg (h.radius radius hsome))
  exact ⟨catalog, engine_eq_ok_iff.2 ⟨hcatalog, hradius, rfl⟩,
    (Catalog.without_eq_ok_iff.1 hcatalog).2⟩

/-- Exactly the valid configurations give an engine. -/
theorem exists_engine_iff : (∃ engine, config.engine = .ok engine) ↔ config.Valid := by
  constructor
  · rintro ⟨engine, h⟩
    obtain ⟨hcatalog, hradius, -⟩ := engine_eq_ok_iff.1 h
    refine ⟨fun radius hsome => ?_, (Catalog.without_eq_ok_iff.1 hcatalog).1⟩
    obtain ⟨given, -, rfl⟩ := Option.map_eq_some_iff.1 (hradius.trans hsome)
    exact Int.natCast_nonneg given
  · intro h
    obtain ⟨catalog, hengine, -⟩ := h.exists_engine
    exact ⟨_, hengine⟩

/-- The rules of an engine are the usual ones, in their order, but for the disabled ones. -/
theorem ids_of_engine {engine : Engine} (h : config.engine = .ok engine) :
    engine.catalog.ids =
      Catalog.standard.ids.filter fun id => decide (id ∉ config.disabled) := by
  have hrules := (Catalog.without_eq_ok_iff.1 (engine_eq_ok_iff.1 h).1).2
  rw [Catalog.ids, hrules, Catalog.ids, List.filter_map]
  rfl

end Config

/-! ## What the loaders accept -/

namespace Settings

variable {label : Text} {settings : Settings} {config : Config}

/-- Settings are accepted if they have no other keys, every setting can be read, and the
configuration is valid. -/
theorem config_eq_ok_iff :
    settings.config label = .ok config ↔
      settings.checkKeys label = .ok () ∧ settings.radius label = .ok config.radius ∧
        settings.flag label .collapseWhitespace = .ok config.collapse ∧
        (∃ rules, settings.rules label = .ok rules ∧
          readable rules.names = .ok config.disabled) ∧
        settings.flag label .trace = .ok config.trace ∧ config.Valid := by
  unfold Settings.config
  simp only [bind_eq_ok_iff, Config.validate_eq_ok_iff]
  constructor
  · rintro ⟨⟨⟩, hkeys, rules, hrules, _, hradius, _, hcollapse, _, hnames, _, htrace, hvalid, rfl⟩
    exact ⟨hkeys, hradius, hcollapse, ⟨rules, hrules, hnames⟩, htrace, hvalid⟩
  · rintro ⟨hkeys, hradius, hcollapse, ⟨rules, hrules, hnames⟩, htrace, hvalid⟩
    exact ⟨(), hkeys, rules, hrules, _, hradius, _, hcollapse, _, hnames, _, htrace, hvalid, rfl⟩

/-- Settings that are accepted give a valid configuration. -/
theorem valid_of_config (h : settings.config label = .ok config) : config.Valid := by
  obtain ⟨-, -, -, -, -, hvalid⟩ := config_eq_ok_iff.1 h
  exact hvalid

end Settings

namespace Environment

variable {env : Environment} {config : Config}

/-- Variables are accepted if each of them can be read and the configuration is valid. -/
theorem config_eq_ok_iff :
    env.config = .ok config ↔
      env.radius = .ok config.radius ∧ env.flag .collapseWhitespace = .ok config.collapse ∧
        env.rules = config.disabled ∧ env.flag .trace = .ok config.trace ∧ config.Valid := by
  unfold Environment.config
  simp only [bind_eq_ok_iff, Config.validate_eq_ok_iff]
  constructor
  · rintro ⟨_, hradius, _, hcollapse, _, htrace, hvalid, rfl⟩
    exact ⟨hradius, hcollapse, rfl, htrace, hvalid⟩
  · rintro ⟨hradius, hcollapse, hrules, htrace, hvalid⟩
    obtain ⟨radius, collapse, disabled, trace⟩ := config
    obtain rfl : env.rules = disabled := hrules
    exact ⟨_, hradius, _, hcollapse, _, htrace, hvalid, rfl⟩

/-- Variables that are accepted give a valid configuration. -/
theorem valid_of_config (h : env.config = .ok config) : config.Valid := by
  obtain ⟨-, -, -, -, hvalid⟩ := config_eq_ok_iff.1 h
  exact hvalid

end Environment

/-- A configuration that is loaded from a file is valid. -/
theorem FileTree.valid_of_config [Yaml.Parser] {files : FileTree} {path : Path} {config : Config}
    (h : files.config path = .ok config) : config.Valid := by
  unfold FileTree.config at h
  split at h
  · exact absurd h (by simp)
  · split at h
    · exact absurd h (by simp)
    · split at h
      · rename_i hsettings
        obtain rfl := Except.ok.inj h
        exact Settings.valid_of_config hsettings
      · exact absurd h (by simp)

/-! ## Validity and engines -/

namespace Config

/-- A configuration that was loaded, or that came from one by overriding settings one
time after the other. -/
inductive Obtained : Config → Prop where
  | environment {env : Environment} {config : Config} (h : env.config = .ok config) :
    Obtained config
  | settings {label : Text} {settings : Settings} {config : Config}
      (h : settings.config label = .ok config) : Obtained config
  | overridden {config next : Config} {overrides : Overrides} (h : Obtained config)
      (hnext : config.withOverrides overrides = .ok next) : Obtained next

/-- Overriding settings keeps to valid configurations. -/
theorem Obtained.valid {config : Config} (h : Obtained config) : config.Valid := by
  cases h with
  | environment h => exact Environment.valid_of_config h
  | settings h => exact Settings.valid_of_config h
  | overridden h hnext =>
      obtain ⟨hvalid, rfl⟩ := validate_eq_ok_iff.1 hnext
      exact hvalid

/-- The check of a configuration fails exactly if no engine can be built from it. An engine
that is built has the usual rules in their order without the disabled ones, and the settings of
the configuration. So every configuration that was loaded, and then overridden any number of
times, gives an engine. -/
theorem builds_exactly (config : Config) :
    ((∃ error, config.validate = .error error) ↔ ∃ error, config.engine = .error error) ∧
      (∀ engine, config.engine = .ok engine →
        engine.catalog.ids =
            Catalog.standard.ids.filter (fun id => decide (id ∉ config.disabled)) ∧
          engine.radius.map Int.ofNat = config.radius ∧ engine.collapse = config.collapse) ∧
      (Obtained config → ∃ engine, config.engine = .ok engine) := by
  refine ⟨?_, ?_, ?_⟩
  · rw [exists_error_iff, exists_error_iff, exists_engine_iff]
    refine not_congr ⟨?_, fun h => ⟨config, validate_eq_ok_iff.2 ⟨h, rfl⟩⟩⟩
    rintro ⟨checked, h⟩
    exact (validate_eq_ok_iff.1 h).1
  · intro engine h
    exact ⟨ids_of_engine h, (engine_eq_ok_iff.1 h).2⟩
  · intro h
    exact exists_engine_iff.2 h.valid

/-- A configuration that was read from an empty environment and overridden twice gives an
engine. -/
theorem builds_exactly_overridden :
    let config : Config := { radius := some 5, disabled := ["prompt.messages"] }
    Obtained config ∧ ∃ engine, config.engine = .ok engine := by
  intro config
  have hfirst : Obtained {} :=
    .environment (show Environment.config [] = .ok {} from
      Environment.config_eq_ok_iff.2 ⟨rfl, rfl, rfl, rfl, valid_usual⟩)
  have hradius : ∀ radius : Int, some 5 = some radius → 0 ≤ radius := by
    rintro radius ⟨⟩
    decide
  have hsecond : Obtained { radius := some 5 } :=
    hfirst.overridden (show withOverrides {} { radius := some 5 } = .ok _ from
      validate_eq_ok_iff.2 ⟨⟨hradius, by simp [override]⟩, rfl⟩)
  have hthird : Obtained config :=
    hsecond.overridden (show withOverrides _ { disabled := some ["prompt.messages"] } = .ok _ from
      validate_eq_ok_iff.2 ⟨⟨hradius, by decide⟩, rfl⟩)
  exact ⟨hthird, (builds_exactly config).2.2 hthird⟩

end Config

end SdkUpgrade
