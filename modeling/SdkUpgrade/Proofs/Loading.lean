import Mathlib.Logic.Function.Basic
import SdkUpgrade.Proofs.Configs
import SdkUpgrade.Proofs.Spellings

/-!
# Two loaders for one configuration

A configuration is loaded from the variables of the environment or from settings by key, and each
way has readers of its own. Read `Environment.config_iff_of_holds` first: given the same texts,
the two accept and return the same, unless a flag is blank. `loaders_agree` adds what happens to a
blank flag. `Config.reads_back` says that a valid configuration, written out as texts or given by
its values, is loaded as it was.
-/

namespace SdkUpgrade

open Text

/-- The settings that are flags. -/
def Field.isFlag : Field → Bool
  | .collapseWhitespace | .trace => true
  | .contextRadius | .disabledRules => false

theorem Field.isFlag_iff {field : Field} :
    field.isFlag = true ↔ field = .collapseWhitespace ∨ field = .trace := by
  cases field <;> decide

/-- The variables of the fields are the given texts. There may be other variables. -/
def Environment.Holds (env : Environment) (given : Field → Option Text) : Prop :=
  ∀ field, env.lookup field.envName = given field

/-- The settings are the given texts under the keys of their fields, and nothing else. -/
structure Settings.Holds (settings : Settings) (given : Field → Option Text) : Prop where
  keys : settings.strangeKeys = []
  values : ∀ field, settings.get? field = (given field).map fun text => .scalar (.text text)

variable {given : Field → Option Text} {env : Environment} {settings : Settings} {label : Text}

/-! ## Single settings -/

namespace Settings

theorem checkKeys_eq_ok (h : settings.strangeKeys = []) (label : Text) :
    settings.checkKeys label = .ok () := by
  rw [checkKeys, h]

@[simp] theorem readable_ok {α : Type} (value : α) :
    readable (Except.ok value : Except DisplayError α) = .ok value :=
  rfl

namespace Holds

theorem radius_eq (h : settings.Holds given) :
    settings.radius label =
      match (given .contextRadius).bind trimmed? with
      | none => .ok none
      | some word =>
          match integer? word with
          | none => .error (.badRadius label)
          | some n => if n < 0 then .error (.badRadius label) else .ok (some n) := by
  unfold Settings.radius
  rw [h.values]
  cases given .contextRadius with
  | none => rfl
  | some text =>
      simp only [Option.map_some, Option.bind_some, Value.trimmed_text, readable_ok]
      cases trimmed? text with
      | none => rfl
      | some word =>
          simp only [bind, Except.bind]
          cases integer? word <;> rfl

theorem flag_eq (h : settings.Holds given) (field : Field) :
    settings.flag label field =
      match given field with
      | none => .ok false
      | some text =>
          match flag? text with
          | none => .error (.badFlag label field)
          | some b => .ok b := by
  unfold Settings.flag
  rw [h.values]
  cases given field with
  | none => rfl
  | some text =>
      simp only [Option.map_some, Value.flag_text, readable_ok]
      cases flag? text <;> rfl

theorem exists_rules (h : settings.Holds given) (label : Text) :
    ∃ rules, settings.rules label = .ok rules ∧
      readable rules.names = .ok (((given .disabledRules).map names).getD []) := by
  unfold Settings.rules
  rw [h.values]
  cases given .disabledRules with
  | none => exact ⟨_, rfl, rfl⟩
  | some text => exact ⟨_, rfl, congrArg Settings.readable (Value.names_text text)⟩

/-- A radius that is given as a text is read or refused as such. -/
theorem radius_cases (h : settings.Holds given) (label : Text) :
    (∃ radius, settings.radius label = .ok radius) ∨
      settings.radius label = .error (.badRadius label) := by
  rw [h.radius_eq]
  split
  · exact .inl ⟨_, rfl⟩
  · split
    · exact .inr rfl
    · split
      · exact .inr rfl
      · exact .inl ⟨_, rfl⟩

/-- A flag that is given as a text is read or refused as such. -/
theorem flag_cases (h : settings.Holds given) (label : Text) (field : Field) :
    (∃ flag, settings.flag label field = .ok flag) ∨
      settings.flag label field = .error (.badFlag label field) := by
  rw [h.flag_eq]
  split
  · exact .inl ⟨_, rfl⟩
  · split
    · exact .inr rfl
    · exact .inl ⟨_, rfl⟩

/-- A blank flag is refused. -/
theorem flag_blank (h : settings.Holds given) (label : Text) {field : Field} {text : Text}
    (htext : given field = some text) (hblank : IsGap text) :
    settings.flag label field = .error (.badFlag label field) := by
  have hnone : flag? text = none := by
    rw [flag?, trimmed?_eq_none_iff.2 hblank, Option.bind_none]
  rw [h.flag_eq, htext]
  simp only [hnone]

/-- Settings with a blank flag are refused, for the first setting that cannot be read. -/
theorem config_blank (h : settings.Holds given) (label : Text) {field : Field} {text : Text}
    (hflag : field.isFlag = true) (htext : given field = some text) (hblank : IsGap text) :
    settings.config label = .error (.badRadius label) ∨
      ∃ flag, settings.config label = .error (.badFlag label flag) := by
  have hbad := h.flag_blank label htext hblank
  obtain ⟨rules, hrules, hnames⟩ := h.exists_rules label
  unfold Settings.config
  rw [checkKeys_eq_ok h.keys, hrules]
  rcases h.radius_cases label with ⟨radius, hradius⟩ | hradius
  · right
    rw [hradius]
    rcases h.flag_cases label .collapseWhitespace with ⟨collapse, hcollapse⟩ | hcollapse
    · rw [hcollapse]
      -- The first flag could be read, so the second one is blank.
      rcases Field.isFlag_iff.1 hflag with rfl | rfl
      · exact absurd (hcollapse.symm.trans hbad) (by simp)
      · exact ⟨.trace, by simp only [bind, Except.bind, hnames, hbad]⟩
    · rw [hcollapse]
      exact ⟨.collapseWhitespace, rfl⟩
  · left
    rw [hradius]
    rfl

end Holds

end Settings

namespace Environment

theorem Holds.get? (h : env.Holds given) (field : Field) :
    env.get? field = (given field).bind trimmed? := by
  rw [Environment.get?, h field]

theorem Holds.rules (h : env.Holds given) :
    env.rules = ((given .disabledRules).map names).getD [] := by
  unfold Environment.rules
  rw [h .disabledRules]
  cases given .disabledRules <;> rfl

/-- The variables of some of the fields, as they are given. -/
def ofTexts (given : Field → Option Text) (fields : List Field) : Environment :=
  fields.filterMap fun field => (given field).map fun text => (field.envName, text)

theorem lookup_ofTexts (given : Field → Option Text) (fields : List Field) (field : Field) :
    (ofTexts given fields).lookup field.envName =
      if field ∈ fields then given field else none := by
  induction fields with
  | nil => rfl
  | cons first fields ih =>
      have hname : (field.envName == first.envName) = decide (field = first) := by
        cases field <;> cases first <;> decide
      unfold ofTexts at ih ⊢
      rw [List.filterMap_cons]
      by_cases hfield : field = first
      · subst hfield
        cases hgiven : given field with
        | none => simp [ih, hgiven]
        | some text => simp
      · cases hgiven : given first with
        | none => simp [ih, hfield]
        | some text => simp [List.lookup_cons, hname, ih, hfield]

/-- Any texts may be given as variables. -/
theorem exists_holds (given : Field → Option Text) : ∃ env : Environment, env.Holds given := by
  refine ⟨ofTexts given Field.all, fun field => ?_⟩
  rw [lookup_ofTexts, if_pos]
  cases field <;> decide

/-- Environments with the same texts give the same configuration, a blank flag or radius being as
good as none. -/
theorem config_congr {other : Environment} (hget : ∀ field, env.get? field = other.get? field)
    (hrules : env.rules = other.rules) : env.config = other.config := by
  unfold Environment.config Environment.radius Environment.flag
  simp only [hget, hrules]

/-- Given the same texts, the two loaders read the same radius. -/
theorem radius_iff_of_holds (henv : env.Holds given) (hsettings : settings.Holds given)
    (label : Text) (radius : Option Int) :
    env.radius = .ok radius ↔ settings.radius label = .ok radius := by
  unfold Environment.radius
  rw [henv.get?, hsettings.radius_eq]
  cases (given .contextRadius).bind trimmed? with
  | none => rfl
  | some word =>
      simp only
      cases integer? word with
      | none => simp
      | some n => by_cases hn : n < 0 <;> simp [hn]

/-- Given the same texts, the two loaders read the same flag if it is not blank. -/
theorem flag_iff_of_holds (henv : env.Holds given) (hsettings : settings.Holds given)
    {field : Field} (hblank : ∀ text, given field = some text → ¬ IsGap text) (label : Text)
    (flag : Bool) :
    env.flag field = .ok flag ↔ settings.flag label field = .ok flag := by
  unfold Environment.flag
  rw [henv.get?, hsettings.flag_eq]
  cases htext : given field with
  | none => rfl
  | some text =>
      cases hword : trimmed? text with
      | none => exact absurd (trimmed?_eq_none_iff.1 hword) (hblank text htext)
      | some word =>
          have hflag : flag? text = flagOfWord? word := by
            rw [flag?, hword, Option.bind_some]
          simp only [Option.bind_some, hword, hflag]
          cases flagOfWord? word <;> simp

/-- Given the same texts, none of them a blank flag, the two loaders accept the same and give the
same configuration. -/
theorem config_iff_of_holds (henv : env.Holds given) (hsettings : settings.Holds given)
    (hblank : ∀ field text, field.isFlag = true → given field = some text → ¬ IsGap text)
    (label : Text) (config : Config) :
    env.config = .ok config ↔ settings.config label = .ok config := by
  have hrules : (∃ rules, settings.rules label = .ok rules ∧
      Settings.readable rules.names = .ok config.disabled) ↔ env.rules = config.disabled := by
    obtain ⟨rules, hrules, hnames⟩ := hsettings.exists_rules label
    rw [henv.rules, hrules]
    simp [hnames]
  have hcollapse := flag_iff_of_holds henv hsettings
    (fun text => hblank .collapseWhitespace text rfl) label config.collapse
  have htrace := flag_iff_of_holds henv hsettings (fun text => hblank .trace text rfl) label
    config.trace
  rw [config_eq_ok_iff, Settings.config_eq_ok_iff, hrules,
    radius_iff_of_holds henv hsettings label, hcollapse, htrace,
    and_iff_right (Settings.checkKeys_eq_ok hsettings.keys label)]

end Environment

/-! ## Both loaders -/

/-- Given the same texts, none of them a blank flag, the environment is accepted exactly if the
settings are, and both give the same configuration. A blank flag is refused in the settings, and
in the environment it is as good as missing. -/
theorem loaders_agree (henv : env.Holds given) (hsettings : settings.Holds given) (label : Text) :
    ((∀ field text, field.isFlag = true → given field = some text → ¬ IsGap text) →
      ∀ config, env.config = .ok config ↔ settings.config label = .ok config) ∧
    ∀ field text, field.isFlag = true → given field = some text → IsGap text →
      (settings.config label = .error (.badRadius label) ∨
        ∃ flag, settings.config label = .error (.badFlag label flag)) ∧
      ∀ other : Environment, other.Holds (Function.update given field none) →
        env.config = other.config := by
  refine ⟨fun hblank => Environment.config_iff_of_holds henv hsettings hblank label, ?_⟩
  intro field text hflag htext hblank
  refine ⟨hsettings.config_blank label hflag htext hblank, fun other hother => ?_⟩
  refine Environment.config_congr (fun asked => ?_) ?_
  · rw [henv.get?, hother.get?]
    by_cases hasked : asked = field
    · rw [hasked, Function.update_self, htext, Option.bind_some, Option.bind_none]
      exact trimmed?_eq_none_iff.2 hblank
    · rw [Function.update_of_ne hasked]
  · have hrules : Field.disabledRules ≠ field := by
      rintro rfl
      exact absurd hflag (by decide)
    rw [henv.rules, hother.rules, Function.update_of_ne hrules]

/-- A radius with blanks around it and a flag in capitals are read alike from variables and from
settings. With a blank flag the settings are refused, and the variables are read as if it was not
there. -/
theorem loaders_agree_spaced :
    let env (flag : Text) : Environment :=
      [("HOME", "/root"), ("MODERNIZER_TRACE", flag), ("MODERNIZER_CONTEXT_RADIUS", " 7\t")]
    let settings (flag : Text) : Settings :=
      [(.text "context_radius", .scalar (.text " 7\t")), (.text "trace", .scalar (.text flag))]
    let config : Config := { radius := some 7, trace := true }
    (env "ON").config = .ok config ∧ (settings "ON").config "YAML" = .ok config ∧
      ((settings " ").config "YAML" = .error (.badRadius "YAML") ∨
        ∃ flag, (settings " ").config "YAML" = .error (.badFlag "YAML" flag)) ∧
      (env " ").config = Environment.config [("MODERNIZER_CONTEXT_RADIUS", " 7\t")] := by
  intro env settings config
  have henv : ∀ flag, (env flag).Holds fun field => (env flag).lookup field.envName :=
    fun _ _ => rfl
  have hsettings : ∀ flag,
      (settings flag).Holds fun field => (env flag).lookup field.envName := by
    intro flag
    refine ⟨rfl, fun field => ?_⟩
    cases field <;> rfl
  have hread : (env "ON").config = .ok config := by
    refine Environment.config_eq_ok_iff.2 ⟨rfl, rfl, rfl, rfl, ⟨?_, by simp [config]⟩⟩
    rintro radius ⟨⟩
    decide
  have hblank : ∀ (field : Field) text, field.isFlag = true →
      (env "ON").lookup field.envName = some text → ¬ IsGap text := by
    intro field text hflag htext hgap
    rcases Field.isFlag_iff.1 hflag with rfl | rfl
    · have hnone : (env "ON").lookup (Field.envName .collapseWhitespace) = none := rfl
      exact absurd (hnone.symm.trans htext) (by simp)
    · obtain rfl := Option.some.inj htext
      exact absurd (hgap 'O' (by simp)) (by decide)
  obtain ⟨hrefused, hmissing⟩ :=
    (loaders_agree (henv " ") (hsettings " ") "YAML").2 .trace " " rfl
    rfl (isGap_singleton (by decide))
  refine ⟨hread, ((loaders_agree (henv "ON") (hsettings "ON") "YAML").1 hblank config).1 hread,
    hrefused, hmissing _ fun field => ?_⟩
  cases field <;> rfl

/-! ## Configurations that are written out -/

namespace Config

/-- A configuration as texts: the radius in digits, the flags as words, and the disabled rules
with commas between them. -/
def spelling (config : Config) : Field → Option Text
  | .contextRadius => config.radius.map ofInt
  | .collapseWhitespace => some (Scalar.display (.bool config.collapse))
  | .disabledRules => some (join [','] config.disabled)
  | .trace => some (Scalar.display (.bool config.trace))

/-- The texts of a configuration, with more text before and behind each of them. -/
def spelledBetween (config : Config) (lead trail : Field → Text) (field : Field) : Option Text :=
  (config.spelling field).map fun text => lead field ++ text ++ trail field

end Config

/-- The settings are the values of a configuration, and nothing else. A radius that there is not
may be left out or be null. -/
structure Settings.HoldsValues (settings : Settings) (config : Config) : Prop where
  keys : settings.strangeKeys = []
  radius : settings.get? .contextRadius = config.radius.map (fun n => .scalar (.int n)) ∨
    config.radius = none ∧ settings.get? .contextRadius = some (.scalar .null)
  collapse : settings.get? .collapseWhitespace = some (.scalar (.bool config.collapse))
  disabled : settings.get? .disabledRules =
    some (.list (config.disabled.map fun id => .scalar (.text id)))
  trace : settings.get? .trace = some (.scalar (.bool config.trace))

/-- The identifiers of the usual rules have no whitespace and no commas. -/
theorem Catalog.ids_plain : ∀ id ∈ Catalog.standard.ids, id ≠ [] ∧
    id.all (fun c => !isBlank c && decide (c ≠ ',')) = true := by
  decide

/-- Identifiers of usual rules are read as names. -/
theorem Catalog.name_of_mem_ids {id : Text} (h : id ∈ Catalog.standard.ids) :
    trimmed? id = some id ∧ ',' ∉ id := by
  obtain ⟨hne, hall⟩ := ids_plain id h
  have hplain : ∀ c ∈ id, isBlank c = false ∧ c ≠ ',' := by
    intro c hc
    have hboth := List.all_eq_true.1 hall c hc
    simpa using hboth
  refine ⟨trimmed?_eq_some_self hne fun c hc => (hplain c hc).1, fun hcomma => ?_⟩
  exact (hplain ',' hcomma).2 rfl

/-- A list of texts is read as the names that these texts are. -/
theorem Value.names_list {ids : List Text} (hids : ∀ id ∈ ids, trimmed? id = some id)
    (hdistinct : ids.Nodup) :
    (Value.list (ids.map fun id => .scalar (.text id))).names = .ok ids := by
  have hitems : (ids.map fun id => Value.scalar (.text id)).mapM Value.trimmed =
      .ok (ids.map trimmed?) := by
    clear hids hdistinct
    induction ids with
    | nil => rfl
    | cons id ids ih =>
        rw [List.map_cons, List.mapM_cons, ih]
        rfl
  have hnames : (ids.map trimmed?).filterMap id = ids := by
    rw [List.filterMap_map, Function.id_comp, List.filterMap_congr hids, List.filterMap_some]
  rw [Value.names, hitems]
  show Except.ok (distinct ((ids.map trimmed?).filterMap id)) = _
  rw [hnames, distinct_eq_self hdistinct]

theorem Settings.HoldsValues.config_eq {config : Config} (h : settings.HoldsValues config)
    (hvalid : config.Valid) (hdistinct : config.disabled.Nodup) (label : Text) :
    settings.config label = .ok config := by
  have hradius : settings.radius label = .ok config.radius := by
    unfold Settings.radius
    rcases h.radius with hget | ⟨hnone, hget⟩
    · rw [hget]
      cases hsome : config.radius with
      | none => rfl
      | some n => exact if_neg (Int.not_lt.2 (hvalid.radius n hsome))
    · rw [hget, hnone]
      rfl
  have hnames : readable (Value.list (config.disabled.map fun id => .scalar (.text id))).names =
      .ok config.disabled := by
    rw [Value.names_list (fun id hid => (Catalog.name_of_mem_ids (hvalid.disabled id hid)).1)
      hdistinct]
    rfl
  refine config_eq_ok_iff.2 ⟨checkKeys_eq_ok h.keys label, hradius, ?_, ⟨_, ?_, hnames⟩,
    ?_, hvalid⟩
  · rw [flag, h.collapse]
    rfl
  · rw [rules, h.disabled]
  · rw [flag, h.trace]
    rfl

/-- The word for a flag, with or without blanks around it, is read as that flag. -/
theorem Text.flagOfWord?_display (b : Bool) :
    trimmed? (Scalar.display (.bool b)) = some (Scalar.display (.bool b)) ∧
      flagOfWord? (Scalar.display (.bool b)) = some b := by
  cases b <;> exact ⟨rfl, by decide⟩

namespace Config

variable {config : Config} {lead trail : Field → Text}

theorem bind_trimmed?_spelledBetween (hlead : ∀ field, IsGap (lead field))
    (htrail : ∀ field, IsGap (trail field)) (field : Field) :
    (config.spelledBetween lead trail field).bind trimmed? =
      (config.spelling field).bind trimmed? := by
  unfold spelledBetween
  cases config.spelling field with
  | none => rfl
  | some text => exact trimmed?_around (hlead field) (htrail field) text

/-- No flag is written as a blank text. -/
theorem not_isGap_spelledBetween (hlead : ∀ field, IsGap (lead field))
    (htrail : ∀ field, IsGap (trail field)) {field : Field} {text : Text}
    (hflag : field.isFlag = true) (htext : config.spelledBetween lead trail field = some text) :
    ¬ IsGap text := by
  intro hgap
  have hnone : (config.spelledBetween lead trail field).bind trimmed? = _ :=
    bind_trimmed?_spelledBetween hlead htrail field
  rw [htext, Option.bind_some, trimmed?_eq_none_iff.2 hgap] at hnone
  rcases Field.isFlag_iff.1 hflag with rfl | rfl
  · exact absurd (hnone.trans (flagOfWord?_display config.collapse).1) (by simp)
  · exact absurd (hnone.trans (flagOfWord?_display config.trace).1) (by simp)

/-- The variables of a configuration that is written out are read as that configuration. -/
theorem config_of_spelledBetween (hvalid : config.Valid)
    (hshort : ∀ radius, config.radius = some radius → radius.natAbs < Nat.pow 10 digitLimit)
    (hdistinct : config.disabled.Nodup) (hlead : ∀ field, IsGap (lead field))
    (htrail : ∀ field, IsGap (trail field))
    (henv : env.Holds (config.spelledBetween lead trail)) :
    env.config = .ok config := by
  have hget : ∀ field, env.get? field = (config.spelling field).bind trimmed? := fun field =>
    (henv.get? field).trans (bind_trimmed?_spelledBetween hlead htrail field)
  have hradius : env.radius = .ok config.radius := by
    unfold Environment.radius
    rw [hget]
    cases hsome : config.radius with
    | none => simp [spelling, hsome]
    | some n =>
        have hpos := hvalid.radius n hsome
        simp only [spelling, hsome, Option.map_some, Option.bind_some, trimmed?_ofInt hpos,
          integer?_ofInt hpos (hshort n hsome), if_neg (Int.not_lt.2 hpos)]
  have hflag : ∀ field flag, config.spelling field = some (Scalar.display (.bool flag)) →
      env.flag field = .ok flag := by
    intro field flag hspelling
    obtain ⟨hword, hread⟩ := flagOfWord?_display flag
    unfold Environment.flag
    rw [hget, hspelling, Option.bind_some, hword]
    simp only [hread]
  have hrules : env.rules = config.disabled := by
    rw [henv.rules]
    show names (lead .disabledRules ++ join [','] config.disabled ++ trail .disabledRules) = _
    rw [names_around (hlead _) (htrail _)]
    exact names_join (fun id hid => Catalog.name_of_mem_ids (hvalid.disabled id hid)) hdistinct
  exact Environment.config_eq_ok_iff.2 ⟨hradius, hflag _ _ rfl, hrules, hflag _ _ rfl, hvalid⟩

/-- A valid configuration is read back from its texts, whatever whitespace stands around them:
from variables as well as from settings. It is read back from its values, too. The radius may have
as many digits as are read, and no rule may be disabled twice. -/
theorem reads_back (hvalid : config.Valid)
    (hshort : ∀ radius, config.radius = some radius → radius.natAbs < Nat.pow 10 digitLimit)
    (hdistinct : config.disabled.Nodup) (hlead : ∀ field, IsGap (lead field))
    (htrail : ∀ field, IsGap (trail field)) (label : Text) :
    (∀ env : Environment, env.Holds (config.spelledBetween lead trail) →
      env.config = .ok config) ∧
    (∀ settings : Settings, settings.Holds (config.spelledBetween lead trail) →
      settings.config label = .ok config) ∧
    ∀ settings : Settings, settings.HoldsValues config → settings.config label = .ok config := by
  have hread : ∀ env : Environment, env.Holds (config.spelledBetween lead trail) →
      env.config = .ok config := fun env henv =>
    config_of_spelledBetween hvalid hshort hdistinct hlead htrail henv
  refine ⟨hread, fun settings hsettings => ?_, fun settings hsettings => ?_⟩
  · -- Some environment holds the same texts, and none of them is a blank flag.
    obtain ⟨env, henv⟩ := Environment.exists_holds (config.spelledBetween lead trail)
    exact (Environment.config_iff_of_holds henv hsettings
      (fun _ _ => not_isGap_spelledBetween hlead htrail) label config).1 (hread env henv)
  · exact hsettings.config_eq hvalid hdistinct label

/-- A configuration with a radius, a flag and two disabled rules is read back from variables and
from settings with whitespace around every text, and from its values. -/
theorem reads_back_padded :
    let config : Config :=
      { radius := some 12, collapse := true, disabled := ["prompt.messages", "access-path.dot"] }
    Environment.config [("MODERNIZER_TRACE", " False\n"), ("MODERNIZER_CONTEXT_RADIUS", " 12\n"),
        ("MODERNIZER_COLLAPSE_WHITESPACE", " True\n"),
        ("MODERNIZER_DISABLED_RULES", " prompt.messages,access-path.dot\n")] = .ok config ∧
      Settings.config "YAML" [(.text "trace", .scalar (.text " False\n")),
        (.text "context_radius", .scalar (.text " 12\n")),
        (.text "collapse_whitespace", .scalar (.text " True\n")),
        (.text "disabled_rules", .scalar (.text " prompt.messages,access-path.dot\n"))] =
          .ok config ∧
      Settings.config "YAML" [(.text "trace", .scalar (.bool false)),
        (.text "context_radius", .scalar (.int 12)),
        (.text "collapse_whitespace", .scalar (.bool true)),
        (.text "disabled_rules",
          .list [.scalar (.text "prompt.messages"), .scalar (.text "access-path.dot")])] =
          .ok config := by
  intro config
  have hvalid : config.Valid := by
    refine ⟨?_, by decide⟩
    rintro radius ⟨⟩
    decide
  have hshort : ∀ radius, config.radius = some radius →
      radius.natAbs < Nat.pow 10 digitLimit := by
    rintro radius ⟨⟩
    have hpow : ∀ limit, 12 < limit → 12 < Nat.pow 10 limit := fun limit h =>
      Nat.lt_trans h (Nat.lt_pow_self (by decide))
    exact hpow digitLimit (by decide)
  obtain ⟨hvariables, htexts, hvalues⟩ := reads_back hvalid hshort (by decide)
    (fun _ => isGap_singleton (by decide : isBlank ' ' = true))
    (fun _ => isGap_singleton (by decide : isBlank '\n' = true)) "YAML"
  refine ⟨hvariables _ fun field => ?_, htexts _ ⟨rfl, fun field => ?_⟩, hvalues _ ?_⟩
  · cases field <;> rfl
  · cases field <;> rfl
  · exact ⟨rfl, .inl rfl, rfl, rfl, rfl⟩

end Config

end SdkUpgrade
