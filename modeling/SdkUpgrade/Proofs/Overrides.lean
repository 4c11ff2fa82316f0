import SdkUpgrade.Proofs.Configs

/-!
# Overrides one after the other

Overrides give new values to some settings and leave the others as they are. Two of them, one
after the other, come down to one: `Overrides.followedBy` puts them together, and
`Config.overrides_compose` says that the configuration, or the error, is the same. The check
between the two does not matter once it was passed, since the second check sees all settings
again. The same holds of any number of requests, refused ones among them: the configuration in use
in the end is the first one with the accepted requests put over it, and it is enough to check each
request over the first configuration (`Config.adoptAll_eq_override`).

Settings are compared by their values, so that the laws are stated once for all of them:
`Config.get_override` and `Overrides.get?_followedBy`.
-/

namespace SdkUpgrade

/-- The value of a setting. -/
def Config.get (config : Config) : Field → Value
  | .contextRadius => .scalar ((config.radius.map Scalar.int).getD .null)
  | .collapseWhitespace => .scalar (.bool config.collapse)
  | .disabledRules => .list (config.disabled.map fun id => .scalar (.text id))
  | .trace => .scalar (.bool config.trace)

namespace Overrides

/-- The new value of a setting, if it is given one. -/
def get? (overrides : Overrides) : Field → Option Value
  | .contextRadius => overrides.radius.map fun n => .scalar (.int n)
  | .collapseWhitespace => overrides.collapse.map fun b => .scalar (.bool b)
  | .disabledRules =>
      overrides.disabled.map fun ids => .list (ids.map fun id => .scalar (.text id))
  | .trace => overrides.trace.map fun b => .scalar (.bool b)

/-- Overrides with later ones put over them. -/
def followedBy (first later : Overrides) : Overrides where
  radius := later.radius.or first.radius
  collapse := later.collapse.or first.collapse
  disabled := later.disabled.or first.disabled
  trace := later.trace.or first.trace

/-- Of two values for a setting the later one counts. -/
theorem get?_followedBy (first later : Overrides) (field : Field) :
    (first.followedBy later).get? field = (later.get? field).or (first.get? field) := by
  cases field <;> exact Option.map_or

/-- The first overrides of all are put over nothing. -/
theorem nil_followedBy (overrides : Overrides) :
    ({} : Overrides).followedBy overrides = overrides := by
  simp [followedBy]

end Overrides

namespace Config

/-- A setting has its new value, or else the value that it had. -/
theorem get_override (config : Config) (overrides : Overrides) (field : Field) :
    (config.override overrides).get field = (overrides.get? field).getD (config.get field) := by
  obtain ⟨radius, collapse, disabled, trace⟩ := overrides
  cases field with
  | contextRadius => cases radius <;> rfl
  | collapseWhitespace => cases collapse <;> rfl
  | disabledRules => cases disabled <;> rfl
  | trace => cases trace <;> rfl

/-- Settings that are overridden twice are overridden once, by both together. -/
theorem override_override (config : Config) (first later : Overrides) :
    (config.override first).override later = config.override (first.followedBy later) := by
  simp only [override, Overrides.followedBy, Option.or_assoc, Option.getD_or]

/-- The configuration in use after some requests to override settings, one after the other. -/
def adoptAll (config : Config) (requests : List Overrides) : Config :=
  requests.foldl (fun config request => (config.withOverrides request).toOption.getD config)
    config

/-- The overrides accepted so far with a request put over them, unless the configuration refuses
them together. -/
def accept (config : Config) (accepted request : Overrides) : Overrides :=
  if (config.withOverrides (accepted.followedBy request)).isOk then accepted.followedBy request
  else accepted

section Accept

variable {config next : Config} {accepted request : Overrides} {error : ConfigError}

/-- A request that is not refused is put over what was accepted before. -/
theorem accept_of_ok (h : config.withOverrides (accepted.followedBy request) = .ok next) :
    config.accept accepted request = accepted.followedBy request := by
  rw [accept, h]
  rfl

/-- A refused request adds nothing to what was accepted before. -/
theorem accept_of_error (h : config.withOverrides (accepted.followedBy request) = .error error) :
    config.accept accepted request = accepted := by
  rw [accept, h]
  rfl

end Accept

/-- Where the overrides accepted so far are in use, a request is decided over the configuration
that they were put over. -/
theorem override_accept (config : Config) (accepted request : Overrides) :
    ((config.override accepted).withOverrides request).toOption.getD (config.override accepted) =
      config.override (config.accept accepted request) := by
  have hsame : (config.override accepted).withOverrides request =
      config.withOverrides (accepted.followedBy request) := by
    rw [withOverrides, override_override, withOverrides]
  rw [hsame]
  cases h : config.withOverrides (accepted.followedBy request) with
  | ok next =>
      rw [accept_of_ok h]
      exact (validate_eq_ok_iff.1 h).2.symm
  | error error =>
      rw [accept_of_error h]
      rfl

/-- Requests over a configuration with some overrides, one after the other. -/
theorem adoptAll_override (config : Config) (accepted : Overrides) (requests : List Overrides) :
    (config.override accepted).adoptAll requests =
      config.override (requests.foldl config.accept accepted) := by
  induction requests generalizing accepted with
  | nil => rfl
  | cons request requests ih =>
      rw [adoptAll, List.foldl_cons, override_accept]
      exact ih (config.accept accepted request)

/-- A run of requests is one override by the accepted ones. -/
theorem adoptAll_eq_override (config : Config) (requests : List Overrides) :
    config.adoptAll requests = config.override (requests.foldl config.accept {}) :=
  config.adoptAll_override {} requests

/-- Overrides compose. If the first ones are accepted, then putting the later ones over the result
is the same as putting both over the configuration at once: either the same error or the same
configuration, where each setting has the later value, or else the first one, or else that of the
configuration. A whole run of requests comes down to one override by those that are accepted. A
request that is refused leaves the configuration as it was, so whatever is asked from then on is
decided as if it had never been made. -/
theorem overrides_compose (config : Config) (first later : Overrides) :
    (∀ next, config.withOverrides first = .ok next →
      next.withOverrides later = config.withOverrides (first.followedBy later)) ∧
    (∀ field, (first.followedBy later).get? field = (later.get? field).or (first.get? field)) ∧
    (∀ next, config.withOverrides (first.followedBy later) = .ok next → ∀ field,
      next.get field = ((first.followedBy later).get? field).getD (config.get field)) ∧
    ∀ requests, config.adoptAll requests = config.override (requests.foldl config.accept {}) ∧
      ∀ error, config.withOverrides first = .error error →
        config.adoptAll (first :: requests) = config.adoptAll requests := by
  refine ⟨?_, first.get?_followedBy later, ?_, ?_⟩
  · intro next h
    obtain ⟨-, rfl⟩ := validate_eq_ok_iff.1 h
    rw [withOverrides, override_override, withOverrides]
  · intro next h field
    obtain ⟨-, rfl⟩ := validate_eq_ok_iff.1 h
    exact config.get_override _ field
  · intro requests
    refine ⟨config.adoptAll_eq_override requests, fun error h => ?_⟩
    rw [← first.nil_followedBy] at h
    rw [adoptAll_eq_override, adoptAll_eq_override, List.foldl_cons, accept_of_error h]

/-- A configuration that is not valid is mended by zero and an empty list, which count as values,
and a flag is cleared in the same way. The flag alone is refused, and nothing comes of it. -/
theorem overrides_compose_cleared :
    let config : Config := { radius := some (-3), collapse := true, disabled := ["unknown"] }
    let mending : Overrides := { radius := some 0, disabled := some [] }
    let clearing : Overrides := { collapse := some false }
    let mended : Config := { radius := some 0, collapse := true }
    config.withOverrides mending = .ok mended ∧
      mended.withOverrides clearing = config.withOverrides (mending.followedBy clearing) ∧
      config.withOverrides (mending.followedBy clearing) = .ok { radius := some 0 } ∧
      config.withOverrides clearing = .error .negativeRadius ∧
      config.adoptAll [clearing, mending] = config.adoptAll [mending] ∧
      config.adoptAll [mending, clearing] = config.override (mending.followedBy clearing) := by
  intro config mending clearing mended
  have hzero : ∀ radius : Int, some 0 = some radius → 0 ≤ radius := by
    rintro radius ⟨⟩
    decide
  have hmended : config.withOverrides mending = .ok mended :=
    validate_eq_ok_iff.2 ⟨⟨hzero, by simp [config, mending, override]⟩, rfl⟩
  have hboth : config.withOverrides (mending.followedBy clearing) = .ok { radius := some 0 } :=
    validate_eq_ok_iff.2
      ⟨⟨hzero, by simp [config, mending, clearing, override, Overrides.followedBy]⟩, rfl⟩
  have hrefused : config.withOverrides clearing = .error .negativeRadius := rfl
  have haccepted : [mending, clearing].foldl config.accept {} = mending.followedBy clearing := by
    have hfirst : config.withOverrides (({} : Overrides).followedBy mending) = .ok mended := by
      rw [Overrides.nil_followedBy, hmended]
    rw [List.foldl_cons, accept_of_ok hfirst, Overrides.nil_followedBy, List.foldl_cons,
      accept_of_ok hboth, List.foldl_nil]
  have hrun := ((overrides_compose config mending clearing).2.2.2 [mending, clearing]).1
  rw [haccepted] at hrun
  exact ⟨hmended, (overrides_compose config mending clearing).1 mended hmended, hboth, hrefused,
    ((overrides_compose config clearing mending).2.2.2 [mending]).2 _ hrefused, hrun⟩

end Config

end SdkUpgrade
