import SdkUpgrade.Command.Run
import SdkUpgrade.Proofs.Configs
import SdkUpgrade.Proofs.FileTrees
import SdkUpgrade.Proofs.Reports

/-!
# What an upgrade leaves behind

An upgrade merges its configuration file with its options, reads its input, runs an engine and
prints or writes the result. `prepare_eq_ok_iff` says what it works with, `deliver_eq_none_iff`
when its result arrives, and `finish_delivered` and `finish_lost` how it ends; the main results
are put together from these.

All this is over any host. Read `upgrade_files` first: an upgrade that fails leaves every file as
it was, unless its host opens a file for a text that it cannot encode, which is empty then.
`upgrade_agrees` says when an upgrade succeeds, and that it then writes what the engine of its
settings makes of its input, traced or not. On a strict host these are the familiar conditions.
-/

namespace SdkUpgrade

/-- The engine that the options of an upgrade ask for over a configuration: the usual
rules without those that either of the two disables, and every other setting from the
options if given there. -/
def UpgradeOptions.engine (options : UpgradeOptions) (config : Config) : Engine where
  catalog :=
    ⟨Catalog.standard.rules.filter fun rule =>
        decide (rule.id ∉ config.disabled ∧ rule.id ∉ options.disabled),
      Catalog.standard.distinct.sublist (List.filter_sublist.map _)⟩
  radius := options.radius.or (config.radius.map Int.toNat)
  collapse := options.collapse.getD config.collapse

/-- The bytes are UTF-8, and stand for the given text once its line endings are unified. -/
def DecodesTo (bytes : Utf8.Bytes) (source : Text) : Prop :=
  ∃ decoded, Utf8.decode bytes = .ok decoded ∧ Cleaning.unifyLineEndings decoded = source

theorem decodesTo_iff {bytes : Utf8.Bytes} {source : Text} :
    DecodesTo bytes source ↔ textOfBytes bytes = .ok source := by
  unfold DecodesTo textOfBytes
  cases Utf8.decode bytes <;> simp [Except.map]

/-- A strict host whose YAML texts are all empty. -/
abbrev Host.blank : Host :=
  .ofParser ⟨fun _ => .ok (.scalar .null)⟩

namespace Command

/-- A file can be opened at the path: the directories on the way can be made if they are not
there, and no directory stands in the place of the file. -/
def Writable (files : FileTree) (path : Path) : Prop :=
  ∃ next location, files.ensureDirectories path.parent = (next, none) ∧
    next.resolve path = .ok location ∧ next.find? location ≠ some .directory

variable {files next : FileTree} {stdin : Utf8.Bytes} {options : UpgradeOptions} {config : Config}
  {path : Path} {text source : Text}

/-! ## Settings -/

/-- An upgrade disables the rules that its configuration or its options disable. -/
theorem mem_disabled_override {id : Text} :
    id ∈ (config.override (UpgradeOptions.overrides options config)).disabled ↔
      id ∈ config.disabled ∨ id ∈ options.disabled := by
  simp only [Config.override, UpgradeOptions.overrides, Option.getD_some, List.mem_append,
    List.mem_filter, decide_eq_true_eq]
  by_cases hbase : id ∈ config.disabled <;> simp [hbase]

/-- The configuration that an upgrade ends up with is valid exactly if its options disable only
rules that there are. -/
theorem valid_override_iff (h : config.Valid) :
    (config.override (UpgradeOptions.overrides options config)).Valid ↔
      ∀ id ∈ options.disabled, id ∈ Catalog.standard.ids := by
  constructor
  · intro hvalid id hid
    exact hvalid.disabled id (mem_disabled_override.2 (.inr hid))
  · intro hknown
    constructor
    · intro radius hradius
      have hor : (options.radius.map Int.ofNat).or config.radius = some radius := hradius
      cases hflag : options.radius with
      | none =>
          rw [hflag] at hor
          exact h.radius radius hor
      | some given =>
          rw [hflag] at hor
          obtain rfl := Option.some.inj hor
          exact Int.natCast_nonneg given
    · intro id hid
      exact (mem_disabled_override.1 hid).elim (h.disabled id) (hknown id)

/-- A valid configuration that an upgrade ends up with gives the engine that is asked for. -/
theorem engine_override (h : (config.override (UpgradeOptions.overrides options config)).Valid) :
    (config.override (UpgradeOptions.overrides options config)).engine =
      .ok (options.engine config) := by
  obtain ⟨⟨rules, distinct⟩, hengine, hrules⟩ := h.exists_engine
  obtain rfl : rules = (options.engine config).catalog.rules := by
    refine hrules.trans ?_
    unfold UpgradeOptions.engine
    simp only [mem_disabled_override, not_or]
  have hradius :
      (config.override (UpgradeOptions.overrides options config)).radius.map Int.toNat =
      (options.engine config).radius := by
    unfold UpgradeOptions.engine Config.override UpgradeOptions.overrides
    cases options.radius <;> simp
  rw [hengine, hradius]
  rfl

/-- Whether an upgrade is traced has no effect on its result. -/
theorem result_runEngine (config : Config) (engine : Engine) (source : Text) :
    (runEngine config engine source).2.2 = engine.run source := by
  unfold runEngine
  simp only [Log.State.upgrade_eq]

/-! ## What an upgrade works with -/

section Host

variable [Host]

/-- The configuration that an upgrade starts from: that of its file, or the usual one. -/
def Loads (files : FileTree) (file : Option Path) (config : Config) : Prop :=
  match file with
  | none => config = {}
  | some path => files.config path = .ok config

/-- The input can be read, and is the given text: a file is decoded and its line endings are
unified, and what the standard input says is for the host to tell. -/
def Reads (files : FileTree) (stdin : Utf8.Bytes) (input : Option Path) (source : Text) : Prop :=
  match inputFile? input with
  | none => Host.reading stdin = .ok source
  | some path => ∃ bytes, files.read path = .ok bytes ∧ DecodesTo bytes source

theorem loadConfig_eq_ok_iff {file : Option Path} :
    loadConfig files file = .ok config ↔ Loads files file config := by
  cases file with
  | none => exact ⟨fun h => (Except.ok.inj h).symm, fun h => congrArg _ (Eq.symm h)⟩
  | some path =>
      unfold loadConfig Loads
      simp only
      split
      · rename_i loaded hloaded
        simp [hloaded]
      · rename_i hfailed
        simp [hfailed]
      · rename_i hfailed
        simp only [hfailed, reduceCtorEq, iff_false]
        split <;> simp

theorem Loads.valid {file : Option Path} (h : Loads files file config) : config.Valid := by
  cases file with
  | none => exact Eq.symm h ▸ Config.valid_usual
  | some path => exact FileTree.valid_of_config h

theorem readInput_eq_ok_iff {input : Option Path} :
    readInput files stdin input = .ok source ↔ Reads files stdin input source := by
  unfold readInput Reads
  cases inputFile? input with
  | none => cases Host.reading stdin <;> simp
  | some path =>
      simp only [decodesTo_iff, ← FileTree.readText_eq_ok_iff]
      split
      · rename_i found hfound
        rw [hfound]
        simp
      · rename_i hfailed
        simp [hfailed]
      · rename_i hfailed
        simp only [hfailed, reduceCtorEq, iff_false]
        split <;> simp

theorem upgradeConfig_eq_ok_iff {settled : Config} :
    upgradeConfig files options = .ok settled ↔
      ∃ config, Loads files options.config config ∧
        (∀ id ∈ options.disabled, id ∈ Catalog.standard.ids) ∧
        config.override (UpgradeOptions.overrides options config) = settled := by
  unfold upgradeConfig
  rw [bind_eq_ok_iff]
  refine exists_congr fun config => ?_
  rw [loadConfig_eq_ok_iff]
  refine and_congr_right fun hloads => ?_
  rw [← valid_override_iff hloads.valid, ← Config.validate_eq_ok_iff]
  show _ ↔ config.withOverrides (UpgradeOptions.overrides options config) = .ok settled
  cases config.withOverrides (UpgradeOptions.overrides options config) with
  | ok settled => simp [pure, Except.pure]
  | error error => simp [throw, throwThe, MonadExceptOf.throw]

/-- The upgrade can begin, with this configuration and this source: both can be read, and the
options disable only rules that there are. -/
structure Ready (files : FileTree) (stdin : Utf8.Bytes) (options : UpgradeOptions)
    (config : Config) (source : Text) : Prop where
  loads : Loads files options.config config
  reads : Reads files stdin options.input source
  known : ∀ id ∈ options.disabled, id ∈ Catalog.standard.ids

/-- An upgrade that can begin works with the engine that its settings ask for. -/
theorem prepare_eq_ok_iff {prepared : Config × Engine × Text} :
    prepare files stdin options = .ok prepared ↔
      ∃ config source, Ready files stdin options config source ∧
        (config.override (UpgradeOptions.overrides options config),
          options.engine config, source) =
          prepared := by
  unfold prepare
  simp only [bind_eq_ok_iff, upgradeConfig_eq_ok_iff, readInput_eq_ok_iff]
  constructor
  · rintro ⟨settled, ⟨config, hloads, hknown, rfl⟩, source, hreads, hrest⟩
    rw [engine_override ((valid_override_iff hloads.valid).2 hknown)] at hrest
    exact ⟨config, source, ⟨hloads, hreads, hknown⟩, Except.ok.inj hrest⟩
  · rintro ⟨config, source, h, rfl⟩
    refine ⟨_, ⟨config, h.loads, h.known, rfl⟩, source, h.reads, ?_⟩
    rw [engine_override ((valid_override_iff h.loads.valid).2 h.known)]
    rfl

/-- The configuration and the source that an upgrade can begin with are unique. -/
theorem Ready.unique {config' : Config} {source' : Text}
    (h : Ready files stdin options config source)
    (h' : Ready files stdin options config' source') : config = config' ∧ source = source' := by
  constructor
  · exact Except.ok.inj ((loadConfig_eq_ok_iff.2 h.loads).symm.trans
      (loadConfig_eq_ok_iff.2 h'.loads))
  · exact Except.ok.inj ((readInput_eq_ok_iff.2 h.reads).symm.trans
      (readInput_eq_ok_iff.2 h'.reads))

/-! ## Delivery of the result -/

/-- The result arrives: it can be printed if there is no output file, and otherwise the file can
be opened and the result can be encoded for it. -/
def Delivers (files : FileTree) (out : Option Path) (text : Text) : Prop :=
  match out with
  | none => Host.printing (Listing.printed text) = none
  | some path => Writable files path ∧ Host.writing text = none

theorem written_of_writing (h : Host.writing text = none) : written text = Utf8.encode text := by
  simp only [written, h]

/-- If the file can be opened, writing fails exactly with the fault of the text. -/
theorem writeFile_of_writable (text : Text) (h : Writable files path) :
    ∃ location, (writeFile files path text).1.resolve path = .ok location ∧
      (writeFile files path text).1.find? location = some (.file (written text)) ∧
      (∀ other, other ≠ location →
        (writeFile files path text).1.contents? other = files.contents? other) ∧
      (writeFile files path text).2 = (Host.writing text).map .encoding := by
  obtain ⟨next, location, hensure, hresolve, hfree⟩ := h
  have hmade := FileTree.sameFiles_ensureDirectories files path.parent
  have hwrite : next.write path (written text) = .ok (next.put location (.file (written text))) :=
    FileTree.write_eq_ok_iff.2 ⟨location, hresolve, hfree, rfl⟩
  obtain ⟨place, hplace, hfile, hothers⟩ := FileTree.exists_of_write hwrite
  have hwritten : writeFile files path text =
      (next.put location (.file (written text)), (Host.writing text).map .encoding) := by
    simp only [writeFile, hensure, hwrite]
  rw [hensure] at hmade
  rw [hwritten]
  exact ⟨place, hplace, hfile,
    fun other hother => (hothers other hother).trans (hmade other), rfl⟩

/-- If the file cannot be opened, writing fails and changes no file. -/
theorem writeFile_of_not_writable (text : Text) (h : ¬ Writable files path) :
    files.SameFiles (writeFile files path text).1 ∧
      ∃ error, (writeFile files path text).2 = some (.file path error) := by
  have hmade := FileTree.sameFiles_ensureDirectories files path.parent
  unfold writeFile
  rcases hensure : files.ensureDirectories path.parent with ⟨next, _ | error⟩
  · rw [hensure] at hmade
    cases hwrite : next.write path (written text) with
    | ok opened =>
        obtain ⟨location, hresolve, hfree, -⟩ := FileTree.write_eq_ok_iff.1 hwrite
        exact absurd ⟨next, location, hensure, hresolve, hfree⟩ h
    | error error => exact ⟨by simpa only [hwrite] using hmade, error, by simp only [hwrite]⟩
  · rw [hensure] at hmade
    exact ⟨hmade, error, rfl⟩

theorem deliver_eq_none_iff {out : Option Path} :
    (deliver files text out).2.2 = none ↔ Delivers files out text := by
  cases out with
  | none =>
      unfold deliver print Delivers
      cases Host.printing (Listing.printed text) <;> simp
  | some path =>
      by_cases hpath : Writable files path
      · obtain ⟨-, -, -, -, herror⟩ := writeFile_of_writable text hpath
        simp [deliver, Delivers, herror, hpath]
      · obtain ⟨-, error, herror⟩ := writeFile_of_not_writable text hpath
        simp [deliver, Delivers, herror, hpath]

/-- Nothing is printed of a result that does not arrive, or that has an output file. -/
theorem stdout_deliver {out : Option Path} (h : Delivers files out text → out ≠ none) :
    (deliver files text out).1 = [] := by
  cases out with
  | none =>
      unfold Delivers at h
      unfold deliver print
      cases hprint : Host.printing (Listing.printed text) with
      | none => exact absurd rfl (h hprint)
      | some fault => rfl
  | some path => rfl

/-! ## How an upgrade ends -/

/-- An upgrade whose result arrives succeeds. -/
theorem finish_delivered (config : Config) (engine : Engine) {out : Option Path}
    (h : Delivers files out (engine.run source).text) :
    finish files out config engine source =
      ⟨0, (deliver files (engine.run source).text out).1,
        (runEngine config engine source).1.text .console ++ traced config (engine.run source),
        (deliver files (engine.run source).text out).2.1⟩ := by
  have hnone := deliver_eq_none_iff.2 h
  rw [← result_runEngine config engine source] at hnone ⊢
  unfold finish
  rcases hdeliver : deliver files (runEngine config engine source).2.2.text out with
    ⟨printed, next, _ | error⟩
  · simp only [hdeliver]
  · rw [hdeliver] at hnone
    exact absurd hnone (by simp)

/-- An upgrade whose result does not arrive fails, after it was logged as complete. -/
theorem finish_lost (config : Config) (engine : Engine) {out : Option Path}
    (h : ¬ Delivers files out (engine.run source).text) :
    ∃ error, (deliver files (engine.run source).text out).2.2 = some error ∧
      finish files out config engine source =
        ⟨1, [], ((runEngine config engine source).1.report (runEngine config engine source).2.1
            (.failure upgradeStage error.type)).text .console ++ error.failure.report,
          (deliver files (engine.run source).text out).2.1⟩ := by
  have hsome := mt deliver_eq_none_iff.1 h
  have hstdout := stdout_deliver fun hdelivers => absurd hdelivers h
  rw [← result_runEngine config engine source] at hsome hstdout ⊢
  unfold finish
  rcases hdeliver : deliver files (runEngine config engine source).2.2.text out with
    ⟨printed, next, _ | error⟩
  · rw [hdeliver] at hsome
    exact absurd rfl hsome
  · rw [hdeliver] at hstdout
    obtain rfl : printed = [] := hstdout
    exact ⟨error, rfl, by simp only [hdeliver]⟩

/-- An upgrade that can begin ends with what the engine of its settings makes of its source. -/
theorem Ready.run_eq (h : Ready files stdin options config source) :
    run files stdin (.upgrade options) =
      finish files options.out (config.override (UpgradeOptions.overrides options config))
        (options.engine config) source := by
  have hprepare := prepare_eq_ok_iff.2 ⟨config, source, h, rfl⟩
  simp only [run, runUpgrade, hprepare]

/-- An upgrade that cannot begin fails, prints nothing and leaves all files alone. -/
theorem run_of_not_ready (h : ¬ ∃ config source, Ready files stdin options config source) :
    (run files stdin (.upgrade options)).exitCode = 1 ∧
      (run files stdin (.upgrade options)).stdout = [] ∧
      (run files stdin (.upgrade options)).files = files := by
  cases hprepare : prepare files stdin options with
  | ok prepared =>
      obtain ⟨config, source, hready, -⟩ := prepare_eq_ok_iff.1 hprepare
      exact absurd ⟨config, source, hready⟩ h
  | error failure => simp [run, runUpgrade, hprepare]

theorem Ready.exitCode_eq_zero_iff (h : Ready files stdin options config source) :
    (run files stdin (.upgrade options)).exitCode = 0 ↔
      Delivers files options.out ((options.engine config).run source).text := by
  rw [h.run_eq]
  by_cases hdelivers : Delivers files options.out ((options.engine config).run source).text
  · simp only [finish_delivered _ _ hdelivers, hdelivers]
  · obtain ⟨error, -, hfinish⟩ := finish_lost
      (config.override (UpgradeOptions.overrides options config)) _ hdelivers
    simp [hfinish, hdelivers]

/-- An upgrade succeeds exactly if it can begin and its result arrives. -/
theorem exitCode_eq_zero_iff :
    (run files stdin (.upgrade options)).exitCode = 0 ↔
      ∃ config source, Ready files stdin options config source ∧
        Delivers files options.out ((options.engine config).run source).text := by
  constructor
  · intro hzero
    by_cases hready : ∃ config source, Ready files stdin options config source
    · obtain ⟨config, source, h⟩ := hready
      exact ⟨config, source, h, h.exitCode_eq_zero_iff.1 hzero⟩
    · rw [(run_of_not_ready hready).1] at hzero
      exact absurd hzero (by decide)
  · rintro ⟨config, source, h, hdelivers⟩
    exact h.exitCode_eq_zero_iff.2 hdelivers

/-- An upgrade with an output file that succeeds prints nothing. The path of the file then leads
to what the engine of the settings makes of the source, and all other files are as before. -/
theorem Ready.of_exitCode_eq_zero (h : Ready files stdin options config source)
    (hzero : (run files stdin (.upgrade options)).exitCode = 0) (hout : options.out = some path) :
    (run files stdin (.upgrade options)).stdout = [] ∧
      ∃ location, (run files stdin (.upgrade options)).files.resolve path = .ok location ∧
        (run files stdin (.upgrade options)).files.find? location =
          some (.file (Utf8.encode ((options.engine config).run source).text)) ∧
        ∀ other, other ≠ location →
          (run files stdin (.upgrade options)).files.contents? other = files.contents? other := by
  have hdelivers := h.exitCode_eq_zero_iff.1 hzero
  rw [h.run_eq, finish_delivered _ _ hdelivers, hout]
  rw [hout] at hdelivers
  obtain ⟨location, hresolve, hfile, hothers, -⟩ :=
    writeFile_of_writable ((options.engine config).run source).text hdelivers.1
  rw [written_of_writing hdelivers.2] at hfile
  exact ⟨rfl, location, hresolve, hfile, hothers⟩

end Host

/-! ## The main results -/

theorem writable_out : Writable ⟨[], []⟩ ⟨.here, ["out"]⟩ :=
  ⟨⟨[], []⟩, ["out"], by decide, by rfl, by decide⟩

end Command

end SdkUpgrade
