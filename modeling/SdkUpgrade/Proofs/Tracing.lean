import Mathlib.Algebra.Ring.Nat
import SdkUpgrade.Proofs.Commands
import SdkUpgrade.Proofs.Loggers
import SdkUpgrade.Proofs.Names
import SdkUpgrade.Proofs.Printing

/-!
# The log and the trace agree

A run tells what it did in two ways: in the lines of its log, written while the rules are
applied, and in the edits of its result. Read `Engine.log_agrees` first: the log has one line for
every rule that fired, in order, with the number of its edits, and these numbers add up to the
number that a traced upgrade reports in its log and at its end. `Engine.firings_eq` holds the
argument, an induction over the rules: the identifiers of a catalog are distinct, so that the
edits of a rule stay together.
-/

namespace SdkUpgrade

/-- The number of edits that the rule of the given identifier made. -/
def Result.count (result : Result) (id : Text) : Nat :=
  (result.edits.filter fun edit => decide (edit.ruleId = id)).length

/-! ## Counting edits -/

variable {κ : Type} [Recogniser κ]

/-- The passes that made edits are the rules of the edits, each with the number of its edits. -/
theorem firings_passes (radius : Option Nat) (rules : List (Rule κ)) (text : Text)
    (hdistinct : (rules.map Rule.id).Nodup) :
    ((passes radius rules text).filter fun pass => decide (pass.edits ≠ [])).map
        (fun pass => (pass.rule.id, pass.edits.length)) =
      (ruleIds ((passes radius rules text).flatMap Pass.edits)).zip
        ((groupsByRule ((passes radius rules text).flatMap Pass.edits)).map List.length) := by
  induction rules generalizing text with
  | nil => rfl
  | cons rule rules ih =>
      obtain ⟨hfresh, hdistinct⟩ := List.nodup_cons.1 hdistinct
      have hrest := ih (rule.apply radius text) hdistinct
      by_cases hnone : rule.edits radius text = []
      · simpa [passes, hnone] using hrest
      · -- No later rule has the identifier of this one, so its edits are the first group, whole.
        have hfirst : ∀ edit ∈ rule.edits radius text, edit.ruleId = rule.id :=
          fun edit hmem => Rule.ruleId_of_mem_edits hmem
        have hother : ∀ edit ∈ (passes radius rules (rule.apply radius text)).flatMap Pass.edits,
            edit.ruleId ≠ rule.id :=
          fun edit hmem heq => hfresh (heq ▸ ruleId_mem_of_mem_passes hmem)
        simp only [passes, List.flatMap_cons, ruleIds_append hnone hfirst hother,
          groupsByRule_append hnone hfirst hother]
        simpa [hnone] using hrest

namespace Engine

/-- The rules that made edits on a text are those that the result names, with the same numbers. -/
theorem firings_eq (engine : Engine κ) (text : Text) :
    engine.firings text =
      (engine.run text).rulesFired.map fun id => (id, (engine.run text).count id) := by
  have hzip := @List.zip_map' _ _ _ (fun id => id) (engine.run text).count
    (engine.run text).rulesFired
  rw [List.map_id'] at hzip
  refine (firings_passes _ _ _ engine.catalog.distinct).trans ?_
  rw [groupsByRule, List.map_map]
  exact hzip

/-- The edits of the rules that fired are all edits. -/
theorem sum_count (engine : Engine κ) (text : Text) :
    ((engine.run text).rulesFired.map (engine.run text).count).sum =
      (engine.run text).edits.length := by
  obtain ⟨-, hflat, -⟩ := replays_passes engine.radius engine.catalog.rules (engine.prepare text)
    engine.catalog.distinct
  have hlength := congrArg List.length hflat
  rw [List.length_flatten, groupsByRule, List.map_map] at hlength
  exact hlength

end Engine

/-! ## The wording of the log -/

namespace Log

/-- Characters that are kept are not whitespace. -/
theorem isBlank_of_isKept {c : Char} (h : isKept c = true) : Text.isBlank c = false := by
  simp only [isKept, Bool.or_eq_true, beq_iff_eq] at h
  rcases h with ((((h | rfl) | rfl) | rfl) | rfl) | rfl
  · exact isBlank_of_isNameChar (by simp [Text.isNameChar, Text.isWord, h])
  all_goals decide

/-- What is shown by kept characters only stands in the log as it is. -/
theorem token_of_isKept {value : Value} (hne : value.display ≠ [])
    (h : ∀ c ∈ value.display, isKept c = true) : token value = value.display := by
  have hstrip : Text.strip value.display = value.display :=
    strip_eq_self fun c hmem => isBlank_of_isKept (h c hmem)
  rw [token, sanitized, hstrip]
  split
  · rename_i hnil
    exact absurd hnil hne
  · refine (List.map_congr_left fun c hmem => ?_).trans (List.map_id' _)
    rw [if_pos (h c hmem)]

/-- A number stands in the log as it is. -/
theorem token_int (n : Nat) : token (.scalar (.int n)) = Text.ofNat n := by
  refine token_of_isKept Nat.toDigits_ne_nil fun c hmem => ?_
  have hdigit : Text.isAlphanumeric c = true :=
    isAlphanumeric_of_isDigit (isDigit_of_mem_ofNat hmem)
  simp [isKept, hdigit]

/-- Two entries of a context that stand in the order of their names keep their places. -/
theorem ordered_pair {first second : Text × Value} (h : Text.le first.1 second.1 = true) :
    ordered [first, second] = [first, second] :=
  List.mergeSort_of_pairwise (List.pairwise_pair.2 h)

/-- The line of the log that tells how many edits a rule made. -/
def ruleLine (count : Nat) (id : Text) : Text :=
  "[phase] level=INFO stage=normalize event=rule_applied count=" ++ Text.ofNat count
    ++ " rule=" ++ token (.scalar (.text id)) ++ "\n"

theorem line_ruleApplied (id : Text) (count : Nat) :
    (Event.ruleApplied id count).line = ruleLine count id := by
  have hnames : Text.le "count" "rule" = true := by decide
  unfold Event.line Event.ruleApplied contextText ruleLine
  rw [ordered_pair hnames]
  simp only [List.flatMap_cons, List.flatMap_nil, token_int, List.append_assoc, List.append_nil]
  rfl

/-- The lines of a run name the rules that fired, in order, with the numbers of their edits. -/
theorem lines_ofRun (engine : Engine κ) (text : Text) :
    (Event.ofRun engine text).flatMap Event.line =
      (engine.run text).rulesFired.flatMap fun id =>
        ruleLine ((engine.run text).count id) id := by
  unfold Event.ofRun
  rw [engine.firings_eq, List.map_map, List.flatMap_map]
  simp only [Function.comp_def, line_ruleApplied]

/-- The line of the log that tells that an upgrade has begun. -/
def startLine : Text :=
  "[phase] level=INFO stage=normalize event=start\n"

/-- The line of the log that tells how many edits a complete upgrade made. -/
def completeLine (count : Nat) : Text :=
  "[phase] level=INFO stage=normalize event=complete rewrites=" ++ Text.ofNat count ++ "\n"

theorem line_start : (Event.start Command.upgradeStage).line = startLine := by
  unfold Event.line Event.start contextText ordered startLine
  rw [List.mergeSort_nil]
  rfl

theorem line_complete (result : Result) :
    (Command.upgradeComplete result).line = completeLine result.edits.length := by
  unfold Event.line Command.upgradeComplete Event.complete contextText ordered completeLine
  rw [List.mergeSort_singleton]
  simp only [List.flatMap_cons, List.flatMap_nil, token_int, List.append_assoc, List.append_nil]
  rfl

/-- From events of the usual level, every line is kept. -/
theorem linesFrom_info {events : List Event} (h : ∀ event ∈ events, event.level = .info) :
    linesFrom .info events = events.flatMap Event.line := by
  unfold linesFrom
  rw [List.filter_eq_self.2]
  intro event hmem
  rw [h event hmem]
  rfl

namespace State

/-- A logger that was opened at the usual level and not parted from its handler since then is the
only one to write to its sink. -/
theorem serves_of_attached (before after : List Action)
    (hafter : ∀ action ∈ after, action.parts (performAll {} before).loggers.length = false) :
    (performAll {} (before ++ .attach Level.info.name :: after)).Serves
      (performAll {} before).loggers.length .info
        (.own (performAll {} before).loggers.length) := by
  have hstands := stands_performAll_attach before after .info
  rw [Attachment.since_eq_attached_iff.2 hafter] at hstands
  exact (sound_initial.performAll _).serves hstands

end State

end Log

/-! ## The log of an upgrade -/

/-- The report at the end of a traced upgrade begins with the number of edits. -/
theorem Listing.edits_eq (result : Result) :
    edits result = "Rewrites applied: " ++ Text.ofNat result.edits.length ++ "\n"
      ++ result.edits.flatMap fun e => line (edit e) := by
  unfold edits
  refine congrArg (· ++ _) (printed_eq_self ?_)
  have hdigits : '\x1b' ∉ Text.ofNat result.edits.length := by
    intro hmem
    exact absurd (isDigit_of_mem_ofNat hmem) (by decide)
  simp [hdigits]

namespace Command

open Log

/-- The events of a traced upgrade, until its result is printed or written: its beginning, the
rules that fired, and that it is complete. -/
def upgradeEvents (engine : Engine) (source : Text) : List Event :=
  .start upgradeStage :: (Event.ofRun engine source ++ [upgradeComplete (engine.run source)])

theorem of_mem_upgradeEvents {engine : Engine} {source : Text} {event : Event}
    (h : event ∈ upgradeEvents engine source) : event.check = .ok () ∧ event.level = .info := by
  rcases List.mem_cons.1 h with rfl | h
  · exact ⟨rfl, rfl⟩
  · rcases List.mem_append.1 h with hrule | hlast
    · exact Event.of_mem_ofRun hrule
    · obtain rfl := List.mem_singleton.1 hlast
      exact ⟨rfl, rfl⟩

theorem openLog_traced {config : Config} (htrace : config.trace = true) :
    (openLog config).2 = some 0 ∧ (openLog config).1.Serves 0 .info .console ∧
      (openLog config).1.text .console = [] := by
  rw [openLog, if_pos htrace]
  exact ⟨rfl, ⟨⟨1, some 1⟩, ⟨1, some 1, .info, .console⟩, rfl, rfl, rfl, rfl⟩, rfl⟩

theorem log_runEngine {config : Config} (htrace : config.trace = true) (engine : Engine)
    (source : Text) :
    (runEngine config engine source).1 =
        (openLog config).1.reportAll (some 0) (upgradeEvents engine source) ∧
      (runEngine config engine source).2.1 = some 0 := by
  have hlogger := (openLog_traced htrace).1
  unfold runEngine upgradeEvents
  simp only [hlogger, State.upgrade_eq, State.reportAll, List.foldl_cons, List.foldl_append,
    List.foldl_nil, and_self]

/-- The log of a traced upgrade has the lines of its events. -/
theorem text_upgradeEvents {config : Config} (htrace : config.trace = true) (engine : Engine)
    (source : Text) :
    (runEngine config engine source).1.text .console =
      (upgradeEvents engine source).flatMap Event.line := by
  obtain ⟨-, hserves, hempty⟩ := openLog_traced htrace
  rw [(log_runEngine htrace engine source).1,
    hserves.text_reportAll fun event hmem => (of_mem_upgradeEvents hmem).1, hempty,
    linesFrom_info fun event hmem => (of_mem_upgradeEvents hmem).2, List.nil_append]

/-- The log of a traced upgrade tells of its beginning, of the rules that fired and of its end. -/
theorem text_runEngine {config : Config} (htrace : config.trace = true) (engine : Engine)
    (source : Text) :
    (runEngine config engine source).1.text .console =
      startLine ++ (engine.run source).rulesFired.flatMap
          (fun id => ruleLine ((engine.run source).count id) id)
        ++ completeLine (engine.run source).edits.length := by
  rw [text_upgradeEvents htrace, upgradeEvents]
  simp only [List.flatMap_cons, List.flatMap_append, List.flatMap_nil, List.append_nil,
    line_start, lines_ofRun, line_complete, List.append_assoc]

/-- What a traced upgrade prints as errors begins with its log. If it succeeds, the report of its
edits follows. -/
theorem exists_stderr_finish [Host] {config : Config} (htrace : config.trace = true)
    (files : FileTree) (out : Option Path) (engine : Engine) (source : Text) :
    let outcome := finish files out config engine source
    ∃ rest, outcome.stderr = (runEngine config engine source).1.text .console ++ rest ∧
      (outcome.exitCode = 0 → rest = Listing.edits (engine.run source)) := by
  have htraced : traced config (engine.run source) = Listing.edits (engine.run source) := by
    rw [traced, if_pos htrace]
  intro outcome
  by_cases hdelivers : Delivers files out (engine.run source).text
  · rw [show outcome = _ from finish_delivered config engine hdelivers]
    exact ⟨_, rfl, fun _ => htraced⟩
  · obtain ⟨error, -, hfinish⟩ := finish_lost config engine hdelivers
    obtain ⟨more, hmore⟩ := (runEngine config engine source).1.exists_text_report
      (runEngine config engine source).2.1 (.failure upgradeStage error.type) .console
    rw [show outcome = _ from hfinish]
    simp only [hmore, List.append_assoc]
    exact ⟨_, rfl, fun hzero => absurd hzero (by simp)⟩

end Command

namespace Engine

open Log

/-- The log and the trace of a run agree, and logging has no effect on the run. Take any history
in which a logger is opened at the usual level and keeps its handler, and an engine with any kind
of rules. A run with this logger has the result of a run without one, and adds to the logger's
sink one line for every rule that fired, in order, with the number of its edits. These numbers add
up to the number of edits, which is what a traced upgrade reports when it is complete and again at
the head of its report. -/
theorem log_agrees (engine : Engine κ) (text : Text) (before after : List Action)
    (hafter : ∀ action ∈ after,
      action.parts (State.performAll {} before).loggers.length = false) :
    let number := (State.performAll {} before).loggers.length
    let state := State.performAll {} (before ++ .attach Level.info.name :: after)
    let result := engine.run text
    let lines (result : Result) : Text :=
      result.rulesFired.flatMap fun id => ruleLine (result.count id) id
    (state.upgrade (some number) engine text).2 = result ∧
      state.upgrade none engine text = (state, result) ∧
      (state.upgrade (some number) engine text).1.text (.own number) =
        state.text (.own number) ++ lines result ∧
      (result.rulesFired.map result.count).sum = result.edits.length ∧
      ∀ [Host] files stdin options config (engine : Engine) source,
        Command.prepare files stdin options = .ok (config, engine, source) →
        config.trace = true →
        let outcome := Command.run files stdin (.upgrade options)
        let result := engine.run source
        (result.rulesFired.map result.count).sum = result.edits.length ∧
        ∃ rest, outcome.stderr =
            startLine ++ lines result ++ completeLine result.edits.length ++ rest ∧
          (outcome.exitCode = 0 → ∃ listing, rest =
            "Rewrites applied: " ++ Text.ofNat result.edits.length ++ "\n" ++ listing) := by
  intro number state result lines
  refine ⟨?_, ?_, ?_, engine.sum_count text, ?_⟩
  · rw [State.upgrade_eq]
  · rw [State.upgrade_eq, State.reportAll_none]
  · rw [State.upgrade_eq, (State.serves_of_attached before after hafter).text_reportAll
      fun event hmem => (Event.of_mem_ofRun hmem).1,
      linesFrom_info fun event hmem => (Event.of_mem_ofRun hmem).2, lines_ofRun]
  · intro _ files stdin options config engine source hprepare htrace outcome result
    have hrun : outcome = Command.finish files options.out config engine source := by
      simp only [outcome, Command.run, Command.runUpgrade, hprepare]
    obtain ⟨rest, hstderr, hrest⟩ :=
      Command.exists_stderr_finish htrace files options.out engine source
    rw [hrun]
    refine ⟨engine.sum_count source, rest, ?_, fun hzero =>
      ⟨_, (hrest hzero).trans (Listing.edits_eq result)⟩⟩
    rw [hstderr, Command.text_runEngine htrace]

/-- A logger that was opened second and outlived the first writes the rules of a run, and a traced
upgrade of the same text writes them too. -/
theorem log_agrees_second :
    let _ : Host := .blank
    let text : Text := "reply.choices[0].text"
    let options : UpgradeOptions := { trace := some true }
    let engine := options.engine {}
    let result := engine.run text
    let lines := result.rulesFired.flatMap fun id => ruleLine (result.count id) id
    let state := State.performAll {} [.attach "ERROR", .attach Level.info.name, .close 0]
    (state.upgrade (some 1) engine text).1.text (.own 1) = state.text (.own 1) ++ lines ∧
      ∃ rest, (Command.run ⟨[], []⟩ (Utf8.encode text) (.upgrade options)).stderr =
        startLine ++ lines ++ completeLine result.edits.length ++ rest := by
  intro host text options engine result lines state
  have hsecond : (State.performAll {} [.attach "ERROR"]).loggers.length = 1 := by rfl
  obtain ⟨-, -, hsink, -, hupgrade⟩ := log_agrees engine text [.attach "ERROR"] [.close 0] (by
    intro action hmem
    obtain rfl := List.mem_singleton.1 hmem
    rw [hsecond]
    rfl)
  rw [hsecond] at hsink
  have hready : Command.Ready ⟨[], []⟩ (Utf8.encode text) options {} text :=
    ⟨rfl, rfl, by simp [options]⟩
  obtain ⟨-, rest, hstderr, -⟩ := hupgrade ⟨[], []⟩ (Utf8.encode text) options _ _ _
    (Command.prepare_eq_ok_iff.2 ⟨{}, text, hready, rfl⟩) rfl
  exact ⟨hsink, rest, hstderr⟩

end Engine

end SdkUpgrade
