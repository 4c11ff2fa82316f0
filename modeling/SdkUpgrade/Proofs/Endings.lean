import SdkUpgrade.Proofs.Quoting
import SdkUpgrade.Proofs.Spellings
import SdkUpgrade.Proofs.Tracing

/-!
# How a traced upgrade ends

A traced upgrade logs that it begins, and later how it ended, on the stream that also gets its
report and its errors. `Log.told` counts the lines that tell of an event by reading them back word
by word, whoever wrote them. A line of the log tells of its own event and of no other,
`Log.told_line`, and the lines of the report tell of none, `Listing.told_edits`.

An upgrade should begin once and end once, in success or in failure: `Command.EndsOnce`. It does
so exactly if its result arrives. Otherwise it was logged as complete before the attempt to print
or write it, and is logged as failed after it: `Command.ends_once_iff`.
-/

namespace SdkUpgrade

open Text

/-- A separator divides the pieces in front of it from those behind it. -/
theorem Text.split_append_cons (separator : Char) (first second : Text) :
    split separator (first ++ separator :: second) =
      split separator first ++ split separator second := by
  obtain ⟨front, last, head, back, hfirst, hsecond, hboth⟩ :=
    exists_split_append separator first (separator :: second)
  rw [split, if_pos rfl] at hsecond
  obtain ⟨rfl, rfl⟩ := List.cons.inj hsecond
  rw [hboth, hfirst, List.append_nil, List.append_assoc, List.singleton_append]

namespace Log

/-! ## Reading the log -/

/-- The word that every line of the log begins with. -/
def lineMark : Text := "[phase]"

/-- The word for the level of a line. -/
def levelWord (level : Level) : Text := "level=" ++ level.name

/-- The word for the stage of a line. -/
def stageWord (stage : Text) : Text := "stage=" ++ stage

/-- The word for the event of a line. -/
def eventWord (name : Text) : Text := "event=" ++ name

theorem stageWord_inj {stage other : Text} : stageWord stage = stageWord other ↔ stage = other :=
  ⟨List.append_cancel_left, congrArg _⟩

theorem eventWord_inj {name other : Text} : eventWord name = eventWord other ↔ name = other :=
  ⟨List.append_cancel_left, congrArg _⟩

/-- The line tells of an event of the given name at the given stage. -/
def tells (stage name line : Text) : Bool :=
  match split ' ' line with
  | first :: _ :: third :: fourth :: _ =>
      decide (first = lineMark ∧ third = stageWord stage ∧ fourth = eventWord name)
  | _ => false

/-- The number of lines of a text that tell of an event of the given name at the given stage. -/
def told (stage name text : Text) : Nat :=
  (split '\n' text).countP (tells stage name)

variable {stage name : Text}

theorem told_append_cons (first second : Text) :
    told stage name (first ++ '\n' :: second) =
      told stage name first + told stage name second := by
  rw [told, split_append_cons, List.countP_append]
  rfl

theorem told_of_notMem {line : Text} (h : '\n' ∉ line) :
    told stage name line = if tells stage name line then 1 else 0 := by
  rw [told, split_eq_singleton h, List.countP_singleton]

/-- A line that does not begin with a bracket tells of nothing. -/
theorem told_other {line : Text} (hline : '\n' ∉ line) (hhead : line.head? ≠ some '[')
    (rest : Text) : told stage name (line ++ '\n' :: rest) = told stage name rest := by
  have hmark : ∀ words, split ' ' line ≠ lineMark :: words := by
    intro words hsplit
    have hwhole := join_split ' ' line
    rw [hsplit] at hwhole
    refine hhead ?_
    rw [← hwhole]
    cases words <;> rfl
  have hnot : tells stage name line = false := by
    unfold tells
    split
    · rename_i first second third fourth words hsplit
      refine decide_eq_false fun h => ?_
      rw [h.1] at hsplit
      exact hmark _ hsplit
    · rfl
  rw [told_append_cons, told_of_notMem hline, hnot, if_neg (by simp), Nat.zero_add]

/-! ## Lines of events -/

/-- A value in the log has only characters that are kept. -/
theorem isKept_of_mem_token {value : Value} {c : Char} (h : c ∈ token value) :
    isKept c = true := by
  unfold token sanitized at h
  split at h
  · exact List.all_eq_true.1 (by decide : "none".toList.all isKept = true) c h
  · obtain ⟨d, -, rfl⟩ := List.mem_map.1 h
    split
    · assumption
    · decide

/-- Neither a space nor a line feed is in what the event is called by: its stage, its name and the
names of its context. -/
def Event.Plain (event : Event) : Prop :=
  ∀ word ∈ event.stage :: event.name :: event.context.map Prod.fst, ' ' ∉ word ∧ '\n' ∉ word

theorem Event.Plain.newline_notMem_contextText {event : Event} (h : event.Plain) :
    '\n' ∉ contextText event.context := by
  intro hmem
  obtain ⟨⟨key, value⟩, hentry, hmem⟩ := List.mem_flatMap.1 hmem
  have hkey : '\n' ∉ key := by
    have hname := List.mem_map_of_mem (f := Prod.fst) (List.mem_mergeSort.1 hentry)
    exact (h key (List.mem_cons_of_mem _ (List.mem_cons_of_mem _ hname))).2
  have htoken : '\n' ∉ token value := fun hnew => absurd (isKept_of_mem_token hnew) (by decide)
  simp only [List.mem_append, hkey, htoken, or_false] at hmem
  exact absurd hmem (by decide)

/-- A context is empty or begins with a space. -/
theorem contextText_cases (context : Context) :
    contextText context = [] ∨ ∃ rest, contextText context = ' ' :: rest := by
  unfold contextText
  cases ordered context with
  | nil => exact .inl rfl
  | cons entry entries => exact .inr ⟨_, rfl⟩

/-- The words of a line, in front of the line feed. -/
def Event.words (event : Event) : Text :=
  lineMark ++ ' ' :: (levelWord event.level ++ ' ' :: (stageWord event.stage ++ ' ' ::
    (eventWord event.name ++ contextText event.context)))

theorem Event.line_append (event : Event) (rest : Text) :
    event.line ++ rest = event.words ++ '\n' :: rest := by
  unfold Event.line Event.words levelWord stageWord eventWord
  simp only [List.append_assoc, List.cons_append]
  rfl

/-- Neither a space nor a line feed is in the words that every line has. -/
theorem Event.Plain.notMem_word {event : Event} (h : event.Plain) {c : Char}
    (hc : c = ' ' ∨ c = '\n') :
    c ∉ lineMark ∧ c ∉ levelWord event.level ∧ c ∉ stageWord event.stage ∧
      c ∉ eventWord event.name := by
  have hlabels : ∀ level, c ∉ lineMark ∧ c ∉ levelWord level ∧ c ∉ "stage=".toList ∧
      c ∉ "event=".toList := by
    intro level
    rcases hc with rfl | rfl <;> cases level <;> decide
  have hplain : ∀ word : Text, ' ' ∉ word ∧ '\n' ∉ word → c ∉ word := by
    intro word hword
    rcases hc with rfl | rfl
    · exact hword.1
    · exact hword.2
  obtain ⟨hmark, hlevel, hstage, hname⟩ := hlabels event.level
  exact ⟨hmark, hlevel, List.not_mem_append hstage (hplain _ (h _ (by simp))),
    List.not_mem_append hname (hplain _ (h _ (by simp)))⟩

theorem Event.Plain.newline_notMem_words {event : Event} (h : event.Plain) :
    '\n' ∉ event.words := by
  obtain ⟨hmark, hlevel, hstage, hname⟩ := h.notMem_word (.inr rfl)
  have hjoin : ∀ first rest, '\n' ∉ first → '\n' ∉ rest → '\n' ∉ first ++ ' ' :: rest :=
    fun first rest hfirst hrest =>
      List.not_mem_append hfirst (List.not_mem_cons_of_ne_of_not_mem (by decide) hrest)
  have hend := List.not_mem_append hname h.newline_notMem_contextText
  exact hjoin _ _ hmark (hjoin _ _ hlevel (hjoin _ _ hstage hend))

/-- The words of a line can be told apart again. -/
theorem Event.Plain.exists_split_words {event : Event} (h : event.Plain) :
    ∃ more, split ' ' event.words = lineMark :: levelWord event.level :: stageWord event.stage ::
      eventWord event.name :: more := by
  obtain ⟨hmark, hlevel, hstage, hname⟩ := h.notMem_word (.inl rfl)
  have hrest : ∃ more, split ' ' (eventWord event.name ++ contextText event.context) =
      eventWord event.name :: more := by
    rcases contextText_cases event.context with hnone | ⟨rest, hrest⟩
    · exact ⟨[], by rw [hnone, List.append_nil, split_eq_singleton hname]⟩
    · refine ⟨split ' ' rest, ?_⟩
      rw [hrest, split_append_cons, split_eq_singleton hname, List.singleton_append]
  obtain ⟨more, hmore⟩ := hrest
  refine ⟨more, ?_⟩
  rw [Event.words, split_append_cons, split_append_cons, split_append_cons, hmore,
    split_eq_singleton hmark, split_eq_singleton hlevel, split_eq_singleton hstage]
  rfl

/-- A line of the log tells of its own event, and of no other one. -/
theorem Event.Plain.told_line {event : Event} (h : event.Plain) (stage name rest : Text) :
    told stage name (event.line ++ rest) =
      (if event.stage = stage ∧ event.name = name then 1 else 0) + told stage name rest := by
  obtain ⟨more, hmore⟩ := h.exists_split_words
  have htells :
      tells stage name event.words = decide (event.stage = stage ∧ event.name = name) := by
    unfold tells
    rw [hmore]
    simp only [stageWord_inj, eventWord_inj, true_and]
  rw [Event.line_append, told_append_cons, told_of_notMem h.newline_notMem_words, htells]
  simp only [decide_eq_true_eq]

/-- Lines of the log tell of their events, one by one. -/
theorem told_lines {events : List Event} (h : ∀ event ∈ events, event.Plain)
    (stage name rest : Text) :
    told stage name (events.flatMap Event.line ++ rest) =
      events.countP (fun event => decide (event.stage = stage ∧ event.name = name)) +
        told stage name rest := by
  induction events with
  | nil => simp
  | cons event events ih =>
      obtain ⟨hevent, hevents⟩ := List.forall_mem_cons.1 h
      rw [List.flatMap_cons, List.append_assoc, hevent.told_line, ih hevents, List.countP_cons]
      simp only [decide_eq_true_eq]
      omega

end Log

/-! ## Lines of the report -/

/-- The identifiers of the usual rules are printable. -/
theorem Catalog.ids_printable : ∀ id ∈ Catalog.standard.ids, id.all isPrintable = true := by
  decide

namespace Listing

open Log

/-- The line of an edit is printable if the identifier of its rule is. -/
theorem isPrintable_edit {e : Edit} (hid : ∀ c ∈ e.ruleId, isPrintable c = true) :
    ∀ c ∈ edit e, isPrintable c = true := by
  have hfixed : ∀ {text : Text}, text.all isPrintable = true → ∀ c ∈ text, isPrintable c = true :=
    fun h => List.all_eq_true.1 h
  have hnumber : ∀ n : Nat, ∀ c ∈ Text.ofNat n, isPrintable c = true := fun _ _ hmem =>
    isPrintable_of_isDigit (isDigit_of_mem_ofNat hmem)
  have hquoted : ∀ text : Text, ∀ c ∈ quoted text, isPrintable c = true := fun _ _ hmem =>
    isPrintable_of_mem_quoted hmem
  unfold edit
  simp only [List.forall_mem_append, and_assoc]
  exact ⟨hfixed (by decide), hid, hfixed (by decide), hnumber _, hfixed (by decide), hnumber _,
    hfixed (by decide), hquoted _, hfixed (by decide), hquoted _⟩

/-- The first line of the listing, which tells the number of the edits. -/
def heading (result : Result) : Text :=
  "Rewrites applied: " ++ Text.ofNat result.edits.length

theorem isPrintable_heading (result : Result) : ∀ c ∈ heading result, isPrintable c = true := by
  refine List.forall_mem_append.2 ⟨List.all_eq_true.1 (by decide), fun c hc => ?_⟩
  exact isPrintable_of_isDigit (isDigit_of_mem_ofNat hc)

/-- Printable text has neither line feeds nor escape characters. -/
theorem notMem_of_isPrintable {text : Text} (h : ∀ c ∈ text, isPrintable c = true) :
    '\n' ∉ text ∧ '\x1b' ∉ text :=
  ⟨fun hmem => absurd (h _ hmem) (by decide), fun hmem => absurd (h _ hmem) (by decide)⟩

/-- Printable text is printed on a line of its own. -/
theorem line_of_isPrintable {text : Text} (h : ∀ c ∈ text, isPrintable c = true) :
    line text = text ++ ['\n'] := by
  refine printed_eq_self fun hmem => ?_
  rcases List.mem_append.1 hmem with hmem | hmem
  · exact (notMem_of_isPrintable h).2 hmem
  · exact absurd hmem (by decide)

/-- The report of the edits tells of no event. -/
theorem told_edits {result : Result}
    (h : ∀ e ∈ result.edits, ∀ c ∈ e.ruleId, isPrintable c = true) (stage name : Text) :
    told stage name (edits result) = 0 := by
  have hlines : ∀ es : List Edit, (∀ e ∈ es, ∀ c ∈ e.ruleId, isPrintable c = true) →
      told stage name (es.flatMap fun e => line (edit e)) = 0 := by
    intro es hes
    induction es with
    | nil => rfl
    | cons e es ih =>
        obtain ⟨he, hes⟩ := List.forall_mem_cons.1 hes
        have hprintable := isPrintable_edit he
        rw [List.flatMap_cons, line_of_isPrintable hprintable, List.append_assoc,
          List.singleton_append, told_other (notMem_of_isPrintable hprintable).1 ?_, ih hes]
        exact fun hhead => absurd (Option.some.inj hhead) (by decide)
  rw [edits_eq, List.append_assoc]
  refine (told_other (notMem_of_isPrintable (isPrintable_heading result)).1 ?_ _).trans
    (hlines _ h)
  exact fun hhead => absurd (Option.some.inj hhead) (by decide)

end Listing

namespace Command

open Log

variable {files : FileTree} {stdin : Utf8.Bytes} {options : UpgradeOptions} {config : Config}
  {source name : Text} {path : Path} {engine : Engine}

/-! ## What a traced upgrade tells -/

/-- The event of an upgrade whose result was lost. -/
def upgradeFailed (error : OutputError) : Event :=
  .failure upgradeStage error.type

theorem plain_start : (Event.start upgradeStage).Plain :=
  (by decide : ∀ word ∈ ["normalize".toList, "start".toList], ' ' ∉ word ∧ '\n' ∉ word)

theorem plain_ruleApplied (id : Text) (count : Int) : (Event.ruleApplied id count).Plain :=
  (by decide : ∀ word ∈ ["normalize".toList, "rule_applied".toList, "count".toList,
    "rule".toList], ' ' ∉ word ∧ '\n' ∉ word)

theorem plain_complete (result : Result) : (upgradeComplete result).Plain :=
  (by decide : ∀ word ∈ ["normalize".toList, "complete".toList, "rewrites".toList],
    ' ' ∉ word ∧ '\n' ∉ word)

theorem plain_failed (error : OutputError) : (upgradeFailed error).Plain :=
  (by decide : ∀ word ∈ ["normalize".toList, "failure".toList, "error_type".toList],
    ' ' ∉ word ∧ '\n' ∉ word)

/-- Before its result is printed or written, an upgrade tells once that it began and once that it
is complete. Otherwise it tells only of rules. -/
theorem told_upgradeEvents (hname : name ≠ "rule_applied".toList) (rest : Text) :
    told upgradeStage name ((upgradeEvents engine source).flatMap Event.line ++ rest) =
      (if "start".toList = name then 1 else 0) + (if "complete".toList = name then 1 else 0) +
        told upgradeStage name rest := by
  have hrules : ∀ event ∈ Event.ofRun engine source, event.Plain ∧ event.name ≠ name := by
    intro event hmem
    obtain ⟨⟨id, count⟩, -, rfl⟩ := List.mem_map.1 hmem
    exact ⟨plain_ruleApplied id count, Ne.symm hname⟩
  have hnone : (Event.ofRun engine source).countP
      (fun event => decide (event.stage = upgradeStage ∧ event.name = name)) = 0 := by
    refine List.countP_eq_zero.2 fun event hmem => ?_
    simp [(hrules event hmem).2]
  rw [upgradeEvents, List.flatMap_cons, List.append_assoc, plain_start.told_line,
    List.flatMap_append, List.append_assoc, told_lines (fun event hmem => (hrules event hmem).1),
    hnone, List.flatMap_singleton, (plain_complete _).told_line]
  show (if upgradeStage = upgradeStage ∧ "start".toList = name then 1 else 0) +
    (0 + ((if upgradeStage = upgradeStage ∧ "complete".toList = name then 1 else 0) + _)) = _
  simp only [true_and]
  omega

/-- The log of an upgrade whose result was lost. -/
theorem text_upgradeFailed (htrace : config.trace = true) (engine : Engine) (source : Text)
    (error : OutputError) :
    ((runEngine config engine source).1.report (runEngine config engine source).2.1
        (upgradeFailed error)).text .console =
      (upgradeEvents engine source).flatMap Event.line ++ (upgradeFailed error).line := by
  obtain ⟨hlog, hlogger⟩ := log_runEngine htrace engine source
  have hserves := (openLog_traced htrace).2.1.reportAll (upgradeEvents engine source)
  rw [← hlog] at hserves
  rw [← text_upgradeEvents htrace, hlogger, State.report, hserves.text_log rfl]
  exact congrArg _ (List.append_nil _)

/-- The edits of an upgrade are reported under printable identifiers. -/
theorem isPrintable_ruleId {e : Edit} (h : e ∈ ((options.engine config).run source).edits) :
    ∀ c ∈ e.ruleId, isPrintable c = true := by
  have hmem : e.ruleId ∈ (options.engine config).catalog.ids := ruleId_mem_of_mem_passes h
  have hsubset : (options.engine config).catalog.ids ⊆ Catalog.standard.ids :=
    (List.filter_sublist.map _).subset
  exact List.all_eq_true.1 (Catalog.ids_printable _ (hsubset hmem))

/-! ## One ending -/

/-- On the standard error stream, the upgrade began once and ended once: it is complete if it
succeeded, and failed otherwise. -/
structure EndsOnce (outcome : Outcome) : Prop where
  start : told upgradeStage "start" outcome.stderr = 1
  terminal :
    told upgradeStage "complete" outcome.stderr + told upgradeStage "failure" outcome.stderr = 1
  complete : told upgradeStage "complete" outcome.stderr = 1 ↔ outcome.exitCode = 0
  failure : told upgradeStage "failure" outcome.stderr = 1 ↔ outcome.exitCode = 1

section Host

variable [Host]

/-- A traced upgrade whose result arrives succeeds, and prints its log and its report. -/
theorem Ready.stderr_delivered (h : Ready files stdin options config source)
    (htrace : options.trace.getD config.trace = true)
    (hdelivers : Delivers files options.out ((options.engine config).run source).text) :
    (run files stdin (.upgrade options)).exitCode = 0 ∧
      (run files stdin (.upgrade options)).stderr =
        (upgradeEvents (options.engine config) source).flatMap Event.line ++
          Listing.edits ((options.engine config).run source) := by
  have htrace : (config.override (UpgradeOptions.overrides options config)).trace = true := htrace
  have hzero := h.exitCode_eq_zero_iff.2 hdelivers
  refine ⟨hzero, ?_⟩
  rw [h.run_eq] at hzero ⊢
  obtain ⟨rest, hstderr, hrest⟩ := exists_stderr_finish htrace files options.out
    (options.engine config) source
  rw [hstderr, hrest hzero, text_upgradeEvents htrace]

/-- A traced upgrade whose result does not arrive fails after it was logged as complete. -/
theorem Ready.stderr_lost (h : Ready files stdin options config source)
    (htrace : options.trace.getD config.trace = true)
    (hlost : ¬ Delivers files options.out ((options.engine config).run source).text) :
    (run files stdin (.upgrade options)).exitCode = 1 ∧
      ∃ error report,
        (deliver files ((options.engine config).run source).text options.out).2.2 = some error ∧
        (run files stdin (.upgrade options)).stderr =
          (upgradeEvents (options.engine config) source).flatMap Event.line ++
            ((upgradeFailed error).line ++ report) := by
  have htrace : (config.override (UpgradeOptions.overrides options config)).trace = true := htrace
  obtain ⟨error, herror, hfinish⟩ := finish_lost
    (config.override (UpgradeOptions.overrides options config)) _ hlost
  rw [h.run_eq, hfinish]
  refine ⟨rfl, error, error.failure.report, herror, ?_⟩
  rw [← List.append_assoc, ← text_upgradeFailed htrace]
  rfl

theorem Ready.endsOnce (h : Ready files stdin options config source)
    (htrace : options.trace.getD config.trace = true)
    (hdelivers : Delivers files options.out ((options.engine config).run source).text) :
    EndsOnce (run files stdin (.upgrade options)) := by
  obtain ⟨hzero, hstderr⟩ := h.stderr_delivered htrace hdelivers
  have htold : ∀ name : Text, name ≠ "rule_applied".toList →
      told upgradeStage name (run files stdin (.upgrade options)).stderr =
        (if "start".toList = name then 1 else 0) +
          (if "complete".toList = name then 1 else 0) := by
    intro name hname
    rw [hstderr, told_upgradeEvents hname, Listing.told_edits fun e he => isPrintable_ruleId he,
      Nat.add_zero]
  have hstart := htold "start" (by decide)
  have hcomplete := htold "complete" (by decide)
  have hfailure := htold "failure" (by decide)
  constructor
  · exact hstart
  · rw [hcomplete, hfailure]
    rfl
  · exact iff_of_true hcomplete hzero
  · rw [hfailure, hzero]
    decide

theorem Ready.not_endsOnce (h : Ready files stdin options config source)
    (htrace : options.trace.getD config.trace = true)
    (hlost : ¬ Delivers files options.out ((options.engine config).run source).text) :
    ¬ EndsOnce (run files stdin (.upgrade options)) := by
  obtain ⟨-, error, report, -, hstderr⟩ := h.stderr_lost htrace hlost
  intro hends
  have hterminal := hends.terminal
  rw [hstderr, told_upgradeEvents (by decide), told_upgradeEvents (by decide),
    (plain_failed error).told_line, (plain_failed error).told_line] at hterminal
  -- The event of completion and the event of failure are counted both.
  have hcomplete : (if "complete".toList = "complete".toList then 1 else 0) = 1 := rfl
  have hfailure : (if (upgradeFailed error).stage = upgradeStage ∧
      (upgradeFailed error).name = "failure".toList then 1 else 0) = 1 := if_pos ⟨rfl, rfl⟩
  omega

/-- A traced upgrade that got past reading its input begins once and ends once exactly if its
result arrives: it can be printed, or its file can be opened and it can be encoded. Otherwise the
upgrade fails, and what it prints tells that it is complete, and then that it failed. -/
theorem ends_once_iff (h : Ready files stdin options config source)
    (htrace : options.trace.getD config.trace = true) :
    let outcome := run files stdin (.upgrade options)
    let text := ((options.engine config).run source).text
    (EndsOnce outcome ↔ Delivers files options.out text) ∧
      (¬ Delivers files options.out text → outcome.exitCode = 1 ∧
        ∃ error report, (deliver files text options.out).2.2 = some error ∧ outcome.stderr =
          (upgradeEvents (options.engine config) source ++ [upgradeFailed error]).flatMap
            Event.line ++ report) := by
  refine ⟨⟨fun hends => ?_, h.endsOnce htrace⟩, fun hlost => ?_⟩
  · by_contra hlost
    exact h.not_endsOnce htrace hlost hends
  · obtain ⟨hone, error, report, herror, hstderr⟩ := h.stderr_lost htrace hlost
    refine ⟨hone, error, report, herror, ?_⟩
    rw [hstderr, List.flatMap_append, List.flatMap_singleton, List.append_assoc]

end Host

/-- A traced upgrade of the standard input to a new file ends once. -/
theorem ends_once_iff_new :
    let _ : Host := .blank
    let options : UpgradeOptions := { out := some ⟨.here, ["out"]⟩, trace := some true }
    Ready ⟨[], []⟩ (Utf8.encode "reply.choices[0].text") options {} "reply.choices[0].text" ∧
      EndsOnce (run ⟨[], []⟩ (Utf8.encode "reply.choices[0].text") (.upgrade options)) := by
  intro host options
  have hready : Ready ⟨[], []⟩ (Utf8.encode "reply.choices[0].text") options {}
      "reply.choices[0].text" := ⟨rfl, rfl, by simp [options]⟩
  exact ⟨hready, (ends_once_iff hready rfl).1.2 ⟨writable_out, rfl⟩⟩

/-- A traced upgrade to a path where a directory stands is logged as complete and as failed. -/
theorem ends_twice_directory :
    let _ : Host := .blank
    let files : FileTree := ⟨[], [(["d"], .directory)]⟩
    let options : UpgradeOptions := { out := some ⟨.here, ["d"]⟩, trace := some true }
    let outcome := run files (Utf8.encode "x") (.upgrade options)
    Ready files (Utf8.encode "x") options {} "x" ∧ outcome.exitCode = 1 ∧ ¬ EndsOnce outcome := by
  intro host files options outcome
  have hready : Ready files (Utf8.encode "x") options {} "x" :=
    ⟨rfl, rfl, by simp [options]⟩
  have hlost : ¬ Delivers files options.out ((options.engine {}).run "x").text :=
    mt deliver_eq_none_iff.2 (by decide)
  exact ⟨hready, (hready.stderr_lost rfl hlost).1, hready.not_endsOnce rfl hlost⟩

end Command

end SdkUpgrade
