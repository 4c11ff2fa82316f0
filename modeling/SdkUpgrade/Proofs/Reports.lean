import SdkUpgrade.Log.Sinks
import SdkUpgrade.Proofs.Trace

/-!
# What a run reports

The engine reports every rule that made an edit while it runs. Read `State.upgrade_eq` first: a
run with a logger has the result of the run without one, and its reports are the events of the
run, one after the other. `State.Serves.text_reportAll` says which lines they leave in a sink
that one handler writes to.
-/

namespace SdkUpgrade

namespace Log

variable {κ : Type} [Recogniser κ]

/-- The events of some passes: one for every pass that made an edit. -/
def Event.ofPasses (passes : List (Pass κ)) : List Event :=
  (passes.filter fun pass => decide (pass.edits ≠ [])).map fun pass =>
    ruleApplied pass.rule.id pass.edits.length

/-- The events of a run are those of its passes. -/
theorem Event.ofRun_eq (engine : Engine κ) (text : Text) :
    ofRun engine text = ofPasses (engine.passes text) := by
  unfold ofRun Engine.firings ofPasses
  rw [List.map_map]
  rfl

/-- The events of a run use no reserved name, and have the usual level. -/
theorem Event.of_mem_ofRun {engine : Engine κ} {text : Text} {event : Event}
    (h : event ∈ ofRun engine text) : event.check = .ok () ∧ event.level = .info := by
  obtain ⟨⟨ruleId, count⟩, -, rfl⟩ := List.mem_map.1 h
  exact ⟨rfl, rfl⟩

/-- The lines of the events whose level is not below the given one. -/
def linesFrom (level : Level) (events : List Event) : Text :=
  (events.filter fun event => decide (level.number ≤ event.level.number)).flatMap Event.line

theorem linesFrom_append (level : Level) (first second : List Event) :
    linesFrom level (first ++ second) = linesFrom level first ++ linesFrom level second := by
  simp [linesFrom]

namespace State

/-! ## The engine and its reports -/

/-- The state after some events were reported, one after the other. -/
def reportAll (state : State) (logger : Option Nat) (events : List Event) : State :=
  events.foldl (fun state event => state.report logger event) state

/-- Without a logger nothing is reported. -/
theorem reportAll_none (state : State) (events : List Event) :
    state.reportAll none events = state := by
  induction events with
  | nil => rfl
  | cons event events ih => exact ih

/-- Applying rules with a logger reports their passes and does nothing else than the passes do. -/
theorem applyRules_eq (radius logger : Option Nat) (state : State) (rules : List (Rule κ))
    (text : Text) :
    state.applyRules radius logger rules text =
      (state.reportAll logger (Event.ofPasses (passes radius rules text)),
        ⟨finalText radius rules text, (passes radius rules text).flatMap Pass.edits⟩) := by
  induction rules generalizing state text with
  | nil => rfl
  | cons rule rules ih =>
      unfold applyRules
      simp only [ih]
      by_cases hnone : rule.edits radius text = []
      · simp [hnone, passes, Event.ofPasses, finalText]
      · simp [hnone, passes, Event.ofPasses, finalText, reportAll]

/-- A run with a logger has the result of the run without one, and reports its events. -/
theorem upgrade_eq (state : State) (logger : Option Nat) (engine : Engine κ) (text : Text) :
    state.upgrade logger engine text =
      (state.reportAll logger (Event.ofRun engine text), engine.run text) := by
  unfold upgrade
  rw [applyRules_eq, Event.ofRun_eq, ← engine.text_run text]
  rfl

/-! ## What reports leave in a sink -/

/-- The handlers that write to a sink. -/
def writers (state : State) (sink : Sink) : List Handler :=
  state.handlers.filter fun handler => decide (handler.sink = sink)

/-- One handler writes to the sink. It has the given level and takes the events of the
logger of the given number. -/
def Serves (state : State) (number : Nat) (level : Level) (sink : Sink) : Prop :=
  ∃ logger handler, state.logger? number = some logger ∧ state.writers sink = [handler] ∧
    handler.level = level ∧ handler.token = some logger.token

/-- Logging an event changes nothing but what was written, if that. -/
theorem log_eq (state : State) (number : Nat) (event : Event) :
    (state.log number event).1 = state ∨
      ∃ token, (state.log number event).1 = state.deliver token event := by
  unfold log
  split
  · exact .inl rfl
  · split
    · exact .inl rfl
    · exact .inr ⟨_, rfl⟩

/-- An event with a reserved name in its context is not logged. -/
theorem log_of_refused {event : Event} {error : LoggerError} (h : event.check = .error error)
    (state : State) (number : Nat) : (state.log number event).1 = state := by
  rw [log, h]
  cases state.logger? number with
  | none => rfl
  | some logger => rfl

/-- A request to log an event with values that can be read logs it. -/
theorem request_of_ok {event : Event} {text : Text} (h : format event.context = .ok text)
    (state : State) (number : Nat) : state.request number event = state.log number event := by
  rw [request, h, log]
  cases state.logger? number with
  | none => rfl
  | some logger =>
      cases event.check with
      | error error => rfl
      | ok => rfl

/-- A request to log an event with a value that cannot be read changes nothing. -/
theorem request_of_error {event : Event} {error : DisplayError}
    (h : format event.context = .error error) (state : State) (number : Nat) :
    (state.request number event).1 = state := by
  rw [request, h]
  rcases state.log number event with ⟨next, error | error⟩
  · rfl
  · rfl

/-- A delivery adds a line to a sink for every handler on it that takes the event. -/
theorem text_deliver (state : State) (token : Nat) (event : Event) (sink : Sink) :
    (state.deliver token event).text sink = state.text sink ++
      ((state.writers sink).filter fun handler => handler.takes token event).flatMap
        fun _ => event.line := by
  unfold text deliver writers
  simp only [List.filter_append, List.flatMap_append, List.filter_map, List.flatMap_map,
    List.filter_filter, Function.comp_def, Bool.and_comm]

/-- A report takes nothing away from a sink. -/
theorem exists_text_report (state : State) (logger : Option Nat) (event : Event) (sink : Sink) :
    ∃ more, (state.report logger event).text sink = state.text sink ++ more := by
  cases logger with
  | none => exact ⟨[], (List.append_nil _).symm⟩
  | some number =>
      show ∃ more, (state.log number event).1.text sink = _
      rcases state.log_eq number event with heq | ⟨token, heq⟩
      · exact ⟨[], by rw [heq, List.append_nil]⟩
      · exact ⟨_, by rw [heq, text_deliver]⟩

namespace Serves

variable {state : State} {number : Nat} {level : Level} {sink : Sink}

/-- An event that is logged adds its line to the sink, unless its level is too low. -/
theorem text_log (h : state.Serves number level sink) {event : Event}
    (hchecked : event.check = .ok ()) :
    (state.log number event).1.text sink = state.text sink ++ linesFrom level [event] := by
  obtain ⟨logger, handler, hlogger, hone, rfl, htoken⟩ := h
  unfold log
  simp only [hlogger, hchecked]
  rw [text_deliver, hone]
  by_cases hlevel : handler.level.number ≤ event.level.number <;>
    simp [Handler.takes, htoken, hlevel, linesFrom]

theorem log (h : state.Serves number level sink) (event : Event) :
    (state.log number event).1.Serves number level sink := by
  rcases state.log_eq number event with heq | ⟨token, heq⟩
  · rw [heq]
    exact h
  · rw [heq]
    exact h

theorem reportAll (h : state.Serves number level sink) (events : List Event) :
    (state.reportAll (some number) events).Serves number level sink := by
  induction events generalizing state with
  | nil => exact h
  | cons event events ih => exact ih (h.log event)

/-- Events that are reported add their lines to the sink, in order. -/
theorem text_reportAll (h : state.Serves number level sink) {events : List Event}
    (hchecked : ∀ event ∈ events, event.check = .ok ()) :
    (state.reportAll (some number) events).text sink =
      state.text sink ++ linesFrom level events := by
  induction events generalizing state with
  | nil => simp [State.reportAll, linesFrom]
  | cons event events ih =>
      have hrest := ih (h.log event) fun other hmem =>
          hchecked other (List.mem_cons_of_mem _ hmem)
      refine hrest.trans ?_
      rw [h.text_log (hchecked event List.mem_cons_self), List.append_assoc, ← linesFrom_append]
      rfl

end Serves

end State

end Log

end SdkUpgrade
