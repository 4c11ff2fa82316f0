import SdkUpgrade.Log.Line

/-!
# Run loggers and their sinks

Every event that is logged passes through one registry of handlers. A handler takes the events
that carry its token, or all events if it has none, as long as their level is not below its own,
and writes them to its sink. A run logger marks its events with a token that no other logger has.
It is attached by one handler, whose number it keeps until it is closed. All handlers can be
detached together. The loggers do not notice that, so closing one of them fails from then on.
-/

namespace SdkUpgrade

namespace Log

/-- Where a handler writes to. -/
inductive Sink where
  /-- The standard error stream. -/
  | console
  /-- The sink that belongs to the logger of this number. -/
  | own (logger : Nat)
  deriving DecidableEq, Repr

/-- A handler of the registry. -/
structure Handler where
  number : Nat
  token : Option Nat
  level : Level
  sink : Sink
  deriving DecidableEq, Repr

/-- The handler takes an event that is logged under a token. -/
def Handler.takes (handler : Handler) (token : Nat) (event : Event) : Bool :=
  handler.token.all (· == token) && decide (handler.level.number ≤ event.level.number)

/-- A run logger: the token of its events, and the number of its handler until it is closed. -/
structure Logger where
  token : Nat
  handler : Option Nat
  deriving DecidableEq, Repr

/-- Why an operation on the loggers failed. -/
inductive LoggerError where
  /-- There is no level of this name. -/
  | unknownLevel (name : Text)
  /-- There is no logger of this number. -/
  | unknownLogger (number : Nat)
  /-- The logger's handler was removed before the logger was closed. -/
  | noHandler
  /-- The context uses a name that every line uses already. -/
  | reservedName (name : Text)
  /-- A value of the context could not be read as a text. -/
  | unreadableValue (error : DisplayError)
  deriving DecidableEq, Repr

/-- The wording of a failed operation. -/
def LoggerError.message : LoggerError → Text
  | unknownLevel name => "Level '" ++ name ++ "' does not exist"
  | unknownLogger number => "There is no logger " ++ Text.ofNat number
  | noHandler => "There is no existing handler"
  | reservedName name => "The name " ++ Text.quoted name ++ " is taken"
  | unreadableValue error => error.message

/-- A context may not use the names that every line uses. -/
def Event.check (event : Event) : Except LoggerError Unit :=
  match event.context.find? fun entry => decide (entry.1 ∈ reservedNames) with
  | some (name, _) => .error (.reservedName name)
  | none => .ok ()

/-- The registry of handlers, the loggers in the order of their opening, and what was written to
the sinks so far. Before anything is opened there is one handler, which takes every event. -/
structure State where
  handlers : List Handler := [⟨0, none, .debug, .console⟩]
  nextHandler : Nat := 1
  nextToken : Nat := 1
  loggers : List Logger := []
  written : List (Sink × Event) := []

namespace State

/-- The text in a sink. -/
def text (state : State) (sink : Sink) : Text :=
  (state.written.filter fun entry => decide (entry.1 = sink)).flatMap fun entry => entry.2.line

/-- The logger of the given number. -/
def logger? (state : State) (number : Nat) : Option Logger :=
  state.loggers[number]?

/-- A number for a handler and a token are used up. -/
def advance (state : State) : State :=
  { state with nextHandler := state.nextHandler + 1, nextToken := state.nextToken + 1 }

/-- A new logger with its handler. It gets the next number. -/
def add (state : State) (sink : Sink) (level : Level) : State :=
  { state.advance with
    handlers := state.handlers ++ [⟨state.nextHandler, some state.nextToken, level, sink⟩]
    loggers := state.loggers ++ [⟨state.nextToken, some state.nextHandler⟩] }

/-- A new logger at the level of the given name, if there is one. -/
def attach (state : State) (sink : Sink) (levelName : Text) : State × Option LoggerError :=
  match Level.ofName? levelName with
  | some level => (state.add sink level, none)
  | none => (state.advance, some (.unknownLevel levelName))

/-- Every handler that takes the event writes it to its sink. -/
def deliver (state : State) (token : Nat) (event : Event) : State :=
  let takers := state.handlers.filter fun handler => handler.takes token event
  { state with written := state.written ++ takers.map fun handler => (handler.sink, event) }

/-- The logger of the given number logs an event, the values of which can be read. -/
def log (state : State) (number : Nat) (event : Event) : State × Option LoggerError :=
  match state.logger? number with
  | none => (state, some (.unknownLogger number))
  | some logger =>
      match event.check with
      | .error error => (state, some error)
      | .ok () => (state.deliver logger.token event, none)

/-- The logger of the given number is asked to log an event, whatever the values of its context
are. -/
def request (state : State) (number : Nat) (event : Event) : State × Option LoggerError :=
  match state.log number event, format event.context with
  | (_, some error), _ => (state, some error)
  | (_, none), .error error => (state, some (.unreadableValue error))
  | (next, none), .ok _ => (next, none)

/-- The logger of the given number gives up its handler, which is removed. -/
def release (state : State) (number : Nat) (logger : Logger) : State :=
  { state with
    handlers := state.handlers.filter fun handler => decide (logger.handler ≠ some handler.number)
    loggers := state.loggers.set number { logger with handler := none } }

/-- The logger of the given number is closed. Closing it again changes nothing. -/
def close (state : State) (number : Nat) : State × Option LoggerError :=
  match state.logger? number with
  | none => (state, some (.unknownLogger number))
  | some logger =>
      match logger.handler with
      | none => (state, none)
      | some handler =>
          if handler ∈ state.handlers.map Handler.number then (state.release number logger, none)
          else (state, some .noHandler)

/-- All handlers are removed. -/
def detach (state : State) : State :=
  { state with handlers := [] }

/-- An event of the program itself is logged if there is a logger. Its values are texts and
numbers of edits, which can be read. -/
def report (state : State) : Option Nat → Event → State
  | none, _ => state
  | some number, event => (state.log number event).1

/-- The rules are applied to a text, one after the other. Each one that makes an edit is reported
before the next one begins. -/
def applyRules {κ : Type} [Recogniser κ] (radius logger : Option Nat) :
    State → List (Rule κ) → Text → State × Result
  | state, [], text => (state, ⟨text, []⟩)
  | state, rule :: rules, text =>
      let edits := rule.edits radius text
      let next :=
        if edits = [] then state else state.report logger (.ruleApplied rule.id edits.length)
      let (last, result) := applyRules radius logger next rules (rule.apply radius text)
      (last, ⟨result.text, edits ++ result.edits⟩)

/-- The run of an engine over a text, with a logger or without one. -/
def upgrade {κ : Type} [Recogniser κ] (state : State) (logger : Option Nat) (engine : Engine κ)
    (text : Text) :
    State × Result :=
  state.applyRules engine.radius logger engine.catalog.rules (engine.prepare text)

end State

/-- What can be done with run loggers. -/
inductive Action where
  /-- A new logger with a sink of its own is opened at the level of the given name. -/
  | attach (levelName : Text)
  /-- The logger of the given number is asked to log an event. -/
  | log (number : Nat) (event : Event)
  /-- An engine runs over a text with the logger of the given number. -/
  | upgrade (number : Nat) (engine : Engine) (text : Text)
  /-- The logger of the given number is closed. -/
  | close (number : Nat)
  /-- All handlers are detached. -/
  | detach

namespace State

/-- The state after an action, and why the action failed if it did. -/
def perform (state : State) : Action → State × Option LoggerError
  | .attach levelName => state.attach (.own state.loggers.length) levelName
  | .log number event => state.request number event
  | .upgrade number engine text =>
      if number < state.loggers.length then ((state.upgrade (some number) engine text).1, none)
      else (state, some (.unknownLogger number))
  | .close number => state.close number
  | .detach => (state.detach, none)

/-- The state after some actions, whether they fail or not. -/
def performAll (state : State) (actions : List Action) : State :=
  actions.foldl (fun state action => (state.perform action).1) state

end State

end Log

end SdkUpgrade
