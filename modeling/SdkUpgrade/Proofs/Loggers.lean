import SdkUpgrade.Proofs.Registry

/-!
# Run loggers do not disturb each other

Read `State.loggers_isolated` first: whatever is done with any number of loggers, the sink
of a logger holds the lines that were emitted through it while it was attached, at a level
not below its own, and nothing else. Closing it fails exactly if its handler was detached
before it could be closed.

`Attachment` tells what has become of one logger by looking at the actions alone, and
`State.Stands` ties it to the registry. Both follow every action, step by step.
-/

namespace SdkUpgrade

namespace Log

/-! ## What a history says about a logger -/

namespace Action

/-- The action takes the handler of the logger of the given number away. -/
def parts (number : Nat) : Action → Bool
  | close other => other == number
  | detach => true
  | _ => false

/-- The events that the action logs through the logger of the given number. An event is not logged
if its context uses a reserved name or has a value that cannot be read. -/
def events (number : Nat) : Action → List Event
  | log other event =>
      match event.check, format event.context with
      | .ok (), .ok _ => if other = number then [event] else []
      | _, _ => []
  | upgrade other engine text => if other = number then Event.ofRun engine text else []
  | _ => []

end Action

/-- The lines that were emitted through the logger of the given number and level since it was
opened, until an action took its handler away. -/
def linesSince (number : Nat) (level : Level) (actions : List Action) : Text :=
  linesFrom level
    ((actions.takeWhile fun action => !action.parts number).flatMap (Action.events number))

/-- What has become of a logger. -/
inductive Attachment where
  | attached
  | closed
  | detached
  deriving DecidableEq, Repr

namespace Attachment

/-- What becomes of the logger of the given number by an action. -/
def next (number : Nat) : Attachment → Action → Attachment
  | attached, .close other => if other = number then closed else attached
  | attached, .detach => detached
  | attachment, _ => attachment

/-- What becomes of the logger of the given number by some actions. -/
def since (number : Nat) (attachment : Attachment) (actions : List Action) : Attachment :=
  actions.foldl (next number) attachment

/-- What a logger of the given level writes of some events. -/
def hears (level : Level) : Attachment → List Event → Text
  | attached, events => linesFrom level events
  | _, _ => []

section

variable {number : Nat} {attachment : Attachment} {action : Action} {actions : List Action}

/-- Nothing happens to a logger by an action that does not take its handler away. -/
theorem next_of_not_parts (h : action.parts number = false) :
    attachment.next number action = attachment := by
  cases attachment <;> cases action <;> simp_all [next, Action.parts]

/-- An action that takes the handler of an attached logger away closes or detaches it. -/
theorem next_of_parts (h : action.parts number = true) :
    attached.next number action ≠ attached := by
  cases action <;> simp_all [next, Action.parts]

/-- Nothing happens any more to a logger that is closed or detached. -/
theorem next_of_ne_attached (h : attachment ≠ attached) :
    attachment.next number action = attachment := by
  cases attachment with
  | attached => exact absurd rfl h
  | closed => rfl
  | detached => rfl

theorem since_of_ne_attached (h : attachment ≠ attached) :
    attachment.since number actions = attachment := by
  induction actions with
  | nil => rfl
  | cons action actions ih =>
      show (attachment.next number action).since number actions = attachment
      rw [next_of_ne_attached h, ih]

theorem since_append (attachment : Attachment) (first second : List Action) :
    attachment.since number (first ++ second) =
      (attachment.since number first).since number second :=
  List.foldl_append

/-- A logger is attached as long as no action took its handler away. -/
theorem since_eq_attached_iff :
    attached.since number actions = attached ↔
      ∀ action ∈ actions, action.parts number = false := by
  induction actions with
  | nil => simp [since]
  | cons action actions ih =>
      show (attached.next number action).since number actions = attached ↔ _
      rw [List.forall_mem_cons]
      cases hparts : action.parts number with
      | false =>
          rw [next_of_not_parts hparts, ih]
          simp
      | true =>
          rw [since_of_ne_attached (next_of_parts hparts)]
          simpa using next_of_parts hparts

/-- Only closing the logger itself and detaching all handlers take the handler of a logger
away. -/
theorem next_cases (h : attached.next number action ≠ attached) :
    (action = .close number ∧ attached.next number action = closed) ∨
      (action = .detach ∧ attached.next number action = detached) := by
  cases action with
  | close other =>
      by_cases hother : other = number
      · subst hother
        exact .inl ⟨rfl, by simp [next]⟩
      · exact absurd (by simp [next, hother]) h
  | detach => exact .inr ⟨rfl, rfl⟩
  | attach levelName => exact absurd rfl h
  | log other event => exact absurd rfl h
  | upgrade other engine text => exact absurd rfl h

/-- What has become of a logger was decided by the first action that took its handler away. -/
theorem exists_parts (h : attached.since number actions ≠ attached) :
    ∃ first action rest, actions = first ++ action :: rest ∧
      attached.since number first = attached ∧
      attached.since number actions = attached.next number action := by
  induction actions with
  | nil => exact absurd rfl h
  | cons action actions ih =>
      cases hparts : action.parts number with
      | false =>
          have hskip : ∀ others, attached.since number (action :: others) =
              attached.since number others := by
            intro others
            show (attached.next number action).since number others = _
            rw [next_of_not_parts hparts]
          rw [hskip] at h ⊢
          obtain ⟨first, parting, rest, rfl, hfirst, hnext⟩ := ih h
          exact ⟨action :: first, parting, rest, rfl, (hskip first).trans hfirst, hnext⟩
      | true => exact ⟨[], action, actions, rfl, rfl, since_of_ne_attached (next_of_parts hparts)⟩

/-- A logger is detached if it was never closed before it could be detached, and then was. -/
theorem since_eq_detached_iff :
    attached.since number actions = detached ↔
      (¬ ∃ first rest, actions = first ++ .close number :: rest ∧
        attached.since number first ≠ detached) ∧ .detach ∈ actions := by
  constructor
  · intro h
    constructor
    · rintro ⟨first, rest, rfl, hfirst⟩
      rw [since_append] at h
      have hclose : (attached.since number first).next number (.close number) = closed := by
        cases hsince : attached.since number first with
        | attached => simp [next]
        | closed => rfl
        | detached => exact absurd hsince hfirst
      have hkeep :
          (attached.since number first).since number (.close number :: rest) = closed := by
        show ((attached.since number first).next number (.close number)).since number
            rest = closed
        rw [hclose]
        exact since_of_ne_attached (by simp)
      exact absurd (hkeep.symm.trans h) (by simp)
    · have hne : attached.since number actions ≠ attached := by
        rw [h]
        simp
      obtain ⟨first, action, rest, rfl, -, hnext⟩ := exists_parts hne
      rcases next_cases (hnext ▸ hne) with ⟨-, hclosed⟩ | ⟨rfl, -⟩
      · exact absurd (h.symm.trans (hnext.trans hclosed)) (by simp)
      · simp
  · rintro ⟨hopen, hdetach⟩
    have hne : attached.since number actions ≠ attached := by
      intro h
      have hparts := since_eq_attached_iff.1 h .detach hdetach
      exact absurd hparts (by simp [Action.parts])
    obtain ⟨first, action, rest, heq, hfirst, hnext⟩ := exists_parts hne
    rcases next_cases (hnext ▸ hne) with ⟨rfl, -⟩ | ⟨-, hdetached⟩
    · exact absurd ⟨first, rest, heq, by rw [hfirst]; simp⟩ hopen
    · exact hnext.trans hdetached

end

theorem hears_nil (attachment : Attachment) (level : Level) : attachment.hears level [] = [] := by
  cases attachment <;> rfl

theorem hears_append (level : Level) (attachment : Attachment) (first second : List Event) :
    attachment.hears level (first ++ second) =
      attachment.hears level first ++ attachment.hears level second := by
  cases attachment <;> simp [hears, linesFrom]

end Attachment

/-- If a function tells the elements of a list apart, only the element itself has its value. -/
theorem filter_eq_singleton {α β : Type} [DecidableEq β] {f : α → β} {items : List α} {item : α}
    (h : (items.map f).Nodup) (hmem : item ∈ items) :
    items.filter (fun other => decide (f other = f item)) = [item] := by
  induction items with
  | nil => exact absurd hmem List.not_mem_nil
  | cons first rest ih =>
      obtain ⟨hfirst, hrest⟩ := List.nodup_cons.1 h
      rcases List.mem_cons.1 hmem with rfl | hmem
      · have hnone : rest.filter (fun other => decide (f other = f item)) = [] := by
          refine List.filter_eq_nil_iff.2 fun other hother => ?_
          have hne : f other ≠ f item := fun heq => hfirst (heq ▸ List.mem_map_of_mem hother)
          simpa using hne
        simp [hnone]
      · have hne : f first ≠ f item := fun heq => hfirst (heq ▸ List.mem_map_of_mem hmem)
        simp [hne, ih hrest hmem]

namespace State

/-! ## What one action does to one logger -/

/-- The logger of the given number and level stands in the registry as its attachment says. -/
def Stands (state : State) (number : Nat) (level : Level) : Attachment → Prop
  | .attached => ∃ handler ∈ state.handlers, handler.sink = .own number ∧ handler.level = level
  | .closed => ∃ logger, state.logger? number = some logger ∧ logger.handler = none
  | .detached => ∃ logger handler, state.logger? number = some logger ∧
      logger.handler = some handler ∧ handler ∉ state.handlers.map Handler.number

variable {state : State} {number k : Nat} {logger : Logger} {level : Level}
  {attachment : Attachment}

theorem Stands.exists_logger (hs : state.Stands k level attachment) (h : state.Sound) :
    ∃ logger, state.logger? k = some logger := by
  cases attachment with
  | attached =>
      obtain ⟨handler, hmem, hsink, -⟩ := hs
      obtain ⟨logger, hlogger, -⟩ := h.owner handler hmem k hsink
      exact ⟨logger, hlogger⟩
  | closed =>
      obtain ⟨logger, hlogger, -⟩ := hs
      exact ⟨logger, hlogger⟩
  | detached =>
      obtain ⟨logger, -, hlogger, -⟩ := hs
      exact ⟨logger, hlogger⟩

/-- To the sink of an attached logger writes one handler, which takes the events of the logger. -/
theorem Sound.serves (h : state.Sound) (hs : state.Stands k level .attached) :
    state.Serves k level (.own k) := by
  obtain ⟨handler, hmem, hsink, hlevel⟩ := hs
  obtain ⟨logger, hlogger, -, htoken⟩ := h.owner handler hmem k hsink
  have hone := filter_eq_singleton h.sinks hmem
  rw [hsink] at hone
  exact ⟨logger, handler, hlogger, hone, hlevel, htoken⟩

/-- To the sink of a logger that is closed or detached writes no handler. -/
theorem Sound.writers_of_ne_attached (h : state.Sound) (hs : state.Stands k level attachment)
    (hne : attachment ≠ .attached) : state.writers (.own k) = [] := by
  refine List.filter_eq_nil_iff.2 fun handler hmem hsink => ?_
  obtain ⟨owner, howner, hnumber, -⟩ := h.owner handler hmem k (of_decide_eq_true hsink)
  cases attachment with
  | attached => exact hne rfl
  | closed =>
      obtain ⟨logger, hlogger, hnone⟩ := hs
      obtain rfl := Option.some.inj (howner.symm.trans hlogger)
      rw [hnone] at hnumber
      exact absurd hnumber (by simp)
  | detached =>
      obtain ⟨logger, handler', hlogger, hsome, hgone⟩ := hs
      obtain rfl := Option.some.inj (howner.symm.trans hlogger)
      obtain rfl := Option.some.inj (hnumber.symm.trans hsome)
      exact hgone (List.mem_map_of_mem hmem)

/-- An event that one logger logs reaches the sink of the same logger, if that is attached and at
a level not below its own, and the sink of no other logger. -/
theorem Sound.text_deliver (h : state.Sound) (hs : state.Stands k level attachment)
    (hlogger : state.logger? number = some logger) (event : Event) :
    (state.deliver logger.token event).text (.own k) =
      state.text (.own k) ++ attachment.hears level (if number = k then [event] else []) := by
  rw [State.text_deliver]
  refine congrArg (_ ++ ·) ?_
  by_cases hattached : attachment = .attached
  · subst hattached
    obtain ⟨owner, handler, howner, hone, rfl, htoken⟩ := h.serves hs
    rw [hone]
    by_cases hk : number = k
    · subst hk
      obtain rfl := Option.some.inj (hlogger.symm.trans howner)
      by_cases hlevel : handler.level.number ≤ event.level.number <;>
        simp [Handler.takes, htoken, hlevel, Attachment.hears, linesFrom]
    · have hne : owner.token ≠ logger.token := fun heq =>
        hk (h.tokens number k logger owner hlogger howner heq.symm)
      simp [Handler.takes, htoken, hne, hk, Attachment.hears, linesFrom]
  · rw [h.writers_of_ne_attached hs hattached]
    cases attachment with
    | attached => exact absurd rfl hattached
    | closed => rfl
    | detached => rfl

theorem stands_log (number : Nat) (event : Event) :
    (state.log number event).1.Stands k level attachment ↔ state.Stands k level attachment := by
  rcases state.log_eq number event with heq | ⟨token, heq⟩
  · rw [heq]
  · rw [heq]
    cases attachment <;> exact Iff.rfl

theorem stands_request (number : Nat) (event : Event) :
    (state.request number event).1.Stands k level attachment ↔
      state.Stands k level attachment := by
  cases hformat : format event.context with
  | error error => rw [request_of_error hformat]
  | ok text =>
      rw [request_of_ok hformat]
      exact stands_log number event

/-- An event that is logged adds to the sink of a logger what the logger hears of it. -/
theorem Sound.text_log (h : state.Sound) (hs : state.Stands k level attachment) (number : Nat)
    {event : Event} (hchecked : event.check = .ok ()) :
    (state.log number event).1.text (.own k) =
      state.text (.own k) ++ attachment.hears level (if number = k then [event] else []) := by
  unfold State.log
  cases hlogger : state.logger? number with
  | none =>
      have hne : number ≠ k := by
        rintro rfl
        obtain ⟨logger, hsome⟩ := hs.exists_logger h
        exact absurd (hlogger.symm.trans hsome) (by simp)
      rw [if_neg hne, Attachment.hears_nil, List.append_nil]
  | some logger =>
      rw [hchecked]
      exact h.text_deliver hs hlogger event

/-- An event that a logger is asked to log adds to the sink of a logger what that hears of it. -/
theorem Sound.text_request (h : state.Sound) (hs : state.Stands k level attachment) (number : Nat)
    (event : Event) :
    (state.request number event).1.text (.own k) =
      state.text (.own k) ++ attachment.hears level (Action.events k (.log number event)) := by
  cases hformat : format event.context with
  | error error =>
      rw [request_of_error hformat]
      cases hcheck : event.check <;>
        simp [Action.events, hcheck, hformat, Attachment.hears_nil]
  | ok text =>
      rw [request_of_ok hformat]
      cases hcheck : event.check with
      | error error =>
          rw [log_of_refused hcheck]
          simp [Action.events, hcheck, hformat, Attachment.hears_nil]
      | ok =>
          rw [h.text_log hs number hcheck]
          simp [Action.events, hcheck, hformat]

theorem stands_reportAll (number : Nat) (events : List Event) :
    (state.reportAll (some number) events).Stands k level attachment ↔
      state.Stands k level attachment := by
  induction events generalizing state with
  | nil => exact Iff.rfl
  | cons event events ih => exact ih.trans (stands_log number event)

/-- Events that are reported add to the sink of a logger what the logger hears of them. -/
theorem Sound.text_reportAll (h : state.Sound) (hs : state.Stands k level attachment)
    (number : Nat) {events : List Event} (hchecked : ∀ event ∈ events, event.check = .ok ()) :
    (state.reportAll (some number) events).text (.own k) =
      state.text (.own k) ++ attachment.hears level (if number = k then events else []) := by
  induction events generalizing state with
  | nil => cases attachment <;> simp [State.reportAll, Attachment.hears, linesFrom]
  | cons event events ih =>
      have hrest := ih (h.log number event) ((stands_log number event).2 hs)
        fun other hmem => hchecked other (List.mem_cons_of_mem _ hmem)
      refine hrest.trans ?_
      rw [h.text_log hs number (hchecked event List.mem_cons_self), List.append_assoc,
        ← Attachment.hears_append]
      by_cases hk : number = k <;> simp [hk]

/-- A new logger is attached, and the other loggers stand as before. -/
theorem Sound.stands_add (h : state.Sound) (hs : state.Stands k level attachment) (sink : Sink)
    (newLevel : Level) : (state.add sink newLevel).Stands k level attachment := by
  cases attachment with
  | attached =>
      obtain ⟨handler, hmem, hrest⟩ := hs
      exact ⟨handler, List.mem_append_left _ hmem, hrest⟩
  | closed =>
      obtain ⟨logger, hlogger, hnone⟩ := hs
      exact ⟨logger, logger?_add sink newLevel hlogger, hnone⟩
  | detached =>
      obtain ⟨logger, handler, hlogger, hsome, hgone⟩ := hs
      refine ⟨logger, handler, logger?_add sink newLevel hlogger, hsome, fun hmem => ?_⟩
      have hlt := h.handler_lt k logger hlogger handler hsome
      obtain ⟨other, hother, rfl⟩ := List.mem_map.1 hmem
      rcases List.mem_append.1 hother with hold | hnew
      · exact hgone (List.mem_map_of_mem hold)
      · obtain rfl := List.mem_singleton.1 hnew
        exact Nat.lt_irrefl _ hlt

/-- When all handlers are detached, an attached logger becomes detached. -/
theorem Sound.stands_detach (h : state.Sound) (hs : state.Stands k level attachment) :
    state.detach.Stands k level (attachment.next k .detach) := by
  cases attachment with
  | attached =>
      obtain ⟨handler, hmem, hsink, -⟩ := hs
      obtain ⟨logger, hlogger, hnumber, -⟩ := h.owner handler hmem k hsink
      exact ⟨logger, handler.number, hlogger, hnumber, List.not_mem_nil⟩
  | closed => exact hs
  | detached =>
      obtain ⟨logger, handler, hlogger, hsome, -⟩ := hs
      exact ⟨logger, handler, hlogger, hsome, List.not_mem_nil⟩

/-- A logger that gives up its handler leaves the others as they are. -/
theorem Sound.stands_release (h : state.Sound) (hs : state.Stands k level attachment)
    (hlogger : state.logger? number = some logger) (hne : number ≠ k) :
    (state.release number logger).Stands k level attachment := by
  have hsame : (state.release number logger).logger? k = state.logger? k :=
    List.getElem?_set_ne hne
  cases attachment with
  | attached =>
      obtain ⟨handler, hmem, hsink, hlevel⟩ := hs
      refine ⟨handler, List.mem_filter.2 ⟨hmem, decide_eq_true fun heq => ?_⟩, hsink, hlevel⟩
      have hown := (h.sink number logger hlogger handler hmem heq).symm.trans hsink
      exact hne (Sink.own.inj hown)
  | closed =>
      obtain ⟨other, hother, hnone⟩ := hs
      exact ⟨other, hsame.trans hother, hnone⟩
  | detached =>
      obtain ⟨other, handler, hother, hsome, hgone⟩ := hs
      refine ⟨other, handler, hsame.trans hother, hsome, fun hmem => hgone ?_⟩
      obtain ⟨kept, hkept, rfl⟩ := List.mem_map.1 hmem
      exact List.mem_map_of_mem (List.mem_filter.1 hkept).1

/-- Closing a logger fails exactly if it is detached. -/
theorem Sound.close_eq (h : state.Sound) (hs : state.Stands k level attachment) :
    ∃ logger, state.logger? k = some logger ∧ state.close k =
      match attachment with
      | .attached => (state.release k logger, none)
      | .closed => (state, none)
      | .detached => (state, some .noHandler) := by
  cases attachment with
  | attached =>
      obtain ⟨handler, hmem, hsink, -⟩ := hs
      obtain ⟨logger, hlogger, hnumber, -⟩ := h.owner handler hmem k hsink
      refine ⟨logger, hlogger, ?_⟩
      have hhere : handler.number ∈ state.handlers.map Handler.number := List.mem_map_of_mem hmem
      simp only [State.close, hlogger, hnumber, if_pos hhere]
  | closed =>
      obtain ⟨logger, hlogger, hnone⟩ := hs
      exact ⟨logger, hlogger, by simp only [State.close, hlogger, hnone]⟩
  | detached =>
      obtain ⟨logger, handler, hlogger, hsome, hgone⟩ := hs
      exact ⟨logger, hlogger, by simp only [State.close, hlogger, hsome, if_neg hgone]⟩

theorem Sound.stands_close (h : state.Sound) (hs : state.Stands k level attachment)
    (number : Nat) :
    (state.close number).1.Stands k level (attachment.next k (.close number)) := by
  by_cases hk : number = k
  · subst hk
    obtain ⟨logger, hlogger, hclose⟩ := h.close_eq hs
    rw [hclose]
    cases attachment with
    | attached =>
        rw [Attachment.next, if_pos rfl]
        exact ⟨_, List.getElem?_set_self (lt_of_logger? hlogger), rfl⟩
    | closed => exact hs
    | detached => exact hs
  · have hparts : (Action.close number).parts k = false := beq_false_of_ne hk
    rw [Attachment.next_of_not_parts hparts]
    unfold State.close
    split
    · exact hs
    · rename_i logger hlogger
      split
      · exact hs
      · split
        · exact h.stands_release hs hlogger hk
        · exact hs

/-- What an action does to a logger is told by its attachment and the action alone. -/
theorem Sound.stands_perform (h : state.Sound) (hs : state.Stands k level attachment)
    (action : Action) :
    (state.perform action).1.Stands k level (attachment.next k action) := by
  cases action with
  | attach levelName =>
      rw [Attachment.next_of_not_parts rfl]
      simp only [State.perform, State.attach]
      split
      · exact h.stands_add hs _ _
      · cases attachment <;> exact hs
  | log number event =>
      rw [Attachment.next_of_not_parts rfl]
      exact (stands_request number event).2 hs
  | upgrade number engine text =>
      rw [Attachment.next_of_not_parts rfl]
      simp only [State.perform, upgrade_eq]
      split
      · exact (stands_reportAll number _).2 hs
      · exact hs
  | close number => exact h.stands_close hs number
  | detach => exact h.stands_detach hs

/-- An action adds to the sink of a logger what the logger hears of the action. -/
theorem Sound.text_perform (h : state.Sound) (hs : state.Stands k level attachment)
    (action : Action) :
    (state.perform action).1.text (.own k) =
      state.text (.own k) ++ attachment.hears level (action.events k) := by
  have hsilent := attachment.hears_nil level
  cases action with
  | attach levelName =>
      simp only [State.perform, State.attach, Action.events, hsilent, List.append_nil]
      split <;> rfl
  | log number event => exact h.text_request hs number event
  | upgrade number engine text =>
      simp only [State.perform, upgrade_eq]
      split
      · exact h.text_reportAll hs number fun event hmem => (Event.of_mem_ofRun hmem).1
      · rename_i hnumber
        have hne : number ≠ k := by
          rintro rfl
          obtain ⟨logger, hlogger⟩ := hs.exists_logger h
          exact hnumber (lt_of_logger? hlogger)
        simp [Action.events, hne, hsilent]
  | close number =>
      simp only [State.perform, State.close, Action.events, hsilent, List.append_nil]
      split
      · rfl
      · split
        · rfl
        · split <;> rfl
  | detach =>
      simp only [Action.events, hsilent, List.append_nil]
      rfl

/-! ## Whole histories -/

theorem Sound.stands_performAll (h : state.Sound) (hs : state.Stands k level attachment)
    (actions : List Action) :
    (state.performAll actions).Stands k level (attachment.since k actions) := by
  induction actions generalizing state attachment with
  | nil => exact hs
  | cons action actions ih => exact ih (h.perform action) (h.stands_perform hs action)

/-- Nothing is added to the sink of a logger that is closed or detached. -/
theorem Sound.text_performAll_of_ne_attached (h : state.Sound)
    (hs : state.Stands k level attachment) (hne : attachment ≠ .attached)
    (actions : List Action) : (state.performAll actions).text (.own k) = state.text (.own k) := by
  induction actions generalizing state with
  | nil => rfl
  | cons action actions ih =>
      have hstep := h.stands_perform hs action
      rw [Attachment.next_of_ne_attached hne] at hstep
      refine (ih (h.perform action) hstep).trans ?_
      rw [h.text_perform hs]
      cases attachment with
      | attached => exact absurd rfl hne
      | closed => exact List.append_nil _
      | detached => exact List.append_nil _

/-- Actions add to the sink of an attached logger the lines that are emitted through it until its
handler is taken away. -/
theorem Sound.text_performAll (h : state.Sound) (hs : state.Stands k level .attached)
    (actions : List Action) :
    (state.performAll actions).text (.own k) =
      state.text (.own k) ++ linesSince k level actions := by
  induction actions generalizing state with
  | nil => exact (List.append_nil _).symm
  | cons action actions ih =>
      have hstep := h.stands_perform hs action
      show ((state.perform action).1.performAll actions).text (.own k) = _
      -- From the first action that takes the handler away, nothing more is heard.
      cases hparts : action.parts k with
      | false =>
          rw [Attachment.next_of_not_parts hparts] at hstep
          rw [ih (h.perform action) hstep, h.text_perform hs, List.append_assoc]
          simp [linesSince, hparts, Attachment.hears, linesFrom]
      | true =>
          have hnone : action.events k = [] := by
            cases action <;> simp_all [Action.parts, Action.events]
          rw [(h.perform action).text_performAll_of_ne_attached hstep
            (Attachment.next_of_parts hparts), h.text_perform hs, hnone]
          simp [linesSince, hparts, Attachment.hears, linesFrom]

/-- Closing a logger succeeds exactly if it is not detached. -/
theorem Sound.close_eq_none_iff (h : state.Sound) (hs : state.Stands k level attachment) :
    (state.close k).2 = none ↔ attachment ≠ .detached := by
  obtain ⟨logger, -, hclose⟩ := h.close_eq hs
  rw [hclose]
  cases attachment <;> simp

/-- The level of a name is found by it. -/
theorem ofName?_name (level : Level) : Level.ofName? level.name = some level := by
  cases level <;> decide

/-- A history in which a logger is opened goes on from the state that has the new logger. -/
theorem performAll_attach (before after : List Action) (level : Level) :
    performAll {} (before ++ .attach level.name :: after) =
      ((performAll {} before).add (.own (performAll {} before).loggers.length) level).performAll
        after := by
  rw [performAll, List.foldl_append, List.foldl_cons]
  show State.performAll ((performAll {} before).perform _).1 after = _
  simp only [perform, attach, ofName?_name]

/-- A new logger is attached. -/
theorem stands_add_self (state : State) (level : Level) :
    (state.add (.own state.loggers.length) level).Stands state.loggers.length level .attached :=
  ⟨_, List.mem_append_right _ List.mem_cons_self, rfl, rfl⟩

/-- After any history in which a logger is opened, the logger stands in the registry as the
actions since then say. -/
theorem stands_performAll_attach (before after : List Action) (level : Level) :
    (performAll {} (before ++ .attach level.name :: after)).Stands
      (performAll {} before).loggers.length level
      (Attachment.attached.since (performAll {} before).loggers.length after) := by
  rw [performAll_attach]
  exact ((sound_initial.performAll before).add level).stands_performAll (stands_add_self _ level)
    after

/-- The loggers of a process do not disturb each other. After any actions a logger is opened at
some level, and any actions follow. Then its sink holds the lines that were emitted through it at
a level not below its own, as long as it was neither closed nor hit by a detachment, and nothing
else. Closing it fails exactly if it was never closed with success and all handlers were detached
since it was opened, and a close that fails changes nothing. -/
theorem loggers_isolated (before after : List Action) (level : Level) :
    let number := (performAll {} before).loggers.length
    let upTo := fun actions => performAll {} (before ++ .attach level.name :: actions)
    (upTo after).text (.own number) = linesSince number level after ∧
      (((upTo after).close number).2 ≠ none ↔
        (¬ ∃ first rest, after = first ++ .close number :: rest ∧
          ((upTo first).close number).2 = none) ∧ .detach ∈ after) ∧
      (((upTo after).close number).2 ≠ none → ((upTo after).close number).1 = upTo after) := by
  intro number upTo
  have hsound := sound_initial.performAll before
  have hempty : ((performAll {} before).add (.own number) level).text (.own number) = [] :=
    hsound.text_eq_nil (Nat.le_refl _)
  have hclose : ∀ actions, ((upTo actions).close number).2 = none ↔
      Attachment.attached.since number actions ≠ .detached := fun actions =>
    (sound_initial.performAll _).close_eq_none_iff (stands_performAll_attach before actions level)
  refine ⟨?_, ?_, close_of_error _ number⟩
  · show (performAll {} _).text (.own number) = _
    rw [performAll_attach, (hsound.add level).text_performAll (stands_add_self _ level), hempty,
      List.nil_append]
  · simp only [ne_eq, hclose, Decidable.not_not]
    exact Attachment.since_eq_detached_iff

end State

end Log

end SdkUpgrade
