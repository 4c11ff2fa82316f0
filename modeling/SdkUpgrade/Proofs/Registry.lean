import SdkUpgrade.Proofs.Reports

/-!
# The registry of handlers and its loggers

The handlers of all loggers stand in one registry, and a logger is tied to its handler only by a
token and a number. `State.Sound` says how the two sides belong together. Every operation keeps
it, so it holds after every history: `State.Sound.performAll`.
-/

namespace SdkUpgrade

namespace Log

namespace State

/-- The registry and the loggers belong together. No two handlers share a sink and no two
loggers a token, numbers and tokens to come are unused, a handler on the sink of a logger is
the one that the logger remembers and accepts its token, and nothing was written to a sink
before its logger came. -/
structure Sound (state : State) : Prop where
  sinks : (state.handlers.map Handler.sink).Nodup
  number_lt : ∀ handler ∈ state.handlers, handler.number < state.nextHandler
  token_lt : ∀ k logger, state.logger? k = some logger → logger.token < state.nextToken
  handler_lt : ∀ k logger, state.logger? k = some logger →
    ∀ number, logger.handler = some number → number < state.nextHandler
  tokens : ∀ j k first second, state.logger? j = some first → state.logger? k = some second →
    first.token = second.token → j = k
  owner : ∀ handler ∈ state.handlers, ∀ k, handler.sink = .own k →
    ∃ logger, state.logger? k = some logger ∧ logger.handler = some handler.number ∧
      handler.token = some logger.token
  sink : ∀ k logger, state.logger? k = some logger → ∀ handler ∈ state.handlers,
    logger.handler = some handler.number → handler.sink = .own k
  written_lt : ∀ entry ∈ state.written, ∀ k, entry.1 = .own k → k < state.loggers.length

/-- At the beginning there are no loggers that could be mixed up. -/
theorem sound_initial : Sound {} where
  sinks := by simp
  number_lt := by simp
  token_lt := by simp [logger?]
  handler_lt := by simp [logger?]
  tokens := by simp [logger?]
  owner := by simp
  sink := by simp [logger?]
  written_lt := by simp

variable {state : State} {number k : Nat} {logger found : Logger}

/-- There is a logger of every number below the number of loggers. -/
theorem lt_of_logger? (h : state.logger? k = some logger) : k < state.loggers.length :=
  (List.getElem?_eq_some_iff.1 h).1

/-- The loggers of a state are still there after a new one came. -/
theorem logger?_add (sink : Sink) (level : Level) (h : state.logger? k = some logger) :
    (state.add sink level).logger? k = some logger :=
  (List.getElem?_append_left (lt_of_logger? h)).trans h

/-- A new logger has the next number. -/
theorem logger?_add_length (state : State) (sink : Sink) (level : Level) :
    (state.add sink level).logger? state.loggers.length =
      some ⟨state.nextToken, some state.nextHandler⟩ :=
  List.getElem?_concat_length

/-- After a new logger came, every logger is one of those before or the new one. -/
theorem of_logger?_add {sink : Sink} {level : Level}
    (h : (state.add sink level).logger? k = some found) :
    state.logger? k = some found ∨
      k = state.loggers.length ∧ found = ⟨state.nextToken, some state.nextHandler⟩ := by
  have hlt := lt_of_logger? h
  rw [show (state.add sink level).loggers.length = state.loggers.length + 1 from
    List.length_append] at hlt
  by_cases hk : k = state.loggers.length
  · subst hk
    rw [logger?_add_length] at h
    exact .inr ⟨rfl, (Option.some.inj h).symm⟩
  · have hold : (state.add sink level).logger? k = state.logger? k :=
      List.getElem?_append_left (by omega)
    exact .inl (hold.symm.trans h)

/-- After a logger gave up its handler, it remembers none, and all other loggers are the same. -/
theorem of_logger?_release (hlogger : state.logger? number = some logger)
    (h : (state.release number logger).logger? k = some found) :
    k = number ∧ found = { logger with handler := none } ∨
      k ≠ number ∧ state.logger? k = some found := by
  by_cases hk : k = number
  · subst hk
    have hset : (state.release k logger).logger? k = some { logger with handler := none } :=
      List.getElem?_set_self (lt_of_logger? hlogger)
    exact .inl ⟨rfl, Option.some.inj (h.symm.trans hset)⟩
  · have hset : (state.release number logger).logger? k = state.logger? k :=
      List.getElem?_set_ne (Ne.symm hk)
    exact .inr ⟨hk, hset.symm.trans h⟩

/-- A close that fails changes nothing. -/
theorem close_of_error (state : State) (number : Nat) (h : (state.close number).2 ≠ none) :
    (state.close number).1 = state := by
  unfold close at h ⊢
  split
  · rfl
  · split
    · rfl
    · split
      · simp_all
      · rfl

namespace Sound

theorem advance (h : state.Sound) : state.advance.Sound where
  sinks := h.sinks
  number_lt := fun handler hmem => Nat.lt_succ_of_lt (h.number_lt handler hmem)
  token_lt := fun k logger hlogger => Nat.lt_succ_of_lt (h.token_lt k logger hlogger)
  handler_lt := fun k logger hlogger number hnumber =>
    Nat.lt_succ_of_lt (h.handler_lt k logger hlogger number hnumber)
  tokens := h.tokens
  owner := h.owner
  sink := h.sink
  written_lt := h.written_lt

/-- A new logger with a sink of its own gets a number and a token that nothing else has. -/
theorem add (h : state.Sound) (level : Level) :
    (state.add (.own state.loggers.length) level).Sound := by
  constructor
  case sinks =>
    show (List.map Handler.sink (state.handlers ++ [_])).Nodup
    rw [List.map_append, List.nodup_append]
    refine ⟨h.sinks, by simp, ?_⟩
    intro sink hsink other hother heq
    obtain ⟨handler, hhandler, rfl⟩ := List.mem_map.1 hsink
    obtain rfl : other = .own state.loggers.length := by simpa using hother
    obtain ⟨logger, hlogger, -⟩ := h.owner handler hhandler _ heq
    exact Nat.lt_irrefl _ (lt_of_logger? hlogger)
  case number_lt =>
    intro handler hmem
    rcases List.mem_append.1 hmem with hold | hnew
    · exact h.advance.number_lt handler hold
    · obtain rfl := List.mem_singleton.1 hnew
      exact Nat.lt_succ_self _
  case token_lt =>
    intro k logger hlogger
    rcases of_logger?_add hlogger with hold | ⟨-, rfl⟩
    · exact h.advance.token_lt k logger hold
    · exact Nat.lt_succ_self _
  case handler_lt =>
    intro k logger hlogger number hnumber
    rcases of_logger?_add hlogger with hold | ⟨-, rfl⟩
    · exact h.advance.handler_lt k logger hold number hnumber
    · obtain rfl := Option.some.inj hnumber
      exact Nat.lt_succ_self _
  case tokens =>
    intro j k first second hfirst hsecond heq
    rcases of_logger?_add hfirst with hold | ⟨rfl, rfl⟩
    · rcases of_logger?_add hsecond with hold' | ⟨rfl, rfl⟩
      · exact h.tokens j k first second hold hold' heq
      · have hlt := h.token_lt j first hold
        rw [heq] at hlt
        exact absurd hlt (Nat.lt_irrefl _)
    · rcases of_logger?_add hsecond with hold' | ⟨rfl, rfl⟩
      · have hlt := h.token_lt k second hold'
        rw [← heq] at hlt
        exact absurd hlt (Nat.lt_irrefl _)
      · rfl
  case owner =>
    intro handler hmem k hk
    rcases List.mem_append.1 hmem with hold | hnew
    · obtain ⟨logger, hlogger, hrest⟩ := h.owner handler hold k hk
      exact ⟨logger, logger?_add _ level hlogger, hrest⟩
    · obtain rfl := List.mem_singleton.1 hnew
      obtain rfl : state.loggers.length = k := by simpa using hk
      exact ⟨_, logger?_add_length state _ level, rfl, rfl⟩
  case sink =>
    intro k logger hlogger handler hmem hnumber
    rcases of_logger?_add hlogger with hold | ⟨rfl, rfl⟩
    · rcases List.mem_append.1 hmem with hhandler | hnew
      · exact h.sink k logger hold handler hhandler hnumber
      · obtain rfl := List.mem_singleton.1 hnew
        exact absurd (h.handler_lt k logger hold _ hnumber) (Nat.lt_irrefl _)
    · rcases List.mem_append.1 hmem with hhandler | hnew
      · have hlt := h.number_lt handler hhandler
        rw [← Option.some.inj hnumber] at hlt
        exact absurd hlt (Nat.lt_irrefl _)
      · obtain rfl := List.mem_singleton.1 hnew
        rfl
  case written_lt =>
    intro entry hentry k hk
    have hlt := h.written_lt entry hentry k hk
    show k < (state.loggers ++ [_]).length
    rw [List.length_append]
    omega

theorem deliver (h : state.Sound) (token : Nat) (event : Event) :
    (state.deliver token event).Sound where
  sinks := h.sinks
  number_lt := h.number_lt
  token_lt := h.token_lt
  handler_lt := h.handler_lt
  tokens := h.tokens
  owner := h.owner
  sink := h.sink
  written_lt := by
    intro entry hentry k hk
    rcases List.mem_append.1 hentry with hold | hnew
    · exact h.written_lt entry hold k hk
    · obtain ⟨handler, hhandler, rfl⟩ := List.mem_map.1 hnew
      obtain ⟨logger, hlogger, -⟩ := h.owner handler (List.mem_filter.1 hhandler).1 k hk
      exact lt_of_logger? hlogger

theorem detach (h : state.Sound) : state.detach.Sound where
  sinks := List.nodup_nil
  number_lt := fun _ hmem => absurd hmem List.not_mem_nil
  token_lt := h.token_lt
  handler_lt := h.handler_lt
  tokens := h.tokens
  owner := fun _ hmem => absurd hmem List.not_mem_nil
  sink := fun _ _ _ _ hmem => absurd hmem List.not_mem_nil
  written_lt := h.written_lt

/-- A logger gives up its own handler and no other. -/
theorem release (h : state.Sound) (hlogger : state.logger? number = some logger) :
    (state.release number logger).Sound := by
  -- Up to the handler that it remembers, every logger is what it was.
  have hold : ∀ k found, (state.release number logger).logger? k = some found →
      ∃ old, state.logger? k = some old ∧ found.token = old.token ∧
        ∀ n, found.handler = some n → old.handler = some n := by
    intro k found hfound
    rcases of_logger?_release hlogger hfound with ⟨rfl, rfl⟩ | ⟨-, hsame⟩
    · exact ⟨logger, hlogger, rfl, fun n hn => absurd hn (by simp)⟩
    · exact ⟨found, hsame, rfl, fun n hn => hn⟩
  constructor
  case sinks => exact h.sinks.sublist (List.filter_sublist.map _)
  case number_lt => exact fun handler hmem => h.number_lt handler (List.mem_filter.1 hmem).1
  case token_lt =>
    intro k found hfound
    obtain ⟨old, hk, htoken, -⟩ := hold k found hfound
    exact htoken ▸ h.token_lt k old hk
  case handler_lt =>
    intro k found hfound n hn
    obtain ⟨old, hk, -, hhandler⟩ := hold k found hfound
    exact h.handler_lt k old hk n (hhandler n hn)
  case tokens =>
    intro j k first second hfirst hsecond heq
    obtain ⟨old, hj, htoken, -⟩ := hold j first hfirst
    obtain ⟨old', hk, htoken', -⟩ := hold k second hsecond
    exact h.tokens j k old old' hj hk (htoken.symm.trans (heq.trans htoken'))
  case owner =>
    intro handler hmem k hk
    obtain ⟨hmem, hkept⟩ := List.mem_filter.1 hmem
    obtain ⟨owner, howner, hnumber, htoken⟩ := h.owner handler hmem k hk
    have hne : k ≠ number := by
      intro heq
      obtain rfl := Option.some.inj (howner.symm.trans (heq ▸ hlogger))
      simp [hnumber] at hkept
    exact ⟨owner, (List.getElem?_set_ne (Ne.symm hne)).trans howner, hnumber, htoken⟩
  case sink =>
    intro k found hfound handler hmem hnumber
    obtain ⟨old, hk, -, hhandler⟩ := hold k found hfound
    exact h.sink k old hk handler (List.mem_filter.1 hmem).1 (hhandler _ hnumber)
  case written_lt =>
    intro entry hentry k hk
    show k < (state.loggers.set number _).length
    rw [List.length_set]
    exact h.written_lt entry hentry k hk

theorem log (h : state.Sound) (number : Nat) (event : Event) :
    (state.log number event).1.Sound := by
  rcases state.log_eq number event with heq | ⟨token, heq⟩
  · rw [heq]
    exact h
  · rw [heq]
    exact h.deliver token event

theorem request (h : state.Sound) (number : Nat) (event : Event) :
    (state.request number event).1.Sound := by
  cases hformat : format event.context with
  | error error =>
      rw [request_of_error hformat]
      exact h
  | ok text =>
      rw [request_of_ok hformat]
      exact h.log number event

theorem reportAll (h : state.Sound) (number : Nat) (events : List Event) :
    (state.reportAll (some number) events).Sound := by
  induction events generalizing state with
  | nil => exact h
  | cons event events ih => exact ih (h.log number event)

/-- Every action keeps the registry and the loggers together. -/
theorem perform (h : state.Sound) (action : Action) : (state.perform action).1.Sound := by
  cases action with
  | attach levelName =>
      simp only [State.perform, State.attach]
      split
      · exact h.add _
      · exact h.advance
  | log number event => exact h.request number event
  | upgrade number engine text =>
      simp only [State.perform, upgrade_eq]
      split
      · exact h.reportAll number _
      · exact h
  | close number =>
      simp only [State.perform, State.close]
      split
      · exact h
      · rename_i logger hlogger
        split
        · exact h
        · split
          · exact h.release hlogger
          · exact h
  | detach => exact h.detach

theorem performAll (h : state.Sound) (actions : List Action) :
    (state.performAll actions).Sound := by
  induction actions generalizing state with
  | nil => exact h
  | cons action actions ih => exact ih (h.perform action)

/-- Nothing was written to the sink of a logger that is still to come. -/
theorem text_eq_nil (h : state.Sound) (hk : state.loggers.length ≤ k) :
    state.text (.own k) = [] := by
  have hnone : (state.written.filter fun entry => decide (entry.1 = .own k)) = [] := by
    refine List.filter_eq_nil_iff.2 fun entry hmem hsink => ?_
    have hlt := h.written_lt entry hmem k (of_decide_eq_true hsink)
    omega
  unfold text
  rw [hnone]
  rfl

end Sound

end State

end Log

end SdkUpgrade
