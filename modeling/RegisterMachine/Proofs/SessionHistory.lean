import RegisterMachine.Session

/-!
# What the history of a session says

A session is called in any order: programs are loaded, lowered and run, and the
history is forgotten.  Every call looks at the session first and changes it only
when nothing can fail any more, so what fails leaves no trace.  After every row of
calls the loaded program is valid, and the history holds runs of that program, in
order, each of which gives its output and its cycles again.
-/

namespace RegisterMachine

/-! ## Calls -/

namespace SessionM

variable {α β : Type}

/-- A call that leaves the session as it was, whatever comes of it. -/
structure LooksOnly (call : SessionM α) : Prop where
  ok_left : ∀ ⦃session value left⦄, call.run session = .ok value left → left = session
  error_left : ∀ ⦃session error left⦄, call.run session = .error error left → left = session

/-- A call that leaves the session as it was when it fails. -/
def FailsClean (call : SessionM α) : Prop :=
  ∀ ⦃session error left⦄, call.run session = .error error left → left = session

theorem run_bind_eq_ok_iff {first : SessionM α} {next : α → SessionM β} {session left : Session}
    {value : β} : (first >>= next).run session = .ok value left ↔
      ∃ middle between, first.run session = .ok middle between ∧
        (next middle).run between = .ok value left := by
  rw [EStateM.run_bind]
  cases first.run session with
  | ok middle between => simp [and_assoc]
  | error error between => simp

theorem run_bind_eq_error_iff {first : SessionM α} {next : α → SessionM β}
    {session left : Session} {error : SessionError} :
    (first >>= next).run session = .error error left ↔
      first.run session = .error error left ∨
        ∃ middle between, first.run session = .ok middle between ∧
          (next middle).run between = .error error left := by
  rw [EStateM.run_bind]
  cases first.run session with
  | ok middle between => simp [and_assoc]
  | error found between => simp

theorem run_ofExcept_eq_ok_iff {ε : Type} {result : Except ε α} {wrap : ε → SessionError}
    {session left : Session} {value : α} :
    (MonadExcept.ofExcept (result.mapError wrap) : SessionM α).run session = .ok value left ↔
      result = .ok value ∧ left = session := by
  cases result with
  | ok found =>
      constructor
      · rintro ⟨⟩
        exact ⟨rfl, rfl⟩
      · rintro ⟨⟨⟩, rfl⟩
        rfl
  | error error =>
      constructor
      · rintro ⟨⟩
      · rintro ⟨⟨⟩, -⟩

theorem looksOnly_ofExcept {ε : Type} (result : Except ε α) (wrap : ε → SessionError) :
    LooksOnly (MonadExcept.ofExcept (result.mapError wrap)) where
  ok_left _ _ _ read := (run_ofExcept_eq_ok_iff.mp read).2
  error_left _ _ _ failed := by
    cases result with
    | ok value => cases failed
    | error error => cases failed; rfl

theorem looksOnly_get : LooksOnly get where
  ok_left := by rintro session value left ⟨⟩; rfl
  error_left := nofun

theorem failsClean_modify (change : Session → Session) : FailsClean (modify change) := by
  intro session error left failed
  cases failed

/-- What only looks may come before anything. -/
theorem LooksOnly.failsClean_bind {first : SessionM α} {next : α → SessionM β}
    (looks : first.LooksOnly) (clean : ∀ value, (next value).FailsClean) :
    (first >>= next).FailsClean := by
  intro session error left failed
  rcases run_bind_eq_error_iff.mp failed with failed | ⟨middle, between, read, failed⟩
  · exact looks.error_left failed
  · rw [clean middle failed, looks.ok_left read]

theorem LooksOnly.bind {first : SessionM α} {next : α → SessionM β}
    (looks : first.LooksOnly) (looks' : ∀ value, (next value).LooksOnly) :
    (first >>= next).LooksOnly where
  ok_left _ _ _ read := by
    obtain ⟨middle, between, first, second⟩ := run_bind_eq_ok_iff.mp read
    rw [(looks' middle).ok_left second, looks.ok_left first]
  error_left := looks.failsClean_bind fun value => (looks' value).error_left

end SessionM

namespace Session

open SessionM

theorem current_eq_ok_iff {session left : Session} {program : Program} :
    current.run session = .ok program left ↔
      session.program = some program ∧ left = session := by
  simp only [current, EStateM.run_bind, EStateM.run_get]
  cases session.program with
  | none => exact ⟨nofun, nofun⟩
  | some loaded => simp [eq_comm]

theorem looksOnly_current : current.LooksOnly := by
  refine looksOnly_get.bind fun session => ?_
  cases session.program with
  | none => exact ⟨nofun, by rintro session error left ⟨⟩; rfl⟩
  | some program => exact ⟨by rintro session value left ⟨⟩; rfl, nofun⟩

/-- What a program that is taken does to the session. -/
theorem load_eq_ok_iff {session left : Session} {program : Program} :
    (load program).run session = .ok () left ↔
      program.validate = .ok () ∧
        left = { session with program := some program, history := [] } := by
  unfold load
  simp only [run_bind_eq_ok_iff, run_ofExcept_eq_ok_iff]
  constructor
  · rintro ⟨⟨⟩, _, ⟨valid, rfl⟩, ⟨⟩⟩
    exact ⟨valid, rfl⟩
  · rintro ⟨valid, rfl⟩
    exact ⟨(), session, ⟨valid, rfl⟩, rfl⟩

theorem failsClean_load (program : Program) : (load program).FailsClean :=
  (looksOnly_ofExcept _ _).failsClean_bind fun _ => failsClean_modify _

theorem lower_eq_ok_iff {session left : Session} {degree : Nat} {lowered : Program} :
    (lower degree).run session = .ok lowered left ↔
      ∃ program, session.program = some program ∧ program.lowerTo degree = .ok lowered ∧
        left = session := by
  unfold lower
  simp only [run_bind_eq_ok_iff, run_ofExcept_eq_ok_iff, current_eq_ok_iff]
  constructor
  · rintro ⟨program, between, ⟨loaded, rfl⟩, lowering, rfl⟩
    exact ⟨program, loaded, lowering, rfl⟩
  · rintro ⟨program, loaded, lowering, rfl⟩
    exact ⟨program, _, ⟨loaded, rfl⟩, lowering, rfl⟩

theorem looksOnly_lower (degree : Nat) : (lower degree).LooksOnly :=
  looksOnly_current.bind fun _ => looksOnly_ofExcept _ _

/-- A run that gives a result is the run of the loaded program, lowered, within the limit. -/
theorem run_eq_ok_iff {session left : Session} {inputs : List Int64} {degree : Nat}
    {result : RunResult} : (run inputs degree).run session = .ok result left ↔
      ∃ program lowered, session.program = some program ∧
        program.lowerTo degree = .ok lowered ∧ lowered.run session.limit inputs = .ok result ∧
          left = session.record degree inputs result := by
  unfold run
  simp only [run_bind_eq_ok_iff, run_ofExcept_eq_ok_iff, lower_eq_ok_iff, EStateM.run_get]
  constructor
  · rintro ⟨lowered, _, ⟨program, loaded, lowering, rfl⟩, _, _, ⟨⟩, _, _, ⟨ran, rfl⟩, _, _, ⟨⟩, ⟨⟩⟩
    exact ⟨program, lowered, loaded, lowering, ran, rfl⟩
  · rintro ⟨program, lowered, loaded, lowering, ran, rfl⟩
    exact ⟨lowered, session, ⟨program, loaded, lowering, rfl⟩, session, session, rfl, result,
      session, ⟨ran, rfl⟩, (), _, rfl, rfl⟩

theorem failsClean_run (inputs : List Int64) (degree : Nat) : (run inputs degree).FailsClean := by
  -- Only behind the last thing that can fail is the run recorded.
  refine (looksOnly_lower degree).failsClean_bind fun lowered => ?_
  refine looksOnly_get.failsClean_bind fun session => ?_
  refine (looksOnly_ofExcept _ _).failsClean_bind fun result session error left failed => ?_
  rcases run_bind_eq_error_iff.mp failed with failed | ⟨_, _, -, failed⟩
  · cases failed
  · cases failed

end Session

/-! ## Rows of calls -/

/-- A call with its arguments. -/
inductive SessionCall where
  | load (program : Program)
  | lower (degree : Nat)
  | run (inputs : List Int64) (degree : Nat)
  | clearHistory
deriving DecidableEq, Repr

namespace SessionCall

/-- Carry out a call, whatever value it gives. -/
def perform : SessionCall → SessionM Unit
  | load program => Session.load program
  | lower degree => do
      let _ ← Session.lower degree
      return ()
  | run inputs degree => do
      let _ ← Session.run inputs degree
      return ()
  | clearHistory => Session.clearHistory

/-- A call that fails leaves the session as it was. -/
theorem failsClean_perform (call : SessionCall) : call.perform.FailsClean := by
  cases call with
  | load program => exact Session.failsClean_load program
  | lower degree => exact (Session.looksOnly_lower degree).failsClean_bind fun _ => nofun
  | run inputs degree =>
      intro session error left failed
      rcases SessionM.run_bind_eq_error_iff.mp failed with failed | ⟨_, _, -, failed⟩
      · exact Session.failsClean_run inputs degree failed
      · cases failed
  | clearHistory => exact SessionM.failsClean_modify _

end SessionCall

theorem Program.degree_le_of_lowerTo {program lowered : Program} {degree : Nat}
    (lowering : program.lowerTo degree = .ok lowered) : degree ≤ program.maxDegree := by
  unfold lowerTo at lowering
  split at lowering
  · cases lowering
  · next within => exact Nat.not_lt.mp within

/-- The run of a record, made again on a program, gives what the record says. -/
structure RunRecord.Repeats (record : RunRecord) (limit : Option UInt64) (program : Program) :
    Prop where
  degree_le : record.degree ≤ program.maxDegree
  again : ∃ lowered result, program.lowerTo record.degree = .ok lowered ∧
    lowered.run limit record.inputs = .ok result ∧ lowered.Halts record.inputs result ∧
      result.output = record.output ∧ result.cycles = record.cycles

namespace Session

/-- The session that a call leaves, whether or not it fails. -/
def after (session : Session) (call : SessionCall) : Session :=
  match call.perform.run session with
  | .ok () left => left
  | .error _ left => left

/-- The session after some calls on a new one. -/
def afterCalls (limit : Option UInt64) (calls : List SessionCall) : Session :=
  calls.foldl after { limit }

/-- All that a call can do: nothing, take a program, record a run, or forget the runs. -/
theorem after_cases (session : Session) (call : SessionCall) :
    session.after call = session ∨
      (∃ program, program.validate = .ok () ∧
        session.after call = { session with program := some program, history := [] }) ∨
      (∃ inputs degree result program lowered, session.program = some program ∧
        program.lowerTo degree = .ok lowered ∧ lowered.run session.limit inputs = .ok result ∧
          session.after call = session.record degree inputs result) ∨
      session.after call = { session with history := [] } := by
  unfold after
  cases performed : call.perform.run session with
  | error error left => exact .inl (call.failsClean_perform performed)
  | ok value left =>
      cases call with
      | load program =>
          obtain ⟨valid, rfl⟩ := load_eq_ok_iff.mp performed
          exact .inr (.inl ⟨program, valid, rfl⟩)
      | lower degree =>
          obtain ⟨lowered, between, lowering, same⟩ := SessionM.run_bind_eq_ok_iff.mp performed
          cases same
          exact .inl ((looksOnly_lower degree).ok_left lowering)
      | run inputs degree =>
          obtain ⟨result, between, running, same⟩ := SessionM.run_bind_eq_ok_iff.mp performed
          cases same
          obtain ⟨program, lowered, loaded, lowering, ran, rfl⟩ := run_eq_ok_iff.mp running
          exact .inr (.inr (.inl ⟨inputs, degree, result, program, lowered, loaded, lowering,
            ran, rfl⟩))
      | clearHistory =>
          cases performed
          exact .inr (.inr (.inr rfl))

/-- The loaded program is valid, and the history holds its runs in order. -/
structure Faithful (session : Session) : Prop where
  valid : ∀ program, session.program = some program → program.validate = .ok ()
  numbered : ∀ (place : Nat) (record : RunRecord), session.history[place]? = some record →
    record.number = place + 1
  repeats : ∀ record ∈ session.history, ∃ program, session.program = some program ∧
    record.Repeats session.limit program

namespace Faithful

theorem start (limit : Option UInt64) : ({ limit } : Session).Faithful where
  valid := nofun
  numbered := by simp
  repeats := by simp

theorem without_history {session : Session} (faithful : session.Faithful) :
    ({ session with history := [] } : Session).Faithful where
  valid := faithful.valid
  numbered := by simp
  repeats := by simp

theorem record {session : Session} (faithful : session.Faithful) {program lowered : Program}
    {inputs : List Int64} {degree : Nat} {result : RunResult}
    (loaded : session.program = some program) (lowering : program.lowerTo degree = .ok lowered)
    (ran : lowered.run session.limit inputs = .ok result) :
    (session.record degree inputs result).Faithful where
  valid := faithful.valid
  numbered place found at_place := by
    rw [Session.record, List.getElem?_append] at at_place
    split at at_place
    · exact faithful.numbered place found at_place
    · next behind =>
        rw [List.getElem?_singleton, Option.ite_none_right_eq_some] at at_place
        have place_eq : place = session.history.length := by omega
        rw [← Option.some.inj at_place.2, place_eq]
  repeats found member := by
    rw [Session.record, List.mem_append, List.mem_singleton] at member
    refine ⟨program, loaded, ?_⟩
    rcases member with earlier | rfl
    · obtain ⟨other, loaded', repeats⟩ := faithful.repeats found earlier
      obtain rfl : program = other := Option.some.inj (loaded.symm.trans loaded')
      exact repeats
    · exact ⟨Program.degree_le_of_lowerTo lowering, lowered, result, lowering, ran,
        Program.halts_of_runUpTo ran, rfl, rfl⟩

/-- Every call keeps the history faithful. -/
theorem after {session : Session} (faithful : session.Faithful) (call : SessionCall) :
    (session.after call).Faithful := by
  rcases session.after_cases call with same | ⟨program, valid, same⟩ |
    ⟨inputs, degree, result, program, lowered, loaded, lowering, ran, same⟩ | same
  all_goals rw [same]
  · exact faithful
  · exact ⟨by rintro _ ⟨⟩; exact valid, by simp, by simp⟩
  · exact faithful.record loaded lowering ran
  · exact faithful.without_history

theorem foldl_after {session : Session} (faithful : session.Faithful)
    (calls : List SessionCall) : (calls.foldl Session.after session).Faithful := by
  induction calls generalizing session with
  | nil => exact faithful
  | cons call calls ih => exact ih (faithful.after call)

end Faithful

theorem limit_after (session : Session) (call : SessionCall) :
    (session.after call).limit = session.limit := by
  rcases session.after_cases call with same | ⟨_, -, same⟩ | ⟨_, _, _, _, _, -, -, -, same⟩ | same
  all_goals rw [same]
  rfl

theorem limit_afterCalls (limit : Option UInt64) (calls : List SessionCall) :
    (afterCalls limit calls).limit = limit := by
  have kept : ∀ session : Session, (calls.foldl after session).limit = session.limit := by
    induction calls with
    | nil => exact fun session => rfl
    | cons call calls ih => exact fun session => (ih _).trans (session.limit_after call)
  exact kept { limit }

/-- What the calls on a session come to. -/
structure CallsExact (session : Session) : Prop where
  /-- A call that fails, for whatever reason, leaves the session as it was. -/
  kept : ∀ call error left, (SessionCall.perform call).run session = .error error left →
    left = session
  load_iff : ∀ program left, (load program).run session = .ok () left ↔
    program.validate = .ok () ∧ left = { session with program := some program, history := [] }
  lower_iff : ∀ degree lowered left, (lower degree).run session = .ok lowered left ↔
    ∃ program, session.program = some program ∧ program.lowerTo degree = .ok lowered ∧
      left = session
  run_iff : ∀ inputs degree result left, (run inputs degree).run session = .ok result left ↔
    ∃ program lowered, session.program = some program ∧ program.lowerTo degree = .ok lowered ∧
      lowered.run session.limit inputs = .ok result ∧
        left = { session with
          history := session.history ++
            [{ number := session.history.length + 1, degree, inputs,
               output := result.output, cycles := result.cycles }] }
  clear : clearHistory.run session = .ok () { session with history := [] }

/-- After every row of calls the history is faithful to the loaded program, the limit is the
one of the new session, and the next call changes the session only if it does not fail. -/
theorem history_faithful_after_calls (limit : Option UInt64) (calls : List SessionCall) :
    (afterCalls limit calls).Faithful ∧ (afterCalls limit calls).limit = limit ∧
      (afterCalls limit calls).CallsExact :=
  ⟨(Faithful.start limit).foldl_after calls, limit_afterCalls limit calls,
    { kept := fun call _ _ failed => call.failsClean_perform failed
      load_iff := fun _ _ => load_eq_ok_iff
      lower_iff := fun _ _ _ => lower_eq_ok_iff
      run_iff := fun _ _ _ _ => run_eq_ok_iff
      clear := rfl }⟩

end Session

end RegisterMachine
