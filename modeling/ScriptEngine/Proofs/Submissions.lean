import ScriptEngine.Session
import ScriptEngine.Proofs.Sequencing

/-! What a submission comes to, said once: its libraries are not there, it is rejected, or it is accepted and
    run (`Session.Submits`). A submission that is rejected leaves the session as it was. -/

namespace ScriptEngine

/-! ### The cache -/

namespace Cache

variable {cache : Cache}

/-- Libraries that were loaded are not asked for again. -/
theorem ensure_loaded {refs : ReferenceSet} (h : cache.loaded = some refs) (supply : Supply) (cancelled : Bool) :
    cache.ensure supply cancelled = (.ok refs, cache) := by
  simp only [ensure, ensureUnder, h]

end Cache

namespace Session

/-! ### The cases of a submission -/

/-- The session between two submissions. -/
def settled (s : Session) : Session := { s with phase := .idle, cancelled := false }

/-- The phases that a submission goes through before it is compiled. -/
def approach (s : Session) (cache : Cache) : List Phase :=
  if cache.isLoaded then [s.phase] else [s.phase, .referencesLoading, .referencesReady]

/-- The session that ran an accepted submission. -/
def ran (s : Session) (c : Compiled) (memory : Memory) : Session := { (s.accept c).settled with memory := memory }

/-- What a submission may come to: the report, and the session and the cache after it. -/
inductive Submits (interference : Interference) (fuel : Nat) (supply : Supply) (cache : Cache) (s : Session)
    (source : String) : Report → Session → Cache → Prop where
  | unloaded {e : ReferenceError} {cache' : Cache} (missing : cache.isLoaded = false)
      (failed : cache.ensure supply interference.cancelLoading = (.error e, cache')) :
      Submits interference fuel supply cache s source
        ⟨none, .referencesFailed e, [], [], [s.phase, .referencesLoading, .idle]⟩ s.settled cache'
  | rejected {refs : ReferenceSet} {cache' : Cache} {diagnostics : List Diagnostic}
      (loaded : cache.ensure supply interference.cancelLoading = (.ok refs, cache'))
      (failed : s.chain.compile source refs = .error (.rejected diagnostics)) :
      Submits interference fuel supply cache s source
        ⟨none, .compileFailed, diagnostics, [], s.approach cache ++ [.compiling, .compileFailed, .idle]⟩ s.settled cache'
  | unemitted {refs : ReferenceSet} {cache' : Cache} {e : EmitError} {diagnostics : List Diagnostic}
      (loaded : cache.ensure supply interference.cancelLoading = (.ok refs, cache'))
      (failed : s.chain.compile source refs = .error (.emit e diagnostics)) :
      Submits interference fuel supply cache s source
        ⟨none, .emitFailed e, diagnostics, [], s.approach cache ++ [.compiling, .compileFailed, .idle]⟩ s.settled cache'
  | executed {refs : ReferenceSet} {cache' : Cache} {c : Compiled} {done : Completion} {v : Value}
      (loaded : cache.ensure supply interference.cancelLoading = (.ok refs, cache'))
      (accepted : s.chain.compile source refs = .ok c)
      (run : (s.accept c).memory.run refs c.executable s.options.invoke interference.watch fuel = some done)
      (value : done.outcome = .ok v) :
      Submits interference fuel supply cache s source
        ⟨some (s.index + 1), .executed v, c.diagnostics, done.output,
          s.approach cache ++ [.compiling, .compiled, .executing, .executionSucceeded, .idle]⟩ (s.ran c done.memory) cache'
  | faulted {refs : ReferenceSet} {cache' : Cache} {c : Compiled} {done : Completion} {fault : Fault}
      (loaded : cache.ensure supply interference.cancelLoading = (.ok refs, cache'))
      (accepted : s.chain.compile source refs = .ok c)
      (run : (s.accept c).memory.run refs c.executable s.options.invoke interference.watch fuel = some done)
      (error : done.outcome = .error fault) :
      Submits interference fuel supply cache s source
        ⟨some (s.index + 1), .executionFailed fault, c.diagnostics, done.output,
          s.approach cache ++ [.compiling, .compiled, .executing, .executionFailed, .idle]⟩ (s.ran c done.memory) cache'

variable {interference : Interference} {fuel : Nat} {supply : Supply} {cache cache' : Cache} {s s' : Session}
  {source : String} {report : Report}

theorem submitUnder_submits (h : s.submitUnder interference fuel supply cache source = some (report, s', cache')) :
    Submits interference fuel supply cache s source report s' cache' := by
  unfold submitUnder at h
  simp only at h
  generalize hensure : cache.ensure supply interference.cancelLoading = ensured at h
  obtain ⟨result, cache₁⟩ := ensured
  cases result with
  | error e =>
    cases h
    -- Only a cache that was not loaded can fail.
    have missing : cache.isLoaded = false := by
      cases hloaded : cache.loaded with
      | none => rw [Cache.isLoaded, hloaded, Option.isSome_none]
      | some refs =>
        rw [Cache.ensure_loaded hloaded] at hensure
        cases hensure
    simp only [missing, Bool.not_false]
    exact .unloaded missing hensure
  | ok refs =>
    obtain ⟨attempt, hattempt, h⟩ := Option.bind_eq_some_iff.mp h
    cases h
    -- The phases before compiling differ only in whether the libraries had to be loaded.
    have hpassage : (((Passage.start s.rearm).enterIf (!cache.isLoaded) .referencesLoading).enterIf (!cache.isLoaded)
        .referencesReady).session = { s.rearm with phase := if cache.isLoaded then s.phase else .referencesReady } ∧
        (((Passage.start s.rearm).enterIf (!cache.isLoaded) .referencesLoading).enterIf (!cache.isLoaded)
        .referencesReady).path = s.approach cache := by
      cases hloaded : cache.isLoaded
      all_goals simp [Passage.enterIf, Passage.enter, Passage.start, approach, rearm, hloaded]
    generalize ((Passage.start s.rearm).enterIf (!cache.isLoaded) .referencesLoading).enterIf (!cache.isLoaded)
      .referencesReady = p at hattempt hpassage
    obtain ⟨t, path⟩ := p
    obtain ⟨rfl, rfl⟩ := hpassage
    unfold Session.compile at hattempt
    simp only [Passage.enter] at hattempt
    split at hattempt
    · rename_i diagnostics hcompile
      cases hattempt
      simp only [Attempt.finish, Attempt.failed, Passage.enter, List.append_assoc, List.cons_append, List.nil_append]
      exact .rejected hensure hcompile
    · rename_i e diagnostics hcompile
      cases hattempt
      simp only [Attempt.finish, Attempt.failed, Passage.enter, List.append_assoc, List.cons_append, List.nil_append]
      exact .unemitted hensure hcompile
    · rename_i c hcompile
      obtain ⟨done, hdone, hattempt⟩ := Option.bind_eq_some_iff.mp hattempt
      split at hattempt
      · rename_i v hvalue
        cases hattempt
        simp only [Attempt.finish, Passage.enter, List.append_assoc, List.cons_append, List.nil_append]
        exact .executed hensure hcompile hdone hvalue
      · rename_i fault hfault
        cases hattempt
        simp only [Attempt.finish, Passage.enter, List.append_assoc, List.cons_append, List.nil_append]
        exact .faulted hensure hcompile hdone hfault

/-- A submission that can be compiled and whose script ends has a report. -/
theorem submitUnder_isSome {refs : ReferenceSet} {c : Compiled} {done : Completion}
    (loaded : cache.ensure supply interference.cancelLoading = (.ok refs, cache'))
    (accepted : s.chain.compile source refs = .ok c)
    (run : (s.accept c).memory.run refs c.executable s.options.invoke interference.watch fuel = some done) :
    ∃ report s' cache'', s.submitUnder interference fuel supply cache source = some (report, s', cache'') := by
  -- The phase of the session does not matter to the script.
  have compiles (p : Passage) (hchain : p.session.chain = s.chain) (hmemory : p.session.memory = s.memory)
      (hoptions : p.session.options = s.options) :
      (Session.compile fuel interference.watch refs source p).isSome = true := by
    obtain ⟨⟨options, chain, memory, phase, cancelled⟩, path⟩ := p
    dsimp only at hchain hmemory hoptions
    subst hchain hmemory hoptions
    rw [Session.compile]
    dsimp only [Passage.enter]
    rw [accepted]
    dsimp only
    have hrun : (s.memory.reserve (s.chain.index + 1)).run refs c.executable s.options.invoke interference.watch fuel =
      some done := run
    simp only [execute, accept, Passage.enter]
    rw [hrun]
    simp only [Option.bind_eq_bind, Option.bind_some]
    split
    · rfl
    · rfl
  unfold submitUnder
  rw [loaded]
  dsimp only
  obtain ⟨attempt, hattempt⟩ := Option.isSome_iff_exists.mp (compiles (((Passage.start s.rearm).enterIf (!cache.isLoaded)
    .referencesLoading).enterIf (!cache.isLoaded) .referencesReady) (by cases cache.isLoaded <;> rfl)
    (by cases cache.isLoaded <;> rfl) (by cases cache.isLoaded <;> rfl))
  rw [hattempt]
  exact ⟨_, _, _, rfl⟩

/-- A submission that is rejected has a report, whatever fuel there is. -/
theorem submitUnder_isSome_of_rejected (fuel : Nat) {refs : ReferenceSet} {diagnostics : List Diagnostic}
    (loaded : cache.ensure supply interference.cancelLoading = (.ok refs, cache'))
    (failed : s.chain.compile source refs = .error (.rejected diagnostics)) :
    ∃ report s' cache'', s.submitUnder interference fuel supply cache source = some (report, s', cache'') := by
  have compiles (p : Passage) (hchain : p.session.chain = s.chain) :
      (Session.compile fuel interference.watch refs source p).isSome = true := by
    rw [Session.compile]
    dsimp only [Passage.enter]
    rw [hchain, failed]
    rfl
  unfold submitUnder
  rw [loaded]
  dsimp only
  obtain ⟨attempt, hattempt⟩ := Option.isSome_iff_exists.mp (compiles (((Passage.start s.rearm).enterIf (!cache.isLoaded)
    .referencesLoading).enterIf (!cache.isLoaded) .referencesReady) (by cases cache.isLoaded <;> rfl))
  rw [hattempt]
  exact ⟨_, _, _, rfl⟩

/-- With loaded libraries, a submission that is accepted is run; the report says how it ended. -/
theorem Submits.run (h : Submits interference fuel supply cache s source report s' cache') {refs : ReferenceSet}
    (hrefs : cache.loaded = some refs) {c : Compiled} (hc : s.chain.compile source refs = .ok c) :
    report.diagnostics = c.diagnostics ∧ ∃ done,
      (s.accept c).memory.run refs c.executable s.options.invoke interference.watch fuel = some done ∧
      s' = s.ran c done.memory ∧
      report.outcome = match done.outcome with | .ok v => .executed v | .error fault => .executionFailed fault := by
  have hensure := Cache.ensure_loaded hrefs supply interference.cancelLoading
  cases h with
  | unloaded missing failed =>
    rw [hensure] at failed
    cases failed
  | rejected loaded failed | unemitted loaded failed =>
    obtain rfl := Except.ok.inj (congrArg Prod.fst (hensure.symm.trans loaded))
    rw [hc] at failed
    cases failed
  | @executed _ _ _ done v loaded accepted run value =>
    obtain rfl := Except.ok.inj (congrArg Prod.fst (hensure.symm.trans loaded))
    obtain rfl := Except.ok.inj (hc.symm.trans accepted)
    exact ⟨rfl, done, run, rfl, by rw [value]⟩
  | @faulted _ _ _ done fault loaded accepted run error =>
    obtain rfl := Except.ok.inj (congrArg Prod.fst (hensure.symm.trans loaded))
    obtain rfl := Except.ok.inj (hc.symm.trans accepted)
    exact ⟨rfl, done, run, rfl, by rw [error]⟩

/-- With loaded libraries, a submission that is rejected leaves the session as it was. -/
theorem Submits.rejects (h : Submits interference fuel supply cache s source report s' cache') {refs : ReferenceSet}
    (hrefs : cache.loaded = some refs) {diagnostics : List Diagnostic}
    (hrejected : s.chain.compile source refs = .error (.rejected diagnostics)) :
    report.outcome = .compileFailed ∧ report.diagnostics = diagnostics ∧ s' = s.settled := by
  have hensure := Cache.ensure_loaded hrefs supply interference.cancelLoading
  cases h with
  | unloaded missing failed =>
    rw [hensure] at failed
    cases failed
  | rejected loaded failed =>
    obtain rfl := Except.ok.inj (congrArg Prod.fst (hensure.symm.trans loaded))
    cases hrejected.symm.trans failed
    exact ⟨rfl, rfl, rfl⟩
  | unemitted loaded failed | executed loaded failed _ _ | faulted loaded failed _ _ =>
    obtain rfl := Except.ok.inj (congrArg Prod.fst (hensure.symm.trans loaded))
    rw [hrejected] at failed
    cases failed

/-- A session is idle after a submission. -/
theorem Submits.idle (h : Submits interference fuel supply cache s source report s' cache') : s'.phase = .idle := by
  cases h <;> rfl

/-- With loaded libraries a submission leaves the cache alone. -/
theorem Submits.cache_eq (h : Submits interference fuel supply cache s source report s' cache') {refs : ReferenceSet}
    (hrefs : cache.loaded = some refs) : cache' = cache := by
  have hensure := Cache.ensure_loaded hrefs supply interference.cancelLoading
  cases h with
  | unloaded missing failed =>
    rw [hensure] at failed
    cases failed
  | rejected loaded failed | unemitted loaded failed | executed loaded failed _ _ | faulted loaded failed _ _ =>
    rw [hensure] at loaded
    cases loaded
    rfl

end Session

/-! ### Submissions one after the other -/

/-- What became of source texts that were submitted one after the other, up to the first one that does not
    end. -/
structure Sitting where
  /-- The submissions that ended, and their reports. -/
  entries : List (String × Report)
  /-- The submission that does not end, and those that wait for it. -/
  pending : List String
  session : Session
  cache : Cache

namespace Sitting

def cons (source : String) (report : Report) (t : Sitting) : Sitting := { t with entries := (source, report) :: t.entries }

/-- Submit source texts one after the other. -/
def submit (fuel : Nat) (supply : Supply) : List String → Session → Cache → Sitting
  | [], s, cache => ⟨[], [], s, cache⟩
  | source :: rest, s, cache =>
    match s.submit fuel supply cache source with
    | none => ⟨[], source :: rest, s, cache⟩
    | some (report, s', cache') => (submit fuel supply rest s' cache').cons source report

end Sitting
end ScriptEngine
