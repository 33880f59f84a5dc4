import ScriptEngine.Proofs.SessionRuns
import ScriptEngine.Proofs.Submissions

/-! Rejected submissions leave no trace. Of any sequence of submissions, those that do not compile could as
    well not have been made: the others get the same reports, and the session goes on in the same way. -/

namespace ScriptEngine

/-- The submission was not accepted because of its own text. -/
def Report.isRejected (r : Report) : Bool :=
  match r.outcome with
  | .compileFailed | .emitFailed _ => true
  | _ => false

namespace Session

variable {fuel : Nat} {supply : Supply} {s s' : Session} {cache cache' : Cache} {source : String} {report : Report}

/-- A rejected submission leaves the session as it was. -/
theorem submit_rejected (h : s.submit fuel supply cache source = some (report, s', cache'))
    (hrejected : report.isRejected = true) : s' = s.settled := by
  cases submitUnder_submits h with
  | rejected loaded failed | unemitted loaded failed => rfl
  | unloaded missing failed | executed loaded accepted run value | faulted loaded accepted run error => cases hrejected

end Session

namespace Sitting

/-- The submissions that were not rejected. -/
def kept (t : Sitting) : List (String × Report) := t.entries.filter fun entry => !entry.2.isRejected

/-- Two sittings that differ at most in whether the session is cancelled. -/
structure Agrees (t t' : Sitting) : Prop where
  entries : t.entries = t'.entries
  pending : t.pending = t'.pending
  session : t.session.settled = t'.session.settled
  cache : t.cache = t'.cache

variable {fuel : Nat} {supply : Supply} {s : Session} {cache : Cache} {t t' : Sitting}

theorem Agrees.refl (t : Sitting) : Agrees t t := ⟨rfl, rfl, rfl, rfl⟩

theorem Agrees.trans {t'' : Sitting} (h : t.Agrees t') (h' : t'.Agrees t'') : t.Agrees t'' :=
  ⟨h.entries.trans h'.entries, h.pending.trans h'.pending, h.session.trans h'.session, h.cache.trans h'.cache⟩

theorem Agrees.cons (h : t.Agrees t') (source : String) (report : Report) :
    (t.cons source report).Agrees (t'.cons source report) :=
  ⟨congrArg ((source, report) :: ·) h.entries, h.pending, h.session, h.cache⟩

/-- A submission does not look at whether the session was cancelled before. -/
theorem submit_settled (hidle : s.phase = .idle) (sources : List String) :
    (submit fuel supply sources s cache).Agrees (submit fuel supply sources s.settled cache) := by
  cases sources with
  | nil => exact ⟨rfl, rfl, rfl, rfl⟩
  | cons source rest =>
    have same : s.settled.submit fuel supply cache source = s.submit fuel supply cache source := by
      obtain ⟨options, chain, memory, phase, cancelled⟩ := s
      cases hidle
      rfl
    simp only [submit, same]
    cases s.submit fuel supply cache source with
    | none => exact ⟨rfl, rfl, rfl, rfl⟩
    | some done => exact .refl _

/-- The submissions of a sitting that are worth repeating. -/
def worthwhile (t : Sitting) : List String := t.kept.map Prod.fst ++ t.pending

/-- The sitting without the submissions that were rejected. -/
def trimmed (t : Sitting) : Sitting := { t with entries := t.kept }

theorem kept_cons (source : String) (report : Report) (t : Sitting) :
    (t.cons source report).kept = if report.isRejected then t.kept else (source, report) :: t.kept := by
  cases hrejected : report.isRejected
  all_goals simp [kept, cons, hrejected]

/-- Nothing but the rejected submissions is missing when they are left out. -/
theorem submit_worthwhile {refs : ReferenceSet} (hidle : s.phase = .idle) (hrefs : cache.loaded = some refs)
    (sources : List String) :
    (submit fuel supply (submit fuel supply sources s cache).worthwhile s cache).Agrees
      (submit fuel supply sources s cache).trimmed := by
  induction sources generalizing s with
  | nil => exact .refl _
  | cons source rest ih =>
    cases hsubmit : s.submit fuel supply cache source with
    | none =>
      have stuck : submit fuel supply (source :: rest) s cache = ⟨[], source :: rest, s, cache⟩ := by
        simp only [submit, hsubmit]
      simp only [stuck, worthwhile, trimmed, kept, List.filter_nil, List.map_nil, List.nil_append]
      exact .refl _
    | some done =>
      obtain ⟨report, s', cache'⟩ := done
      have comes := Session.submitUnder_submits hsubmit
      obtain rfl := comes.cache_eq hrefs
      have goes : ∀ later, submit fuel supply (source :: later) s cache' =
          (submit fuel supply later s' cache').cons source report := by
        intro later
        simp only [submit, hsubmit]
      rw [goes]
      have later := ih comes.idle
      generalize submit fuel supply rest s' cache' = t at later
      cases hrejected : report.isRejected with
      | true =>
        -- Left out, the submission makes the later ones start from the session as it was.
        have hworthwhile : (t.cons source report).worthwhile = t.worthwhile := by
          rw [worthwhile, kept_cons, if_pos hrejected]
          rfl
        have htrimmed : (t.cons source report).trimmed = t.trimmed := by
          rw [trimmed, kept_cons, if_pos hrejected]
          rfl
        rw [hworthwhile, htrimmed]
        have same : (submit fuel supply t.worthwhile s cache').Agrees
            (submit fuel supply t.worthwhile s.settled cache') := submit_settled hidle t.worthwhile
        rw [← Session.submit_rejected hsubmit hrejected] at same
        exact same.trans later
      | false =>
        have hworthwhile : (t.cons source report).worthwhile = source :: t.worthwhile := by
          rw [worthwhile, kept_cons, if_neg (by simp [hrejected])]
          rfl
        have htrimmed : (t.cons source report).trimmed = t.trimmed.cons source report := by
          rw [trimmed, kept_cons, if_neg (by simp [hrejected])]
          rfl
        rw [hworthwhile, htrimmed, goes]
        exact later.cons source report

end Sitting

namespace Session

variable {s : Session} {cache : Cache}

/-- With loaded libraries, the submissions that are not rejected come to the same without those that are:
    the same reports, and the same session. -/
theorem submit_without_rejected {refs : ReferenceSet} (hidle : s.phase = .idle) (hrefs : cache.loaded = some refs)
    (fuel : Nat) (supply : Supply) (sources : List String) :
    let all := Sitting.submit fuel supply sources s cache
    let fewer := Sitting.submit fuel supply (all.kept.map Prod.fst ++ all.pending) s cache
    fewer.entries = all.kept ∧ fewer.pending = all.pending ∧ fewer.cache = all.cache ∧
      fewer.session.chain = all.session.chain ∧ fewer.session.memory = all.session.memory := by
  obtain ⟨entries, pending, session, cache⟩ : Sitting.Agrees (Sitting.submit fuel supply _ s cache) _ :=
    Sitting.submit_worthwhile hidle hrefs sources
  have chain := congrArg Session.chain session
  have memory := congrArg Session.memory session
  exact ⟨entries, pending, cache, chain, memory⟩

/-- Among texts that can be run, one that cannot be read and one that cannot be bound. -/
def mixedSources : List String := ["let y = 5;", "let", "missing", "xs[y]", "y + f(1)"]

/-- In the small session, the mixed texts come to the same without the two that cannot be compiled. -/
theorem submit_without_rejected_small : ∃ reports s cache, small = some (reports, s, cache) ∧
    let all := Sitting.submit 3 smallSupply mixedSources s cache
    let fewer := Sitting.submit 3 smallSupply (all.kept.map Prod.fst) s cache
    all.entries.map (·.2.outcome.label) =
      ["executed", "compile-failed", "compile-failed", "execution-failed", "executed"] ∧
    fewer.entries = all.kept ∧ fewer.session.chain = all.session.chain ∧
    fewer.session.memory = all.session.memory := by
  have computes : (small.any fun made =>
      let all := Sitting.submit 3 smallSupply mixedSources made.2.1 made.2.2
      decide (made.2.1.phase = .idle ∧ made.2.2.isLoaded ∧ all.pending = [] ∧ all.entries.map (·.2.outcome.label) =
        ["executed", "compile-failed", "compile-failed", "execution-failed", "executed"])) = true := by decide +kernel
  obtain ⟨⟨reports, s, cache⟩, hsmall, h⟩ := (Option.any_eq_true ..).mp computes
  obtain ⟨hidle, hloaded, hpending, hlabels⟩ := of_decide_eq_true h
  obtain ⟨refs, hrefs⟩ := Option.isSome_iff_exists.mp hloaded
  obtain ⟨entries, -, -, chain, memory⟩ := submit_without_rejected hidle hrefs 3 smallSupply mixedSources
  rw [hpending, List.append_nil] at entries chain memory
  exact ⟨reports, s, cache, hsmall, hlabels, entries, chain, memory⟩

end Session
end ScriptEngine
