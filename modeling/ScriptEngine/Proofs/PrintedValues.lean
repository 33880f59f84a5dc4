import ScriptEngine.Proofs.CallFreeScripts
import ScriptEngine.Proofs.DataCode

/-! Printed values read back. A value that looks like plain data is printed as the text of the data, and this text is a
    script whose value looks like the same data, so the two values are equal (`Session.repr_reads_back`). The least
    integer is the exception: it is printed with a magnitude that is no integer literal. -/

namespace ScriptEngine
open Evaluator Lowering

/-! ### Evaluation -/

/-- A function whose body comes to its end has the value that the body has. -/
theorem Evaluator.Scope.invoke_done {sc : Scope} {index : Nat} {f : Bound.Func} (args : List Value) (s : Store) {b t : Store}
    {v : Value} (hopening : sc.opening index { s with locals := args.toArray ++ Array.replicate (f.locals - args.length) .unit } =
      .done () b) (hbody : Evaluator.block sc f.body b = .done v t) :
    sc.invoke index f args s = .done v { t with locals := s.locals } := by
  unfold invoke
  simp only [hopening, Outcome.bind, hbody]

namespace Datum

variable (sc : Scope)

mutual

/-- The expression of a datum has a value that looks like the datum. Only new lists are made. -/
theorem evaluate_bound : ∀ (d : Datum) (s : Store), ∃ v heap, Evaluator.expr sc d.bound s = .done v { s with heap := heap } ∧
    s.heap.Keeps heap ∧ heap.Shows v d
  | .bool b, s => ⟨.bool b, s.heap, rfl, .refl _, rfl⟩
  | .int n, s => ⟨.int n, s.heap, rfl, .refl _, rfl⟩
  | .list ds, s => by
    obtain ⟨vs, heap, hvalues, keeps, shows⟩ := evaluate_boundEach ds s
    have more := heap.keeps_alloc vs.toArray
    refine ⟨.list heap.size, (heap.alloc vs.toArray).1, ?_, keeps.trans more, heap.size, rfl, ?_, ?_⟩
    · rw [bound, Evaluator.expr, hvalues]
      rfl
    · rw [Heap.size_alloc]
      exact Nat.lt_succ_self _
    · rw [Heap.items_alloc, if_pos rfl]
      exact shows.mono more

theorem evaluate_boundEach : ∀ (ds : List Datum) (s : Store), ∃ vs heap,
    Evaluator.exprs sc (boundEach ds) s = .done vs { s with heap := heap } ∧ s.heap.Keeps heap ∧ heap.ShowsEach vs ds
  | [], s => ⟨[], s.heap, rfl, .refl _, rfl⟩
  | d :: ds, s => by
    obtain ⟨v, heap, hvalue, keeps, shows⟩ := evaluate_bound d s
    obtain ⟨vs, heap', hvalues, keeps', showsEach⟩ := evaluate_boundEach ds { s with heap := heap }
    refine ⟨v :: vs, heap', ?_, keeps.trans keeps', v, vs, rfl, shows.mono keeps', showsEach⟩
    rw [boundEach, Evaluator.exprs, hvalue]
    show Outcome.bind (Evaluator.exprs sc (boundEach ds) { s with heap := heap }) _ = _
    rw [hvalues]
    rfl

end

/-- A script that shows a datum has a value that looks like the datum, and prints nothing. -/
theorem invoke_showing {unit : UnitKind} {d : Datum} {line start record : Nat} (hrecord : unit.record? = some record)
    (hunit : sc.unit = .showing unit d.bound line start) (heap : Heap) (records : Records) : ∃ v heap',
    sc.invoke 0 (.showing unit d.bound line start) [] ⟨#[], heap, records, #[]⟩ =
      .done v ⟨#[], heap', records.start record #[], #[]⟩ ∧ heap.Keeps heap' ∧ heap'.Shows v d := by
  let s : Store := ⟨#[], heap, records.start record #[], #[]⟩
  obtain ⟨v, heap', hvalue, keeps, shows⟩ := d.evaluate_bound sc s
  refine ⟨v, heap', ?_, keeps, shows⟩
  have hbody : Evaluator.block sc (Bound.Func.showing unit d.bound line start).body s = .done v { s with heap := heap' } := hvalue
  refine Scope.invoke_done [] ⟨#[], heap, records, #[]⟩ ?_ hbody
  have hopens : opening? sc.unit 0 = some record := by rw [hunit]; exact hrecord
  rw [Scope.opening, hopens, hunit]
  rfl

end Datum

/-! ### Sessions -/

/-- A submission that has a report leads from one chain to the next. -/
theorem Session.Submits.reached {interference : Interference} {fuel : Nat} {supply : Supply} {cache cache' : Cache}
    {s s' : Session} {source : String} {report : Report} (h : Submits interference fuel supply cache s source report s' cache')
    (reached : s.chain.Reached) : s'.chain.Reached := by
  cases h with
  | unloaded | rejected | unemitted => exact reached
  | executed loaded accepted | faulted loaded accepted => exact .accept reached accepted

namespace Session

/-- A submission that nothing stops ends, and its report and the session after it are as wanted. -/
def Ends (s : Session) (supply : Supply) (cache : Cache) (source : String) (wanted : Report → Session → Prop) : Prop :=
  (∃ fuel report s' cache', s.submitUnder .none fuel supply cache source = some (report, s', cache')) ∧
  ∀ fuel report s' cache', s.submitUnder .none fuel supply cache source = some (report, s', cache') → wanted report s'

variable {s : Session} {cache : Cache} {refs : ReferenceSet} {d : Datum}

theorem Ends.mono {supply : Supply} {source : String} {wanted weaker : Report → Session → Prop}
    (h : s.Ends supply cache source wanted) (himp : ∀ report s', wanted report s' → weaker report s') :
    s.Ends supply cache source weaker :=
  ⟨h.1, fun fuel report s' cache' hsubmit => himp report s' (h.2 fuel report s' cache' hsubmit)⟩

/-- The text of a datum without the least integer has a value that looks like the datum. -/
theorem ends_datum (reached : s.chain.Reached) (few : s.index + 1 < 4294967296) (loaded : cache.loaded = some refs)
    (supply : Supply) (hleasts : d.leasts = 0) (hlevels : d.levels + 2 ≤ maxNesting) (room : d.elements < constantLimit) :
    s.Ends supply cache d.text fun report s' => report.diagnostics = [] ∧ ∃ w, report.outcome = .executed w ∧
      s.memory.heap.Keeps s'.memory.heap ∧ s'.memory.heap.Shows w d := by
  obtain ⟨compiled, line, start, hc, hdiagnostics, encodes, hprogram⟩ :=
    Chain.compile_datum refs reached.earlier few hleasts hlevels room
  have hentry : compiled.executable.entry = 0 := by
    have := Chain.compile_entry hc encodes
    rw [hprogram] at this
    exact (Option.some.inj this).symm
  have hmain : compiled.unit.program.functions[compiled.executable.entry]? =
      some (.showing (.script (s.chain.index + 1)) d.bound line start) := by
    rw [hprogram, hentry]
    rfl
  let m := (s.accept compiled).memory
  obtain ⟨w, heap, evaluated, keeps, shows⟩ := Datum.invoke_showing
    (.callFree (.ofNames (m.link refs compiled.executable.code).program refs.resolve?) (.fragment m.program.fragments.size)
      compiled.unit.program) rfl hprogram m.heap m.records
  rw [← hentry] at evaluated
  obtain ⟨⟨fuel, done, hdone⟩, hruns⟩ := m.run_callFree hc encodes few s.options.invoke hmain d.tidy_bound evaluated
  obtain ⟨report, s', cache', hsubmit⟩ := submitUnder_isSome (Cache.ensure_undisturbed loaded supply) hc hdone
  refine ⟨⟨fuel, report, s', cache', hsubmit⟩, fun fuel report s' cache' hsubmit => ?_⟩
  obtain ⟨hreport, done, run, rfl, houtcome⟩ := (submitUnder_submits hsubmit).run loaded hc
  obtain rfl := hruns fuel done run
  exact ⟨hreport.trans hdiagnostics, w, houtcome, keeps, shows⟩

/-- The printed text of a value is accepted and reads back as an equal value, unless the least integer occurs in it:
then the text is refused, once for each time that integer occurs. -/
theorem repr_reads_back (reached : s.chain.Reached) (few : s.index + 1 < 4294967296) (loaded : cache.loaded = some refs)
    (supply : Supply) {view : Value.View} {v : Value} (shows : view.heap.Shows v d) (hlevels : d.levels < 64)
    (helements : d.elements ≤ 10000) :
    (d.leasts = 0 → s.Ends supply cache (v.repr view) fun report s' => report.diagnostics = [] ∧
      ∃ w, report.outcome = .executed w ∧ s.memory.heap.Keeps s'.memory.heap ∧ s'.memory.heap.Shows w d ∧
        (∀ u, s'.memory.heap.Shows u d → w.equals s'.memory.heap u = true) ∧
        (view.heap = s.memory.heap → w.equals s'.memory.heap v = true)) ∧
    (d.leasts ≠ 0 → s.Ends supply cache (v.repr view) fun report s' => report.outcome = .compileFailed ∧
      report.diagnostics.map Diagnostic.notice = List.replicate d.leasts (.badSyntax (.lexical .bigInteger)) ∧
      s' = s.settled) := by
  rw [shows.repr (Nat.le_of_lt hlevels) helements]
  constructor
  · intro hleasts
    have room : d.elements < constantLimit := by
      rw [constantLimit]
      omega
    have depth : d.levels + 2 ≤ maxNesting := by
      rw [maxNesting]
      omega
    refine (ends_datum reached few loaded supply hleasts depth room).mono fun report s' h => ?_
    obtain ⟨hdiagnostics, w, houtcome, keeps, hw⟩ := h
    refine ⟨hdiagnostics, w, houtcome, keeps, hw, fun u hu => hw.equals hu, fun hheap => hw.equals ?_⟩
    rw [hheap] at shows
    exact shows.mono keeps
  · intro hleasts
    obtain ⟨diagnostics, hc, hnotices⟩ := Chain.compile_leasts refs s.chain hleasts
    obtain ⟨report, s', cache', hsubmit⟩ := submitUnder_isSome_of_rejected 0 (Cache.ensure_undisturbed loaded supply) hc
    refine ⟨⟨0, report, s', cache', hsubmit⟩, fun fuel report s' cache' hsubmit => ?_⟩
    obtain ⟨houtcome, rfl, rfl⟩ := (submitUnder_submits hsubmit).rejects loaded hc
    exact ⟨houtcome, hnotices, rfl⟩

/-- A list in a list. -/
def nestedDatum : Datum := .list [.int (-3), .list [.bool true]]

/-- The value of a first submission is printed and read back; the least integer is printed and refused. -/
theorem repr_reads_back_nested : ∃ (s : Session) (cache : Cache) (v : Value), s.index = 1 ∧
    v.repr s.memory.view = "[-3, [true]]" ∧ ∀ supply,
    (s.Ends supply cache "[-3, [true]]" fun report s' => report.diagnostics = [] ∧
      ∃ w, report.outcome = .executed w ∧ w.equals s'.memory.heap v = true) ∧
    s.Ends supply cache "-9223372036854775808" fun report s' => report.outcome = .compileFailed ∧ s' = s.settled := by
  let s₀ : Session := .start smallOptions
  let cache : Cache := { Cache.start [] with loaded := some #[] }
  have reached₀ : s₀.chain.Reached := .start smallOptions.imports
  have few₀ : s₀.index + 1 < 4294967296 := by decide
  obtain ⟨⟨fuel, report, s, cache', hsubmit⟩, hends⟩ := ends_datum (d := nestedDatum) reached₀ few₀
    (show cache.loaded = some #[] from rfl) smallSupply (by decide) (by decide) (by decide)
  obtain ⟨-, v, houtcome, -, shows⟩ := hends fuel report s cache' hsubmit
  have shows : s.memory.view.heap.Shows v nestedDatum := shows
  have submits := submitUnder_submits hsubmit
  have hindex : s.index = 1 := by
    cases submits with
    | executed => rfl
    | unloaded | rejected | unemitted | faulted => cases houtcome
  have few : s.index + 1 < 4294967296 := by
    rw [hindex]
    decide
  have least : s.memory.view.heap.Shows (.int Int64.minValue) (.int Int64.minValue) := rfl
  have hnested : v.repr s.memory.view = "[-3, [true]]" := shows.repr (by decide) (by decide)
  have hleast : (Value.int Int64.minValue).repr s.memory.view = "-9223372036854775808" := least.repr (by decide) (by decide)
  refine ⟨s, cache, v, hindex, hnested, fun supply => ⟨?_, ?_⟩⟩
  · have back := (repr_reads_back (submits.reached reached₀) few (show cache.loaded = some #[] from rfl) supply
      shows (by decide) (by decide)).1 (by decide)
    rw [hnested] at back
    refine back.mono fun report s' h => ?_
    obtain ⟨hdiagnostics, w, houtcome, -, -, -, hequal⟩ := h
    exact ⟨hdiagnostics, w, houtcome, hequal rfl⟩
  · have refused := (repr_reads_back (submits.reached reached₀) few (show cache.loaded = some #[] from rfl) supply
      least (by decide) (by decide)).2 (by decide)
    rw [hleast] at refused
    exact refused.mono fun report s' h => ⟨h.1, h.2.2⟩

end Session
end ScriptEngine
