import ScriptEngine.Proofs.ValidatedCode

/-! Slices are not observed (`Executable.finishes_sliced`). Where a run ends is told by its steps alone
    (`Memory.Ends`): a machine that is suspended after a slice, or while it sleeps, is taken up where it was left. So runs
    in slices of any two sizes finish together, with the same value or fault, the same output and the same memory. -/

namespace ScriptEngine

namespace InvokeOptions

/-- The same options, with slices of another size. -/
def withSlice (options : InvokeOptions) (slice : Nat) : InvokeOptions := { options with slice := slice }

end InvokeOptions

/-- With no time limit and no cancellation nothing stops a run. -/
theorem Watch.ofOptions_unlimited {options : InvokeOptions} (unlimited : options.timeout = none) :
    Watch.ofOptions options false = Invocation.undisturbed := by
  funext work slept
  simp only [ofOptions, unlimited, Bool.false_eq_true, if_false, Invocation.undisturbed]

namespace Memory

section
variable {m : Memory} {refs : ReferenceSet} {e : Executable} {options : InvokeOptions} {done done' : Completion}

/-- A script comes to this end under the options, with no cancellation. -/
def Finishes (m : Memory) (refs : ReferenceSet) (e : Executable) (options : InvokeOptions) (done : Completion) : Prop :=
  ∃ fuel, m.run refs e options (.ofOptions options false) fuel = some done

/-- Steps of the machine that a script starts with lead to this end; slices have no part in it. -/
def Ends (m : Memory) (refs : ReferenceSet) (e : Executable) (maxCallDepth : Nat) (done : Completion) : Prop :=
  ∃ start k m' ended, m.launch? refs e = some start ∧
    Machine.Steps ⟨(m.link refs e.code).program, max maxCallDepth 1⟩ k start m' ∧
    Invocation.ofEnd (Machine.step ⟨(m.link refs e.code).program, max maxCallDepth 1⟩ m') = some ended ∧
    done = ⟨ended.outcome, ended.machine.output.toList, (m.link refs e.code).after ended.machine⟩

/-- A script has one end at most. -/
theorem Ends.unique {maxCallDepth : Nat} (h : m.Ends refs e maxCallDepth done) (h' : m.Ends refs e maxCallDepth done') :
    done = done' := by
  obtain ⟨start, k, last, ended, hstart, steps, hend, rfl⟩ := h
  obtain ⟨start', k', last', ended', hstart', steps', hend', rfl⟩ := h'
  obtain rfl := Option.some.inj (hstart.symm.trans hstart')
  obtain rfl := Machine.Steps.unique_end (Invocation.next?_of_end hend) (Invocation.next?_of_end hend') steps steps'
  obtain rfl := Option.some.inj (hend.symm.trans hend')
  rfl

/-- A script finishes in slices of any size where the steps of its machine end. -/
theorem finishes_iff (unlimited : options.timeout = none) :
    m.Finishes refs e options done ↔ m.Ends refs e options.maxCallDepth done := by
  rw [Finishes, Watch.ofOptions_unlimited unlimited]
  constructor
  · rintro ⟨fuel, hrun⟩
    obtain ⟨start, ended, hstart, hdrive, rfl⟩ := run_eq_some.mp hrun
    obtain ⟨k, last, steps, hend | ⟨interrupt, time, hwatch, -⟩⟩ := Invocation.drive_steps hdrive
    · exact ⟨start, k, last, ended, hstart, steps, hend, rfl⟩
    · cases hwatch
  · rintro ⟨start, k, last, ended, hstart, steps, hend, rfl⟩
    have hslice : 0 < max options.slice 1 := Nat.lt_of_lt_of_le Nat.zero_lt_one (Nat.le_max_right ..)
    obtain ⟨fuel, hdrive⟩ := Invocation.drive_of_steps hslice steps hend 0
    exact ⟨fuel, run_eq_some.mpr ⟨start, ended, hstart, hdrive, rfl⟩⟩

end
end Memory

/-- The error of a script that failed. -/
def Completion.error? (done : Completion) : Option RuntimeError :=
  match done.outcome with
  | .ok _ => none
  | .error fault => some fault.error

namespace Executable

/-- Of an image that the loader accepts, in any memory and under any limit on the depth of calls: there is a machine to
    start with, and its run in slices of one size comes to an end exactly if its run in slices of another size comes to
    that end. There is no second end. A size of zero counts as one. -/
theorem finishes_sliced {bytes : List UInt8} {refs : ReferenceSet} {name : String} {e : Executable}
    (accepted : ofBytes bytes refs name = .ok e) (m : Memory) {options : InvokeOptions} (unlimited : options.timeout = none)
    (a b : Nat) : (∃ start, m.launch? refs e = some start) ∧
      (∀ done, m.Finishes refs e (options.withSlice a) done ↔ m.Finishes refs e (options.withSlice b) done) ∧
      ∀ done done', m.Finishes refs e (options.withSlice a) done → m.Finishes refs e (options.withSlice b) done' →
        done = done' := by
  have sliced (slice : Nat) (done : Completion) :
      m.Finishes refs e (options.withSlice slice) done ↔ m.Ends refs e options.maxCallDepth done :=
    Memory.finishes_iff unlimited
  refine ⟨launch_isSome accepted, fun done => ?_, fun done done' h h' => ?_⟩
  · rw [sliced a, sliced b]
  · exact ((sliced a done).mp h).unique ((sliced b done').mp h')

/-- An image whose code sleeps, prints a line and then divides by zero. -/
def napping : Image where
  kind := .submission
  name := "napping"
  ordinal := 1
  slots := #[]
  imports := #[]
  functions := #[⟨"main", 0, 0, #[.int 3, .text "awake", .int 0],
    #[.openRecord, .const 0, .intrinsic Intrinsic.sleep.id 1, .pop, .const 1, .intrinsic Intrinsic.print.id 1, .pop,
      .const 0, .const 2, .binary .div, .ret], []⟩]
  entry := none

/-- One instruction a slice, or all that come before the script sleeps and all that come after: the script prints its
    line, and fails to divide. -/
theorem finishes_sliced_napping : ∃ e done, ofBytes napping.bytes #[] "main" = .ok e ∧
    InvokeOptions.default.timeout = none ∧
    (Memory.withCapacity 1).Finishes #[] e (InvokeOptions.default.withSlice 0) done ∧
    (Memory.withCapacity 1).Finishes #[] e (InvokeOptions.default.withSlice 100) done ∧
    done.error? = some .divisionByZero ∧ done.output = ["awake"] := by
  have computes : ((ofBytes napping.bytes #[] "main").toOption.bind fun e =>
      (Memory.withCapacity 1).run #[] e (InvokeOptions.default.withSlice 100)
        (.ofOptions (InvokeOptions.default.withSlice 100) false) 2).any (fun done =>
          done.error? == some .divisionByZero && done.output == ["awake"]) = true := by decide +kernel
  obtain ⟨done, hdone, hmade⟩ := (Option.any_eq_true ..).mp computes
  obtain ⟨e, he, hrun⟩ := Option.bind_eq_some_iff.mp hdone
  have accepted := except_toOption_eq_some.mp he
  have unlimited : InvokeOptions.default.timeout = none := rfl
  obtain ⟨-, same, -⟩ := finishes_sliced accepted (.withCapacity 1) unlimited 0 100
  obtain ⟨herror, houtput⟩ := (Bool.and_eq_true ..).mp hmade
  exact ⟨e, done, accepted, unlimited, (same done).mpr ⟨2, hrun⟩, ⟨2, hrun⟩, beq_iff_eq.mp herror, beq_iff_eq.mp houtput⟩

end Executable
end ScriptEngine
