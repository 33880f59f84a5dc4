import ScriptEngine.Proofs.Slices

/-! The limit on the depth of calls is a cut-off (`Memory.depth_cuts_off`). It is looked at in one place, where a function is
    entered: so a step under a higher limit does the same, or the step under the lower one is a call that fails for want of
    room (`Machine.step_deeper`), and slices and runs follow step by step. -/

namespace ScriptEngine

namespace InvokeOptions

/-- The same options, with another limit on the depth of calls. -/
def withDepth (options : InvokeOptions) (depth : Nat) : InvokeOptions := { options with maxCallDepth := depth }

end InvokeOptions

/-- A script failed because too many functions ran at once. -/
def Completion.Overflows (done : Completion) : Prop := ∃ limit, done.error? = some (.stackOverflow limit)

namespace Machine

/-- How many functions run at once. -/
def depth (m : Machine) : Nat := m.callers.height + 1

/-- The same program, under another limit. -/
def Env.withDepth (env : Env) (depth : Nat) : Env := { env with maxDepth := depth }

@[simp]
theorem Env.program_withDepth (env : Env) (depth : Nat) : (env.withDepth depth).program = env.program := rfl

@[simp]
theorem Env.maxDepth_withDepth (env : Env) (depth : Nat) : (env.withDepth depth).maxDepth = depth := rfl

section
variable {env : Env} {d : Nat} {m m' : Machine}

/-! ### Room for calls -/

/-- A function is entered only below the limit. -/
theorem calleeFrame_room {callee : Value} {args : List Value} {frame : Frame}
    (h : calleeFrame env m callee args = .ok frame) : m.depth < env.maxDepth := by
  unfold calleeFrame at h
  split at h
  · split at h
    · cases h
    · split at h
      · cases h
      · split at h
        · cases h
        · split at h
          · cases h
          · rename_i room
            exact Nat.lt_of_not_le room
  · cases h

theorem call_room {argc : Nat} (h : (call env argc m).next? = some m') : m'.depth ≤ env.maxDepth := by
  unfold call at h
  split at h
  · cases h
  · obtain ⟨frame, hframe, h⟩ := next_proceed h
    cases h
    exact calleeFrame_room hframe

/-- A step goes on with as many functions or fewer, or with no more than the limit. -/
theorem Next.depth_le (h : Next env m m') : m'.depth ≤ max m.depth env.maxDepth := by
  obtain ⟨i, hi, hexec⟩ := next_execute h
  obtain ⟨i', hi', moves | ⟨argc, rfl, -⟩ | ⟨-, leaves⟩⟩ := next_inv h
  · exact Nat.le_trans (Nat.le_of_eq (congrArg (·.height + 1) moves.callers)) (Nat.le_max_left ..)
  · obtain rfl : i = .call argc := Option.some.inj (hi.symm.trans hi')
    exact Nat.le_trans (call_room hexec) (Nat.le_max_right ..)
  · have fewer : m.callers.items.length = m'.callers.items.length + 1 := by
      rw [leaves.callers, List.length_cons]
    refine Nat.le_trans ?_ (Nat.le_max_left ..)
    rw [depth, depth, m.callers.height_eq, m'.callers.height_eq]
    omega

/-- No step goes beyond the limit, if the function that runs first has room. -/
theorem Steps.depth_le {k : Nat} (h : Steps env k m m') : m'.depth ≤ max m.depth env.maxDepth :=
  h.keeps (P := fun a => a.depth ≤ max m.depth env.maxDepth)
    (fun ha next => Nat.le_trans next.depth_le (Nat.max_le.mpr ⟨ha, Nat.le_max_right ..⟩)) (Nat.le_max_left ..)

theorem start_depth {program : Program} {entry : Callable} {records : Records} {heap : Heap}
    (h : start? program entry records heap = some m) : m.depth = 1 := by
  obtain ⟨code, -, h⟩ := Option.bind_eq_some_iff.mp h
  obtain ⟨routine, -, h⟩ := Option.bind_eq_some_iff.mp h
  cases h
  rfl

/-! ### Two limits -/

/-- Where there is room below the lower limit, there is room below the higher one. -/
theorem calleeFrame_deeper (le : env.maxDepth ≤ d) (m : Machine) (callee : Value) (args : List Value) :
    calleeFrame (env.withDepth d) m callee args = calleeFrame env m callee args ∨
      calleeFrame env m callee args = .error (.stackOverflow env.maxDepth) := by
  cases callee with
  | function c =>
    simp only [calleeFrame, Env.program_withDepth, Env.maxDepth_withDepth]
    split
    · exact .inl rfl
    · split
      · exact .inl rfl
      · split
        · exact .inl rfl
        · by_cases full : env.maxDepth ≤ m.callers.height + 1
          · exact .inr (if_pos full)
          · rw [if_neg full]
            exact .inl (if_neg fun full' => full (Nat.le_trans le full'))
  | _ => exact .inl rfl

theorem call_deeper (le : env.maxDepth ≤ d) (argc : Nat) (m : Machine) :
    call (env.withDepth d) argc m = call env argc m ∨ call env argc m = .faulted (.stackOverflow env.maxDepth) m := by
  unfold call
  split
  · exact .inl rfl
  · rename_i callee rest _
    obtain same | full := calleeFrame_deeper le m callee (m.stack.items.take argc).reverse
    · rw [same]
      exact .inl rfl
    · rw [full]
      exact .inr rfl

/-- Only a call looks at the limit. -/
theorem execute_withDepth {i : Instr} (hcall : ∀ argc, i ≠ .call argc) (d : Nat) (m : Machine) :
    execute (env.withDepth d) m i = execute env m i := by
  cases i with
  | call argc => exact absurd rfl (hcall argc)
  | _ => rfl

/-- A step under a higher limit is the same, or the call that it makes has no room under the lower one. -/
theorem step_deeper (le : env.maxDepth ≤ d) (m : Machine) : step (env.withDepth d) m = step env m ∨
    ∃ m', step env m = .faulted (.stackOverflow env.maxDepth) m' := by
  unfold step
  split
  · rename_i i _
    by_cases hcall : ∃ argc, i = .call argc
    · obtain ⟨argc, rfl⟩ := hcall
      exact (call_deeper le argc.toNat m.advance).imp_right fun full => ⟨m.advance, full⟩
    · exact .inl (execute_withDepth (fun argc heq => hcall ⟨argc, heq⟩) d m.advance)
  · exact .inl rfl

theorem run_deeper (le : env.maxDepth ≤ d) (n : Nat) (m : Machine) : run (env.withDepth d) n m = run env n m ∨
    ∃ m', run env n m = .faulted (.stackOverflow env.maxDepth) m' := by
  induction n generalizing m with
  | zero => exact .inl rfl
  | succ n ih =>
    rw [run, run]
    obtain same | ⟨m', full⟩ := step_deeper le m
    · rw [same]
      split
      · exact ih _
      · exact .inl rfl
    · rw [full]
      exact .inr ⟨m', rfl⟩

end
end Machine

/-- Whatever ends a run, other than want of room for a call, ends it under a higher limit as well. -/
theorem Invocation.drive_deeper {env : Machine.Env} {d slice fuel slept : Nat} {watch : Watch} {m : Machine}
    {done : Invocation} (le : env.maxDepth ≤ d) (h : drive env slice watch fuel slept m = some done) :
    drive (env.withDepth d) slice watch fuel slept m = some done ∨
      ∃ m', done = fault (.stackOverflow env.maxDepth) m' := by
  induction fuel generalizing slept m with
  | zero => cases h
  | succ fuel ih =>
    rw [drive] at h ⊢
    split at h
    · exact .inl h
    · obtain same | ⟨m', full⟩ := Machine.run_deeper le slice m
      · rw [same]
        split at h
        · exact ih h
        · exact ih h
        · exact .inl h
        · exact .inl h
      · rw [full] at h
        cases h
        exact .inr ⟨m', rfl⟩

/-- For every script and every memory: under a limit `d` no more than `d` functions run at once, where a limit of zero
    counts as one; and however the script ends, unless it is for want of room for a call, under any higher limit it ends
    in the same way, with the same value or error and trace, the same output and the same memory. -/
theorem Memory.depth_cuts_off (m : Memory) (refs : ReferenceSet) (e : Executable) (options : InvokeOptions) {d d' : Nat}
    (le : d ≤ d') :
    (∀ start k m', m.launch? refs e = some start →
      Machine.Steps (m.env refs e (options.withDepth d)) k start m' → m'.depth ≤ max d 1) ∧
    ∀ watch fuel done, m.run refs e (options.withDepth d) watch fuel = some done → ¬done.Overflows →
      m.run refs e (options.withDepth d') watch fuel = some done := by
  constructor
  · intro start k m' hstart steps
    have first := Machine.start_depth hstart
    have within : m'.depth ≤ max start.depth (max d 1) := steps.depth_le
    rw [first] at within
    omega
  · intro watch fuel done hrun hroom
    obtain ⟨start, ended, hstart, hdrive, rfl⟩ := run_eq_some.mp hrun
    have higher : (m.env refs e (options.withDepth d)).maxDepth ≤ max d' 1 := by
      show max d 1 ≤ max d' 1
      omega
    obtain hdeep | ⟨m', rfl⟩ := Invocation.drive_deeper higher hdrive
    · exact run_eq_some.mpr ⟨start, ended, hstart, hdeep, rfl⟩
    · exact absurd ⟨_, rfl⟩ hroom

/-- An image whose entry routine calls a function that divides by zero. -/
def Image.nested : Image where
  kind := .submission
  name := "nested"
  ordinal := 1
  slots := #[]
  imports := #[]
  functions := #[⟨"main", 0, 0, #[], #[.openRecord, .loadFunction 1, .call 0, .ret], [⟨0, 1⟩]⟩,
    ⟨"half", 0, 0, #[.int 3, .int 0], #[.const 0, .const 1, .binary .div, .ret], [⟨0, 2⟩]⟩]
  entry := none

/-- One function has no room for the other. Two have, so with a limit of two and of any more the division fails, with a
    trace of both. -/
theorem Memory.depth_cuts_off_nested : ∃ e done, Executable.ofBytes Image.nested.bytes #[] "main" = .ok e ∧ 2 ≤ 512 ∧
    (∃ full, (Memory.withCapacity 1).run #[] e (InvokeOptions.default.withDepth 1) Invocation.undisturbed 1 = some full ∧
      full.Overflows) ∧
    (Memory.withCapacity 1).run #[] e (InvokeOptions.default.withDepth 2) Invocation.undisturbed 1 = some done ∧
    done.error? = some .divisionByZero ∧ ¬done.Overflows ∧
    (Memory.withCapacity 1).run #[] e (InvokeOptions.default.withDepth 512) Invocation.undisturbed 1 = some done := by
  have full : ((Executable.ofBytes Image.nested.bytes #[] "main").toOption.bind fun e =>
      (Memory.withCapacity 1).run #[] e (InvokeOptions.default.withDepth 1) Invocation.undisturbed 1).any (fun done =>
        done.error? == some (.stackOverflow 1)) = true := by decide +kernel
  have computes : ((Executable.ofBytes Image.nested.bytes #[] "main").toOption.bind fun e =>
      (Memory.withCapacity 1).run #[] e (InvokeOptions.default.withDepth 2) Invocation.undisturbed 1).any (fun done =>
        done.error? == some .divisionByZero) = true := by decide +kernel
  obtain ⟨shallow, hshallow, herror⟩ := (Option.any_eq_true ..).mp full
  obtain ⟨e, he, hfull⟩ := Option.bind_eq_some_iff.mp hshallow
  obtain ⟨done, hdone, hdivision⟩ := (Option.any_eq_true ..).mp computes
  obtain ⟨e', he', hrun⟩ := Option.bind_eq_some_iff.mp hdone
  obtain rfl := Option.some.inj (he.symm.trans he')
  have division := beq_iff_eq.mp hdivision
  have room : ¬done.Overflows := fun ⟨_, h⟩ => by
    rw [division] at h
    cases h
  exact ⟨e, done, except_toOption_eq_some.mp he, by decide, ⟨shallow, hfull, 1, beq_iff_eq.mp herror⟩, hrun, division, room,
    (depth_cuts_off (.withCapacity 1) #[] e .default (by decide)).2 Invocation.undisturbed 1 done hrun room⟩

end ScriptEngine
