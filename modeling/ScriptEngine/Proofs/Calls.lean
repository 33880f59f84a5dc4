import ScriptEngine.Proofs.Simulation

/-! Functions and calls. A call is simulated by the run of the callee, by induction on the fuel; so the machine
    that starts a program ends exactly as the evaluation of its entry routine does. -/

namespace ScriptEngine.Machine
open Lowering Evaluator

/-! ### Functions -/

section
variable {env : Env} {sc : Scope} {a : Activation} {stack : List Value} {s : Store} {m : Machine}

theorem storeFunctions_reaches {loop : Option LoopTargets} {pending : Bool} {pc record : Nat} {base : List Value}
    {fs : List Bound.FunctionSlot} (suits : Suits env sc a) (stands : Stands.stores a.routine record pc fs)
    (h : Poised a pc stack s m) :
    Reaches env a loop pending base sc.fuel m (fun _ => Poised a (pc + fs.length * 2) stack)
      (sc.storeFunctions record fs s) := by
  induction fs generalizing pc s m with
  | nil => exact .done h
  | cons f fs ih =>
    obtain ⟨⟨i, hload, hindex⟩, hstore, hrest⟩ := stands
    have hsize : pc + (f :: fs).length * 2 = pc + 2 + fs.length * 2 := by
      rw [List.length_cons]
      omega
    rw [hsize, Scope.storeFunctions, ← hindex]
    refine .bind (h.function suits hload) fun v s m h => ?_
    exact .bind (h.store hstore) fun _ s m h => ih hrest h

theorem opening_reaches {loop : Option LoopTargets} {pending : Bool} {index : Nat} {base : List Value}
    (suits : Suits env sc a) (stands : Stands.opening a.routine sc.unit index) (h : Poised a 0 stack s m) :
    Reaches env a loop pending base sc.fuel m (fun _ => Poised a (Size.opening sc.unit index) stack)
      (sc.opening index s) := by
  unfold Scope.opening Size.opening
  cases hopening : opening? sc.unit index with
  | none => exact .done h
  | some record =>
    obtain ⟨hopen, hstores⟩ := stands record hopening
    have hrecord : a.code.record? = some record := by
      refine suits.record record ?_
      unfold opening? at hopening
      split at hopening
      · exact hopening
      · cases hopening
    have started : ∃ m', Next env m m' ∧
        Poised a 1 stack { s with records := s.records.start record sc.unit.slots } m' := by
      have hstep : step env m = execute env m.advance .openRecord := h.step hopen
      have hcode : m.advance.frame.code = a.code := by rw [h.advance.frame]; rfl
      simp only [execute, hcode, hrecord, suits.slots, h.advance.holds.2.1] at hstep
      exact ⟨_, .of_running hstep, h.advance.setRecords _⟩
    obtain ⟨m₁, first, h₁⟩ := started
    have stored : Reaches env a loop pending base sc.fuel m₁ _ _ := storeFunctions_reaches suits hstores h₁
    simp only [Option.isSome_some, if_true]
    rw [Nat.add_comm 1] at stored
    exact (stored.after (.one h.inside first)).mono (Nat.le_add_left ..)

/-- A function that was run is at a return, with its value above what was there before, or it ended otherwise. -/
def Returns (env : Env) (a : Activation) (stack : List Value) (fuel : Nat) (locals : Array Value) (m : Machine) :
    Evaluator.Outcome Value → Prop
  | .done v s => ∃ k m' pc above t, Course env a.callers.items k m m' ∧ a.routine.Holds pc .ret ∧
      Poised a pc (v :: (above ++ stack)) t m' ∧ s = { t with locals := locals }
  | .fault e s => ∃ k m' m'', Course env a.callers.items k m m' ∧ step env m' = .faulted e m'' ∧ m''.Holds s ∧
      Inside a.callers.items m'
  | .dry => ∃ k m', Course env a.callers.items k m m' ∧ fuel ≤ k
  | _ => False

/-- A body that ends at the last return of its function has run the function. -/
theorem Reaches.returns {fuel last : Nat} {o : Evaluator.Outcome Value} (locals : Array Value)
    (body : Reaches env a none false stack fuel m (fun v => Poised a last (v :: stack)) o)
    (hret : a.routine.Holds last .ret) : Returns env a stack fuel locals m (o.restoring locals) := by
  cases o with
  | done v t =>
    obtain ⟨k, m', steps, h⟩ := body
    exact ⟨k, m', _, [], t, steps, hret, h, rfl⟩
  | ret v t =>
    obtain ⟨k, m', pc, above, steps, hret, h⟩ := body
    exact ⟨k, m', pc, above, t, steps, hret, h, rfl⟩
  | leave t | next t =>
    -- There is no loop around the body of a function.
    obtain ⟨-, k, m', targets, -, hloop, -⟩ := body
    cases hloop
  | fault e t | dry => exact body

theorem invoke_returns {index : Nat} {f : Bound.Func} {args : List Value} (suits : Suits env sc a)
    (stands : Stands.function a.routine sc.unit index f) (tidy : Bound.Tidy.block false f.body = true)
    (h : Poised a 0 stack { s with locals := args.toArray ++ Array.replicate (f.locals - args.length) .unit } m) :
    Returns env a stack sc.fuel s.locals m (sc.invoke index f args s) := by
  have body : Reaches env a none false stack sc.fuel m
      (fun v => Poised a (Size.opening sc.unit index + Size.block f.body) (v :: stack))
      ((sc.opening index { s with locals := args.toArray ++ Array.replicate (f.locals - args.length) .unit }).bind
        fun _ s => Evaluator.block sc f.body s) :=
    .bind (opening_reaches suits stands.opening h) fun _ s m h => block_reaches suits f.body stands.body tidy h
  exact body.returns s.locals stands.last

end

/-! ### Calls -/

/-- Code that was loaded for a bound unit. -/
structure Carries (w : World) (code : CodeModule) (p : Bound.Program) : Prop where
  size : code.functions.size = p.functions.length
  function : ∀ {index : Nat} {f : Bound.Func} {r : Routine}, p.functions[index]? = some f →
    code.functions[index]? = some r → Stands.function r p index f
  imports : ∀ i : Nat, code.imports[i]? = p.imports[i]?.bind w.resolve?
  slots : code.slots = p.slots
  record : ∀ record, p.record = some record → code.record? = some record

/-- The program is the loaded code of the units of a world, which are all tidy. -/
structure Agrees (env : Env) (w : World) : Prop where
  maxDepth : env.maxDepth = w.maxDepth
  unit : ∀ home, (env.program.module? home = none ∧ w.unit? home = none) ∨
    ∃ code p, env.program.module? home = some code ∧ w.unit? home = some p ∧ Carries w code p ∧ p.Tidy

namespace Agrees

variable {env : Env} {w : World}

/-- A function of a unit and its routine. -/
theorem function (agrees : Agrees env w) {home : Home} {code : CodeModule} {p : Bound.Program}
    (hcode : env.program.module? home = some code) (hunit : w.unit? home = some p) (index : Nat) :
    Carries w code p ∧ ((code.functions[index]? = none ∧ p.functions[index]? = none) ∨
      ∃ r f, code.functions[index]? = some r ∧ p.functions[index]? = some f ∧ Stands.function r p index f ∧
        Bound.Tidy.block false f.body = true) := by
  rcases agrees.unit home with ⟨hnone, -⟩ | ⟨code', p', hcode', hunit', carries, tidy⟩
  · rw [hcode] at hnone
    cases hnone
  · obtain rfl := Option.some.inj (hcode.symm.trans hcode')
    obtain rfl := Option.some.inj (hunit.symm.trans hunit')
    refine ⟨carries, ?_⟩
    rcases Nat.lt_or_ge index code.functions.size with hlt | hge
    · have hbound : index < p.functions.length := carries.size ▸ hlt
      have hf := List.getElem?_eq_getElem hbound
      have hr := Array.getElem?_eq_getElem hlt
      exact .inr ⟨_, _, hr, hf, carries.function hf hr, tidy _ (List.mem_of_getElem? hf)⟩
    · exact .inl ⟨Array.getElem?_eq_none hge, List.getElem?_eq_none (carries.size ▸ hge)⟩

/-- Functions have the same names. -/
theorem view (agrees : Agrees env w) (heap : Heap) : Value.View.of env.program heap = w.view heap := by
  refine congrArg (Value.View.mk heap) (funext fun c => ?_)
  unfold Program.routineName Program.routine? World.function?
  rcases agrees.unit c.home with ⟨hcode, hunit⟩ | ⟨code, p, hcode, hunit, -, -⟩
  · rw [hcode, hunit]
    rfl
  · rw [hcode, hunit]
    obtain ⟨-, ⟨hr, hf⟩ | ⟨r, f, hr, hf, stands, -⟩⟩ := agrees.function hcode hunit c.index
    · simp only [Option.bind_eq_bind, Option.bind_some, hr, hf]
      rfl
    · simp only [Option.bind_eq_bind, Option.bind_some, hr, hf, Option.map_some, stands.name]

end Agrees

section
variable {env : Env} {w : World}

/-- The scope of a unit suits its code, if names are seen alike and calls are simulated. -/
theorem Carries.suits_scope {p : Bound.Program} {a : Activation} (carries : Carries w a.code p)
    (view : ∀ heap, Value.View.of env.program heap = w.view heap) {fuel : Nat}
    {call : Value → List Value → Store → Evaluator.Outcome Value}
    (hcall : ∀ {loop : Option LoopTargets} {pending : Bool} {pc : Nat} {argc : UInt8} {callee : Value}
      {args stack : List Value} {s : Store} {m : Machine}, a.routine.Holds pc (.call argc) → argc.toNat = args.length →
      Poised a pc (args.reverse ++ callee :: stack) s m →
      Reaches env a loop pending stack fuel m (fun v => Poised a (pc + 1) (v :: stack)) (call callee args s)) :
    Suits env ⟨w, a.callee.home, p, fuel, call⟩ a :=
  ⟨rfl, view, carries.size, carries.imports, carries.slots, carries.record, hcall⟩

/-- A call looks for the callee below its arguments. -/
theorem Poised.call_step {a : Activation} {pc : Nat} {argc : UInt8} {callee : Value} {args stack : List Value} {s : Store}
    {m : Machine} (h : Poised a pc (args.reverse ++ callee :: stack) s m) (env : Env) (hi : a.routine.Holds pc (.call argc))
    (hargc : argc.toNat = args.length) :
    Machine.step env m = m.advance.proceed (calleeFrame env m.advance callee args) fun frame m =>
      .running { m with frame := frame, callers := m.callers.push m.frame, stack := m.stack.drop (args.length + 1) } := by
  have hlength : args.reverse.length = args.length := List.length_reverse
  have hdrop : m.advance.stack.items.drop args.length = callee :: stack := by
    rw [h.advance.stack, List.drop_left' hlength]
  have htake : (m.advance.stack.items.take args.length).reverse = args := by
    rw [h.advance.stack, List.take_left' hlength, List.reverse_reverse]
  rw [h.step hi]
  simp only [execute, Machine.call, hargc, hdrop, htake]

/-- A call of a function with as many arguments as it takes, where there is room for one more. The callee starts above what
    is left when it and its arguments are taken from the stack. -/
theorem Poised.enters {a : Activation} {pc : Nat} {argc : UInt8} {c : Callable} {args stack : List Value} {s : Store}
    {m : Machine} {code : CodeModule} {r : Routine} (h : Poised a pc (args.reverse ++ .function c :: stack) s m)
    (hi : a.routine.Holds pc (.call argc)) (hargc : argc.toNat = args.length)
    (hcode : env.program.module? c.home = some code) (hr : code.functions[c.index]? = some r)
    (harity : r.arity.toNat = args.length) (room : a.callers.height + 1 < env.maxDepth) :
    ∃ m₁, Next env m m₁ ∧ Poised ⟨c, code, r, stack.length, a.callers.push (a.frame (pc + 1) s.locals)⟩ 0 stack
      { s with locals := args.toArray ++ Array.replicate (r.locals.toNat - args.length) .unit } m₁ := by
  have hrest : m.advance.stack.items.drop (args.length + 1) = stack := by
    rw [h.advance.stack, ← List.drop_drop, List.drop_left' (List.length_reverse ..)]
    rfl
  have hheight : m.advance.stack.height - (args.length + 1) = stack.length := by
    rw [m.advance.stack.height_eq, ← List.length_drop, hrest]
  have hframe : calleeFrame env m.advance (.function c) args = .ok (.enter c code r args stack.length) := by
    simp only [calleeFrame, hcode, hr, harity, h.advance.callers, hheight, Nat.not_le.mpr room, ne_eq, not_true, if_false]
  have hstep := h.call_step env hi hargc
  rw [hframe] at hstep
  refine ⟨_, .of_running hstep, rfl, ?_, hrest, h.advance.holds⟩
  rw [h.advance.callers, h.advance.frame]

/-- A return goes back to the caller with the value. -/
theorem Poised.returns {a : Activation} {pc back : Nat} {v : Value} {above stack : List Value} {s : Store} {m : Machine}
    {caller : Activation} {locals : Array Value} (h : Poised a pc (v :: (above ++ stack)) s m) (env : Env)
    (hret : a.routine.Holds pc .ret) (hbase : a.base = stack.length)
    (hcallers : a.callers = caller.callers.push (caller.frame back locals)) :
    ∃ m', Next env m m' ∧ Poised caller back (v :: stack) { s with locals := locals } m' := by
  have hstep : Machine.step env m = ret m.advance := h.step hret
  have hitems : m.advance.callers.items = caller.frame back locals :: caller.callers.items := by
    rw [h.advance.callers, hcallers]
    rfl
  have hcut : ((m.advance.stack.drop 1).cutTo m.advance.frame.base).items = stack := by
    rw [Stack.items_cutTo, Stack.items_drop, h.advance.stack, h.advance.frame]
    simp only [Activation.frame, hbase, List.drop_succ_cons, List.drop_zero, List.length_append, Nat.add_sub_cancel,
      List.drop_left]
  unfold ret at hstep
  simp only [h.advance.stack, hitems] at hstep
  refine ⟨_, .of_running hstep, rfl, ?_, ?_, h.advance.holds⟩
  · refine Stack.ext ?_
    rw [Stack.items_drop, hitems]
    rfl
  · rw [Stack.items_push, hcut]

/-- The run of a callee, from the step that enters it to the return. -/
theorem Returns.reaches {a b : Activation} {loop : Option LoopTargets} {pending : Bool} {back fuel : Nat}
    {locals : Array Value} {stack : List Value} {m m₁ : Machine} {o : Evaluator.Outcome Value}
    (returns : Returns env b stack fuel locals m₁ o) (hbase : b.base = stack.length)
    (hcallers : b.callers = a.callers.push (a.frame back locals)) (inside : Inside a.callers.items m) (entered : Next env m m₁) :
    Reaches env a loop pending stack (fuel + 1) m (fun v => Poised a back (v :: stack)) o := by
  have deeper : a.callers.items <:+ b.callers.items := by
    rw [hcallers]
    exact List.suffix_cons ..
  cases o with
  | done v t =>
    obtain ⟨k, m₂, pc, above, t, steps, hret, h₂, rfl⟩ := returns
    obtain ⟨m₃, left, h₃⟩ := h₂.returns env hret hbase hcallers
    have back := (steps.widen deeper).trans (.one (deeper.trans h₂.inside) left)
    exact ⟨k + 1 + 1, m₃, .step inside entered back, h₃⟩
  | fault e t =>
    obtain ⟨k, m₂, m₃, steps, hfault, hholds, hinside⟩ := returns
    exact ⟨k + 1, m₂, m₃, .step inside entered (steps.widen deeper), hfault, hholds, deeper.trans hinside⟩
  | dry =>
    obtain ⟨k, m₂, steps, hk⟩ := returns
    exact ⟨k + 1, m₂, .step inside entered (steps.widen deeper), Nat.succ_le_succ hk⟩
  | ret v t | leave t | next t => exact returns.elim

/-- The machine calls a function as the evaluator does. -/
theorem call_reaches (agrees : Agrees env w) {fuel : Nat} {a : Activation} {loop : Option LoopTargets} {pending : Bool}
    {pc : Nat} {argc : UInt8} {callee : Value} {args stack : List Value} {s : Store} {m : Machine}
    (hi : a.routine.Holds pc (.call argc)) (hargc : argc.toNat = args.length)
    (h : Poised a pc (args.reverse ++ callee :: stack) s m) :
    Reaches env a loop pending stack fuel m (fun v => Poised a (pc + 1) (v :: stack))
      (Evaluator.call w fuel a.callers.height callee args s) := by
  induction fuel generalizing a loop pending pc argc callee args stack s m with
  | zero => exact ⟨0, m, .refl m, Nat.zero_le 0⟩
  | succ fuel ih =>
    have hstep := h.call_step env hi hargc
    -- Evaluator and machine look for what keeps a call from starting in the same order.
    have fails : ∀ {e : RuntimeError}, calleeFrame env m.advance callee args = .error e →
        Reaches env a loop pending stack (fuel + 1) m (fun v => Poised a (pc + 1) (v :: stack)) (.fault e s) := by
      intro e he
      rw [he] at hstep
      exact ⟨0, m, m.advance, .refl m, hstep, h.advance.holds, h.inside⟩
    cases callee with
    | function c =>
      rw [Evaluator.call]
      rcases agrees.unit c.home with ⟨hcode, hunit⟩ | ⟨code, p, hcode, hunit, -, -⟩
      · simp only [hunit]
        exact fails (by simp only [calleeFrame, hcode])
      · simp only [hunit]
        obtain ⟨carries, ⟨hr, hf⟩ | ⟨r, f, hr, hf, stands, tidy⟩⟩ := agrees.function hcode hunit c.index
        · simp only [hf]
          exact fails (by simp only [calleeFrame, hcode, hr])
        · simp only [hf]
          split
          · rename_i harity
            exact fails (by
              simp only [calleeFrame, hcode, hr, stands.arity, Routine.shortName, stands.name, if_pos harity])
          · rename_i harity
            split
            · rename_i hdepth
              exact fails (by
                simp only [calleeFrame, hcode, hr, stands.arity, if_neg harity, h.advance.callers, agrees.maxDepth,
                  if_pos hdepth])
            · rename_i hdepth
              have room : a.callers.height + 1 < env.maxDepth := agrees.maxDepth ▸ Nat.not_le.mp hdepth
              obtain ⟨m₁, entered, h₁⟩ := h.enters hi hargc hcode hr (stands.arity.trans (Decidable.not_not.mp harity)) room
              let b : Activation := ⟨c, code, r, stack.length, a.callers.push (a.frame (pc + 1) s.locals)⟩
              have suits : Suits env ⟨w, c.home, p, fuel, Evaluator.call w fuel (a.callers.height + 1)⟩ b :=
                carries.suits_scope (a := b) agrees.view fun hi hargc h => ih hi hargc h
              have returns := invoke_returns (s := s) suits stands tidy (stands.locals ▸ h₁)
              exact returns.reaches rfl rfl h.inside entered
    | unit | int n | float x | bool b | text t | list id => exact fails rfl

end

/-! ### Whole evaluations -/

section
variable {env : Env} {w : World} {entry : Callable} {records : Records} {heap : Heap} {start : Machine}

theorem start?_poised {program : Program} (h : start? program entry records heap = some start) :
    ∃ code r, program.module? entry.home = some code ∧ code.functions[entry.index]? = some r ∧
      Poised ⟨entry, code, r, 0, .empty⟩ 0 []
        ⟨#[] ++ Array.replicate (r.locals.toNat - 0) .unit, heap, records, #[]⟩ start := by
  obtain ⟨code, hcode, h⟩ := Option.bind_eq_some_iff.mp h
  obtain ⟨r, hr, h⟩ := Option.bind_eq_some_iff.mp h
  cases h
  exact ⟨code, r, hcode, hr, rfl, rfl, rfl, rfl, rfl, rfl⟩

/-- The last return ends the run. -/
theorem Poised.finishes {a : Activation} {pc : Nat} {v : Value} {rest : List Value} {s : Store} {m : Machine}
    (h : Poised a pc (v :: rest) s m) (env : Env) (hret : a.routine.Holds pc .ret) (hcallers : a.callers = .empty) :
    ∃ done, Invocation.ofEnd (Machine.step env m) = some done ∧
      Evaluation.ofInvocation done = ⟨.ok v, s.output.toList, s.heap, s.records⟩ := by
  have hstep : Machine.step env m = ret m.advance := h.step hret
  have hitems : m.advance.callers.items = [] := by
    rw [h.advance.callers, hcallers]
    rfl
  unfold ret at hstep
  simp only [h.advance.stack, hitems] at hstep
  rw [hstep]
  obtain ⟨hheap, hrecords, houtput⟩ := h.advance.holds
  exact ⟨_, rfl, by rw [← houtput, ← hheap, ← hrecords]; rfl⟩

/-- The machine that starts a routine ends as the evaluation of the routine does; and if that runs dry, the
    machine takes at least as many steps as there was fuel. -/
theorem evaluate_ends (agrees : Agrees env w) (hstart : start? env.program entry records heap = some start) (fuel : Nat) :
    (∃ k m done, w.evaluate entry records heap fuel = some (.ofInvocation done) ∧ Steps env k start m ∧
      Invocation.ofEnd (step env m) = some done) ∨
    w.evaluate entry records heap fuel = none ∧ ∃ k m, Steps env k start m ∧ fuel ≤ k := by
  obtain ⟨code, r, hcode, hr, h⟩ := start?_poised hstart
  rcases agrees.unit entry.home with ⟨hnone, -⟩ | ⟨code', p, hcode', hunit, -, -⟩
  · rw [hcode] at hnone
    cases hnone
  obtain rfl := Option.some.inj (hcode.symm.trans hcode')
  obtain ⟨carries, ⟨hnone, -⟩ | ⟨r', f, hr', hf, stands, tidy⟩⟩ := agrees.function hcode hunit entry.index
  · rw [hr] at hnone
    cases hnone
  obtain rfl := Option.some.inj (hr.symm.trans hr')
  let a : Activation := ⟨entry, code, r, 0, .empty⟩
  have suits : Suits env ⟨w, entry.home, p, fuel, Evaluator.call w fuel 0⟩ a :=
    carries.suits_scope (a := a) agrees.view fun hi hargc h => call_reaches agrees hi hargc h
  rw [stands.locals] at h
  -- Nothing waits for the entry routine, so its return ends the run.
  have returns := invoke_returns (s := ⟨#[], heap, records, #[]⟩) suits stands tidy h
  unfold World.evaluate
  simp only [Option.bind_eq_bind, hunit, hf, Option.bind_some]
  cases hresult : Scope.invoke ⟨w, entry.home, p, fuel, Evaluator.call w fuel 0⟩ entry.index f []
      ⟨#[], heap, records, #[]⟩ with
  | done v t =>
    rw [hresult] at returns
    obtain ⟨k, m, pc, above, t, steps, hret, h, rfl⟩ := returns
    obtain ⟨done, hend, hending⟩ := h.finishes env hret rfl
    exact .inl ⟨k, m, done, congrArg some hending.symm, steps.steps, hend⟩
  | fault e t =>
    rw [hresult] at returns
    obtain ⟨k, m, m', steps, hfault, ⟨hheap, hrecords, houtput⟩, -⟩ := returns
    refine .inl ⟨k, m, .fault e m', ?_, steps.steps, by rw [hfault]; rfl⟩
    simp only [← houtput, ← hheap, ← hrecords]
    rfl
  | dry =>
    rw [hresult] at returns
    obtain ⟨k, m, steps, hk⟩ := returns
    exact .inr ⟨rfl, k, m, steps.steps, hk⟩
  | ret v t | leave t | next t =>
    rw [hresult] at returns
    exact returns.elim

/-- A program ends in some way exactly if the evaluation of its entry routine does. -/
theorem evaluate_iff_drive (agrees : Agrees env w) (hstart : start? env.program entry records heap = some start)
    {slice : Nat} (hslice : 0 < slice) (ending : Evaluation) :
    (∃ fuel, w.evaluate entry records heap fuel = some ending) ↔
      ∃ fuel done, Invocation.drive env slice Invocation.undisturbed fuel 0 start = some done ∧
        Evaluation.ofInvocation done = ending := by
  constructor
  · rintro ⟨fuel, hevaluate⟩
    rcases evaluate_ends agrees hstart fuel with ⟨k, m, done, hevaluate', steps, hend⟩ | ⟨hnone, -⟩
    · rw [hevaluate] at hevaluate'
      cases hevaluate'
      obtain ⟨fuel', hdrive⟩ := Invocation.drive_of_steps hslice steps hend 0
      exact ⟨fuel', done, hdrive, rfl⟩
    · rw [hevaluate] at hnone
      cases hnone
  · rintro ⟨fuel, done, hdrive, rfl⟩
    obtain ⟨k, m, steps, hend | ⟨interrupt, time, hwatch, -⟩⟩ := Invocation.drive_steps hdrive
    · -- With more fuel than the run has steps, the evaluation cannot run dry.
      rcases evaluate_ends agrees hstart (k + 1) with ⟨k', m', done', hevaluate, steps', hend'⟩ | ⟨-, k', m', steps', hk⟩
      · have hsame := Steps.unique_end (Invocation.next?_of_end hend) (Invocation.next?_of_end hend') steps steps'
        rw [← hsame, hend] at hend'
        cases hend'
        exact ⟨k + 1, hevaluate⟩
      · have := Steps.le_of_end (Invocation.next?_of_end hend) steps steps'
        omega
    · cases hwatch

end

end ScriptEngine.Machine
