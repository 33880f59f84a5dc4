import ScriptEngine.Proofs.SessionRuns

/-! What the loader guarantees of any image, not only of those that were compiled. Validated code is closed
    (`CodeModule.Closed`): its operands are in its tables, control stays inside it, and its imports are there.
    A machine that runs closed code stays within it (`Machine.Within`), through calls into other modules and
    through function values from anywhere, and what is left to go wrong is an operand that is missing on the
    stack and a slot that a record does not have. -/

namespace ScriptEngine

/-! ### Validated modules -/

/-- The library was read from bytes. -/
def Library.Validated (l : Library) : Prop := ∃ location bytes, Library.ofBytes location bytes = .ok l

namespace CodeModule

/-- The module in a program that has the libraries at other positions. -/
def relocate (place : Nat → Nat) (code : CodeModule) : CodeModule :=
  { code with imports := code.imports.map fun c =>
      match c.home with
      | .library i => ⟨.library (place i), c.index⟩
      | .fragment _ => c }

/-- The module was read from bytes and linked against validated libraries, which the program has as well, if
    perhaps at other positions. -/
structure Validated (p : Program) (code : CodeModule) : Prop where
  loaded : ∃ bytes image refs linked place, Image.decode bytes = .ok image ∧ CodeModule.load image refs = .ok linked ∧
    (∀ l ∈ refs, l.Validated) ∧ (∀ i l, refs[i]? = some l → p.references[place i]? = some l) ∧
    code = linked.relocate place

/-- A routine that an instruction cannot leave the tables of. -/
structure RoutineClosed (code : CodeModule) (r : Routine) : Prop where
  pos : 0 < r.code.size
  params : r.arity.toNat ≤ r.locals.toNat
  tables : ∀ {pc : Nat} {i : Instr}, r.Holds pc i → i.InTables code r
  exits : ∀ {pc next : Nat} {i : Instr}, r.Holds pc i → next ∈ i.exits pc → next < r.code.size

structure Closed (p : Program) (code : CodeModule) : Prop where
  imports : ∀ c ∈ code.imports, p.Has c
  routines : ∀ {k : Nat} {r : Routine}, code.functions[k]? = some r → RoutineClosed code r

theorem RoutineClosed.of_loaded {image : Image} {refs : ReferenceSet} {code : CodeModule} (loaded : Loaded image refs code)
    {k : Nat} {r : Routine} (hr : code.functions[k]? = some r) : RoutineClosed code r := by
  rw [loaded.functions] at hr
  have checked := loaded.checked r (Array.mem_of_getElem? hr)
  exact ⟨checked.pos, checked.params, fun hi => inTables_of_checked loaded (checked.operands hi), checked.exits⟩

/-- Only the number of imports matters for the operands. -/
theorem RoutineClosed.relocate {code : CodeModule} {r : Routine} (h : RoutineClosed code r) (place : Nat → Nat) :
    RoutineClosed (code.relocate place) r := by
  refine ⟨h.pos, h.params, fun {pc i} hi => ?_, h.exits⟩
  have tables := h.tables hi
  cases i with
  | loadImport i =>
    have hlt : i.toNat < (code.relocate place).imports.size := by
      rw [CodeModule.relocate, Array.size_map]
      exact tables
    exact hlt
  | _ => exact tables

end CodeModule

namespace Program

structure Validated (p : Program) : Prop where
  libraries : ∀ l ∈ p.references, l.Validated
  fragments : ∀ code ∈ p.fragments, code.Validated p

/-- All code of a program is closed. -/
def Closed (p : Program) : Prop := ∀ {home : Home} {code : CodeModule}, p.module? home = some code → code.Closed p

end Program

/-- An import that was linked stands for a function of a validated library. -/
theorem ReferenceSet.resolve?_validated {refs : ReferenceSet} (hrefs : ∀ l ∈ refs, l.Validated) {wanted : ImportRef}
    {c : Callable} (h : refs.resolve? wanted = some c) : ∃ i l, c.home = .library i ∧ refs[i]? = some l ∧
      c.index < l.code.functions.size := by
  obtain ⟨i, -, h⟩ := Option.bind_eq_some_iff.mp h
  obtain ⟨l, hl, h⟩ := Option.bind_eq_some_iff.mp h
  obtain ⟨e, he, h⟩ := Option.bind_eq_some_iff.mp h
  cases h
  obtain ⟨location, bytes, hbytes⟩ := hrefs l (Array.mem_of_getElem? hl)
  exact ⟨i, l, rfl, hl, Library.export?_lt (Library.ofBytes_eq_ok hbytes).1 he⟩

theorem CodeModule.Validated.closed {p : Program} {code : CodeModule} (h : code.Validated p) : code.Closed p := by
  obtain ⟨bytes, image, refs, linked, place, -, hload, hrefs, hplace, rfl⟩ := h.loaded
  have loaded := CodeModule.load_loaded hload
  refine ⟨fun c hc => ?_, fun {k r} hr => (CodeModule.RoutineClosed.of_loaded loaded hr).relocate place⟩
  obtain ⟨c₀, hc₀, rfl⟩ := Array.mem_map.mp hc
  obtain ⟨k, hk⟩ := Array.mem_iff_getElem?.mp hc₀
  obtain ⟨wanted, -, hresolve⟩ := loaded.imports hk
  obtain ⟨i, l, hhome, hl, hlt⟩ := ReferenceSet.resolve?_validated hrefs hresolve
  simp only [hhome]
  have hmodule : p.module? (.library (place i)) = some l.code := by
    simp only [Program.module?, hplace i l hl, Option.map_some]
  exact ⟨_, Program.routine?_of_module (c := ⟨_, c₀.index⟩) hmodule (Array.getElem?_eq_getElem hlt)⟩

/-- A library imports nothing, so it is closed in any program. -/
theorem Library.Validated.closed {l : Library} (h : l.Validated) (p : Program) : l.code.Closed p := by
  obtain ⟨location, bytes, hbytes⟩ := h
  obtain ⟨-, image, -, -, hload⟩ := Library.ofBytes_eq_ok hbytes
  have loaded := CodeModule.load_loaded hload
  refine ⟨fun c hc => ?_, CodeModule.RoutineClosed.of_loaded loaded⟩
  obtain ⟨k, hk⟩ := Array.mem_iff_getElem?.mp hc
  obtain ⟨wanted, -, hresolve⟩ := loaded.imports hk
  rw [ReferenceSet.resolve?_empty] at hresolve
  cases hresolve

theorem Program.Validated.closed {p : Program} (h : p.Validated) : p.Closed := by
  intro home code hcode
  cases home with
  | library i =>
    obtain ⟨l, hl, rfl⟩ := Option.map_eq_some_iff.mp hcode
    exact (h.libraries l (Array.mem_of_getElem? hl)).closed p
  | fragment i => exact (h.fragments code (Array.mem_of_getElem? hcode)).closed

/-! ### Machines -/

/-- A frame is inside the code of a routine of the program, and its locals are those of the routine. -/
structure Frame.Within (p : Program) (f : Frame) : Prop extends f.Placed p where
  pc : f.pc < f.routine.code.size
  locals : f.locals.size = f.routine.locals.toNat
  known : ∀ v ∈ f.locals, v.Known p.Has

namespace Machine

/-- All frames are inside their code, and all function values stand for routines. -/
structure Within (p : Program) (m : Machine) : Prop where
  frame : m.frame.Within p
  callers : ∀ f ∈ m.callers.items, f.Within p
  knows : m.Knows p

theorem start_within {p : Program} {entry : Callable} {records : Records} {heap : Heap} {m : Machine} (hp : p.Closed)
    (hheap : heap.Known p.Has) (hrecords : records.Known p.Has) (h : start? p entry records heap = some m) :
    m.Within p := by
  have placed := start_placed h
  obtain ⟨code, hcode, h⟩ := Option.bind_eq_some_iff.mp h
  obtain ⟨routine, hroutine, h⟩ := Option.bind_eq_some_iff.mp h
  cases h
  have closed := (hp hcode).routines hroutine
  have hlocals : ∀ v ∈ (Frame.enter entry code routine [] 0).locals, v.Known p.Has := by
    intro v hv
    rw [Frame.enter, Array.empty_append] at hv
    rw [(Array.mem_replicate.mp hv).2]
    trivial
  refine ⟨⟨placed.frame, closed.pos, ?_, hlocals⟩, ?_, ?_, hlocals, hheap, hrecords⟩
  · simp [Frame.enter]
  · rintro _ ⟨⟩
  · rintro _ ⟨⟩

section
variable {env : Env} {n : Nat} {m m' : Machine}

theorem Within.closed (hm : m.Within env.program) (hp : env.program.Closed) :
    CodeModule.RoutineClosed m.frame.code m.frame.routine := (hp hm.frame.code).routines hm.frame.routine

theorem Within.links (hm : m.Within env.program) (hp : env.program.Closed) : m.frame.Links env.program :=
  hm.frame.toPlaced.links (hp hm.frame.code).imports

/-- A step of a machine within closed code leads to a machine within it. -/
theorem Within.next (hp : env.program.Closed) (hm : m.Within env.program) (h : Next env m m') : m'.Within env.program := by
  have placed := Placed.next ⟨hm.frame.toPlaced, fun f hf => (hm.callers f hf).toPlaced⟩ h
  have closed := hm.closed hp
  obtain ⟨i, hi, does | ⟨argc, rfl, enters⟩ | ⟨rfl, leaves⟩⟩ := next_does h
  · have moves := does.moves
    have knows := does.knows (hm.links hp) hm.knows
    obtain ⟨pc, locals, hframe, hpc, hsize⟩ := moves.frame
    refine ⟨⟨placed.frame, ?_, ?_, knows.locals⟩, moves.callers ▸ hm.callers, knows⟩
    · rw [hframe]
      exact closed.exits hi hpc
    · rw [hframe]
      exact hsize.trans hm.frame.locals
  · have knows := enters.knows hm.knows
    refine ⟨⟨placed.frame, ?_, ?_, knows.locals⟩, fun f hf => ?_, knows⟩
    · obtain ⟨args, c, code, routine, -, -, hcode, hroutine, -, hframe⟩ := enters.frame
      rw [hframe]
      exact ((hp hcode).routines hroutine).pos
    · obtain ⟨args, c, code, routine, hargs, -, hcode, hroutine, harity, hframe⟩ := enters.frame
      have hparams := ((hp hcode).routines hroutine).params
      rw [hframe]
      simp only [Frame.enter, Array.size_append, List.size_toArray, Array.size_replicate, List.length_reverse]
      omega
    · rw [enters.callers] at hf
      rcases List.mem_cons.mp hf with rfl | hf
      · exact ⟨⟨hm.frame.code, hm.frame.routine⟩, closed.exits hi (.head _), hm.frame.locals, hm.frame.known⟩
      · exact hm.callers f hf
  · have hcallers := hm.callers
    rw [leaves.callers] at hcallers
    have caller := hcallers _ List.mem_cons_self
    exact ⟨caller, fun f hf => hcallers f (List.mem_cons_of_mem _ hf), leaves.knows hm.knows caller.known⟩

theorem Within.steps (hp : env.program.Closed) (hm : m.Within env.program) (h : Steps env n m m') :
    m'.Within env.program :=
  h.keeps (P := fun m => m.Within env.program) (fun hm hnext => hm.next hp hnext) hm

/-- The instruction that a machine within closed code executes next. -/
theorem Within.instruction (hp : env.program.Closed) (hm : m.Within env.program) :
    ∃ i, m.frame.routine.Holds m.frame.pc i ∧ i.InTables m.frame.code m.frame.routine ∧
      ∀ next ∈ i.exits m.frame.pc, next < m.frame.routine.code.size := by
  have hlt := hm.frame.pc
  have hi : m.frame.routine.Holds m.frame.pc m.frame.routine.code[m.frame.pc] := Array.getElem?_eq_getElem hlt
  exact ⟨_, hi, (hm.closed hp).tables hi, fun next => (hm.closed hp).exits hi⟩

/-- What a step of a machine within closed code can fail with. -/
theorem Within.fault (hp : env.program.Closed) (hm : m.Within env.program) {e : RuntimeError}
    (h : step env m = .faulted e m') :
    e.Valid ∨ ∃ i cause, m.frame.routine.Holds m.frame.pc i ∧ e = .invalidProgram cause ∧ m.Blames i cause := by
  obtain ⟨i, hi, htables, -⟩ := hm.instruction hp
  obtain ⟨-, fails⟩ := step_fails hi h
  obtain hvalid | ⟨cause, rfl, blames⟩ := fails.blames htables hm.knows.stack hm.frame.locals
  · exact .inl hvalid
  · exact .inr ⟨i, cause, hi, rfl, blames⟩

end

end Machine

/-- A missing operand, or a slot that a record does not have. -/
def ProgramFault.OfState (cause : ProgramFault) : Prop := cause = .underflow ∨ ∃ record slot, cause = .slot record slot

theorem Machine.Blames.ofState {m : Machine} {i : Instr} {cause : ProgramFault} (h : m.Blames i cause) : cause.OfState := by
  cases h with
  | underflow short => exact .inl rfl
  | slot names present outside => exact .inr ⟨_, _, rfl⟩

/-! ### Runs of validated code -/

theorem CodeModule.relocate_self (code : CodeModule) : code.relocate id = code := by
  have same : (fun c : Callable => match c.home with
      | .library i => ⟨.library (id i), c.index⟩
      | .fragment _ => c) = id := by
    funext c
    obtain ⟨home, index⟩ := c
    cases home <;> rfl
  rw [CodeModule.relocate, same, Array.map_id]

namespace Executable

variable {bytes : List UInt8} {refs : ReferenceSet} {name : String} {e : Executable} {m : Memory}

/-- Code that was accepted joins validated code. -/
theorem link_validated (accepted : ofBytes bytes refs name = .ok e)
    (valid : Program.Validated ⟨refs, m.program.fragments⟩) : (m.link refs e.code).program.Validated := by
  obtain ⟨image, hdecode, hload, -⟩ := ofBytes_eq_ok accepted
  refine ⟨valid.libraries, fun code hcode => ?_⟩
  rcases Array.mem_push.mp hcode with hcode | rfl
  · exact ⟨(valid.fragments code hcode).loaded⟩
  · exact ⟨bytes, image, refs, e.code, id, hdecode, hload, valid.libraries, fun i l h => h, e.code.relocate_self.symm⟩

/-- There is a machine to start with. -/
theorem launch_isSome (accepted : ofBytes bytes refs name = .ok e) : ∃ start, m.launch? refs e = some start := by
  obtain ⟨image, -, -, hentry⟩ := ofBytes_eq_ok accepted
  obtain ⟨r, hr, -⟩ := CodeModule.entry_eq_ok hentry
  have hmodule : (m.link refs e.code).program.module? (.fragment m.program.fragments.size) = some e.code :=
    Array.getElem?_push_size
  exact ⟨_, Option.bind_eq_some_iff.mpr ⟨_, hmodule, Option.bind_eq_some_iff.mpr ⟨r, hr, rfl⟩⟩⟩

/-- Any bytes that are accepted, against validated libraries and in any state whose function values stand for
    routines of validated modules, start a machine that stays within its code, however long it runs. Its next
    instruction is always there, its operands are in the tables, and control goes on inside the code. It
    blames the code for nothing but a missing operand and a slot that a record does not have, and so does the
    report of the run. -/
theorem stays_within (accepted : ofBytes bytes refs name = .ok e)
    (valid : Program.Validated ⟨refs, m.program.fragments⟩) (hheap : m.heap.Known (m.link refs e.code).program.Has)
    (hrecords : m.records.Known (m.link refs e.code).program.Has) (options : InvokeOptions) :
    (∃ start, m.launch? refs e = some start ∧
      ∀ n m', Machine.Steps (m.env refs e options) n start m' →
        m'.Within (m.link refs e.code).program ∧
        (∃ i, m'.frame.routine.Holds m'.frame.pc i ∧ i.InTables m'.frame.code m'.frame.routine ∧
          ∀ next ∈ i.exits m'.frame.pc, next < m'.frame.routine.code.size) ∧
        ∀ cause m'', Machine.step (m.env refs e options) m' = .faulted (.invalidProgram cause) m'' → cause.OfState) ∧
    ∀ watch fuel done, m.run refs e options watch fuel = some done →
      ∀ fault cause, done.outcome = .error fault → fault.error = .invalidProgram cause → cause.OfState := by
  have closed : (m.env refs e options).program.Closed := (link_validated accepted valid).closed
  have blames : ∀ {m' m'' : Machine} {cause : ProgramFault}, m'.Within (m.env refs e options).program →
      Machine.step (m.env refs e options) m' = .faulted (.invalidProgram cause) m'' → cause.OfState := by
    intro m' m'' cause within hstep
    obtain hvalid | ⟨i, cause', -, heq, hblames⟩ := within.fault closed hstep
    · exact hvalid.elim
    · cases heq
      exact hblames.ofState
  have within : ∀ {start m' : Machine} {n : Nat}, m.launch? refs e = some start →
      Machine.Steps (m.env refs e options) n start m' → m'.Within (m.env refs e options).program := by
    intro start m' n hstart steps
    exact (Machine.start_within closed hheap hrecords hstart).steps closed steps
  refine ⟨?_, fun watch fuel done hdone fault cause hfault hcause => ?_⟩
  · obtain ⟨start, hstart⟩ := launch_isSome (m := m) accepted
    exact ⟨start, hstart, fun n m' steps => ⟨within hstart steps, (within hstart steps).instruction closed,
      fun cause m'' => blames (within hstart steps)⟩⟩
  · obtain ⟨start, k, m', hstart, steps, -, hfaults⟩ := Memory.run_reaches hdone
    obtain ⟨m'', hstep⟩ | ⟨interrupt, herror⟩ := hfaults fault hfault
    · rw [hcause] at hstep
      exact blames (within hstart steps) hstep
    · rw [hcause] at herror
      cases interrupt <;> cases herror

/-- An image that no compiler writes: its code jumps to an instruction that finds no operand. -/
def hostile : Image where
  kind := .submission
  name := "hostile"
  ordinal := 1
  slots := #[]
  imports := #[]
  functions := #[⟨"main", 0, 0, #[], #[.jump 2, .ret, .pop, .ret], []⟩]
  entry := none

/-- Whether a run ended because its code wanted an operand that was not there. -/
def starved (done : Completion) : Bool :=
  match done.outcome with
  | .error fault => fault.error == .invalidProgram .underflow
  | .ok _ => false

/-- The loader accepts the image, its machine stays within its code, and it ends for want of an operand. -/
theorem stays_within_hostile : ∃ e, ofBytes hostile.bytes #[] "main" = .ok e ∧
    (∃ start, (Memory.withCapacity 0).launch? #[] e = some start ∧
      ∀ n m', Machine.Steps ((Memory.withCapacity 0).env #[] e .default) n start m' →
        m'.Within ((Memory.withCapacity 0).link #[] e.code).program) ∧
    ∃ done fault, (Memory.withCapacity 0).run #[] e .default Invocation.undisturbed 1 = some done ∧
      done.outcome = .error fault ∧ fault.error = .invalidProgram .underflow ∧ ProgramFault.underflow.OfState := by
  have computes : ((ofBytes hostile.bytes #[] "main").toOption.bind fun e =>
      (Memory.withCapacity 0).run #[] e .default Invocation.undisturbed 1).any starved = true := by decide +kernel
  obtain ⟨done, hdone, houtcome⟩ := (Option.any_eq_true ..).mp computes
  obtain ⟨e, he, hrun⟩ := Option.bind_eq_some_iff.mp hdone
  have accepted := except_toOption_eq_some.mp he
  have empty : Program.Validated ⟨#[], #[]⟩ :=
    ⟨fun l hl => absurd hl (Array.not_mem_empty l), fun code hcode => absurd hcode (Array.not_mem_empty code)⟩
  have records : (Records.withCapacity 0).Known (((Memory.withCapacity 0).link #[] e.code).program.Has) := by
    intro k r hr
    rw [Records.record?_withCapacity] at hr
    cases hr
  obtain ⟨⟨start, hstart, within⟩, reports⟩ :=
    stays_within (m := .withCapacity 0) accepted empty Heap.known_empty records .default
  refine ⟨e, accepted, ⟨start, hstart, fun n m' steps => (within n m' steps).1⟩, done, ?_⟩
  unfold starved at houtcome
  split at houtcome
  · rename_i fault hfault
    have cause := beq_iff_eq.mp houtcome
    exact ⟨fault, hrun, hfault, cause, reports _ _ _ hrun _ _ hfault cause⟩
  · cases houtcome

end Executable
end ScriptEngine
