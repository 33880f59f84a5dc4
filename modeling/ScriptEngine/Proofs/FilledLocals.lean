import Mathlib.Data.List.Forall2
import ScriptEngine.Proofs.LocalFlow
import ScriptEngine.Proofs.SessionRuns

/-! Runs in which the locals of a function hold something else than units when it is entered (`Memory.runFilled`). Two
    machines are alike if they differ only in locals that are not written on some way to where their functions are. No
    definite code reads such a local, so alike machines do the same step by step, whatever fills the locals on either side
    (`Machine.step_alike`), and a script ends in the same way with every filling (`Memory.runFilled_eq`). Units are a
    filling like any other (`Memory.runFilled_units`). -/

namespace ScriptEngine

/-- No code of a program reads a local before it is written. -/
def Program.Definite (p : Program) : Prop :=
  ∀ (home : Home) (code : CodeModule) (i : Nat) (r : Routine), p.module? home = some code → code.functions[i]? = some r →
    r.Definite

/-! ### Other contents -/

/-- What the locals of a function hold when it is entered, but for its parameters. It may depend on anything that the
    machine holds. -/
abbrev Machine.Filling := Machine → Nat → Value

/-- The same frame with other contents of the locals that are no parameters. -/
def Frame.filled (fill : Nat → Value) (f : Frame) : Frame :=
  { f with locals := f.locals.mapIdx fun i v => if i < f.routine.arity.toNat then v else fill i }

namespace Machine

/-- The same machine with other contents of the locals of the function that it enters. -/
def filled (fill : Filling) (m : Machine) : Machine := { m with frame := m.frame.filled (fill m) }

/-- A step, where the locals of a function that is entered are filled. -/
def stepFilled (fill : Filling) (env : Env) (m : Machine) : Progress :=
  match m.frame.routine.code[m.frame.pc]?, step env m with
  | some (.call _), .running m' => .running (m'.filled fill)
  | _, p => p

def runFilled (fill : Filling) (env : Env) : Nat → Machine → Progress
  | 0, m => .running m
  | n + 1, m =>
    match stepFilled fill env m with
    | .running m => runFilled fill env n m
    | p => p

end Machine

/-- Run slices, where the locals of functions that are entered are filled. -/
def Invocation.driveFilled (fill : Machine.Filling) (env : Machine.Env) (slice : Nat) (watch : Watch) :
    Nat → Nat → Machine → Option Invocation
  | 0, _, _ => none
  | fuel + 1, slept, m =>
    match watch m.work slept with
    | some interrupt => some (fault interrupt.error m)
    | none =>
      match Machine.runFilled fill env slice m with
      | .running m => driveFilled fill env slice watch fuel slept m
      | .sleeping millis m => driveFilled fill env slice watch fuel (slept + millis) m
      | .finished v m => some ⟨.ok v, m⟩
      | .faulted e m => some (fault e m)

/-- Run a script, where the locals of functions that are entered are filled, those of the entry routine as well. -/
def Memory.runFilled (fill : Machine.Filling) (m : Memory) (refs : ReferenceSet) (e : Executable) (options : InvokeOptions)
    (watch : Watch) (fuel : Nat) : Option Completion := do
  let start ← m.launch? refs e
  let done ← Invocation.driveFilled fill (m.env refs e options) (max options.slice 1) watch fuel 0 (start.filled fill)
  return ⟨done.outcome, done.machine.output.toList, (m.link refs e.code).after done.machine⟩

/-! ### Units as contents -/

/-- What locals hold in fact. -/
def Machine.units : Filling := fun _ _ => .unit

theorem Frame.filled_enter {callee : Callable} {code : CodeModule} {r : Routine} {args : List Value} {base : Nat}
    (h : args.length ≤ r.arity.toNat) :
    (Frame.enter callee code r args base).filled (fun _ => .unit) = Frame.enter callee code r args base := by
  have locals : (args.toArray ++ Array.replicate (r.locals.toNat - args.length) Value.unit).mapIdx
      (fun i v => if i < r.arity.toNat then v else .unit) =
        args.toArray ++ Array.replicate (r.locals.toNat - args.length) Value.unit := by
    refine Array.ext Array.size_mapIdx fun i hi hi' => ?_
    rw [Array.getElem_mapIdx]
    split
    · rfl
    · rename_i hbeyond
      rw [Array.getElem_append_right (by simpa using Nat.le_trans h (Nat.not_lt.mp hbeyond)), Array.getElem_replicate]
  exact congrArg (fun locals => (⟨callee, code, r, 0, locals, base⟩ : Frame)) locals

namespace Machine

section
variable {env : Env} {m m' : Machine}

theorem filled_of_frame (h : m.frame.filled (fun _ => .unit) = m.frame) : m.filled units = m := by
  show { m with frame := m.frame.filled (fun _ => .unit) } = m
  rw [h]

theorem filled_call {argc : Nat} (h : call env argc m = .running m') : m'.filled units = m' := by
  unfold call at h
  split at h
  · cases h
  · rename_i callee rest hdrop
    cases hframe : calleeFrame env m callee (m.stack.items.take argc).reverse with
    | error e =>
      rw [hframe] at h
      cases h
    | ok frame =>
      rw [hframe] at h
      cases h
      obtain ⟨c, code, routine, -, -, -, harity, rfl⟩ := calleeFrame_eq_ok hframe
      exact filled_of_frame (Frame.filled_enter (Nat.le_of_eq harity.symm))

theorem stepFilled_units (env : Env) (m : Machine) : stepFilled units env m = step env m := by
  unfold stepFilled
  split
  · rename_i argc m' hcode hstep
    rw [step, hcode] at hstep
    rw [filled_call hstep, step, hcode]
    exact hstep.symm
  · rfl

theorem runFilled_units (env : Env) (n : Nat) (m : Machine) : runFilled units env n m = run env n m := by
  induction n generalizing m with
  | zero => rfl
  | succ n ih =>
    rw [runFilled, run, stepFilled_units]
    cases step env m with
    | running m' => exact ih m'
    | _ => rfl

theorem filled_start {p : Program} {entry : Callable} {records : Records} {heap : Heap}
    (h : start? p entry records heap = some m) : m.filled units = m := by
  obtain ⟨code, -, h⟩ := Option.bind_eq_some_iff.mp h
  obtain ⟨routine, -, h⟩ := Option.bind_eq_some_iff.mp h
  cases h
  exact filled_of_frame (Frame.filled_enter (Nat.zero_le _))

end
end Machine

theorem Invocation.driveFilled_units {env : Machine.Env} {slice : Nat} {watch : Watch} (fuel slept : Nat) (m : Machine) :
    driveFilled Machine.units env slice watch fuel slept m = drive env slice watch fuel slept m := by
  induction fuel generalizing slept m with
  | zero => rfl
  | succ fuel ih =>
    rw [driveFilled, drive, Machine.runFilled_units]
    cases watch m.work slept with
    | some interrupt => rfl
    | none =>
      cases Machine.run env slice m with
      | running m' => exact ih slept m'
      | sleeping millis m' => exact ih (slept + millis) m'
      | _ => rfl

/-- With units as contents a script runs as it does in fact. -/
theorem Memory.runFilled_units (m : Memory) (refs : ReferenceSet) (e : Executable) (options : InvokeOptions) (watch : Watch)
    (fuel : Nat) : m.runFilled Machine.units refs e options watch fuel = m.run refs e options watch fuel := by
  show (m.launch? refs e).bind _ = (m.launch? refs e).bind _
  refine Option.bind_congr fun start hstart => ?_
  rw [Machine.filled_start hstart, Invocation.driveFilled_units]
  rfl

/-! ### Two contents -/

/-- Two frames differ at most in locals that were not written on some way to where they are. -/
structure Frame.Alike (f g : Frame) : Prop where
  definite : f.routine.Definite
  rest : g = { f with locals := g.locals }
  size : g.locals.size = f.locals.size
  written : ∀ x, g.locals[x]? = f.locals[x]? ∨ f.routine.Unwritten x f.pc

theorem Frame.Alike.traceEntry {f g : Frame} (h : f.Alike g) : g.traceEntry = f.traceEntry := by
  rw [h.rest]
  rfl

namespace Machine

/-- The functions that run, the innermost first. -/
def frames (m : Machine) : List Frame := m.frame :: m.callers.items

/-- Two machines differ at most in such locals of their frames. -/
structure Alike (m n : Machine) : Prop where
  rest : n = { m with frame := n.frame, callers := n.callers }
  frames : List.Forall₂ Frame.Alike m.frames n.frames

/-- Two machines that look the same from outside. -/
structure Mirrors (m n : Machine) : Prop where
  rest : n = { m with frame := n.frame, callers := n.callers }
  trace : n.trace = m.trace

/-- The machines that two steps lead to are alike; where a run ends, they look the same. -/
inductive Progress.Alike : Progress → Progress → Prop where
  | running {m n : Machine} (alike : m.Alike n) : Alike (.running m) (.running n)
  | sleeping (millis : Nat) {m n : Machine} (alike : m.Alike n) : Alike (.sleeping millis m) (.sleeping millis n)
  | finished (v : Value) {m n : Machine} (mirrors : m.Mirrors n) : Alike (.finished v m) (.finished v n)
  | faulted (e : RuntimeError) {m n : Machine} (mirrors : m.Mirrors n) : Alike (.faulted e m) (.faulted e n)

section
variable {m n : Machine}

theorem Alike.frame (h : m.Alike n) : m.frame.Alike n.frame := (List.forall₂_cons.mp h.frames).1

theorem Alike.callers (h : m.Alike n) : List.Forall₂ Frame.Alike m.callers.items n.callers.items :=
  (List.forall₂_cons.mp h.frames).2

theorem Alike.height (h : m.Alike n) : n.callers.height = m.callers.height := by
  rw [m.callers.height_eq, n.callers.height_eq, h.callers.length_eq]

theorem traceEntries_alike {fs gs : List Frame} (h : List.Forall₂ Frame.Alike fs gs) :
    gs.map Frame.traceEntry = fs.map Frame.traceEntry := by
  induction h with
  | nil => rfl
  | cons hf _ ih => rw [List.map_cons, List.map_cons, hf.traceEntry, ih]

theorem Alike.mirrors (h : m.Alike n) : m.Mirrors n := ⟨h.rest, traceEntries_alike h.frames⟩

end

/-! ### Instructions without locals -/

def Progress.map (f : Machine → Machine) : Progress → Progress
  | .running m => .running (f m)
  | .sleeping millis m => .sleeping millis (f m)
  | .finished v m => .finished v (f m)
  | .faulted e m => .faulted e (f m)

/-- The same machine with other locals and other functions that wait. -/
def withLocals (locals : Array Value) (callers : Stack Frame) (m : Machine) : Machine :=
  { m with frame := { m.frame with locals := locals }, callers := callers }

/-- The instruction stays in its function, and has nothing to do with locals. -/
structure Bare (i : Instr) : Prop where
  call : ∀ argc, i ≠ .call argc
  ret : i ≠ .ret
  load : ∀ j, i ≠ .loadLocal j
  store : ∀ j, i ≠ .storeLocal j

section
variable {env : Env} {locals : Array Value} {callers : Stack Frame}

theorem proceed_withLocals {α : Type} {m : Machine} {result : Except RuntimeError α} {next : α → Machine → Progress}
    (h : ∀ x, next x (m.withLocals locals callers) = (next x m).map (withLocals locals callers)) :
    (m.withLocals locals callers).proceed result next = (m.proceed result next).map (withLocals locals callers) := by
  cases result with
  | ok x => exact h x
  | error e => rfl

theorem ite_withLocals {c : Prop} [Decidable c] {p p' q q' : Progress} (h : p = q.map (withLocals locals callers))
    (h' : p' = q'.map (withLocals locals callers)) :
    (if c then p else p') = (if c then q else q').map (withLocals locals callers) := by
  split
  · exact h
  · exact h'

theorem execute_withLocals {i : Instr} (bare : Bare i) (m : Machine) :
    execute env (m.withLocals locals callers) i = (execute env m i).map (withLocals locals callers) := by
  have stack : (m.withLocals locals callers).stack = m.stack := rfl
  cases i with
  | call argc => exact absurd rfl (bare.call argc)
  | ret => exact absurd rfl bare.ret
  | loadLocal j => exact absurd rfl (bare.load j)
  | storeLocal j => exact absurd rfl (bare.store j)
  | unit | bool | jump => rfl
  | const | loadImport | openRecord =>
    simp only [execute, withLocals]
    split
    · rfl
    · rfl
  | loadFunction => exact ite_withLocals rfl rfl
  | loadSlot =>
    simp only [execute]
    exact proceed_withLocals fun _ => rfl
  | storeSlot | neg | index | setIndex =>
    simp only [execute, stack]
    split
    · exact proceed_withLocals fun _ => rfl
    · rfl
  | binary =>
    simp only [execute, stack]
    split
    · refine proceed_withLocals fun made => ?_
      cases made with
      | _ => rfl
    · rfl
  | not | pop =>
    simp only [execute, stack]
    split
    · rfl
    · rfl
  | jumpIfFalse =>
    simp only [execute, stack]
    split
    · exact ite_withLocals rfl rfl
    · rfl
  | intrinsic id argc =>
    simp only [execute, intrinsic, stack]
    split
    · rfl
    · refine ite_withLocals rfl (proceed_withLocals fun a => ?_)
      cases a with
      | _ => rfl
  | makeList => exact ite_withLocals rfl rfl

end
end Machine

/-- Where control goes on from an instruction that stores nothing, frames that were alike still are. -/
theorem Frame.Alike.goesOn {f g : Frame} {i : Instr} {pc : Nat} (h : f.Alike g) (hi : f.routine.Holds f.pc i)
    (other : ∀ j, i ≠ .storeLocal j) (exit : pc ∈ i.exits f.pc) : Frame.Alike { f with pc := pc } { g with pc := pc } := by
  refine ⟨h.definite, ?_, h.size, fun x => ?_⟩
  · rw [h.rest]
  · exact (h.written x).imp_right fun way => .step way hi (fun j hj => absurd hj (other j)) exit

/-- Frames of one routine are alike when it is entered with the same arguments. -/
theorem Frame.enter_alike {callee : Callable} {code : CodeModule} {r : Routine} {args : List Value} {base : Nat}
    (definite : r.Definite) (fill fill' : Nat → Value) :
    ((enter callee code r args base).filled fill).Alike ((enter callee code r args base).filled fill') := by
  refine ⟨definite, rfl, ?_, fun x => ?_⟩
  · simp only [filled, Array.size_mapIdx]
  · rcases Nat.lt_or_ge x r.arity.toNat with hlt | hge
    · left
      have hparam : x < (enter callee code r args base).routine.arity.toNat := hlt
      simp only [filled, Array.getElem?_mapIdx, hparam, if_true]
    · exact .inr (.start hge)

namespace Machine

section
variable {env : Env} {m n m' : Machine} {i : Instr} {fill fill' : Filling}

theorem Alike.advance_eq (h : m.Alike n) : n.advance = m.advance.withLocals n.frame.locals n.callers := by
  have rest := h.rest
  rw [h.frame.rest] at rest
  rw [rest]
  rfl

theorem Alike.stack (h : m.Alike n) : n.advance.stack = m.advance.stack := by
  rw [h.advance_eq]
  rfl

theorem Alike.past (h : m.Alike n) (hi : m.frame.routine.Holds m.frame.pc i) (other : ∀ j, i ≠ .storeLocal j)
    (exit : m.frame.pc + 1 ∈ i.exits m.frame.pc) : m.advance.frame.Alike n.advance.frame := by
  have alike := h.frame.goesOn hi other exit
  rw [h.advance_eq]
  rw [h.frame.rest] at alike
  exact alike

/-- What an instruction without locals leads to is mirrored, also where the run ends. -/
theorem Alike.mirrors_kept (h : m.Alike n) (kept : m' = m'.withLocals m.frame.locals m.callers) :
    m'.Mirrors (m'.withLocals n.frame.locals n.callers) := by
  refine ⟨rfl, ?_⟩
  have hcallers : m'.callers = m.callers := (congrArg Machine.callers kept :)
  show m'.frame.traceEntry :: n.callers.items.map Frame.traceEntry =
    m'.frame.traceEntry :: m'.callers.items.map Frame.traceEntry
  rw [traceEntries_alike h.callers, hcallers]

theorem Alike.alike_kept (h : m.Alike n) (hi : m.frame.routine.Holds m.frame.pc i) (bare : Bare i)
    (kept : m' = m'.withLocals m.frame.locals m.callers) (moves : Moves m i m') :
    m'.Alike (m'.withLocals n.frame.locals n.callers) := by
  obtain ⟨pc, locals, hframe, exit, -⟩ := moves.frame
  have hlocals : m'.frame.locals = m.frame.locals := (congrArg (fun a : Machine => a.frame.locals) kept :)
  refine ⟨rfl, .cons ?_ ?_⟩
  · have alike := h.frame.goesOn hi bare.store exit
    rw [h.frame.rest] at alike
    show Frame.Alike m'.frame { m'.frame with locals := n.frame.locals }
    rw [hframe] at hlocals ⊢
    obtain rfl : locals = m.frame.locals := hlocals
    exact alike
  · show List.Forall₂ Frame.Alike m'.callers.items n.callers.items
    rw [moves.callers]
    exact h.callers

theorem bare_alike (h : m.Alike n) (hi : m.frame.routine.Holds m.frame.pc i) (bare : Bare i) :
    (execute env m.advance i).Alike (execute env n.advance i) := by
  rw [h.advance_eq, execute_withLocals bare]
  -- The locals and the functions that wait stay as they are: put in once more, they change nothing.
  have kept : execute env m.advance i = (execute env m.advance i).map (withLocals m.frame.locals m.callers) :=
    execute_withLocals bare m.advance
  have moves {m' : Machine} (hnext : (execute env m.advance i).next? = some m') : Moves m i m' :=
    (execute_does bare.call bare.ret hnext).moves
  cases hp : execute env m.advance i with
  | running m' =>
    rw [hp] at kept moves
    exact .running (h.alike_kept hi bare (Progress.running.inj kept) (moves rfl))
  | sleeping millis m' =>
    rw [hp] at kept moves
    exact .sleeping millis (h.alike_kept hi bare (Progress.sleeping.inj kept).2 (moves rfl))
  | finished v m' =>
    rw [hp] at kept
    exact .finished v (h.mirrors_kept (Progress.finished.inj kept).2)
  | faulted e m' =>
    rw [hp] at kept
    exact .faulted e (h.mirrors_kept (Progress.faulted.inj kept).2)

/-- An error while an instruction is carried out. -/
theorem Alike.fails (h : m.Alike n) (e : RuntimeError) : Progress.Alike (.faulted e m.advance) (.faulted e n.advance) := by
  have kept : m.advance = m.advance.withLocals m.frame.locals m.callers := rfl
  rw [h.advance_eq]
  exact .faulted e (h.mirrors_kept kept)

theorem load_alike {j : UInt16} (h : m.Alike n) (hi : m.frame.routine.Holds m.frame.pc (.loadLocal j)) :
    (execute env m.advance (.loadLocal j)).Alike (execute env n.advance (.loadLocal j)) := by
  have same : n.advance.frame.locals[j.toNat]? = m.advance.frame.locals[j.toNat]? :=
    (h.frame.written j.toNat).resolve_right (h.frame.definite _ j hi)
  simp only [execute, same]
  split
  · rename_i v _
    refine .running ⟨?_, .cons (h.past hi (by simp) (.head _)) h.callers⟩
    rw [h.advance_eq]
    rfl
  · exact h.fails _

theorem Alike.stored {j : UInt16} (h : m.Alike n) (hi : m.frame.routine.Holds m.frame.pc (.storeLocal j)) (v : Value) :
    (m.advance.setLocal j.toNat v).frame.Alike (n.advance.setLocal j.toNat v).frame := by
  refine ⟨h.frame.definite, ?_, ?_, fun x => ?_⟩
  · rw [h.advance_eq]
    rfl
  · show (n.frame.locals.setIfInBounds j.toNat v).size = (m.frame.locals.setIfInBounds j.toNat v).size
    rw [Array.size_setIfInBounds, Array.size_setIfInBounds, h.frame.size]
  · show (n.frame.locals.setIfInBounds j.toNat v)[x]? = (m.frame.locals.setIfInBounds j.toNat v)[x]? ∨ _
    rw [Array.getElem?_setIfInBounds, Array.getElem?_setIfInBounds, h.frame.size]
    by_cases hx : j.toNat = x
    · left
      simp only [hx, if_true]
    · simp only [hx, if_false]
      exact (h.frame.written x).imp_right fun way => .step way hi (fun k hk => by cases hk; exact hx) (.head _)

theorem store_alike {j : UInt16} (h : m.Alike n) (hi : m.frame.routine.Holds m.frame.pc (.storeLocal j)) :
    (execute env m.advance (.storeLocal j)).Alike (execute env n.advance (.storeLocal j)) := by
  have size : n.advance.frame.locals.size = m.advance.frame.locals.size := h.frame.size
  simp only [execute, h.stack, size]
  split
  · rename_i v rest _
    split
    · refine .running ⟨?_, .cons (h.stored hi v) h.callers⟩
      rw [h.advance_eq]
      rfl
    · exact h.fails _
  · exact h.fails _

/-! ### Calls -/

theorem ret_alike (h : m.Alike n) : (ret m.advance).Alike (ret n.advance) := by
  have base : n.advance.frame.base = m.advance.frame.base := by
    rw [h.advance_eq]
    rfl
  unfold ret
  rw [h.stack, base]
  cases m.advance.stack.items with
  | nil => exact h.fails _
  | cons v rest =>
    have callers : List.Forall₂ Frame.Alike m.advance.callers.items n.advance.callers.items := h.callers
    dsimp only
    cases hm : m.advance.callers.items with
    | nil =>
      rw [hm] at callers
      rw [List.forall₂_nil_left_iff.mp callers]
      dsimp only
      rw [h.advance_eq]
      exact .finished v (h.mirrors_kept rfl)
    | cons caller rest =>
      rw [hm] at callers
      obtain ⟨caller', rest', alike, behind, hn⟩ := List.forall₂_cons_left_iff.mp callers
      rw [hn]
      dsimp only
      refine .running ⟨?_, .cons alike ?_⟩
      · rw [h.advance_eq]
        rfl
      · show List.Forall₂ Frame.Alike (m.advance.callers.drop 1).items (n.advance.callers.drop 1).items
        rw [Stack.items_drop, Stack.items_drop, hm, hn]
        exact behind

theorem calleeFrame_alike (h : m.Alike n) (callee : Value) (args : List Value) :
    calleeFrame env n.advance callee args = calleeFrame env m.advance callee args := by
  have height : n.advance.callers.height = m.advance.callers.height := h.height
  simp only [calleeFrame, h.stack, height]

/-- A step that calls a function, with other contents of its locals. -/
theorem stepFilled_call {argc : UInt8} (hi : m.frame.routine.Holds m.frame.pc (.call argc)) :
    stepFilled fill env m = match call env argc.toNat m.advance with
      | .running m' => .running (m'.filled fill)
      | p => p := by
  have hcode : m.frame.routine.code[m.frame.pc]? = some (.call argc) := hi
  have hstep : step env m = call env argc.toNat m.advance := by
    rw [step, hcode]
    rfl
  unfold stepFilled
  rw [hstep, hcode]
  cases call env argc.toNat m.advance with
  | _ => rfl

theorem stepFilled_of_holds (hi : m.frame.routine.Holds m.frame.pc i) (other : ∀ argc, i ≠ .call argc) :
    stepFilled fill env m = execute env m.advance i := by
  have hcode : m.frame.routine.code[m.frame.pc]? = some i := hi
  unfold stepFilled
  rw [step, hcode]
  split
  · rename_i argc _ heq _
    exact absurd (Option.some.inj heq) (other argc)
  · rfl

theorem call_alike (definite : env.program.Definite) {argc : UInt8} (h : m.Alike n)
    (hi : m.frame.routine.Holds m.frame.pc (.call argc)) (hi' : n.frame.routine.Holds n.frame.pc (.call argc)) :
    (stepFilled fill env m).Alike (stepFilled fill' env n) := by
  rw [stepFilled_call hi, stepFilled_call hi']
  unfold call
  rw [h.stack]
  cases m.advance.stack.items.drop argc.toNat with
  | nil => exact h.fails _
  | cons callee rest =>
    dsimp only
    rw [calleeFrame_alike h]
    cases hframe : calleeFrame env m.advance callee (m.advance.stack.items.take argc.toNat).reverse with
    | error e => exact h.fails e
    | ok frame =>
      obtain ⟨c, code, routine, -, hcode, hroutine, -, rfl⟩ := calleeFrame_eq_ok hframe
      refine .running ⟨?_, .cons (Frame.enter_alike (definite _ _ _ _ hcode hroutine) _ _)
        (.cons (h.past hi (by simp) (.head _)) h.callers)⟩
      rw [h.advance_eq]
      rfl

/-! ### Runs -/

theorem step_alike (definite : env.program.Definite) (h : m.Alike n) :
    (stepFilled fill env m).Alike (stepFilled fill' env n) := by
  have same : n.frame.routine.code[n.frame.pc]? = m.frame.routine.code[m.frame.pc]? := by rw [h.frame.rest]
  cases hcode : m.frame.routine.code[m.frame.pc]? with
  | none =>
    have hname : n.frame.routine.name = m.frame.routine.name := by rw [h.frame.rest]
    unfold stepFilled step
    rw [same, hcode, hname]
    exact .faulted _ h.mirrors
  | some i =>
    have hi : m.frame.routine.Holds m.frame.pc i := hcode
    have hi' : n.frame.routine.Holds n.frame.pc i := same.trans hcode
    by_cases hcall : ∃ argc, i = .call argc
    · obtain ⟨argc, rfl⟩ := hcall
      exact call_alike definite h hi hi'
    · have other : ∀ argc, i ≠ .call argc := fun argc heq => hcall ⟨argc, heq⟩
      rw [stepFilled_of_holds hi other, stepFilled_of_holds hi' other]
      cases i with
      | call argc => exact absurd rfl (other argc)
      | ret => exact ret_alike h
      | loadLocal j => exact load_alike h hi
      | storeLocal j => exact store_alike h hi
      | _ => exact bare_alike h hi ⟨by simp, by simp, by simp, by simp⟩

theorem run_alike (definite : env.program.Definite) (k : Nat) (h : m.Alike n) :
    (runFilled fill env k m).Alike (runFilled fill' env k n) := by
  induction k generalizing m n with
  | zero => exact .running h
  | succ k ih =>
    rw [runFilled, runFilled]
    have alike : (stepFilled fill env m).Alike (stepFilled fill' env n) := step_alike definite h
    generalize stepFilled fill env m = p, stepFilled fill' env n = q at alike ⊢
    cases alike with
    | running alike => exact ih alike
    | sleeping millis alike => exact .sleeping millis alike
    | finished v mirrors => exact .finished v mirrors
    | faulted e mirrors => exact .faulted e mirrors

end
end Machine

/-- Two ends of a run that look the same from outside. -/
structure Invocation.Mirrors (a b : Invocation) : Prop where
  outcome : b.outcome = a.outcome
  machine : a.machine.Mirrors b.machine

namespace Invocation

section
variable {env : Machine.Env} {slice : Nat} {watch : Watch} {m n : Machine} {fill fill' : Machine.Filling}

theorem fault_mirrors (e : RuntimeError) (h : m.Mirrors n) : (fault e m).Mirrors (fault e n) := by
  refine ⟨?_, h⟩
  unfold fault
  rw [h.trace]

theorem driveFilled_mirrors (definite : env.program.Definite) (fuel slept : Nat) (h : m.Alike n) :
    Option.Rel Mirrors (driveFilled fill env slice watch fuel slept m) (driveFilled fill' env slice watch fuel slept n) := by
  induction fuel generalizing slept m n with
  | zero => exact .none
  | succ fuel ih =>
    have work : n.work = m.work := by
      rw [h.rest]
    rw [driveFilled, driveFilled, work]
    cases watch m.work slept with
    | some interrupt => exact .some (fault_mirrors _ h.mirrors)
    | none =>
      have alike : (Machine.runFilled fill env slice m).Alike (Machine.runFilled fill' env slice n) :=
        Machine.run_alike definite slice h
      generalize Machine.runFilled fill env slice m = p, Machine.runFilled fill' env slice n = q at alike ⊢
      cases alike with
      | running alike => exact ih slept alike
      | sleeping millis alike => exact ih (slept + millis) alike
      | finished v mirrors => exact .some ⟨rfl, mirrors⟩
      | faulted e mirrors => exact .some (fault_mirrors e mirrors)

end
end Invocation

theorem Machine.start_alike {p : Program} (definite : p.Definite) {entry : Callable} {records : Records} {heap : Heap}
    {start : Machine} (h : start? p entry records heap = some start) (fill fill' : Filling) :
    (start.filled fill).Alike (start.filled fill') := by
  obtain ⟨code, hcode, h⟩ := Option.bind_eq_some_iff.mp h
  obtain ⟨routine, hroutine, h⟩ := Option.bind_eq_some_iff.mp h
  cases h
  exact ⟨rfl, .cons (Frame.enter_alike (definite _ _ _ _ hcode hroutine) _ _) .nil⟩

/-- Whatever fills the locals, a script runs the same. -/
theorem Memory.runFilled_eq (m : Memory) (refs : ReferenceSet) (e : Executable) (options : InvokeOptions) (watch : Watch)
    (fuel : Nat) (definite : ∀ {start}, m.launch? refs e = some start → (m.env refs e options).program.Definite)
    (fill fill' : Machine.Filling) :
    m.runFilled fill refs e options watch fuel = m.runFilled fill' refs e options watch fuel := by
  show (m.launch? refs e).bind _ = (m.launch? refs e).bind _
  refine Option.bind_congr fun start hstart => ?_
  have mirrors : Option.Rel Invocation.Mirrors
      (Invocation.driveFilled fill (m.env refs e options) (max options.slice 1) watch fuel 0 (start.filled fill))
      (Invocation.driveFilled fill' (m.env refs e options) (max options.slice 1) watch fuel 0 (start.filled fill')) :=
    Invocation.driveFilled_mirrors (definite hstart) fuel 0 (Machine.start_alike (definite hstart) hstart fill fill')
  generalize Invocation.driveFilled fill _ _ _ _ _ _ = ended, Invocation.driveFilled fill' _ _ _ _ _ _ = ended'
    at mirrors ⊢
  cases mirrors with
  | none => rfl
  | @some a b same =>
    show some (Completion.mk a.outcome _ _) = some (Completion.mk b.outcome _ _)
    rw [same.outcome, same.machine.rest]
    rfl

end ScriptEngine
