import ScriptEngine.Proofs.Meaning

/-! Scripts that call nothing and repeat nothing. The evaluation of such a script needs no fuel, and it sees nothing of
    the other units of the session but the names of their functions; so the script runs as it is evaluated, whatever
    these units are (`Memory.run_callFree`). -/

namespace ScriptEngine
open Evaluator Lowering

/-- Units of which only the names of their functions are known. -/
def Evaluator.World.ofNames (program : Program) (resolve? : ImportRef → Option Callable) : World where
  unit? home := (program.module? home).map fun code =>
    ⟨code.functions.toList.map fun r => ⟨r.name, 0, 0, .empty, 0⟩, #[], #[], [], none, none⟩
  resolve? := resolve?
  maxDepth := 0

/-- The scope of a script for which every call and every loop is too much. -/
def Evaluator.Scope.callFree (w : World) (home : Home) (p : Bound.Program) : Scope := ⟨w, home, p, 0, fun _ _ _ => .dry⟩

theorem Evaluator.World.view_ofNames (program : Program) (resolve? : ImportRef → Option Callable) (heap : Heap) :
    Value.View.of program heap = (ofNames program resolve?).view heap := by
  refine congrArg (Value.View.mk heap) (funext fun c => ?_)
  simp only [Program.routineName, Program.routine?, function?, ofNames, Option.bind_eq_bind]
  cases program.module? c.home with
  | none => rfl
  | some code =>
    simp only [Option.bind_some, Option.map_some, List.getElem?_map, Array.getElem?_toList, Option.map_map]
    rfl

/-- Where nothing is called, the names are all that has to be right. -/
theorem Machine.Carries.suits_callFree {env : Env} {w : World} {p : Bound.Program} {a : Activation} (carries : Carries w a.code p)
    (view : ∀ heap, Value.View.of env.program heap = w.view heap) : Suits env (.callFree w a.callee.home p) a :=
  carries.suits_scope view fun _ _ _ => ⟨0, _, .refl _, Nat.zero_le 0⟩

/-- A script whose evaluation comes to a value without a call and without a loop ends with this value, and leaves what
    the evaluation leaves. -/
theorem Memory.run_callFree (m : Memory) {c : Chain} {source : String} {refs : ReferenceSet} {compiled : Compiled}
    (hc : c.compile source refs = .ok compiled) (encodes : compiled.unit.Encodes) (few : c.index + 1 < 4294967296)
    (options : InvokeOptions) {f : Bound.Func}
    (hf : compiled.unit.program.functions[compiled.executable.entry]? = some f) (tidy : Bound.Tidy.block false f.body = true)
    {v : Value} {t : Store}
    (evaluated : (Scope.callFree (.ofNames (m.link refs compiled.executable.code).program refs.resolve?)
      (.fragment m.program.fragments.size) compiled.unit.program).invoke compiled.executable.entry f []
        ⟨#[], m.heap, m.records, #[]⟩ = .done v t) :
    (∃ fuel done, m.run refs compiled.executable options Invocation.undisturbed fuel = some done) ∧
    ∀ fuel done, m.run refs compiled.executable options Invocation.undisturbed fuel = some done →
      done = ⟨.ok v, t.output.toList, (m.link refs compiled.executable.code).program, t.heap, t.records⟩ := by
  obtain ⟨follows, r, hr, -⟩ := Chain.compile_follows hc encodes
  obtain ⟨start, hstart⟩ := m.launch?_isSome refs hr
  obtain ⟨code, r', hcode, hr', poised⟩ := Machine.start?_poised hstart
  have hmodule : (m.link refs compiled.executable.code).program.module? (.fragment m.program.fragments.size) =
      some compiled.executable.code := Array.getElem?_push_size
  obtain rfl := Option.some.inj (hmodule.symm.trans hcode)
  let w : World := .ofNames (m.link refs compiled.executable.code).program refs.resolve?
  let entry : Callable := ⟨.fragment m.program.fragments.size, compiled.executable.entry⟩
  have carries : Machine.Carries w compiled.executable.code compiled.unit.program := follows.carries few fun _ _ h => h
  have stands := carries.function hf hr'
  have view (heap : Heap) : Value.View.of (m.env refs compiled.executable options).program heap = w.view heap :=
    World.view_ofNames _ _ heap
  have suits := carries.suits_callFree (a := ⟨entry, compiled.executable.code, r', 0, .empty⟩) view
  rw [stands.locals] at poised
  have returns := Machine.invoke_returns (s := ⟨#[], m.heap, m.records, #[]⟩) suits stands tidy poised
  rw [show Scope.invoke _ _ _ _ _ = Outcome.done v t from evaluated] at returns
  obtain ⟨k, m', pc, above, t, steps, hret, poised, rfl⟩ := returns
  obtain ⟨ended, hend, hending⟩ := poised.finishes _ hret rfl
  obtain ⟨houtcome, houtput, hheap, hrecords⟩ := Evaluation.mk.inj hending
  obtain ⟨ends, only⟩ := run_ends hstart steps.steps hend
  refine ⟨ends, fun fuel done hrun => (only fuel done hrun).trans ?_⟩
  rw [except_mapError_eq_ok.mp houtcome, houtput, Memory.after, hheap, hrecords]

end ScriptEngine
