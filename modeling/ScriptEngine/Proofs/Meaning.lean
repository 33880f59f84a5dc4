import Mathlib.Data.List.Forall2
import ScriptEngine.Proofs.Calls
import ScriptEngine.Proofs.SessionRuns

/-! What the submissions of a session mean. The units of a session and those that its libraries were built from
    make up the world that a submission is evaluated in; the loaded code agrees with it, so the machine and the
    evaluator end in the same way. -/

namespace ScriptEngine
open Evaluator Lowering

/-! ### Loaded code -/

/-- Code that was loaded for a unit carries it, if an import stands for the same function in the world. -/
theorem Machine.Carries.of_loaded {w : World} {kind : UnitKind} {p : Bound.Program} {image : Image}
    {refs : ReferenceSet} {code : CodeModule} (emitted : Emitted kind p image)
    (loaded : CodeModule.Loaded image refs code)
    (hresolve : ∀ wanted c, refs.resolve? wanted = some c → w.resolve? wanted = some c)
    (hrecord : ∀ record, p.record = some record → code.record? = some record) : Carries w code p := by
  refine ⟨?_, fun hf hr => ?_, fun i => ?_, loaded.slots.trans emitted.slots, hrecord⟩
  · rw [loaded.functions]
    exact emitted.stands.size
  · rw [loaded.functions] at hr
    exact emitted.stands.function hf hr
  · rw [← emitted.imports]
    rcases Nat.lt_or_ge i code.imports.size with hlt | hge
    · have hc := Array.getElem?_eq_getElem hlt
      obtain ⟨wanted, hwanted, hwas⟩ := loaded.imports hc
      rw [hc, hwanted, Option.bind_some, hresolve wanted _ hwas]
    · rw [Array.getElem?_eq_none hge, Array.getElem?_eq_none (loaded.importCount ▸ hge)]
      rfl

/-- A library knows no records and imports nothing, so its code carries its unit in every world. -/
theorem Library.Holds.carries {l : Library} {u : ScriptUnit} (h : l.Holds u) (w : World) :
    Machine.Carries w l.code u.program := by
  obtain ⟨name, source, hcreate⟩ := h.created
  obtain ⟨hkind, tree, -, coherent⟩ := ScriptUnit.create_coherent hcreate
  obtain ⟨image, emitted, loaded⟩ := h.loaded
  refine .of_loaded emitted loaded (fun wanted c hwas => ?_) (fun record hrecord => ?_)
  · rw [ReferenceSet.resolve?_empty] at hwas
    cases hwas
  · cases coherent.inScope.record.trans hrecord

theorem Follows.carries {refs : ReferenceSet} {older : List ScriptUnit} {u : ScriptUnit} {code : CodeModule}
    (h : Follows refs older u code) (few : older.length + 1 < 4294967296) {w : World}
    (hresolve : ∀ wanted c, refs.resolve? wanted = some c → w.resolve? wanted = some c) :
    Machine.Carries w code u.program := by
  obtain ⟨ctx, tree, hunit, -, coherent⟩ := h.bound
  obtain ⟨image, emitted, loaded⟩ := h.loaded
  refine .of_loaded emitted loaded hresolve fun record hrecord => ?_
  have hown : ctx.unit.record? = some record := coherent.inScope.record.trans hrecord
  rw [hunit, h.kind] at hown
  rw [h.record few]
  exact hown

/-! ### The world of a session -/

/-- The units that the libraries of a set were built from, in the same order, all of them tidy. -/
def ReferenceSet.Held (refs : ReferenceSet) (libraries : List ScriptUnit) : Prop :=
  List.Forall₂ (fun l u => Library.Holds l u ∧ u.program.Tidy) refs.toList libraries

/-- The world of the given units, of which the newest stands first, and libraries. -/
def Evaluator.World.ofUnits (units libraries : List ScriptUnit) (refs : ReferenceSet) (maxDepth : Nat) : World where
  unit?
    | .fragment i => units.reverse[i]?.map (·.program)
    | .library i => libraries[i]?.map (·.program)
  resolve? := refs.resolve?
  maxDepth := maxDepth

section
variable {refs : ReferenceSet} {units libraries : List ScriptUnit} {fragments : Array CodeModule}

theorem ReferenceSet.Built.held (built : refs.Built fun u => u.program.Tidy) : ∃ libraries, refs.Held libraries := by
  have each : ∀ ls : List Library, (∀ l ∈ ls, l ∈ refs) →
      ∃ us, List.Forall₂ (fun l u => Library.Holds l u ∧ u.program.Tidy) ls us := by
    intro ls hls
    induction ls with
    | nil => exact ⟨[], .nil⟩
    | cons l ls ih =>
      obtain ⟨u, hu⟩ := built l (hls l List.mem_cons_self)
      obtain ⟨us, hus⟩ := ih fun l' hl' => hls l' (List.mem_cons_of_mem l hl')
      exact ⟨u :: us, .cons hu hus⟩
  exact each refs.toList fun l hl => Array.mem_toList_iff.mp hl

theorem ReferenceSet.Held.unit (held : refs.Held libraries) (i : Nat) :
    (refs[i]? = none ∧ libraries[i]? = none) ∨
      ∃ l u, refs[i]? = some l ∧ libraries[i]? = some u ∧ l.Holds u ∧ u.program.Tidy := by
  have hlength : refs.size = libraries.length := by
    rw [← Array.length_toList]
    exact held.length_eq
  rcases Nat.lt_or_ge i refs.size with hlt | hge
  · have hlt' : i < libraries.length := hlength ▸ hlt
    obtain ⟨holds, tidy⟩ := List.Forall₂.get held (i := i) hlt hlt'
    exact .inr ⟨_, _, Array.getElem?_eq_getElem hlt, List.getElem?_eq_getElem hlt', holds, tidy⟩
  · exact .inl ⟨Array.getElem?_eq_none hge, List.getElem?_eq_none (hlength ▸ hge)⟩

/-- The code of a session agrees with its units. -/
theorem Linked.agrees (linked : Linked refs units fragments) (held : refs.Held libraries)
    (tidy : ∀ u ∈ units, u.program.Tidy) (maxDepth : Nat) :
    Machine.Agrees ⟨⟨refs, fragments⟩, maxDepth⟩ (.ofUnits units libraries refs maxDepth) := by
  refine ⟨rfl, fun home => ?_⟩
  cases home with
  | library i =>
    simp only [Program.module?, World.ofUnits]
    rcases held.unit i with ⟨hl, hu⟩ | ⟨l, u, hl, hu, holds, htidy⟩
    · exact .inl ⟨by rw [hl]; rfl, by rw [hu]; rfl⟩
    · exact .inr ⟨l.code, u.program, by rw [hl]; rfl, by rw [hu]; rfl, holds.carries _, htidy⟩
  | fragment i =>
    simp only [Program.module?, World.ofUnits]
    cases hcode : fragments[i]? with
    | none =>
      have hge : units.reverse.length ≤ i := by
        rw [List.length_reverse, ← linked.size]
        exact Array.getElem?_eq_none_iff.mp hcode
      exact .inl ⟨rfl, by rw [List.getElem?_eq_none hge]; rfl⟩
    | some code =>
      obtain ⟨newer, u, older, rfl, rfl, follows⟩ := linked.unit hcode
      -- The unit stands where its fragment does when the oldest comes first.
      have hu : (newer ++ u :: older).reverse[older.length]? = some u := by
        rw [List.reverse_append, List.reverse_cons, List.append_assoc, List.singleton_append, ← List.length_reverse,
          List.getElem?_append_right (Nat.le_refl _), Nat.sub_self]
        rfl
      refine .inr ⟨code, u.program, rfl, by rw [hu]; rfl, follows.carries (linked.fewOlder rfl) fun _ _ h => h, tidy u ?_⟩
      exact List.mem_append_right newer List.mem_cons_self

end

/-! ### Evaluated submissions -/

theorem Memory.launch?_isSome (m : Memory) (refs : ReferenceSet) {e : Executable} {r : Routine}
    (hr : e.code.functions[e.entry]? = some r) : ∃ machine, m.launch? refs e = some machine := by
  have hmodule : (m.link refs e.code).program.module? (.fragment m.program.fragments.size) = some e.code :=
    Array.getElem?_push_size
  simp only [launch?, Machine.start?, Option.bind_eq_bind, hmodule, hr, Option.bind_some]
  exact ⟨_, rfl⟩

namespace Session

/-- The world that the newest submission of a session is evaluated in. -/
def world (s : Session) (refs : ReferenceSet) (libraries : List ScriptUnit) : World :=
  .ofUnits s.chain.units libraries refs (max s.options.invoke.maxCallDepth 1)

variable {s : Session} {cache : Cache}

/-- Generated code means what the bound program means. The libraries of a session were built from units; in the
    world of these and of the accepted units, the evaluation of a submission ends in a way, with a value or with a
    fault, exactly if the machine that runs its code ends so. Both leave the same output, lists and variables. -/
theorem Run.evaluate_iff_run {options : SessionOptions} {reports : List Report}
    (run : Run (fun u => u.program.Tidy) options reports s cache) {refs : ReferenceSet} (hrefs : cache.loaded = some refs)
    {source : String} {c : Compiled} (hc : s.chain.compile source refs = .ok c) (encodes : c.unit.Encodes)
    (tidy : c.unit.program.Tidy) :
    (∃ libraries, refs.Held libraries) ∧ ∀ libraries, refs.Held libraries → ∀ ending,
      (∃ fuel, ((s.accept c).world refs libraries).evaluate ⟨.fragment s.chain.index, c.executable.entry⟩
          (s.accept c).memory.records (s.accept c).memory.heap fuel = some ending) ↔
        ∃ fuel, ((s.accept c).memory.run refs c.executable s.options.invoke Invocation.undisturbed fuel).map
          Evaluation.ofCompletion = some ending := by
  obtain ⟨sound, -⟩ := run.sound
  refine ⟨(sound.built refs hrefs).held, fun libraries held ending => ?_⟩
  obtain ⟨linked, -, -⟩ := sound.accept hrefs hc encodes
  obtain ⟨-, r, hr, -⟩ := Chain.compile_follows hc encodes
  obtain ⟨start, hstart⟩ := Memory.launch?_isSome (s.accept c).memory refs hr
  have hunits : ∀ u ∈ (s.accept c).chain.units, u.program.Tidy := by
    intro u hu
    rcases List.mem_cons.mp hu with rfl | hu
    · exact tidy
    · exact sound.units u hu
  have agrees := linked.agrees held hunits (max s.options.invoke.maxCallDepth 1)
  have hindex : s.chain.index = (s.accept c).memory.program.fragments.size := sound.linked.size.symm
  have hslice : 0 < max s.options.invoke.slice 1 := Nat.lt_of_lt_of_le Nat.zero_lt_one (Nat.le_max_right ..)
  rw [hindex]
  refine (Machine.evaluate_iff_drive agrees hstart hslice ending).trans (exists_congr fun fuel => ?_)
  constructor
  · rintro ⟨ended, hended, rfl⟩
    rw [Memory.run_eq_some.mpr ⟨start, ended, hstart, hended, rfl⟩]
    rfl
  · intro hrun
    obtain ⟨done, hdone, rfl⟩ := Option.map_eq_some_iff.mp hrun
    obtain ⟨machine, ended, hmachine, hended, rfl⟩ := Memory.run_eq_some.mp hdone
    rw [hstart] at hmachine
    cases hmachine
    exact ⟨ended, hended, rfl⟩

/-- A submission with a loop that skips a round, and a function of a library. -/
def tidySources : List String :=
  ["let xs = [1]; fn f(n) \x7b let mut i = 0; while i < n \x7b i = i + 1; if i == 2 \x7b continue; \x7d "
    ++ "push(xs, twice(i)); \x7d len(xs) \x7d f(3)"]

/-- Run a tidy source text that is submitted next. -/
def finish? (s : Session) (cache : Cache) (source : String) : Option (ReferenceSet × Compiled × Completion) := do
  let refs ← cache.loaded
  let c ← (s.chain.compile source refs).toOption
  guard (c.unit.Encodes ∧ c.unit.program.Tidy)
  let done ← (s.accept c).memory.run refs c.executable s.options.invoke Invocation.undisturbed 3
  return (refs, c, done)

/-- The number that an evaluation ended with. -/
def number? (ending : Evaluation) : Option Int64 :=
  match ending.outcome with
  | .ok (.int n) => some n
  | _ => none

/-- The next submission prints a line and ends with a number, so its evaluation does. -/
theorem Run.evaluate_iff_run_small : ∃ reports s cache refs c libraries ending fuel,
    submitAll (fun u => u.program.Tidy) tidySources (.start smallOptions) (.start ["lib"]) = some (reports, s, cache) ∧
    s.chain.compile "print(f(1)); xs[1] + 10 * f(0)" refs = .ok c ∧ refs.Held libraries ∧
    ((s.accept c).world refs libraries).evaluate ⟨.fragment s.chain.index, c.executable.entry⟩
      (s.accept c).memory.records (s.accept c).memory.heap fuel = some ending ∧
    ending.output = ["4"] ∧ number? ending = some 42 := by
  have computes : ((submitAll (fun u => u.program.Tidy) tidySources (.start smallOptions) (.start ["lib"])).bind
      fun made => (made.2.1.finish? made.2.2 "print(f(1)); xs[1] + 10 * f(0)").filter fun ended =>
        decide (ended.2.2.output = ["4"] ∧ number? (.ofCompletion ended.2.2) = some 42)).isSome := by decide +kernel
  obtain ⟨⟨refs, c, done⟩, h⟩ := Option.isSome_iff_exists.mp computes
  obtain ⟨⟨reports, s, cache⟩, hsmall, h⟩ := Option.bind_eq_some_iff.mp h
  obtain ⟨h, hending⟩ := Option.filter_eq_some_iff.mp h
  obtain ⟨refs, hrefs, h⟩ := Option.bind_eq_some_iff.mp h
  obtain ⟨c, hc, h⟩ := Option.bind_eq_some_iff.mp h
  obtain ⟨_, hguard, h⟩ := Option.bind_eq_some_iff.mp h
  obtain ⟨done, hdone, h⟩ := Option.bind_eq_some_iff.mp h
  cases h
  have hc := except_toOption_eq_some.mp hc
  obtain ⟨encodes, tidy⟩ : c.unit.Encodes ∧ c.unit.program.Tidy := (Option.guard_eq_some' _).mp hguard
  obtain ⟨houtput, hnumber⟩ := of_decide_eq_true hending
  have run := submitAll_run (by decide +kernel) (Run.start ["lib"]) hsmall
  obtain ⟨⟨libraries, held⟩, same⟩ := Run.evaluate_iff_run run hrefs hc encodes tidy
  obtain ⟨fuel, hevaluate⟩ := (same libraries held (.ofCompletion done)).mpr ⟨3, by rw [hdone]; rfl⟩
  exact ⟨reports, s, cache, refs, c, libraries, _, fuel, hsmall, hc, held, hevaluate, houtput, hnumber⟩

end Session
end ScriptEngine
