import Mathlib.Logic.Relation
import ScriptEngine.Proofs.SessionRuns

/-! A session from one moment to the next, with the machine of the submission that runs (`Goes`). A moment is
    finer than a submission: what holds at every moment holds in the midst of a script, and also where a script
    is stopped. Every submission leads from moment to moment, whatever disturbs it (`Session.Submits.goes`). -/

namespace ScriptEngine
open Relation

/-- What is asked of the answers to requests for libraries, and of the units that a session accepts. -/
structure Terms where
  supply : Supply → Prop
  unit : ScriptUnit → Prop

namespace Terms

def anything : Terms := ⟨fun _ => True, fun _ => True⟩

/-- Libraries are built from source texts. Their units and those of the session have a property, and images of
    all of them can be written. -/
def built (good : ScriptUnit → Prop) : Terms := ⟨Supply.Builds good, fun u => u.Encodes ∧ good u⟩

end Terms

/-- A session between two submissions, or while an accepted submission runs; the unit of this submission is
    already one of the session. -/
inductive Moment where
  | idle (s : Session) (cache : Cache)
  | running (s : Session) (cache : Cache) (env : Machine.Env) (m : Machine)

/-- A session keeps the lists and the variables of a machine that ended or was stopped. -/
def Session.keep (s : Session) (env : Machine.Env) (m : Machine) : Session :=
  { s.settled with memory := ⟨env.program, m.heap, m.records⟩ }

namespace Moment

def session : Moment → Session
  | idle s _ | running s _ _ _ => s

/-- The accepted units, the newest first. -/
def units (a : Moment) : List ScriptUnit := a.session.chain.units

def heap : Moment → Heap
  | idle s _ => s.memory.heap
  | running _ _ _ m => m.heap

def records : Moment → Records
  | idle s _ => s.memory.records
  | running _ _ _ m => m.records

def program : Moment → Program
  | idle s _ => s.memory.program
  | running _ _ env _ => env.program

end Moment

/-- One moment leads to the next. A script can be stopped wherever it has come to, and other sessions can use
    the same cache. -/
inductive Goes (terms : Terms) : Moment → Moment → Prop where
  | begin {s : Session} {cache cache' : Cache} {supply : Supply} {cancelled : Bool} {source : String}
      {refs : ReferenceSet} {c : Compiled} {m : Machine} (allowed : terms.supply supply)
      (loaded : cache.ensure supply cancelled = (.ok refs, cache'))
      (accepted : s.chain.compile source refs = .ok c) (unit : terms.unit c.unit)
      (start : (s.accept c).memory.launch? refs c.executable = some m) :
      Goes terms (.idle s cache)
        (.running (s.accept c) cache' ((s.accept c).memory.env refs c.executable s.options.invoke) m)
  | step {s : Session} {cache : Cache} {env : Machine.Env} {m m' : Machine} (next : Machine.Next env m m') :
      Goes terms (.running s cache env m) (.running s cache env m')
  | stop {s : Session} {cache : Cache} {env : Machine.Env} {m : Machine} :
      Goes terms (.running s cache env m) (.idle (s.keep env m) cache)
  | settle {s : Session} {cache : Cache} : Goes terms (.idle s cache) (.idle s.settled cache)
  | share {s : Session} {cache : Cache} {supply : Supply} {cancelled : Bool} (allowed : terms.supply supply) :
      Goes terms (.idle s cache) (.idle s (cache.ensure supply cancelled).2)
  | cancel {s : Session} {cache : Cache} : Goes terms (.idle s cache) (.idle s.cancel cache)

/-- The moments that a session comes to, with resets between them. -/
inductive Reached (terms : Terms) : Moment → Prop where
  | start (options : SessionOptions) (locations : List String) :
      Reached terms (.idle (.start options) (.start locations))
  | goes {a b : Moment} (reached : Reached terms a) (goes : Goes terms a b) : Reached terms b
  | reset {s : Session} {cache : Cache} (reached : Reached terms (.idle s cache)) : Reached terms (.idle s.reset cache)

variable {terms : Terms} {a b : Moment}

theorem Reached.trans (reached : Reached terms a) (path : ReflTransGen (Goes terms) a b) : Reached terms b := by
  induction path with
  | refl => exact reached
  | tail _ goes ih => exact ih.goes goes

/-! ### Submissions -/

theorem Machine.Steps.goes {s : Session} {cache : Cache} {env : Machine.Env} {n : Nat} {m m' : Machine}
    (steps : Machine.Steps env n m m') :
    ReflTransGen (Goes terms) (.running s cache env m) (.running s cache env m') := by
  induction steps with
  | refl m => exact .refl
  | step next _ ih => exact .head (.step next) ih

theorem Cache.ensure_loads {cache cache' : Cache} {supply : Supply} {cancelled : Bool} {refs : ReferenceSet}
    (h : cache.ensure supply cancelled = (.ok refs, cache')) : cache'.loaded = some refs := by
  obtain ⟨-, given, -⟩ := ensure_each (P := fun _ => True) (c := cache) cancelled
    (fun (_ : fetchLibrary supply _ _ = _) => trivial) (fun _ _ _ _ => trivial)
  rw [h] at given
  exact given refs rfl

/-- Loaded libraries stay. -/
theorem Cache.ensure_keeps {cache : Cache} (supply : Supply) (cancelled : Bool) {refs : ReferenceSet}
    (h : cache.loaded = some refs) : (cache.ensure supply cancelled).2.loaded = some refs := by
  obtain ⟨-, -, kept⟩ := ensure_each (P := fun _ => True) (c := cache) cancelled
    (fun (_ : fetchLibrary supply _ _ = _) => trivial) (fun _ _ _ _ => trivial)
  exact kept refs h

namespace Session

variable {interference : Interference} {fuel : Nat} {supply : Supply} {cache cache' : Cache} {s s' : Session}
  {source : String} {report : Report}

/-- An accepted submission runs from its first machine to one where it ends or is stopped. -/
theorem ran_goes {refs : ReferenceSet} {c : Compiled} {watch : Watch} {done : Completion} {cancelled : Bool}
    (allowed : terms.supply supply) (loaded : cache.ensure supply cancelled = (.ok refs, cache'))
    (accepted : s.chain.compile source refs = .ok c) (unit : terms.unit c.unit)
    (run : (s.accept c).memory.run refs c.executable s.options.invoke watch fuel = some done) :
    ReflTransGen (Goes terms) (.idle s cache) (.idle (s.ran c done.memory) cache') := by
  obtain ⟨start, k, m, hstart, steps, hmemory, -⟩ := Memory.run_reaches run
  have path := ReflTransGen.head (.begin allowed loaded accepted unit hstart) (steps.goes (s := s.accept c))
  have ends : (s.accept c).keep ((s.accept c).memory.env refs c.executable s.options.invoke) m = s.ran c done.memory := by
    rw [ran, hmemory]
    rfl
  exact ends ▸ path.tail .stop

/-- A submission leads from one moment to another. -/
theorem Submits.goes (allowed : terms.supply supply)
    (units : ∀ refs c, cache'.loaded = some refs → s.chain.compile source refs = .ok c → terms.unit c.unit)
    (h : Submits interference fuel supply cache s source report s' cache') :
    ReflTransGen (Goes terms) (.idle s cache) (.idle s' cache') := by
  have refused {result : Except ReferenceError ReferenceSet}
      (hensure : cache.ensure supply interference.cancelLoading = (result, cache')) :
      ReflTransGen (Goes terms) (.idle s cache) (.idle s.settled cache') := by
    have hcache : (cache.ensure supply interference.cancelLoading).2 = cache' := congrArg Prod.snd hensure
    exact .tail (.single .settle) (hcache ▸ .share allowed)
  cases h with
  | unloaded missing failed => exact refused failed
  | rejected loaded failed | unemitted loaded failed => exact refused loaded
  | executed loaded accepted run _ | faulted loaded accepted run _ =>
    exact ran_goes allowed loaded accepted (units _ _ (Cache.ensure_loads loaded) accepted) run

/-- What a session comes to by submissions, it comes to from moment to moment. -/
theorem Run.reached {good : ScriptUnit → Prop} {options : SessionOptions} {reports : List Report}
    (run : Run good options reports s cache) : Reached (.built good) (.idle s cache) := by
  induction run with
  | start locations => exact .start options locations
  | submit _ builds units submitted ih => exact ih.trans (Submits.goes builds units (submitUnder_submits submitted))
  | reset _ ih => exact .reset ih
  | cancel _ ih => exact .goes ih .cancel
  | share _ builds ih => exact .goes ih (.share builds)

/-- The moment at which a source text that is accepted begins to run. -/
def begin? (good : ScriptUnit → Prop) [DecidablePred good] (s : Session) (cache : Cache) (source : String) :
    Option (Session × Cache × Machine.Env × Machine) := do
  let (.ok refs, cache') := cache.ensure smallSupply false | none
  let c ← (s.chain.compile source refs).toOption
  guard (c.unit.Encodes ∧ good c.unit)
  let m ← (s.accept c).memory.launch? refs c.executable
  return (s.accept c, cache', (s.accept c).memory.env refs c.executable s.options.invoke, m)

theorem begin?_goes {good : ScriptUnit → Prop} [DecidablePred good]
    (hlibrary : ∀ u, ScriptUnit.create (.library "lib") smallLibrary #[] [] [] = .ok u → good u)
    {env : Machine.Env} {m : Machine} (h : s.begin? good cache source = some (s', cache', env, m)) :
    Goes (.built good) (.idle s cache) (.running s' cache' env m) := by
  unfold begin? at h
  split at h
  · rename_i refs cache₁ loaded
    obtain ⟨c, hc, h⟩ := Option.bind_eq_some_iff.mp h
    obtain ⟨_, hunit, h⟩ := Option.bind_eq_some_iff.mp h
    obtain ⟨start, hstart, h⟩ := Option.bind_eq_some_iff.mp h
    cases h
    have hunit := (Option.guard_eq_some' _).mp hunit
    exact .begin (smallSupply_builds hlibrary) loaded (except_toOption_eq_some.mp hc) hunit hstart
  · cases h

/-! ### Sound moments -/

/-- The machine of the newest unit is sound, and so is what it runs against. -/
structure Underway (good : ScriptUnit → Prop) (s : Session) (cache : Cache) (p : Program) (m : Machine) : Prop where
  built : cache.Built good
  references : cache.loaded = some p.references
  linked : Linked p.references s.chain.units p.fragments
  units : ∀ u ∈ s.chain.units, good u
  program : p.Sound
  machine : m.Sound p

end Session

/-- Code and memory of a moment are sound. -/
def Moment.Sound (good : ScriptUnit → Prop) : Moment → Prop
  | idle s cache => s.Sound good cache
  | running s cache env m => s.Underway good cache env.program m

variable {good : ScriptUnit → Prop}

theorem Goes.sound (h : a.Sound good) (goes : Goes (.built good) a b) : b.Sound good := by
  cases goes with
  | @begin s cache cache' supply cancelled source refs c m allowed loaded accepted unit start =>
    obtain ⟨encodes, hgood⟩ := unit
    have hrefs := Cache.ensure_loads loaded
    have sound : s.Sound good cache' := by
      have shared := Session.Sound.share h cancelled allowed
      rwa [loaded] at shared
    obtain ⟨linked, program, memory⟩ := sound.accept hrefs accepted encodes
    refine ⟨sound.built, hrefs, linked, fun u hu => ?_, program, ?_⟩
    · rcases List.mem_cons.mp hu with rfl | hu
      · exact hgood
      · exact sound.units u hu
    · exact Machine.start_sound program memory.heap memory.records memory.shaped start
  | step next => exact ⟨h.built, h.references, h.linked, h.units, h.program, h.machine.next h.program next⟩
  | stop =>
    refine ⟨h.built, .inr h.references, h.linked, h.units, ?_⟩
    exact ⟨h.machine.holdings.heap, h.machine.holdings.records, h.machine.holdings.shaped⟩
  | settle | cancel => exact Session.Sound.congr h rfl rfl
  | share allowed => exact Session.Sound.share h _ allowed

/-- Every moment that a session comes to is sound. -/
theorem Reached.sound (reached : Reached (.built good) a) : a.Sound good := by
  induction reached with
  | start options locations => exact Session.Sound.fresh (fun refs h => (nomatch h)) rfl rfl
  | goes _ goes ih => exact goes.sound ih
  | reset _ ih => exact Session.Sound.fresh ih.built rfl rfl

end ScriptEngine
