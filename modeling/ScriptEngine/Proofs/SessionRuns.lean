import Mathlib.Data.Option.Basic
import ScriptEngine.Proofs.LinkedUnits
import ScriptEngine.Proofs.Submissions

/-! Sessions that go on: any submissions, with whatever disturbs them, and resets and cancellations between
    them (`Session.Run`). The code and the memory of such a session are always sound (`Session.Sound`), so a
    submission starts with a sound machine, and no report blames the code. -/

namespace ScriptEngine

/-! ### The end of a run -/

namespace Machine

variable {env : Env} {m m' : Machine}

/-- The machine that progress was made to. -/
def Progress.machine : Progress → Machine
  | .running m | .sleeping _ m | .finished _ m | .faulted _ m => m

/-- A step with which a run ends leaves the lists and the variables as they are. -/
theorem step_end {p : Progress} (hp : step env m = p) (h : p.next? = none) :
    p.machine.heap = m.heap ∧ p.machine.records = m.records := by
  subst hp
  unfold step at h ⊢
  split at h
  · obtain ⟨e, ends, -⟩ | ⟨-, v, stack, ends⟩ := execute_ends h
    all_goals
      rw [ends]
      exact ⟨rfl, rfl⟩
  · exact ⟨rfl, rfl⟩

/-- What a run leaves in memory is what the machine held before the last step. -/
theorem ofEnd_memory {done : Invocation} (h : Invocation.ofEnd (step env m) = some done) :
    done.machine.heap = m.heap ∧ done.machine.records = m.records := by
  have hnone := Invocation.next?_of_end h
  have hmachine : done.machine = (step env m).machine := by
    cases hstep : step env m with
    | running m₁ | sleeping millis m₁ =>
      rw [hstep] at h
      cases h
    | finished v m₁ | faulted e m₁ =>
      rw [hstep] at h
      cases h
      rfl
  rw [hmachine]
  exact step_end rfl hnone

/-- A machine that starts a routine without parameters is sound. -/
theorem start_sound {p : Program} {entry : Callable} {records : Records} {heap : Heap} (hp : p.Sound)
    (hheap : heap.Known p.Has) (hrecords : records.Known p.Has) (hshaped : records.Shaped p.Slots)
    (h : start? p entry records heap = some m) : m.Sound p := by
  obtain ⟨code, hcode, h⟩ := Option.bind_eq_some_iff.mp h
  obtain ⟨r', hr', h⟩ := Option.bind_eq_some_iff.mp h
  cases h
  have sound := (hp hcode).routines hr'
  obtain ⟨sites, flows⟩ := sound.flows
  have hlocals : ∀ v ∈ (#[] ++ Array.replicate (r'.locals.toNat - 0) Value.unit : Array Value), v.Known p.Has := by
    intro v hv
    rw [Array.empty_append] at hv
    rw [(Array.mem_replicate.mp hv).2]
    trivial
  refine ⟨⟨hcode, hr', ?_, hlocals⟩, ⟨sites, 0, flows, flows.entry, Nat.zero_le _⟩, trivial,
    ⟨fun v hv => (nomatch hv), hlocals, hheap, hrecords, hshaped⟩⟩
  simp [Frame.enter]

end Machine

theorem Interrupt.valid (i : Interrupt) : i.error.Valid := by
  cases i <;> trivial

/-! ### Memory -/

namespace Program

/-- One program has everything that another one has. -/
structure Extends (p p' : Program) : Prop where
  has : ∀ c, p.Has c → p'.Has c
  slots : ∀ record count, p.Slots record count → p'.Slots record count

theorem extends_push (refs : ReferenceSet) (fragments : Array CodeModule) (code : CodeModule) :
    Extends ⟨refs, fragments⟩ ⟨refs, fragments.push code⟩ := by
  refine ⟨fun c hc => ?_, fun record count h => ?_⟩
  · obtain ⟨code', r, hcode', hr⟩ := hc.routine
    have hmodule : Program.module? ⟨refs, fragments.push code⟩ c.home = some code' := by
      cases hhome : c.home with
      | library i =>
        rw [hhome] at hcode'
        exact hcode'
      | fragment i =>
        rw [hhome] at hcode'
        exact getElem?_push_of_some hcode'
    exact ⟨r, routine?_of_module hmodule hr⟩
  · obtain ⟨code', hcode', hsize⟩ := h
    exact ⟨code', getElem?_push_of_some hcode', hsize⟩

theorem extends_empty (p : Program) : Extends ⟨#[], #[]⟩ p := by
  refine ⟨fun c hc => ?_, fun record count h => ?_⟩
  · obtain ⟨code, r, hcode, -⟩ := hc.routine
    cases hhome : c.home with
    | library i =>
      rw [hhome] at hcode
      simp [module?] at hcode
    | fragment i =>
      rw [hhome] at hcode
      simp [module?] at hcode
  · obtain ⟨code, hcode, -⟩ := h
    simp at hcode

end Program

namespace Memory

/-- The lists and the variables are in order for a program. -/
structure Sound (p : Program) (m : Memory) : Prop where
  heap : m.heap.Known p.Has
  records : m.records.Known p.Has
  shaped : m.records.Shaped p.Slots

variable {m : Memory} {p p' : Program}

theorem Sound.mono (h : m.Sound p) (hext : p.Extends p') : m.Sound p' := by
  refine ⟨fun xs hxs v hv => ?_, fun k r hr v hv => ?_, fun k r hr => ?_⟩
  · exact (h.heap xs hxs v hv).mono hext.has
  · exact (h.records k r hr v hv).mono hext.has
  · exact hext.slots k _ (h.shaped k r hr)

theorem Sound.reserve (h : m.Sound p) (count : Nat) : (m.reserve count).Sound p := by
  refine ⟨h.heap, fun k r hr => ?_, fun k r hr => ?_⟩
  · rw [Memory.reserve, Records.record?_ensure] at hr
    exact h.records k r hr
  · rw [Memory.reserve, Records.record?_ensure] at hr
    exact h.shaped k r hr

theorem sound_withCapacity (capacity : Nat) : (withCapacity capacity).Sound p := by
  refine ⟨Heap.known_empty, fun k r hr => ?_, fun k r hr => ?_⟩
  all_goals
    rw [withCapacity, Records.record?_withCapacity] at hr
    cases hr

/-- The machine that a script starts with. -/
def launch? (m : Memory) (refs : ReferenceSet) (e : Executable) : Option Machine :=
  Machine.start? (m.link refs e.code).program ⟨.fragment m.program.fragments.size, e.entry⟩ m.records m.heap

/-- What a script runs against. -/
def env (m : Memory) (refs : ReferenceSet) (e : Executable) (options : InvokeOptions) : Machine.Env :=
  ⟨(m.link refs e.code).program, max options.maxCallDepth 1⟩

variable {refs : ReferenceSet} {e : Executable} {options : InvokeOptions} {watch : Watch} {fuel : Nat}

/-- A script is run from the machine that it starts with. -/
theorem run_eq_some {done : Completion} : m.run refs e options watch fuel = some done ↔
    ∃ machine ended, m.launch? refs e = some machine ∧
      Invocation.drive (m.env refs e options) (max options.slice 1) watch fuel 0 machine = some ended ∧
      done = ⟨ended.outcome, ended.machine.output.toList, (m.link refs e.code).after ended.machine⟩ := by
  constructor
  · intro h
    obtain ⟨machine, hmachine, h⟩ := Option.bind_eq_some_iff.mp h
    obtain ⟨ended, hended, h⟩ := Option.bind_eq_some_iff.mp h
    cases h
    exact ⟨machine, ended, hmachine, hended, rfl⟩
  · rintro ⟨machine, ended, hmachine, hended, rfl⟩
    exact Option.bind_eq_some_iff.mpr ⟨machine, hmachine, Option.bind_eq_some_iff.mpr ⟨ended, hended, rfl⟩⟩

/-- A script that ended has come to a machine whose lists and variables it left behind. If it failed, that
    machine failed, or the script was stopped there. -/
theorem run_reaches {done : Completion} (h : m.run refs e options watch fuel = some done) : ∃ start k m',
    m.launch? refs e = some start ∧ Machine.Steps (m.env refs e options) k start m' ∧
    done.memory = ⟨(m.link refs e.code).program, m'.heap, m'.records⟩ ∧
    ∀ fault, done.outcome = .error fault →
      (∃ m'', Machine.step (m.env refs e options) m' = .faulted fault.error m'') ∨
        ∃ interrupt : Interrupt, fault.error = interrupt.error := by
  obtain ⟨start, ended, hstart, hended, rfl⟩ := run_eq_some.mp h
  obtain ⟨k, m', steps, hend | ⟨interrupt, time, -, rfl⟩⟩ := Invocation.drive_steps hended
  · obtain ⟨hheap, hrecords⟩ := Machine.ofEnd_memory hend
    refine ⟨start, k, m', hstart, steps, by rw [Memory.after, hheap, hrecords], fun fault hfault => .inl ?_⟩
    cases hstep : Machine.step (m.env refs e options) m' with
    | running m₁ | sleeping millis m₁ | finished v m₁ =>
      rw [hstep] at hend
      cases hend
      all_goals cases hfault
    | faulted error m₁ =>
      rw [hstep] at hend
      cases hend
      cases hfault
      exact ⟨m₁, rfl⟩
  · refine ⟨start, k, m', hstart, steps, rfl, fun fault hfault => .inr ⟨interrupt, ?_⟩⟩
    cases hfault
    rfl

/-- If the machine that a script starts with comes to an end, so does every run of it that nothing stops. -/
theorem run_ends {start m' : Machine} {k : Nat} {ended : Invocation} (hstart : m.launch? refs e = some start)
    (steps : Machine.Steps (m.env refs e options) k start m')
    (hend : Invocation.ofEnd (Machine.step (m.env refs e options) m') = some ended) :
    (∃ fuel done, m.run refs e options Invocation.undisturbed fuel = some done) ∧
    ∀ fuel done, m.run refs e options Invocation.undisturbed fuel = some done →
      done = ⟨ended.outcome, ended.machine.output.toList, (m.link refs e.code).after ended.machine⟩ := by
  constructor
  · have hslice : 0 < max options.slice 1 := by omega
    obtain ⟨fuel, hdrive⟩ := Invocation.drive_of_steps hslice steps hend 0
    exact ⟨fuel, _, run_eq_some.mpr ⟨start, ended, hstart, hdrive, rfl⟩⟩
  · intro fuel done hrun
    obtain ⟨start', ended', hstart', hdrive, rfl⟩ := run_eq_some.mp hrun
    obtain rfl := Option.some.inj (hstart.symm.trans hstart')
    -- There is only one way to the end, and nothing else stops the run.
    obtain ⟨k', m'', steps', hend' | ⟨interrupt, time, hwatch, -⟩⟩ := Invocation.drive_steps hdrive
    · obtain rfl := Machine.Steps.unique_end (Invocation.next?_of_end hend) (Invocation.next?_of_end hend') steps steps'
      obtain rfl := Option.some.inj (hend.symm.trans hend')
      rfl
    · cases hwatch

/-- A script that starts on sound code and sound memory leaves sound memory, and its error does not blame
    the code. -/
theorem run_sound {done : Completion} (hp : (m.link refs e.code).program.Sound)
    (hm : m.Sound (m.link refs e.code).program) (h : m.run refs e options watch fuel = some done) :
    done.memory.program = (m.link refs e.code).program ∧ done.memory.Sound done.memory.program ∧
      ∀ fault, done.outcome = .error fault → fault.error.Valid := by
  obtain ⟨start, k, m', hstart, steps, hmemory, hfaults⟩ := run_reaches h
  have sound : m'.Sound (m.env refs e options).program :=
    (Machine.start_sound hp hm.heap hm.records hm.shaped hstart).steps hp steps
  rw [hmemory]
  refine ⟨rfl, ⟨sound.holdings.heap, sound.holdings.records, sound.holdings.shaped⟩, fun fault hfault => ?_⟩
  obtain ⟨m'', hstep⟩ | ⟨interrupt, herror⟩ := hfaults fault hfault
  · exact Machine.Sound.fault hp sound hstep
  · rw [herror]
    exact Interrupt.valid interrupt

end Memory

/-! ### Sessions -/

namespace Session

/-- What may happen to a session and to the cache that it uses, and the reports so far. Other sessions may
    use the same cache. The libraries and the accepted submissions have a property, and their images can be
    written. -/
inductive Run (good : ScriptUnit → Prop) (options : SessionOptions) : List Report → Session → Cache → Prop where
  | start (locations : List String) : Run good options [] (.start options) (.start locations)
  | submit {reports : List Report} {s s' : Session} {cache cache' : Cache} {interference : Interference} {fuel : Nat}
      {supply : Supply} {source : String} {report : Report} (run : Run good options reports s cache)
      (builds : supply.Builds good)
      (units : ∀ refs c, cache'.loaded = some refs → s.chain.compile source refs = .ok c → c.unit.Encodes ∧ good c.unit)
      (submitted : s.submitUnder interference fuel supply cache source = some (report, s', cache')) :
      Run good options (reports ++ [report]) s' cache'
  | reset {reports : List Report} {s : Session} {cache : Cache} (run : Run good options reports s cache) :
      Run good options reports s.reset cache
  | cancel {reports : List Report} {s : Session} {cache : Cache} (run : Run good options reports s cache) :
      Run good options reports s.cancel cache
  | share {reports : List Report} {s : Session} {cache : Cache} {supply : Supply} {cancelled : Bool}
      (run : Run good options reports s cache) (builds : supply.Builds good) :
      Run good options reports s (cache.ensure supply cancelled).2

/-- The units of a session are linked, its memory is in order, and its libraries are those of the cache. -/
structure Sound (good : ScriptUnit → Prop) (s : Session) (cache : Cache) : Prop where
  built : cache.Built good
  references : s.memory.program = ⟨#[], #[]⟩ ∨ cache.loaded = some s.memory.program.references
  linked : Linked s.memory.program.references s.chain.units s.memory.program.fragments
  units : ∀ u ∈ s.chain.units, good u
  memory : s.memory.Sound s.memory.program

variable {good : ScriptUnit → Prop} {s s' : Session} {cache cache' : Cache}

theorem Sound.congr (h : s.Sound good cache) (hchain : s'.chain = s.chain) (hmemory : s'.memory = s.memory) :
    s'.Sound good cache := by
  obtain ⟨built, references, linked, units, memory⟩ := h
  rw [← hchain, ← hmemory] at *
  exact ⟨built, references, linked, units, memory⟩

theorem Sound.fresh (hcache : cache.Built good) (hchain : s.chain.units = []) {capacity : Nat}
    (hmemory : s.memory = .withCapacity capacity) : s.Sound good cache := by
  refine ⟨hcache, .inl ?_, ?_, ?_, ?_⟩
  · rw [hmemory]
    rfl
  · rw [hmemory, hchain]
    exact linked_empty
  · rw [hchain]
    exact fun u hu => nomatch hu
  · rw [hmemory]
    exact Memory.sound_withCapacity capacity

theorem Sound.share {supply : Supply} (h : s.Sound good cache) (cancelled : Bool) (builds : supply.Builds good) :
    s.Sound good (cache.ensure supply cancelled).2 := by
  obtain ⟨built, -, kept⟩ := Cache.ensure_built cancelled builds h.built
  exact ⟨built, h.references.imp_right (kept _), h.linked, h.units, h.memory⟩

/-- What an accepted submission runs against is sound. -/
theorem Sound.accept (h : s.Sound good cache) {refs : ReferenceSet} (hrefs : cache.loaded = some refs)
    {source : String} {c : Compiled} (hc : s.chain.compile source refs = .ok c) (encodes : c.unit.Encodes) :
    Linked refs (s.accept c).chain.units (s.memory.program.fragments.push c.executable.code) ∧
      ((s.accept c).memory.link refs c.executable.code).program.Sound ∧
      (s.accept c).memory.Sound ((s.accept c).memory.link refs c.executable.code).program := by
  have linked : Linked refs s.chain.units s.memory.program.fragments ∧
      s.memory.program.Extends ⟨refs, s.memory.program.fragments.push c.executable.code⟩ := by
    have linked := h.linked
    -- Nothing was linked so far, or it was linked against the same libraries.
    obtain hnone | hsome := h.references
    · rw [hnone] at linked ⊢
      have hempty : s.chain.units = [] := List.eq_nil_of_length_eq_zero linked.size.symm
      rw [hempty]
      exact ⟨linked_empty, Program.extends_empty _⟩
    · rw [hsome] at hrefs
      cases hrefs
      exact ⟨linked, Program.extends_push ..⟩
  obtain ⟨follows, -⟩ := Chain.compile_follows hc encodes
  have pushed := linked.1.push follows
  exact ⟨pushed, pushed.sound (h.built refs hrefs), (h.memory.mono linked.2).reserve _⟩

/-- Running an accepted submission leaves a sound session, and its ending does not blame the code. -/
theorem Sound.ran (h : s.Sound good cache) {refs : ReferenceSet} (hrefs : cache.loaded = some refs) {source : String}
    {c : Compiled} (hc : s.chain.compile source refs = .ok c) (encodes : c.unit.Encodes) (hgood : good c.unit)
    {options : InvokeOptions} {watch : Watch} {fuel : Nat} {done : Completion}
    (run : (s.accept c).memory.run refs c.executable options watch fuel = some done) :
    (s.ran c done.memory).Sound good cache ∧ ∀ fault, done.outcome = .error fault → fault.error.Valid := by
  obtain ⟨linked, program, memory⟩ := h.accept hrefs hc encodes
  obtain ⟨hprogram, sound, valid⟩ := Memory.run_sound program memory run
  refine ⟨⟨h.built, .inr ?_, ?_, fun u hu => ?_, sound⟩, valid⟩
  · rw [Session.ran, hprogram]
    exact hrefs
  · rw [Session.ran, hprogram]
    exact linked
  · rcases List.mem_cons.mp hu with rfl | hu
    · exact hgood
    · exact h.units u hu

/-- A submission leaves a sound session, and its report does not blame the code. -/
theorem Sound.submit (h : s.Sound good cache) {interference : Interference} {fuel : Nat} {supply : Supply}
    {source : String} {report : Report} (builds : supply.Builds good)
    (units : ∀ refs c, cache'.loaded = some refs → s.chain.compile source refs = .ok c → c.unit.Encodes ∧ good c.unit)
    (submitted : s.submitUnder interference fuel supply cache source = some (report, s', cache')) :
    s'.Sound good cache' ∧ ∀ fault, report.outcome = .executionFailed fault → fault.error.Valid := by
  have shared := h.share interference.cancelLoading builds
  obtain ⟨-, given, -⟩ := Cache.ensure_built interference.cancelLoading builds h.built
  cases submitUnder_submits submitted with
  | unloaded missing failed =>
    rw [failed] at shared
    exact ⟨shared.congr rfl rfl, fun fault hfault => nomatch hfault⟩
  | rejected loaded failed | unemitted loaded failed =>
    rw [loaded] at shared
    exact ⟨shared.congr rfl rfl, fun fault hfault => nomatch hfault⟩
  | executed loaded accepted run value =>
    rw [loaded] at shared given
    obtain ⟨encodes, hgood⟩ := units _ _ (given _ rfl) accepted
    obtain ⟨sound, -⟩ := shared.ran (given _ rfl) accepted encodes hgood run
    exact ⟨sound, fun fault hfault => nomatch hfault⟩
  | faulted loaded accepted run error =>
    rw [loaded] at shared given
    obtain ⟨encodes, hgood⟩ := units _ _ (given _ rfl) accepted
    obtain ⟨sound, valid⟩ := shared.ran (given _ rfl) accepted encodes hgood run
    refine ⟨sound, fun fault hfault => ?_⟩
    cases hfault
    exact valid _ error

/-- Whatever happens to a session, it stays sound, and no report blames the code. -/
theorem Run.sound {options : SessionOptions} {reports : List Report} (run : Run good options reports s cache) :
    s.Sound good cache ∧
      ∀ report ∈ reports, ∀ fault, report.outcome = .executionFailed fault → fault.error.Valid := by
  induction run with
  | start locations =>
    exact ⟨.fresh (fun refs h => (nomatch h)) rfl rfl, fun report hreport => nomatch hreport⟩
  | submit run builds units submitted ih =>
    obtain ⟨sound, valid⟩ := ih.1.submit builds units submitted
    refine ⟨sound, fun report hreport => ?_⟩
    rcases List.mem_append.mp hreport with hreport | hreport
    · exact ih.2 report hreport
    · rw [List.mem_singleton.mp hreport]
      exact valid
  | reset run ih => exact ⟨.fresh ih.1.built rfl rfl, ih.2⟩
  | cancel run ih => exact ⟨ih.1.congr rfl rfl, ih.2⟩
  | share run builds ih => exact ⟨ih.1.share _ builds, ih.2⟩

/-- The machines that a session comes to when a source text is submitted to it and accepted, and what they
    run against. -/
def Visits (s : Session) (cache : Cache) (source : String) (env : Machine.Env) (m : Machine) : Prop :=
  ∃ refs c start n, cache.loaded = some refs ∧ s.chain.compile source refs = .ok c ∧ c.unit.Encodes ∧
    (s.accept c).memory.launch? refs c.executable = some start ∧
    env = (s.accept c).memory.env refs c.executable s.options.invoke ∧ Machine.Steps env n start m

theorem Visits.steps {source : String} {env : Machine.Env} {m m' : Machine} {k : Nat} (visits : s.Visits cache source env m)
    (more : Machine.Steps env k m m') : s.Visits cache source env m' := by
  obtain ⟨refs, c, start, n, hrefs, hc, encodes, hstart, henv, steps⟩ := visits
  exact ⟨refs, c, start, n + k, hrefs, hc, encodes, hstart, henv, steps.trans more⟩

theorem Visits.sound {source : String} {env : Machine.Env} {m : Machine} (visits : s.Visits cache source env m)
    (h : s.Sound good cache) : env.program.Sound ∧ m.Sound env.program := by
  obtain ⟨refs, c, start, n, hrefs, hc, encodes, hstart, rfl, steps⟩ := visits
  obtain ⟨-, program, memory⟩ := h.accept hrefs hc encodes
  have sound := Machine.start_sound program memory.heap memory.records memory.shaped hstart
  exact ⟨program, Machine.Sound.steps program sound steps⟩

/-! ### A small session -/

/-- A library with one function. -/
def smallLibrary : String := "fn twice(x) \x7b x + x \x7d"

def smallSupply : Supply := fun _ _ =>
  match Library.build "lib" smallLibrary with
  | .ok bytes => .ok bytes
  | .error cause => .error (.build "lib" cause)

theorem smallSupply_builds (hgood : ∀ u, ScriptUnit.create (.library "lib") smallLibrary #[] [] [] = .ok u → good u) :
    smallSupply.Builds good := by
  intro earlier location bytes h
  unfold smallSupply at h
  split at h
  · rename_i bytes' hbuild
    cases h
    have encodes : ∀ u, ScriptUnit.create (.library "lib") smallLibrary #[] [] [] = .ok u → u.Encodes := by decide +kernel
    exact ⟨"lib", smallLibrary, hbuild, fun u hu => ⟨encodes u hu, hgood u hu⟩⟩
  · cases h

def smallOptions : SessionOptions := ⟨["lib"], 2, .default⟩

/-- Submit source texts one after the other, as long as they are accepted and end in time. -/
def submitAll (good : ScriptUnit → Prop) [DecidablePred good] :
    List String → Session → Cache → Option (List Report × Session × Cache)
  | [], s, cache => some ([], s, cache)
  | source :: rest, s, cache => do
    let (report, s', cache') ← s.submitUnder ⟨false, Invocation.undisturbed⟩ 3 smallSupply cache source
    let refs ← cache'.loaded
    let c ← (s.chain.compile source refs).toOption
    guard (c.unit.Encodes ∧ good c.unit)
    let (reports, s'', cache'') ← submitAll good rest s' cache'
    return (report :: reports, s'', cache'')

theorem submitAll_run [DecidablePred good] {options : SessionOptions} {sources : List String}
    {reports reports' : List Report}
    (hlibrary : ∀ u, ScriptUnit.create (.library "lib") smallLibrary #[] [] [] = .ok u → good u)
    (run : Run good options reports s cache) (h : submitAll good sources s cache = some (reports', s', cache')) :
    Run good options (reports ++ reports') s' cache' := by
  induction sources generalizing reports reports' s cache with
  | nil =>
    cases h
    rwa [List.append_nil]
  | cons source rest ih =>
    obtain ⟨⟨report, s₁, cache₁⟩, hsubmit, h⟩ := Option.bind_eq_some_iff.mp h
    obtain ⟨refs, hrefs, h⟩ := Option.bind_eq_some_iff.mp h
    obtain ⟨c, hc, h⟩ := Option.bind_eq_some_iff.mp h
    obtain ⟨_, hencodes, h⟩ := Option.bind_eq_some_iff.mp h
    obtain ⟨⟨reports₁, s₂, cache₂⟩, hrest, h⟩ := Option.bind_eq_some_iff.mp h
    cases h
    have units : ∀ refs' c', cache₁.loaded = some refs' → s.chain.compile source refs' = .ok c' →
        c'.unit.Encodes ∧ good c'.unit := by
      intro refs' c' hrefs' hc'
      obtain rfl := Option.some.inj (hrefs.symm.trans hrefs')
      rw [hc'] at hc
      cases hc
      exact (Option.guard_eq_some' _).mp hencodes
    have run := ih (run.submit (smallSupply_builds hlibrary) units hsubmit) hrest
    rwa [List.append_assoc] at run

/-- A submission that leaves a loop from within an operand, and one that asks for an element that is not
    there. -/
def smallSources : List String :=
  ["let xs = [1]; fn f(n) \x7b while true \x7b 1 + \x7b break; 2 \x7d; \x7d twice(n) \x7d f(3) + len(xs)", "f(xs[5])"]

/-- The reports, the session and the cache after the small session. -/
def small : Option (List Report × Session × Cache) :=
  submitAll (fun _ => True) smallSources (.start smallOptions) (.start ["lib"])

/-- What a source text starts with that is submitted next. -/
def next? (s : Session) (cache : Cache) (source : String) : Option (Machine.Env × Machine) := do
  let refs ← cache.loaded
  let c ← (s.chain.compile source refs).toOption
  guard c.unit.Encodes
  let start ← (s.accept c).memory.launch? refs c.executable
  return ((s.accept c).memory.env refs c.executable s.options.invoke, start)

theorem next?_visits {source : String} {env : Machine.Env} {m : Machine} (h : s.next? cache source = some (env, m)) :
    s.Visits cache source env m := by
  obtain ⟨refs, hrefs, h⟩ := Option.bind_eq_some_iff.mp h
  obtain ⟨c, hc, h⟩ := Option.bind_eq_some_iff.mp h
  obtain ⟨_, hencodes, h⟩ := Option.bind_eq_some_iff.mp h
  obtain ⟨start, hstart, h⟩ := Option.bind_eq_some_iff.mp h
  cases h
  exact ⟨refs, c, m, 0, hrefs, except_toOption_eq_some.mp hc, (Option.guard_eq_some' _).mp hencodes, hstart, rfl, .refl m⟩

/-! ### Accepted code does not go wrong -/

/-- Accepted code does not go wrong. No report of a session is about an invalid program; and wherever a
    submission comes to, the next instruction is there, it takes operands of its own function only, and it
    does not end in an invalid program. -/
theorem Run.never_invalid {options : SessionOptions} {reports : List Report}
    (run : Run (fun _ => True) options reports s cache) :
    (∀ report ∈ reports, ∀ fault, report.outcome = .executionFailed fault → ∀ cause, fault.error ≠ .invalidProgram cause) ∧
    ∀ source env m, s.Visits cache source env m →
      (∃ i, m.frame.routine.Holds m.frame.pc i ∧ m.frame.base + i.pops ≤ m.stack.height) ∧
      ∀ e m', Machine.step env m = .faulted e m' → ∀ cause, e ≠ .invalidProgram cause := by
  obtain ⟨sound, valid⟩ := run.sound
  refine ⟨fun report hreport fault hfault cause heq => ?_, fun source env m visits => ?_⟩
  · have := valid report hreport fault hfault
    rw [heq] at this
    exact this
  · obtain ⟨program, machine⟩ := visits.sound sound
    refine ⟨?_, fun e m' hstep cause heq => ?_⟩
    · obtain ⟨sites, depth, flows, hat, -⟩ := machine.needs
      have hlt := Machine.Flows.lt flows hat
      have hi : m.frame.routine.Holds m.frame.pc m.frame.routine.code[m.frame.pc] := Array.getElem?_eq_getElem hlt
      refine ⟨_, hi, ?_⟩
      rw [m.stack.height_eq]
      exact machine.room hi
    · have := machine.fault program hstep
      rw [heq] at this
      exact this

/-- After the small session, a third submission starts with an instruction that is there. -/
theorem Run.never_invalid_small : ∃ reports s cache env m, small = some (reports, s, cache) ∧
    s.next? cache "twice(f(2))" = some (env, m) ∧ reports.length = 2 ∧
    (∀ report ∈ reports, ∀ fault, report.outcome = .executionFailed fault → ∀ cause, fault.error ≠ .invalidProgram cause) ∧
    ∃ i, m.frame.routine.Holds m.frame.pc i ∧ m.frame.base + i.pops ≤ m.stack.height := by
  have computes : (small.bind fun (reports, s, cache) =>
      if reports.length = 2 then s.next? cache "twice(f(2))" else none).isSome := by decide +kernel
  obtain ⟨⟨env, m⟩, h⟩ := Option.isSome_iff_exists.mp computes
  obtain ⟨⟨reports, s, cache⟩, hsmall, h⟩ := Option.bind_eq_some_iff.mp h
  simp only at h
  split at h
  · rename_i hlength
    have run := submitAll_run (fun _ _ => trivial) (Run.start ["lib"]) hsmall
    obtain ⟨valid, visited⟩ := Run.never_invalid run
    exact ⟨reports, s, cache, env, m, hsmall, h, hlength, valid, (visited _ _ _ (next?_visits h)).1⟩
  · cases h

end Session
end ScriptEngine
