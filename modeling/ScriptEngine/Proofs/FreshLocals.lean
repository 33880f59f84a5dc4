import ScriptEngine.Proofs.FilledLocals
import ScriptEngine.Proofs.WrittenOnce

/-! What the locals of a function hold when it is entered makes no difference, but for its parameters
    (`Reached.fresh_locals`). All code that a session can reach is definite (`Linked.definite`), so what a function reads
    is one of its parameters or was stored in the same call (`Machine.Accounted`). -/

namespace ScriptEngine
open ScriptEngine.Bound Lowering

/-! ### Code -/

section
variable {refs : ReferenceSet} {units : List ScriptUnit} {fragments : Array CodeModule} {u : ScriptUnit}

/-- The routines of an image are definite, if the functions that they are the code of are settled. -/
theorem definite_of_emitted {kind : UnitKind} {p : Bound.Program} {image : Image} (emitted : Emitted kind p image)
    (settled : ∀ f ∈ p.functions, f.Settled) {i : Nat} {r : Routine} (hr : image.functions[i]? = some r) : r.Definite := by
  have hlt : i < p.functions.length := emitted.stands.size ▸ (Array.getElem?_eq_some_iff.mp hr).1
  exact function_definite (emitted.stands.function (List.getElem?_eq_getElem hlt) hr) (settled _ (List.getElem_mem hlt))

theorem ScriptUnit.create_settled {kind : UnitKind} {source : String} {imports : List String} {earlier : List Declared}
    (h : create kind source refs imports earlier = .ok u) : ∀ f ∈ u.program.functions, f.Settled := by
  unfold create at h
  dsimp only at h
  split at h
  · cases h
  · cases h
    exact Binder.bind_settled _ _

theorem ScriptUnit.Accepted.settled {older : List ScriptUnit} (h : u.Accepted refs older) :
    ∀ f ∈ u.program.functions, f.Settled := by
  obtain ⟨ctx, tree, -, -, -, -, houtput⟩ := h.bound
  have settled := Binder.bind_settled ctx tree
  rw [← houtput] at settled
  exact settled

/-- No code that a session can reach reads a local before it is written. -/
theorem Linked.definite {good : ScriptUnit → Prop} (built : refs.Built good) (linked : Linked refs units fragments)
    (accepted : UnitsAccepted refs units) : Program.Definite ⟨refs, fragments⟩ := by
  intro home code i r hcode hr
  cases home with
  | library k =>
    obtain ⟨l, hl, rfl⟩ := Option.map_eq_some_iff.mp hcode
    obtain ⟨u, holds, -⟩ := built l (Array.mem_of_getElem? hl)
    obtain ⟨name, source, hcreate⟩ := holds.created
    obtain ⟨image, emitted, loaded⟩ := holds.loaded
    exact definite_of_emitted emitted (ScriptUnit.create_settled hcreate) (loaded.functions ▸ hr)
  | fragment k =>
    obtain ⟨newer, u, older, hsplit, -, follows⟩ := linked.unit hcode
    obtain ⟨image, emitted, loaded⟩ := follows.loaded
    exact definite_of_emitted emitted (accepted _ _ _ hsplit).settled (loaded.functions ▸ hr)

end

namespace Machine

/-! ### Calls under way -/

/-- Steps in which the function that runs above `callers` does not return; it may call others. -/
inductive Stays (env : Env) (callers : List Frame) : Machine → Machine → Prop where
  | refl (m : Machine) : Stays env callers m m
  | step {m m' m'' : Machine} (run : Stays env callers m m') (next : Next env m' m'')
      (within : callers <:+ m''.callers.items) : Stays env callers m m''

/-- In the call of a function that runs above `callers`, a local was stored after the start of a run and before a
    machine. -/
def Stored (env : Env) (start : Machine) (callee : Callable) (callers : List Frame) (x : Nat) (m : Machine) : Prop :=
  ∃ n before behind i, Steps env n start before ∧ before.callers.items = callers ∧ before.frame.callee = callee ∧
    before.frame.routine.Holds before.frame.pc (.storeLocal i) ∧ i.toNat = x ∧ Next env before behind ∧
    Stays env callers behind m

/-- Every local of a function that runs is a parameter or was stored in this call, or a way without a write of it leads to
    where the function is. -/
def Accounted (env : Env) (start m : Machine) : Prop :=
  ∀ f callers, f :: callers <:+ m.frames → ∀ x, f.routine.arity.toNat ≤ x →
    Stored env start f.callee callers x m ∨ f.routine.Unwritten x f.pc

section
variable {env : Env} {start m m' : Machine} {n x : Nat} {callee : Callable} {callers : List Frame}

theorem Stored.next (h : Stored env start callee callers x m) (next : Next env m m')
    (within : callers <:+ m'.callers.items) : Stored env start callee callers x m' := by
  obtain ⟨n, before, behind, i, steps, hcallers, hcallee, hi, hx, first, stays⟩ := h
  exact ⟨n, before, behind, i, steps, hcallers, hcallee, hi, hx, first, stays.step next within⟩

theorem suffix_of_cons_suffix {α : Type} {a b : α} {l l' : List α} (h : a :: l <:+ b :: l') : l <:+ l' := by
  rcases List.suffix_cons_iff.mp h with heq | h
  · exact (List.cons_eq_cons.mp heq).2 ▸ List.suffix_refl l
  · exact (List.suffix_cons a l).trans h

/-- One instruction of the running function writes a local, or leads on the way without a write. -/
theorem Accounted.goesOn {i : Instr} {pc : Nat} (h : Accounted env start m) (steps : Steps env n start m)
    (hi : m.frame.routine.Holds m.frame.pc i) (next : Next env m m') (within : m.callers.items <:+ m'.callers.items)
    (exit : pc ∈ i.exits m.frame.pc) (hx : m.frame.routine.arity.toNat ≤ x) :
    Stored env start m.frame.callee m.callers.items x m' ∨ m.frame.routine.Unwritten x pc := by
  rcases h m.frame m.callers.items (List.suffix_refl _) x hx with stored | way
  · exact .inl (stored.next next within)
  · by_cases hstore : ∃ j, i = .storeLocal j ∧ j.toNat = x
    · obtain ⟨j, rfl, hj⟩ := hstore
      exact .inl ⟨n, m, m', j, steps, rfl, rfl, hi, hj, next, .refl m'⟩
    · exact .inr (.step way hi (fun j hj heq => hstore ⟨j, hj, heq⟩) exit)

theorem Accounted.next (h : Accounted env start m) (steps : Steps env n start m) (next : Next env m m') :
    Accounted env start m' := by
  intro f callers hsuffix x hx
  have within : callers <:+ m'.callers.items := suffix_of_cons_suffix hsuffix
  -- Whatever waited before the step waits after it, or is what runs again.
  have waiting (hwaits : f :: callers <:+ m.callers.items) :
      Stored env start f.callee callers x m' ∨ f.routine.Unwritten x f.pc :=
    (h f callers (hwaits.trans (List.suffix_cons _ _)) x hx).imp_left (·.next next within)
  obtain ⟨i, hi, moves | ⟨argc, rfl, enters⟩ | ⟨rfl, leaves⟩⟩ := next_inv next
  · have same : m'.callers.items = m.callers.items := congrArg Stack.items moves.callers
    obtain ⟨pc, locals, hframe, exit, -⟩ := moves.frame
    rcases List.suffix_cons_iff.mp hsuffix with heq | hwaits
    · obtain ⟨rfl, rfl⟩ := List.cons_eq_cons.mp heq
      rw [same, hframe]
      rw [hframe] at hx
      exact h.goesOn steps hi next (same ▸ List.suffix_refl _) exit hx
    · exact waiting (same ▸ hwaits)
  · rcases List.suffix_cons_iff.mp hsuffix with heq | hwaits
    · obtain ⟨rfl, rfl⟩ := List.cons_eq_cons.mp heq
      obtain ⟨args, c, code, routine, -, -, -, -, -, hframe⟩ := enters.frame
      rw [hframe] at hx ⊢
      exact .inr (.start hx)
    · rw [enters.callers] at hwaits within
      rcases List.suffix_cons_iff.mp hwaits with heq | hwaits
      · obtain ⟨rfl, rfl⟩ := List.cons_eq_cons.mp heq
        have behind : m.callers.items <:+ m'.callers.items := enters.callers ▸ List.suffix_cons _ _
        exact h.goesOn steps hi next behind (.head _) hx
      · exact waiting hwaits
  · exact waiting (leaves.callers ▸ hsuffix)

theorem accounted_start {p : Program} {entry : Callable} {records : Records} {heap : Heap}
    (hstart : start? p entry records heap = some start) : Accounted env start start := by
  obtain ⟨code, -, h⟩ := Option.bind_eq_some_iff.mp hstart
  obtain ⟨routine, -, h⟩ := Option.bind_eq_some_iff.mp h
  cases h
  intro f callers hsuffix x hx
  rcases List.suffix_cons_iff.mp hsuffix with heq | hnil
  · obtain ⟨rfl, rfl⟩ := List.cons_eq_cons.mp heq
    exact .inr (.start hx)
  · cases List.suffix_nil.mp hnil

end
end Machine

/-! ### Sessions -/

theorem Machine.accounted_steps {env : Env} {p : Program} {entry : Callable} {records : Records} {heap : Heap} {n : Nat}
    {start m : Machine} (hstart : start? p entry records heap = some start) (steps : Steps env n start m) :
    Accounted env start m := by
  have kept := steps.keeps (P := fun a => (∃ k, Steps env k start a) ∧ Accounted env start a)
    (fun ⟨⟨k, path⟩, accounted⟩ next => ⟨⟨k + 1, path.trans (.one next)⟩, accounted.next path next⟩)
    ⟨⟨0, .refl start⟩, accounted_start hstart⟩
  exact kept.2

/-- Where a local is read that is no parameter, the same call has stored it. -/
theorem Machine.stored_of_load {env : Env} (definite : env.program.Definite) {entry : Callable} {records : Records}
    {heap : Heap} {n : Nat} {start m : Machine} {j : UInt16} (hstart : start? env.program entry records heap = some start)
    (steps : Steps env n start m) (load : m.frame.routine.Holds m.frame.pc (.loadLocal j))
    (beyond : m.frame.routine.arity.toNat ≤ j.toNat) : Stored env start m.frame.callee m.callers.items j.toNat m := by
  have placed : m.Placed env.program := steps.keeps Placed.next (start_placed hstart)
  have stored := accounted_steps hstart steps m.frame m.callers.items (List.suffix_refl _) j.toNat beyond
  exact stored.resolve_right (definite _ _ _ _ placed.frame.code placed.frame.routine _ j load)

section
variable {good : ScriptUnit → Prop} {s : Session} {cache cache' : Cache}

theorem Reached.definite {env : Machine.Env} {m : Machine} (reached : Reached (.built good) (.running s cache env m)) :
    env.program.Definite := by
  have sound : s.Underway good cache env.program m := reached.sound
  exact sound.linked.definite (sound.built _ sound.references) reached.accepted.2

/-- Nothing depends on what the locals of a function hold when it is entered. Wherever a session has come to, a script
    that it accepts ends in the same way whatever they hold, with the same value or error and trace, the same output and
    the same memory; and where a local is read that is no parameter, it was stored before in the same call. -/
theorem Reached.fresh_locals {supply : Supply} {cancelled : Bool} {source : String} {refs : ReferenceSet} {c : Compiled}
    (reached : Reached (.built good) (.idle s cache)) (allowed : supply.Builds good)
    (loaded : cache.ensure supply cancelled = (.ok refs, cache')) (accepted : s.chain.compile source refs = .ok c)
    (unit : c.unit.Encodes ∧ good c.unit) :
    (∀ fill options watch fuel, (s.accept c).memory.runFilled fill refs c.executable options watch fuel =
      (s.accept c).memory.run refs c.executable options watch fuel) ∧
    ∀ options start n m j, (s.accept c).memory.launch? refs c.executable = some start →
      Machine.Steps ((s.accept c).memory.env refs c.executable options) n start m →
      m.frame.routine.Holds m.frame.pc (.loadLocal j) → m.frame.routine.arity.toNat ≤ j.toNat →
      Machine.Stored ((s.accept c).memory.env refs c.executable options) start m.frame.callee m.callers.items j.toNat m := by
  have definite {start : Machine} (hstart : (s.accept c).memory.launch? refs c.executable = some start)
      (options : InvokeOptions) : ((s.accept c).memory.env refs c.executable options).program.Definite :=
    (reached.goes (.begin allowed loaded accepted unit hstart)).definite
  refine ⟨fun fill options watch fuel => ?_, fun options start n m j hstart steps load beyond => ?_⟩
  · rw [← Memory.runFilled_units]
    exact Memory.runFilled_eq _ _ _ _ _ _ (fun hstart => definite hstart options) fill Machine.units
  · exact Machine.stored_of_load (definite hstart options) hstart steps load beyond

end

/-- The machine is about to read a local that is no parameter. -/
def Machine.loads? (m : Machine) : Option UInt16 :=
  match m.frame.routine.code[m.frame.pc]? with
  | some (.loadLocal j) => if m.frame.routine.arity.toNat ≤ j.toNat then some j else none
  | _ => none

theorem Machine.loads?_eq_some {m : Machine} {j : UInt16} (h : m.loads? = some j) :
    m.frame.routine.Holds m.frame.pc (.loadLocal j) ∧ m.frame.routine.arity.toNat ≤ j.toNat := by
  unfold loads? at h
  split at h
  · rename_i i hi
    split at h
    · rename_i beyond
      cases h
      exact ⟨hi, beyond⟩
    · cases h
  · cases h

/-- A function with a local of its own is called, and the script ends the same if this local holds a text at first. -/
theorem Reached.fresh_locals_stale : ∃ refs c n start m j done,
    (Session.start Session.smallOptions).chain.compile "fn f(n) \x7b let y = n + 1; y * 2 \x7d f(3)" refs = .ok c ∧
    ((Session.start Session.smallOptions).accept c).memory.launch? refs c.executable = some start ∧
    Machine.Steps (((Session.start Session.smallOptions).accept c).memory.env refs c.executable .default) n start m ∧
    m.frame.routine.Holds m.frame.pc (.loadLocal j) ∧
    Machine.Stored (((Session.start Session.smallOptions).accept c).memory.env refs c.executable .default) start
      m.frame.callee m.callers.items j.toNat m ∧
    ((Session.start Session.smallOptions).accept c).memory.run refs c.executable .default Invocation.undisturbed 3 =
      some done ∧
    ((Session.start Session.smallOptions).accept c).memory.runFilled (fun _ _ => .text "stale") refs c.executable .default
      Invocation.undisturbed 3 = some done := by
  have computes : ((Cache.start ["lib"]).ensure Session.smallSupply false).1.toOption.any (fun refs =>
      ((Session.start Session.smallOptions).chain.compile "fn f(n) \x7b let y = n + 1; y * 2 \x7d f(3)" refs).toOption.any
        fun c =>
          let memory := ((Session.start Session.smallOptions).accept c).memory
          decide c.unit.Encodes && (memory.run refs c.executable .default Invocation.undisturbed 3).isSome &&
            (memory.launch? refs c.executable).any fun start =>
              (Machine.after? (memory.env refs c.executable .default) 10 start).any fun m => m.loads?.isSome) = true := by
    decide +kernel
  obtain ⟨refs, hrefs, computes⟩ := (Option.any_eq_true ..).mp computes
  obtain ⟨c, hc, computes⟩ := (Option.any_eq_true ..).mp computes
  simp only [Bool.and_eq_true, decide_eq_true_eq] at computes
  obtain ⟨⟨encodes, ends⟩, runs⟩ := computes
  obtain ⟨start, hstart, hm⟩ := (Option.any_eq_true ..).mp runs
  obtain ⟨m, hm, hloads⟩ := (Option.any_eq_true ..).mp hm
  obtain ⟨j, hj⟩ := Option.isSome_iff_exists.mp hloads
  obtain ⟨done, hdone⟩ := Option.isSome_iff_exists.mp ends
  obtain ⟨load, beyond⟩ := Machine.loads?_eq_some hj
  have accepted := except_toOption_eq_some.mp hc
  have steps := Machine.after?_steps hm
  obtain ⟨same, stored⟩ := Reached.fresh_locals (.start Session.smallOptions ["lib"])
    (Session.smallSupply_builds (fun _ _ => trivial) : Session.smallSupply.Builds fun _ => True)
    (Prod.ext (except_toOption_eq_some.mp hrefs) rfl) accepted ⟨encodes, trivial⟩
  exact ⟨refs, c, 10, start, m, j, done, accepted, hstart, steps, load, stored _ _ _ _ _ hstart steps load beyond, hdone,
    (same _ _ _ _).trans hdone⟩

end ScriptEngine
