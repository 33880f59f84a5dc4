import Mathlib.Data.List.DropRight
import ScriptEngine.Proofs.LinkedCallees
import ScriptEngine.Proofs.WrittenOnce

/-! Calls of callees that binding knows do not go wrong (`Reached.known_calls`). At every moment the slots of functions
    hold these functions, and the operands of every frame are what its outlook says, also while it waits for
    another function (`Machine.Ready`). So a call finds its callee below the arguments, and the number of arguments
    was checked when it was bound. -/

namespace ScriptEngine
open Relation ScriptEngine.Bound Lowering

/-! ### Operands -/

/-- A value is a function with so many parameters. -/
def Value.Takes (p : Program) (given : Nat) (v : Value) : Prop := ∃ c, v = .function c ∧ p.Takes c given

/-- Operands are what is known of them, the topmost first. -/
def Fits (p : Program) : List (Option Nat) → List Value → Prop
  | [], _ => True
  | _ :: _, [] => False
  | m :: ms, v :: vs => (∀ given, m = some given → v.Takes p given) ∧ Fits p ms vs

section
variable {p : Program} {ms : List (Option Nat)} {vs : List Value}

theorem Fits.drop (h : Fits p ms vs) (n : Nat) : Fits p (ms.drop n) (vs.drop n) := by
  induction n generalizing ms vs with
  | zero => exact h
  | succ n ih =>
    cases ms with
    | nil => trivial
    | cons m ms =>
      cases vs with
      | nil => exact h.elim
      | cons v vs => exact ih h.2

/-- Nothing is known of operands that are pushed. -/
theorem Fits.pushed (h : Fits p ms vs) (pushed : List Value) :
    Fits p (List.replicate pushed.length none ++ ms) (pushed ++ vs) := by
  induction pushed with
  | nil => exact h
  | cons v pushed ih => exact ⟨nofun, ih⟩

/-- Below some operands of which nothing is known. -/
theorem Fits.below {given : Nat} {m : Option Nat} (h : Fits p (List.replicate given none ++ m :: ms) vs) :
    ∃ v rest, vs.drop given = v :: rest ∧ ∀ taken, m = some taken → v.Takes p taken := by
  have hdrop := h.drop given
  rw [drop_replicate_append] at hdrop
  cases hvs : vs.drop given with
  | nil =>
    rw [hvs] at hdrop
    exact hdrop.elim
  | cons v rest =>
    rw [hvs] at hdrop
    exact ⟨v, rest, rfl, hdrop.1⟩

end

section
variable {α : Type} {n k : Nat}

/-- What lies below a height stays while the operands above it change. -/
theorem rtake_append_drop (pushed l : List α) (h : n + k ≤ l.length) : (pushed ++ l.drop k).rtake n = l.rtake n := by
  have hdrop : pushed.length + (l.length - k) - n = pushed.length + (l.length - k - n) := by omega
  have hsum : k + (l.length - k - n) = l.length - n := by omega
  rw [List.rtake, List.rtake, List.length_append, List.length_drop, hdrop, List.drop_append,
    List.drop_eq_nil_of_le (Nat.le_add_right ..), List.nil_append, Nat.add_sub_cancel_left, List.drop_drop, hsum]

theorem rtake_cons (x : α) (l : List α) (h : n ≤ l.length) : (x :: l).rtake n = l.rtake n :=
  rtake_append_drop (k := 0) [x] l h

theorem rtake_length (l : List α) : l.rtake l.length = l := by
  rw [List.rtake, Nat.sub_self, List.drop_zero]

theorem length_rtake (l : List α) (h : n ≤ l.length) : (l.rtake n).length = n := by
  rw [List.rtake, List.length_drop]
  omega

end

/-! ### Frames -/

/-- The slots of functions hold these functions, if they hold anything. -/
def Records.HoldFunctions (units : List ScriptUnit) (rs : Records) : Prop :=
  ∀ record slot v, holdsFunction units record slot = true → rs.load record slot = .ok v →
    v = .function ⟨.fragment record, slot⟩

/-- A frame is ready to go on with a stack: the operands are what is expected, and a function that is about to be
    stored in its slot is there. -/
structure Frame.Ready (units : List ScriptUnit) (p : Program) (f : Frame) (stack : List Value) : Prop where
  expected : ∀ {u : ScriptUnit} {g : Func}, f.Runs units u g → Tidy.block false g.body = true →
    ∃ ms, Expects (f.outlooks units u g) f.pc ms ∧ Fits p ms stack
  installs : ∀ {w : UInt32} {j : UInt16}, f.routine.Holds f.pc (.storeSlot w j) →
    holdsFunction units w.toNat j.toNat = true → ∃ rest, stack = .function ⟨.fragment w.toNat, j.toNat⟩ :: rest

/-- Frames that wait for a function to return are ready for whatever it returns, above a part of the stack. -/
def Waiting (units : List ScriptUnit) (p : Program) : List Value → List Frame → Prop
  | _, [] => True
  | part, f :: fs => (∀ v, f.Ready units p (v :: part)) ∧ Waiting units p (part.rtake f.base) fs

/-- The instruction loads a function with so many parameters. -/
def Instr.LoadsTaking (units : List ScriptUnit) (p : Program) (f : Frame) (given : Nat) : Instr → Prop
  | .loadFunction i => p.Takes ⟨f.callee.home, i.toNat⟩ given
  | .loadImport i => ∀ c, f.code.imports[i.toNat]? = some c → p.Takes c given
  | .loadSlot w j => ∃ index, functionAt? units w.toNat j.toNat = some (given, index)
  | _ => False

section
variable {units : List ScriptUnit} {p : Program} {f : Frame} {stack : List Value} {i : Instr}

/-- What is fetched for a call takes the arguments that it is given. -/
theorem Frame.Foreseen.loads {u : ScriptUnit} {g : Func} {ctx : Binder.Context} (agrees : p.Agrees units)
    (placed : f.Placed p) (runs : f.Runs units u g) (foreseen : f.Foreseen units p u g ctx) {pc given : Nat}
    (h : Fetches f.routine (ctx.rules u.symbols u.program.imports).lax (holdsFunction units) pc given) :
    ∃ i, f.routine.Holds pc i ∧ i.LoadsTaking units p f given := by
  obtain ⟨record, hhome, hu⟩ := runs.unit
  obtain ⟨c, hknown, takes, stands⟩ := h
  cases c with
  | function index =>
    obtain ⟨i, hi, rfl⟩ := stands
    obtain ⟨symbol, hsymbol, hkind⟩ := takes
    obtain ⟨slot, hslot⟩ := Array.mem_iff_getElem?.mp hsymbol
    have hfunction : functionAt? units record slot = some (given, i.toNat) := by
      refine functionAt?_eq_some.mpr ⟨symbol, ?_, hkind⟩
      rw [symbolAt?, hu, Option.bind_some, hslot]
    obtain ⟨rfl, takes⟩ := agrees.function hfunction
    refine ⟨_, hi, ?_⟩
    rw [Instr.LoadsTaking, hhome]
    exact takes
  | imported index =>
    obtain ⟨i, hi, rfl⟩ := stands
    obtain ⟨ref, href, l, e, hl, he, harity⟩ := takes
    refine ⟨_, hi, fun c hc => ?_⟩
    have hcode := placed.code
    rw [hhome] at hcode
    obtain ⟨c', l', e', hc', links⟩ := agrees.imports hu hcode href
    obtain rfl := Option.some.inj (hc.symm.trans hc')
    rw [foreseen.references] at hl
    obtain rfl := Option.some.inj (hl.symm.trans links.library)
    obtain rfl := Option.some.inj (he.symm.trans links.found)
    obtain ⟨position, rfl, hposition⟩ := links.callable
    obtain ⟨r, hr, -, hr'⟩ := links.routine
    have hmodule : p.module? (.library position) = some l.code := by rw [Program.module?, hposition, Option.map_some]
    exact ⟨r, Program.routine?_of_module (c := ⟨_, e.index⟩) hmodule hr, hr'.trans harity⟩
  | load place =>
    cases place with
    | frame index => cases hknown
    | slot record' slot =>
      obtain ⟨w, j, hj, rfl, rfl⟩ := stands
      obtain ⟨symbol, declares, hslot, harity⟩ := takes
      have hsymbol := foreseen.declares declares
      rw [hslot] at hsymbol
      obtain ⟨arity, index, hfunction⟩ := holdsFunction_iff.mp hknown
      obtain ⟨symbol', hsymbol', hkind⟩ := functionAt?_eq_some.mp hfunction
      obtain rfl := Option.some.inj (hsymbol.symm.trans hsymbol')
      obtain rfl := harity arity index hkind
      exact ⟨_, hj, index, hfunction⟩
  | _ => cases hknown

/-- Where a frame goes from an instruction, it is ready as well. -/
theorem Frame.Ready.next (agrees : p.Agrees units) (placed : f.Placed p) (h : f.Ready units p stack)
    (hi : f.routine.Holds f.pc i) {pc : Nat} (hpc : pc ∈ i.exits f.pc) (pushed : List Value) (locals : Array Value)
    (hpushed : pushed.length = i.pushes)
    (takes : ∀ given, i.LoadsTaking units p f given → ∃ v, pushed = [v] ∧ v.Takes p given)
    (loads : ∀ k, i = .loadFunction k → pushed = [.function ⟨f.callee.home, k.toNat⟩]) :
    Frame.Ready units p { f with pc := pc, locals := locals } (pushed ++ stack.drop i.pops) := by
  refine ⟨fun {u g} runs tidy => ?_, fun {w j} hj hfunction => ?_⟩
  · have runs : f.Runs units u g := ⟨runs.unit, runs.function⟩
    obtain ⟨ctx, foreseen⟩ := agrees.foreseen placed runs tidy
    obtain ⟨ms, ⟨call, ho⟩, fits⟩ := h.expected runs tidy
    obtain expects | ⟨given, fetches, hpops, -, expects⟩ := (foreseen.foretold.foresees ho).supplies i hi pc hpc
    · have fits := (fits.drop i.pops).pushed pushed
      rw [hpushed] at fits
      exact ⟨_, expects, fits⟩
    · obtain ⟨i', hi', hloads⟩ := foreseen.loads agrees placed runs fetches
      obtain rfl := Option.some.inj (hi.symm.trans hi')
      obtain ⟨v, rfl, hv⟩ := takes given hloads
      rw [hpops, List.drop_zero]
      exact ⟨_, expects, fun given' hgiven => by cases hgiven; exact hv, fits⟩
  · obtain ⟨hhome, -, before⟩ := agrees.installs placed hj hfunction
    obtain ⟨k, rfl, hk⟩ := before f.pc i hi hpc
    rw [loads k rfl, hhome, hk]
    exact ⟨_, rfl⟩

/-- A function that begins is ready. -/
theorem Frame.ready_enter (agrees : p.Agrees units) {c : Callable} {code : CodeModule} {r : Routine} {args : List Value}
    {base : Nat} (placed : (Frame.enter c code r args base).Placed p) (stack : List Value) :
    (Frame.enter c code r args base).Ready units p stack := by
  refine ⟨fun runs tidy => ?_, fun {w j} hj hfunction => ?_⟩
  · obtain ⟨ctx, foreseen⟩ := agrees.foreseen placed runs tidy
    exact ⟨[], foreseen.foretold.entry, trivial⟩
  · exact absurd (agrees.installs placed hj hfunction).2.1 (Nat.lt_irrefl 0)

end

/-! ### Steps -/

namespace Machine

/-- The frames of a machine are ready, and the slots of functions hold these functions. -/
structure Ready (units : List ScriptUnit) (p : Program) (m : Machine) : Prop where
  frame : m.frame.Ready units p m.stack.items
  waiting : Waiting units p (m.stack.items.rtake m.frame.base) m.callers.items
  records : m.records.HoldFunctions units

section
variable {env : Env} {m m' : Machine} {i : Instr} {units : List ScriptUnit} {records : Records}

/-- What an instruction loads for a call. -/
theorem Does.loads (agrees : env.program.Agrees units) (hrecords : m.records.HoldFunctions units) {given : Nat}
    (loads : i.LoadsTaking units env.program m.frame given) (h : Does env m i m') :
    ∃ v, m'.stack.items = v :: m.stack.items ∧ v.Takes env.program given := by
  cases h with
  | loadFunction => exact ⟨_, rfl, _, rfl, loads⟩
  | loadImport found => exact ⟨_, rfl, _, rfl, loads _ found⟩
  | loadSlot found =>
    obtain ⟨index, hfunction⟩ := loads
    obtain ⟨rfl, takes⟩ := agrees.function hfunction
    exact ⟨_, rfl, _, hrecords _ _ _ (holdsFunction_iff.mpr ⟨_, _, hfunction⟩) found, takes⟩
  | _ => exact loads.elim

theorem Does.loadsFunction {k : UInt16} (h : Does env m (.loadFunction k) m') :
    m'.stack.items = .function ⟨m.frame.callee.home, k.toNat⟩ :: m.stack.items := by
  cases h with
  | loadFunction => rfl

/-- A slot of a function gets this function. -/
theorem Assigns.holdFunctions (assigns : m.Assigns i records) (hi : m.frame.routine.Holds m.frame.pc i)
    (ready : m.Ready units env.program) : records.HoldFunctions units := by
  cases assigns with
  | nothing => exact ready.records
  | @record own hown =>
    intro w j v hfunction hload
    by_cases heq : w = own
    · rw [heq] at hload
      exact absurd hload (Records.not_load_fresh (by rw [Records.record?_start, if_pos rfl]))
    · rw [Records.load_eq_ok, Records.record?_start, if_neg heq, ← Records.load_eq_ok] at hload
      exact ready.records w j v hfunction hload
  | @slot w j v rest _ top stored =>
    obtain rfl := Records.store_eq_ok stored
    intro w' j' v' hfunction hload
    by_cases hsame : w' = w.toNat ∧ j' = j.toNat
    · obtain ⟨rfl, rfl⟩ := hsame
      obtain ⟨rest', hstack⟩ := ready.frame.installs hi hfunction
      obtain rfl := (List.cons_eq_cons.mp (top.symm.trans hstack)).1
      obtain ⟨r', hr', hv'⟩ := Records.load_eq_ok.mp hload
      rw [Records.record?_put, if_pos rfl] at hr'
      obtain ⟨r, -, rfl⟩ := Option.map_eq_some_iff.mp hr'
      rw [Array.getElem?_setIfInBounds, if_pos rfl] at hv'
      split at hv'
      · exact (Option.some.inj (Option.some.inj hv')).symm
      · cases hv'
    · exact ready.records w' j' v' hfunction ((Records.load_put_of_ne hsame).mp hload)

/-- A step leaves a machine ready. -/
theorem Ready.next (agrees : env.program.Agrees units) (sound : m.Sound env.program) (placed : m.Placed env.program)
    (h : m.Ready units env.program) (next : Next env m m') : m'.Ready units env.program := by
  have placed' := placed.next next
  obtain ⟨i, hi, shape⟩ := next_does next
  obtain ⟨i', hi', assigns⟩ := next_assigns next
  obtain rfl : i = i' := Option.some.inj (hi.symm.trans hi')
  have records := assigns.holdFunctions hi h
  have room := sound.room hi
  rcases shape with does | ⟨argc, rfl, enters⟩ | ⟨rfl, leaves⟩
  · have moves := does.moves
    obtain ⟨pc, locals, hframe, hpc, -⟩ := moves.frame
    obtain ⟨pushed, hpushed, hstack⟩ := moves.stack
    -- What is pushed alone is all that is above the old operands.
    have alone {v : Value} (hpops : i.pops = 0) (hv : m'.stack.items = v :: m.stack.items) : pushed = [v] := by
      rw [hstack, hpops, List.drop_zero] at hv
      exact List.append_cancel_right (hv.trans (List.singleton_append ..).symm)
    refine ⟨?_, ?_, records⟩
    · rw [hframe, hstack]
      refine h.frame.next agrees placed.frame hi hpc pushed locals hpushed (fun given loads => ?_) fun k hk => ?_
      · obtain ⟨v, hv, takes⟩ := does.loads agrees h.records loads
        refine ⟨v, alone ?_ hv, takes⟩
        cases i <;> first | rfl | exact loads.elim
      · subst hk
        exact alone rfl does.loadsFunction
    · rw [hframe, hstack, moves.callers, rtake_append_drop pushed _ room]
      exact h.waiting
  · obtain ⟨args, c, code, routine, hargs, hstack, -, -, -, hframe⟩ := enters.frame
    have hdrop : m.stack.items.drop (Instr.call argc).pops = m'.stack.items := by
      rw [hstack, Instr.pops, ← List.drop_drop, List.drop_left' hargs]
      rfl
    have caller (v : Value) : Frame.Ready units env.program { m.frame with pc := m.frame.pc + 1 } (v :: m'.stack.items) := by
      rw [← hdrop]
      exact h.frame.next agrees placed.frame hi (.head _) [v] m.frame.locals rfl (fun _ loads => loads.elim) nofun
    have below : m'.stack.items.rtake m.frame.base = m.stack.items.rtake m.frame.base := by
      rw [← hdrop]
      exact rtake_append_drop [] _ room
    refine ⟨?_, ?_, records⟩
    · have entered := placed'.frame
      rw [hframe] at entered ⊢
      exact Frame.ready_enter agrees entered _
    · rw [hframe, enters.callers]
      show Waiting units env.program (m'.stack.items.rtake m'.stack.items.length) _
      rw [rtake_length]
      exact ⟨caller, below ▸ h.waiting⟩
  · obtain ⟨v, rest, hstack, hstack'⟩ := leaves.stack
    rw [hstack, List.length_cons, Instr.pops] at room
    have room : m.frame.base ≤ rest.length := Nat.le_of_succ_le_succ room
    have waiting := h.waiting
    have waits := sound.waits
    rw [leaves.callers] at waits
    rw [leaves.callers, hstack, rtake_cons v rest room] at waiting
    obtain ⟨-, -, hbase, -⟩ := waits
    have hstack' : m'.stack.items = v :: rest.rtake m.frame.base := hstack'
    refine ⟨?_, ?_, records⟩
    · rw [hstack']
      exact waiting.1 v
    · rw [hstack', rtake_cons v _ (Nat.le_trans hbase (Nat.le_of_eq (length_rtake rest room).symm))]
      exact waiting.2

end
end Machine

/-! ### Errors -/

/-- An intrinsic that accepts the number of arguments does not blame it. -/
theorem Intrinsic.call_ordinary {view : Value.View} {i : Intrinsic} {args : List Value} {e : RuntimeError}
    (accepts : i.arity.accepts args.length = true) (h : i.call view args = .error e) : e.Ordinary := by
  have one (harity : i.arity = .exactly 1) : ∃ v, args = [v] := by
    rw [harity] at accepts
    exact List.length_eq_one_iff.mp (of_decide_eq_true accepts).symm
  cases i with
  | print => cases h
  | len =>
    obtain ⟨v, rfl⟩ := one rfl
    exact length_ordinary (Value.except_map_eq_error h)
  | str | typeOf =>
    obtain ⟨v, rfl⟩ := one rfl
    cases h
  | int =>
    obtain ⟨v, rfl⟩ := one rfl
    exact toInt_ordinary (Value.except_map_eq_error h)
  | float =>
    obtain ⟨v, rfl⟩ := one rfl
    exact toFloat_ordinary (Value.except_map_eq_error h)
  | push =>
    obtain ⟨target, v, rfl⟩ := List.length_eq_two.mp (of_decide_eq_true accepts : 2 = args.length).symm
    exact pushOnto_ordinary h
  | sleep =>
    obtain ⟨v, rfl⟩ := one rfl
    exact sleepFor_ordinary h
  | panic =>
    obtain ⟨v, rfl⟩ := one rfl
    cases h
    trivial

namespace Machine

section
variable {env : Env} {m m' : Machine} {units : List ScriptUnit} {e : RuntimeError}

/-- A function that takes the arguments can be entered, unless too many functions run. -/
theorem calleeFrame_takes {v : Value} {args : List Value} (takes : v.Takes env.program args.length)
    (h : calleeFrame env m v args = .error e) : e = .stackOverflow env.maxDepth := by
  obtain ⟨c, rfl, r, hr, harity⟩ := takes
  obtain ⟨code, hcode, hroutine⟩ := Option.bind_eq_some_iff.mp hr
  unfold calleeFrame at h
  simp only [hcode, hroutine, harity, ne_eq, not_true_eq_false, if_false] at h
  split at h
  · exact (Except.error.inj h).symm
  · cases h

/-- A call of a function that takes the arguments does not blame it. -/
theorem Fails.ordinary_call {argc : UInt8} {v : Value} {rest : List Value}
    (below : m.stack.items.drop argc.toNat = v :: rest) (takes : v.Takes env.program argc.toNat)
    (h : Fails env m (.call argc) e) : e.Ordinary := by
  have room : argc.toNat < m.stack.items.length := Nat.lt_of_not_le fun hle => by
    rw [List.drop_eq_nil_of_le hle] at below
    cases below
  have length : (m.stack.items.take argc.toNat).reverse.length = argc.toNat := by
    rw [List.length_reverse, List.length_take, Nat.min_eq_left (Nat.le_of_lt room)]
  cases h with
  | underflow short => exact absurd room (Nat.not_lt.mpr (Nat.le_of_lt_succ short))
  | call below' refused =>
    obtain ⟨rfl, -⟩ := List.cons.inj (below.symm.trans below')
    rw [calleeFrame_takes (length.symm ▸ takes) refused]
    trivial

theorem Fails.ordinary_intrinsic {i : Intrinsic} {argc : UInt8} (accepts : i.arity.accepts argc.toNat = true)
    (room : argc.toNat ≤ m.stack.items.length) (h : Fails env m (.intrinsic i.id argc) e) : e.Ordinary := by
  have length : (m.stack.items.take argc.toNat).reverse.length = argc.toNat := by
    rw [List.length_reverse, List.length_take, Nat.min_eq_left room]
  cases h with
  | underflow short => exact absurd room (Nat.not_le.mpr short)
  | unknown unnamed =>
    rw [Intrinsic.ofId?_id] at unnamed
    cases unnamed
  | intrinsic named refused =>
    rw [Intrinsic.ofId?_id] at named
    cases named
    exact Intrinsic.call_ordinary (length.symm ▸ accepts) refused

/-- A call of a known callee in a tidy function does not blame the callee. -/
theorem Ready.ordinary {u : ScriptUnit} {g : Func} {ctx : Binder.Context} (sound : m.Sound env.program)
    (h : m.Ready units env.program) (runs : m.frame.Runs units u g) (tidy : Tidy.block false g.body = true)
    (foreseen : m.frame.Foreseen units env.program u g ctx) {o : Outlook}
    (ho : (m.frame.outlooks units u g)[m.frame.pc]? = some o) {callee : Callee} {given : Nat}
    (hcall : o.call = some (callee, given)) (known : callee.isKnown (holdsFunction units) = true)
    (hstep : step env m = .faulted e m') : e.Ordinary := by
  have foresees := foreseen.foretold.foresees ho
  cases callee with
  | value c =>
    obtain ⟨-, ⟨argc, hi, rfl⟩, ms, hoperands⟩ := foresees.value hcall
    obtain ⟨ms', ⟨call', ho'⟩, fits⟩ := h.frame.expected runs tidy
    obtain rfl := Option.some.inj (ho.symm.trans ho')
    have hoperands : ms' = List.replicate argc.toNat none ++ Outlooks.callee (holdsFunction units) c argc.toNat :: ms :=
      hoperands
    have hc : c.isKnown (holdsFunction units) = true := known
    rw [hoperands, Outlooks.callee, if_pos hc] at fits
    obtain ⟨v, rest, hdrop, takes⟩ := fits.below
    exact (step_fails hi hstep).2.ordinary_call hdrop (takes _ rfl)
  | intrinsic i =>
    obtain ⟨accepts, argc, hi, rfl⟩ := foresees.intrinsic hcall
    have room : argc.toNat ≤ m.stack.items.length := Nat.le_of_add_left_le (sound.room hi)
    exact (step_fails hi hstep).2.ordinary_intrinsic accepts room

end
end Machine

/-! ### Sessions -/

section
variable {units : List ScriptUnit} {u : ScriptUnit} {rs : Records}

theorem symbolAt?_cons {record : Nat} (hlt : record < units.length) (slot : Nat) :
    symbolAt? (u :: units) record slot = symbolAt? units record slot := by
  rw [symbolAt?, symbolAt?, List.reverse_cons, List.getElem?_append_left (by rwa [List.length_reverse])]

theorem holdsFunction_cons {record : Nat} (hlt : record < units.length) (slot : Nat) :
    holdsFunction (u :: units) record slot = holdsFunction units record slot := by
  rw [holdsFunction, holdsFunction, functionAt?, functionAt?, symbolAt?_cons hlt]

/-- The slots of a new unit hold nothing yet. -/
theorem Records.HoldFunctions.cons (h : rs.HoldFunctions units) (missing : ∀ k, units.length ≤ k → rs.record? k = none) :
    rs.HoldFunctions (u :: units) := by
  intro record slot v hfunction hload
  rcases Nat.lt_or_ge record units.length with hlt | hge
  · rw [holdsFunction_cons hlt] at hfunction
    exact h record slot v hfunction hload
  · exact absurd hload (Records.not_load_missing (missing record hge))

theorem Records.holdFunctions_withCapacity (capacity : Nat) : (Records.withCapacity capacity).HoldFunctions units :=
  fun _ _ _ _ hload => absurd hload (Records.not_load_missing (Records.record?_withCapacity ..))

theorem Records.HoldFunctions.ensure (h : rs.HoldFunctions units) (needed : Nat) : (rs.ensure needed).HoldFunctions units := by
  intro record slot v hfunction hload
  rw [Records.load_eq_ok, Records.record?_ensure, ← Records.load_eq_ok] at hload
  exact h record slot v hfunction hload

theorem Machine.start_ready {p : Program} {entry : Callable} {heap : Heap} {m : Machine} (agrees : p.Agrees units)
    (hrecords : rs.HoldFunctions units) (h : start? p entry rs heap = some m) : m.Ready units p := by
  have placed := (start_placed h).frame
  obtain ⟨code, hcode, h⟩ := Option.bind_eq_some_iff.mp h
  obtain ⟨r, hr, h⟩ := Option.bind_eq_some_iff.mp h
  cases h
  exact ⟨Frame.ready_enter agrees placed [], trivial, hrecords⟩

end

/-- The slots of functions hold these functions, and the machine that runs is ready. -/
def Moment.Ready : Moment → Prop
  | idle s _ => s.memory.records.HoldFunctions s.chain.units
  | running s _ env m => m.Ready s.chain.units env.program

section
variable {good : ScriptUnit → Prop} {a b : Moment}

theorem Session.Underway.agrees {s : Session} {cache : Cache} {env : Machine.Env} {m : Machine}
    (sound : s.Underway good cache env.program m) (accepted : Moment.Accepted (.running s cache env m)) :
    env.program.Agrees s.chain.units :=
  sound.linked.agrees_units (sound.built _ sound.references) accepted.2

theorem Goes.ready (sound : a.Sound good) (accepted : a.Accepted) (orderly : a.Orderly) (ready : a.Ready)
    (goes : Goes (.built good) a b) : b.Ready := by
  have soundAfter := goes.sound sound
  have acceptedAfter := goes.accepted accepted
  cases goes with
  | @begin s cache cache' supply cancelled source refs c m allowed loaded compiled unit start =>
    have agrees := Session.Underway.agrees soundAfter acceptedAfter
    exact Machine.start_ready agrees ((ready.cons (Memory.Orderly.missing orderly)).ensure _) start
  | step next =>
    obtain ⟨own, -, orderly⟩ := orderly
    exact ready.next (Session.Underway.agrees sound accepted) sound.machine orderly.placed next
  | stop => exact Machine.Ready.records ready
  | settle | share | cancel => exact ready

theorem Reached.ready (reached : Reached (.built good) a) : a.Ready := by
  induction reached with
  | start options => exact Records.holdFunctions_withCapacity options.capacity
  | goes reached goes ih => exact goes.ready reached.sound reached.accepted reached.orderly ih
  | reset => exact Records.holdFunctions_withCapacity _

variable {s : Session} {cache : Cache} {env : Machine.Env} {m : Machine}

/-- Every import is linked to the export that binding finds. And every call in a tidy function is one of its tree: if
    its callee is a function of the unit, an import, an intrinsic or a slot that holds a function of an earlier
    submission for good, then the call never blames the callee or the number of arguments; an import takes as many
    as there are. -/
theorem Reached.known_calls (reached : Reached (.built good) (.running s cache env m)) :
    (∀ (record : Nat) (u : ScriptUnit) (code : CodeModule) (k : Nat) ref, s.chain.units.reverse[record]? = some u → env.program.fragments[record]? = some code →
      u.program.imports[k]? = some ref →
      ∃ c l e, code.imports[k]? = some c ∧ env.program.references.Links ref l e c) ∧
    ∀ (u : ScriptUnit) g i, m.frame.Runs s.chain.units u g → Tidy.block false g.body = true →
      m.frame.routine.Holds m.frame.pc i → i.isCall = true → ∃ o callee given,
        (m.frame.outlooks s.chain.units u g)[m.frame.pc]? = some o ∧ o.call = some (callee, given) ∧
        (callee.isKnown (holdsFunction s.chain.units) = true → ∀ e m', Machine.step env m = .faulted e m' →
          (∀ found, e ≠ .notCallable found) ∧ ∀ name expected received, e ≠ .arityMismatch name expected received) ∧
        ∀ k : Nat, callee = .value (.imported k) → ∃ ref c l e, u.program.imports[k]? = some ref ∧
          m.frame.code.imports[k]? = some c ∧ env.program.references.Links ref l e c ∧ e.arity = given := by
  have sound := reached.sound
  have agrees := Session.Underway.agrees sound reached.accepted
  have ready : m.Ready s.chain.units env.program := reached.ready
  obtain ⟨own, -, orderly⟩ := reached.orderly
  have placed := orderly.placed.frame
  refine ⟨fun record u code k ref hu hcode hk => agrees.imports hu hcode hk, fun u g i runs tidy hi call => ?_⟩
  obtain ⟨ctx, foreseen⟩ := agrees.foreseen placed runs tidy
  obtain ⟨ms, ⟨call?, ho⟩, -⟩ := ready.frame.expected runs tidy
  have foresees := foreseen.foretold.foresees ho
  cases hcall : call? with
  | none => cases call.symm.trans (foresees.other hcall i hi)
  | some call =>
    obtain ⟨callee, given⟩ := call
    refine ⟨_, callee, given, ho, hcall, fun known e m' hstep => ?_, fun k hk => ?_⟩
    · have ordinary := ready.ordinary sound.machine runs tidy foreseen ho hcall known hstep
      constructor
      · rintro found rfl
        exact ordinary
      · rintro name expected received rfl
        exact ordinary
    · subst hk
      obtain ⟨record, hhome, hu⟩ := runs.unit
      have hcode := placed.code
      rw [hhome] at hcode
      obtain ⟨⟨ref, href, l, e, hl, he, harity⟩, -⟩ := foresees.value hcall
      obtain ⟨c, l', e', hc, links⟩ := agrees.imports hu hcode href
      rw [foreseen.references] at hl
      obtain rfl := Option.some.inj (hl.symm.trans links.library)
      obtain rfl := Option.some.inj (he.symm.trans links.found)
      exact ⟨ref, c, l, e, href, hc, links, harity⟩

end

/-- The function of an accepted unit that a frame runs, if it runs one. -/
def Frame.runs? (units : List ScriptUnit) (f : Frame) : Option (ScriptUnit × Func) := do
  let .fragment record := f.callee.home | none
  let u ← units.reverse[record]?
  let g ← u.program.functions[f.callee.index]?
  return (u, g)

theorem Frame.runs?_eq_some {units : List ScriptUnit} {f : Frame} {u : ScriptUnit} {g : Func}
    (h : f.runs? units = some (u, g)) : f.Runs units u g := by
  unfold runs? at h
  split at h
  · rename_i record hhome
    obtain ⟨u', hu, h⟩ := Option.bind_eq_some_iff.mp h
    obtain ⟨g', hg, h⟩ := Option.bind_eq_some_iff.mp h
    cases h
    exact ⟨⟨record, hhome, hu⟩, hg⟩
  · cases h

/-- The outlook of what the function of a frame is about to do. -/
def Frame.outlook? (units : List ScriptUnit) (f : Frame) : Option Outlook := do
  let (u, g) ← f.runs? units
  guard (Tidy.block false g.body = true)
  (f.outlooks units u g)[f.pc]?

theorem Frame.outlook?_eq_some {units : List ScriptUnit} {f : Frame} {o : Outlook} (h : f.outlook? units = some o) :
    ∃ u g, f.Runs units u g ∧ Tidy.block false g.body = true ∧ (f.outlooks units u g)[f.pc]? = some o := by
  obtain ⟨⟨u, g⟩, hruns, h⟩ := Option.bind_eq_some_iff.mp h
  obtain ⟨_, htidy, h⟩ := Option.bind_eq_some_iff.mp h
  exact ⟨u, g, Frame.runs?_eq_some hruns, (Option.guard_eq_some' _).mp htidy, h⟩

/-- A call with one argument of an import, and one of a slot. -/
def Lowering.Outlook.callsImport (k : Nat) : Outlook → Bool
  | ⟨_, some (.value (.imported index), 1)⟩ => index = k
  | _ => false

def Lowering.Outlook.callsSlot (record slot : Nat) : Outlook → Bool
  | ⟨_, some (.value (.load (.slot record' slot')), 1)⟩ => record' = record ∧ slot' = slot
  | _ => false

/-- A function calls an import, and then a function of an earlier submission with the result. -/
theorem Reached.known_calls_both : ∃ s cache env m later,
    Reached (.built fun _ => True) (.running s cache env m) ∧
    Reached (.built fun _ => True) (.running s cache env later) ∧
    m.frame.routine.Holds m.frame.pc (.call 1) ∧ later.frame.routine.Holds later.frame.pc (.call 1) ∧
    (∀ e m', Machine.step env m = .faulted e m' →
      (∀ found, e ≠ .notCallable found) ∧ ∀ name expected received, e ≠ .arityMismatch name expected received) ∧
    (∃ ref c l e, m.frame.code.imports[0]? = some c ∧ env.program.references.Links ref l e c ∧ e.arity = 1) ∧
    ∀ e m', Machine.step env later = .faulted e m' →
      (∀ found, e ≠ .notCallable found) ∧ ∀ name expected received, e ≠ .arityMismatch name expected received := by
  have computes : ((Session.start Session.smallOptions).begin? (fun _ => True) (.start ["lib"])
      "fn inc(x) \x7b x + 1 \x7d").any (fun (s, cache, env, first) => (Machine.after? env 4 first).any fun done =>
        ((s.keep env done).begin? (fun _ => True) cache "fn both(x) \x7b inc(twice(x)) \x7d print(both(3));").any
          fun (s', _, env', first') => (Machine.after? env' 9 first').any fun m =>
            m.frame.routine.code[m.frame.pc]? = some (.call 1) &&
            (m.frame.outlook? s'.chain.units).any (·.callsImport 0) && (Machine.after? env' 5 m).any fun later =>
              later.frame.routine.code[later.frame.pc]? = some (.call 1) && holdsFunction s'.chain.units 0 0 &&
              (later.frame.outlook? s'.chain.units).any (·.callsSlot 0 0)) = true := by
    decide +kernel
  obtain ⟨⟨s, cache, env, first⟩, hbegin, hrun⟩ := (Option.any_eq_true ..).mp computes
  obtain ⟨done, hdone, hrun⟩ := (Option.any_eq_true ..).mp hrun
  obtain ⟨⟨s', cache', env', first'⟩, hagain, hrun⟩ := (Option.any_eq_true ..).mp hrun
  obtain ⟨m, hm, hrun⟩ := (Option.any_eq_true ..).mp hrun
  simp only [Bool.and_eq_true, decide_eq_true_eq] at hrun
  obtain ⟨⟨hcall, hfirst⟩, hrun⟩ := hrun
  obtain ⟨later, hlater, hrun⟩ := (Option.any_eq_true ..).mp hrun
  simp only [Bool.and_eq_true, decide_eq_true_eq] at hrun
  obtain ⟨⟨hcall', hfixed⟩, hsecond⟩ := hrun
  obtain ⟨o, ho, himport⟩ := (Option.any_eq_true ..).mp hfirst
  obtain ⟨o', ho', hslot⟩ := (Option.any_eq_true ..).mp hsecond
  have reached₀ := (Reached.start Session.smallOptions ["lib"]).goes (Session.begin?_goes (fun _ _ => trivial) hbegin)
  have reached₁ := (reached₀.trans (Machine.after?_steps hdone).goes).goes .stop
  have reached₂ := reached₁.goes (Session.begin?_goes (fun _ _ => trivial) hagain)
  have reached := reached₂.trans (Machine.after?_steps hm).goes
  have reached' := reached.trans (Machine.after?_steps hlater).goes
  obtain ⟨u, g, runs, tidy, ho⟩ := Frame.outlook?_eq_some ho
  obtain ⟨u', g', runs', tidy', ho'⟩ := Frame.outlook?_eq_some ho'
  obtain ⟨a, callee, given, ha, hcallee, safe, linked⟩ := (Reached.known_calls reached).2 u g _ runs tidy hcall rfl
  obtain ⟨a', callee', given', ha', hcallee', safe', -⟩ := (Reached.known_calls reached').2 u' g' _ runs' tidy' hcall' rfl
  obtain rfl := Option.some.inj (ho.symm.trans ha)
  obtain rfl := Option.some.inj (ho'.symm.trans ha')
  obtain ⟨rfl, rfl⟩ : callee = .value (.imported 0) ∧ given = 1 := by
    unfold Lowering.Outlook.callsImport at himport
    split at himport
    · cases hcallee
      exact ⟨by rw [of_decide_eq_true himport], rfl⟩
    · cases himport
  obtain rfl : callee' = .value (.load (.slot 0 0)) := by
    unfold Lowering.Outlook.callsSlot at hslot
    split at hslot
    · cases hcallee'
      obtain ⟨rfl, rfl⟩ := of_decide_eq_true hslot
      rfl
    · cases hslot
  obtain ⟨ref, c, l, e, -, hc, links, harity⟩ := linked 0 rfl
  exact ⟨s', cache', env', m, later, reached, reached', hcall, hcall', safe rfl, ⟨ref, c, l, e, hc, links, harity⟩,
    safe' hfixed⟩

end ScriptEngine
