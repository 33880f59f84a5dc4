import ScriptEngine.Proofs.MachineValues

/-! What keeps a running machine from going wrong. The code is sound: its operands are in range and the
    depths of its operands are right. The machine is sound: every frame runs a routine of the program, the
    stack is at least as high as the depths of the frames say, every function value stands for a routine,
    and every record has the slots of its submission. A step keeps this, and no step of a sound machine
    ends in an invalid program. -/

namespace ScriptEngine
open Lowering

/-! ### Sound code -/

namespace Program

/-- The submission with a record has a slot at a position. -/
def HasSlot (p : Program) (record slot : Nat) : Prop :=
  ∃ code, p.fragments[record]? = some code ∧ slot < code.slots.size

/-- The number of slots that the record of a submission has. -/
def Slots (p : Program) (record count : Nat) : Prop :=
  ∃ code, p.fragments[record]? = some code ∧ code.slots.size = count

end Program

namespace CodeModule

/-- What an instruction of a routine names is there. -/
def InRange (p : Program) (code : CodeModule) (r : Routine) : Instr → Prop
  | .const i => i.toNat < r.constants.size
  | .loadLocal i | .storeLocal i => i.toNat < r.locals.toNat
  | .loadSlot record i | .storeSlot record i => p.HasSlot record.toNat i.toNat
  | .loadImport i => i.toNat < code.imports.size
  | .loadFunction i => i.toNat < code.functions.size
  | .openRecord => code.record?.isSome
  | .intrinsic id _ => (Intrinsic.ofId? id).isSome
  | _ => True

theorem InRange.inTables {p : Program} {code : CodeModule} {r : Routine} {i : Instr} (h : InRange p code r i) :
    i.InTables code r := by
  cases i with
  | loadSlot | storeSlot => trivial
  | _ => exact h

theorem InRange.hasSlot {p : Program} {code : CodeModule} {r : Routine} {i : Instr} (h : InRange p code r i)
    {record slot : Nat} (hslot : i.slot? = some (record, slot)) : p.HasSlot record slot := by
  cases i with
  | loadSlot | storeSlot =>
    cases hslot
    exact h
  | _ => cases hslot

structure RoutineSound (p : Program) (code : CodeModule) (r : Routine) : Prop where
  flows : ∃ sites, Flows r sites
  params : r.arity.toNat ≤ r.locals.toNat
  operands : ∀ {pc : Nat} {i : Instr}, r.Holds pc i → InRange p code r i

structure Sound (p : Program) (home : Home) (code : CodeModule) : Prop where
  routines : ∀ {i : Nat} {r : Routine}, code.functions[i]? = some r → RoutineSound p code r
  imports : ∀ c ∈ code.imports, p.Has c
  record : ∀ k, code.record? = some k → home = .fragment k

end CodeModule

/-- All code of a program is sound. -/
def Program.Sound (p : Program) : Prop := ∀ {home : Home} {code : CodeModule}, p.module? home = some code → code.Sound p home

/-! ### Sound machines -/

/-- A frame runs a routine of the program, with all its locals. -/
structure Frame.Sound (p : Program) (f : Frame) : Prop where
  code : p.module? f.callee.home = some f.code
  routine : f.code.functions[f.callee.index]? = some f.routine
  locals : f.locals.size = f.routine.locals.toNat
  known : ∀ v ∈ f.locals, v.Known p.Has

/-- The operands of a frame are there on a stack of some height. -/
def Frame.Needs (f : Frame) (height : Nat) : Prop :=
  ∃ sites depth, Flows f.routine sites ∧ At sites f.pc depth ∧ f.base + depth ≤ height

/-- Frames that wait for a function whose operands start at `base`: when it returns, there is one operand
    more. -/
def Waits (p : Program) : Nat → List Frame → Prop
  | _, [] => True
  | base, f :: fs => f.Sound p ∧ f.Needs (base + 1) ∧ f.base ≤ base ∧ Waits p f.base fs

namespace Machine

/-- Everything that a machine holds outside its frames is known, and the records have the right slots. -/
structure Holdings (p : Program) (m : Machine) : Prop where
  stack : ∀ v ∈ m.stack.items, v.Known p.Has
  locals : ∀ v ∈ m.frame.locals, v.Known p.Has
  heap : m.heap.Known p.Has
  records : m.records.Known p.Has
  shaped : m.records.Shaped p.Slots

structure Sound (p : Program) (m : Machine) : Prop where
  frame : m.frame.Sound p
  needs : m.frame.Needs m.stack.items.length
  waits : Waits p m.frame.base m.callers.items
  holdings : m.Holdings p

namespace Holdings

variable {p : Program} {m : Machine}

theorem knows (h : m.Holdings p) : m.Knows p := ⟨h.stack, h.locals, h.heap, h.records⟩

theorem of_knows (h : m.Knows p) (hshaped : m.records.Shaped p.Slots) : m.Holdings p :=
  ⟨h.stack, h.locals, h.heap, h.records, hshaped⟩

end Holdings

/-- Records keep their shape, if a module that starts its record gives it the right slots. -/
theorem Writes.shaped {m : Machine} {shape : Nat → Nat → Prop} {records : Records} (h : Writes m records)
    (hm : m.records.Shaped shape) (hown : ∀ k, m.frame.code.record? = some k → shape k m.frame.code.slots.size) :
    records.Shaped shape := by
  cases h with
  | nothing => exact hm
  | record own => exact hm.start (hown _ own)
  | slot record slot v => exact hm.put record slot v

section
variable {env : Env} {m m' : Machine} {i : Instr}

/-- What the code that a frame runs can name. -/
structure Supported (p : Program) (f : Frame) (i : Instr) : Prop where
  imports : ∀ c ∈ f.code.imports, p.Has c
  functions : ∀ j, j < f.code.functions.size → p.Has ⟨f.callee.home, j⟩
  record : ∀ k, f.code.record? = some k → p.Slots k f.code.slots.size
  operands : CodeModule.InRange p f.code f.routine i

theorem Supported.of_sound {p : Program} {f : Frame} (hp : p.Sound) (hf : f.Sound p) (hi : f.routine.Holds f.pc i) :
    Supported p f i := by
  have hcode := hp hf.code
  have links := Frame.Placed.links ⟨hf.code, hf.routine⟩ hcode.imports
  refine ⟨links.imports, links.functions, fun k hk => ?_, (hcode.routines hf.routine).operands hi⟩
  have hhome := hcode.record k hk
  have hmodule := hf.code
  rw [hhome] at hmodule
  exact ⟨f.code, hmodule, rfl⟩

theorem Supported.links {p : Program} {f : Frame} (h : Supported p f i) : f.Links p := ⟨h.imports, h.functions⟩

/-- An instruction keeps the holdings in order. -/
theorem Does.holdings (hi : Supported env.program m.frame i) (hm : m.Holdings env.program) (h : Does env m i m') :
    m'.Holdings env.program :=
  .of_knows (h.knows hi.links hm.knows) (h.assigns.writes.shaped hm.shaped hi.record)

/-! ### Steps of a sound machine -/

theorem Flows.lt {r : Routine} {sites : List Site} {pc d : Nat} (h : Flows r sites) (hat : At sites pc d) :
    pc < r.code.size := by
  obtain ⟨left, hs⟩ := hat
  exact h.size ▸ (List.getElem?_eq_some_iff.mp hs).1

/-- The operands of the next instruction are there, above the base of the running function. -/
theorem Sound.room (hm : m.Sound env.program) (hi : m.frame.routine.Holds m.frame.pc i) :
    m.frame.base + i.pops ≤ m.stack.items.length := by
  obtain ⟨sites, depth, flows, ⟨left, hs⟩, hheight⟩ := hm.needs
  obtain ⟨hpops, -⟩ := flows.flow hs i hi
  simp only at hpops
  omega

/-- Where control goes in the same function, the operands are there as well. -/
theorem Needs.next {f : Frame} {height next : Nat} (hf : f.Needs height) (hi : f.routine.Holds f.pc i)
    (hnext : next ∈ i.exits f.pc) (locals : Array Value) :
    Frame.Needs { f with pc := next, locals := locals } (height - i.pops + i.pushes) := by
  obtain ⟨sites, depth, flows, ⟨left, hs⟩, hheight⟩ := hf
  obtain ⟨hpops, hexits⟩ := flows.flow hs i hi
  obtain ⟨depth', hat, hdepth⟩ := hexits next hnext
  simp only at hpops hdepth
  exact ⟨sites, depth', flows, hat, by simp only; omega⟩

theorem Moves.sound (hm : m.Sound env.program) (hi : m.frame.routine.Holds m.frame.pc i) (h : Moves m i m')
    (hheld : m'.Holdings env.program) : m'.Sound env.program := by
  obtain ⟨pc, locals, hframe, hpc, hsize⟩ := h.frame
  obtain ⟨pushed, hpushed, hstack⟩ := h.stack
  have hlength : m'.stack.items.length = m.stack.items.length - i.pops + i.pushes := by
    rw [hstack, List.length_append, List.length_drop, hpushed, Nat.add_comm]
  have hknown := hheld.locals
  refine ⟨?_, ?_, ?_, hheld⟩
  · rw [hframe] at hknown ⊢
    exact ⟨hm.frame.code, hm.frame.routine, hsize.trans hm.frame.locals, hknown⟩
  · rw [hframe, hlength]
    exact Needs.next hm.needs hi hpc locals
  · rw [hframe, h.callers]
    exact hm.waits

theorem Enters.sound (hp : env.program.Sound) (hm : m.Sound env.program) {argc : UInt8}
    (hi : m.frame.routine.Holds m.frame.pc (.call argc)) (h : Enters env m argc.toNat m') : m'.Sound env.program := by
  have knows := h.knows hm.holdings.knows
  obtain ⟨args, c, code, routine, hargs, hstack, hcode, hroutine, harity, hframe⟩ := h.frame
  have hlength : m.stack.items.length - (argc.toNat + 1) + 1 = m'.stack.items.length + 1 := by
    rw [hstack, List.length_append, List.length_cons, hargs]
    omega
  have sound := (hp hcode).routines hroutine
  refine ⟨?_, ?_, ?_, .of_knows knows (h.records ▸ hm.holdings.shaped)⟩
  · have hknown := knows.locals
    rw [hframe] at hknown ⊢
    refine ⟨hcode, hroutine, ?_, hknown⟩
    have := sound.params
    simp only [Frame.enter, Array.size_append, List.size_toArray, Array.size_replicate, List.length_reverse]
    omega
  · obtain ⟨sites, flows⟩ := sound.flows
    rw [hframe]
    exact ⟨sites, 0, flows, flows.entry, Nat.le_refl _⟩
  · rw [hframe, h.callers]
    refine ⟨⟨hm.frame.code, hm.frame.routine, hm.frame.locals, hm.frame.known⟩, ?_, ?_, hm.waits⟩
    · have needs := Needs.next hm.needs hi (.head _) m.frame.locals
      rw [Instr.pops, Instr.pushes, hlength] at needs
      exact needs
    · have room := hm.room hi
      simp only [Instr.pops] at room
      simp only [Frame.enter]
      omega

theorem Leaves.sound (hm : m.Sound env.program) (hi : m.frame.routine.Holds m.frame.pc .ret) (h : Leaves m m') :
    m'.Sound env.program := by
  obtain ⟨v, rest, hstack, hstack'⟩ := h.stack
  have room := hm.room hi
  rw [hstack, List.length_cons, Instr.pops] at room
  have waits := hm.waits
  rw [h.callers] at waits
  obtain ⟨hframe, hneeds, -, hwaits⟩ := waits
  refine ⟨hframe, ?_, hwaits, .of_knows (h.knows hm.holdings.knows hframe.known) (h.records ▸ hm.holdings.shaped)⟩
  -- The stack is cut back to where the function began, and the caller needs one operand more than that.
  rw [hstack', List.length_cons, List.length_drop, Nat.sub_sub_self (by omega)]
  exact hneeds

/-- A step of a sound machine leads to a sound machine. -/
theorem Sound.next (hp : env.program.Sound) (hm : m.Sound env.program) (h : Next env m m') : m'.Sound env.program := by
  obtain ⟨i, hi, does | ⟨argc, rfl, enters⟩ | ⟨rfl, leaves⟩⟩ := next_does h
  · exact does.moves.sound hm hi (does.holdings (.of_sound hp hm.frame hi) hm.holdings)
  · exact enters.sound hp hm hi
  · exact leaves.sound hm hi

/-- Everything that a sound machine comes to is sound. -/
theorem Sound.steps {n : Nat} (hp : env.program.Sound) (hm : m.Sound env.program) (h : Steps env n m m') :
    m'.Sound env.program :=
  h.keeps (P := fun m => m.Sound env.program) (fun hm hnext => hm.next hp hnext) hm

/-! ### Errors of a sound machine -/

/-- An instruction whose operands are there does not blame the code. -/
theorem Fails.valid {e : RuntimeError} (hi : Supported env.program m.frame i) (hm : m.Holdings env.program)
    (hlocals : m.frame.locals.size = m.frame.routine.locals.toNat) (hroom : i.pops ≤ m.stack.items.length)
    (h : Fails env m i e) : e.Valid := by
  obtain hvalid | ⟨cause, -, blames⟩ := h.blames hi.operands.inTables hm.stack hlocals
  · exact hvalid
  · cases blames with
    | underflow short => exact absurd hroom (Nat.not_le.mpr short)
    | slot names present outside =>
      obtain ⟨code, hcode, hlt⟩ := hi.operands.hasSlot names
      obtain ⟨code', hcode', hsize⟩ := hm.shaped _ _ present
      obtain rfl := Option.some.inj (hcode.symm.trans hcode')
      omega

/-- No step of a sound machine ends in an invalid program. -/
theorem Sound.fault {e : RuntimeError} (hp : env.program.Sound) (hm : m.Sound env.program)
    (h : step env m = .faulted e m') : e.Valid := by
  obtain ⟨sites, depth, flows, hat, -⟩ := hm.needs
  have hlt := Flows.lt flows hat
  have hi : m.frame.routine.Holds m.frame.pc m.frame.routine.code[m.frame.pc] := Array.getElem?_eq_getElem hlt
  obtain ⟨-, fails⟩ := step_fails hi h
  exact fails.valid (.of_sound hp hm.frame hi) hm.holdings hm.frame.locals (Nat.le_of_add_left_le (hm.room hi))

end

end Machine
end ScriptEngine
