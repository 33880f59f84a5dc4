import ScriptEngine.Proofs.KnownValues
import ScriptEngine.Proofs.MachineSteps

/-! What every run keeps, whatever its code: frames run routines of the program (`Machine.Placed`), and the
    variables change in two ways only, by a record that is started and by a slot that is assigned
    (`Machine.Writes`). -/

namespace ScriptEngine

/-! ### Frames -/

/-- A frame runs the routine that its callable stands for. -/
structure Frame.Placed (p : Program) (f : Frame) : Prop where
  code : p.module? f.callee.home = some f.code
  routine : f.code.functions[f.callee.index]? = some f.routine

namespace Machine

structure Placed (p : Program) (m : Machine) : Prop where
  frame : m.frame.Placed p
  callers : ∀ f ∈ m.callers.items, f.Placed p

variable {env : Env} {n : Nat} {m m' : Machine}

theorem start_placed {p : Program} {entry : Callable} {records : Records} {heap : Heap}
    (h : start? p entry records heap = some m) : m.Placed p := by
  obtain ⟨code, hcode, h⟩ := Option.bind_eq_some_iff.mp h
  obtain ⟨routine, hroutine, h⟩ := Option.bind_eq_some_iff.mp h
  cases h
  exact ⟨⟨hcode, hroutine⟩, fun f hf => nomatch hf⟩

theorem Placed.next (hm : m.Placed env.program) (h : Next env m m') : m'.Placed env.program := by
  obtain ⟨i, -, moves | ⟨argc, -, enters⟩ | ⟨-, leaves⟩⟩ := next_inv h
  · obtain ⟨pc, locals, hframe, -⟩ := moves.frame
    refine ⟨?_, moves.callers ▸ hm.callers⟩
    rw [hframe]
    exact ⟨hm.frame.code, hm.frame.routine⟩
  · obtain ⟨args, c, code, routine, -, -, hcode, hroutine, -, hframe⟩ := enters.frame
    refine ⟨?_, fun f hf => ?_⟩
    · rw [hframe]
      exact ⟨hcode, hroutine⟩
    · rw [enters.callers] at hf
      rcases List.mem_cons.mp hf with rfl | hf
      · exact ⟨hm.frame.code, hm.frame.routine⟩
      · exact hm.callers f hf
  · have hcallers := hm.callers
    rw [leaves.callers] at hcallers
    exact ⟨hcallers _ List.mem_cons_self, fun f hf => hcallers f (List.mem_cons_of_mem _ hf)⟩

/-! ### Records -/

/-- The variables after a step. -/
inductive Writes (m : Machine) : Records → Prop where
  | nothing : Writes m m.records
  | record {index : Nat} (own : m.frame.code.record? = some index) :
      Writes m (m.records.start index m.frame.code.slots)
  | slot (record slot : Nat) (v : Value) : Writes m (.put record slot v m.records)

/-- The variables after an instruction: two instructions write them. -/
inductive Assigns (m : Machine) : Instr → Records → Prop where
  | nothing (i : Instr) : Assigns m i m.records
  | record {index : Nat} (own : m.frame.code.record? = some index) :
      Assigns m .openRecord (m.records.start index m.frame.code.slots)
  | slot {w : UInt32} {j : UInt16} {v : Value} {rest : List Value} {records : Records} (top : m.stack.items = v :: rest)
      (stored : m.records.store w.toNat j.toNat v = .ok records) : Assigns m (.storeSlot w j) records

theorem Assigns.of_eq {i : Instr} {records : Records} (h : records = m.records) : Assigns m i records := h ▸ .nothing i

theorem Does.assigns {i : Instr} (h : Does env m i m') : Assigns m i m'.records := by
  cases h with
  | openRecord own => exact .record own
  | storeSlot stack stored => exact .slot stack stored
  | @binary _ _ _ _ made =>
    obtain ⟨v, heap, work, hmade⟩ := pushMade_eq made (m.advance.drop 2)
    rw [hmade]
    exact .nothing _
  | intrinsic _ _ _ answered =>
    obtain ⟨v, heap, output, rfl⟩ := answer_next answered
    exact .nothing _
  | _ => exact .nothing _

/-- What the instruction of a step does to the variables: only two instructions write them. -/
theorem next_assigns (h : Next env m m') : ∃ i, m.frame.routine.Holds m.frame.pc i ∧ Assigns m i m'.records := by
  obtain ⟨i, hi, does | ⟨argc, -, enters⟩ | ⟨-, leaves⟩⟩ := next_does h
  · exact ⟨i, hi, does.assigns⟩
  · exact ⟨i, hi, .of_eq enters.records⟩
  · exact ⟨i, hi, .of_eq leaves.records⟩

theorem Assigns.writes {i : Instr} {records : Records} (h : Assigns m i records) : Writes m records := by
  cases h with
  | nothing => exact .nothing
  | record own => exact .record own
  | slot top stored =>
    obtain rfl := Records.store_eq_ok stored
    exact .slot _ _ _

theorem next_writes (h : Next env m m') : Writes m m'.records := by
  obtain ⟨i, -, assigns⟩ := next_assigns h
  exact assigns.writes

end Machine

namespace Records

theorem size_le_ensure (rs : Records) (needed : Nat) : rs.size ≤ (rs.ensure needed).size := by
  unfold ensure
  split
  · exact Nat.le_refl _
  · simp only [size, Array.size_append]
    omega

theorem size_le_start (rs : Records) (index : Nat) (names : Array String) : rs.size ≤ (rs.start index names).size := by
  have := size_le_ensure rs (index + 1)
  unfold start
  simpa only [size, Array.size_setIfInBounds] using this

theorem size_put (rs : Records) (record slot : Nat) (v : Value) : (put record slot v rs).size = rs.size := by
  simp only [put, size, Array.size_modify]

/-- Each record has the names that belong to its position. -/
def Named (names : Nat → Array String → Prop) (rs : Records) : Prop := ∀ k r, rs.record? k = some r → names k r.names

variable {rs : Records} {names : Nat → Array String → Prop}

theorem Named.ensure (h : rs.Named names) (needed : Nat) : (rs.ensure needed).Named names := by
  intro k r hr
  rw [record?_ensure] at hr
  exact h k r hr

theorem Named.start (h : rs.Named names) {index : Nat} {own : Array String} (hown : names index own) :
    (rs.start index own).Named names := by
  intro k r hr
  rw [record?_start] at hr
  split at hr
  · rename_i heq
    cases hr
    rw [heq]
    exact hown
  · exact h k r hr

theorem Named.put (h : rs.Named names) (record slot : Nat) (v : Value) : (Records.put record slot v rs).Named names := by
  intro k r hr
  rw [record?_put] at hr
  split at hr
  · obtain ⟨r₀, hr₀, rfl⟩ := Option.map_eq_some_iff.mp hr
    exact h k r₀ hr₀
  · exact h k r hr

end Records

namespace Machine

variable {env : Env} {n : Nat} {m m' : Machine} {names : Nat → Array String → Prop}

/-- The names of the records stay right in every step, if each module would start its record with the right
    names. -/
theorem Writes.named {records : Records} (h : Writes m records) (hm : m.records.Named names)
    (hown : ∀ index, m.frame.code.record? = some index → names index m.frame.code.slots) : records.Named names := by
  cases h with
  | nothing => exact hm
  | record own => exact hm.start (hown _ own)
  | slot record slot v => exact hm.put record slot v

theorem Writes.size {records : Records} (h : Writes m records) : m.records.size ≤ records.size := by
  cases h with
  | nothing => exact Nat.le_refl _
  | record own => exact Records.size_le_start ..
  | slot record slot v => exact Nat.le_of_eq (Records.size_put ..).symm

/-- A run keeps the frames in place, the names of the records right, and the room for records. -/
theorem Steps.records (h : Steps env n m m') (hm : m.Placed env.program) (hnamed : m.records.Named names)
    (hown : ∀ home code index, env.program.module? home = some code → code.record? = some index → names index code.slots) :
    m'.records.Named names ∧ m.records.size ≤ m'.records.size := by
  have kept := h.keeps (P := fun a => a.Placed env.program ∧ a.records.Named names ∧ m.records.size ≤ a.records.size)
    (fun {a b} ⟨placed, named, size⟩ next => by
      have writes := next_writes next
      exact ⟨placed.next next, writes.named named fun index => hown _ _ index placed.frame.code,
        Nat.le_trans size writes.size⟩)
    ⟨hm, hnamed, Nat.le_refl _⟩
  exact kept.2

end Machine
end ScriptEngine
