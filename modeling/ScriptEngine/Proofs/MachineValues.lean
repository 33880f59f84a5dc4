import ScriptEngine.Proofs.MachineFrames

/-! What a machine can rely on, whatever code it runs. If the imports and the functions of a module are there,
    every function value of the machine stands for a routine (`Machine.Knows`); and if the operands of an
    instruction are in its tables (`Instr.InTables`), then it can blame the code for a missing operand on the
    stack and for a slot that a record does not have, but for nothing else (`Machine.Blames`). -/

namespace ScriptEngine

/-! ### Errors of values -/

/-- The error does not blame the code. -/
def RuntimeError.Valid : RuntimeError → Prop
  | .invalidProgram _ => False
  | _ => True

/-- The error blames neither the code nor a call. -/
def RuntimeError.Ordinary : RuntimeError → Prop
  | .invalidProgram _ | .notCallable _ | .arityMismatch .. => False
  | _ => True

theorem RuntimeError.Ordinary.valid {e : RuntimeError} (h : e.Ordinary) : e.Valid := by
  cases e <;> trivial

namespace Value

theorem except_map_eq_error {ε α β : Type} {x : Except ε α} {f : α → β} {e : ε} (h : x.map f = .error e) :
    x = .error e := by
  cases x with
  | error e' => exact congrArg Except.error (Except.error.inj h)
  | ok a => cases h

theorem fitted_valid {op : Operator} {n : Int} {e : RuntimeError} (h : fitted op n = .error e) : e.Valid := by
  unfold fitted at h
  split at h
  all_goals cases h
  trivial

theorem integer_valid {op : Operator} {a b : Int64} {e : RuntimeError} (h : integer op a b = .error e) : e.Valid := by
  unfold integer at h
  split at h
  · exact fitted_valid h
  · exact fitted_valid h
  · exact fitted_valid h
  · split at h
    · cases h
      trivial
    · exact fitted_valid h
  · split at h
    · cases h
      trivial
    · exact fitted_valid (except_map_eq_error h)

theorem negate_valid {v : Value} {e : RuntimeError} (h : v.negate = .error e) : e.Valid := by
  unfold negate at h
  split at h
  · split at h
    all_goals cases h
    trivial
  · cases h
  · cases h
    trivial

theorem order_valid {a b : Value} {e : RuntimeError} (h : a.order b = .error e) : e.Valid := by
  unfold order at h
  split at h
  · cases h
  · cases h
  · cases h
  · split at h
    · cases h
    · cases h
      trivial

theorem arithmetic_valid {view : View} {op : Operator} {a b : Value} {e : RuntimeError}
    (h : arithmetic view op a b = .error e) : e.Valid := by
  unfold arithmetic at h
  split at h
  · exact integer_valid (except_map_eq_error h)
  · split at h
    · cases h
    · split at h
      · cases h
      · cases h
      · cases h
      · cases h
        trivial

theorem operate_valid {view : View} {op : Operator} {a b : Value} {e : RuntimeError}
    (h : a.operate view op b = .error e) : e.Valid := by
  unfold operate at h
  split at h
  · cases h
  · cases h
  · exact order_valid (except_map_eq_error h)
  · exact order_valid (except_map_eq_error h)
  · exact order_valid (except_map_eq_error h)
  · exact order_valid (except_map_eq_error h)
  · exact arithmetic_valid h

theorem position_valid {index : Value} {length : Nat} {e : RuntimeError} (h : index.position length = .error e) :
    e.Valid := by
  unfold position at h
  split at h
  · split at h
    all_goals cases h
    trivial
  · cases h
    trivial

theorem element_valid {heap : Heap} {base index : Value} {e : RuntimeError} (h : element heap base index = .error e) :
    e.Valid := by
  unfold element at h
  split at h
  · exact position_valid (except_map_eq_error h)
  · exact position_valid (except_map_eq_error h)
  · cases h
    trivial

theorem checkStore_ordinary {heap : Heap} {id : Nat} {v : Value} {e : RuntimeError}
    (h : checkStore heap id v = .error e) : e.Ordinary := by
  unfold checkStore at h
  split at h
  all_goals cases h
  trivial

theorem assignTarget_valid {heap : Heap} {base index v : Value} {e : RuntimeError}
    (h : assignTarget heap base index v = .error e) : e.Valid := by
  unfold assignTarget at h
  split at h
  · rename_i id
    cases hposition : index.position (heap.items id).size with
    | error e' =>
      simp only [hposition, bind, Except.bind] at h
      cases h
      exact position_valid hposition
    | ok i =>
      cases hstore : checkStore heap id v with
      | error e' =>
        simp only [hposition, hstore, bind, Except.bind] at h
        cases h
        exact (checkStore_ordinary hstore).valid
      | ok _ =>
        simp only [hposition, hstore, bind, Except.bind] at h
        cases h
  · cases h
    trivial

end Value

namespace Intrinsic

theorem cutFloat_ordinary {x : Float} {e : RuntimeError} (h : cutFloat x = .error e) : e.Ordinary := by
  unfold cutFloat at h
  split at h
  · rename_i negative mantissa exponent _
    simp only at h
    by_cases hfits : Value.fits (if negative then -(Decimal.wholePart mantissa exponent).1 else
        (Decimal.wholePart mantissa exponent).1) = true
    · rw [if_pos hfits] at h
      cases h
    · rw [if_neg hfits] at h
      cases h
      trivial
  · cases h
    trivial

theorem toInt_ordinary {v : Value} {e : RuntimeError} (h : toInt v = .error e) : e.Ordinary := by
  unfold toInt at h
  split at h
  · cases h
  · cases h
  · exact cutFloat_ordinary h
  · split at h
    all_goals cases h
    trivial
  · cases h
    trivial

theorem toFloat_ordinary {v : Value} {e : RuntimeError} (h : toFloat v = .error e) : e.Ordinary := by
  unfold toFloat at h
  split at h
  · cases h
  · cases h
  · split at h
    all_goals cases h
    trivial
  · cases h
    trivial

theorem length_ordinary {heap : Heap} {v : Value} {e : RuntimeError} (h : length heap v = .error e) : e.Ordinary := by
  unfold length at h
  split at h
  all_goals cases h
  trivial

theorem pushOnto_ordinary {heap : Heap} {v target : Value} {e : RuntimeError} (h : pushOnto heap v target = .error e) :
    e.Ordinary := by
  unfold pushOnto at h
  split at h
  · exact Value.checkStore_ordinary (Value.except_map_eq_error h)
  · cases h
    trivial

theorem sleepFor_ordinary {v : Value} {e : RuntimeError} (h : sleepFor v = .error e) : e.Ordinary := by
  unfold sleepFor at h
  split at h
  · split at h
    all_goals cases h
    trivial
  · cases h
    trivial

theorem call_valid {view : Value.View} {i : Intrinsic} {args : List Value} {e : RuntimeError}
    (h : i.call view args = .error e) : e.Valid := by
  unfold call at h
  split at h
  · cases h
  · exact (length_ordinary (Value.except_map_eq_error h)).valid
  · cases h
  · exact (toInt_ordinary (Value.except_map_eq_error h)).valid
  · exact (toFloat_ordinary (Value.except_map_eq_error h)).valid
  · exact (pushOnto_ordinary h).valid
  · exact (sleepFor_ordinary h).valid
  · cases h
    trivial
  · cases h
  · cases h
    trivial

end Intrinsic

/-! ### Functions of a program -/

namespace Program

/-- The callable stands for a routine. -/
def Has (p : Program) (c : Callable) : Prop := ∃ r, p.routine? c = some r

theorem routine?_of_module {p : Program} {c : Callable} {code : CodeModule} {r : Routine}
    (hcode : p.module? c.home = some code) (hr : code.functions[c.index]? = some r) : p.routine? c = some r := by
  rw [Program.routine?, hcode]
  exact hr

theorem Has.routine {p : Program} {c : Callable} (h : p.Has c) :
    ∃ code r, p.module? c.home = some code ∧ code.functions[c.index]? = some r := by
  obtain ⟨r, hr⟩ := h
  rw [Program.routine?] at hr
  obtain ⟨code, hcode, hr⟩ := Option.bind_eq_some_iff.mp hr
  exact ⟨code, r, hcode, hr⟩

end Program

/-- The functions that the code of a frame can name are there. -/
structure Frame.Links (p : Program) (f : Frame) : Prop where
  imports : ∀ c ∈ f.code.imports, p.Has c
  functions : ∀ j, j < f.code.functions.size → p.Has ⟨f.callee.home, j⟩

theorem Frame.Placed.links {p : Program} {f : Frame} (h : f.Placed p) (himports : ∀ c ∈ f.code.imports, p.Has c) :
    f.Links p := by
  refine ⟨himports, fun j hj => ?_⟩
  exact ⟨f.code.functions[j], Program.routine?_of_module (c := ⟨_, j⟩) h.code (Array.getElem?_eq_getElem hj)⟩

namespace Machine

/-! ### Values of a machine -/

/-- Every value that a machine holds outside the frames that wait has a property. -/
structure Values (Q : Value → Prop) (m : Machine) : Prop where
  stack : ∀ v ∈ m.stack.items, Q v
  locals : ∀ v ∈ m.frame.locals, Q v
  heap : m.heap.Holds Q
  records : m.records.Holds Q

/-- Every function value that a machine holds outside the frames that wait stands for a routine. -/
structure Knows (p : Program) (m : Machine) : Prop where
  stack : ∀ v ∈ m.stack.items, v.Known p.Has
  locals : ∀ v ∈ m.frame.locals, v.Known p.Has
  heap : m.heap.Known p.Has
  records : m.records.Known p.Has

theorem knows_iff_values {p : Program} {m : Machine} : m.Knows p ↔ m.Values (Value.Known p.Has) :=
  ⟨fun h => ⟨h.stack, h.locals, h.heap, h.records⟩, fun h => ⟨h.stack, h.locals, h.heap, h.records⟩⟩

namespace Values

variable {Q : Value → Prop} {m : Machine} {v : Value}

theorem advance (h : m.Values Q) : m.advance.Values Q := ⟨h.stack, h.locals, h.heap, h.records⟩

theorem jumpTo (h : m.Values Q) (target : Nat) : (m.jumpTo target).Values Q := ⟨h.stack, h.locals, h.heap, h.records⟩

theorem push (h : m.Values Q) (hv : Q v) : (m.push v).Values Q := by
  refine ⟨fun w hw => ?_, h.locals, h.heap, h.records⟩
  rcases List.mem_cons.mp hw with rfl | hw
  · exact hv
  · exact h.stack w hw

theorem drop (h : m.Values Q) (n : Nat) : (m.drop n).Values Q :=
  ⟨fun w hw => h.stack w (List.mem_of_mem_drop hw), h.locals, h.heap, h.records⟩

theorem setLocal (h : m.Values Q) (hv : Q v) (index : Nat) : (m.setLocal index v).Values Q := by
  refine ⟨h.stack, fun w hw => ?_, h.heap, h.records⟩
  rcases Array.mem_or_eq_of_mem_setIfInBounds hw with hw | rfl
  · exact h.locals w hw
  · exact hv

theorem size_pushList (items : Array Value) (m : Machine) : m.heap.size < (m.pushList items).heap.size := by
  simp [Machine.pushList, Heap.alloc, Heap.size]

theorem pushList (h : m.Values Q) (new : Q (.list m.heap.size)) {items : Array Value} (hitems : ∀ v ∈ items, Q v) :
    (m.pushList items).Values Q := by
  refine ⟨fun w hw => ?_, h.locals, h.heap.alloc hitems, h.records⟩
  rcases List.mem_cons.mp hw with rfl | hw
  · exact new
  · exact h.stack w hw

theorem charge (h : m.Values Q) (work : Nat) : (m.charge work).Values Q := ⟨h.stack, h.locals, h.heap, h.records⟩

theorem pushMade (h : m.Values Q) {made : Value.Made}
    (new : m.heap.size < (m.pushMade made).heap.size → Q (.list m.heap.size)) (hmade : made.Holds Q) :
    (m.pushMade made).Values Q := by
  cases made with
  | value v => exact (h.charge _).push hmade
  | list items => exact (h.charge _).pushList (new (size_pushList ..)) hmade

theorem print (h : m.Values Q) (line : String) : (m.print line).Values Q := ⟨h.stack, h.locals, h.heap, h.records⟩

theorem appendTo (h : m.Values Q) (hv : Q v) (id : Nat) : (m.appendTo id v).Values Q :=
  ⟨h.stack, h.locals, h.heap.append hv id, h.records⟩

theorem replaceIn (h : m.Values Q) (hv : Q v) (id position : Nat) : (m.replaceIn id position v).Values Q :=
  ⟨h.stack, h.locals, h.heap.replace hv id position, h.records⟩

theorem put (h : m.Values Q) (hv : Q v) (record slot : Nat) : Values Q { m with records := .put record slot v m.records } :=
  ⟨h.stack, h.locals, h.heap, h.records.put hv record slot⟩

theorem start (h : m.Values Q) (index : Nat) (names : Array String) :
    Values Q { m with records := m.records.start index names } :=
  ⟨h.stack, h.locals, h.heap, h.records.start index names⟩

theorem answer {m' : Machine} (plain : ∀ v : Value, v.Plain → Q v) (h : m.Values Q) {a : Intrinsic.Answer}
    (ha : a.Holds Q) (hnext : (Machine.answer a m).next? = some m') : m'.Values Q := by
  cases a with
  | value v =>
    cases hnext
    exact h.push ha
  | print line =>
    cases hnext
    exact (h.print line).push (plain _ trivial)
  | push id v =>
    cases hnext
    exact (h.appendTo ha id).push (plain _ trivial)
  | sleep millis =>
    cases hnext
    exact h.push (plain _ trivial)

end Values

theorem constantValue_plain (c : Constant) : (constantValue c).Plain := by
  cases c <;> trivial

/-- Plain values and the functions that an instruction of a frame loads have a property. -/
structure Gives (Q : Value → Prop) (m : Machine) (i : Instr) : Prop where
  plain : ∀ v : Value, v.Plain → Q v
  imports : ∀ c ∈ m.frame.code.imports, Q (.function c)
  functions : ∀ j, i = .loadFunction j → j.toNat < m.frame.code.functions.size →
    Q (.function ⟨m.frame.callee.home, j.toNat⟩)

section
variable {env : Env} {m m' : Machine} {i : Instr} {Q : Value → Prop}

/-- An instruction keeps a property of all values, if a list that it makes has the property. -/
theorem Does.values (gives : Gives Q m i) (new : m.heap.size < m'.heap.size → Q (.list m.heap.size)) (hm : m.Values Q)
    (h : Does env m i m') : m'.Values Q := by
  have hm := hm.advance
  have plain {v : Value} (hv : v.Plain) : Q v := gives.plain v hv
  have top {v : Value} {rest : List Value} (stack : m.stack.items = v :: rest) : Q v := hm.stack v (stack ▸ .head _)
  have taken {n : Nat} : ∀ v ∈ (m.stack.items.take n).reverse, Q v := fun v hv =>
    hm.stack v (List.mem_of_mem_take (List.mem_reverse.mp hv))
  cases h with
  | const => exact hm.push (plain (constantValue_plain _))
  | unit | bool => exact hm.push (plain trivial)
  | loadLocal found => exact hm.push (hm.locals _ (Array.mem_of_getElem? found))
  | storeLocal stack => exact (hm.drop 1).setLocal (top stack) _
  | loadSlot found => exact hm.push (hm.records.load found)
  | storeSlot stack stored =>
    obtain rfl := Records.store_eq_ok stored
    exact (hm.drop 1).put (top stack) _ _
  | loadImport found => exact hm.push (gives.imports _ (Array.mem_of_getElem? found))
  | loadFunction inside => exact hm.push (gives.functions _ rfl inside)
  | openRecord => exact hm.start _ _
  | binary _ operated => exact (hm.drop 2).pushMade new (Value.operate_holds gives.plain hm.heap operated)
  | neg _ operated => exact (hm.drop 1).push (plain (Value.negate_plain operated))
  | not => exact (hm.drop 1).push (plain trivial)
  | jump => exact hm.jumpTo _
  | goOn | pop => exact hm.drop 1
  | branch => exact (hm.drop 1).jumpTo _
  | intrinsic _ _ called answered =>
    exact (hm.drop _).answer gives.plain (Intrinsic.call_holds gives.plain taken called) answered
  | @makeList count =>
    exact (hm.drop count.toNat).pushList (new (Values.size_pushList ..)) fun v hv => taken v (List.mem_toArray.mp hv)
  | index _ found => exact (hm.drop 2).push (Value.element_holds gives.plain hm.heap found)
  | setIndex stack => exact (hm.drop 3).replaceIn (top stack) _ _

/-- The arguments of a call become the first locals. -/
theorem Enters.values {argc : Nat} (plain : ∀ v : Value, v.Plain → Q v) (hm : m.Values Q) (h : Enters env m argc m') :
    m'.Values Q := by
  obtain ⟨args, c, code, routine, -, hstack, -, -, -, hframe⟩ := h.frame
  refine ⟨fun v hv => ?_, fun v hv => ?_, h.heap ▸ hm.heap, h.records ▸ hm.records⟩
  · refine hm.stack v ?_
    rw [hstack]
    exact List.mem_append_right _ (.tail _ hv)
  · rw [hframe] at hv
    rcases Array.mem_append.mp hv with hv | hv
    · refine hm.stack v ?_
      rw [hstack]
      exact List.mem_append_left _ (List.mem_reverse.mp (List.mem_toArray.mp hv))
    · rw [(Array.mem_replicate.mp hv).2]
      exact plain _ trivial

theorem Leaves.values (hm : m.Values Q) (hcaller : ∀ v ∈ m'.frame.locals, Q v) (h : Leaves m m') : m'.Values Q := by
  obtain ⟨v, rest, hstack, hstack'⟩ := h.stack
  refine ⟨fun w hw => hm.stack w ?_, hcaller, h.heap ▸ hm.heap, h.records ▸ hm.records⟩
  rw [hstack]
  rw [hstack'] at hw
  rcases List.mem_cons.mp hw with rfl | hw
  · exact .head _
  · exact .tail _ (List.mem_of_mem_drop hw)

/-- Every value that a machine holds has a property, also those of the frames that wait. -/
structure Everywhere (Q : Value → Prop) (m : Machine) : Prop where
  values : m.Values Q
  callers : ∀ f ∈ m.callers.items, ∀ v ∈ f.locals, Q v

theorem Values.mono {Q' : Value → Prop} (hm : m.Values Q) (himp : ∀ v, Q v → Q' v) : m.Values Q' :=
  ⟨fun v hv => himp v (hm.stack v hv), fun v hv => himp v (hm.locals v hv),
    fun xs hxs v hv => himp v (hm.heap xs hxs v hv), fun k r hr v hv => himp v (hm.records k r hr v hv)⟩

theorem Everywhere.mono {Q' : Value → Prop} (hm : m.Everywhere Q) (himp : ∀ v, Q v → Q' v) : m.Everywhere Q' :=
  ⟨hm.values.mono himp, fun f hf v hv => himp v (hm.callers f hf v hv)⟩

theorem start_memory {p : Program} {entry : Callable} {records : Records} {heap : Heap}
    (h : start? p entry records heap = some m) : m.heap = heap ∧ m.records = records := by
  obtain ⟨code, -, h⟩ := Option.bind_eq_some_iff.mp h
  obtain ⟨routine, -, h⟩ := Option.bind_eq_some_iff.mp h
  cases h
  exact ⟨rfl, rfl⟩

theorem start_everywhere {p : Program} {entry : Callable} {records : Records} {heap : Heap}
    (plain : ∀ v : Value, v.Plain → Q v) (hheap : heap.Holds Q) (hrecords : records.Holds Q)
    (h : start? p entry records heap = some m) : m.Everywhere Q := by
  obtain ⟨code, -, h⟩ := Option.bind_eq_some_iff.mp h
  obtain ⟨routine, -, h⟩ := Option.bind_eq_some_iff.mp h
  cases h
  refine ⟨⟨fun v hv => (nomatch hv), fun v hv => ?_, hheap, hrecords⟩, fun f hf => nomatch hf⟩
  have hlocals : (Frame.enter entry code routine [] 0).locals = #[] ++ Array.replicate (routine.locals.toNat - 0) .unit :=
    rfl
  rw [hlocals, Array.empty_append] at hv
  rw [(Array.mem_replicate.mp hv).2]
  exact plain _ trivial

/-- A step keeps a property of all values, if the functions that its instruction loads and a list that it makes
    have the property. -/
theorem Everywhere.next (gives : ∀ i, m.frame.routine.Holds m.frame.pc i → Gives Q m i)
    (new : m.heap.size < m'.heap.size → Q (.list m.heap.size)) (hm : m.Everywhere Q) (h : Next env m m') :
    m'.Everywhere Q := by
  obtain ⟨i, hi, does | ⟨argc, -, enters⟩ | ⟨-, leaves⟩⟩ := next_does h
  · exact ⟨does.values (gives i hi) new hm.values, does.moves.callers ▸ hm.callers⟩
  · refine ⟨enters.values (gives i hi).plain hm.values, fun f hf => ?_⟩
    rw [enters.callers] at hf
    rcases List.mem_cons.mp hf with rfl | hf
    · exact hm.values.locals
    · exact hm.callers f hf
  · have hcallers := hm.callers
    rw [leaves.callers] at hcallers
    exact ⟨leaves.values hm.values (hcallers _ List.mem_cons_self), fun f hf => hcallers f (List.mem_cons_of_mem _ hf)⟩

/-- An instruction keeps the values known. -/
theorem Does.knows (hlinks : m.frame.Links env.program) (hm : m.Knows env.program) (h : Does env m i m') :
    m'.Knows env.program := by
  refine knows_iff_values.mpr (h.values ⟨fun v hv => Value.known_of_plain hv, hlinks.imports, fun j _ hlt => ?_⟩
    (fun _ => trivial) (knows_iff_values.mp hm))
  exact hlinks.functions j.toNat hlt

theorem Enters.knows {argc : Nat} (hm : m.Knows env.program) (h : Enters env m argc m') : m'.Knows env.program :=
  knows_iff_values.mpr (h.values (fun _ hv => Value.known_of_plain hv) (knows_iff_values.mp hm))

theorem Leaves.knows {p : Program} (hm : m.Knows p) (hcaller : ∀ v ∈ m'.frame.locals, v.Known p.Has)
    (h : Leaves m m') : m'.Knows p :=
  knows_iff_values.mpr (h.values (knows_iff_values.mp hm) hcaller)

end

end Machine

/-! ### Operands and errors -/

namespace Instr

/-- The operands of an instruction are in the tables of its module and its routine. -/
def InTables (code : CodeModule) (r : Routine) : Instr → Prop
  | .const i => i.toNat < r.constants.size
  | .loadLocal i | .storeLocal i => i.toNat < r.locals.toNat
  | .loadImport i => i.toNat < code.imports.size
  | .loadFunction i => i.toNat < code.functions.size
  | .openRecord => code.record?.isSome
  | .intrinsic id _ => (Intrinsic.ofId? id).isSome
  | _ => True

/-- The record and the slot that an instruction names. -/
def slot? : Instr → Option (Nat × Nat)
  | .loadSlot record i | .storeSlot record i => some (record.toNat, i.toNat)
  | _ => none

end Instr

namespace Machine

/-- Why an instruction whose operands are in its tables blames the code: the stack is too short, or a record
    does not have the slot. -/
inductive Blames (m : Machine) (i : Instr) : ProgramFault → Prop where
  | underflow (short : m.stack.items.length < i.pops) : Blames m i .underflow
  | slot {record slot : Nat} {r : Record} (names : i.slot? = some (record, slot))
      (present : m.records.record? record = some r) (outside : r.values.size ≤ slot) : Blames m i (.slot record slot)

section
variable {env : Env} {m m' : Machine} {i : Instr}

theorem load_blames {rs : Records} {record slot : Nat} {e : RuntimeError} (h : rs.load record slot = .error e) :
    e.Valid ∨ ∃ r, rs.record? record = some r ∧ r.values.size ≤ slot ∧ e = .invalidProgram (.slot record slot) := by
  unfold Records.load at h
  split at h
  · cases h
    exact .inl trivial
  · rename_i r hr
    split at h
    · rename_i hnone
      cases h
      exact .inr ⟨r, hr, Array.getElem?_eq_none_iff.mp hnone, rfl⟩
    · cases h
      exact .inl trivial
    · cases h

theorem store_blames {rs : Records} {record slot : Nat} {v : Value} {e : RuntimeError}
    (h : rs.store record slot v = .error e) :
    e.Valid ∨ ∃ r, rs.record? record = some r ∧ r.values.size ≤ slot ∧ e = .invalidProgram (.slot record slot) := by
  unfold Records.store at h
  split at h
  · cases h
    exact .inl trivial
  · rename_i slots hslots
    obtain ⟨r, hr, rfl⟩ := Option.map_eq_some_iff.mp hslots
    split at h
    · cases h
    · rename_i hge
      cases h
      exact .inr ⟨r, hr, Nat.not_lt.mp hge, rfl⟩

theorem calleeFrame_valid {callee : Value} {args : List Value} {e : RuntimeError}
    (hcallee : callee.Known env.program.Has) (h : calleeFrame env m callee args = .error e) : e.Valid := by
  unfold calleeFrame at h
  split at h
  · obtain ⟨code, r, hcode, hr⟩ := Program.Has.routine hcallee
    simp only [hcode, hr] at h
    split at h
    · cases h
      trivial
    · split at h
      · cases h
        trivial
      · cases h
  · cases h
    trivial

/-- What an instruction can fail with. -/
theorem Fails.blames {e : RuntimeError} (htables : i.InTables m.frame.code m.frame.routine)
    (hstack : ∀ v ∈ m.stack.items, v.Known env.program.Has) (hlocals : m.frame.locals.size = m.frame.routine.locals.toNat)
    (h : Fails env m i e) : e.Valid ∨ ∃ cause, e = .invalidProgram cause ∧ m.Blames i cause := by
  cases h with
  | underflow short => exact .inr ⟨_, rfl, .underflow short⟩
  | const absent | loadImport absent =>
    exact absurd (Array.getElem?_eq_none_iff.mp absent) (Nat.not_le.mpr htables)
  | @loadLocal j absent =>
    have inside : j.toNat < m.frame.locals.size := hlocals ▸ htables
    exact absurd (Array.getElem?_eq_none_iff.mp absent) (Nat.not_le.mpr inside)
  | @storeLocal j outside =>
    have inside : j.toNat < m.frame.locals.size := hlocals ▸ htables
    exact absurd inside outside
  | loadFunction outside => exact absurd htables outside
  | openRecord none =>
    have named : m.frame.code.record?.isSome := htables
    rw [none] at named
    cases named
  | @unknown id _ unnamed =>
    have named : (Intrinsic.ofId? id).isSome := htables
    rw [unnamed] at named
    cases named
  | loadSlot refused =>
    obtain hvalid | ⟨r, hr, hsize, rfl⟩ := load_blames refused
    · exact .inl hvalid
    · exact .inr ⟨_, rfl, .slot rfl hr hsize⟩
  | storeSlot refused =>
    obtain hvalid | ⟨r, hr, hsize, rfl⟩ := store_blames refused
    · exact .inl hvalid
    · exact .inr ⟨_, rfl, .slot rfl hr hsize⟩
  | binary _ refused => exact .inl (Value.operate_valid refused)
  | neg _ refused => exact .inl (Value.negate_valid refused)
  | @call _ callee _ _ below refused =>
    have hcallee : callee ∈ m.stack.items := List.mem_of_mem_drop (below ▸ List.mem_cons_self)
    exact .inl (calleeFrame_valid (hstack callee hcallee) refused)
  | intrinsic _ refused => exact .inl (Intrinsic.call_valid refused)
  | index _ refused => exact .inl (Value.element_valid refused)
  | setIndex _ refused => exact .inl (Value.assignTarget_valid refused)

end

end Machine
end ScriptEngine
