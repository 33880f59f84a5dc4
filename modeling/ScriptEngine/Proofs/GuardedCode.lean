import ScriptEngine.Proofs.AcceptedUnits
import ScriptEngine.Proofs.StoreOrder

/-! What the loaded code of a session assigns (`Linked.guarded`). Functions assign only what can change; the entry
    routine of a submission also opens its record and assigns what must not change, each time where no way leads
    back. No code loads an entry routine as a value. -/

namespace ScriptEngine
open ScriptEngine.Bound Lowering

/-! ### Routines -/

namespace Routine

/-- A routine that opens no record and assigns only slots that may be assigned. -/
structure Plain (may : Nat → Nat → Prop) (r : Routine) : Prop where
  opens : ∀ pc, ¬ r.Holds pc .openRecord
  stores : ∀ pc w j, r.Holds pc (.storeSlot w j) → may w.toNat j.toNat

/-- A routine that opens its record first of all, and assigns any other slot at one address only; to none of these
    instructions a way leads back. -/
structure Entry (may : Nat → Nat → Prop) (own : Nat) (r : Routine) : Prop where
  opens : ∀ pc, r.Holds pc .openRecord → pc = 0
  opensFinal : r.Final 0
  fixed : ∀ pc w j, r.Holds pc (.storeSlot w j) → ¬ may w.toNat j.toNat → w.toNat = own
  fixedFinal : ∀ pc w j, r.Holds pc (.storeSlot w j) → ¬ may w.toNat j.toNat → r.Final pc
  once : ∀ pc other w j, r.Holds pc (.storeSlot w j) → r.Holds other (.storeSlot w j) → ¬ may w.toNat j.toNat → pc = other

/-- Of the slots that must not be assigned again, the first ones get functions: each right behind the instruction that
    loads the function with its number. -/
def Installs (may : Nat → Nat → Prop) (count : Nat) (r : Routine) : Prop :=
  ∀ pc w j, r.Holds pc (.storeSlot w j) → ¬ may w.toNat j.toNat → j.toNat < count →
    0 < pc ∧ ∀ before i, r.Holds before i → pc ∈ i.exits before → ∃ f, i = .loadFunction f ∧ f.toNat = j.toNat

variable {may : Nat → Nat → Prop} {rules : Rules} {r : Routine}

theorem plain_of_tame (hrules : ∀ w j, rules.store (.slot w j) → may w j) (h : ∀ pc, r.TameAt rules 0 pc) : r.Plain may :=
  ⟨fun pc hi => (h pc _ hi).opens rfl, fun pc w j hi => hrules _ _ ((h pc _ hi).stores w j rfl)⟩

theorem entry_of_ordered {own : Nat} (hrules : ∀ w j, rules.store (.slot w j) → may w j)
    (hopen : r.Holds 0 .openRecord) (h : Ordered r rules own r.code.size 0 1) : r.Entry may own := by
  have inside {pc : Nat} {i : Instr} (hi : r.Holds pc i) : pc < r.code.size := (Array.getElem?_eq_some_iff.mp hi).1
  -- Whatever assigns a slot is behind the instruction that opens the record.
  have behind {pc : Nat} {w : UInt32} {j : UInt16} (hi : r.Holds pc (.storeSlot w j)) : 1 ≤ pc := by
    refine Nat.one_le_iff_ne_zero.mpr fun hzero => ?_
    rw [hzero] at hi
    cases Option.some.inj (hopen.symm.trans hi)
  have strict {w : UInt32} {j : UInt16} (hmay : ¬ may w.toNat j.toNat) : ¬ rules.store (.slot w.toNat j.toNat) :=
    fun h => hmay (hrules _ _ h)
  refine ⟨fun pc hi => ?_, fun pc i hpc hi => (h.inside hpc (inside hi) hi).2, fun pc w j hi hmay => ?_,
    fun pc w j hi hmay next i hnext hi' => ?_, fun pc other w j hi hj hmay => ?_⟩
  · by_contra hne
    exact (h.inside (Nat.one_le_iff_ne_zero.mpr hne) (inside hi) hi).1 rfl
  · exact (h.fixed (behind hi) (inside hi) hi (strict hmay)).1
  · exact h.final (behind hi) (inside hi) hi (strict hmay) hnext (inside hi') hi'
  · exact h.once (behind hi) (inside hi) (behind hj) (inside hj) hi hj (strict hmay)

theorem installs_of_ordered {own count : Nat} (hrules : ∀ w j, rules.store (.slot w j) → may w j)
    (hopen : r.Holds 0 .openRecord) (hstores : Stands.stores r own 1 ((List.range' 0 count).map fun i => ⟨i, i⟩))
    (h : Ordered r rules own r.code.size count (1 + count * 2)) : r.Installs may count := by
  intro pc w j hi hmay hlt
  have inside {a : Nat} {i : Instr} (hi : r.Holds a i) : a < r.code.size := (Array.getElem?_eq_some_iff.mp hi).1
  have hpos : 0 < pc := by
    refine Nat.pos_iff_ne_zero.mpr fun hzero => ?_
    rw [hzero] at hi
    cases Option.some.inj (hopen.symm.trans hi)
  -- What is assigned behind the functions has a greater number.
  have hbefore : pc < 1 + count * 2 := by
    refine Nat.not_le.mp fun hle => ?_
    have hge := (h.fixed hle (inside hi) hi fun hrule => hmay (hrules _ _ hrule)).2
    omega
  obtain ⟨before, f, rfl, hload, hf⟩ := (stores_installs hstores hpos hbefore hi).2 w j rfl
  refine ⟨hpos, fun a i ha hexit => ?_⟩
  have heq : a = before := by
    rcases Nat.eq_zero_or_pos a with rfl | hapos
    · obtain rfl := Option.some.inj (hopen.symm.trans ha)
      exact (Nat.succ.inj (List.mem_singleton.mp hexit)).symm
    · rcases Nat.lt_or_ge a (1 + count * 2) with halt | hge
      · rw [(stores_installs hstores hapos halt ha).1, List.mem_singleton] at hexit
        exact (Nat.succ.inj hexit).symm
      · have := (h.inside hge (inside ha) ha).2 _ hexit
        omega
  subst heq
  obtain rfl := Option.some.inj (hload.symm.trans ha)
  exact ⟨f, rfl, hf⟩

end Routine

/-! ### Modules -/

/-- The code of the submission with the record `own`: its last routine is the entry routine, which no instruction
    loads. -/
structure CodeModule.Guarded (may : Nat → Nat → Prop) (own : Nat) (code : CodeModule) : Prop where
  record : code.record? = some own
  plain : ∀ {i : Nat} {r : Routine}, code.functions[i]? = some r → i + 1 < code.functions.size → r.Plain may
  entry : ∀ {i : Nat} {r : Routine}, code.functions[i]? = some r → i + 1 = code.functions.size → r.Entry may own
  installs : ∀ {i : Nat} {r : Routine}, code.functions[i]? = some r → i + 1 = code.functions.size → r.Installs may i
  loads : ∀ {r : Routine} {pc : Nat} {i : UInt16}, r ∈ code.functions → r.Holds pc (.loadFunction i) →
    i.toNat + 1 < code.functions.size

/-- All code of a program is guarded, that of libraries assigns nothing that may not be assigned, and imports are
    functions of libraries. -/
structure Program.Guarded (may : Nat → Nat → Prop) (p : Program) : Prop where
  fragments : ∀ {k : Nat} {code : CodeModule}, p.fragments[k]? = some code → code.Guarded may k
  libraries : ∀ {l : Library} {r : Routine}, l ∈ p.references → r ∈ l.code.functions → r.Plain may
  imports : ∀ {home : Home} {code : CodeModule} {c : Callable}, p.module? home = some code → c ∈ code.imports →
    ∃ i, c.home = .library i

/-- A slot of a variable that can change. -/
def Changeable (units : List ScriptUnit) (record slot : Nat) : Prop :=
  ∃ symbol, symbolAt? units record slot = some symbol ∧ symbol.kind = .variable true

section
variable {refs : ReferenceSet} {units older newer : List ScriptUnit} {fragments : Array CodeModule} {u : ScriptUnit}
  {code : CodeModule}

theorem ReferenceSet.resolve?_library {wanted : ImportRef} {c : Callable} (h : refs.resolve? wanted = some c) :
    ∃ i, c.home = .library i := by
  obtain ⟨i, -, h⟩ := Option.bind_eq_some_iff.mp h
  obtain ⟨l, -, h⟩ := Option.bind_eq_some_iff.mp h
  obtain ⟨e, -, h⟩ := Option.bind_eq_some_iff.mp h
  cases h
  exact ⟨i, rfl⟩

theorem CodeModule.Loaded.imports_library {image : Image} (loaded : CodeModule.Loaded image refs code) {c : Callable}
    (hc : c ∈ code.imports) : ∃ i, c.home = .library i := by
  obtain ⟨k, hk⟩ := Array.mem_iff_getElem?.mp hc
  obtain ⟨wanted, -, hresolve⟩ := loaded.imports hk
  exact ReferenceSet.resolve?_library hresolve

/-- A library has no record, and no variables of submissions are in its scope. -/
theorem Library.Holds.plain {l : Library} (h : l.Holds u) (may : Nat → Nat → Prop) {r : Routine} (hr : r ∈ l.code.functions) :
    r.Plain may := by
  obtain ⟨name, source, hcreate⟩ := h.created
  obtain ⟨image, emitted, loaded⟩ := h.loaded
  obtain ⟨-, tree, -, coherent⟩ := ScriptUnit.create_coherent hcreate
  obtain ⟨k, hk⟩ := Array.mem_iff_getElem?.mp hr
  rw [loaded.functions] at hk
  have hlt : k < u.program.functions.length := emitted.stands.size ▸ (Array.getElem?_eq_some_iff.mp hk).1
  have stands := emitted.stands.function (List.getElem?_eq_getElem hlt) hk
  have fits {pc : Nat} {i : Instr} (hi : r.Holds pc i) :=
    function_fits stands coherent.inScope (coherent.inScope.functions _ (List.getElem_mem hlt)) hi
  refine ⟨fun pc hi => Bool.noConfusion (fits hi), fun pc w j hi => ?_⟩
  obtain ⟨hrecord, -⟩ | ⟨d, hd, -⟩ := fits hi
  · cases hrecord
  · cases hd

/-- The entry routine is the last one. -/
theorem ScriptUnit.Accepted.entry_last (accepted : u.Accepted refs older) {image : Image}
    (emitted : Emitted u.kind u.program image) (loaded : CodeModule.Loaded image refs code) {entry : Nat}
    (hentry : u.program.entry = some entry) : code.functions.size = entry + 1 := by
  obtain ⟨ctx, first, main, -, -, -, lawful⟩ := accepted.lawful
  have hfunctions : u.program.functions = first ++ [main] := lawful.functions
  obtain rfl : first.length = entry := Option.some.inj (lawful.position.symm.trans hentry)
  rw [loaded.functions, emitted.stands.size, hfunctions, List.length_append]
  rfl

/-- The code of an accepted unit is guarded. -/
theorem ScriptUnit.Accepted.guarded (accepted : UnitsAccepted refs units) (hsplit : units = newer ++ u :: older)
    {image : Image} (emitted : Emitted u.kind u.program image) (loaded : CodeModule.Loaded image refs code)
    (hrecord : code.record? = some older.length) : code.Guarded (Changeable units) older.length := by
  obtain ⟨ctx, first, main, hunit, hearlier, -, lawful⟩ := (accepted _ _ _ hsplit).lawful
  have hown : ctx.unit.record? = some older.length := by rw [hunit, (accepted _ _ _ hsplit).record]
  have hfunctions : u.program.functions = first ++ [main] := lawful.functions
  have hposition : u.program.entry = some first.length := lawful.position
  have hsize : code.functions.size = first.length + 1 := (accepted _ _ _ hsplit).entry_last emitted loaded hposition
  have stands {i : Nat} {f : Func} {r : Routine} (hf : u.program.functions[i]? = some f)
      (hr : code.functions[i]? = some r) : Stands.function r u.program i f :=
    emitted.stands.function hf (loaded.functions ▸ hr)
  -- What the rules of the unit allow to be assigned can change.
  have changes (w j : Nat) (h : (ctx.rules u.symbols u.program.imports).store (.slot w j)) : Changeable units w j := by
    obtain ⟨symbol, declares, rfl, hkind⟩ := h
    exact ⟨symbol, accepted.declares hsplit hunit hearlier declares, hkind⟩
  have entryOrdered {i : Nat} {r : Routine} (hr : code.functions[i]? = some r) (hlast : i + 1 = code.functions.size) :
      i = first.length ∧ r.Holds 0 .openRecord ∧
        Stands.stores r older.length 1 ((List.range' 0 first.length).map fun i => ⟨i, i⟩) ∧
        Ordered r (ctx.rules u.symbols u.program.imports) older.length r.code.size first.length (1 + first.length * 2) := by
    obtain rfl : i = first.length := by omega
    have hf : u.program.functions[first.length]? = some main := by
      rw [hfunctions, List.getElem?_append_right (Nat.le_refl _), Nat.sub_self]
      rfl
    have hopening : opening? u.program first.length = some older.length := by
      rw [opening?, hposition, if_pos rfl]
      exact lawful.record.trans hown
    obtain ⟨ss, t, hbody, top, obeys⟩ := lawful.entry
    have hfixes (record slot : Nat) (h : ctx.Fixes u.output.symbols record slot) : record = older.length :=
      (Option.some.inj (hown.symm.trans h.1)).symm
    exact ⟨rfl, entry_ordered (stands hf hr) hopening lawful.functionSlots hbody top hfixes obeys⟩
  refine ⟨hrecord, fun {i r} hr hlt => ?_, fun {i r} hr hlast => ?_, fun {i r} hr hlast => ?_, fun {r pc i} hr hi => ?_⟩
  · have hlt : i < first.length := by omega
    have hf : u.program.functions[i]? = some first[i] := by
      rw [hfunctions, List.getElem?_append_left hlt, List.getElem?_eq_getElem hlt]
    have hopening : opening? u.program i = none := by
      rw [opening?, hposition, if_neg]
      exact fun h => Nat.ne_of_gt hlt (Option.some.inj h)
    exact Routine.plain_of_tame changes fun pc =>
      function_tame (stands hf hr) hopening (lawful.bodies _ (List.getElem_mem hlt))
  · obtain ⟨-, hopen, hstores, ordered⟩ := entryOrdered hr hlast
    exact Routine.entry_of_ordered changes hopen (stores_ordered hstores (by rwa [Nat.zero_add]))
  · obtain ⟨rfl, hopen, hstores, ordered⟩ := entryOrdered hr hlast
    exact Routine.installs_of_ordered changes hopen hstores ordered
  · obtain ⟨k, hk⟩ := Array.mem_iff_getElem?.mp hr
    have hlt : k < u.program.functions.length := by
      rw [← emitted.stands.size, ← loaded.functions]
      exact (Array.getElem?_eq_some_iff.mp hk).1
    have hf := List.getElem?_eq_getElem hlt
    have fits := function_fits (stands hf hk) lawful.inScope (lawful.within _ (List.getElem_mem hlt)) hi
    rw [hsize]
    exact Nat.succ_lt_succ fits

/-- All code that a session can reach is guarded. -/
theorem Linked.guarded {good : ScriptUnit → Prop} (built : refs.Built good) (linked : Linked refs units fragments)
    (accepted : UnitsAccepted refs units) : Program.Guarded (Changeable units) ⟨refs, fragments⟩ := by
  refine ⟨fun {k code} hcode => ?_, fun {l r} hl hr => ?_, fun {home code c} hcode hc => ?_⟩
  · obtain ⟨newer, u, older, hsplit, rfl, follows⟩ := linked.unit hcode
    obtain ⟨image, emitted, loaded⟩ := follows.loaded
    exact ScriptUnit.Accepted.guarded accepted hsplit emitted loaded (follows.record (linked.fewOlder hsplit))
  · obtain ⟨u, holds, -⟩ := built l hl
    exact holds.plain _ hr
  · cases home with
    | library i =>
      obtain ⟨l, hl, rfl⟩ := Option.map_eq_some_iff.mp hcode
      obtain ⟨u, holds, -⟩ := built l (Array.mem_of_getElem? hl)
      obtain ⟨image, -, loaded⟩ := holds.loaded
      exact loaded.imports_library hc
    | fragment k =>
      obtain ⟨newer, u, older, -, -, follows⟩ := linked.unit hcode
      obtain ⟨image, -, loaded⟩ := follows.loaded
      exact loaded.imports_library hc

end
end ScriptEngine
