import ScriptEngine.Proofs.GuardedCode
import ScriptEngine.Proofs.KnownCallees

/-! What binding knew of callees is so in the loaded code of a session (`Linked.agrees_units`): the symbol of a function
    tells the position and the parameters of its routine, an import is linked to the export that binding found, and
    the code of a tidy function finds its callees where they are expected. -/

namespace ScriptEngine
open ScriptEngine.Bound Lowering

/-! ### Exports -/

/-- The callable is the export of a library that a reference names. -/
structure ReferenceSet.Links (refs : ReferenceSet) (ref : ImportRef) (l : Library) (e : Export) (c : Callable) : Prop where
  library : refs.library? ref.library = some l
  found : l.export? ref.name = some e
  callable : ∃ position, c = ⟨.library position, e.index⟩ ∧ refs[position]? = some l
  name : l.name = ref.library
  routine : ∃ r, l.code.functions[e.index]? = some r ∧ r.shortName = ref.name ∧ r.arity.toNat = e.arity

section
variable {good : ScriptUnit → Prop} {refs : ReferenceSet} {ref : ImportRef} {l : Library} {e : Export} {c : Callable}

/-- An export tells the name and the parameters of its routine. -/
theorem Library.export?_routine {name : String} (hexports : l.exports = exportsOf l.code) (h : l.export? name = some e) :
    ∃ r, l.code.functions[e.index]? = some r ∧ r.shortName = name ∧ r.arity.toNat = e.arity := by
  have hmem := List.mem_of_find?_eq_some h
  have hname : e.name = name := by simpa using List.find?_some h
  rw [hexports, exportsOf] at hmem
  obtain ⟨⟨r, i⟩, hri, rfl⟩ := List.mem_map.mp hmem
  obtain ⟨hlt, hr⟩ := List.getElem?_eq_some_iff.mp (List.mem_zipIdx_iff_getElem?.mp hri)
  rw [List.getElem_take, Array.getElem_toList] at hr
  rw [List.length_take, Array.length_toList] at hlt
  have hsize : i < l.code.functions.size := by omega
  exact ⟨r, Array.getElem?_eq_some_iff.mpr ⟨hsize, hr⟩, hname, rfl⟩

/-- Linking finds the library that binding finds. -/
theorem ReferenceSet.position?_library {name : String} {position : Nat} (h : refs.position? name = some position) :
    ∃ l, refs[position]? = some l ∧ refs.library? name = some l ∧ l.name = name := by
  obtain ⟨hlt, hname, hfirst⟩ := Array.findIdx?_eq_some_iff_getElem.mp h
  refine ⟨refs[position], Array.getElem?_eq_getElem hlt, ?_, of_decide_eq_true hname⟩
  rw [library?, Array.find?_eq_some_iff_getElem]
  exact ⟨hname, position, hlt, rfl, fun j hj => by simpa using hfirst j hj⟩

theorem ReferenceSet.Built.links (built : refs.Built good) (h : refs.resolve? ref = some c) :
    ∃ l e, refs.Links ref l e c := by
  obtain ⟨position, hposition, h⟩ := Option.bind_eq_some_iff.mp h
  obtain ⟨l, hl, h⟩ := Option.bind_eq_some_iff.mp h
  obtain ⟨e, he, h⟩ := Option.bind_eq_some_iff.mp h
  cases h
  obtain ⟨l', hl', hlibrary, hname⟩ := ReferenceSet.position?_library hposition
  obtain rfl := Option.some.inj (hl.symm.trans hl')
  obtain ⟨u, holds, -⟩ := built l (Array.mem_of_getElem? hl)
  exact ⟨l, e, hlibrary, he, ⟨position, rfl, hl⟩, hname, Library.export?_routine holds.exports he⟩

end

/-! ### Functions in slots -/

/-- The number of parameters and the position of a function, if a slot is that of a function. -/
def functionAt? (units : List ScriptUnit) (record slot : Nat) : Option (Nat × Nat) :=
  (symbolAt? units record slot).bind fun symbol =>
    match symbol.kind with
    | .function arity index => some (arity, index)
    | .variable _ => none

/-- A slot that holds a function for good. -/
def holdsFunction (units : List ScriptUnit) (record slot : Nat) : Bool := (functionAt? units record slot).isSome

section
variable {units newer older : List ScriptUnit} {record slot arity index : Nat}

theorem functionAt?_eq_some : functionAt? units record slot = some (arity, index) ↔
    ∃ symbol, symbolAt? units record slot = some symbol ∧ symbol.kind = .function arity index := by
  unfold functionAt?
  constructor
  · intro h
    obtain ⟨symbol, hsymbol, h⟩ := Option.bind_eq_some_iff.mp h
    split at h
    · rename_i hkind
      cases h
      exact ⟨symbol, hsymbol, hkind⟩
    · cases h
  · rintro ⟨symbol, hsymbol, hkind⟩
    rw [hsymbol, Option.bind_some, hkind]

theorem holdsFunction_iff : holdsFunction units record slot = true ↔
    ∃ arity index, functionAt? units record slot = some (arity, index) := by
  rw [holdsFunction, Option.isSome_iff_exists, Prod.exists]

/-- The slot of a function is not that of a variable. -/
theorem not_changeable_of_function (h : holdsFunction units record slot = true) : ¬ Changeable units record slot := by
  rintro ⟨symbol, hsymbol, hkind⟩
  obtain ⟨arity, index, h⟩ := holdsFunction_iff.mp h
  obtain ⟨symbol', hsymbol', hkind'⟩ := functionAt?_eq_some.mp h
  obtain rfl := Option.some.inj (hsymbol.symm.trans hsymbol')
  cases hkind.symm.trans hkind'

/-- A slot of a function belongs to a unit. -/
theorem functionAt?_split (h : functionAt? units record slot = some (arity, index)) : ∃ newer u older symbol,
    units = newer ++ u :: older ∧ older.length = record ∧ u.symbols.entries[slot]? = some symbol ∧
    symbol.kind = .function arity index := by
  obtain ⟨symbol, hsymbol, hkind⟩ := functionAt?_eq_some.mp h
  obtain ⟨u, hu, hsymbol⟩ := Option.bind_eq_some_iff.mp hsymbol
  obtain ⟨newer, older, hsplit, hlength⟩ := split_of_getElem?_reverse hu
  exact ⟨newer, u, older, symbol, hsplit, hlength, hsymbol, hkind⟩

end

/-! ### Functions of the program -/

/-- A function with so many parameters. -/
def Program.Takes (p : Program) (c : Callable) (given : Nat) : Prop := ∃ r, p.routine? c = some r ∧ r.arity.toNat = given

/-- The function of an accepted unit that a frame runs. -/
structure Frame.Runs (units : List ScriptUnit) (f : Frame) (u : ScriptUnit) (g : Func) : Prop where
  unit : ∃ record, f.callee.home = .fragment record ∧ units.reverse[record]? = some u
  function : u.program.functions[f.callee.index]? = some g

/-- The outlooks of the function that a frame runs. -/
def Frame.outlooks (units : List ScriptUnit) (f : Frame) (u : ScriptUnit) (g : Func) : List Outlook :=
  Outlooks.function (holdsFunction units) u.program f.callee.index g

/-- What binding knew of the calls in the function that a frame runs. -/
structure Frame.Foreseen (units : List ScriptUnit) (p : Program) (f : Frame) (u : ScriptUnit) (g : Func)
    (ctx : Binder.Context) : Prop where
  references : ctx.references = p.references
  declares : ∀ {record : Nat} {symbol : Symbol}, ctx.Declares u.symbols record symbol →
    symbolAt? units record symbol.slot = some symbol
  foretold : Foretold f.routine (ctx.rules u.symbols u.program.imports).lax (holdsFunction units) (f.outlooks units u g)

/-- The code of a program agrees with what binding knew of the units. -/
structure Program.Agrees (units : List ScriptUnit) (p : Program) : Prop where
  function : ∀ {record slot arity index : Nat}, functionAt? units record slot = some (arity, index) →
    index = slot ∧ p.Takes ⟨.fragment record, slot⟩ arity
  installs : ∀ {f : Frame} {pc : Nat} {w : UInt32} {j : UInt16}, f.Placed p → f.routine.Holds pc (.storeSlot w j) →
    holdsFunction units w.toNat j.toNat = true → f.callee.home = .fragment w.toNat ∧ 0 < pc ∧
      ∀ before i, f.routine.Holds before i → pc ∈ i.exits before → ∃ k, i = .loadFunction k ∧ k.toNat = j.toNat
  imports : ∀ {record i : Nat} {u : ScriptUnit} {code : CodeModule} {ref : ImportRef}, units.reverse[record]? = some u →
    p.fragments[record]? = some code → u.program.imports[i]? = some ref →
    ∃ c l e, code.imports[i]? = some c ∧ p.references.Links ref l e c
  foreseen : ∀ {f : Frame} {u : ScriptUnit} {g : Func}, f.Placed p → f.Runs units u g → Tidy.block false g.body = true →
    ∃ ctx, f.Foreseen units p u g ctx

section
variable {good : ScriptUnit → Prop} {refs : ReferenceSet} {units newer older : List ScriptUnit}
  {fragments : Array CodeModule} {u : ScriptUnit} {code : CodeModule}

/-- The symbol of a function tells its routine, which is not the last one. -/
theorem Linked.function (linked : Linked refs units fragments) (accepted : UnitsAccepted refs units)
    (hsplit : units = newer ++ u :: older) {slot arity index : Nat} {symbol : Symbol}
    (hsymbol : u.symbols.entries[slot]? = some symbol) (hkind : symbol.kind = .function arity index) : index = slot ∧
      ∃ code r, fragments[older.length]? = some code ∧ code.functions[slot]? = some r ∧ r.arity.toNat = arity ∧
        slot + 1 < code.functions.size := by
  obtain ⟨code, hcode, follows⟩ := linked.each hsplit
  obtain ⟨image, emitted, loaded⟩ := follows.loaded
  obtain ⟨ctx, first, main, -, -, -, lawful⟩ := (accepted _ _ _ hsplit).lawful
  obtain ⟨rfl, g, hg, rfl⟩ := lawful.function hsymbol hkind
  have hlt := (List.getElem?_eq_some_iff.mp hg).1
  have hfunctions : u.program.functions = first ++ [main] := lawful.functions
  have hsize : code.functions.size = first.length + 1 := (accepted _ _ _ hsplit).entry_last emitted loaded lawful.position
  have hf : u.program.functions[index]? = some g := by rw [hfunctions, List.getElem?_append_left hlt, hg]
  obtain ⟨r, hr⟩ : ∃ r, code.functions[index]? = some r := ⟨_, Array.getElem?_eq_getElem (by omega)⟩
  have stands := emitted.stands.function hf (loaded.functions ▸ hr)
  exact ⟨rfl, code, r, hcode, hr, stands.arity, by omega⟩

/-- Whatever stores a function has just loaded it. -/
theorem Linked.installs (built : refs.Built good) (linked : Linked refs units fragments)
    (accepted : UnitsAccepted refs units) {f : Frame} {pc : Nat} {w : UInt32} {j : UInt16}
    (placed : f.Placed ⟨refs, fragments⟩) (hi : f.routine.Holds pc (.storeSlot w j))
    (hfunction : holdsFunction units w.toNat j.toNat = true) : f.callee.home = .fragment w.toNat ∧ 0 < pc ∧
      ∀ before i, f.routine.Holds before i → pc ∈ i.exits before → ∃ k, i = .loadFunction k ∧ k.toNat = j.toNat := by
  have guarded := linked.guarded built accepted
  have hmay := not_changeable_of_function hfunction
  have plain (h : f.routine.Plain (Changeable units)) : False := hmay (h.stores _ _ _ hi)
  have hcode := placed.code
  cases hhome : f.callee.home with
  | library k =>
    rw [hhome] at hcode
    obtain ⟨l, hl, heq⟩ := Option.map_eq_some_iff.mp hcode
    exact (plain (guarded.libraries (Array.mem_of_getElem? hl) (heq ▸ Array.mem_of_getElem? placed.routine))).elim
  | fragment k =>
    rw [hhome] at hcode
    have code := guarded.fragments hcode
    have hsize := (Array.getElem?_eq_some_iff.mp placed.routine).1
    rcases Nat.lt_or_ge (f.callee.index + 1) f.code.functions.size with hlt | hge
    · exact (plain (code.plain placed.routine hlt)).elim
    · have hlast : f.callee.index + 1 = f.code.functions.size := by omega
      have hown := (code.entry placed.routine hlast).fixed _ _ _ hi hmay
      obtain ⟨arity, index, hfunction⟩ := holdsFunction_iff.mp hfunction
      obtain ⟨newer, u, older, symbol, hsplit, hlength, hsymbol, hkind⟩ := functionAt?_split hfunction
      obtain ⟨-, code', r, hcode', -, -, hslot⟩ := linked.function accepted hsplit hsymbol hkind
      rw [hlength, hown] at hcode'
      obtain rfl := Option.some.inj (hcode.symm.trans hcode')
      obtain ⟨hpos, hbefore⟩ := code.installs placed.routine hlast _ _ _ hi hmay (by omega)
      exact ⟨by rw [hown], hpos, hbefore⟩

/-- Imports are linked to what binding found. -/
theorem Linked.imports (built : refs.Built good) (linked : Linked refs units fragments)
    (hsplit : units = newer ++ u :: older) (hcode : fragments[older.length]? = some code) {i : Nat} {ref : ImportRef}
    (hi : u.program.imports[i]? = some ref) : ∃ c l e, code.imports[i]? = some c ∧ refs.Links ref l e c := by
  obtain ⟨code', hcode', follows⟩ := linked.each hsplit
  obtain rfl := Option.some.inj (hcode.symm.trans hcode')
  obtain ⟨image, emitted, loaded⟩ := follows.loaded
  have hlt : i < code.imports.size := by
    rw [loaded.importCount, emitted.imports]
    exact (Array.getElem?_eq_some_iff.mp hi).1
  obtain ⟨wanted, hwanted, hresolve⟩ := loaded.imports (Array.getElem?_eq_getElem hlt)
  rw [emitted.imports, hi] at hwanted
  cases hwanted
  obtain ⟨l, e, links⟩ := built.links hresolve
  exact ⟨_, l, e, Array.getElem?_eq_getElem hlt, links⟩

/-- The code of a tidy function finds what is expected. -/
theorem Linked.foreseen (linked : Linked refs units fragments) (accepted : UnitsAccepted refs units) {f : Frame} {g : Func}
    (placed : f.Placed ⟨refs, fragments⟩) (runs : f.Runs units u g) (tidy : Tidy.block false g.body = true) :
    ∃ ctx, f.Foreseen units ⟨refs, fragments⟩ u g ctx := by
  obtain ⟨record, hhome, hu⟩ := runs.unit
  obtain ⟨newer, older, hsplit, rfl⟩ := split_of_getElem?_reverse hu
  obtain ⟨ctx, first, main, hunit, hearlier, hrefs, lawful⟩ := (accepted _ _ _ hsplit).lawful
  obtain ⟨code, hcode, follows⟩ := linked.each hsplit
  obtain ⟨image, emitted, loaded⟩ := follows.loaded
  have hplaced := placed.code
  rw [hhome] at hplaced
  obtain rfl := Option.some.inj (hcode.symm.trans hplaced)
  have hr : image.functions[f.callee.index]? = some f.routine := loaded.functions ▸ placed.routine
  have stands := emitted.stands.function runs.function hr
  exact ⟨ctx, hrefs, accepted.declares hsplit hunit hearlier,
    function_foretold stands (lawful.lax (List.mem_of_getElem? runs.function)) tidy⟩

theorem Linked.agrees_units (built : refs.Built good) (linked : Linked refs units fragments) (accepted : UnitsAccepted refs units) :
    Program.Agrees units ⟨refs, fragments⟩ := by
  refine ⟨fun {record slot arity index} h => ?_, linked.installs built accepted, fun {record i u code ref} hu hcode hi => ?_,
    linked.foreseen accepted⟩
  · obtain ⟨newer, u, older, symbol, hsplit, rfl, hsymbol, hkind⟩ := functionAt?_split h
    obtain ⟨hslot, code, r, hcode, hr, harity, -⟩ := linked.function accepted hsplit hsymbol hkind
    exact ⟨hslot, r, Program.routine?_of_module (c := ⟨.fragment older.length, slot⟩) hcode hr, harity⟩
  · obtain ⟨newer, older, hsplit, rfl⟩ := split_of_getElem?_reverse hu
    exact linked.imports built hsplit hcode hi

end
end ScriptEngine
