import ScriptEngine.Proofs.AcceptedUnits
import ScriptEngine.Proofs.Meaning
import ScriptEngine.Proofs.SessionOrder
import ScriptEngine.Proofs.TextPieces

/-! Submitting a name alone, as one does to look at a variable. A name that a fragment can declare is one token, so
    it is read as that name; it is bound to the slot that it stands for, and the code of the submission opens its
    record, loads that slot and returns (`Chain.compile_word`). -/

namespace ScriptEngine
open ScriptEngine.Bound Lowering

/-! ### Reading -/

namespace Lexer

/-- A word is one token. -/
theorem tokenize_word {name : String} (h : IsWord name) : ∃ stop, tokenize name.toList =
    .ok [⟨.word name, ⟨0, stop⟩⟩, ⟨.endOfInput, ⟨stop, stop⟩⟩] := by
  obtain ⟨c, cs, hname, hc⟩ := h.begins
  have hscan : scan c (cs ++ []) = _ := scan_word c cs hc (fun d hd => h.parts d (hname ▸ hd)) fun d hd => nomatch hd
  rw [List.append_nil] at hscan
  have hword : Lexeme.ofWord (String.ofList (c :: cs)) = .word name := by
    rw [← hname, String.ofList_toList, Lexeme.ofWord, h.free]
  refine ⟨byteLength (c :: cs), ?_⟩
  rw [hname, tokenize, found, pieces, hscan, hword, pieces]
  simp [Found.cons]

end Lexer

/-- A word is read as a name. -/
theorem Tree.Fragment.parse_word {name : String} (h : IsWord name) : ∃ stop, parse name.toList =
    .ok ⟨[], some (.name ⟨name, ⟨0, stop⟩⟩), ⟨0, stop⟩⟩ := by
  obtain ⟨stop, htokens⟩ := Lexer.tokenize_word h
  refine ⟨stop, ?_⟩
  rw [parse, htokens]
  rfl

/-! ### Binding -/

/-- The entry routine of a script that does nothing but evaluate an expression. -/
def Bound.Func.showing (unit : UnitKind) (b : Bound.Expr) (line start : Nat) : Bound.Func :=
  ⟨unit.qualified "<Main>", 0, 0, .mk [] (.value b line), start⟩

def Bound.Program.showing (unit : UnitKind) (b : Bound.Expr) (line start : Nat) : Bound.Program where
  functions := [.showing unit b line start]
  imports := #[]
  slots := #[]
  functionSlots := []
  entry := some 0
  record := unit.record?

/-- A script that does nothing but read a slot. -/
def Bound.Program.reading (unit : UnitKind) (record slot line start : Nat) : Bound.Program :=
  .showing unit (.load (.slot record slot)) line start

/-- An expression alone, if binding it leaves nothing behind. -/
theorem Binder.bind_value {ctx : Context} {e : Tree.Expr} {span : Span} {b : Bound.Expr} (hscript : ctx.unit.isScript = true)
    (hexpr : (expr ctx false e).run ⟨.empty, #[], #[], Frame.entry⟩ = (b, ⟨.empty, #[], #[], Frame.entry⟩)) :
    bind ctx ⟨[], some e, span⟩ = ⟨.empty, .showing ctx.unit b (lineOf ctx e.span) (lineOf ctx span), []⟩ := by
  have hentry : ctx.unit.entryName? = some (ctx.unit.qualified "<Main>") := if_pos hscript
  -- The expression is bound in the state in which the entry routine begins.
  have hbind : bind ctx ⟨[], some e, span⟩ =
      let r := (expr ctx false e).run ⟨.empty, #[], #[], Frame.entry⟩
      let main : Func := ⟨ctx.unit.qualified "<Main>", 0, r.2.frame.next, .mk [] (.value r.1 (lineOf ctx e.span)),
        lineOf ctx span⟩
      ⟨r.2.symbols, ⟨[main], r.2.imports, r.2.symbols.names, [], some 0, ctx.unit.record?⟩,
        Diagnostic.sort r.2.diagnostics.toList⟩ := by
    simp only [bind, fragment, unitFunctions, hentry, functionSlots, hscript]
    rfl
  have hnames : Symbols.empty.names = #[] := Array.map_empty
  have hsort : Diagnostic.sort [] = [] := List.mergeSort_nil
  rw [hbind, hexpr]
  dsimp only
  rw [hnames, hsort]
  rfl

/-- A name of an earlier submission is bound to its slot. -/
theorem Binder.expr_name {ctx : Context} {name : Ident} {record slot : Nat} {kind : SymbolKind}
    (hname : Resolution.ofEarlier name.name ctx.earlier = some (.slot record slot kind)) :
    (expr ctx false (.name name)).run ⟨.empty, #[], #[], Frame.entry⟩ =
      (.load (.slot record slot), ⟨.empty, #[], #[], Frame.entry⟩) := by
  have hres : Resolution.ofName ctx ⟨.empty, #[], #[], Frame.entry⟩ name.name = .slot record slot kind := by
    show (Resolution.ofEarlier name.name ctx.earlier).getD (Resolution.ofImports ctx name.name) = _
    rw [hname]
    rfl
  show (nameValue ctx name (Resolution.ofName ctx ⟨.empty, #[], #[], Frame.entry⟩ name.name)).run _ = _
  rw [hres]
  rfl

/-! ### Code -/

namespace Lowering

theorem setLine_emits (ctx : Context) {pc : Nat} (hpc : pc < 4294967296) (line : Nat) (t : Tables) :
    ∃ t', (setLine ctx pc line).run t = .ok ((), t') ∧ t'.constants = t.constants ∧ t'.lines.length ≤ t.lines.length + 1 := by
  by_cases h : t.line = some line
  · refine ⟨t, ?_, rfl, Nat.le_succ _⟩
    rw [setLine]
    exact run_bind_eq_ok.mpr ⟨t, t, rfl, by rw [if_pos h]; rfl⟩
  · refine ⟨{ t with lines := markLine ⟨UInt32.ofNat pc, UInt32.ofNat line⟩ t.lines, line := some line }, ?_, rfl,
      length_markLine _ _⟩
    rw [setLine]
    refine run_bind_eq_ok.mpr ⟨t, t, rfl, ?_⟩
    rw [if_neg h, target, if_pos hpc]
    rfl

/-- A script that evaluates an expression opens its record, evaluates the expression and returns. -/
theorem routineCode_showing (n line start : Nat) {b : Bound.Expr} {P : List Instr → Array Constant → Prop}
    (h : ∀ ctx t, t.constants = #[] → ∃ code t', (expr ctx 1 b).run t = .ok (code, t') ∧ t'.lines = t.lines ∧
      P code t'.constants) :
    ∃ code t, (routineCode (.showing (.script (n + 1)) b line start) 0 (.showing (.script (n + 1)) b line start)).run
        ⟨#[], [], none⟩ = .ok (.openRecord :: (code ++ [.ret]), t) ∧ P code t.constants ∧ t.lines.length ≤ 2 := by
  let main : Func := .showing (.script (n + 1)) b line start
  let ctx : Context := ⟨main.name, none⟩
  obtain ⟨t₁, first, hconstants₁, hlines₁⟩ := setLine_emits ctx (by omega : 0 < 4294967296) start ⟨#[], [], none⟩
  obtain ⟨t₂, second, hconstants₂, hlines₂⟩ := setLine_emits ctx (by omega : 1 < 4294967296) line t₁
  obtain ⟨code, t, hcode, hlines, holds⟩ := h ctx t₂ (hconstants₂.trans hconstants₁)
  have htail : (tail ctx 1 (.value b line)).run t₁ = .ok (code, t) := run_bind_eq_ok.mpr ⟨(), t₂, second, hcode⟩
  have hblock : (block ctx 1 main.body).run t₁ = .ok (code, t) :=
    run_bind_eq_ok.mpr ⟨[], t₁, rfl, run_bind_eq_ok.mpr ⟨code, t, htail, rfl⟩⟩
  refine ⟨code, t, run_bind_eq_ok.mpr ⟨(), t₁, first, ?_⟩, holds, ?_⟩
  · exact run_bind_eq_ok.mpr ⟨[.openRecord], t₁, rfl, run_bind_eq_ok.mpr ⟨code, t, hblock, rfl⟩⟩
  · rw [hlines]
    exact Nat.le_trans hlines₂ (Nat.succ_le_succ hlines₁)

end Lowering

def Instr.reading (record slot : Nat) : Array Instr := #[.openRecord, .loadSlot (.ofNat record) (.ofNat slot), .ret]

/-- The entry routine of a script that reads a slot. -/
def Routine.reading (unit : UnitKind) (record slot : Nat) (lines : List LineMark) : Routine :=
  ⟨unit.qualified "<Main>", 0, 0, #[], Instr.reading record slot, lines⟩

/-- The image of a script that declares nothing: its entry routine is all that is in it. -/
def Image.lone (n : Nat) (r : Routine) : Image :=
  ⟨.submission, (UnitKind.script n).qualifier, .ofNat n, #[], #[], #[r], some ((UnitKind.script n).qualified "<Main>")⟩

/-- The image of a script that reads a slot. -/
def Image.reading (n record slot : Nat) (lines : List LineMark) : Image := .lone n (.reading (.script n) record slot lines)

theorem image_showing {n : Nat} {b : Bound.Expr} {line start : Nat} {code : List Instr} {t : Tables}
    (h : (routineCode (.showing (.script n) b line start) 0 (.showing (.script n) b line start)).run ⟨#[], [], none⟩ =
      .ok (code, t)) :
    image (.script n) (.showing (.script n) b line start) =
      .ok (.lone n ⟨(UnitKind.script n).qualified "<Main>", 0, 0, t.constants, code.toArray, t.lines⟩) := by
  have hroutines : routines (.showing (.script n) b line start) [.showing (.script n) b line start] 0 =
      .ok [⟨(UnitKind.script n).qualified "<Main>", 0, 0, t.constants, code.toArray, t.lines⟩] := by
    rw [routines, routine, h]
    rfl
  rw [image]
  show (do
    let functions ← routines (.showing (.script n) b line start) [.showing (.script n) b line start] 0
    _) = _
  rw [hroutines]
  rfl

theorem image_reading (n line start : Nat) {record slot : Nat} (hrecord : record < 4294967296) (hslot : slot < 65536) :
    ∃ lines : List LineMark, lines.length ≤ 2 ∧
      image (.script (n + 1)) (.reading (.script (n + 1)) record slot line start) = .ok (.reading (n + 1) record slot lines) := by
  have hload (ctx : Context) (t : Tables) (hempty : t.constants = #[]) : ∃ code t',
      (expr ctx 1 (.load (.slot record slot))).run t = .ok (code, t') ∧ t'.lines = t.lines ∧
      code = [.loadSlot (.ofNat record) (.ofNat slot)] ∧ t'.constants = #[] := by
    refine ⟨_, t, ?_, rfl, rfl, hempty⟩
    rw [expr, load, recordIndex, if_pos hrecord, narrow, if_pos hslot]
    rfl
  obtain ⟨code, t, hcode, ⟨rfl, hconstants⟩, hlines⟩ := routineCode_showing n line start
    (P := fun code constants => code = [.loadSlot (.ofNat record) (.ofNat slot)] ∧ constants = #[]) hload
  refine ⟨t.lines, hlines, (image_showing hcode).trans ?_⟩
  rw [hconstants]
  rfl

theorem UnitKind.main_fits {n : Nat} (few : n < 4294967296) : Image.TextFits ((UnitKind.script n).qualified "<Main>") := by
  have := UnitKind.size_script few
  have hpoint : ".".utf8ByteSize = 1 := rfl
  have hname : "<Main>".utf8ByteSize = 6 := rfl
  rw [Image.TextFits, Image.LengthFits, UnitKind.qualified, String.utf8ByteSize_append, String.utf8ByteSize_append, hpoint, hname]
  omega

theorem Image.fits_lone {n : Nat} (few : n < 4294967296) {r : Routine} (hr : RoutineFits r) : (lone n r).Fits := by
  have small {k : Nat} (hk : k ≤ 1) : LengthFits k := Nat.lt_of_le_of_lt hk (by decide)
  refine ⟨UnitKind.script_fits few, ⟨small (Nat.zero_le 1), List.forall_mem_nil _⟩,
    ⟨small (Nat.zero_le 1), List.forall_mem_nil _⟩, ⟨small (Nat.le_refl 1), List.forall_mem_singleton.mpr hr⟩,
    fun name hname => ?_⟩
  obtain rfl := Option.some.inj hname
  exact UnitKind.main_fits few

theorem Image.fits_reading {n record slot : Nat} (few : n < 4294967296) {lines : List LineMark} (hlines : lines.length ≤ 2) :
    (Image.reading n record slot lines).Fits := by
  have small {k : Nat} (hk : k ≤ 3) : LengthFits k := Nat.lt_of_le_of_lt hk (by decide)
  exact fits_lone few ⟨UnitKind.main_fits few, ⟨small (Nat.zero_le 3), List.forall_mem_nil _⟩, small (Nat.le_refl 3),
    small (Nat.le_succ_of_le hlines)⟩

/-! ### Submissions -/

/-- The record of a unit is before that of a later one. -/
theorem UnitsAccepted.earlier {refs : ReferenceSet} {units : List ScriptUnit} (h : UnitsAccepted refs units) :
    ∀ d ∈ units.filterMap ScriptUnit.declared?, d.record < units.length := by
  intro d hd
  obtain ⟨u, hu, hdeclared⟩ := List.mem_filterMap.mp hd
  obtain ⟨newer, older, rfl⟩ := List.append_of_mem hu
  rw [ScriptUnit.declared?, (h _ _ _ rfl).record] at hdeclared
  cases hdeclared
  simp only [List.length_append, List.length_cons]
  omega

namespace Chain

variable {c : Chain} {refs : ReferenceSet}

/-- A unit without errors is compiled if its image can be written. -/
theorem compile_emitted {source : String} (few : c.index + 1 < 4294967296) (hearlier : ∀ d ∈ c.declared, d.record < c.index)
    {u : ScriptUnit} (hu : ScriptUnit.create (.script (c.index + 1)) source refs c.imports c.declared = .ok u)
    (clean : u.hasErrors = false) {image : Image} (himage : u.image = .ok image) (encodes : u.Encodes) :
    ∃ e, c.compile source refs = .ok ⟨u, e, u.diagnostics⟩ := by
  obtain ⟨e, he⟩ := Executable.ofBytes_emitted few hearlier hu himage encodes
  have hname : u.kind.entryName?.getD (u.kind.qualified "<Main>") = u.kind.qualified "<Main>" := by
    rw [(ScriptUnit.create_coherent hu).1]
    rfl
  have hunit : Executable.ofUnit u refs = .ok e := by
    refine except_bind_eq_ok.mpr ⟨image, himage, ?_⟩
    dsimp only
    rw [hname, he]
    rfl
  refine ⟨e, ?_⟩
  rw [compile, hu]
  dsimp only
  rw [clean, if_neg Bool.false_ne_true, hunit]

/-- An expression alone is accepted as a submission, if binding it leaves nothing behind and its image can be written. -/
theorem compile_showing {source : String} (few : c.index + 1 < 4294967296) (hearlier : ∀ d ∈ c.declared, d.record < c.index)
    {e : Tree.Expr} {span : Span} (hparse : Tree.Fragment.parse source.toList = .ok ⟨[], some e, span⟩) {b : Bound.Expr}
    (hexpr : (Binder.expr ⟨source.toList, .script (c.index + 1), c.declared, refs, c.imports⟩ false e).run
      ⟨.empty, #[], #[], .entry⟩ = (b, ⟨.empty, #[], #[], .entry⟩))
    (himage : ∀ line start, ∃ image, Lowering.image (.script (c.index + 1)) (.showing (.script (c.index + 1)) b line start) =
      .ok image ∧ image.Fits) :
    ∃ compiled line start, c.compile source refs = .ok compiled ∧ compiled.diagnostics = [] ∧ compiled.unit.Encodes ∧
      compiled.unit.program = .showing (.script (c.index + 1)) b line start := by
  let ctx : Binder.Context := ⟨source.toList, .script (c.index + 1), c.declared, refs, c.imports⟩
  let u : ScriptUnit := ⟨ctx.unit, .empty, .showing ctx.unit b (Binder.lineOf ctx e.span) (Binder.lineOf ctx span), []⟩
  have hcreate : ScriptUnit.create (.script (c.index + 1)) source refs c.imports c.declared = .ok u := by
    have hbind : Binder.bind ctx ⟨[], some e, span⟩ = ⟨u.symbols, u.program, u.diagnostics⟩ := Binder.bind_value rfl hexpr
    rw [ScriptUnit.create]
    dsimp only
    rw [hparse]
    dsimp only
    rw [hbind]
  obtain ⟨image, himage, fits⟩ := himage (Binder.lineOf ctx e.span) (Binder.lineOf ctx span)
  have encodes : u.Encodes := by
    intro image' h
    obtain rfl := Except.ok.inj (himage.symm.trans h)
    exact fits
  obtain ⟨executable, hcompile⟩ := compile_emitted few hearlier hcreate rfl himage encodes
  exact ⟨_, _, _, hcompile, rfl, encodes, rfl⟩

/-- A name that stands for a slot is accepted as a submission, whose code reads the slot. -/
theorem compile_word (accepted : UnitsAccepted refs c.units) (few : c.index + 1 < 4294967296) {name : String}
    (word : IsWord name) {record slot : Nat} {kind : SymbolKind} (hrecord : record < c.index) (hslot : slot < 65536)
    (hname : Binder.Resolution.ofEarlier name c.declared = some (.slot record slot kind)) :
    ∃ compiled lines, c.compile name refs = .ok compiled ∧ compiled.unit.Encodes ∧
      compiled.executable.code.functions[compiled.executable.entry]? =
        some (.reading (.script (c.index + 1)) record slot lines) := by
  obtain ⟨stop, hparse⟩ := Tree.Fragment.parse_word word
  have reading (line start : Nat) := image_reading c.index line start (Nat.lt_trans hrecord (Nat.lt_of_succ_lt few)) hslot
  obtain ⟨compiled, line, start, hcompile, -, encodes, hprogram⟩ := compile_showing few accepted.earlier hparse
    (Binder.expr_name hname) fun line start => by
      obtain ⟨lines, hlines, himage⟩ := reading line start
      exact ⟨_, himage, Image.fits_reading few hlines⟩
  obtain ⟨lines, -, himage⟩ := reading line start
  -- The code that was loaded is that of the image, and the entry routine is the only one.
  obtain ⟨image, himage', hbytes⟩ := Executable.ofUnit_eq_ok (compile_eq_ok hcompile).2.2
  obtain ⟨image', hdecode, hload, -⟩ := Executable.ofBytes_eq_ok hbytes
  rw [Image.decode_eq_ok_iff.mpr ⟨encodes _ himage', rfl⟩] at hdecode
  rw [ScriptUnit.image, compile_kind hcompile, hprogram] at himage'
  obtain rfl := Except.ok.inj (himage.symm.trans himage')
  obtain rfl := Except.ok.inj hdecode
  have hentry := compile_entry hcompile encodes
  rw [hprogram] at hentry
  refine ⟨compiled, lines, hcompile, encodes, ?_⟩
  rw [(CodeModule.load_loaded hload).functions, ← Option.some.inj hentry]
  rfl

end Chain

/-! ### Runs -/

section
variable {record slot own : Nat} (hrecord : record < 4294967296) (hslot : slot < 65536) (hne : record ≠ own)
include hrecord hslot hne

/-- Code that reads a slot of another record ends with the value of the slot, or with the error of loading it. -/
theorem Machine.reading_ends (env : Env) {m : Machine} (hcode : m.frame.routine.code = Instr.reading record slot)
    (hpc : m.frame.pc = 0) (hcallers : m.callers.items = []) (hown : m.frame.code.record? = some own) :
    ∃ k m' done, Steps env k m m' ∧ Invocation.ofEnd (step env m') = some done ∧ done.machine.heap = m.heap ∧
      ∀ v, done.outcome = .ok v ↔ m.records.load record slot = .ok v := by
  let m₁ : Machine := { m.advance with records := m.records.start own m.frame.code.slots }
  have hfirst : step env m = .running m₁ := by
    rw [step, hcode, hpc]
    show execute env m.advance .openRecord = _
    have hadvance : m.advance.frame.code.record? = some own := hown
    rw [execute, hadvance]
    rfl
  have hload : m₁.records.load (UInt32.ofNat record).toNat (UInt16.ofNat slot).toNat = m.records.load record slot := by
    rw [UInt32.toNat_ofNat_of_lt' hrecord, UInt16.toNat_ofNat_of_lt' hslot, Records.load, Records.record?_start,
      if_neg hne, Records.load]
  have hsecond : step env m₁ = m₁.advance.proceed (m.records.load record slot) fun v m => .running (m.push v) := by
    have hpc₁ : m₁.frame.pc = 1 := congrArg (· + 1) hpc
    have hcode₁ : m₁.frame.routine.code = Instr.reading record slot := hcode
    rw [step, hcode₁, hpc₁, ← hload]
    rfl
  cases hv : m.records.load record slot with
  | error e =>
    rw [hv] at hsecond
    refine ⟨1, m₁, _, .one (.of_running hfirst), by rw [hsecond]; rfl, rfl, fun v => ?_⟩
    constructor
    · intro h
      cases h
    · intro h
      cases h
  | ok v =>
    rw [hv] at hsecond
    let m₂ : Machine := m₁.advance.push v
    have hthird : step env m₂ = .finished v { m₂.advance with stack := (m₂.advance.stack.drop 1).cutTo m₂.advance.frame.base } := by
      have hpc₂ : m₂.frame.pc = 2 := congrArg (· + 2) hpc
      have hcode₂ : m₂.frame.routine.code = Instr.reading record slot := hcode
      rw [step, hcode₂, hpc₂]
      show ret m₂.advance = _
      have hcallers₂ : m₂.advance.callers.items = [] := hcallers
      have hstack : m₂.advance.stack.items = v :: m.stack.items := rfl
      rw [ret, hstack]
      dsimp only
      rw [hcallers₂]
    refine ⟨2, m₂, _, .step (.of_running hfirst) (.one (.of_running hsecond)), by rw [hthird]; rfl, rfl, fun w => ?_⟩
    rw [Except.ok.injEq, Except.ok.injEq]

/-- A script that reads a slot of an earlier record comes to an end, with the value of the slot or without one. -/
theorem Memory.run_reading (m : Memory) (refs : ReferenceSet) {e : Executable} (options : InvokeOptions) {unit : UnitKind}
    {lines : List LineMark} (hentry : e.code.functions[e.entry]? = some (.reading unit record slot lines))
    (hown : e.code.record? = some own) :
    (∃ fuel done, m.run refs e options Invocation.undisturbed fuel = some done) ∧
    ∀ fuel done, m.run refs e options Invocation.undisturbed fuel = some done → done.memory.heap = m.heap ∧
      ∀ v, done.outcome = .ok v ↔ m.records.load record slot = .ok v := by
  obtain ⟨start, hstart⟩ := m.launch?_isSome refs hentry
  have hmemory := Machine.start_memory hstart
  obtain ⟨k, m', done, steps, hend, hheap, hvalue⟩ : ∃ k m' done, Machine.Steps (m.env refs e options) k start m' ∧
      Invocation.ofEnd (Machine.step (m.env refs e options) m') = some done ∧ done.machine.heap = start.heap ∧
      ∀ v, done.outcome = .ok v ↔ start.records.load record slot = .ok v := by
    have hmodule : (m.link refs e.code).program.module? (.fragment m.program.fragments.size) = some e.code :=
      Array.getElem?_push_size
    rw [launch?, Machine.start?] at hstart
    simp only [hmodule, hentry, Option.bind_eq_bind, Option.bind_some] at hstart
    cases hstart
    exact Machine.reading_ends hrecord hslot hne _ rfl rfl rfl hown
  rw [hmemory.1] at hheap
  rw [hmemory.2] at hvalue
  obtain ⟨ends, only⟩ := run_ends hstart steps hend
  refine ⟨ends, fun fuel completion hrun => ?_⟩
  obtain rfl := only fuel completion hrun
  exact ⟨hheap, hvalue⟩

end

/-! ### Submissions that are a name -/

/-- Nothing stops a submission. -/
def Interference.none : Interference := ⟨false, Invocation.undisturbed⟩

theorem Cache.ensure_undisturbed {cache : Cache} {refs : ReferenceSet} (loaded : cache.loaded = some refs) (supply : Supply) :
    cache.ensure supply Interference.none.cancelLoading = (.ok refs, cache) := ensure_loaded loaded supply false

namespace Session

/-- A submission of a name that nothing stops has a value, and leaves the lists as they are. -/
def Reads (s : Session) (supply : Supply) (cache : Cache) (name : String) (v : Value) : Prop :=
  ∃ fuel report s' cache', s.submitUnder .none fuel supply cache name = some (report, s', cache') ∧
    report.outcome = .executed v ∧ s'.memory.heap = s.memory.heap

/-- A name that is bound to a slot of an earlier record has the value of the slot. -/
theorem reads_iff {s : Session} {cache : Cache} {refs : ReferenceSet} (loaded : cache.loaded = some refs) {name : String}
    {c : Compiled} (accepted : s.chain.compile name refs = .ok c) {unit : UnitKind} {record slot own : Nat}
    {lines : List LineMark} (hrecord : record < 4294967296) (hslot : slot < 65536) (hne : record ≠ own)
    (hentry : c.executable.code.functions[c.executable.entry]? = some (.reading unit record slot lines))
    (hown : c.executable.code.record? = some own) (supply : Supply) (v : Value) :
    s.Reads supply cache name v ↔ s.memory.records.load record slot = .ok v := by
  obtain ⟨⟨fuel, done, hdone⟩, hruns⟩ := (s.accept c).memory.run_reading hrecord hslot hne refs s.options.invoke hentry hown
  -- Room for the new record changes no value.
  have hload : (s.accept c).memory.records.load record slot = s.memory.records.load record slot := by
    show (s.memory.records.ensure _).load record slot = _
    rw [Records.load, Records.record?_ensure, Records.load]
  rw [hload] at hruns
  constructor
  · rintro ⟨fuel, report, s', cache', hsubmit, houtcome, -⟩
    obtain ⟨-, done, run, -, hreport⟩ := (submitUnder_submits hsubmit).run loaded accepted
    refine ((hruns _ _ run).2 v).mp ?_
    rw [houtcome] at hreport
    split at hreport
    · rename_i w hvalue
      cases hreport
      exact hvalue
    · cases hreport
  · intro hv
    obtain ⟨hheap, hvalue⟩ := hruns _ _ hdone
    obtain ⟨report, s', cache', hsubmit⟩ := submitUnder_isSome (Cache.ensure_undisturbed loaded supply) accepted hdone
    obtain ⟨-, done', run, rfl, hreport⟩ := (submitUnder_submits hsubmit).run loaded accepted
    obtain rfl := Option.some.inj (hdone.symm.trans run)
    rw [(hvalue v).mpr hv] at hreport
    exact ⟨fuel, report, _, cache', hsubmit, hreport, hheap⟩

end Session
end ScriptEngine
