import ScriptEngine.Bound
import ScriptEngine.Bound.EmitError
import ScriptEngine.Symbol

/-! Lowering bound units to images.

    Code is emitted for a given address. Sizes of code are known beforehand (`Size`), so every jump
    target is computed where the jump is emitted. -/

namespace ScriptEngine.Lowering

/-! ### Sizes -/

namespace Size

mutual

def expr : Bound.Expr → Nat
  | .unit | .int _ | .float _ | .bool _ | .text _ | .load _ | .function _ | .imported _ => 1
  | .both left right => expr left + expr right + 5
  | .either left right => expr left + expr right + 7
  | .operate _ left right => expr left + expr right + 1
  | .unary _ operand => expr operand + 1
  | .call callee args => expr callee + exprs args + 1
  | .intrinsic _ args => exprs args + 1
  | .index base position => expr base + expr position + 1
  | .list items => exprs items + 1
  | .branch condition body otherwise => expr condition + block body + block otherwise + 2
  | .block b => block b

def exprs : List Bound.Expr → Nat
  | [] => 0
  | e :: es => expr e + exprs es

def stmt : Bound.Stmt → Nat
  | .store _ value _ => expr value + 1
  | .setIndex base position value _ => expr base + expr position + expr value + 1
  | .eval e _ => expr e + 1
  | .ret value _ => expr value + 1
  | .loop condition body _ => expr condition + block body + 3
  | .leave _ | .next _ => 1

def stmts : List Bound.Stmt → Nat
  | [] => 0
  | s :: ss => stmt s + stmts ss

def tail : Bound.Tail → Nat
  | .nothing => 1
  | .value e _ => expr e

def block : Bound.Block → Nat
  | .mk body last => stmts body + tail last

end

end Size

/-! ### Tables -/

/-- The tables that grow while a routine is emitted. -/
structure Tables where
  constants : Array Constant
  lines : List LineMark
  /-- The source line of the code emitted last. -/
  line : Option Nat

abbrev Emit := StateT Tables (Except EmitError)

/-- Where the jumps out of the innermost loop go. -/
structure LoopTargets where
  start : Nat
  exit : Nat

structure Context where
  function : String
  loop : Option LoopTargets

def target (ctx : Context) (pc : Nat) : Emit UInt32 :=
  if pc < 4294967296 then return UInt32.ofNat pc else throw (.codeTooLarge ctx.function)

/-- The position of a constant, which is added if it is new. -/
def constant (ctx : Context) (c : Constant) : Emit (List Instr) := do
  let constants := (← get).constants
  let (index, constants) := match constants.findIdx? (· = c) with
    | some i => (i, constants)
    | none => (constants.size, constants.push c)
  if index < constantLimit then
    modify fun t => { t with constants := constants }
    return [.const (UInt16.ofNat index)]
  else throw (.tooManyConstants ctx.function)

/-- Give the line of the mark at `pc`, if the last mark stands there, or add a mark. -/
def markLine (mark : LineMark) : List LineMark → List LineMark
  | [] => [mark]
  | [last] => if last.start = mark.start then [mark] else [last, mark]
  | first :: rest => first :: markLine mark rest

/-- The code from `pc` on belongs to a source line. -/
def setLine (ctx : Context) (pc line : Nat) : Emit Unit := do
  if (← get).line = some line then return
  let start ← target ctx pc
  modify fun t => { t with lines := markLine ⟨start, UInt32.ofNat line⟩ t.lines, line := some line }

def narrow (index : Nat) : Emit UInt16 :=
  if index < 65536 then return UInt16.ofNat index else throw (.tooManyEntries .indices (index + 1))

def localIndex (ctx : Context) (index : Nat) : Emit UInt16 :=
  if index ≤ wordLimit then return UInt16.ofNat index else throw (.tooManyLocals ctx.function)

def recordIndex (record : Nat) : Emit UInt32 :=
  if record < 4294967296 then return UInt32.ofNat record else throw (.tooManyEntries .submissions record)

def argumentCount (ctx : Context) (count : Nat) : Emit UInt8 :=
  if count ≤ argumentLimit then return UInt8.ofNat count
  else throw (.tooManyArguments ctx.function count)

def elementCount (ctx : Context) (count : Nat) : Emit UInt16 :=
  if count ≤ wordLimit then return UInt16.ofNat count
  else throw (.tooManyElements ctx.function count)

def load (ctx : Context) : Bound.Place → Emit (List Instr)
  | .frame index => return [.loadLocal (← localIndex ctx index)]
  | .slot record index => do
    let r ← recordIndex record
    return [.loadSlot r (← narrow index)]

def store (ctx : Context) : Bound.Place → Emit (List Instr)
  | .frame index => return [.storeLocal (← localIndex ctx index)]
  | .slot record index => do
    let r ← recordIndex record
    return [.storeSlot r (← narrow index)]

/-! ### Code -/

mutual

/-- The code of an expression at address `pc`: it leaves the value on the stack. -/
def expr (ctx : Context) (pc : Nat) : Bound.Expr → Emit (List Instr)
  | .unit => return [.unit]
  | .bool value => return [.bool value]
  | .int value => constant ctx (.int value)
  | .float value => constant ctx (.float value.toBits)
  | .text value => constant ctx (.text value)
  | .load place => load ctx place
  | .function index => return [.loadFunction (← narrow index)]
  | .imported index => return [.loadImport (← narrow index)]
  | .both left right => do
    let l ← expr ctx pc left
    let r ← expr ctx (pc + Size.expr left + 1) right
    let fails := pc + Size.expr left + Size.expr right + 4
    let no ← target ctx fails
    let done ← target ctx (fails + 1)
    return l ++ [.jumpIfFalse no] ++ r ++ [.jumpIfFalse no, .bool true, .jump done, .bool false]
  | .either left right => do
    let l ← expr ctx pc left
    let second := pc + Size.expr left + 3
    let r ← expr ctx second right
    let fails := second + Size.expr right + 3
    let other ← target ctx second
    let no ← target ctx fails
    let done ← target ctx (fails + 1)
    return l ++ [.jumpIfFalse other, .bool true, .jump done] ++ r ++
      [.jumpIfFalse no, .bool true, .jump done, .bool false]
  | .operate op left right => do
    let l ← expr ctx pc left
    let r ← expr ctx (pc + Size.expr left) right
    return l ++ r ++ [.binary op]
  | .unary op operand => do
    let e ← expr ctx pc operand
    return e ++ [match op with | .neg => .neg | .not => .not]
  | .call callee args => do
    let argc ← argumentCount ctx args.length
    let c ← expr ctx pc callee
    let a ← exprs ctx (pc + Size.expr callee) args
    return c ++ a ++ [.call argc]
  | .intrinsic i args => do
    let argc ← argumentCount ctx args.length
    let a ← exprs ctx pc args
    return a ++ [.intrinsic i.id argc]
  | .index base position => do
    let b ← expr ctx pc base
    let p ← expr ctx (pc + Size.expr base) position
    return b ++ p ++ [.index]
  | .list items => do
    let count ← elementCount ctx items.length
    let a ← exprs ctx pc items
    return a ++ [.makeList count]
  | .branch condition body otherwise => do
    let c ← expr ctx pc condition
    let start := pc + Size.expr condition + 1
    let b ← block ctx start body
    let second := start + Size.block body + 1
    let o ← block ctx second otherwise
    let other ← target ctx second
    let done ← target ctx (second + Size.block otherwise)
    return c ++ [.jumpIfFalse other] ++ b ++ [.jump done] ++ o
  | .block b => block ctx pc b

def exprs (ctx : Context) (pc : Nat) : List Bound.Expr → Emit (List Instr)
  | [] => return []
  | e :: es => do
    let first ← expr ctx pc e
    let rest ← exprs ctx (pc + Size.expr e) es
    return first ++ rest

/-- The code of a statement at address `pc`: it leaves the stack as it was. -/
def stmt (ctx : Context) (pc : Nat) : Bound.Stmt → Emit (List Instr)
  | .store place value line => do
    setLine ctx pc line
    let v ← expr ctx pc value
    return v ++ (← store ctx place)
  | .setIndex base position value line => do
    setLine ctx pc line
    let b ← expr ctx pc base
    let p ← expr ctx (pc + Size.expr base) position
    let v ← expr ctx (pc + Size.expr base + Size.expr position) value
    return b ++ p ++ v ++ [.setIndex]
  | .eval e line => do
    setLine ctx pc line
    return (← expr ctx pc e) ++ [.pop]
  | .ret value line => do
    setLine ctx pc line
    return (← expr ctx pc value) ++ [.ret]
  | .loop condition body line => do
    setLine ctx pc line
    let c ← expr ctx pc condition
    let start := pc + Size.expr condition + 1
    let exit := start + Size.block body + 2
    let b ← block { ctx with loop := some ⟨pc, exit⟩ } start body
    let again ← target ctx pc
    let out ← target ctx exit
    return c ++ [.jumpIfFalse out] ++ b ++ [.pop, .jump again]
  | .leave line => do
    setLine ctx pc line
    match ctx.loop with
    | some targets => return [.jump (← target ctx targets.exit)]
    | none => throw (.strayLoopControl ctx.function .leave)
  | .next line => do
    setLine ctx pc line
    match ctx.loop with
    | some targets => return [.jump (← target ctx targets.start)]
    | none => throw (.strayLoopControl ctx.function .next)

def stmts (ctx : Context) (pc : Nat) : List Bound.Stmt → Emit (List Instr)
  | [] => return []
  | s :: ss => do
    let first ← stmt ctx pc s
    let rest ← stmts ctx (pc + Size.stmt s) ss
    return first ++ rest

def tail (ctx : Context) (pc : Nat) : Bound.Tail → Emit (List Instr)
  | .nothing => return [.unit]
  | .value e line => do
    setLine ctx pc line
    expr ctx pc e

def block (ctx : Context) (pc : Nat) : Bound.Block → Emit (List Instr)
  | .mk body last => do
    let b ← stmts ctx pc body
    let t ← tail ctx (pc + Size.stmts body) last
    return b ++ t

end

/-! ### Routines and images -/

/-- What an entry routine does first: it creates the submission's record and stores the declared
    functions there. -/
def prologue (record : Nat) : List Bound.FunctionSlot → Emit (List Instr)
  | [] => return []
  | s :: ss => do
    let f ← narrow s.function
    let r ← recordIndex record
    let i ← narrow s.slot
    return .loadFunction f :: .storeSlot r i :: (← prologue record ss)

def prologueOf (p : Bound.Program) (index : Nat) : Emit (List Instr) :=
  match p.record with
  | some record =>
    if p.entry = some index then return .openRecord :: (← prologue record p.functionSlots)
    else return []
  | none => return []

def routineCode (p : Bound.Program) (index : Nat) (f : Bound.Func) : Emit (List Instr) := do
  let ctx : Context := ⟨f.name, none⟩
  setLine ctx 0 f.line
  let start ← prologueOf p index
  let body ← block ctx start.length f.body
  return start ++ body ++ [.ret]

def routine (p : Bound.Program) (index : Nat) (f : Bound.Func) : Except EmitError Routine := do
  if f.arity > argumentLimit then throw (.tooManyParameters f.name f.arity)
  if f.locals > wordLimit then throw (.tooManyLocals f.name)
  let (code, tables) ← (routineCode p index f).run ⟨#[], [], none⟩
  return { name := f.name
           arity := UInt8.ofNat f.arity
           locals := UInt16.ofNat f.locals
           constants := tables.constants
           code := code.toArray
           lines := tables.lines }

/-- Routines in order, the first one at position `index`. -/
def routines (p : Bound.Program) : List Bound.Func → Nat → Except EmitError (List Routine)
  | [], _ => return []
  | f :: fs, index => do
    let r ← routine p index f
    return r :: (← routines p fs (index + 1))

def checkEntries (table : EntryTable) (count : Nat) : Except EmitError Unit :=
  if count ≤ table.limit then .ok () else .error (.tooManyEntries table count)

def image (unit : UnitKind) (p : Bound.Program) : Except EmitError Image := do
  checkEntries .functions p.functions.length
  checkEntries .imports p.imports.size
  checkEntries .slots p.slots.size
  let functions ← routines p p.functions 0
  return { kind := match unit with | .script _ => .submission | .library _ => .library
           name := unit.qualifier
           ordinal := match unit with | .script n => UInt32.ofNat n | .library _ => 0
           slots := p.slots
           imports := p.imports
           functions := functions.toArray
           entry := unit.entryName? }

end ScriptEngine.Lowering
