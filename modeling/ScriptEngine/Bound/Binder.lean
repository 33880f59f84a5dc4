import ScriptEngine.Bound
import ScriptEngine.Diagnostic
import ScriptEngine.Library
import ScriptEngine.Symbol

/-! Binding: every name of a fragment is looked up in the scopes around it, then among the unit's own
    declarations, the earlier submissions, the implicitly imported libraries and the intrinsics.

    Top-level functions are declared before anything is bound, and their bodies are bound after the
    top-level code, so they see every variable that the submission declares. -/

namespace ScriptEngine.Binder

/-- What a fragment is bound against. -/
structure Context where
  source : List Char
  unit : UnitKind
  /-- The earlier submissions, the newest first. -/
  earlier : List Declared
  references : ReferenceSet
  /-- Libraries whose functions need no qualification. -/
  imports : List String

structure Variable where
  name : String
  index : Nat
  mutable : Bool
  used : Bool
  span : Span

/-- The scopes of the function being bound, the innermost first and in each the newest first. The
    top level of an entry routine is the place outside of any scope. -/
structure Frame where
  scopes : List (List Variable)
  next : Nat
  isEntry : Bool

namespace Frame

def entry : Frame := ⟨[], 0, true⟩

def function : Frame := ⟨[[]], 0, false⟩

/-- Statements here declare session variables. -/
def atTopLevel (f : Frame) : Bool := f.isEntry && f.scopes.isEmpty

def find? (f : Frame) (name : String) : Option Variable := f.scopes.flatten.find? (·.name = name)

def markScope (name : String) : List Variable → List Variable
  | [] => []
  | v :: vs => if v.name = name then { v with used := true } :: vs else v :: markScope name vs

/-- Mark the variable with a name in the innermost scope that has one. -/
def markScopes (name : String) : List (List Variable) → List (List Variable)
  | [] => []
  | s :: ss => if s.any (·.name = name) then markScope name s :: ss else s :: markScopes name ss

def markUsed (f : Frame) (name : String) : Frame := { f with scopes := markScopes name f.scopes }

/-- Add a variable to the innermost scope and take the next local for it. -/
def declare (f : Frame) (name : String) (mutable : Bool) (span : Span) : Frame :=
  let v : Variable := ⟨name, f.next, mutable, false, span⟩
  { f with next := f.next + 1, scopes := match f.scopes with
      | [] => []
      | s :: ss => (v :: s) :: ss }

def openScope (f : Frame) : Frame := { f with scopes := [] :: f.scopes }

def closeScope (f : Frame) : Frame := { f with scopes := f.scopes.tail }

/-- The variables of the innermost scope, the oldest first. -/
def innermost (f : Frame) : List Variable := (f.scopes.head?.getD []).reverse

end Frame

structure State where
  symbols : Symbols
  imports : Array ImportRef
  diagnostics : Array Diagnostic
  frame : Frame

abbrev Bind := StateM State

inductive Resolution where
  | variable (v : Variable)
  | function (index arity : Nat)
  | slot (record index : Nat) (kind : SymbolKind)
  | imported (ref : ImportRef) (arity : Nat)
  | intrinsic (i : Intrinsic)
  | ambiguous (libraries : List String)
  | unknown

namespace Resolution

/-- The number of arguments, where it is known. -/
def arity? : Resolution → Option Arity
  | function _ arity => some (.exactly arity)
  | slot _ _ (.function arity _) => some (.exactly arity)
  | imported _ arity => some (.exactly arity)
  | intrinsic i => some i.arity
  | _ => none

/-- A name of the unit's own top level. -/
def ofOwn (unit : UnitKind) (s : Symbol) : Resolution :=
  match s.kind, unit.record? with
  | .function arity index, _ => function index arity
  | kind, some record => slot record s.slot kind
  | _, none => unknown

/-- A name of an earlier submission. -/
def ofEarlier (name : String) : List Declared → Option Resolution
  | [] => none
  | d :: ds =>
    match d.symbols.lookup? name with
    | some s => some (slot d.record s.slot s.kind)
    | none => ofEarlier name ds

/-- The implicitly imported libraries that have a function with a name, and its arity there. -/
def candidates (ctx : Context) (name : String) : List (String × Nat) :=
  ctx.imports.filterMap fun library => do
    let l ← ctx.references.library? library
    let e ← l.export? name
    return (library, e.arity)

def ofImports (ctx : Context) (name : String) : Resolution :=
  match candidates ctx name with
  | [] =>
    match Intrinsic.ofName? name with
    | some i => intrinsic i
    | none => unknown
  | [(library, arity)] => imported ⟨library, name⟩ arity
  | several => ambiguous (several.map (·.1))

def ofName (ctx : Context) (s : State) (name : String) : Resolution :=
  match s.frame.find? name with
  | some v => .variable v
  | none =>
    match s.symbols.lookup? name with
    | some symbol => ofOwn ctx.unit symbol
    | none => (ofEarlier name ctx.earlier).getD (ofImports ctx name)

end Resolution

/-! ### Messages -/

def report (ctx : Context) (notice : Notice) (span : Span) : Bind Unit :=
  modify fun s => { s with diagnostics := s.diagnostics.push (.make ctx.source notice span) }

def lineOf (ctx : Context) (span : Span) : Nat := (Position.ofOffset ctx.source span.start).line

def closeScope (ctx : Context) : Bind Unit := do
  let vars := (← get).frame.innermost
  modify fun s => { s with frame := s.frame.closeScope }
  vars.forM fun v =>
    if v.used || v.name.startsWith "_" then pure ()
    else report ctx (.unusedVariable v.name) v.span

def inScope {α : Type} (ctx : Context) (bound : Bind α) : Bind α := do
  modify fun s => { s with frame := s.frame.openScope }
  let x ← bound
  closeScope ctx
  return x

/-! ### Names -/

/-- What a name stands for where its value is read. -/
def resolveRead (ctx : Context) (name : String) : Bind Resolution := do
  let r := Resolution.ofName ctx (← get) name
  modify fun s => { s with frame := s.frame.markUsed name }
  return r

/-- What a qualified name stands for; a name that stands for nothing is reported. -/
def resolvePath (ctx : Context) (library member : Ident) : Bind Resolution := do
  if library.name = Intrinsic.library then
    match Intrinsic.ofName? member.name with
    | some i => return .intrinsic i
    | none =>
      report ctx (.unknownMember library.name member.name) member.span
      return .unknown
  else
    match ctx.references.library? library.name with
    | none =>
      report ctx (.unknownLibrary library.name) library.span
      return .unknown
    | some l =>
      match l.export? member.name with
      | some e => return .imported ⟨library.name, member.name⟩ e.arity
      | none =>
        report ctx (.unknownMember library.name member.name) member.span
        return .unknown

/-- The position of an import in the import table, which is extended if need be. -/
def importIndex (ref : ImportRef) : Bind Nat := do
  match (← get).imports.findIdx? (· = ref) with
  | some i => return i
  | none =>
    let size := (← get).imports.size
    modify fun s => { s with imports := s.imports.push ref }
    return size

def nameValue (ctx : Context) (ident : Ident) : Resolution → Bind Bound.Expr
  | .variable v => return .load (.frame v.index)
  | .function index _ => return .function index
  | .slot record index _ => return .load (.slot record index)
  | .imported ref _ => return .imported (← importIndex ref)
  | .intrinsic i => do
    report ctx (.intrinsicValue i) ident.span
    return .unit
  | .ambiguous libraries => do
    report ctx (.ambiguousImport ident.name libraries) ident.span
    return .unit
  | .unknown => do
    report ctx (.unknownName ident.name) ident.span
    return .unit

/-- The value of a qualified name, whose faults are already reported. -/
def pathValue (ctx : Context) (member : Ident) : Resolution → Bind Bound.Expr
  | .imported ref _ => return .imported (← importIndex ref)
  | .intrinsic i => do
    report ctx (.intrinsicValue i) member.span
    return .unit
  | _ => return .unit

/-- Check the number of arguments of a call to something known. -/
def checkArity (ctx : Context) (callee : String) (r : Resolution) (given : Nat) (span : Span) : Bind Unit :=
  match r.arity? with
  | some arity =>
    if arity.accepts given then pure () else report ctx (.arityMismatch callee arity given) span
  | none => pure ()

/-! ### Declarations and assignments -/

def declareLocal (name : Ident) (mutable : Bool) : Bind Nat := do
  let index := (← get).frame.next
  modify fun s => { s with frame := s.frame.declare name.name mutable name.span }
  return index

def declareSymbol (name : Ident) (kind : SymbolKind) : Bind Nat := do
  let slot := (← get).symbols.size
  modify fun s => { s with symbols := s.symbols.declare name.name kind name.span }
  return slot

/-- A top-level binding: a new slot of the submission's record. -/
def bindSlot (ctx : Context) (name : Ident) (mutable : Bool) (value : Option Bound.Expr) (line : Nat) :
    Bind (Option Bound.Stmt) := do
  let existing := (← get).symbols.lookup? name.name
  match existing.map Symbol.kind with
  | some (.function ..) =>
    report ctx (.functionRedeclared name.name) name.span
    return none
  | _ =>
    let slot ← declareSymbol name (.variable mutable)
    match ctx.unit.record?, value with
    | some record, some value => return some (.store (.slot record slot) value line)
    | _, _ => return none

def bindVariable (ctx : Context) (name : Ident) (mutable : Bool) (value : Option Bound.Expr) (line : Nat) :
    Bind (Option Bound.Stmt) := do
  if (← get).frame.atTopLevel then bindSlot ctx name mutable value line
  else
    let index ← declareLocal name mutable
    return some (.store (.frame index) (value.getD .unit) line)

def fixedTarget (ctx : Context) (target : FixedTarget) (name : Ident) : Bind Unit :=
  report ctx (.fixedAssign target name.name) name.span

/-- The place that an assignment changes. At the top level an unknown name becomes a new variable. -/
def assignPlace (ctx : Context) (target : Ident) : Resolution → Bind (Option Bound.Place)
  | .variable v => do
    if !v.mutable then fixedTarget ctx .binding target
    return some (.frame v.index)
  | .slot record index (.variable mutable) => do
    if !mutable then fixedTarget ctx .binding target
    return some (.slot record index)
  | .slot _ _ (.function ..) | .function .. => do
    fixedTarget ctx .function target
    return none
  | .imported .. | .intrinsic _ => do
    fixedTarget ctx .imported target
    return none
  | .ambiguous libraries => do
    report ctx (.ambiguousImport target.name libraries) target.span
    return none
  | .unknown => do
    match (← get).frame.atTopLevel, ctx.unit.record? with
    | true, some record =>
      let slot ← declareSymbol target (.variable true)
      report ctx (.implicitDeclaration target.name) target.span
      return some (.slot record slot)
    | true, none => return none
    | false, _ =>
      report ctx (.unknownName target.name) target.span
      return none

def bindAssign (ctx : Context) (target : Ident) (value : Bound.Expr) (line : Nat) : Bind (Option Bound.Stmt) := do
  let place ← assignPlace ctx target (Resolution.ofName ctx (← get) target.name)
  return place.map fun p => .store p value line

/-! ### Trees -/

def literal : Literal → Bound.Expr
  | .int value => .int value
  | .float value => .float value
  | .bool value => .bool value
  | .text value => .text value

def binary (op : BinaryOp) (left right : Bound.Expr) : Bound.Expr :=
  match op with
  | .and => .both left right
  | .or => .either left right
  | .add => .operate .add left right
  | .sub => .operate .sub left right
  | .mul => .operate .mul left right
  | .div => .operate .div left right
  | .rem => .operate .rem left right
  | .eq => .operate .eq left right
  | .notEq => .operate .ne left right
  | .lt => .operate .lt left right
  | .ltEq => .operate .le left right
  | .gt => .operate .gt left right
  | .gtEq => .operate .ge left right

def isZero : Tree.Expr → Bool
  | .literal (.int value) _ => value = 0
  | _ => false

/-- Report a division whose divisor is written as zero. -/
def checkDivisor (ctx : Context) (op : BinaryOp) (divisor : Tree.Expr) : Bind Unit :=
  if (op = .div || op = .rem) && isZero divisor then report ctx (.divideByZero op) divisor.span
  else pure ()

/-- Report the first statement after one that control never passes, functions apart. -/
def checkReachable (ctx : Context) (diverged warned : Bool) (s : Tree.Stmt) : Bind Bool :=
  match s with
  | .func .. => return warned
  | s =>
    if diverged && !warned then do
      report ctx .unreachableCode s.span
      return true
    else return warned

mutual

def expr (ctx : Context) (inLoop : Bool) : Tree.Expr → Bind Bound.Expr
  | .name ident => do nameValue ctx ident (← resolveRead ctx ident.name)
  | .path library member _ => do pathValue ctx member (← resolvePath ctx library member)
  | .literal value _ => return literal value
  | .binary op left right _ => do
    checkDivisor ctx op right
    let l ← expr ctx inLoop left
    let r ← expr ctx inLoop right
    return binary op l r
  | .unary op operand _ => return .unary op (← expr ctx inLoop operand)
  | .call callee args span =>
    match callee with
    | .name ident => do
      let r ← resolveRead ctx ident.name
      checkArity ctx ident.name r args.length span
      let bound ← exprs ctx inLoop args
      match r with
      | .intrinsic i => return .intrinsic i bound
      | r => return .call (← nameValue ctx ident r) bound
    | .path library member _ => do
      let r ← resolvePath ctx library member
      checkArity ctx (library.name ++ "::" ++ member.name) r args.length span
      let bound ← exprs ctx inLoop args
      match r with
      | .intrinsic i => return .intrinsic i bound
      | r => return .call (← pathValue ctx member r) bound
    | callee => do
      let bound ← exprs ctx inLoop args
      return .call (← expr ctx inLoop callee) bound
  | .index base position _ => do
    let b ← expr ctx inLoop base
    let p ← expr ctx inLoop position
    return .index b p
  | .list items _ => return .list (← exprs ctx inLoop items)
  | .branch b => branch ctx inLoop b
  | .block b => return .block (← inScope ctx (block ctx inLoop b))

def exprs (ctx : Context) (inLoop : Bool) : List Tree.Expr → Bind (List Bound.Expr)
  | [] => return []
  | e :: es => do
    let b ← expr ctx inLoop e
    return b :: (← exprs ctx inLoop es)

def branch (ctx : Context) (inLoop : Bool) : Tree.Branch → Bind Bound.Expr
  | .mk condition body other _ => do
    let c ← expr ctx inLoop condition
    let b ← inScope ctx (block ctx inLoop body)
    let o ← otherwise ctx inLoop other
    return .branch c b o

def otherwise (ctx : Context) (inLoop : Bool) : Tree.Otherwise → Bind Bound.Block
  | .nothing => return .empty
  | .block b => inScope ctx (block ctx inLoop b)
  | .branch b => do
    let line := lineOf ctx b.span
    return .mk [] (.value (← branch ctx inLoop b) line)

def block (ctx : Context) (inLoop : Bool) : Tree.Block → Bind Bound.Block
  | .mk body last _ => do
    let (bound, diverged, warned) ← stmts ctx inLoop false false body
    let t ← tail ctx inLoop (diverged && !warned) last
    return .mk bound t

/-- Statements in order. Also says whether control passes the end, and whether that was reported. -/
def stmts (ctx : Context) (inLoop diverged warned : Bool) :
    List Tree.Stmt → Bind (List Bound.Stmt × Bool × Bool)
  | [] => return ([], diverged, warned)
  | s :: ss => do
    let warned ← checkReachable ctx diverged warned s
    let first ← stmt ctx inLoop s
    let (rest, diverged, warned) ← stmts ctx inLoop (diverged || s.diverges) warned ss
    return (first.toList ++ rest, diverged, warned)

def stmt (ctx : Context) (inLoop : Bool) : Tree.Stmt → Bind (Option Bound.Stmt)
  | .bind name mutable value span => do
    let v ← optional ctx inLoop value
    bindVariable ctx name mutable v (lineOf ctx span)
  | .assign target value span => do
    let v ← expr ctx inLoop value
    bindAssign ctx target v (lineOf ctx span)
  | .setIndex base position value span => do
    let b ← expr ctx inLoop base
    let p ← expr ctx inLoop position
    let v ← expr ctx inLoop value
    return some (.setIndex b p v (lineOf ctx span))
  | .func name _ _ _ => do
    if !(← get).frame.atTopLevel then report ctx (.nestedFunction name.name) name.span
    return none
  | .eval e => return some (.eval (← expr ctx inLoop e) (lineOf ctx e.span))
  | .ret value span => do
    let v ← optional ctx inLoop value
    return some (.ret (v.getD .unit) (lineOf ctx span))
  | .loop condition body span => do
    let c ← expr ctx inLoop condition
    let b ← inScope ctx (block ctx true body)
    return some (.loop c b (lineOf ctx span))
  | .leave span => do
    if !inLoop then report ctx (.strayLoopControl .leave) span
    return some (.leave (lineOf ctx span))
  | .next span => do
    if !inLoop then report ctx (.strayLoopControl .next) span
    return some (.next (lineOf ctx span))

def optional (ctx : Context) (inLoop : Bool) : Option Tree.Expr → Bind (Option Bound.Expr)
  | none => return none
  | some e => return some (← expr ctx inLoop e)

/-- The tail of a block, which may be unreachable. -/
def tail (ctx : Context) (inLoop unreachable : Bool) : Option Tree.Expr → Bind Bound.Tail
  | none => return .nothing
  | some e => do
    if unreachable then report ctx .unreachableCode e.span
    return .value (← expr ctx inLoop e) (lineOf ctx e.span)

end

/-! ### Units -/

structure Declaration where
  name : Ident
  params : List Ident
  body : Tree.Block
  span : Span

/-- Declare the functions of the top level, and give those that could be declared. The first function to
    declare gets position `index`. -/
def hoist (ctx : Context) : List Tree.Stmt → Nat → Bind (List Declaration)
  | [], _ => return []
  | .func name params body span :: ss, index => do
    match (← get).symbols.lookup? name.name with
    | some first =>
      report ctx (.duplicateFunction name.name (lineOf ctx first.span)) name.span
      hoist ctx ss index
    | none =>
      let _ ← declareSymbol name (.function params.length index)
      return ⟨name, params, body, span⟩ :: (← hoist ctx ss (index + 1))
  | _ :: ss, index => hoist ctx ss index

/-- Parameters are the first locals of a function. -/
def params (ctx : Context) : List Ident → Bind Unit
  | [] => pure ()
  | p :: ps => do
    if (← get).frame.innermost.any (·.name = p.name) then
      report ctx (.duplicateParameter p.name) p.span
    let _ ← declareLocal p false
    params ctx ps

def function (ctx : Context) (d : Declaration) : Bind Bound.Func := do
  modify fun s => { s with frame := Frame.function }
  params ctx d.params
  let body ← block ctx false d.body
  closeScope ctx
  return { name := ctx.unit.qualified d.name.name
           arity := d.params.length
           locals := (← get).frame.next
           body := body
           line := lineOf ctx d.span }

def functions (ctx : Context) : List Declaration → Bind (List Bound.Func)
  | [] => return []
  | d :: ds => do
    let f ← function ctx d
    return f :: (← functions ctx ds)

/-- The routine that runs the top level of a script. -/
def entry (ctx : Context) (f : Tree.Fragment) (name : String) : Bind Bound.Func := do
  modify fun s => { s with frame := Frame.entry }
  let body ← block ctx false (.mk f.stmts f.tail f.span)
  return { name := name, arity := 0, locals := (← get).frame.next, body := body, line := lineOf ctx f.span }

/-- A library holds nothing but functions. -/
def rejectStatements (ctx : Context) (f : Tree.Fragment) : Bind Unit := do
  f.stmts.forM fun s =>
    match s with
    | .func .. => pure ()
    | s => report ctx .libraryStatement s.span
  match f.tail with
  | some e => report ctx .libraryStatement e.span
  | none => pure ()

/-- All functions of a unit: the declared ones, then the entry routine of a script. -/
def unitFunctions (ctx : Context) (f : Tree.Fragment) (declared : List Declaration) : Bind (List Bound.Func) := do
  match ctx.unit.entryName? with
  | some name =>
    let main ← entry ctx f name
    return (← functions ctx declared) ++ [main]
  | none =>
    rejectStatements ctx f
    functions ctx declared

/-- Where the entry routine stores the declared functions: they have the first slots. -/
def functionSlots (unit : UnitKind) (declared : List Declaration) : List Bound.FunctionSlot :=
  if unit.isScript then (List.range declared.length).map fun i => ⟨i, i⟩ else []

structure Output where
  symbols : Symbols
  program : Bound.Program
  diagnostics : List Diagnostic

def fragment (ctx : Context) (f : Tree.Fragment) : Bind Bound.Program := do
  let declared ← hoist ctx f.stmts 0
  let functions ← unitFunctions ctx f declared
  let s ← get
  return { functions := functions
           imports := s.imports
           slots := if ctx.unit.isScript then s.symbols.names else #[]
           functionSlots := functionSlots ctx.unit declared
           entry := if ctx.unit.isScript then some declared.length else none
           record := ctx.unit.record? }

def bind (ctx : Context) (f : Tree.Fragment) : Output :=
  let (program, s) := (fragment ctx f).run ⟨.empty, #[], #[], Frame.function⟩
  ⟨s.symbols, program, Diagnostic.sort s.diagnostics.toList⟩

end ScriptEngine.Binder
