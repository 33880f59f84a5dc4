import ScriptEngine.Image.Decoder
import ScriptEngine.Library
import ScriptEngine.Intrinsic

/-! Checking an image and linking it against the libraries it imports from. -/

namespace ScriptEngine.CodeModule

/-- What is wrong with the operands of an instruction of `r`, a routine of `image`. A slot of the
    submission's own record must exist; those of earlier records are known only when the code runs. -/
def operandFault? (image : Image) (r : Routine) : Instr → Option OperandFault
  | .const i => if i.toNat < r.constants.size then none else some (.constant i.toNat)
  | .loadLocal i | .storeLocal i => if i < r.locals then none else some (.localVariable i.toNat)
  | .loadSlot record i | .storeSlot record i =>
    match Image.ownRecord? image.kind image.ordinal with
    | none => some .noState
    | some own =>
      if record.toNat > own then some (.laterRecord record.toNat)
      else if record.toNat = own ∧ image.slots.size ≤ i.toNat then some (.slot i.toNat)
      else none
  | .loadImport i => if i.toNat < image.imports.size then none else some (.imported i.toNat)
  | .loadFunction i => if i.toNat < image.functions.size then none else some (.function i.toNat)
  | .openRecord => if (Image.ownRecord? image.kind image.ordinal).isSome then none else some .noRecord
  | .jump t | .jumpIfFalse t => if t.toNat < r.code.size then none else some (.target t.toNat)
  | .intrinsic id _ => if (Intrinsic.ofId? id).isSome then none else some (.intrinsic id.toNat)
  | _ => none

/-- Check instructions in order, the first one at position `pc`. -/
def checkCode (image : Image) (r : Routine) : List Instr → Nat → Except LoadError Unit
  | [], _ => .ok ()
  | i :: rest, pc =>
    match operandFault? image r i with
    | some fault => .error (.invalidOperand r.name pc fault)
    | none => checkCode image r rest (pc + 1)

/-- Check that a routine ends in a return, that its parameters are locals, and that all its operands are
    in range. -/
def checkRoutine (image : Image) (r : Routine) : Except LoadError Unit :=
  if r.code.back? ≠ some .ret then .error (.unterminated r.name)
  else if r.locals.toNat < r.arity.toNat then
    .error (.invalidOperand r.name 0 (.fewLocals r.locals.toNat r.arity.toNat))
  else checkCode image r r.code.toList 0

def linkImport (refs : ReferenceSet) (wanted : ImportRef) : Except LoadError Callable :=
  match refs.resolve? wanted with
  | some c => .ok c
  | none => .error (.unresolvedImport wanted)

def load (image : Image) (refs : ReferenceSet) : Except LoadError CodeModule := do
  image.functions.toList.forM (checkRoutine image)
  let imports ← image.imports.toList.mapM (linkImport refs)
  return ⟨image.name, image.kind, image.ordinal, image.functions, imports.toArray, image.slots⟩

/-- The position of the routine that runs a module's code: it has the name and takes no parameters. -/
def entry (m : CodeModule) (name : String) : Except LoadError Nat :=
  match m.find? name with
  | none => .error (.missingEntry name)
  | some i =>
    match m.functions[i]? with
    | none => .error (.missingEntry name)
    | some r => if r.arity = 0 then .ok i else .error (.invalidEntry name r.arity.toNat)

end ScriptEngine.CodeModule
