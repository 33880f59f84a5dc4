import ScriptEngine.Image.LoadError

/-! Reading an image from bytes. -/

namespace ScriptEngine.Image

structure Stop where
  left : Nat
  reason : Malformation
  deriving Repr, DecidableEq

/-- Reads something off the front of the bytes. -/
abbrev Decoder := StateT (List UInt8) (Except Stop)

namespace Decoder

/-- Stop at the bytes that come next. -/
def stop {α : Type} (reason : Malformation) : Decoder α := do throw ⟨(← get).length, reason⟩

/-- The number that bytes write, the lowest first. -/
def valueOf : List UInt8 → Nat
  | [] => 0
  | b :: bs => b.toNat + 256 * valueOf bs

def number (width : Nat) : Decoder Nat := do
  let bytes ← get
  if bytes.length < width then stop .endOfData
  set (bytes.drop width)
  return valueOf (bytes.take width)

def byte : Decoder UInt8 := do return UInt8.ofNat (← number 1)

def word16 : Decoder UInt16 := do return UInt16.ofNat (← number 2)

def word32 : Decoder UInt32 := do return UInt32.ofNat (← number 4)

def word64 : Decoder UInt64 := do return UInt64.ofNat (← number 8)

/-- A text. Bytes that are no text stop before its length; a length past the end stops at the end. -/
def text : Decoder String := do
  let start ← get
  let length ← number 4
  let bytes ← get
  if bytes.length < length then throw ⟨0, .endOfData⟩
  match String.fromUTF8? ⟨(bytes.take length).toArray⟩ with
  | some s =>
    set (bytes.drop length)
    return s
  | none => throw ⟨start.length, .badText⟩

def times {α : Type} (entry : Decoder α) : Nat → Decoder (List α)
  | 0 => return []
  | n + 1 => do
    let x ← entry
    return x :: (← times entry n)

/-- A count and that many entries. Every entry takes a byte at least, so a count greater than the number
    of bytes left cannot be right. -/
def table {α : Type} (entry : Decoder α) : Decoder (List α) := do
  let count ← number 4
  if (← get).length < count then stop .endOfData
  times entry count

/-! ### Parts -/

def kind : Decoder ImageKind := do
  match ← byte with
  | 0 => return .submission
  | 1 => return .library
  | _ => stop .unknownTag

def slot : Decoder (UInt32 × UInt16) := do
  let record ← word32
  return (record, ← word16)

def instr : Decoder Instr := do
  match ← byte with
  | 0x00 => return .const (← word16)
  | 0x01 => return .unit
  | 0x02 => return .bool true
  | 0x03 => return .bool false
  | 0x04 => return .loadLocal (← word16)
  | 0x05 => return .storeLocal (← word16)
  | 0x06 => do let (record, index) ← slot; return .loadSlot record index
  | 0x07 => do let (record, index) ← slot; return .storeSlot record index
  | 0x08 => return .loadImport (← word16)
  | 0x09 => return .loadFunction (← word16)
  | 0x0A => return .openRecord
  | 0x10 => return .binary .add
  | 0x11 => return .binary .sub
  | 0x12 => return .binary .mul
  | 0x13 => return .binary .div
  | 0x14 => return .binary .rem
  | 0x15 => return .neg
  | 0x16 => return .not
  | 0x17 => return .binary .eq
  | 0x18 => return .binary .ne
  | 0x19 => return .binary .lt
  | 0x1A => return .binary .le
  | 0x1B => return .binary .gt
  | 0x1C => return .binary .ge
  | 0x20 => return .jump (← word32)
  | 0x21 => return .jumpIfFalse (← word32)
  | 0x22 => return .pop
  | 0x23 => return .call (← byte)
  | 0x24 => do
    let id ← byte
    return .intrinsic id (← byte)
  | 0x25 => return .makeList (← word16)
  | 0x26 => return .index
  | 0x27 => return .setIndex
  | 0x28 => return .ret
  | _ => stop .unknownOpcode

def constant : Decoder Constant := do
  match ← byte with
  | 0 => return .int (← word64).toInt64
  | 1 => return .float (← word64)
  | 2 => return .text (← text)
  | _ => stop .unknownTag

def lineMark : Decoder LineMark := do
  let start ← word32
  return ⟨start, ← word32⟩

def importRef : Decoder ImportRef := do
  let library ← text
  return ⟨library, ← text⟩

def routine : Decoder Routine := do
  let name ← text
  let arity ← byte
  let locals ← word16
  let constants ← table constant
  let code ← table instr
  let lines ← table lineMark
  return ⟨name, arity, locals, constants.toArray, code.toArray, lines⟩

def entry : Decoder (Option String) := do
  match ← byte with
  | 0 => return none
  | 1 => return some (← text)
  | _ => stop .unknownTag

def body : Decoder Image := do
  let kind ← kind
  let name ← text
  let ordinal ← word32
  let slots ← table text
  let imports ← table importRef
  let functions ← table routine
  let entry ← entry
  return ⟨kind, name, ordinal, slots.toArray, imports.toArray, functions.toArray, entry⟩

end Decoder

/-- Turn what is left at a stop into an offset from the start. -/
def located {α : Type} (size : Nat) : Except Stop α → Except LoadError α
  | .ok x => .ok x
  | .error stop => .error (.malformed (size - stop.left) stop.reason)

/-- The image that all of the bytes write. -/
def decode (bytes : List UInt8) : Except LoadError Image := do
  if bytes.take 4 ≠ magic then throw .badMagic
  let (version, rest) ← located bytes.length ((Decoder.number 2).run (bytes.drop 4))
  if version ≠ formatVersion then throw (.unsupportedVersion version)
  let (image, rest) ← located bytes.length (Decoder.body.run rest)
  if rest.isEmpty then return image
  else throw (.trailingBytes rest.length)

end ScriptEngine.Image
