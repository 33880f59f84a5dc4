import ScriptEngine.Image

/-! The bytes of an image. Numbers are little endian, texts are a length of four bytes and UTF-8, and
    tables are a count of four bytes and their entries. -/

namespace ScriptEngine.Image

/-- The low `width` bytes of a number, the lowest first. -/
def numberBytes : (width : Nat) → Nat → List UInt8
  | 0, _ => []
  | width + 1, n => UInt8.ofNat n :: numberBytes width (n / 256)

def byte (b : UInt8) : List UInt8 := [b]

def word16 (n : UInt16) : List UInt8 := numberBytes 2 n.toNat

def word32 (n : UInt32) : List UInt8 := numberBytes 4 n.toNat

def word64 (n : UInt64) : List UInt8 := numberBytes 8 n.toNat

def textBytes (s : String) : List UInt8 :=
  let bytes := s.toUTF8.toList
  numberBytes 4 bytes.length ++ bytes

def tableBytes {α : Type} (entry : α → List UInt8) (xs : List α) : List UInt8 :=
  numberBytes 4 xs.length ++ xs.flatMap entry

/-! ### Parts -/

/-- The four bytes that every image starts with. -/
def magic : List UInt8 := [0x50, 0x52, 0x49, 0x4D]

def formatVersion : Nat := 1

def kindTag : ImageKind → UInt8
  | .submission => 0
  | .library => 1

def operatorCode : Operator → UInt8
  | .add => 0x10
  | .sub => 0x11
  | .mul => 0x12
  | .div => 0x13
  | .rem => 0x14
  | .eq => 0x17
  | .ne => 0x18
  | .lt => 0x19
  | .le => 0x1A
  | .gt => 0x1B
  | .ge => 0x1C

def instrBytes : Instr → List UInt8
  | .const index => 0x00 :: word16 index
  | .unit => [0x01]
  | .bool true => [0x02]
  | .bool false => [0x03]
  | .loadLocal index => 0x04 :: word16 index
  | .storeLocal index => 0x05 :: word16 index
  | .loadSlot record index => 0x06 :: (word32 record ++ word16 index)
  | .storeSlot record index => 0x07 :: (word32 record ++ word16 index)
  | .loadImport index => 0x08 :: word16 index
  | .loadFunction index => 0x09 :: word16 index
  | .openRecord => [0x0A]
  | .binary op => [operatorCode op]
  | .neg => [0x15]
  | .not => [0x16]
  | .jump target => 0x20 :: word32 target
  | .jumpIfFalse target => 0x21 :: word32 target
  | .pop => [0x22]
  | .call argc => [0x23, argc]
  | .intrinsic id argc => [0x24, id, argc]
  | .makeList count => 0x25 :: word16 count
  | .index => [0x26]
  | .setIndex => [0x27]
  | .ret => [0x28]

def constantBytes : Constant → List UInt8
  | .int value => 0 :: word64 value.toUInt64
  | .float bits => 1 :: word64 bits
  | .text value => 2 :: textBytes value

def lineMarkBytes (m : LineMark) : List UInt8 := word32 m.start ++ word32 m.line

def importBytes (i : ImportRef) : List UInt8 := textBytes i.library ++ textBytes i.name

def routineBytes (r : Routine) : List UInt8 :=
  textBytes r.name ++ byte r.arity ++ word16 r.locals ++ tableBytes constantBytes r.constants.toList ++
    tableBytes instrBytes r.code.toList ++ tableBytes lineMarkBytes r.lines

def entryBytes : Option String → List UInt8
  | none => [0]
  | some name => 1 :: textBytes name

/-! ### Whole images -/

def bodyBytes (image : Image) : List UInt8 :=
  byte (kindTag image.kind) ++ textBytes image.name ++ word32 image.ordinal ++
    tableBytes textBytes image.slots.toList ++ tableBytes importBytes image.imports.toList ++
    tableBytes routineBytes image.functions.toList ++ entryBytes image.entry

def bytes (image : Image) : List UInt8 :=
  magic ++ numberBytes 2 formatVersion ++ bodyBytes image

end ScriptEngine.Image
