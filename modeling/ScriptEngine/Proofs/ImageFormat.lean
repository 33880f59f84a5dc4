import Mathlib.Algebra.Group.Nat.Defs
import ScriptEngine.Proofs.Sequencing

/-! The format of images. Reading undoes writing and writing undoes reading: an image whose lengths can be
    written in four bytes has exactly one written form, no written form is the beginning of another one, and
    the place where reading stops lies within the bytes.

    Each part of the format has a writer and a decoder. `Reads` says that they belong together; it is proved
    for each part from what holds of the parts inside it. -/

namespace ScriptEngine.Image

/-! ### Lengths -/

/-- A length that four bytes can hold. -/
def LengthFits (n : Nat) : Prop := n < 4294967296

def TextFits (s : String) : Prop := LengthFits s.utf8ByteSize

/-- A table of entries whose count can be written, each of which can be written. -/
def TableFits {α : Type} (entry : α → Prop) (xs : List α) : Prop := LengthFits xs.length ∧ ∀ x ∈ xs, entry x

def ConstantFits : Constant → Prop
  | .text s => TextFits s
  | _ => True

def ImportFits (i : ImportRef) : Prop := TextFits i.library ∧ TextFits i.name

structure RoutineFits (r : Routine) : Prop where
  name : TextFits r.name
  constants : TableFits ConstantFits r.constants.toList
  code : LengthFits r.code.size
  lines : LengthFits r.lines.length

/-- Every length of an image can be written in four bytes. -/
structure Fits (image : Image) : Prop where
  name : TextFits image.name
  slots : TableFits TextFits image.slots.toList
  imports : TableFits ImportFits image.imports.toList
  functions : TableFits RoutineFits image.functions.toList
  entry : ∀ name ∈ image.entry, TextFits name

instance (n : Nat) : Decidable (LengthFits n) := inferInstanceAs (Decidable (n < 4294967296))

instance (s : String) : Decidable (TextFits s) := inferInstanceAs (Decidable (LengthFits s.utf8ByteSize))

instance {α : Type} (entry : α → Prop) [DecidablePred entry] (xs : List α) : Decidable (TableFits entry xs) :=
  inferInstanceAs (Decidable (LengthFits xs.length ∧ ∀ x ∈ xs, entry x))

instance : DecidablePred ConstantFits
  | .int _ => isTrue trivial
  | .float _ => isTrue trivial
  | .text s => inferInstanceAs (Decidable (TextFits s))

instance (i : ImportRef) : Decidable (ImportFits i) :=
  inferInstanceAs (Decidable (TextFits i.library ∧ TextFits i.name))

theorem routineFits_iff {r : Routine} : RoutineFits r ↔ TextFits r.name ∧
    TableFits ConstantFits r.constants.toList ∧ LengthFits r.code.size ∧ LengthFits r.lines.length :=
  ⟨fun h => ⟨h.name, h.constants, h.code, h.lines⟩, fun h => ⟨h.1, h.2.1, h.2.2.1, h.2.2.2⟩⟩

instance : DecidablePred RoutineFits := fun _ => decidable_of_iff _ routineFits_iff.symm

theorem fits_iff {image : Image} : image.Fits ↔ TextFits image.name ∧ TableFits TextFits image.slots.toList ∧
    TableFits ImportFits image.imports.toList ∧ TableFits RoutineFits image.functions.toList ∧
    ∀ name ∈ image.entry, TextFits name :=
  ⟨fun h => ⟨h.name, h.slots, h.imports, h.functions, h.entry⟩,
    fun h => ⟨h.1, h.2.1, h.2.2.1, h.2.2.2.1, h.2.2.2.2⟩⟩

instance (image : Image) : Decidable image.Fits := decidable_of_iff _ fits_iff.symm

/-! ### Bytes -/

theorem length_numberBytes (width n : Nat) : (numberBytes width n).length = width := by
  induction width generalizing n with
  | zero => rfl
  | succ width ih => rw [numberBytes, List.length_cons, ih]

theorem valueOf_numberBytes {width n : Nat} (h : n < 256 ^ width) :
    Decoder.valueOf (numberBytes width n) = n := by
  induction width generalizing n with
  | zero =>
    rw [Nat.pow_zero] at h
    rw [numberBytes, Decoder.valueOf]
    omega
  | succ width ih =>
    have hdiv : n / 256 < 256 ^ width := by
      rw [Nat.pow_succ] at h
      exact Nat.div_lt_of_lt_mul (by omega)
    have hlow : (UInt8.ofNat n).toNat = n % 256 := UInt8.toNat_ofNat'
    rw [numberBytes, Decoder.valueOf, ih hdiv, hlow]
    omega

theorem valueOf_lt (bytes : List UInt8) : Decoder.valueOf bytes < 256 ^ bytes.length := by
  induction bytes with
  | nil => simp [Decoder.valueOf]
  | cons b bytes ih =>
    have hb : b.toNat < 256 := b.toNat_lt
    rw [Decoder.valueOf, List.length_cons, Nat.pow_succ]
    omega

theorem numberBytes_valueOf (bytes : List UInt8) :
    numberBytes bytes.length (Decoder.valueOf bytes) = bytes := by
  induction bytes with
  | nil => rfl
  | cons b bytes ih =>
    have hb : b.toNat < 256 := b.toNat_lt
    have hdiv : (b.toNat + 256 * Decoder.valueOf bytes) / 256 = Decoder.valueOf bytes := by omega
    have hlow : UInt8.ofNat (b.toNat + 256 * Decoder.valueOf bytes) = b := by
      apply UInt8.toNat_inj.mp
      rw [UInt8.toNat_ofNat']
      omega
    rw [Decoder.valueOf, List.length_cons, numberBytes, hdiv, ih, hlow]

/-- What the loop behind `ByteArray.toList` has collected, then what is left. -/
theorem toList_loop_eq (b : ByteArray) (i : Nat) (collected : List UInt8) :
    ByteArray.toList.loop b i collected = collected.reverse ++ b.data.toList.drop i := by
  fun_induction ByteArray.toList.loop b i collected with
  | case1 i collected h ih =>
    have bound : i < b.data.toList.length := h
    have hget : b.get! i = b.data.toList[i] := getElem!_pos b.data i h
    rw [ih, List.drop_eq_getElem_cons bound, hget, List.reverse_cons, List.append_assoc, List.singleton_append]
  | case2 i collected h =>
    rw [List.drop_eq_nil_of_le (Nat.le_of_not_lt h), List.append_nil]

theorem toList_eq_data (b : ByteArray) : b.toList = b.data.toList := toList_loop_eq b 0 []

theorem length_utf8 (s : String) : s.toUTF8.toList.length = s.utf8ByteSize := by
  rw [toList_eq_data]
  rfl

/-- The bytes of a text, read as a text. -/
theorem fromUTF8?_eq_some_iff {bytes : List UInt8} {s : String} :
    String.fromUTF8? ⟨bytes.toArray⟩ = some s ↔ bytes = s.toUTF8.toList := by
  rw [toList_eq_data, String.toUTF8_eq_toByteArray]
  constructor
  · intro h
    rw [String.fromUTF8?] at h
    split at h
    · cases h
      rfl
    · cases h
  · rintro rfl
    have hbytes : (⟨s.toByteArray.data.toList.toArray⟩ : ByteArray) = s.toByteArray := by simp
    rw [hbytes, String.fromUTF8?, dif_pos s.isValidUTF8]
    rfl

/-! ### Decoders and writers -/

namespace Decoder

/-- The decoder reads back what is written of the values in `range`, and reads nothing else. -/
structure Reads {α : Type} (entry : Decoder α) (written : α → List UInt8) (range : α → Prop) : Prop where
  back : ∀ {x : α} (rest : List UInt8), range x → entry.run (written x ++ rest) = .ok (x, rest)
  only : ∀ {bytes : List UInt8} {x : α} {rest : List UInt8}, entry.run bytes = .ok (x, rest) →
    range x ∧ bytes = written x ++ rest

/-- The decoder leaves no more bytes than there were, also where it stops. -/
def Shrinks {α : Type} (entry : Decoder α) : Prop := ∀ bytes : List UInt8,
  match entry.run bytes with
  | .ok (_, rest) => rest.length ≤ bytes.length
  | .error stop => stop.left ≤ bytes.length

section
variable {α β : Type} {d : Decoder α} {k : α → Decoder β} {written : α → List UInt8} {range : α → Prop}

/-- Reading on after something that was written. -/
theorem Reads.run_bind (h : Reads d written range) {x : α} (hx : range x) (rest : List UInt8) :
    (d >>= k).run (written x ++ rest) = (k x).run rest := by
  rw [StateT.run_bind, h.back rest hx]
  rfl

/-- Two values that can be read back and are written in the same way are the same. -/
theorem Reads.unique (h : Reads d written range) {x y : α} {rest rest' : List UInt8} (hx : range x) (hy : range y)
    (heq : written x ++ rest = written y ++ rest') : x = y ∧ rest = rest' := by
  have hback := h.back rest hx
  rw [heq, h.back rest' hy] at hback
  cases hback
  exact ⟨rfl, rfl⟩

theorem Shrinks.pure (x : α) : Shrinks (pure x : Decoder α) := fun bytes => Nat.le_refl bytes.length

theorem Shrinks.stop (reason : Malformation) : Shrinks (stop reason : Decoder α) :=
  fun bytes => Nat.le_refl bytes.length

theorem Shrinks.bind (hd : Shrinks d) (hk : ∀ x, Shrinks (k x)) : Shrinks (d >>= k) := by
  intro bytes
  have first := hd bytes
  rw [StateT.run_bind]
  cases h : d.run bytes with
  | error stop =>
    rw [h] at first
    exact first
  | ok read =>
    obtain ⟨x, mid⟩ := read
    rw [h] at first
    have second := hk x mid
    show match (k x).run mid with
      | .ok (_, rest) => rest.length ≤ bytes.length
      | .error stop => stop.left ≤ bytes.length
    cases h' : (k x).run mid with
    | error stop =>
      rw [h'] at second
      exact Nat.le_trans second first
    | ok read =>
      rw [h'] at second
      exact Nat.le_trans second first

end

/-! ### Numbers -/

theorem run_number (width : Nat) (bytes : List UInt8) : (number width).run bytes =
    if bytes.length < width then .error ⟨bytes.length, .endOfData⟩
    else .ok (valueOf (bytes.take width), bytes.drop width) := by
  have hrun : (number width).run bytes =
      (if bytes.length < width then do
        stop .endOfData
        set (bytes.drop width)
        return valueOf (bytes.take width)
      else do
        set (bytes.drop width)
        return valueOf (bytes.take width) : Decoder Nat).run bytes := rfl
  rw [hrun]
  split <;> rfl

theorem reads_number (width : Nat) : Reads (number width) (numberBytes width) (· < 256 ^ width) where
  back {n} rest hn := by
    have hlength := length_numberBytes width n
    rw [run_number, if_neg (by rw [List.length_append]; omega), List.take_left' hlength,
      List.drop_left' hlength, valueOf_numberBytes hn]
  only {bytes n rest} h := by
    rw [run_number] at h
    split at h
    · cases h
    · rename_i hlong
      cases h
      have hlength : (bytes.take width).length = width := by rw [List.length_take]; omega
      have hlt := valueOf_lt (bytes.take width)
      have hback := numberBytes_valueOf (bytes.take width)
      rw [hlength] at hlt hback
      rw [hback, List.take_append_drop]
      exact ⟨hlt, rfl⟩

theorem shrinks_number (width : Nat) : Shrinks (number width) := by
  intro bytes
  rw [run_number]
  by_cases h : bytes.length < width
  · simp only [h, if_true]
    exact Nat.le_refl _
  · simp only [h, if_false]
    rw [List.length_drop]
    omega

/-- A number read as a word that holds as many bytes. -/
theorem Reads.word {α : Type} {width : Nat} {make : Nat → α} {toNat : α → Nat}
    (hmake : ∀ x, make (toNat x) = x) (hto : ∀ n, n < 256 ^ width → toNat (make n) = n)
    (hlt : ∀ x, toNat x < 256 ^ width) :
    Reads (do return make (← number width)) (fun x => numberBytes width (toNat x)) fun _ => True where
  back {x} rest _ := by
    rw [(reads_number width).run_bind (hlt x), hmake]
    rfl
  only {bytes x rest} h := by
    obtain ⟨n, mid, hn, h⟩ := run_bind_eq_ok.mp h
    obtain ⟨rfl, rfl⟩ := run_pure_eq_ok.mp h
    obtain ⟨hrange, rfl⟩ := (reads_number width).only hn
    rw [hto n hrange]
    exact ⟨trivial, rfl⟩

theorem reads_word16 : Reads word16 Image.word16 fun _ => True :=
  .word (fun _ => UInt16.ofNat_toNat) (fun _ hn => UInt16.toNat_ofNat_of_lt' hn) fun x => x.toNat_lt

theorem reads_word32 : Reads word32 Image.word32 fun _ => True :=
  .word (fun _ => UInt32.ofNat_toNat) (fun _ hn => UInt32.toNat_ofNat_of_lt' hn) fun x => x.toNat_lt

theorem reads_word64 : Reads word64 Image.word64 fun _ => True :=
  .word (fun _ => UInt64.ofNat_toNat) (fun _ hn => UInt64.toNat_ofNat_of_lt' hn) fun x => x.toNat_lt

theorem reads_byte : Reads byte Image.byte fun _ => True := by
  have h : Reads byte (fun b => numberBytes 1 b.toNat) fun _ => True :=
    .word (fun _ => UInt8.ofNat_toNat) (fun _ hn => UInt8.toNat_ofNat_of_lt' hn) fun x => x.toNat_lt
  have hwritten : (fun b : UInt8 => numberBytes 1 b.toNat) = Image.byte := by
    funext b
    rw [numberBytes, numberBytes, UInt8.ofNat_toNat, Image.byte]
  rwa [hwritten] at h

theorem shrinks_word16 : Shrinks word16 := (shrinks_number 2).bind fun _ => .pure _

theorem shrinks_word32 : Shrinks word32 := (shrinks_number 4).bind fun _ => .pure _

theorem shrinks_word64 : Shrinks word64 := (shrinks_number 8).bind fun _ => .pure _

theorem shrinks_byte : Shrinks byte := (shrinks_number 1).bind fun _ => .pure _

/-! ### Texts and tables -/

/-- What is read of a text once its length is known; `start` counts the bytes before the length. -/
def content (start length : Nat) (bytes : List UInt8) : Except Stop (String × List UInt8) :=
  if bytes.length < length then .error ⟨0, .endOfData⟩
  else
    match String.fromUTF8? ⟨(bytes.take length).toArray⟩ with
    | some s => .ok (s, bytes.drop length)
    | none => .error ⟨start, .badText⟩

theorem run_text (bytes : List UInt8) : text.run bytes =
    match (number 4).run bytes with
    | .ok (length, rest) => content bytes.length length rest
    | .error stop => .error stop := by
  have hrun : text.run bytes = ((number 4).run bytes).bind fun read =>
      (if read.2.length < read.1 then do
        throw ⟨0, .endOfData⟩
        match String.fromUTF8? ⟨(read.2.take read.1).toArray⟩ with
          | some s => do
            set (read.2.drop read.1)
            return s
          | none => throw ⟨bytes.length, .badText⟩
      else
        match String.fromUTF8? ⟨(read.2.take read.1).toArray⟩ with
          | some s => do
            set (read.2.drop read.1)
            return s
          | none => throw ⟨bytes.length, .badText⟩ : Decoder String).run read.2 := rfl
  rw [hrun]
  cases (number 4).run bytes with
  | error stop => rfl
  | ok read =>
    obtain ⟨length, rest⟩ := read
    simp only [Except.bind, content]
    split
    · rfl
    · split <;> rfl

theorem reads_text : Reads text textBytes TextFits where
  back {s} rest hs := by
    have hlength := length_utf8 s
    rw [run_text, textBytes, List.append_assoc, (reads_number 4).back _ (by rw [hlength]; exact hs)]
    show content _ s.toUTF8.toList.length (s.toUTF8.toList ++ rest) = _
    rw [content, if_neg (by rw [List.length_append]; omega), List.take_left, List.drop_left,
      fromUTF8?_eq_some_iff.mpr rfl]
  only {bytes s rest} h := by
    rw [run_text] at h
    cases hn : (number 4).run bytes with
    | error stop =>
      rw [hn] at h
      cases h
    | ok read =>
      obtain ⟨length, mid⟩ := read
      obtain ⟨hrange, rfl⟩ := (reads_number 4).only hn
      rw [hn] at h
      simp only [content] at h
      split at h
      · cases h
      · rename_i hlong
        split at h
        · rename_i s' hs
          cases h
          have hbytes := fromUTF8?_eq_some_iff.mp hs
          have hlength : s.toUTF8.toList.length = length := by
            rw [← hbytes, List.length_take]
            omega
          refine ⟨?_, ?_⟩
          · rw [TextFits, LengthFits, ← length_utf8, hlength]
            exact hrange
          · rw [textBytes, hlength, ← hbytes, List.append_assoc, List.take_append_drop]
        · cases h

theorem shrinks_text : Shrinks text := by
  intro bytes
  have first := shrinks_number 4 bytes
  rw [run_text]
  cases hn : (number 4).run bytes with
  | error stop =>
    rw [hn] at first
    exact first
  | ok read =>
    obtain ⟨length, mid⟩ := read
    rw [hn] at first
    simp only [content]
    by_cases hlong : mid.length < length
    · simp only [hlong, if_true]
      exact Nat.zero_le _
    · simp only [hlong, if_false]
      cases String.fromUTF8? ⟨(mid.take length).toArray⟩ with
      | none => exact Nat.le_refl _
      | some s =>
        show (mid.drop length).length ≤ bytes.length
        rw [List.length_drop]
        have : mid.length ≤ bytes.length := first
        omega

section
variable {α : Type} {entry : Decoder α} {written : α → List UInt8} {range : α → Prop}

theorem Reads.times (h : Reads entry written range) (xs : List α) (rest : List UInt8) (hxs : ∀ x ∈ xs, range x) :
    (times entry xs.length).run (xs.flatMap written ++ rest) = .ok (xs, rest) := by
  induction xs with
  | nil => rfl
  | cons x xs ih =>
    have htail := ih fun y hy => hxs y (List.mem_cons_of_mem x hy)
    rw [List.length_cons, Decoder.times, List.flatMap_cons, List.append_assoc, h.run_bind (hxs x List.mem_cons_self)]
    exact run_bind_eq_ok.mpr ⟨xs, rest, htail, rfl⟩

theorem Reads.times_only (h : Reads entry written range) {n : Nat} {bytes rest : List UInt8} {xs : List α}
    (hrun : (Decoder.times entry n).run bytes = .ok (xs, rest)) :
    xs.length = n ∧ (∀ x ∈ xs, range x) ∧ bytes = xs.flatMap written ++ rest := by
  induction n generalizing bytes xs with
  | zero =>
    obtain ⟨rfl, rfl⟩ := run_pure_eq_ok.mp hrun
    exact ⟨rfl, by simp, rfl⟩
  | succ n ih =>
    obtain ⟨x, mid, hx, hrun⟩ := run_bind_eq_ok.mp hrun
    obtain ⟨tail, mid', htail, hrun⟩ := run_bind_eq_ok.mp hrun
    obtain ⟨rfl, rfl⟩ := run_pure_eq_ok.mp hrun
    obtain ⟨hrange, rfl⟩ := h.only hx
    obtain ⟨hlength, hall, rfl⟩ := ih htail
    refine ⟨by rw [List.length_cons, hlength], ?_, ?_⟩
    · intro y hy
      rcases List.mem_cons.mp hy with rfl | hy
      · exact hrange
      · exact hall y hy
    · rw [List.flatMap_cons, List.append_assoc]

theorem run_table (bytes : List UInt8) : (table entry).run bytes =
    match (number 4).run bytes with
    | .ok (count, rest) =>
      if rest.length < count then .error ⟨rest.length, .endOfData⟩ else (times entry count).run rest
    | .error stop => .error stop := by
  have hrun : (table entry).run bytes = ((number 4).run bytes).bind fun read =>
      (if read.2.length < read.1 then do
        stop .endOfData
        times entry read.1
      else times entry read.1 : Decoder (List α)).run read.2 := rfl
  rw [hrun]
  cases (number 4).run bytes with
  | error stop => rfl
  | ok read =>
    obtain ⟨count, rest⟩ := read
    simp only [Except.bind]
    split <;> rfl

/-- Entries that take a byte at least take as many bytes as their number. -/
theorem length_le_flatMap (hpos : ∀ x, 0 < (written x).length) (xs : List α) :
    xs.length ≤ (xs.flatMap written).length := by
  induction xs with
  | nil => exact Nat.le_refl _
  | cons x xs ih =>
    have := hpos x
    rw [List.flatMap_cons, List.length_append, List.length_cons]
    omega

/-- No table that was written has a count that is refused: its entries take a byte at least. -/
theorem Reads.table (h : Reads entry written range) (hpos : ∀ x, 0 < (written x).length) :
    Reads (table entry) (tableBytes written) (TableFits range) where
  back {xs} rest hxs := by
    -- Every entry takes a byte at least, so the count passes the check that is made before reading.
    have hcount := length_le_flatMap hpos xs
    rw [run_table, tableBytes, List.append_assoc, (reads_number 4).back _ hxs.1]
    show (if (xs.flatMap written ++ rest).length < xs.length then _ else _) = _
    rw [if_neg (by rw [List.length_append]; omega)]
    exact h.times xs rest hxs.2
  only {bytes xs rest} hrun := by
    rw [run_table] at hrun
    cases hn : (number 4).run bytes with
    | error stop =>
      rw [hn] at hrun
      cases hrun
    | ok read =>
      obtain ⟨count, mid⟩ := read
      obtain ⟨hrange, rfl⟩ := (reads_number 4).only hn
      rw [hn] at hrun
      simp only at hrun
      split at hrun
      · cases hrun
      · obtain ⟨rfl, hall, rfl⟩ := h.times_only hrun
        exact ⟨⟨hrange, hall⟩, by rw [tableBytes, List.append_assoc]⟩

theorem Shrinks.times (h : Shrinks entry) (n : Nat) : Shrinks (times entry n) := by
  induction n with
  | zero => exact .pure []
  | succ n ih => exact h.bind fun _ => ih.bind fun _ => .pure _

theorem Shrinks.table (h : Shrinks entry) : Shrinks (table entry) := by
  intro bytes
  have first := shrinks_number 4 bytes
  rw [run_table]
  cases hn : (number 4).run bytes with
  | error stop =>
    rw [hn] at first
    exact first
  | ok read =>
    obtain ⟨count, mid⟩ := read
    rw [hn] at first
    have hmid : mid.length ≤ bytes.length := first
    by_cases hlong : mid.length < count
    · simp only [hlong, if_true]
      exact hmid
    · simp only [hlong, if_false]
      have second := h.times count mid
      cases ht : (Decoder.times entry count).run mid with
      | error stop =>
        rw [ht] at second
        exact Nat.le_trans second hmid
      | ok read =>
        rw [ht] at second
        exact Nat.le_trans second hmid

end

/-! ### Parts -/

theorem reads_kind : Reads kind (fun k => Image.byte (kindTag k)) fun _ => True where
  back {k} rest _ := by
    rw [kind, reads_byte.run_bind trivial]
    cases k <;> rfl
  only {bytes k rest} h := by
    obtain ⟨tag, mid, htag, hrest⟩ := run_bind_eq_ok.mp h
    obtain ⟨-, rfl⟩ := reads_byte.only htag
    split at hrest
    · obtain ⟨rfl, rfl⟩ := run_pure_eq_ok.mp hrest
      exact ⟨trivial, rfl⟩
    · obtain ⟨rfl, rfl⟩ := run_pure_eq_ok.mp hrest
      exact ⟨trivial, rfl⟩
    · cases hrest

theorem shrinks_kind : Shrinks kind := shrinks_byte.bind fun tag => by
  split
  · exact .pure _
  · exact .pure _
  · exact .stop _

theorem reads_slot : Reads slot (fun s => Image.word32 s.1 ++ Image.word16 s.2) fun _ => True where
  back {s} rest _ := by
    rw [slot, List.append_assoc, reads_word32.run_bind trivial, reads_word16.run_bind trivial]
    rfl
  only {bytes s rest} h := by
    obtain ⟨record, mid, hrecord, h⟩ := run_bind_eq_ok.mp h
    obtain ⟨index, mid', hindex, h⟩ := run_bind_eq_ok.mp h
    obtain ⟨rfl, rfl⟩ := run_pure_eq_ok.mp h
    obtain ⟨-, rfl⟩ := reads_word32.only hrecord
    obtain ⟨-, rfl⟩ := reads_word16.only hindex
    exact ⟨trivial, (List.append_assoc ..).symm⟩

theorem shrinks_slot : Shrinks slot := shrinks_word32.bind fun _ => shrinks_word16.bind fun _ => .pure _

/-- What follows a code that announces one operand. -/
theorem Reads.operand_only {α β : Type} {d : Decoder α} {written : α → List UInt8} {range : α → Prop} {make : α → β}
    (h : Reads d written range) {bytes rest : List UInt8} {y : β}
    (hrun : (do return make (← d) : Decoder β).run bytes = .ok (y, rest)) :
    ∃ x, range x ∧ y = make x ∧ bytes = written x ++ rest := by
  obtain ⟨x, mid, hx, hrun⟩ := run_bind_eq_ok.mp hrun
  obtain ⟨rfl, rfl⟩ := run_pure_eq_ok.mp hrun
  obtain ⟨hrange, rfl⟩ := h.only hx
  exact ⟨x, hrange, rfl, rfl⟩

/-- An instruction is its code and what the code announces: nothing, a word, a slot or two bytes. -/
theorem reads_instr : Reads instr instrBytes fun _ => True where
  back {i} rest _ := by
    have code (b : UInt8) (bytes : List UInt8) : instr.run (b :: bytes) = instr.run (Image.byte b ++ bytes) := rfl
    cases i with
    | const | loadLocal | storeLocal | loadImport | loadFunction | makeList =>
      rw [instrBytes, List.cons_append, code, instr, reads_byte.run_bind trivial]
      exact reads_word16.run_bind trivial rest
    | jump | jumpIfFalse =>
      rw [instrBytes, List.cons_append, code, instr, reads_byte.run_bind trivial]
      exact reads_word32.run_bind trivial rest
    | loadSlot record index | storeSlot record index =>
      rw [instrBytes, List.cons_append, code, instr, reads_byte.run_bind trivial]
      exact reads_slot.run_bind (x := (record, index)) trivial rest
    | call =>
      rw [instrBytes, List.cons_append, code, instr, reads_byte.run_bind trivial]
      exact reads_byte.run_bind trivial rest
    | intrinsic id argc =>
      rw [instrBytes, List.cons_append, code, instr, reads_byte.run_bind trivial]
      exact (reads_byte.run_bind trivial (argc :: rest)).trans (reads_byte.run_bind trivial rest)
    | bool value => cases value <;> exact reads_byte.run_bind trivial rest
    | binary op => cases op <;> exact reads_byte.run_bind trivial rest
    | unit | openRecord | neg | not | pop | index | setIndex | ret => exact reads_byte.run_bind trivial rest
  only {bytes i rest} h := by
    obtain ⟨code, mid, hcode, hrest⟩ := run_bind_eq_ok.mp h
    obtain ⟨-, rfl⟩ := reads_byte.only hcode
    refine ⟨trivial, ?_⟩
    split at hrest
    all_goals first
      | cases hrest; done
      | obtain ⟨rfl, rfl⟩ := run_pure_eq_ok.mp hrest
        rfl
      | obtain ⟨index, -, rfl, rfl⟩ := reads_word16.operand_only hrest
        rfl
      | obtain ⟨target, -, rfl, rfl⟩ := reads_word32.operand_only hrest
        rfl
      | obtain ⟨argc, -, rfl, rfl⟩ := reads_byte.operand_only hrest
        rfl
      | obtain ⟨⟨record, index⟩, -, rfl, rfl⟩ := reads_slot.operand_only hrest
        rfl
      | obtain ⟨id, mid', hid, htail⟩ := run_bind_eq_ok.mp hrest
        obtain ⟨-, rfl⟩ := reads_byte.only hid
        obtain ⟨argc, -, rfl, rfl⟩ := reads_byte.operand_only htail
        rfl

theorem shrinks_instr : Shrinks instr := shrinks_byte.bind fun code => by
  split
  all_goals first
    | exact .pure _
    | exact .stop _
    | exact shrinks_word16.bind fun _ => .pure _
    | exact shrinks_word32.bind fun _ => .pure _
    | exact shrinks_byte.bind fun _ => .pure _
    | exact shrinks_slot.bind fun _ => .pure _
    | exact shrinks_byte.bind fun _ => shrinks_byte.bind fun _ => .pure _

theorem instrBytes_pos (i : Instr) : 0 < (instrBytes i).length := by
  cases i with
  | bool value => cases value <;> exact Nat.zero_lt_succ _
  | _ => exact Nat.zero_lt_succ _

theorem reads_constant : Reads constant constantBytes ConstantFits where
  back {c} rest hc := by
    have tag (b : UInt8) (bytes : List UInt8) : constant.run (b :: bytes) = constant.run (Image.byte b ++ bytes) := rfl
    cases c with
    | int value =>
      rw [constantBytes, List.cons_append, tag, constant, reads_byte.run_bind trivial]
      refine (reads_word64.run_bind trivial rest).trans ?_
      rw [Int64.toInt64_toUInt64]
      rfl
    | float bits =>
      rw [constantBytes, List.cons_append, tag, constant, reads_byte.run_bind trivial]
      exact reads_word64.run_bind trivial rest
    | text s =>
      rw [constantBytes, List.cons_append, tag, constant, reads_byte.run_bind trivial]
      exact reads_text.run_bind hc rest
  only {bytes c rest} h := by
    obtain ⟨tag, mid, htag, hrest⟩ := run_bind_eq_ok.mp h
    obtain ⟨-, rfl⟩ := reads_byte.only htag
    split at hrest
    · obtain ⟨value, -, rfl, rfl⟩ := reads_word64.operand_only hrest
      rw [constantBytes, UInt64.toUInt64_toInt64]
      exact ⟨trivial, rfl⟩
    · obtain ⟨bits, -, rfl, rfl⟩ := reads_word64.operand_only hrest
      exact ⟨trivial, rfl⟩
    · obtain ⟨s, hs, rfl, rfl⟩ := reads_text.operand_only hrest
      exact ⟨hs, rfl⟩
    · cases hrest

theorem shrinks_constant : Shrinks constant := shrinks_byte.bind fun tag => by
  split
  · exact shrinks_word64.bind fun _ => .pure _
  · exact shrinks_word64.bind fun _ => .pure _
  · exact shrinks_text.bind fun _ => .pure _
  · exact .stop _

theorem constantBytes_pos (c : Constant) : 0 < (constantBytes c).length := by
  cases c <;> exact Nat.zero_lt_succ _

theorem reads_lineMark : Reads lineMark lineMarkBytes fun _ => True where
  back {m} rest _ := by
    rw [lineMark, lineMarkBytes, List.append_assoc, reads_word32.run_bind trivial, reads_word32.run_bind trivial]
    rfl
  only {bytes m rest} h := by
    obtain ⟨start, mid, hstart, h⟩ := run_bind_eq_ok.mp h
    obtain ⟨line, -, rfl, rfl⟩ := reads_word32.operand_only h
    obtain ⟨-, rfl⟩ := reads_word32.only hstart
    exact ⟨trivial, (List.append_assoc ..).symm⟩

theorem shrinks_lineMark : Shrinks lineMark := shrinks_word32.bind fun _ => shrinks_word32.bind fun _ => .pure _

theorem lineMarkBytes_pos (m : LineMark) : 0 < (lineMarkBytes m).length := Nat.zero_lt_succ _

theorem textBytes_pos (s : String) : 0 < (textBytes s).length := Nat.zero_lt_succ _

theorem reads_importRef : Reads importRef importBytes ImportFits where
  back {i} rest hi := by
    rw [importRef, importBytes, List.append_assoc, reads_text.run_bind hi.1, reads_text.run_bind hi.2]
    rfl
  only {bytes i rest} h := by
    obtain ⟨library, mid, hlibrary, h⟩ := run_bind_eq_ok.mp h
    obtain ⟨name, hname, rfl, rfl⟩ := reads_text.operand_only h
    obtain ⟨hfits, rfl⟩ := reads_text.only hlibrary
    exact ⟨⟨hfits, hname⟩, (List.append_assoc ..).symm⟩

theorem shrinks_importRef : Shrinks importRef := shrinks_text.bind fun _ => shrinks_text.bind fun _ => .pure _

theorem importBytes_pos (i : ImportRef) : 0 < (importBytes i).length := Nat.zero_lt_succ _

theorem reads_routine : Reads routine routineBytes RoutineFits where
  back {r} rest hr := by
    have hcode : TableFits (fun _ : Instr => True) r.code.toList := ⟨hr.code, fun _ _ => trivial⟩
    have hlines : TableFits (fun _ : LineMark => True) r.lines := ⟨hr.lines, fun _ _ => trivial⟩
    rw [routine, routineBytes]
    simp only [List.append_assoc]
    rw [reads_text.run_bind hr.name, reads_byte.run_bind trivial, reads_word16.run_bind trivial,
      (reads_constant.table constantBytes_pos).run_bind hr.constants,
      (Reads.table reads_instr instrBytes_pos).run_bind hcode,
      (reads_lineMark.table lineMarkBytes_pos).run_bind hlines]
    rfl
  only {bytes r rest} h := by
    obtain ⟨name, _, hname, h⟩ := run_bind_eq_ok.mp h
    obtain ⟨arity, _, harity, h⟩ := run_bind_eq_ok.mp h
    obtain ⟨locals, _, hlocals, h⟩ := run_bind_eq_ok.mp h
    obtain ⟨constants, _, hconstants, h⟩ := run_bind_eq_ok.mp h
    obtain ⟨code, _, hcode, h⟩ := run_bind_eq_ok.mp h
    obtain ⟨lines, hlines, rfl, rfl⟩ := (reads_lineMark.table lineMarkBytes_pos).operand_only h
    obtain ⟨nameFits, rfl⟩ := reads_text.only hname
    obtain ⟨-, rfl⟩ := reads_byte.only harity
    obtain ⟨-, rfl⟩ := reads_word16.only hlocals
    obtain ⟨constantsFit, rfl⟩ := (reads_constant.table constantBytes_pos).only hconstants
    obtain ⟨codeFits, rfl⟩ := (Reads.table reads_instr instrBytes_pos).only hcode
    refine ⟨⟨nameFits, constantsFit, codeFits.1, hlines.1⟩, ?_⟩
    simp only [routineBytes, List.append_assoc]

theorem shrinks_routine : Shrinks routine :=
  shrinks_text.bind fun _ => shrinks_byte.bind fun _ => shrinks_word16.bind fun _ =>
    shrinks_constant.table.bind fun _ => (Shrinks.table shrinks_instr).bind fun _ => shrinks_lineMark.table.bind fun _ => .pure _

theorem routineBytes_pos (r : Routine) : 0 < (routineBytes r).length := Nat.zero_lt_succ _

theorem reads_entry : Reads entry entryBytes fun e => ∀ name ∈ e, TextFits name where
  back {e} rest he := by
    cases e with
    | none => exact reads_byte.run_bind trivial rest
    | some name =>
      show entry.run (Image.byte 1 ++ (textBytes name ++ rest)) = _
      rw [entry, reads_byte.run_bind trivial]
      exact reads_text.run_bind (he name rfl) rest
  only {bytes e rest} h := by
    obtain ⟨tag, mid, htag, hrest⟩ := run_bind_eq_ok.mp h
    obtain ⟨-, rfl⟩ := reads_byte.only htag
    split at hrest
    · obtain ⟨rfl, rfl⟩ := run_pure_eq_ok.mp hrest
      exact ⟨fun _ hname => (by cases hname), rfl⟩
    · obtain ⟨name, hname, rfl, rfl⟩ := reads_text.operand_only hrest
      exact ⟨fun _ hmem => Option.mem_some.mp hmem ▸ hname, rfl⟩
    · cases hrest

theorem shrinks_entry : Shrinks entry := shrinks_byte.bind fun tag => by
  split
  · exact .pure _
  · exact shrinks_text.bind fun _ => .pure _
  · exact .stop _

theorem reads_body : Reads body bodyBytes Fits where
  back {image} rest hi := by
    rw [body, bodyBytes]
    simp only [List.append_assoc]
    rw [reads_kind.run_bind trivial, reads_text.run_bind hi.name, reads_word32.run_bind trivial,
      (reads_text.table textBytes_pos).run_bind hi.slots,
      (reads_importRef.table importBytes_pos).run_bind hi.imports,
      (Reads.table reads_routine routineBytes_pos).run_bind hi.functions, reads_entry.run_bind hi.entry]
    rfl
  only {bytes image rest} h := by
    obtain ⟨kind, _, hkind, h⟩ := run_bind_eq_ok.mp h
    obtain ⟨name, _, hname, h⟩ := run_bind_eq_ok.mp h
    obtain ⟨ordinal, _, hordinal, h⟩ := run_bind_eq_ok.mp h
    obtain ⟨slots, _, hslots, h⟩ := run_bind_eq_ok.mp h
    obtain ⟨imports, _, himports, h⟩ := run_bind_eq_ok.mp h
    obtain ⟨functions, _, hfunctions, h⟩ := run_bind_eq_ok.mp h
    obtain ⟨entry, hentry, rfl, rfl⟩ := reads_entry.operand_only h
    obtain ⟨-, rfl⟩ := reads_kind.only hkind
    obtain ⟨nameFits, rfl⟩ := reads_text.only hname
    obtain ⟨-, rfl⟩ := reads_word32.only hordinal
    obtain ⟨slotsFit, rfl⟩ := (reads_text.table textBytes_pos).only hslots
    obtain ⟨importsFit, rfl⟩ := (reads_importRef.table importBytes_pos).only himports
    obtain ⟨functionsFit, rfl⟩ := (Reads.table reads_routine routineBytes_pos).only hfunctions
    refine ⟨⟨nameFits, slotsFit, importsFit, functionsFit, hentry⟩, ?_⟩
    simp only [bodyBytes, List.append_assoc]

theorem shrinks_body : Shrinks body :=
  shrinks_kind.bind fun _ => shrinks_text.bind fun _ => shrinks_word32.bind fun _ => shrinks_text.table.bind fun _ =>
    shrinks_importRef.table.bind fun _ => (Shrinks.table shrinks_routine).bind fun _ => shrinks_entry.bind fun _ => .pure _

end Decoder

/-! ### Whole images -/

/-- What comes of bytes that start as an image does. -/
def decodeBody (size : Nat) (bytes : List UInt8) : Except LoadError Image :=
  match Decoder.body.run bytes with
  | .error stop => .error (.malformed (size - stop.left) stop.reason)
  | .ok (image, rest) => if rest.isEmpty then .ok image else .error (.trailingBytes rest.length)

theorem decode_eq (bytes : List UInt8) : decode bytes =
    if bytes.take 4 ≠ magic then .error .badMagic
    else
      match (Decoder.number 2).run (bytes.drop 4) with
      | .error stop => .error (.malformed (bytes.length - stop.left) stop.reason)
      | .ok (version, rest) =>
        if version ≠ formatVersion then .error (.unsupportedVersion version) else decodeBody bytes.length rest := by
  unfold decode
  by_cases hmagic : bytes.take 4 ≠ magic
  · rw [if_pos hmagic, if_pos hmagic]
    rfl
  · rw [if_neg hmagic, if_neg hmagic]
    cases hn : (Decoder.number 2).run (bytes.drop 4) with
    | error stop => rfl
    | ok read =>
      obtain ⟨version, rest⟩ := read
      simp only [located, bind, Except.bind]
      by_cases hversion : version ≠ formatVersion
      · rw [if_pos hversion, if_pos hversion]
        rfl
      · rw [if_neg hversion, if_neg hversion, decodeBody]
        cases Decoder.body.run rest with
        | error stop => rfl
        | ok read =>
          simp only
          split <;> rfl

theorem decodeBody_eq_ok_iff {size : Nat} {bytes : List UInt8} {image : Image} :
    decodeBody size bytes = .ok image ↔ image.Fits ∧ bytes = bodyBytes image := by
  constructor
  · intro h
    rw [decodeBody] at h
    cases hbody : Decoder.body.run bytes with
    | error stop =>
      rw [hbody] at h
      cases h
    | ok read =>
      obtain ⟨found, rest⟩ := read
      obtain ⟨hfits, rfl⟩ := Decoder.Reads.only Decoder.reads_body hbody
      rw [hbody] at h
      simp only at h
      split at h
      · rename_i hempty
        cases h
        rw [List.isEmpty_iff] at hempty
        rw [hempty, List.append_nil]
        exact ⟨hfits, rfl⟩
      · cases h
  · rintro ⟨hfits, rfl⟩
    have hbody := Decoder.Reads.back Decoder.reads_body [] hfits
    rw [List.append_nil] at hbody
    rw [decodeBody, hbody]
    rfl

/-- Bytes are an image exactly if they are what is written of it, and its lengths can be written. -/
theorem decode_eq_ok_iff {bytes : List UInt8} {image : Image} :
    decode bytes = .ok image ↔ image.Fits ∧ image.bytes = bytes := by
  rw [decode_eq]
  constructor
  · intro h
    split at h
    · cases h
    · rename_i hmagic
      have hmagic := Decidable.not_not.mp hmagic
      split at h
      · cases h
      · rename_i version rest hversion
        obtain ⟨-, hrest⟩ := (Decoder.reads_number 2).only hversion
        split at h
        · cases h
        · rename_i hequal
          have hequal := Decidable.not_not.mp hequal
          rw [decodeBody_eq_ok_iff] at h
          obtain ⟨hfits, rfl⟩ := h
          refine ⟨hfits, ?_⟩
          rw [Image.bytes, List.append_assoc, ← hequal, ← hrest, ← hmagic, List.take_append_drop]
  · rintro ⟨hfits, rfl⟩
    have hnumber := (Decoder.reads_number 2).back (bodyBytes image) (x := formatVersion) (by decide)
    have hdrop : image.bytes.drop 4 = numberBytes 2 formatVersion ++ bodyBytes image := rfl
    have hmagic : image.bytes.take 4 = magic := rfl
    rw [if_neg (Decidable.not_not.mpr hmagic), hdrop, hnumber]
    show decodeBody _ _ = _
    rw [decodeBody_eq_ok_iff]
    exact ⟨hfits, rfl⟩

/-- The head of an image is read back whatever follows it, and its slots whatever follows them. -/
theorem decode_head {image found : Image} (hname : TextFits image.name) (h : decode image.bytes = .ok found) :
    found.kind = image.kind ∧ found.ordinal = image.ordinal ∧
      (TableFits TextFits image.slots.toList → found.slots = image.slots) := by
  rw [decode_eq_ok_iff] at h
  obtain ⟨fits, hbytes⟩ := h
  have hbody : bodyBytes found = bodyBytes image := List.append_cancel_left hbytes
  simp only [bodyBytes, List.append_assoc] at hbody
  obtain ⟨kind, hbody⟩ := Decoder.reads_kind.unique trivial trivial hbody
  obtain ⟨-, hbody⟩ := Decoder.reads_text.unique fits.name hname hbody
  obtain ⟨ordinal, hbody⟩ := Decoder.reads_word32.unique trivial trivial hbody
  refine ⟨kind, ordinal, fun hslots => ?_⟩
  obtain ⟨slots, -⟩ := (Decoder.reads_text.table Decoder.textBytes_pos).unique fits.slots hslots hbody
  exact Array.toList_inj.mp slots

/-- No written form is the beginning of another one. -/
theorem eq_nil_of_decode_append {bytes extra : List UInt8} {image other : Image} (h : decode bytes = .ok image)
    (h' : decode (bytes ++ extra) = .ok other) : extra = [] := by
  rw [decode_eq_ok_iff] at h h'
  obtain ⟨hfits, rfl⟩ := h
  obtain ⟨hfits', hbytes⟩ := h'
  simp only [Image.bytes, List.append_assoc] at hbytes
  have hrest : bodyBytes other = bodyBytes image ++ extra := List.append_cancel_left (List.append_cancel_left hbytes)
  have hbody := Decoder.Reads.back Decoder.reads_body extra hfits
  have hbody' := Decoder.Reads.back Decoder.reads_body [] hfits'
  rw [List.append_nil, hrest, hbody] at hbody'
  cases hbody'
  rfl

/-- Where reading stops lies between the mark at the start and the end. -/
theorem malformed_within {bytes : List UInt8} {offset : Nat} {reason : Malformation}
    (h : decode bytes = .error (.malformed offset reason)) : 4 ≤ offset ∧ offset ≤ bytes.length := by
  rw [decode_eq] at h
  split at h
  · cases h
  · rename_i hmagic
    have hmagic := Decidable.not_not.mp hmagic
    have hlong : 4 ≤ bytes.length := by
      have := congrArg List.length hmagic
      rw [List.length_take] at this
      have hfour : magic.length = 4 := rfl
      omega
    have hnumber := Decoder.shrinks_number 2 (bytes.drop 4)
    rw [List.length_drop] at hnumber
    split at h
    · rename_i stop hstop
      rw [hstop] at hnumber
      cases h
      have : stop.left ≤ bytes.length - 4 := hnumber
      omega
    · rename_i version rest hversion
      rw [hversion] at hnumber
      have hrest : rest.length ≤ bytes.length - 4 := hnumber
      split at h
      · cases h
      · have hbody := Decoder.shrinks_body rest
        rw [decodeBody] at h
        split at h
        · rename_i stop hstop
          rw [hstop] at hbody
          cases h
          have : stop.left ≤ rest.length := hbody
          omega
        · split at h <;> cases h

/-! ### The format as a whole -/

/-- Images and their written forms belong together one to one: exactly the images whose lengths can be
    written read back, whatever reads as an image is its written form, and no written form can be cut
    short or carried on. Reading that stops names a place within the bytes. -/
theorem decode_canonical (image : Image) (bytes : List UInt8) :
    (decode image.bytes = .ok image ↔ image.Fits) ∧
    (decode bytes = .ok image → image.bytes = bytes) ∧
    (decode bytes = .ok image → ∀ other : List UInt8, other ≠ bytes → other <+: bytes ∨ bytes <+: other →
      ∀ found, decode other ≠ .ok found) ∧
    (∀ offset reason, decode bytes = .error (.malformed offset reason) → 4 ≤ offset ∧ offset ≤ bytes.length) := by
  refine ⟨?_, fun h => (decode_eq_ok_iff.mp h).2, ?_, fun _ _ => malformed_within⟩
  · rw [decode_eq_ok_iff]
    exact and_iff_left rfl
  · rintro h other hne (⟨extra, rfl⟩ | ⟨extra, rfl⟩) found hfound
    · rw [eq_nil_of_decode_append hfound h, List.append_nil] at hne
      exact hne rfl
    · rw [eq_nil_of_decode_append h hfound, List.append_nil] at hne
      exact hne rfl

/-- A submission with one routine, of which every table has an entry. -/
def sample : Image :=
  { kind := .submission
    name := "Submission#1"
    ordinal := 1
    slots := #["größe"]
    imports := #[⟨"math", "pow"⟩]
    functions := #[
      { name := "Submission#1.<Main>"
        arity := 0
        locals := 1
        constants := #[.int (-7), .float 0x3FF8000000000000, .text "ä"]
        code := #[.openRecord, .const 1, .storeSlot 0 0, .bool true, .jumpIfFalse 5, .unit, .ret]
        lines := [⟨0, 1⟩] }]
    entry := some "Submission#1.<Main>" }

theorem decode_canonical_sample :
    sample.Fits ∧ decode sample.bytes = .ok sample ∧ (∀ found, decode (sample.bytes.take 20) ≠ .ok found) ∧
      (∀ found, decode (sample.bytes ++ [0]) ≠ .ok found) ∧
      decode (sample.bytes.take 20) = .error (.malformed 20 .endOfData) ∧ 20 ≤ (sample.bytes.take 20).length := by
  have hfits : sample.Fits := by decide
  have hback := (decode_canonical sample sample.bytes).1.mpr hfits
  have hfree := (decode_canonical sample sample.bytes).2.2.1 hback
  have hstop : decode (sample.bytes.take 20) = .error (.malformed 20 .endOfData) := by with_unfolding_all rfl
  exact ⟨hfits, hback, hfree _ (by decide +kernel) (.inl (List.take_prefix ..)),
    hfree _ (by decide +kernel) (.inr (List.prefix_append ..)), hstop,
    ((decode_canonical sample (sample.bytes.take 20)).2.2.2 20 _ hstop).2⟩

end ScriptEngine.Image
