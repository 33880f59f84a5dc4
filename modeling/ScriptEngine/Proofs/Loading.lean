import ScriptEngine.Library.Cache
import ScriptEngine.Proofs.ImageFormat
import ScriptEngine.Proofs.MachineSound
import ScriptEngine.Proofs.Scoping

/-! What is known of loaded code: its operands were checked (`Checked`) and its imports are functions of
    loaded libraries (`Loaded`). Code of a bound unit that is loaded is sound, if the slots that are in its scope
    are there. -/

namespace ScriptEngine
open Lowering

/-- The record of a script is the one before its number. -/
theorem Image.ownRecord?_script {n : Nat} (few : n + 1 < 4294967296) :
    Image.ownRecord? (imageKind (.script (n + 1))) (imageOrdinal (.script (n + 1))) = some n := by
  have hnat : (UInt32.ofNat (n + 1)).toNat = n + 1 := UInt32.toNat_ofNat_of_lt' few
  have hne : UInt32.ofNat (n + 1) ≠ 0 := by
    intro heq
    rw [heq] at hnat
    cases hnat
  rw [imageKind, imageOrdinal, Image.ownRecord?, if_neg hne, hnat, Nat.add_sub_cancel]

/-! ### Checks -/

namespace CodeModule

/-- What the loader has checked of a routine. -/
structure Checked (image : Image) (r : Routine) : Prop where
  ends : r.code.back? = some .ret
  params : r.arity.toNat ≤ r.locals.toNat
  operands : ∀ {pc : Nat} {i : Instr}, r.Holds pc i → operandFault? image r i = none

theorem checkCode_eq_ok {image : Image} {r : Routine} {code : List Instr} {pc : Nat} {u : Unit}
    (h : checkCode image r code pc = .ok u) : ∀ i ∈ code, operandFault? image r i = none := by
  induction code generalizing pc with
  | nil => simp
  | cons i rest ih =>
    unfold checkCode at h
    split at h
    · cases h
    · rename_i hi
      intro j hj
      rcases List.mem_cons.mp hj with rfl | hj
      · exact hi
      · exact ih h j hj

theorem checkRoutine_checked {image : Image} {r : Routine} {u : Unit} (h : checkRoutine image r = .ok u) :
    Checked image r := by
  unfold checkRoutine at h
  split at h
  · cases h
  · rename_i hends
    split at h
    · cases h
    · rename_i hparams
      refine ⟨Decidable.not_not.mp hends, Nat.not_lt.mp hparams, fun {pc i} hi => checkCode_eq_ok h i ?_⟩
      exact Array.mem_toList_iff.mpr (Array.mem_of_getElem? hi)

theorem forM_eq_ok {ε α : Type} {f : α → Except ε Unit} {l : List α} {u : Unit} (h : l.forM f = .ok u) :
    ∀ x ∈ l, f x = .ok () := by
  induction l with
  | nil => simp
  | cons a l ih =>
    obtain ⟨u', ha, h⟩ := except_bind_eq_ok.mp h
    intro x hx
    rcases List.mem_cons.mp hx with rfl | hx
    · exact ha
    · exact ih h x hx

theorem mapM_eq_ok {ε α β : Type} {f : α → Except ε β} {l : List α} {ys : List β} (h : l.mapM f = .ok ys) :
    ys.length = l.length ∧ ∀ {k : Nat} {y : β}, ys[k]? = some y → ∃ x, l[k]? = some x ∧ f x = .ok y := by
  induction l generalizing ys with
  | nil =>
    rw [List.mapM_nil] at h
    cases h
    exact ⟨rfl, fun hk => by simp at hk⟩
  | cons a l ih =>
    rw [List.mapM_cons] at h
    obtain ⟨b, hb, h⟩ := except_bind_eq_ok.mp h
    obtain ⟨bs, hbs, h⟩ := except_bind_eq_ok.mp h
    cases h
    obtain ⟨length, each⟩ := ih hbs
    refine ⟨by rw [List.length_cons, List.length_cons, length], fun {k y} hk => ?_⟩
    cases k with
    | zero =>
      cases hk
      exact ⟨a, rfl, hb⟩
    | succ k => exact each (k := k) hk

theorem linkImport_eq_ok {refs : ReferenceSet} {wanted : ImportRef} {c : Callable}
    (h : linkImport refs wanted = .ok c) : refs.resolve? wanted = some c := by
  unfold linkImport at h
  split at h
  · rename_i c' hc
    cases h
    exact hc
  · cases h

/-- What is known of a module after its image was loaded. -/
structure Loaded (image : Image) (refs : ReferenceSet) (code : CodeModule) : Prop where
  functions : code.functions = image.functions
  slots : code.slots = image.slots
  record : code.record? = Image.ownRecord? image.kind image.ordinal
  name : code.name = image.name
  checked : ∀ r ∈ image.functions, Checked image r
  importCount : code.imports.size = image.imports.size
  imports : ∀ {k : Nat} {c : Callable}, code.imports[k]? = some c →
    ∃ wanted, image.imports[k]? = some wanted ∧ refs.resolve? wanted = some c

theorem load_loaded {image : Image} {refs : ReferenceSet} {code : CodeModule} (h : load image refs = .ok code) :
    Loaded image refs code := by
  obtain ⟨u, hcheck, h⟩ := except_bind_eq_ok.mp h
  obtain ⟨imports, himports, h⟩ := except_bind_eq_ok.mp h
  cases h
  obtain ⟨length, each⟩ := mapM_eq_ok himports
  refine ⟨rfl, rfl, rfl, rfl, fun r hr => ?_, ?_, fun {k c} hk => ?_⟩
  · exact checkRoutine_checked (forM_eq_ok hcheck r (Array.mem_toList_iff.mpr hr))
  · simpa using length
  · obtain ⟨wanted, hwanted, hlink⟩ := each (by simpa using hk)
    exact ⟨wanted, by simpa using hwanted, linkImport_eq_ok hlink⟩

/-- The entry routine takes no arguments. -/
theorem entry_eq_ok {code : CodeModule} {name : String} {index : Nat} (h : code.entry name = .ok index) :
    ∃ r, code.functions[index]? = some r ∧ r.arity = 0 := by
  unfold entry at h
  split at h
  · cases h
  · split at h
    · cases h
    · rename_i r hr
      split at h
      · rename_i harity
        cases h
        exact ⟨r, hr, harity⟩
      · cases h

/-! ### Sound modules -/

theorem of_ite_eq_none {α : Type} {p : Prop} [Decidable p] {x : α} (h : (if p then none else some x) = none) : p := by
  split at h
  · assumption
  · cases h

/-- What was checked of an instruction is there in the loaded module. -/
theorem inTables_of_checked {image : Image} {refs : ReferenceSet} {code : CodeModule} {r : Routine} {i : Instr}
    (loaded : Loaded image refs code) (hi : operandFault? image r i = none) : i.InTables code r := by
  cases i with
  | const i =>
    have hlt : i.toNat < r.constants.size := of_ite_eq_none hi
    exact hlt
  | intrinsic id argc =>
    have hsome : (Intrinsic.ofId? id).isSome := of_ite_eq_none hi
    exact hsome
  | loadLocal i | storeLocal i => exact UInt16.lt_iff_toNat_lt.mp (of_ite_eq_none hi)
  | loadImport i =>
    have hlt : i.toNat < image.imports.size := of_ite_eq_none hi
    rw [← loaded.importCount] at hlt
    exact hlt
  | loadFunction i =>
    have hlt : i.toNat < image.functions.size := of_ite_eq_none hi
    rw [← loaded.functions] at hlt
    exact hlt
  | openRecord =>
    have hsome : (Image.ownRecord? image.kind image.ordinal).isSome := of_ite_eq_none hi
    rw [← loaded.record] at hsome
    exact hsome
  | _ => trivial

theorem inRange_of_checked {program : Program} {image : Image} {refs : ReferenceSet} {code : CodeModule} {r : Routine}
    {i : Instr} (loaded : Loaded image refs code) (hi : operandFault? image r i = none) {scope : Bound.Scope} {n : Nat}
    (fits : i.Fits scope n) (hslot : ∀ {record slot : Nat}, (Bound.Place.slot record slot).In scope →
      program.HasSlot record slot) : InRange program code r i := by
  cases i with
  | loadSlot record i | storeSlot record i => exact hslot fits
  | _ => exact inTables_of_checked loaded hi

/-- A routine that ends in a return goes on within its code. -/
theorem Checked.exits {image : Image} {r : Routine} (h : Checked image r) {pc next : Nat} {i : Instr}
    (hi : r.Holds pc i) (hnext : next ∈ i.exits pc) : next < r.code.size := by
  have hlt := (Array.getElem?_eq_some_iff.mp hi).1
  -- Only the last instruction has nothing behind it, and control does not go on from there.
  have behind : i ≠ .ret → pc + 1 < r.code.size := by
    intro hret
    rcases Nat.lt_or_ge (pc + 1) r.code.size with hlt' | hge
    · exact hlt'
    · have hlast : pc = r.code.size - 1 := by omega
      have hends := h.ends
      rw [Array.back?, ← hlast] at hends
      exact absurd (Option.some.inj (hi.symm.trans hends)) hret
  have checked := h.operands hi
  cases i with
  | jump target =>
    rw [List.mem_singleton.mp hnext]
    exact of_ite_eq_none checked
  | jumpIfFalse target =>
    rcases List.mem_cons.mp hnext with rfl | hnext
    · exact behind fun h => nomatch h
    · rw [List.mem_singleton.mp hnext]
      exact of_ite_eq_none checked
  | ret => cases hnext
  | _ =>
    rw [List.mem_singleton.mp hnext]
    exact behind fun h => nomatch h

theorem Checked.pos {image : Image} {r : Routine} (h : Checked image r) : 0 < r.code.size := by
  have hends := h.ends
  rw [Array.back?] at hends
  exact Nat.lt_of_le_of_lt (Nat.zero_le _) (Array.getElem?_eq_some_iff.mp hends).1

/-- The loaded code of a bound unit is sound, if the slots in its scope are there and its record is that of its
    place in the program. -/
theorem sound_of_emitted {program : Program} {home : Home} {ctx : Binder.Context} {tree : Tree.Fragment}
    {o : Binder.Output} {image : Image} {refs : ReferenceSet} {code : CodeModule} (coherent : Binder.Coherent ctx tree o)
    (emitted : Emitted ctx.unit o.program image) (loaded : Loaded image refs code)
    (hrefs : ∀ {wanted c}, refs.resolve? wanted = some c → program.Has c)
    (hrecord : ∀ k, code.record? = some k → home = .fragment k)
    (hslot : ∀ {record slot : Nat}, (Bound.Place.slot record slot).In (o.scope ctx) → program.HasSlot record slot) :
    code.Sound program home := by
  refine ⟨fun {index r} hr => ?_, fun c hc => ?_, hrecord⟩
  · rw [loaded.functions] at hr
    have hlt : index < o.program.functions.length := emitted.stands.size ▸ (Array.getElem?_eq_some_iff.mp hr).1
    have hf : o.program.functions[index]? = some o.program.functions[index] := List.getElem?_eq_getElem hlt
    have stands := emitted.stands.function hf hr
    have checked := loaded.checked r (Array.mem_of_getElem? hr)
    refine ⟨⟨_, function_flows stands⟩, checked.params, fun hi => ?_⟩
    have fits := function_fits stands coherent.inScope (coherent.inScope.functions _ (List.getElem_mem hlt)) hi
    exact inRange_of_checked loaded (checked.operands hi) fits hslot
  · obtain ⟨k, hk⟩ := Array.mem_iff_getElem?.mp hc
    obtain ⟨wanted, -, hresolve⟩ := loaded.imports hk
    exact hrefs hresolve

/-- A unit that opens a record is not loaded without one. -/
theorem record_isSome {ctx : Binder.Context} {tree : Tree.Fragment} {o : Binder.Output} {image : Image}
    {refs : ReferenceSet} {code : CodeModule} {own : Nat} (coherent : Binder.Coherent ctx tree o)
    (emitted : Emitted ctx.unit o.program image) (loaded : Loaded image refs code) (hscript : ctx.unit.isScript = true)
    (hown : ctx.unit.record? = some own) : code.record?.isSome := by
  obtain ⟨index, hentry, hlt⟩ := coherent.entry_lt hscript
  have hindex : index < image.functions.size := emitted.stands.size ▸ hlt
  have hr : image.functions[index]? = some image.functions[index] := Array.getElem?_eq_getElem hindex
  have stands := emitted.stands.function (List.getElem?_eq_getElem hlt) hr
  have hopening : opening? o.program index = some own := by
    rw [opening?, if_pos hentry]
    exact coherent.inScope.record.symm.trans hown
  have hopen := (loaded.checked _ (Array.mem_of_getElem? hr)).operands (stands.opening own hopening).1
  rw [loaded.record]
  exact of_ite_eq_none hopen

end CodeModule

/-! ### Units -/

/-- What binding gave. -/
def ScriptUnit.output (u : ScriptUnit) : Binder.Output := ⟨u.symbols, u.program, u.diagnostics⟩

/-- A unit was read and bound from a text. -/
theorem ScriptUnit.create_eq_ok {kind : UnitKind} {source : String} {refs : ReferenceSet} {imports : List String}
    {earlier : List Declared} {u : ScriptUnit} (h : create kind source refs imports earlier = .ok u) :
    u.kind = kind ∧ ∃ tree, Tree.Fragment.parse source.toList = .ok tree ∧
      u.output = Binder.bind ⟨source.toList, kind, earlier, refs, imports⟩ tree := by
  unfold create at h
  dsimp only at h
  split at h
  · cases h
  · rename_i tree htree
    cases h
    exact ⟨rfl, tree, htree, rfl⟩

theorem ScriptUnit.create_coherent {kind : UnitKind} {source : String} {refs : ReferenceSet} {imports : List String}
    {earlier : List Declared} {u : ScriptUnit} (h : create kind source refs imports earlier = .ok u) :
    u.kind = kind ∧ ∃ tree, Tree.Fragment.parse source.toList = .ok tree ∧
      Binder.Coherent ⟨source.toList, kind, earlier, refs, imports⟩ tree u.output := by
  obtain ⟨hkind, tree, htree, hbound⟩ := create_eq_ok h
  exact ⟨hkind, tree, htree, hbound ▸ Binder.bind_coherent _ tree⟩

theorem Executable.ofBytes_eq_ok {bytes : List UInt8} {refs : ReferenceSet} {name : String} {e : Executable}
    (h : ofBytes bytes refs name = .ok e) : ∃ image, Image.decode bytes = .ok image ∧
      CodeModule.load image refs = .ok e.code ∧ e.code.entry name = .ok e.entry := by
  obtain ⟨image, hdecode, h⟩ := except_bind_eq_ok.mp h
  obtain ⟨code, hload, h⟩ := except_bind_eq_ok.mp h
  obtain ⟨entry, hentry, h⟩ := except_bind_eq_ok.mp h
  cases h
  exact ⟨image, hdecode, hload, hentry⟩

/-! ### Libraries -/

theorem Library.ofBytes_eq_ok {location : String} {bytes : List UInt8} {l : Library}
    (h : Library.ofBytes location bytes = .ok l) : l.exports = exportsOf l.code ∧
      ∃ image, Image.decode bytes = .ok image ∧ image.kind = .library ∧ CodeModule.load image #[] = .ok l.code := by
  unfold Library.ofBytes at h
  split at h
  · cases h
  · rename_i image hdecode
    split at h
    · cases h
    · rename_i hkind
      split at h
      · cases h
      · rename_i code hload
        cases h
        exact ⟨rfl, image, hdecode, Decidable.not_not.mp hkind, hload⟩

namespace Library

/-- A loaded library that was built from a unit, which was bound without any other libraries. -/
structure Holds (l : Library) (u : ScriptUnit) : Prop where
  exports : l.exports = exportsOf l.code
  created : ∃ name source, ScriptUnit.create (.library name) source #[] [] [] = .ok u
  loaded : ∃ image, Emitted u.kind u.program image ∧ CodeModule.Loaded image #[] l.code

theorem export?_lt {l : Library} {name : String} {e : Export} (hexports : l.exports = exportsOf l.code)
    (h : l.export? name = some e) : e.index < l.code.functions.size := by
  have hmem := List.mem_of_find?_eq_some h
  rw [hexports, exportsOf] at hmem
  obtain ⟨⟨r, i⟩, hri, rfl⟩ := List.mem_map.mp hmem
  have hlt := List.snd_lt_of_mem_zipIdx hri
  simp only [List.length_take, Array.length_toList] at hlt
  simp only
  omega

end Library

/-- Every library of a set was built from a unit with a property. -/
def ReferenceSet.Built (good : ScriptUnit → Prop) (refs : ReferenceSet) : Prop := ∀ l ∈ refs, ∃ u, l.Holds u ∧ good u

section
variable {good : ScriptUnit → Prop} {refs : ReferenceSet}

theorem ReferenceSet.resolve?_empty (wanted : ImportRef) : ReferenceSet.resolve? #[] wanted = none := by
  simp [ReferenceSet.resolve?, ReferenceSet.position?]

/-- An import stands for a function of a library. -/
theorem ReferenceSet.Built.resolve (built : refs.Built good) {wanted : ImportRef} {c : Callable}
    (h : refs.resolve? wanted = some c) {fragments : Array CodeModule} : Program.Has ⟨refs, fragments⟩ c := by
  obtain ⟨i, -, h⟩ := Option.bind_eq_some_iff.mp h
  obtain ⟨l, hl, h⟩ := Option.bind_eq_some_iff.mp h
  obtain ⟨e, he, h⟩ := Option.bind_eq_some_iff.mp h
  cases h
  obtain ⟨u, holds, -⟩ := built l (Array.mem_of_getElem? hl)
  have hlt := Library.export?_lt holds.exports he
  have hmodule : Program.module? ⟨refs, fragments⟩ (.library i) = some l.code := by
    simp only [Program.module?, hl, Option.map_some]
  exact ⟨l.code.functions[e.index], Program.routine?_of_module hmodule (Array.getElem?_eq_getElem hlt)⟩

/-- A library is sound: it imports nothing and knows no records. -/
theorem Library.Holds.sound {l : Library} {u : ScriptUnit} (h : l.Holds u) (program : Program) (home : Home) :
    l.code.Sound program home := by
  obtain ⟨name, source, hcreate⟩ := h.created
  obtain ⟨hkind, tree, -, coherent⟩ := ScriptUnit.create_coherent hcreate
  obtain ⟨image, emitted, loaded⟩ := h.loaded
  refine CodeModule.sound_of_emitted coherent (hkind ▸ emitted) loaded (fun hresolve => ?_) (fun k hk => ?_)
    (fun hplace => ?_)
  · rw [ReferenceSet.resolve?_empty] at hresolve
    cases hresolve
  · rw [loaded.record, emitted.kind, hkind] at hk
    cases hk
  · rcases hplace with ⟨hrecord, -⟩ | ⟨d, hd, -⟩
    · cases hrecord
    · cases hd

end

end ScriptEngine
