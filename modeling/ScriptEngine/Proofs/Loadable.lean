import ScriptEngine.Proofs.Emission
import ScriptEngine.Proofs.LinkedUnits
import ScriptEngine.Proofs.SourceNames

/-! Whatever the binder accepts can be loaded. The image of a unit without errors passes every check of the
    loader, its imports are there and its entry routine is found, so a submission in which no error is found is
    compiled, or a table of its image would be too large. -/

namespace ScriptEngine
open ScriptEngine.Bound Lowering

/-! ### What the loader accepts -/

namespace CodeModule

variable {image : Image} {refs : ReferenceSet} {r : Routine}

theorem checkCode_ok {code : List Instr} (h : ∀ i ∈ code, operandFault? image r i = none) (pc : Nat) :
    checkCode image r code pc = .ok () := by
  induction code generalizing pc with
  | nil => rfl
  | cons i rest ih =>
    simp only [checkCode, h i (.head _)]
    exact ih (fun j hj => h j (.tail _ hj)) (pc + 1)

theorem Checked.checkRoutine (h : Checked image r) : checkRoutine image r = .ok () := by
  rw [CodeModule.checkRoutine, if_neg (not_not_intro h.ends), if_neg (Nat.not_lt.mpr h.params)]
  refine checkCode_ok (fun i hi => ?_) 0
  obtain ⟨pc, hpc⟩ := Array.mem_iff_getElem?.mp (Array.mem_toList_iff.mp hi)
  exact h.operands hpc

theorem forM_ok {ε α : Type} {f : α → Except ε Unit} {l : List α} (h : ∀ x ∈ l, f x = .ok ()) : l.forM f = .ok () := by
  induction l with
  | nil => rfl
  | cons a l ih => exact except_bind_eq_ok.mpr ⟨(), h a (.head _), ih fun x hx => h x (.tail _ hx)⟩

theorem mapM_ok {ε α β : Type} {f : α → Except ε β} {l : List α} (h : ∀ x ∈ l, ∃ y, f x = .ok y) :
    ∃ ys, l.mapM f = .ok ys := by
  induction l with
  | nil => exact ⟨[], rfl⟩
  | cons a l ih =>
    obtain ⟨b, hb⟩ := h a (.head _)
    obtain ⟨bs, hbs⟩ := ih fun x hx => h x (.tail _ hx)
    refine ⟨b :: bs, ?_⟩
    rw [List.mapM_cons]
    exact except_bind_eq_ok.mpr ⟨b, hb, except_bind_eq_ok.mpr ⟨bs, hbs, rfl⟩⟩

/-- An image is loaded if its routines pass the checks and its imports can be resolved. -/
theorem load_ok (checked : ∀ r ∈ image.functions, Checked image r)
    (resolved : ∀ wanted ∈ image.imports, (refs.resolve? wanted).isSome) : ∃ code, load image refs = .ok code := by
  have hcheck : image.functions.toList.forM (CodeModule.checkRoutine image) = .ok () :=
    forM_ok fun r hr => (checked r (Array.mem_toList_iff.mp hr)).checkRoutine
  obtain ⟨imports, himports⟩ := mapM_ok (f := linkImport refs) (l := image.imports.toList) fun wanted hwanted => by
    obtain ⟨c, hc⟩ := Option.isSome_iff_exists.mp (resolved wanted (Array.mem_toList_iff.mp hwanted))
    exact ⟨c, by rw [linkImport, hc]⟩
  exact ⟨_, except_bind_eq_ok.mpr ⟨(), hcheck, except_bind_eq_ok.mpr ⟨imports, himports, rfl⟩⟩⟩

/-- The entry routine is found if no routine before it has its name. -/
theorem entry_ok {code : CodeModule} {name : String} {i : Nat} (hr : code.functions[i]? = some r) (hname : r.name = name)
    (first : ∀ {j : Nat} {other : Routine}, j < i → code.functions[j]? = some other → other.name ≠ name)
    (few : i < indexLimit) (harity : r.arity = 0) : code.entry name = .ok i := by
  obtain ⟨hlt, hget⟩ := Array.getElem?_eq_some_iff.mp hr
  have hfind : code.functions.findIdx? (·.name = name) = some i := by
    refine Array.findIdx?_eq_some_iff_getElem.mpr ⟨hlt, ?_, fun j hj => ?_⟩
    · simpa [hget] using hname
    · simpa using first hj (Array.getElem?_eq_getElem (Nat.lt_trans hj hlt))
  have hfound : code.find? name = some i := by
    rw [find?, hfind]
    simp [few]
  simp only [entry, hfound, hr, if_pos harity]

/-! ### Emitted routines -/

/-- An image has what is in scope in the unit that it was emitted from. -/
structure Offers (image : Image) (scope : Scope) : Prop where
  functions : image.functions.size = scope.functions
  imports : image.imports.size = scope.imports
  record : Image.ownRecord? image.kind image.ordinal = scope.record
  slots : scope.record.isSome → image.slots.size = scope.slots
  earlier : ∀ d ∈ scope.earlier, ∃ own, scope.record = some own ∧ d.record < own

/-- The slots in scope are those that the loader lets a module name. -/
theorem Offers.slotFault {scope : Scope} (h : Offers image scope) {record slot : Nat}
    (hplace : (Place.slot record slot).In scope) :
    (match Image.ownRecord? image.kind image.ordinal with
      | none => some OperandFault.noState
      | some own =>
        if record > own then some (.laterRecord record)
        else if record = own ∧ image.slots.size ≤ slot then some (.slot slot)
        else none) = none := by
  rcases hplace with ⟨hown, hslot⟩ | ⟨d, hd, rfl, -⟩
  · have hslots := h.slots (hown ▸ rfl)
    simp only [h.record, hown]
    rw [if_neg (Nat.lt_irrefl _), if_neg (by omega)]
  · obtain ⟨own, hown, hlt⟩ := h.earlier d hd
    simp only [h.record, hown]
    rw [if_neg (by omega), if_neg (by omega)]

/-- The code of a function that is in scope passes the checks of the loader. -/
theorem checked_of_stands {scope : Scope} {p : Bound.Program} {index : Nat} {f : Func} (offers : Offers image scope)
    (stands : Stands.function r p index f) (hp : p.Scoped scope) (hf : f.Scoped scope) : Checked image r := by
  have flows := function_flows stands
  refine ⟨?_, ?_, fun {pc i} hi => ?_⟩
  · rw [Array.back?, stands.size, Nat.add_sub_cancel]
    exact stands.last
  · rw [stands.arity, stands.locals]
    exact hf.params
  · have fit := function_fits stands hp hf hi
    have inside {target : Nat} (hexit : target ∈ i.exits pc) : target < r.code.size := by
      have hlt : pc < (Sites.function p index f).length := flows.size ▸ (Array.getElem?_eq_some_iff.mp hi).1
      obtain ⟨-, exits⟩ := flows.flow (List.getElem?_eq_getElem hlt) i hi
      obtain ⟨depth, hat, -⟩ := exits target hexit
      exact Machine.Flows.lt flows hat
    cases i with
    | const i => exact if_pos fit
    | loadLocal i | storeLocal i =>
      have hlocal : i.toNat < r.locals.toNat := stands.locals ▸ fit
      exact if_pos (UInt16.lt_iff_toNat_lt.mpr hlocal)
    | loadSlot record i | storeSlot record i => exact offers.slotFault fit
    | loadImport i => exact if_pos (offers.imports ▸ fit)
    | loadFunction i => exact if_pos (offers.functions ▸ fit)
    | openRecord => exact if_pos (offers.record ▸ fit)
    | jump target => exact if_pos (inside (.head _))
    | jumpIfFalse target => exact if_pos (inside (.tail _ (.head _)))
    | intrinsic id argc => exact if_pos fit
    | _ => rfl

end CodeModule

/-! ### Units -/

/-- The name of the entry routine is not a word, so no declared function has it. -/
theorem IsWord.ne_entry {name : String} (h : IsWord name) : name ≠ "<Main>" := by
  rintro rfl
  exact absurd (h.parts '<' (by decide)) (by decide)

theorem UnitKind.qualified_inj {kind : UnitKind} {name name' : String} (h : kind.qualified name = kind.qualified name') :
    name = name' := (String.append_right_inj _).mp h

section
variable {n : Nat} {source : String} {refs : ReferenceSet} {imports : List String} {earlier : List Declared}
  {u : ScriptUnit} {image : Image}

/-- The image of a script has what is in scope in the script. -/
theorem ScriptUnit.image_offers (few : n + 1 < 4294967296) (hearlier : ∀ d ∈ earlier, d.record < n)
    (hu : create (.script (n + 1)) source refs imports earlier = .ok u) (himage : u.image = .ok image) :
    CodeModule.Offers image (u.output.scope ⟨source.toList, .script (n + 1), earlier, refs, imports⟩) := by
  obtain ⟨hkind, tree, -, coherent⟩ := create_coherent hu
  have emitted := image_emitted himage
  refine ⟨emitted.stands.size, congrArg Array.size emitted.imports, ?_, fun _ => ?_, fun d hd => ⟨n, rfl, hearlier d hd⟩⟩
  · rw [emitted.kind, emitted.ordinal, hkind]
    exact Image.ownRecord?_script few
  · have hslots : u.program.slots = u.symbols.names := coherent.slots rfl
    rw [emitted.slots, hslots, Symbols.names, Array.size_map]
    rfl

/-- Every routine is the code of a function, which is in scope, so an image that has what is in scope is loaded. -/
theorem ScriptUnit.load_offered {kind : UnitKind} (hu : create kind source refs imports earlier = .ok u)
    (himage : u.image = .ok image)
    (offers : CodeModule.Offers image (u.output.scope ⟨source.toList, kind, earlier, refs, imports⟩)) :
    ∃ code, CodeModule.load image refs = .ok code := by
  obtain ⟨-, tree, -, coherent⟩ := create_coherent hu
  have emitted := image_emitted himage
  have checked : ∀ r ∈ image.functions, CodeModule.Checked image r := by
    intro r hr
    obtain ⟨k, hk⟩ := Array.mem_iff_getElem?.mp hr
    have hlt : k < u.program.functions.length := emitted.stands.size ▸ (Array.getElem?_eq_some_iff.mp hk).1
    have hf : u.program.functions[k]? = some u.program.functions[k] := List.getElem?_eq_getElem hlt
    exact CodeModule.checked_of_stands offers (emitted.stands.function hf hk)
      coherent.inScope (coherent.inScope.functions _ (List.getElem_mem hlt))
  exact CodeModule.load_ok checked (emitted.imports ▸ coherent.imports)

theorem ScriptUnit.load_emitted (few : n + 1 < 4294967296) (hearlier : ∀ d ∈ earlier, d.record < n)
    (hu : create (.script (n + 1)) source refs imports earlier = .ok u) (himage : u.image = .ok image) :
    ∃ code, CodeModule.load image refs = .ok code :=
  load_offered hu himage (image_offers few hearlier hu himage)

/-- The entry routine comes after those of declared functions, of which none has its name. -/
theorem ScriptUnit.entry_emitted {code : CodeModule}
    (hu : create (.script (n + 1)) source refs imports earlier = .ok u) (himage : u.image = .ok image)
    (hload : CodeModule.load image refs = .ok code) :
    ∃ i, u.program.entry = some i ∧ code.entry (u.kind.qualified "<Main>") = .ok i := by
  obtain ⟨hkind, tree, htree, coherent⟩ := create_coherent hu
  have emitted := image_emitted himage
  have loaded := CodeModule.load_loaded hload
  obtain ⟨first, main, hfs, hentry, hmain, harity, hfirst⟩ := coherent.entry rfl
  have hfs : u.program.functions = first ++ [main] := hfs
  have stands {k : Nat} {f : Func} {r : Routine} (hf : u.program.functions[k]? = some f)
      (hr : code.functions[k]? = some r) : Stands.function r u.program k f :=
    emitted.stands.function hf (loaded.functions ▸ hr)
  have hsize : code.functions.size = first.length + 1 := by
    rw [loaded.functions, emitted.stands.size, hfs, List.length_append]
    rfl
  have hlt : first.length < code.functions.size := hsize ▸ Nat.lt_succ_self _
  have hr : code.functions[first.length]? = some code.functions[first.length] := Array.getElem?_eq_getElem hlt
  have standsMain := stands (f := main) (by rw [hfs]; simp) hr
  refine ⟨first.length, hentry, CodeModule.entry_ok hr ?_ (fun {j other} hj hother => ?_) ?_ ?_⟩
  · rw [standsMain.name, hmain, hkind]
  · have hf : u.program.functions[j]? = some first[j] := by
      rw [hfs, List.getElem?_append_left hj, List.getElem?_eq_getElem hj]
    obtain ⟨name, params, body, span, hfunc, hname⟩ := hfirst _ (List.getElem_mem hj)
    rw [(stands hf hother).name, hname, hkind]
    exact fun heq => (Tree.Fragment.parse_named htree hfunc rfl).ne_entry (UnitKind.qualified_inj heq)
  · have hfew := emitted.few
    rw [← loaded.functions, hsize] at hfew
    exact hfew
  · have hzero := standsMain.arity.trans harity
    exact UInt8.toNat_inj.mp hzero

/-- The image of a script is loaded, and its entry routine is found. -/
theorem Executable.ofBytes_emitted (few : n + 1 < 4294967296) (hearlier : ∀ d ∈ earlier, d.record < n)
    (hu : ScriptUnit.create (.script (n + 1)) source refs imports earlier = .ok u) (himage : u.image = .ok image)
    (encodes : u.Encodes) : ∃ e, ofBytes image.bytes refs (u.kind.qualified "<Main>") = .ok e := by
  obtain ⟨code, hload⟩ := ScriptUnit.load_emitted few hearlier hu himage
  obtain ⟨i, -, hentry⟩ := ScriptUnit.entry_emitted hu himage hload
  exact ⟨_, except_bind_eq_ok.mpr ⟨image, encodes.decode himage, except_bind_eq_ok.mpr ⟨code, hload, except_bind_eq_ok.mpr
    ⟨i, hentry, rfl⟩⟩⟩⟩

/-- Emission of a unit without errors fails for nothing but a table that is too large. -/
theorem ScriptUnit.image_limit {kind : UnitKind} {e : EmitError} (hu : create kind source refs imports earlier = .ok u)
    (clean : u.hasErrors = false) (h : u.image = .error e) : e.IsLimit := by
  obtain ⟨-, tree, -, coherent⟩ := create_coherent hu
  refine ends_image u.kind coherent.inScope e h ?_
  rintro ⟨d, hd, herror⟩
  rw [hasErrors, List.any_eq_false] at clean
  exact clean d hd herror

end

/-- A text that cannot be read is reported with an error. -/
theorem ScriptUnit.create_error {kind : UnitKind} {source : String} {refs : ReferenceSet} {imports : List String}
    {earlier : List Declared} {ds : List Diagnostic} (h : create kind source refs imports earlier = .error ds) :
    ∃ d ∈ ds, d.isError = true := by
  unfold create at h
  dsimp only at h
  split at h
  · rename_i errors herrors
    cases h
    obtain ⟨first, rest, rfl⟩ := List.exists_cons_of_ne_nil (Tree.Fragment.parse_error herrors)
    exact ⟨_, .head _, rfl⟩
  · cases h

/-! ### Submissions -/

namespace Chain

/-- The chains that submissions lead to, whatever libraries each of them is compiled against. -/
inductive Reached : Chain → Prop where
  | start (imports : List String) : Reached (.start imports)
  | accept {c : Chain} {source : String} {refs : ReferenceSet} {accepted : Compiled} (reached : Reached c)
      (compiled : c.compile source refs = .ok accepted) : Reached (c.accept accepted)

variable {c : Chain} {source : String} {refs : ReferenceSet}

theorem compile_kind {accepted : Compiled} (h : c.compile source refs = .ok accepted) :
    accepted.unit.kind = .script (c.index + 1) := (ScriptUnit.create_coherent (compile_eq_ok h).1).1

/-- The records of a chain stand before the next one. -/
theorem Reached.earlier (h : c.Reached) : ∀ d ∈ c.declared, d.record < c.index := by
  induction h with
  | start imports => exact fun d hd => nomatch hd
  | @accept c source refs accepted reached compiled ih =>
    intro d hd
    obtain ⟨u, hu, hdeclared⟩ := List.mem_filterMap.mp hd
    rcases List.mem_cons.mp hu with rfl | hu
    · rw [ScriptUnit.declared?, compile_kind compiled] at hdeclared
      cases hdeclared
      exact Nat.lt_succ_self _
    · exact Nat.lt_succ_of_lt (ih d (List.mem_filterMap.mpr ⟨u, hu, hdeclared⟩))

/-- A submission is compiled, unless an error was found in it or a table of its image would be too large. -/
theorem Reached.compile_complete (reached : c.Reached) (few : c.index < 4294967295)
    (encodes : ∀ u, ScriptUnit.create (.script (c.index + 1)) source refs c.imports c.declared = .ok u → u.Encodes) :
    (∃ accepted, c.compile source refs = .ok accepted) ∨
    (∃ ds, c.compile source refs = .error (.rejected ds) ∧ ∃ d ∈ ds, d.isError = true) ∨
    ∃ e ds, c.compile source refs = .error (.emit e ds) ∧ (∀ d ∈ ds, d.isError = false) ∧ e.IsLimit := by
  unfold compile
  cases hu : ScriptUnit.create (.script (c.index + 1)) source refs c.imports c.declared with
  | error ds => exact .inr (.inl ⟨ds, rfl, ScriptUnit.create_error hu⟩)
  | ok u =>
    dsimp only
    cases hclean : u.hasErrors with
    | true =>
      rw [if_pos rfl]
      exact .inr (.inl ⟨u.diagnostics, rfl, List.any_eq_true.mp hclean⟩)
    | false =>
      rw [if_neg Bool.false_ne_true]
      cases himage : u.image with
      | error e =>
        have hunit : Executable.ofUnit u refs = .error e := by
          rw [Executable.ofUnit, himage]
          rfl
        rw [hunit]
        refine .inr (.inr ⟨e, u.diagnostics, rfl, fun d hd => ?_, ScriptUnit.image_limit hu hclean himage⟩)
        rw [ScriptUnit.hasErrors, List.any_eq_false] at hclean
        exact Bool.eq_false_iff.mpr (hclean d hd)
      | ok image =>
        obtain ⟨e, he⟩ := Executable.ofBytes_emitted (Nat.succ_lt_succ few) reached.earlier hu himage (encodes u hu)
        have hkind := (ScriptUnit.create_coherent hu).1
        have hunit : Executable.ofUnit u refs = .ok e := by
          have hname : u.kind.entryName?.getD (u.kind.qualified "<Main>") = u.kind.qualified "<Main>" := by
            rw [hkind]
            rfl
          refine except_bind_eq_ok.mpr ⟨image, himage, ?_⟩
          dsimp only
          rw [hname, he]
          rfl
        rw [hunit]
        exact .inl ⟨_, rfl⟩

/-- A library, a submission that uses it, and one that uses both. -/
def smallTexts : String × String × String :=
  ("fn twice(n) { n + n }",
   "let mut x = twice(4); fn f(n) { if n < 1 { return x; } f(n - 1) }",
   "while x > 0 { x = x - lib::twice({ if f(2) < 3 { break; } 1 }); } x")

/-- The second submission of the small texts, after the first one. -/
theorem Reached.compile_complete_small : ∃ l accepted, (Chain.start ["lib"]).compile smallTexts.2.1 #[l] = .ok accepted ∧
    let c := (Chain.start ["lib"]).accept accepted
    c.index = 1 ∧
    ((∃ accepted, c.compile smallTexts.2.2 #[l] = .ok accepted) ∨
    (∃ ds, c.compile smallTexts.2.2 #[l] = .error (.rejected ds) ∧ ∃ d ∈ ds, d.isError = true) ∨
    ∃ e ds, c.compile smallTexts.2.2 #[l] = .error (.emit e ds) ∧ (∀ d ∈ ds, d.isError = false) ∧ e.IsLimit) := by
  have computes : ((Library.build "lib" smallTexts.1).toOption.bind fun bytes =>
      (Library.ofBytes "lib.plib" bytes).toOption.bind fun l =>
        ((Chain.start ["lib"]).compile smallTexts.2.1 #[l]).toOption.map fun accepted =>
          (l, accepted)).any (fun (l, accepted) =>
            let c := (Chain.start ["lib"]).accept accepted
            decide (∀ u, ScriptUnit.create (.script (c.index + 1)) smallTexts.2.2 #[l] c.imports c.declared = .ok u →
              u.Encodes)) = true := by decide +kernel
  obtain ⟨⟨l, accepted⟩, hmade, hencodes⟩ := (Option.any_eq_true ..).mp computes
  obtain ⟨bytes, -, hmade⟩ := Option.bind_eq_some_iff.mp hmade
  obtain ⟨l', -, hmade⟩ := Option.bind_eq_some_iff.mp hmade
  obtain ⟨accepted', hcompile, heq⟩ := Option.map_eq_some_iff.mp hmade
  cases heq
  have compiled := except_toOption_eq_some.mp hcompile
  have reached : Reached ((Chain.start ["lib"]).accept accepted) := .accept (.start ["lib"]) compiled
  have few : ((Chain.start ["lib"]).accept accepted).index < 4294967295 := by
    show 1 < 4294967295
    decide
  exact ⟨l, accepted, compiled, rfl, reached.compile_complete few (of_decide_eq_true hencodes)⟩

end Chain
end ScriptEngine
