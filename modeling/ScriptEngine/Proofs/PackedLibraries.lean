import ScriptEngine.Proofs.BindingRules
import ScriptEngine.Proofs.Loadable

/-! A library that was built can be loaded, and exports what its source declares (`Library.ofBytes_build`). Where no
    error is found, every function of the source is declared, under a name that no other one has
    (`Binder.bind_headings`), and the name that its routine gets can be told from the qualified one. -/

namespace ScriptEngine
open Lowering

namespace Tree

/-- The name and the number of parameters of the function that a statement declares. -/
def Stmt.heading? : Stmt → Option (String × Nat)
  | .func name params _ _ => some (name.name, params.length)
  | _ => none

/-- The functions that a fragment declares, in the order of the source. -/
def Fragment.headings (f : Fragment) : List (String × Nat) := f.stmts.filterMap Stmt.heading?

/-- What a library with this source exports: every function, with its position among the functions. -/
def Fragment.exports (f : Fragment) : List Export := f.headings.zipIdx.map fun (h, i) => ⟨h.1, h.2, i⟩

theorem Fragment.exports_names (f : Fragment) : f.exports.map (·.name) = f.headings.map Prod.fst := by
  have hnames : f.exports.map (·.name) = (f.headings.zipIdx.map Prod.fst).map Prod.fst := by
    rw [exports, List.map_map, List.map_map]
    rfl
  rw [hnames, List.zipIdx_map_fst]

theorem Fragment.headings_named {source : List Char} {f : Fragment} (h : parse source = .ok f) :
    ∀ heading ∈ f.headings, IsWord heading.1 := by
  intro heading hmem
  obtain ⟨s, hs, hheading⟩ := List.mem_filterMap.mp hmem
  cases s with
  | func name params body span =>
    cases hheading
    exact parse_named h hs rfl
  | _ => cases hheading

end Tree

/-! ### Declared functions -/

namespace Symbols

/-- A name is free if it was not declared before and is not declared now. -/
theorem lookup?_declare_eq_none {s : Symbols} {name other : String} {kind : SymbolKind} {span : Span} :
    (s.declare name kind span).lookup? other = none ↔ name ≠ other ∧ s.lookup? other = none := by
  rw [lookup?, declare, Array.toList_push, List.reverse_append, List.reverse_singleton, List.singleton_append,
    List.find?_cons]
  by_cases h : name = other <;> simp [h, lookup?]

end Symbols

namespace Binder

def Declaration.heading (d : Declaration) : String × Nat := (d.name.name, d.params.length)

/-- The declaration that a statement is. -/
def Declaration.ofStmt? : Tree.Stmt → Option Declaration
  | .func name params body span => some ⟨name, params, body, span⟩
  | _ => none

variable {ctx : Context} {s : State}

/-- Declaring functions takes no message back. -/
theorem hoist_blamed (ss : List Tree.Stmt) (index : Nat) (h : s.Blamed) : ((hoist ctx ss index).run s).2.Blamed := by
  induction ss generalizing s index with
  | nil => exact h
  | cons st ss ih =>
    cases st with
    | func name params body span =>
      unfold hoist
      simp only [StateT.run_bind, StateT.run_get, pure_bind]
      split
      · exact ih index ((yields_report : Yields s (report ctx _ _) _).1.blamed h)
      · exact ih (index + 1) h
    | _ => exact ih index h

/-- All functions are declared, without an error: each of them has a name of its own. -/
structure Declares (ss : List Tree.Stmt) (s : State) (declared : List Declaration) : Prop where
  all : declared = ss.filterMap Declaration.ofStmt?
  free : ∀ d ∈ declared, s.symbols.lookup? d.name.name = none
  distinct : (declared.map (·.name.name)).Nodup

theorem Declares.headings {ss : List Tree.Stmt} {declared : List Declaration} (h : Declares ss s declared) :
    declared.map Declaration.heading = ss.filterMap Tree.Stmt.heading? := by
  rw [h.all, List.map_filterMap]
  refine List.filterMap_congr fun st _ => ?_
  cases st <;> rfl

theorem hoist_declares (ss : List Tree.Stmt) (index : Nat) (clean : ¬ ((hoist ctx ss index).run s).2.Blamed) :
    Declares ss s ((hoist ctx ss index).run s).1 := by
  induction ss generalizing s index with
  | nil => exact ⟨rfl, fun d hd => (nomatch hd), .nil⟩
  | cons st ss ih =>
    cases st with
    | func name params body span =>
      unfold hoist at clean ⊢
      simp only [StateT.run_bind, StateT.run_get, pure_bind] at clean ⊢
      split at clean
      · -- A name that was declared before is an error, and errors stay.
        exact absurd (hoist_blamed ss index ⟨_, Array.mem_push_self, rfl⟩) clean
      · rename_i hfree
        have rest := ih (index + 1) clean
        have fresh (d : Declaration) (hd : d ∈ _) := Symbols.lookup?_declare_eq_none.mp (rest.free d hd)
        refine ⟨congrArg (List.cons _) rest.all, fun d hd => ?_, List.nodup_cons.mpr ⟨fun hmem => ?_, rest.distinct⟩⟩
        · rcases List.mem_cons.mp hd with rfl | hd
          · exact hfree
          · exact (fresh d hd).2
        · obtain ⟨d, hd, hname⟩ := List.mem_map.mp hmem
          exact (fresh d hd).1 hname.symm
    | _ => exact { ih index clean with }

theorem declarations_declares {f : Tree.Fragment} (clean : ∀ d ∈ (bind ctx f).diagnostics, d.isError = false) :
    Declares f.stmts ⟨.empty, #[], #[], Frame.function⟩ (declarations ctx f).1 := by
  have grows := (makes_unitFunctions (declarations_fits ctx f) f (declarations ctx f).1).2.1
  exact hoist_declares f.stmts 0 fun h => unitFunctions_unblamed clean (grows.blamed h)

/-- Functions are bound under their qualified names. -/
theorem functions_headings (ds : List Declaration) : ((functions ctx ds).run s).1.map (fun g => (g.name, g.arity)) =
    ds.map fun d => (ctx.unit.qualified d.name.name, d.params.length) := by
  induction ds generalizing s with
  | nil => rfl
  | cons d ds ih => exact congrArg (List.cons _) ih

/-- In a library without errors, the functions are those of the source, and no two have the same name. -/
theorem bind_headings {library : String} (hunit : ctx.unit = .library library) (f : Tree.Fragment)
    (clean : ∀ d ∈ (bind ctx f).diagnostics, d.isError = false) :
    (bind ctx f).program.functions.map (fun g => (g.name, g.arity)) =
      f.headings.map (fun h => (ctx.unit.qualified h.1, h.2)) ∧ (f.headings.map Prod.fst).Nodup := by
  have declares := declarations_declares clean
  have hfunctions : (bind ctx f).program.functions =
      ((functions ctx (declarations ctx f).1).run ((rejectStatements ctx f).run (declarations ctx f).2).2).1 := by
    have hname : ctx.unit.entryName? = none := by rw [hunit]; rfl
    show ((unitFunctions ctx f (declarations ctx f).1).run (declarations ctx f).2).1 = _
    simp only [unitFunctions, hname]
    rfl
  refine ⟨?_, ?_⟩
  · rw [hfunctions, functions_headings, Tree.Fragment.headings, ← declares.headings, List.map_map]
    rfl
  · rw [Tree.Fragment.headings, ← declares.headings, List.map_map]
    exact declares.distinct

end Binder

/-! ### Names of routines -/

/-- There is no point in a word. -/
theorem IsWord.ne_point {name : String} (h : IsWord name) : ∀ c ∈ name.toList, c ≠ '.' := by
  rintro c hc rfl
  exact absurd (h.parts '.' hc) (by decide)

/-- The name that was written in the source is what stands after the last point. -/
theorem UnitKind.unqualified_qualified (kind : UnitKind) {name : String} (h : IsWord name) :
    Routine.unqualified (kind.qualified name) = name := by
  have hlist : (kind.qualified name).toList.reverse = name.toList.reverse ++ '.' :: kind.qualifier.toList.reverse := by
    rw [qualified, String.toList_append, String.toList_append, List.reverse_append, List.reverse_append]
    rfl
  have hword : ∀ c ∈ name.toList.reverse, decide (c ≠ '.') = true := fun c hc =>
    decide_eq_true (h.ne_point c (List.mem_reverse.mp hc))
  rw [Routine.unqualified, hlist, List.takeWhile_append_of_pos hword, List.takeWhile_cons_of_neg (by decide),
    List.append_nil, List.reverse_reverse, String.ofList_toList]

/-- The routines of an image have the names and the parameters of the functions they were emitted from. -/
theorem Lowering.Emitted.headings {unit : UnitKind} {p : Bound.Program} {image : Image} (h : Emitted unit p image) :
    image.functions.toList.map (fun r => (r.name, r.arity.toNat)) = p.functions.map fun g => (g.name, g.arity) := by
  have hlength : image.functions.toList.length = p.functions.length := by rw [Array.length_toList, h.stands.size]
  refine List.ext_getElem (by rw [List.length_map, List.length_map, hlength]) fun i hi hi' => ?_
  rw [List.length_map] at hi hi'
  have stands := h.stands.function (List.getElem?_eq_getElem hi')
    (Array.getElem?_toList.symm.trans (List.getElem?_eq_getElem hi))
  rw [List.getElem_map, List.getElem_map, stands.name, stands.arity]

/-! ### Built libraries -/

namespace Library

variable {name source : String} {bytes : List UInt8}

/-- What was built has no errors. -/
theorem build_clean {u : ScriptUnit} (h : build name source = .ok bytes)
    (hu : ScriptUnit.create (.library name) source #[] [] [] = .ok u) : u.hasErrors = false := by
  unfold build at h
  split at h
  · cases h
  · rw [hu] at h
    dsimp only at h
    split at h
    · cases h
    · rename_i hclean
      exact Bool.not_eq_true _ ▸ hclean

/-- A library offers its functions only: it has no record and sees no other one. -/
theorem image_offers {u : ScriptUnit} {image : Image}
    (hu : ScriptUnit.create (.library name) source #[] [] [] = .ok u) (himage : u.image = .ok image) :
    CodeModule.Offers image (u.output.scope ⟨source.toList, .library name, [], #[], []⟩) := by
  have hkind := (ScriptUnit.create_coherent hu).1
  have emitted := image_emitted himage
  refine ⟨emitted.stands.size, congrArg Array.size emitted.imports, ?_, fun h => (nomatch h), fun d hd => (nomatch hd)⟩
  rw [emitted.kind, hkind]
  rfl

/-- All functions of a module are exported: there are not more than positions. -/
theorem exportsOf_eq {code : CodeModule} {headings : List (String × Nat)} (few : code.functions.size ≤ CodeModule.indexLimit)
    (h : code.functions.toList.map (fun r => (r.shortName, r.arity.toNat)) = headings) :
    exportsOf code = headings.zipIdx.map fun (h, i) => ⟨h.1, h.2, i⟩ := by
  rw [exportsOf, List.take_of_length_le (Array.length_toList ▸ few), ← h, List.zipIdx_map, List.map_map]
  rfl

/-- If no two exports have the same name, each is found by its name. -/
theorem find?_name_eq_some {exports : List Export} (distinct : (exports.map (·.name)).Nodup) {wanted : String}
    {e : Export} : exports.find? (·.name = wanted) = some e ↔ e ∈ exports ∧ e.name = wanted := by
  refine ⟨fun h => ⟨List.mem_of_find?_eq_some h, by simpa using List.find?_some h⟩, ?_⟩
  rintro ⟨hmem, rfl⟩
  induction exports with
  | nil => cases hmem
  | cons first rest ih =>
    obtain ⟨hfirst, distinct⟩ := List.nodup_cons.mp distinct
    rcases List.mem_cons.mp hmem with rfl | hmem
    · exact List.find?_cons_of_pos (decide_eq_true rfl)
    · have hne : first.name ≠ e.name := fun heq => hfirst (List.mem_map.mpr ⟨e, hmem, heq.symm⟩)
      rw [List.find?_cons_of_neg (by simpa using hne)]
      exact ih distinct hmem

section
variable {u : ScriptUnit} {image : Image} {tree : Tree.Fragment}

/-- The image of a library is loaded. -/
theorem ofBytes_emitted (location : String) (hu : ScriptUnit.create (.library name) source #[] [] [] = .ok u)
    (himage : u.image = .ok image) (encodes : u.Encodes) :
    ∃ code, ofBytes location image.bytes = .ok (ofModule location code) ∧ CodeModule.Loaded image #[] code := by
  have hlibrary : image.kind = .library := by
    rw [(image_emitted himage).kind, (ScriptUnit.create_coherent hu).1]
    rfl
  obtain ⟨code, hload⟩ := ScriptUnit.load_offered hu himage (image_offers hu himage)
  refine ⟨code, ?_, CodeModule.load_loaded hload⟩
  rw [ofBytes, encodes.decode himage]
  dsimp only
  rw [if_neg (not_not_intro hlibrary), hload]

/-- Functions of a library without errors are exported as they were written in the source. -/
theorem exportsOf_emitted {code : CodeModule} (htree : Tree.Fragment.parse source.toList = .ok tree)
    (hu : ScriptUnit.create (.library name) source #[] [] [] = .ok u) (clean : u.hasErrors = false)
    (himage : u.image = .ok image) (loaded : CodeModule.Loaded image #[] code) :
    exportsOf code = tree.exports ∧ (tree.exports.map (·.name)).Nodup := by
  have emitted := image_emitted himage
  rw [ScriptUnit.create, htree] at hu
  cases hu
  have hunit : Binder.Context.unit ⟨source.toList, .library name, [], #[], []⟩ = .library name := rfl
  obtain ⟨hbound, distinct⟩ := Binder.bind_headings hunit tree
    fun d hd => Bool.not_eq_true _ ▸ List.any_eq_false.mp clean d hd
  refine ⟨exportsOf_eq (loaded.functions ▸ emitted.few) ?_, tree.exports_names ▸ distinct⟩
  have hshort := congrArg (List.map fun h : String × Nat => (Routine.unqualified h.1, h.2)) (emitted.headings.trans hbound)
  rw [List.map_map, List.map_map] at hshort
  rw [loaded.functions]
  refine hshort.trans ((List.map_congr_left fun heading hmem => ?_).trans (List.map_id _))
  exact congrArg (·, heading.2) (UnitKind.unqualified_qualified _ (Tree.Fragment.headings_named htree heading hmem))

end

/-- The bytes that are built from a source are a library with the functions of the source: it exports them with their
    parameters and positions, in their order, and finds each of them by its name, and nothing else. -/
theorem ofBytes_build (location : String) (h : build name source = .ok bytes)
    (encodes : ∀ u, ScriptUnit.create (.library name) source #[] [] [] = .ok u → u.Encodes) :
    ∃ tree l, Tree.Fragment.parse source.toList = .ok tree ∧ ofBytes location bytes = .ok l ∧
      l.location = location ∧ l.name = name ∧ l.exports = tree.exports ∧
      ∀ wanted e, l.export? wanted = some e ↔ e ∈ tree.exports ∧ e.name = wanted := by
  obtain ⟨u, image, hu, himage, rfl⟩ := build_eq_ok h
  obtain ⟨hkind, tree, htree, -⟩ := ScriptUnit.create_coherent hu
  obtain ⟨code, hl, loaded⟩ := ofBytes_emitted location hu himage (encodes u hu)
  obtain ⟨hexports, distinct⟩ := exportsOf_emitted htree hu (build_clean h hu) himage loaded
  refine ⟨tree, _, htree, hl, rfl, ?_, hexports, fun wanted e => ?_⟩
  · have hname : code.name = name := by
      rw [loaded.name, (image_emitted himage).name, hkind]
      rfl
    exact hname
  · rw [← find?_name_eq_some distinct, ← hexports]
    rfl

/-- A library with two functions, of which the second one calls the first. -/
def pairSource : String := "fn one() { 1 } fn inc(x) { x + one() }"

/-- What the library with two functions exports, and that it finds them. -/
theorem ofBytes_build_pair : ∃ bytes l, build "pair" pairSource = .ok bytes ∧
    (∀ u, ScriptUnit.create (.library "pair") pairSource #[] [] [] = .ok u → u.Encodes) ∧
    ofBytes "pair.plib" bytes = .ok l ∧ l.name = "pair" ∧ l.exports = [⟨"one", 0, 0⟩, ⟨"inc", 1, 1⟩] ∧
    l.export? "inc" = some ⟨"inc", 1, 1⟩ ∧ l.export? "two" = none := by
  have computes : (build "pair" pairSource).toOption.isSome = true ∧
      (∀ u, ScriptUnit.create (.library "pair") pairSource #[] [] [] = .ok u → u.Encodes) ∧
      (Tree.Fragment.parse pairSource.toList).toOption.map (·.exports) = some [⟨"one", 0, 0⟩, ⟨"inc", 1, 1⟩] := by
    decide +kernel
  obtain ⟨hbytes, encodes, hexports⟩ := computes
  obtain ⟨bytes, hbytes⟩ := Option.isSome_iff_exists.mp hbytes
  have built := except_toOption_eq_some.mp hbytes
  obtain ⟨tree, l, htree, hl, -, hname, hl', found⟩ := ofBytes_build "pair.plib" built encodes
  have hdeclared : tree.exports = [⟨"one", 0, 0⟩, ⟨"inc", 1, 1⟩] := by
    rw [htree] at hexports
    exact Option.some.inj hexports
  rw [hdeclared] at hl' found
  refine ⟨bytes, l, built, encodes, hl, hname, hl', (found _ _).mpr ⟨.tail _ (.head _), rfl⟩, ?_⟩
  have missing : ∀ e ∈ ([⟨"one", 0, 0⟩, ⟨"inc", 1, 1⟩] : List Export), e.name ≠ "two" := by decide
  exact Option.eq_none_iff_forall_ne_some.mpr fun e he => missing e ((found _ _).mp he).1 ((found _ _).mp he).2

end Library
end ScriptEngine
