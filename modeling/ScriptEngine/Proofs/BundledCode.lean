import ScriptEngine.Library.Cache
import ScriptEngine.Proofs.CallDepth
import ScriptEngine.Proofs.CallFreeScripts
import ScriptEngine.Proofs.FunctionRuns
import ScriptEngine.Proofs.PackedLibraries

/-! Bundled libraries as code. If the source of a library is compiled to the code of some bound functions, the library is
    fetched with this code and exports these functions (`Library.fetched`). Then in every program a call of one of them that
    calls nothing itself comes to what its body means (`Machine.Calling.leaves`). -/

namespace ScriptEngine
open Evaluator Lowering Machine

namespace Library

/-! ### Sources -/

theorem toList_lines (ls : List String) : (lines ls).toList = ls.flatMap fun l => l.toList ++ ['\n'] := by
  rw [lines, String.toList_join, List.flatMap_map]
  simp only [String.toList_append, String.reduceToList]

/-- A unit is created from the characters of its source. -/
theorem create_of_parse {kind : UnitKind} {source : String} {refs : ReferenceSet} {imports : List String}
    {earlier : List Declared} {tree : Tree.Fragment} (h : Tree.Fragment.parse source.toList = .ok tree) :
    ScriptUnit.create kind source refs imports earlier =
      .ok ⟨kind, (Binder.bind ⟨source.toList, kind, earlier, refs, imports⟩ tree).symbols,
        (Binder.bind ⟨source.toList, kind, earlier, refs, imports⟩ tree).program,
        (Binder.bind ⟨source.toList, kind, earlier, refs, imports⟩ tree).diagnostics⟩ := by
  rw [ScriptUnit.create, h]

/-- The text is compiled without errors, to the code of a unit. -/
def compilesTo (name : String) (p : Bound.Program) (text : List Char) : Bool :=
  (Tree.Fragment.parse text).toOption.any fun tree =>
    let o := Binder.bind ⟨text, .library name, [], #[], []⟩ tree
    !o.diagnostics.any (·.isError) &&
      (Lowering.image (.library name) o.program).toOption == (Lowering.image (.library name) p).toOption

/-- The code of a unit has a written form. -/
def hasBytes (name : String) (p : Bound.Program) : Bool :=
  (Lowering.image (.library name) p).toOption.any fun im => decide im.Fits

/-- The characters of a joined text are those of its lines, which are much faster to compute. -/
theorem compilesTo_lines {name : String} {p : Bound.Program} {ls : List String}
    (computes : compilesTo name p (ls.flatMap fun l => l.toList ++ ['\n']) = true) :
    compilesTo name p (lines ls).toList = true := by
  rwa [toList_lines]

/-- The functions of a unit, as a library exports them. -/
def exportsOfUnit (p : Bound.Program) : List Export :=
  (p.functions.map fun f => (Routine.unqualified f.name, f.arity)).zipIdx.map fun (h, i) => ⟨h.1, h.2, i⟩

/-! ### Locations -/

theorem afterStart?_append (start cs : List Char) : afterStart? start (start ++ cs) = some cs := by
  induction start with
  | nil => rw [List.nil_append, afterStart?]
  | cons c start ih => rw [List.cons_append, afterStart?, if_pos rfl, ih]

theorem bundledAt_of_source {name source : String} (h : bundledSource? name = some source) :
    bundledAt? (bundledLocation name) = some (name, source) := by
  have located : nameOfLocation? (bundledLocation name) = some name := by
    rw [nameOfLocation?, bundledLocation, String.toList_append, String.toList_append, List.append_assoc, afterStart?_append]
    simp only [Option.bind_eq_bind, Option.bind_some, List.reverse_append, afterStart?_append, List.reverse_reverse,
      String.ofList_toList]
    rfl
  rw [bundledAt?, located]
  simp only [Option.bind_eq_bind, Option.bind_some, h]
  rfl

/-! ### Loading -/

/-- A bundled library is fetched by building and loading it. -/
theorem fetchLibrary_bundled (earlier : List String) {location name source : String} {bytes : List UInt8}
    (hsource : bundledAt? location = some (name, source)) (hbuild : build name source = .ok bytes) :
    Cache.fetchLibrary Supply.bundled earlier location = ofBytes location bytes := by
  simp only [Cache.fetchLibrary, Supply.bundled, hsource, hbuild]

section
variable {name source : String} {p : Bound.Program} (compiled : compilesTo name p source.toList = true)
  (written : hasBytes name p = true) (valid : isValidName name = true) (plain : p.record = none)
include compiled written valid plain

/-- The library is built and loaded, and then it has the code of the unit, and exports all its functions. -/
theorem loads_of_compilesTo (location : String) : ∃ bytes code, build name source = .ok bytes ∧
    ofBytes location bytes = .ok (ofModule location code) ∧ (∀ w, Carries w code p) ∧ exportsOf code = exportsOfUnit p := by
  obtain ⟨tree, htree, h⟩ := (Option.any_eq_true ..).mp compiled
  obtain ⟨clean, himage⟩ := Bool.and_eq_true_iff.mp h
  obtain ⟨image, hprogram, fits⟩ := (Option.any_eq_true ..).mp written
  have fits := of_decide_eq_true fits
  have hu : ScriptUnit.create (.library name) source #[] [] [] = _ :=
    create_of_parse (except_toOption_eq_some.mp htree)
  have himage := except_toOption_eq_some.mp ((beq_iff_eq.mp himage).trans hprogram)
  have emitted : Emitted (.library name) p image := image_emitted (except_toOption_eq_some.mp hprogram)
  obtain ⟨code, hload, loaded⟩ := ofBytes_emitted location hu himage fun im him => by
    cases himage.symm.trans him
    exact fits
  refine ⟨image.bytes, code, ?_, hload, fun w => ?_, ?_⟩
  · have clean := (Bool.not_eq_true' _).mp clean
    simp only [build, hu, valid, ScriptUnit.hasErrors, clean, ScriptUnit.image, himage, Bool.not_true,
      Bool.false_eq_true, if_false]
  · refine .of_loaded emitted loaded (fun wanted c hwas => ?_) (fun record hrecord => ?_)
    · rw [ReferenceSet.resolve?_empty] at hwas
      cases hwas
    · cases plain.symm.trans hrecord
  · have few : code.functions.size ≤ CodeModule.indexLimit := loaded.functions ▸ emitted.few
    have headings := congrArg (List.map fun h : String × Nat => (Routine.unqualified h.1, h.2)) emitted.headings
    rw [List.map_map, List.map_map, ← loaded.functions] at headings
    exact exportsOf_eq few headings

/-- The library at its location. -/
theorem fetched (bundled : bundledSource? name = some source) : ∃ l : Library,
    (∀ earlier, Cache.fetchLibrary Supply.bundled earlier (bundledLocation name) = .ok l) ∧ (∀ w, Carries w l.code p) ∧
    ∀ wanted, l.export? wanted = (exportsOfUnit p).find? (·.name = wanted) := by
  obtain ⟨bytes, code, hbuild, hload, carries, hexports⟩ :=
    loads_of_compilesTo compiled written valid plain (bundledLocation name)
  refine ⟨ofModule (bundledLocation name) code, fun earlier => ?_, carries, fun wanted => ?_⟩
  · rw [fetchLibrary_bundled earlier (bundledAt_of_source bundled) hbuild, hload]
  · rw [export?, ofModule, hexports]

end

/-- The code of a function of a unit. -/
theorem routine {code : CodeModule} {p : Bound.Program} (carries : ∀ w, Carries w code p) (index : Nat) {f : Bound.Func}
    (hf : p.functions[index]? = some f) : ∃ r, code.functions[index]? = some r ∧ Stands.function r p index f := by
  have carries := carries (.ofNames ⟨#[], #[]⟩ fun _ => none)
  have hlt : index < code.functions.size := carries.size ▸ (List.getElem?_eq_some_iff.mp hf).1
  exact ⟨_, Array.getElem?_eq_getElem hlt, carries.function hf (Array.getElem?_eq_getElem hlt)⟩

end Library

/-! ### Calls -/

namespace Machine

/-- A machine is about to call a function with some arguments, and there is room for the call. -/
structure Calling (env : Env) (m : Machine) (c : Callable) (args rest : List Value) : Prop where
  call : ∃ argc : UInt8, m.frame.routine.Holds m.frame.pc (.call argc) ∧ argc.toNat = args.length
  stack : m.stack.items = args.reverse ++ .function c :: rest
  room : m.depth < env.maxDepth

/-- The scope of a function that calls nothing, in any program. -/
def bareScope (env : Env) (home : Home) (p : Bound.Program) : Scope := .callFree (.ofNames env.program fun _ => none) home p

/-- A call of a function that ends with a loop and calls nothing comes to what its body comes to with any number of rounds. -/
theorem Calling.leaves {env : Env} {m : Machine} {home : Home} {index : Nat} {args rest : List Value}
    (calling : Calling env m ⟨home, index⟩ args rest) {code : CodeModule} {p : Bound.Program}
    (hcode : env.program.module? home = some code) (carries : ∀ w, Carries w code p) {f : Bound.Func}
    (hf : p.functions[index]? = some f) (harity : f.arity = args.length) (tidy : Bound.Tidy.block false f.body = true)
    (hopening : opening? p index = none) {first : List Bound.Stmt} {condition : Bound.Expr} {round : Bound.Block} {line : Nat}
    {last : Bound.Tail} (hbody : f.body = .mk (first ++ [.loop condition round line]) last) (rounds : Nat) {v : Value}
    {heap : Heap} (ends : (looped (bareScope env home p) first condition round last rounds
      { m.store with locals := args.toArray ++ Array.replicate (f.locals - args.length) .unit }).restoring m.frame.locals =
        .done v { m.store with heap := heap }) : CallLeaves env m args.length v heap := by
  obtain ⟨⟨argc, hi, hargc⟩, hstack, room⟩ := calling
  obtain ⟨r, hr, stands⟩ := Library.routine carries index hf
  let callee := m.activation.into (m.frame.pc + 1) m.frame.locals ⟨home, index⟩ code r rest.length
  have suits : Suits env (bareScope env home p) callee :=
    (carries _).suits_callFree (a := callee) (World.view_ofNames _ _)
  have body : callee.ComesTo env rest { m.store with locals := entryLocals r args } _ _ :=
    comesTo_looped suits stands tidy hopening hbody rounds
  refine callLeaves_of_body hstack hi hargc hcode hr (stands.arity.trans harity) room body ?_
  rw [entryLocals, stands.locals]
  exact ends

end Machine
end ScriptEngine
