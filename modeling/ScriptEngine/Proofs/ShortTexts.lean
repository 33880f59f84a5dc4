import ScriptEngine.Proofs.CodeVolume
import ScriptEngine.Proofs.DeclaredNames
import ScriptEngine.Proofs.LinkedCallees
import ScriptEngine.Proofs.SessionOrder
import ScriptEngine.Proofs.SourceNames
import ScriptEngine.Proofs.ValidatedCode

/-! Short texts can always be written. An image gives every length four bytes, and what a text of at most 2^28 bytes is
    compiled to has no length that needs more (`ScriptUnit.encodes_of_short`). So what is proved of units whose images can
    be written holds of all sessions and libraries with such texts (`Session.Run.submit_short`). -/

namespace ScriptEngine
open ScriptEngine.Image Lowering

/-! ### Names -/

/-- A name is not longer than the text that it stands in. -/
theorem Tree.Fragment.parse_nameSize {source : List Char} {f : Fragment} (h : parse source = .ok f) {st : Stmt}
    (hst : st ∈ f.stmts) {name : Ident} (hname : st.target? = some name) :
    name.name.utf8ByteSize ≤ 9 * byteLength source := by
  unfold parse at h
  split at h
  · rename_i tokens htokens
    have named := (Fragment.ofTokens_reads (namedTargets fun t => t.lexeme.weight ≤ weigh tokens)
      (fun t ht => weight_le_weigh ht) h).1 st hst name hname
    obtain ⟨t, ht, hword⟩ := named
    have total := Lexer.tokenize_weigh htokens
    rw [hword, Lexeme.weight] at ht
    omega
  · cases h

theorem byteLength_reverse (cs : List Char) : byteLength cs.reverse = byteLength cs := by
  induction cs with
  | nil => rfl
  | cons c cs ih =>
    rw [List.reverse_cons, byteLength_append, ih, byteLength, byteLength, byteLength]
    omega

/-- The part of a name after its last point is not longer than the name. -/
theorem Routine.size_unqualified (name : String) : (unqualified name).utf8ByteSize ≤ name.utf8ByteSize := by
  have parts := congrArg byteLength (List.takeWhile_append_dropWhile (p := (· ≠ '.')) (l := name.toList.reverse))
  rw [byteLength_append, byteLength_reverse, byteLength_toList] at parts
  rw [unqualified, ← byteLength_eq, byteLength_reverse]
  omega

/-- A library that was read from bytes has names that can be written. -/
theorem Library.Validated.exports_fit {l : Library} (h : l.Validated) {name : String} {e : Export}
    (he : l.export? name = some e) : TextFits l.name ∧ TextFits name := by
  obtain ⟨location, bytes, hbytes⟩ := h
  obtain ⟨hexports, image, hdecode, -, hload⟩ := ofBytes_eq_ok hbytes
  obtain ⟨fits, -⟩ := decode_eq_ok_iff.mp hdecode
  have loaded := CodeModule.load_loaded hload
  refine ⟨?_, ?_⟩
  · rw [Library.name, loaded.name]
    exact fits.name
  · obtain ⟨r, hr, rfl, -⟩ := export?_routine hexports he
    rw [loaded.functions] at hr
    have hname := (fits.functions.2 r (Array.mem_toList_iff.mpr (Array.mem_of_getElem? hr))).name
    exact Nat.lt_of_le_of_lt (Routine.size_unqualified r.name) hname

/-- What can be resolved has names that can be written. -/
theorem ReferenceSet.resolve?_fits {refs : ReferenceSet} (hrefs : ∀ l ∈ refs, l.Validated) {wanted : ImportRef}
    (h : (refs.resolve? wanted).isSome) : ImportFits wanted := by
  obtain ⟨c, h⟩ := Option.isSome_iff_exists.mp h
  obtain ⟨i, hi, h⟩ := Option.bind_eq_some_iff.mp h
  obtain ⟨l, hl, h⟩ := Option.bind_eq_some_iff.mp h
  obtain ⟨e, he, -⟩ := Option.bind_eq_some_iff.mp h
  obtain ⟨l', hl', -, hname⟩ := position?_library hi
  cases hl.symm.trans hl'
  rw [ImportFits, ← hname]
  exact (hrefs l (Array.mem_of_getElem? hl)).exports_fit he

/-! ### Images -/

namespace Lowering

/-- The routine of a small function can be written. -/
theorem routine_fits {p : Bound.Program} {index : Nat} {f : Bound.Func} {r : Routine} (h : routine p index f = .ok r)
    (name : TextFits f.name) (slots : p.functionSlots.length ≤ EntryTable.functions.limit)
    (cost : Cost.block f.body ≤ 3 * 2 ^ 30) : RoutineFits r := by
  have stands := routine_stands h
  obtain ⟨lines, constants, texts⟩ := routine_fill h
  have hlimit : EntryTable.functions.limit = 65536 := rfl
  have hcode : r.code.size ≤ p.functionSlots.length * 2 + 1 + Size.block f.body + 1 := by
    have size := stands.size
    unfold Size.opening at size
    split at size
    all_goals omega
  unfold Cost.block at cost
  refine ⟨stands.name ▸ name, ⟨?_, fun c hc => ?_⟩, ?_, ?_⟩
  · rw [LengthFits, Array.length_toList]
    omega
  · cases c with
    | text s =>
      have hs := texts s (Array.mem_toList_iff.mp hc)
      show s.utf8ByteSize < 4294967296
      omega
    | int | float => trivial
  · rw [LengthFits]
    omega
  · rw [LengthFits]
    omega

/-- The image of a unit can be written if its names can be and its functions are small. -/
theorem image_fits {unit : UnitKind} {p : Bound.Program} {im : Image} (h : image unit p = .ok im)
    (name : TextFits unit.qualifier) (slots : ∀ s ∈ p.slots, TextFits s) (imports : ∀ ref ∈ p.imports, ImportFits ref)
    (functions : ∀ f ∈ p.functions, TextFits f.name ∧ Cost.block f.body ≤ 3 * 2 ^ 30)
    (stored : p.functionSlots.length ≤ p.functions.length) (entry : ∀ e ∈ unit.entryName?, TextFits e) : im.Fits := by
  have emitted := image_emitted h
  have few {n : Nat} (hn : n ≤ 65536) : LengthFits n := Nat.lt_of_le_of_lt hn (by decide)
  have fewFunctions : im.functions.size ≤ 65536 := emitted.few
  refine ⟨emitted.name ▸ name, ⟨few emitted.fewSlots, fun s hs => ?_⟩, ⟨?_, fun ref href => ?_⟩,
    ⟨few fewFunctions, fun r hr => ?_⟩, ?_⟩
  · exact slots s (emitted.slots ▸ Array.mem_toList_iff.mp hs)
  · obtain ⟨_, -, h⟩ := except_bind_eq_ok.mp h
    obtain ⟨_, fewImports, h⟩ := except_bind_eq_ok.mp h
    rw [Array.length_toList, emitted.imports]
    exact few (checkEntries_eq_ok fewImports)
  · exact imports ref (emitted.imports ▸ Array.mem_toList_iff.mp href)
  · obtain ⟨index, hlt, hr⟩ := List.mem_iff_getElem.mp hr
    have hr : im.functions[index]? = some r := by rw [← Array.getElem?_toList, List.getElem?_eq_getElem hlt, hr]
    have hindex : index < p.functions.length := by rwa [← emitted.stands.size, ← Array.length_toList]
    have hf := List.getElem?_eq_getElem hindex
    obtain ⟨hname, cost⟩ := functions _ (List.mem_of_getElem? hf)
    exact routine_fits (image_routine h hf hr) hname (Nat.le_trans stored (emitted.stands.size ▸ fewFunctions)) cost
  · obtain ⟨_, -, h⟩ := except_bind_eq_ok.mp h
    obtain ⟨_, -, h⟩ := except_bind_eq_ok.mp h
    obtain ⟨_, -, h⟩ := except_bind_eq_ok.mp h
    obtain ⟨rs, -, h⟩ := except_bind_eq_ok.mp h
    cases h
    exact entry

end Lowering

/-! ### Units -/

namespace ScriptUnit

variable {kind : UnitKind} {source : String} {refs : ReferenceSet} {imports : List String} {earlier : List Declared}
  {u : ScriptUnit}

/-- What a short text is compiled to can be written, in a unit with a short name. -/
theorem encodes_of_short (h : create kind source refs imports earlier = .ok u) (hrefs : ∀ l ∈ refs, l.Validated)
    (named : kind.qualifier.utf8ByteSize ≤ 2 ^ 28) (short : source.utf8ByteSize ≤ 2 ^ 28) : u.Encodes := by
  intro image himage
  obtain ⟨hkind, tree, htree, hbound⟩ := create_eq_ok h
  let ctx : Binder.Context := ⟨source.toList, kind, earlier, refs, imports⟩
  have program : u.program = (Binder.bind ctx tree).program := congrArg Binder.Output.program hbound
  have coherent := Binder.bind_coherent ctx tree
  have bounded := Binder.bind_bounded ctx tree
  have hlength := byteLength_toList source
  have volume := Tree.Fragment.parse_volume htree
  have target {st : Tree.Stmt} (hst : st ∈ tree.stmts) {name : Ident} (hname : st.target? = some name) :
      name.name.utf8ByteSize ≤ 9 * 2 ^ 28 := by
    have := Tree.Fragment.parse_nameSize htree hst hname
    omega
  have qualified {name : String} (hname : name.utf8ByteSize ≤ 9 * 2 ^ 28) : TextFits (kind.qualified name) := by
    have hpoint : ".".utf8ByteSize = 1 := rfl
    rw [TextFits, LengthFits, UnitKind.qualified, String.utf8ByteSize_append, String.utf8ByteSize_append, hpoint]
    omega
  have main : TextFits (kind.qualified "<Main>") := qualified (by decide)
  rw [ScriptUnit.image, hkind, program] at himage
  refine image_fits himage (Nat.lt_of_le_of_lt named (by decide)) (fun s hs => ?_) (fun ref href => ?_) (fun f hf => ?_)
    bounded.slots fun e he => ?_
  · cases hscript : kind.isScript with
    | false =>
      have hslots : (Binder.bind ctx tree).program.slots = #[] := if_neg (by rw [hscript]; decide)
      rw [hslots] at hs
      exact absurd hs (Array.not_mem_empty s)
    | true =>
      rw [coherent.slots hscript, Symbols.names] at hs
      obtain ⟨symbol, hsymbol, rfl⟩ := Array.mem_map.mp hs
      have hsize := Binder.bind_names ctx (P := fun name => name.utf8ByteSize ≤ 9 * 2 ^ 28)
        (fun st hst name hname => target hst hname) symbol hsymbol
      exact Nat.lt_of_le_of_lt hsize (by decide)
  · exact ReferenceSet.resolve?_fits hrefs (coherent.imports ref href)
  · refine ⟨?_, Nat.le_trans (bounded.cost f hf) (by omega)⟩
    obtain hmain | ⟨name, params, body, span, hst, hname⟩ := bounded.named f hf
    · rw [hmain]
      exact main
    · rw [hname]
      exact qualified (target hst rfl)
  · unfold UnitKind.entryName? at he
    split at he
    · rw [← Option.some.inj he]
      exact main
    · cases he

end ScriptUnit

/-- What a short submission is compiled to can be written. -/
theorem Chain.compile_encodes {c : Chain} {source : String} {refs : ReferenceSet} {compiled : Compiled}
    (h : c.compile source refs = .ok compiled) (hrefs : ∀ l ∈ refs, l.Validated) (few : c.index + 1 < 4294967296)
    (short : source.utf8ByteSize ≤ 2 ^ 28) : compiled.unit.Encodes :=
  ScriptUnit.encodes_of_short (compile_eq_ok h).1 hrefs (Nat.le_trans (UnitKind.size_script few) (by decide)) short

/-- What is built from a short text can be loaded as the library that it was built from. -/
theorem Library.builtFrom_of_short {good : ScriptUnit → Prop} {name source : String} {bytes : List UInt8}
    (h : build name source = .ok bytes) (named : name.utf8ByteSize ≤ 2 ^ 28) (short : source.utf8ByteSize ≤ 2 ^ 28)
    (hgood : ∀ u, ScriptUnit.create (.library name) source #[] [] [] = .ok u → good u) : BuiltFrom good bytes :=
  ⟨name, source, h, fun u hu => ⟨ScriptUnit.encodes_of_short hu (fun l hl => absurd hl (Array.not_mem_empty l)) named short,
    hgood u hu⟩⟩

/-! ### Sessions -/

namespace Cache

theorem ensure_validated {supply : Supply} {cache : Cache} (cancelled : Bool) (h : cache.Each Library.Validated) :
    (cache.ensure supply cancelled).2.Each Library.Validated := by
  refine (ensure_each cancelled (fun {_ location _} hfetch => ?_) h).1
  obtain ⟨bytes, -, hl⟩ := fetchLibrary_eq_ok hfetch
  exact ⟨location, bytes, hl⟩

end Cache

namespace Session

variable {good : ScriptUnit → Prop} {options : SessionOptions} {reports : List Report} {s s' : Session} {cache cache' : Cache}
  {interference : Interference} {fuel : Nat} {supply : Supply} {source : String} {report : Report}

/-- A submission leaves the cache as it loads it. -/
theorem submitUnder_cache (h : s.submitUnder interference fuel supply cache source = some (report, s', cache')) :
    cache' = (cache.ensure supply interference.cancelLoading).2 := by
  cases submitUnder_submits h with
  | unloaded _ loaded | rejected loaded | unemitted loaded | executed loaded | faulted loaded => rw [loaded]

/-- The libraries of a session were read from bytes. -/
theorem Run.libraries (run : Run good options reports s cache) : cache.Each Library.Validated := by
  induction run with
  | start => exact fun refs h => nomatch h
  | submit _ _ _ submitted ih => exact submitUnder_cache submitted ▸ Cache.ensure_validated _ ih
  | reset _ ih | cancel _ ih => exact ih
  | share _ _ ih => exact Cache.ensure_validated _ ih

/-- Submitting a short text continues a run. -/
theorem Run.submit_short (run : Run good options reports s cache) (builds : supply.Builds good)
    (few : s.chain.index + 1 < 4294967296) (short : source.utf8ByteSize ≤ 2 ^ 28)
    (hgood : ∀ refs c, s.chain.compile source refs = .ok c → good c.unit)
    (submitted : s.submitUnder interference fuel supply cache source = some (report, s', cache')) :
    Run good options (reports ++ [report]) s' cache' := by
  refine .submit run builds (fun refs c hrefs hc => ⟨Chain.compile_encodes hc ?_ few short, hgood refs c hc⟩) submitted
  have libraries : cache'.Each Library.Validated :=
    submitUnder_cache submitted ▸ Cache.ensure_validated _ run.libraries
  exact libraries refs hrefs

end Session
end ScriptEngine
