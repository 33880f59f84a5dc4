import ScriptEngine.Proofs.BundledCode
import ScriptEngine.Proofs.SequenceFunctions

/-! The bundled libraries for texts and lists compute what they say (`Library.sequences_compute`). Their sources are compiled to
    the code of the functions in `Library.TextFunctions.functions` and `Library.ListFunctions.functions`. Of these, `reverse`,
    `range` and `contains` call nothing themselves, so there has to be room for one call only. -/

namespace ScriptEngine.Library
open Evaluator Lowering Machine

namespace TextFunctions

/-- The library as a bound unit. -/
def program : Bound.Program := ⟨functions, #[], #[], [], none, none⟩

theorem compilesTo_textSource : compilesTo "text" program textSource.toList = true := compilesTo_lines (by decide +kernel)

/-- A call of `reverse`. -/
theorem reverse_gives {env : Env} {home : Home} {code : CodeModule} (hcode : env.program.module? home = some code)
    (carries : ∀ w, Carries w code program) {m : Machine} {t : String} {rest : List Value} (fits : t.length < 2 ^ 63)
    (calling : Calling env m ⟨home, 2⟩ [.text t] rest) : CallGives env m 1 (.text (String.ofList t.toList.reverse)) := by
  have ends := reverse_evaluates (bareScope env home program) m.store fits
  exact callGives_iff.mpr (calling.leaves hcode carries rfl rfl rfl rfl rfl (t.length + 1) ends)

end TextFunctions

namespace ListFunctions

/-- The library as a bound unit. -/
def program : Bound.Program := ⟨functions, #[], #[], [], none, none⟩

theorem compilesTo_listSource : compilesTo "list" program listSource.toList = true := compilesTo_lines (by decide +kernel)

section
variable {env : Env} {home : Home} {code : CodeModule} (hcode : env.program.module? home = some code)
  (carries : ∀ w, Carries w code program) {m : Machine} {rest : List Value}
include hcode carries

/-- A call of `range`. -/
theorem range_leaves {a b : Int64} (calling : Calling env m ⟨home, 1⟩ [.int a, .int b] rest) :
    ∃ ns : List Int64, ns.map Int64.toInt = Int.range a.toInt b.toInt ∧
      CallLeaves env m 2 (.list m.heap.size) (m.heap.alloc (ns.map .int).toArray).1 := by
  obtain ⟨ns, hns, ends⟩ := range_evaluates (bareScope env home program) m.store a b
  exact ⟨ns, hns, calling.leaves hcode carries rfl rfl rfl rfl rfl _ ends⟩

/-- A call of `contains`. -/
theorem contains_gives {id : Nat} {v : Value} (fits : (m.heap.items id).size < 2 ^ 63)
    (calling : Calling env m ⟨home, 4⟩ [.list id, v] rest) :
    CallGives env m 2 (.bool ((m.heap.items id).toList.any (·.equals m.heap v))) := by
  have ends := contains_evaluates (bareScope env home program) m.store id v fits
  exact callGives_iff.mpr (calling.leaves hcode carries rfl rfl rfl rfl rfl _ ends)

end
end ListFunctions

/-- The bundled libraries for texts and lists are built and loaded, and their functions compute what they say, called from any
    machine with room for one more call. `reverse` turns a text around, and that around again is the text itself. `range`
    always ends, without a fault, with a new list of the integers from the first argument up to the second one.
    `contains` says whether an element of a list is equal to a value, and changes nothing. Two of them ask for a length, which is
    an integer of 64 bits: no text and no list in memory is longer. -/
theorem sequences_compute : ∃ (texts lists : Library) (reverse range contains : Export),
    (∀ earlier, Cache.fetchLibrary Supply.bundled earlier (bundledLocation "text") = .ok texts) ∧
    (∀ earlier, Cache.fetchLibrary Supply.bundled earlier (bundledLocation "list") = .ok lists) ∧
    texts.export? "reverse" = some reverse ∧ lists.export? "range" = some range ∧
    lists.export? "contains" = some contains ∧
    ∀ (env : Env) (i : Nat),
      (env.program.references[i]? = some texts → ∀ (m : Machine) (t : String) (rest : List Value), t.length < 2 ^ 63 →
        Calling env m ⟨.library i, reverse.index⟩ [.text t] rest →
        ∃ u : String, u.toList = t.toList.reverse ∧ CallGives env m 1 (.text u) ∧
          ∀ (m' : Machine) (rest' : List Value), Calling env m' ⟨.library i, reverse.index⟩ [.text u] rest' →
            CallGives env m' 1 (.text t)) ∧
      (env.program.references[i]? = some lists → ∀ (m : Machine) (rest : List Value),
        (∀ a b : Int64, Calling env m ⟨.library i, range.index⟩ [.int a, .int b] rest →
          ∃ ns : List Int64, ns.map Int64.toInt = Int.range a.toInt b.toInt ∧
            CallLeaves env m 2 (.list m.heap.size) (m.heap.alloc (ns.map .int).toArray).1 ∧ ∀ e, ¬ CallFails env m e) ∧
        (∀ (id : Nat) (v : Value), (m.heap.items id).size < 2 ^ 63 →
          Calling env m ⟨.library i, contains.index⟩ [.list id, v] rest →
          ∃ found : Bool, CallGives env m 2 (.bool found) ∧
            (found = true ↔ ∃ x ∈ m.heap.items id, x.equals m.heap v = true))) := by
  obtain ⟨texts, htexts, textCode, textExports⟩ :=
    fetched TextFunctions.compilesTo_textSource (by decide +kernel) (by decide) rfl rfl
  obtain ⟨lists, hlists, listCode, listExports⟩ :=
    fetched ListFunctions.compilesTo_listSource (by decide +kernel) (by decide) rfl rfl
  refine ⟨texts, lists, ⟨"reverse", 1, 2⟩, ⟨"range", 2, 1⟩, ⟨"contains", 2, 4⟩, htexts, hlists,
    (textExports _).trans (by decide), (listExports _).trans (by decide), (listExports _).trans (by decide),
    fun env i => ⟨fun hl m t rest fits calling => ?_, fun hl m rest => ⟨fun a b calling => ?_, fun id v fits calling => ?_⟩⟩⟩
  · have hcode : env.program.module? (.library i) = some texts.code := by rw [Program.module?, hl]; rfl
    refine ⟨_, String.toList_ofList, TextFunctions.reverse_gives hcode textCode fits calling, fun m' rest' calling' => ?_⟩
    have fits' : (String.ofList t.toList.reverse).length < 2 ^ 63 := by
      rwa [String.length_ofList, List.length_reverse, String.length_toList]
    have gives := TextFunctions.reverse_gives hcode textCode fits' calling'
    rwa [String.toList_ofList, List.reverse_reverse, String.ofList_toList] at gives
  · have hcode : env.program.module? (.library i) = some lists.code := by rw [Program.module?, hl]; rfl
    obtain ⟨ns, hns, leaves⟩ := ListFunctions.range_leaves hcode listCode calling
    exact ⟨ns, hns, leaves, fun e => leaves.not_fails⟩
  · have hcode : env.program.module? (.library i) = some lists.code := by rw [Program.module?, hl]; rfl
    refine ⟨_, ListFunctions.contains_gives hcode listCode fits calling, ?_⟩
    simp only [List.any_eq_true, Array.mem_toList_iff]

/-- A text with letters of two bytes, a range at the upper bound of 64 bits, and a list with a number that is looked for, where
    there is room for just one call. -/
theorem sequences_compute_small : ∃ (texts lists : Library) (reverse range contains : Export),
    (∀ earlier, Cache.fetchLibrary Supply.bundled earlier (bundledLocation "text") = .ok texts) ∧
    (∀ earlier, Cache.fetchLibrary Supply.bundled earlier (bundledLocation "list") = .ok lists) ∧
    texts.export? "reverse" = some reverse ∧ lists.export? "range" = some range ∧
    lists.export? "contains" = some contains ∧
    CallGives ⟨⟨#[texts, lists], #[]⟩, 2⟩ (alone (.call 1) [.text "nés", .function ⟨.library 0, reverse.index⟩]) 1
      (.text "sén") ∧
    CallGives ⟨⟨#[texts, lists], #[]⟩, 2⟩ (alone (.call 1) [.text "sén", .function ⟨.library 0, reverse.index⟩]) 1
      (.text "nés") ∧
    CallLeaves ⟨⟨#[texts, lists], #[]⟩, 2⟩
      (alone (.call 2) [.int 9223372036854775807, .int 9223372036854775805, .function ⟨.library 1, range.index⟩]) 2
      (.list 0) ⟨#[#[.int 9223372036854775805, .int 9223372036854775806]]⟩ ∧
    CallGives ⟨⟨#[texts, lists], #[]⟩, 2⟩
      { alone (.call 2) [.int 7, .list 0, .function ⟨.library 1, contains.index⟩] with heap := ⟨#[#[.unit, .int 7]]⟩ } 2
      (.bool true) := by
  obtain ⟨texts, lists, reverse, range, contains, htexts, hlists, hreverse, hrange, hcontains, computes⟩ := sequences_compute
  have onTexts := (computes ⟨⟨#[texts, lists], #[]⟩, 2⟩ 0).1 rfl
  have onLists := (computes ⟨⟨#[texts, lists], #[]⟩, 2⟩ 1).2 rfl
  refine ⟨texts, lists, reverse, range, contains, htexts, hlists, hreverse, hrange, hcontains, ?_, ?_, ?_, ?_⟩
  · obtain ⟨u, hu, gives, -⟩ := onTexts (alone (.call 1) [.text "nés", .function ⟨.library 0, reverse.index⟩]) "nés" []
      (by decide) ⟨⟨1, rfl, rfl⟩, rfl, Nat.lt_succ_self 1⟩
    obtain rfl : u = "sén" := String.toList_inj.mp (hu.trans (by decide))
    exact gives
  · obtain ⟨u, hu, -, twice⟩ := onTexts (alone (.call 1) [.text "nés", .function ⟨.library 0, reverse.index⟩]) "nés" []
      (by decide) ⟨⟨1, rfl, rfl⟩, rfl, Nat.lt_succ_self 1⟩
    obtain rfl : u = "sén" := String.toList_inj.mp (hu.trans (by decide))
    exact twice _ [] ⟨⟨1, rfl, rfl⟩, rfl, Nat.lt_succ_self 1⟩
  · obtain ⟨ns, hns, leaves, -⟩ := (onLists
      (alone (.call 2) [.int 9223372036854775807, .int 9223372036854775805, .function ⟨.library 1, range.index⟩]) []).1
      9223372036854775805 9223372036854775807 ⟨⟨2, rfl, rfl⟩, rfl, Nat.lt_succ_self 1⟩
    obtain rfl : ns = [9223372036854775805, 9223372036854775806] :=
      List.map_injective_iff.mpr (fun _ _ => Int64.toInt_inj.mp) (hns.trans (by decide))
    exact leaves
  · obtain ⟨found, gives, hfound⟩ := (onLists
      { alone (.call 2) [.int 7, .list 0, .function ⟨.library 1, contains.index⟩] with heap := ⟨#[#[.unit, .int 7]]⟩ } []).2
      0 (.int 7) (show 2 < 2 ^ 63 by decide) ⟨⟨2, rfl, rfl⟩, rfl, Nat.lt_succ_self 1⟩
    obtain rfl : found = true := hfound.mpr ⟨.int 7, Array.mem_of_getElem? (i := 1) rfl, Value.equals_eq (.ints 7 7)⟩
    exact gives

end ScriptEngine.Library
