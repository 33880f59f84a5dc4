import ScriptEngine.Proofs.DataReading
import ScriptEngine.Proofs.SingleNames

/-! The script that the text of plain data is compiled to. What was read is bound to literals and lists of these
    (`Datum.bind_bare`), and there is code for it if there is room for its integers among the constants
    (`Datum.emits`). So the text is accepted as a submission (`Chain.compile_datum`), unless the least integer is in it
    (`Chain.compile_leasts`). -/

namespace ScriptEngine
open Lowering

/-! ### Binding -/

namespace Tree.Expr

theorem of_bare_literal {e : Expr} {value : Literal} {span : Span} (h : e.bare = .literal value span) :
    ∃ span', e = .literal value span' := by
  cases e with
  | literal value' span' =>
    cases h
    exact ⟨span', rfl⟩
  | _ => cases h

theorem of_bare_list {e : Expr} {items : List Expr} {span : Span} (h : e.bare = .list items span) :
    ∃ items' span', e = .list items' span' ∧ bareAll items' = items := by
  cases e with
  | list items' span' =>
    cases h
    exact ⟨items', span', rfl, rfl⟩
  | _ => cases h

theorem of_bareAll_cons {es : List Expr} {e : Expr} {rest : List Expr} (h : bareAll es = e :: rest) :
    ∃ e' rest', es = e' :: rest' ∧ e'.bare = e ∧ bareAll rest' = rest := by
  cases es with
  | nil => cases h
  | cons e' rest' =>
    cases h
    exact ⟨e', rest', rfl, rfl, rfl⟩

theorem of_bareAll_nil {es : List Expr} (h : bareAll es = []) : es = [] := by
  cases es with
  | nil => rfl
  | cons => cases h

end Tree.Expr

namespace Datum

mutual

/-- The expression that what was read is bound to. -/
def bound : Datum → Bound.Expr
  | bool b => .bool b
  | int n => .int n
  | list ds => .list (boundEach ds)

def boundEach : List Datum → List Bound.Expr
  | [] => []
  | d :: ds => bound d :: boundEach ds

end

section
open ScriptEngine.Tree Binder
variable {ctx : Binder.Context} {inLoop : Bool} {s : Binder.State}

mutual

/-- Nothing is declared, looked up or reported. -/
theorem bind_bare : ∀ {d : Datum} {e : Tree.Expr}, e.bare = d.tree → (Binder.expr ctx inLoop e).run s = (d.bound, s)
  | .bool _, _, h | .int _, _, h => by
    obtain ⟨span, rfl⟩ := Expr.of_bare_literal h
    rfl
  | .list ds, e, h => by
    obtain ⟨items, span, rfl, hitems⟩ := Expr.of_bare_list h
    rw [Binder.expr, StateT.run_bind, bind_bareAll hitems]
    rfl

theorem bind_bareAll : ∀ {ds : List Datum} {es : List Tree.Expr}, Expr.bareAll es = treeEach ds →
    (Binder.exprs ctx inLoop es).run s = (boundEach ds, s)
  | [], _, h => by
    obtain rfl := Expr.of_bareAll_nil h
    rfl
  | d :: ds, _, h => by
    obtain ⟨e, es, rfl, he, hes⟩ := Expr.of_bareAll_cons h
    rw [Binder.exprs, StateT.run_bind, bind_bare he]
    show ((Binder.exprs ctx inLoop es >>= fun rest => pure (d.bound :: rest) : Binder.Bind _)).run s = _
    rw [StateT.run_bind, bind_bareAll hes]
    rfl

end

end

/-! ### Code -/

mutual

theorem size_bound : ∀ d : Datum, Size.expr d.bound = d.elements + 1
  | .bool _ | .int _ => rfl
  | .list ds => congrArg (· + 1) (sizes_boundEach ds)

theorem sizes_boundEach : ∀ ds : List Datum, Size.exprs (boundEach ds) = elementsEach ds
  | [] => rfl
  | d :: ds => by
    rw [boundEach, Size.exprs, size_bound d, sizes_boundEach ds, elementsEach]
    omega

end

mutual

theorem tidy_bound {pending : Bool} : ∀ d : Datum, Bound.Tidy.expr pending d.bound = true
  | .bool _ | .int _ => rfl
  | .list ds => tidies_boundEach ds

theorem tidies_boundEach {pending : Bool} : ∀ ds : List Datum, Bound.Tidy.exprs pending (boundEach ds) = true
  | [] => rfl
  | d :: ds => Bool.and_eq_true_iff.mpr ⟨tidy_bound d, tidies_boundEach ds⟩

end

theorem length_boundEach_le : ∀ ds : List Datum, (boundEach ds).length ≤ elementsEach ds
  | [] => Nat.le_refl 0
  | d :: ds => by
    have := length_boundEach_le ds
    rw [boundEach, List.length_cons, elementsEach]
    omega

end Datum

/-! ### Emission -/

namespace Lowering

/-- At most so many constants were added, all of which fit into an image, and no lines. -/
structure Tables.Grows (t : Tables) (n : Nat) (t' : Tables) : Prop where
  few : t'.constants.size ≤ t.constants.size + n
  fit : (∀ c ∈ t.constants, Image.ConstantFits c) → ∀ c ∈ t'.constants, Image.ConstantFits c
  lines : t'.lines = t.lines

/-- Code is emitted, and the tables grow by at most so many constants. -/
def EmitsWithin {α : Type} (x : Emit α) (t : Tables) (n : Nat) : Prop := ∃ a t', x.run t = .ok (a, t') ∧ t.Grows n t'

section
variable {α β : Type} {x : Emit α} {f : α → Emit β} {t t' t'' : Tables} {ctx : Context} {m n : Nat}

theorem Tables.Grows.trans (first : t.Grows m t') (second : t'.Grows n t'') : t.Grows (m + n) t'' where
  few := by
    have := first.few
    have := second.few
    omega
  fit h := second.fit (first.fit h)
  lines := second.lines.trans first.lines

theorem emitsWithin_pure {a : α} : EmitsWithin (pure a) t n := ⟨a, t, rfl, Nat.le_add_right _ _, id, rfl⟩

theorem emitsWithin_bind (hx : EmitsWithin x t m) (hf : ∀ a t', t.Grows m t' → EmitsWithin (f a) t' n) :
    EmitsWithin (x >>= f) t (m + n) := by
  obtain ⟨a, t', hrun, grows⟩ := hx
  obtain ⟨b, t'', hrun', grows'⟩ := hf a t' grows
  exact ⟨b, t'', run_bind_eq_ok.mpr ⟨a, t', hrun, hrun'⟩, grows.trans grows'⟩

theorem emitsWithin_get {f : Tables → Emit β} (h : EmitsWithin (f t) t n) : EmitsWithin (get >>= f) t n := h

/-- There is room for an integer among the constants. -/
theorem constant_emits (value : Int64) (room : t.constants.size < constantLimit) : EmitsWithin (constant ctx (.int value)) t 1 := by
  have added {index : Nat} {pool : Array Constant} (hindex : index < constantLimit)
      (grows : t.Grows 1 { t with constants := pool }) : EmitsWithin (if index < constantLimit then do
        modify fun t => { t with constants := pool }
        return [.const (UInt16.ofNat index)]
      else throw (.tooManyConstants ctx.function) : Emit (List Instr)) t 1 := by
    rw [if_pos hindex]
    exact ⟨_, _, rfl, grows⟩
  unfold constant
  refine emitsWithin_get ?_
  cases hfind : t.constants.findIdx? (· = .int value) with
  | some i =>
    obtain ⟨hlt, -, -⟩ := Array.findIdx?_eq_some_iff_getElem.mp hfind
    simp only [hfind]
    exact added (Nat.lt_trans hlt room) ⟨Nat.le_succ _, id, rfl⟩
  | none =>
    simp only [hfind]
    refine added room ⟨Nat.le_of_eq (Array.size_push _), fun fit c hc => ?_, rfl⟩
    rcases Array.mem_push.mp hc with hc | rfl
    · exact fit c hc
    · trivial

end
end Lowering

namespace Datum

mutual

/-- Code for a datum is emitted if there is room for its integers among the constants. -/
theorem emits (ctx : Lowering.Context) (pc : Nat) : ∀ {d : Datum} {t : Tables}, t.constants.size + d.elements < constantLimit →
    EmitsWithin (Lowering.expr ctx pc d.bound) t (d.elements + 1)
  | .bool _, _, _ => emitsWithin_pure
  | .int n, _, room => by
    rw [elements, Nat.zero_add]
    exact constant_emits n room
  | .list ds, t, room => by
    have few : (boundEach ds).length ≤ wordLimit := by
      have := length_boundEach_le ds
      rw [elements] at room
      simp only [constantLimit, wordLimit] at *
      omega
    rw [bound, Lowering.expr, elementCount, if_pos few, pure_bind, elements]
    exact emitsWithin_bind (emitsEach ctx pc room) fun _ _ _ => emitsWithin_pure

theorem emitsEach (ctx : Lowering.Context) (pc : Nat) : ∀ {ds : List Datum} {t : Tables},
    t.constants.size + elementsEach ds < constantLimit →
    EmitsWithin (Lowering.exprs ctx pc (boundEach ds)) t (elementsEach ds)
  | [], _, _ => emitsWithin_pure
  | d :: ds, t, room => by
    have hsum : elementsEach (d :: ds) = d.elements + 1 + (elementsEach ds + 0) := by
      rw [elementsEach]
      omega
    rw [hsum] at room ⊢
    rw [boundEach, Lowering.exprs]
    refine emitsWithin_bind (emits ctx pc (by omega)) fun _ t' grows => ?_
    have := grows.few
    exact emitsWithin_bind (emitsEach ctx _ (by omega)) fun _ _ _ => emitsWithin_pure

end

end Datum

namespace Lowering

theorem image_datum (n line start : Nat) {d : Datum} (room : d.elements < constantLimit) (few : n + 1 < 4294967296) :
    ∃ image, Lowering.image (.script (n + 1)) (.showing (.script (n + 1)) d.bound line start) = .ok image ∧ image.Fits := by
  let P (code : List Instr) (constants : Array Constant) : Prop := code.length = d.elements + 1 ∧
    constants.size ≤ d.elements + 1 ∧ ∀ c ∈ constants, Image.ConstantFits c
  have hemits (ctx : Context) (t : Tables) (hempty : t.constants = #[]) : ∃ code t',
      (expr ctx 1 d.bound).run t = .ok (code, t') ∧ t'.lines = t.lines ∧ P code t'.constants := by
    have hsize : t.constants.size = 0 := by rw [hempty, Array.size_empty]
    obtain ⟨code, t', hcode, grows⟩ := d.emits ctx 1 (t := t) (by rwa [hsize, Nat.zero_add])
    refine ⟨code, t', hcode, grows.lines, (expr_run _ hcode).length.trans d.size_bound, ?_, grows.fit ?_⟩
    · rw [← Nat.zero_add (d.elements + 1), ← hsize]
      exact grows.few
    · rw [hempty]
      exact fun c hc => absurd hc (Array.not_mem_empty c)
  obtain ⟨code, t, hcode, ⟨hlength, hconstants, fit⟩, hlines⟩ := routineCode_showing n line start hemits
  have small {k : Nat} (hk : k ≤ d.elements + 3) : Image.LengthFits k := by
    rw [constantLimit] at room
    rw [Image.LengthFits]
    omega
  refine ⟨_, image_showing hcode, Image.fits_lone few ?_⟩
  refine ⟨UnitKind.main_fits few, ⟨small ?_, fun c hc => fit c ?_⟩, small ?_, small ?_⟩
  · rw [Array.length_toList]
    exact Nat.le_add_right_of_le (k := 2) hconstants
  · exact Array.mem_toList_iff.mp hc
  · rw [List.size_toArray, List.length_cons, List.length_append, hlength]
    exact Nat.le_refl _
  · exact Nat.le_trans hlines (Nat.le_add_left_of_le (by decide))

end Lowering

/-! ### Submissions -/

namespace Chain

variable {c : Chain} {d : Datum} (refs : ReferenceSet)

/-- The text of a datum without the least integer is accepted. -/
theorem compile_datum (hearlier : ∀ d ∈ c.declared, d.record < c.index) (few : c.index + 1 < 4294967296)
    (hleasts : d.leasts = 0) (hlevels : d.levels + 2 ≤ maxNesting) (room : d.elements < constantLimit) :
    ∃ compiled line start, c.compile d.text refs = .ok compiled ∧ compiled.diagnostics = [] ∧ compiled.unit.Encodes ∧
      compiled.unit.program = .showing (.script (c.index + 1)) d.bound line start := by
  obtain ⟨e, span, hparse, he⟩ := d.parse hleasts hlevels
  exact compile_showing few hearlier hparse (Datum.bind_bare he) fun line start => image_datum c.index line start room few

/-- The text of a datum with the least integer is rejected, with one message for each time that it occurs. -/
theorem compile_leasts (c : Chain) (hleasts : d.leasts ≠ 0) : ∃ diagnostics,
    c.compile d.text refs = .error (.rejected diagnostics) ∧
    diagnostics.map Diagnostic.notice = List.replicate d.leasts (.badSyntax (.lexical .bigInteger)) := by
  obtain ⟨errors, hparse, hcauses⟩ := d.parse_error hleasts
  refine ⟨errors.map (Diagnostic.ofSyntaxError d.text.toList), ?_, ?_⟩
  · rw [compile, ScriptUnit.create]
    dsimp only
    rw [hparse]
  · have hnotice : Diagnostic.notice ∘ Diagnostic.ofSyntaxError d.text.toList = Notice.badSyntax ∘ SyntaxError.cause := rfl
    rw [List.map_map, hnotice, ← List.map_map, hcauses, List.map_replicate]

end Chain
end ScriptEngine
