import Mathlib.Data.List.TakeWhile
import ScriptEngine.Proofs.SessionRuns

/-! The lines that faults name. The code of a statement, of the tail of a block and of a whole function takes up an extent of
    a routine (`Extents`), and an instruction belongs to the innermost extent around it. The line table knows where
    extents begin, but not where they end. So an instruction has the line of the extent that began last (`routine_tells`),
    and that is the one it belongs to, or one nested in that whose code is over (`Laid.latest_nested`). -/

namespace ScriptEngine
open ScriptEngine.Bound

namespace Lowering

/-! ### Extents -/

/-- What the code of a statement, of the tail of a block or of a whole function takes up, and the line that it has. -/
structure Extent where
  start : Nat
  stop : Nat
  line : Nat
  deriving Repr, DecidableEq

/-- An address is in an extent. -/
def Extent.Around (x : Extent) (pc : Nat) : Prop := x.start ≤ pc ∧ pc < x.stop

instance (x : Extent) (pc : Nat) : Decidable (x.Around pc) := inferInstanceAs (Decidable (_ ∧ _))

namespace Extents

mutual

/-- The extents in an expression that stands at `pc`, in the order of their code, an outer one before those in it. -/
def expr (pc : Nat) : Expr → List Extent
  | .unit | .int _ | .float _ | .bool _ | .text _ | .load _ | .function _ | .imported _ => []
  | .both left right => expr pc left ++ expr (pc + Size.expr left + 1) right
  | .either left right => expr pc left ++ expr (pc + Size.expr left + 3) right
  | .operate _ left right => expr pc left ++ expr (pc + Size.expr left) right
  | .unary _ operand => expr pc operand
  | .call callee args => expr pc callee ++ exprs (pc + Size.expr callee) args
  | .intrinsic _ args => exprs pc args
  | .index base position => expr pc base ++ expr (pc + Size.expr base) position
  | .list items => exprs pc items
  | .branch condition body otherwise =>
    expr pc condition ++ (block (pc + Size.expr condition + 1) body ++
      block (pc + Size.expr condition + 1 + Size.block body + 1) otherwise)
  | .block b => block pc b

def exprs (pc : Nat) : List Expr → List Extent
  | [] => []
  | e :: es => expr pc e ++ exprs (pc + Size.expr e) es

/-- The extent of the statement itself, and those in it. -/
def stmt (pc : Nat) : Stmt → List Extent
  | .store place value line => ⟨pc, pc + Size.stmt (.store place value line), line⟩ :: expr pc value
  | .setIndex base position value line =>
    ⟨pc, pc + Size.stmt (.setIndex base position value line), line⟩ ::
      (expr pc base ++ (expr (pc + Size.expr base) position ++ expr (pc + Size.expr base + Size.expr position) value))
  | .eval e line => ⟨pc, pc + Size.stmt (.eval e line), line⟩ :: expr pc e
  | .ret value line => ⟨pc, pc + Size.stmt (.ret value line), line⟩ :: expr pc value
  | .loop condition body line =>
    ⟨pc, pc + Size.stmt (.loop condition body line), line⟩ ::
      (expr pc condition ++ block (pc + Size.expr condition + 1) body)
  | .leave line => [⟨pc, pc + Size.stmt (.leave line), line⟩]
  | .next line => [⟨pc, pc + Size.stmt (.next line), line⟩]

def stmts (pc : Nat) : List Stmt → List Extent
  | [] => []
  | s :: ss => stmt pc s ++ stmts (pc + Size.stmt s) ss

/-- A block without a tail gives unit, which belongs to what is around the block. -/
def tail (pc : Nat) : Tail → List Extent
  | .nothing => []
  | .value e line => ⟨pc, pc + Size.expr e, line⟩ :: expr pc e

def block (pc : Nat) : Block → List Extent
  | .mk body last => stmts pc body ++ tail (pc + Size.stmts body) last

end

/-- The extents of the function at a position of a unit: its own one has what stands before and behind the body, too. -/
def function (p : Bound.Program) (index : Nat) (f : Func) : List Extent :=
  ⟨0, Size.opening p index + Size.block f.body + 1, f.line⟩ :: block (Size.opening p index) f.body

end Extents

/-- The innermost extent around an address, which is the last one that begins. -/
def owner? (xs : List Extent) (pc : Nat) : Option Extent := (xs.filter fun x => x.Around pc).getLast?

/-- The extent that began last up to an address, whether its code is over or not. -/
def latest? (xs : List Extent) (pc : Nat) : Option Extent := (xs.filter fun x => x.start ≤ pc).getLast?

/-- Extents between two addresses, in the order of their code. Of two of them the later one comes behind the earlier one, or
    is nested in it. -/
structure Laid (pc stop : Nat) (xs : List Extent) : Prop where
  within : ∀ x ∈ xs, pc ≤ x.start ∧ x.start ≤ x.stop ∧ x.stop ≤ stop
  nested : xs.Pairwise fun x y => x.start ≤ y.start ∧ (x.stop ≤ y.start ∨ y.stop ≤ x.stop)

section
variable {pc m m' stop : Nat} {xs ys : List Extent}

theorem laid_nil : Laid pc stop [] := ⟨nofun, .nil⟩

theorem Laid.append (h : Laid pc m xs) (h' : Laid m' stop ys) (hm : m ≤ m' := by omega) (hpc : pc ≤ m' := by omega)
    (hstop : m ≤ stop := by omega) : Laid pc stop (xs ++ ys) where
  within x hx := by
    obtain hx | hx := List.mem_append.mp hx
    · have := h.within x hx
      omega
    · have := h'.within x hx
      omega
  nested := by
    refine List.pairwise_append.mpr ⟨h.nested, h'.nested, fun x hx y hy => ?_⟩
    have := h.within x hx
    have := h'.within y hy
    omega

theorem Laid.widen (h : Laid pc m xs) (hstop : m ≤ stop) : Laid pc stop xs :=
  ⟨fun x hx => ⟨(h.within x hx).1, (h.within x hx).2.1, Nat.le_trans (h.within x hx).2.2 hstop⟩, h.nested⟩

/-- Extents and the one that they are nested in. -/
theorem Laid.around (h : Laid m stop xs) (hpc : pc ≤ m) (hstop : m ≤ stop) (line : Nat) :
    Laid pc stop (⟨pc, stop, line⟩ :: xs) where
  within x hx := by
    obtain rfl | hx := List.mem_cons.mp hx
    · dsimp only
      omega
    · have := h.within x hx
      omega
  nested := by
    refine List.pairwise_cons.mpr ⟨fun y hy => ?_, h.nested⟩
    have := h.within y hy
    dsimp only
    omega

/-- The extent that began last is the one that an address belongs to, or one nested in that whose code is over. -/
theorem Laid.latest_nested (h : Laid pc stop xs) {a : Nat} {owner : Extent} (howner : owner? xs a = some owner) :
    ∃ last, latest? xs a = some last ∧
      (last = owner ∨ owner.start ≤ last.start ∧ last.stop ≤ owner.stop ∧ last.stop ≤ a) := by
  have among : (xs.filter fun x => x.start ≤ a).filter (fun x => x.Around a) = xs.filter fun x => x.Around a := by
    rw [List.filter_filter]
    refine List.filter_congr fun x _ => ?_
    rw [← Bool.decide_and]
    exact decide_eq_decide.mpr (and_iff_left_of_imp fun around => around.1)
  rw [owner?, ← among] at howner
  have order : (xs.filter fun x => x.start ≤ a).Pairwise _ := h.nested.filter _
  have begun : ∀ x ∈ xs.filter fun x => x.start ≤ a, x.start ≤ a := fun x hx =>
    of_decide_eq_true (List.mem_filter.mp hx).2
  rw [latest?]
  obtain hnil | ⟨front, last, hlast⟩ := List.eq_nil_or_concat (xs.filter fun x => x.start ≤ a)
  · rw [hnil] at howner
    cases howner
  rw [List.concat_eq_append] at hlast
  rw [hlast] at howner order begun ⊢
  refine ⟨last, List.getLast?_concat, ?_⟩
  rw [List.filter_append] at howner
  by_cases hin : last.Around a
  · have kept : [last].filter (fun x => x.Around a) = [last] := by simp [hin]
    rw [kept, List.getLast?_concat] at howner
    exact .inl (Option.some.inj howner)
  · have dropped : [last].filter (fun x => x.Around a) = [] := by simp [hin]
    rw [dropped, List.append_nil] at howner
    obtain ⟨howner, hin'⟩ := List.mem_filter.mp (List.mem_of_getLast? howner)
    have around : owner.Around a := of_decide_eq_true hin'
    have begun := begun last (List.mem_append_right _ (.head _))
    have := (List.pairwise_append.mp order).2.2 owner howner last (.head _)
    unfold Extent.Around at hin around
    exact .inr (by omega)

/-- An extent around an address is around the innermost one, too. -/
theorem Laid.owner_innermost (h : Laid pc stop xs) {a : Nat} {owner x : Extent} (howner : owner? xs a = some owner)
    (hx : x ∈ xs) (around : x.Around a) : x.start ≤ owner.start ∧ owner.stop ≤ x.stop := by
  have order : (xs.filter fun x => x.Around a).Pairwise _ := h.nested.filter _
  have mem : x ∈ xs.filter fun x => x.Around a := List.mem_filter.mpr ⟨hx, decide_eq_true around⟩
  obtain ⟨front, hfront⟩ := List.getLast?_eq_some_iff.mp howner
  have inside : owner.Around a := of_decide_eq_true (List.mem_filter.mp (List.mem_of_getLast? howner)).2
  rw [hfront] at order mem
  obtain hx | hx := List.mem_append.mp mem
  · have := (List.pairwise_append.mp order).2.2 x hx owner (.head _)
    unfold Extent.Around at around inside
    omega
  · rw [List.mem_singleton.mp hx]
    exact ⟨Nat.le_refl _, Nat.le_refl _⟩

end

mutual

theorem laid_expr (pc : Nat) : (e : Expr) → Laid pc (pc + Size.expr e) (Extents.expr pc e)
  | .unit | .int _ | .float _ | .bool _ | .text _ | .load _ | .function _ | .imported _ => laid_nil
  | .both left right =>
    ((laid_expr pc left).append (laid_expr (pc + Size.expr left + 1) right)).widen (by simp only [Size.expr]; omega)
  | .either left right =>
    ((laid_expr pc left).append (laid_expr (pc + Size.expr left + 3) right)).widen (by simp only [Size.expr]; omega)
  | .operate _ left right =>
    ((laid_expr pc left).append (laid_expr (pc + Size.expr left) right)).widen (by simp only [Size.expr]; omega)
  | .unary _ operand => (laid_expr pc operand).widen (by simp only [Size.expr]; omega)
  | .call callee args =>
    ((laid_expr pc callee).append (laid_exprs (pc + Size.expr callee) args)).widen (by simp only [Size.expr]; omega)
  | .intrinsic _ args => (laid_exprs pc args).widen (by simp only [Size.expr]; omega)
  | .index base position =>
    ((laid_expr pc base).append (laid_expr (pc + Size.expr base) position)).widen (by simp only [Size.expr]; omega)
  | .list items => (laid_exprs pc items).widen (by simp only [Size.expr]; omega)
  | .branch condition body otherwise => by
    let start := pc + Size.expr condition + 1
    have branches := (laid_block start body).append (laid_block (start + Size.block body + 1) otherwise)
    exact ((laid_expr pc condition).append branches).widen (by simp only [Size.expr]; omega)
  | .block b => laid_block pc b

theorem laid_exprs (pc : Nat) : (es : List Expr) → Laid pc (pc + Size.exprs es) (Extents.exprs pc es)
  | [] => laid_nil
  | e :: es => ((laid_expr pc e).append (laid_exprs (pc + Size.expr e) es)).widen (by simp only [Size.exprs]; omega)

theorem laid_stmt (pc : Nat) : (s : Stmt) → Laid pc (pc + Size.stmt s) (Extents.stmt pc s)
  | .store _ value line | .eval value line | .ret value line =>
    ((laid_expr pc value).widen (by simp only [Size.stmt]; omega)).around (Nat.le_refl _) (Nat.le_add_right ..) line
  | .setIndex base position value line => by
    let second := pc + Size.expr base
    have operands := (laid_expr second position).append (laid_expr (second + Size.expr position) value)
    have operands : Laid pc (pc + Size.stmt (.setIndex base position value line)) _ :=
      ((laid_expr pc base).append operands).widen (by simp only [Size.stmt]; omega)
    exact operands.around (Nat.le_refl _) (Nat.le_add_right ..) line
  | .loop condition body line => by
    have parts : Laid pc (pc + Size.stmt (.loop condition body line)) _ :=
      ((laid_expr pc condition).append (laid_block (pc + Size.expr condition + 1) body)).widen
        (by simp only [Size.stmt]; omega)
    exact parts.around (Nat.le_refl _) (Nat.le_add_right ..) line
  | .leave line | .next line => laid_nil.around (Nat.le_refl _) (Nat.le_add_right ..) line

theorem laid_stmts (pc : Nat) : (ss : List Stmt) → Laid pc (pc + Size.stmts ss) (Extents.stmts pc ss)
  | [] => laid_nil
  | s :: ss => ((laid_stmt pc s).append (laid_stmts (pc + Size.stmt s) ss)).widen (by simp only [Size.stmts]; omega)

theorem laid_tail (pc : Nat) : (t : Tail) → Laid pc (pc + Size.tail t) (Extents.tail pc t)
  | .nothing => laid_nil
  | .value e line => (laid_expr pc e).around (Nat.le_refl _) (Nat.le_add_right ..) line

theorem laid_block (pc : Nat) : (b : Block) → Laid pc (pc + Size.block b) (Extents.block pc b)
  | .mk body last =>
    ((laid_stmts pc body).append (laid_tail (pc + Size.stmts body) last)).widen (by simp only [Size.block]; omega)

end

theorem laid_function (p : Bound.Program) (index : Nat) (f : Func) :
    Laid 0 (Size.opening p index + Size.block f.body + 1) (Extents.function p index f) :=
  ((laid_block (Size.opening p index) f.body).widen (Nat.le_succ _)).around (Nat.zero_le _)
    (by omega) f.line

/-- Every instruction belongs to something, at least to the function. -/
theorem owner?_function {p : Bound.Program} {index pc : Nat} {f : Func}
    (h : pc < Size.opening p index + Size.block f.body + 1) : ∃ owner, owner? (Extents.function p index f) pc = some owner := by
  have member : ⟨0, _, f.line⟩ ∈ (Extents.function p index f).filter fun x => x.Around pc :=
    List.mem_filter.mpr ⟨.head _, decide_eq_true ⟨Nat.zero_le _, h⟩⟩
  exact ⟨_, List.getLast?_eq_some_getLast (List.ne_nil_of_mem member)⟩

/-! ### Marks -/

/-- The line that marks give an address. -/
def lineIn (marks : List LineMark) (pc : Nat) : Option UInt32 :=
  ((marks.takeWhile fun m => m.start.toNat ≤ pc).getLast?).map LineMark.line

theorem lineAt_eq (r : Routine) (pc : Nat) : r.lineAt pc = ((lineIn r.lines pc).map UInt32.toNat).getD 0 := by
  unfold Routine.lineAt lineIn
  cases (r.lines.takeWhile fun m => m.start.toNat ≤ pc).getLast? with
  | none => rfl
  | some m => rfl

section
variable {front marks : List LineMark} {mark : LineMark} {a : Nat}

/-- Behind all marks the last one counts. -/
theorem lineIn_behind (h : ∀ m ∈ marks, m.start.toNat ≤ a) : lineIn marks a = marks.getLast?.map LineMark.line := by
  have all : marks.takeWhile (fun m => m.start.toNat ≤ a) = marks :=
    List.takeWhile_eq_self_iff.mpr fun m hm => decide_eq_true (h m hm)
  rw [lineIn, all]

/-- Before the last mark only the others count. -/
theorem lineIn_before (h : a < mark.start.toNat) : lineIn (front ++ [mark]) a = lineIn front a := by
  have last : [mark].takeWhile (fun m => m.start.toNat ≤ a) = [] := by simp [h]
  rw [lineIn, lineIn, List.takeWhile_append, last, List.append_nil]
  split
  · rename_i hall
    rw [(List.takeWhile_prefix _).eq_of_length hall]
  · rfl

/-- A mark is put behind the others, in place of the last one if that stands at the same address. -/
theorem markLine_eq (mark : LineMark) (marks : List LineMark) : ∃ front, markLine mark marks = front ++ [mark] ∧
    (marks = front ∨ ∃ last, marks = front ++ [last] ∧ last.start = mark.start) := by
  induction marks with
  | nil => exact ⟨[], rfl, .inl rfl⟩
  | cons first rest ih =>
    cases rest with
    | nil =>
      by_cases same : first.start = mark.start
      · exact ⟨[], if_pos same, .inr ⟨first, rfl, same⟩⟩
      · exact ⟨[first], if_neg same, .inl rfl⟩
    | cons second rest =>
      obtain ⟨front, hmarks, hrest⟩ := ih
      refine ⟨first :: front, congrArg (first :: ·) hmarks, ?_⟩
      obtain rfl | ⟨last, hrest, same⟩ := hrest
      · exact .inl rfl
      · exact .inr ⟨last, congrArg (first :: ·) hrest, same⟩

end

/-- A table tells of all addresses which of the extents that have begun did so last. Nothing is marked behind `pc`. -/
structure Tells (t : Tables) (pc : Nat) (begun : List Extent) : Prop where
  starts : ∀ m ∈ t.lines, m.start.toNat ≤ pc
  running : t.line = begun.getLast?.map Extent.line
  marked : t.lines.getLast?.map LineMark.line = begun.getLast?.map fun x => UInt32.ofNat x.line
  tells : ∀ a, lineIn t.lines a = (latest? begun a).map fun x => UInt32.ofNat x.line

section
variable {t t' : Tables} {pc : Nat} {begun : List Extent}

theorem Tells.mono (h : Tells t pc begun) {pc' : Nat} (hle : pc ≤ pc') : Tells t pc' begun :=
  { h with starts := fun m hm => Nat.le_trans (h.starts m hm) hle }

/-- Constants tell nothing about lines. -/
theorem Tells.constants (h : Tells t pc begun) (constants : Array Constant) : Tells { t with constants := constants } pc begun :=
  ⟨h.starts, h.running, h.marked, h.tells⟩

theorem latest?_before {x : Extent} {a : Nat} (h : a < x.start) : latest? (begun ++ [x]) a = latest? begun a := by
  have dropped : [x].filter (fun x => x.start ≤ a) = [] := by simp [h]
  rw [latest?, latest?, List.filter_append, dropped, List.append_nil]

theorem latest?_behind {x : Extent} {a : Nat} (h : x.start ≤ a) : latest? (begun ++ [x]) a = some x := by
  have kept : [x].filter (fun x => x.start ≤ a) = [x] := by simp [h]
  rw [latest?, List.filter_append, kept, List.getLast?_concat]

/-- An extent begins in a line that is running already: no mark is needed. -/
theorem Tells.same {x : Extent} (h : Tells t x.start begun) (hline : t.line = some x.line) : Tells t x.start (begun ++ [x]) := by
  obtain ⟨z, hz, hzx⟩ := Option.map_eq_some_iff.mp (h.running.symm.trans hline)
  have marked : t.lines.getLast?.map LineMark.line = some (UInt32.ofNat x.line) := by
    rw [h.marked, hz, Option.map_some, hzx]
  refine ⟨h.starts, ?_, ?_, fun a => ?_⟩
  · rw [List.getLast?_concat]
    exact hline
  · rw [List.getLast?_concat]
    exact marked
  · by_cases ha : a < x.start
    · rw [latest?_before ha]
      exact h.tells a
    · have ha := Nat.not_lt.mp ha
      rw [latest?_behind ha, lineIn_behind fun m hm => Nat.le_trans (h.starts m hm) ha]
      exact marked

/-- An extent begins in another line: it is marked. -/
theorem Tells.mark {x : Extent} (h : Tells t x.start begun) {start : UInt32} (hstart : start.toNat = x.start) :
    Tells { t with lines := markLine ⟨start, UInt32.ofNat x.line⟩ t.lines, line := some x.line } x.start (begun ++ [x]) := by
  obtain ⟨front, hmarks, hfront⟩ := markLine_eq ⟨start, UInt32.ofNat x.line⟩ t.lines
  have starts : ∀ m ∈ front ++ [⟨start, UInt32.ofNat x.line⟩], m.start.toNat ≤ x.start := by
    intro m hm
    obtain hm | hm := List.mem_append.mp hm
    · refine h.starts m ?_
      obtain same | ⟨last, same, -⟩ := hfront
      · exact same ▸ hm
      · exact same ▸ List.mem_append_left _ hm
    · rw [List.mem_singleton.mp hm]
      exact Nat.le_of_eq hstart
  rw [hmarks]
  refine ⟨starts, ?_, ?_, fun a => ?_⟩
  · rw [List.getLast?_concat]
    rfl
  · rw [List.getLast?_concat, List.getLast?_concat]
    rfl
  · by_cases ha : a < x.start
    · rw [latest?_before ha, ← h.tells a, lineIn_before (hstart ▸ ha)]
      obtain same | ⟨last, same, hlast⟩ := hfront
      · rw [same]
      · -- The mark that is replaced did not count there, either.
        have hlast : last.start.toNat = x.start := hlast ▸ hstart
        rw [same, lineIn_before (hlast ▸ ha)]
    · have ha := Nat.not_lt.mp ha
      rw [latest?_behind ha, lineIn_behind fun m hm => Nat.le_trans (starts m hm) ha, List.getLast?_concat]
      rfl

end

/-! ### Steps of emission -/

/-- Emission for the addresses from `pc` to `stop`, in which these extents begin, keeps the table telling. -/
def Carries {α : Type} (x : Emit α) (pc : Nat) (xs : List Extent) (stop : Nat) : Prop :=
  ∀ t t' a begun, Tells t pc begun → x.run t = .ok (a, t') → Tells t' stop (begun ++ xs)

section
variable {α β : Type} {x : Emit α} {f : α → Emit β} {pc m stop : Nat} {xs ys : List Extent} {ctx : Context}

theorem carries_pure {a : α} (h : pc ≤ stop) : Carries (pure a) pc [] stop := by
  intro t t' b begun ht hrun
  obtain ⟨rfl, rfl⟩ := run_pure_eq_ok.mp hrun
  rw [List.append_nil]
  exact ht.mono h

theorem carries_bind (hx : Carries x pc xs m) (hf : ∀ a, Carries (f a) m ys stop) : Carries (x >>= f) pc (xs ++ ys) stop := by
  intro t t' b begun ht hrun
  obtain ⟨a, t₁, hfirst, hrest⟩ := run_bind_eq_ok.mp hrun
  rw [← List.append_assoc]
  exact hf a _ _ _ _ (hx _ _ _ _ ht hfirst) hrest

/-- Nothing begins in the first step. -/
theorem carries_first (hx : Carries x pc [] m) (hf : ∀ a, Carries (f a) m ys stop) : Carries (x >>= f) pc ys stop :=
  carries_bind hx hf

/-- Nothing begins in the second step. -/
theorem carries_last (hx : Carries x pc xs m) (hf : ∀ a, Carries (f a) m [] stop) : Carries (x >>= f) pc xs stop := by
  have h := carries_bind hx hf
  rwa [List.append_nil] at h

theorem Carries.from (h : Carries x m xs stop) (hle : pc ≤ m) : Carries x pc xs stop := fun _ _ _ _ ht => h _ _ _ _ (ht.mono hle)

theorem carries_guard {c : Prop} [Decidable c] {e : EmitError} (hx : Carries x pc xs stop) :
    Carries (if c then x else throw e) pc xs stop := by
  split
  · exact hx
  · exact fun _ _ _ _ _ h => nomatch h

theorem carries_target {a : Nat} : Carries (target ctx a) pc [] pc := carries_guard (carries_pure (Nat.le_refl _))

theorem carries_narrow {index : Nat} : Carries (narrow index) pc [] pc := carries_guard (carries_pure (Nat.le_refl _))

theorem carries_localIndex {index : Nat} : Carries (localIndex ctx index) pc [] pc :=
  carries_guard (carries_pure (Nat.le_refl _))

theorem carries_recordIndex {record : Nat} : Carries (recordIndex record) pc [] pc :=
  carries_guard (carries_pure (Nat.le_refl _))

theorem carries_argumentCount {count : Nat} : Carries (argumentCount ctx count) pc [] pc :=
  carries_guard (carries_pure (Nat.le_refl _))

theorem carries_elementCount {count : Nat} : Carries (elementCount ctx count) pc [] pc :=
  carries_guard (carries_pure (Nat.le_refl _))

theorem carries_constant {c : Constant} (h : pc ≤ stop) : Carries (constant ctx c) pc [] stop := by
  intro t t' code begun ht hrun
  unfold constant at hrun
  obtain ⟨_, _, hget, hrun⟩ := run_bind_eq_ok.mp hrun
  cases hget
  have pooled : ∀ {index : Nat} {pool : Array Constant}, (if index < constantLimit then do
        modify fun t => { t with constants := pool }
        return [.const (UInt16.ofNat index)]
      else throw (.tooManyConstants ctx.function) : Emit (List Instr)).run t = .ok (code, t') →
      Tells t' stop (begun ++ []) := by
    intro index pool hrun
    split at hrun
    · cases hrun
      rw [List.append_nil]
      exact (ht.mono h).constants pool
    · cases hrun
  cases hfind : t.constants.findIdx? (· = c) with
  | some i | none =>
    simp only [hfind] at hrun
    exact pooled hrun

/-- An extent begins. -/
theorem carries_setLine (x : Extent) : Carries (setLine ctx x.start x.line) x.start [x] x.start := by
  intro t t' u begun ht hrun
  unfold setLine at hrun
  obtain ⟨_, _, hget, hrun⟩ := run_bind_eq_ok.mp hrun
  cases hget
  split at hrun
  · rename_i hline
    obtain ⟨-, rfl⟩ := run_pure_eq_ok.mp hrun
    exact ht.same hline
  · obtain ⟨start, _, hstart, hmark⟩ := run_bind_eq_ok.mp hrun
    obtain ⟨here, rfl⟩ := target_run hstart
    cases hmark
    exact ht.mark here

theorem carries_load {place : Place} (h : pc ≤ stop) : Carries (load ctx place) pc [] stop := by
  cases place with
  | frame index => exact carries_first carries_localIndex fun _ => carries_pure h
  | slot record index => exact carries_first carries_recordIndex fun _ => carries_first carries_narrow fun _ => carries_pure h

theorem carries_store {place : Place} : Carries (store ctx place) pc [] pc := by
  cases place with
  | frame index => exact carries_first carries_localIndex fun _ => carries_pure (Nat.le_refl _)
  | slot record index =>
    exact carries_first carries_recordIndex fun _ => carries_first carries_narrow fun _ => carries_pure (Nat.le_refl _)

theorem carries_control (keyword : Keyword) (out : LoopTargets → Nat) (h : pc ≤ stop) :
    Carries (match ctx.loop with
      | some targets => do return [.jump (← target ctx (out targets))]
      | none => throw (.strayLoopControl ctx.function keyword) : Emit (List Instr)) pc [] stop := by
  split
  · exact carries_first carries_target fun _ => carries_pure h
  · exact fun _ _ _ _ _ h => nomatch h

end

/-! ### Trees -/

mutual

theorem carries_expr (ctx : Context) (pc : Nat) : (e : Expr) →
    Carries (expr ctx pc e) pc (Extents.expr pc e) (pc + Size.expr e)
  | .unit | .bool _ => carries_pure (Nat.le_add_right ..)
  | .int _ | .float _ | .text _ => carries_constant (Nat.le_add_right ..)
  | .load _ => carries_load (Nat.le_add_right ..)
  | .function _ | .imported _ => carries_first carries_narrow fun _ => carries_pure (Nat.le_add_right ..)
  | .both left right => by
    refine carries_bind (carries_expr ctx pc left) fun _ => ?_
    refine carries_last ((carries_expr ctx _ right).from (Nat.le_succ _)) fun _ => ?_
    exact carries_first carries_target fun _ => carries_first carries_target fun _ =>
      carries_pure (by simp only [Size.expr]; omega)
  | .either left right => by
    refine carries_bind (carries_expr ctx pc left) fun _ => ?_
    refine carries_last ((carries_expr ctx _ right).from (Nat.le_add_right ..)) fun _ => ?_
    refine carries_first carries_target fun _ => carries_first carries_target fun _ => ?_
    exact carries_first carries_target fun _ => carries_pure (by simp only [Size.expr]; omega)
  | .operate _ left right => by
    refine carries_bind (carries_expr ctx pc left) fun _ => carries_last (carries_expr ctx _ right) fun _ => ?_
    exact carries_pure (by simp only [Size.expr]; omega)
  | .unary _ operand =>
    carries_last (carries_expr ctx pc operand) fun _ => carries_pure (by simp only [Size.expr]; omega)
  | .call callee args => by
    refine carries_first carries_argumentCount fun _ => carries_bind (carries_expr ctx pc callee) fun _ => ?_
    exact carries_last (carries_exprs ctx _ args) fun _ => carries_pure (by simp only [Size.expr]; omega)
  | .intrinsic _ args => by
    refine carries_first carries_argumentCount fun _ => carries_last (carries_exprs ctx pc args) fun _ => ?_
    exact carries_pure (by simp only [Size.expr]; omega)
  | .index base position => by
    refine carries_bind (carries_expr ctx pc base) fun _ => carries_last (carries_expr ctx _ position) fun _ => ?_
    exact carries_pure (by simp only [Size.expr]; omega)
  | .list items => by
    refine carries_first carries_elementCount fun _ => carries_last (carries_exprs ctx pc items) fun _ => ?_
    exact carries_pure (by simp only [Size.expr]; omega)
  | .branch condition body otherwise => by
    refine carries_bind (carries_expr ctx pc condition) fun _ => ?_
    refine carries_bind ((carries_block ctx _ body).from (Nat.le_succ _)) fun _ => ?_
    refine carries_last ((carries_block ctx _ otherwise).from (Nat.le_succ _)) fun _ => ?_
    exact carries_first carries_target fun _ => carries_first carries_target fun _ =>
      carries_pure (by simp only [Size.expr]; omega)
  | .block b => carries_block ctx pc b

theorem carries_exprs (ctx : Context) (pc : Nat) : (es : List Expr) →
    Carries (exprs ctx pc es) pc (Extents.exprs pc es) (pc + Size.exprs es)
  | [] => carries_pure (Nat.le_refl _)
  | e :: es => by
    refine carries_bind (carries_expr ctx pc e) fun _ => carries_last (carries_exprs ctx _ es) fun _ => ?_
    exact carries_pure (by simp only [Size.exprs]; omega)

theorem carries_stmt (ctx : Context) (pc : Nat) : (s : Stmt) →
    Carries (stmt ctx pc s) pc (Extents.stmt pc s) (pc + Size.stmt s)
  | .store place value line => by
    refine carries_bind (carries_setLine ⟨pc, _, line⟩) fun _ => carries_last (carries_expr ctx pc value) fun _ => ?_
    exact carries_first carries_store fun _ => carries_pure (by simp only [Size.stmt]; omega)
  | .setIndex base position value line => by
    refine carries_bind (carries_setLine ⟨pc, _, line⟩) fun _ => carries_bind (carries_expr ctx pc base) fun _ => ?_
    refine carries_bind (carries_expr ctx _ position) fun _ => carries_last (carries_expr ctx _ value) fun _ => ?_
    exact carries_pure (by simp only [Size.stmt]; omega)
  | .eval value line | .ret value line => by
    refine carries_bind (carries_setLine ⟨pc, _, line⟩) fun _ => carries_last (carries_expr ctx pc value) fun _ => ?_
    exact carries_pure (by simp only [Size.stmt]; omega)
  | .loop condition body line => by
    refine carries_bind (carries_setLine ⟨pc, _, line⟩) fun _ => carries_bind (carries_expr ctx pc condition) fun _ => ?_
    refine carries_last ((carries_block _ _ body).from (Nat.le_succ _)) fun _ => ?_
    exact carries_first carries_target fun _ => carries_first carries_target fun _ =>
      carries_pure (by simp only [Size.stmt]; omega)
  | .leave line =>
    carries_last (carries_setLine ⟨pc, _, line⟩) fun _ => carries_control .leave LoopTargets.exit (Nat.le_succ _)
  | .next line =>
    carries_last (carries_setLine ⟨pc, _, line⟩) fun _ => carries_control .next LoopTargets.start (Nat.le_succ _)

theorem carries_stmts (ctx : Context) (pc : Nat) : (ss : List Stmt) →
    Carries (stmts ctx pc ss) pc (Extents.stmts pc ss) (pc + Size.stmts ss)
  | [] => carries_pure (Nat.le_refl _)
  | s :: ss => by
    refine carries_bind (carries_stmt ctx pc s) fun _ => carries_last (carries_stmts ctx _ ss) fun _ => ?_
    exact carries_pure (by simp only [Size.stmts]; omega)

theorem carries_tail (ctx : Context) (pc : Nat) : (t : Tail) →
    Carries (tail ctx pc t) pc (Extents.tail pc t) (pc + Size.tail t)
  | .nothing => carries_pure (Nat.le_succ _)
  | .value e line => carries_bind (carries_setLine ⟨pc, _, line⟩) fun _ => carries_expr ctx pc e

theorem carries_block (ctx : Context) (pc : Nat) : (b : Block) →
    Carries (block ctx pc b) pc (Extents.block pc b) (pc + Size.block b)
  | .mk body last => by
    refine carries_bind (carries_stmts ctx pc body) fun _ => carries_last (carries_tail ctx _ last) fun _ => ?_
    exact carries_pure (by simp only [Size.block]; omega)

end

/-! ### Routines -/

theorem carries_prologue {record : Nat} (ss : List FunctionSlot) : Carries (prologue record ss) 0 [] 0 := by
  induction ss with
  | nil => exact carries_pure (Nat.le_refl _)
  | cons s ss ih =>
    refine carries_first carries_narrow fun _ => carries_first carries_recordIndex fun _ => ?_
    exact carries_first carries_narrow fun _ => carries_first ih fun _ => carries_pure (Nat.le_refl _)

theorem carries_prologueOf {p : Bound.Program} {index : Nat} : Carries (prologueOf p index) 0 [] 0 := by
  unfold prologueOf
  split
  · split
    · exact carries_first (carries_prologue _) fun _ => carries_pure (Nat.le_refl _)
    · exact carries_pure (Nat.le_refl _)
  · exact carries_pure (Nat.le_refl _)

theorem carries_routineCode {p : Bound.Program} {index : Nat} {f : Func} :
    Carries (routineCode p index f) 0 (Extents.function p index f) (Size.opening p index + Size.block f.body) := by
  refine carries_bind (carries_setLine ⟨0, _, f.line⟩) fun _ t t' code begun ht hrun => ?_
  obtain ⟨start, _, hstart, hrun⟩ := run_bind_eq_ok.mp hrun
  obtain ⟨body, _, hbody, hrun⟩ := run_bind_eq_ok.mp hrun
  obtain ⟨rfl, rfl⟩ := run_pure_eq_ok.mp hrun
  have opened := carries_prologueOf _ _ _ _ ht hstart
  rw [List.append_nil] at opened
  rw [(prologueOf_run hstart).length] at hbody
  exact carries_block _ _ f.body _ _ _ _ (opened.mono (Nat.zero_le _)) hbody

/-- An instruction of a routine has the line of the extent that began last. -/
theorem routine_tells {p : Bound.Program} {index : Nat} {f : Func} {r : Routine} (h : routine p index f = .ok r) (pc : Nat) :
    lineIn r.lines pc = (latest? (Extents.function p index f) pc).map fun x => UInt32.ofNat x.line := by
  obtain ⟨-, -, code, tables, hcode, rfl⟩ := routine_eq_ok h
  have empty : Tells ⟨#[], [], none⟩ 0 [] := ⟨nofun, rfl, rfl, fun _ => rfl⟩
  exact (carries_routineCode _ _ _ _ empty hcode).tells pc

end Lowering

/-! ### Faults -/

namespace Machine

section
variable {env : Env} {m m' : Machine} {e : RuntimeError}

/-- The trace of a failure begins with the line of the instruction that failed. -/
theorem step_faulted {i : Instr} (hi : m.frame.routine.Holds m.frame.pc i) (h : step env m = .faulted e m') :
    m'.trace = ⟨m.frame.routine.name, m.frame.routine.lineAt m.frame.pc⟩ :: m.callers.items.map Frame.traceEntry := by
  obtain ⟨rfl, -⟩ := step_fails hi h
  rfl

end
end Machine

section
variable {u : ScriptUnit} {image : Image} {index pc : Nat} {f : Func} {r : Routine}
open Lowering

/-- Which line a fault names. Every instruction of a unit belongs to an innermost statement or tail of a block, or to the
    function itself. But the line table gives it, in 32 bits, the line of what began last, and so does the trace of a failure
    of that instruction, however the machine came to it. What began last is what the instruction belongs to, or a
    statement or tail nested in that whose code is over. So the line is right if no nested code comes before the
    instruction, and otherwise it is that of the last nested one. -/
theorem Machine.fault_names_latest (himage : u.image = .ok image) (hf : u.program.functions[index]? = some f)
    (hr : image.functions[index]? = some r) (hpc : pc < r.code.size) :
    ∃ owner last, owner? (Extents.function u.program index f) pc = some owner ∧
      (∀ x ∈ Extents.function u.program index f, x.Around pc → x.start ≤ owner.start ∧ owner.stop ≤ x.stop) ∧
      latest? (Extents.function u.program index f) pc = some last ∧
      (last = owner ∨ owner.start ≤ last.start ∧ last.stop ≤ owner.stop ∧ last.stop ≤ pc) ∧
      r.lineAt pc = (UInt32.ofNat last.line).toNat ∧
      ∀ env m done fault, m.frame.routine = r → m.frame.pc = pc → Invocation.ofEnd (step env m) = some done →
        done.outcome = .error fault →
        fault.trace = ⟨f.name, (UInt32.ofNat last.line).toNat⟩ :: m.callers.items.map Frame.traceEntry := by
  have stands := (image_emitted himage).stands.function hf hr
  have laid := laid_function u.program index f
  obtain ⟨owner, howner⟩ := owner?_function (stands.size ▸ hpc)
  obtain ⟨last, hlast, nested⟩ := laid.latest_nested howner
  have line : r.lineAt pc = (UInt32.ofNat last.line).toNat := by
    rw [lineAt_eq, routine_tells (image_routine himage hf hr) pc, hlast]
    rfl
  refine ⟨owner, last, howner, fun x hx => laid.owner_innermost howner hx, hlast, nested, line, ?_⟩
  intro env m done fault hroutine hat hend herror
  subst hroutine hat
  cases hstep : step env m with
  | running m₁ | sleeping millis m₁ =>
    rw [hstep] at hend
    cases hend
  | finished v m₁ =>
    rw [hstep] at hend
    cases hend
    cases herror
  | faulted e m₁ =>
    rw [hstep] at hend
    cases hend
    cases herror
    rw [← line, ← stands.name]
    exact step_faulted (Array.getElem?_eq_getElem hpc) hstep

/-- A script, the parts of its entry routine, and how the machine ends after so many steps. -/
def ScriptUnit.endAfter? (source : String) (steps : Nat) :
    Option (ScriptUnit × Image × Func × Routine × Machine.Env × Machine × Invocation) := do
  let u ← (ScriptUnit.create (.script 1) source #[] [] []).toOption
  let image ← u.image.toOption
  let f ← u.program.functions[0]?
  let r ← image.functions[0]?
  let e ← (Executable.ofUnit u #[]).toOption
  let start ← (Memory.withCapacity 1).launch? #[] e
  let env := (Memory.withCapacity 1).env #[] e .default
  let m ← Machine.after? env steps start
  guard (m.frame.routine = r)
  let done ← Invocation.ofEnd (Machine.step env m)
  return (u, image, f, r, env, m, done)

/-- A sum whose right side is a block of its own lines. -/
def blockOperand : String := "[1] + \x7b\n  let y = 2;\n  y\n\x7d;"

/-- The sum fails, which is in a statement of the first line; the fault names the line of the tail of the block. -/
theorem Machine.fault_names_latest_operand :
    ∃ (u : ScriptUnit) (image : Image) (f : Func) (r : Routine) (env : Env) (m : Machine) (owner last : Extent)
      (done : Invocation) (fault : Fault),
      ScriptUnit.create (.script 1) blockOperand #[] [] [] = .ok u ∧ u.image = .ok image ∧
      u.program.functions[0]? = some f ∧ image.functions[0]? = some r ∧ m.frame.routine = r ∧ m.frame.pc < r.code.size ∧
      owner? (Extents.function u.program 0 f) m.frame.pc = some owner ∧ owner.line = 1 ∧
      latest? (Extents.function u.program 0 f) m.frame.pc = some last ∧ last.line = 3 ∧ last.stop ≤ m.frame.pc ∧
      r.lineAt m.frame.pc = 3 ∧ Invocation.ofEnd (step env m) = some done ∧ done.outcome = .error fault ∧
      fault.trace = [⟨"Submission#1.<Main>", 3⟩] := by
  have computes : (ScriptUnit.endAfter? blockOperand 6).any (fun (u, _, f, r, _, m, done) =>
      decide (m.frame.pc < r.code.size) && f.name == "Submission#1.<Main>" && m.callers.items.isEmpty &&
      (owner? (Extents.function u.program 0 f) m.frame.pc).any (fun x => x.line == 1) &&
      (latest? (Extents.function u.program 0 f) m.frame.pc).any (fun x => x.line == 3 && decide (x.stop ≤ m.frame.pc)) &&
      done.outcome.toOption.isNone) = true := by decide +kernel
  obtain ⟨⟨u, image, f, r, env, m, done⟩, hend, facts⟩ := (Option.any_eq_true ..).mp computes
  obtain ⟨_, hu, h⟩ := Option.bind_eq_some_iff.mp hend
  obtain ⟨_, himage, h⟩ := Option.bind_eq_some_iff.mp h
  obtain ⟨_, hf, h⟩ := Option.bind_eq_some_iff.mp h
  obtain ⟨_, hr, h⟩ := Option.bind_eq_some_iff.mp h
  obtain ⟨_, -, h⟩ := Option.bind_eq_some_iff.mp h
  obtain ⟨_, -, h⟩ := Option.bind_eq_some_iff.mp h
  obtain ⟨_, -, h⟩ := Option.bind_eq_some_iff.mp h
  obtain ⟨_, hroutine, h⟩ := Option.bind_eq_some_iff.mp h
  obtain ⟨_, hdone, h⟩ := Option.bind_eq_some_iff.mp h
  cases h
  have himage := except_toOption_eq_some.mp himage
  have hroutine := (Option.guard_eq_some' _).mp hroutine
  simp only [Bool.and_eq_true, decide_eq_true_eq, beq_iff_eq, List.isEmpty_iff] at facts
  obtain ⟨⟨⟨⟨⟨hpc, hname⟩, hcallers⟩, hfirst⟩, hthird⟩, hfails⟩ := facts
  obtain ⟨owner, last, howner, -, hlast, -, line, faults⟩ := Machine.fault_names_latest himage hf hr hpc
  simp only [howner, Option.any_some, beq_iff_eq] at hfirst
  simp only [hlast, Option.any_some, Bool.and_eq_true, beq_iff_eq, decide_eq_true_eq] at hthird
  obtain ⟨hthird, ended⟩ := hthird
  cases houtcome : done.outcome with
  | ok v =>
    rw [houtcome] at hfails
    cases hfails
  | error fault =>
    have trace := faults _ m done fault hroutine rfl hdone houtcome
    rw [hname, hcallers, hthird] at trace
    rw [hthird] at line
    exact ⟨u, image, f, r, _, m, owner, last, done, fault, except_toOption_eq_some.mp hu, himage, hf, hr, hroutine, hpc,
      howner, hfirst, hlast, hthird, ended, line, hdone, houtcome, trace⟩

end
end ScriptEngine
