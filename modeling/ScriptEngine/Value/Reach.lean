import ScriptEngine.Value
import Std.Data.HashSet

/-! Whether one list is nested in another. A store that would nest a list in itself is refused, so lists
    never form a cycle; the search itself ends on any heap, because it opens each list once. -/

namespace ScriptEngine.Heap

def inner (h : Heap) (id : Nat) : List Nat :=
  (h.items id).toList.filterMap fun
    | .list i => some i
    | _ => none

def unopened (h : Heap) (seen : Std.HashSet Nat) : Nat :=
  ((List.range h.size).filter fun i => !seen.contains i).length

theorem unopened_insert_lt (h : Heap) (seen : Std.HashSet Nat) (id : Nat) (bound : id < h.size)
    (fresh : seen.contains id = false) : h.unopened (seen.insert id) < h.unopened seen := by
  unfold unopened
  have split : (List.range h.size).filter (fun i => !(seen.insert id).contains i) =
      ((List.range h.size).filter fun i => !seen.contains i).filter fun i => i != id := by
    rw [List.filter_filter]
    apply List.filter_congr
    intro i _
    simp only [Std.HashSet.contains_insert, Bool.not_or, bne]
    rw [Bool.beq_comm, Bool.and_comm]
  rw [split]
  refine List.length_filter_lt_length_iff_exists.mpr ⟨id, ?_, by simp⟩
  simp [bound, fresh]

/-- A list that waits is `target` or has it nested in it, apart from what was opened already. -/
def finds (h : Heap) (target : Nat) (seen : Std.HashSet Nat) (pending : List Nat) : Bool :=
  match pending with
  | [] => false
  | i :: rest =>
    if i = target then true
    else if _ : seen.contains i then h.finds target seen rest
    else if _ : i < h.size then h.finds target (seen.insert i) (h.inner i ++ rest)
    else h.finds target seen rest
termination_by (h.unopened seen, pending.length)
decreasing_by
  · exact Prod.Lex.right _ (Nat.lt_succ_self _)
  · exact Prod.Lex.left _ _ (unopened_insert_lt h seen i ‹_› (by simp_all))
  · exact Prod.Lex.right _ (Nat.lt_succ_self _)

/-- The value is the list `target` or has it nested in it. -/
def reaches (h : Heap) (v : Value) (target : Nat) : Bool :=
  match v with
  | .list start => h.finds target ∅ [start]
  | _ => false

end ScriptEngine.Heap
