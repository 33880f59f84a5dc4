import Mathlib.Logic.Relation
import ScriptEngine.Proofs.KnownValues

/-! The graph of lists, in which a list points to the lists among its elements. The search that guards every
    store is exact on every heap, also on one with cycles (`Heap.reaches_iff`). A new list points to older
    lists only, and a store adds at most one edge to the graph, which closes a cycle exactly if the search
    finds the changed list in the value (`Heap.append_acyclic_iff`, `Heap.replace_acyclic_iff`). -/

namespace ScriptEngine
open Relation

namespace Heap

/-- A list has another one among its elements. -/
def Nests (h : Heap) (i j : Nat) : Prop := .list j ∈ h.items i

/-- A list is another one, or has it nested in it at some depth. -/
def Reaches (h : Heap) : Nat → Nat → Prop := ReflTransGen h.Nests

/-- No list is nested in itself. -/
def Acyclic (h : Heap) : Prop := ∀ i, ¬ TransGen h.Nests i i

end Heap

namespace Value

/-- The value is a list, or has it nested in it at some depth. -/
def Contains (h : Heap) (v : Value) (id : Nat) : Prop := ∃ start, v = .list start ∧ h.Reaches start id

/-- The value is no list, or one at a position below `size`. -/
def Within (size : Nat) : Value → Prop
  | .list id => id < size
  | _ => True

end Value

namespace Heap

variable {h h' : Heap} {id position target : Nat} {v : Value}

theorem mem_inner {i j : Nat} : j ∈ h.inner i ↔ h.Nests i j := by
  simp only [inner, List.mem_filterMap, Array.mem_toList_iff, Nests]
  constructor
  · rintro ⟨v, hv, hlist⟩
    split at hlist
    · cases hlist
      exact hv
    · cases hlist
  · exact fun hmem => ⟨_, hmem, rfl⟩

/-- A position without a list points nowhere. -/
theorem Nests.lt {i j : Nat} (hnests : h.Nests i j) : i < h.size := by
  refine Nat.lt_of_not_le fun hle => ?_
  rw [Nests, items, Array.getD_eq_getD_getElem?, Array.getElem?_eq_none hle] at hnests
  simp at hnests

theorem Acyclic.empty : Heap.empty.Acyclic := fun _ hcycle => by
  obtain ⟨j, hnests, -⟩ := TransGen.head'_iff.mp hcycle
  exact Nat.not_lt_zero _ hnests.lt

/-! ### The search -/

/-- What the search finds is there. -/
theorem finds_sound {seen : Std.HashSet Nat} {pending : List Nat} (hfinds : h.finds target seen pending = true) :
    ∃ i ∈ pending, h.Reaches i target := by
  fun_induction finds h target seen pending with
  | case1 seen => cases hfinds
  | case2 seen rest => exact ⟨target, .head _, .refl⟩
  | case3 seen i rest _ _ ih | case5 seen i rest _ _ _ ih =>
    obtain ⟨j, hj, reaches⟩ := ih hfinds
    exact ⟨j, .tail _ hj, reaches⟩
  | case4 seen i rest _ _ _ ih =>
    obtain ⟨j, hj, reaches⟩ := ih hfinds
    rcases List.mem_append.mp hj with hj | hj
    · exact ⟨i, .head _, .head (mem_inner.mp hj) reaches⟩
    · exact ⟨j, .tail _ hj, reaches⟩

/-- Lists that the search has opened point to lists that it has opened or will look at, or to positions without
    a list. -/
def Opened (h : Heap) (target : Nat) (seen : Std.HashSet Nat) (pending : List Nat) : Prop :=
  ∀ i ∈ seen, ∀ j, h.Nests i j → j ∈ seen ∨ j ∈ pending ∨ h.size ≤ j ∧ j ≠ target

/-- Nothing is lost when the first list that waits was opened already, or is not there. -/
theorem Opened.skip {seen : Std.HashSet Nat} {i : Nat} {rest : List Nat} (opened : h.Opened target seen (i :: rest))
    (hi : i ∈ seen ∨ h.size ≤ i ∧ i ≠ target) : h.Opened target seen rest := by
  intro k hk j hnests
  rcases opened k hk j hnests with hj | hj | hj
  · exact .inl hj
  · rcases List.mem_cons.mp hj with rfl | hj
    · exact hi.imp_right .inr
    · exact .inr (.inl hj)
  · exact .inr (.inr hj)

/-- Opening a list makes its elements wait. -/
theorem Opened.insert {seen : Std.HashSet Nat} {i : Nat} {rest : List Nat}
    (opened : h.Opened target seen (i :: rest)) : h.Opened target (seen.insert i) (h.inner i ++ rest) := by
  intro k hk j hnests
  rcases Std.HashSet.mem_insert.mp hk with heq | hk
  · obtain rfl := beq_iff_eq.mp heq
    exact .inr (.inl (List.mem_append_left _ (mem_inner.mpr hnests)))
  · rcases opened k hk j hnests with hj | hj | hj
    · exact .inl (Std.HashSet.mem_insert.mpr (.inr hj))
    · rcases List.mem_cons.mp hj with rfl | hj
      · exact .inl Std.HashSet.mem_insert_self
      · exact .inr (.inl (List.mem_append_right _ hj))
    · exact .inr (.inr hj)

/-- A search that finds nothing has gone through a set of lists that points nowhere else, and the target is not
    in it. -/
theorem finds_complete {seen : Std.HashSet Nat} {pending : List Nat} (hfinds : h.finds target seen pending = false)
    (opened : h.Opened target seen pending) (apart : target ∉ seen) :
    ∃ S : Nat → Prop, (∀ i ∈ seen, S i) ∧ (∀ i ∈ pending, S i) ∧ (∀ i j, S i → h.Nests i j → S j) ∧ ¬ S target := by
  fun_induction finds h target seen pending with
  | case1 seen =>
    refine ⟨fun i => i ∈ seen ∨ h.size ≤ i ∧ i ≠ target, fun i hi => .inl hi, fun i hi => (nomatch hi), ?_, ?_⟩
    · rintro i j (hi | ⟨hle, -⟩) hnests
      · simpa using opened i hi j hnests
      · exact absurd hnests.lt (Nat.not_lt.mpr hle)
    · rintro (hmem | ⟨-, hne⟩)
      · exact apart hmem
      · exact hne rfl
  | case2 seen rest => cases hfinds
  | case3 seen i rest _ hi ih =>
    have hi : i ∈ seen := Std.HashSet.contains_iff_mem.mp hi
    obtain ⟨S, hseen, hpending, closed, away⟩ := ih hfinds (opened.skip (.inl hi)) apart
    exact ⟨S, hseen, List.forall_mem_cons.mpr ⟨hseen i hi, hpending⟩, closed, away⟩
  | case4 seen i rest hne _ _ ih =>
    have apart' : target ∉ seen.insert i := by
      rw [Std.HashSet.mem_insert, beq_iff_eq]
      exact not_or.mpr ⟨hne, apart⟩
    obtain ⟨S, hseen, hpending, closed, away⟩ := ih hfinds opened.insert apart'
    refine ⟨S, fun k hk => hseen k (Std.HashSet.mem_insert.mpr (.inr hk)), ?_, closed, away⟩
    exact List.forall_mem_cons.mpr ⟨hseen i Std.HashSet.mem_insert_self, fun k hk => hpending k (List.mem_append_right _ hk)⟩
  | case5 seen i rest hne _ hsize ih =>
    have hsize : h.size ≤ i := Nat.not_lt.mp hsize
    obtain ⟨S, hseen, hpending, closed, away⟩ := ih hfinds (opened.skip (.inr ⟨hsize, hne⟩)) apart
    refine ⟨fun k => S k ∨ k = i, fun k hk => .inl (hseen k hk), ?_, ?_, ?_⟩
    · exact List.forall_mem_cons.mpr ⟨.inr rfl, fun k hk => .inl (hpending k hk)⟩
    · rintro k j (hk | rfl) hnests
      · exact .inl (closed k j hk hnests)
      · exact absurd hnests.lt (Nat.not_lt.mpr hsize)
    · rintro (hmem | rfl)
      · exact away hmem
      · exact hne rfl

/-- The search gives the right answer on every heap. -/
theorem reaches_iff : h.reaches v target = true ↔ v.Contains h target := by
  constructor
  · intro hreaches
    unfold reaches at hreaches
    split at hreaches
    · rename_i start
      obtain ⟨i, hi, reaches⟩ := finds_sound hreaches
      obtain rfl := List.mem_singleton.mp hi
      exact ⟨i, rfl, reaches⟩
    · cases hreaches
  · rintro ⟨start, rfl, path⟩
    refine Bool.not_eq_false _ ▸ fun hfinds => ?_
    have opened : h.Opened target ∅ [start] := fun i hi => absurd hi Std.HashSet.not_mem_empty
    obtain ⟨S, -, hpending, closed, away⟩ := finds_complete hfinds opened Std.HashSet.not_mem_empty
    have inside : ∀ k, h.Reaches start k → S k := by
      intro k hk
      induction hk with
      | refl => exact hpending start (.head _)
      | tail _ hnests ih => exact closed _ _ ih hnests
    exact away (inside target path)

/-- A list refuses a value exactly if it is nested in the value, or is the value. -/
theorem checkStore_error_iff {e : RuntimeError} : Value.checkStore h id v = .error e ↔
    e = .cyclicList ∧ v.Contains h id := by
  rw [Value.checkStore, ← reaches_iff]
  split
  · rename_i hreaches
    simp [hreaches, eq_comm]
  · rename_i hreaches
    simp [hreaches]

/-! ### New lists -/

theorem items_alloc (h : Heap) (items : Array Value) (i : Nat) :
    (h.alloc items).1.items i = if i = h.size then items else h.items i := by
  simp only [alloc, Heap.items, Array.getD_eq_getD_getElem?, Array.getElem?_push, size]
  split
  · rfl
  · rfl

/-- A new list points to older lists only, so it is in no cycle. -/
theorem Acyclic.alloc (acyclic : h.Acyclic) (within : h.Holds (Value.Within h.size)) {items : Array Value}
    (hitems : ∀ v ∈ items, v.Within h.size) : (h.alloc items).1.Acyclic := by
  have edge : ∀ {i j : Nat}, (h.alloc items).1.Nests i j → j < h.size ∧ (i < h.size → h.Nests i j) := by
    intro i j hnests
    rw [Nests, items_alloc] at hnests
    split at hnests
    · rename_i heq
      exact ⟨hitems _ hnests, fun hlt => absurd heq (Nat.ne_of_lt hlt)⟩
    · exact ⟨within.items i _ hnests, fun _ => hnests⟩
  have path : ∀ {i j : Nat}, TransGen (h.alloc items).1.Nests i j →
      j < h.size ∧ (i < h.size → TransGen h.Nests i j) := by
    intro i j htrans
    induction htrans with
    | single hnests => exact ⟨(edge hnests).1, fun hi => .single ((edge hnests).2 hi)⟩
    | tail _ hnests ih => exact ⟨(edge hnests).1, fun hi => .tail (ih.2 hi) ((edge hnests).2 ih.1)⟩
  exact fun i hcycle => acyclic i ((path hcycle).2 (path hcycle).1)

/-! ### Stores -/

/-- A graph with one more edge has no cycle, if there is no way back from the end of the edge. -/
theorem Acyclic.store (acyclic : h.Acyclic) (added : ∀ i j, h'.Nests i j → h.Nests i j ∨ i = id ∧ v = .list j)
    (apart : ¬ v.Contains h id) : h'.Acyclic := by
  -- A path of the new graph is one of the old graph, or leads through the new edge.
  have path : ∀ {i j : Nat}, TransGen h'.Nests i j →
      TransGen h.Nests i j ∨ h.Reaches i id ∧ ∃ start, v = .list start ∧ h.Reaches start j := by
    intro i j htrans
    induction htrans with
    | single hnests =>
      rcases added _ _ hnests with hnests | ⟨rfl, hv⟩
      · exact .inl (.single hnests)
      · exact .inr ⟨.refl, _, hv, .refl⟩
    | tail _ hnests ih =>
      rcases added _ _ hnests with hnests | ⟨rfl, hv⟩
      · rcases ih with htrans | ⟨before, start, hv, after⟩
        · exact .inl (.tail htrans hnests)
        · exact .inr ⟨before, start, hv, .tail after hnests⟩
      · rcases ih with htrans | ⟨-, after⟩
        · exact .inr ⟨htrans.to_reflTransGen, _, hv, .refl⟩
        · exact absurd after apart
  intro i hcycle
  rcases path hcycle with htrans | ⟨before, start, hv, after⟩
  · exact acyclic i htrans
  · exact apart ⟨start, hv, after.trans before⟩

/-- An edge that closes a path makes a cycle, whatever else the changed list pointed to. -/
theorem cyclic_of_store (kept : ∀ i j, i ≠ id → h.Nests i j → h'.Nests i j)
    (added : ∀ j, v = .list j → h'.Nests id j) (back : v.Contains h id) : ¬ h'.Acyclic := by
  have path : ∀ {i : Nat}, h.Reaches i id → h'.Reaches i id := by
    intro i reaches
    induction reaches using ReflTransGen.head_induction_on with
    | refl => exact .refl
    | @head i j hnests _ ih =>
      by_cases hi : i = id
      · rw [hi]
        exact .refl
      · exact .head (kept i j hi hnests) ih
  obtain ⟨start, hv, reaches⟩ := back
  exact fun acyclic => acyclic id (.head' (added start hv) (path reaches))

theorem items_modify (h : Heap) (id : Nat) (f : Array Value → Array Value) (i : Nat) :
    (⟨h.lists.modify id f⟩ : Heap).items i = if i = id ∧ id < h.size then f (h.items i) else h.items i := by
  simp only [Heap.items, Array.getD_eq_getD_getElem?, Array.getElem?_modify]
  by_cases hi : id = i
  · subst hi
    by_cases hlt : id < h.size
    · rw [if_pos rfl, if_pos ⟨rfl, hlt⟩, Array.getElem?_eq_getElem hlt]
      rfl
    · rw [if_pos rfl, if_neg (fun hand => hlt hand.2), Array.getElem?_eq_none (Nat.not_lt.mp hlt)]
      rfl
  · rw [if_neg hi, if_neg fun hand => hi hand.1.symm]

/-- Appending a value closes a cycle exactly if the list is nested in the value. -/
theorem append_acyclic_iff (acyclic : h.Acyclic) (hid : id < h.size) :
    (h.append id v).Acyclic ↔ ¬ v.Contains h id := by
  have nests : ∀ {i j : Nat}, (h.append id v).Nests i j ↔ h.Nests i j ∨ i = id ∧ v = .list j := by
    intro i j
    rw [Nests, append, items_modify, Nests]
    by_cases hi : i = id
    · rw [if_pos ⟨hi, hid⟩, Array.mem_push]
      simp [hi, eq_comm]
    · rw [if_neg fun hand => hi hand.1]
      simp [hi]
  refine ⟨fun hacyclic hback => ?_, fun apart => acyclic.store (fun i j => nests.mp) apart⟩
  exact cyclic_of_store (fun i j _ hnests => nests.mpr (.inl hnests)) (fun j hv => nests.mpr (.inr ⟨rfl, hv⟩)) hback hacyclic

/-- Replacing an element by a value closes a cycle exactly if the list is nested in the value. -/
theorem replace_acyclic_iff (acyclic : h.Acyclic) (hid : id < h.size) (hposition : position < (h.items id).size) :
    (h.replace id position v).Acyclic ↔ ¬ v.Contains h id := by
  have items : ∀ i, (h.replace id position v).items i =
      if i = id then (h.items i).setIfInBounds position v else h.items i := by
    intro i
    rw [replace, items_modify]
    simp [hid]
  have added : ∀ i j, (h.replace id position v).Nests i j → h.Nests i j ∨ i = id ∧ v = .list j := by
    intro i j hnests
    rw [Nests, items] at hnests
    split at hnests
    · rename_i hi
      rcases Array.mem_or_eq_of_mem_setIfInBounds hnests with hmem | heq
      · exact .inl hmem
      · exact .inr ⟨hi, heq.symm⟩
    · exact .inl hnests
  refine ⟨fun hacyclic hback => ?_, fun apart => acyclic.store added apart⟩
  refine cyclic_of_store (fun i j hi hnests => ?_) (fun j hv => ?_) hback hacyclic
  · rw [Nests, items, if_neg hi]
    exact hnests
  · rw [Nests, items, if_pos rfl, ← hv]
    exact Array.mem_setIfInBounds hposition

end Heap
end ScriptEngine
