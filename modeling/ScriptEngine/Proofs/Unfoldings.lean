import Mathlib.Data.List.Perm.Subperm
import ScriptEngine.Proofs.ListGraph

/-! Values written out. A list is known by its position only, and may stand in many places; its unfolding has all its
    elements in each of these places, so it can be much larger than the heap. No value has two unfoldings, a list that is
    nested in itself has none, and where there is no such list every value has one (`Heap.Acyclic.unfolds`). -/

namespace ScriptEngine
open Relation

/-- A value in which every list stands for itself, with all its elements. -/
inductive Unfolding where
  | single (v : Value)
  | list (items : List Unfolding)

theorem Value.type_eq_list (v : Value) : v.type = .list ↔ ∃ id, v = .list id := by
  constructor
  · intro hv
    cases v with
    | list id => exact ⟨id, rfl⟩
    | _ => cases hv
  · rintro ⟨id, rfl⟩
    rfl

namespace Unfolding

mutual

/-- How many lists are nested in each other, at most. -/
def levels : Unfolding → Nat
  | single _ => 0
  | list ts => levelsEach ts + 1

def levelsEach : List Unfolding → Nat
  | [] => 0
  | t :: ts => max (levels t) (levelsEach ts)

end

theorem levels_le_each {t : Unfolding} {ts : List Unfolding} (h : t ∈ ts) : t.levels ≤ levelsEach ts := by
  induction h with
  | head => exact Nat.le_max_left ..
  | tail _ _ ih => exact Nat.le_trans ih (Nat.le_max_right ..)

end Unfolding

namespace Heap

mutual

/-- The value, written out. -/
def Unfolds (h : Heap) (v : Value) : Unfolding → Prop
  | .single w => v = w ∧ v.type ≠ .list
  | .list ts => ∃ id, v = .list id ∧ UnfoldsEach h (h.items id).toList ts

def UnfoldsEach (h : Heap) (vs : List Value) : List Unfolding → Prop
  | [] => vs = []
  | t :: ts => ∃ v rest, vs = v :: rest ∧ Unfolds h v t ∧ UnfoldsEach h rest ts

end

variable {h : Heap} {v : Value} {vs : List Value}

theorem Unfolds.single (hv : v.type ≠ .list) : h.Unfolds v (.single v) := ⟨rfl, hv⟩

mutual

theorem Unfolds.unique : ∀ {v : Value} {t u : Unfolding}, h.Unfolds v t → h.Unfolds v u → t = u
  | _, .single _, .single _, ⟨rfl, _⟩, ⟨rfl, _⟩ => rfl
  | _, .list _, .list _, ⟨_, rfl, items⟩, ⟨_, rfl, items'⟩ => by rw [items.unique items']
  | _, .single _, .list _, ⟨rfl, hv⟩, ⟨_, rfl, _⟩ => absurd rfl hv
  | _, .list _, .single _, ⟨_, rfl, _⟩, ⟨rfl, hv⟩ => absurd rfl hv

theorem UnfoldsEach.unique : ∀ {vs : List Value} {ts us : List Unfolding}, h.UnfoldsEach vs ts → h.UnfoldsEach vs us → ts = us
  | _, [], [], _, _ => rfl
  | _, [], _ :: _, rfl, ⟨_, _, other, _⟩ => nomatch other
  | _, _ :: _, [], ⟨_, _, rfl, _⟩, other => nomatch other
  | _, _ :: _, _ :: _, ⟨_, _, rfl, first, others⟩, ⟨_, _, same, first', others'⟩ => by
    cases same
    rw [first.unique first', others.unique others']

end

/-- Every element of a list has its place in the unfolding of the list. -/
theorem UnfoldsEach.mem {ts : List Unfolding} (unfolds : h.UnfoldsEach vs ts) (hv : v ∈ vs) : ∃ t ∈ ts, h.Unfolds v t := by
  induction ts generalizing vs with
  | nil =>
    rw [show vs = [] from unfolds] at hv
    cases hv
  | cons t ts ih =>
    obtain ⟨w, rest, rfl, first, others⟩ := unfolds
    obtain rfl | hv := List.mem_cons.mp hv
    · exact ⟨t, .head _, first⟩
    · obtain ⟨t', ht', unfolds'⟩ := ih others hv
      exact ⟨t', .tail _ ht', unfolds'⟩

theorem unfoldsEach_of_forall {n : Nat} (each : ∀ v ∈ vs, ∃ t, h.Unfolds v t ∧ t.levels ≤ n) :
    ∃ ts, h.UnfoldsEach vs ts ∧ Unfolding.levelsEach ts ≤ n := by
  induction vs with
  | nil => exact ⟨[], rfl, Nat.zero_le _⟩
  | cons v vs ih =>
    obtain ⟨t, first, hlevels⟩ := each v (.head _)
    obtain ⟨ts, others, hothers⟩ := ih fun w hw => each w (.tail _ hw)
    exact ⟨t :: ts, ⟨v, vs, rfl, first, others⟩, Nat.max_le.mpr ⟨hlevels, hothers⟩⟩

/-- A position without a list counts as an empty list. -/
theorem items_of_le {id : Nat} (hid : h.size ≤ id) : h.items id = #[] := by
  rw [items, Array.getD_eq_getD_getElem?, Array.getElem?_eq_none hid]
  rfl

/-- A chain of nested lists is no longer than the heap, and below it there is room only for the lists that are not in it. -/
theorem Acyclic.unfolds_below (acyclic : h.Acyclic) {chain : List Nat} {room : Nat} (distinct : chain.Nodup)
    (hchain : ∀ i ∈ chain, i < h.size ∧ ∀ id, v = .list id → TransGen h.Nests i id)
    (hroom : chain.length + room = h.size + 1) : ∃ t, h.Unfolds v t ∧ t.levels ≤ room := by
  induction room generalizing chain v with
  | zero =>
    have inside : chain ⊆ List.range h.size := fun i hi => List.mem_range.mpr (hchain i hi).1
    have hlength := (distinct.subperm inside).length_le
    rw [List.length_range] at hlength
    omega
  | succ room ih =>
    by_cases hv : v.type = .list
    · obtain ⟨id, rfl⟩ := v.type_eq_list.mp hv
      suffices each : ∀ w ∈ (h.items id).toList, ∃ t, h.Unfolds w t ∧ t.levels ≤ room by
        obtain ⟨ts, unfolds, hlevels⟩ := unfoldsEach_of_forall each
        exact ⟨.list ts, ⟨id, rfl, unfolds⟩, Nat.succ_le_succ hlevels⟩
      intro w hw
      have nests : ∀ j, w = .list j → h.Nests id j := by
        rintro j rfl
        exact Array.mem_toList_iff.mp hw
      have hid : id < h.size := by
        refine Nat.lt_of_not_le fun hle => ?_
        rw [items_of_le hle] at hw
        cases hw
      have fresh : id ∉ chain := fun hmem => acyclic id ((hchain id hmem).2 id rfl)
      refine ih (List.nodup_cons.mpr ⟨fresh, distinct⟩) (fun i hi => ?_) (by rw [List.length_cons]; omega)
      obtain rfl | hi := List.mem_cons.mp hi
      · exact ⟨hid, fun j hj => .single (nests j hj)⟩
      · exact ⟨(hchain i hi).1, fun j hj => ((hchain i hi).2 id rfl).tail (nests j hj)⟩
    · exact ⟨.single v, .single hv, Nat.zero_le _⟩

/-- Where no list is nested in itself every value has an unfolding, and no more levels than there are lists, but for a
    list that is not there. -/
theorem Acyclic.unfolds (acyclic : h.Acyclic) (v : Value) : ∃ t, h.Unfolds v t ∧ t.levels ≤ h.size + 1 :=
  acyclic.unfolds_below .nil nofun (Nat.zero_add _)

end Heap
end ScriptEngine
