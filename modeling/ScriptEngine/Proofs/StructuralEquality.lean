import Mathlib.Data.List.Zip
import ScriptEngine.Proofs.Unfoldings
import ScriptEngine.Value.Equality

/-! Equality of values is structural. The comparison goes from pair to pair and counts levels only to be sure of an end: where
    no list is nested in itself they never run out, and the same rounds without levels (`Value.rounds`) come to the same
    answer. It is the answer that structure asks for (`Value.Same`). A list is equal to itself without being opened, which
    shows only where it has a number in it that is not equal to itself (`Heap.Acyclic.equals_structural`). -/

namespace ScriptEngine

/-! ### Floating-point numbers -/

section
open Float.Model

theorem unpacked_compare_swap (a b : UnpackedFloat) : b.compare a = (a.compare b).map Ordering.swap := by
  cases a with
  | finite s m e =>
    cases b with
    | finite s' m' e' =>
      have swap : (compare e' e).then (compare m' m) = ((compare e e').then (compare m m')).swap := by
        rw [Ordering.swap_then, Int.compare_swap, Nat.compare_swap]
      cases s with
      | positive =>
        cases s' with
        | positive => exact congrArg some swap
        | negative => rfl
      | negative =>
        cases s' with
        | positive => rfl
        | negative => exact congrArg (fun o : Ordering => some o.swap) swap
    | infinity s' | zero s' => cases s <;> cases s' <;> rfl
    | notANumber => rfl
  | infinity s | zero s =>
    cases b with
    | finite s' | infinity s' | zero s' => cases s <;> cases s' <;> rfl
    | notANumber => rfl
  | notANumber => cases b <;> rfl

theorem unpacked_compare_self {a : UnpackedFloat} (ha : a.isNaN = false) : a.compare a = some .eq := by
  cases a with
  | finite s m e =>
    have same : (compare e e).then (compare m m) = .eq := by rw [Std.compare_self, Std.compare_self, Ordering.then_self]
    cases s with
    | positive => exact congrArg some same
    | negative => exact congrArg (fun o : Ordering => some o.swap) same
  | infinity s | zero s => cases s <;> rfl
  | notANumber => cases ha

theorem float_beq_comm (x y : Float) : (x == y) = (y == x) := by
  change (_ == some Ordering.eq) = (_ == some Ordering.eq)
  rw [unpacked_compare_swap y.toModel.unpack]
  cases y.toModel.unpack.compare x.toModel.unpack with
  | none => rfl
  | some o => cases o <;> rfl

/-- A number that is not equal to itself is no number. -/
theorem float_beq_self {x : Float} (hx : x.isNaN = false) : (x == x) = true := by
  change (_ == some Ordering.eq) = true
  rw [unpacked_compare_self hx]
  rfl

end

namespace Value

/-- A floating-point number that is not equal to itself. -/
def isNaN : Value → Bool
  | float x => x.isNaN
  | _ => false

theorem sameScalar_comm (a b : Value) : a.sameScalar b = b.sameScalar a := by
  cases a <;> cases b <;> simp only [sameScalar, eq_comm, float_beq_comm]

theorem sameScalar_self {a : Value} (hlist : a.type ≠ .list) (hnan : a.isNaN = false) : a.sameScalar a = true := by
  cases a with
  | float x => exact float_beq_self hnan
  | list id => exact absurd rfl hlist
  | unit => rfl
  | int _ | bool _ | text _ | function _ => exact decide_eq_true rfl

theorem type_of_sameScalar {a b : Value} (h : a.sameScalar b = true) : a.type ≠ .list ∧ b.type ≠ .list := by
  constructor
  · rintro hlist
    cases a <;> cases hlist
    cases h
  · rintro hlist
    cases b <;> cases hlist
    cases a <;> cases h

/-! ### What equality asks for -/

/-- The structure of two values is the same, where a list need not be looked at to be the same as itself. -/
inductive Same (h : Heap) : Value → Value → Prop where
  | shared (id : Nat) : Same h (.list id) (.list id)
  | lists {i j : Nat} (size : (h.items i).size = (h.items j).size)
      (each : ∀ a b, (a, b) ∈ (h.items i).toList.zip (h.items j).toList → Same h a b) : Same h (.list i) (.list j)
  | single {a b : Value} (left : a.type ≠ .list) (right : b.type ≠ .list) (same : a.sameScalar b = true) : Same h a b

theorem Same.symm {h : Heap} {a b : Value} (same : Same h a b) : Same h b a := by
  induction same with
  | shared id => exact .shared id
  | lists size _ ih =>
    refine .lists size.symm fun b a hmem => ih a b ?_
    rw [← List.zip_swap]
    exact List.mem_map_of_mem hmem
  | @single a b left right same => exact .single right left (sameScalar_comm a b ▸ same)

/-- Comparing without levels, for so many rounds. In each of them the pair that waits first is decided, or opened. -/
def rounds (h : Heap) : Nat → List (Value × Value) → Option Bool
  | 0, _ => none
  | _ + 1, [] => some true
  | n + 1, (.list i, .list j) :: rest =>
    if i = j then rounds h n rest
    else if (h.items i).size ≠ (h.items j).size then some false
    else rounds h n (((h.items i).toList.zip (h.items j).toList).reverse ++ rest)
  | n + 1, (a, b) :: rest => if a.sameScalar b then rounds h n rest else some false

/-- Comparing without levels comes to an answer, whatever is more than enough rounds. -/
def Decides (h : Heap) (pending : List (Value × Value)) (answer : Bool) : Prop :=
  ∃ n, ∀ m, n ≤ m → rounds h m pending = some answer

section
variable {h : Heap} {pending pending' : List (Value × Value)} {answer : Bool}

theorem Decides.now (hround : ∀ n, rounds h (n + 1) pending = some answer) : Decides h pending answer := by
  refine ⟨1, fun m hm => ?_⟩
  obtain ⟨m, rfl⟩ := Nat.exists_eq_add_one_of_ne_zero (Nat.ne_zero_of_lt hm)
  exact hround m

theorem Decides.step (decides : Decides h pending' answer) (hround : ∀ n, rounds h (n + 1) pending = rounds h n pending') :
    Decides h pending answer := by
  obtain ⟨n, hn⟩ := decides
  refine ⟨n + 1, fun m hm => ?_⟩
  obtain ⟨m, rfl⟩ := Nat.exists_eq_add_one_of_ne_zero (Nat.ne_zero_of_lt hm)
  rw [hround, hn m (Nat.le_of_succ_le_succ hm)]

end

end Value

namespace Unfolding

mutual

/-- Nothing in it is a number that is not equal to itself. -/
def ordinary : Unfolding → Bool
  | single v => !v.isNaN
  | list ts => ordinaryEach ts

def ordinaryEach : List Unfolding → Bool
  | [] => true
  | t :: ts => ordinary t && ordinaryEach ts

end

mutual

/-- Trees are equal if they branch in the same way and are equal where they end. -/
def equal : Unfolding → Unfolding → Bool
  | single v, single w => v.sameScalar w
  | list ts, list us => equalEach ts us
  | single _, list _ | list _, single _ => false

def equalEach : List Unfolding → List Unfolding → Bool
  | [], [] => true
  | t :: ts, u :: us => equal t u && equalEach ts us
  | [], _ :: _ | _ :: _, [] => false

end

end Unfolding

namespace Heap
open Value

variable {h : Heap} {a b : Value}

/-! ### Levels -/

/-- No more levels are below the first of two values than may still be entered. -/
def Roomy (h : Heap) (p : Pair) : Prop := ∃ t, h.Unfolds p.left t ∧ t.levels ≤ p.levels

theorem map_pairDown (levels : Nat) (xs ys : Array Value) : (pairDown levels xs ys).map (fun p => (p.left, p.right)) =
    (xs.toList.zip ys.toList).reverse := by
  rw [pairDown, pairUp, List.map_reverse, List.map_zipWith]
  rfl

theorem mem_pairDown {levels : Nat} {xs ys : Array Value} {p : Pair} :
    p ∈ pairDown levels xs ys ↔ (p.left, p.right) ∈ xs.toList.zip ys.toList ∧ p.levels = levels := by
  rw [pairDown, pairUp, List.mem_reverse, ← List.map_uncurry_zip_eq_zipWith, List.mem_map]
  constructor
  · rintro ⟨⟨v, w⟩, hmem, rfl⟩
    exact ⟨hmem, rfl⟩
  · rintro ⟨hmem, rfl⟩
    exact ⟨_, hmem, rfl⟩

/-- A list may be entered, and then its elements have room. -/
theorem Roomy.open {levels i : Nat} (roomy : h.Roomy ⟨levels, .list i, b⟩) : ∃ inner, levels = inner + 1 ∧
    ∀ ys, ∀ p ∈ pairDown inner (h.items i) ys, h.Roomy p := by
  obtain ⟨t, unfolds, hlevels⟩ := roomy
  cases t with
  | single v =>
    obtain ⟨rfl, hv⟩ := unfolds
    exact absurd rfl hv
  | list ts =>
    obtain ⟨_, ⟨⟩, each⟩ := unfolds
    obtain ⟨inner, rfl⟩ := Nat.exists_eq_add_one_of_ne_zero (Nat.ne_zero_of_lt hlevels)
    refine ⟨inner, rfl, fun ys p hp => ?_⟩
    obtain ⟨hmem, hp⟩ := mem_pairDown.mp hp
    obtain ⟨t, ht, unfolds⟩ := each.mem (List.of_mem_zip hmem).1
    rw [Roomy, hp]
    exact ⟨t, unfolds, Nat.le_trans (Unfolding.levels_le_each ht) (Nat.le_of_succ_le_succ hlevels)⟩

/-- Different lists are the same if they have as many elements and these are the same. -/
theorem same_lists_iff (levels : Nat) {i j : Nat} (hne : i ≠ j) : Same h (.list i) (.list j) ↔
    (h.items i).size = (h.items j).size ∧ ∀ p ∈ pairDown levels (h.items i) (h.items j), Same h p.left p.right := by
  constructor
  · intro same
    cases same with
    | shared => exact absurd rfl hne
    | lists size each => exact ⟨size, fun p hp => each _ _ (mem_pairDown.mp hp).1⟩
    | single left => exact absurd rfl left
  · rintro ⟨size, each⟩
    exact .lists size fun v w hmem => each ⟨levels, v, w⟩ (mem_pairDown.mpr ⟨hmem, rfl⟩)

theorem same_iff_sameScalar (hlist : ∀ i j, a = .list i → b = .list j → False) : Same h a b ↔ a.sameScalar b = true := by
  constructor
  · intro same
    cases same with
    | shared id => exact (hlist id id rfl rfl).elim
    | lists => exact (hlist _ _ rfl rfl).elim
    | single _ _ same => exact same
  · exact fun same => .single (type_of_sameScalar same).1 (type_of_sameScalar same).2 same

/-- With room for all pairs, all of them are equal exactly if each of them is the same. -/
theorem allEqual_iff (pending : List Pair) (roomy : ∀ p ∈ pending, h.Roomy p) :
    allEqual h pending = true ↔ ∀ p ∈ pending, Same h p.left p.right := by
  fun_induction allEqual h pending with
  | case1 => simp
  | case2 levels i rest ih =>
    rw [ih fun p hp => roomy p (.tail _ hp), List.forall_mem_cons]
    exact (and_iff_right (.shared i)).symm
  | case3 i j rest hne =>
    obtain ⟨inner, hlevels, -⟩ := (roomy _ (.head _)).open
    cases hlevels
  | case4 i j rest hne levels hsize =>
    rw [List.forall_mem_cons, same_lists_iff levels hne]
    simp [hsize]
  | case5 i j rest hne levels hsize ih =>
    obtain ⟨inner, hlevels, each⟩ := (roomy _ (.head _)).open
    cases hlevels
    rw [ih (List.forall_mem_append.mpr ⟨each _, fun p hp => roomy p (.tail _ hp)⟩), List.forall_mem_append,
      List.forall_mem_cons, same_lists_iff _ hne, and_iff_right (not_not.mp hsize)]
  | case6 levels a b rest hlist hsame ih =>
    rw [ih fun p hp => roomy p (.tail _ hp), List.forall_mem_cons, same_iff_sameScalar hlist]
    exact (and_iff_right hsame).symm
  | case7 levels a b rest hlist hother =>
    rw [List.forall_mem_cons, same_iff_sameScalar hlist]
    simp [hother]

/-- With room for all pairs, the rounds without levels end with the same answer. -/
theorem decides (pending : List Pair) (roomy : ∀ p ∈ pending, h.Roomy p) :
    Decides h (pending.map fun p => (p.left, p.right)) (allEqual h pending) := by
  fun_induction allEqual h pending with
  | case1 => exact .now fun _ => rfl
  | case2 levels i rest ih => exact (ih fun p hp => roomy p (.tail _ hp)).step fun _ => if_pos rfl
  | case3 i j rest hne =>
    obtain ⟨inner, hlevels, -⟩ := (roomy _ (.head _)).open
    cases hlevels
  | case4 i j rest hne levels hsize => exact .now fun _ => (if_neg hne).trans (if_pos hsize)
  | case5 i j rest hne levels hsize ih =>
    obtain ⟨inner, hlevels, each⟩ := (roomy _ (.head _)).open
    cases hlevels
    refine (ih (List.forall_mem_append.mpr ⟨each _, fun p hp => roomy p (.tail _ hp)⟩)).step fun n => ?_
    rw [List.map_append, map_pairDown]
    exact (if_neg hne).trans (if_neg hsize)
  | case6 levels a b rest hlist hsame ih =>
    refine (ih fun p hp => roomy p (.tail _ hp)).step fun n => ?_
    rw [List.map_cons, rounds.eq_4 _ _ _ _ _ hlist, if_pos hsame]
  | case7 levels a b rest hlist hother =>
    refine .now fun n => ?_
    rw [List.map_cons, rounds.eq_4 _ _ _ _ _ hlist, if_neg hother]

/-! ### Unfoldings -/

mutual

/-- A tree without NaN is equal to itself. -/
theorem Unfolds.equal_self : ∀ {v : Value} {t : Unfolding}, h.Unfolds v t → t.ordinary = true → t.equal t = true
  | _, .single _, ⟨rfl, hv⟩, ordinary => sameScalar_self hv (Bool.not_eq_true' _ ▸ ordinary)
  | _, .list _, ⟨_, _, items⟩, ordinary => items.equalEach_self ordinary

theorem UnfoldsEach.equalEach_self : ∀ {vs : List Value} {ts : List Unfolding}, h.UnfoldsEach vs ts →
    Unfolding.ordinaryEach ts = true → Unfolding.equalEach ts ts = true
  | _, [], _, _ => rfl
  | _, _ :: _, ⟨_, _, _, first, others⟩, ordinary => by
    obtain ⟨hfirst, hothers⟩ := Bool.and_eq_true_iff.mp ordinary
    exact Bool.and_eq_true_iff.mpr ⟨first.equal_self hfirst, others.equalEach_self hothers⟩

end

mutual

/-- Values that are the same have equal trees, if there is no NaN in one of them. -/
theorem Unfolds.equal_of_same : ∀ {a b : Value} {t u : Unfolding}, h.Unfolds a t → h.Unfolds b u →
    (t.ordinary = true ∨ u.ordinary = true) → Same h a b → t.equal u = true
  | _, _, .single _, .single _, ⟨rfl, hv⟩, ⟨rfl, _⟩, _, same =>
    (same_iff_sameScalar fun _ _ hi _ => hv (congrArg Value.type hi)).mp same
  | _, _, .single _, .list _, ⟨rfl, hv⟩, ⟨_, rfl, _⟩, _, same => by
    cases same with
    | single _ right => exact absurd rfl right
    | _ => exact absurd rfl hv
  | _, _, .list _, .single _, ⟨_, rfl, _⟩, ⟨rfl, hv⟩, _, same => by
    cases same with
    | single left => exact absurd rfl left
    | _ => exact absurd rfl hv
  | _, _, .list ts, .list us, ⟨i, rfl, items⟩, ⟨j, rfl, items'⟩, ordinary, same => by
    by_cases hij : i = j
    · subst hij
      obtain rfl := items.unique items'
      exact items.equalEach_self (ordinary.elim id id)
    · obtain ⟨size, each⟩ := (same_lists_iff 0 hij).mp same
      refine items.equalEach_of_same items' ordinary (by simpa using size) fun v w hmem => ?_
      exact each ⟨0, v, w⟩ (mem_pairDown.mpr ⟨hmem, rfl⟩)

theorem UnfoldsEach.equalEach_of_same : ∀ {vs ws : List Value} {ts us : List Unfolding}, h.UnfoldsEach vs ts →
    h.UnfoldsEach ws us → (Unfolding.ordinaryEach ts = true ∨ Unfolding.ordinaryEach us = true) →
    vs.length = ws.length → (∀ v w, (v, w) ∈ vs.zip ws → Same h v w) → Unfolding.equalEach ts us = true
  | _, _, [], [], _, _, _, _, _ => rfl
  | _, _, [], _ :: _, rfl, ⟨_, _, rfl, _, _⟩, _, hlength, _ => nomatch hlength
  | _, _, _ :: _, [], ⟨_, _, rfl, _, _⟩, rfl, _, hlength, _ => nomatch hlength
  | _, _, _ :: _, _ :: _, ⟨_, _, rfl, first, others⟩, ⟨_, _, rfl, first', others'⟩, ordinary, hlength, each => by
    have ordinary := ordinary.imp Bool.and_eq_true_iff.mp Bool.and_eq_true_iff.mp
    have hfirst := first.equal_of_same first' (ordinary.imp And.left And.left) (each _ _ (.head _))
    have hothers := others.equalEach_of_same others' (ordinary.imp And.right And.right) (Nat.succ.inj hlength)
      fun v w hmem => each v w (.tail _ hmem)
    exact Bool.and_eq_true_iff.mpr ⟨hfirst, hothers⟩

end

mutual

/-- Values with equal trees are the same. -/
theorem Unfolds.same_of_equal : ∀ {a b : Value} {t u : Unfolding}, h.Unfolds a t → h.Unfolds b u → t.equal u = true →
    Same h a b
  | _, _, .single _, .single _, ⟨rfl, hv⟩, ⟨rfl, hw⟩, hequal => .single hv hw hequal
  | _, _, .list ts, .list us, ⟨i, rfl, items⟩, ⟨j, rfl, items'⟩, hequal => by
    obtain ⟨hlength, each⟩ := items.sameEach_of_equal items' hequal
    exact .lists (by simpa using hlength) each

theorem UnfoldsEach.sameEach_of_equal : ∀ {vs ws : List Value} {ts us : List Unfolding}, h.UnfoldsEach vs ts →
    h.UnfoldsEach ws us → Unfolding.equalEach ts us = true →
    vs.length = ws.length ∧ ∀ v w, (v, w) ∈ vs.zip ws → Same h v w
  | _, _, [], [], rfl, rfl, _ => ⟨rfl, nofun⟩
  | _, _, _ :: _, _ :: _, ⟨_, _, rfl, first, others⟩, ⟨_, _, rfl, first', others'⟩, hequal => by
    obtain ⟨hfirst, hothers⟩ := Bool.and_eq_true_iff.mp hequal
    obtain ⟨hlength, each⟩ := others.sameEach_of_equal others' hothers
    refine ⟨congrArg (· + 1) hlength, fun v w hmem => ?_⟩
    obtain hmem | hmem := List.mem_cons.mp hmem
    · cases hmem
      exact first.same_of_equal first' hfirst
    · exact each v w hmem

end

/-! ### The answer -/

/-- On lists that are not nested in themselves, the comparison comes to an end without any bound on levels. It finds two
    values equal exactly if their structure is the same, and does not depend on their order. Both values have one tree
    each, and if one of the trees has no NaN in it, the values are equal exactly if the trees are. -/
theorem Acyclic.equals_structural (acyclic : h.Acyclic) (a b : Value) : Decides h [(a, b)] (a.equals h b) ∧
    (a.equals h b = true ↔ Same h a b) ∧ a.equals h b = b.equals h a ∧
    ∃ t u, (∀ t', h.Unfolds a t' ↔ t' = t) ∧ (∀ u', h.Unfolds b u' ↔ u' = u) ∧
      (t.ordinary = true ∨ u.ordinary = true → a.equals h b = t.equal u) := by
  have roomy : ∀ a b : Value, ∀ p ∈ [(⟨h.size + 1, a, b⟩ : Pair)], h.Roomy p := fun a _ =>
    List.forall_mem_singleton.mpr (acyclic.unfolds a)
  have structural : ∀ a b : Value, a.equals h b = true ↔ Same h a b := fun a b =>
    (allEqual_iff _ (roomy a b)).trans List.forall_mem_singleton
  obtain ⟨t, unfolds, -⟩ := acyclic.unfolds a
  obtain ⟨u, unfolds', -⟩ := acyclic.unfolds b
  refine ⟨decides _ (roomy a b), structural a b, ?_, t, u, ?_, ?_, fun ordinary => ?_⟩
  · rw [Bool.eq_iff_iff, structural, structural]
    exact ⟨.symm, .symm⟩
  · exact fun t' => ⟨fun ht' => ht'.unique unfolds, fun ht' => ht' ▸ unfolds⟩
  · exact fun u' => ⟨fun hu' => hu'.unique unfolds', fun hu' => hu' ▸ unfolds'⟩
  · rw [Bool.eq_iff_iff, structural]
    exact ⟨unfolds.equal_of_same unfolds' ordinary, unfolds.same_of_equal unfolds'⟩

/-- Lists that point to older lists only are not nested in themselves. -/
theorem acyclic_of_older (older : ∀ i < h.size, ∀ j ∈ h.inner i, j < i) : h.Acyclic := by
  have path : ∀ {i j : Nat}, Relation.TransGen h.Nests i j → j < i := by
    intro i j htrans
    induction htrans with
    | single hnests => exact older i hnests.lt _ (mem_inner.mpr hnests)
    | tail _ hnests ih => exact Nat.lt_trans (older _ hnests.lt _ (mem_inner.mpr hnests)) ih
  exact fun i hcycle => Nat.lt_irrefl i (path hcycle)

/-- Two lists of one number each, a list that has the first of them in it twice, and a list that has both of them in it. -/
def twice : Heap := ⟨#[#[.int 1], #[.float 1], #[.list 0, .list 0], #[.list 0, .list 1]]⟩

/-- The two lists of lists are equal: the first element is the same list, and the second ones have equal numbers in them. -/
theorem Acyclic.equals_structural_twice : twice.Acyclic ∧ Decides twice [(.list 2, .list 3)] true ∧
    Same twice (.list 2) (.list 3) ∧ Decides twice [(.list 2, .list 0)] false ∧ ¬ Same twice (.list 2) (.list 0) := by
  have acyclic : twice.Acyclic := acyclic_of_older (by decide +kernel)
  have computes : (Value.list 2).equals twice (.list 3) = true := by decide +kernel
  have computes' : (Value.list 2).equals twice (.list 0) = false := by decide +kernel
  obtain ⟨decides, structural, -⟩ := acyclic.equals_structural (.list 2) (.list 3)
  obtain ⟨decides', structural', -⟩ := acyclic.equals_structural (.list 2) (.list 0)
  exact ⟨acyclic, computes ▸ decides, structural.mp computes, computes' ▸ decides',
    fun same => Bool.false_ne_true (computes'.symm.trans (structural'.mpr same))⟩

end Heap
end ScriptEngine
