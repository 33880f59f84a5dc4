import ScriptEngine.Proofs.Unfoldings
import ScriptEngine.Value.Render

/-! Texts of values, whole and elided. Writing a value visits a limited number of elements and opens no list below a limited
    depth, however large the value is when it is written out (`Value.tour`). What is written is either the text of the whole
    unfolding, or it says that something is left out (`Value.Outcome`); which of the two it is can be told from the size of
    the unfolding (`Value.display_elided`). -/

namespace ScriptEngine

namespace Unfolding

mutual

/-- The number of elements of all lists together. -/
def elements : Unfolding → Nat
  | single _ => 0
  | list ts => elementsEach ts

def elementsEach : List Unfolding → Nat
  | [] => 0
  | t :: ts => elements t + elementsEach ts + 1

end

mutual

/-- The text of a value, whatever its size. -/
def text (view : Value.View) (inList : Bool) : Unfolding → String
  | single v => v.scalarText view inList
  | list ts => "[" ++ textEach view ts true ++ "]"

/-- Elements, each but the first of a list with a comma before it. -/
def textEach (view : Value.View) : List Unfolding → Bool → String
  | [], _ => ""
  | t :: ts, isFirst => (if isFirst then "" else ", ") ++ text view true t ++ textEach view ts false

end

end Unfolding

namespace Value

/-! ### What is done for a text -/

/-- A text being written, and what was done for it. -/
structure Tour where
  draft : Draft
  /-- The number of elements of lists that were visited. -/
  visits : Nat
  /-- The depths of the lists that were opened. The value itself has depth zero. -/
  opened : List Nat

namespace Tour

def add (t : Tour) (s : String) : Tour := { t with draft := t.draft.add s }

/-- Visit an element: this is what the budget is spent on. -/
def visit (t : Tour) : Tour :=
  { t with draft := { t.draft with budget := t.draft.budget - 1 }, visits := t.visits + 1 }

def enter (depth : Nat) (t : Tour) : Tour := { t with opened := depth :: t.opened }

end Tour

def tourItems (item : Value → Tour → Tour) : List Value → Bool → Tour → Tour
  | [], _, t => t
  | v :: vs, isFirst, t =>
    let t := if isFirst then t else t.add ", "
    if t.draft.budget = 0 then t.add "..."
    else tourItems item vs false (item v t.visit)

/-- Write a value that stands at some depth, and keep an account of it. -/
def tour (view : View) : (levels depth : Nat) → Bool → Value → Tour → Tour
  | 0, _, _, .list _, t => t.add "[...]"
  | levels + 1, depth, _, .list id, t =>
    (tourItems (tour view levels (depth + 1) true) (view.heap.items id).toList true ((t.enter depth).add "[")).add "]"
  | _, _, inList, v, t => t.add (v.scalarText view inList)

/-- The account of the text of a value. -/
def displayTour (view : View) (v : Value) : Tour := tour view shownLevels 0 false v ⟨⟨"", shownItems⟩, 0, []⟩

section
variable {view : View}

theorem tour_single {levels depth : Nat} {inList : Bool} {v : Value} {t : Tour} (hv : v.type ≠ .list) :
    tour view levels depth inList v t = t.add (v.scalarText view inList) := by
  cases v with
  | list id => exact absurd rfl hv
  | _ => cases levels <;> rfl

theorem write_single {levels : Nat} {inList : Bool} {v : Value} {d : Draft} (hv : v.type ≠ .list) :
    write view levels inList v d = d.add (v.scalarText view inList) := by
  cases v with
  | list id => exact absurd rfl hv
  | _ => cases levels <;> rfl

theorem tourItems_draft {item : Value → Tour → Tour} {item' : Value → Draft → Draft}
    (hitem : ∀ v t, (item v t).draft = item' v t.draft) (vs : List Value) (isFirst : Bool) (t : Tour) :
    (tourItems item vs isFirst t).draft = writeItems item' vs isFirst t.draft := by
  induction vs generalizing isFirst t with
  | nil => rfl
  | cons v vs ih =>
    have hcomma : (if isFirst then t else t.add ", ").draft = if isFirst then t.draft else t.draft.add ", " := by
      cases isFirst <;> rfl
    rw [tourItems, writeItems, ← hcomma]
    generalize (if isFirst then t else t.add ", ") = t
    split
    · rfl
    · rw [ih, hitem]
      rfl

/-- The account changes nothing about the text. -/
theorem tour_draft (levels depth : Nat) (inList : Bool) (v : Value) (t : Tour) :
    (tour view levels depth inList v t).draft = write view levels inList v t.draft := by
  induction levels generalizing depth inList v t with
  | zero =>
    by_cases hv : v.type = .list
    · obtain ⟨id, rfl⟩ := v.type_eq_list.mp hv
      rfl
    · rw [tour_single hv, write_single hv]
      rfl
  | succ levels ih =>
    by_cases hv : v.type = .list
    · obtain ⟨id, rfl⟩ := v.type_eq_list.mp hv
      exact congrArg (Draft.add · "]") (tourItems_draft (ih (depth + 1) true) _ _ _)
    · rw [tour_single hv, write_single hv]
      rfl

/-- What is visited and what may still be visited are as many elements as before, and lists are opened only at depths
    below a limit. -/
structure Tour.Within (limit : Nat) (t t' : Tour) : Prop where
  visits : t'.visits + t'.draft.budget = t.visits + t.draft.budget
  opened : ∀ depth ∈ t'.opened, depth ∈ t.opened ∨ depth < limit

theorem Tour.Within.refl {limit : Nat} (t : Tour) : t.Within limit t := ⟨rfl, fun _ h => .inl h⟩

theorem Tour.Within.trans {limit : Nat} {t t' t'' : Tour} (h : t.Within limit t') (h' : t'.Within limit t'') :
    t.Within limit t'' :=
  ⟨h'.visits.trans h.visits, fun depth hdepth => (h'.opened depth hdepth).elim (h.opened depth) .inr⟩

theorem Tour.within_add {limit : Nat} (t : Tour) (s : String) : t.Within limit (t.add s) := ⟨rfl, fun _ h => .inl h⟩

theorem Tour.within_visit {limit : Nat} {t : Tour} (hbudget : t.draft.budget ≠ 0) : t.Within limit t.visit :=
  ⟨by simp only [Tour.visit]; omega, fun _ h => .inl h⟩

theorem tourItems_within {limit : Nat} {item : Value → Tour → Tour} (hitem : ∀ v (t : Tour), t.Within limit (item v t))
    (vs : List Value) (isFirst : Bool) (t : Tour) : t.Within limit (tourItems item vs isFirst t) := by
  induction vs generalizing isFirst t with
  | nil => exact .refl t
  | cons v vs ih =>
    have hcomma : t.Within limit (if isFirst then t else t.add ", ") := by
      split
      · exact .refl t
      · exact t.within_add _
    rw [tourItems]
    generalize (if isFirst then t else t.add ", ") = t' at hcomma ⊢
    split
    · exact hcomma.trans (Tour.within_add _ _)
    · rename_i hbudget
      exact ((hcomma.trans (Tour.within_visit hbudget)).trans (hitem v _)).trans (ih false _)

/-- Levels are counted down as depths are counted up, so no list is opened where the levels have run out. -/
theorem tour_within (levels depth : Nat) (inList : Bool) (v : Value) (t : Tour) :
    t.Within (depth + levels) (tour view levels depth inList v t) := by
  induction levels generalizing depth inList v t with
  | zero =>
    by_cases hv : v.type = .list
    · obtain ⟨id, rfl⟩ := v.type_eq_list.mp hv
      exact t.within_add _
    · rw [tour_single hv]
      exact t.within_add _
  | succ levels ih =>
    by_cases hv : v.type = .list
    · obtain ⟨id, rfl⟩ := v.type_eq_list.mp hv
      have entered : t.Within (depth + (levels + 1)) (t.enter depth) :=
        ⟨rfl, fun d hd => (List.mem_cons.mp hd).elim (fun heq => .inr (by omega)) .inl⟩
      have items : ∀ t : Tour, t.Within (depth + (levels + 1)) (tourItems (tour view levels (depth + 1) true) _ true t) :=
        tourItems_within (fun v t => (show depth + 1 + levels = depth + (levels + 1) by omega) ▸ ih (depth + 1) true v t)
          (view.heap.items id).toList true
      exact ((entered.trans (Tour.within_add _ _)).trans (items _)).trans (Tour.within_add _ _)
    · rw [tour_single hv]
      exact t.within_add _

/-! ### What is written -/

/-- The text says that something is left out. -/
def Elided (s : String) : Prop := ∃ front back, s = front ++ "..." ++ back

theorem Elided.before {s : String} (elided : Elided s) (front : String) : Elided (front ++ s) := by
  obtain ⟨front', back, rfl⟩ := elided
  exact ⟨front ++ front', back, by simp only [String.append_assoc]⟩

theorem Elided.behind {s : String} (elided : Elided s) (back : String) : Elided (s ++ back) := by
  obtain ⟨front, back', rfl⟩ := elided
  exact ⟨front, back' ++ back, by simp only [String.append_assoc]⟩

/-- What a value or several elements are written as: the whole text, and the budget is less by the number of elements; or a
    text in which something is left out, and then there are more levels or elements than may be written. `Unfolds t` says
    that `t` is written out what is to be written. -/
inductive Outcome {T : Type} (Unfolds : T → Prop) (levelsOf elementsOf : T → Nat) (textOf : T → String) (levels : Nat)
    (d d' : Draft) : Prop where
  | whole {t : T} (unfolds : Unfolds t) (hlevels : levelsOf t ≤ levels) (text : d'.text = d.text ++ textOf t)
      (budget : d'.budget + elementsOf t = d.budget)
  | elided {s : String} (text : d'.text = d.text ++ s) (elided : Elided s)
      (large : ∀ t, Unfolds t → levelsOf t ≤ levels → d.budget < elementsOf t)

/-- How a value is written. -/
def Writes (view : View) (levels : Nat) (inList : Bool) (v : Value) : Draft → Draft → Prop :=
  Outcome (view.heap.Unfolds v) Unfolding.levels Unfolding.elements (Unfolding.text view inList) levels

/-- How elements are written. -/
def WritesEach (view : View) (levels : Nat) (isFirst : Bool) (vs : List Value) : Draft → Draft → Prop :=
  Outcome (view.heap.UnfoldsEach vs) Unfolding.levelsEach Unfolding.elementsEach (Unfolding.textEach view · isFirst) levels

theorem Outcome.extends {T : Type} {Unfolds : T → Prop} {levelsOf elementsOf : T → Nat} {textOf : T → String} {levels : Nat}
    {d d' : Draft} (outcome : Outcome Unfolds levelsOf elementsOf textOf levels d d') : ∃ s, d'.text = d.text ++ s := by
  cases outcome with
  | whole _ _ text _ => exact ⟨_, text⟩
  | elided text _ _ => exact ⟨_, text⟩

theorem writes_single {levels : Nat} {inList : Bool} {v : Value} {d : Draft} (hv : v.type ≠ .list) :
    Writes view levels inList v d (write view levels inList v d) := by
  rw [write_single hv]
  exact .whole (.single hv) (Nat.zero_le _) rfl rfl

section
variable {levels : Nat} {v : Value} {vs : List Value} {d d₁ d₂ d₃ : Draft}

/-- An element and those behind it: if something is left out of one of them, then it is left out of the list. -/
theorem Writes.cons (first : Writes view levels true v d₁ d₂) (others : WritesEach view levels false vs d₂ d₃)
    {isFirst : Bool} (comma : d₁.text = d.text ++ if isFirst then "" else ", ") (spent : d₁.budget + 1 = d.budget) :
    WritesEach view levels isFirst (v :: vs) d d₃ := by
  cases first with
  | @whole t unfolds hlevels text budget =>
    cases others with
    | @whole ts unfolds' hlevels' text' budget' =>
      refine .whole (t := t :: ts) ⟨v, vs, rfl, unfolds, unfolds'⟩ (Nat.max_le.mpr ⟨hlevels, hlevels'⟩) ?_ ?_
      · rw [text', text, comma, Unfolding.textEach]
        simp only [String.append_assoc]
      · rw [Unfolding.elementsEach]
        omega
    | @elided s text' elided large =>
      refine .elided (text'.trans ?_) (elided.before ((if isFirst then "" else ", ") ++ t.text view true)) fun us unfolds' hus => ?_
      · rw [text, comma, String.append_assoc, String.append_assoc, String.append_assoc]
      · cases us with
        | nil => cases unfolds'
        | cons u us =>
          obtain ⟨_, _, ⟨⟩, hu, others'⟩ := unfolds'
          obtain rfl := hu.unique unfolds
          have := large us others' (Nat.max_le.mp hus).2
          rw [Unfolding.elementsEach]
          omega
  | @elided s text elided large =>
    obtain ⟨s', text'⟩ := others.extends
    refine .elided (text'.trans ?_) ((elided.before (if isFirst then "" else ", ")).behind s') fun us unfolds' hus => ?_
    · rw [text, comma, String.append_assoc, String.append_assoc, String.append_assoc]
    · cases us with
      | nil => cases unfolds'
      | cons u us =>
        obtain ⟨_, _, ⟨⟩, hu, -⟩ := unfolds'
        have := large u hu (Nat.max_le.mp hus).1
        rw [Unfolding.elementsEach]
        omega

/-- A list is written as its elements are, in brackets. -/
theorem WritesEach.list {id : Nat} (items : WritesEach view levels true (view.heap.items id).toList (d.add "[") d₁)
    (inList : Bool) : Writes view (levels + 1) inList (.list id) d (d₁.add "]") := by
  cases items with
  | @whole ts unfolds hlevels text budget =>
    refine .whole (t := .list ts) ⟨id, rfl, unfolds⟩ (Nat.succ_le_succ hlevels) ?_ budget
    rw [Draft.add, text, Unfolding.text, Draft.add]
    simp only [String.append_assoc]
  | @elided s text elided large =>
    refine .elided (s := "[" ++ s ++ "]") ?_ ((elided.before "[").behind "]") fun t unfolds hlevels => ?_
    · rw [Draft.add, text, Draft.add]
      simp only [String.append_assoc]
    · cases t with
      | single w =>
        obtain ⟨rfl, hw⟩ := unfolds
        exact absurd rfl hw
      | list ts =>
        obtain ⟨_, ⟨⟩, each⟩ := unfolds
        exact large ts each (Nat.le_of_succ_le_succ hlevels)

theorem writesEach_items (hitem : ∀ v d, Writes view levels true v d (write view levels true v d)) (isFirst : Bool) :
    WritesEach view levels isFirst vs d (writeItems (write view levels true) vs isFirst d) := by
  induction vs generalizing isFirst d with
  | nil => exact .whole (t := []) rfl (Nat.zero_le _) (String.append_empty).symm rfl
  | cons v vs ih =>
    -- The comma takes nothing from the budget, the element itself takes one.
    have hcomma : (if isFirst then d else d.add ", ") = ⟨d.text ++ (if isFirst then "" else ", "), d.budget⟩ := by
      cases isFirst
      · rfl
      · rw [if_pos rfl, if_pos rfl, String.append_empty]
    rw [writeItems, hcomma]
    dsimp only
    split
    · rename_i hbudget
      refine .elided (String.append_assoc ..) ⟨_, "", String.append_empty.symm⟩ fun ts unfolds _ => ?_
      cases ts with
      | nil => cases unfolds
      | cons t ts =>
        rw [hbudget]
        exact Nat.succ_pos _
    · rename_i hbudget
      exact (hitem v _).cons (ih false) rfl (Nat.sub_add_cancel (Nat.pos_of_ne_zero hbudget))

end

theorem writes (levels : Nat) (inList : Bool) (v : Value) (d : Draft) :
    Writes view levels inList v d (write view levels inList v d) := by
  induction levels generalizing inList v d with
  | zero =>
    by_cases hv : v.type = .list
    · obtain ⟨id, rfl⟩ := v.type_eq_list.mp hv
      refine .elided (s := "[...]") rfl ⟨"[", "]", rfl⟩ fun t unfolds hlevels => ?_
      cases t with
      | single w =>
        obtain ⟨rfl, hw⟩ := unfolds
        exact absurd rfl hw
      | list ts => cases hlevels
    · exact writes_single hv
  | succ levels ih =>
    by_cases hv : v.type = .list
    · obtain ⟨id, rfl⟩ := v.type_eq_list.mp hv
      exact (writesEach_items (ih true) true).list inList
    · exact writes_single hv

/-- What is not too large is written whole. -/
theorem display_whole {v : Value} {t : Unfolding} (unfolds : view.heap.Unfolds v t) (hlevels : t.levels ≤ shownLevels)
    (helements : t.elements ≤ shownItems) : v.display view = t.text view false := by
  have written : Writes view shownLevels false v ⟨"", shownItems⟩ _ := writes ..
  cases written with
  | whole unfolds' _ text _ =>
    obtain rfl := unfolds'.unique unfolds
    exact text.trans String.empty_append
  | elided _ _ large => exact absurd (large t unfolds hlevels) (Nat.not_lt.mpr helements)

theorem display_large {v : Value}
    (large : ∀ t, view.heap.Unfolds v t → t.levels ≤ shownLevels → shownItems < t.elements) : Elided (v.display view) := by
  have written : Writes view shownLevels false v ⟨"", shownItems⟩ _ := writes ..
  cases written with
  | @whole t unfolds hlevels text budget =>
    have hlarge := large t unfolds hlevels
    dsimp only at budget
    omega
  | elided text elided _ =>
    rw [display, text]
    exact elided.before _

/-- The text of a value, of any size and also where lists are nested in themselves. Writing it visits at most 10000 elements
    and opens no list at depth 64 or below. If the unfolded value has no more elements than that and all its lists are above
    that depth, it is written whole; if it has more, or no end, the text says that something is left out. -/
theorem display_elided (view : View) (v : Value) :
    ((displayTour view v).draft.text = v.display view ∧ (displayTour view v).visits ≤ 10000 ∧
      ∀ depth ∈ (displayTour view v).opened, depth < 64) ∧
    (∀ t, view.heap.Unfolds v t → t.elements ≤ 10000 → t.levels ≤ 64 → v.display view = t.text view false) ∧
    ((∀ t, view.heap.Unfolds v t → t.levels ≤ 64 → 10000 < t.elements) → Elided (v.display view)) := by
  have within : Tour.Within (0 + shownLevels) ⟨⟨"", shownItems⟩, 0, []⟩ (displayTour view v) := tour_within ..
  refine ⟨⟨?_, ?_, fun depth hdepth => ?_⟩, fun t unfolds helements hlevels => ?_, display_large⟩
  · rw [displayTour, tour_draft]
    rfl
  · have visits := within.visits
    dsimp only [shownItems] at visits
    omega
  · exact (within.opened depth hdepth).elim nofun id
  · exact display_whole unfolds hlevels helements

end

/-- An empty list, and lists that have the list before them in it twice. -/
def doubled (n : Nat) : Heap := ⟨(Array.range n).map fun i => if i = 0 then #[] else #[.list (i - 1), .list (i - 1)]⟩

theorem items_doubled_zero (n : Nat) : (doubled n).items 0 = #[] := by
  cases n <;> simp [Heap.items, doubled]

theorem items_doubled_succ {n i : Nat} (hi : i + 1 < n) : (doubled n).items (i + 1) = #[.list i, .list i] := by
  simp [Heap.items, doubled, hi]

/-- Written out, such a list is twice as large as the one before it. -/
theorem elements_doubled {n i : Nat} (hi : i < n) {t : Unfolding} (unfolds : (doubled n).Unfolds (.list i) t) :
    t.elements + 2 = Nat.pow 2 (i + 1) := by
  induction i generalizing t with
  | zero =>
    obtain rfl := unfolds.unique (u := .list []) ⟨0, rfl, congrArg Array.toList (items_doubled_zero n)⟩
    rfl
  | succ i ih =>
    match t, unfolds with
    | .single _, ⟨rfl, hv⟩ => exact absurd rfl hv
    | .list ts, ⟨_, rfl, each⟩ =>
      rw [items_doubled_succ hi] at each
      match ts, each with
      | [t, u], ⟨_, _, rfl, first, _, _, rfl, second, _⟩ =>
        have hfirst := ih (Nat.lt_of_succ_lt hi) first
        have hsecond := ih (Nat.lt_of_succ_lt hi) second
        have hpow : Nat.pow 2 (i + 1 + 1) = Nat.pow 2 (i + 1) * 2 := rfl
        simp only [Unfolding.elements, Unfolding.elementsEach]
        omega

/-- Fourteen lists, of which the last one is written with something left out and the second one is not. -/
theorem display_elided_doubled : Elided ((list 13).display ⟨doubled 14, fun _ => ""⟩) ∧
    (list 1).display ⟨doubled 14, fun _ => ""⟩ = "[[], []]" := by
  refine ⟨(display_elided _ _).2.2 fun t unfolds _ => ?_, ?_⟩
  · have helements : t.elements + 2 = 16384 := elements_doubled (by decide) unfolds
    omega
  · have inner : (doubled 14).Unfolds (list 0) (.list []) := ⟨0, rfl, congrArg Array.toList (items_doubled_zero 14)⟩
    have unfolds : (doubled 14).Unfolds (list 1) (.list [.list [], .list []]) := by
      refine ⟨1, rfl, ?_⟩
      rw [items_doubled_succ (by decide)]
      exact ⟨_, _, rfl, inner, _, _, rfl, inner, rfl⟩
    rw [(display_elided ⟨doubled 14, fun _ => ""⟩ (list 1)).2.1 _ unfolds (by decide) (by decide)]
    rfl

end Value
end ScriptEngine
