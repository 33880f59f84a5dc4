import Mathlib.Data.List.Perm.Subperm
import ScriptEngine.Proofs.ElidedTexts
import ScriptEngine.Proofs.StructuralEquality

/-! Values made of truth values, integers and lists of such values. What such a value looks like is a `Datum`, which
    knows nothing of the places of lists: a list that stands in two places is written out twice. The text of a value
    shows the whole datum if it is not too large (`Heap.Shows.repr`), and values with the same datum are equal
    (`Heap.Shows.equals`). -/

namespace ScriptEngine

inductive Datum where
  | bool (value : Bool)
  | int (value : Int64)
  | list (items : List Datum)

namespace Datum

mutual

/-- How many lists are nested in each other, at most. -/
def levels : Datum → Nat
  | bool _ | int _ => 0
  | list ds => levelsEach ds + 1

def levelsEach : List Datum → Nat
  | [] => 0
  | d :: ds => max (levels d) (levelsEach ds)

end

mutual

/-- The number of elements of all lists together. -/
def elements : Datum → Nat
  | bool _ | int _ => 0
  | list ds => elementsEach ds

def elementsEach : List Datum → Nat
  | [] => 0
  | d :: ds => elements d + elementsEach ds + 1

end

mutual

def text : Datum → String
  | bool b => if b then "true" else "false"
  | int n => toString n
  | list ds => "[" ++ textEach ds true ++ "]"

/-- Elements, each but the first of a list with a comma before it. -/
def textEach : List Datum → Bool → String
  | [], _ => ""
  | d :: ds, isFirst => (if isFirst then "" else ", ") ++ text d ++ textEach ds false

end

/-- A value that is written out like this has the measures and the text of the datum. -/
structure Fits (d : Datum) (t : Unfolding) : Prop where
  levels : t.levels = d.levels
  elements : t.elements = d.elements
  text : ∀ view inList, t.text view inList = d.text

structure FitsEach (ds : List Datum) (ts : List Unfolding) : Prop where
  levels : Unfolding.levelsEach ts = levelsEach ds
  elements : Unfolding.elementsEach ts = elementsEach ds
  text : ∀ view isFirst, Unfolding.textEach view ts isFirst = textEach ds isFirst

end Datum

namespace Heap

mutual

/-- The value looks like this. All lists that belong to it are there. -/
def Shows (h : Heap) (v : Value) : Datum → Prop
  | .bool b => v = .bool b
  | .int n => v = .int n
  | .list ds => ∃ id, v = .list id ∧ id < h.size ∧ ShowsEach h (h.items id).toList ds

def ShowsEach (h : Heap) (vs : List Value) : List Datum → Prop
  | [] => vs = []
  | d :: ds => ∃ v rest, vs = v :: rest ∧ Shows h v d ∧ ShowsEach h rest ds

end

/-! ### Heaps that grow -/

/-- All lists of a heap are in another one, which may have more of them. -/
def Keeps (h h' : Heap) : Prop := h.size ≤ h'.size ∧ ∀ id < h.size, h'.items id = h.items id

variable {h h' : Heap} {v w : Value} {d d' : Datum}

theorem Keeps.refl (h : Heap) : h.Keeps h := ⟨Nat.le_refl _, fun _ _ => rfl⟩

theorem Keeps.trans {h'' : Heap} (first : h.Keeps h') (second : h'.Keeps h'') : h.Keeps h'' :=
  ⟨Nat.le_trans first.1 second.1, fun id hid =>
    (second.2 id (Nat.lt_of_lt_of_le hid first.1)).trans (first.2 id hid)⟩

theorem size_alloc (h : Heap) (items : Array Value) : (h.alloc items).1.size = h.size + 1 := Array.size_push items

theorem keeps_alloc (h : Heap) (items : Array Value) : h.Keeps (h.alloc items).1 := by
  refine ⟨?_, fun id hid => ?_⟩
  · rw [size_alloc]
    exact Nat.le_succ _
  · rw [items_alloc, if_neg (Nat.ne_of_lt hid)]

mutual

theorem Shows.mono (keeps : h.Keeps h') : ∀ {v : Value} {d : Datum}, h.Shows v d → h'.Shows v d
  | _, .bool _, shows | _, .int _, shows => shows
  | _, .list _, ⟨id, hv, hid, items⟩ =>
    ⟨id, hv, Nat.lt_of_lt_of_le hid keeps.1, (keeps.2 id hid).symm ▸ ShowsEach.mono keeps items⟩

theorem ShowsEach.mono (keeps : h.Keeps h') : ∀ {vs : List Value} {ds : List Datum}, h.ShowsEach vs ds → h'.ShowsEach vs ds
  | _, [], shows => shows
  | _, _ :: _, ⟨v, rest, hvs, first, others⟩ => ⟨v, rest, hvs, first.mono keeps, others.mono keeps⟩

end

/-! ### Depth -/

mutual

theorem Shows.unique : ∀ {v : Value} {d d' : Datum}, h.Shows v d → h.Shows v d' → d = d'
  | _, .bool _, .bool _, rfl, same => by cases same; rfl
  | _, .int _, .int _, rfl, same => by cases same; rfl
  | _, .list _, .list _, ⟨_, rfl, _, items⟩, ⟨_, rfl, _, items'⟩ => by rw [items.unique items']
  | _, .bool _, .int _, rfl, other | _, .int _, .bool _, rfl, other => nomatch other
  | _, .bool _, .list _, rfl, ⟨_, other, _⟩ | _, .int _, .list _, rfl, ⟨_, other, _⟩ => nomatch other
  | _, .list _, .bool _, ⟨_, rfl, _⟩, other | _, .list _, .int _, ⟨_, rfl, _⟩, other => nomatch other

theorem ShowsEach.unique : ∀ {vs : List Value} {ds ds' : List Datum}, h.ShowsEach vs ds → h.ShowsEach vs ds' → ds = ds'
  | _, [], [], _, _ => rfl
  | _, [], _ :: _, rfl, ⟨_, _, other, _⟩ => nomatch other
  | _, _ :: _, [], ⟨_, _, rfl, _⟩, other => nomatch other
  | _, _ :: _, _ :: _, ⟨_, _, rfl, first, others⟩, ⟨_, _, same, first', others'⟩ => by
    cases same
    rw [first.unique first', others.unique others']

end

/-- Distinct lists, each of which looks like a datum with at most so many levels. -/
def Nested (h : Heap) (levels : Nat) (ids : List Nat) : Prop :=
  ids.Nodup ∧ ∀ id ∈ ids, id < h.size ∧ ∃ d, h.Shows (.list id) d ∧ d.levels ≤ levels

theorem Nested.mono {levels levels' : Nat} {ids : List Nat} (nested : h.Nested levels ids) (hle : levels ≤ levels') :
    h.Nested levels' ids := by
  refine ⟨nested.1, fun id hid => ?_⟩
  obtain ⟨hlt, d, shows, hlevels⟩ := nested.2 id hid
  exact ⟨hlt, d, shows, Nat.le_trans hlevels hle⟩

mutual

/-- A value with so many levels has as many lists in it: those of fewer levels are other lists. -/
theorem Shows.nested : ∀ {v : Value} {d : Datum}, h.Shows v d → ∃ ids, ids.length = d.levels ∧ h.Nested d.levels ids
  | _, .bool _, _ | _, .int _, _ => ⟨[], rfl, .nil, fun _ hid => nomatch hid⟩
  | _, .list ds, ⟨id, hv, hlt, items⟩ => by
    obtain ⟨ids, hlength, nested⟩ := items.nested
    have whole : h.Shows (.list id) (.list ds) := ⟨id, rfl, hlt, items⟩
    refine ⟨id :: ids, congrArg (· + 1) hlength, List.nodup_cons.mpr ⟨fun hid => ?_, nested.1⟩, ?_⟩
    · obtain ⟨-, d, shows, hlevels⟩ := nested.2 id hid
      rw [shows.unique whole, Datum.levels] at hlevels
      exact Nat.not_succ_le_self _ hlevels
    · exact List.forall_mem_cons.mpr ⟨⟨hlt, _, whole, Nat.le_refl _⟩, (nested.mono (Nat.le_succ _)).2⟩

theorem ShowsEach.nested : ∀ {vs : List Value} {ds : List Datum}, h.ShowsEach vs ds →
    ∃ ids, ids.length = Datum.levelsEach ds ∧ h.Nested (Datum.levelsEach ds) ids
  | _, [], _ => ⟨[], rfl, .nil, fun _ hid => nomatch hid⟩
  | _, d :: ds, ⟨_, _, _, first, others⟩ => by
    rw [Datum.levelsEach]
    rcases Nat.le_total d.levels (Datum.levelsEach ds) with hle | hle
    · rw [Nat.max_eq_right hle]
      exact others.nested
    · rw [Nat.max_eq_left hle]
      exact first.nested

end

/-- No value has more levels than there are lists. -/
theorem Shows.levels_le (shows : h.Shows v d) : d.levels ≤ h.size := by
  obtain ⟨ids, hlength, distinct, there⟩ := shows.nested
  have hsub : ids ⊆ List.range h.size := fun id hid => List.mem_range.mpr (there id hid).1
  calc d.levels = ids.length := hlength.symm
    _ ≤ (List.range h.size).length := (List.Nodup.subperm distinct hsub).length_le
    _ = h.size := List.length_range

/-! ### Equality and texts -/

mutual

/-- Values that look the same have the same structure. -/
theorem Shows.same : ∀ {v w : Value} {d : Datum}, h.Shows v d → h.Shows w d → Value.Same h v w
  | _, _, .bool _, rfl, rfl | _, _, .int _, rfl, rfl => .single nofun nofun (decide_eq_true rfl)
  | _, _, .list _, ⟨_, rfl, _, items⟩, ⟨_, rfl, _, items'⟩ =>
    .lists (items.same items').1 (items.same items').2

theorem ShowsEach.same : ∀ {vs ws : List Value} {ds : List Datum}, h.ShowsEach vs ds → h.ShowsEach ws ds →
    vs.length = ws.length ∧ ∀ v w, (v, w) ∈ vs.zip ws → Value.Same h v w
  | _, _, [], rfl, rfl => ⟨rfl, nofun⟩
  | _, _, _ :: _, ⟨_, _, rfl, first, others⟩, ⟨_, _, rfl, first', others'⟩ => by
    obtain ⟨hlength, each⟩ := others.same others'
    refine ⟨congrArg (· + 1) hlength, fun v w hmem => ?_⟩
    obtain hmem | hmem := List.mem_cons.mp hmem
    · cases hmem
      exact first.same first'
    · exact each v w hmem

end

mutual

/-- A value that looks like a datum, written out, is as large and has the same text. -/
theorem Shows.unfolds : ∀ {v : Value} {d : Datum}, h.Shows v d → ∃ t, h.Unfolds v t ∧ d.Fits t
  | _, .bool _, rfl | _, .int _, rfl => ⟨_, .single nofun, rfl, rfl, fun _ _ => rfl⟩
  | _, .list _, ⟨id, hv, _, items⟩ => by
    obtain ⟨ts, unfolds, levels, elements, text⟩ := items.unfolds
    exact ⟨.list ts, ⟨id, hv, unfolds⟩, congrArg (· + 1) levels, elements, fun view _ => congrArg ("[" ++ · ++ "]") (text view true)⟩

theorem ShowsEach.unfolds : ∀ {vs : List Value} {ds : List Datum}, h.ShowsEach vs ds →
    ∃ ts, h.UnfoldsEach vs ts ∧ Datum.FitsEach ds ts
  | _, [], rfl => ⟨[], rfl, rfl, rfl, fun _ _ => rfl⟩
  | _, d :: ds, ⟨v, rest, rfl, first, others⟩ => by
    obtain ⟨t, unfolds, fits⟩ := first.unfolds
    obtain ⟨ts, unfoldsEach, fitsEach⟩ := others.unfolds
    refine ⟨t :: ts, ⟨v, rest, rfl, unfolds, unfoldsEach⟩, ?_, ?_, fun view isFirst => ?_⟩
    · rw [Unfolding.levelsEach, fits.levels, fitsEach.levels, Datum.levelsEach]
    · rw [Unfolding.elementsEach, fits.elements, fitsEach.elements, Datum.elementsEach]
    · rw [Unfolding.textEach, fits.text, fitsEach.text, Datum.textEach]

end

/-- Values that look the same are equal. -/
theorem Shows.equals (left : h.Shows v d) (right : h.Shows w d) : v.equals h w = true := by
  have roomy : h.Roomy ⟨h.size + 1, v, w⟩ := by
    obtain ⟨t, unfolds, fits⟩ := left.unfolds
    exact ⟨t, unfolds, fits.levels ▸ Nat.le_succ_of_le left.levels_le⟩
  exact (allEqual_iff _ (List.forall_mem_singleton.mpr roomy)).mpr (List.forall_mem_singleton.mpr (left.same right))

/-- The text of a value shows the whole datum, if there are levels and elements enough. -/
theorem Shows.repr {view : Value.View} (shows : view.heap.Shows v d) (hlevels : d.levels ≤ Value.shownLevels)
    (helements : d.elements ≤ Value.shownItems) : v.repr view = d.text := by
  obtain ⟨t, unfolds, fits⟩ := shows.unfolds
  have written : v.display view = d.text :=
    (Value.display_whole unfolds (fits.levels ▸ hlevels) (fits.elements ▸ helements)).trans (fits.text view false)
  cases d with
  | bool b | int n =>
    obtain rfl : v = _ := shows
    exact written
  | list ds =>
    obtain ⟨id, rfl, -⟩ := shows
    exact written

end Heap
end ScriptEngine
