import Mathlib.Data.List.Induction
import ScriptEngine.Proofs.WrittenOnce

/-! Two walks over the variables of a session. Binding looks for a name in the newest submission first, and finds
    the latest slot that was declared with it (`UnitsAccepted.ofEarlier_latest`). The listing begins with the oldest
    record and goes over what is assigned, so a name has there the value of the latest slot of that name that is
    assigned (`Records.mem_bindings`). -/

namespace ScriptEngine
open Binder (Resolution)

/-! ### Searches from the end -/

section
variable {α β : Type}

/-- A search from the end finds the last element that gives something. -/
theorem findSome?_reverse_eq_some {l : List α} {f : α → Option β} {b : β} : l.reverse.findSome? f = some b ↔
    ∃ (i : Nat) (a : α), l[i]? = some a ∧ f a = some b ∧ ∀ (j : Nat) a', l[j]? = some a' → (f a').isSome → j ≤ i := by
  rw [List.findSome?_eq_some_iff]
  constructor
  · rintro ⟨after, a, before, hsplit, hb, hafter⟩
    have hl : l = before.reverse ++ a :: after.reverse := by
      rw [← List.reverse_reverse l, hsplit]
      simp
    refine ⟨before.length, a, by simp [hl], hb, fun j a' hj hsome => Nat.not_lt.mp fun hlt => ?_⟩
    have hmem : a' ∈ after := by
      obtain ⟨k, rfl⟩ := Nat.exists_eq_add_of_lt hlt
      rw [hl, List.getElem?_append_right (by simp; omega), List.length_reverse, Nat.add_assoc, Nat.add_sub_cancel_left,
        List.getElem?_cons_succ] at hj
      exact List.mem_reverse.mp (List.mem_of_getElem? hj)
    rw [hafter a' hmem] at hsome
    cases hsome
  · rintro ⟨i, a, hi, hb, hlast⟩
    obtain ⟨hlt, rfl⟩ := List.getElem?_eq_some_iff.mp hi
    refine ⟨(l.drop (i + 1)).reverse, l[i], (l.take i).reverse, ?_, hb, fun x hx => ?_⟩
    · conv_lhs => rw [← List.take_append_drop i l, List.drop_eq_getElem_cons hlt]
      simp
    · obtain ⟨j, hj⟩ := List.mem_iff_getElem?.mp (List.mem_reverse.mp hx)
      rw [List.getElem?_drop] at hj
      rw [← Option.not_isSome_iff_eq_none]
      intro hsome
      have := hlast _ x hj hsome
      omega

theorem find?_reverse_eq_some {l : List α} {p : α → Bool} {a : α} : l.reverse.find? p = some a ↔
    ∃ i : Nat, l[i]? = some a ∧ p a = true ∧ ∀ (j : Nat) a', l[j]? = some a' → p a' = true → j ≤ i := by
  rw [List.find?_eq_findSome?_guard, findSome?_reverse_eq_some]
  constructor
  · rintro ⟨i, a', hi, ha, hlast⟩
    obtain ⟨rfl, hp⟩ := Option.guard_eq_some_iff.mp ha
    exact ⟨i, hi, hp, fun j b hj hb => hlast j b hj (by simp [hb])⟩
  · rintro ⟨i, hi, hp, hlast⟩
    exact ⟨i, a, hi, by simp [hp], fun j b hj hb => hlast j b hj (by simpa using hb)⟩

end

/-! ### The latest slot -/

/-- The latest slot with a property: later records come later, and in a record later positions. -/
structure Latest (P : Nat → Nat → Prop) (record slot : Nat) : Prop where
  holds : P record slot
  last : ∀ {r i}, P r i → r < record ∨ r = record ∧ i ≤ slot

theorem Latest.unique {P : Nat → Nat → Prop} {record slot r i : Nat} (h : Latest P record slot) (h' : Latest P r i) :
    record = r ∧ slot = i := by
  have := h.last h'.holds
  have := h'.last h.holds
  omega

/-- The latest slot with one property that also has another one. -/
theorem Latest.and {P Q : Nat → Nat → Prop} {record slot : Nat} (h : Latest P record slot) (hQ : Q record slot) :
    Latest (fun r i => P r i ∧ Q r i) record slot := ⟨⟨h.holds, hQ⟩, fun hr => h.last hr.1⟩

/-- The last element of a row that has something, in the last such row. -/
theorem latest_of_last {P : Nat → Nat → Prop} {record slot : Nat} (h : P record slot)
    (rows : ∀ {r i}, P r i → r ≤ record) (row : ∀ {i}, P record i → i ≤ slot) : Latest P record slot := by
  refine ⟨h, fun {r i} hr => ?_⟩
  rcases Nat.lt_or_eq_of_le (rows hr) with hlt | rfl
  · exact .inl hlt
  · exact .inr ⟨rfl, row hr⟩

/-! ### Declarations -/

theorem Symbols.lookup?_eq_some {s : Symbols} {name : String} {symbol : Symbol} : s.lookup? name = some symbol ↔
    ∃ i : Nat, s.entries[i]? = some symbol ∧ symbol.name = name ∧
      ∀ (j : Nat) other, s.entries[j]? = some other → other.name = name → j ≤ i := by
  simp only [lookup?, find?_reverse_eq_some, decide_eq_true_eq, Array.getElem?_toList]

/-- The slot of a record was declared with a name. -/
def Declares (units : List ScriptUnit) (name : String) (record slot : Nat) : Prop :=
  ∃ symbol, symbolAt? units record slot = some symbol ∧ symbol.name = name

section
variable {refs : ReferenceSet} {units : List ScriptUnit} {name : String} {record slot : Nat}

/-- The names that units declare say which slots are declared with a name. -/
theorem declares_iff_names : Declares units name record slot ↔
    ((units.reverse.map fun u => u.symbols.names)[record]?.bind fun names => names[slot]?) = some name := by
  rw [Declares, symbolAt?, List.getElem?_map]
  cases units.reverse[record]? with
  | none => simp
  | some u =>
    rw [Option.bind_some, Option.map_some, Option.bind_some, Symbols.names, Array.getElem?_map, Option.map_eq_some_iff]

/-- A name of an earlier submission is looked up in the newest unit that has it. -/
theorem ofEarlier_declared (name : String) (units : List ScriptUnit) :
    Resolution.ofEarlier name (units.filterMap ScriptUnit.declared?) = units.findSome? fun u =>
      u.kind.record?.bind fun r => (u.symbols.lookup? name).map fun s => .slot r s.slot s.kind := by
  induction units with
  | nil => rfl
  | cons u units ih =>
    rw [List.filterMap_cons, List.findSome?_cons, ← ih, ScriptUnit.declared?]
    cases u.kind.record? with
    | none => rfl
    | some r =>
      rw [Option.map_some, Option.bind_some]
      dsimp only
      rw [Resolution.ofEarlier]
      cases u.symbols.lookup? name with
      | none => rfl
      | some s => rfl

theorem Symbols.lookup?_isSome {s : Symbols} {i : Nat} {symbol : Symbol} (h : s.entries[i]? = some symbol)
    (hname : symbol.name = name) : (s.lookup? name).isSome := by
  rw [lookup?, List.find?_isSome]
  exact ⟨symbol, List.mem_reverse.mpr (Array.mem_toList_iff.mpr (Array.mem_of_getElem? h)), decide_eq_true hname⟩

/-- The slot that a name of an earlier submission stands for is the latest one that was declared with it. -/
theorem UnitsAccepted.ofEarlier_latest (h : UnitsAccepted refs units) {res : Resolution}
    (hres : Resolution.ofEarlier name (units.filterMap ScriptUnit.declared?) = some res) :
    ∃ record slot kind, res = .slot record slot kind ∧ Latest (Declares units name) record slot := by
  rw [ofEarlier_declared, ← List.reverse_reverse units, findSome?_reverse_eq_some] at hres
  obtain ⟨record, u, hu, hfound, hrows⟩ := hres
  have hrecord {r : Nat} {u : ScriptUnit} (hu : units.reverse[r]? = some u) :
      u.kind.record? = some r ∧ u.symbols.Ordered := by
    obtain ⟨newer, older, hsplit, rfl⟩ := split_of_getElem?_reverse hu
    exact ⟨(h _ _ _ hsplit).record, (h _ _ _ hsplit).ordered⟩
  rw [(hrecord hu).1, Option.bind_some] at hfound
  obtain ⟨symbol, hlookup, rfl⟩ := Option.map_eq_some_iff.mp hfound
  obtain ⟨slot, hslot, hname, hrow⟩ := Symbols.lookup?_eq_some.mp hlookup
  obtain rfl : symbol.slot = slot := (hrecord hu).2 slot symbol hslot
  refine ⟨record, symbol.slot, symbol.kind, rfl, latest_of_last ⟨symbol, ?_, hname⟩ ?_ ?_⟩
  · rw [symbolAt?, hu, Option.bind_some, hslot]
  · rintro r i ⟨other, hother, hothername⟩
    obtain ⟨u', hu', hi⟩ := Option.bind_eq_some_iff.mp hother
    refine hrows r u' hu' ?_
    rw [(hrecord hu').1, Option.bind_some, Option.isSome_map]
    exact Symbols.lookup?_isSome hi hothername
  · rintro i ⟨other, hother, hothername⟩
    rw [symbolAt?, hu, Option.bind_some] at hother
    exact hrow i other hother hothername

/-- A name that an accepted unit declares stands for a slot. -/
theorem UnitsAccepted.ofEarlier_isSome (h : UnitsAccepted refs units) {u : ScriptUnit} (hu : u ∈ units) {symbol : Symbol}
    (hsymbol : symbol ∈ u.symbols.entries) :
    (Resolution.ofEarlier symbol.name (units.filterMap ScriptUnit.declared?)).isSome := by
  obtain ⟨newer, older, hsplit⟩ := List.append_of_mem hu
  obtain ⟨i, hi⟩ := Array.mem_iff_getElem?.mp hsymbol
  rw [ofEarlier_declared, List.findSome?_isSome_iff]
  refine ⟨u, hu, ?_⟩
  rw [(h _ _ _ hsplit).record, Option.bind_some, Option.isSome_map]
  exact Symbols.lookup?_isSome hi rfl

end

/-! ### The listing -/

namespace Records

section
variable {name : String} {v : Value} {l : List (String × Value)}

theorem mem_keys_assign {n : String} : n ∈ (assign name v l).map Prod.fst ↔ n = name ∨ n ∈ l.map Prod.fst := by
  induction l with
  | nil => simp [assign]
  | cons p l ih =>
    obtain ⟨m, w⟩ := p
    unfold assign
    split
    · rename_i heq
      simp [heq]
    · rw [List.map_cons, List.mem_cons, ih, List.map_cons, List.mem_cons]
      exact or_left_comm

theorem nodup_assign (h : (l.map Prod.fst).Nodup) : ((assign name v l).map Prod.fst).Nodup := by
  induction l with
  | nil => simp [assign]
  | cons p l ih =>
    obtain ⟨m, w⟩ := p
    obtain ⟨hm, hl⟩ := List.nodup_cons.mp h
    unfold assign
    split
    · exact h
    · rename_i hne
      refine List.nodup_cons.mpr ⟨fun hmem => ?_, ih hl⟩
      exact (mem_keys_assign.mp hmem).elim hne hm

/-- In a listing that has each name once, an assigned name has the new value and the others keep theirs. -/
theorem mem_assign (h : (l.map Prod.fst).Nodup) {n : String} {w : Value} :
    (n, w) ∈ assign name v l ↔ if name = n then w = v else (n, w) ∈ l := by
  induction l with
  | nil =>
    rw [assign, List.mem_singleton, Prod.mk.injEq]
    split
    · rename_i heq
      simp [heq]
    · rename_i hne
      simp [Ne.symm hne]
  | cons p l ih =>
    obtain ⟨m, u⟩ := p
    obtain ⟨hm, hl⟩ := List.nodup_cons.mp h
    unfold assign
    by_cases hmn : m = name
    · subst hmn
      rw [if_pos rfl, List.mem_cons, List.mem_cons, Prod.mk.injEq, Prod.mk.injEq]
      split
      · rename_i heq
        subst heq
        have absent : (m, w) ∉ l := fun hmem => hm (List.mem_map.mpr ⟨_, hmem, rfl⟩)
        simp [absent]
      · rename_i hne
        simp [Ne.symm hne]
    · rw [if_neg hmn, List.mem_cons, ih hl, List.mem_cons, Prod.mk.injEq]
      split
      · rename_i heq
        subst heq
        simp [Ne.symm hmn]
      · rfl

/-- Names that are assigned one after the other are listed once, with the value of the last assignment. -/
theorem foldl_assign (as : List (String × Value)) :
    let listing := as.foldl (fun listing (name, v) => assign name v listing) []
    (listing.map Prod.fst).Nodup ∧ ((name, v) ∈ listing ↔ as.reverse.find? (·.1 = name) = some (name, v)) := by
  induction as using List.reverseRecOn with
  | nil => simp
  | append_singleton as a ih =>
    obtain ⟨n, w⟩ := a
    obtain ⟨nodup, hmem⟩ := ih
    simp only [List.foldl_append, List.foldl_cons, List.foldl_nil]
    refine ⟨nodup_assign nodup, ?_⟩
    rw [mem_assign nodup, hmem, List.reverse_append, List.reverse_singleton, List.singleton_append, List.find?_cons]
    by_cases heq : n = name
    · subst heq
      simp [eq_comm]
    · simp [heq]

end

def Filled (rs : Records) (record slot : Nat) : Prop := ∃ v, rs.load record slot = .ok v

/-- The slot of a record is named so, and it is assigned. -/
def Assigned (rs : Records) (name : String) (record slot : Nat) : Prop :=
  ∃ r v, rs.record? record = some r ∧ r.names[slot]? = some name ∧ r.values[slot]? = some (some v)

variable {rs : Records} {name : String} {v : Value}

/-- The assigned slots of a place, the last one first. -/
theorem find?_assigned {place : Option Record}
    (h : ((place.map Record.assigned).getD []).reverse.find? (·.1 = name) = some (name, v)) :
    ∃ r, place = some r ∧ ∃ slot : Nat, r.names[slot]? = some name ∧ r.values[slot]? = some (some v) ∧
      ∀ (i : Nat) w, r.names[i]? = some name → r.values[i]? = some (some w) → i ≤ slot := by
  cases place with
  | none => cases h
  | some r =>
    rw [Option.map_some, Option.getD_some, Record.assigned, ← List.filterMap_reverse, List.find?_filterMap] at h
    obtain ⟨⟨n, o⟩, hfind, ho⟩ := Option.bind_eq_some_iff.mp h
    obtain ⟨w, rfl, heq⟩ := Option.map_eq_some_iff.mp ho
    cases heq
    obtain ⟨slot, hslot, -, hlast⟩ := find?_reverse_eq_some.mp hfind
    obtain ⟨hname, hvalue⟩ := List.getElem?_zip_eq_some.mp hslot
    rw [Array.getElem?_toList] at hname hvalue
    refine ⟨r, rfl, slot, hname, hvalue, fun i w hi hw => hlast i (name, some w) ?_ (by simp)⟩
    rw [List.getElem?_zip_eq_some, Array.getElem?_toList, Array.getElem?_toList]
    exact ⟨hi, hw⟩

theorem mem_assigned {r : Record} {slot : Nat} (hname : r.names[slot]? = some name)
    (hvalue : r.values[slot]? = some (some v)) : (name, v) ∈ r.assigned := by
  refine List.mem_filterMap.mpr ⟨(name, some v), List.mem_of_getElem? (i := slot) ?_, rfl⟩
  rw [List.getElem?_zip_eq_some, Array.getElem?_toList, Array.getElem?_toList]
  exact ⟨hname, hvalue⟩

theorem record?_eq_some {record : Nat} {r : Record} : rs.record? record = some r ↔ rs.places.toList[record]? = some (some r) := by
  rw [record?, Option.join_eq_some_iff, Array.getElem?_toList]

/-- A name is listed with the value of the latest slot of that name that is assigned. -/
theorem listed_latest (h : (name, v) ∈ rs.bindings) :
    ∃ record slot, Latest (rs.Assigned name) record slot ∧ rs.load record slot = .ok v := by
  rw [bindings, (foldl_assign _).2, List.reverse_flatMap, List.find?_flatMap, findSome?_reverse_eq_some] at h
  obtain ⟨record, place, hplace, hfind, hrows⟩ := h
  obtain ⟨r, rfl, slot, hname, hvalue, hrow⟩ := find?_assigned hfind
  have hr := record?_eq_some.mpr hplace
  refine ⟨record, slot, latest_of_last ⟨r, v, hr, hname, hvalue⟩ ?_ ?_, load_eq_ok.mpr ⟨r, hr, hvalue⟩⟩
  · rintro k i ⟨r', w, hr', hname', hvalue'⟩
    refine hrows k (some r') (record?_eq_some.mp hr') (List.find?_isSome.mpr ⟨(name, w), ?_, decide_eq_true rfl⟩)
    exact List.mem_reverse.mpr (mem_assigned hname' hvalue')
  · rintro i ⟨r', w, hr', hname', hvalue'⟩
    obtain rfl := Option.some.inj (hr.symm.trans hr')
    exact hrow i w hname' hvalue'

/-- A name that some slot was assigned under is listed. -/
theorem Assigned.listed {record slot : Nat} (h : rs.Assigned name record slot) : ∃ v, (name, v) ∈ rs.bindings := by
  obtain ⟨r, w, hr, hname, hvalue⟩ := h
  have hmem : (name, w) ∈ rs.places.toList.flatMap fun r => (r.map Record.assigned).getD [] :=
    List.mem_flatMap.mpr ⟨some r, List.mem_of_getElem? (record?_eq_some.mp hr), mem_assigned hname hvalue⟩
  obtain ⟨⟨n, v⟩, hfind⟩ := Option.isSome_iff_exists.mp (List.find?_isSome (p := fun a : String × Value => a.1 = name).mpr
    ⟨_, List.mem_reverse.mpr hmem, decide_eq_true rfl⟩)
  obtain rfl : n = name := of_decide_eq_true (List.find?_some (p := fun a : String × Value => a.1 = name) hfind)
  exact ⟨v, (foldl_assign _).2.mpr hfind⟩

theorem mem_bindings : (name, v) ∈ rs.bindings ↔
    ∃ record slot, Latest (rs.Assigned name) record slot ∧ rs.load record slot = .ok v := by
  refine ⟨listed_latest, ?_⟩
  rintro ⟨record, slot, latest, hload⟩
  obtain ⟨w, hw⟩ := latest.holds.listed
  obtain ⟨r, i, latest', hload'⟩ := listed_latest hw
  obtain ⟨rfl, rfl⟩ := latest.unique latest'
  cases hload.symm.trans hload'
  exact hw

end Records
end ScriptEngine
