import ScriptEngine.Machine

/-! Where the values of a running script come from. No operator and no intrinsic makes a list value or a
    function value of its own, apart from a new list: a property that holds of all other values (`Plain`), of
    the functions that code loads and of new lists holds of all values (`Holds`). For function values the
    property is most often that they stand for a callable of some kind (`Known`). -/

namespace ScriptEngine

variable {known : Callable → Prop} {Q : Value → Prop}

/-! ### Values and lists -/

/-- The value is neither a list nor a function. -/
def Value.Plain : Value → Prop
  | .list _ | .function _ => False
  | _ => True

/-- The value is a known function, if it is one. -/
def Value.Known (known : Callable → Prop) : Value → Prop
  | .function c => known c
  | _ => True

theorem Value.known_of_plain {v : Value} (h : v.Plain) : v.Known known := by
  cases v with
  | function c => exact absurd h id
  | _ => trivial

theorem Value.Known.mono {known' : Callable → Prop} {v : Value} (h : v.Known known) (himp : ∀ c, known c → known' c) :
    v.Known known' := by
  cases v with
  | function c => exact himp c h
  | _ => trivial

namespace Heap

/-- Every element of a list has a property. -/
def Holds (Q : Value → Prop) (h : Heap) : Prop := ∀ xs ∈ h.lists, ∀ v ∈ xs, Q v

def Known (known : Callable → Prop) (h : Heap) : Prop := ∀ xs ∈ h.lists, ∀ v ∈ xs, v.Known known

theorem holds_empty : Heap.empty.Holds Q := by
  intro xs hxs
  simp [Heap.empty] at hxs

theorem known_empty : Heap.empty.Known known := holds_empty

theorem mem_of_mem_modify {α : Type} {xs : Array α} {i : Nat} {f : α → α} {x : α} (h : x ∈ xs.modify i f) :
    x ∈ xs ∨ ∃ y ∈ xs, x = f y := by
  obtain ⟨j, hj⟩ := Array.mem_iff_getElem?.mp h
  rw [Array.getElem?_modify] at hj
  split at hj
  · obtain ⟨y, hy, rfl⟩ := Option.map_eq_some_iff.mp hj
    exact .inr ⟨y, Array.mem_of_getElem? hy, rfl⟩
  · exact .inl (Array.mem_of_getElem? hj)

variable {h : Heap}

theorem Holds.items (hk : h.Holds Q) (id : Nat) : ∀ v ∈ h.items id, Q v := by
  intro v hv
  unfold Heap.items at hv
  rw [Array.getD_eq_getD_getElem?] at hv
  cases hid : h.lists[id]? with
  | none => simp [hid] at hv
  | some xs =>
    rw [hid] at hv
    exact hk xs (Array.mem_of_getElem? hid) v hv

theorem Holds.alloc (hk : h.Holds Q) {items : Array Value} (hitems : ∀ v ∈ items, Q v) : (h.alloc items).1.Holds Q := by
  intro xs hxs
  rcases Array.mem_push.mp hxs with hxs | rfl
  · exact hk xs hxs
  · exact hitems

theorem Holds.append (hk : h.Holds Q) {v : Value} (hv : Q v) (id : Nat) : (h.append id v).Holds Q := by
  intro xs hxs
  simp only [Heap.append] at hxs
  obtain hxs | ⟨ys, hys, rfl⟩ := mem_of_mem_modify hxs
  · exact hk xs hxs
  · intro w hw
    rcases Array.mem_push.mp hw with hw | rfl
    · exact hk ys hys w hw
    · exact hv

theorem Holds.replace (hk : h.Holds Q) {v : Value} (hv : Q v) (id position : Nat) :
    (h.replace id position v).Holds Q := by
  intro xs hxs
  simp only [Heap.replace] at hxs
  obtain hxs | ⟨ys, hys, rfl⟩ := mem_of_mem_modify hxs
  · exact hk xs hxs
  · intro w hw
    rcases Array.mem_or_eq_of_mem_setIfInBounds hw with hw | rfl
    · exact hk ys hys w hw
    · exact hv

end Heap

/-! ### Operators and intrinsics -/

namespace Value

/-- What an operator made, or the elements of the list that it made, have a property. -/
def Made.Holds (Q : Value → Prop) : Made → Prop
  | .value v => Q v
  | .list items => ∀ v ∈ items, Q v

theorem except_map_eq_ok {ε α β : Type} {x : Except ε α} {f : α → β} {y : β} (h : x.map f = .ok y) :
    ∃ a, x = .ok a ∧ f a = y := by
  cases x with
  | error e => cases h
  | ok a => exact ⟨a, rfl, Except.ok.inj h⟩

theorem arithmetic_holds (plain : ∀ v : Value, v.Plain → Q v) {view : View} (hk : view.heap.Holds Q) {op : Operator}
    {a b : Value} {made : Made} (h : arithmetic view op a b = .ok made) : made.Holds Q := by
  unfold arithmetic at h
  split at h
  · obtain ⟨r, -, rfl⟩ := except_map_eq_ok h
    exact plain _ trivial
  · split at h
    · cases h
      exact plain _ trivial
    · split at h
      · cases h
        intro v hv
        rcases Array.mem_append.mp hv with hv | hv
        · exact hk.items _ v hv
        · exact hk.items _ v hv
      · cases h
        exact plain _ trivial
      · cases h
        exact plain _ trivial
      · cases h

theorem operate_holds (plain : ∀ v : Value, v.Plain → Q v) {view : View} (hk : view.heap.Holds Q) {op : Operator}
    {a b : Value} {made : Made} (h : a.operate view op b = .ok made) : made.Holds Q := by
  unfold operate at h
  split at h
  · cases h
    exact plain _ trivial
  · cases h
    exact plain _ trivial
  · obtain ⟨o, -, rfl⟩ := except_map_eq_ok h
    exact plain _ trivial
  · obtain ⟨o, -, rfl⟩ := except_map_eq_ok h
    exact plain _ trivial
  · obtain ⟨o, -, rfl⟩ := except_map_eq_ok h
    exact plain _ trivial
  · obtain ⟨o, -, rfl⟩ := except_map_eq_ok h
    exact plain _ trivial
  · exact arithmetic_holds plain hk h

theorem negate_plain {v w : Value} (h : v.negate = .ok w) : w.Plain := by
  unfold negate at h
  split at h
  · split at h
    · cases h
      trivial
    · cases h
  · cases h
    trivial
  · cases h

theorem element_holds (plain : ∀ v : Value, v.Plain → Q v) {h : Heap} (hk : h.Holds Q) {base index v : Value}
    (hv : element h base index = .ok v) : Q v := by
  unfold element at hv
  split at hv
  · obtain ⟨i, -, rfl⟩ := except_map_eq_ok hv
    rename_i id
    rw [Array.getD_eq_getD_getElem?]
    cases hi : (h.items id)[i]? with
    | none => exact plain _ trivial
    | some w => exact hk.items id w (Array.mem_of_getElem? hi)
  · obtain ⟨i, -, rfl⟩ := except_map_eq_ok hv
    exact plain _ trivial
  · cases hv

end Value

namespace Intrinsic

/-- The value in an answer has a property. -/
def Answer.Holds (Q : Value → Prop) : Answer → Prop
  | .value v => Q v
  | .push _ v => Q v
  | .print _ | .sleep _ => True

theorem cutFloat_plain {x : Float} {w : Value} (h : cutFloat x = .ok w) : w.Plain := by
  unfold cutFloat at h
  split at h
  · rename_i negative mantissa exponent _
    simp only at h
    by_cases hfits : Value.fits (if negative then -(Decimal.wholePart mantissa exponent).1 else
        (Decimal.wholePart mantissa exponent).1) = true
    · rw [if_pos hfits] at h
      cases h
      trivial
    · rw [if_neg hfits] at h
      cases h
  · cases h

theorem toInt_plain {v w : Value} (h : toInt v = .ok w) : w.Plain := by
  unfold toInt at h
  split at h
  · cases h
    trivial
  · cases h
    trivial
  · exact cutFloat_plain h
  · split at h
    · cases h
      trivial
    · cases h
  · cases h

theorem toFloat_plain {v w : Value} (h : toFloat v = .ok w) : w.Plain := by
  unfold toFloat at h
  split at h
  · cases h
    trivial
  · cases h
    trivial
  · split at h
    · cases h
      trivial
    · cases h
  · cases h

theorem length_plain {heap : Heap} {v w : Value} (h : length heap v = .ok w) : w.Plain := by
  unfold length at h
  split at h
  all_goals cases h
  all_goals trivial

theorem call_holds (plain : ∀ v : Value, v.Plain → Q v) {view : Value.View} {i : Intrinsic} {args : List Value}
    (hargs : ∀ v ∈ args, Q v) {a : Answer} (h : i.call view args = .ok a) : a.Holds Q := by
  unfold call at h
  split at h
  · cases h
    trivial
  · obtain ⟨w, hw, rfl⟩ := Value.except_map_eq_ok h
    exact plain w (length_plain hw)
  · cases h
    exact plain _ trivial
  · obtain ⟨w, hw, rfl⟩ := Value.except_map_eq_ok h
    exact plain w (toInt_plain hw)
  · obtain ⟨w, hw, rfl⟩ := Value.except_map_eq_ok h
    exact plain w (toFloat_plain hw)
  · rename_i target v
    unfold pushOnto at h
    split at h
    · obtain ⟨_, -, rfl⟩ := Value.except_map_eq_ok h
      exact hargs v (.tail _ (.head _))
    · cases h
  · unfold sleepFor at h
    split at h
    · split at h
      all_goals cases h
      trivial
    · cases h
  · cases h
  · cases h
    exact plain _ trivial
  · cases h

end Intrinsic

/-! ### Records -/

namespace Records

theorem record?_ensure (rs : Records) (needed k : Nat) : (rs.ensure needed).record? k = rs.record? k := by
  unfold ensure
  split
  · rfl
  · unfold record?
    rw [Array.getElem?_append]
    split
    · rfl
    · rename_i hk
      rw [Array.getElem?_eq_none (Nat.not_lt.mp hk), Array.getElem?_replicate]
      split <;> rfl

theorem size_ensure (rs : Records) (needed : Nat) : needed ≤ (rs.ensure needed).size := by
  unfold ensure
  split
  · assumption
  · simp only [size, Array.size_append, Array.size_replicate]
    omega

theorem record?_start (rs : Records) (index : Nat) (names : Array String) (k : Nat) :
    (rs.start index names).record? k = if k = index then some (.fresh names) else rs.record? k := by
  have hsize : index < (rs.ensure (index + 1)).places.size := size_ensure rs (index + 1)
  rw [← record?_ensure rs (index + 1)]
  unfold start record?
  rw [Array.getElem?_setIfInBounds]
  split
  · rename_i heq
    rw [if_pos heq.symm]
    rfl
  · rename_i hne
    rw [if_neg (Ne.symm hne)]

theorem record?_put (rs : Records) (record slot : Nat) (v : Value) (k : Nat) :
    (put record slot v rs).record? k = if k = record then
      (rs.record? k).map fun r => { r with values := r.values.setIfInBounds slot (some v) } else rs.record? k := by
  unfold put record?
  rw [Array.getElem?_modify]
  split
  · rename_i heq
    rw [if_pos heq.symm]
    cases rs.places[k]? with
    | none => rfl
    | some r => cases r <;> rfl
  · rename_i hne
    rw [if_neg (Ne.symm hne)]

theorem record?_withCapacity (capacity k : Nat) : (withCapacity capacity).record? k = none := by
  unfold withCapacity record?
  rw [Array.getElem?_replicate]
  split <;> rfl

/-- Assigning a slot that exists. -/
theorem store_eq_ok {rs rs' : Records} {record slot : Nat} {v : Value} (h : rs.store record slot v = .ok rs') :
    rs' = put record slot v rs := by
  unfold store at h
  split at h
  · cases h
  · split at h
    · cases h
      rfl
    · cases h

/-- Every variable that is assigned has a value with a property. -/
def Holds (Q : Value → Prop) (rs : Records) : Prop := ∀ k r, rs.record? k = some r → ∀ v, some v ∈ r.values → Q v

def Known (known : Callable → Prop) (rs : Records) : Prop :=
  ∀ k r, rs.record? k = some r → ∀ v, some v ∈ r.values → v.Known known

/-- The number of slots of each record is as it should be. -/
def Shaped (shape : Nat → Nat → Prop) (rs : Records) : Prop :=
  ∀ k r, rs.record? k = some r → shape k r.values.size

variable {rs : Records} {shape : Nat → Nat → Prop}

theorem holds_withCapacity (capacity : Nat) : (withCapacity capacity).Holds Q := by
  intro k r hr
  rw [record?_withCapacity] at hr
  cases hr

theorem Holds.ensure (h : rs.Holds Q) (needed : Nat) : (rs.ensure needed).Holds Q := by
  intro k r hr
  rw [record?_ensure] at hr
  exact h k r hr

theorem Holds.start (h : rs.Holds Q) (index : Nat) (names : Array String) : (rs.start index names).Holds Q := by
  intro k r hr v hv
  rw [record?_start] at hr
  split at hr
  · cases hr
    simp [Record.fresh] at hv
  · exact h k r hr v hv

theorem Holds.put (h : rs.Holds Q) {v : Value} (hv : Q v) (record slot : Nat) :
    (Records.put record slot v rs).Holds Q := by
  intro k r hr w hw
  rw [record?_put] at hr
  split at hr
  · obtain ⟨r₀, hr₀, rfl⟩ := Option.map_eq_some_iff.mp hr
    rcases Array.mem_or_eq_of_mem_setIfInBounds hw with hw | hw
    · exact h k r₀ hr₀ w hw
    · cases hw
      exact hv
  · exact h k r hr w hw

theorem Holds.load (h : rs.Holds Q) {record slot : Nat} {v : Value} (hload : rs.load record slot = .ok v) : Q v := by
  unfold Records.load at hload
  split at hload
  · cases hload
  · rename_i r hr
    split at hload
    · cases hload
    · cases hload
    · rename_i w hw
      cases hload
      exact h record r hr v (Array.mem_of_getElem? hw)

theorem Shaped.start (h : rs.Shaped shape) {index : Nat} {names : Array String} (hshape : shape index names.size) :
    (rs.start index names).Shaped shape := by
  intro k r hr
  rw [record?_start] at hr
  split at hr
  · rename_i heq
    cases hr
    rw [heq]
    simpa [Record.fresh] using hshape
  · exact h k r hr

theorem Shaped.put (h : rs.Shaped shape) (record slot : Nat) (v : Value) :
    (Records.put record slot v rs).Shaped shape := by
  intro k r hr
  rw [record?_put] at hr
  split at hr
  · obtain ⟨r₀, hr₀, rfl⟩ := Option.map_eq_some_iff.mp hr
    simpa using h k r₀ hr₀
  · exact h k r hr

end Records
end ScriptEngine
