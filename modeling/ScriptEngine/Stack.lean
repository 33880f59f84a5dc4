/-! Stacks that know their height, so that asking for it does not walk the stack. -/

namespace ScriptEngine

structure Stack (α : Type) where
  /-- The top first. -/
  items : List α
  height : Nat
  height_eq : height = items.length

namespace Stack

variable {α : Type}

def empty : Stack α := ⟨[], 0, rfl⟩

def push (x : α) (s : Stack α) : Stack α := ⟨x :: s.items, s.height + 1, by simp [s.height_eq]⟩

def drop (n : Nat) (s : Stack α) : Stack α := ⟨s.items.drop n, s.height - n, by simp [s.height_eq]⟩

def cutTo (height : Nat) (s : Stack α) : Stack α := s.drop (s.height - height)

@[ext]
theorem ext {s t : Stack α} (hitems : s.items = t.items) : s = t := by
  cases s with
  | mk items height hs =>
    cases t with
    | mk items' height' ht =>
      simp only at hitems
      subst hitems hs ht
      rfl

@[simp]
theorem items_empty : (empty : Stack α).items = [] := rfl

@[simp]
theorem items_push (x : α) (s : Stack α) : (s.push x).items = x :: s.items := rfl

@[simp]
theorem items_drop (n : Nat) (s : Stack α) : (s.drop n).items = s.items.drop n := rfl

theorem items_cutTo (height : Nat) (s : Stack α) :
    (s.cutTo height).items = s.items.drop (s.items.length - height) := by
  rw [cutTo, items_drop, s.height_eq]

/-- Cutting back to a height that the stack reaches leaves that height. -/
theorem height_cutTo {height : Nat} {s : Stack α} (hreach : height ≤ s.height) :
    (s.cutTo height).height = height := by
  simp only [cutTo, drop]
  omega

end Stack
end ScriptEngine
