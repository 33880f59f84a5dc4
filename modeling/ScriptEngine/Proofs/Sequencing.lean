import ScriptEngine.Image.Decoder

/-! Steps that carry a state and may fail, one after the other. -/

namespace ScriptEngine

variable {σ ε α β : Type}

theorem except_bind_eq_ok {x : Except ε α} {f : α → Except ε β} {y : β} :
    (x >>= f) = .ok y ↔ ∃ a, x = .ok a ∧ f a = .ok y := by
  cases x with
  | error e =>
    constructor
    · intro h
      cases h
    · rintro ⟨_, h, -⟩
      cases h
  | ok a =>
    constructor
    · intro h
      exact ⟨a, rfl, h⟩
    · rintro ⟨_, h, hf⟩
      cases h
      exact hf

theorem except_toOption_eq_some {x : Except ε α} {a : α} : x.toOption = some a ↔ x = .ok a := by
  cases x with
  | error e => exact ⟨nofun, nofun⟩
  | ok b => exact ⟨fun h => congrArg Except.ok (Option.some.inj h), fun h => congrArg some (Except.ok.inj h)⟩

theorem except_mapError_eq_ok {ε' : Type} {f : ε → ε'} {x : Except ε α} {a : α} : x.mapError f = .ok a ↔ x = .ok a := by
  cases x with
  | error e => exact ⟨nofun, nofun⟩
  | ok b => exact ⟨fun h => congrArg Except.ok (Except.ok.inj h), fun h => congrArg Except.ok (Except.ok.inj h)⟩

/-- What is said of a result can be decided where there is one. -/
instance decidableForallOk {x : Except ε α} {P : α → Prop} [DecidablePred P] : Decidable (∀ a, x = .ok a → P a) :=
  match x with
  | .ok a => decidable_of_iff (P a) ⟨fun h _ ha => Except.ok.inj ha ▸ h, fun h => h a rfl⟩
  | .error _ => .isTrue fun _ h => nomatch h

theorem run_bind_eq_ok {x : StateT σ (Except ε) α} {f : α → StateT σ (Except ε) β} {s s' : σ} {y : β} :
    (x >>= f).run s = .ok (y, s') ↔ ∃ a t, x.run s = .ok (a, t) ∧ (f a).run t = .ok (y, s') := by
  rw [StateT.run_bind, except_bind_eq_ok, Prod.exists]

theorem run_pure_eq_ok {x y : α} {s s' : σ} :
    (pure x : StateT σ (Except ε) α).run s = .ok (y, s') ↔ y = x ∧ s' = s := by
  rw [StateT.run_pure]
  simp [pure, Except.pure, eq_comm]

end ScriptEngine
