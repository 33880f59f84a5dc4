import ScriptEngine.Proofs.BundledCode
import ScriptEngine.Proofs.NumberFunctions

/-! The bundled library for numbers computes what it says (`Library.math_computes`). Its source is compiled to the code of the
    functions in `Library.Math.functions` (`Library.Math.loads`), and in every program that code does what these functions
    mean. -/

namespace ScriptEngine.Library
open Evaluator Lowering Machine

namespace Math

/-- The library as a bound unit. -/
def program : Bound.Program := ⟨functions, #[], #[], [], none, none⟩

theorem compilesTo_mathSource : compilesTo "math" program mathSource.toList = true := compilesTo_lines (by decide +kernel)

/-- What the library exports. -/
def offers : List Export :=
  [⟨"abs", 1, 0⟩, ⟨"min", 2, 1⟩, ⟨"max", 2, 2⟩, ⟨"clamp", 3, 3⟩, ⟨"pow", 2, 4⟩, ⟨"gcd", 2, 5⟩, ⟨"sign", 1, 6⟩]

/-- The library is built and loaded, and then it has the code of its functions, and exports all of them. -/
theorem loads (location : String) : ∃ bytes code, build "math" mathSource = .ok bytes ∧
    ofBytes location bytes = .ok (ofModule location code) ∧ (∀ w, Carries w code program) ∧ exportsOf code = offers :=
  loads_of_compilesTo compilesTo_mathSource (by decide +kernel) (by decide) rfl location

/-! ### Calls -/

/-- What `gcd` knows of the functions that it calls: `abs` gives absolute values. -/
def absolute (home : Home) : Value → List Value → Store → Evaluator.Outcome Value
  | .function c, [.int n], s => if c = ⟨home, 0⟩ ∧ n ≠ Int64.minValue then .done (.int (magnitude n)) s else .dry
  | _, _, _ => .dry

/-- The scope of a function of the library in any program. -/
def scope (env : Env) (home : Home) : Scope := ⟨.ofNames env.program fun _ => none, home, program, 0, absolute home⟩

section
variable {env : Env} {home : Home} {code : CodeModule} (hcode : env.program.module? home = some code)
  (carries : ∀ w, Carries w code program)
include hcode carries

/-- A call of `abs`. -/
theorem abs_reaches {a : Activation} {loop : Option LoopTargets} {pending : Bool} {pc : Nat} {argc : UInt8} {n : Int64}
    {stack : List Value} {s : Store} {m : Machine} (hn : n ≠ Int64.minValue) (room : a.callers.height + 1 < env.maxDepth)
    (hi : a.routine.Holds pc (.call argc)) (hargc : argc.toNat = 1)
    (h : Poised a pc (.int n :: .function ⟨home, 0⟩ :: stack) s m) :
    Reaches env a loop pending stack 0 m (fun v => Poised a (pc + 1) (v :: stack)) (.done (.int (magnitude n)) s) := by
  obtain ⟨r, hr, stands⟩ := routine carries 0 rfl
  let b := a.into (pc + 1) s.locals ⟨home, 0⟩ code r stack.length
  have suits : Suits env (.callFree (.ofNames env.program fun _ => none) home program) b :=
    (carries _).suits_callFree (a := b) (World.view_ofNames _ _)
  have locals : entryLocals r [.int n] = #[.int n] := by
    rw [entryLocals, stands.locals]
    rfl
  have body : b.ComesTo env stack { s with locals := #[.int n] } 0 _ := comesTo_block suits stands rfl rfl
  rw [show Evaluator.block _ _ _ = _ from abs_evaluates _ hn, ← locals] at body
  have h : Poised a pc ([Value.int n].reverse ++ .function ⟨home, 0⟩ :: stack) s m := h
  exact (h.calls hi hargc hcode hr stands.arity room body).mono (Nat.zero_le _)

theorem suits {b : Activation} (hhome : b.callee.home = home) (hb : b.code = code) (room : b.callers.height + 1 < env.maxDepth) :
    Suits env (scope env home) b := by
  subst hhome hb
  refine (carries _).suits_scope (World.view_ofNames _ _) fun {loop pending pc argc callee args stack s m} hi hargc h => ?_
  unfold absolute
  split
  · split
    · rename_i c n s hn
      obtain ⟨rfl, hn⟩ := hn
      exact abs_reaches hcode carries hn room hi hargc h
    · exact ⟨0, _, .refl _, Nat.zero_le 0⟩
  · exact ⟨0, _, .refl _, Nat.zero_le 0⟩

section
variable {m : Machine} (room : m.callers.height + 2 < env.maxDepth)
include room

/-- A function of the library that ends with a loop comes to what its body comes to with any number of rounds. -/
theorem comesTo (index : Nat) {f : Bound.Func} (hf : functions[index]? = some f) (tidy : Bound.Tidy.block false f.body = true)
    {first : List Bound.Stmt} {condition : Bound.Expr} {round : Bound.Block} {line : Nat} {last : Bound.Tail}
    (hbody : f.body = .mk (first ++ [.loop condition round line]) last) (rounds : Nat) (args rest : List Value) {s : Store}
    (hs : s = { m.store with locals := args.toArray ++ Array.replicate (f.locals - args.length) .unit }) :
    ∃ r, code.functions[index]? = some r ∧ r.arity.toNat = f.arity ∧
      (m.activation.into (m.frame.pc + 1) m.frame.locals ⟨home, index⟩ code r rest.length).ComesTo env rest
        { m.store with locals := entryLocals r args } 0 (looped (scope env home) first condition round last rounds s) := by
  obtain ⟨r, hr, stands⟩ := routine carries index hf
  let callee := m.activation.into (m.frame.pc + 1) m.frame.locals ⟨home, index⟩ code r rest.length
  have suits : Suits env (scope env home) callee := suits hcode carries (b := callee) rfl rfl room
  have body : callee.ComesTo env rest s (min rounds 0) _ := comesTo_looped suits stands tidy rfl hbody rounds
  rw [Nat.min_zero] at body
  refine ⟨r, hr, stands.arity, ?_⟩
  rw [entryLocals, stands.locals, ← hs]
  exact body

variable {rest : List Value} (hi : m.frame.routine.Holds m.frame.pc (.call 2))
include hi

/-- A call of `gcd`. -/
theorem gcd_gives {a b : Int64} (ha : a ≠ Int64.minValue) (hb : b ≠ Int64.minValue)
    (hstack : m.stack.items = .int b :: .int a :: .function ⟨home, 5⟩ :: rest) :
    ∃ g : Int64, g.toInt = Int.gcd a.toInt b.toInt ∧ CallGives env m 2 (.int g) := by
  obtain ⟨n, g, locals, hg, evaluated⟩ := @gcd_evaluates (scope env home) m.store a b ha hb
    (show 0 < functions.length by decide) fun n s hn => if_pos ⟨rfl, hn⟩
  obtain ⟨r, hr, harity, body⟩ := comesTo hcode carries room 5 rfl rfl rfl n [.int a, .int b] rest
    (rfl : gcdStore m.store (.int a) (.int b) .unit .unit .unit = _)
  rw [evaluated] at body
  have hstack : m.stack.items = [Value.int a, .int b].reverse ++ .function ⟨home, 5⟩ :: rest := hstack
  exact ⟨g, hg, callGives_of_body hstack hi rfl hcode hr harity (by omega) body⟩

section
variable {base exp : Int64} (hexp : 0 ≤ exp.toInt)
  (hstack : m.stack.items = .int exp :: .int base :: .function ⟨home, 4⟩ :: rest)
include hexp hstack

/-- A call of `pow` whose power fits. -/
theorem pow_gives {p : Int64} (hp : p.toInt = base.toInt ^ exp.toInt.toNat) : CallGives env m 2 (.int p) := by
  obtain ⟨n, locals, evaluated⟩ := @pow_evaluates (scope env home) m.store base exp hexp p hp
  obtain ⟨r, hr, harity, body⟩ := comesTo hcode carries room 4 rfl rfl rfl n [.int base, .int exp] rest
    (rfl : powEntry m.store base exp = _)
  rw [evaluated] at body
  have hstack : m.stack.items = [Value.int base, .int exp].reverse ++ .function ⟨home, 4⟩ :: rest := hstack
  exact callGives_of_body hstack hi rfl hcode hr harity (by omega) body

/-- A call of `pow` whose power does not fit. -/
theorem pow_fails (large : ∀ p : Int64, p.toInt ≠ base.toInt ^ exp.toInt.toNat) : CallFails env m (.overflow .mul) := by
  obtain ⟨n, t, evaluated⟩ := @pow_evaluates_overflow (scope env home) m.store base exp hexp large
  obtain ⟨r, hr, harity, body⟩ := comesTo hcode carries room 4 rfl rfl rfl n [.int base, .int exp] rest
    (rfl : powEntry m.store base exp = _)
  rw [evaluated] at body
  have hstack : m.stack.items = [Value.int base, .int exp].reverse ++ .function ⟨home, 4⟩ :: rest := hstack
  exact callFails_of_body hstack hi rfl hcode hr harity (by omega) body

end
end
end
end Math

/-! ### The loaded library -/

theorem bundledAt_math : bundledAt? (bundledLocation "math") = some ("math", mathSource) := bundledAt_of_source rfl

/-- The bundled library for numbers is built and loaded, and its functions compute what they say, called from any machine
    with room for two more calls. `gcd` gives the greatest common divisor of all integers but the least one. `pow` gives the
    power with any exponent that is not negative, if the power fits in 64 bits, and fails with an overflow exactly if it does
    not. -/
theorem math_computes : ∃ (l : Library) (gcd pow : Export),
    (∀ earlier, Cache.fetchLibrary Supply.bundled earlier (bundledLocation "math") = .ok l) ∧
    l.export? "gcd" = some gcd ∧ l.export? "pow" = some pow ∧
    ∀ (env : Env) (i : Nat) (m : Machine) (rest : List Value), env.program.references[i]? = some l →
      m.depth + 2 ≤ env.maxDepth → m.frame.routine.Holds m.frame.pc (.call 2) →
      (∀ a b : Int64, a ≠ Int64.minValue → b ≠ Int64.minValue →
        m.stack.items = .int b :: .int a :: .function ⟨.library i, gcd.index⟩ :: rest →
        ∃ g : Int64, g.toInt = Int.gcd a.toInt b.toInt ∧ CallGives env m 2 (.int g)) ∧
      (∀ base exp : Int64, 0 ≤ exp.toInt →
        m.stack.items = .int exp :: .int base :: .function ⟨.library i, pow.index⟩ :: rest →
        (∀ p : Int64, p.toInt = base.toInt ^ exp.toInt.toNat → CallGives env m 2 (.int p)) ∧
        (CallFails env m (.overflow .mul) ↔ ∀ p : Int64, p.toInt ≠ base.toInt ^ exp.toInt.toNat)) := by
  obtain ⟨bytes, code, hbuild, hload, carries, hexports⟩ := Math.loads (bundledLocation "math")
  have found (name : String) : (ofModule (bundledLocation "math") code).export? name = Math.offers.find? (·.name = name) := by
    rw [export?, ofModule, hexports]
  refine ⟨_, ⟨"gcd", 2, 5⟩, ⟨"pow", 2, 4⟩, fun earlier => ?_, (found _).trans (by decide), (found _).trans (by decide), ?_⟩
  · rw [fetchLibrary_bundled earlier bundledAt_math hbuild, hload]
  · intro env i m rest hl depth hi
    have hcode : env.program.module? (.library i) = some code := by rw [Program.module?, hl]; rfl
    have room : m.callers.height + 2 < env.maxDepth := depth
    refine ⟨fun a b ha hb hstack => Math.gcd_gives hcode carries room hi ha hb hstack, fun base exp hexp hstack =>
      ⟨fun p hp => Math.pow_gives hcode carries room hi hexp hstack hp, fun fails p hp => ?_,
        fun large => Math.pow_fails hcode carries room hi hexp hstack large⟩⟩
    exact (Math.pow_gives hcode carries room hi hexp hstack hp).not_fails fails

/-- The greatest common divisor of -12 and 18, and powers at the bounds of 64 bits, where there is room for just two
    calls. -/
theorem math_computes_small : ∃ (l : Library) (gcd pow : Export),
    (∀ earlier, Cache.fetchLibrary Supply.bundled earlier (bundledLocation "math") = .ok l) ∧
    l.export? "gcd" = some gcd ∧ l.export? "pow" = some pow ∧
    CallGives ⟨⟨#[l], #[]⟩, 3⟩ (alone (.call 2) [.int 18, .int (-12), .function ⟨.library 0, gcd.index⟩]) 2 (.int 6) ∧
    CallGives ⟨⟨#[l], #[]⟩, 3⟩ (alone (.call 2) [.int 63, .int (-2), .function ⟨.library 0, pow.index⟩]) 2
      (.int Int64.minValue) ∧
    CallFails ⟨⟨#[l], #[]⟩, 3⟩ (alone (.call 2) [.int 63, .int 2, .function ⟨.library 0, pow.index⟩]) (.overflow .mul) := by
  obtain ⟨l, gcd, pow, hfetch, hgcd, hpow, computes⟩ := math_computes
  have called (operands : List Value) := computes ⟨⟨#[l], #[]⟩, 3⟩ 0 (alone (.call 2) operands) [] rfl (Nat.le_refl 3) (alone_holds ..)
  refine ⟨l, gcd, pow, hfetch, hgcd, hpow, ?_, ?_, ?_⟩
  · obtain ⟨g, hg, gives⟩ := (called _).1 (-12) 18 (by decide) (by decide) (alone_stack ..)
    obtain rfl : g = 6 := Int64.toInt_inj.mp (hg.trans (by decide))
    exact gives
  · exact ((called _).2 (-2) 63 (by decide) (alone_stack ..)).1 _ (by decide)
  · refine ((called _).2 2 63 (by decide) (alone_stack ..)).2.mpr fun p hp => ?_
    have fits := p.toInt_lt
    have large : (2 : Int64).toInt ^ (63 : Int64).toInt.toNat = 9223372036854775808 := by decide
    omega

end ScriptEngine.Library
