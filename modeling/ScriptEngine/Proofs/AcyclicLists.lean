import ScriptEngine.Proofs.ListGraph
import ScriptEngine.Proofs.Moments

/-! Lists never form a cycle, whatever a session is given (`Reached.lists_acyclic`). A machine changes its lists
    in two ways only: it makes a new list of values that it holds, or it stores a value in a list, which it does
    not do if the list is nested in the value (`Machine.Edits`). -/

namespace ScriptEngine
open Relation

namespace Value

theorem Within.mono {v : Value} {size size' : Nat} (h : v.Within size) (hle : size ≤ size') : v.Within size' := by
  cases v with
  | list id => exact Nat.lt_of_lt_of_le h hle
  | _ => trivial

theorem within_of_plain {v : Value} {size : Nat} (h : v.Plain) : v.Within size := by
  cases v with
  | list id => cases h
  | _ => trivial

theorem position_lt {index : Value} {length position : Nat} (h : index.position length = .ok position) :
    position < length := by
  unfold Value.position at h
  split at h
  · split at h
    · rename_i hin
      cases h
      exact hin.2
    · cases h
  · cases h

end Value

namespace Intrinsic

/-- Only one intrinsic asks for a store. -/
theorem call_push {view : Value.View} {i : Intrinsic} {args : List Value} {id : Nat} {v : Value}
    (h : i.call view args = .ok (.push id v)) : i = .push ∧ args = [.list id, v] := by
  unfold call at h
  split at h
  · cases h
  · obtain ⟨w, -, hw⟩ := Value.except_map_eq_ok h
    cases hw
  · cases h
  · obtain ⟨w, -, hw⟩ := Value.except_map_eq_ok h
    cases hw
  · obtain ⟨w, -, hw⟩ := Value.except_map_eq_ok h
    cases hw
  · unfold pushOnto at h
    split at h
    · obtain ⟨_, -, hpush⟩ := Value.except_map_eq_ok h
      cases hpush
      exact ⟨rfl, rfl⟩
    · cases h
  · unfold sleepFor at h
    split at h
    · split at h
      all_goals cases h
    · cases h
  · cases h
  · cases h
  · cases h

end Intrinsic

namespace Machine

/-- Two arguments are the two topmost operands. -/
theorem take_two {operands : List Value} {n : Nat} {v w : Value} (room : n ≤ operands.length)
    (h : (operands.take n).reverse = [w, v]) : n = 2 ∧ ∃ rest, operands = v :: w :: rest := by
  have htake : operands.take n = [v, w] := by
    rw [← List.reverse_reverse (operands.take n), h]
    rfl
  have hlength : (operands.take n).length = 2 := by rw [htake]; rfl
  rw [List.length_take, Nat.min_eq_left room] at hlength
  refine ⟨hlength, operands.drop n, ?_⟩
  calc operands = operands.take n ++ operands.drop n := (List.take_append_drop n operands).symm
    _ = v :: w :: operands.drop n := by rw [htake]; rfl

/-! ### Stores -/

/-- The next instruction is to append a value to a list, or to put it in the place of one of the elements; it
    would lead to the lists `after`. -/
inductive Stores (m : Machine) : (id : Nat) → (v : Value) → (after : Heap) → Prop where
  | push {id : Nat} {v : Value} {rest : List Value} {byte argc : UInt8}
      (code : m.frame.routine.Holds m.frame.pc (.intrinsic byte argc)) (named : Intrinsic.ofId? byte = some .push)
      (two : argc.toNat = 2) (stack : m.stack.items = v :: .list id :: rest) : Stores m id v (m.heap.append id v)
  | set {id position : Nat} {v index : Value} {rest : List Value}
      (code : m.frame.routine.Holds m.frame.pc .setIndex) (stack : m.stack.items = v :: index :: .list id :: rest)
      (found : index.position (m.heap.items id).size = .ok position) : Stores m id v (m.heap.replace id position v)

/-- How the lists may be after a step. -/
inductive Edits (m : Machine) : Heap → Prop where
  | nothing : Edits m m.heap
  | list {items : Array Value}
      (held : ∀ Q : Value → Prop, (∀ v : Value, v.Plain → Q v) → m.Values Q → ∀ v ∈ items, Q v) :
      Edits m (m.heap.alloc items).1
  | store {id : Nat} {v : Value} {after : Heap} (stores : m.Stores id v after) (apart : ¬ v.Contains m.heap id) :
      Edits m after

variable {env : Env} {m m' : Machine} {id : Nat} {v : Value} {after : Heap}

/-- A list refuses a value that it is nested in, and the machine stops with the lists that it had; any other value
    is stored. -/
theorem Stores.step (stores : m.Stores id v after) (env : Env) :
    (v.Contains m.heap id ∧ ∃ m', step env m = .faulted .cyclicList m' ∧ m'.heap = m.heap) ∨
      ¬ v.Contains m.heap id ∧ ∃ m', step env m = .running m' ∧ m'.heap = after := by
  rw [← Heap.reaches_iff]
  cases stores with
  | push code named two stack =>
    have enough : ¬ m.advance.stack.height < 2 := by
      rw [m.advance.stack.height_eq, show m.advance.stack.items = m.stack.items from rfl, stack]
      simp
    have hcall : Machine.step env m = m.advance.proceed (Intrinsic.pushOnto m.heap v (.list id))
        fun a m => answer a (m.drop 2) := by
      rw [Machine.step, code]
      simp only [execute, intrinsic, named, two, if_neg enough]
      rw [show m.advance.stack.items = m.stack.items from rfl, stack]
      rfl
    rw [hcall, Intrinsic.pushOnto, Value.checkStore]
    by_cases hreaches : m.heap.reaches v id = true
    · rw [if_pos hreaches]
      exact .inl ⟨hreaches, _, rfl, rfl⟩
    · rw [if_neg hreaches]
      exact .inr ⟨hreaches, _, rfl, rfl⟩
  | @set _ position index _ code stack found =>
    have htarget : Machine.step env m = m.advance.proceed (Value.assignTarget m.heap (.list id) index v)
        fun target m => .running ((m.drop 3).replaceIn target.1 target.2 v) := by
      rw [Machine.step, code]
      simp only [execute]
      rw [show m.advance.stack.items = m.stack.items from rfl, stack]
      rfl
    rw [htarget, Value.assignTarget, found, Value.checkStore]
    by_cases hreaches : m.heap.reaches v id = true
    · rw [if_pos hreaches]
      exact .inl ⟨hreaches, _, rfl, rfl⟩
    · rw [if_neg hreaches]
      exact .inr ⟨hreaches, _, rfl, rfl⟩

/-- The lists after a store that went well are those that it leads to. -/
theorem Stores.edits (stores : m.Stores id v after) (h : Next env m m') : Edits m m'.heap := by
  obtain ⟨-, m₁, hstep, -⟩ | ⟨apart, m₁, hstep, rfl⟩ := stores.step env
  · rw [Next, hstep] at h
    cases h
  · obtain rfl := h.unique (.of_running hstep)
    exact .store stores apart

/-- An operator gives its operands' values and lists of their elements. -/
theorem edits_pushMade (base : Machine) (hheap : base.heap = m.heap) {made : Value.Made}
    (held : ∀ Q : Value → Prop, (∀ v : Value, v.Plain → Q v) → m.Values Q → made.Holds Q) :
    Edits m (base.pushMade made).heap := by
  cases made with
  | value v =>
    rw [show (base.pushMade (.value v)).heap = base.heap from rfl, hheap]
    exact .nothing
  | list items =>
    rw [show (base.pushMade (.list items)).heap = (base.heap.alloc items).1 from rfl, hheap]
    exact .list held

/-- What a step does to the lists. -/
theorem next_edits (h : Next env m m') : Edits m m'.heap := by
  obtain ⟨i, hi, does | ⟨argc, -, enters⟩ | ⟨-, leaves⟩⟩ := next_does h
  · cases does with
    | binary stack operated =>
      have hheap : (m.advance.drop 2).heap = m.heap := rfl
      exact edits_pushMade _ hheap fun Q plain hm => Value.operate_holds plain hm.heap operated
    | makeList =>
      exact .list fun Q _ hm v hv =>
        hm.stack v (List.mem_of_mem_take (List.mem_reverse.mp (List.mem_toArray.mp hv)))
    | @intrinsic _ _ _ a _ named room called answered =>
      cases a with
      | value | print | sleep =>
        cases answered
        exact .nothing
      | push id v =>
        obtain ⟨rfl, hargs⟩ := Intrinsic.call_push called
        obtain ⟨two, rest, stack⟩ := take_two room hargs
        exact Stores.edits (.push hi named two stack) h
    | @setIndex _ _ base _ _ _ stack target =>
      cases base with
      | list id =>
        obtain ⟨position, found, -⟩ := except_bind_eq_ok.mp target
        exact Stores.edits (.set hi stack found) h
      | _ => cases target
    | _ => exact .nothing
  · exact enters.heap ▸ .nothing
  · exact leaves.heap ▸ .nothing

/-! ### Runs -/

/-- Every list that a machine holds is there, and no list is nested in itself. -/
structure Listed (m : Machine) : Prop where
  within : m.Everywhere (Value.Within m.heap.size)
  acyclic : m.heap.Acyclic

theorem Edits.size (edits : Edits m after) : m.heap.size ≤ after.size := by
  cases edits with
  | nothing => exact Nat.le_refl _
  | list => simp [Heap.alloc, Heap.size]
  | store stores =>
    cases stores with
    | push => simp [Heap.append, Heap.size]
    | set => simp [Heap.replace, Heap.size]

/-- A store closes a cycle exactly if the list is nested in the value. -/
theorem Stores.acyclic_iff (listed : m.Listed) (stores : m.Stores id v after) :
    after.Acyclic ↔ ¬ v.Contains m.heap id := by
  have inside {i : Nat} (hi : Value.list i ∈ m.stack.items) : i < m.heap.size := listed.within.values.stack _ hi
  cases stores with
  | push code named two stack =>
    exact Heap.append_acyclic_iff listed.acyclic (inside (stack ▸ .tail _ (.head _)))
  | set code stack found =>
    exact Heap.replace_acyclic_iff listed.acyclic (inside (stack ▸ .tail _ (.tail _ (.head _)))) (Value.position_lt found)

theorem Edits.acyclic (listed : m.Listed) (edits : Edits m after) : after.Acyclic := by
  cases edits with
  | nothing => exact listed.acyclic
  | list held =>
    have within := listed.within.values
    exact listed.acyclic.alloc within.heap (held _ (fun v hv => Value.within_of_plain hv) within)
  | store stores apart => exact (stores.acyclic_iff listed).mpr apart

/-- A step keeps the lists free of cycles. -/
theorem Listed.next (listed : m.Listed) (h : Next env m m') : m'.Listed := by
  have edits := next_edits h
  refine ⟨?_, edits.acyclic listed⟩
  have gives (i : Instr) : Gives (Value.Within m'.heap.size) m i :=
    ⟨fun v hv => Value.within_of_plain hv, fun c _ => trivial, fun j _ _ => trivial⟩
  exact (listed.within.mono fun v hv => hv.mono edits.size).next (fun i _ => gives i) (fun grown => grown) h

end Machine

/-! ### Sessions -/

/-- The lists in memory are there, and no list is nested in itself. -/
structure Memory.Listed (m : Memory) : Prop where
  heap : m.heap.Holds (Value.Within m.heap.size)
  records : m.records.Holds (Value.Within m.heap.size)
  acyclic : m.heap.Acyclic

namespace Moment

def Listed : Moment → Prop
  | idle s _ => s.memory.Listed
  | running _ _ _ m => m.Listed

end Moment

variable {terms : Terms} {a b : Moment}

theorem Memory.listed_withCapacity (capacity : Nat) : (Memory.withCapacity capacity).Listed :=
  ⟨Heap.holds_empty, Records.holds_withCapacity capacity, Heap.Acyclic.empty⟩

/-- A submission starts with the lists that are in memory. -/
theorem Memory.Listed.launch {memory : Memory} (listed : memory.Listed) {count : Nat} {refs : ReferenceSet}
    {e : Executable} {m : Machine} (start : (memory.reserve count).launch? refs e = some m) : m.Listed := by
  have within := Machine.start_everywhere (fun v hv => Value.within_of_plain hv) listed.heap (listed.records.ensure count)
    start
  have hheap : m.heap = memory.heap := (Machine.start_memory start).1
  rw [← hheap] at within
  exact ⟨within, hheap ▸ listed.acyclic⟩

theorem Goes.listed (listed : a.Listed) (goes : Goes terms a b) : b.Listed := by
  cases goes with
  | begin _ _ _ _ start => exact Memory.Listed.launch listed start
  | step next => exact Machine.Listed.next listed next
  | stop => exact ⟨listed.within.values.heap, listed.within.values.records, listed.acyclic⟩
  | settle | share | cancel => exact listed

/-- No list is nested in itself at any moment. -/
theorem Reached.listed (reached : Reached terms a) : a.Listed := by
  induction reached with
  | start options => exact Memory.listed_withCapacity options.capacity
  | goes _ goes ih => exact goes.listed ih
  | reset => exact Memory.listed_withCapacity _

/-- Lists are in no cycle at any moment of a session. A step that fails leaves them as they were; one that would
    store a value in a list fails for a cycle exactly if the list is the value or nested in it, which is exactly if
    the store would make a cycle, and does the store otherwise. The search on which this rests gives the right
    answer on all lists, also if they are in a cycle. -/
theorem Reached.lists_acyclic (reached : Reached terms a) :
    a.heap.Acyclic ∧
    (∀ s cache env m, a = .running s cache env m →
      (∀ e m', Machine.step env m = .faulted e m' → m'.heap = m.heap) ∧
      ∀ id v after, m.Stores id v after →
        ((∃ m', Machine.step env m = .faulted .cyclicList m') ↔ v.Contains m.heap id) ∧
        (v.Contains m.heap id ↔ ¬ after.Acyclic) ∧
        (after.Acyclic → ∃ m', Machine.step env m = .running m' ∧ m'.heap = after)) ∧
    ∀ (h : Heap) (v : Value) (id : Nat), h.reaches v id = true ↔ v.Contains h id := by
  have listed := reached.listed
  refine ⟨?_, fun s cache env m hrunning => ⟨fun e m' hstep => ?_, fun id v after stores => ?_⟩, fun h v id => Heap.reaches_iff⟩
  · cases a with
    | idle => exact listed.acyclic
    | running => exact listed.acyclic
  · exact (Machine.step_end hstep rfl).1
  · subst hrunning
    have hacyclic := stores.acyclic_iff listed
    obtain ⟨contains, m₁, hstep, -⟩ | ⟨apart, m₁, hstep, hheap⟩ := stores.step env
    · refine ⟨⟨fun _ => contains, fun _ => ⟨m₁, hstep⟩⟩, ⟨fun _ h => hacyclic.mp h contains, fun _ => contains⟩, fun h => ?_⟩
      exact absurd contains (hacyclic.mp h)
    · refine ⟨⟨fun ⟨m', hfault⟩ => ?_, fun contains => absurd contains apart⟩,
        ⟨fun contains => absurd contains apart, fun h => absurd (hacyclic.mpr apart) h⟩, fun _ => ⟨m₁, hstep, hheap⟩⟩
      rw [hstep] at hfault
      cases hfault

/-- A machine that is about to push a list onto itself. -/
def Machine.pushesItself (m : Machine) : Bool :=
  match m.frame.routine.code[m.frame.pc]?, m.stack.items with
  | some (.intrinsic byte argc), .list i :: .list j :: _ => Intrinsic.ofId? byte = some .push && argc = 2 && i = j
  | _, _ => false

/-- A list that is pushed onto itself is refused. -/
theorem Reached.lists_acyclic_push : ∃ s cache env m id after, m.Stores id (.list id) after ∧
    Reached (.built fun _ => True) (.running s cache env m) ∧ ¬ after.Acyclic ∧
    ∃ m', Machine.step env m = .faulted .cyclicList m' ∧ m'.heap = m.heap := by
  have computes : ((Session.start Session.smallOptions).begin? (fun _ => True) (.start ["lib"]) "let xs = [1]; push(xs, xs)").any
      (fun (_, _, env, m) => (Machine.after? env 6 m).any Machine.pushesItself) = true := by decide +kernel
  obtain ⟨⟨s, cache, env, start⟩, hbegin, hafter⟩ := (Option.any_eq_true ..).mp computes
  obtain ⟨m, hm, hpushes⟩ := (Option.any_eq_true ..).mp hafter
  have begins := (Reached.start Session.smallOptions ["lib"]).goes (Session.begin?_goes (fun _ _ => trivial) hbegin)
  have reached := begins.trans (Machine.after?_steps hm).goes
  unfold Machine.pushesItself at hpushes
  split at hpushes
  · rename_i byte argc i j rest code stack
    simp only [Bool.and_eq_true, decide_eq_true_eq] at hpushes
    obtain ⟨⟨named, rfl⟩, rfl⟩ := hpushes
    have stores : m.Stores i (.list i) (m.heap.append i (.list i)) := .push code named rfl stack
    obtain ⟨-, steps, -⟩ := Reached.lists_acyclic reached
    obtain ⟨kept, store⟩ := steps s cache env m rfl
    obtain ⟨fails, cycle, -⟩ := store _ _ _ stores
    have contains : (Value.list i).Contains m.heap i := ⟨i, rfl, .refl⟩
    obtain ⟨m', hstep⟩ := fails.mpr contains
    exact ⟨s, cache, env, m, i, _, stores, reached, cycle.mp contains, m', hstep, kept _ _ hstep⟩
  · cases hpushes

end ScriptEngine
