import ScriptEngine.Proofs.GuardedCode

/-! A variable that cannot change keeps the value that it was given (`Reached.written_once`). The entry routine of
    a submission runs at most once, as the outermost function of its submission: no value stands for it. So what
    only it does is done at most once, if no jump leads back (`Frame.Tops`). -/

namespace ScriptEngine
open Relation

/-! ### Records -/

namespace Records

/-- The slots that may not be assigned again have the values that they had, and there are as many records. -/
structure Fixed (may : Nat → Nat → Prop) (rs rs' : Records) : Prop where
  load : ∀ {w j : Nat} {v : Value}, ¬ may w j → rs.load w j = .ok v → rs'.load w j = .ok v
  record : ∀ {k : Nat}, (rs.record? k).isSome → (rs'.record? k).isSome

variable {may : Nat → Nat → Prop} {rs rs' : Records} {w j w' j' : Nat} {v v' : Value}

theorem Fixed.refl (rs : Records) : rs.Fixed may rs := ⟨fun _ h => h, fun h => h⟩

theorem load_eq_ok : rs.load w j = .ok v ↔ ∃ r, rs.record? w = some r ∧ r.values[j]? = some (some v) := by
  unfold load
  constructor
  · intro h
    split at h
    · cases h
    · rename_i r hr
      split at h
      · cases h
      · cases h
      · rename_i hv
        cases h
        exact ⟨r, hr, hv⟩
  · rintro ⟨r, hr, hv⟩
    rw [hr]
    simp only [hv]

theorem isSome_record?_put : ((put w j v rs).record? w').isSome = (rs.record? w').isSome := by
  rw [record?_put]
  split
  · exact Option.isSome_map
  · rfl

/-- Assigning a slot leaves the others as they are. -/
theorem load_put_of_ne (hne : ¬ (w' = w ∧ j' = j)) : (put w j v rs).load w' j' = .ok v' ↔ rs.load w' j' = .ok v' := by
  rw [load_eq_ok, load_eq_ok, record?_put]
  split
  · rename_i heq
    have hslot : ¬ j = j' := fun h => hne ⟨heq, h.symm⟩
    constructor
    · rintro ⟨r', hr', hv⟩
      obtain ⟨r, hr, rfl⟩ := Option.map_eq_some_iff.mp hr'
      rw [Array.getElem?_setIfInBounds, if_neg hslot] at hv
      exact ⟨r, hr, hv⟩
    · rintro ⟨r, hr, hv⟩
      refine ⟨_, Option.map_eq_some_iff.mpr ⟨r, hr, rfl⟩, ?_⟩
      rw [Array.getElem?_setIfInBounds, if_neg hslot]
      exact hv
  · exact Iff.rfl

theorem not_load_fresh {names : Array String} (h : rs.record? w = some (.fresh names)) : rs.load w j ≠ .ok v := by
  rw [Ne, load_eq_ok]
  rintro ⟨r, hr, hv⟩
  obtain rfl := Option.some.inj (h.symm.trans hr)
  rw [Record.fresh, Array.getElem?_replicate] at hv
  split at hv
  · cases hv
  · cases hv

theorem not_load_missing (h : rs.record? w = none) : rs.load w j ≠ .ok v := by
  rw [Ne, load_eq_ok]
  rintro ⟨r, hr, -⟩
  rw [h] at hr
  cases hr

/-- Starting a record that is not there leaves the others as they are. -/
theorem load_start (missing : rs.record? w = none) {names : Array String} :
    (rs.start w names).load w' j' = .ok v' ↔ rs.load w' j' = .ok v' := by
  by_cases heq : w' = w
  · rw [heq]
    have hfresh : (rs.start w names).record? w = some (.fresh names) := by rw [record?_start, if_pos rfl]
    exact ⟨fun h => absurd h (not_load_fresh hfresh), fun h => absurd h (not_load_missing missing)⟩
  · rw [load_eq_ok, load_eq_ok, record?_start, if_neg heq]

theorem Fixed.put (h : may w j) (v : Value) : rs.Fixed may (put w j v rs) := by
  refine ⟨fun {w' j' v'} hmay hload => (load_put_of_ne ?_).mpr hload, fun {k} hk => isSome_record?_put.trans hk⟩
  rintro ⟨rfl, rfl⟩
  exact hmay h

theorem Fixed.start (missing : rs.record? w = none) (names : Array String) : rs.Fixed may (rs.start w names) := by
  refine ⟨fun _ hload => (load_start missing).mpr hload, fun {k} hk => ?_⟩
  rw [record?_start]
  split
  · rfl
  · exact hk

end Records

/-! ### Frames -/

/-- A function that values can stand for: any but the entry routine of a submission. -/
def Program.Inner (p : Program) (c : Callable) : Prop :=
  match c.home with
  | .library _ => True
  | .fragment k => ∃ code, p.fragments[k]? = some code ∧ c.index + 1 < code.functions.size

/-- The frame of the entry routine of the submission with the record `own`. What must not be assigned again and is
    assigned already, the frame has passed, and likewise the instruction that opens the record. -/
structure Frame.Tops (may : Nat → Nat → Prop) (own : Nat) (records : Records) (f : Frame) : Prop where
  entry : f.routine.Entry may own
  record : f.code.record? = some own
  passed : ∀ {pc : Nat} {w : UInt32} {j : UInt16} {v : Value}, f.routine.Holds pc (.storeSlot w j) →
    ¬ may w.toNat j.toNat → records.load w.toNat j.toNat = .ok v → pc < f.pc
  opened : (records.record? own).isSome → 0 < f.pc

/-- The outermost frame has one property, and all others another one. -/
def Outermost (inner bottom : Frame → Prop) : Frame → List Frame → Prop
  | f, [] => bottom f
  | f, caller :: callers => inner f ∧ Outermost inner bottom caller callers

theorem Outermost.mono {inner bottom bottom' : Frame → Prop} (himp : ∀ f, bottom f → bottom' f) {f : Frame}
    {callers : List Frame} (h : Outermost inner bottom f callers) : Outermost inner bottom' f callers := by
  induction callers generalizing f with
  | nil => exact himp f h
  | cons caller callers ih => exact ⟨h.1, ih h.2⟩

namespace Machine

variable {env : Env} {m m' : Machine} {may : Nat → Nat → Prop} {own : Nat} {i : Instr} {records : Records}

/-- Where tame code assigns, what must not change is as it was. -/
theorem Assigns.plain (assigns : m.Assigns i records) (hi : m.frame.routine.Holds m.frame.pc i)
    (plain : m.frame.routine.Plain may) : m.records.Fixed may records ∧
      (∀ {w j : Nat} {v : Value}, ¬ may w j → records.load w j = .ok v → m.records.load w j = .ok v) ∧
      ∀ {k : Nat}, (records.record? k).isSome → (m.records.record? k).isSome := by
  cases assigns with
  | nothing => exact ⟨.refl _, fun _ h => h, fun h => h⟩
  | record own => exact absurd hi (plain.opens _)
  | slot top stored =>
    obtain rfl := Records.store_eq_ok stored
    have hmay := plain.stores _ _ _ hi
    refine ⟨.put hmay _, fun hne h => (Records.load_put_of_ne ?_).mp h, fun h => Records.isSome_record?_put.symm.trans h⟩
    rintro ⟨rfl, rfl⟩
    exact hne hmay

/-- In the entry routine the record is opened while it is not there. -/
theorem tops_missing (tops : m.frame.Tops may own m.records) (hi : m.frame.routine.Holds m.frame.pc .openRecord) :
    m.records.record? own = none := by
  have hzero := tops.entry.opens _ hi
  rw [← Option.not_isSome_iff_eq_none]
  intro h
  have := tops.opened h
  omega

theorem Assigns.tops_fixed (assigns : m.Assigns i records) (hi : m.frame.routine.Holds m.frame.pc i)
    (tops : m.frame.Tops may own m.records) : m.records.Fixed may records := by
  cases assigns with
  | nothing => exact .refl _
  | record hown =>
    obtain rfl := Option.some.inj (tops.record.symm.trans hown)
    exact .start (tops_missing tops hi) _
  | @slot w j v rest _ top stored =>
    obtain rfl := Records.store_eq_ok stored
    by_cases hmay : may w.toNat j.toNat
    · exact .put hmay v
    · -- What must not be assigned again is not assigned here yet.
      refine ⟨fun {w' j' v'} hne hload => (Records.load_put_of_ne ?_).mpr hload,
        fun {k} hk => Records.isSome_record?_put.trans hk⟩
      rintro ⟨rfl, rfl⟩
      exact Nat.lt_irrefl _ (tops.passed hi hmay hload)

/-- The entry routine goes on, having assigned what its instruction assigns. -/
theorem Assigns.tops (assigns : m.Assigns i records) (hi : m.frame.routine.Holds m.frame.pc i)
    (tops : m.frame.Tops may own m.records) {pc : Nat} {locals : Array Value} (hpc : pc ∈ i.exits m.frame.pc) :
    Frame.Tops may own records { m.frame with pc := pc, locals := locals } := by
  have later {a : Nat} (final : m.frame.routine.Final a) (ha : a < m.frame.pc) : a < pc := final _ _ ha hi pc hpc
  refine ⟨tops.entry, tops.record, fun {a w j v} ha hmay hload => ?_, fun h => ?_⟩
  · have before (hload : m.records.load w.toNat j.toNat = .ok v) : a < pc :=
      later (tops.entry.fixedFinal a w j ha hmay) (tops.passed ha hmay hload)
    cases assigns with
    | nothing => exact before hload
    | record hown =>
      obtain rfl := Option.some.inj (tops.record.symm.trans hown)
      exact before ((Records.load_start (tops_missing tops hi)).mp hload)
    | @slot w' j' v' rest _ top stored =>
      obtain rfl := Records.store_eq_ok stored
      by_cases hsame : w.toNat = w'.toNat ∧ j.toNat = j'.toNat
      · -- The slot is assigned just now, at the one address where it is.
        obtain rfl := UInt32.toNat_inj.mp hsame.1
        obtain rfl := UInt16.toNat_inj.mp hsame.2
        rw [tops.entry.once _ _ _ _ ha hi hmay, List.mem_singleton.mp hpc]
        exact Nat.lt_succ_self _
      · exact before ((Records.load_put_of_ne hsame).mp hload)
  · have before (h : (m.records.record? own).isSome) : 0 < pc := later tops.entry.opensFinal (tops.opened h)
    cases assigns with
    | nothing => exact before h
    | record hown =>
      rw [List.mem_singleton.mp hpc]
      exact Nat.succ_pos _
    | slot top stored =>
      obtain rfl := Records.store_eq_ok stored
      exact before (Records.isSome_record?_put.symm.trans h)

/-! ### Steps -/

/-- The machine of the submission with the record `own`: its outermost frame is that of the entry routine, and no
    value stands for an entry routine. Later records are not there. -/
structure Orderly (p : Program) (may : Nat → Nat → Prop) (own : Nat) (m : Machine) : Prop where
  placed : m.Placed p
  values : m.Everywhere (Value.Known p.Inner)
  frames : Outermost (fun f => p.Inner f.callee) (Frame.Tops may own m.records) m.frame m.callers.items
  missing : ∀ k, own < k → m.records.record? k = none

/-- A function that values can stand for has plain code. -/
theorem plain_of_inner {p : Program} (guarded : p.Guarded may) {f : Frame} (placed : f.Placed p) (inner : p.Inner f.callee) :
    f.routine.Plain may := by
  have hcode := placed.code
  unfold Program.Inner at inner
  cases hhome : f.callee.home with
  | library k =>
    rw [hhome] at hcode
    obtain ⟨l, hl, heq⟩ := Option.map_eq_some_iff.mp hcode
    exact guarded.libraries (Array.mem_of_getElem? hl) (heq ▸ Array.mem_of_getElem? placed.routine)
  | fragment k =>
    simp only [hhome] at hcode inner
    obtain ⟨code, hget, hlt⟩ := inner
    obtain rfl := Option.some.inj (hcode.symm.trans hget)
    exact (guarded.fragments hget).plain placed.routine hlt

/-- No instruction loads an entry routine as a value. -/
theorem gives_inner {p : Program} (guarded : p.Guarded may) (placed : m.frame.Placed p)
    (hi : m.frame.routine.Holds m.frame.pc i) : Gives (Value.Known p.Inner) m i := by
  refine ⟨fun v hv => Value.known_of_plain hv, fun c hc => ?_, fun j hj _ => ?_⟩
  · obtain ⟨k, hk⟩ := guarded.imports placed.code hc
    show p.Inner c
    rw [Program.Inner, hk]
    trivial
  · subst hj
    have hcode := placed.code
    show p.Inner ⟨m.frame.callee.home, j.toNat⟩
    unfold Program.Inner
    cases hhome : m.frame.callee.home with
    | library k => trivial
    | fragment k =>
      rw [hhome] at hcode
      exact ⟨_, hcode, (guarded.fragments hcode).loads (Array.mem_of_getElem? placed.routine) hi⟩

/-- After the instruction that opens a record, the record is there. -/
theorem opened_next {record : Nat} (hi : m.frame.routine.Holds m.frame.pc .openRecord)
    (hrecord : m.frame.code.record? = some record) (next : Next env m m') : (m'.records.record? record).isSome := by
  obtain ⟨i, hi', hexec⟩ := next_execute next
  obtain rfl : Instr.openRecord = i := Option.some.inj (hi.symm.trans hi')
  have hown : m.advance.frame.code.record? = some record := hrecord
  simp only [execute, hown] at hexec
  cases hexec
  show ((m.records.start record _).record? record).isSome
  rw [Records.record?_start, if_pos rfl]
  rfl

/-- The instruction that opens a record is executed while the record is not there. -/
theorem Orderly.missing_of_opens {p : Program} (guarded : p.Guarded may) (h : m.Orderly p may own)
    (hi : m.frame.routine.Holds m.frame.pc .openRecord) :
    m.frame.code.record? = some own ∧ m.records.record? own = none := by
  have frames := h.frames
  cases hcallers : m.callers.items with
  | nil =>
    rw [hcallers] at frames
    exact ⟨frames.record, tops_missing frames hi⟩
  | cons caller callers =>
    rw [hcallers] at frames
    exact absurd hi ((plain_of_inner guarded h.placed.frame frames.1).opens _)

/-- What a step writes, and how its frames are after it. -/
theorem Orderly.next (guarded : env.program.Guarded may) (h : m.Orderly env.program may own) (next : Next env m m') :
    m'.Orderly env.program may own ∧ m.records.Fixed may m'.records := by
  obtain ⟨i, hi, assigns⟩ := next_assigns next
  obtain ⟨i', hi', shape⟩ := next_inv next
  obtain rfl : i = i' := Option.some.inj (hi.symm.trans hi')
  have values := h.values.next (fun j hj => gives_inner guarded h.placed.frame hj) (fun _ => trivial) next
  have placed := h.placed.next next
  have frames := h.frames
  -- The records afterwards, and the frame of the function that goes on, if it is at `pc`.
  have goesOn : m.records.Fixed may m'.records ∧ (∀ k, own < k → m'.records.record? k = none) ∧
      ∀ pc locals, pc ∈ i.exits m.frame.pc → Outermost (fun f => env.program.Inner f.callee)
        (Frame.Tops may own m'.records) { m.frame with pc := pc, locals := locals } m.callers.items := by
    cases hcallers : m.callers.items with
    | nil =>
      rw [hcallers] at frames
      refine ⟨assigns.tops_fixed hi frames, fun k hk => ?_, fun pc locals hpc => assigns.tops hi frames hpc⟩
      have hmissing := h.missing k hk
      generalize m'.records = records at assigns ⊢
      cases assigns with
      | nothing => exact hmissing
      | record hown =>
        obtain rfl := Option.some.inj (frames.record.symm.trans hown)
        rw [Records.record?_start, if_neg (Nat.ne_of_gt hk)]
        exact hmissing
      | slot top stored =>
        obtain rfl := Records.store_eq_ok stored
        rw [← Option.not_isSome_iff_eq_none] at hmissing ⊢
        rwa [Records.isSome_record?_put]
    | cons caller callers =>
      rw [hcallers] at frames
      obtain ⟨fixed, back, few⟩ := assigns.plain hi (plain_of_inner guarded h.placed.frame frames.1)
      refine ⟨fixed, fun k hk => ?_, fun pc locals _ => ⟨frames.1, frames.2.mono fun f tops => ?_⟩⟩
      · have hmissing := h.missing k hk
        rw [← Option.not_isSome_iff_eq_none] at hmissing ⊢
        exact fun hsome => hmissing (few hsome)
      · exact ⟨tops.entry, tops.record, fun ha hmay hload => tops.passed ha hmay (back hmay hload),
          fun hsome => tops.opened (few hsome)⟩
  obtain ⟨fixed, missing, goesOn⟩ := goesOn
  refine ⟨⟨placed, values, ?_, missing⟩, fixed⟩
  rcases shape with moves | ⟨argc, rfl, enters⟩ | ⟨rfl, leaves⟩
  · obtain ⟨pc, locals, hframe, hpc, -⟩ := moves.frame
    rw [hframe, moves.callers]
    exact goesOn pc locals hpc
  · obtain ⟨args, c, code, routine, -, hstack, -, -, -, hframe⟩ := enters.frame
    have hc : env.program.Inner c := by
      refine h.values.values.stack (.function c) ?_
      rw [hstack]
      exact List.mem_append_right _ (.head _)
    rw [hframe, enters.callers]
    exact ⟨hc, goesOn (m.frame.pc + 1) m.frame.locals (List.mem_singleton.mpr rfl)⟩
  · rw [leaves.records]
    rw [leaves.callers] at frames
    exact frames.2

end Machine

/-! ### Sessions -/

/-- The memory of a session in which so many submissions were accepted. -/
structure Memory.Orderly (count : Nat) (memory : Memory) : Prop where
  heap : memory.heap.Known memory.program.Inner
  records : memory.records.Known memory.program.Inner
  missing : ∀ k, count ≤ k → memory.records.record? k = none

/-- No value stands for an entry routine, and records are those of accepted submissions. -/
def Moment.Orderly : Moment → Prop
  | idle s _ => s.memory.Orderly s.chain.units.length
  | running s _ env m => ∃ own, s.chain.units.length = own + 1 ∧ m.Orderly env.program (Changeable s.chain.units) own

theorem Memory.orderly_withCapacity (count capacity : Nat) : (Memory.withCapacity capacity).Orderly count :=
  ⟨Heap.known_empty, Records.holds_withCapacity (Q := Value.Known _) capacity, fun k _ => Records.record?_withCapacity capacity k⟩

theorem Program.Inner.push {p : Program} {c : Callable} (h : p.Inner c) (refs : ReferenceSet) (code : CodeModule) :
    Program.Inner ⟨refs, p.fragments.push code⟩ c := by
  unfold Inner at h ⊢
  cases hhome : c.home with
  | library i => trivial
  | fragment k =>
    simp only [hhome] at h ⊢
    obtain ⟨code', hcode, hlt⟩ := h
    exact ⟨code', getElem?_push_of_some hcode, hlt⟩

/-- The entry routine of a submission begins, and nothing is there that only it assigns. -/
theorem Memory.Orderly.launch {memory : Memory} {count own : Nat} (orderly : memory.Orderly own)
    {refs : ReferenceSet} {e : Executable} {m : Machine}
    {may : Nat → Nat → Prop} (guarded : e.code.Guarded may own) (hentry : e.code.functions.size = e.entry + 1)
    (start : (memory.reserve count).launch? refs e = some m) :
    m.Orderly ⟨refs, memory.program.fragments.push e.code⟩ may own := by
  have known {v : Value} (hv : v.Known memory.program.Inner) :
      v.Known (Program.Inner ⟨refs, memory.program.fragments.push e.code⟩) := by
    cases v with
    | function c => exact Program.Inner.push hv refs e.code
    | _ => trivial
  have values := Machine.start_everywhere (Q := Value.Known (Program.Inner ⟨refs, memory.program.fragments.push e.code⟩))
    (fun v hv => Value.known_of_plain hv) (fun xs hxs v hv => known (orderly.heap xs hxs v hv))
    (Records.Holds.ensure (fun k r hr v hv => known (orderly.records k r hr v hv)) count) start
  have hrecords : m.records = memory.records.ensure count := (Machine.start_memory start).2
  have missing (k : Nat) (hk : own ≤ k) : m.records.record? k = none := by
    rw [hrecords, Records.record?_ensure]
    exact orderly.missing k hk
  refine ⟨Machine.start_placed start, values, ?_, fun k hk => missing k (Nat.le_of_lt hk)⟩
  have hmissing := missing own (Nat.le_refl own)
  obtain ⟨code, hcode, start⟩ := Option.bind_eq_some_iff.mp start
  obtain ⟨r, hr, start⟩ := Option.bind_eq_some_iff.mp start
  obtain rfl : e.code = code := Option.some.inj (Array.getElem?_push_size.symm.trans hcode)
  have entry : r.Entry may own := guarded.entry hr hentry.symm
  cases start
  refine ⟨entry, guarded.record, fun {pc w j v} hi hmay hload => ?_, fun h => ?_⟩
  · rw [entry.fixed pc w j hi hmay] at hload
    exact absurd hload (Records.not_load_missing hmissing)
  · rw [hmissing] at h
    cases h

variable {good : ScriptUnit → Prop} {a b : Moment}

/-- The code of a running submission and of all those before it is guarded. -/
theorem Session.Underway.guarded {s : Session} {cache : Cache} {env : Machine.Env} {m : Machine}
    (sound : s.Underway good cache env.program m) (accepted : Moment.Accepted (.running s cache env m)) :
    env.program.Guarded (Changeable s.chain.units) :=
  sound.linked.guarded (sound.built _ sound.references) accepted.2

theorem Goes.orderly (sound : a.Sound good) (accepted : a.Accepted) (orderly : a.Orderly)
    (goes : Goes (.built good) a b) : b.Orderly := by
  have soundAfter := goes.sound sound
  have acceptedAfter := goes.accepted accepted
  cases goes with
  | @begin s cache cache' supply cancelled source refs c m allowed loaded compiled unit start =>
    refine ⟨s.chain.units.length, rfl, ?_⟩
    have guarded := Session.Underway.guarded soundAfter acceptedAfter
    have hsize : s.memory.program.fragments.size = s.chain.units.length := Session.Sound.linked sound |>.size
    have hcode : (s.memory.program.fragments.push c.executable.code)[s.chain.units.length]? = some c.executable.code := by
      rw [← hsize]
      exact Array.getElem?_push_size
    obtain ⟨follows, -⟩ := Chain.compile_follows compiled unit.1
    obtain ⟨image, emitted, hloaded⟩ := follows.loaded
    have hentry := (Chain.compile_accepted compiled).entry_last emitted hloaded (Chain.compile_entry compiled unit.1)
    exact Memory.Orderly.launch orderly (guarded.fragments hcode) hentry start
  | step next =>
    obtain ⟨own, hlength, orderly⟩ := orderly
    exact ⟨own, hlength, (orderly.next (Session.Underway.guarded sound accepted) next).1⟩
  | stop =>
    obtain ⟨own, hlength, orderly⟩ := orderly
    exact ⟨orderly.values.values.heap, orderly.values.values.records,
      fun k hk => orderly.missing k (Nat.lt_of_lt_of_le (Nat.lt_succ_self own) (Nat.le_trans (Nat.le_of_eq hlength.symm) hk))⟩
  | settle | share | cancel => exact orderly

theorem Reached.orderly (reached : Reached (.built good) a) : a.Orderly := by
  induction reached with
  | start options => exact Memory.orderly_withCapacity 0 options.capacity
  | goes reached goes ih => exact goes.orderly reached.sound reached.accepted ih
  | reset => exact Memory.orderly_withCapacity 0 _

/-- From one moment to a later one, units stay, and so do records and the values of slots that cannot change. -/
structure Moment.Keeps (a b : Moment) : Prop where
  units : ∃ newer, b.units = newer ++ a.units
  load : ∀ {record slot : Nat} {symbol : Symbol} {v : Value}, symbolAt? a.units record slot = some symbol →
    symbol.kind ≠ .variable true → a.records.load record slot = .ok v → b.records.load record slot = .ok v
  record : ∀ {k : Nat}, (a.records.record? k).isSome → (b.records.record? k).isSome

namespace Moment

theorem Keeps.refl (a : Moment) : a.Keeps a := ⟨⟨[], rfl⟩, fun _ _ h => h, fun h => h⟩

theorem Keeps.trans {c : Moment} (h : a.Keeps b) (h' : b.Keeps c) : a.Keeps c := by
  obtain ⟨newer, hunits⟩ := h.units
  obtain ⟨newer', hunits'⟩ := h'.units
  refine ⟨⟨newer' ++ newer, by rw [hunits', hunits, List.append_assoc]⟩, fun hsymbol hkind hload => ?_,
    fun hk => h'.record (h.record hk)⟩
  refine h'.load ?_ hkind (h.load hsymbol hkind hload)
  rw [hunits]
  exact symbolAt?_append newer hsymbol

theorem keeps_of_fixed (newer : List ScriptUnit) (hunits : b.units = newer ++ a.units)
    (fixed : a.records.Fixed (Changeable a.units) b.records) : a.Keeps b := by
  refine ⟨⟨newer, hunits⟩, fun {record slot symbol v} hsymbol hkind hload => fixed.load ?_ hload, fixed.record⟩
  rintro ⟨symbol', hsymbol', hkind'⟩
  obtain rfl := Option.some.inj (hsymbol.symm.trans hsymbol')
  exact hkind hkind'

end Moment

theorem Records.Fixed.ensure {may : Nat → Nat → Prop} (rs : Records) (needed : Nat) : rs.Fixed may (rs.ensure needed) := by
  refine ⟨fun _ hload => ?_, fun hk => ?_⟩
  · rw [load_eq_ok, record?_ensure]
    exact load_eq_ok.mp hload
  · rw [record?_ensure]
    exact hk

theorem Goes.keeps (sound : a.Sound good) (accepted : a.Accepted) (orderly : a.Orderly)
    (goes : Goes (.built good) a b) : a.Keeps b := by
  cases goes with
  | @begin s cache cache' supply cancelled source refs c m allowed loaded compiled unit start =>
    refine Moment.keeps_of_fixed [c.unit] rfl ?_
    have hrecords := (Machine.start_memory start).2
    show s.memory.records.Fixed _ m.records
    rw [hrecords]
    exact Records.Fixed.ensure ..
  | step next =>
    obtain ⟨own, -, orderly⟩ := orderly
    exact Moment.keeps_of_fixed [] rfl (orderly.next (Session.Underway.guarded sound accepted) next).2
  | stop | settle | share | cancel => exact Moment.keeps_of_fixed [] rfl (.refl _)

theorem Reached.keeps (reached : Reached (.built good) a) (path : ReflTransGen (Goes (.built good)) a b) : a.Keeps b := by
  induction path with
  | refl => exact .refl a
  | tail path goes ih =>
    have reached := reached.trans path
    exact ih.trans (goes.keeps reached.sound reached.accepted reached.orderly)

/-- The machine is about to open a record. -/
def Moment.Opens (record : Nat) : Moment → Prop
  | idle .. => False
  | running _ _ _ m => m.frame.routine.Holds m.frame.pc .openRecord ∧ m.frame.code.record? = some record

/-- A record is opened while it is not there. -/
theorem Reached.missing_of_opens (reached : Reached (.built good) a) {record : Nat} (opens : a.Opens record) :
    a.records.record? record = none := by
  have sound := reached.sound
  have accepted := reached.accepted
  have orderly := reached.orderly
  cases a with
  | idle => exact opens.elim
  | running s cache env m =>
    obtain ⟨own, -, orderly⟩ := orderly
    obtain ⟨hi, hrecord⟩ := opens
    obtain ⟨hown, hmissing⟩ := orderly.missing_of_opens (Session.Underway.guarded sound accepted) hi
    obtain rfl := Option.some.inj (hrecord.symm.trans hown)
    exact hmissing

/-- The slot of a function or of a variable that cannot change keeps its value once it has one, whatever runs later and
    wherever it is stopped; and once a record was opened, it is never opened again. -/
theorem Reached.written_once (reached : Reached (.built good) a) :
    (∀ b, ReflTransGen (Goes (.built good)) a b → ∀ record slot symbol v, symbolAt? a.units record slot = some symbol →
      symbol.kind ≠ .variable true → a.records.load record slot = .ok v → b.records.load record slot = .ok v) ∧
    ∀ s cache env m m' record, a = .running s cache env m → a.Opens record → Machine.Next env m m' →
      ∀ b, ReflTransGen (Goes (.built good)) (.running s cache env m') b → ¬ b.Opens record := by
  refine ⟨fun b path record slot symbol v hsymbol hkind hload => (reached.keeps path).load hsymbol hkind hload, ?_⟩
  intro s cache env m m' record ha opens next b path hopens
  subst ha
  have there : (m'.records.record? record).isSome := Machine.opened_next opens.1 opens.2 next
  have reached' := reached.goes (.step next)
  have hmissing := (reached'.trans path).missing_of_opens hopens
  have hkept := (reached'.keeps path).record there
  rw [hmissing] at hkept
  cases hkept

/-- A machine that is about to open a record, as a test. -/
def Machine.opens? (m : Machine) : Option Nat :=
  if m.frame.routine.code[m.frame.pc]? = some .openRecord then m.frame.code.record? else none

theorem Machine.opens?_eq_some {s : Session} {cache : Cache} {env : Machine.Env} {m : Machine} {record : Nat}
    (h : m.opens? = some record) : Moment.Opens record (.running s cache env m) := by
  unfold opens? at h
  split at h
  · rename_i hi
    exact ⟨hi, h⟩
  · cases h

/-- The number in a slot. -/
def Records.number? (rs : Records) (record slot : Nat) : Option Int64 :=
  match rs.load record slot with
  | .ok (.int n) => some n
  | _ => none

theorem Records.number?_eq_some {rs : Records} {record slot : Nat} {n : Int64} (h : rs.number? record slot = some n) :
    rs.load record slot = .ok (.int n) := by
  unfold number? at h
  split at h
  · rename_i hload
    cases h
    exact hload
  · cases h

/-- Two submissions declare the same name: the first one opens its record and assigns the name, and while the second
    one opens another record, the first value is still there. -/
theorem Reached.written_once_redeclared : ∃ s cache env start opened done next,
    Reached (.built fun _ => True) (.running s cache env start) ∧
    Moment.Opens 0 (.running s cache env start) ∧ Machine.Next env start opened ∧
    ReflTransGen (Goes (.built fun _ => True)) (.running s cache env opened) (.running s cache env done) ∧
    done.records.load 0 0 = .ok (.int 1) ∧
    ReflTransGen (Goes (.built fun _ => True)) (.running s cache env done) next ∧ next.Opens 1 ∧
    ¬ next.Opens 0 ∧ next.records.load 0 0 = .ok (.int 1) := by
  have computes : ((Session.start Session.smallOptions).begin? (fun _ => True) (.start ["lib"]) "let x = 1;").any
      (fun (s, cache, env, m) => m.opens? = some 0 && (symbolAt? s.chain.units 0 0).any (·.kind = .variable false) &&
        ((Machine.step env m).next?).any fun opened => (Machine.after? env 2 opened).any fun done =>
          done.records.number? 0 0 = some 1 && ((s.keep env done).begin? (fun _ => True) cache "let x = 2;").any
            fun (_, _, _, next) => next.opens? = some 1) = true := by
    decide +kernel
  obtain ⟨⟨s, cache, env, start⟩, hbegin, hchecks⟩ := (Option.any_eq_true ..).mp computes
  simp only [Bool.and_eq_true, decide_eq_true_eq] at hchecks
  obtain ⟨⟨hopens, hsymbol⟩, hrun⟩ := hchecks
  obtain ⟨symbol, hsymbol, hkind⟩ := (Option.any_eq_true ..).mp hsymbol
  obtain ⟨opened, hnext, hrun⟩ := (Option.any_eq_true ..).mp hrun
  obtain ⟨done, hdone, hrun⟩ := (Option.any_eq_true ..).mp hrun
  simp only [Bool.and_eq_true, decide_eq_true_eq] at hrun
  obtain ⟨hnumber, hagain⟩ := hrun
  obtain ⟨⟨s', cache', env', next⟩, hagain, hopens'⟩ := (Option.any_eq_true ..).mp hagain
  have reached := (Reached.start Session.smallOptions ["lib"]).goes (Session.begin?_goes (fun _ _ => trivial) hbegin)
  have path : ReflTransGen (Goes (.built fun _ => True)) (.running s cache env opened) (.running s cache env done) :=
    (Machine.after?_steps hdone).goes
  have path' : ReflTransGen (Goes (.built fun _ => True)) (.running s cache env done) (.running s' cache' env' next) :=
    .tail (.single .stop) (Session.begin?_goes (fun _ _ => trivial) hagain)
  have reached' := (reached.goes (.step hnext)).trans path
  have hload := Records.number?_eq_some hnumber
  have hfixed : symbol.kind ≠ .variable true := by
    rw [of_decide_eq_true hkind]
    decide
  have opens : Moment.Opens _ (.running s cache env start) := Machine.opens?_eq_some hopens
  refine ⟨s, cache, env, start, opened, done, _, reached, opens, hnext, path, hload, path',
    Machine.opens?_eq_some (of_decide_eq_true hopens'), ?_, ?_⟩
  · exact (Reached.written_once reached).2 _ _ _ _ _ 0 rfl opens hnext _ (path.trans path')
  · exact (Reached.written_once reached').1 _ path' 0 0 symbol _ hsymbol hfixed hload

end ScriptEngine
