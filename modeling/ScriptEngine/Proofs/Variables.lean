import ScriptEngine.Proofs.LatestNames
import ScriptEngine.Proofs.SingleNames

/-! The variables that a session lists, and the values that it gives when their names are submitted
    (`Reached.listed_and_read`). Records have the names of the units that started them, so what is assigned is
    declared; but a slot can be declared and not be assigned. -/

namespace ScriptEngine
open Binder (Resolution)

variable {good : ScriptUnit → Prop} {a b : Moment} {name : String} {record slot : Nat}

/-! ### Names of records -/

/-- Only the fragment with the position of a record starts it. -/
theorem Program.Sound.names {p : Program} (hp : p.Sound) {home : Home} {code : CodeModule} {index : Nat}
    (hcode : p.module? home = some code) (hrecord : code.record? = some index) : p.Names index code.slots := by
  obtain rfl := (hp hcode).record _ hrecord
  exact ⟨code, hcode, rfl⟩

theorem Goes.named (sound : a.Sound good) (named : a.records.Named a.program.Names) (goes : Goes (.built good) a b) :
    b.records.Named b.program.Names := by
  cases goes with
  | begin allowed loaded compiled unit start =>
    show Records.Named _ (Machine.records _)
    rw [(Machine.start_memory start).2]
    exact Records.Named.ensure (fun k r hr => (named k r hr).push _) _
  | @step s cache env m m' next =>
    obtain ⟨-, -, -, -, program, machine⟩ := sound
    exact (Machine.next_writes next).named named fun index hrecord => program.names machine.frame.code hrecord
  | stop | settle | share | cancel => exact named

/-- A record has the names of the fragment that started it. -/
theorem Reached.named (reached : Reached (.built good) a) : a.records.Named a.program.Names := by
  induction reached with
  | start options =>
    intro k r hr
    cases (Records.record?_withCapacity options.capacity k).symm.trans hr
  | goes reached goes ih => exact goes.named reached.sound ih
  | reset =>
    intro k r hr
    cases (Records.record?_withCapacity _ k).symm.trans hr

/-! ### Slots -/

section
variable {s : Session} {cache : Cache}

/-- The record of a unit has its names. -/
theorem Reached.record_names (reached : Reached (.built good) (.idle s cache)) {r : Record}
    (hr : s.memory.records.record? record = some r) :
    ∃ u, s.chain.units.reverse[record]? = some u ∧ r.names = u.symbols.names := by
  obtain ⟨code, hcode, hnames⟩ := reached.named record r hr
  have linked : Linked _ s.chain.units s.memory.program.fragments := reached.sound.linked
  obtain ⟨newer, u, older, hsplit, rfl, follows⟩ := linked.unit hcode
  refine ⟨u, ?_, hnames.trans follows.names⟩
  rw [hsplit]
  exact getElem?_reverse_split newer older u

/-- What is assigned under a name is a slot that was declared with it and has a value. -/
theorem Reached.assigned_iff (reached : Reached (.built good) (.idle s cache)) : s.memory.records.Assigned name record slot ↔
    Declares s.chain.units name record slot ∧ s.memory.records.Filled record slot := by
  have name_iff {u : ScriptUnit} (hu : s.chain.units.reverse[record]? = some u) :
      u.symbols.names[slot]? = some name ↔ Declares s.chain.units name record slot := by
    rw [declares_iff_names, List.getElem?_map, hu]
    rfl
  constructor
  · rintro ⟨r, v, hr, hname, hvalue⟩
    obtain ⟨u, hu, hnames⟩ := reached.record_names hr
    rw [hnames] at hname
    exact ⟨(name_iff hu).mp hname, v, Records.load_eq_ok.mpr ⟨r, hr, hvalue⟩⟩
  · rintro ⟨declares, v, hload⟩
    obtain ⟨r, hr, hvalue⟩ := Records.load_eq_ok.mp hload
    obtain ⟨u, hu, hnames⟩ := reached.record_names hr
    refine ⟨r, v, hr, ?_, hvalue⟩
    rw [hnames]
    exact (name_iff hu).mpr declares

/-- A name that was declared stands for the latest slot that was declared with it, and has the value of this slot when
    it is submitted. -/
theorem Reached.reads_latest (reached : Reached (.built good) (.idle s cache)) (few : s.index + 1 < 4294967296)
    (declared : ∃ record slot, Declares s.chain.units name record slot) :
    ∃ record slot, Latest (Declares s.chain.units name) record slot ∧
      ∀ supply v, s.Reads supply cache name v ↔ s.memory.records.load record slot = .ok v := by
  have linked : Linked _ s.chain.units s.memory.program.fragments := reached.sound.linked
  obtain ⟨record₀, slot₀, symbol₀, hsymbol₀, rfl⟩ := declared
  obtain ⟨u₀, hu₀, hslot₀⟩ := Option.bind_eq_some_iff.mp hsymbol₀
  obtain hnil | ⟨refs, loaded, accepted⟩ := reached.accepted
  · rw [hnil] at hu₀
    cases hu₀
  have hmem₀ := Array.mem_of_getElem? hslot₀
  -- It stands for some slot, the latest one.
  obtain ⟨newer₀, older₀, hsplit₀, -⟩ := split_of_getElem?_reverse hu₀
  have word : IsWord symbol₀.name := (accepted _ _ _ hsplit₀).words _ hmem₀
  obtain ⟨res, hres⟩ := Option.isSome_iff_exists.mp
    (accepted.ofEarlier_isSome (List.mem_reverse.mp (List.mem_of_getElem? hu₀)) hmem₀)
  obtain ⟨record, slot, kind, rfl, latest⟩ := accepted.ofEarlier_latest hres
  obtain ⟨symbol, hsymbol, -⟩ := latest.holds
  obtain ⟨u, hu, hslot⟩ := Option.bind_eq_some_iff.mp hsymbol
  obtain ⟨newer, older, hsplit, hlength⟩ := split_of_getElem?_reverse hu
  have hrecord : record < s.chain.index := by
    rw [Chain.index, hsplit, List.length_append, List.length_cons]
    omega
  have hfew : slot < 65536 := by
    obtain ⟨code, -, follows⟩ := linked.each hsplit
    exact Nat.lt_of_lt_of_le (Array.getElem?_eq_some_iff.mp hslot).1 follows.fewSlots
  obtain ⟨compiled, lines, hcompile, encodes, hentry⟩ := Chain.compile_word accepted few word hrecord hfew hres
  have hown := (Chain.compile_follows hcompile encodes).1.record few
  refine ⟨record, slot, latest, fun supply v => ?_⟩
  exact Session.reads_iff loaded hcompile (Nat.lt_trans hrecord (Nat.lt_of_succ_lt few)) hfew (Nat.ne_of_lt hrecord) hentry
    hown supply v

/-- A name is listed with the value of the latest slot that was declared with it and is filled; submitted alone, it has
    the value of the latest slot that was declared with it, or none if this slot is not filled. So whatever can be
    read is listed; and what is listed can be read exactly if the latest slot is filled, or no slot is. -/
theorem Reached.listed_and_read (reached : Reached (.built good) (.idle s cache)) (few : s.index + 1 < 4294967296)
    (declared : ∃ record slot, Declares s.chain.units name record slot) (supply : Supply) :
    let records := s.memory.records
    let declares := Declares s.chain.units name
    (∀ v, (name, v) ∈ s.bindings ↔ ∃ record slot,
      Latest (fun r i => declares r i ∧ records.Filled r i) record slot ∧ records.load record slot = .ok v) ∧
    (∀ v, s.Reads supply cache name v ↔ ∃ record slot, Latest declares record slot ∧ records.load record slot = .ok v) ∧
    (∀ v, s.Reads supply cache name v → (name, v) ∈ s.bindings) ∧
    ((∀ v, (name, v) ∈ s.bindings ↔ s.Reads supply cache name v) ↔
      ∀ record slot, Latest declares record slot →
        records.Filled record slot ∨ ∀ r i, declares r i → ¬ records.Filled r i) := by
  intro records declares
  obtain ⟨record, slot, latest, hreads⟩ := reached.reads_latest few declared
  have hreads := hreads supply
  have listed (v : Value) : (name, v) ∈ s.bindings ↔ ∃ record slot,
      Latest (fun r i => declares r i ∧ records.Filled r i) record slot ∧ records.load record slot = .ok v := by
    have hassigned : records.Assigned name = fun r i => declares r i ∧ records.Filled r i :=
      funext fun r => funext fun i => propext reached.assigned_iff
    rw [← hassigned]
    exact Records.mem_bindings
  have listed_of_reads (v : Value) (hv : s.Reads supply cache name v) : (name, v) ∈ s.bindings := by
    have hload := (hreads v).mp hv
    exact (listed v).mpr ⟨record, slot, latest.and ⟨v, hload⟩, hload⟩
  refine ⟨listed, fun v => ?_, listed_of_reads, fun agree r i latest' => ?_, fun filled v => ⟨fun hv => ?_, listed_of_reads v⟩⟩
  · refine ⟨fun hv => ⟨record, slot, latest, (hreads v).mp hv⟩, ?_⟩
    rintro ⟨r, i, latest', hload⟩
    obtain ⟨rfl, rfl⟩ := latest.unique latest'
    exact (hreads v).mpr hload
  · obtain ⟨rfl, rfl⟩ := latest.unique latest'
    refine or_iff_not_imp_left.mpr fun empty r i hdeclares hfilled => empty ?_
    obtain ⟨v, hv⟩ := (reached.assigned_iff.mpr ⟨hdeclares, hfilled⟩).listed
    exact ⟨v, (hreads v).mp ((agree v).mp hv)⟩
  · obtain ⟨r, i, latest', hload⟩ := (listed v).mp hv
    obtain hfilled | none_filled := filled record slot latest
    · obtain ⟨rfl, rfl⟩ := (latest.and hfilled).unique latest'
      exact (hreads v).mpr hload
    · exact absurd latest'.holds.2 (none_filled r i latest'.holds.1)

/-- A variable that is declared again without a value: the first value is listed, and the name cannot be read. -/
theorem Reached.listed_and_read_redeclared : ∃ s cache, Reached (.built fun _ => True) (.idle s cache) ∧ s.index = 2 ∧
    ("x", .int 1) ∈ s.bindings ∧ ∀ supply v, ¬ s.Reads supply cache "x" v := by
  have computes : (Session.submitAll (fun _ => True) ["let x = 1;", "let x;"] (.start Session.smallOptions)
      (.start ["lib"])).any (fun r => r.2.1.index = 2 &&
        r.2.1.chain.units.reverse.map (fun u => u.symbols.names) = [#["x"], #["x"]] &&
        r.2.1.memory.records.number? 0 0 = some 1 && (r.2.1.memory.records.load 1 0).toOption.isNone) = true := by
    decide +kernel
  obtain ⟨⟨reports, s, cache⟩, hsubmit, hchecks⟩ := (Option.any_eq_true ..).mp computes
  simp only [Bool.and_eq_true, decide_eq_true_eq] at hchecks
  obtain ⟨⟨⟨hindex, hnames⟩, hnumber⟩, hempty⟩ := hchecks
  have reached := (Session.submitAll_run (fun _ _ => trivial) (Session.Run.start ["lib"]) hsubmit).reached
  have declares {r i : Nat} : Declares s.chain.units "x" r i ↔ r < 2 ∧ i = 0 := by
    rw [declares_iff_names, hnames]
    rcases r with _ | _ | r
    · rcases i with _ | i <;> simp
    · rcases i with _ | i <;> simp
    · simp
  have hload := Records.number?_eq_some hnumber
  have empty (v : Value) : s.memory.records.load 1 0 ≠ .ok v := by
    intro hv
    rw [hv] at hempty
    cases hempty
  have latest : Latest (Declares s.chain.units "x") 1 0 :=
    ⟨declares.mpr (by decide), fun {r i} h => by have := declares.mp h; omega⟩
  have first : Latest (fun r i => Declares s.chain.units "x" r i ∧ s.memory.records.Filled r i) 0 0 := by
    refine ⟨⟨declares.mpr (by decide), _, hload⟩, fun {r i} ⟨h, v, hv⟩ => ?_⟩
    obtain ⟨hr, rfl⟩ := declares.mp h
    obtain rfl | rfl : r = 0 ∨ r = 1 := by omega
    · exact .inr ⟨rfl, Nat.le_refl 0⟩
    · exact absurd hv (empty v)
  have agreement (supply : Supply) := Reached.listed_and_read reached (hindex ▸ by decide) ⟨1, 0, latest.holds⟩ supply
  refine ⟨s, cache, reached, hindex, ((agreement Session.smallSupply).1 _).mpr ⟨0, 0, first, hload⟩, fun supply v hv => ?_⟩
  obtain ⟨r, i, latest', hv⟩ := ((agreement supply).2.1 v).mp hv
  obtain ⟨rfl, rfl⟩ := latest.unique latest'
  exact empty v hv

end

end ScriptEngine
