import Mathlib.Data.List.Chain
import ScriptEngine.Proofs.MachineFrames
import ScriptEngine.Proofs.SessionRuns
import ScriptEngine.Proofs.Submissions

/-! The order of a session, whatever is submitted to it and wherever its libraries come from: chain, code,
    records and phases belong together between any two submissions (`Session.InOrder`). Nothing is asked of
    the libraries here, nor of the lengths of names; an image that was written with a length that does not fit
    still has its kind and its number (`Image.decode_head`), and so its record. -/

namespace ScriptEngine
open Lowering

/-! ### Images of submissions -/

theorem utf8ByteSize_ofList_le (cs : List Char) : (String.ofList cs).utf8ByteSize ≤ 4 * cs.length := by
  induction cs with
  | nil => exact Nat.le_refl 0
  | cons c cs ih =>
    have := c.utf8Size_le_four
    rw [String.ofList_cons, String.utf8ByteSize_append, String.utf8ByteSize_singleton, List.length_cons]
    omega

/-- The name of a submission is short. -/
theorem UnitKind.size_script {n : Nat} (h : n < 4294967296) : (UnitKind.script n).qualifier.utf8ByteSize ≤ 51 := by
  have hdigits : (Nat.toDigits 10 n).length ≤ 10 := (Nat.length_toDigits_le_iff (by decide) (by decide)).mpr (by omega)
  have hsize := utf8ByteSize_ofList_le (Nat.toDigits 10 n)
  have hname : (UnitKind.script n).qualifier = "Submission#" ++ String.ofList (Nat.toDigits 10 n) := rfl
  have hprefix : "Submission#".utf8ByteSize = 11 := rfl
  rw [hname, String.utf8ByteSize_append, hprefix]
  omega

theorem UnitKind.script_fits {n : Nat} (h : n < 4294967296) : Image.TextFits (UnitKind.script n).qualifier := by
  have := size_script h
  rw [Image.TextFits, Image.LengthFits]
  omega

/-- Code of the unit at position `k` of a chain, counted from zero. -/
structure ScriptUnit.Coded (k : Nat) (u : ScriptUnit) (code : CodeModule) : Prop where
  kind : u.kind = .script (k + 1)
  clean : u.hasErrors = false
  record : code.record? = some k
  slots : (∀ name ∈ u.symbols.names, Image.TextFits name) → code.slots = u.symbols.names

theorem Chain.compile_coded {c : Chain} {refs : ReferenceSet} {source : String} {accepted : Compiled}
    (h : c.compile source refs = .ok accepted) (few : c.index + 1 < 4294967296) :
    accepted.unit.Coded c.index accepted.executable.code := by
  obtain ⟨hu, clean, hexecutable⟩ := compile_eq_ok h
  obtain ⟨image, himage, hbytes⟩ := Executable.ofUnit_eq_ok hexecutable
  obtain ⟨hkind, tree, -, coherent⟩ := ScriptUnit.create_coherent hu
  obtain ⟨found, hdecode, hload, -⟩ := Executable.ofBytes_eq_ok hbytes
  have emitted := image_emitted himage
  have hname : Image.TextFits image.name := by
    rw [emitted.name, hkind]
    exact UnitKind.script_fits few
  obtain ⟨foundKind, foundOrdinal, foundSlots⟩ := Image.decode_head hname hdecode
  have loaded := CodeModule.load_loaded hload
  refine ⟨hkind, clean, ?_, fun hfit => ?_⟩
  · rw [loaded.record, foundKind, foundOrdinal, emitted.kind, emitted.ordinal, hkind]
    exact Image.ownRecord?_script few
  · have hslots : image.slots = accepted.unit.symbols.names := emitted.slots.trans (coherent.slots rfl)
    have hfew : image.slots.size ≤ 65536 := emitted.fewSlots
    rw [loaded.slots, foundSlots ⟨?_, fun name hname => ?_⟩, hslots]
    · rw [Image.LengthFits, Array.length_toList]
      omega
    · rw [hslots] at hname
      exact hfit name (Array.mem_toList_iff.mp hname)

/-- A library has no record. -/
theorem Library.ofBytes_record {location : String} {bytes : List UInt8} {l : Library}
    (h : Library.ofBytes location bytes = .ok l) : l.code.record? = none := by
  obtain ⟨-, image, -, hkind, hload⟩ := ofBytes_eq_ok h
  rw [(CodeModule.load_loaded hload).record, hkind]
  rfl

/-! ### Chains, fragments and records -/

/-- The names of the record that a fragment of a program starts. -/
def Program.Names (p : Program) (k : Nat) (names : Array String) : Prop :=
  ∃ code, p.fragments[k]? = some code ∧ names = code.slots

theorem Program.Names.push {refs refs' : ReferenceSet} {fragments : Array CodeModule} {k : Nat} {names : Array String}
    (h : Program.Names ⟨refs, fragments⟩ k names) (code : CodeModule) :
    Program.Names ⟨refs', fragments.push code⟩ k names := by
  obtain ⟨code', hcode', rfl⟩ := h
  exact ⟨code', getElem?_push_of_some hcode', rfl⟩

/-- The units of a chain, the newest first, are those of the fragments of a program. -/
structure Coded (units : List ScriptUnit) (fragments : Array CodeModule) : Prop where
  size : fragments.size = units.length
  each : ∀ {k : Nat} {u : ScriptUnit}, units.reverse[k]? = some u → ∃ code, fragments[k]? = some code ∧ u.Coded k code

variable {units : List ScriptUnit} {fragments : Array CodeModule}

theorem coded_empty : Coded [] #[] := ⟨rfl, fun {k u} h => by simp at h⟩

theorem Coded.push (h : Coded units fragments) {u : ScriptUnit} {code : CodeModule} (hu : u.Coded units.length code) :
    Coded (u :: units) (fragments.push code) := by
  refine ⟨by rw [Array.size_push, h.size, List.length_cons], fun {k u'} hk => ?_⟩
  rw [List.reverse_cons] at hk
  rcases Nat.lt_or_ge k units.length with hlt | hge
  · rw [List.getElem?_append_left (by rwa [List.length_reverse])] at hk
    obtain ⟨code', hcode', coded⟩ := h.each hk
    exact ⟨code', getElem?_push_of_some hcode', coded⟩
  · have heq : k = units.length := by
      have := (List.getElem?_eq_some_iff.mp hk).1
      rw [List.length_append, List.length_reverse, List.length_singleton] at this
      omega
    rw [heq, ← List.length_reverse, List.getElem?_concat_length] at hk
    cases hk
    rw [heq]
    exact ⟨code, h.size ▸ Array.getElem?_push_size, hu⟩

/-- A fragment starts the record of its own position, and libraries start none. -/
theorem Coded.names (h : Coded units fragments) {refs : ReferenceSet} (hrefs : ∀ l ∈ refs, l.code.record? = none)
    {home : Home} {code : CodeModule} {index : Nat} (hcode : Program.module? ⟨refs, fragments⟩ home = some code)
    (hrecord : code.record? = some index) : Program.Names ⟨refs, fragments⟩ index code.slots := by
  cases home with
  | library i =>
    obtain ⟨l, hl, rfl⟩ := Option.map_eq_some_iff.mp hcode
    rw [hrefs l (Array.mem_of_getElem? hl)] at hrecord
    cases hrecord
  | fragment i =>
    have hcode : fragments[i]? = some code := hcode
    have hlt : i < units.reverse.length := by
      rw [List.length_reverse, ← h.size]
      exact (Array.getElem?_eq_some_iff.mp hcode).1
    obtain ⟨code', hcode', coded⟩ := h.each (List.getElem?_eq_getElem hlt)
    rw [hcode] at hcode'
    cases hcode'
    rw [coded.record] at hrecord
    cases hrecord
    exact ⟨code, hcode, rfl⟩

/-! ### Phases -/

/-- Phases that may follow one another, from idle to idle. -/
structure Phase.Round (path : List Phase) : Prop where
  first : path.head? = some .idle
  last : path.getLast? = some .idle
  steps : path.IsChain fun p next => p.canEnter next = true

namespace Session

variable {interference : Interference} {fuel : Nat} {supply : Supply} {cache cache' : Cache} {s s' : Session}
  {source : String} {report : Report}

/-- A submission to an idle session goes through phases that may follow one another. -/
theorem Submits.round (h : Submits interference fuel supply cache s source report s' cache') (hidle : s.phase = .idle) :
    Phase.Round report.phases := by
  cases h with
  | unloaded missing failed =>
    simp only [hidle]
    exact ⟨rfl, rfl, by decide⟩
  | rejected | unemitted | executed | faulted =>
    simp only [approach, hidle]
    split
    · exact ⟨rfl, rfl, by decide⟩
    · exact ⟨rfl, rfl, by decide⟩

/-! ### Sessions in order -/

/-- Chain, code and records belong together, and no submission is under way. -/
structure InOrder (s : Session) : Prop where
  idle : s.phase = .idle
  coded : Coded s.chain.units s.memory.program.fragments
  named : s.memory.records.Named s.memory.program.Names
  room : s.index ≤ s.memory.records.size

theorem InOrder.fresh (hidle : s.phase = .idle) (hunits : s.chain.units = []) {capacity : Nat}
    (hmemory : s.memory = .withCapacity capacity) : s.InOrder := by
  refine ⟨hidle, ?_, fun k r hr => ?_, ?_⟩
  · rw [hunits, hmemory]
    exact coded_empty
  · rw [hmemory, Memory.withCapacity, Records.record?_withCapacity] at hr
    cases hr
  · rw [index, Chain.index, hunits]
    exact Nat.zero_le _

theorem InOrder.congr (h : s.InOrder) (hidle : s'.phase = .idle) (hchain : s'.chain = s.chain)
    (hmemory : s'.memory = s.memory) : s'.InOrder := by
  obtain ⟨-, coded, named, room⟩ := h
  rw [index, ← hchain, ← hmemory] at *
  exact ⟨hidle, coded, named, room⟩

/-- An accepted submission adds its unit to the chain, and its record has the names that it declares. -/
theorem InOrder.ran (h : s.InOrder) (few : s.index + 1 < 4294967296) {refs : ReferenceSet}
    (hrefs : ∀ l ∈ refs, l.code.record? = none) {c : Compiled} (hc : s.chain.compile source refs = .ok c)
    {watch : Watch} {done : Completion}
    (hdone : (s.accept c).memory.run refs c.executable s.options.invoke watch fuel = some done) :
    (s.ran c done.memory).InOrder ∧ s.memory.records.size ≤ done.memory.records.size := by
  obtain ⟨start, k, m, hstart, steps, hmemory, -⟩ := Memory.run_reaches hdone
  have coded := h.coded.push (Chain.compile_coded hc few)
  -- The machine starts with the old records, and room for the new one.
  have hrecords : start.records = s.memory.records.ensure (s.chain.index + 1) := by
    obtain ⟨code, -, hlaunch⟩ := Option.bind_eq_some_iff.mp hstart
    obtain ⟨routine, -, hlaunch⟩ := Option.bind_eq_some_iff.mp hlaunch
    cases hlaunch
    rfl
  have named : start.records.Named (Program.Names ⟨refs, s.memory.program.fragments.push c.executable.code⟩) := by
    rw [hrecords]
    exact Records.Named.ensure (fun k r hr => (h.named k r hr).push _) _
  obtain ⟨named, size⟩ := steps.records (Machine.start_placed hstart) named fun home code index => coded.names hrefs
  rw [hrecords] at size
  have room := Records.size_ensure s.memory.records (s.chain.index + 1)
  have grown := Records.size_le_ensure s.memory.records (s.chain.index + 1)
  rw [hmemory]
  refine ⟨⟨rfl, coded, named, ?_⟩, Nat.le_trans grown size⟩
  exact Nat.le_trans room size

/-- Cached libraries have no records. -/
def Recordless (cache : Cache) : Prop := cache.Each fun l => l.code.record? = none

theorem Recordless.ensure (h : Recordless cache) (supply : Supply) (cancelled : Bool) :
    Recordless (cache.ensure supply cancelled).2 ∧
      ∀ refs, (cache.ensure supply cancelled).1 = .ok refs → ∀ l ∈ refs, l.code.record? = none := by
  have fetched {requested : List String} {location : String} {l : Library}
      (hfetch : Cache.fetchLibrary supply requested location = .ok l) : l.code.record? = none := by
    obtain ⟨bytes, -, hl⟩ := Cache.fetchLibrary_eq_ok hfetch
    exact Library.ofBytes_record hl
  obtain ⟨recordless, given, -⟩ := Cache.ensure_each cancelled fetched h
  exact ⟨recordless, fun refs hrefs => recordless refs (given refs hrefs)⟩

/-- A submission keeps a session in order. It adds at most one unit, whose number is in its report, and it
    takes no room for records away. -/
theorem InOrder.submit (h : s.InOrder) (hcache : Recordless cache) (few : s.index + 1 < 4294967296)
    (submits : Submits interference fuel supply cache s source report s' cache') :
    s'.InOrder ∧ Recordless cache' ∧ s.memory.records.size ≤ s'.memory.records.size ∧
      (report.submission = none ∧ s'.index = s.index ∨
        report.submission = some (s.index + 1) ∧ s'.index = s.index + 1) := by
  obtain ⟨recordless, given⟩ := hcache.ensure supply interference.cancelLoading
  cases submits with
  | unloaded missing failed =>
    rw [failed] at recordless
    exact ⟨h.congr rfl rfl rfl, recordless, Nat.le_refl _, .inl ⟨rfl, rfl⟩⟩
  | rejected loaded failed | unemitted loaded failed =>
    rw [loaded] at recordless
    exact ⟨h.congr rfl rfl rfl, recordless, Nat.le_refl _, .inl ⟨rfl, rfl⟩⟩
  | executed loaded accepted run _ | faulted loaded accepted run _ =>
    rw [loaded] at recordless given
    obtain ⟨order, size⟩ := h.ran few (given _ rfl) accepted run
    exact ⟨order, recordless, size, .inr ⟨rfl, rfl⟩⟩

/-! ### Histories -/

/-- What may happen to a session and to the cache that it uses: the reports so far, and those since the
    session was started or reset. The numbers of submissions have 32 bits. -/
inductive History (options : SessionOptions) : List Report → List Report → Session → Cache → Prop where
  | start (locations : List String) : History options [] [] (.start options) (.start locations)
  | submit {reports recent : List Report} {s s' : Session} {cache cache' : Cache} {interference : Interference}
      {fuel : Nat} {supply : Supply} {source : String} {report : Report} (history : History options reports recent s cache)
      (few : s.index + 1 < 4294967296)
      (submitted : s.submitUnder interference fuel supply cache source = some (report, s', cache')) :
      History options (reports ++ [report]) (recent ++ [report]) s' cache'
  | reset {reports recent : List Report} {s : Session} {cache : Cache} (history : History options reports recent s cache) :
      History options reports [] s.reset cache
  | cancel {reports recent : List Report} {s : Session} {cache : Cache} (history : History options reports recent s cache) :
      History options reports recent s.cancel cache
  | share {reports recent : List Report} {s : Session} {cache : Cache} {supply : Supply} {cancelled : Bool}
      (history : History options reports recent s cache) :
      History options reports recent s (cache.ensure supply cancelled).2

variable {options : SessionOptions} {reports recent : List Report}

theorem History.inOrder (h : History options reports recent s cache) : s.InOrder ∧ Recordless cache ∧
    recent.filterMap (·.submission) = List.range' 1 s.index ∧ ∀ report ∈ reports, Phase.Round report.phases := by
  induction h with
  | start locations => exact ⟨.fresh rfl rfl rfl, fun refs h => (nomatch h), rfl, fun report hreport => nomatch hreport⟩
  | submit history few submitted ih =>
    obtain ⟨order, recordless, numbers, rounds⟩ := ih
    have submits := submitUnder_submits submitted
    obtain ⟨order', recordless', -, hindex⟩ := order.submit recordless few submits
    refine ⟨order', recordless', ?_, fun report hreport => ?_⟩
    · rw [List.filterMap_append, numbers]
      obtain ⟨hnone, hindex⟩ | ⟨hsome, hindex⟩ := hindex
      · simp [hnone, hindex]
      · rw [hindex, List.range'_concat]
        simp [hsome, Nat.add_comm]
    · rcases List.mem_append.mp hreport with hreport | hreport
      · exact rounds report hreport
      · rw [List.mem_singleton.mp hreport]
        exact submits.round order.idle
  | reset history ih =>
    obtain ⟨-, recordless, -, rounds⟩ := ih
    exact ⟨.fresh rfl rfl rfl, recordless, rfl, rounds⟩
  | cancel history ih =>
    obtain ⟨order, recordless, numbers, rounds⟩ := ih
    exact ⟨order.congr order.idle rfl rfl, recordless, numbers, rounds⟩
  | share history ih =>
    obtain ⟨order, recordless, numbers, rounds⟩ := ih
    exact ⟨order, (recordless.ensure _ _).1, numbers, rounds⟩

/-- Submissions one after the other go on with a history, as long as their number fits. -/
theorem History.sitting (h : History options reports recent s cache) (fuel : Nat) (supply : Supply)
    (sources : List String) (few : s.index + sources.length < 4294967296) :
    let t := Sitting.submit fuel supply sources s cache
    History options (reports ++ t.entries.map Prod.snd) (recent ++ t.entries.map Prod.snd) t.session t.cache := by
  induction sources generalizing reports recent s cache with
  | nil => simpa [Sitting.submit] using h
  | cons source rest ih =>
    rw [List.length_cons] at few
    simp only [Sitting.submit]
    cases hsubmit : s.submit fuel supply cache source with
    | none => simpa using h
    | some done =>
      obtain ⟨report, s', cache'⟩ := done
      have hstep := h.submit (by omega) hsubmit
      obtain ⟨order, recordless, -⟩ := h.inOrder
      obtain ⟨-, -, -, hindex⟩ := order.submit recordless (by omega) (submitUnder_submits hsubmit)
      have := ih hstep (by omega)
      simpa [Sitting.cons, List.append_assoc] using this

/-- Between any two submissions no submission is under way, and the accepted submissions since the last reset
    are those of the chain: they are numbered from one in order, and each unit has the name of its number and
    no errors. The record of a unit, if it was started, has the names that the unit declares (the names that
    an image can hold); there is room for all these records, and there are no others. The phases of every
    report lead from idle to idle, and the next submission takes no room for records away. -/
theorem History.between_submissions (h : History options reports recent s cache) :
    s.phase = .idle ∧
    s.index = s.chain.units.length ∧
    recent.filterMap (·.submission) = List.range' 1 s.index ∧
    (∀ k u, s.chain.units.reverse[k]? = some u →
      u.kind = .script (k + 1) ∧ u.name = s!"Submission#{k + 1}" ∧ u.hasErrors = false ∧
        ∀ r, s.memory.records.record? k = some r → (∀ name ∈ u.symbols.names, Image.TextFits name) →
          r.names = u.symbols.names) ∧
    s.index ≤ s.memory.records.size ∧
    (∀ k, s.index ≤ k → s.memory.records.record? k = none) ∧
    (∀ report ∈ reports, Phase.Round report.phases) ∧
    ∀ interference fuel supply source report s' cache', s.index + 1 < 4294967296 →
      s.submitUnder interference fuel supply cache source = some (report, s', cache') →
        s.memory.records.size ≤ s'.memory.records.size := by
  obtain ⟨order, recordless, numbers, rounds⟩ := h.inOrder
  refine ⟨order.idle, rfl, numbers, fun k u hu => ?_, order.room, fun k hk => ?_, rounds, ?_⟩
  · obtain ⟨code, hcode, coded⟩ := order.coded.each hu
    refine ⟨coded.kind, ?_, coded.clean, fun r hr hfit => ?_⟩
    · rw [ScriptUnit.name, coded.kind]
      rfl
    · obtain ⟨code', hcode', hnames⟩ := order.named k r hr
      rw [hcode] at hcode'
      cases hcode'
      rw [hnames, coded.slots hfit]
  · cases hr : s.memory.records.record? k with
    | none => rfl
    | some r =>
      -- A record belongs to a fragment, and there is one for each unit only.
      obtain ⟨code, hcode, -⟩ := order.named k r hr
      have hlt := (Array.getElem?_eq_some_iff.mp hcode).1
      rw [order.coded.size] at hlt
      exact absurd hlt (Nat.not_lt.mpr hk)
  · intro interference fuel supply source report s' cache' few submitted
    obtain ⟨-, -, size, -⟩ := order.submit recordless few (submitUnder_submits submitted)
    exact size

/-- A session after a declaration, a text that cannot be bound and one that fails. -/
theorem History.between_submissions_small :
    let t := Sitting.submit 3 smallSupply ["let y = 5;", "missing", "y / 0"] (.start smallOptions) (.start ["lib"])
    t.entries.map (·.2.submission) = [some 1, none, some 2] ∧ t.session.phase = .idle ∧ t.session.index = 2 ∧
    (∀ k, 2 ≤ k → t.session.memory.records.record? k = none) ∧
    ∀ report ∈ t.entries.map Prod.snd, Phase.Round report.phases := by
  intro t
  have history : History smallOptions ([] ++ t.entries.map Prod.snd) ([] ++ t.entries.map Prod.snd) t.session t.cache :=
    (History.start ["lib"]).sitting 3 smallSupply _ (by decide)
  have computes : t.entries.map (·.2.submission) = [some 1, none, some 2] ∧ t.session.index = 2 := by decide +kernel
  obtain ⟨idle, -, -, -, -, empty, rounds, -⟩ := history.between_submissions
  rw [computes.2] at empty
  exact ⟨computes.1, idle, computes.2, empty, rounds⟩

end Session
end ScriptEngine
