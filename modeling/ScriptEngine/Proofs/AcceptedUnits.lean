import ScriptEngine.Proofs.BindingRules
import ScriptEngine.Proofs.DeclaredNames
import ScriptEngine.Proofs.Loadable
import ScriptEngine.Proofs.Moments

/-! The units of a session as binding left them: each one was bound without errors against the units before it
    and the libraries of the session (`Reached.accepted`). So the symbols that a unit sees in an earlier record are
    those that the session has there (`symbolAt?`). -/

namespace ScriptEngine
open Relation

/-! ### Accepted units -/

/-- A unit that was read, and bound without errors after the units `older`. -/
structure ScriptUnit.Accepted (refs : ReferenceSet) (older : List ScriptUnit) (u : ScriptUnit) : Prop where
  kind : u.kind = .script (older.length + 1)
  bound : ∃ ctx tree, ctx.unit = u.kind ∧ ctx.earlier = older.filterMap ScriptUnit.declared? ∧
    ctx.references = refs ∧ Tree.Fragment.parse ctx.source = .ok tree ∧ u.output = Binder.bind ctx tree
  clean : u.hasErrors = false

/-- Every unit, the newest first, was accepted after those behind it. -/
def UnitsAccepted (refs : ReferenceSet) (units : List ScriptUnit) : Prop :=
  ∀ newer u older, units = newer ++ u :: older → u.Accepted refs older

section
variable {refs : ReferenceSet} {units older newer : List ScriptUnit} {u : ScriptUnit}

/-- The rules that binding follows hold in an accepted unit. -/
theorem ScriptUnit.Accepted.lawful (h : u.Accepted refs older) : ∃ ctx first main, ctx.unit = u.kind ∧
    ctx.earlier = older.filterMap ScriptUnit.declared? ∧ ctx.references = refs ∧ Binder.Lawful ctx u.output first main := by
  obtain ⟨ctx, tree, hunit, hearlier, hrefs, -, houtput⟩ := h.bound
  have hscript : ctx.unit.isScript = true := by
    rw [hunit, h.kind]
    rfl
  have clean (d : Diagnostic) (hd : d ∈ (Binder.bind ctx tree).diagnostics) : d.isError = false := by
    rw [← houtput] at hd
    exact Bool.not_eq_true _ ▸ List.any_eq_false.mp h.clean d hd
  obtain ⟨first, main, lawful⟩ := Binder.bind_lawful hscript clean
  exact ⟨ctx, first, main, hunit, hearlier, hrefs, houtput ▸ lawful⟩

theorem ScriptUnit.Accepted.ordered (h : u.Accepted refs older) : u.symbols.Ordered := by
  obtain ⟨ctx, tree, -, -, -, -, houtput⟩ := h.bound
  have coherent := Binder.bind_coherent ctx tree
  rw [← houtput] at coherent
  exact coherent.ordered

/-- What a unit declares is named by words. -/
theorem ScriptUnit.Accepted.words (h : u.Accepted refs older) : ∀ symbol ∈ u.symbols.entries, IsWord symbol.name := by
  obtain ⟨ctx, tree, -, -, -, hparse, houtput⟩ := h.bound
  have words := Binder.bind_names ctx (f := tree) fun st hst name hname => Tree.Fragment.parse_named hparse hst hname
  rw [← houtput] at words
  exact words

theorem ScriptUnit.Accepted.record (h : u.Accepted refs older) : u.kind.record? = some older.length := by
  rw [h.kind]
  rfl

theorem UnitsAccepted.cons (h : UnitsAccepted refs units) (accepted : u.Accepted refs units) :
    UnitsAccepted refs (u :: units) := by
  intro newer u' older heq
  cases newer with
  | nil =>
    cases heq
    exact accepted
  | cons first newer =>
    obtain ⟨-, heq⟩ := List.cons_eq_cons.mp heq
    exact h _ _ _ heq

theorem Chain.compile_accepted {c : Chain} {source : String} {compiled : Compiled}
    (h : c.compile source refs = .ok compiled) : compiled.unit.Accepted refs c.units := by
  obtain ⟨hu, clean, -⟩ := compile_eq_ok h
  obtain ⟨hkind, tree, hparse, hbound⟩ := ScriptUnit.create_eq_ok hu
  exact ⟨hkind, ⟨_, tree, hkind.symm, rfl, rfl, hparse, hbound⟩, clean⟩

/-- The routine that a submission starts with is the entry routine of its unit. -/
theorem Chain.compile_entry {c : Chain} {source : String} {compiled : Compiled}
    (h : c.compile source refs = .ok compiled) (encodes : compiled.unit.Encodes) :
    compiled.unit.program.entry = some compiled.executable.entry := by
  obtain ⟨hu, -, hexecutable⟩ := compile_eq_ok h
  obtain ⟨image, himage, hbytes⟩ := Executable.ofUnit_eq_ok hexecutable
  obtain ⟨image', hdecode, hload, hentry⟩ := Executable.ofBytes_eq_ok hbytes
  rw [encodes.decode himage] at hdecode
  cases hdecode
  obtain ⟨i, hi, hentry'⟩ := ScriptUnit.entry_emitted hu himage hload
  have hname : compiled.unit.kind.entryName? = some (compiled.unit.kind.qualified "<Main>") := by
    rw [compile_kind h]
    rfl
  rw [hname, Option.getD_some, hentry'] at hentry
  cases hentry
  exact hi

end

/-! ### Symbols of a session -/

/-- The symbol of a slot of a record. Records count from the oldest unit. -/
def symbolAt? (units : List ScriptUnit) (record slot : Nat) : Option Symbol :=
  (units.reverse[record]?).bind fun u => u.symbols.entries[slot]?

section
variable {refs : ReferenceSet} {units older newer : List ScriptUnit} {u : ScriptUnit} {record slot : Nat} {symbol : Symbol}

theorem getElem?_reverse_split (newer older : List ScriptUnit) (u : ScriptUnit) :
    (newer ++ u :: older).reverse[older.length]? = some u := by
  rw [List.reverse_append, List.reverse_cons, List.append_assoc, List.getElem?_append_right (Nat.le_of_eq (by simp))]
  simp

/-- The unit with a record is the one with so many older ones. -/
theorem split_of_getElem?_reverse (h : units.reverse[record]? = some u) :
    ∃ newer older, units = newer ++ u :: older ∧ older.length = record := by
  obtain ⟨hlt, hu⟩ := List.getElem?_eq_some_iff.mp h
  have hsplit : units.reverse.take record ++ u :: units.reverse.drop (record + 1) = units.reverse := by
    rw [← hu, ← List.drop_eq_getElem_cons hlt, List.take_append_drop]
  refine ⟨(units.reverse.drop (record + 1)).reverse, (units.reverse.take record).reverse, ?_, ?_⟩
  · have hreverse := congrArg List.reverse hsplit
    rw [List.reverse_reverse, List.reverse_append, List.reverse_cons, List.append_assoc, List.singleton_append] at hreverse
    exact hreverse.symm
  · rw [List.length_reverse, List.length_take, Nat.min_eq_left (Nat.le_of_lt hlt)]

theorem symbolAt?_split (newer older : List ScriptUnit) (u : ScriptUnit) (slot : Nat) :
    symbolAt? (newer ++ u :: older) older.length slot = u.symbols.entries[slot]? := by
  rw [symbolAt?, getElem?_reverse_split, Option.bind_some]

/-- Later units change nothing. -/
theorem symbolAt?_append (newer : List ScriptUnit) (h : symbolAt? units record slot = some symbol) :
    symbolAt? (newer ++ units) record slot = some symbol := by
  obtain ⟨u, hu, hsymbol⟩ := Option.bind_eq_some_iff.mp h
  refine Option.bind_eq_some_iff.mpr ⟨u, ?_, hsymbol⟩
  rw [List.reverse_append, List.getElem?_append_left (List.getElem?_eq_some_iff.mp hu).1]
  exact hu

/-- The symbols that a unit can see are those of the session. -/
theorem UnitsAccepted.declares (h : UnitsAccepted refs units) (hsplit : units = newer ++ u :: older)
    {ctx : Binder.Context} (hunit : ctx.unit = u.kind) (hearlier : ctx.earlier = older.filterMap ScriptUnit.declared?)
    (declares : ctx.Declares u.symbols record symbol) : symbolAt? units record symbol.slot = some symbol := by
  -- Either way the symbol is one of the unit at the position of the record.
  have found {newer' older' : List ScriptUnit} {u' : ScriptUnit} (hsplit' : units = newer' ++ u' :: older')
      (hsymbol : symbol ∈ u'.symbols.entries) : symbolAt? units older'.length symbol.slot = some symbol := by
    obtain ⟨i, hi⟩ := Array.mem_iff_getElem?.mp hsymbol
    have hslot : symbol.slot = i := (h _ _ _ hsplit').ordered i symbol hi
    rw [hsplit', symbolAt?_split, hslot]
    exact hi
  rcases declares with ⟨hrecord, hsymbol⟩ | ⟨d, hd, rfl, hsymbol⟩
  · rw [hunit, (h _ _ _ hsplit).record] at hrecord
    cases hrecord
    exact found hsplit hsymbol
  · rw [hearlier] at hd
    obtain ⟨u', hu', hdeclared⟩ := List.mem_filterMap.mp hd
    obtain ⟨a, b, rfl⟩ := List.append_of_mem hu'
    have hsplit' : units = (newer ++ u :: a) ++ u' :: b := by rw [hsplit, List.append_assoc, List.cons_append]
    rw [ScriptUnit.declared?, (h _ _ _ hsplit').record] at hdeclared
    cases hdeclared
    exact found hsplit' hsymbol

end

/-! ### Moments -/

/-- The units of a moment were accepted with the libraries in the cache. -/
def Moment.Accepted : Moment → Prop
  | idle s cache => s.chain.units = [] ∨ ∃ refs, cache.loaded = some refs ∧ UnitsAccepted refs s.chain.units
  | running s cache env _ => cache.loaded = some env.program.references ∧
      UnitsAccepted env.program.references s.chain.units

variable {terms : Terms} {a b : Moment}

theorem unitsAccepted_nil (refs : ReferenceSet) : UnitsAccepted refs [] :=
  fun _ _ _ h => nomatch List.append_eq_nil_iff.mp h.symm

theorem Goes.accepted (h : a.Accepted) (goes : Goes terms a b) : b.Accepted := by
  cases goes with
  | @begin s cache cache' supply cancelled source refs c m allowed loaded compiled unit start =>
    have hrefs := Cache.ensure_loads loaded
    refine ⟨hrefs, ?_⟩
    have older : UnitsAccepted refs s.chain.units := by
      obtain hnil | ⟨refs', hloaded, accepted⟩ := h
      · rw [hnil]
        exact unitsAccepted_nil refs
      · have hkept := Cache.ensure_keeps supply cancelled hloaded
        rw [loaded] at hkept
        obtain rfl := Option.some.inj (hrefs.symm.trans hkept)
        exact accepted
    exact older.cons (Chain.compile_accepted compiled)
  | step => exact h
  | stop => exact .inr ⟨_, h.1, h.2⟩
  | settle | cancel => exact h
  | @share s cache supply cancelled allowed =>
    obtain hnil | ⟨refs, hloaded, accepted⟩ := h
    · exact .inl hnil
    · exact .inr ⟨refs, Cache.ensure_keeps supply cancelled hloaded, accepted⟩

theorem Reached.accepted (reached : Reached terms a) : a.Accepted := by
  induction reached with
  | start => exact .inl rfl
  | goes _ goes ih => exact goes.accepted ih
  | reset => exact .inl rfl

end ScriptEngine
