import ScriptEngine.Chain
import ScriptEngine.Proofs.Loading

/-! How the units of a session and its loaded code belong together: the k-th accepted unit is the k-th
    fragment of the program, was bound against the units before it, and has the record at position k
    (`Linked`). All code of such a program is sound. -/

namespace ScriptEngine
open Lowering

namespace ScriptUnit

/-- All lengths in the image of a unit can be written in 32 bits. Short texts give such units (`encodes_of_short`). -/
def Encodes (u : ScriptUnit) : Prop := ∀ image, u.image = .ok image → image.Fits

instance (u : ScriptUnit) : Decidable u.Encodes := inferInstanceAs (Decidable (∀ image, u.image = .ok image → image.Fits))

/-- Then the image is read back from its bytes. -/
theorem Encodes.decode {u : ScriptUnit} {image : Image} (h : u.Encodes) (himage : u.image = .ok image) :
    Image.decode image.bytes = .ok image := Image.decode_eq_ok_iff.mpr ⟨h image himage, rfl⟩

end ScriptUnit

/-! ### Built libraries -/

namespace Library

/-- Bytes of a library that was built from a source text. -/
def BuiltFrom (good : ScriptUnit → Prop) (bytes : List UInt8) : Prop :=
  ∃ name source, build name source = .ok bytes ∧
    ∀ u, ScriptUnit.create (.library name) source #[] [] [] = .ok u → u.Encodes ∧ good u

variable {good : ScriptUnit → Prop}

theorem build_eq_ok {name source : String} {bytes : List UInt8} (h : build name source = .ok bytes) :
    ∃ u image, ScriptUnit.create (.library name) source #[] [] [] = .ok u ∧ u.image = .ok image ∧
      bytes = image.bytes := by
  unfold build at h
  split at h
  · cases h
  · split at h
    · cases h
    · rename_i u hu
      split at h
      · cases h
      · split at h
        · cases h
        · rename_i image himage
          cases h
          exact ⟨u, image, hu, himage, rfl⟩

/-- Loading what was built gives the library of the unit it was built from. -/
theorem ofBytes_holds {location : String} {bytes : List UInt8} {l : Library} (built : BuiltFrom good bytes)
    (h : ofBytes location bytes = .ok l) : ∃ u, l.Holds u ∧ good u := by
  obtain ⟨name, source, hbuild, hgood⟩ := built
  obtain ⟨u, image, hcreate, himage, rfl⟩ := build_eq_ok hbuild
  obtain ⟨encodes, good⟩ := hgood u hcreate
  obtain ⟨exports, image', hdecode, -, hload⟩ := ofBytes_eq_ok h
  rw [encodes.decode himage] at hdecode
  cases hdecode
  exact ⟨u, ⟨exports, ⟨name, source, hcreate⟩, image, image_emitted himage, CodeModule.load_loaded hload⟩, good⟩

end Library

/-- Whatever a supply answers with was built from a source text. -/
def Supply.Builds (good : ScriptUnit → Prop) (supply : Supply) : Prop :=
  ∀ earlier location bytes, supply earlier location = .ok bytes → Library.BuiltFrom good bytes

namespace Cache

variable {P : Library → Prop} {good : ScriptUnit → Prop} {supply : Supply} {cancels : Cancels}

/-- What every library has that can be fetched, every library has that is loaded. -/
theorem loadAll_each (fetched : ∀ {requested location l}, fetchLibrary supply requested location = .ok l → P l)
    {locations : List String} {set refs : ReferenceSet} {requested requested' : List String} (hset : ∀ l ∈ set, P l)
    (h : loadAll supply cancels locations set requested = (.ok refs, requested')) : ∀ l ∈ refs, P l := by
  induction locations generalizing set requested with
  | nil =>
    cases h
    exact hset
  | cons location rest ih =>
    unfold loadAll at h
    split at h
    · cases h
    · split at h
      · cases h
      · rename_i set' hadd
        refine ih ?_ h
        obtain ⟨l, hfetch, hadd⟩ := except_bind_eq_ok.mp hadd
        unfold addLibrary at hadd
        split at hadd
        · cases hadd
        · cases hadd
          intro l' hl'
          rcases Array.mem_push.mp hl' with hl' | rfl
          · exact hset l' hl'
          · exact fetched hfetch

/-- The libraries of a cache, if they are loaded, all have a property. -/
def Each (P : Library → Prop) (c : Cache) : Prop := ∀ refs, c.loaded = some refs → ∀ l ∈ refs, P l

/-- What loading leaves in the cache: the libraries that it gives, and those loaded before. -/
theorem ensure_each {c : Cache} (cancelled : Bool)
    (fetched : ∀ {requested location l}, fetchLibrary supply requested location = .ok l → P l) (hc : c.Each P) :
    (c.ensure supply cancelled).2.Each P ∧
      (∀ refs, (c.ensure supply cancelled).1 = .ok refs → (c.ensure supply cancelled).2.loaded = some refs) ∧
      (∀ refs, c.loaded = some refs → (c.ensure supply cancelled).2.loaded = some refs) := by
  unfold ensure ensureUnder
  split
  · rename_i set hset
    refine ⟨hc, fun refs h => ?_, fun refs h => h⟩
    cases h
    exact hset
  · rename_i hnone
    have lost : ∀ {refs : ReferenceSet} {after : Option ReferenceSet}, c.loaded = some refs → after = some refs := by
      intro refs after h
      rw [hnone] at h
      cases h
    split
    · rename_i set requested hload
      have each := loadAll_each fetched (fun l hl => absurd hl (Array.not_mem_empty l)) hload
      refine ⟨fun refs h => ?_, fun refs h => ?_, fun refs => lost⟩
      · cases h
        exact each
      · cases h
        rfl
    · exact ⟨fun refs h => (nomatch h), fun refs h => (nomatch h), fun refs => lost⟩

theorem fetchLibrary_eq_ok {requested : List String} {location : String} {l : Library}
    (h : fetchLibrary supply requested location = .ok l) :
    ∃ bytes, supply requested location = .ok bytes ∧ Library.ofBytes location bytes = .ok l := by
  unfold fetchLibrary at h
  split at h
  · cases h
  · rename_i bytes hbytes
    exact ⟨bytes, hbytes, h⟩

/-- The libraries of a cache, if they are loaded, were all built. -/
def Built (good : ScriptUnit → Prop) (c : Cache) : Prop := ∀ refs, c.loaded = some refs → refs.Built good

theorem ensure_built {c : Cache} (cancelled : Bool) (builds : supply.Builds good) (hc : c.Built good) :
    (c.ensure supply cancelled).2.Built good ∧
      (∀ refs, (c.ensure supply cancelled).1 = .ok refs → (c.ensure supply cancelled).2.loaded = some refs) ∧
      (∀ refs, c.loaded = some refs → (c.ensure supply cancelled).2.loaded = some refs) := by
  refine ensure_each cancelled (fun hfetch => ?_) hc
  obtain ⟨bytes, hbytes, hl⟩ := fetchLibrary_eq_ok hfetch
  exact Library.ofBytes_holds (builds _ _ bytes hbytes) hl

end Cache

/-! ### Units of a session -/

/-- A unit that was bound after the units `older` and loaded. -/
structure Follows (refs : ReferenceSet) (older : List ScriptUnit) (u : ScriptUnit) (code : CodeModule) : Prop where
  kind : u.kind = .script (older.length + 1)
  bound : ∃ ctx tree, ctx.unit = u.kind ∧ ctx.earlier = older.filterMap ScriptUnit.declared? ∧
    Binder.Coherent ctx tree u.output
  loaded : ∃ image, Emitted u.kind u.program image ∧ CodeModule.Loaded image refs code

/-- Every unit, the newest first, is the fragment at its position. -/
structure Linked (refs : ReferenceSet) (units : List ScriptUnit) (fragments : Array CodeModule) : Prop where
  size : fragments.size = units.length
  few : units.length < 4294967296
  each : ∀ {newer older : List ScriptUnit} {u : ScriptUnit}, units = newer ++ u :: older →
    ∃ code, fragments[older.length]? = some code ∧ Follows refs older u code

section
variable {refs : ReferenceSet} {units older : List ScriptUnit} {fragments : Array CodeModule} {u : ScriptUnit}
  {code : CodeModule}

theorem linked_empty : Linked refs [] #[] := by
  refine ⟨rfl, by decide, fun {newer older u} h => ?_⟩
  simp at h

/-- The number of submissions cannot pass what fits in 32 bits: the code that would open the next record is
    not loaded. -/
theorem Follows.few (h : Follows refs older u code) (hlength : older.length < 4294967296) :
    older.length + 1 < 4294967296 := by
  obtain ⟨ctx, tree, hunit, -, coherent⟩ := h.bound
  obtain ⟨image, emitted, loaded⟩ := h.loaded
  have hown : ctx.unit.record? = some older.length := by
    rw [hunit, h.kind]
    rfl
  have hrecord := CodeModule.record_isSome coherent (hunit ▸ emitted) loaded (by rw [hunit, h.kind]; rfl) hown
  rcases Nat.lt_or_ge (older.length + 1) 4294967296 with hlt | hge
  · exact hlt
  · have heq : older.length + 1 = 4294967296 := by omega
    rw [loaded.record, emitted.kind, emitted.ordinal, h.kind, imageKind, imageOrdinal, heq] at hrecord
    cases hrecord

/-- A unit has the record of its position. -/
theorem Follows.record (h : Follows refs older u code) (few : older.length + 1 < 4294967296) :
    code.record? = some older.length := by
  obtain ⟨image, emitted, loaded⟩ := h.loaded
  rw [loaded.record, emitted.kind, emitted.ordinal, h.kind]
  exact Image.ownRecord?_script few

/-- The record of a unit has the names of its symbols. -/
theorem Follows.names (h : Follows refs older u code) : code.slots = u.symbols.names := by
  obtain ⟨ctx, tree, hunit, -, coherent⟩ := h.bound
  obtain ⟨image, emitted, loaded⟩ := h.loaded
  have hnames : u.program.slots = u.symbols.names := coherent.slots (by rw [hunit, h.kind]; rfl)
  rw [loaded.slots, emitted.slots, hnames]

theorem Follows.slots (h : Follows refs older u code) : code.slots.size = u.symbols.size := by
  rw [h.names, Symbols.names, Array.size_map, Symbols.size]

/-- The positions of slots have 16 bits. -/
theorem Follows.fewSlots (h : Follows refs older u code) : u.symbols.size ≤ 65536 := by
  obtain ⟨image, emitted, loaded⟩ := h.loaded
  rw [← h.slots, loaded.slots]
  exact emitted.fewSlots

theorem getElem?_push_of_some {α : Type} {xs : Array α} {x y : α} {i : Nat} (h : xs[i]? = some y) :
    (xs.push x)[i]? = some y := by
  have hlt := (Array.getElem?_eq_some_iff.mp h).1
  rwa [Array.getElem?_push, if_neg (Nat.ne_of_lt hlt)]

theorem Linked.push (h : Linked refs units fragments) (follows : Follows refs units u code) :
    Linked refs (u :: units) (fragments.push code) := by
  refine ⟨by rw [Array.size_push, h.size, List.length_cons], follows.few h.few, fun {newer older u'} heq => ?_⟩
  cases newer with
  | nil =>
    cases heq
    refine ⟨code, ?_, follows⟩
    rw [← h.size]
    exact Array.getElem?_push_size
  | cons first newer =>
    obtain ⟨-, heq⟩ := List.cons_eq_cons.mp heq
    obtain ⟨code', hcode', follows'⟩ := h.each heq
    exact ⟨code', getElem?_push_of_some hcode', follows'⟩

theorem Linked.fewOlder (h : Linked refs units fragments) {newer : List ScriptUnit} (hsplit : units = newer ++ u :: older) :
    older.length + 1 < 4294967296 := by
  have few := h.few
  rw [hsplit, List.length_append, List.length_cons] at few
  omega

/-- The fragment at a position belongs to a unit. -/
theorem Linked.unit (h : Linked refs units fragments) {i : Nat} (hcode : fragments[i]? = some code) :
    ∃ newer u older, units = newer ++ u :: older ∧ older.length = i ∧ Follows refs older u code := by
  have hlt : i < units.length := h.size ▸ (Array.getElem?_eq_some_iff.mp hcode).1
  -- Fragments count from the oldest unit, and the list begins with the newest.
  have hn : units.length - 1 - i < units.length := by omega
  have hsplit : units = units.take (units.length - 1 - i) ++ units[units.length - 1 - i] ::
      units.drop (units.length - 1 - i + 1) := by
    rw [← List.drop_eq_getElem_cons hn, List.take_append_drop]
  have hlength : (units.drop (units.length - 1 - i + 1)).length = i := by
    rw [List.length_drop]
    omega
  obtain ⟨code', hcode', follows⟩ := h.each hsplit
  rw [hlength, hcode] at hcode'
  cases hcode'
  exact ⟨_, _, _, hsplit, hlength, follows⟩

/-- The slots in scope in a unit are there: its own ones are those of its record, and those of an earlier unit
    are the ones that it declared. -/
theorem Linked.hasSlot (h : Linked refs units fragments) {newer : List ScriptUnit} (hsplit : units = newer ++ u :: older)
    (hcode : fragments[older.length]? = some code) (follows : Follows refs older u code) {ctx : Binder.Context}
    (hunit : ctx.unit = u.kind) (hearlier : ctx.earlier = older.filterMap ScriptUnit.declared?) {record slot : Nat}
    (hplace : (Bound.Place.slot record slot).In (u.output.scope ctx)) : Program.HasSlot ⟨refs, fragments⟩ record slot := by
  obtain ⟨hown, hslot⟩ | ⟨d, hd, rfl, symbol, hsymbol, rfl⟩ := hplace
  · have hown : u.kind.record? = some record := hunit ▸ hown
    rw [follows.kind] at hown
    cases hown
    exact ⟨code, hcode, Nat.lt_of_lt_of_eq hslot follows.slots.symm⟩
  · have hd : d ∈ older.filterMap ScriptUnit.declared? := hearlier ▸ hd
    obtain ⟨u', hu', hdeclared⟩ := List.mem_filterMap.mp hd
    obtain ⟨a, b, rfl⟩ := List.append_of_mem hu'
    have hsplit' : units = (newer ++ u :: a) ++ u' :: b := by
      rw [hsplit, List.append_assoc, List.cons_append]
    obtain ⟨code', hcode', follows'⟩ := h.each hsplit'
    obtain ⟨ctx', tree', -, -, coherent'⟩ := follows'.bound
    rw [ScriptUnit.declared?, follows'.kind] at hdeclared
    cases hdeclared
    exact ⟨code', hcode', Nat.lt_of_lt_of_eq (coherent'.ordered.lt hsymbol) follows'.slots.symm⟩

/-- All code that a submission can reach is sound. -/
theorem Linked.sound {good : ScriptUnit → Prop} (built : refs.Built good) (h : Linked refs units fragments) :
    Program.Sound ⟨refs, fragments⟩ := by
  intro home code hcode
  cases home with
  | library i =>
    obtain ⟨l, hl, rfl⟩ := Option.map_eq_some_iff.mp hcode
    obtain ⟨u, holds, -⟩ := built l (Array.mem_of_getElem? hl)
    exact holds.sound _ _
  | fragment i =>
    obtain ⟨newer, u, older, hsplit, rfl, follows⟩ := h.unit hcode
    obtain ⟨ctx, tree, hunit, hearlier, coherent⟩ := follows.bound
    obtain ⟨image, emitted, loaded⟩ := follows.loaded
    have few := h.fewOlder hsplit
    refine CodeModule.sound_of_emitted coherent (hunit ▸ emitted) loaded (fun hresolve => built.resolve hresolve)
      (fun k hk => ?_) (h.hasSlot hsplit hcode follows hunit hearlier)
    rw [follows.record few] at hk
    cases hk
    rfl

/-! ### Compiled submissions -/

theorem Executable.ofUnit_eq_ok {e : Executable} (h : ofUnit u refs = .ok e) : ∃ image, u.image = .ok image ∧
    ofBytes image.bytes refs (u.kind.entryName?.getD (u.kind.qualified "<Main>")) = .ok e := by
  obtain ⟨image, himage, h⟩ := except_bind_eq_ok.mp h
  dsimp only at h
  split at h
  · rename_i e' he
    cases h
    exact ⟨image, himage, he⟩
  · cases h

theorem Chain.compile_eq_ok {c : Chain} {source : String} {accepted : Compiled} (h : c.compile source refs = .ok accepted) :
    ScriptUnit.create (.script (c.index + 1)) source refs c.imports c.declared = .ok accepted.unit ∧
      accepted.unit.hasErrors = false ∧ Executable.ofUnit accepted.unit refs = .ok accepted.executable := by
  unfold Chain.compile at h
  split at h
  · cases h
  · rename_i u hu
    split at h
    · cases h
    · rename_i hclean
      split at h
      · cases h
      · rename_i executable hexecutable
        cases h
        exact ⟨hu, Bool.not_eq_true _ ▸ hclean, hexecutable⟩

/-- What is known of a submission that was accepted: its unit follows the earlier ones, and its entry routine
    is there and takes no arguments. -/
theorem Chain.compile_follows {c : Chain} {source : String} {accepted : Compiled}
    (h : c.compile source refs = .ok accepted) (encodes : accepted.unit.Encodes) :
    Follows refs c.units accepted.unit accepted.executable.code ∧
      ∃ r, accepted.executable.code.functions[accepted.executable.entry]? = some r ∧ r.arity = 0 := by
  obtain ⟨hu, -, hexecutable⟩ := compile_eq_ok h
  obtain ⟨image, himage, hbytes⟩ := Executable.ofUnit_eq_ok hexecutable
  obtain ⟨hkind, tree, -, coherent⟩ := ScriptUnit.create_coherent hu
  obtain ⟨image', hdecode, hload, hentry⟩ := Executable.ofBytes_eq_ok hbytes
  rw [encodes.decode himage] at hdecode
  cases hdecode
  exact ⟨⟨hkind, ⟨_, tree, hkind.symm, rfl, coherent⟩, image, image_emitted himage, CodeModule.load_loaded hload⟩,
    CodeModule.entry_eq_ok hentry⟩

end
end ScriptEngine
