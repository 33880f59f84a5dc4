import ScriptEngine.Proofs.SessionRuns

/-! The cache of libraries, whatever is done with it: it is asked for its libraries, and the token that its loads
    listen to is cancelled and armed again, also while a load is under way (`Cache.History`). An attempt requests
    locations from the first one on and gives one library for each of them or none at all (`Cache.Attempt`). After the
    first attempt that succeeds there is no other (`Cache.History.loaded_once`). -/

namespace ScriptEngine

theorem Library.ofBytes_location {location : String} {bytes : List UInt8} {l : Library}
    (h : Library.ofBytes location bytes = .ok l) : l.location = location := by
  unfold Library.ofBytes at h
  split at h
  · cases h
  · split at h
    · cases h
    · split at h
      · cases h
      · cases h
        rfl

/-- The bytes are the image of no library: they are no image, they cannot be linked, or they are a submission's. -/
theorem Library.ofBytes_eq_error {location : String} {bytes : List UInt8} {e : ReferenceError}
    (h : Library.ofBytes location bytes = .error e) :
    (∃ cause, e = .malformed location cause ∧ (Image.decode bytes = .error cause ∨
      ∃ image, Image.decode bytes = .ok image ∧ image.kind = .library ∧ CodeModule.load image #[] = .error cause)) ∨
    (e = .notLibrary location ∧ ∃ image, Image.decode bytes = .ok image ∧ image.kind ≠ .library) := by
  unfold Library.ofBytes at h
  split at h
  · rename_i cause hdecode
    cases h
    exact .inl ⟨cause, rfl, .inl hdecode⟩
  · rename_i image hdecode
    split at h
    · rename_i hkind
      cases h
      exact .inr ⟨rfl, image, hdecode, hkind⟩
    · rename_i hkind
      split at h
      · rename_i cause hload
        cases h
        exact .inl ⟨cause, rfl, .inr ⟨image, hdecode, Decidable.not_not.mp hkind, hload⟩⟩
      · cases h

namespace Cache

variable {supply : Supply} {cancels : Cancels} {earlier locations : List String} {set : ReferenceSet}

/-! ### One attempt -/

/-- One library for each of the locations, in their order, built from the answer to the request for it; the requests
    follow the earlier ones. No two libraries have the same name. -/
structure Collected (supply : Supply) (cancels : Cancels) (earlier locations : List String) (set : ReferenceSet) :
    Prop where
  size : set.size = locations.length
  each : ∀ {i : Nat} {location : String}, locations[i]? = some location → ∃ l bytes, set[i]? = some l ∧
    l.location = location ∧ cancels (earlier ++ locations.take i) = false ∧
    supply (earlier ++ locations.take i) location = .ok bytes ∧ Library.ofBytes location bytes = .ok l
  names : set.toList.Pairwise fun l l' => l.name ≠ l'.name

/-- Why an attempt ends at a location, after the libraries of those before it. -/
inductive Refused (supply : Supply) (cancels : Cancels) (earlier : List String) (location : String) (set : ReferenceSet) :
    ReferenceError → Prop where
  | cancelled (found : cancels earlier = true) : Refused supply cancels earlier location set .cancelled
  | fetch {cause : FetchError} (waited : cancels earlier = false) (answer : supply earlier location = .error cause) :
      Refused supply cancels earlier location set (.fetch location cause)
  | malformed {bytes : List UInt8} {cause : LoadError} (waited : cancels earlier = false)
      (answer : supply earlier location = .ok bytes)
      (bad : Image.decode bytes = .error cause ∨
        ∃ image, Image.decode bytes = .ok image ∧ image.kind = .library ∧ CodeModule.load image #[] = .error cause) :
      Refused supply cancels earlier location set (.malformed location cause)
  | notLibrary {bytes : List UInt8} {image : Image} (waited : cancels earlier = false)
      (answer : supply earlier location = .ok bytes) (decoded : Image.decode bytes = .ok image)
      (kind : image.kind ≠ .library) : Refused supply cancels earlier location set (.notLibrary location)
  | duplicate {bytes : List UInt8} {l first : Library} (waited : cancels earlier = false)
      (answer : supply earlier location = .ok bytes) (built : Library.ofBytes location bytes = .ok l)
      (before : first ∈ set) (same : first.name = l.name) :
      Refused supply cancels earlier location set (.duplicateName l.name first.location location)

/-- What an attempt to load the locations comes to, and the locations that it requested. -/
inductive Attempt (supply : Supply) (cancels : Cancels) (earlier locations : List String) :
    Except ReferenceError ReferenceSet → List String → Prop where
  | loaded {set : ReferenceSet} (collected : Collected supply cancels earlier locations set) :
      Attempt supply cancels earlier locations (.ok set) locations
  | failed {before rest : List String} {location : String} {set : ReferenceSet} {e : ReferenceError}
      (split : locations = before ++ location :: rest) (collected : Collected supply cancels earlier before set)
      (refused : Refused supply cancels (earlier ++ before) location set e) :
      Attempt supply cancels earlier locations (.error e) (before ++ [location])

theorem Attempt.requested_prefix {result : Except ReferenceError ReferenceSet} {requested : List String}
    (h : Attempt supply cancels earlier locations result requested) : requested <+: locations := by
  cases h with
  | loaded => exact List.prefix_refl _
  | @failed before rest location set e split _ _ =>
    rw [split]
    exact ⟨rest, by rw [List.append_assoc, List.singleton_append]⟩

theorem collected_nil : Collected supply cancels earlier [] #[] :=
  ⟨rfl, fun h => (nomatch h), List.Pairwise.nil⟩

/-- The library of one more location. -/
theorem Collected.push (h : Collected supply cancels earlier locations set) {location : String} {bytes : List UInt8}
    {l : Library} (waited : cancels (earlier ++ locations) = false)
    (answer : supply (earlier ++ locations) location = .ok bytes) (built : Library.ofBytes location bytes = .ok l)
    (fresh : ∀ l' ∈ set, l'.name ≠ l.name) :
    Collected supply cancels earlier (locations ++ [location]) (set.push l) where
  size := by rw [Array.size_push, List.length_append, List.length_singleton, h.size]
  each {i wanted} hi := by
    rcases Nat.lt_trichotomy i locations.length with hlt | rfl | hgt
    · rw [List.getElem?_append_left hlt] at hi
      obtain ⟨l', bytes', hl', given⟩ := h.each hi
      refine ⟨l', bytes', ?_, ?_⟩
      · rw [Array.getElem?_push_lt (h.size ▸ hlt), ← hl', Array.getElem?_eq_getElem]
      · rwa [List.take_append_of_le_length (Nat.le_of_lt hlt)]
    · obtain rfl : location = wanted := by simpa using hi
      refine ⟨l, bytes, ?_, Library.ofBytes_location built, ?_⟩
      · rw [← h.size, Array.getElem?_push_size]
      · rw [List.take_left]
        exact ⟨waited, answer, built⟩
    · rw [List.getElem?_eq_none (by rw [List.length_append, List.length_singleton]; omega)] at hi
      cases hi
  names := by
    rw [Array.toList_push]
    refine List.pairwise_append.mpr ⟨h.names, List.pairwise_singleton _ _, fun l' hl' l'' hl'' => ?_⟩
    obtain rfl := List.mem_singleton.mp hl''
    exact fresh l' (Array.mem_toList_iff.mp hl')

/-- A library is added if its name is new. -/
theorem addLibrary_cases (set : ReferenceSet) (l : Library) :
    (addLibrary set l = .ok (set.push l) ∧ ∀ l' ∈ set, l'.name ≠ l.name) ∨
    ∃ first ∈ set, first.name = l.name ∧ addLibrary set l = .error (.duplicateName l.name first.location l.location) := by
  unfold addLibrary
  cases hfound : set.library? l.name with
  | none => exact .inl ⟨rfl, fun l' hl' same => Array.find?_eq_none.mp hfound l' hl' (decide_eq_true same)⟩
  | some first =>
    exact .inr ⟨first, Array.mem_of_find?_eq_some hfound, of_decide_eq_true (Array.find?_some hfound :), rfl⟩

/-- The request for one location adds its library, or ends the attempt. -/
theorem fetchLibrary_cases (supply : Supply) (waited : cancels earlier = false) (location : String) (set : ReferenceSet) :
    (∃ l bytes, (fetchLibrary supply earlier location >>= addLibrary set) = .ok (set.push l) ∧
      supply earlier location = .ok bytes ∧ Library.ofBytes location bytes = .ok l ∧ ∀ l' ∈ set, l'.name ≠ l.name) ∨
    ∃ e, (fetchLibrary supply earlier location >>= addLibrary set) = .error e ∧
      Refused supply cancels earlier location set e := by
  unfold fetchLibrary
  cases answer : supply earlier location with
  | error cause => exact .inr ⟨_, rfl, .fetch waited answer⟩
  | ok bytes =>
    dsimp only
    cases built : Library.ofBytes location bytes with
    | error e =>
      refine .inr ⟨e, rfl, ?_⟩
      obtain ⟨cause, rfl, bad⟩ | ⟨rfl, image, decoded, kind⟩ := Library.ofBytes_eq_error built
      · exact .malformed waited answer bad
      · exact .notLibrary waited answer decoded kind
    | ok l =>
      obtain ⟨added, fresh⟩ | ⟨first, before, same, refused⟩ := addLibrary_cases set l
      · exact .inl ⟨l, bytes, added, rfl, built, fresh⟩
      · rw [Library.ofBytes_location built] at refused
        exact .inr ⟨_, refused, .duplicate waited answer built before same⟩

/-- Loading the locations behind those whose libraries were collected. -/
theorem loadAll_attempt (rest : List String) {before : List String} (h : Collected supply cancels earlier before set) :
    ∃ requested, (loadAll supply cancels rest set (earlier ++ before)).2 = earlier ++ requested ∧
      Attempt supply cancels earlier (before ++ rest) (loadAll supply cancels rest set (earlier ++ before)).1 requested := by
  induction rest generalizing before set with
  | nil =>
    rw [List.append_nil]
    exact ⟨before, rfl, .loaded h⟩
  | cons location rest ih =>
    unfold loadAll
    cases found : cancels (earlier ++ before) with
    | true => exact ⟨before ++ [location], List.append_assoc .., .failed rfl h (.cancelled found)⟩
    | false =>
      rw [if_neg Bool.false_ne_true]
      obtain ⟨l, bytes, hadd, answer, built, fresh⟩ | ⟨e, hadd, refused⟩ :=
        fetchLibrary_cases supply found location set
      · rw [hadd]
        dsimp only
        have next := ih (h.push found answer built fresh)
        rwa [List.append_assoc before, List.singleton_append, ← List.append_assoc earlier] at next
      · rw [hadd]
        exact ⟨before ++ [location], List.append_assoc .., .failed rfl h refused⟩

/-- Asking a cache in which nothing is loaded is one attempt. What it leaves there is what it gives. -/
theorem ensureUnder_attempt {c : Cache} (empty : c.loaded = none) (supply : Supply) (cancels : Cancels) :
    ∃ requested, Attempt supply cancels c.requested c.locations (c.ensureUnder supply cancels).1 requested ∧
      (c.ensureUnder supply cancels).2 =
        ⟨c.locations, (c.ensureUnder supply cancels).1.toOption, c.attempts + 1, c.requested ++ requested⟩ := by
  obtain ⟨requested, hrequested, attempt⟩ :=
    loadAll_attempt c.locations (collected_nil : Collected supply cancels c.requested [] #[])
  rw [List.append_nil] at hrequested attempt
  simp only [ensureUnder, empty]
  generalize loadAll supply cancels c.locations #[] c.requested = loaded at hrequested attempt
  obtain ⟨result, log⟩ := loaded
  obtain rfl : log = _ := hrequested
  cases result with
  | ok set => exact ⟨requested, attempt, rfl⟩
  | error e => exact ⟨requested, attempt, rfl⟩

theorem ensureUnder_loaded {c : Cache} (loaded : c.loaded = some set) (supply : Supply) (cancels : Cancels) :
    c.ensureUnder supply cancels = (.ok set, c) := by
  rw [ensureUnder, loaded]

/-! ### Histories -/

/-- One time that a cache was asked for its libraries. -/
structure Call where
  before : Cache
  cancels : Cancels
  result : Except ReferenceError ReferenceSet
  after : Cache

/-- What can be done with a cache and the token that its loads listen to, and the calls that were made, the oldest
    first. A cancelled token is noticed at the first request of a load; and during a call the token may be cancelled
    and armed again. -/
inductive History (supply : Supply) (locations : List String) : List Call → Cache → Bool → Prop where
  | start : History supply locations [] (.start locations) false
  | cancel {calls : List Call} {c : Cache} {token : Bool} (history : History supply locations calls c token) :
      History supply locations calls c true
  | rearm {calls : List Call} {c : Cache} {token : Bool} (history : History supply locations calls c token) :
      History supply locations calls c false
  | ask {calls : List Call} {c : Cache} {token token' : Bool} {cancels : Cancels}
      (history : History supply locations calls c token) (noticed : token = true → cancels c.requested = true) :
      History supply locations
        (calls ++ [⟨c, cancels, (c.ensureUnder supply cancels).1, (c.ensureUnder supply cancels).2⟩])
        (c.ensureUnder supply cancels).2 token'

namespace History

variable {calls : List Call} {c : Cache} {token : Bool}

theorem locations_eq (h : History supply locations calls c token) : c.locations = locations := by
  induction h with
  | start => rfl
  | cancel _ ih | rearm _ ih => exact ih
  | @ask calls c token token' cancels _ _ ih =>
    cases hloaded : c.loaded with
    | none =>
      obtain ⟨requested, -, after⟩ := ensureUnder_attempt hloaded supply cancels
      rw [after]
      exact ih
    | some set =>
      rw [ensureUnder_loaded hloaded]
      exact ih

/-- What is in the cache was given by an attempt, and the calls since then left the cache as it is. -/
theorem given (h : History supply locations calls c token) {set : ReferenceSet} (loaded : c.loaded = some set) :
    ∃ call ∈ calls, call.before.loaded = none ∧ call.result = .ok set := by
  induction h with
  | start => cases loaded
  | cancel _ ih | rearm _ ih => exact ih loaded
  | @ask calls c token token' cancels _ _ ih =>
    cases hloaded : c.loaded with
    | none =>
      obtain ⟨requested, -, after⟩ := ensureUnder_attempt hloaded supply cancels
      rw [after] at loaded
      exact ⟨_, List.mem_append_right _ (.head _), hloaded, except_toOption_eq_some.mp loaded⟩
    | some set' =>
      rw [ensureUnder_loaded hloaded] at loaded
      obtain ⟨call, member, given⟩ := ih loaded
      exact ⟨call, List.mem_append_left _ member, given⟩

/-- A call that succeeded left its libraries in the cache, where they still are. -/
theorem kept (h : History supply locations calls c token) {call : Call} (member : call ∈ calls) {set : ReferenceSet}
    (given : call.result = .ok set) : c.loaded = some set ∧ c = call.after := by
  induction h with
  | start => cases member
  | cancel _ ih | rearm _ ih => exact ih member
  | @ask calls c token token' cancels _ _ ih =>
    rcases List.mem_append.mp member with member | member
    · obtain ⟨hloaded, rfl⟩ := ih member
      rw [ensureUnder_loaded hloaded]
      exact ⟨hloaded, rfl⟩
    · obtain rfl := List.mem_singleton.mp member
      refine ⟨?_, rfl⟩
      cases hloaded : c.loaded with
      | none =>
        obtain ⟨requested, -, after⟩ := ensureUnder_attempt hloaded supply cancels
        rw [after]
        exact except_toOption_eq_some.mpr given
      | some set' =>
        dsimp only at given
        rw [ensureUnder_loaded hloaded] at given ⊢
        cases given
        exact hloaded

/-- What each call does, by whether something was loaded before it. -/
theorem call_cases (h : History supply locations calls c token) {call : Call} (member : call ∈ calls) :
    (∀ set, call.before.loaded = some set → call.result = .ok set ∧ call.after = call.before) ∧
    (call.before.loaded = none → ∃ requested, Attempt supply call.cancels call.before.requested locations call.result requested ∧
      call.after = ⟨locations, call.result.toOption, call.before.attempts + 1, call.before.requested ++ requested⟩) := by
  induction h with
  | start => cases member
  | cancel _ ih | rearm _ ih => exact ih member
  | @ask calls c token token' cancels history _ ih =>
    rcases List.mem_append.mp member with member | member
    · exact ih member
    · obtain rfl := List.mem_singleton.mp member
      refine ⟨fun set loaded => ?_, fun empty => ?_⟩
      · dsimp only at loaded ⊢
        rw [ensureUnder_loaded loaded]
        exact ⟨rfl, rfl⟩
      · obtain rfl := history.locations_eq
        exact ensureUnder_attempt empty supply cancels

theorem attempts_eq (h : History supply locations calls c token) :
    c.attempts = calls.countP fun call => call.before.loaded.isNone := by
  induction h with
  | start => rfl
  | cancel _ ih | rearm _ ih => exact ih
  | @ask calls c token token' cancels _ _ ih =>
    rw [List.countP_append, ← ih, List.countP_singleton]
    cases hloaded : c.loaded with
    | none =>
      obtain ⟨requested, -, after⟩ := ensureUnder_attempt hloaded supply cancels
      rw [after]
      rfl
    | some set =>
      rw [ensureUnder_loaded hloaded]
      rfl

/-- After a call that succeeded every call gives the same libraries and leaves the cache as it is. -/
theorem same_after (h : History supply locations calls c token) :
    calls.Pairwise fun earlier later =>
      ∀ set, earlier.result = .ok set → later.result = .ok set ∧ later.after = earlier.after := by
  induction h with
  | start => exact .nil
  | cancel _ ih | rearm _ ih => exact ih
  | @ask calls c token token' cancels history _ ih =>
    refine List.pairwise_append.mpr ⟨ih, List.pairwise_singleton _ _, fun call member last hlast set given => ?_⟩
    obtain rfl := List.mem_singleton.mp hlast
    obtain ⟨loaded, hc⟩ := history.kept member given
    rw [ensureUnder_loaded loaded]
    exact ⟨rfl, hc⟩

/-- Loading is all or nothing, and it happens once. A call that finds nothing loaded counts one attempt and requests
    locations from the first one on; it fails and leaves nothing loaded, or it leaves what it gives. A call that finds
    something loaded gives it and leaves the cache as it is, whatever the token says; so do all calls after one that
    succeeded. What is loaded has one library for each location, in their order, built from the answers of one
    attempt, and no two of the same name. -/
theorem loaded_once (h : History supply locations calls c token) :
    (∀ call ∈ calls, call.before.loaded = none →
      call.after.attempts = call.before.attempts + 1 ∧ call.after.loaded = call.result.toOption ∧
      ∃ requested, requested <+: locations ∧ call.after.requested = call.before.requested ++ requested ∧
        Attempt supply call.cancels call.before.requested locations call.result requested) ∧
    (∀ call ∈ calls, ∀ set, call.before.loaded = some set → call.result = .ok set ∧ call.after = call.before) ∧
    (calls.Pairwise fun earlier later =>
      ∀ set, earlier.result = .ok set → later.result = .ok set ∧ later.after = earlier.after) ∧
    (c.attempts = calls.countP fun call => call.before.loaded.isNone) ∧
    ∀ set, c.loaded = some set → ∃ call ∈ calls, call.before.loaded = none ∧ call.result = .ok set ∧
      Collected supply call.cancels call.before.requested locations set := by
  refine ⟨fun call member empty => ?_, fun call member => (h.call_cases member).1, h.same_after, h.attempts_eq,
    fun set loaded => ?_⟩
  · obtain ⟨requested, attempt, after⟩ := (h.call_cases member).2 empty
    rw [after]
    exact ⟨rfl, rfl, requested, attempt.requested_prefix, rfl, attempt⟩
  · obtain ⟨call, member, empty, given⟩ := h.given loaded
    obtain ⟨requested, attempt, -⟩ := (h.call_cases member).2 empty
    rw [given] at attempt
    cases attempt with
    | loaded collected => exact ⟨call, member, empty, given, collected⟩

/-- A supply that fails twice before it gives its library. -/
def unsteadySupply : Supply := .recovering [("lib", 2)] "connection reset" Session.smallSupply

/-- The cache after calls that are cancelled from the beginning or not at all. -/
def askEach (supply : Supply) (c : Cache) (cancelled : List Bool) : Cache :=
  cancelled.foldl (fun c b => (c.ensure supply b).2) c

/-- The first call finds its token cancelled, the second one gets no answer, and the third one succeeds; the fourth one
    gives the same libraries with a cancelled token. -/
theorem loaded_once_unsteady : ∃ calls c, History unsteadySupply ["lib"] calls c true ∧ calls.length = 4 ∧ c.attempts = 3 ∧
    c.requested = ["lib", "lib", "lib"] ∧ ∃ set, c.loaded = some set ∧ ∃ call ∈ calls, call.before.loaded = none ∧
      call.result = .ok set ∧ Collected unsteadySupply call.cancels call.before.requested ["lib"] set := by
  have started : History unsteadySupply ["lib"] [] (.start ["lib"]) false := .start
  have cancelled := @ask _ _ _ _ _ true (fun _ => true) started.cancel fun _ => rfl
  have failed := @ask _ _ _ _ _ false (fun _ => false) cancelled.rearm fun h => (nomatch h)
  have succeeded := @ask _ _ _ _ _ false (fun _ => false) failed fun h => (nomatch h)
  have again := @ask _ _ _ _ _ true (fun _ => true) succeeded.cancel fun _ => rfl
  have computes : (askEach unsteadySupply (.start ["lib"]) [true, false, false, true]).attempts = 3 ∧
      (askEach unsteadySupply (.start ["lib"]) [true, false, false, true]).requested = ["lib", "lib", "lib"] ∧
      (askEach unsteadySupply (.start ["lib"]) [true, false, false, true]).loaded.isSome = true := by
    decide +kernel
  obtain ⟨attempts, requested, isSome⟩ := computes
  obtain ⟨set, loaded⟩ := Option.isSome_iff_exists.mp isSome
  exact ⟨_, _, again, rfl, attempts, requested, set, loaded, again.loaded_once.2.2.2.2 set loaded⟩

end History
end Cache
end ScriptEngine
