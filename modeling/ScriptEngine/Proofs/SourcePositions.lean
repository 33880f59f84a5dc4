import Mathlib.Data.List.DropRight
import Mathlib.Data.Prod.Lex
import Mathlib.Order.Monotone.Defs
import ScriptEngine.Proofs.SourceTokens

/-! Lines and columns. The position of an offset counts the lines that end before it, and the characters before it on its
    own line (`Position.foldl_next_first`). Each character of a text leads to a later position, so different offsets have
    different positions, in the same order (`Position.ofOffset_exact`). -/

namespace ScriptEngine.Position

/-- Positions in the order of a text: by their lines, and on one line by their columns. -/
def key (p : Position) : Nat ×ₗ Nat := toLex (p.line, p.column)

/-! ### Going through a text -/

theorem advance_zero (p : Position) (cs : List Char) : p.advance cs 0 = p := by
  cases cs with
  | nil => rfl
  | cons c cs => exact if_pos rfl

/-- The bytes of some characters lead past these characters. -/
theorem advance_append (p : Position) (before after : List Char) (more : Nat) :
    p.advance (before ++ after) (byteLength before + more) = (before.foldl next p).advance after more := by
  induction before generalizing p with
  | nil => rw [List.nil_append, byteLength, Nat.zero_add, List.foldl_nil]
  | cons c cs ih =>
    have size := c.utf8Size_pos
    have rest : c.utf8Size + byteLength cs + more - c.utf8Size = byteLength cs + more := by omega
    rw [List.cons_append, byteLength, advance, if_neg (by omega), if_pos (by omega), rest, ih, List.foldl_cons]

/-- Behind the end of a text there is nothing more to go past. -/
theorem advance_beyond (p : Position) {cs : List Char} {offset : Nat} (h : byteLength cs ≤ offset) :
    p.advance cs offset = cs.foldl next p := by
  obtain ⟨more, rfl⟩ := Nat.exists_eq_add_of_le h
  have passed := advance_append p cs [] more
  rwa [List.append_nil] at passed

theorem ofOffset_append (before after : List Char) :
    ofOffset (before ++ after) (byteLength before) = before.foldl next first := by
  have passed := advance_append first before after 0
  rwa [Nat.add_zero, advance_zero] at passed

/-! ### Counting -/

/-- Behind some characters: one line more for each newline, and one column more for each character since the last one. -/
theorem foldl_next_first (cs : List Char) :
    cs.foldl next first = ⟨1 + cs.count '\n', 1 + (cs.rtakeWhile (· ≠ '\n')).length⟩ := by
  induction cs using List.reverseRecOn with
  | nil => rfl
  | append_singleton cs c ih =>
    rw [List.foldl_append, List.foldl_cons, List.foldl_nil, ih, next, List.count_append]
    by_cases newline : c = '\n'
    · subst newline
      rw [if_pos rfl, List.rtakeWhile_concat_neg _ _ _ (by decide)]
      rfl
    · have none : [c].count '\n' = 0 := List.count_eq_zero.mpr fun h => newline (List.mem_singleton.mp h).symm
      rw [if_neg newline, List.rtakeWhile_concat_pos _ _ _ (by simpa using newline), List.length_append, none]
      rfl

/-! ### Order -/

theorem key_lt_next (p : Position) (c : Char) : p.key < (p.next c).key := by
  unfold next
  split
  · exact Prod.Lex.toLex_lt_toLex.mpr (.inl (Nat.lt_succ_self _))
  · exact Prod.Lex.toLex_lt_toLex.mpr (.inr ⟨rfl, Nat.lt_succ_self _⟩)

theorem key_le_foldl_next (p : Position) (cs : List Char) : p.key ≤ (cs.foldl next p).key := by
  induction cs generalizing p with
  | nil => exact le_refl _
  | cons c cs ih => exact (key_lt_next p c).le.trans (ih (p.next c))

/-- More characters lead to a later position. -/
theorem key_lt_foldl_next (p : Position) {cs : List Char} (h : cs ≠ []) : p.key < (cs.foldl next p).key := by
  cases cs with
  | nil => exact absurd rfl h
  | cons c cs => exact (key_lt_next p c).trans_le (key_le_foldl_next (p.next c) cs)

/-! ### Offsets between characters -/

/-- An offset between characters is the length of what stands before it. -/
theorem exists_append_of_isValid {source : String} {offset : Nat} (h : String.Pos.Raw.IsValid source ⟨offset⟩) :
    ∃ before after, source.toList = before ++ after ∧ byteLength before = offset := by
  obtain ⟨before, after, rfl, hoffset⟩ := String.Pos.Raw.isValid_iff_exists_append.mp h
  refine ⟨before.toList, after.toList, String.toList_append, ?_⟩
  rw [byteLength_toList]
  exact congrArg String.Pos.Raw.byteIdx hoffset.symm

/-- Of two offsets between characters, the later one has the characters before the other before it, and some more. -/
theorem exists_between {source before before' after after' : List Char} (h : source = before ++ after)
    (h' : source = before' ++ after') (hlt : byteLength before < byteLength before') :
    ∃ between, between ≠ [] ∧ before' = before ++ between := by
  obtain ⟨between, rfl⟩ | ⟨between, rfl⟩ : before <+: before' ∨ before' <+: before :=
    List.prefix_or_prefix_of_prefix (h ▸ List.prefix_append ..) (h' ▸ List.prefix_append ..)
  · refine ⟨between, ?_, rfl⟩
    rintro rfl
    rw [List.append_nil] at hlt
    exact Nat.lt_irrefl _ hlt
  · rw [byteLength_append] at hlt
    omega

/-- The position of an offset between characters is its line, counted by the newlines before it, and its column, counted by
    the characters since the last of them. Later offsets have later positions, and offsets behind the end the position of
    the end. -/
theorem ofOffset_exact (source : String) :
    (∀ offset, String.Pos.Raw.IsValid source ⟨offset⟩ → ∃ before after, source.toList = before ++ after ∧
      byteLength before = offset ∧ ofOffset source.toList offset =
        ⟨1 + before.count '\n', 1 + (before.rtakeWhile (· ≠ '\n')).length⟩) ∧
    StrictMonoOn (fun offset => (ofOffset source.toList offset).key) {offset | String.Pos.Raw.IsValid source ⟨offset⟩} ∧
    Set.InjOn (ofOffset source.toList) {offset | String.Pos.Raw.IsValid source ⟨offset⟩} ∧
    ∀ offset, source.utf8ByteSize ≤ offset →
      ofOffset source.toList offset = ofOffset source.toList source.utf8ByteSize := by
  have increasing : StrictMonoOn (fun offset => (ofOffset source.toList offset).key)
      {offset | String.Pos.Raw.IsValid source ⟨offset⟩} := by
    intro a ha b hb hlt
    obtain ⟨before, after, h, rfl⟩ := exists_append_of_isValid ha
    obtain ⟨before', after', h', rfl⟩ := exists_append_of_isValid hb
    obtain ⟨between, nonempty, rfl⟩ := exists_between h h' hlt
    have earlier : ofOffset source.toList (byteLength before) = before.foldl next first := h ▸ ofOffset_append ..
    have later : ofOffset source.toList (byteLength (before ++ between)) = between.foldl next (before.foldl next first) := by
      rw [h', ofOffset_append, List.foldl_append]
    simp only [earlier, later]
    exact key_lt_foldl_next _ nonempty
  refine ⟨fun offset hvalid => ?_, increasing, fun a ha b hb same => ?_, fun offset hle => ?_⟩
  · obtain ⟨before, after, h, rfl⟩ := exists_append_of_isValid hvalid
    exact ⟨before, after, h, rfl, by rw [h, ofOffset_append, foldl_next_first]⟩
  · exact increasing.injOn ha hb (congrArg key same)
  · have size : byteLength source.toList = source.utf8ByteSize := by rw [byteLength_eq, String.ofList_toList]
    rw [ofOffset, ofOffset, advance_beyond first (size ▸ hle), advance_beyond first size.le]

/-- Two lines, with two letters that take two bytes each. -/
def accented : String := "é\nλb"

/-- The two letters of the second line, and what lies behind the end of the text. -/
theorem ofOffset_exact_accented : String.Pos.Raw.IsValid accented ⟨3⟩ ∧ String.Pos.Raw.IsValid accented ⟨5⟩ ∧
    (∃ before after, accented.toList = before ++ after ∧ byteLength before = 5 ∧ ofOffset accented.toList 5 =
      ⟨1 + before.count '\n', 1 + (before.rtakeWhile (· ≠ '\n')).length⟩) ∧ ofOffset accented.toList 5 = ⟨2, 2⟩ ∧
    (ofOffset accented.toList 3).key < (ofOffset accented.toList 5).key ∧
    ofOffset accented.toList 3 ≠ ofOffset accented.toList 5 ∧
    accented.utf8ByteSize ≤ 100 ∧ ofOffset accented.toList 100 = ofOffset accented.toList accented.utf8ByteSize := by
  obtain ⟨places, increasing, distinct, beyond⟩ := ofOffset_exact accented
  have first : String.Pos.Raw.IsValid accented ⟨3⟩ := @isValid_byteLength accented ['é', '\n'] ['λ', 'b'] rfl
  have second : String.Pos.Raw.IsValid accented ⟨5⟩ := @isValid_byteLength accented ['é', '\n', 'λ'] ['b'] rfl
  refine ⟨first, second, places 5 second, by decide +kernel, increasing first second (by decide), fun same => ?_,
    by decide, beyond 100 (by decide)⟩
  exact absurd (distinct first second same) (by decide)

end ScriptEngine.Position
