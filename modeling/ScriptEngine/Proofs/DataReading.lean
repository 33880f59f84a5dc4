import ScriptEngine.Proofs.PlainData
import ScriptEngine.Proofs.ReadBack
import ScriptEngine.Proofs.TextPieces

/-! Reading the text of plain data. The text is cut into the tokens of an expression, and the reader comes to the end of
    them with the tree of this expression (`Datum.parse`): data do not nest as deeply as expressions may. Only the least
    integer cannot be read, for it is written as a minus and a magnitude that is no integer (`Datum.parse_error`). -/

namespace ScriptEngine
open Lexer

namespace Datum

mutual

/-- How often the least integer occurs. -/
def leasts : Datum → Nat
  | bool _ => 0
  | int n => if n = Int64.minValue then 1 else 0
  | list ds => leastsEach ds

def leastsEach : List Datum → Nat
  | [] => 0
  | d :: ds => leasts d + leastsEach ds

end

mutual

/-- The expression that the datum is written as. -/
def tree : Datum → Tree.Expr
  | bool b => .literal (.bool b) ⟨0, 0⟩
  | int n => .literal (.int n) ⟨0, 0⟩
  | list ds => .list (treeEach ds) ⟨0, 0⟩

def treeEach : List Datum → List Tree.Expr
  | [] => []
  | d :: ds => tree d :: treeEach ds

end

/-! ### Tokens -/

/-- The magnitude of a negative integer. -/
def magnitudePiece (n : Int64) : Piece :=
  if n = Int64.minValue then .fault .bigInteger else .lexeme (.integer (-n))

mutual

/-- The pieces that the text consists of. -/
def pieces : Datum → List Piece
  | bool b => [.lexeme (.keyword (if b then .yes else .no))]
  | int n => if n < 0 then [.lexeme (.mark .minus), magnitudePiece n] else [.lexeme (.integer n)]
  | list ds => .lexeme (.mark .openBracket) :: (piecesEach ds true ++ [.lexeme (.mark .closeBracket)])

def piecesEach : List Datum → Bool → List Piece
  | [], _ => []
  | d :: ds, isFirst => (if isFirst then [] else [.lexeme (.mark .comma), .skipped]) ++ pieces d ++ piecesEach ds false

end

/-- What may stand behind a datum: the end of the text, a comma, or the end of a list. -/
def Delimits (rest : List Char) : Prop := ∀ c ∈ rest.head?, c = ',' ∨ c = ']'

theorem cuts_numeral (n : Nat) {rest : List Char} (hrest : Delimits rest) :
    Cuts (Nat.toDigits 10 n ++ rest) [if n ≤ Decimal.greatestInteger then .lexeme (.integer (.ofNat n)) else .fault .bigInteger]
      rest := by
  refine cuts_toDigits n fun c hc => ?_
  rcases hrest c hc with rfl | rfl
  all_goals exact ⟨by decide, by decide, by decide, by decide, by decide⟩

theorem magnitudePiece_eq {n : Int64} (hneg : n < 0) : magnitudePiece n =
    if n.toInt.natAbs ≤ Decimal.greatestInteger then .lexeme (.integer (.ofNat n.toInt.natAbs)) else .fault .bigInteger := by
  have hneg : n.toInt < 0 := Int64.lt_iff_toInt_lt.mp hneg
  have hleast := Int64.le_toInt n
  rw [magnitudePiece]
  by_cases h : n = Int64.minValue
  · rw [if_pos h, h, Int64.toInt_minValue]
    rfl
  · have hfits : n.toInt.natAbs ≤ Decimal.greatestInteger := by
      have hne : n.toInt ≠ -2 ^ 63 := fun heq => h (Int64.toInt_inj.mp (heq.trans Int64.toInt_minValue.symm))
      have hgreatest : Decimal.greatestInteger = 2 ^ 63 - 1 := rfl
      omega
    rw [if_neg h, if_pos hfits, ← Int64.ofInt_eq_ofNat, Int.ofNat_natAbs_of_nonpos (Int.le_of_lt hneg), Int64.ofInt_neg,
      Int64.ofInt_toInt]

/-- An integer is written as its magnitude, with a minus if it is negative. -/
theorem cuts_int (n : Int64) {rest : List Char} (hrest : Delimits rest) :
    Cuts ((int n).text.toList ++ rest) (int n).pieces rest := by
  have htext : (int n).text = n.toInt.repr := rfl
  have numeral := cuts_numeral n.toInt.natAbs hrest
  rw [htext, Int.repr_eq_if, pieces]
  by_cases hneg : n < 0
  · have hneg' : n.toInt < 0 := Int64.lt_iff_toInt_lt.mp hneg
    have habs : (-n.toInt).toNat = n.toInt.natAbs := by omega
    rw [if_pos hneg, if_neg (Int.not_le.mpr hneg'), habs, String.toList_append, Nat.toList_repr, magnitudePiece_eq hneg]
    exact .cons rfl numeral
  · have hnonneg : 0 ≤ n.toInt := Int.not_lt.mp fun h => hneg (Int64.lt_iff_toInt_lt.mpr h)
    have hfits : n.toInt.natAbs ≤ Decimal.greatestInteger := by
      have := Int64.toInt_lt n
      have hgreatest : Decimal.greatestInteger = 2 ^ 63 - 1 := rfl
      omega
    have habs : n.toInt.toNat = n.toInt.natAbs := by omega
    have hvalue : Int64.ofNat n.toInt.natAbs = n := by
      rw [← Int64.ofInt_eq_ofNat, Int.natAbs_of_nonneg hnonneg, Int64.ofInt_toInt]
    rw [if_pos hfits, hvalue] at numeral
    rw [if_neg hneg, if_pos hnonneg, habs, Nat.toList_repr]
    exact numeral

theorem cuts_bool (b : Bool) {rest : List Char} (hrest : Delimits rest) :
    Cuts ((bool b).text.toList ++ rest) (bool b).pieces rest := by
  have ends (c : Char) (hc : c ∈ rest.head?) : isWordPart c = false := by
    rcases hrest c hc with rfl | rfl
    all_goals rfl
  cases b with
  | true => exact .one (scan_word 't' ['r', 'u', 'e'] rfl (List.all_eq_true.mp rfl) ends)
  | false => exact .one (scan_word 'f' ['a', 'l', 's', 'e'] rfl (List.all_eq_true.mp rfl) ends)

mutual

theorem cuts : ∀ {d : Datum} {rest : List Char}, Delimits rest → Cuts (d.text.toList ++ rest) d.pieces rest
  | .bool b, _, hrest => cuts_bool b hrest
  | .int n, _, hrest => cuts_int n hrest
  | .list ds, rest, hrest => by
    have closing : Cuts (']' :: rest) [.lexeme (.mark .closeBracket)] rest := .one rfl
    have inner : Cuts ((textEach ds true).toList ++ ']' :: rest) (piecesEach ds true) (']' :: rest) :=
      cutsEach (fun c hc => .inr (Option.some.inj hc).symm)
    have htext : (list ds).text.toList ++ rest = '[' :: ((textEach ds true).toList ++ ']' :: rest) := by
      simp [text]
    rw [htext, pieces]
    exact .cons rfl (inner.append closing)

theorem cutsEach : ∀ {ds : List Datum} {isFirst : Bool} {rest : List Char}, Delimits rest →
    Cuts ((textEach ds isFirst).toList ++ rest) (piecesEach ds isFirst) rest
  | [], _, rest, _ => by
    simp only [textEach, piecesEach]
    exact .nil rest
  | d :: ds, isFirst, rest, hrest => by
    have others : Cuts ((textEach ds false).toList ++ rest) (piecesEach ds false) rest := cutsEach hrest
    have delimits : Delimits ((textEach ds false).toList ++ rest) := by
      cases ds with
      | nil => simpa [textEach] using hrest
      | cons d ds =>
        intro c hc
        simp [textEach] at hc
        exact .inl hc.symm
    have both : Cuts ((d.text ++ textEach ds false).toList ++ rest) (d.pieces ++ piecesEach ds false) rest := by
      rw [String.toList_append, List.append_assoc]
      exact (cuts delimits).append others
    rw [textEach, piecesEach]
    cases isFirst with
    | true =>
      rw [if_pos rfl, if_pos rfl, String.empty_append, List.nil_append]
      exact both
    | false =>
      have htext : ((if false then "" else ", ") ++ d.text ++ textEach ds false).toList ++ rest =
          ',' :: ' ' :: ((d.text ++ textEach ds false).toList ++ rest) := by
        simp
      rw [htext]
      exact .cons rfl (.cons rfl both)

end

/-! ### Lexemes and faults -/

mutual

/-- The only faults are the magnitudes of the least integer. -/
theorem faults_pieces : ∀ d : Datum, d.pieces.filterMap Piece.fault? = List.replicate d.leasts .bigInteger
  | .bool _ => rfl
  | .int n => by
    rw [pieces, leasts, magnitudePiece]
    by_cases hleast : n = Int64.minValue
    · rw [if_pos hleast, if_pos hleast, hleast]
      rfl
    · rw [if_neg hleast, if_neg hleast]
      split
      · rfl
      · rfl
  | .list ds => by
    have closing : [Piece.lexeme (.mark .closeBracket)].filterMap Piece.fault? = [] := rfl
    show List.filterMap Piece.fault? (piecesEach ds true ++ _) = _
    rw [List.filterMap_append, faults_piecesEach ds true, closing, List.append_nil, leasts]

theorem faults_piecesEach : ∀ (ds : List Datum) (isFirst : Bool),
    (piecesEach ds isFirst).filterMap Piece.fault? = List.replicate (leastsEach ds) .bigInteger
  | [], _ => rfl
  | d :: ds, isFirst => by
    have comma : (if isFirst then [] else [Piece.lexeme (.mark .comma), .skipped]).filterMap Piece.fault? = [] := by
      cases isFirst
      · rfl
      · rfl
    rw [piecesEach, List.filterMap_append, List.filterMap_append, comma, faults_pieces d, faults_piecesEach ds false,
      List.nil_append, List.replicate_append_replicate, leastsEach]

end

mutual

/-- The lexemes are those of the expression. -/
theorem lexemes_pieces : ∀ {d : Datum}, d.leasts = 0 → d.pieces.filterMap Piece.lexeme? = d.tree.written
  | .bool _, _ => rfl
  | .int n, h => by
    have hleast : n ≠ Int64.minValue := fun heq => by
      rw [leasts, if_pos heq] at h
      cases h
    rw [pieces, magnitudePiece, if_neg hleast, tree, Tree.Expr.written, Literal.written]
    split
    · rfl
    · rfl
  | .list [], _ => rfl
  | .list (d :: ds), h => by
    rw [leasts, leastsEach, Nat.add_eq_zero_iff] at h
    have first := lexemes_pieces h.1
    have others := lexemes_piecesEach h.2
    have written : (list (d :: ds)).tree.written = .mark .openBracket ::
        (d.tree.written ++ (Tree.Expr.writtenEach (treeEach ds)).flatMap (.mark .comma :: ·) ++ [.mark .closeBracket]) := rfl
    rw [written, ← first, ← others, ← List.filterMap_append]
    show Lexeme.mark .openBracket :: List.filterMap Piece.lexeme? (pieces d ++ piecesEach ds false ++ _) = _
    rw [List.filterMap_append]
    rfl

theorem lexemes_piecesEach : ∀ {ds : List Datum}, leastsEach ds = 0 → (piecesEach ds false).filterMap Piece.lexeme? =
    (Tree.Expr.writtenEach (treeEach ds)).flatMap (.mark .comma :: ·)
  | [], _ => rfl
  | d :: ds, h => by
    rw [leastsEach, Nat.add_eq_zero_iff] at h
    have first := lexemes_pieces h.1
    have others := lexemes_piecesEach h.2
    rw [treeEach, Tree.Expr.writtenEach, List.flatMap_cons, ← first, ← others, List.cons_append, ← List.filterMap_append]
    rfl

end

theorem tokenize (d : Datum) :
    (d.leasts = 0 → ∃ tokens, Lexer.tokenize d.text.toList = .ok tokens ∧
      tokens.map Token.lexeme = d.tree.written ++ [.endOfInput]) ∧
    (d.leasts ≠ 0 → ∃ errors, Lexer.tokenize d.text.toList = .error errors ∧
      errors.map Error.fault = List.replicate d.leasts .bigInteger) := by
  have whole : Cuts (d.text.toList ++ []) d.pieces [] := cuts fun c hc => nomatch hc
  rw [List.append_nil] at whole
  obtain ⟨tokens, faults⟩ := tokenize_of_cuts whole
  rw [d.faults_pieces] at tokens faults
  constructor
  · intro hnone
    rw [← lexemes_pieces hnone]
    exact tokens (by rw [hnone, List.replicate_zero])
  · intro hsome
    exact faults fun hnil => hsome ((List.replicate_eq_nil_iff ..).mp hnil)

/-! ### Trees -/

section
open ScriptEngine.Tree Tree.Parser Tree.Level

mutual

theorem bare_tree : ∀ d : Datum, d.tree.bare = d.tree
  | .bool _ | .int _ => rfl
  | .list ds => by rw [tree, Expr.bare, bareAll_treeEach ds]

theorem bareAll_treeEach : ∀ ds : List Datum, Expr.bareAll (treeEach ds) = treeEach ds
  | [] => rfl
  | d :: ds => by rw [treeEach, Expr.bareAll, bare_tree d, bareAll_treeEach ds]

end

/-- The level reads what was written of the expression, and nothing can go wrong. -/
abbrev Reads (l : Level) (e : Expr) : Prop := l.ReadsExpr (fun _ => False) e

/-- An operand alone is read one level further in. -/
theorem reads_of_unaryBody {e : Expr} {room : Nat} (h : ∀ {c : Cursor} {rest : List Lexeme}, c.lexemes = e.written ++ rest →
    follow rest < postfixPrecedence → YieldsOr (fun _ => False) ((withRoom room).unaryBody true) c (Gives Expr.bare e.bare rest)) :
    Reads (withRoom (room + 1)) e := by
  intro c rest hc hfollow
  have hless : follow rest < postfixPrecedence := by
    rw [hfollow]
    decide
  exact yields_expression_operand hc (fun _ hc => yields_enter hc fun _ hc => h hc hless) hfollow

mutual

/-- A datum is read where there is room for its levels, for the operand itself and for a minus. -/
theorem reads : ∀ {d : Datum} {room : Nat}, d.levels + 2 ≤ room → Reads (withRoom room) d.tree
  | .bool b, room + 2, _ => reads_of_unaryBody fun hc hfollow => by
    cases b with
    | true => exact yields_unaryBody_operand hc rfl (yields_operand_literal (.bool true) hc hfollow)
    | false => exact yields_unaryBody_operand hc rfl (yields_operand_literal (.bool false) hc hfollow)
  | .int n, room + 2, _ => reads_of_unaryBody fun hc hfollow => by
    rw [tree, Expr.written, Literal.written] at hc
    split at hc
    · refine yields_unaryBody_negative hc fun c hc => yields_enter hc fun c hc => ?_
      exact yields_unaryBody_operand hc rfl (yields_operand_literal (.int (-n)) hc hfollow)
    · exact yields_unaryBody_operand hc rfl (yields_operand_literal (.int n) hc hfollow)
  | .list ds, room + 1, h => reads_of_unaryBody fun {c rest} hc hfollow => by
    rw [tree, Expr.written, List.cons_append, List.append_assoc] at hc
    refine yields_unaryBody_operand hc rfl (yields_operand_alone hc (fun c hc => ?_) hfollow)
    rw [tree, Expr.bare]
    exact yields_primary_list (readsEach (Nat.le_of_succ_le_succ h)) hc

theorem readsEach : ∀ {ds : List Datum} {room : Nat}, levelsEach ds + 2 ≤ room →
    ∀ e ∈ treeEach ds, Reads (withRoom room) e
  | [], _, _ => List.forall_mem_nil _
  | d :: ds, room, h => by
    rw [levelsEach] at h
    exact List.forall_mem_cons.mpr ⟨reads (by omega), readsEach (by omega)⟩

end

theorem ofCursor_tree {d : Datum} {c : Cursor} (fuel : Nat) (hlevels : d.levels + 2 ≤ maxNesting)
    (h : c.lexemes = d.tree.written ++ [.endOfInput]) (hfuel : 0 < fuel) :
    ∃ e stop, Reading.ofCursor fuel c = ⟨[], some e, [], stop⟩ ∧ e.bare = d.tree := by
  obtain ⟨fuel, rfl⟩ := Nat.exists_eq_add_one_of_ne_zero (Nat.ne_of_gt hfuel)
  have reads : Reads Level.top d.tree := reads hlevels
  rcases (yields_item_tail (c := { c with peak := 0 }) reads h (.inr rfl)).cases
    with ⟨item, after, hrun, e, rfl, he, hafter⟩ | ⟨error, after, hrun, impossible⟩
  · have hend : after.atEnd = true := by
      rw [Cursor.atEnd, Cursor.lexeme_of_lexemes hafter]
      rfl
    refine ⟨e, after.span.start, ?_, he.trans d.bare_tree⟩
    rw [Reading.ofCursor_item (d.tree.written_begins.item.append _) h, hrun]
    show (if after.atEnd then (Reading.ofCursor fuel after).addTail e else _) = _
    rw [if_pos hend, Reading.ofCursor_end fuel hend]
    rfl
  · exact impossible.elim

/-- The text of a datum without the least integer is read as its expression. -/
theorem parse {d : Datum} (hleasts : d.leasts = 0) (hlevels : d.levels + 2 ≤ maxNesting) :
    ∃ e span, Fragment.parse d.text.toList = .ok ⟨[], some e, span⟩ ∧ e.bare = d.tree := by
  obtain ⟨tokens, htokens, hlexemes⟩ := d.tokenize.1 hleasts
  obtain ⟨e, stop, hread, he⟩ := ofCursor_tree (c := ⟨tokens, ⟨0, 0⟩, 0⟩) tokens.length hlevels hlexemes (by
    rw [← List.length_map, hlexemes, List.length_append]
    exact Nat.succ_pos _)
  refine ⟨e, ⟨0, stop⟩, ?_, he⟩
  rw [Fragment.parse, htokens]
  simp only [Fragment.ofTokens, hread, List.isEmpty_nil, if_true]

/-- The text of a datum with the least integer is refused, with one message for each time that it occurs. -/
theorem parse_error {d : Datum} (hleasts : d.leasts ≠ 0) : ∃ errors, Fragment.parse d.text.toList = .error errors ∧
    errors.map SyntaxError.cause = List.replicate d.leasts (.lexical .bigInteger) := by
  obtain ⟨errors, htokens, hfaults⟩ := d.tokenize.2 hleasts
  refine ⟨errors.map SyntaxError.ofLexer, ?_, ?_⟩
  · rw [Fragment.parse, htokens]
  · have hcause : SyntaxError.cause ∘ SyntaxError.ofLexer = .lexical ∘ Error.fault := rfl
    rw [List.map_map, hcause, ← List.map_map, hfaults, List.map_replicate]

end

end Datum
end ScriptEngine
