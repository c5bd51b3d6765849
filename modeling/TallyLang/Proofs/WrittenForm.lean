/-
The tokens of a written form.

The written form of a function is a source text, and its tokens follow the tree:
every word, literal and mark that the form is put together from is read as one token.
What keeps them apart is that after a word or a literal there is always a blank or a
mark, never a character that could belong to it.

The only part that does not come back is an infinite number.  Its text is `inf`, and
that is a word like any other.
-/
import TallyLang.Function
import TallyLang.Proofs.Binary64.ReadBack
import TallyLang.Proofs.MaximalMunch
import TallyLang.Proofs.Writable

namespace TallyLang

/-! ### Tokens of a text -/

/-- The tokens of a text, without their locations. -/
def lexed (text : List Char) : List Token := (Piece.pieces text).filterMap Piece.token?

theorem map_token_tokensOf (source : String) :
    (tokensOf source).map LocatedToken.token = lexed source.toList ++ [.eof] :=
  map_token_drainFrom _ _

theorem lexed_nil : lexed [] = [] := by
  simp [lexed, Piece.pieces]

/-- Whether a word or a literal in front of the text ends there. -/
def isApart : List Char → Bool
  | [] => true
  | c :: _ => !isNamePart c && c ≠ '.'

theorem takeWhile_isNamePart_of_isApart {rest : List Char} (h : isApart rest = true) :
    rest.takeWhile isNamePart = [] := by
  cases rest with
  | nil => rfl
  | cons c cs =>
      simp only [isApart, Bool.and_eq_true, Bool.not_eq_true'] at h
      simp [h.1]

theorem takeWhile_isDigit_of_isApart {rest : List Char} (h : isApart rest = true) :
    rest.takeWhile isDigit = [] := by
  cases rest with
  | nil => rfl
  | cons c cs =>
      simp only [isApart, isNamePart, Bool.and_eq_true, Bool.not_eq_true', Bool.or_eq_false_iff] at h
      simp [h.1.2]

theorem ne_point_of_isApart {rest : List Char} (h : isApart rest = true) :
    ∀ tail, rest ≠ '.' :: tail := by
  rintro tail rfl
  simp [isApart] at h

/-- A run of a class, with nothing of the class after it, is the run that is found there. -/
theorem span_append {p : Char → Bool} {cs rest : List Char} (hall : ∀ c ∈ cs, p c = true)
    (hend : rest.takeWhile p = []) :
    (cs ++ rest).takeWhile p = cs ∧ (cs ++ rest).dropWhile p = rest := by
  have hrest : rest.takeWhile p ++ rest.dropWhile p = rest := List.takeWhile_append_dropWhile
  rw [hend, List.nil_append] at hrest
  rw [List.takeWhile_append_of_pos hall, List.dropWhile_append_of_pos hall, hend, hrest]
  exact ⟨List.append_nil cs, rfl⟩

/-- What a rule takes is a token or is passed over. -/
theorem lexed_of_takes {r : Rule} {lexeme rest : List Char} (h : r.Takes lexeme rest) :
    lexed (lexeme ++ rest) = (Piece.token? ⟨r.kind lexeme, lexeme⟩).toList ++ lexed rest := by
  have hpieces := (Munches.rule h (munches_pieces rest)).eq_pieces
  rw [lexed, ← hpieces, List.filterMap_cons]
  cases Piece.token? ⟨r.kind lexeme, lexeme⟩ <;> rfl

theorem lexed_symbol (s : Symbol) (rest : List Char) :
    lexed (s.char :: rest) = .symbol s :: lexed rest :=
  lexed_of_takes (Piece.takes_symbol s rest)

theorem lexed_newline (rest : List Char) : lexed ('\n' :: rest) = lexed rest :=
  lexed_of_takes (Piece.takes_feed rest)

theorem lexed_blanks {c : Char} (hc : isBlank c = true) (rest : List Char) :
    lexed (c :: rest) = lexed (rest.dropWhile isBlank) := by
  have h := lexed_of_takes (Piece.takes_blanks hc rest)
  rwa [List.cons_append, List.takeWhile_append_dropWhile] at h

theorem lexed_blank (rest : List Char) : lexed (' ' :: rest) = lexed rest := by
  rw [lexed_blanks rfl]
  cases rest with
  | nil => rfl
  | cons c cs =>
      by_cases hc : isBlank c = true
      · rw [List.dropWhile_cons_of_pos hc, lexed_blanks hc]
      · rw [List.dropWhile_cons_of_neg hc]

/-- A word is read up to where it ends. -/
theorem lexed_word {word : String} (hword : isIdentifier word = true) {rest : List Char}
    (hrest : isApart rest = true) :
    lexed (word.toList ++ rest) = (Piece.word word.toList).token?.toList ++ lexed rest := by
  have hparts := isNamePart_of_mem hword
  unfold isIdentifier at hword
  split at hword
  · cases hword
  · rename_i c cs hchars
    rw [hchars] at hparts ⊢
    obtain ⟨htake, hdrop⟩ := span_append (fun d hd => hparts d (List.mem_cons_of_mem c hd))
      (takeWhile_isNamePart_of_isApart hrest)
    obtain ⟨r, hkind, htakes⟩ := Piece.takes_word (Bool.and_eq_true_iff.mp hword).1 (cs ++ rest)
    rw [htake] at hkind
    rw [htake, hdrop] at htakes
    rw [lexed_of_takes htakes, ← hkind]
    rfl

theorem lexed_name {name : String} (hname : isName name = true) {rest : List Char}
    (hrest : isApart rest = true) : lexed (name.toList ++ rest) = .ident name :: lexed rest := by
  obtain ⟨hident, hkeyword⟩ := Bool.and_eq_true_iff.mp hname
  rw [lexed_word hident hrest, Piece.word, String.ofList_toList]
  rw [Option.isNone_iff_eq_none] at hkeyword
  simp [hkeyword, Piece.token?]

theorem lexed_keyword (k : Keyword) {rest : List Char} (hrest : isApart rest = true) :
    lexed (k.text.toList ++ rest) = .keyword k :: lexed rest := by
  have hident : isIdentifier k.text = true := by cases k <;> decide
  rw [lexed_word hident hrest, Piece.word, String.ofList_toList]
  simp [k.ofText?_text, Piece.token?]

/-- A literal with digits before the point is read up to where it ends. -/
theorem lexed_literal {whole : List Char} {fraction? : Option (List Char)} (hne : whole ≠ [])
    (hwhole : ∀ c ∈ whole, isDigit c = true)
    (hfraction : ∀ fraction, fraction? = some fraction → ∀ c ∈ fraction, isDigit c = true)
    {rest : List Char} (hrest : isApart rest = true) :
    lexed ((Piece.literal whole fraction?).text ++ rest) =
      (Piece.literal whole fraction?).token?.toList ++ lexed rest := by
  have hdigit := takeWhile_isDigit_of_isApart hrest
  have htakes : Rule.number.Takes (Piece.literal whole fraction?).text rest := by
    cases fraction? with
    | none => exact Piece.takes_literal_none hne hwhole hdigit (ne_point_of_isApart hrest)
    | some fraction =>
        obtain ⟨htake, hdrop⟩ := span_append (hfraction fraction rfl) hdigit
        have h := Piece.takes_literal_some hwhole (fraction ++ rest)
        rwa [htake, hdrop] at h
  rw [lexed_of_takes htakes, ← Piece.kind_literal hwhole]

/-! ### Numbers -/

theorem Binary64.isFinite_of_isUnsigned {x : Binary64} (hunsigned : x.isUnsigned = true)
    (hinfinite : x.isInfinite = false) : x.isFinite = true := by
  simp only [isUnsigned, isNaN, Bool.and_eq_true, Bool.not_eq_true', decide_eq_false_iff_not]
    at hunsigned
  simp only [isInfinite, decide_eq_false_iff_not] at hinfinite
  simp only [isFinite, decide_eq_true_eq]
  omega

/-- The token that the text of a number is read as. -/
def Binary64.writtenToken (x : Binary64) : Token := if x.isInfinite then .ident "inf" else .number x

/-- The written form of a decimal is read up to where it ends. -/
theorem lexed_decimal (d : Decimal) {rest : List Char} (hrest : isApart rest = true) :
    lexed (d.text.toList ++ rest) = .number d.toBinary64 :: lexed rest := by
  obtain ⟨whole, fraction?, hliteral, hne, hwhole, hfraction, hkind⟩ := d.text_eq_literal
  rw [hliteral, lexed_literal hne hwhole hfraction hrest]
  simp [Piece.token?, hkind]

theorem lexed_number {x : Binary64} (h : x.isUnsigned = true) {rest : List Char}
    (hrest : isApart rest = true) :
    lexed (x.text.toList ++ rest) = x.writtenToken :: lexed rest := by
  have hfields := h
  simp only [Binary64.isUnsigned, Bool.and_eq_true, Bool.not_eq_true'] at hfields
  by_cases hinfinite : x.isInfinite = true
  · have htext : x.text = "inf" := by simp [Binary64.text, hfields, hinfinite]
    rw [htext, Binary64.writtenToken, if_pos hinfinite]
    exact lexed_name (by decide) hrest
  · rw [Bool.not_eq_true] at hinfinite
    have htext : x.text = x.shortest.text := by simp [Binary64.text, hfields, hinfinite]
    have hvalue := Binary64.toBinary64_shortest (x.isFinite_of_isUnsigned h hinfinite) hfields.1
    rw [htext, lexed_decimal _ hrest, hvalue, Binary64.writtenToken, hinfinite]
    rfl

/-! ### Expressions -/

/-- The token that writes the operator. -/
def Operator.token : Operator → Token
  | add => .symbol .plus
  | sub => .symbol .minus
  | mul => .symbol .star
  | div => .symbol .slash
  | less => .symbol .less
  | unsupported c => .char c

namespace Expr

mutual

/-- The tokens of the written form. -/
def written : Expr → List Token
  | .num value => [value.writtenToken]
  | .var name => [.ident name]
  | .bin op left right _ =>
    .symbol .openParen :: (written left ++ op.token :: (written right ++ [.symbol .closeParen]))
  | .ret value _ => .keyword .returnWord :: written value
  | .block stmts _ => .symbol .openBrace :: (writtenLines stmts ++ [.symbol .closeBrace])

/-- The tokens of the lines of a block. -/
def writtenLines : List Expr → List Token
  | [] => []
  | e :: es => written e ++ .symbol .semicolon :: writtenLines es

end

theorem lexed_operator {op : Operator} (h : op.isSupported = true) (rest : List Char) :
    lexed (op.char :: rest) = op.token :: lexed rest := by
  cases op with
  | add => exact lexed_symbol .plus rest
  | sub => exact lexed_symbol .minus rest
  | mul => exact lexed_symbol .star rest
  | div => exact lexed_symbol .slash rest
  | less => exact lexed_symbol .less rest
  | unsupported c => cases h

/-- The written form of an expression is read as its tokens, wherever it ends. -/
theorem lexed_text {e : Expr} (h : e.Writable) : ∀ {rest : List Char}, isApart rest = true →
    lexed (e.text.toList ++ rest) = e.written ++ lexed rest := by
  induction h with
  | num hvalue =>
      intro rest hrest
      rw [text, written, lexed_number hvalue hrest]
      rfl
  | var hname =>
      intro rest hrest
      rw [text, written, lexed_name hname hrest]
      rfl
  | @bin op left right loc hop _ _ ihleft ihright =>
      intro rest hrest
      have htext : (Expr.bin op left right loc).text.toList ++ rest =
          Symbol.openParen.char :: (left.text.toList ++ ' ' :: op.char :: ' ' ::
            (right.text.toList ++ Symbol.closeParen.char :: rest)) := by
        simp [text, Symbol.char]
      rw [htext, lexed_symbol .openParen, ihleft rfl, lexed_blank, lexed_operator hop, lexed_blank,
        ihright rfl, lexed_symbol .closeParen]
      simp [written]
  | @ret value loc _ ih =>
      intro rest hrest
      have htext : (Expr.ret value loc).text.toList ++ rest =
          Keyword.returnWord.text.toList ++ ' ' :: (value.text.toList ++ rest) := by
        simp [text, Keyword.text]
      rw [htext, lexed_keyword .returnWord rfl, lexed_blank, ih hrest]
      rfl

theorem lexed_lines {es : List Expr} (h : ∀ e ∈ es, e.Writable) (rest : List Char) :
    lexed ((lines es).toList ++ rest) = writtenLines es ++ lexed rest := by
  induction es with
  | nil => rfl
  | cons e es ih =>
      have htext : (lines (e :: es)).toList ++ rest =
          ' ' :: ' ' :: ' ' :: ' ' :: (e.text.toList ++ Symbol.semicolon.char :: '\n' ::
            ((lines es).toList ++ rest)) := by
        simp [lines, Symbol.char]
      rw [htext, lexed_blank, lexed_blank, lexed_blank, lexed_blank,
        lexed_text (h e List.mem_cons_self) rfl, lexed_symbol .semicolon, lexed_newline,
        ih fun e' he' => h e' (List.mem_cons_of_mem e he')]
      simp [writtenLines]

theorem lexed_blockText {es : List Expr} (h : ∀ e ∈ es, e.Writable) :
    lexed (blockText es).toList =
      .symbol .openBrace :: (writtenLines es ++ [.symbol .closeBrace]) := by
  cases es with
  | nil =>
      have htext : (blockText []).toList =
          Symbol.openBrace.char :: ' ' :: [Symbol.closeBrace.char] := by
        simp [blockText, braced, Symbol.char]
      rw [htext, lexed_symbol .openBrace, lexed_blank, lexed_symbol .closeBrace, lexed_nil]
      rfl
  | cons e es =>
      have htext : (blockText (e :: es)).toList =
          Symbol.openBrace.char :: '\n' :: ((lines (e :: es)).toList ++ [Symbol.closeBrace.char]) := by
        simp [blockText, braced, Symbol.char]
      rw [htext, lexed_symbol .openBrace, lexed_newline, lexed_lines h, lexed_symbol .closeBrace,
        lexed_nil]

end Expr

/-! ### Functions -/

namespace Function

/-- The tokens of names with commas between them. -/
def writtenNames : List String → List Token
  | [] => []
  | [p] => [.ident p]
  | p :: q :: ps => .ident p :: .symbol .comma :: writtenNames (q :: ps)

/-- The tokens of the written form. -/
def written (f : Function) : List Token :=
  .keyword .funcWord :: .ident f.name :: .symbol .openParen :: (writtenNames f.params ++
    .symbol .closeParen :: .symbol .openBrace ::
      (Expr.writtenLines f.body ++ [.symbol .closeBrace]))

theorem lexed_names {ps : List String} (h : ∀ p ∈ ps, isName p = true) (rest : List Char) :
    lexed ((", ".intercalate ps).toList ++ Symbol.closeParen.char :: rest) =
      writtenNames ps ++ .symbol .closeParen :: lexed rest := by
  induction ps with
  | nil => exact lexed_symbol .closeParen rest
  | cons p ps ih =>
      have hp := h p List.mem_cons_self
      cases ps with
      | nil =>
          have htext : (", ".intercalate [p]).toList = p.toList := by simp
          rw [htext, lexed_name hp rfl, lexed_symbol .closeParen]
          rfl
      | cons q qs =>
          have htext : (", ".intercalate (p :: q :: qs)).toList ++ Symbol.closeParen.char :: rest =
              p.toList ++ Symbol.comma.char :: ' ' ::
                ((", ".intercalate (q :: qs)).toList ++ Symbol.closeParen.char :: rest) := by
            simp [String.intercalate_cons_cons, Symbol.char]
          rw [htext, lexed_name hp rfl, lexed_symbol .comma, lexed_blank,
            ih fun r hr => h r (List.mem_cons_of_mem p hr)]
          rfl

/-- **The tokens of the written form of a function.** -/
theorem lexed_written {f : Function} (h : f.Writable) : lexed f.text.toList = f.written := by
  have htext : f.text.toList = Keyword.funcWord.text.toList ++ ' ' :: (f.name.toList ++
      Symbol.openParen.char :: ((", ".intercalate f.params).toList ++
        Symbol.closeParen.char :: ' ' :: (Expr.blockText f.body).toList)) := by
    simp [text, signature, Keyword.text, Symbol.char]
  rw [htext, lexed_keyword .funcWord rfl, lexed_blank, lexed_name h.name rfl,
    lexed_symbol .openParen, lexed_names h.params, lexed_blank, Expr.lexed_blockText h.body]
  rfl

end Function

end TallyLang
