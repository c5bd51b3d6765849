/-
Reading code as text: lines, and the words of a line.

The code of a function is handed on as one text, so what is said about it has to be
said about the text.  A text is taken apart twice.  `linesOf` splits it at its line
feeds, and `words` splits a line at its blanks, with commas and parentheses as words
of their own.  Neither knows how the text came about.

The other direction is `textOf`, which ends every line with a line feed, and
`layout`, which puts words in a row the way the code is written: a blank between
any two, except before a comma and on the inner side of a parenthesis.  That
reading takes apart exactly what was put together is `linesOf_textOf` and
`words_layout`; what they ask for is that no line holds a line feed and no word a
blank or a mark.
-/
import TallyLang.Proofs.Scope
import TallyLang.Proofs.ConstantText
import TallyLang.IR.Instr

namespace TallyLang

namespace IR

/-! ### Lines -/

/-- The lines of a text, split at its line feeds. -/
def linesOf (text : String) : List String := (text.toList.splitOn '\n').map String.ofList

/-- The text that consists of some lines, each ended by a line feed. -/
def textOf : List String → String
  | [] => ""
  | line :: lines => line ++ "\n" ++ textOf lines

theorem textOf_append (xs ys : List String) : textOf (xs ++ ys) = textOf xs ++ textOf ys := by
  induction xs with
  | nil => rw [List.nil_append, textOf, String.empty_append]
  | cons x xs ih =>
      rw [List.cons_append, textOf, ih, textOf]
      exact String.append_assoc.symm

/-- Lines without line feeds are read back from the front of a text. -/
theorem linesOf_textOf_append (lines : List String) (h : ∀ line ∈ lines, '\n' ∉ line.toList)
    (rest : String) : linesOf (textOf lines ++ rest) = lines ++ linesOf rest := by
  induction lines with
  | nil => rw [textOf, String.empty_append, List.nil_append]
  | cons line lines ih =>
      have hline : '\n' ∉ line.toList := h line (by simp)
      have hlist : (textOf (line :: lines) ++ rest).toList =
          line.toList ++ '\n' :: (textOf lines ++ rest).toList := by
        simp [textOf]
      rw [linesOf, hlist, List.splitOn_append_cons_self_of_not_mem hline, List.map_cons,
        String.ofList_toList, List.cons_append]
      exact congrArg (line :: ·) (ih fun l hl => h l (by simp [hl]))

/-- The lines of a whole text are read back from it, with an empty line at the end. -/
theorem linesOf_textOf (lines : List String) (h : ∀ line ∈ lines, '\n' ∉ line.toList) :
    linesOf (textOf lines) = lines ++ [""] := by
  have hlines := linesOf_textOf_append lines h ""
  rwa [String.append_empty] at hlines

/-! ### Words -/

/-- A mark of punctuation, which is a word by itself. -/
def isMark (c : Char) : Bool := c = ',' || c = '(' || c = ')'

/-- A character that can only stand inside a word. -/
def isPlain (c : Char) : Bool := !(c = ' ') && !isMark c && !(c = '\n')

/-- The word that has been read so far, if anything has. -/
def flush (word : List Char) : List String := if word.isEmpty then [] else [String.ofList word]

/-- The words of the rest of a line, when `word` has been read since the last break. -/
def wordsFrom (word : List Char) : List Char → List String
  | [] => flush word
  | c :: cs =>
    if c = ' ' then flush word ++ wordsFrom [] cs
    else if isMark c then flush word ++ String.ofList [c] :: wordsFrom [] cs
    else wordsFrom (word ++ [c]) cs

/-- The words of a line. -/
def words (line : String) : List String := wordsFrom [] line.toList

/-- A word that is read as such wherever it stands between breaks. -/
def IsWord (w : String) : Prop := w.toList ≠ [] ∧ ∀ c ∈ w.toList, isPlain c = true

instance (w : String) : Decidable (IsWord w) :=
  decidable_of_iff (w.toList.isEmpty = false ∧ w.toList.all isPlain = true) (by simp [IsWord])

/-- The marks of punctuation. -/
def marks : List String := [",", "(", ")"]

/-- What stands between two words. -/
def gap (w w' : String) : String := if w = "(" ∨ w' ∈ marks then "" else " "

/-- Words in a row. -/
def layout : List String → String
  | [] => ""
  | [w] => w
  | w :: w' :: ws => w ++ gap w w' ++ layout (w' :: ws)

theorem flush_of_isWord {w : String} (h : IsWord w) : flush w.toList = [w] := by
  have hne : w.toList.isEmpty = false := by simpa using h.1
  rw [flush, hne, String.ofList_toList]
  rfl

/-- Plain characters are added to the word that is being read. -/
theorem wordsFrom_plain (run : List Char) (h : ∀ c ∈ run, isPlain c = true) :
    ∀ word cs : List Char, wordsFrom word (run ++ cs) = wordsFrom (word ++ run) cs := by
  induction run with
  | nil =>
      intro word cs
      rw [List.nil_append, List.append_nil]
  | cons c run ih =>
      intro word cs
      have hc : isPlain c = true := h c (by simp)
      simp only [isPlain, Bool.and_eq_true, Bool.not_eq_true', decide_eq_false_iff_not] at hc
      rw [List.cons_append, wordsFrom, if_neg hc.1.1, if_neg (by simp [hc.1.2]),
        ih (fun d hd => h d (by simp [hd])), List.append_assoc, List.singleton_append]

theorem wordsFrom_blank (word cs : List Char) :
    wordsFrom word (' ' :: cs) = flush word ++ wordsFrom [] cs := by
  rw [wordsFrom, if_pos rfl]

/-- A mark ends the word before it. -/
theorem wordsFrom_mark {m : String} (hm : m ∈ marks) (word cs : List Char) :
    wordsFrom word (m.toList ++ cs) = flush word ++ m :: wordsFrom [] cs := by
  simp only [marks, List.mem_cons, List.not_mem_nil, or_false] at hm
  rcases hm with rfl | rfl | rfl <;> rfl

theorem toList_layout_cons (w : String) (ws : List String) :
    ∃ tail, (layout (w :: ws)).toList = w.toList ++ tail := by
  cases ws with
  | nil => exact ⟨[], (List.append_nil _).symm⟩
  | cons w' ws =>
      rw [layout, String.toList_append, String.toList_append, List.append_assoc]
      exact ⟨_, rfl⟩

/-- What stands between two words ends the first, unless it is an opening parenthesis and so has
been read already. -/
theorem wordsFrom_gap {w : String} {word : List Char} (hword : w = "(" → word = []) (w' : String)
    (ws : List String) :
    wordsFrom word ((gap w w').toList ++ (layout (w' :: ws)).toList) =
      flush word ++ words (layout (w' :: ws)) := by
  unfold gap
  by_cases hm : w' ∈ marks
  · rw [if_pos (Or.inr hm)]
    obtain ⟨tail, htail⟩ := toList_layout_cons w' ws
    rw [words, htail, wordsFrom_mark hm]
    exact wordsFrom_mark hm word tail
  · by_cases hopen : w = "("
    · rw [if_pos (Or.inl hopen), hword hopen]
      rfl
    · rw [if_neg (fun h => h.elim hopen hm)]
      exact wordsFrom_blank word _

/-- What was laid out is read back. -/
theorem words_layout (ws : List String) (h : ∀ w ∈ ws, w ∈ marks ∨ IsWord w) :
    words (layout ws) = ws := by
  induction ws with
  | nil => rfl
  | cons w ws ih =>
      have hrest := ih fun v hv => h v (by simp [hv])
      cases ws with
      | nil =>
          rw [words, layout, ← List.append_nil w.toList]
          rcases h w (by simp) with hm | hw
          · exact wordsFrom_mark hm [] []
          · rw [wordsFrom_plain w.toList hw.2]
            exact flush_of_isWord hw
      | cons w' ws =>
          rw [words, layout, String.toList_append, String.toList_append, List.append_assoc]
          rcases h w (by simp) with hm | hw
          · rw [wordsFrom_mark hm, wordsFrom_gap (fun _ => rfl), hrest]
            rfl
          · have hne : w ≠ "(" := by
              rintro rfl
              exact absurd (hw.2 '(' (by decide)) (by decide)
            rw [wordsFrom_plain w.toList hw.2, List.nil_append,
              wordsFrom_gap (fun hopen => absurd hopen hne), hrest, flush_of_isWord hw]
            rfl

theorem newline_not_mem_layout (ws : List String) (h : ∀ w ∈ ws, w ∈ marks ∨ IsWord w) :
    '\n' ∉ (layout ws).toList := by
  have hword : ∀ w, w ∈ marks ∨ IsWord w → '\n' ∉ w.toList := by
    rintro w (hm | hw) hmem
    · simp only [marks, List.mem_cons, List.not_mem_nil, or_false] at hm
      rcases hm with rfl | rfl | rfl <;> exact absurd hmem (by decide)
    · exact absurd (hw.2 _ hmem) (by decide)
  induction ws with
  | nil => exact List.not_mem_nil
  | cons w ws ih =>
      cases ws with
      | nil => exact hword w (h w (by simp))
      | cons w' ws =>
          rw [layout, String.toList_append, String.toList_append, List.mem_append, List.mem_append]
          rintro ((hmem | hmem) | hmem)
          · exact hword w (h w (by simp)) hmem
          · unfold gap at hmem
            split at hmem <;> exact absurd hmem (by decide)
          · exact ih (fun v hv => h v (by simp [hv])) hmem

/-- The blanks in front of a line are no words. -/
theorem words_indented (line : String) : words ("  " ++ line) = words line := by
  rw [words, String.toList_append]
  exact (wordsFrom_blank [] _).trans (wordsFrom_blank [] _)

/-! ### The words of the code -/

theorem isPlain_of_class {p : Char → Bool} (hblank : p ' ' = false) (hcomma : p ',' = false)
    (hopen : p '(' = false) (hclose : p ')' = false) (hline : p '\n' = false) {c : Char}
    (h : p c = true) : isPlain c = true := by
  have hne : ∀ d, p d = false → c ≠ d := by
    rintro d hd rfl
    rw [h] at hd
    cases hd
  simp [isPlain, isMark, hne _ hblank, hne _ hcomma, hne _ hopen, hne _ hclose, hne _ hline]

theorem isPlain_of_isNamePart {c : Char} (h : isNamePart c = true) : isPlain c = true :=
  isPlain_of_class (by decide) (by decide) (by decide) (by decide) (by decide) h

theorem isPlain_of_isDigit {c : Char} (h : isDigit c = true) : isPlain c = true :=
  isPlain_of_class (by decide) (by decide) (by decide) (by decide) (by decide) h

theorem IsWord.append {w w' : String} (h : IsWord w) (h' : IsWord w') : IsWord (w ++ w') := by
  refine ⟨?_, ?_⟩
  · rw [String.toList_append]
    exact fun hnil => h.1 (List.append_eq_nil_iff.mp hnil).1
  · intro c hc
    rw [String.toList_append] at hc
    exact (List.mem_append.mp hc).elim (h.2 c) (h'.2 c)

theorem isWord_of_isIdentifier {name : String} (h : isIdentifier name = true) : IsWord name :=
  ⟨ne_nil_of_isIdentifier h, fun c hc => isPlain_of_isNamePart (isNamePart_of_mem h c hc)⟩

theorem isWord_toString (n : Nat) : IsWord (toString n) := by
  rw [Nat.toString_eq_ofList_toDigits]
  refine ⟨?_, ?_⟩
  · rw [String.toList_ofList]
    exact Nat.toDigits_ne_nil
  · intro c hc
    rw [String.toList_ofList] at hc
    exact isPlain_of_isDigit (isDigit_of_mem_toDigits hc)

theorem Operand.isWord_text (a : Operand) : IsWord a.text := by
  cases a with
  | zero => decide
  | temp n => exact IsWord.append (by decide) (isWord_toString n)

theorem isWord_of_isConstant {text : String} (h : IsConstant text) : IsWord text :=
  ⟨h.ne_nil, fun c hc => isPlain_of_class (by decide) (by decide) (by decide) (by decide)
    (by decide) (h.isConstantChar_of_mem c hc)⟩

theorem IsWord.ne_marks {w : String} (h : IsWord w) : w ≠ "," ∧ w ≠ "(" ∧ w ≠ ")" := by
  refine ⟨?_, ?_, ?_⟩
  all_goals
    rintro rfl
    exact absurd h (by decide)

theorem isWord_register {name : String} (h : isIdentifier name = true) : IsWord ("%" ++ name) :=
  IsWord.append (by decide) (isWord_of_isIdentifier h)

theorem isWord_global {name : String} (h : isIdentifier name = true) : IsWord ("@" ++ name) :=
  IsWord.append (by decide) (isWord_of_isIdentifier h)

theorem isWord_slotName {name : String} (h : isIdentifier name = true) :
    IsWord (Instr.slotName name) :=
  (isWord_register h).append (by decide)

theorem Arith.isWord_text (op : Arith) : IsWord op.text := by
  cases op <;> decide

namespace Instr

/-- The names in an instruction are identifiers. -/
def Tidy : Instr → Prop
  | slot name | store name | load _ name => isIdentifier name = true
  | _ => True

/-- The words of an instruction. -/
def words : Instr → List String
  | slot name => [slotName name, "=", "alloca", "double"]
  | store name => ["store", "double", "%" ++ name, ",", "double*", slotName name]
  | const dest value =>
    [(Operand.temp dest).text, "=", "fadd", "double", "0.0", ",", value.constantText]
  | load dest name =>
    [(Operand.temp dest).text, "=", "load", "double", ",", "double*", slotName name]
  | arith dest op left right =>
    [(Operand.temp dest).text, "=", op.text, "double", left.text, ",", right.text]
  | less dest left right =>
    [(Operand.temp dest).text, "=", "fcmp", "olt", "double", left.text, ",", right.text]
  | widen dest flag =>
    [(Operand.temp dest).text, "=", "uitofp", "i1", flag.text, "to", "double"]
  | ret value => ["ret", "double", value.text]

/-- Each of the words is read as one. -/
theorem isWord_of_mem_words {i : Instr} (h : i.Tidy) : ∀ w ∈ i.words, w ∈ marks ∨ IsWord w := by
  have hend : ∀ w ∈ ([] : List String), w ∈ marks ∨ IsWord w := by simp
  have ha : ∀ a : Operand, a.text ∈ marks ∨ IsWord a.text := fun a => Or.inr a.isWord_text
  cases i with
  | slot name =>
      simp only [words, List.forall_mem_cons]
      exact ⟨Or.inr (isWord_slotName h), by decide, by decide, by decide, hend⟩
  | store name =>
      simp only [words, List.forall_mem_cons]
      exact ⟨by decide, by decide, Or.inr (isWord_register h), by decide, by decide,
        Or.inr (isWord_slotName h), hend⟩
  | const dest value =>
      simp only [words, List.forall_mem_cons]
      exact ⟨ha _, by decide, by decide, by decide, by decide, by decide,
        Or.inr (isWord_of_isConstant value.isConstant_constantText), hend⟩
  | load dest name =>
      simp only [words, List.forall_mem_cons]
      exact ⟨ha _, by decide, by decide, by decide, by decide, by decide,
        Or.inr (isWord_slotName h), hend⟩
  | arith dest op left right =>
      simp only [words, List.forall_mem_cons]
      exact ⟨ha _, by decide, Or.inr op.isWord_text, by decide, ha _, by decide, ha _, hend⟩
  | less dest left right =>
      simp only [words, List.forall_mem_cons]
      exact ⟨ha _, by decide, by decide, by decide, by decide, ha _, by decide, ha _, hend⟩
  | widen dest flag =>
      simp only [words, List.forall_mem_cons]
      exact ⟨ha _, by decide, by decide, by decide, ha _, by decide, by decide, hend⟩
  | ret value =>
      simp only [words, List.forall_mem_cons]
      exact ⟨by decide, by decide, ha _, hend⟩

/-- The text of an instruction is its words in a row. -/
theorem text_eq_layout {i : Instr} (h : i.Tidy) : i.text = layout i.words := by
  have ha : ∀ a : Operand, a.text ≠ "," ∧ a.text ≠ "(" ∧ a.text ≠ ")" :=
    fun a => a.isWord_text.ne_marks
  apply String.ext
  cases i with
  | slot name =>
      have hname := (isWord_slotName h).ne_marks
      simp [layout, text, words, gap, marks, hname]
  | store name =>
      have hname := (isWord_slotName h).ne_marks
      have hregister := (isWord_register h).ne_marks
      simp [layout, text, words, gap, marks, hname, hregister]
  | const dest value =>
      have hvalue := (isWord_of_isConstant value.isConstant_constantText).ne_marks
      simp [layout, text, define, words, gap, marks, hvalue, ha]
  | load dest name =>
      have hname := (isWord_slotName h).ne_marks
      simp [layout, text, define, words, gap, marks, hname, ha]
  | arith dest op left right =>
      have hop := op.isWord_text.ne_marks
      simp [layout, text, define, words, gap, marks, hop, ha]
  | less dest left right => simp [layout, text, define, words, gap, marks, ha]
  | widen dest flag => simp [layout, text, define, words, gap, marks, ha]
  | ret value => simp [layout, text, words, gap, marks, ha]

/-- The words of an instruction are read from its line. -/
theorem words_line {i : Instr} (h : i.Tidy) : IR.words ("  " ++ i.text) = i.words := by
  rw [words_indented, text_eq_layout h, words_layout _ (isWord_of_mem_words h)]

theorem newline_not_mem_line {i : Instr} (h : i.Tidy) : '\n' ∉ ("  " ++ i.text).toList := by
  rw [String.toList_append, text_eq_layout h, List.mem_append]
  rintro (hmargin | htext)
  · exact absurd hmargin (by decide)
  · exact newline_not_mem_layout _ (isWord_of_mem_words h) htext

end Instr

/-! ### Distinct names -/

theorem temp_ne_temp {i j : Nat} (h : i ≠ j) : (Operand.temp i).text ≠ (Operand.temp j).text := by
  intro heq
  have hlist := congrArg String.toList heq
  rw [Operand.text, Operand.text, String.toList_append, String.toList_append,
    List.append_cancel_left_eq, String.toList_inj] at hlist
  exact h (toString_injective hlist)

/-- A name with a point in it is no temporary. -/
theorem ne_temp_of_point {name : String} (h : '.' ∈ name.toList) (n : Nat) :
    name ≠ (Operand.temp n).text := by
  rintro rfl
  rw [Operand.text, String.toList_append] at h
  rcases List.mem_append.mp h with hmark | hdigit
  · exact absurd hmark (by decide)
  · rw [Nat.toString_eq_ofList_toDigits, String.toList_ofList] at hdigit
    have hpoint : isDigit '.' = true := isDigit_of_mem_toDigits hdigit
    exact absurd hpoint (by decide)

theorem point_mem_slotName (name : String) : '.' ∈ (Instr.slotName name).toList := by
  rw [Instr.slotName, String.toList_append]
  exact List.mem_append_right _ (by decide)

theorem slotName_injective {x y : String} (h : Instr.slotName x = Instr.slotName y) : x = y := by
  have hlist := congrArg String.toList h
  simp only [Instr.slotName, String.toList_append, List.append_assoc,
    List.append_cancel_left_eq, List.append_cancel_right_eq] at hlist
  exact String.toList_inj.mp hlist

/-- No parameter is a slot, since there is no point in an identifier. -/
theorem register_ne_slotName {p : String} (hp : isIdentifier p = true) (x : String) :
    "%" ++ p ≠ Instr.slotName x := by
  intro heq
  have hpoint := point_mem_slotName x
  rw [← heq, String.toList_append] at hpoint
  rcases List.mem_append.mp hpoint with hmark | hname
  · exact absurd hmark (by decide)
  · exact absurd (isNamePart_of_mem hp '.' hname) (by decide)

end IR

end TallyLang
