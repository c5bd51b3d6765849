/-
A scanner that works on the text.

`Scanner` starts from the pieces of its source, all of them cut.  A scanner that is given
a text need not cut it in advance, or count from the start of the line for every token.
`TextScanner` keeps four things between calls: how far the text is cut, the number of the
line there, the column of one offset that it has passed, and a queue of single characters
that nothing matches, which are cut in runs and given out one by one.  How long such a run
may be is left open (`reach`).

Such a scanner is at any time in step with a `Scanner` (`Follows`).  What is in the queue
is what the scanner finds first, the text that is not cut yet has the pieces that it finds
after that, and the column counted on from the remembered one is the column where the
scanner stands.  One turn of the loop keeps this, and so does every call.
-/
import TallyLang.Proofs.Interleaving

namespace TallyLang

/-- A character that nothing matches. -/
def isStray (c : Char) : Bool := decide (familyOf c = .mark) && (Symbol.ofChar? c).isNone

/-- What a scanner keeps of its place in a text. -/
structure TextScanner where
  /-- Up to here the text is cut. -/
  offset : Nat
  line : Nat
  /-- An offset on the line whose column is known. -/
  columnOffset : Nat
  column : Nat
  /-- Tokens that are cut and not given out. -/
  queue : List LocatedToken
deriving DecidableEq, Repr

namespace TextScanner

/-- At the start of a text. -/
def start : TextScanner := ⟨0, 1, 0, 1, []⟩

section

variable (text : List Char) (reach : List Char → Nat)

/-- The location of an offset, counted on from the column that is known. -/
def locate (s : TextScanner) (offset : Nat) : Location :=
  ⟨s.line, s.column + (text.extract s.columnOffset offset).length⟩

/-- Remembers the column of an offset. -/
def pass (s : TextScanner) (offset : Nat) : TextScanner :=
  { s with columnOffset := offset, column := (s.locate text offset).column }

/-- Cuts single characters and puts them in the empty queue. -/
def enqueue : List Char → TextScanner → TextScanner
  | [], s => s
  | c :: cs, s =>
    let s' := enqueue cs { s.pass text s.offset with offset := s.offset + 1 }
    { s' with queue := ⟨.char c, s.locate text s.offset⟩ :: s'.queue }

/-- The characters that are cut together if nothing matches at the first of them. -/
def strays (c : Char) (cs : List Char) : List Char := c :: (cs.takeWhile isStray).take (reach cs)

/-- What one turn of the loop ends in. -/
inductive Turn where
  | give (t : LocatedToken) (s : TextScanner)
  | goOn (s : TextScanner)

/-- One turn of the loop that looks for the next token. -/
def turn (s : TextScanner) : Turn :=
  match s.queue, text.drop s.offset with
  | t :: queue, _ => .give t { s with queue := queue }
  | [], [] => .give ⟨.eof, s.locate text text.length⟩ (s.pass text text.length)
  | [], c :: cs =>
    if isStray c then .goOn (s.enqueue text (strays reach c cs))
    else
      let p := (Piece.cut c cs).1
      let place := s.offset + p.text.length
      match p.kind with
      | .token t => .give ⟨t, s.locate text s.offset⟩ { s.pass text s.offset with offset := place }
      | .lineBreak =>
        .goOn { s with offset := place, line := s.line + 1, columnOffset := place, column := 1 }
      | _ => .goOn { s with offset := place }

/-- What a turn can be. -/
inductive Turns (s : TextScanner) : Turn → Prop where
  | queued {t : LocatedToken} {queue : List LocatedToken} (hqueue : s.queue = t :: queue) :
      Turns s (.give t { s with queue := queue })
  | atEnd (hqueue : s.queue = []) (hrest : text.drop s.offset = []) :
      Turns s (.give ⟨.eof, s.locate text text.length⟩ (s.pass text text.length))
  | stray {c : Char} {cs : List Char} (hqueue : s.queue = []) (hrest : text.drop s.offset = c :: cs)
      (hstray : isStray c = true) : Turns s (.goOn (s.enqueue text (strays reach c cs)))
  | token {c : Char} {cs : List Char} {t : Token} (hqueue : s.queue = [])
      (hrest : text.drop s.offset = c :: cs) (hkind : (Piece.cut c cs).1.kind = .token t) :
      Turns s (.give ⟨t, s.locate text s.offset⟩
        { s.pass text s.offset with offset := s.offset + (Piece.cut c cs).1.text.length })
  | lineBreak {c : Char} {cs : List Char} (hqueue : s.queue = [])
      (hrest : text.drop s.offset = c :: cs) (hkind : (Piece.cut c cs).1.kind = .lineBreak) :
      Turns s (.goOn ⟨s.offset + (Piece.cut c cs).1.text.length, s.line + 1,
        s.offset + (Piece.cut c cs).1.text.length, 1, s.queue⟩)
  | skipped {c : Char} {cs : List Char} (hqueue : s.queue = [])
      (hrest : text.drop s.offset = c :: cs) (hbreak : (Piece.cut c cs).1.kind ≠ .lineBreak)
      (htoken : ∀ t, (Piece.cut c cs).1.kind ≠ .token t) :
      Turns s (.goOn { s with offset := s.offset + (Piece.cut c cs).1.text.length })

theorem turns (s : TextScanner) : Turns text reach s (s.turn text reach) := by
  obtain ⟨offset, line, columnOffset, column, queue⟩ := s
  cases queue with
  | cons t queue => exact .queued rfl
  | nil =>
      cases hrest : text.drop offset with
      | nil =>
          simp only [turn, hrest]
          exact .atEnd rfl hrest
      | cons c cs =>
          by_cases hstray : isStray c = true
          · simp only [turn, hrest, if_pos hstray]
            exact .stray rfl hrest hstray
          · simp only [turn, hrest, if_neg hstray]
            cases hkind : (Piece.cut c cs).1.kind with
            | token t => exact .token rfl hrest hkind
            | lineBreak => exact .lineBreak rfl hrest hkind
            | blank => exact .skipped rfl hrest (by simp [hkind]) (by simp [hkind])
            | comment => exact .skipped rfl hrest (by simp [hkind]) (by simp [hkind])

/-! ### The loops end -/

variable {text reach}

/-- Behind a piece the text goes on with what is left after cutting it. -/
theorem drop_cut {offset : Nat} {c : Char} {cs : List Char} (h : text.drop offset = c :: cs) :
    text.drop (offset + (Piece.cut c cs).1.text.length) = (Piece.cut c cs).2 ∧
      offset < offset + (Piece.cut c cs).1.text.length ∧
      offset + (Piece.cut c cs).1.text.length ≤ text.length := by
  have hcut := Piece.text_append_cut c cs
  have hrest := Piece.length_cut_le c cs
  have hlength := congrArg List.length hcut
  have htext := congrArg List.length h
  rw [List.length_append, List.length_cons] at hlength
  rw [List.length_drop, List.length_cons] at htext
  refine ⟨?_, by omega, by omega⟩
  rw [← List.drop_drop, h, ← hcut, List.drop_left]

theorem offset_enqueue (cs : List Char) : ∀ s : TextScanner,
    (s.enqueue text cs).offset = s.offset + cs.length := by
  induction cs with
  | nil =>
      intro s
      rfl
  | cons c cs ih =>
      intro s
      rw [enqueue, ih, List.length_cons]
      simp only
      omega

theorem length_queue_enqueue (cs : List Char) : ∀ s : TextScanner,
    (s.enqueue text cs).queue.length = s.queue.length + cs.length := by
  induction cs with
  | nil =>
      intro s
      rfl
  | cons c cs ih =>
      intro s
      rw [enqueue, List.length_cons, ih]
      simp only [pass, List.length_cons]
      omega

theorem length_strays_le (c : Char) (cs : List Char) :
    (strays reach c cs).length ≤ (c :: cs).length := by
  have htake := List.length_take_le' (reach cs) (cs.takeWhile isStray)
  have hrun := (List.takeWhile_prefix (l := cs) isStray).length_le
  simp only [strays, List.length_cons]
  omega

/-- What is left to do: a character of the text counts twice, once for cutting it. -/
def size (text : List Char) (s : TextScanner) : Nat :=
  2 * (text.length - s.offset) + s.queue.length

/-- A turn that gives nothing has cut something. -/
theorem size_of_goOn {s s' : TextScanner} (h : s.turn text reach = .goOn s') :
    s'.size text < s.size text := by
  have hturn := turns text reach s
  rw [h] at hturn
  cases hturn with
  | @stray c cs hqueue hrest _ =>
      have hle := @length_strays_le reach c cs
      have hlength := congrArg List.length hrest
      have hpos : 0 < (strays reach c cs).length := Nat.succ_pos _
      rw [List.length_drop] at hlength
      rw [size, size, offset_enqueue, length_queue_enqueue]
      omega
  | lineBreak hqueue hrest _ =>
      obtain ⟨-, hlt, hle⟩ := drop_cut hrest
      simp only [size]
      omega
  | skipped hqueue hrest _ _ =>
      obtain ⟨-, hlt, hle⟩ := drop_cut hrest
      simp only [size]
      omega

/-- A turn that gives something has less left, except at the end. -/
theorem size_of_give {s s' : TextScanner} {t : LocatedToken} (h : s.turn text reach = .give t s')
    (ht : t.token ≠ .eof) : s'.size text < s.size text := by
  have hturn := turns text reach s
  rw [h] at hturn
  cases hturn with
  | queued hqueue =>
      simp only [size, hqueue, List.length_cons]
      omega
  | atEnd _ _ => exact absurd rfl ht
  | token hqueue hrest _ =>
      obtain ⟨-, hlt, hle⟩ := drop_cut hrest
      simp only [size, pass]
      omega

variable (text reach)

/-- The next token, and the scanner after it. -/
def next (s : TextScanner) : LocatedToken × TextScanner :=
  match _h : s.turn text reach with
  | .give t s' => (t, s')
  | .goOn s' => next s'
termination_by s.size text
decreasing_by exact size_of_goOn _h

theorem size_next (s : TextScanner) (h : (s.next text reach).1.token ≠ .eof) :
    (s.next text reach).2.size text < s.size text := by
  fun_induction next text reach s with
  | case1 s t s' hturn => exact size_of_give hturn h
  | case2 s s' hturn ih => exact Nat.lt_trans (ih h) (size_of_goOn hturn)

/-- All tokens up to the first `eof`, and the scanner there. -/
def drain (s : TextScanner) : List LocatedToken × TextScanner :=
  if _h : (s.next text reach).1.token = .eof then ([(s.next text reach).1], (s.next text reach).2)
  else
    let (tokens, s') := drain (s.next text reach).2
    ((s.next text reach).1 :: tokens, s')
termination_by s.size text
decreasing_by exact size_next text reach s _h

/-! ### In step with a scanner -/

/-- What is not cut yet is what the other scanner will find, from where the column is counted to. -/
structure Level (s : TextScanner) (other : Scanner) : Prop where
  column : s.columnOffset ≤ s.offset
  offset : s.offset ≤ text.length
  loc : other.loc = s.locate text s.offset
  pending : other.pending = Piece.pieces (text.drop s.offset)

/-- The scanner of a text is in step with a scanner of pieces. -/
inductive Follows : TextScanner → Scanner → Prop where
  | level {s : TextScanner} {other : Scanner} (hqueue : s.queue = []) (h : Level text s other) :
      Follows s other
  /-- The first character of the queue is what the other will find first. -/
  | queued {s : TextScanner} {other : Scanner} {c : Char} {queue : List LocatedToken}
      {ps : List Piece} (hqueue : s.queue = ⟨.char c, other.loc⟩ :: queue)
      (hpending : other.pending = ⟨.token (.char c), [c]⟩ :: ps)
      (h : Follows { s with queue := queue } ⟨other.loc.right 1, ps⟩) : Follows s other

theorem follows_ofSource (source : String) :
    Follows source.toList start (Scanner.ofSource source) :=
  .level rfl ⟨Nat.le_refl 0, Nat.zero_le _, rfl, rfl⟩

variable {text}

theorem Follows.level_of_nil {s : TextScanner} {other : Scanner} (h : Follows text s other)
    (hqueue : s.queue = []) : Level text s other := by
  cases h with
  | level _ h => exact h
  | queued hqueue' _ _ =>
      rw [hqueue] at hqueue'
      cases hqueue'

/-- The other scanner finds what is first in the queue. -/
theorem Follows.next_of_cons {s : TextScanner} {other : Scanner} {t : LocatedToken}
    {queue : List LocatedToken} (h : Follows text s other) (hqueue : s.queue = t :: queue) :
    other.next.1 = t ∧ Follows text { s with queue := queue } other.next.2 := by
  cases h with
  | level hqueue' _ =>
      rw [hqueue] at hqueue'
      cases hqueue'
  | @queued _ _ c _ ps hqueue' hpending h =>
      rw [hqueue] at hqueue'
      cases hqueue'
      have hnext : other.next = (⟨.char c, other.loc⟩, ⟨other.loc.right 1, ps⟩) := by
        rw [Scanner.next, hpending]
        rfl
      rw [hnext]
      exact ⟨rfl, h⟩

/-- A character that nothing matches is a piece by itself. -/
theorem cut_of_isStray {c : Char} (h : isStray c = true) (cs : List Char) :
    Piece.cut c cs = (⟨.token (.char c), [c]⟩, cs) := by
  simp only [isStray, Bool.and_eq_true, decide_eq_true_eq, Option.isNone_iff_eq_none] at h
  obtain ⟨hmark, hnone⟩ := h
  rcases Piece.takes_cut c cs with ⟨r, -, htakes⟩ | ⟨-, hcut⟩
  · -- only a symbol begins with a mark
    obtain ⟨d, ds, htext, hfamily⟩ := Rule.exists_cons_of_mem htakes.isMatch
    have hcut := Piece.text_append_cut c cs
    rw [htext, List.cons_append] at hcut
    obtain rfl : d = c := (List.cons.inj hcut).1
    rw [hmark] at hfamily
    cases r <;> simp [Rule.family] at hfamily
    rename_i mark
    have hmatch := Rule.mem_symbol.mp htakes.isMatch
    rw [htext] at hmatch
    rw [(List.cons.inj hmatch).1, Symbol.ofChar?_char] at hnone
    cases hnone
  · exact hcut

theorem isStray_of_mem_strays {c : Char} (h : isStray c = true) (cs : List Char) :
    ∀ d ∈ strays reach c cs, isStray d = true := by
  intro d hd
  rcases List.mem_cons.mp hd with rfl | hd
  · exact h
  · exact all_takeWhile d (List.mem_of_mem_take hd)

theorem strays_prefix (c : Char) (cs : List Char) : strays reach c cs <+: c :: cs := by
  have hrun := (List.take_prefix (reach cs) _).trans (List.takeWhile_prefix (l := cs) isStray)
  exact List.cons_prefix_cons.mpr ⟨rfl, hrun⟩

theorem length_extract {text : List Char} {low high : Nat} (h : high ≤ text.length) :
    (text.extract low high).length = high - low := by
  rw [List.extract_eq_take_drop, List.length_take, List.length_drop]
  omega

/-- On the same line the location moves to the right. -/
theorem locate_add {s : TextScanner} {n : Nat} (hcolumn : s.columnOffset ≤ s.offset)
    (hle : s.offset + n ≤ text.length) :
    s.locate text (s.offset + n) = (s.locate text s.offset).right n := by
  rw [locate, locate, length_extract hle, length_extract (by omega), Location.right]
  simp only [Location.mk.injEq, true_and]
  omega

/-- Remembering a column changes no location. -/
theorem locate_pass {s : TextScanner} {n : Nat} (hle : s.offset + n ≤ text.length) :
    (s.pass text s.offset).locate text (s.offset + n) = (s.locate text s.offset).right n := by
  rw [locate, pass, length_extract hle, Location.right]
  simp only [Location.mk.injEq, locate, true_and]
  omega

/-- Characters that are put in the queue are found by the other scanner one by one. -/
theorem Level.enqueue (run : List Char) : ∀ {s : TextScanner} {other : Scanner}
    {tail : List Char}, (∀ c ∈ run, isStray c = true) → s.queue = [] →
      text.drop s.offset = run ++ tail → Level text s other →
      Follows text (s.enqueue text run) other := by
  induction run with
  | nil =>
      intro s other tail _ hqueue _ h
      exact .level hqueue h
  | cons c run ih =>
      intro s other tail hstray hqueue hrest h
      rw [List.cons_append] at hrest
      have hcut := cut_of_isStray (hstray c List.mem_cons_self) (run ++ tail)
      obtain ⟨hnext, -, hle⟩ := drop_cut hrest
      rw [hcut] at hnext hle
      have hpieces : other.pending =
          ⟨.token (.char c), [c]⟩ :: Piece.pieces (run ++ tail) := by
        rw [h.pending, hrest, Piece.pieces, hcut]
      have hfirst : (s.enqueue text (c :: run)).queue = ⟨.char c, other.loc⟩ ::
          (TextScanner.enqueue text run
            { s.pass text s.offset with offset := s.offset + 1 }).queue := by
        rw [TextScanner.enqueue, h.loc]
      refine .queued hfirst hpieces ?_
      refine ih (fun d hd => hstray d (List.mem_cons_of_mem c hd)) hqueue hnext ?_
      refine ⟨Nat.le_succ _, hle, ?_, (congrArg Piece.pieces hnext).symm⟩
      rw [h.loc]
      exact (locate_pass hle).symm

theorem Level.pending_cons {s : TextScanner} {other : Scanner} {c : Char} {cs : List Char}
    (h : Level text s other) (hrest : text.drop s.offset = c :: cs) :
    other.pending = (Piece.cut c cs).1 :: Piece.pieces (Piece.cut c cs).2 := by
  rw [h.pending, hrest, Piece.pieces]

variable {reach}

/-- A turn that gives a token gives the one that the other scanner finds next. -/
theorem Follows.of_give {s s' : TextScanner} {other : Scanner} {t : LocatedToken}
    (h : Follows text s other) (hturn : s.turn text reach = .give t s') :
    other.next.1 = t ∧ Follows text s' other.next.2 := by
  have hcase := turns text reach s
  rw [hturn] at hcase
  cases hcase with
  | queued hqueue => exact h.next_of_cons hqueue
  | atEnd hqueue hrest =>
      have hlevel := h.level_of_nil hqueue
      have hend : text.length = s.offset := by
        have hlength := congrArg List.length hrest
        have hoffset := hlevel.offset
        rw [List.length_drop, List.length_nil] at hlength
        omega
      have hnext : other.next = (⟨.eof, other.loc⟩, ⟨other.loc, []⟩) := by
        rw [Scanner.next, hlevel.pending, hrest, Piece.pieces]
        rfl
      rw [hnext, hlevel.loc, hend]
      refine ⟨rfl, .level hqueue ⟨Nat.le_refl _, hlevel.offset, ?_, ?_⟩⟩
      · exact (locate_pass (n := 0) hlevel.offset).symm
      · show [] = Piece.pieces (text.drop s.offset)
        rw [hrest, Piece.pieces]
  | @token c cs t hqueue hrest hkind =>
      have hlevel := h.level_of_nil hqueue
      obtain ⟨hdrop, hlt, hle⟩ := drop_cut hrest
      have hafter : (Piece.cut c cs).1.after other.loc =
          other.loc.right (Piece.cut c cs).1.text.length :=
        Piece.after_of_ne_lineBreak (by simp [hkind]) _
      have hnext : other.next = (⟨t, other.loc⟩,
          ⟨other.loc.right (Piece.cut c cs).1.text.length, Piece.pieces (Piece.cut c cs).2⟩) := by
        rw [Scanner.next, hlevel.pending_cons hrest, Scanner.nextFrom, hkind, hafter]
      rw [hnext, hlevel.loc]
      refine ⟨rfl, .level hqueue ⟨Nat.le_of_lt hlt, hle, ?_, by rw [hdrop]⟩⟩
      exact (locate_pass hle).symm

/-- A turn that gives nothing passes over a piece that the other scanner passes over too, or only
fills the queue. -/
theorem Follows.of_goOn {s s' : TextScanner} {other : Scanner} (h : Follows text s other)
    (hturn : s.turn text reach = .goOn s') :
    ∃ other' : Scanner, Follows text s' other' ∧ other'.next = other.next := by
  have hcase := turns text reach s
  rw [hturn] at hcase
  cases hcase with
  | @stray c cs hqueue hrest hstray =>
      obtain ⟨tail, htail⟩ := strays_prefix reach c cs
      rw [← htail] at hrest
      exact ⟨other, (h.level_of_nil hqueue).enqueue _ (isStray_of_mem_strays reach hstray cs) hqueue
        hrest, rfl⟩
  | @lineBreak c cs hqueue hrest hkind =>
      have hlevel := h.level_of_nil hqueue
      obtain ⟨hdrop, hlt, hle⟩ := drop_cut hrest
      refine ⟨⟨other.loc.nextLine, Piece.pieces (Piece.cut c cs).2⟩, .level hqueue ?_, ?_⟩
      · refine ⟨Nat.le_refl _, hle, ?_, by rw [hdrop]⟩
        rw [hlevel.loc]
        simp [locate, Location.nextLine]
      · rw [Scanner.next, Scanner.next, hlevel.pending_cons hrest, Scanner.nextFrom, hkind,
          Piece.after_of_lineBreak hkind]
  | @skipped c cs hqueue hrest hbreak htoken =>
      have hlevel := h.level_of_nil hqueue
      obtain ⟨hdrop, hlt, hle⟩ := drop_cut hrest
      have hcolumn := hlevel.column
      refine ⟨⟨other.loc.right (Piece.cut c cs).1.text.length, Piece.pieces (Piece.cut c cs).2⟩,
        .level hqueue ?_, ?_⟩
      · refine ⟨by simp only; omega, hle, ?_, by rw [hdrop]⟩
        rw [hlevel.loc]
        exact (locate_add hcolumn hle).symm
      · rw [Scanner.next, Scanner.next, hlevel.pending_cons hrest,
          ← Piece.after_of_ne_lineBreak hbreak]
        cases hkind : (Piece.cut c cs).1.kind with
        | token t => exact absurd hkind (htoken t)
        | _ => rw [Scanner.nextFrom, hkind]

/-! ### Calls -/

variable (reach)

/-- The next token is the one that the other scanner finds. -/
theorem Follows.next {s : TextScanner} {other : Scanner} (h : Follows text s other) :
    (s.next text reach).1 = other.next.1 ∧ Follows text (s.next text reach).2 other.next.2 := by
  fun_induction TextScanner.next text reach s generalizing other with
  | case1 s t s' hturn =>
      obtain ⟨htoken, hfollows⟩ := h.of_give hturn
      exact ⟨htoken.symm, hfollows⟩
  | case2 s s' hturn ih =>
      obtain ⟨other', hfollows, hnext⟩ := h.of_goOn hturn
      rw [← hnext]
      exact ih hfollows

theorem Follows.clean {s : TextScanner} {other : Scanner} (h : Follows text s other) :
    other.Clean := by
  induction h with
  | level _ h =>
      intro p hp
      rw [h.pending] at hp
      exact Scanner.clean_pieces .start _ p hp
  | queued _ hpending _ ih =>
      intro p hp
      rw [hpending] at hp
      rcases List.mem_cons.mp hp with rfl | hp
      · simp
      · exact ih p hp

/-- So are all tokens. -/
theorem Follows.drain {s : TextScanner} {other : Scanner} (h : Follows text s other) :
    (s.drain text reach).1 = other.drain.1 ∧ Follows text (s.drain text reach).2 other.drain.2 := by
  fun_induction TextScanner.drain text reach s generalizing other with
  | case1 s heof =>
      obtain ⟨htoken, hfollows⟩ := h.next reach
      rw [h.clean.drain_eq, ← htoken, if_pos heof]
      exact ⟨rfl, hfollows⟩
  | case2 s hmore tokens s' hdrain ih =>
      obtain ⟨htoken, hfollows⟩ := h.next reach
      rw [h.clean.drain_eq, ← htoken, if_neg hmore]
      obtain ⟨htokens, hfollows'⟩ := ih hfollows
      rw [hdrain] at htokens hfollows'
      exact ⟨congrArg _ htokens, hfollows'⟩

variable (text)

/-- What a call returns, and the scanner after it. -/
def call (s : TextScanner) : Scanner.Call → List LocatedToken × TextScanner
  | .next => ([(s.next text reach).1], (s.next text reach).2)
  | .drain => s.drain text reach

/-- What calls one after the other return, a list for each call. -/
def calls : TextScanner → List Scanner.Call → List (List LocatedToken)
  | _, [] => []
  | s, c :: cs => (s.call text reach c).1 :: calls (s.call text reach c).2 cs

variable {text}

theorem Follows.call {s : TextScanner} {other : Scanner} (h : Follows text s other)
    (c : Scanner.Call) : (s.call text reach c).1 = (other.call c).1 ∧
      Follows text (s.call text reach c).2 (other.call c).2 := by
  cases c with
  | next =>
      obtain ⟨htoken, hfollows⟩ := h.next reach
      exact ⟨congrArg ([·]) htoken, hfollows⟩
  | drain => exact h.drain reach

/-- Calls return what they return from the other scanner. -/
theorem Follows.calls (cs : List Scanner.Call) : ∀ {s : TextScanner} {other : Scanner},
    Follows text s other → s.calls text reach cs = other.calls cs := by
  induction cs with
  | nil =>
      intro s other _
      rfl
  | cons c cs ih =>
      intro s other h
      obtain ⟨hreturned, hfollows⟩ := h.call reach c
      rw [TextScanner.calls, Scanner.calls, hreturned, ih hfollows]

end

end TextScanner

/-- **Calls in any order read one stream.**  Whatever a scanner of a source is asked for, one
token or all of them, in whatever order, all that it returns is the beginning of the tokens of the
source with endless copies of their last one, the end of the input, behind them.  Every call for
all tokens returns the end of the input once and in the last place, and nothing else if it was
returned before.  A scanner that works on the text, and cuts it as it goes, returns the same. -/
theorem calls_read_stream (source : String) (cs : List Scanner.Call) :
    ∃ eof : LocatedToken, eof.token = .eof ∧ (tokensOf source).getLast? = some eof ∧
      (∃ rest, tokensOf source ++ₛ .const eof =
        ((Scanner.ofSource source).calls cs).flatten ++ₛ rest) ∧
      (∀ i, cs[i]? = some .drain → ∃ tokens,
        ((Scanner.ofSource source).calls cs)[i]? = some (tokens ++ [eof]) ∧
        (∀ t ∈ tokens, t.token ≠ .eof) ∧
        ((∃ t ∈ (((Scanner.ofSource source).calls cs).take i).flatten, t.token = .eof) →
          tokens = [])) ∧
      ∀ reach, TextScanner.start.calls source.toList reach cs =
        (Scanner.ofSource source).calls cs := by
  have hclean : (Scanner.ofSource source).Clean := Scanner.clean_pieces _ _
  obtain ⟨tokens, hdrain, -⟩ := hclean.exists_drain
  refine ⟨(Scanner.ofSource source).eof, rfl, ?_, ?_, ?_, ?_⟩
  · rw [tokensOf, hdrain, List.getLast?_concat]
  · exact Scanner.exists_upcoming_calls cs (Scanner.ofSource source)
  · intro i hi
    exact hclean.drained cs hi
  · intro reach
    exact (TextScanner.follows_ofSource source).calls reach cs

end TallyLang
