/-
The report of a failure stands out on standard error.

What a run writes there is a list of notes, one a line: events of the log, dumped tokens,
and at the end of a run that fails the line that says why.  `errorLines` finds that line
from the text alone, as the first that begins with `error: `.

Nothing that comes before can be mistaken for it.  An event begins with its level and a
dumped token with blanks, and neither can break its line, because no token of a source
holds a line feed (`oneLine_tokenText`).  So whatever is logged or dumped, and
whichever tool runs, what is found is the message of the failure and no more
(`errorLines_render`).
-/
import TallyLang.Session
import TallyLang.Proofs.Binary64.ReadBack
import TallyLang.Proofs.CountedLocations
import TallyLang.Proofs.Writable
import TallyLang.Proofs.IR.Words

namespace TallyLang

open IR (linesOf textOf)

/-! ### Finding the line -/

/-- Whether a line reports a failure. -/
def isErrorLine (line : String) : Bool := "error: ".toList.isPrefixOf line.toList

/-- The lines of standard error from the report of a failure on. -/
def errorLines (stderr : String) : List String :=
  (linesOf stderr).dropWhile fun line => !isErrorLine line

theorem isErrorLine_error (rest : String) : isErrorLine ("error: " ++ rest) = true := by
  rw [isErrorLine, String.toList_append]
  exact List.isPrefixOf_iff_prefix.mpr (List.prefix_append _ _)

/-- A text that begins like a report does so in its first line, wherever that ends. -/
theorem errorLines_error (message : String) :
    errorLines ("error: " ++ message ++ "\n") = linesOf ("error: " ++ message ++ "\n") := by
  have hmem : '\n' ∈ (message ++ "\n").toList := by simp
  obtain ⟨first, rest, hsplit, hfirst⟩ := List.eq_append_cons_of_mem hmem
  have hlist : ("error: " ++ message ++ "\n").toList =
      ("error: ".toList ++ first) ++ '\n' :: rest := by
    rw [String.append_assoc, String.toList_append, hsplit, List.append_assoc]
  have hnone : '\n' ∉ "error: ".toList ++ first := by
    rw [List.mem_append, not_or]
    exact ⟨by decide, hfirst⟩
  have hlines : linesOf ("error: " ++ message ++ "\n") =
      ("error: " ++ String.ofList first) :: (rest.splitOn '\n').map String.ofList := by
    rw [linesOf, hlist, List.splitOn_append_cons_self_of_not_mem hnone, List.map_cons,
      String.ofList_append, String.ofList_toList]
  rw [errorLines, hlines, List.dropWhile_cons_of_neg (by simp [isErrorLine_error])]

/-! ### Notes -/

/-- A text that does not break the line it stands in. -/
def OneLine (text : String) : Prop := '\n' ∉ text.toList

instance (text : String) : Decidable (OneLine text) :=
  inferInstanceAs (Decidable ('\n' ∉ text.toList))

theorem OneLine.append {front back : String} (h : OneLine front) (h' : OneLine back) :
    OneLine (front ++ back) := by
  rw [OneLine, String.toList_append, List.mem_append, not_or]
  exact ⟨h, h'⟩

theorem oneLine_of_class {p : Char → Bool} (hfeed : p '\n' = false) {text : String}
    (h : ∀ c ∈ text.toList, p c = true) : OneLine text := by
  intro hmem
  rw [h '\n' hmem] at hfeed
  cases hfeed

/-- What a note says, without its line break. -/
def Note.body : Note → String
  | line text => text
  | log event => event.text

/-- A note of one line that is not taken for the report of a failure. -/
structure Note.Quiet (n : Note) : Prop where
  oneLine : OneLine n.body
  notError : isErrorLine n.body = false

theorem render_eq_textOf (verbose : Nat) (notes : List Note) :
    Note.render verbose notes = textOf ((notes.filter (·.visibleAt verbose)).map Note.body) := by
  rw [Note.render]
  generalize notes.filter (·.visibleAt verbose) = shown
  have htext : ∀ n : Note, n.text = n.body ++ "\n" := by
    intro n
    cases n <;> rfl
  induction shown with
  | nil => rfl
  | cons n shown ih =>
      apply String.ext
      have hlist := congrArg String.toList ih
      simp only [String.toList_join, List.map_cons] at hlist ⊢
      simp [htext, textOf, hlist]

/-- After quiet notes the report of a failure is found, whatever is visible of them. -/
theorem errorLines_render (verbose : Nat) {notes : List Note} (h : ∀ n ∈ notes, n.Quiet)
    (message : String) :
    errorLines (Note.render verbose (notes ++ [.line ("error: " ++ message)])) =
      linesOf ("error: " ++ message ++ "\n") := by
  have hquiet : ∀ line ∈ (notes.filter (·.visibleAt verbose)).map Note.body,
      '\n' ∉ line.toList ∧ isErrorLine line = false := by
    intro line hline
    obtain ⟨n, hn, rfl⟩ := List.mem_map.mp hline
    have hnote := h n (List.mem_of_mem_filter hn)
    exact ⟨hnote.oneLine, hnote.notError⟩
  have hrender : Note.render verbose (notes ++ [.line ("error: " ++ message)]) =
      textOf ((notes.filter (·.visibleAt verbose)).map Note.body) ++ ("error: " ++ message ++ "\n") := by
    rw [render_eq_textOf, List.filter_append, List.map_append, IR.textOf_append]
    exact congrArg _ String.append_empty
  rw [errorLines, hrender, IR.linesOf_textOf_append _ fun line hline => (hquiet line hline).1,
    List.dropWhile_append_of_pos fun line hline => by rw [(hquiet line hline).2]; rfl]
  exact errorLines_error message

/-! ### Tokens -/

theorem oneLine_toString (n : Nat) : OneLine (toString n) := by
  rw [Nat.toString_eq_ofList_toDigits]
  refine oneLine_of_class (p := isDigit) rfl fun c hc => ?_
  rw [String.toList_ofList] at hc
  exact isDigit_of_mem_toDigits hc

theorem oneLine_locationText (loc : Location) : OneLine loc.text :=
  ((oneLine_toString _).append (by decide)).append (oneLine_toString _)

theorem oneLine_decimalText (d : Decimal) : OneLine d.text := by
  obtain ⟨whole, fraction?, htext, -, hwhole, hfraction, -⟩ := d.text_eq_literal
  refine oneLine_of_class (p := fun c => isDigit c || c = '.') rfl fun c hc => ?_
  rw [htext, Piece.literal] at hc
  rcases List.mem_append.mp hc with hc | hc
  · simp [hwhole c hc]
  · cases fraction? with
    | none => cases hc
    | some fraction =>
        rcases List.mem_cons.mp hc with rfl | hc
        · rfl
        · simp [hfraction fraction rfl c hc]

theorem oneLine_numberText (x : Binary64) : OneLine x.text := by
  unfold Binary64.text
  split
  · decide
  · refine OneLine.append ?_ ?_
    · split <;> decide
    · split
      · decide
      · exact oneLine_decimalText x.shortest

/-- A character that is a token by itself is none that ends a line. -/
theorem isLineEnd_of_char_mem {source : String} {t : LocatedToken} (h : t ∈ tokensOf source)
    {c : Char} (hc : t.token = .char c) : isLineEnd c = false := by
  have hmem : t.token ∈ (tokensOf source).map LocatedToken.token := List.mem_map_of_mem h
  rw [tokensOf, Scanner.drain, map_token_drainFrom, List.mem_append, hc] at hmem
  rcases hmem with htoken | heof
  · refine (munches_pieces source.toList).forall_token
      (P := fun t => ∀ c, t = .char c → isLineEnd c = false) ?_ ?_ _ htoken c rfl
    · intro r lexeme rest t _ hkind c hchar
      subst hchar
      cases r <;> simp [Rule.kind] at hkind
    · intro d rest hunmatched c hchar
      cases hchar
      exact isLineEnd_of_unmatched hunmatched
  · simp at heof

theorem OneLine.quoted {text : String} (h : OneLine text) : OneLine (Token.quoted text) :=
  (OneLine.append (by decide) h).append (by decide)

/-- No token of a source breaks the line that names it. -/
theorem oneLine_tokenText {source : String} {t : LocatedToken} (h : t ∈ tokensOf source) :
    OneLine t.token.text := by
  have hwritable := isWritable_of_mem_tokensOf h
  cases htoken : t.token with
  | keyword word => cases word <;> decide
  | symbol mark => cases mark <;> decide
  | ident name =>
      rw [htoken] at hwritable
      have hident := (Bool.and_eq_true_iff.mp hwritable).1
      have hname : OneLine name := oneLine_of_class (p := isNamePart) rfl (isNamePart_of_mem hident)
      exact OneLine.append (by decide) hname.quoted
  | number value => exact OneLine.append (by decide) (oneLine_numberText value)
  | newline => decide
  | char c =>
      have hend := isLineEnd_of_char_mem h htoken
      have hchar : OneLine c.toString := by
        refine oneLine_of_class (p := (!isLineEnd ·)) rfl fun d hd => ?_
        rw [Char.toString, String.toList_singleton, List.mem_singleton] at hd
        rw [hd, hend]
        rfl
      exact hchar.quoted
  | eof => decide

/-! ### Notes before a failure -/

/-- A text that begins, and with another character. -/
def StartsWithout (c : Char) (text : String) : Prop := ∃ d cs, text.toList = d :: cs ∧ d ≠ c

theorem StartsWithout.append {c : Char} {front : String} (h : StartsWithout c front)
    (back : String) : StartsWithout c (front ++ back) := by
  obtain ⟨d, ds, htext, hd⟩ := h
  refine ⟨d, ds ++ back.toList, ?_, hd⟩
  rw [String.toList_append, htext, List.cons_append]

theorem StartsWithout.not_isPrefixOf {c : Char} {text : String} (h : StartsWithout c text)
    (cs : List Char) : (c :: cs).isPrefixOf text.toList = false := by
  obtain ⟨d, ds, htext, hd⟩ := h
  simp [htext, List.isPrefixOf, hd.symm]

/-- The level of an event, in five columns. -/
theorem levelText_start (level : LogLevel) :
    let text := String.ofList (List.replicate (5 - level.text.length) ' ') ++ level.text
    OneLine text ∧ StartsWithout 'e' text := by
  intro text
  have htext : text.toList = List.replicate (5 - level.text.length) ' ' ++ level.text.toList := by
    rw [String.toList_append, String.toList_ofList]
  rw [OneLine, StartsWithout, htext]
  cases level <;> exact ⟨by decide, _, _, rfl, by decide⟩

/-- An event is quiet if its message is one line. -/
theorem quiet_log {event : LogEvent} (h : OneLine event.message) : (Note.log event).Quiet := by
  obtain ⟨hline, hstart⟩ := levelText_start event.level
  have hsource : OneLine event.source := by
    unfold LogEvent.source
    split <;> decide
  constructor
  · exact (((hline.append (by decide)).append hsource).append (by decide)).append h
  · exact ((((hstart.append _).append _).append _).append _).not_isPrefixOf _

theorem quiet_of_mem_scanNotes {source : String} {n : Note} (h : n ∈ scanNotes source) :
    n.Quiet := by
  obtain ⟨event, hevent, rfl⟩ := List.mem_map.mp h
  obtain ⟨t, ht, hsome⟩ := List.mem_filterMap.mp hevent
  obtain rfl : .token t = event := by
    split at hsome
    · cases hsome
    · cases hsome
    · exact Option.some.inj hsome
  refine quiet_log ?_
  exact ((OneLine.append (by decide) (oneLine_tokenText ht)).append (by decide)).append
    (oneLine_locationText t.loc)

theorem quiet_of_mem_dumpNotes {source : String} {n : Note} (h : n ∈ dumpNotes source) :
    n.Quiet := by
  obtain ⟨⟨t, i⟩, ht, rfl⟩ := List.mem_map.mp h
  have hindent : StartsWithout 'e' "  " := ⟨' ', [' '], rfl, by decide⟩
  constructor
  · exact (((((OneLine.append (by decide) (oneLine_toString i)).append (by decide)).append
      (oneLine_tokenText (List.fst_mem_of_mem_zipIdx ht))).append (by decide)).append
        (oneLine_locationText t.loc))
  · exact (((((hindent.append _).append _).append _).append _).append _).not_isPrefixOf _

theorem quiet_lexed (count : Nat) : (Note.log (.lexed count)).Quiet :=
  quiet_log (OneLine.append (by decide) (oneLine_toString count))

/-- All notes on a source that is refused are quiet, up to the report. -/
theorem quiet_of_refused (tool : Tool) (o : Options) {source : String} {e : ParseError}
    (h : check source = .error e) : ∀ n ∈ (tool.work o source).notes, n.Quiet := by
  have hnotes : (tool.work o source).notes =
      (if o.dumpTokens then scanNotes source ++ dumpNotes source else []) ++
        (scanNotes source ++ [.log (.lexed (tokensOf source).length)]) := by
    rw [Tool.work, h, checkNotes, h, List.append_nil]
  intro n hn
  rw [hnotes] at hn
  rcases List.mem_append.mp hn with hdump | hcheck
  · split at hdump
    · rcases List.mem_append.mp hdump with hscan | hdump
      · exact quiet_of_mem_scanNotes hscan
      · exact quiet_of_mem_dumpNotes hdump
    · cases hdump
  · rcases List.mem_append.mp hcheck with hscan | hlexed
    · exact quiet_of_mem_scanNotes hscan
    · rw [List.mem_singleton.mp hlexed]
      exact quiet_lexed _

/-! ### The report of a failure -/

theorem errorLines_failure (verbose : Nat) {notes : List Note} (h : ∀ n ∈ notes, n.Quiet)
    (frame : Bool) (e : Failure) :
    errorLines (Note.render verbose (notes ++ e.notes frame)) =
      linesOf ("error: " ++ e.message ++ "\n") := by
  have hstart : StartsWithout 'e' "Error parsing function." := ⟨_, _, rfl, by decide⟩
  have hstatus : (Note.line "Error parsing function.").Quiet := ⟨by decide, hstart.not_isPrefixOf _⟩
  rw [Failure.notes, ← List.append_assoc]
  refine errorLines_render verbose ?_ e.message
  intro n hn
  rcases List.mem_append.mp hn with hn | hn
  · exact h n hn
  · split at hn
    · rw [List.mem_singleton.mp hn]
      exact hstatus
    · cases hn

/-- What goes wrong before there is a function to work on: it does not depend on the tool. -/
def FileTree.failure? (t : FileTree) (stdin : ByteArray) (origin : Source) : Option Failure :=
  match t.readSource stdin origin with
  | .error cause => some (.unreadable origin cause)
  | .ok source =>
    match check source with
    | .error e => some (.rejected e.diagnostic)
    | .ok _ => none

/-- **Failures are reported alike.**  Whatever the tool and its options, a source that cannot be read
or is refused gives the exit code of the failure, and its message as the report. -/
theorem report_of_failure (tool : Tool) (o : Options) {stdin : ByteArray} {t : FileTree}
    {e : Failure} (h : t.failure? stdin o.source = some e) :
    (tool.run o stdin t).1.exitCode = e.exitCode ∧
      errorLines (Note.render o.verbose (tool.run o stdin t).1.notes) =
        linesOf ("error: " ++ e.message ++ "\n") := by
  rw [FileTree.failure?] at h
  cases hread : t.readSource stdin o.source with
  | error cause =>
      rw [hread] at h
      cases h
      have hquiet : ∀ n ∈ ([] : List Note), n.Quiet := nofun
      rw [Tool.run, hread]
      exact ⟨rfl, errorLines_failure o.verbose hquiet o.frame _⟩
  | ok source =>
      rw [hread] at h
      cases hcheck : check source with
      | ok f =>
          simp only [hcheck] at h
          cases h
      | error e' =>
          simp only [hcheck] at h
          cases h
          have hresult : (tool.work o source).result = .error (.rejected e'.diagnostic) := by
            rw [Tool.work, hcheck]
          simp only [Tool.run, hread, hresult, conclude]
          exact ⟨trivial, errorLines_failure o.verbose (quiet_of_refused tool o hcheck) o.frame _⟩

/-- Without a failure there is a function. -/
theorem exists_check_of_no_failure {t : FileTree} {stdin : ByteArray} {origin : Source}
    (h : t.failure? stdin origin = none) :
    ∃ source f, t.readSource stdin origin = .ok source ∧ check source = .ok f := by
  rw [FileTree.failure?] at h
  cases hread : t.readSource stdin origin with
  | error cause =>
      rw [hread] at h
      cases h
  | ok source =>
      cases hcheck : check source with
      | error e =>
          simp only [hread, hcheck] at h
          cases h
      | ok f => exact ⟨source, f, rfl, hcheck⟩

end TallyLang
