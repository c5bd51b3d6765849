/-
Text without terminal controls.

What a user passes as an argument is shown in the complaint about it, and must not
steer the terminal there.  So control characters are left out, and with them the
sequences that an escape character begins: the short ones of a single letter, the
control sequences that end in a letter, the device strings and other strings that
run up to a terminator, and the commands that run up to a bell.

White space belongs to the text even where it stands inside one of the first two
kinds.  It is shown there, and so is what follows it up to the next control
character, where the sequence is taken up again.
-/

namespace TallyLang

namespace Terminal

/-- What the characters read so far have begun. -/
inductive Mode where
  | text
  | escape
  | escapeTail
  | sequence
  | deviceHead
  | deviceParam
  | deviceTail
  | string
  | command
deriving DecidableEq, Repr

/-- Whether a character lies between two others, both included. -/
def between (low high c : Char) : Bool := decide (low ≤ c ∧ c ≤ high)

/-- A tab, a line feed, a form feed or a carriage return. -/
def isSpacing (c : Char) : Bool := c = '\t' || c = '\n' || c = '\x0c' || c = '\r'

/-- A character that is part of the text where nothing has been begun. -/
def isShown (c : Char) : Bool := between ' ' '~' c || isSpacing c || decide (0x80 ≤ c.toNat)

/-- Whether the encoded character holds the byte that terminates a string. -/
def endsString (c : Char) : Bool := (String.utf8EncodeChar c).contains 0x9c

namespace Mode

/-- The sequences that white space may stand in. -/
def admitsSpacing : Mode → Bool
  | escape | escapeTail | sequence => true
  | _ => false

/-- What the character after an escape begins. -/
def afterEscape (c : Char) : Mode :=
  if between ' ' '/' c then escapeTail
  else if c = '[' then sequence
  else if c = ']' then command
  else if c = 'P' then deviceHead
  else if c = 'X' || c = '^' || c = '_' then string
  else if between '0' '~' c then text
  else escape

/-- What has been begun after a character that is not shown.  An escape begins anew and a cancel
ends everything, whatever went before. -/
def advance (m : Mode) (c : Char) : Mode :=
  if c = '\x1b' then escape
  else if c = '\x18' || c = '\x1a' then text
  else
    match m with
    | text => text
    | escape => afterEscape c
    | escapeTail => if between '0' '~' c then text else escapeTail
    | sequence => if between '@' '~' c then text else sequence
    | deviceHead =>
      if between ' ' '/' c then deviceTail
      else if between '0' '?' c then deviceParam
      else if between '@' '~' c then string
      else deviceHead
    | deviceParam =>
      if between ' ' '/' c then deviceTail
      else if between '<' '~' c then string
      else deviceParam
    | deviceTail => if between '0' '~' c then string else deviceTail
    | string => if endsString c then text else string
    | command => if c = '\x07' then text else command

end Mode

/-- Whether a character is shown.  `flowing` says that the one before it was. -/
def shows (m : Mode) (flowing : Bool) (c : Char) : Bool :=
  isShown c && (flowing || m = .text || (m.admitsSpacing && isSpacing c))

/-- The characters that are shown.  One beyond the first 128 ends what had been begun. -/
def plainFrom (m : Mode) (flowing : Bool) : List Char → List Char
  | [] => []
  | c :: cs =>
    if shows m flowing c then
      c :: plainFrom (if 0x80 ≤ c.toNat then .text else m) true cs
    else plainFrom (m.advance c) false cs

/-- The text without terminal controls. -/
def plain (s : String) : String := String.ofList (plainFrom .text false s.toList)

end Terminal

end TallyLang
