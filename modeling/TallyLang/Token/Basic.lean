/-
The words and marks of the language.

`Token.text` is how a token is named in messages and dumps.  Only `char` is open
ended: it stands for a single character that belongs to no other token, so reading
a source never fails, and the complaint is left to the parser.
-/
import TallyLang.Location
import TallyLang.Binary64.Shortest

namespace TallyLang

/-- The reserved words. -/
inductive Keyword where
  | funcWord
  | returnWord
  | ifWord
  | elseWord
  | whileWord
deriving DecidableEq, Repr

namespace Keyword

/-- The spelling. -/
def text : Keyword → String
  | funcWord => "func"
  | returnWord => "return"
  | ifWord => "if"
  | elseWord => "else"
  | whileWord => "while"

/-- Every reserved word. -/
def all : List Keyword := [funcWord, returnWord, ifWord, elseWord, whileWord]

/-- The reserved word with a given spelling. -/
def ofText? (name : String) : Option Keyword := all.find? (fun k => k.text = name)

end Keyword

/-- The operators and delimiters, each one character long. -/
inductive Symbol where
  | plus
  | minus
  | star
  | slash
  | less
  | openParen
  | closeParen
  | openBrace
  | closeBrace
  | comma
  | semicolon
deriving DecidableEq, Repr

namespace Symbol

/-- The spelling. -/
def char : Symbol → Char
  | plus => '+'
  | minus => '-'
  | star => '*'
  | slash => '/'
  | less => '<'
  | openParen => '('
  | closeParen => ')'
  | openBrace => '{'
  | closeBrace => '}'
  | comma => ','
  | semicolon => ';'

/-- Every symbol. -/
def all : List Symbol :=
  [plus, minus, star, slash, less, openParen, closeParen, openBrace, closeBrace, comma, semicolon]

/-- The symbol with a given spelling. -/
def ofChar? (c : Char) : Option Symbol := all.find? (fun s => s.char = c)

end Symbol

/-- A token.  Reading a source never yields `newline`; a list of tokens made by hand may hold it. -/
inductive Token where
  | keyword (word : Keyword)
  | symbol (mark : Symbol)
  | ident (name : String)
  | number (value : Binary64)
  | newline
  | char (c : Char)
  | eof
deriving DecidableEq, Repr

namespace Token

/-- A text between single quotation marks. -/
def quoted (s : String) : String := "'" ++ s ++ "'"

/-- How messages and dumps name the token. -/
def text : Token → String
  | keyword word => quoted word.text
  | symbol mark => quoted mark.char.toString
  | ident name => "identifier " ++ quoted name
  | number value => "number " ++ value.text
  | newline => "newline"
  | char c => quoted c.toString
  | eof => "end of input"

end Token

/-- A token and where it starts. -/
structure LocatedToken where
  token : Token
  loc : Location
deriving DecidableEq, Repr

end TallyLang
