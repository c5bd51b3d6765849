/-
The grammar of functions.

A word of the grammar is a run of tokens, and what it derives is a tree together
with the locations in it.  Expressions come in layers, each built from operands of
the next tighter one and associating to the left: comparisons, sums, products, and
primaries.

The one difficulty is `return`, which is a primary but takes a whole expression
after it.  Whether a word is an expression therefore depends on the token that
comes next: the return must have taken the longest expression that it can, and a
semicolon that follows belongs to the innermost return.  So a derivation carries the
next token, and only `returnOpen` looks at it.

After a return statement the rest of a body is not read as statements.  It may be any
run of tokens in which the braces are balanced.
-/
import TallyLang.Reading
import TallyLang.Function

namespace TallyLang

/-! ### Expressions -/

/-- The layers of expressions, from the loosest to the tightest. -/
inductive Layer where
  | comparison
  | sum
  | product
  | primary
deriving DecidableEq, Repr

namespace Layer

/-- The layer of the operands. -/
def tighter : Layer → Layer
  | comparison => sum
  | sum => product
  | product => primary
  | primary => primary

/-- The operators of a layer and how they are written. -/
def operators : Layer → List (Symbol × Operator)
  | comparison => [(.less, .less)]
  | sum => [(.plus, .add), (.minus, .sub)]
  | product => [(.star, .mul), (.slash, .div)]
  | primary => []

end Layer

/-- Whether a token is a binary operator. -/
def Token.isOperator : Token → Bool
  | symbol .less | symbol .plus | symbol .minus | symbol .star | symbol .slash => true
  | _ => false

/-- `Derives layer word next e`: the word, when the token `next` comes after it, derives the tree
`e` in the layer. -/
inductive Derives : Layer → List LocatedToken → Token → Expr → Prop where
  | number {value : Binary64} {loc : Location} {next : Token} :
      Derives .primary [⟨.number value, loc⟩] next (.num value)
  | name {name : String} {loc : Location} {next : Token} :
      Derives .primary [⟨.ident name, loc⟩] next (.var name)
  | paren {word : List LocatedToken} {e : Expr} {loc loc' : Location} {next : Token}
      (inner : Derives .comparison word (.symbol .closeParen) e) :
      Derives .primary (⟨.symbol .openParen, loc⟩ :: (word ++ [⟨.symbol .closeParen, loc'⟩])) next e
  | returnClosed {word : List LocatedToken} {e : Expr} {loc loc' : Location} {next : Token}
      (inner : Derives .comparison word (.symbol .semicolon) e) :
      Derives .primary (⟨.keyword .returnWord, loc⟩ :: (word ++ [⟨.symbol .semicolon, loc'⟩])) next
        (.ret e loc)
  | returnOpen {word : List LocatedToken} {e : Expr} {loc : Location} {next : Token}
      (inner : Derives .comparison word next e) (longest : next.isOperator = false)
      (unclosed : next ≠ .symbol .semicolon) :
      Derives .primary (⟨.keyword .returnWord, loc⟩ :: word) next (.ret e loc)
  | lift {layer : Layer} {word : List LocatedToken} {next : Token} {e : Expr}
      (operand : Derives layer.tighter word next e) : Derives layer word next e
  | binary {layer : Layer} {symbol : Symbol} {op : Operator} {loc : Location}
      {left right : List LocatedToken} {next : Token} {a b : Expr}
      (written : (symbol, op) ∈ layer.operators) (first : Derives layer left (.symbol symbol) a)
      (second : Derives layer.tighter right next b) :
      Derives layer (left ++ ⟨.symbol symbol, loc⟩ :: right) next (.bin op a b loc)

/-! ### Functions -/

/-- A run of tokens with balanced braces and without an end of the input. -/
inductive Balanced : List LocatedToken → Prop where
  | nil : Balanced []
  | token {t : LocatedToken} {rest : List LocatedToken} (hopen : t.token ≠ .symbol .openBrace)
      (hclose : t.token ≠ .symbol .closeBrace) (heof : t.token ≠ .eof) (h : Balanced rest) :
      Balanced (t :: rest)
  | braces {inner rest : List LocatedToken} {loc loc' : Location} (h : Balanced inner)
      (h' : Balanced rest) :
      Balanced (⟨.symbol .openBrace, loc⟩ :: (inner ++ ⟨.symbol .closeBrace, loc'⟩ :: rest))

/-- The statements of a body, which a closing brace follows. -/
inductive DerivesBody : List LocatedToken → List Expr → Prop where
  | nil : DerivesBody [] []
  | statement {word rest : List LocatedToken} {loc : Location} {e : Expr} {es : List Expr}
      (expr : Derives .comparison word (.symbol .semicolon) e) (other : e.isReturn = false)
      (body : DerivesBody rest es) :
      DerivesBody (word ++ ⟨.symbol .semicolon, loc⟩ :: rest) (e :: es)
  | final {word dead : List LocatedToken} {next : Token} {e : Expr}
      (expr : Derives .comparison word next e) (last : e.isReturn = true)
      (longest : next.isOperator = false) (balanced : Balanced dead)
      (follows : next = (dead.head?.map LocatedToken.token).getD (.symbol .closeBrace)) :
      DerivesBody (word ++ dead) [e]

/-- One or more names, separated by commas, with at most one comma at the end. -/
inductive DerivesNames : List LocatedToken → List String → Prop where
  | single {p : String} {loc : Location} : DerivesNames [⟨.ident p, loc⟩] [p]
  | trailing {p : String} {loc loc' : Location} :
      DerivesNames [⟨.ident p, loc⟩, ⟨.symbol .comma, loc'⟩] [p]
  | cons {p : String} {loc loc' : Location} {word : List LocatedToken} {ps : List String}
      (rest : DerivesNames word ps) :
      DerivesNames (⟨.ident p, loc⟩ :: ⟨.symbol .comma, loc'⟩ :: word) (p :: ps)

/-- No parameters, or distinct ones. -/
inductive DerivesParams : List LocatedToken → List String → Prop where
  | nil : DerivesParams [] []
  | names {word : List LocatedToken} {ps : List String} (names : DerivesNames word ps)
      (distinct : ps.Nodup) : DerivesParams word ps

/-- A function stands where its first word stands, and its body where the token after the opening
brace stands. -/
inductive DerivesFunction : List LocatedToken → Function → Prop where
  | mk {name : String} {params body : List LocatedToken} {ps : List String} {es : List Expr}
      {loc nameLoc openLoc closeLoc braceLoc endLoc : Location}
      (hparams : DerivesParams params ps) (hbody : DerivesBody body es) :
      DerivesFunction
        (⟨.keyword .funcWord, loc⟩ :: ⟨.ident name, nameLoc⟩ :: ⟨.symbol .openParen, openLoc⟩ ::
          (params ++ ⟨.symbol .closeParen, closeLoc⟩ :: ⟨.symbol .openBrace, braceLoc⟩ ::
            (body ++ [⟨.symbol .closeBrace, endLoc⟩])))
        ⟨name, ps, es, headLoc (body ++ [⟨.symbol .closeBrace, endLoc⟩]), loc⟩

end TallyLang
