/-
The nodes, names and operators of a function.

A function made by hand may hold any text for a name, may read variables that are
not its parameters, and may hold operators that have no instruction.  `Scoped` is
what a function has to satisfy for its code to mean anything: every name is an
identifier, the parameters are distinct, only parameters are read, and every
operator has an instruction.  Nested blocks are allowed.
-/
import TallyLang.Function
import TallyLang.Token.Piece

namespace TallyLang

/-- A letter or an underscore, followed by letters, underscores and digits. -/
def isIdentifier (name : String) : Bool :=
  match name.toList with
  | [] => false
  | c :: cs => isNameStart c && cs.all isNamePart

/-- Every character of an identifier may stand in one. -/
theorem isNamePart_of_mem {name : String} (h : isIdentifier name = true) :
    ∀ c ∈ name.toList, isNamePart c = true := by
  intro c hc
  unfold isIdentifier at h
  split at h
  · cases h
  · rename_i d ds hname
    rw [Bool.and_eq_true, List.all_eq_true] at h
    rw [hname] at hc
    rcases List.mem_cons.mp hc with rfl | hc'
    · rw [isNamePart, h.1, Bool.true_or]
    · exact h.2 c hc'

theorem ne_nil_of_isIdentifier {name : String} (h : isIdentifier name = true) :
    name.toList ≠ [] := by
  intro hnil
  rw [isIdentifier, hnil] at h
  cases h

namespace Expr

mutual

/-- The nodes of a tree. -/
def nodes : Expr → List Expr
  | .num value => [.num value]
  | .var name => [.var name]
  | .bin op left right loc => .bin op left right loc :: (nodes left ++ nodes right)
  | .ret value loc => .ret value loc :: nodes value
  | .block stmts loc => .block stmts loc :: nodesOf stmts

/-- The nodes of a sequence of trees. -/
def nodesOf : List Expr → List Expr
  | [] => []
  | e :: es => nodes e ++ nodesOf es

end

mutual

/-- The variables that an expression reads, in the order in which it reads them. -/
def reads : Expr → List String
  | .num _ => []
  | .var name => [name]
  | .bin _ left right _ => reads left ++ reads right
  | .ret value _ => reads value
  | .block stmts _ => readsOf stmts

/-- The variables that a sequence of statements reads. -/
def readsOf : List Expr → List String
  | [] => []
  | e :: es => reads e ++ readsOf es

end

mutual

/-- The operators of an expression. -/
def operators : Expr → List Operator
  | .num _ => []
  | .var _ => []
  | .bin op left right _ => operators left ++ operators right ++ [op]
  | .ret value _ => operators value
  | .block stmts _ => operatorsOf stmts

/-- The operators of a sequence of statements. -/
def operatorsOf : List Expr → List Operator
  | [] => []
  | e :: es => operators e ++ operatorsOf es

end

end Expr

/-- Whether there is an instruction for the operator. -/
def Operator.isSupported : Operator → Bool
  | unsupported _ => false
  | _ => true

/-- A function all of whose names are identifiers. -/
structure Function.Named (f : Function) : Prop where
  name : isIdentifier f.name = true
  params : ∀ p ∈ f.params, isIdentifier p = true
  reads : ∀ x ∈ Expr.readsOf f.body, isIdentifier x = true

/-- A function whose names are identifiers and whose body stays within its parameters and within
the operators that have an instruction. -/
structure Function.Scoped (f : Function) : Prop where
  name : isIdentifier f.name = true
  params : ∀ p ∈ f.params, isIdentifier p = true
  /-- No two parameters share a slot. -/
  distinct : f.params.Nodup
  reads : ∀ x ∈ Expr.readsOf f.body, x ∈ f.params
  operators : ∀ op ∈ Expr.operatorsOf f.body, op.isSupported = true

theorem Function.Scoped.named {f : Function} (h : f.Scoped) : f.Named :=
  ⟨h.name, h.params, fun x hx => h.params x (h.reads x hx)⟩

end TallyLang
