import ClassScript.Number.Text
import ClassScript.Syntax.Tree
import ClassScript.Text.Quoted

/-!
# S-expressions of trees

A tree is written as one line of nested parentheses. What is written behind an
occurrence is up to the caller: nothing, or what a later pass noted about it.
-/

namespace ClassScript.Syntax

/-- The words of a list in parentheses, separated by single blanks. -/
def parenthesized (words : List String) : String :=
  "(" ++ " ".intercalate words ++ ")"

/-- A word with a line behind it. -/
def atLine (word : String) (line : Nat) : String :=
  word ++ "@" ++ toString line

def Literal.toSExpr : Literal → String
  | .number n => parenthesized ["num", Number.display n]
  | .string s => parenthesized ["str", Text.Quoted.data s]
  | .bool true => "true"
  | .bool false => "false"
  | .nil => "nil"

def UnaryOp.word : UnaryOp → String
  | .negate => "neg"
  | .not => "not"

def BinaryOp.word : BinaryOp → String
  | .add => "+"
  | .subtract => "-"
  | .multiply => "*"
  | .divide => "/"
  | .greater => ">"
  | .greaterEqual => ">="
  | .less => "<"
  | .lessEqual => "<="
  | .equal => "=="
  | .notEqual => "!="

def LogicalOp.word : LogicalOp → String
  | .and => "and"
  | .or => "or"

mutual

/-- The S-expression of an expression; `note` is written behind each occurrence. -/
def Expr.toSExpr (note : NodeId → String) : Expr → String
  | .literal value => value.toSExpr
  | .group inner => parenthesized ["group", inner.toSExpr note]
  | .unary op line operand => parenthesized [atLine op.word line, operand.toSExpr note]
  | .binary op line left right =>
    parenthesized [atLine op.word line, left.toSExpr note, right.toSExpr note]
  | .logical op left right =>
    parenthesized [op.word, left.toSExpr note, right.toSExpr note]
  | .variable ⟨id, name⟩ => parenthesized [atLine "var" name.line, name.text ++ note id]
  | .assign ⟨id, name⟩ value =>
    parenthesized [atLine "assign" name.line, name.text ++ note id, value.toSExpr note]
  | .call callee line arguments =>
    parenthesized (atLine "call" line :: callee.toSExpr note :: Expr.toSExprs note arguments)
  | .get object name =>
    parenthesized [atLine "get" name.line, name.text, object.toSExpr note]
  | .set object name value =>
    parenthesized
      [atLine "set" name.line, name.text, object.toSExpr note, value.toSExpr note]
  | .this id line => parenthesized [atLine "this" line ++ note id]
  | .super id line method =>
    parenthesized [atLine "super" line, atLine method.text method.line ++ note id]

def Expr.toSExprs (note : NodeId → String) : List Expr → List String
  | [] => []
  | e :: es => e.toSExpr note :: Expr.toSExprs note es

end

def parameterList (parameters : List Name) : String :=
  parenthesized ("params" :: parameters.map fun name => atLine name.text name.line)

/-- The words of an optional expression: none or one. -/
def optionalSExpr (note : NodeId → String) : Option Expr → List String
  | none => []
  | some e => [e.toSExpr note]

mutual

/-- The S-expression of a statement; `note` is written behind each occurrence. -/
def Stmt.toSExpr (note : NodeId → String) : Stmt → String
  | .expression e => parenthesized ["expr", e.toSExpr note]
  | .print e => parenthesized ["print", e.toSExpr note]
  | .var name initializer =>
    parenthesized (atLine "vardecl" name.line :: name.text :: optionalSExpr note initializer)
  | .block body => parenthesized ("block" :: Stmt.toSExprs note body)
  | .branch condition yes none =>
    parenthesized ["if", condition.toSExpr note, yes.toSExpr note]
  | .branch condition yes (some no) =>
    parenthesized ["if", condition.toSExpr note, yes.toSExpr note, no.toSExpr note]
  | .loop condition body none =>
    parenthesized ["while", condition.toSExpr note, body.toSExpr note]
  | .loop condition body (some increment) =>
    parenthesized
      ["while", condition.toSExpr note, body.toSExpr note,
        parenthesized ["inc", increment.toSExpr note]]
  | .function declaration => declaration.toSExpr note "fun"
  | .return line value => parenthesized (atLine "return" line :: optionalSExpr note value)
  | .break line => parenthesized [atLine "break" line]
  | .continue line => parenthesized [atLine "continue" line]
  | .classDecl name none methods =>
    parenthesized (atLine "class" name.line :: name.text :: FunctionDecl.toSExprs note methods)
  | .classDecl name (some superclass) methods =>
    parenthesized
      (atLine "class" name.line :: name.text ::
        parenthesized ["<", (Expr.variable superclass).toSExpr note] ::
        FunctionDecl.toSExprs note methods)

def Stmt.toSExprs (note : NodeId → String) : List Stmt → List String
  | [] => []
  | s :: rest => s.toSExpr note :: Stmt.toSExprs note rest

/-- The S-expression of a function or method declaration, with its leading word. -/
def FunctionDecl.toSExpr (note : NodeId → String) (word : String) : FunctionDecl → String
  | ⟨name, parameters, body⟩ =>
    parenthesized
      (atLine word name.line :: name.text :: parameterList parameters ::
        Stmt.toSExprs note body)

def FunctionDecl.toSExprs (note : NodeId → String) : List FunctionDecl → List String
  | [] => []
  | method :: rest => method.toSExpr note "method" :: FunctionDecl.toSExprs note rest

end

end ClassScript.Syntax
