import ClassScript.Syntax.Tree

/-!
# Places in a program

The places of a program that a rule about names or jumps speaks of, each with the
constructs around it, innermost first. Whether something may stand at a place is said
of the constructs around it alone.
-/

namespace ClassScript.Syntax

/-- A construct that a piece of program stands in. -/
inductive Surrounding where
  | block
  /-- The initializer of a variable of the given name. -/
  | initializer (name : String)
  | loop
  | function
  | method (name : String)
  | classBody (hasSuperclass : Bool)
deriving Repr, DecidableEq

namespace Surrounding

def opensScope : Surrounding → Bool
  | block | function | method _ | classBody _ => true
  | initializer _ | loop => false

def isFunction : Surrounding → Bool
  | function | method _ => true
  | _ => false

def isClass : Surrounding → Bool
  | classBody _ => true
  | _ => false

end Surrounding

/-- What is around a piece of program, innermost first. -/
abbrev Surroundings := List Surrounding

namespace Surroundings

/-- Whether a name that is declared here is a local one. -/
def isLocal (around : Surroundings) : Bool := around.any (·.opensScope)

def innermostFunction? (around : Surroundings) : Option Surrounding :=
  around.find? (·.isFunction)

def innermostClass? (around : Surroundings) : Option Surrounding :=
  around.find? (·.isClass)

/-- There is a loop around, inside the innermost function. -/
def inLoop (around : Surroundings) : Bool :=
  (around.takeWhile (!·.isFunction)).contains .loop

/-- The initializer of a local variable of the given name is around. -/
def initializes (text : String) : Surroundings → Bool
  | [] => false
  | .initializer name :: outer =>
    (name == text && Surroundings.isLocal outer) || initializes text outer
  | _ :: outer => initializes text outer

end Surroundings

/-- What a rule is about. -/
inductive Place where
  /-- A variable that is read. -/
  | read (name : Name)
  | return (line : Nat) (hasValue : Bool)
  | break (line : Nat)
  | continue (line : Nat)
  | this (line : Nat)
  | super (line : Nat)
  | inherits (className superclass : Name)
  /-- A scope other than the global one, with the names that it declares, in order. -/
  | scope (names : List Name)

structure Site where
  around : Surroundings
  place : Place

mutual

/-- The names that a statement declares in the scope that it stands in. -/
def Stmt.declarations : Stmt → List Name
  | .var name _ => [name]
  | .function declaration => [declaration.name]
  | .classDecl name _ _ => [name]
  | .branch _ yes none => yes.declarations
  | .branch _ yes (some no) => yes.declarations ++ no.declarations
  | .loop _ body _ => body.declarations
  | _ => []

end

def Stmt.declarationsOfAll (ss : List Stmt) : List Name := ss.flatMap Stmt.declarations

theorem Stmt.declarationsOfAll_cons (s : Stmt) (rest : List Stmt) :
    Stmt.declarationsOfAll (s :: rest) = s.declarations ++ Stmt.declarationsOfAll rest :=
  List.flatMap_cons

mutual

def Expr.sites (around : Surroundings) : Expr → List Site
  | .literal _ => []
  | .group inner => inner.sites around
  | .unary _ _ operand => operand.sites around
  | .binary _ _ left right => left.sites around ++ right.sites around
  | .logical _ left right => left.sites around ++ right.sites around
  | .variable occurrence => [⟨around, .read occurrence.name⟩]
  | .assign _ value => value.sites around
  | .call callee _ arguments => callee.sites around ++ Expr.sitesOfAll around arguments
  | .get object _ => object.sites around
  | .set object _ value => object.sites around ++ value.sites around
  | .this _ line => [⟨around, .this line⟩]
  | .super _ line _ => [⟨around, .super line⟩]

def Expr.sitesOfAll (around : Surroundings) : List Expr → List Site
  | [] => []
  | e :: rest => e.sites around ++ Expr.sitesOfAll around rest

end

/-- The places of a part that may be missing. -/
def Expr.sitesOf? (around : Surroundings) (e : Option Expr) : List Site :=
  (e.map (Expr.sites around)).getD []

mutual

def Stmt.sites (around : Surroundings) : Stmt → List Site
  | .expression e => e.sites around
  | .print e => e.sites around
  | .var name initializer => Expr.sitesOf? (.initializer name.text :: around) initializer
  | .block body =>
    ⟨around, .scope (Stmt.declarationsOfAll body)⟩ :: Stmt.sitesOfAll (.block :: around) body
  | .branch condition yes none => condition.sites around ++ yes.sites around
  | .branch condition yes (some no) =>
    condition.sites around ++ (yes.sites around ++ no.sites around)
  | .loop condition body increment =>
    condition.sites around ++
      (body.sites (.loop :: around) ++ Expr.sitesOf? around increment)
  | .function declaration => declaration.sites (.function :: around)
  | .return line value =>
    ⟨around, .return line value.isSome⟩ :: Expr.sitesOf? around value
  | .break line => [⟨around, .break line⟩]
  | .continue line => [⟨around, .continue line⟩]
  | .classDecl _ none methods => FunctionDecl.sitesOfAll (.classBody false :: around) methods
  | .classDecl name (some superclass) methods =>
    ⟨around, .inherits name superclass.name⟩ :: ⟨around, .read superclass.name⟩ ::
      FunctionDecl.sitesOfAll (.classBody true :: around) methods

def Stmt.sitesOfAll (around : Surroundings) : List Stmt → List Site
  | [] => []
  | s :: rest => s.sites around ++ Stmt.sitesOfAll around rest

/-- The places of a function, which is itself around them. Its parameters and its body
are one scope. -/
def FunctionDecl.sites (around : Surroundings) : FunctionDecl → List Site
  | ⟨_, parameters, body⟩ =>
    ⟨around, .scope (parameters ++ Stmt.declarationsOfAll body)⟩ ::
      Stmt.sitesOfAll around body

/-- The places of the methods of a class. -/
def FunctionDecl.sitesOfAll (around : Surroundings) : List FunctionDecl → List Site
  | [] => []
  | method :: rest =>
    method.sites (.method method.name.text :: around) ++
      FunctionDecl.sitesOfAll around rest

end

end ClassScript.Syntax
