import ClassScript.Parsing.Expression

/-!
# The grammar

The language as rules over kinds of tokens, in extended Backus-Naur form. `grammar` has
one rule for each nonterminal; the six levels of infix operators share one. A list of
parameters or arguments has its limit in the rule. `Derives` is derivability from a rule
and knows of no parser.
-/

namespace ClassScript.Parsing

open Source

inductive Nonterminal where
  | program | declaration | classDecl | funDecl | function | varDecl
  | statement | exprStmt | forStmt | ifStmt | printStmt | returnStmt | whileStmt
  | breakStmt | continueStmt | block
  | parameters | arguments
  | expression | assignment
  /-- Operands joined by the operators of a level. -/
  | level (level : Level)
  | unary | call | primary
deriving DecidableEq

/-- The right side of a rule. -/
inductive Rule where
  | token (kind : Kind)
  | named (name : Nonterminal)
  /-- The empty text. -/
  | empty
  | seq (first second : Rule)
  /-- No text. -/
  | never
  | choice (left right : Rule)
  | optional (inner : Rule)
  | many (inner : Rule)
  /-- Repetition up to a bound. -/
  | upTo (bound : Nat) (inner : Rule)

namespace Rule

/-- One rule after another. -/
def all (rules : List Rule) : Rule := rules.foldr .seq .empty

/-- Any of the rules. -/
def any (rules : List Rule) : Rule := rules.foldr .choice .never

/-- Any of the tokens. -/
def anyToken (kinds : List Kind) : Rule := any (kinds.map .token)

/-- One or more with commas between them, but not more than the 255 that a list may have. -/
def commaList (inner : Rule) : Rule :=
  all [inner, .upTo 254 (all [.token .comma, inner])]

end Rule

open Rule

/-- The infix operators of each level. -/
def operators : Level → List Kind
  | .or => [.or]
  | .and => [.and]
  | .equality => [.bangEqual, .equalEqual]
  | .comparison => [.greater, .greaterEqual, .less, .lessEqual]
  | .term => [.minus, .plus]
  | .factor => [.slash, .star]

/-- What the operators of each level join. -/
def operandRule : Level → Nonterminal
  | .or => .level .and
  | .and => .level .equality
  | .equality => .level .comparison
  | .comparison => .level .term
  | .term => .level .factor
  | .factor => .unary

/-- The rule of each nonterminal. -/
def grammar : Nonterminal → Rule
  | .program => .many (.named .declaration)
  | .declaration =>
    any [.named .classDecl, .named .funDecl, .named .varDecl, .named .statement]
  | .classDecl =>
    all [.token .classWord, .token .identifier,
      .optional (all [.token .less, .token .identifier]),
      .token .leftBrace, .many (.named .function), .token .rightBrace]
  | .funDecl => all [.token .fun, .named .function]
  | .function =>
    all [.token .identifier, .token .leftParen, .optional (.named .parameters),
      .token .rightParen, .named .block]
  | .parameters => commaList (.token .identifier)
  | .varDecl =>
    all [.token .var, .token .identifier,
      .optional (all [.token .equal, .named .expression]), .token .semicolon]
  | .statement =>
    any [.named .exprStmt, .named .forStmt, .named .ifStmt, .named .printStmt,
      .named .returnStmt, .named .whileStmt, .named .breakStmt, .named .continueStmt,
      .named .block]
  | .exprStmt => all [.named .expression, .token .semicolon]
  | .forStmt =>
    all [.token .for, .token .leftParen,
      any [.named .varDecl, .named .exprStmt, .token .semicolon],
      .optional (.named .expression), .token .semicolon,
      .optional (.named .expression), .token .rightParen, .named .statement]
  | .ifStmt =>
    all [.token .if, .token .leftParen, .named .expression, .token .rightParen,
      .named .statement, .optional (all [.token .else, .named .statement])]
  | .printStmt => all [.token .print, .named .expression, .token .semicolon]
  | .returnStmt =>
    all [.token .return, .optional (.named .expression), .token .semicolon]
  | .whileStmt =>
    all [.token .while, .token .leftParen, .named .expression, .token .rightParen,
      .named .statement]
  | .breakStmt => all [.token .break, .token .semicolon]
  | .continueStmt => all [.token .continue, .token .semicolon]
  | .block => all [.token .leftBrace, .many (.named .declaration), .token .rightBrace]
  | .expression => .named .assignment
  | .assignment =>
    any [all [.optional (all [.named .call, .token .dot]), .token .identifier,
        .token .equal, .named .assignment],
      .named (.level .or)]
  | .level level =>
    all [.named (operandRule level),
      .many (all [anyToken (operators level), .named (operandRule level)])]
  | .unary => any [all [anyToken [.bang, .minus], .named .unary], .named .call]
  | .call =>
    all [.named .primary,
      .many (any [all [.token .leftParen, .optional (.named .arguments), .token .rightParen],
        all [.token .dot, .token .identifier]])]
  | .arguments => commaList (.named .expression)
  | .primary =>
    any [anyToken [.number, .string, .true, .false, .nil, .this, .identifier],
      all [.token .leftParen, .named .expression, .token .rightParen],
      all [.token .super, .token .dot, .token .identifier]]

/-- The texts that a rule derives, as kinds of tokens. -/
inductive Derives : Rule → List Kind → Prop
  | token (kind : Kind) : Derives (.token kind) [kind]
  | named {name : Nonterminal} {text} (body : Derives (grammar name) text) :
      Derives (.named name) text
  | empty : Derives .empty []
  | seq {first second : Rule} {u v} (left : Derives first u) (right : Derives second v) :
      Derives (.seq first second) (u ++ v)
  | left {left right : Rule} {text} (inner : Derives left text) :
      Derives (.choice left right) text
  | right {left right : Rule} {text} (inner : Derives right text) :
      Derives (.choice left right) text
  | absent {inner : Rule} : Derives (.optional inner) []
  | present {inner : Rule} {text} (body : Derives inner text) : Derives (.optional inner) text
  | done {inner : Rule} : Derives (.many inner) []
  | more {inner : Rule} {u v} (first : Derives inner u) (rest : Derives (.many inner) v) :
      Derives (.many inner) (u ++ v)
  | stop {bound : Nat} {inner : Rule} : Derives (.upTo bound inner) []
  | step {bound : Nat} {inner : Rule} {u v} (first : Derives inner u)
      (rest : Derives (.upTo bound inner) v) : Derives (.upTo (bound + 1) inner) (u ++ v)

end ClassScript.Parsing
