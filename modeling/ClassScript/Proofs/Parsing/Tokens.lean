import ClassScript.Parsing.Statement

/-!
# What tokens mean

Names, constants and operators are what single tokens put into a tree. The tables here are
about trees only, and know of no parser. The parser has tables of its own, which sort the
kinds of tokens the other way round; both agree (`literal?_iff`, `prefixOp?_iff`,
`infixOp?_iff`, `joins_iff`).
-/

namespace ClassScript.Source

open Syntax

/-- The name that an identifier is, on its line. -/
def Token.asName (t : Token) : Name := ⟨t.lexeme, t.line⟩

/-- The token is a constant, which has this value. -/
inductive Token.Denotes (t : Token) : Literal → Prop
  | false (keyword : t.kind = .false) : Denotes t (.bool false)
  | true (keyword : t.kind = .true) : Denotes t (.bool true)
  | nil (keyword : t.kind = .nil) : Denotes t .nil
  | number (numeral : t.kind = .number) : Denotes t (.number t.value)
  | string (quoted : t.kind = .string) : Denotes t (.string t.contents)

end ClassScript.Source

namespace ClassScript.Syntax

open Source

/-! ## The tokens of operators -/

def UnaryOp.kind : UnaryOp → Kind
  | .negate => .minus
  | .not => .bang

def BinaryOp.kind : BinaryOp → Kind
  | .add => .plus
  | .subtract => .minus
  | .multiply => .star
  | .divide => .slash
  | .greater => .greater
  | .greaterEqual => .greaterEqual
  | .less => .less
  | .lessEqual => .lessEqual
  | .equal => .equalEqual
  | .notEqual => .bangEqual

def LogicalOp.kind : LogicalOp → Kind
  | .and => .and
  | .or => .or

end ClassScript.Syntax

namespace ClassScript.Parsing

open Source Syntax

def InfixOp.kind : InfixOp → Kind
  | .logical op => op.kind
  | .binary op => op.kind

/-- The level of an infix operator, by which it groups its operands. -/
def InfixOp.level : InfixOp → Level
  | .logical .or => .or
  | .logical .and => .and
  | .binary .equal | .binary .notEqual => .equality
  | .binary .greater | .binary .greaterEqual | .binary .less | .binary .lessEqual => .comparison
  | .binary .add | .binary .subtract => .term
  | .binary .multiply | .binary .divide => .factor

/-- Between two operands the token is an infix operator of the level, and this is the node
that it makes of them. An operator that always evaluates both keeps its line, which errors
cite. -/
inductive Joins (t : Token) (left right : Expr) : Level → Expr → Prop
  | logical {op : LogicalOp} (sign : t.kind = op.kind) :
      Joins t left right (InfixOp.logical op).level (.logical op left right)
  | binary {op : BinaryOp} (sign : t.kind = op.kind) :
      Joins t left right (InfixOp.binary op).level (.binary op t.line left right)

/-! ## The tables of the parser -/

theorem literal?_iff {t : Token} {value : Literal} :
    literal? t = some value ↔ t.Denotes value := by
  constructor
  · intro listed
    unfold literal? at listed
    split at listed <;> cases listed <;> constructor <;> assumption
  · rintro (same | same | same | same | same) <;> simp only [literal?, same]

theorem prefixOp?_iff {kind : Kind} {op : UnaryOp} : prefixOp? kind = some op ↔ op.kind = kind := by
  constructor
  · intro listed
    unfold prefixOp? at listed
    split at listed <;> first | cases listed; done | (cases listed; rfl)
  · rintro rfl
    cases op <;> rfl

theorem infixOp?_iff {kind : Kind} {level : Level} {op : InfixOp} :
    infixOp? kind = some (level, op) ↔ op.kind = kind ∧ op.level = level := by
  constructor
  · intro listed
    unfold infixOp? at listed
    split at listed <;> first | cases listed; done | (cases listed; exact ⟨rfl, rfl⟩)
  · rintro ⟨rfl, rfl⟩
    rcases op with op | op <;> cases op <;> rfl

theorem Joins.join {t : Token} {left right : Expr} {op : InfixOp} (sign : t.kind = op.kind) :
    Joins t left right op.level (op.join t.line left right) := by
  cases op with
  | logical op => exact .logical sign
  | binary op => exact .binary sign

/-- A node is made by an operator that the parser finds, as the parser makes it. -/
theorem joins_iff {t : Token} {left right node : Expr} {level : Level} :
    Joins t left right level node ↔
      ∃ op, infixOp? t.kind = some (level, op) ∧ node = op.join t.line left right := by
  constructor
  · rintro (@⟨op, sign⟩ | @⟨op, sign⟩)
    · exact ⟨.logical op, infixOp?_iff.mpr ⟨sign.symm, rfl⟩, rfl⟩
    · exact ⟨.binary op, infixOp?_iff.mpr ⟨sign.symm, rfl⟩, rfl⟩
  · rintro ⟨op, listed, rfl⟩
    obtain ⟨same, rfl⟩ := infixOp?_iff.mp listed
    exact .join same.symm

end ClassScript.Parsing
