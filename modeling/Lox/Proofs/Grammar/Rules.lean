/-
  Lox.Proofs.Grammar.Rules

  The grammar of the language as rules over token lists, apart from any way of
  reading them.

    * `ExprPhrase`, `StmtPhrase` — what a stretch of tokens can be, with its tree;
    * `ExprPhrase.Derives`, `StmtPhrase.Derives` — the rules;
    * `GoesOn`, `Rule.Stops` — where an expression has to end;
    * `ArityFits`, `BreaksInside` — what a program must satisfy besides: at most 255
      arguments and parameters, and no `break` outside a loop;
    * `unnumbered` — a tree without the numbers of its occurrences.

  Operators of one rule group to the left, assignments to the right.  A statement
  is `open_` when an `else` behind it would belong to an `if` at its end; the rules
  let only statements that are not stand between a condition and its `else`, so
  every `else` goes to the nearest `if`.
-/
import Lox.Parser.Statement
import Lox.Syntax.Use

namespace Lox

/-! ## Expressions -/

/-- The rules for expressions, from loose to tight. -/
inductive Rule where
  | assignment | disjunction | conjunction | equality | comparison | term | factor | unary
  | call | primary
deriving DecidableEq

namespace Rule

/-- The rule for operands. -/
def tighter : Rule → Rule
  | assignment => disjunction
  | disjunction => conjunction
  | conjunction => equality
  | equality => comparison
  | comparison => term
  | term => factor
  | factor => unary
  | unary => call
  | call => primary
  | primary => primary

end Rule

/-- The operators between two operands that are both evaluated, with the rule they
    belong to. -/
inductive InBetween : Rule → TokenKind → Prop
  | notEqual : InBetween .equality (.symbol .bangEqual)
  | equal : InBetween .equality (.symbol .equalEqual)
  | greater : InBetween .comparison (.symbol .greater)
  | greaterEqual : InBetween .comparison (.symbol .greaterEqual)
  | less : InBetween .comparison (.symbol .less)
  | lessEqual : InBetween .comparison (.symbol .lessEqual)
  | subtract : InBetween .term (.symbol .minus)
  | add : InBetween .term (.symbol .plus)
  | divide : InBetween .factor (.symbol .slash)
  | multiply : InBetween .factor (.symbol .star)

/-- The operators between two operands, with the rule they belong to and the node
    they make. -/
inductive Between : Rule → TokenKind → (Lexeme → Expr → Expr → Expr) → Prop
  | or : Between .disjunction (.keyword .orWord) (.logical .or)
  | and : Between .conjunction (.keyword .andWord) (.logical .and)
  | values {rule op} : InBetween rule op → Between rule op (.binary op)

/-- The operators in front of an operand. -/
inductive InFront : TokenKind → Prop
  | not : InFront (.symbol .bang)
  | negate : InFront (.symbol .minus)

/-- The tokens that are constants. -/
inductive Constant : TokenKind → Literal → Prop
  | number (value : Float) : Constant (.number value) (.number value)
  | string (content : String) : Constant (.string content) (.string content)
  | true : Constant (.keyword .trueWord) (.bool true)
  | false : Constant (.keyword .falseWord) (.bool false)
  | nil : Constant (.keyword .nilWord) .nil

/-- What tokens inside an expression can be. -/
inductive ExprPhrase where
  | expr (rule : Rule) (e : Expr)
  /-- Arguments with the commas between them, at least one. -/
  | arguments (es : List Expr)

/-- The rules for expressions.  Occurrences may have any numbers. -/
inductive ExprPhrase.Derives : ExprPhrase → List Token → Prop
  /-- What an operand can be, an expression can be. -/
  | operand {rule e ts} : Derives (.expr rule.tighter e) ts → Derives (.expr rule e) ts
  | assignName {name equals : Token} {id value vs} :
      name.kind = .identifier → equals.kind = .symbol .equal →
      Derives (.expr .assignment value) vs →
      Derives (.expr .assignment (.assign ⟨id, name.toLexeme⟩ value)) (name :: equals :: vs)
  | assignProperty {dot name equals : Token} {object os value vs} :
      Derives (.expr .call object) os → dot.kind = .symbol .dot →
      name.kind = .identifier → equals.kind = .symbol .equal →
      Derives (.expr .assignment value) vs →
      Derives (.expr .assignment (.set object name.toLexeme value))
        (os ++ dot :: name :: equals :: vs)
  | between {rule node} {sign : Token} {left ls right rs} :
      Between rule sign.kind node →
      Derives (.expr rule left) ls → Derives (.expr rule.tighter right) rs →
      Derives (.expr rule (node sign.toLexeme left right)) (ls ++ sign :: rs)
  | inFront {sign : Token} {operand ts} :
      InFront sign.kind → Derives (.expr .unary operand) ts →
      Derives (.expr .unary (.unary sign.kind sign.toLexeme operand)) (sign :: ts)
  | callEmpty {opening closing : Token} {callee cs} :
      Derives (.expr .call callee) cs →
      opening.kind = .symbol .leftParen → closing.kind = .symbol .rightParen →
      Derives (.expr .call (.call callee closing.toLexeme [])) (cs ++ [opening, closing])
  | call {opening closing : Token} {callee cs arguments ts} :
      Derives (.expr .call callee) cs →
      opening.kind = .symbol .leftParen → Derives (.arguments arguments) ts →
      closing.kind = .symbol .rightParen →
      Derives (.expr .call (.call callee closing.toLexeme arguments))
        (cs ++ opening :: (ts ++ [closing]))
  | property {dot name : Token} {object os} :
      Derives (.expr .call object) os → dot.kind = .symbol .dot → name.kind = .identifier →
      Derives (.expr .call (.get object name.toLexeme)) (os ++ [dot, name])
  | constant {t : Token} {value} :
      Constant t.kind value → Derives (.expr .primary (.literal value)) [t]
  | name {t : Token} {id} :
      t.kind = .identifier → Derives (.expr .primary (.name ⟨id, t.toLexeme⟩)) [t]
  | this {t : Token} {id} :
      t.kind = .keyword .thisWord → Derives (.expr .primary (.this ⟨id, t.toLexeme⟩)) [t]
  | super {t dot method : Token} {id} :
      t.kind = .keyword .superWord → dot.kind = .symbol .dot → method.kind = .identifier →
      Derives (.expr .primary (.super ⟨id, t.toLexeme⟩ method.toLexeme)) [t, dot, method]
  | grouping {opening closing : Token} {inner ts} :
      opening.kind = .symbol .leftParen → Derives (.expr .assignment inner) ts →
      closing.kind = .symbol .rightParen →
      Derives (.expr .primary (.grouping inner)) (opening :: (ts ++ [closing]))
  | lastArgument {e ts} : Derives (.expr .assignment e) ts → Derives (.arguments [e]) ts
  | argument {comma : Token} {e ts es us} :
      Derives (.expr .assignment e) ts → comma.kind = .symbol .comma →
      Derives (.arguments es) us → Derives (.arguments (e :: es)) (ts ++ comma :: us)

/-- The tokens that carry on an expression of a rule after one of its operands. -/
inductive Extends : Rule → TokenKind → Prop
  | between {rule kind node} : Between rule kind node → Extends rule kind
  | assign : Extends .assignment (.symbol .equal)
  | call : Extends .call (.symbol .leftParen)
  | property : Extends .call (.symbol .dot)

/-- The tokens that carry on an expression of a rule, or an operand at its end. -/
inductive GoesOn : Rule → TokenKind → Prop
  | here {rule kind} : Extends rule kind → GoesOn rule kind
  | inside {rule kind} : GoesOn rule.tighter kind → GoesOn rule kind

/-- An expression of the rule has to end before these tokens. -/
def Rule.Stops (rule : Rule) (rest : List Token) : Prop :=
  ∀ t, rest.head? = some t → ¬GoesOn rule t.kind

/-- The tokens are an expression with the given tree. -/
abbrev Expr.Derives (e : Expr) (ts : List Token) : Prop :=
  (ExprPhrase.expr .assignment e).Derives ts

/-! ## Statements -/

/-- Parameters with the commas between them, at least one. -/
inductive Parameters : List Lexeme → List Token → Prop
  | last {t : Token} : t.kind = .identifier → Parameters [t.toLexeme] [t]
  | more {t comma : Token} {names ts} :
      t.kind = .identifier → comma.kind = .symbol .comma → Parameters names ts →
      Parameters (t.toLexeme :: names) (t :: comma :: ts)

/-- The superclass clause of a class, if there is one. -/
inductive SuperclassClause : Option Occurrence → List Token → Prop
  | none : SuperclassClause none []
  | some {less name : Token} {id} :
      less.kind = .symbol .less → name.kind = .identifier →
      SuperclassClause (some ⟨id, name.toLexeme⟩) [less, name]

/-- An expression that may be missing. -/
inductive Optional : Option Expr → List Token → Prop
  | none : Optional none []
  | some {e : Expr} {ts} : e.Derives ts → Optional (some e) ts

/-- The initializer of a variable, if there is one. -/
inductive Initializer : Option Expr → List Token → Prop
  | none : Initializer none []
  | some {equals : Token} {e : Expr} {ts} :
      equals.kind = .symbol .equal → e.Derives ts → Initializer (some e) (equals :: ts)

/-- The declaration of a variable, without the word `var`. -/
inductive Variable : Stmt → List Token → Prop
  | mk {name semicolon : Token} {initializer ts} :
      name.kind = .identifier → Initializer initializer ts →
      semicolon.kind = .symbol .semicolon →
      Variable (.var name.toLexeme initializer) (name :: (ts ++ [semicolon]))

/-- What can come first between the parentheses of a `for`. -/
inductive First : Option Stmt → List Token → Prop
  | none {semicolon : Token} : semicolon.kind = .symbol .semicolon → First none [semicolon]
  | var {word : Token} {s ts} :
      word.kind = .keyword .varWord → Variable s ts → First (some s) (word :: ts)
  | expression {semicolon : Token} {e : Expr} {ts} :
      e.Derives ts → semicolon.kind = .symbol .semicolon →
      First (some (.expression e)) (ts ++ [semicolon])

/-- What tokens inside a program can be. -/
inductive StmtPhrase where
  | declarations (ss : List Stmt)
  | declaration (s : Stmt)
  /-- `open_` tells that an `else` behind the statement would belong to it. -/
  | statement (open_ : Bool) (s : Stmt)
  /-- A function or a method from its name on. -/
  | function (decl : FunctionDecl)
  | methods (decls : List FunctionDecl)

/-- The rules for statements and whole programs. -/
inductive StmtPhrase.Derives : StmtPhrase → List Token → Prop
  | noDeclarations : Derives (.declarations []) []
  | declarations {s ts ss us} :
      Derives (.declaration s) ts → Derives (.declarations ss) us →
      Derives (.declarations (s :: ss)) (ts ++ us)
  | class {word name opening closing : Token} {superclass ss methods ms} :
      word.kind = .keyword .classWord → name.kind = .identifier →
      SuperclassClause superclass ss →
      opening.kind = .symbol .leftBrace → Derives (.methods methods) ms →
      closing.kind = .symbol .rightBrace →
      Derives (.declaration (.class name.toLexeme superclass methods))
        (word :: name :: (ss ++ opening :: (ms ++ [closing])))
  | function {word : Token} {decl ts} :
      word.kind = .keyword .funWord → Derives (.function decl) ts →
      Derives (.declaration (.function decl)) (word :: ts)
  | var {word : Token} {s ts} :
      word.kind = .keyword .varWord → Variable s ts → Derives (.declaration s) (word :: ts)
  | statement {open_ s ts} : Derives (.statement open_ s) ts → Derives (.declaration s) ts
  | noMethods : Derives (.methods []) []
  | methods {d ts ds us} :
      Derives (.function d) ts → Derives (.methods ds) us →
      Derives (.methods (d :: ds)) (ts ++ us)
  | callable {name opening closing left right : Token} {names ps body bs} :
      name.kind = .identifier → opening.kind = .symbol .leftParen →
      (names = [] ∧ ps = [] ∨ Parameters names ps) → closing.kind = .symbol .rightParen →
      left.kind = .symbol .leftBrace → Derives (.declarations body) bs →
      right.kind = .symbol .rightBrace →
      Derives (.function ⟨name.toLexeme, names, body⟩)
        (name :: opening :: (ps ++ closing :: left :: (bs ++ [right])))
  | break {word semicolon : Token} :
      word.kind = .keyword .breakWord → semicolon.kind = .symbol .semicolon →
      Derives (.statement false (.break word.toLexeme)) [word, semicolon]
  | for {word opening second closing : Token} {open_ first fs condition cs increment is body bs} :
      word.kind = .keyword .forWord → opening.kind = .symbol .leftParen → First first fs →
      Optional condition cs → second.kind = .symbol .semicolon →
      Optional increment is → closing.kind = .symbol .rightParen →
      Derives (.statement open_ body) bs →
      Derives (.statement open_ (Parser.forTree first condition increment body))
        (word :: opening :: (fs ++ (cs ++ second :: (is ++ closing :: bs))))
  | if {word opening closing : Token} {open_ condition cs yes ys} :
      word.kind = .keyword .ifWord → opening.kind = .symbol .leftParen →
      Expr.Derives condition cs → closing.kind = .symbol .rightParen →
      Derives (.statement open_ yes) ys →
      Derives (.statement true (.ifElse condition yes none))
        (word :: opening :: (cs ++ closing :: ys))
  | ifElse {word opening closing elseWord : Token} {open_ condition cs yes ys no ns} :
      word.kind = .keyword .ifWord → opening.kind = .symbol .leftParen →
      Expr.Derives condition cs → closing.kind = .symbol .rightParen →
      -- An open statement here would take the `else` for itself.
      Derives (.statement false yes) ys →
      elseWord.kind = .keyword .elseWord → Derives (.statement open_ no) ns →
      Derives (.statement open_ (.ifElse condition yes (some no)))
        (word :: opening :: (cs ++ closing :: (ys ++ elseWord :: ns)))
  | print {word semicolon : Token} {e ts} :
      word.kind = .keyword .printWord → Expr.Derives e ts →
      semicolon.kind = .symbol .semicolon →
      Derives (.statement false (.print e)) (word :: (ts ++ [semicolon]))
  | return {word semicolon : Token} {e ts} :
      word.kind = .keyword .returnWord → Optional e ts →
      semicolon.kind = .symbol .semicolon →
      Derives (.statement false (.return word.toLexeme e)) (word :: (ts ++ [semicolon]))
  | while {word opening closing : Token} {open_ condition cs body bs} :
      word.kind = .keyword .whileWord → opening.kind = .symbol .leftParen →
      Expr.Derives condition cs → closing.kind = .symbol .rightParen →
      Derives (.statement open_ body) bs →
      Derives (.statement open_ (.while condition body))
        (word :: opening :: (cs ++ closing :: bs))
  | block {opening closing : Token} {body bs} :
      opening.kind = .symbol .leftBrace → Derives (.declarations body) bs →
      closing.kind = .symbol .rightBrace →
      Derives (.statement false (.block body)) (opening :: (bs ++ [closing]))
  | expression {semicolon : Token} {e ts} :
      Expr.Derives e ts → semicolon.kind = .symbol .semicolon →
      Derives (.statement false (.expression e)) (ts ++ [semicolon])

/-! ## Bounds -/

mutual

/-- No call in the expression has more than 255 arguments. -/
def Expr.ArityFits : Expr → Prop
  | .literal _ => True
  | .grouping inner => inner.ArityFits
  | .unary _ _ operand => operand.ArityFits
  | .binary _ _ left right => left.ArityFits ∧ right.ArityFits
  | .logical _ _ left right => left.ArityFits ∧ right.ArityFits
  | .name _ => True
  | .assign _ value => value.ArityFits
  | .call callee _ arguments =>
    callee.ArityFits ∧ Expr.ListArityFits arguments ∧ arguments.length ≤ 255
  | .get object _ => object.ArityFits
  | .set object _ value => object.ArityFits ∧ value.ArityFits
  | .this _ => True
  | .super _ _ => True

/-- No call in the expressions has more than 255 arguments. -/
def Expr.ListArityFits : List Expr → Prop
  | [] => True
  | e :: es => e.ArityFits ∧ Expr.ListArityFits es

end

/-- No call in an expression that may be missing has more than 255 arguments. -/
def Expr.OptionArityFits : Option Expr → Prop
  | none => True
  | some e => e.ArityFits

mutual

/-- No call has more than 255 arguments, and no declaration more than 255
    parameters. -/
def Stmt.ArityFits : Stmt → Prop
  | .expression value => value.ArityFits
  | .print value => value.ArityFits
  | .var _ initializer => Expr.OptionArityFits initializer
  | .block body => Stmt.ListArityFits body
  | .ifElse condition yes none => condition.ArityFits ∧ yes.ArityFits
  | .ifElse condition yes (some no) => condition.ArityFits ∧ yes.ArityFits ∧ no.ArityFits
  | .while condition body => condition.ArityFits ∧ body.ArityFits
  | .break _ => True
  | .function decl => decl.ArityFits
  | .return _ value => Expr.OptionArityFits value
  | .class _ _ methods => FunctionDecl.ListArityFits methods

def Stmt.ListArityFits : List Stmt → Prop
  | [] => True
  | s :: ss => s.ArityFits ∧ Stmt.ListArityFits ss

def FunctionDecl.ArityFits : FunctionDecl → Prop
  | ⟨_, parameters, body⟩ => parameters.length ≤ 255 ∧ Stmt.ListArityFits body

def FunctionDecl.ListArityFits : List FunctionDecl → Prop
  | [] => True
  | d :: ds => d.ArityFits ∧ FunctionDecl.ListArityFits ds

end

mutual

/-- Every `break` has a loop around it within the innermost function, where `inLoop`
    tells whether the statement itself stands in one. -/
def Stmt.BreaksInside (inLoop : Bool) : Stmt → Prop
  | .expression _ => True
  | .print _ => True
  | .var _ _ => True
  | .block body => Stmt.ListBreaksInside inLoop body
  | .ifElse _ yes none => yes.BreaksInside inLoop
  | .ifElse _ yes (some no) => yes.BreaksInside inLoop ∧ no.BreaksInside inLoop
  | .while _ body => body.BreaksInside true
  | .break _ => inLoop = true
  | .function decl => decl.BreaksInside
  | .return _ _ => True
  | .class _ _ methods => FunctionDecl.ListBreaksInside methods

def Stmt.ListBreaksInside (inLoop : Bool) : List Stmt → Prop
  | [] => True
  | s :: ss => s.BreaksInside inLoop ∧ Stmt.ListBreaksInside inLoop ss

/-- In a body of its own a declaration is in no loop. -/
def FunctionDecl.BreaksInside : FunctionDecl → Prop
  | ⟨_, _, body⟩ => Stmt.ListBreaksInside false body

def FunctionDecl.ListBreaksInside : List FunctionDecl → Prop
  | [] => True
  | d :: ds => d.BreaksInside ∧ FunctionDecl.ListBreaksInside ds

end

/-! ## Trees without numbers -/

/-- An occurrence without its number. -/
def Occurrence.unnumbered (use : Occurrence) : Occurrence := { use with id := 0 }

mutual

/-- An expression without the numbers of its occurrences. -/
def Expr.unnumbered : Expr → Expr
  | .literal value => .literal value
  | .grouping inner => .grouping inner.unnumbered
  | .unary op sign operand => .unary op sign operand.unnumbered
  | .binary op sign left right => .binary op sign left.unnumbered right.unnumbered
  | .logical op sign left right => .logical op sign left.unnumbered right.unnumbered
  | .name use => .name use.unnumbered
  | .assign target value => .assign target.unnumbered value.unnumbered
  | .call callee paren arguments => .call callee.unnumbered paren (Expr.listUnnumbered arguments)
  | .get object property => .get object.unnumbered property
  | .set object property value => .set object.unnumbered property value.unnumbered
  | .this keyword => .this keyword.unnumbered
  | .super keyword method => .super keyword.unnumbered method

def Expr.listUnnumbered : List Expr → List Expr
  | [] => []
  | e :: es => e.unnumbered :: Expr.listUnnumbered es

end

mutual

/-- A statement without the numbers of its occurrences. -/
def Stmt.unnumbered : Stmt → Stmt
  | .expression value => .expression value.unnumbered
  | .print value => .print value.unnumbered
  | .var name initializer => .var name (initializer.map Expr.unnumbered)
  | .block body => .block (Stmt.listUnnumbered body)
  | .ifElse condition yes none => .ifElse condition.unnumbered yes.unnumbered none
  | .ifElse condition yes (some no) =>
    .ifElse condition.unnumbered yes.unnumbered (some no.unnumbered)
  | .while condition body => .while condition.unnumbered body.unnumbered
  | .break keyword => .break keyword
  | .function decl => .function decl.unnumbered
  | .return keyword value => .return keyword (value.map Expr.unnumbered)
  | .class name superclass methods =>
    .class name (superclass.map Occurrence.unnumbered) (FunctionDecl.listUnnumbered methods)

def Stmt.listUnnumbered : List Stmt → List Stmt
  | [] => []
  | s :: ss => s.unnumbered :: Stmt.listUnnumbered ss

def FunctionDecl.unnumbered : FunctionDecl → FunctionDecl
  | ⟨name, parameters, body⟩ => ⟨name, parameters, Stmt.listUnnumbered body⟩

def FunctionDecl.listUnnumbered : List FunctionDecl → List FunctionDecl
  | [] => []
  | d :: ds => d.unnumbered :: FunctionDecl.listUnnumbered ds

end

end Lox
