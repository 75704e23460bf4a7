/-
  Lox.Value

  The values a program computes with.

    * `Closure` — a declaration with the frame that its body sees;
    * `Class` — a name, methods and perhaps a superclass;
    * `Value` — everything an expression can evaluate to.

  Functions and classes carry a stamp, a number that no other one has: two of
  them are equal when they came from the same evaluation.  Instances are known by
  their number in the store, so that all holders see the same fields.
-/
import Lox.Bindings
import Lox.Number.Text
import Lox.Syntax.Tree
import Lox.Text.Quoted

namespace Lox

/-- The number of a frame in the store. -/
abbrev FrameId := Nat

/-- The number of an instance in the store. -/
abbrev InstanceId := Nat

/-- A function body together with the frame around it. -/
structure Closure where
  decl : FunctionDecl
  frame : FrameId
  /-- Whether calls yield the receiver, as those of `init` do. -/
  isInitializer : Bool

/-- A class. -/
structure Class where
  stamp : Nat
  name : String
  methods : Bindings Closure
  superclass : Option Class

/-- A value. -/
inductive Value where
  | nil
  | bool (value : Bool)
  | number (value : Float)
  | string (content : String)
  /-- A function that the host supplies, known by its name. -/
  | native (name : String)
  | function (closure : Closure) (stamp : Nat)
  | class (cls : Class)
  | instance (id : InstanceId)

namespace Closure

/-- The number of arguments that a call takes. -/
def arity (c : Closure) : Nat := c.decl.parameters.length

end Closure

namespace Class

/-- The method of a name: the class's own, or else the one that its superclass
    has. -/
def findMethod (name : String) : Class → Option Closure
  | ⟨_, _, methods, superclass⟩ =>
    match methods.get? name with
    | some method => some method
    | none =>
      match superclass with
      | some parent => findMethod name parent
      | none => none

/-- The number of arguments that making an instance takes. -/
def arity (c : Class) : Nat :=
  match c.findMethod "init" with
  | some init => init.arity
  | none => 0

end Class

namespace Value

/-- The value of a constant. -/
def ofLiteral : Literal → Value
  | .number value => number value
  | .string content => string content
  | .bool value => bool value
  | .nil => nil

/-- Only `nil` and `false` count as false. -/
def isTruthy : Value → Bool
  | nil => false
  | bool value => value
  | _ => true

/-- Equality of the language.  Numbers compare as IEEE-754 says, so that NaN
    differs from itself; values of different kinds are never equal. -/
def equals : Value → Value → Bool
  | nil, nil => true
  | bool a, bool b => a = b
  | number a, number b => a == b
  | string a, string b => a = b
  | native a, native b => a = b
  | function _ a, function _ b => a = b
  | .class a, .class b => a.stamp = b.stamp
  | .instance a, .instance b => a = b
  | _, _ => false

end Value

end Lox
