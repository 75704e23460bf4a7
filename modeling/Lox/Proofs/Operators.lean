/-
  Lox.Proofs.Operators

  Actions that do not look at the machine.

    * `RunM.Constant` — an action that yields one value, or fails, on any machine;
    * `TokenKind.applyUnary_cases`, `TokenKind.applyBinary_cases` — operators are such
      actions, what they yield refers to nothing (`Value.Free`), and an operator of the
      grammar fails only because of its operands.
-/
import Lox.Evaluation
import Lox.Proofs.Grammar.Rules

namespace Lox

/-- A value that refers to no frame, no instance and no body. -/
def Value.Free : Value → Prop
  | .function _ _ => False
  | .class _ => False
  | .instance _ => False
  | _ => True

theorem Value.free_ofLiteral (value : Literal) : (Value.ofLiteral value).Free := by
  cases value <;> trivial

/-- An action that does nothing but to yield one value, or to fail. -/
def RunM.Constant {α : Type} (p : RunM α) (P : α → Prop) : Prop :=
  (∃ a, p = Pure.pure a ∧ P a) ∨ ∃ at_ fault, p = RunM.fail at_ fault

/-! ## Operators -/

/-- The faults that operands are to blame for. -/
inductive RuntimeFault.OfOperands : RuntimeFault → Prop
  | number : OfOperands .operandNotNumber
  | numbers : OfOperands .operandsNotNumbers
  | numbersOrStrings : OfOperands .operandsNotNumbersOrStrings

namespace TokenKind

/-- A token that the grammar does not have in front of an operand is no operator. -/
theorem inFront_or_fails (op : TokenKind) :
    InFront op ∨ ∀ sign v, op.applyUnary sign v = RunM.fail sign .invalidUnaryOperator := by
  by_cases hop : InFront op
  · exact .inl hop
  · refine .inr fun sign v => ?_
    unfold applyUnary
    split
    · exact absurd .negate hop
    · exact absurd .not hop
    · rfl

/-- A token that the grammar does not have between two operands is no operator. -/
theorem inBetween_or_fails (op : TokenKind) :
    (∃ rule, InBetween rule op) ∨
      ∀ sign a b, op.applyBinary sign a b = RunM.fail sign .invalidBinaryOperator := by
  by_cases hop : ∃ rule, InBetween rule op
  · exact .inl hop
  · refine .inr fun sign a b => ?_
    unfold applyBinary
    split <;> first | rfl | exact absurd ⟨_, by constructor⟩ hop

/-- What an operator with one operand does. -/
theorem applyUnary_cases (sign : Lexeme) (op : TokenKind) (v : Value) :
    (∃ w, op.applyUnary sign v = pure w ∧ w.Free) ∨
      ∃ fault, op.applyUnary sign v = RunM.fail sign fault ∧
        (fault.OfOperands ∨ ¬InFront op ∧ fault = .invalidUnaryOperator) := by
  by_cases hop : InFront op
  · cases hop with
    | not => exact .inl ⟨_, rfl, trivial⟩
    | negate =>
      cases v with
      | number x => exact .inl ⟨_, rfl, trivial⟩
      | _ => exact .inr ⟨_, rfl, .inl .number⟩
  · have hfails := op.inFront_or_fails.resolve_left hop
    exact .inr ⟨_, hfails sign v, .inr ⟨hop, rfl⟩⟩

theorem addition_cases (sign : Lexeme) (a b : Value) :
    (∃ w, addition sign a b = pure w ∧ w.Free) ∨
      addition sign a b = RunM.fail sign .operandsNotNumbersOrStrings := by
  unfold addition
  split
  · exact .inl ⟨_, rfl, trivial⟩
  · exact .inl ⟨_, rfl, trivial⟩
  · exact .inr rfl

theorem numberOperands_cases (sign : Lexeme) (a b : Value) :
    (∃ xy, numberOperands sign a b = pure xy) ∨
      numberOperands sign a b = RunM.fail sign .operandsNotNumbers := by
  unfold numberOperands
  split
  · exact .inl ⟨_, rfl⟩
  · exact .inr rfl

/-- What an operator with two operands does. -/
theorem applyBinary_cases (sign : Lexeme) (op : TokenKind) (a b : Value) :
    (∃ w, op.applyBinary sign a b = pure w ∧ w.Free) ∨
      ∃ fault, op.applyBinary sign a b = RunM.fail sign fault ∧
        (fault.OfOperands ∨ (∀ rule, ¬InBetween rule op) ∧ fault = .invalidBinaryOperator) := by
  have onNumbers {p : RunM Value} {f : Float × Float → Value}
      (hp : p = numberOperands sign a b >>= fun xy => pure (f xy)) (hf : ∀ xy, (f xy).Free) :
      (∃ w, p = pure w ∧ w.Free) ∨ ∃ fault, p = RunM.fail sign fault ∧
        (fault.OfOperands ∨ (∀ rule, ¬InBetween rule op) ∧ fault = .invalidBinaryOperator) := by
    rcases numberOperands_cases sign a b with ⟨xy, heq⟩ | heq
    · rw [hp, heq]
      exact .inl ⟨f xy, rfl, hf xy⟩
    · rw [hp, heq]
      exact .inr ⟨_, rfl, .inl .numbers⟩
  by_cases hop : ∃ rule, InBetween rule op
  · obtain ⟨rule, hop⟩ := hop
    cases hop with
    | add =>
      rcases addition_cases sign a b with h | h
      · exact .inl h
      · exact .inr ⟨_, h, .inl .numbersOrStrings⟩
    | equal => exact .inl ⟨_, rfl, trivial⟩
    | notEqual => exact .inl ⟨_, rfl, trivial⟩
    -- All others take numbers only.
    | _ => exact onNumbers rfl fun _ => trivial
  · have hfails := op.inBetween_or_fails.resolve_left hop
    exact .inr ⟨_, hfails sign a b, .inr ⟨fun rule h => hop ⟨rule, h⟩, rfl⟩⟩

theorem unary_constant (sign : Lexeme) (op : TokenKind) (v : Value) :
    (op.applyUnary sign v).Constant Value.Free := by
  rcases op.applyUnary_cases sign v with h | ⟨fault, h, _⟩
  · exact .inl h
  · exact .inr ⟨sign, fault, h⟩

theorem binary_constant (sign : Lexeme) (op : TokenKind) (a b : Value) :
    (op.applyBinary sign a b).Constant Value.Free := by
  rcases op.applyBinary_cases sign a b with h | ⟨fault, h, _⟩
  · exact .inl h
  · exact .inr ⟨sign, fault, h⟩

end TokenKind

/-! ## Other actions -/

theorem asInstance_constant (at_ : Lexeme) (fault : RuntimeFault) (v : Value) :
    (asInstance at_ fault v).Constant fun i => v = .instance i := by
  unfold asInstance
  split
  · exact .inl ⟨_, rfl, rfl⟩
  · exact .inr ⟨_, _, rfl⟩

/-- An action that only looks for an instance finds the one that it is given. -/
theorem asInstance_ok {at_ : Lexeme} {fault : RuntimeFault} {v : Value} {i : InstanceId}
    {m n : Machine} (h : asInstance at_ fault v m = .ok i n) : v = .instance i ∧ n = m := by
  unfold asInstance at h
  split at h
  · cases h
    exact ⟨rfl, rfl⟩
  · cases h

theorem checkArity_constant (paren : Lexeme) (expected got : Nat) :
    (checkArity paren expected got).Constant fun _ => expected = got := by
  unfold checkArity
  split
  · next heq => exact .inl ⟨_, rfl, heq⟩
  · exact .inr ⟨_, _, rfl⟩

end Lox
