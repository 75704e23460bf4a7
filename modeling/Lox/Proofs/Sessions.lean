/-
  Lox.Proofs.Sessions

  What a text of a session leaves.

    * `Session.Leaves` — the machines that a text can leave: the one that was there, if the
      text has static faults, or else what its tree makes of the machine with its table;
    * `Session.step_leaves` — there are no others.
-/
import Lox.Proofs.Evolution
import Lox.Session

namespace Lox

open RunM

namespace Session

/-- The machine that a text leaves. -/
inductive Leaves (fuel : Nat) (input : SessionInput) (s : Session) : Machine → Prop
  | nothing : Leaves fuel input s s.machine
  | interpret {program : List Stmt} {table : Table} :
      input.mode = .interpret →
      (parseProgram (tokensOf (scan input.source)) s.nextId).result = .ok program →
      tableOf input (resolveProgram program) = .ok table →
      Leaves fuel input s ((interpret fuel program).after ((addTable table).after s.machine))
  | execute {program : List Stmt} {table : Table} :
      input.mode = .execute →
      (parseProgram (tokensOf (scan input.source)) s.nextId).result = .ok program →
      tableOf input (resolveProgram program) = .ok table →
      Leaves fuel input s ((executeEach fuel program).after ((addTable table).after s.machine))
  | evaluate {e : Expr} {table : Table} :
      input.mode = .evaluate →
      (parseExpression (tokensOf (scan input.source)) s.nextId).result = .ok e →
      tableOf input (resolveExpression e) = .ok table →
      Leaves fuel input s ((evaluate fuel e).after ((addTable table).after s.machine))

theorem act_machine (s : Session) (table : Table) (action : RunM SessionAnswer) :
    (s.act table action).2.machine = action.after ((addTable table).after s.machine) := by
  have hrun : (do addTable table; action) s.machine =
      action ((addTable table).after s.machine) := rfl
  unfold act
  rw [hrun]
  cases hend : action ((addTable table).after s.machine) with
  | ok answer n => rw [after_of_ok hend]
  | error halt n =>
    rw [after_of_error hend]
    cases halt <;> rfl

theorem submit_machine {α : Type} (s : Session) (input : SessionInput)
    (parse : List Token → Nat → Parser.Parsed α) (resolve : α → Except (List Diagnostic) Table)
    (action : α → RunM SessionAnswer) :
    (s.submit input parse resolve action).2.machine = s.machine ∨
      ∃ tree table, (parse (tokensOf (scan input.source)) s.nextId).result = .ok tree ∧
        tableOf input (resolve tree) = .ok table ∧
        (s.submit input parse resolve action).2.machine =
          (action tree).after ((addTable table).after s.machine) := by
  unfold submit
  dsimp only
  split
  · next tree _ hparsed =>
    split
    · exact .inl rfl
    · next table htable => exact .inr ⟨tree, table, hparsed, htable, act_machine _ _ _⟩
  · exact .inl rfl
  · exact .inl rfl

/-- An action whose answer is wrapped up leaves the same machine. -/
theorem after_answer {α : Type} (p : RunM α) (answer : α → SessionAnswer) (m : Machine) :
    (do return answer (← p) : RunM SessionAnswer).after m = p.after m :=
  after_bind_pure p answer m

theorem step_leaves (fuel : Nat) (input : SessionInput) (s : Session) :
    s.Leaves fuel input (s.step fuel input).2.machine := by
  unfold step
  -- The modes are not one case with a parameter, as their trees are of different types.
  split
  · next hmode =>
    obtain hnone | ⟨program, table, hparsed, htable, hleft⟩ := s.submit_machine input
      parseProgram resolveProgram fun program => do interpret fuel program; return .done
    · rw [hnone]
      exact .nothing
    · rw [hleft]
      exact after_answer (interpret fuel program) (fun _ => .done) _ ▸
        .interpret hmode hparsed htable
  · next hmode =>
    obtain hnone | ⟨program, table, hparsed, htable, hleft⟩ := s.submit_machine input
      parseProgram resolveProgram fun program => do return .flows (← executeEach fuel program)
    · rw [hnone]
      exact .nothing
    · rw [hleft, after_answer]
      exact .execute hmode hparsed htable
  · next hmode =>
    obtain hnone | ⟨e, table, hparsed, htable, hleft⟩ := s.submit_machine input
      parseExpression resolveExpression fun e => do return .value (← evaluate fuel e)
    · rw [hnone]
      exact .nothing
    · rw [hleft, after_answer]
      exact .evaluate hmode hparsed htable

end Session

end Lox
