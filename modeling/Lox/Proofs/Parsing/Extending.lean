/-
  Lox.Proofs.Parsing.Extending

  An expression that was read up to the end of a text is read in the same way where a
  semicolon follows it, with the same tree and the same numbers.

    * `ParseState.before` — a position with more tokens behind the ones that are left;
    * `Parser.Extensible` — a step that ends well does the same before these tokens;
    * `extensible_expression` — expressions are read by such steps.

  A semicolon carries on no expression, and so does the end.  Where the two differ, at a
  token that has to be there, a step does not end well at the end.
-/
import Lox.Proofs.Parsing.Bounds

namespace Lox

/-- The position with `below` behind the tokens that are left, and another end mark. -/
def ParseState.before (s : ParseState) (below : List Token) (mark : Token) : ParseState :=
  { s with rest := s.rest ++ below, ending := mark }

namespace Parser

section

variable (below : List Token) (mark : Token)

/-- What ends well before the end mark also does before `below`, in the same way. -/
def Extensible {α : Type} (p : Parser α) : Prop :=
  ∀ s a t, s.ending.kind = .eof → p s = .ok a t →
    t.ending = s.ending ∧ p (s.before below mark) = .ok a (t.before below mark)

end

/-- More tokens that begin with a semicolon. -/
structure Ends (below : List Token) : Prop where
  head : ∀ t ∈ below.head?, t.kind = .symbol .semicolon
  ne_nil : below ≠ []

theorem Ends.cons {below : List Token} (h : Ends below) :
    ∃ t ts, below = t :: ts ∧ t.kind = .symbol .semicolon := by
  obtain ⟨t, ts, rfl⟩ := List.exists_cons_of_ne_nil h.ne_nil
  exact ⟨t, ts, rfl, h.head t rfl⟩

variable {below : List Token} {mark : Token} {α β γ : Type}

/-- A sequence ends well if both of its parts do. -/
theorem exists_of_bind_ok {p : Parser α} {f : α → Parser β} {s u : ParseState} {b : β}
    (h : (p >>= f) s = .ok b u) : ∃ a t, p s = .ok a t ∧ f a t = .ok b u := by
  have hrun : EStateM.bind p f s = .ok b u := h
  unfold EStateM.bind at hrun
  cases hfirst : p s with
  | ok a t =>
    rw [hfirst] at hrun
    exact ⟨a, t, rfl, hrun⟩
  | error e t =>
    rw [hfirst] at hrun
    cases hrun

namespace Extensible

theorem pure (a : α) : Extensible below mark (pure a : Parser α) := by
  rintro s _ _ _ ⟨⟩
  exact ⟨rfl, rfl⟩

theorem fail (cause : SyntaxFault) : Extensible below mark (fail cause : Parser α) := by
  intro s a t _ hrun
  cases hrun

theorem bind {p : Parser α} {f : α → Parser β} (hp : Extensible below mark p)
    (hf : ∀ a, Extensible below mark (f a)) : Extensible below mark (p >>= f) := by
  intro s b u hs hrun
  obtain ⟨a, t, hfirst, hsecond⟩ := exists_of_bind_ok hrun
  obtain ⟨hmark, hfirst'⟩ := hp s a t hs hfirst
  obtain ⟨hmark', hrest⟩ := hf a t b u (hmark ▸ hs) hsecond
  exact ⟨hmark'.trans hmark, (bind_of_ok hfirst').trans hrest⟩

theorem report (t : Token) (cause : SyntaxFault) : Extensible below mark (report t cause) := by
  rintro s _ _ _ ⟨⟩
  exact ⟨rfl, rfl⟩

theorem occurrence (name : Lexeme) : Extensible below mark (occurrence name) := by
  rintro s _ _ _ ⟨⟩
  exact ⟨rfl, rfl⟩

variable (hbelow : Ends below)
include hbelow

/-! ## Reading -/

theorem take? {select : TokenKind → Option γ} (hselect : select (.symbol .semicolon) = none) :
    Extensible below mark (take? select) := by
  obtain ⟨semicolon, tail, rfl, hkind⟩ := hbelow.cons
  intro s a t hs hrun
  unfold Parser.take? at hrun
  cases hrest : s.rest with
  | nil =>
    -- Where the end mark was next, it is the semicolon now, and that is not selected either.
    rw [hrest] at hrun
    cases hrun
    refine ⟨rfl, ?_⟩
    simp only [Parser.take?, ParseState.before, hrest, List.nil_append, hkind, hselect]
  | cons u us =>
    simp only [hrest] at hrun
    cases hfound : select u.kind with
    | none =>
      simp only [hfound] at hrun
      cases hrun
      refine ⟨rfl, ?_⟩
      simp only [Parser.take?, ParseState.before, hrest, List.cons_append, hfound]
    | some d =>
      simp only [hfound] at hrun
      cases hrun
      refine ⟨rfl, ?_⟩
      simp only [Parser.take?, ParseState.before, hrest, List.cons_append, hfound]

theorem accept {kind : TokenKind}
    (hother : (TokenKind.symbol .semicolon).sameType kind = false) :
    Extensible below mark (accept kind) := by
  obtain ⟨semicolon, tail, rfl, hkind⟩ := hbelow.cons
  intro s a t hs hrun
  unfold Parser.accept at hrun
  cases hrest : s.rest with
  | nil =>
    rw [hrest] at hrun
    cases hrun
    refine ⟨rfl, ?_⟩
    simp only [Parser.accept, ParseState.before, hrest, List.nil_append, hkind, hother,
      if_neg Bool.false_ne_true]
  | cons u us =>
    simp only [hrest] at hrun
    by_cases hfound : u.kind.sameType kind = true
    · rw [if_pos hfound] at hrun
      cases hrun
      refine ⟨rfl, ?_⟩
      simp only [Parser.accept, ParseState.before, hrest, List.cons_append, hfound, if_true]
    · rw [if_neg hfound] at hrun
      cases hrun
      refine ⟨rfl, ?_⟩
      simp only [Parser.accept, ParseState.before, hrest, List.cons_append, if_neg hfound]

theorem check {kind : TokenKind}
    (hother : (TokenKind.symbol .semicolon).sameType kind = false) :
    Extensible below mark (check kind) := by
  obtain ⟨semicolon, tail, rfl, hkind⟩ := hbelow.cons
  rintro s _ _ _ ⟨⟩
  refine ⟨rfl, ?_⟩
  cases hrest : s.rest with
  | nil =>
    simp only [Parser.check, ParseState.before, hrest, List.nil_append, List.head?_cons,
      List.head?_nil, Option.any_some, Option.any_none, hkind, hother]
  | cons u us =>
    simp only [Parser.check, ParseState.before, hrest, List.cons_append, List.head?_cons]

theorem acceptSymbol (symbol : Symbol) (hother : symbol ≠ .semicolon) :
    Extensible below mark (acceptSymbol symbol) := by
  refine (accept hbelow ?_).bind fun found => .pure _
  refine Bool.eq_false_iff.mpr fun hsame => hother ?_
  cases TokenKind.sameType_symbol.mp hsame
  rfl

theorem expectSymbol (symbol : Symbol) (hother : symbol ≠ .semicolon) (cause : SyntaxFault) :
    Extensible below mark (expectSymbol symbol cause) := by
  refine (accept hbelow ?_).bind fun found => ?_
  · refine Bool.eq_false_iff.mpr fun hsame => hother ?_
    cases TokenKind.sameType_symbol.mp hsame
    rfl
  · cases found with
    | none => exact .fail cause
    | some t => exact .pure t

theorem expectName (cause : SyntaxFault) : Extensible below mark (expectName cause) := by
  refine Extensible.bind ?_ fun t => .pure _
  refine (accept hbelow rfl).bind fun found => ?_
  cases found with
  | none => exact .fail cause
  | some t => exact .pure t

omit hbelow in
/-- A step that looks at the next token, and does not end well if there is none. -/
theorem peek {f : Token → Parser β}
    (hend : ∀ s a t, s.rest = [] → s.ending.kind = .eof → (Parser.peek >>= f) s ≠ .ok a t)
    (hf : ∀ s u us a t, s.rest = u :: us → s.ending.kind = .eof → f u s = .ok a t →
      t.ending = s.ending ∧ f u (s.before below mark) = .ok a (t.before below mark)) :
    Extensible below mark (Parser.peek >>= f) := by
  intro s a t hs hrun
  cases hrest : s.rest with
  | nil => exact absurd hrun (hend s a t hrest hs)
  | cons u us =>
    rw [bind_peek hrest] at hrun
    obtain ⟨hmark, hrun'⟩ := hf s u us a t hrest hs hrun
    have hbefore : (s.before below mark).rest = u :: (us ++ below) := by
      rw [ParseState.before, hrest, List.cons_append]
    exact ⟨hmark, (bind_peek hbefore f).trans hrun'⟩

omit hbelow in
/-- Reading the token that comes next. -/
theorem advance {p : Parser α} (hp : Extensible below mark p) {s t : ParseState} {u : Token}
    {us : List Token} {a : α} (hrest : s.rest = u :: us) (hs : s.ending.kind = .eof)
    (hrun : (Parser.advance >>= fun _ => p) s = .ok a t) :
    t.ending = s.ending ∧
      (Parser.advance >>= fun _ => p) (s.before below mark) = .ok a (t.before below mark) := by
  rw [bind_advance hrest] at hrun
  obtain ⟨hmark, hrun'⟩ := hp { s with rest := us } a t hs hrun
  have hbefore : (s.before below mark).rest = u :: (us ++ below) := by
    rw [ParseState.before, hrest, List.cons_append]
  exact ⟨hmark, (bind_advance hbefore _).trans hrun'⟩

end Extensible

section

variable (hbelow : Ends below)
include hbelow

/-! ## Operations -/

section

variable {select : TokenKind → Option γ} {node : γ → Lexeme → Expr → Expr → Expr}
  {operand : Parser Expr} (hselect : select (.symbol .semicolon) = none)
  (hoperand : Extensible below mark operand)
include hselect hoperand

theorem extensible_chain (bound : Nat) (left : Expr) :
    Extensible below mark (chain select node operand bound left) := by
  induction bound generalizing left with
  | zero => exact .pure left
  | succ bound ih =>
    refine (Extensible.take? hbelow hselect).bind fun found => ?_
    cases found with
    | none => exact .pure left
    | some sign => exact hoperand.bind fun right => ih _

theorem extensible_level (bound : Nat) :
    Extensible below mark (level select node bound operand) :=
  hoperand.bind fun left => extensible_chain hbelow hselect hoperand bound left

end

theorem extensible_unaryOps (bound : Nat) (ops : List (TokenKind × Lexeme)) :
    Extensible below mark (unaryOps bound ops) := by
  induction bound generalizing ops with
  | zero => exact .pure ops
  | succ bound ih =>
    refine (Extensible.take? hbelow rfl).bind fun found => ?_
    cases found with
    | none => exact .pure ops
    | some sign => exact ih _

section

variable {expression : Parser Expr} (hexpression : Extensible below mark expression)
  (hend : ∀ s a t, s.rest = [] → s.ending.kind = .eof → expression s ≠ .ok a t)
include hexpression

include hend in
theorem extensible_argumentsFrom (bound : Nat) (read : Array Expr) :
    Extensible below mark (argumentsFrom expression bound read) := by
  induction bound generalizing read with
  | zero => exact .pure read
  | succ bound ih =>
    have hmore : Extensible below mark (do
        let argument ← expression
        if ← acceptSymbol .comma then argumentsFrom expression bound (read.push argument)
        else pure (read.push argument)) := by
      refine hexpression.bind fun argument => ?_
      refine (Extensible.acceptSymbol hbelow .comma nofun).bind fun more => ?_
      cases more with
      | false => exact .pure _
      | true => exact ih _
    unfold argumentsFrom
    split
    · -- The fault is reported at the token that comes next, with which an argument begins.
      refine Extensible.peek (fun s a t hrest hs hrun => ?_) fun s u us a t _ hs hrun =>
        ((Extensible.report u _).bind fun _ => hmore) s a t hs hrun
      let reported : ParseState :=
        { s with faults := s.faults.push (diagnostic s.current .tooManyArguments) }
      obtain ⟨e, t', hread, -⟩ := exists_of_bind_ok (p := expression) (s := reported) hrun
      exact hend reported e t' hrest hs hread
    · exact hmore

include hend in
theorem extensible_finishCall (bound : Nat) (callee : Expr) :
    Extensible below mark (finishCall bound expression callee) := by
  have hrest (arguments : Array Expr) : Extensible below mark (do
      let paren ← expectSymbol .rightParen .parenAfterArguments
      pure (Expr.call callee paren.toLexeme arguments.toList)) :=
    (Extensible.expectSymbol hbelow .rightParen nofun _).bind fun paren => .pure _
  refine (Extensible.check hbelow rfl).bind fun empty => ?_
  cases empty with
  | false => exact (extensible_argumentsFrom hbelow hexpression hend bound #[]).bind hrest
  | true => exact hrest #[]

include hend in
theorem extensible_suffixes (inner bound : Nat) (e : Expr) :
    Extensible below mark (suffixes inner expression bound e) := by
  induction bound generalizing e with
  | zero => exact .pure e
  | succ bound ih =>
    refine (Extensible.take? hbelow rfl).bind fun found => ?_
    match found with
    | none => exact .pure e
    | some (.call, _) =>
      exact (extensible_finishCall hbelow hexpression hend inner e).bind fun call => ih call
    | some (.property, _) => exact (Extensible.expectName hbelow _).bind fun name => ih _

theorem extensible_primary : Extensible below mark (primary expression) := by
  refine Extensible.peek (fun s a t hrest hs hrun => ?_) fun s u us a t hrest hs hrun => ?_
  · have hfailed := primary_end hrest hs expression
    cases hfailed.symm.trans hrun
  · have hread {p : Parser Expr} (hp : Extensible below mark p) :
        (Parser.advance >>= fun _ => p) s = .ok a t → t.ending = s.ending ∧
          (Parser.advance >>= fun _ => p) (s.before below mark) = .ok a (t.before below mark) :=
      hp.advance hrest hs
    revert hrun
    cases u.kind with
    | number value => exact hread (.pure _)
    | string content => exact hread (.pure _)
    | identifier => exact hread ((Extensible.occurrence _).bind fun use => .pure _)
    | keyword word =>
      cases word with
      | falseWord => exact hread (.pure _)
      | trueWord => exact hread (.pure _)
      | nilWord => exact hread (.pure _)
      | superWord =>
        exact hread <| (Extensible.expectSymbol hbelow .dot nofun _).bind fun _ =>
          (Extensible.expectName hbelow _).bind fun method =>
            (Extensible.occurrence _).bind fun use => .pure _
      | thisWord => exact hread ((Extensible.occurrence _).bind fun use => .pure _)
      | _ => exact nofun
    | symbol symbol =>
      cases symbol with
      | leftParen =>
        exact hread <| hexpression.bind fun inner =>
          (Extensible.expectSymbol hbelow .rightParen nofun _).bind fun _ => .pure _
      | _ => exact nofun
    | eof => exact nofun

include hend in
theorem extensible_operation (bound : Nat) :
    Extensible below mark (operation bound expression) := by
  unfold operation
  iterate 6 refine extensible_level hbelow rfl ?_ bound
  refine (extensible_unaryOps hbelow bound []).bind fun ops => Extensible.bind ?_ fun e => .pure _
  exact (extensible_primary hbelow hexpression).bind fun e =>
    extensible_suffixes hbelow hexpression hend bound bound e

include hend in
theorem extensible_assignment (bound : Nat) :
    Extensible below mark (assignment bound expression) := by
  refine (extensible_operation hbelow hexpression hend bound).bind fun left =>
    (Extensible.accept hbelow rfl).bind fun found => ?_
  cases found with
  | none => exact .pure left
  | some equals =>
    refine hexpression.bind fun value => ?_
    show Extensible below mark (assigned left equals value)
    cases left with
    | name use => exact (Extensible.occurrence _).bind fun target => .pure _
    | get object property => exact .pure _
    | _ => exact (Extensible.report _ _).bind fun _ => .pure _

end

/-! ## Expressions -/

/-- An expression that ends well at the end ends well before a semicolon, and then in the
    same way. -/
theorem extensible_expression (n : Nat) : Extensible below mark (expression n) := by
  induction n with
  | zero => exact .fail _
  | succ n ih =>
    refine extensible_assignment hbelow ih (fun s a t hrest hs hrun => ?_) (n + 1)
    -- No expression ends well where no token is left.
    have hbound : s.rest.length < s.rest.length + 1 := Nat.lt_succ_self _
    have hread : (default : Beyond).expressionWithin _ s = expression n s :=
      expressionWithin_eq default hs hbound (by rw [hrest]; exact n.zero_le)
    rw [hrun, Beyond.expressionWithin_end hrest hs] at hread
    cases hread

end

end Parser

end Lox
