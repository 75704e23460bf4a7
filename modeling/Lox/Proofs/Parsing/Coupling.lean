/-
  Lox.Proofs.Parsing.Coupling

  Two runs of a parser side by side.

    * `Likeness` — which tokens of two texts correspond, and which trees;
    * `Places` — which positions correspond inside two texts, and which behind the
      semicolon that ends a statement;
    * `Coupled` — two steps from such positions end in the same way, at such positions,
      as long as fewer than `n` tokens are left;
    * `Coupled.bind` — one step after another; a step that reads one token has a rule of
      its own for what comes after it, as that finds fewer tokens.

  The two runs need not read the same text, have the same bounds or count from the same
  number.  What may differ is up to the likeness and the places, of which only the laws
  are known here.
-/
import Lox.Proofs.Grammar.Reading
import Mathlib.Data.List.Forall2

namespace Lox

/-! ## Trees -/

/-- Whether an expression can be assigned to. -/
def Expr.isTarget : Expr → Bool
  | .name _ | .get _ _ => true
  | _ => false

/-- What corresponds in the parts of an expression corresponds in the whole. -/
structure ExprLaws (name sign : Lexeme → Lexeme → Prop) (use word : Occurrence → Occurrence → Prop)
    (expr : Expr → Expr → Prop) : Prop where
  literal {value} : expr (.literal value) (.literal value)
  grouping {a a'} : expr a a' → expr (.grouping a) (.grouping a')
  unary {op g g' a a'} : sign g g' → expr a a' → expr (.unary op g a) (.unary op g' a')
  binary {op g g' a a' b b'} :
    sign g g' → expr a a' → expr b b' → expr (.binary op g a b) (.binary op g' a' b')
  logical {op g g' a a' b b'} :
    sign g g' → expr a a' → expr b b' → expr (.logical op g a b) (.logical op g' a' b')
  named {u u'} : use u u' → expr (.name u) (.name u')
  assign {u u' a a'} : use u u' → expr a a' → expr (.assign u a) (.assign u' a')
  call {a a' g g' es es'} :
    expr a a' → sign g g' → List.Forall₂ expr es es' → expr (.call a g es) (.call a' g' es')
  get {a a' n n'} : expr a a' → name n n' → expr (.get a n) (.get a' n')
  set {a a' n n' b b'} :
    expr a a' → name n n' → expr b b' → expr (.set a n b) (.set a' n' b')
  this {w w'} : word w w' → expr (.this w) (.this w')
  super {w w' n n'} : word w w' → name n n' → expr (.super w n) (.super w' n')
  /-- Targets of an assignment correspond to targets, and so do their parts. -/
  target {e e'} : expr e e' →
    (∃ u u', e = .name u ∧ e' = .name u' ∧ name u.name u'.name) ∨
    (∃ a a' n n', e = .get a n ∧ e' = .get a' n' ∧ expr a a' ∧ name n n') ∨
    e.isTarget = false ∧ e'.isTarget = false

/-- What corresponds in the parts of a statement corresponds in the whole. -/
structure StmtLaws (name sign : Lexeme → Lexeme → Prop) (use : Occurrence → Occurrence → Prop)
    (expr : Expr → Expr → Prop) (stmt : Stmt → Stmt → Prop)
    (decl : FunctionDecl → FunctionDecl → Prop) : Prop where
  expression {e e'} : expr e e' → stmt (.expression e) (.expression e')
  print {e e'} : expr e e' → stmt (.print e) (.print e')
  var {n n' e e'} : name n n' → Option.Rel expr e e' → stmt (.var n e) (.var n' e')
  block {ss ss'} : List.Forall₂ stmt ss ss' → stmt (.block ss) (.block ss')
  ifElse {e e' s s' t t'} :
    expr e e' → stmt s s' → Option.Rel stmt t t' → stmt (.ifElse e s t) (.ifElse e' s' t')
  «while» {e e' s s'} : expr e e' → stmt s s' → stmt (.while e s) (.while e' s')
  «break» {g g'} : sign g g' → stmt (.break g) (.break g')
  function {d d'} : decl d d' → stmt (.function d) (.function d')
  «return» {g g' e e'} : sign g g' → Option.Rel expr e e' → stmt (.return g e) (.return g' e')
  «class» {n n' u u' ds ds'} :
    name n n' → Option.Rel use u u' → List.Forall₂ decl ds ds' →
    stmt (.class n u ds) (.class n' u' ds')
  callable {n n' ps ps' ss ss'} :
    name n n' → List.Forall₂ name ps ps' → List.Forall₂ stmt ss ss' →
    decl ⟨n, ps, ss⟩ ⟨n', ps', ss'⟩

/-- Which tokens of two texts correspond, and which parts of their trees.  Names and other
    lexemes are told apart, and so are uses of names and of the words `this` and `super`. -/
structure Likeness where
  token : Token → Token → Prop
  name : Lexeme → Lexeme → Prop
  sign : Lexeme → Lexeme → Prop
  use : Occurrence → Occurrence → Prop
  word : Occurrence → Occurrence → Prop
  expr : Expr → Expr → Prop
  stmt : Stmt → Stmt → Prop
  decl : FunctionDecl → FunctionDecl → Prop
  kind_eq {t t' : Token} : token t t' → t'.kind = t.kind
  name_of_token {t t' : Token} :
    token t t' → t.kind = .identifier → name t.toLexeme t'.toLexeme
  sign_of_token {t t' : Token} :
    token t t' → t.kind ≠ .identifier → sign t.toLexeme t'.toLexeme
  exprs : ExprLaws name sign use word expr
  stmts : StmtLaws name sign use expr stmt decl

/-! ## Positions -/

/-- Which positions correspond: `here` inside two texts, and `behind` the semicolon that
    ends a statement; and which faults do. -/
structure Places (L : Likeness) where
  here : ParseState → ParseState → Prop
  behind : ParseState → ParseState → Prop
  fault : Diagnostic → Diagnostic → Prop
  ending {s s'} : here s s' → s.ending.kind = .eof ∧ s'.ending.kind = .eof
  heads {s s'} : here s s' → Option.Rel L.token s.rest.head? s'.rest.head?
  ends {s s'} : here s s' → s.rest = [] → L.token s.ending s'.ending
  read {s s' t t' ts ts'} :
    here s s' → s.rest = t :: ts → s'.rest = t' :: ts' → t.kind ≠ .symbol .semicolon →
    here { s with rest := ts } { s' with rest := ts' }
  finish {s s' t t' ts ts'} :
    here s s' → s.rest = t :: ts → s'.rest = t' :: ts' → t.kind = .symbol .semicolon →
    behind { s with rest := ts } { s' with rest := ts' }
  diagnostic {t t'} (cause : SyntaxFault) :
    L.token t t' → fault (Parser.diagnostic t cause) (Parser.diagnostic t' cause)
  report {s s' d d'} :
    here s s' → fault d d' →
    here { s with faults := s.faults.push d } { s' with faults := s'.faults.push d' }
  number {s s'} :
    here s s' → here { s with nextId := s.nextId + 1 } { s' with nextId := s'.nextId + 1 }
  use {s s' n n'} : here s s' → L.name n n' → L.use ⟨s.nextId, n⟩ ⟨s'.nextId, n'⟩
  word {s s' g g'} : here s s' → L.sign g g' → L.word ⟨s.nextId, g⟩ ⟨s'.nextId, g'⟩
  loops {s s'} : here s s' → s'.loops = s.loops
  here_loops {s s'} (loops : Nat) :
    here s s' → here { s with loops } { s' with loops }
  behind_loops {s s'} (loops : Nat) :
    behind s s' → behind { s with loops } { s' with loops }
  /-- Behind a statement, an `else` is looked for. -/
  otherwise {s s'} : behind s s' →
    here s s' ∨ (∀ t ∈ s.rest.head?, t.kind ≠ .keyword .elseWord) ∧
      ∀ t ∈ s'.rest.head?, t.kind ≠ .keyword .elseWord
  /-- After an opening brace or `for`, reading goes on behind semicolons. -/
  inside {s s' t} :
    here s s' → s.rest.head? = some t →
    t.kind = .symbol .leftBrace ∨ t.kind = .keyword .forWord →
    ∀ u u', behind u u' ↔ here u u'
  recover {s s' d d'} :
    here s s' → fault d d' →
    behind { s with faults := s.faults.push d, rest := Parser.afterFault s.rest }
      { s' with faults := s'.faults.push d', rest := Parser.afterFault s'.rest }

/-- Behind a semicolon the texts are alike as they are elsewhere. -/
def Places.Closed {L : Likeness} (C : Places L) : Prop :=
  ∀ s s', C.behind s s' ↔ C.here s s'

/-- A token that is met in the first text. -/
def Places.Met {L : Likeness} (C : Places L) (t : Token) : Prop :=
  ∃ s s', C.here s s' ∧ s.rest.head? = some t

/-- Positions before the given tokens. -/
def Places.At {L : Likeness} (C : Places L) (t t' : Token) (s s' : ParseState) : Prop :=
  C.here s s' ∧ s.current = t ∧ s'.current = t'

/-- Positions before the end. -/
def Places.Before {L : Likeness} (C : Places L) (s s' : ParseState) : Prop :=
  C.here s s' ∧ s.rest ≠ []

theorem TokenKind.eq_symbol_of_sameType {kind : TokenKind} {symbol : Symbol}
    (h : (TokenKind.symbol symbol).sameType kind = true) : kind = .symbol symbol := by
  cases kind with
  | symbol other =>
    rw [sameType, decide_eq_true_eq] at h
    rw [h]
  | _ => cases h

namespace Parser

/-- Two steps that end in the same way: with answers in `rel` at positions in `post`, at
    least `k` tokens on, or by giving up.  `left` tokens stood before the first one. -/
inductive Outcomes {L : Likeness} (C : Places L) {α : Type}
    (post : ParseState → ParseState → Prop) (k left : Nat) (rel : α → α → Prop) :
    EStateM.Result Diagnostic ParseState α → EStateM.Result Diagnostic ParseState α → Prop
  | ok {a a' t t'} :
      post t t' → rel a a' → t.rest.length + k ≤ left →
      Outcomes C post k left rel (.ok a t) (.ok a' t')
  | error {e e' t t'} :
      C.here t t' → C.fault e e' → t.rest.length ≤ left →
      Outcomes C post k left rel (.error e t) (.error e' t')

/-- Two steps end in the same way from all positions in `pre` of which the first one has
    fewer than `n` tokens before it. -/
def Coupled {L : Likeness} (C : Places L) {α : Type} (pre post : ParseState → ParseState → Prop)
    (k n : Nat) (rel : α → α → Prop) (p p' : Parser α) : Prop :=
  ∀ s s', pre s s' → s.rest.length < n → Outcomes C post k s.rest.length rel (p s) (p' s')

variable {L : Likeness} {C : Places L} {α β : Type} {pre mid post : ParseState → ParseState → Prop}
  {k n m : Nat} {rel : α → α → Prop} {rel' : β → β → Prop} {p p' : Parser α} {f f' : α → Parser β}

/-! ## Steps in general -/

/-- An outcome of a step that began with fewer tokens, later. -/
theorem Outcomes.later {j left left' : Nat}
    {r r' : EStateM.Result Diagnostic ParseState α} (h : Outcomes C post (k - j) left' rel r r')
    (hleft : left' + j ≤ left) : Outcomes C post k left rel r r' := by
  cases h with
  | ok hout ha hlength => exact .ok hout ha (by omega)
  | error hout he hlength => exact .error hout he (by omega)

namespace Coupled

theorem shorter (h : Coupled C pre post k n rel p p') (hmn : m ≤ n) :
    Coupled C pre post k m rel p p' :=
  fun s s' hs hlt => h s s' hs (Nat.lt_of_lt_of_le hlt hmn)

theorem none : Coupled C pre post k 0 rel p p' :=
  fun _ _ _ hlt => absurd hlt (Nat.not_lt_zero _)

theorem weaken {post' : ParseState → ParseState → Prop} {j : Nat} {rel'' : α → α → Prop}
    (h : Coupled C pre post k n rel p p') (hpost : ∀ s s', post s s' → post' s s')
    (hrel : ∀ a a', rel a a' → rel'' a a') (hj : j ≤ k) :
    Coupled C pre post' j n rel'' p p' := by
  intro s s' hs hlt
  match p s, p' s', h s s' hs hlt with
  | _, _, .ok hout ha hlength => exact .ok (hpost _ _ hout) (hrel _ _ ha) (by omega)
  | _, _, .error hout he hlength => exact .error hout he hlength

/-- How many tokens were read need not be known. -/
theorem lax (h : Coupled C pre post k n rel p p') : Coupled C pre post 0 n rel p p' :=
  h.weaken (fun _ _ => id) (fun _ _ => id) (Nat.zero_le k)

theorem pure {a a' : α} (h : rel a a') : Coupled C pre pre 0 n rel (pure a) (pure a') :=
  fun _ _ hs _ => .ok hs h (Nat.le_refl _)

/-- One step after another.  The second one may count on the `j` tokens that the first one
    read. -/
theorem bindAfter {j : Nat} (hp : Coupled C pre mid j n rel p p') (hm : n ≤ m + j)
    (hf : ∀ a a', rel a a' → Coupled C mid post (k - j) m rel' (f a) (f' a')) :
    Coupled C pre post k n rel' (p >>= f) (p' >>= f') := by
  intro s s' hs hlt
  show Outcomes C post k s.rest.length rel' (EStateM.bind p f s) (EStateM.bind p' f' s')
  unfold EStateM.bind
  match p s, p' s', hp s s' hs hlt with
  | _, _, .ok hmid ha hlength =>
    -- The first step read `j` tokens, so fewer than `m` are left for the second.
    exact (hf _ _ ha _ _ hmid (by omega)).later hlength
  | _, _, .error hout he hlength => exact .error hout he hlength

theorem bind (hp : Coupled C pre mid 0 n rel p p')
    (hf : ∀ a a', rel a a' → Coupled C mid post k n rel' (f a) (f' a')) :
    Coupled C pre post k n rel' (p >>= f) (p' >>= f') :=
  hp.bindAfter (Nat.le_refl n) hf

/-- One step after another, where the first one reads at least one token. -/
theorem bindRead (hp : Coupled C pre mid 1 n rel p p')
    (hf : ∀ a a', rel a a' → Coupled C mid post (k - 1) n rel' (f a) (f' a')) :
    Coupled C pre post k n rel' (p >>= f) (p' >>= f') :=
  hp.bindAfter (Nat.le_succ n) hf

end Coupled

/-! ## Looking -/

/-- Either both texts end here, or tokens that correspond come next. -/
theorem rest_cases {s s' : ParseState} (h : C.here s s') :
    s.rest = [] ∧ s'.rest = [] ∨
    ∃ t t' ts ts', s.rest = t :: ts ∧ s'.rest = t' :: ts' ∧ L.token t t' := by
  have hheads := C.heads h
  revert hheads
  cases s.rest <;> cases s'.rest <;> intro hheads <;> cases hheads
  · exact .inl ⟨rfl, rfl⟩
  · exact .inr ⟨_, _, _, _, rfl, rfl, ‹_›⟩

theorem token_current {s s' : ParseState} (h : C.here s s') : L.token s.current s'.current := by
  unfold ParseState.current
  obtain ⟨hrest, hrest'⟩ | ⟨t, t', ts, ts', hrest, hrest', ht⟩ := rest_cases h
  · rw [hrest, hrest']
    exact C.ends h hrest
  · rw [hrest, hrest']
    exact ht

namespace Coupled

theorem bindPeek {f f' : Token → Parser β}
    (h : ∀ t t', L.token t t' → Coupled C (C.At t t') post k n rel' (f t) (f' t')) :
    Coupled C C.here post k n rel' (peek >>= f) (peek >>= f') :=
  fun s s' hs hlt => h _ _ (token_current hs) s s' ⟨hs, rfl, rfl⟩ hlt

theorem at_of_here {t t' : Token} (h : Coupled C C.here post k n rel p p') :
    Coupled C (C.At t t') post k n rel p p' :=
  fun s s' hs hlt => h s s' hs.1 hlt

theorem bindCheck (kind : TokenKind) {f f' : Bool → Parser β}
    (h : ∀ b, Coupled C C.here post k n rel' (f b) (f' b)) :
    Coupled C C.here post k n rel' (check kind >>= f) (check kind >>= f') := by
  intro s s' hs hlt
  have hsame : s'.rest.head?.any (·.kind.sameType kind) =
      s.rest.head?.any (·.kind.sameType kind) := by
    obtain ⟨hrest, hrest'⟩ | ⟨t, t', ts, ts', hrest, hrest', ht⟩ := rest_cases hs
    · rw [hrest, hrest']
    · rw [hrest, hrest', List.head?_cons, List.head?_cons, Option.any_some, Option.any_some,
        L.kind_eq ht]
  show Outcomes C post k s.rest.length rel' (f (s.rest.head?.any (·.kind.sameType kind)) s)
    (f' (s'.rest.head?.any (·.kind.sameType kind)) s')
  rw [hsame]
  exact h _ s s' hs hlt

/-- The count of loops is the same in both texts. -/
theorem bindGet {f f' : ParseState → Parser β}
    (h : ∀ s s', s'.loops = s.loops → Coupled C C.here post k n rel' (f s) (f' s')) :
    Coupled C C.here post k n rel' (get >>= f) (get >>= f') :=
  fun s s' hs hlt => h s s' (C.loops hs) s s' hs hlt

/-- Reading goes on where the next token is there in both texts, and is of the same kind. -/
theorem unlessNext (stop : Token → Bool) (hstop : ∀ t t', L.token t t' → stop t' = stop t)
    (hp : Coupled C C.here post k n rel p p') {q q' : Parser α}
    (hq : Coupled C C.Before post k n rel q q') :
    Coupled C C.here post k n rel
      (fun s => match s.rest with
        | [] => p s
        | t :: _ => if stop t then p s else q s)
      (fun s => match s.rest with
        | [] => p' s
        | t :: _ => if stop t then p' s else q' s) := by
  intro s s' hs hlt
  have hstopped := hp s s' hs hlt
  dsimp only
  obtain ⟨hrest, hrest'⟩ | ⟨t, t', ts, ts', hrest, hrest', ht⟩ := rest_cases hs
  · rw [hrest] at hstopped ⊢
    rw [hrest']
    exact hstopped
  · have hgoes := hq s s' ⟨hs, by rw [hrest]; exact List.cons_ne_nil _ _⟩ hlt
    rw [hrest] at hstopped hgoes ⊢
    rw [hrest']
    dsimp only
    rw [hstop t t' ht]
    cases stop t with
    | false => exact hgoes
    | true => exact hstopped

end Coupled

/-! ## Reporting and numbering -/

theorem coupled_fail (cause : SyntaxFault) :
    Coupled C C.here post k n rel (fail cause) (fail cause) :=
  fun _ _ hs _ => .error hs (C.diagnostic cause (token_current hs)) (Nat.le_refl _)

theorem coupled_report {t t' : Token} (ht : L.token t t') (cause : SyntaxFault) :
    Coupled C C.here C.here 0 n (fun _ _ => True) (report t cause) (report t' cause) :=
  fun _ _ hs _ => .ok (C.report hs (C.diagnostic cause ht)) trivial (Nat.le_refl _)

theorem coupled_use {a a' : Lexeme} (h : L.name a a') :
    Coupled C C.here C.here 0 n L.use (occurrence a) (occurrence a') :=
  fun _ _ hs _ => .ok (C.number hs) (C.use hs h) (Nat.le_refl _)

theorem coupled_word {a a' : Lexeme} (h : L.sign a a') :
    Coupled C C.here C.here 0 n L.word (occurrence a) (occurrence a') :=
  fun _ _ hs _ => .ok (C.number hs) (C.word hs h) (Nat.le_refl _)

/-! ## Reading -/

/-- Where a token stands that is not the end mark, it can be read. -/
theorem rest_of_at {s s' : ParseState} {t t' : Token} (h : C.At t t' s s') (ht : t.kind ≠ .eof) :
    ∃ ts ts', s.rest = t :: ts ∧ s'.rest = t' :: ts' := by
  obtain ⟨hs, rfl, rfl⟩ := h
  unfold ParseState.current at ht ⊢
  obtain ⟨hrest, -⟩ | ⟨t, t', ts, ts', hrest, hrest', -⟩ := rest_cases hs
  · rw [hrest] at ht
    exact absurd (C.ending hs).1 ht
  · exact ⟨ts, ts', by rw [hrest]; rfl, by rw [hrest']; rfl⟩

theorem accept_eq_none {kind : TokenKind} {s : ParseState}
    (h : ∀ t ∈ s.rest.head?, t.kind.sameType kind = false) : accept kind s = .ok none s := by
  unfold accept
  cases hrest : s.rest with
  | nil => rfl
  | cons t ts =>
    dsimp only
    rw [h t (by rw [hrest]; rfl)]
    rfl

/-- A token of a type is there in both texts, or in neither. -/
theorem accept_here {s s' : ParseState} (h : C.here s s') (kind : TokenKind) :
    accept kind s = .ok none s ∧ accept kind s' = .ok none s' ∨
    ∃ t t' ts ts', s.rest = t :: ts ∧ s'.rest = t' :: ts' ∧ L.token t t' ∧
      t.kind.sameType kind = true ∧ accept kind s = .ok (some t) { s with rest := ts } ∧
      accept kind s' = .ok (some t') { s' with rest := ts' } := by
  unfold accept
  obtain ⟨hrest, hrest'⟩ | ⟨t, t', ts, ts', hrest, hrest', ht⟩ := rest_cases h
  · rw [hrest, hrest']
    exact .inl ⟨rfl, rfl⟩
  · rw [hrest, hrest']
    dsimp only
    rw [L.kind_eq ht]
    by_cases hkind : t.kind.sameType kind = true
    · rw [if_pos hkind, if_pos hkind]
      exact .inr ⟨t, t', ts, ts', rfl, rfl, ht, hkind, rfl, rfl⟩
    · rw [if_neg hkind, if_neg hkind]
      exact .inl ⟨rfl, rfl⟩

/-- So is a sign that is selected. -/
theorem take?_here {γ : Type} {s s' : ParseState} (h : C.here s s')
    (select : TokenKind → Option γ) :
    take? select s = .ok none s ∧ take? select s' = .ok none s' ∨
    ∃ a t t' ts ts', s.rest = t :: ts ∧ s'.rest = t' :: ts' ∧ L.token t t' ∧
      select t.kind = some a ∧ take? select s = .ok (some (a, t)) { s with rest := ts } ∧
      take? select s' = .ok (some (a, t')) { s' with rest := ts' } := by
  unfold take?
  obtain ⟨hrest, hrest'⟩ | ⟨t, t', ts, ts', hrest, hrest', ht⟩ := rest_cases h
  · rw [hrest, hrest']
    exact .inl ⟨rfl, rfl⟩
  · rw [hrest, hrest']
    dsimp only
    rw [L.kind_eq ht]
    cases hselect : select t.kind with
    | none => exact .inl ⟨rfl, rfl⟩
    | some a => exact .inr ⟨a, t, t', ts, ts', rfl, rfl, ht, hselect, rfl, rfl⟩

namespace Coupled

/-- Reading the token that was just seen. -/
theorem bindAdvance {t t' : Token} (ht : t.kind ≠ .eof) (hsemicolon : t.kind ≠ .symbol .semicolon)
    (hm : n ≤ m + 1) {p p' : Parser β} (h : Coupled C C.here post (k - 1) m rel' p p') :
    Coupled C (C.At t t') post k n rel' (advance >>= fun _ => p) (advance >>= fun _ => p') := by
  intro s s' hs hlt
  obtain ⟨ts, ts', hrest, hrest'⟩ := rest_of_at hs ht
  have hnext : C.here { s with rest := s.rest.tail } { s' with rest := s'.rest.tail } := by
    rw [hrest, hrest']
    exact C.read hs.1 hrest hrest' hsemicolon
  have hlength : s.rest.tail.length + 1 = s.rest.length := by rw [hrest]; rfl
  exact (h _ _ hnext (by dsimp only; omega)).later (Nat.le_of_eq hlength)

/-- A sign that may be there or not. -/
theorem bindTake {γ : Type} (select : TokenKind → Option γ)
    (hname : select .identifier = Option.none)
    (hsemicolon : select (.symbol .semicolon) = Option.none) (hm : n ≤ m + 1)
    {f f' : Option (γ × Token) → Parser β}
    (hnone : Coupled C C.here post k n rel' (f .none) (f' .none))
    (hsome : ∀ a t t', L.sign t.toLexeme t'.toLexeme →
      Coupled C C.here post (k - 1) m rel' (f (some (a, t))) (f' (some (a, t')))) :
    Coupled C C.here post k n rel' (take? select >>= f) (take? select >>= f') := by
  intro s s' hs hlt
  show Outcomes C post k s.rest.length rel' (EStateM.bind (take? select) f s)
    (EStateM.bind (take? select) f' s')
  unfold EStateM.bind
  obtain ⟨hrun, hrun'⟩ | ⟨a, t, t', ts, ts', hrest, hrest', ht, hselect, hrun, hrun'⟩ :=
    take?_here hs select
  · rw [hrun, hrun']
    exact hnone s s' hs hlt
  · have hkind : t.kind ≠ .identifier := fun h => by rw [h, hname] at hselect; cases hselect
    have hother : t.kind ≠ .symbol .semicolon := fun h => by
      rw [h, hsemicolon] at hselect
      cases hselect
    rw [hrun, hrun']
    rw [hrest, List.length_cons] at hlt ⊢
    exact (hsome a t t' (L.sign_of_token ht hkind) _ _ (C.read hs hrest hrest' hother)
      (by dsimp only; omega)).later (Nat.le_refl _)

/-- A token of the given type that may be there or not. -/
theorem bindAccept (kind : TokenKind) (hsemicolon : kind = .symbol .semicolon → C.Closed)
    (hm : n ≤ m + 1) {f f' : Option Token → Parser β}
    (hnone : Coupled C C.here post k n rel' (f .none) (f' .none))
    (hsome : ∀ t t', L.token t t' → t.kind.sameType kind = true → C.Met t →
      Coupled C C.here post (k - 1) m rel' (f (some t)) (f' (some t'))) :
    Coupled C C.here post k n rel' (accept kind >>= f) (accept kind >>= f') := by
  intro s s' hs hlt
  show Outcomes C post k s.rest.length rel' (EStateM.bind (accept kind) f s)
    (EStateM.bind (accept kind) f' s')
  unfold EStateM.bind
  obtain ⟨hrun, hrun'⟩ | ⟨t, t', ts, ts', hrest, hrest', ht, hkind, hrun, hrun'⟩ :=
    accept_here hs kind
  · rw [hrun, hrun']
    exact hnone s s' hs hlt
  · rw [hrun, hrun']
    -- A semicolon may be read in this way only where the texts go on alike behind it.
    have hread : C.here { s with rest := ts } { s' with rest := ts' } := by
      by_cases hend : t.kind = .symbol .semicolon
      · rw [hend] at hkind
        have hclosed := hsemicolon (TokenKind.eq_symbol_of_sameType hkind)
        exact (hclosed _ _).mp (C.finish hs hrest hrest' hend)
      · exact C.read hs hrest hrest' hend
    rw [hrest, List.length_cons] at hlt ⊢
    exact (hsome t t' ht hkind ⟨s, s', hs, by rw [hrest]; rfl⟩ _ _ hread
      (by dsimp only; omega)).later (Nat.le_refl _)

/-- A symbol that may be there or not. -/
theorem bindSymbol (symbol : Symbol) (hsemicolon : symbol = .semicolon → C.Closed)
    (hm : n ≤ m + 1) {f f' : Bool → Parser β}
    (hnone : Coupled C C.here post k n rel' (f false) (f' false))
    (hsome : Coupled C C.here post (k - 1) m rel' (f true) (f' true)) :
    Coupled C C.here post k n rel' (acceptSymbol symbol >>= f) (acceptSymbol symbol >>= f') := by
  unfold acceptSymbol
  rw [bind_assoc, bind_assoc]
  refine bindAccept _ (fun h => hsemicolon ?_) hm hnone fun _ _ _ _ _ => hsome
  cases h
  rfl

/-- An `else` that may be there or not, behind a statement. -/
theorem bindElse {f f' : Option Token → Parser β}
    (hnone : Coupled C C.behind post 0 n rel' (f .none) (f' .none))
    (hsome : ∀ t t', Coupled C C.here post 0 n rel' (f (some t)) (f' (some t'))) :
    Coupled C C.behind post 0 n rel' (accept (.keyword .elseWord) >>= f)
      (accept (.keyword .elseWord) >>= f') := by
  intro s s' hs hlt
  show Outcomes C post 0 s.rest.length rel' (EStateM.bind (accept (.keyword .elseWord)) f s)
    (EStateM.bind (accept (.keyword .elseWord)) f' s')
  unfold EStateM.bind
  -- Either the texts go on alike, or neither of them goes on with an `else`.
  obtain hhere | ⟨hother, hother'⟩ := C.otherwise hs
  · obtain ⟨hrun, hrun'⟩ | ⟨t, t', ts, ts', hrest, hrest', _, hkind, hrun, hrun'⟩ :=
      accept_here hhere (.keyword .elseWord)
    · rw [hrun, hrun']
      exact hnone s s' hs hlt
    · have hother : t.kind ≠ .symbol .semicolon := fun h => by
        rw [h] at hkind
        cases hkind
      rw [hrun, hrun']
      rw [hrest, List.length_cons] at hlt ⊢
      exact (hsome t t' _ _ (C.read hhere hrest hrest' hother) (Nat.lt_of_succ_lt hlt)).later
        (j := 0) (Nat.le_succ _)
  · have hnothing {u : ParseState} (h : ∀ t ∈ u.rest.head?, t.kind ≠ .keyword .elseWord) :
        accept (.keyword .elseWord) u = .ok Option.none u :=
      accept_eq_none fun t ht => Bool.eq_false_iff.mpr fun hkind =>
        h t ht (TokenKind.sameType_keyword.mp hkind)
    rw [hnothing hother, hnothing hother']
    exact hnone s s' hs hlt

end Coupled

/-! ## Expected tokens -/

/-- A token of the given type, unless it is the semicolon that ends a statement. -/
theorem coupled_expect (kind : TokenKind) (hsemicolon : kind = .symbol .semicolon → C.Closed)
    (cause : SyntaxFault) :
    Coupled C C.here C.here 1 n
      (fun t t' => L.token t t' ∧ t.kind.sameType kind = true ∧ C.Met t)
      (expect kind cause) (expect kind cause) :=
  .bindAccept kind hsemicolon (Nat.le_succ n) (coupled_fail cause) fun _ _ ht hkind hmet =>
    .pure ⟨ht, hkind, hmet⟩

theorem coupled_expectSymbol (symbol : Symbol) (hsemicolon : symbol = .semicolon → C.Closed)
    (cause : SyntaxFault) :
    Coupled C C.here C.here 1 n (fun t t' => L.sign t.toLexeme t'.toLexeme)
      (expectSymbol symbol cause) (expectSymbol symbol cause) := by
  refine (coupled_expect (.symbol symbol) (fun h => hsemicolon ?_) cause).weaken (fun _ _ => id)
    (fun t t' h => L.sign_of_token h.1 fun hname => ?_) (Nat.le_refl 1)
  · cases h
    rfl
  · have hkind := h.2.1
    rw [hname] at hkind
    cases hkind

/-- An opening brace, behind which reading goes on after semicolons. -/
theorem coupled_expectBrace (cause : SyntaxFault) :
    Coupled C C.here C.here 1 n (fun _ _ => C.Closed) (expectSymbol .leftBrace cause)
      (expectSymbol .leftBrace cause) := by
  refine (coupled_expect (.symbol .leftBrace) nofun cause).weaken (fun _ _ => id)
    (fun t t' h => ?_) (Nat.le_refl 1)
  obtain ⟨-, hkind, s, s', hs, hhead⟩ := h
  exact C.inside hs hhead (.inl (TokenKind.sameType_symbol.mp hkind))

theorem coupled_expectName (cause : SyntaxFault) :
    Coupled C C.here C.here 1 n L.name (expectName cause) (expectName cause) :=
  (coupled_expect .identifier nofun cause).bindRead fun _ _ h =>
    .pure (L.name_of_token h.1 (TokenKind.sameType_identifier.mp h.2.1))

/-- The semicolon that ends a statement. -/
theorem coupled_semicolon (cause : SyntaxFault) :
    Coupled C C.here C.behind 1 n (fun _ _ => True) (expectSymbol .semicolon cause)
      (expectSymbol .semicolon cause) := by
  intro s s' hs hlt
  show Outcomes C C.behind 1 s.rest.length _ (EStateM.bind (accept (.symbol .semicolon)) _ s)
    (EStateM.bind (accept (.symbol .semicolon)) _ s')
  unfold EStateM.bind
  obtain ⟨hrun, hrun'⟩ | ⟨t, t', ts, ts', hrest, hrest', _, hkind, hrun, hrun'⟩ :=
    accept_here hs (.symbol .semicolon)
  · rw [hrun, hrun']
    exact coupled_fail cause s s' hs hlt
  · rw [hrun, hrun', hrest]
    exact .ok (C.finish hs hrest hrest' (TokenKind.sameType_symbol.mp hkind)) trivial
      (Nat.le_refl _)

/-! ## Loops and recovery -/

/-- The count of loops is another one inside, and the same again afterwards. -/
theorem coupled_withLoops (change : Nat → Nat)
    (hpost : ∀ s s' loops, post s s' → post { s with loops } { s' with loops })
    (h : Coupled C C.here post k n rel p p') :
    Coupled C C.here post k n rel (withLoops change p) (withLoops change p') := by
  intro s s' hs hlt
  have hin : C.here { s with loops := change s.loops } { s' with loops := change s'.loops } := by
    rw [C.loops hs]
    exact C.here_loops _ hs
  unfold withLoops
  match p { s with loops := change s.loops }, p' { s' with loops := change s'.loops },
    h _ _ hin hlt with
  | _, _, .ok hout ha hlength =>
    rw [C.loops hs]
    exact .ok (hpost _ _ _ hout) ha hlength
  | _, _, .error hout he hlength =>
    rw [C.loops hs]
    exact .error (C.here_loops _ hout) he hlength

theorem length_afterFault_lt {ts : List Token} (h : ts ≠ []) :
    (afterFault ts).length < ts.length := by
  cases ts with
  | nil => exact absurd rfl h
  | cons t rest => exact Nat.lt_succ_of_le (skipToBoundary_suffix t rest).length_le

/-- Recovering leads behind a statement too, and at least one token is read or skipped. -/
theorem coupled_recovering (h : Coupled C C.here C.behind 1 n rel p p') :
    Coupled C C.Before C.behind 1 n (Option.Rel rel) (recovering p) (recovering p') := by
  intro s s' hs hlt
  unfold recovering
  match p s, p' s', h s s' hs.1 hlt with
  | _, _, .ok hout ha hlength => exact .ok hout (.some ha) hlength
  | _, _, @Outcomes.error _ _ _ _ _ _ _ _ _ t _ hout he hlength =>
    refine .ok (C.recover hout he) .none ?_
    -- At the end nothing is skipped, but then all tokens were read before.
    have hpos := List.length_pos_iff.mpr hs.2
    by_cases hend : t.rest = []
    · simp only [hend, afterFault, List.length_nil]
      omega
    · have hskipped := length_afterFault_lt hend
      dsimp only
      omega

end Parser
end Lox
