/-
  Lox.Proofs.Scoping.Context

  The resolver comes out of a tree in the context in which it went in.

    * `Walk.Leaves` — which scopes are there behind a walk; it is back in its class;
    * `Stmt.names` — the names that a statement puts into the scope around it, with those of
      its branches and its loop body;
    * `Stmt.leaves`, `FunctionDecl.leaves`, `Expr.leaves` — walks through trees, whatever
      they find, leave the scopes as they are, but for these names in the innermost one;
    * `Stmt.statements` — the statements inside a statement; in a program that was parsed
      each of them puts there only the name that it declares itself
      (`StmtPhrase.Derives.namesOwn`);
    * `Walk.Returns` — a walk is back in its context, and has added to what was found;
    * `resolver_keeps_context` — so it is behind every tree in a program.
-/
import Lox.Proofs.Grammar.Exact
import Lox.Proofs.Occurrences.Entering
import Lox.Proofs.Parsing.Ends
import Lox.Proofs.Scoping.Independence
import Lox.Proofs.Scoping.Wording
import Mathlib

namespace Lox

/-! ## Scopes behind a walk -/

/-- Names are put into the innermost scope, ready, one after another. -/
def Scope.declareAll (scopes : List Scope) (names : List Lexeme) : List Scope :=
  names.foldl (fun scopes name => mark scopes name.text true) scopes

namespace Scope

theorem declareAll_append (scopes : List Scope) (names more : List Lexeme) :
    declareAll scopes (names ++ more) = declareAll (declareAll scopes names) more :=
  List.foldl_append

theorem length_declareAll (scopes : List Scope) (names : List Lexeme) :
    (declareAll scopes names).length = scopes.length := by
  induction names generalizing scopes with
  | nil => rfl
  | cons name names ih => exact (ih _).trans (length_mark scopes name.text true)

/-- Only the innermost scope gets the names. -/
theorem tail_declareAll (scopes : List Scope) (names : List Lexeme) :
    (declareAll scopes names).tail = scopes.tail := by
  induction names generalizing scopes with
  | nil => rfl
  | cons name names ih => exact (ih _).trans (tail_mark scopes name.text true)

end Scope

namespace Walk

/-- The scopes behind a walk depend on those before it alone, and the class is the same. -/
structure Leaves (f : Walk → Walk) (after : List Scope → List Scope) : Prop where
  scopes : ∀ w, (f w).scopes = after w.scopes
  cls : ∀ w, (f w).cls = w.cls

namespace Leaves

variable {f g : Walk → Walk} {a b : List Scope → List Scope}

theorem still : Leaves (fun w => w) fun scopes => scopes := ⟨fun _ => rfl, fun _ => rfl⟩

theorem then_ (hf : Leaves f a) (hg : Leaves g b) :
    Leaves (fun w => g (f w)) fun scopes => b (a scopes) := by
  refine ⟨fun w => ?_, fun w => (hg.cls _).trans (hf.cls w)⟩
  rw [hg.scopes, hf.scopes]

/-- Behind both branches the scopes are the same. -/
theorem ite {c : Walk → Prop} [∀ w, Decidable (c w)] (hf : Leaves f a) (hg : Leaves g a) :
    Leaves (fun w => if c w then f w else g w) a := by
  constructor
  · intro w
    split
    · exact hf.scopes w
    · exact hg.scopes w
  · intro w
    split
    · exact hf.cls w
    · exact hg.cls w

/-- A scope that was opened is closed again. -/
theorem inScope (scope : Scope) (hf : Leaves f a)
    (htail : ∀ scopes, (a (scope :: scopes)).tail = scopes) :
    Leaves (fun w => w.inScope scope f) fun scopes => scopes := by
  refine ⟨fun w => ?_, fun w => hf.cls _⟩
  show (f _).scopes.tail = w.scopes
  rw [hf.scopes]
  exact htail w.scopes

theorem inClass (cls : ClassKind) (hf : Leaves f a) :
    Leaves (fun w => { f { w with cls } with cls := w.cls }) a :=
  ⟨fun w => hf.scopes { w with cls }, fun _ => rfl⟩

theorem inBody (body : BodyKind) (hf : Leaves f a) :
    Leaves (fun w => { f { w with body } with body := w.body }) a :=
  ⟨fun w => hf.scopes { w with body }, fun w => hf.cls { w with body }⟩

end Leaves

end Walk

open Walk

theorem leaves_report (at_ : Lexeme) (fault : ScopeFault) :
    Leaves (fun w => w.report at_ fault) fun scopes => scopes := ⟨fun _ => rfl, fun _ => rfl⟩

theorem leaves_mark (name : String) (ready : Bool) :
    Leaves (fun w => w.mark name ready) fun scopes => Scope.mark scopes name ready :=
  ⟨fun w => scopes_mark w name ready, fun w => (leads_mark w name ready).cls⟩

theorem leaves_bind (use : Occurrence) : Leaves (fun w => w.bind use) fun scopes => scopes := by
  constructor
  · intro w
    unfold Walk.bind
    split <;> rfl
  · intro w
    unfold Walk.bind
    split <;> rfl

theorem leaves_read (use : Occurrence) : Leaves (fun w => w.read use) fun scopes => scopes :=
  (Leaves.ite (c := fun w => w.readsOwnInitializer use.name.text = true)
    (leaves_report use.name _) .still).then_ (leaves_bind use)

theorem leaves_declare (name : Lexeme) :
    Leaves (fun w => w.declare name) fun scopes => Scope.mark scopes name.text false :=
  Leaves.ite (c := fun w => w.declaresHere name.text = true)
    ((leaves_mark name.text false).then_ (leaves_report name _)) (leaves_mark name.text false)

theorem leaves_introduce (name : Lexeme) :
    Leaves (fun w => w.introduce name) fun scopes => Scope.declareAll scopes [name] := by
  have h := (leaves_declare name).then_ (leaves_mark name.text true)
  simp only [mark_mark] at h
  exact h

theorem leaves_parameters (parameters : List Lexeme) :
    Leaves (fun w => parameters.foldl Walk.introduce w) fun scopes =>
      Scope.declareAll scopes parameters := by
  induction parameters with
  | nil => exact .still
  | cons p ps ih => exact (leaves_introduce p).then_ ih

theorem leaves_checkReturn (keyword : Lexeme) (hasValue : Bool) :
    Leaves (fun w => w.checkReturn keyword hasValue) fun scopes => scopes := by
  have hfirst : Leaves
      (fun w => if w.body = .topLevel then w.report keyword .returnAtTopLevel else w)
      fun scopes => scopes := .ite (leaves_report keyword _) .still
  exact .ite (c := fun w => hasValue ∧ w.body = .initializer)
    (hfirst.then_ (leaves_report keyword _)) hfirst

/-! ## Expressions -/

mutual

/-- An expression leaves the scopes as they are. -/
theorem Expr.leaves (e : Expr) : Leaves e.resolve fun scopes => scopes := by
  cases e with
  | literal value => exact .still
  | grouping inner => exact Expr.leaves inner
  | unary op sign operand => exact Expr.leaves operand
  | binary op sign left right => exact (Expr.leaves left).then_ (Expr.leaves right)
  | logical op sign left right => exact (Expr.leaves left).then_ (Expr.leaves right)
  | name use => exact leaves_read use
  | assign target value => exact (Expr.leaves value).then_ (leaves_bind target)
  | call callee paren arguments => exact (Expr.leaves callee).then_ (Expr.listLeaves arguments)
  | get object property => exact Expr.leaves object
  | set object property value => exact (Expr.leaves value).then_ (Expr.leaves object)
  | this keyword => exact .ite (leaves_report keyword.name _) (leaves_bind keyword)
  | super keyword method =>
    have hbind := leaves_bind keyword
    constructor
    · intro w
      simp only [Expr.resolve]
      split <;> exact hbind.scopes _
    · intro w
      simp only [Expr.resolve]
      split <;> exact hbind.cls _

theorem Expr.listLeaves (es : List Expr) :
    Leaves (Expr.listResolve es) fun scopes => scopes := by
  cases es with
  | nil => exact .still
  | cons e es => exact (Expr.leaves e).then_ (Expr.listLeaves es)

end

theorem Expr.optionLeaves (e : Option Expr) :
    Leaves (Expr.optionResolve e) fun scopes => scopes := by
  cases e with
  | none => exact .still
  | some e => exact Expr.leaves e

/-! ## Statements -/

/-- The names that a walk through a statement puts into the scope around it.  Branches and
    loop bodies have no scope of their own. -/
def Stmt.names : Stmt → List Lexeme
  | .var name _ => [name]
  | .function decl => [decl.name]
  | .class name _ _ => [name]
  | .ifElse _ yes none => yes.names
  | .ifElse _ yes (some no) => yes.names ++ no.names
  | .while _ body => body.names
  | _ => []

mutual

/-- A statement puts its names into the innermost scope, and leaves the others as they are. -/
theorem Stmt.leaves (s : Stmt) : Leaves s.resolve fun scopes => Scope.declareAll scopes s.names := by
  match s with
  | .expression value => exact Expr.leaves value
  | .print value => exact Expr.leaves value
  | .var name initializer =>
    -- Declared, then the initializer, then ready: together one name.
    have h := ((leaves_declare name).then_ (Expr.optionLeaves initializer)).then_
      (leaves_mark name.text true)
    simp only [mark_mark] at h
    exact h
  | .block body =>
    exact (Stmt.listLeaves body).inScope .empty fun scopes => Scope.tail_declareAll _ _
  | .ifElse condition yes none => exact (Expr.leaves condition).then_ (Stmt.leaves yes)
  | .ifElse condition yes (some no) =>
    have h := ((Expr.leaves condition).then_ (Stmt.leaves yes)).then_ (Stmt.leaves no)
    simp only [← Scope.declareAll_append] at h
    exact h
  | .while condition body => exact (Expr.leaves condition).then_ (Stmt.leaves body)
  | .break keyword => exact .still
  | .function decl =>
    exact (leaves_introduce decl.name).then_ (FunctionDecl.leaves .function decl)
  | .return keyword value =>
    exact (leaves_checkReturn keyword value.isSome).then_ (Expr.optionLeaves value)
  | .class name none methods =>
    have hmethods := (FunctionDecl.listLeaves methods).inScope (.single "this" true) fun _ => rfl
    exact ((leaves_introduce name).then_ hmethods).inClass .base
  | .class name (some parent) methods =>
    have hmethods := ((FunctionDecl.listLeaves methods).inScope (.single "this" true)
      fun _ => rfl).inScope (.single "super" true) fun _ => rfl
    have hchecked : Leaves (fun w =>
        if parent.name.text = name.text then w.report parent.name .inheritsFromItself else w)
        fun scopes => scopes := .ite (leaves_report parent.name _) .still
    have hderived := hchecked.then_ (((leaves_read parent).then_ hmethods).inClass .derived)
    exact ((leaves_introduce name).then_ hderived).inClass .base

theorem Stmt.listLeaves (ss : List Stmt) :
    Leaves (Stmt.listResolve ss) fun scopes => Scope.declareAll scopes (ss.flatMap Stmt.names) := by
  match ss with
  | [] => exact .still
  | s :: ss =>
    have h := (Stmt.leaves s).then_ (Stmt.listLeaves ss)
    simp only [← Scope.declareAll_append] at h
    exact h

/-- A function leaves the scopes as they are: its parameters and what its body declares are
    in a scope of its own. -/
theorem FunctionDecl.leaves (kind : BodyKind) (d : FunctionDecl) :
    Leaves (d.resolve kind) fun scopes => scopes := by
  match d with
  | ⟨name, parameters, body⟩ =>
    have hbody := (leaves_parameters parameters).then_ (Stmt.listLeaves body)
    simp only [← Scope.declareAll_append] at hbody
    exact (hbody.inScope .empty fun scopes => Scope.tail_declareAll _ _).inBody kind

theorem FunctionDecl.listLeaves (ds : List FunctionDecl) :
    Leaves (FunctionDecl.listResolve ds) fun scopes => scopes := by
  match ds with
  | [] => exact .still
  | d :: ds => exact (FunctionDecl.leaves d.methodKind d).then_ (FunctionDecl.listLeaves ds)

end

/-! ## Statements inside statements -/

mutual

/-- A statement and the statements inside it, also those in the bodies of functions. -/
def Stmt.statements : Stmt → List Stmt
  | .block body => .block body :: Stmt.listStatements body
  | .ifElse condition yes none => .ifElse condition yes none :: yes.statements
  | .ifElse condition yes (some no) =>
    .ifElse condition yes (some no) :: (yes.statements ++ no.statements)
  | .while condition body => .while condition body :: body.statements
  | .function decl => .function decl :: decl.statements
  | .class name superclass methods =>
    .class name superclass methods :: FunctionDecl.listStatements methods
  | .expression value => [.expression value]
  | .print value => [.print value]
  | .var name initializer => [.var name initializer]
  | .break keyword => [.break keyword]
  | .return keyword value => [.return keyword value]

/-- Statements and the statements inside them. -/
def Stmt.listStatements : List Stmt → List Stmt
  | [] => []
  | s :: ss => s.statements ++ Stmt.listStatements ss

/-- The statements inside a function. -/
def FunctionDecl.statements : FunctionDecl → List Stmt
  | ⟨_, _, body⟩ => Stmt.listStatements body

/-- The statements inside functions. -/
def FunctionDecl.listStatements : List FunctionDecl → List Stmt
  | [] => []
  | d :: ds => d.statements ++ FunctionDecl.listStatements ds

end

theorem Stmt.mem_statements (s : Stmt) : s ∈ s.statements := by
  match s with
  | .ifElse _ _ none => exact List.mem_cons_self
  | .ifElse _ _ (some _) => exact List.mem_cons_self
  | .block _ | .while _ _ | .function _ | .class _ _ _ => exact List.mem_cons_self
  | .expression _ | .print _ | .var _ _ | .break _ | .return _ _ => exact List.mem_cons_self

/-- A statement puts no name into the scope around it but the one that it declares itself. -/
def Stmt.NamesOwn (s : Stmt) : Prop := s.names = s.declared?.toList

theorem Stmt.Plain.declared?_eq {s : Stmt} (h : s.Plain) : s.declared? = none := by
  cases s with
  | var declared value => exact h.elim
  | function decl => exact h.elim
  | «class» declared superclass methods => exact h.elim
  | _ => rfl

/-- A branch or a loop body that is no declaration puts no name there. -/
theorem Stmt.Plain.names_eq {s : Stmt} (h : s.Plain)
    (hown : ∀ t ∈ s.statements, t.NamesOwn) : s.names = [] := by
  have hnames : s.names = s.declared?.toList := hown s s.mem_statements
  rw [hnames, h.declared?_eq]
  rfl

def StmtPhrase.statements : StmtPhrase → List Stmt
  | .declarations ss => Stmt.listStatements ss
  | .declaration s => s.statements
  | .statement _ s => s.statements
  | .function decl => decl.statements
  | .methods decls => FunctionDecl.listStatements decls

theorem Variable.namesOwn {s : Stmt} {ts : List Token} (h : Variable s ts) :
    ∀ t ∈ s.statements, t.NamesOwn := by
  cases h with
  | mk _ _ _ => exact List.forall_mem_singleton.mpr rfl

theorem First.namesOwn {first : Option Stmt} {ts : List Token} (h : First first ts) :
    ∀ s, first = some s → ∀ t ∈ s.statements, t.NamesOwn := by
  rintro s rfl
  cases h with
  | var _ hvariable => exact hvariable.namesOwn
  | expression _ _ => exact List.forall_mem_singleton.mpr rfl

/-- The loop of a `for` puts no name there: what it declares is in a block. -/
theorem Parser.namesOwn_forTree {first : Option Stmt} {condition increment : Option Expr}
    {body : Stmt} (hfirst : ∀ s, first = some s → ∀ t ∈ s.statements, t.NamesOwn)
    (hplain : body.Plain) (hbody : ∀ t ∈ body.statements, t.NamesOwn) :
    ∀ t ∈ (Parser.forTree first condition increment body).statements, t.NamesOwn := by
  have hloop : ∀ t ∈ (Parser.forTree none condition increment body).statements, t.NamesOwn := by
    cases increment with
    | none => exact List.forall_mem_cons.mpr ⟨hplain.names_eq hbody, hbody⟩
    | some e =>
      refine List.forall_mem_cons.mpr ⟨rfl, List.forall_mem_cons.mpr ⟨rfl, ?_⟩⟩
      exact List.forall_mem_append.mpr ⟨hbody, List.forall_mem_singleton.mpr rfl⟩
  cases first with
  | none => exact hloop
  | some s =>
    refine List.forall_mem_cons.mpr ⟨rfl, List.forall_mem_append.mpr ⟨hfirst s rfl, ?_⟩⟩
    exact List.forall_mem_append.mpr ⟨hloop, nofun⟩

/-- The grammar has no declarations as branches and loop bodies, so in what it derives each
    statement puts only its own name into the scope around it. -/
theorem StmtPhrase.Derives.namesOwn {phrase : StmtPhrase} {ts : List Token}
    (h : phrase.Derives ts) : ∀ s ∈ phrase.statements, s.NamesOwn := by
  induction h with
  | noDeclarations => nofun
  | declarations _ _ ihs ihss => exact List.forall_mem_append.mpr ⟨ihs, ihss⟩
  | «class» _ _ _ _ _ _ ih => exact List.forall_mem_cons.mpr ⟨rfl, ih⟩
  | function _ _ ih => exact List.forall_mem_cons.mpr ⟨rfl, ih⟩
  | var _ hvariable => exact hvariable.namesOwn
  | statement _ ih => exact ih
  | noMethods => nofun
  | methods _ _ ihd ihds => exact List.forall_mem_append.mpr ⟨ihd, ihds⟩
  | callable _ _ _ _ _ _ _ ih => exact ih
  | «for» _ _ hfirst _ _ _ _ hbody ih =>
    exact Parser.namesOwn_forTree hfirst.namesOwn hbody.plain ih
  | «if» _ _ _ _ hyes ih => exact List.forall_mem_cons.mpr ⟨hyes.plain.names_eq ih, ih⟩
  | ifElse _ _ _ _ hyes _ hno ihyes ihno =>
    refine List.forall_mem_cons.mpr ⟨?_, List.forall_mem_append.mpr ⟨ihyes, ihno⟩⟩
    show Stmt.names _ ++ Stmt.names _ = []
    rw [hyes.plain.names_eq ihyes, hno.plain.names_eq ihno]
    rfl
  | «while» _ _ _ _ hbody ih => exact List.forall_mem_cons.mpr ⟨hbody.plain.names_eq ih, ih⟩
  | block _ _ _ ih => exact List.forall_mem_cons.mpr ⟨rfl, ih⟩
  | «break» _ _ | print _ _ _ | «return» _ _ _ | expression _ _ =>
    exact List.forall_mem_singleton.mpr rfl

/-- A token list that is parsed is derived up to its end mark. -/
theorem derives_of_parsed {tokens : List Token}
    (hmark : tokens = [] ∨ ∃ t ∈ tokens, t.kind = .eof) {nextId : Nat} {program : List Stmt}
    (h : (parseProgram tokens nextId).result = .ok program) :
    ∃ read, (StmtPhrase.declarations program).Derives read := by
  have hbefore : ∀ t ∈ beforeEnd tokens, t.kind ≠ .eof := fun t ht => by
    simpa using List.mem_takeWhile_imp ht
  have hcut : parseProgram tokens nextId =
      Parser.runOn Parser.program (beforeEnd tokens ++ [endMark tokens]) nextId := by
    unfold parseProgram Parser.runOn
    rw [ParseState.ofTokens_append hbefore (endMark_kind hmark), ParseState.ofTokens_eq hmark]
  rw [hcut] at h
  obtain ⟨read, _, _, _, hread, _⟩ :=
    Parser.read_of_runOn hbefore (endMark_kind hmark) Parser.reads_program h
  exact ⟨read, hread.derives⟩

/-! ## Main statement -/

/-- The second walk is back in the context of the first one, apart from a name that was
    declared in the innermost scope, and what it has found in addition belongs to the uses. -/
structure Walk.Returns (w v : Walk) (declared : Option Lexeme) (uses : List Use) : Prop where
  height : v.scopes.length = w.scopes.length
  outer : v.scopes.tail = w.scopes.tail
  /-- The declared name is ready, and all others are as they were. -/
  innermost : ∀ before ∈ w.scopes.head?, ∀ after ∈ v.scopes.head?, ∀ name : String,
    after.get? name =
      if declared.map (·.text) = some name then some true else before.get? name
  body : v.body = w.body
  cls : v.cls = w.cls
  faults : w.faults.toList <+: v.faults.toList
  table : ∀ id : Nat, v.table[id]? ≠ w.table[id]? → ∃ use ∈ uses, use.occurrence.id = id

/-- Of the innermost scope only the declared name is changed. -/
theorem Scope.get?_declareAll {declared : Option Lexeme} {scopes : List Scope} {before after : Scope}
    (hbefore : scopes.head? = some before)
    (hafter : (declareAll scopes declared.toList).head? = some after) (name : String) :
    after.get? name =
      if declared.map (·.text) = some name then some true else before.get? name := by
  cases scopes with
  | nil => cases hbefore
  | cons scope outer =>
    cases hbefore
    cases declared with
    | none =>
      cases hafter
      simp
    | some declared =>
      cases hafter
      by_cases hname : name = declared.text
      · simp [hname]
      · rw [Bindings.get?_insert_of_ne _ hname]
        simp [Ne.symm hname]

/-- A walk that leaves at most one name returns. -/
theorem Walk.Leaves.returns {f : Walk → Walk} {declared : Option Lexeme} {uses : List Use}
    {entries : Walk → List (Nat × Nat)}
    (h : Leaves f fun scopes => Scope.declareAll scopes declared.toList) (hapart : Apart f)
    (henters : Enters f entries uses) (w : Walk) : w.Returns (f w) declared uses := by
  have hscopes : (f w).scopes = Scope.declareAll w.scopes declared.toList := h.scopes w
  refine ⟨?_, ?_, fun before hbefore after hafter name => ?_, hapart.body w, h.cls w,
    hapart.prefix_faults w, fun id hchanged => ?_⟩
  · rw [hscopes, Scope.length_declareAll]
  · rw [hscopes, Scope.tail_declareAll]
  · rw [hscopes] at hafter
    exact Scope.get?_declareAll hbefore hafter name
  · by_contra hnone
    exact hchanged (henters.getElem?_table w fun use huse hid => hnone ⟨use, huse, hid⟩)

/-- The resolver leaves its context as it found it, at whatever position it is, and whether
    or not it finds faults.  Behind a statement of a program that was parsed only the name
    that the statement itself declares is new in the innermost scope; behind a function or
    an expression nothing is. -/
theorem resolver_keeps_context {tokens : List Token}
    (hmark : tokens = [] ∨ ∃ t ∈ tokens, t.kind = .eof) {nextId : Nat} {program : List Stmt}
    (hparsed : (parseProgram tokens nextId).result = .ok program) :
    (∀ s ∈ Stmt.listStatements program, ∀ w : Walk,
      w.Returns (s.resolve w) s.declared? s.uses) ∧
    (∀ kind (d : FunctionDecl) (w : Walk), w.Returns (d.resolve kind w) none d.uses) ∧
    ∀ (e : Expr) (w : Walk), w.Returns (e.resolve w) none e.uses := by
  refine ⟨fun s hs w => ?_, fun kind d => ?_, fun e => ?_⟩
  · obtain ⟨read, hderives⟩ := derives_of_parsed hmark hparsed
    have hown : s.names = s.declared?.toList := hderives.namesOwn s hs
    have hleaves := s.leaves
    rw [hown] at hleaves
    exact hleaves.returns s.apart s.enters w
  · exact (d.leaves kind).returns (d.apart kind) (d.enters kind)
  · exact e.leaves.returns e.apart e.enters

/-- Four faults are found in a class that inherits from itself, where its name is declared
    already: that one, a parameter twice and a value returned from `init` are the others. -/
theorem resolver_keeps_context_faulty : ∃ program s w,
    (∃ t ∈ tokensOf (scan "class A<A\x7binit(x,x)\x7breturn x;\x7d\x7d"), t.kind = .eof) ∧
      (parseProgram (tokensOf (scan "class A<A\x7binit(x,x)\x7breturn x;\x7d\x7d")) 0).result =
        .ok program ∧
      s ∈ Stmt.listStatements program ∧ w.scopes.length = 1 ∧
      (s.resolve w).faults.size = w.faults.size + 4 ∧
      w.Returns (s.resolve w) (some ⟨"A", 1⟩)
        [⟨.read, ⟨0, ⟨"A", 1⟩⟩⟩, ⟨.read, ⟨1, ⟨"x", 1⟩⟩⟩] := by
  let declaration : Stmt := .class ⟨"A", 1⟩ (some ⟨0, ⟨"A", 1⟩⟩) [⟨⟨"init", 1⟩,
    [⟨"x", 1⟩, ⟨"x", 1⟩], [.return ⟨"return", 1⟩ (some (.name ⟨1, ⟨"x", 1⟩⟩))]⟩]
  let w : Walk := { Walk.start with scopes := [.single "A" true] }
  have hparsed : (parseProgram (tokensOf (scan "class A<A\x7binit(x,x)\x7breturn x;\x7d\x7d"))
      0).result = .ok [declaration] := by cbv
  have hmem : declaration ∈ Stmt.listStatements [declaration] := List.mem_cons_self
  exact ⟨_, declaration, w, exists_endMark, hparsed, hmem, rfl, rfl,
    (resolver_keeps_context (.inr exists_endMark) hparsed).1 declaration hmem w⟩

end Lox
