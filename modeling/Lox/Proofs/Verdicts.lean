/-
  Lox.Proofs.Verdicts

  How a mode ends on sinks that take everything.

    * `Sink.holding` — such a sink, with lines on it;
    * `RunM.PrintsLines` — an action that writes whole lines, none of which is refused;
      every program is one (`compositional_printsLines`);
    * `Mode.earlyFaults`, `Mode.scopeFaults` — what is wrong with a text before it is run,
      in the order in which it is reported;
    * `Mode.Fails`, `Mode.Succeeds` — how the run of a text stops or comes to its end;
    * `Mode.Verdict` — the three ways in which a mode that reads a tree can end;
    * `Mode.perform_verdict` — it ends in one of them, and a listing shows the tokens and
      reports the faults among them.

  The modes differ in how they parse, in what they resolve and in what they do with the
  tree.  `check_cases` says once what checking finds, and `onMachine_cases` how an action
  ends.
-/
import Lox.Mode
import Lox.Proofs.Evolution
import Mathlib

namespace Lox

/-! ## Lines -/

/-- A sink that takes everything, with these lines on it. -/
def Sink.holding (texts : List String) : Sink :=
  ⟨none, (String.join (texts.map (· ++ "\n"))).toUTF8⟩

theorem Sink.write_holding (texts : List String) (text : String) :
    (holding texts).write (text ++ "\n") = (true, holding (texts ++ [text])) := by
  have hmore : String.join ((texts ++ [text]).map (· ++ "\n")) =
      String.join (texts.map (· ++ "\n")) ++ (text ++ "\n") := by
    simp
  unfold holding
  rw [hmore]
  rfl

/-! ## Actions that write lines -/

namespace RunM

variable {α β : Type}

/-- The end of an action with whole lines on the output, none of which was refused. -/
inductive Listed : EStateM.Result Halt Machine α → Prop
  | ok {a n} (texts : List String) : n.out = .holding texts → Listed (.ok a n)
  | error {halt n} (texts : List String) : n.out = .holding texts → halt ≠ .closed →
      Listed (.error halt n)

/-- An action that writes whole lines. -/
def PrintsLines (p : RunM α) : Prop :=
  ∀ m texts, m.out = .holding texts → Listed (p m)

namespace PrintsLines

theorem throw (halt : Halt) (hopen : halt ≠ .closed) :
    (MonadExcept.throw halt : RunM α).PrintsLines :=
  fun _ texts hm => .error texts hm hopen

theorem fail (at_ : Lexeme) (fault : RuntimeFault) : (RunM.fail at_ fault : RunM α).PrintsLines :=
  throw _ nofun

theorem bind {p : RunM α} {f : α → RunM β} (hp : p.PrintsLines) (hf : ∀ a, (f a).PrintsLines) :
    (p >>= f).PrintsLines := by
  intro m texts hm
  have hfirst := hp m texts hm
  rw [bind_eq]
  generalize p m = first at hfirst
  cases hfirst with
  | ok more hn => exact hf _ _ more hn
  | error more hn hopen => exact .error more hn hopen

theorem get {f : Machine → RunM β} (hf : ∀ m, (f m).PrintsLines) :
    (MonadState.get >>= f).PrintsLines :=
  fun m texts hm => hf m m texts hm

theorem ofExcept (answer : Except RuntimeError α) : (RunM.ofExcept answer).PrintsLines := by
  cases answer with
  | ok a => exact fun _ texts hm => .ok texts hm
  | error e => exact throw _ nofun

theorem write (use : Occurrence) (value : Value) : (RunM.write use value).PrintsLines := by
  intro m texts hm
  unfold RunM.write
  cases target? m use with
  | none => exact .error texts hm nofun
  | some f => exact .ok texts hm

theorem superBinding (keyword : Occurrence) : (Lox.superBinding keyword).PrintsLines := by
  refine .get fun m => ?_
  split
  · exact fail _ _
  · dsimp only
    split
    · exact fun _ texts hm => .ok texts hm
    · exact fail _ _

/-- The line that is printed is taken. -/
theorem print (value : Value) : (RunM.print value).PrintsLines := by
  intro m texts hm
  have hwritten := Sink.write_holding texts (value.text m.store)
  rw [← hm] at hwritten
  unfold RunM.print
  dsimp only
  rw [hwritten]
  exact .ok (texts ++ [value.text m.store]) rfl

theorem readClock : RunM.readClock.PrintsLines := by
  intro m texts hm
  unfold RunM.readClock
  cases m.clock m.ticks with
  | none => exact .error texts hm nofun
  | some reading => exact .ok texts hm

theorem withFrame (f : FrameId) {p : RunM α} (hp : p.PrintsLines) :
    (RunM.withFrame f p).PrintsLines := by
  intro m texts hm
  have hinside := hp { m with env := f } texts hm
  unfold RunM.withFrame
  generalize p { m with env := f } = inside at hinside
  cases hinside with
  | ok more hn => exact .ok more hn
  | error more hn hopen => exact .error more hn hopen

theorem deeper {p : RunM α} (hp : p.PrintsLines) : (RunM.deeper p).PrintsLines := by
  intro m texts hm
  have hinside := hp { m with depth := m.depth + 1 } texts hm
  unfold RunM.deeper
  generalize p { m with depth := m.depth + 1 } = inside at hinside
  cases hinside with
  | ok more hn => exact .ok more hn
  | error more hn hopen => exact .error more hn hopen

theorem limited (paren : Lexeme) {p : RunM α} (hp : p.PrintsLines) :
    (MonadState.get >>= fun m =>
      if maxDepth ≤ m.depth then RunM.fail paren .stackOverflow else p : RunM α).PrintsLines := by
  refine .get fun m => ?_
  split
  · exact fail _ _
  · exact hp

end PrintsLines

end RunM

/-- To write whole lines carries over from the parts of a run. -/
theorem compositional_printsLines : Compositional RunM.PrintsLines where
  pure _ _ texts hm := .ok texts hm
  throw := .throw
  bind := .bind
  inspect _ _ texts hm := .ok texts hm
  here hf := .get fun m => hf m.env
  read use m texts hm := by
    rw [RunM.read_eq]
    exact RunM.PrintsLines.ofExcept _ m texts hm
  write := .write
  superBinding := .superBinding
  bound _ _ _ _ texts hm := .ok texts hm
  newFrame _ _ texts hm := .ok texts hm
  newInstance _ _ texts hm := .ok texts hm
  setField _ _ _ _ texts hm := .ok texts hm
  newStamp _ texts hm := .ok texts hm
  print := .print
  readClock := .readClock
  withFrame f _ hp := .withFrame f hp
  deeper := .deeper
  limited paren _ hp := .limited paren hp

/-! ## Faults -/

/-- The faults that stand in the place of a result. -/
def faultsIn {α : Type} : Except (List Diagnostic) α → List Diagnostic
  | .ok _ => []
  | .error ds => ds

/-- The faults that the second step finds in what the first one gives. -/
def faultsThen {α β : Type} (found : Except (List Diagnostic) α)
    (resolve : α → Except (List Diagnostic) β) : List Diagnostic :=
  match found with
  | .ok tree => faultsIn (resolve tree)
  | .error _ => []

/-- What fails to parse has a fault. -/
theorem Parser.ne_nil_of_runOn {α : Type} {p : Nat → Parser α} {tokens : List Token} {n : Nat}
    {ds : List Diagnostic} (h : (runOn p tokens n).result = .error ds) : ds ≠ [] := by
  unfold runOn at h
  dsimp only at h
  split at h
  · next a s _ =>
    -- Behind a tree there are faults only if some were reported on the way.
    by_cases hnone : s.faults.isEmpty = true
    · simp [hnone] at h
    · simp only [hnone] at h
      cases h
      simpa using hnone
  · cases h
    simp

theorem Walk.ne_nil_of_result {w : Walk} {ds : List Diagnostic} (h : w.result = .error ds) :
    ds ≠ [] := by
  unfold result at h
  by_cases hnone : w.faults.isEmpty = true
  · simp [hnone] at h
  · simp only [hnone] at h
    cases h
    simpa using hnone

namespace Mode

/-- What is no token, in the order of the text, and then what is no tree of the mode, in the
    order of the parser. -/
def earlyFaults (mode : Mode) (source : String) : List Diagnostic :=
  let tokens := tokensOf (scan source)
  faultsOf (scan source) ++
    match mode with
    | .tokenize _ => []
    | .parse | .evaluate => faultsIn (parseExpression tokens 0).result
    | .run => faultsIn (parseProgram tokens 0).result

/-- What is wrong with the scopes of the tree, in modes that run it. -/
def scopeFaults (mode : Mode) (source : String) : List Diagnostic :=
  let tokens := tokensOf (scan source)
  match mode with
  | .tokenize _ | .parse => []
  | .evaluate => faultsThen (parseExpression tokens 0).result resolveExpression
  | .run => faultsThen (parseProgram tokens 0).result resolveProgram

/-- Checking gives the early faults, or, if there are none, those of scopes, or, if there
    are none of these either, a tree. -/
theorem check_cases {α β : Type} (parse : List Token → Nat → Parser.Parsed α)
    (resolve : α → Except (List Diagnostic) β) (source : String)
    (hparse : ∀ tokens n ds, (parse tokens n).result = .error ds → ds ≠ [])
    (hresolve : ∀ tree ds, resolve tree = .error ds → ds ≠ []) :
    let found := (parse (tokensOf (scan source)) 0).result
    let early := faultsOf (scan source) ++ faultsIn found
    let late := faultsThen found resolve
    (∃ ds, check parse resolve source = .error ds ∧ ds ≠ [] ∧
      (ds = early ∨ early = [] ∧ ds = late)) ∨
      ∃ tree table, check parse resolve source = .ok (tree, table) ∧ early = [] ∧ late = [] := by
  have hmore := hparse (tokensOf (scan source)) 0
  unfold check
  dsimp only
  generalize (parse (tokensOf (scan source)) 0).result = found at hmore ⊢
  cases found with
  | error more =>
    have hne : faultsOf (scan source) ++ more ≠ [] :=
      List.append_ne_nil_of_right_ne_nil _ (hmore more rfl)
    -- A parser that gives up has the last word, whatever scanning found before.
    refine .inl ⟨faultsOf (scan source) ++ more, ?_, hne, .inl rfl⟩
    cases faultsOf (scan source) <;> rfl
  | ok tree =>
    dsimp only [faultsIn, faultsThen]
    rw [List.append_nil]
    cases faultsOf (scan source) with
    | cons d ds => exact .inl ⟨d :: ds, rfl, List.cons_ne_nil d ds, .inl rfl⟩
    | nil =>
      -- Only now are scopes looked at.
      show (∃ ds, (resolve tree).map (tree, ·) = .error ds ∧ _) ∨
        ∃ _ _, (resolve tree).map (tree, ·) = .ok _ ∧ _
      cases hresolved : resolve tree with
      | error ds => exact .inl ⟨ds, rfl, hresolve tree ds hresolved, .inr ⟨rfl, rfl⟩⟩
      | ok table => exact .inr ⟨tree, table, rfl, rfl, rfl⟩

/-! ## Writing on sinks that take everything -/

section

variable {α β : Type} {c c' : Channels}

theorem bind_of_ok {p : Reporter α} {a : α} (h : p c = .ok a c') (f : α → Reporter β) :
    (p >>= f) c = f a c' := by
  show EStateM.bind p f c = _
  rw [EStateM.bind, h]

theorem bind_of_error {p : Reporter α} {why : Interruption} (h : p c = .error why c')
    (f : α → Reporter β) : (p >>= f) c = .error why c' := by
  show EStateM.bind p f c = _
  rw [EStateM.bind, h]

theorem writeOut_holding (shown : List String) (err : Sink) (line : String) :
    writeOut line ⟨.holding shown, err⟩ = .ok () ⟨.holding (shown ++ [line]), err⟩ := by
  unfold writeOut
  dsimp only
  rw [Sink.write_holding]
  rfl

theorem writeErr_holding (out : Sink) (told : List String) (line : String) :
    writeErr line ⟨out, .holding told⟩ = .ok () ⟨out, .holding (told ++ [line])⟩ := by
  unfold writeErr
  dsimp only
  rw [Sink.write_holding]
  rfl

theorem writeAll_holding (out : Sink) (told : List String) (ds : List Diagnostic) :
    writeAll ds ⟨out, .holding told⟩ = .ok () ⟨out, .holding (told ++ ds.map Diagnostic.text)⟩ := by
  induction ds generalizing told with
  | nil =>
    rw [List.map_nil, List.append_nil]
    rfl
  | cons d ds ih =>
    rw [writeAll, bind_of_ok (writeErr_holding out told d.text), ih, List.append_assoc]
    rfl

/-- Items are listed in their order, tokens on the one sink and faults on the other. -/
theorem listItems_holding (render : Token → String) (shown told : List String)
    (items : List Item) :
    listItems render items ⟨.holding shown, .holding told⟩ =
      .ok () ⟨.holding (shown ++ (tokensOf items).map render),
        .holding (told ++ (faultsOf items).map Diagnostic.text)⟩ := by
  induction items generalizing shown told with
  | nil =>
    have htokens : (tokensOf []).map render = [] := rfl
    have hfaults : (faultsOf []).map Diagnostic.text = [] := rfl
    rw [htokens, hfaults, List.append_nil, List.append_nil]
    rfl
  | cons item items ih =>
    cases item with
    | ok t =>
      have htokens : tokensOf (.ok t :: items) = t :: tokensOf items := rfl
      have hfaults : faultsOf (.ok t :: items) = faultsOf items := rfl
      rw [listItems, bind_of_ok (writeOut_holding shown _ (render t)), ih, htokens, hfaults,
        List.append_assoc]
      rfl
    | error d =>
      have htokens : tokensOf (.error d :: items) = tokensOf items := rfl
      have hfaults : faultsOf (.error d :: items) = d :: faultsOf items := rfl
      rw [listItems, bind_of_ok (writeErr_holding _ told d.text), ih, htokens, hfaults,
        List.append_assoc]
      rfl

theorem reportStatic_unlimited (ds : List Diagnostic) :
    reportStatic ds ⟨.unlimited, .unlimited⟩ =
      .ok .staticError ⟨.unlimited, .holding (ds.map Diagnostic.text)⟩ :=
  bind_of_ok (writeAll_holding .unlimited [] ds) _

end

/-! ## Running on a sink that takes everything -/

/-- The machine on which a mode starts to run a tree. -/
def startOf (limits : Limits) (table : Table) : Machine :=
  { Machine.start .unlimited limits.clock with table }

/-- The result is not that of a run that was given up. -/
def Finished (result : EStateM.Result Interruption Channels Status) : Prop :=
  ∀ c, result ≠ .error .outOfFuel c ∧ result ≠ .error .awaitingClock c

theorem Finished.not_given_up {α : Type} {p : Reporter α} {f : α → Reporter Status}
    {c c' : Channels} {why : Interruption} (h : Finished ((p >>= f) c))
    (hwhy : why = .outOfFuel ∨ why = .awaitingClock) : p c ≠ .error why c' := by
  intro hrun
  obtain ⟨hfuel, hclock⟩ := h c'
  rw [bind_of_error hrun] at hfuel hclock
  rcases hwhy with rfl | rfl
  · exact hfuel rfl
  · exact hclock rfl

/-- An action ends, stops with a fault, or is given up; the output has what it printed. -/
theorem onMachine_cases {α : Type} (limits : Limits) (table : Table) {action : RunM α}
    (haction : action.PrintsLines) :
    (∃ a m printed, action (startOf limits table) = .ok a m ∧ m.out = .holding printed ∧
      onMachine limits table action ⟨.unlimited, .unlimited⟩ =
        .ok (.ok a) ⟨.holding printed, .unlimited⟩) ∨
    (∃ e m printed, action (startOf limits table) = .error (.error e) m ∧
      m.out = .holding printed ∧ onMachine limits table action ⟨.unlimited, .unlimited⟩ =
        .ok (.error e) ⟨.holding printed, .unlimited⟩) ∨
    ∃ why c, (why = .outOfFuel ∨ why = .awaitingClock) ∧
      onMachine limits table action ⟨.unlimited, .unlimited⟩ = .error why c := by
  have hlisted := haction (startOf limits table) [] rfl
  unfold onMachine
  dsimp only
  generalize hrun : action (startOf limits table) = x at hlisted
  have hrun' : action { Machine.start .unlimited limits.clock with table } = x := hrun
  rw [hrun']
  cases hlisted with
  | @ok a n printed hout =>
    refine .inl ⟨a, n, printed, rfl, hout, ?_⟩
    rw [← hout]
  | @error halt n printed hout hopen =>
    cases halt with
    | error e =>
      refine .inr (.inl ⟨e, n, printed, rfl, hout, ?_⟩)
      rw [← hout]
    -- The one interruption that would be left over does not happen on such a sink.
    | closed => exact absurd rfl hopen
    | outOfFuel => exact .inr (.inr ⟨.outOfFuel, _, .inl rfl, rfl⟩)
    | awaitingClock => exact .inr (.inr ⟨.awaitingClock, _, .inr rfl, rfl⟩)

/-- The run of a text in a mode stops with a fault, and leaves a machine. -/
inductive Fails (limits : Limits) (source : String) : Mode → RuntimeError → Machine → Prop
  | evaluate {tree table e m} : check parseExpression resolveExpression source = .ok (tree, table) →
      Lox.evaluate limits.fuel tree (startOf limits table) = .error (.error e) m →
      Fails limits source .evaluate e m
  | run {program table e m} : check parseProgram resolveProgram source = .ok (program, table) →
      interpret limits.fuel program (startOf limits table) = .error (.error e) m →
      Fails limits source .run e m

/-- The text comes to its end in a mode that reads a tree, and shows these lines: the tree,
    or what was printed and then the value, or what was printed. -/
inductive Succeeds (limits : Limits) (source : String) : Mode → List String → Prop
  | parse {tree} : check parseExpression (fun _ => .ok ()) source = .ok (tree, ()) →
      Succeeds limits source .parse [tree.treeText]
  | evaluate {tree table v m printed} :
      check parseExpression resolveExpression source = .ok (tree, table) →
      Lox.evaluate limits.fuel tree (startOf limits table) = .ok v m →
      m.out = .holding printed → Succeeds limits source .evaluate (printed ++ [v.text m.store])
  | run {program table m printed} :
      check parseProgram resolveProgram source = .ok (program, table) →
      interpret limits.fuel program (startOf limits table) = .ok () m →
      m.out = .holding printed → Succeeds limits source .run printed

/-- How a mode that reads a tree ends, on sinks that take everything.  The status tells the
    three ways apart. -/
inductive Verdict (limits : Limits) (mode : Mode) (source : String) : Status → Channels → Prop
  /-- Nothing is shown or run.  What is reported are all early faults, or, only if there are
      none, all faults of scopes. -/
  | rejected {ds} : ds ≠ [] →
      (ds = earlyFaults mode source ∨ earlyFaults mode source = [] ∧ ds = scopeFaults mode source) →
      Verdict limits mode source .staticError
        ⟨.unlimited, .holding (ds.map Diagnostic.text)⟩
  /-- The run stopped with a fault.  This is all that is reported, and what was printed
      before it is all that is shown. -/
  | failed {e m printed} : earlyFaults mode source = [] → scopeFaults mode source = [] →
      Fails limits source mode e m → m.out = .holding printed →
      Verdict limits mode source .runtimeError
        ⟨.holding printed, .holding [(Diagnostic.runtime e).text]⟩
  /-- Nothing is reported, and all that is shown is what the mode shows of the text. -/
  | succeeded {shown} : earlyFaults mode source = [] → scopeFaults mode source = [] →
      Succeeds limits source mode shown →
      Verdict limits mode source .success ⟨.holding shown, .unlimited⟩

/-! ## Modes -/

variable {limits : Limits} {source : String}

/-- Scopes are not looked at where nothing is run. -/
theorem faultsThen_nothing {α : Type} (found : Except (List Diagnostic) α) :
    faultsThen found (fun _ => (.ok () : Except (List Diagnostic) Unit)) = [] := by
  cases found <;> rfl

theorem parse_verdict : ∃ status c, parseSource source ⟨.unlimited, .unlimited⟩ = .ok status c ∧
    Verdict limits .parse source status c := by
  unfold parseSource
  rcases check_cases parseExpression (fun _ => (.ok () : Except (List Diagnostic) Unit)) source
    (fun _ _ _ => Parser.ne_nil_of_runOn) nofun with
    ⟨ds, hcheck, hne, hds⟩ | ⟨e, _, hcheck, hearly, -⟩
  · rw [faultsThen_nothing] at hds
    rw [hcheck]
    exact ⟨_, _, reportStatic_unlimited ds, .rejected hne hds⟩
  · rw [hcheck]
    exact ⟨_, _, bind_of_ok (writeOut_holding [] _ _) _, .succeeded hearly rfl (.parse hcheck)⟩

theorem evaluate_verdict
    (hfinished : Finished (evaluateSource limits source ⟨.unlimited, .unlimited⟩)) :
    ∃ status c, evaluateSource limits source ⟨.unlimited, .unlimited⟩ = .ok status c ∧
      Verdict limits .evaluate source status c := by
  unfold evaluateSource at hfinished ⊢
  rcases check_cases parseExpression resolveExpression source
    (fun _ _ _ => Parser.ne_nil_of_runOn) (fun _ _ => Walk.ne_nil_of_result) with
    ⟨ds, hcheck, hne, hds⟩ | ⟨e, table, hcheck, hearly, hlate⟩
  · rw [hcheck]
    exact ⟨_, _, reportStatic_unlimited ds, .rejected hne hds⟩
  · rw [hcheck] at hfinished ⊢
    have good := compositional_printsLines
    have hshown : (do let v ← Lox.evaluate limits.fuel e; RunM.inspect v.text).PrintsLines :=
      good.bind (good.eval (good.invoke limits.fuel) e) fun v => good.inspect v.text
    rcases onMachine_cases limits table hshown with
      ⟨text, m, printed, hends, hout, hrun⟩ | ⟨fault, m, printed, hstops, hout, hrun⟩ |
        ⟨why, c, hwhy, hrun⟩
    · -- Looking at the value leaves the machine as it is.
      obtain ⟨v, m', hvalue, hinspect⟩ := RunM.bind_ok hends
      cases hinspect
      exact ⟨_, _, (bind_of_ok hrun _).trans (bind_of_ok (writeOut_holding _ _ _) _),
        .succeeded hearly hlate (.evaluate hcheck hvalue hout)⟩
    · -- Looking at the value never fails.
      have hvalue : Lox.evaluate limits.fuel e (startOf limits table) =
          .error (.error fault) m := by
        rcases RunM.bind_error hstops with hvalue | ⟨v, m', -, hinspect⟩
        · exact hvalue
        · cases hinspect
      exact ⟨_, _, (bind_of_ok hrun _).trans (bind_of_ok (writeErr_holding _ [] _) _),
        .failed hearly hlate (.evaluate hcheck hvalue) hout⟩
    · exact absurd hrun (hfinished.not_given_up hwhy)

theorem run_verdict (hfinished : Finished (runSource limits source ⟨.unlimited, .unlimited⟩)) :
    ∃ status c, runSource limits source ⟨.unlimited, .unlimited⟩ = .ok status c ∧
      Verdict limits .run source status c := by
  unfold runSource at hfinished ⊢
  rcases check_cases parseProgram resolveProgram source
    (fun _ _ _ => Parser.ne_nil_of_runOn) (fun _ _ => Walk.ne_nil_of_result) with
    ⟨ds, hcheck, hne, hds⟩ | ⟨program, table, hcheck, hearly, hlate⟩
  · rw [hcheck]
    exact ⟨_, _, reportStatic_unlimited ds, .rejected hne hds⟩
  · rw [hcheck] at hfinished ⊢
    have hprogram := compositional_printsLines.interpret limits.fuel program
    rcases onMachine_cases limits table hprogram with
      ⟨_, m, printed, hends, hout, hrun⟩ | ⟨fault, m, printed, hstops, hout, hrun⟩ |
        ⟨why, c, hwhy, hrun⟩
    · exact ⟨_, _, bind_of_ok hrun _, .succeeded hearly hlate (.run hcheck hends hout)⟩
    · exact ⟨_, _, (bind_of_ok hrun _).trans (bind_of_ok (writeErr_holding _ [] _) _),
        .failed hearly hlate (.run hcheck hstops) hout⟩
    · exact absurd hrun (hfinished.not_given_up hwhy)

/-- What listing the tokens of a text shows and reports. -/
theorem tokenizeSource_unlimited (json : Bool) (source : String) :
    tokenizeSource json source ⟨.unlimited, .unlimited⟩ =
      .ok (if faultsOf (scan source) = [] then .success else .staticError)
        ⟨.holding ((tokensOf (scan source)).map (if json then Token.jsonText else Token.text)),
          .holding ((faultsOf (scan source)).map Diagnostic.text)⟩ := by
  have hlist := listItems_holding (if json then Token.jsonText else Token.text) [] []
    (scan source)
  refine (bind_of_ok hlist _).trans ?_
  cases faultsOf (scan source) <;> rfl

/-! ## Main statement -/

/-- On sinks that take everything, a mode that reads a tree and is not given up ends in one
    of three ways: the text has static faults, which are reported, and nothing is run; or
    its run stops with a fault, and that is reported; or it comes to its end, and nothing is.
    What is shown is in each case what was printed so far, with the tree or the value where
    the mode ends by showing one.  A listing shows the tokens and reports what the other
    modes report first. -/
theorem perform_verdict (limits : Limits) (source : String) :
    (∀ mode ∈ [Mode.parse, .evaluate, .run],
      Finished (perform limits mode source ⟨.unlimited, .unlimited⟩) →
        ∃ status c, perform limits mode source ⟨.unlimited, .unlimited⟩ = .ok status c ∧
          Verdict limits mode source status c) ∧
    ∀ json, perform limits (.tokenize json) source ⟨.unlimited, .unlimited⟩ =
      .ok (if faultsOf (scan source) = [] then .success else .staticError)
        ⟨.holding ((tokensOf (scan source)).map (if json then Token.jsonText else Token.text)),
          .holding ((faultsOf (scan source)).map Diagnostic.text)⟩ := by
  refine ⟨fun mode hmode hfinished => ?_, fun json => tokenizeSource_unlimited json source⟩
  cases mode with
  | tokenize json => simp at hmode
  | parse => exact parse_verdict
  | evaluate => exact evaluate_verdict hfinished
  | run => exact run_verdict hfinished

/-- A program that would print a line, had it no `return` at its top level. -/
theorem perform_verdict_return :
    Verdict ⟨fun _ => none, 2⟩ .run "print \"a\";return;" .staticError
      ⟨.unlimited,
        .holding ["[line 1] Error at 'return': Can't return from top-level code."]⟩ := by
  have htold : Sink.holding ["[line 1] Error at 'return': Can't return from top-level code."] =
      ⟨none, "[line 1] Error at 'return': Can't return from top-level code.\n".toUTF8⟩ := by cbv
  have hrun : perform ⟨fun _ => none, 2⟩ .run "print \"a\";return;" ⟨.unlimited, .unlimited⟩ =
      .ok .staticError ⟨.unlimited,
        .holding ["[line 1] Error at 'return': Can't return from top-level code."]⟩ := by
    rw [htold]
    cbv
  have hfinished : Finished (perform ⟨fun _ => none, 2⟩ .run "print \"a\";return;"
      ⟨.unlimited, .unlimited⟩) := by
    rw [hrun]
    exact fun c => by simp
  obtain ⟨status, c, hends, hverdict⟩ :=
    (perform_verdict ⟨fun _ => none, 2⟩ "print \"a\";return;").1 .run (by simp) hfinished
  rw [hrun] at hends
  cases hends
  exact hverdict

end Mode

end Lox
