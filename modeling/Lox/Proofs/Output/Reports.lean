/-
  Lox.Proofs.Output.Reports

  The lines on which static faults are reported.

    * `Diagnostic.OverLines` — a syntax fault at a string that runs over a line end;
    * `Diagnostic.newline_mem_text_iff` — of all static faults, only these have a line end
      in what is shown for them;
    * `length_lines` — splitting a report gives as many lines as it has line ends;
    * `static_reports_by_line` — so a report has one line for each fault exactly if there
      is no such string among its faults.

  A fault shows a character of the source or the text of a token.  The character is never
  a line end, the faults of scopes stand at words, and those of syntax at tokens of the
  source.
-/
import Lox.Proofs.Json.Listing
import Lox.Proofs.Lexing.Joining
import Lox.Proofs.Parsing.Faults
import Lox.Proofs.Sites.Wording

namespace Lox

/-! ## Lines of a text -/

/-- Splitting at line ends gives one part more than there are line ends. -/
theorem length_lines (cs : List Char) : (cs.splitOn '\n').length = newlines cs + 1 := by
  induction cs with
  | nil => rfl
  | cons c cs ih =>
    rw [List.splitOn_eq_splitOnP] at ih ⊢
    rw [List.splitOnP_cons_eq_if_modifyHead]
    by_cases hc : c = '\n'
    · subst hc
      simp [ih, newlines]
    · simp [ih, newlines, hc]

/-- A report has the line ends of its texts, and one behind each of them. -/
theorem newlines_join (texts : List String) :
    newlines (String.join (texts.map (· ++ "\n"))).toList =
      (texts.map fun text => newlines text.toList).sum + texts.length := by
  rw [String.toList_join, List.flatMap_map]
  induction texts with
  | nil => rfl
  | cons text texts ih =>
    have hown : newlines (text ++ "\n").toList = newlines text.toList + 1 := by
      simp [newlines]
    have hboth : newlines (List.flatMap (fun text => (text ++ "\n").toList) (text :: texts)) =
        newlines (text ++ "\n").toList +
          newlines (List.flatMap (fun text => (text ++ "\n").toList) texts) := by
      unfold newlines
      rw [List.flatMap_cons, List.count_append]
    rw [hboth, hown, ih, List.map_cons, List.sum_cons, List.length_cons]
    omega

/-- A report is split into its texts exactly if none of them has a line end, and otherwise
    into more lines. -/
theorem lines_of_report (texts : List String) :
    ((∀ text ∈ texts, '\n' ∉ text.toList) →
      (String.join (texts.map (· ++ "\n"))).toList.splitOn '\n' =
        texts.map String.toList ++ [[]]) ∧
    ((∃ text ∈ texts, '\n' ∈ text.toList) →
      texts.length + 1 < ((String.join (texts.map (· ++ "\n"))).toList.splitOn '\n').length) := by
  refine ⟨splitOn_join, fun ⟨text, htext, hmem⟩ => ?_⟩
  have hpos : 0 < newlines text.toList := List.count_pos_iff.mpr hmem
  have hle : newlines text.toList ≤ (texts.map fun text => newlines text.toList).sum :=
    List.le_sum_of_mem (List.mem_map_of_mem htext)
  rw [length_lines, newlines_join]
  omega

/-! ## Messages -/

theorem SyntaxFault.newline_not_mem_message (fault : SyntaxFault) :
    '\n' ∉ fault.message.toList := by
  cases fault
  case callableName kind => cases kind <;> decide
  case parenAfterCallableName kind => cases kind <;> decide
  case braceBeforeCallableBody kind => cases kind <;> decide
  all_goals decide

theorem ScopeFault.newline_not_mem_message (fault : ScopeFault) : '\n' ∉ fault.message.toList := by
  cases fault <;> decide

namespace Diagnostic

/-- What is shown for a static fault begins with its line. -/
theorem text_of_isStatic {d : Diagnostic} (h : d.isStatic = true) :
    ∃ rest, d.text = lineText d.line ++ " Error" ++ rest := by
  cases d with
  | lexical n fault =>
    refine ⟨": " ++ fault.message, ?_⟩
    show lineText n ++ (" Error" ++ ": ") ++ fault.message = lineText n ++ " Error" ++ _
    simp only [String.append_assoc]
  | syntactic n place fault =>
    refine ⟨place.text ++ ": " ++ fault.message, ?_⟩
    show lineText n ++ " Error" ++ place.text ++ ": " ++ fault.message = lineText n ++ " Error" ++ _
    simp only [String.append_assoc]
  | scope n place fault =>
    refine ⟨place.text ++ ": " ++ fault.message, ?_⟩
    show lineText n ++ " Error" ++ place.text ++ ": " ++ fault.message = lineText n ++ " Error" ++ _
    simp only [String.append_assoc]
  | runtime _ => cases h

theorem newline_not_mem_lineText (line : Nat) : '\n' ∉ (lineText line).toList := by
  have hline := (Json.shows_whole line).line
  simpa [lineText] using hline

/-- A fault of syntax or scopes shows a line end only in the token at which it stands. -/
theorem newline_mem_shown {line : Nat} {place : Place} {message : String}
    (hmessage : '\n' ∉ message.toList) :
    '\n' ∈ (lineText line ++ " Error" ++ place.text ++ ": " ++ message).toList ↔
      '\n' ∈ place.text.toList := by
  simp [newline_not_mem_lineText, hmessage]

theorem newline_mem_place (lexeme : String) :
    '\n' ∈ (Place.atLexeme lexeme).text.toList ↔ '\n' ∈ lexeme.toList := by
  simp [Place.text]

end Diagnostic

/-! ## Static faults -/

/-- A syntax fault at a string that runs over a line end. -/
def Diagnostic.OverLines (source : String) (d : Diagnostic) : Prop :=
  ∃ t ∈ tokensOf (scan source), ∃ content cause,
    t.kind = .string content ∧ '\n' ∈ content.toList ∧ d = Parser.diagnostic t cause

section

variable {source : String}

/-- Of the tokens of a source, only strings run over line ends. -/
theorem newline_mem_lexeme_iff {t : Token} (ht : t ∈ tokensOf (scan source)) :
    '\n' ∈ t.lexeme.toList ↔ ∃ content, t.kind = .string content ∧ '\n' ∈ content.toList := by
  obtain ⟨hkind, hlexeme⟩ | hspells := spells_of_mem_scan ht
  · simp [hkind, hlexeme]
  · generalize t.kind = kind at hspells
    generalize t.lexeme.toList = lexeme at hspells
    cases hspells with
    | symbol s => cases s <;> simp [Symbol.text]
    | string _ => simp
    | whole _ hdigits _ =>
      simp only [reduceCtorEq, false_and, exists_false, iff_false]
      exact fun hmem => absurd (hdigits _ hmem) (by decide)
    | fraction _ hwhole _ hdigits _ =>
      simp only [reduceCtorEq, false_and, exists_false, iff_false, List.mem_append, List.mem_cons,
        not_or]
      exact ⟨fun hmem => absurd (hwhole _ hmem) (by decide), by decide,
        fun hmem => absurd (hdigits _ hmem) (by decide)⟩
    | keyword k => cases k <;> simp [Keyword.text]
    | name hstart hparts _ =>
      simp only [reduceCtorEq, false_and, exists_false, iff_false, List.mem_cons, not_or]
      refine ⟨?_, fun hmem => absurd (hparts _ hmem) (by decide)⟩
      rintro rfl
      exact absurd hstart (by decide)

/-- Names and reserved words do not run over line ends. -/
theorem words_of_source : ∀ t ∈ tokensOf (scan source),
    t.WordsAre fun name => '\n' ∉ name.text.toList := by
  have hother {t : Token} (ht : t ∈ tokensOf (scan source))
      (hkind : ∀ content, t.kind ≠ .string content) : '\n' ∉ t.toLexeme.text.toList := fun hmem =>
    have ⟨content, hstring, _⟩ := (newline_mem_lexeme_iff ht).mp hmem
    hkind content hstring
  exact fun t ht =>
    ⟨fun hkind => hother ht (by simp [hkind]), fun k hkind => hother ht (by simp [hkind])⟩

/-- No line end is shown for a piece. -/
def Piece.Quiet : Piece → Prop
  | .fault cause _ => '\n' ∉ cause.message.toList
  | _ => True

/-- A character that is no token is no line end either. -/
theorem Piece.quiet_first (c : Char) (cs : List Char) : (first c cs).1.Quiet := by
  unfold first
  split
  · trivial
  next hblank =>
  split
  · unfold ofQuote
    dsimp only
    split
    · show '\n' ∉ "Unterminated string.".toList
      decide
    · trivial
  split
  · trivial
  split
  · trivial
  split
  · trivial
  split
  · unfold ofSymbol
    split <;> trivial
  · have hc : '\n' ≠ c := by
      rintro rfl
      exact hblank rfl
    show '\n' ∉ ("Unexpected character: " ++ String.singleton c).toList
    simp [hc]

theorem quiet_of_mem_pieces {cs : List Char} : ∀ p ∈ pieces cs, p.Quiet := by
  fun_induction pieces cs with
  | case1 => exact List.forall_mem_nil _
  | case2 c cs ih => exact List.forall_mem_cons.mpr ⟨Piece.quiet_first c cs, ih⟩

theorem mem_faultsOf_itemsOf {ps : List Piece} {line : Nat} {d : Diagnostic}
    (h : d ∈ faultsOf (itemsOf line ps)) :
    ∃ n cause text, .fault cause text ∈ ps ∧ d = .lexical n cause := by
  induction ps generalizing line with
  | nil => cases h
  | cons p ps ih =>
    have hlater (hd : d ∈ faultsOf (itemsOf (line + newlines p.text) ps)) :
        ∃ n cause text, .fault cause text ∈ p :: ps ∧ d = .lexical n cause :=
      have ⟨n, cause, text, hmem, hd⟩ := ih hd
      ⟨n, cause, text, List.mem_cons_of_mem p hmem, hd⟩
    cases p with
    | blank text => exact hlater h
    | token kind text => exact hlater h
    | fault cause text =>
      rcases List.mem_cons.mp h with rfl | hmem
      · exact ⟨_, cause, text, List.mem_cons_self, rfl⟩
      · exact hlater hmem

/-- What is said of a static fault: it comes before the program is run, and shows a line end
    exactly if it stands at a string that runs over one. -/
structure Diagnostic.Told (source : String) (d : Diagnostic) : Prop where
  isStatic : d.isStatic = true
  newline_mem_text_iff : '\n' ∈ d.text.toList ↔ d.OverLines source

theorem told_of_lexical {d : Diagnostic} (hd : d ∈ faultsOf (scan source)) : d.Told source := by
  obtain ⟨n, cause, text, hmem, rfl⟩ := mem_faultsOf_itemsOf hd
  have hmessage : '\n' ∉ cause.message.toList := quiet_of_mem_pieces _ hmem
  have htext : '\n' ∉ (Diagnostic.lexical n cause).text.toList := by
    simp [Diagnostic.text, Diagnostic.newline_not_mem_lineText, hmessage]
  refine ⟨rfl, fun h => absurd h htext, ?_⟩
  rintro ⟨_, _, _, _, _, _, ⟨⟩⟩

theorem told_of_scope {d : Diagnostic} (hd : d.ScopeAt fun name => '\n' ∉ name.text.toList) :
    d.Told source := by
  obtain ⟨name, fault, hname, rfl⟩ := hd
  refine ⟨rfl, fun h => ?_, fun ⟨_, _, _, _, _, _, h⟩ => nomatch h⟩
  exact absurd ((Diagnostic.newline_mem_place _).mp
    ((Diagnostic.newline_mem_shown fault.newline_not_mem_message).mp h)) hname

/-- A syntax fault shows the token at which it stands, unless that is the end mark. -/
theorem newline_mem_diagnostic {t : Token} (ht : t ∈ tokensOf (scan source))
    (cause : SyntaxFault) : '\n' ∈ (Parser.diagnostic t cause).text.toList ↔
      ∃ content, t.kind = .string content ∧ '\n' ∈ content.toList := by
  refine (Diagnostic.newline_mem_shown cause.newline_not_mem_message).trans ?_
  by_cases hkind : t.kind = .eof
  · simp [Token.place, hkind, Place.text]
  · have hplace : t.place = .atLexeme t.lexeme := by
      unfold Token.place
      split
      · next h => exact absurd h hkind
      · rfl
    rw [hplace, Diagnostic.newline_mem_place, newline_mem_lexeme_iff ht]

theorem told_of_syntactic {d : Diagnostic}
    (hd : d.StandsAmong (· ∈ tokensOf (scan source))) : d.Told source := by
  obtain ⟨t, cause, ht, rfl⟩ := hd
  refine ⟨rfl, fun h => ?_, fun ⟨u, hu, content, cause', hkind, hcontent, hd⟩ => ?_⟩
  · obtain ⟨content, hkind, hcontent⟩ := (newline_mem_diagnostic ht cause).mp h
    exact ⟨t, ht, content, cause, hkind, hcontent, rfl⟩
  · rw [hd]
    exact (newline_mem_diagnostic hu cause').mpr ⟨content, hkind, hcontent⟩

/-! ## Modes -/

theorem mem_faultsIn {α : Type} {found : Except (List Diagnostic) α} {d : Diagnostic}
    (hd : d ∈ faultsIn found) : ∃ ds, found = .error ds ∧ d ∈ ds := by
  cases found with
  | ok a => cases hd
  | error ds => exact ⟨ds, rfl, hd⟩

theorem mem_faultsThen {α β : Type} {found : Except (List Diagnostic) α}
    {resolve : α → Except (List Diagnostic) β} {d : Diagnostic}
    (hd : d ∈ faultsThen found resolve) :
    ∃ tree ds, found = .ok tree ∧ resolve tree = .error ds ∧ d ∈ ds := by
  cases found with
  | error ds => cases hd
  | ok tree =>
    obtain ⟨ds, hds, hmem⟩ := mem_faultsIn hd
    exact ⟨tree, ds, rfl, hds, hmem⟩

theorem told_of_expression {d : Diagnostic}
    (hd : d ∈ faultsIn (parseExpression (tokensOf (scan source)) 0).result) : d.Told source := by
  obtain ⟨ds, hds, hmem⟩ := mem_faultsIn hd
  exact told_of_syntactic
    (Parser.parseExpression_faults_among exists_endMark (fun _ => id) hds d hmem)

theorem told_of_program {d : Diagnostic}
    (hd : d ∈ faultsIn (parseProgram (tokensOf (scan source)) 0).result) : d.Told source := by
  obtain ⟨ds, hds, hmem⟩ := mem_faultsIn hd
  exact told_of_syntactic
    (Parser.parseProgram_faults_among exists_endMark (fun _ => id) hds d hmem)

namespace Mode

variable {mode : Mode}

theorem told_of_earlyFaults : ∀ d ∈ earlyFaults mode source, d.Told source := by
  intro d hd
  rcases List.mem_append.mp hd with hlexical | hsyntactic
  · exact told_of_lexical hlexical
  · cases mode with
    | tokenize json => cases hsyntactic
    | parse => exact told_of_expression hsyntactic
    | evaluate => exact told_of_expression hsyntactic
    | run => exact told_of_program hsyntactic

theorem told_of_scopeFaults : ∀ d ∈ scopeFaults mode source, d.Told source := by
  intro d hd
  cases mode with
  | tokenize json => cases hd
  | parse => cases hd
  | evaluate =>
    obtain ⟨e, ds, hparse, hresolve, hmem⟩ := mem_faultsThen hd
    exact told_of_scope (expression_scopeFaults_at_words words_of_source hparse hresolve d hmem)
  | run =>
    obtain ⟨program, ds, hparse, hresolve, hmem⟩ := mem_faultsThen hd
    exact told_of_scope (scopeFaults_at_words words_of_source hparse hresolve d hmem)

end Mode

end

/-! ## Main statement -/

/-- Wherever a mode that reads a tree finds static faults, it reports them in order, each
    with its line in front and a line end behind.  Splitting the report at its line ends
    gives one line for each fault, unless a syntax fault stands at a string that runs over
    a line end: only such a fault shows a line end itself, and then there are more lines
    than faults. -/
theorem static_reports_by_line (limits : Limits) (source : String) :
    ∀ mode ∈ [Mode.parse, .evaluate, .run], ∀ c,
      Mode.perform limits mode source ⟨.unlimited, .unlimited⟩ = .ok .staticError c →
      ∃ ds, ds ≠ [] ∧
        (ds = mode.earlyFaults source ∨
          mode.earlyFaults source = [] ∧ ds = mode.scopeFaults source) ∧
        c.err.text = String.join (ds.map fun d => d.text ++ "\n") ∧
        (∀ d ∈ ds, d.isStatic = true ∧
          (∃ rest, d.text = "[line " ++ toString d.line ++ "]" ++ " Error" ++ rest) ∧
          ('\n' ∈ d.text.toList ↔ d.OverLines source)) ∧
        ((∀ d ∈ ds, ¬d.OverLines source) →
          c.err.text.toList.splitOn '\n' = ds.map (fun d => d.text.toList) ++ [[]]) ∧
        ((∃ d ∈ ds, d.OverLines source) →
          ds.length + 1 < (c.err.text.toList.splitOn '\n').length) := by
  intro mode hmode c hperform
  have hfinished : Mode.Finished
      (Mode.perform limits mode source ⟨.unlimited, .unlimited⟩) := by
    rw [hperform]
    exact fun c => ⟨nofun, nofun⟩
  obtain ⟨status, c', hends, hverdict⟩ :=
    (Mode.perform_verdict limits source).1 mode hmode hfinished
  rw [hperform] at hends
  cases hends
  cases hverdict with
  | @rejected ds hne hds =>
    have htold : ∀ d ∈ ds, d.Told source := by
      rcases hds with rfl | ⟨-, rfl⟩
      · exact Mode.told_of_earlyFaults
      · exact Mode.told_of_scopeFaults
    have htext : (Sink.holding (ds.map Diagnostic.text)).text =
        String.join ((ds.map Diagnostic.text).map (· ++ "\n")) := Sink.text_holding _
    obtain ⟨hsplit, hmore⟩ := lines_of_report (ds.map Diagnostic.text)
    dsimp only
    rw [htext]
    refine ⟨ds, hne, hds, by rw [List.map_map]; rfl, fun d hd => ?_, fun hnone => ?_,
      fun ⟨d, hd, hover⟩ => ?_⟩
    · exact ⟨(htold d hd).isStatic, Diagnostic.text_of_isStatic (htold d hd).isStatic,
        (htold d hd).newline_mem_text_iff⟩
    · rw [hsplit, List.map_map]
      · rfl
      · refine List.forall_mem_map.mpr fun d hd hmem => hnone d hd ?_
        exact (htold d hd).newline_mem_text_iff.mp hmem
    · have hmem := (htold d hd).newline_mem_text_iff.mpr hover
      have hlonger := hmore ⟨d.text, List.mem_map_of_mem hd, hmem⟩
      rwa [List.length_map] at hlonger

theorem Mode.run_of_check {limits : Limits} {source : String} {ds : List Diagnostic}
    (h : check parseProgram resolveProgram source = .error ds) :
    perform limits .run source ⟨.unlimited, .unlimited⟩ =
      .ok .staticError ⟨.unlimited, .holding (ds.map Diagnostic.text)⟩ := by
  show runSource limits source ⟨.unlimited, .unlimited⟩ = _
  unfold runSource
  rw [h]
  exact reportStatic_unlimited ds

/-- Two faults, on both sides of a string that runs over a line end. -/
theorem static_reports_by_line_two :
    ∃ c, Mode.perform ⟨fun _ => none, 1⟩ .run "var true;\"\n\"+;" ⟨.unlimited, .unlimited⟩ =
        .ok .staticError c ∧
      c.err.text.toList.splitOn '\n' =
        ["[line 1] Error at 'true': Expect variable name.".toList,
          "[line 2] Error at ';': Expect expression.".toList, []] := by
  have hearly : Mode.earlyFaults .run "var true;\"\n\"+;" =
      [.syntactic 1 (.atLexeme "true") .variableName,
        .syntactic 2 (.atLexeme ";") .expression] := by
    cbv
  have hcheck : Mode.check parseProgram resolveProgram "var true;\"\n\"+;" =
      .error (Mode.earlyFaults .run "var true;\"\n\"+;") := by
    rw [hearly]
    cbv
  have hperform := @Mode.run_of_check ⟨fun _ => none, 1⟩ _ _ hcheck
  obtain ⟨ds, -, hds, -, htold, hsplit, -⟩ :=
    static_reports_by_line ⟨fun _ => none, 1⟩ "var true;\"\n\"+;" .run (by simp) _ hperform
  obtain rfl : ds = Mode.earlyFaults .run "var true;\"\n\"+;" :=
    hds.resolve_right fun h => by simp [hearly] at h
  refine ⟨_, hperform, (hsplit fun d hd hover => ?_).trans ?_⟩
  · have hmem := (htold d hd).2.2.mpr hover
    rw [hearly] at hd
    simp only [List.mem_cons, List.not_mem_nil, or_false] at hd
    rcases hd with rfl | rfl
    · exact absurd hmem (by decide)
    · exact absurd hmem (by decide)
  · rw [hearly]
    rfl

/-- The name of a variable is missing, and a string that runs over a line end stands in its
    place: one fault is shown on two lines. -/
theorem static_report_over_two_lines : ∃ c,
    Mode.perform ⟨fun _ => none, 1⟩ .run "var \"\n\";" ⟨.unlimited, .unlimited⟩ =
      .ok .staticError c ∧
    Mode.earlyFaults .run "var \"\n\";" = [.syntactic 2 (.atLexeme "\"\n\"") .variableName] ∧
    c.err.text.toList.splitOn '\n' =
      ["[line 2] Error at '\"".toList, "\"': Expect variable name.".toList, []] := by
  have hcheck : Mode.check parseProgram resolveProgram "var \"\n\";" =
      .error [.syntactic 2 (.atLexeme "\"\n\"") .variableName] := by
    cbv
  refine ⟨_, Mode.run_of_check hcheck, by cbv, ?_⟩
  dsimp only
  rw [Sink.text_holding]
  decide

end Lox
