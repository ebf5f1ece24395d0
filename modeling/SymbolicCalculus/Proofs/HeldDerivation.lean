import SymbolicCalculus.Binary64.Text
import SymbolicCalculus.Console
import SymbolicCalculus.Proofs.HigherDerivatives
import SymbolicCalculus.Proofs.UnbracketedText

/-!
# What the console holds

After any lines, the console holds the derivation that it printed last. What a line asks for is
`request?`: a blank line asks for the derivative of what is held, and any other line for the
derivative of the formula that stands on it between the blanks, whatever is held. A line that fails
is reported and leaves the console as it was. So the lines that come after it are answered as if it
had not been there, and what is printed does not change where failing lines are put into an input
(`WithFailures`).

Both are statements about one line first (`held?_step`, `printed_step`), and about a run by
induction on its lines.
-/

namespace SymbolicCalculus

theorem Derivation.result_ofFormula_of_error {α : Type} [Scalar α] [Numeral α] {limits : Limits}
    {text : String} {err : ParseError}
    (h : (Formula.parse limits.maxDepth (Formula.normalize text) : Except ParseError (Expr α)) =
      .error err) :
    (ofFormula limits text : Traced α (Derivation α)).result = .error (.parse err) := by
  have hread : (Formula.readFunction limits text : Traced α (Lambda α)).result =
      .error (.parse err) := Formula.result_readFunction_of_error h
  simp [ofFormula, bind, hread]

/-! ## What is printed -/

namespace Output

/-- The text that is printed, if one is. -/
def printed? : Output → Option String
  | printed text => some text
  | reported _ => none

theorem printed?_printed (text : String) : (printed text).printed? = some text := rfl

theorem printed?_reported (text : String) : (reported text).printed? = none := rfl

theorem printedText_eq (outputs : List Output) :
    printedText outputs = String.join ((outputs.filterMap printed?).map (· ++ "\n")) := by
  rw [printedText]
  induction outputs with
  | nil => rfl
  | cons output rest ih =>
    rw [List.map_cons, String.join_cons, ih]
    cases output with
    | printed text =>
      rw [List.filterMap_cons_some (printed?_printed text), List.map_cons, String.join_cons]
    | reported text => rw [List.filterMap_cons_none (printed?_reported text), String.empty_append]

end Output

/-! ## Blank lines -/

theorem Text.trimmed_eq_nil_iff {cs : List Char} :
    trimmed cs = [] ↔ ∀ c ∈ cs, isBlank c = true := by
  rw [trimmed, List.reverse_eq_nil_iff, skipBlanks, List.dropWhile_eq_nil_iff]
  simp only [List.mem_reverse]
  constructor
  · intro h c hc
    rw [← List.takeWhile_append_dropWhile (p := isBlank) (l := cs)] at hc
    rcases List.mem_append.mp hc with hc | hc
    · exact List.mem_takeWhile_imp hc
    · exact h c hc
  · intro h c hc
    exact h c ((List.dropWhile_sublist _).mem hc)

namespace Console

/-- A line with nothing but blanks on it. -/
def IsBlank (line : String) : Prop :=
  ∀ c ∈ line.toList, Text.isBlank c = true

instance (line : String) : Decidable (IsBlank line) :=
  decidable_of_iff (line.toList.all Text.isBlank = true) List.all_eq_true

variable {α : Type} [Scalar α] [Numeral α] {limits : Limits} {console : Console α} {line : String}

/-! ## What a line asks for -/

theorem request?_of_blank_of_none (hline : IsBlank line) (h : console.held? = none) :
    console.request? limits line = none := by
  rw [request?, Text.trimmed_eq_nil_iff.mpr hline, h]

theorem request?_of_blank {d : Derivation α} (hline : IsBlank line) (h : console.held? = some d) :
    console.request? limits line = some (d.next limits).result := by
  rw [request?, Text.trimmed_eq_nil_iff.mpr hline, h]

theorem request?_of_not_blank (hline : ¬IsBlank line) :
    console.request? limits line =
      some (Derivation.ofFormula limits (String.ofList (Text.trimmed line.toList))).result := by
  cases htext : Text.trimmed line.toList with
  | nil => exact absurd (Text.trimmed_eq_nil_iff.mp htext) hline
  | cons c rest => simp only [request?, htext]

/-! ## One line -/

theorem step_of_none (h : console.request? limits line = none) :
    console.step limits line = (none, console) := by
  rw [step, h]

theorem step_of_ok {d : Derivation α} (h : console.request? limits line = some (.ok d)) :
    console.step limits line = (some (.printed d.text), { held? := some d }) := by
  rw [step, h]

theorem step_of_error {e : Failure α} (h : console.request? limits line = some (.error e)) :
    console.step limits line =
      (some (.reported s!"Unable to differentiate \"{line}\": {e.message}"), console) := by
  rw [step, h]

/-- The derivation that a line prints, if it prints one. -/
def derivation? (limits : Limits) (console : Console α) (line : String) : Option (Derivation α) :=
  match console.request? limits line with
  | some (.ok d) => some d
  | _ => none

/-- What a step can do: nothing, print a derivation and hold it, or report a failure. -/
theorem step_cases (limits : Limits) (console : Console α) (line : String) :
    (console.derivation? limits line = none ∧ console.step limits line = (none, console)) ∨
      (∃ d, console.derivation? limits line = some d ∧
        console.step limits line = (some (.printed d.text), { held? := some d })) ∨
      ∃ text, console.derivation? limits line = none ∧
        console.step limits line = (some (.reported text), console) := by
  cases hrequest : console.request? limits line with
  | none => exact .inl ⟨by rw [derivation?, hrequest], step_of_none hrequest⟩
  | some result =>
    cases result with
    | ok d => exact .inr (.inl ⟨d, by rw [derivation?, hrequest], step_of_ok hrequest⟩)
    | error e => exact .inr (.inr ⟨_, by rw [derivation?, hrequest], step_of_error hrequest⟩)

theorem held?_step (limits : Limits) (console : Console α) (line : String) :
    (console.step limits line).2.held? = (console.derivation? limits line).or console.held? := by
  obtain ⟨hd, h⟩ | ⟨d, hd, h⟩ | ⟨text, hd, h⟩ := step_cases limits console line
  · rw [h, hd, Option.none_or]
  · rw [h, hd, Option.some_or]
  · rw [h, hd, Option.none_or]

theorem printed_step (limits : Limits) (console : Console α) (line : String) :
    (console.step limits line).1.toList.filterMap Output.printed? =
      (console.derivation? limits line).toList.map Derivation.text := by
  obtain ⟨hd, h⟩ | ⟨d, hd, h⟩ | ⟨text, hd, h⟩ := step_cases limits console line
  · rw [h, hd]
    rfl
  · rw [h, hd]
    rfl
  · rw [h, hd]
    rfl

/-! ## A run -/

/-- The console after some lines. -/
def after (limits : Limits) (console : Console α) (lines : List String) : Console α :=
  lines.foldl (fun console line => (console.step limits line).2) console

/-- The derivations that some lines print, one after the other. -/
def derivations (limits : Limits) (console : Console α) : List String → List (Derivation α)
  | [] => []
  | line :: rest =>
    (console.derivation? limits line).toList ++
      derivations limits (console.step limits line).2 rest

theorem after_cons (limits : Limits) (console : Console α) (line : String) (rest : List String) :
    after limits console (line :: rest) = after limits (console.step limits line).2 rest := rfl

theorem run_cons (limits : Limits) (console : Console α) (line : String) (rest : List String) :
    run limits console (line :: rest) =
      (console.step limits line).1.toList ++ run limits (console.step limits line).2 rest := rfl

/-- What is printed for some lines are the derivations. -/
theorem printed_run (limits : Limits) (console : Console α) (lines : List String) :
    (run limits console lines).filterMap Output.printed? =
      (derivations limits console lines).map Derivation.text := by
  induction lines generalizing console with
  | nil => rfl
  | cons line rest ih =>
    rw [run_cons, List.filterMap_append, printed_step, ih, derivations, List.map_append]

/-- The last derivation that was printed is held, and what was held before if none was. -/
theorem held?_after (limits : Limits) (console : Console α) (lines : List String) :
    (after limits console lines).held? =
      (derivations limits console lines).getLast?.or console.held? := by
  induction lines generalizing console with
  | nil => rfl
  | cons line rest ih =>
    have hlast : (console.derivation? limits line).toList.getLast? =
        console.derivation? limits line := by
      cases console.derivation? limits line <;> rfl
    rw [after_cons, ih, held?_step, derivations, List.getLast?_append, Option.or_assoc, hlast]

/-! ## Failing lines -/

/-- The second lines are the first ones with lines put in that fail where they stand. -/
inductive WithFailures (limits : Limits) : Console α → List String → List String → Prop
  | nil {console : Console α} : WithFailures limits console [] []
  | line {console : Console α} {line : String} {lines lines' : List String}
      (rest : WithFailures limits (console.step limits line).2 lines lines') :
      WithFailures limits console (line :: lines) (line :: lines')
  | failing {console : Console α} {line : String} {lines lines' : List String} {e : Failure α}
      (fails : console.request? limits line = some (.error e))
      (rest : WithFailures limits console lines lines') :
      WithFailures limits console lines (line :: lines')

variable {lines lines' : List String}

theorem WithFailures.after_eq (h : WithFailures limits console lines lines') :
    after limits console lines' = after limits console lines := by
  induction h with
  | nil => rfl
  | line _ ih => exact ih
  | failing fails _ ih => rw [after_cons, step_of_error fails, ih]

theorem WithFailures.derivations_eq (h : WithFailures limits console lines lines') :
    derivations limits console lines' = derivations limits console lines := by
  induction h with
  | nil => rfl
  | line _ ih => rw [derivations, derivations, ih]
  | failing fails _ ih =>
    rw [derivations, step_of_error fails, ih, derivation?, fails, Option.toList_none,
      List.nil_append]

theorem WithFailures.printedText_eq (h : WithFailures limits console lines lines') :
    Output.printedText (run limits console lines') =
      Output.printedText (run limits console lines) := by
  rw [Output.printedText_eq, Output.printedText_eq, printed_run, printed_run, h.derivations_eq]

end Console

end SymbolicCalculus
