import Reckon.Proofs.CommandLine.Loop
import Reckon.Proofs.Evaluation.Names
import Reckon.Proofs.Parsing.Language

/-!
# Errors in one line

The report of an error in one line has no line break in it (`RunError.unbroken_line`). Texts from
outside are quoted, and a quotation escapes the line breaks. Names are not quoted, but an error of
an evaluation only tells of names that stand in the expression (`Expr.tells`), and these have been
scanned.

So the standard error of the prompt has one line for each line of the input that fails, and no
other (`Prompt.lines_stderr`).
-/

namespace Reckon

/-! ## Texts without line breaks -/

namespace Text

/-- There is no line break in the text. -/
def Unbroken (s : String) : Prop := '\n' ∉ s.toList

instance (s : String) : Decidable (Unbroken s) := inferInstanceAs (Decidable ('\n' ∉ s.toList))

@[simp]
theorem unbroken_append {s t : String} : Unbroken (s ++ t) ↔ Unbroken s ∧ Unbroken t := by
  simp [Unbroken]

theorem unbroken_intercalate {mark : String} (hmark : Unbroken mark) {parts : List String}
    (h : ∀ s ∈ parts, Unbroken s) : Unbroken (mark.intercalate parts) := by
  induction parts with
  | nil =>
    rw [String.intercalate_nil]
    decide
  | cons s parts ih =>
    obtain ⟨hs, hparts⟩ := List.forall_mem_cons.mp h
    cases parts with
    | nil => rwa [String.intercalate_singleton]
    | cons t parts =>
      rw [String.intercalate_cons_cons, unbroken_append, unbroken_append]
      exact ⟨⟨hs, hmark⟩, ih hparts⟩

/-! ### Numbers -/

theorem newline_not_mem_toDigits {b : Nat} (hb : 1 < b) (n : Nat) : '\n' ∉ Nat.toDigits b n := by
  have hdigit : ∀ d : Nat, '\n' ≠ d.digitChar := fun d => by simp
  induction n using Nat.strongRecOn with
  | ind n ih =>
    rw [Nat.toDigits_eq_if hb]
    split
    · rw [List.mem_singleton]
      exact hdigit n
    next hn =>
      have hlt : n / b < n := Nat.div_lt_self (by omega) hb
      rw [List.mem_append, List.mem_singleton, not_or]
      exact ⟨ih _ hlt, hdigit _⟩

@[simp]
theorem unbroken_nat (n : Nat) : Unbroken n.repr := by
  rw [Unbroken, Nat.toList_repr]
  exact newline_not_mem_toDigits (by decide) n

@[simp]
theorem unbroken_int (n : Int) : Unbroken n.repr := by
  cases n with
  | ofNat n => exact unbroken_nat n
  | negSucc n => exact unbroken_append.mpr ⟨by decide, unbroken_nat (n + 1)⟩

/-! ### Quotations -/

theorem newline_not_mem_escape {mark : Char} (h : mark ≠ '\n') (c : Char) :
    '\n' ∉ escape mark c := by
  unfold escape
  split
  next hc => simp [hc, h.symm]
  · split
    case h_6 hnewline _ _ _ =>
      -- a character that is no line break stands for itself or is written by its number
      split
      · simp [newline_not_mem_toDigits]
      · rw [List.mem_singleton]
        exact fun hc => hnewline hc.symm
    all_goals decide

/-- **A quotation is in one line.** -/
@[simp]
theorem unbroken_quote (s : String) : Unbroken (quote s) := by
  have hescape : ∀ c ∈ s.toList, '\n' ∉ escape '"' c := fun c _ =>
    newline_not_mem_escape (by decide) c
  simpa [Unbroken, quote, quoteWith] using hescape

end Text

open Text (Unbroken)

/-! ## Fixed texts -/

@[simp]
theorem Symbol.unbroken_text (s : Symbol) : Unbroken s.text := by
  cases s <;> decide

@[simp]
theorem Kind.unbroken_text (k : Kind) : Unbroken k.text := by
  cases k <;> decide

@[simp]
theorem DatumKind.unbroken_text (k : DatumKind) : Unbroken k.text := by
  cases k with
  | scalar k => exact k.unbroken_text
  | _ => decide

@[simp]
theorem TokenKind.unbroken_text (k : TokenKind) : Unbroken k.text := by
  cases k with
  | symbol s => exact s.unbroken_text
  | _ => decide

@[simp]
theorem Expected.unbroken_text (e : Expected) : Unbroken e.text := by
  cases e with
  | closing s => simp +decide [text]
  | _ => decide

@[simp]
theorem UnaryOp.unbroken_text (op : UnaryOp) : Unbroken op.text := op.symbol.unbroken_text

@[simp]
theorem BinaryOp.unbroken_text (op : BinaryOp) : Unbroken op.text := op.symbol.unbroken_text

@[simp]
theorem Operator.unbroken_text (op : Operator) : Unbroken op.text := by
  cases op with
  | unary op => simp +decide [text]
  | binary op => exact op.unbroken_text

/-! ## Messages -/

@[simp]
theorem LexError.unbroken_message (e : LexError) : Unbroken e.message := by
  unfold message
  simp +decide

@[simp]
theorem ParseError.unbroken_message (e : ParseError) : Unbroken e.message := by
  unfold message
  cases e <;> simp +decide

/-- The message of an error is in one line if the name is that it tells of. -/
theorem EvalError.unbroken_message {e : EvalError} (h : ∀ x ∈ e.name?, Unbroken x) :
    Unbroken e.message := by
  unfold message
  cases e <;> simp_all +decide [name?]

/-! ## Names in errors of an evaluation -/

namespace Expr

/-- **An error of an evaluation tells of names that stand in the expression.** -/
theorem tells {P : String → Prop} (hitem : P itemName) (env : Environment) {e : Expr}
    (h : ∀ x, (TokenKind.identifier, x) ∈ e.flatten → P x) :
    Tells P (e.evaluate env) ∧ Tells P (e.resolve env) := by
  induction e with
  | literal l =>
    rw [evaluate, resolve]
    exact ⟨.of_nameless (.result _), .of_nameless (.result _)⟩
  | identifier name =>
    have hname : P name := h name List.mem_cons_self
    rw [evaluate_identifier, resolve]
    exact ⟨.bind (.lookup hname) fun d => .toValue hname d, .lookup hname⟩
  | unary op e ih =>
    have happly : Tells P ((unary op e).evaluate env) := by
      rw [evaluate]
      exact (ih fun x hx => h x (List.mem_cons_of_mem _ hx)).1.bind fun v =>
        .of_nameless (.unary op v)
    rw [resolve_unary]
    exact ⟨happly, happly.map⟩
  | binary l op r ihl ihr =>
    have hl := (ihl fun x hx => h x (List.mem_append_left _ hx)).1
    have hr := (ihr fun x hx => h x (List.mem_append_right _ (List.mem_cons_of_mem _ hx))).1
    have happly : Tells P ((binary l op r).evaluate env) := by
      rw [evaluate]
      exact hl.bind fun v => hr.bind fun w => .of_nameless (.binary op v w)
    rw [resolve_binary]
    exact ⟨happly, happly.map⟩
  | paren e ih =>
    rw [evaluate, resolve]
    exact ih fun x hx => h x (List.mem_cons_of_mem _ (List.mem_append_left _ hx))
  | index b i ihb ihi =>
    have hb := (ihb fun x hx => h x (List.mem_append_left _ hx)).2
    have hi := (ihi fun x hx => h x
      (List.mem_append_right _ (List.mem_cons_of_mem _ (List.mem_append_left _ hx)))).1
    have hselect : Tells P ((index b i).resolve env) := by
      rw [resolve]
      exact hb.bind fun d => hi.bind fun v => .of_nameless (.select d v)
    rw [evaluate_index]
    exact ⟨hselect.bind fun d => .toValue hitem d, hselect⟩
  | member b name ih =>
    have hname : P name := h name (by simp [flatten])
    have hmember : Tells P ((member b name).resolve env) := by
      rw [resolve]
      exact (ih fun x hx => h x (List.mem_append_left _ hx)).2.bind fun d => .member hname d
    rw [evaluate_member]
    exact ⟨hmember.bind fun d => .toValue hname d, hmember⟩

/-- A name that is scanned is in one line. -/
theorem WellFormed.unbroken_name {e : Expr} (h : e.WellFormed) {x : String}
    (hx : (TokenKind.identifier, x) ∈ e.flatten) : Unbroken x := by
  obtain ⟨c, r, hspells, hc, hr⟩ := h.spells _ hx
  have hpart : ∀ d ∈ x.toList, Lexeme.isNamePart d = true := by
    rw [show x.toList = c :: r from hspells]
    exact List.forall_mem_cons.mpr ⟨Lexeme.isNamePart_of_isNameStart hc, hr⟩
  intro hmem
  exact absurd (hpart _ hmem) (by decide)

end Expr

/-! ## Failures of a run -/

section

variable {source : String} {env : Environment} {limit : Nat} {tree : Bool} {e : RunError}

/-- A run fails in the parser or, unless it shows the tree, in the evaluation. -/
theorem run_eq_error_iff :
    run source env limit tree = .error e ↔
      (∃ err, Expr.parseWithin limit source = .error err ∧ e = .parse source err) ∨
      ∃ t err, Expr.parseWithin limit source = .ok t ∧ tree = false ∧
        t.evaluate env = .error err ∧ e = .eval source err := by
  unfold run
  cases Expr.parseWithin limit source with
  | error err => simp [eq_comm]
  | ok t =>
    cases tree with
    | true => simp
    | false =>
      cases hvalue : t.evaluate env <;> simp [hvalue, eq_comm]

namespace RunError

theorem unbroken_context (e : RunError) : Unbroken e.context := by
  unfold context
  cases e <;> simp +decide

theorem unbroken_causes (h : run source env limit tree = .error e) :
    ∀ s ∈ e.causes, Unbroken s := by
  unfold causes
  rcases run_eq_error_iff.mp h with ⟨err, -, rfl⟩ | ⟨t, err, hparse, -, hvalue, rfl⟩
  · cases err <;> simp
  · have hwf := Expr.wellFormed_of_parseWithin hparse
    have htells := (Expr.tells (by decide) env fun x hx => hwf.unbroken_name hx).1 err hvalue
    simpa using EvalError.unbroken_message htells

/-- **No error of the chain has a line break.** -/
theorem unbroken_chain (h : run source env limit tree = .error e) : ∀ s ∈ e.chain, Unbroken s :=
  List.forall_mem_cons.mpr ⟨e.unbroken_context, unbroken_causes h⟩

/-- **The report in one line is in one line.** -/
theorem unbroken_line (h : run source env limit tree = .error e) : Unbroken e.line :=
  Text.unbroken_intercalate (by decide) (unbroken_chain h)

end RunError

end

/-! ## The standard error of the prompt -/

namespace Prompt

variable (a : Arguments)

/-- The error that a line comes to, if it does. -/
def failure? (line : List Char) : Option RunError :=
  match answer a (String.ofList line) with
  | some (.error e) => some e
  | _ => none

theorem unbroken_of_failure? {line : List Char} {e : RunError} (h : failure? a line = some e) :
    Unbroken e.line := by
  unfold failure? answer at h
  split at h
  next herror =>
    split at herror
    · cases herror
    · cases h
      exact RunError.unbroken_line (Option.some.inj herror)
  · cases h

theorem reported_eq (line : List Char) :
    reported (answer a (String.ofList line)) =
      ((failure? a line).map fun e => e.line ++ "\n").getD "" := by
  unfold failure?
  split
  next e h => rw [h]; rfl
  next hne =>
    unfold reported
    split
    next e h => exact absurd h (hne e)
    · rfl

/-- What some lines add to the standard error is a line for each of them that fails. -/
theorem lines_reportedAll (lines : List (List Char)) :
    Lines (reportedAll a lines).toList
      ((lines.filterMap (failure? a)).map (·.line.toList ++ ['\n'])) := by
  induction lines with
  | nil => exact .nil
  | cons line lines ih =>
    have hsplit : reportedAll a (line :: lines) =
        reported (answer a (String.ofList line)) ++ reportedAll a lines := String.join_cons
    rw [hsplit, reported_eq]
    cases hline : failure? a line with
    | none => simpa [hline] using ih
    | some e =>
      have hcons := Lines.cons (unbroken_of_failure? a hline) ih
      simpa [hline] using hcons

/--
**The standard error of the prompt has one line for each line of the input that fails.**

The line is the report of the error, and the lines come in the order of the input.
-/
theorem lines_stderr (input : String) :
    Lines (transcript a input).stderr.toList
      (((splitLines input.toList).filterMap (failure? a)).map (·.line.toList ++ ['\n'])) := by
  obtain ⟨lines, h⟩ := exists_lines input.toList
  rw [transcript_of_lines h, ← lines_iff.mp h]
  exact lines_reportedAll a lines

end Prompt

end Reckon
