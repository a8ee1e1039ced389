import Reckon.Proofs.Evaluation.Modes

/-!
# Evaluation on a stack

An expression can be written as a list of instructions for a machine with a stack
(`Machine.code`): operands first, from left to right, then what is done with them. There are no jumps,
so every instruction is met unless one before it fails.

Evaluating an expression is the same as running its code (`Machine.evaluate_eq_run`). If one
instruction fails, the first one to do so says why, and so the order of the code is the order in
which the errors of an expression count.
-/

namespace Reckon.Machine

/-! ## The machine -/

/-- What is computed: a value, or a datum that lists and records are reached through. -/
inductive Mode
  | value
  | raw

/-- What lies on the stack. -/
inductive Cell
  | value (v : Value)
  | datum (d : Datum)

/-- The stack, its top first. -/
abbrev Stack := List Cell

inductive Instruction
  | push (v : Value)
  | lookup (name : String)
  | unary (op : UnaryOp)
  | binary (op : BinaryOp)
  /-- The index on top has to be an integer; the item is taken from the datum below. -/
  | select
  | member (name : String)
  /-- A datum becomes a value. -/
  | toValue (name : String)
  /-- A value becomes a datum. -/
  | ofValue

/-- Why the machine stops before the end of its code. -/
inductive Halt
  | failed (e : EvalError)
  /-- The stack does not hold what the instruction needs. -/
  | stuck

/-- Puts a result on the stack, or stops with its error. -/
def put {α : Type} (r : Except EvalError α) (cell : α → Cell) (s : Stack) : Except Halt Stack :=
  match r with
  | .ok a => .ok (cell a :: s)
  | .error e => .error (.failed e)

/-- Executes one instruction. -/
def step (env : Environment) : Instruction → Stack → Except Halt Stack
  | .push v, s => .ok (.value v :: s)
  | .lookup name, s => put (env.lookup name) .datum s
  | .unary op, .value v :: s => put (op.apply v) .value s
  | .binary op, .value b :: .value a :: s => put (op.apply a b) .value s
  | .select, .value i :: .datum d :: s => put (d.select i) .datum s
  | .member name, .datum d :: s => put (d.member name) .datum s
  | .toValue name, .datum d :: s => put (d.toValue name) .value s
  | .ofValue, .value v :: s => .ok (.datum (.ofValue v) :: s)
  | _, _ => .error .stuck

/-- Executes instructions until one of them fails. -/
def run (env : Environment) : List Instruction → Stack → Except Halt Stack
  | [], s => .ok s
  | i :: code, s => step env i s >>= run env code

/-! ## Code -/

/-- What has to follow where a value was computed. -/
def Mode.inject : Mode → List Instruction
  | value => []
  | raw => [.ofValue]

/-- What has to follow where a datum was reached. -/
def Mode.normalise (name : String) : Mode → List Instruction
  | value => [.toValue name]
  | raw => []

/-- The code of an expression. -/
def code : Expr → Mode → List Instruction
  | .literal l, m => .push l.value :: m.inject
  | .identifier name, m => .lookup name :: m.normalise name
  | .unary op e, m => code e .value ++ .unary op :: m.inject
  | .binary l op r, m => code l .value ++ (code r .value ++ .binary op :: m.inject)
  | .paren e, m => code e m
  | .index b i, m => code b .raw ++ (code i .value ++ .select :: m.normalise Expr.itemName)
  | .member b name, m => code b .raw ++ .member name :: m.normalise name

/-- What an expression comes to in a mode, put on the stack. -/
def result (env : Environment) (e : Expr) : Mode → Stack → Except Halt Stack
  | .value, s => put (e.evaluate env) .value s
  | .raw, s => put (e.resolve env) .datum s

/-! ## Runs -/

variable {env : Environment}

theorem run_append (code more : List Instruction) (s : Stack) :
    run env (code ++ more) s = run env code s >>= run env more := by
  induction code generalizing s with
  | nil => rfl
  | cons i code ih =>
    rw [List.cons_append, run, run]
    cases step env i s with
    | error h => rfl
    | ok t => exact ih t

/-- A run stops at the first instruction that fails. -/
theorem run_eq_error_iff {code : List Instruction} {s : Stack} {h : Halt} :
    run env code s = .error h ↔ ∃ before i after t,
      code = before ++ i :: after ∧ run env before s = .ok t ∧ step env i t = .error h := by
  constructor
  · induction code generalizing s with
    | nil =>
      intro hrun
      cases hrun
    | cons i code ih =>
      intro hrun
      rw [run] at hrun
      cases hstep : step env i s with
      | error h' =>
        rw [hstep] at hrun
        cases hrun
        exact ⟨[], i, code, s, rfl, rfl, hstep⟩
      | ok t =>
        rw [hstep] at hrun
        obtain ⟨before, j, after, u, rfl, hbefore, hj⟩ := ih hrun
        refine ⟨i :: before, j, after, u, rfl, ?_, hj⟩
        rw [run, hstep]
        exact hbefore
  · rintro ⟨before, i, after, t, rfl, hbefore, hstep⟩
    rw [run_append, hbefore]
    show step env i t >>= run env after = _
    rw [hstep]
    rfl

/-! ## Each node -/

theorem put_inject {e : Expr} (h : e.resolve env = (e.evaluate env).map Datum.ofValue) (m : Mode)
    (s : Stack) : put (e.evaluate env) .value s >>= run env m.inject = result env e m s := by
  cases m with
  | value => exact bind_pure _
  | raw =>
    rw [result, h]
    cases e.evaluate env <;> rfl

theorem put_normalise {e : Expr} {name : String}
    (h : e.evaluate env = e.resolve env >>= (·.toValue name)) (m : Mode) (s : Stack) :
    put (e.resolve env) .datum s >>= run env (m.normalise name) = result env e m s := by
  cases m with
  | value =>
    rw [result, h]
    cases e.resolve env with
    | error err => rfl
    | ok d => exact bind_pure (put (d.toValue name) .value s)
  | raw => exact bind_pure _

/-- **Code puts on the stack what its expression comes to.** -/
theorem run_code (e : Expr) (m : Mode) (s : Stack) : run env (code e m) s = result env e m s := by
  induction e generalizing m s with
  | literal l => exact put_inject (Expr.resolve_literal l) m s
  | identifier name => exact put_normalise (Expr.evaluate_identifier name) m s
  | unary op e ih =>
    rw [code, run_append, ih, ← put_inject (Expr.resolve_unary op e), result, Expr.evaluate]
    cases e.evaluate env <;> rfl
  | binary l op r ihl ihr =>
    rw [code, run_append, ihl, ← put_inject (Expr.resolve_binary l op r), result,
      Expr.evaluate]
    cases l.evaluate env with
    | error err => rfl
    | ok a =>
      -- the right operand runs on top of the value of the left one
      show run env (code r .value ++ .binary op :: m.inject) (.value a :: s) = _
      rw [run_append, ihr, result]
      cases r.evaluate env <;> rfl
  | paren e ih =>
    rw [code, ih]
    cases m <;> rfl
  | index b i ihb ihi =>
    rw [code, run_append, ihb, ← put_normalise (Expr.evaluate_index b i), result,
      Expr.resolve]
    cases b.resolve env with
    | error err => rfl
    | ok d =>
      show run env (code i .value ++ .select :: m.normalise Expr.itemName) (.datum d :: s) = _
      rw [run_append, ihi, result]
      cases i.evaluate env <;> rfl
  | member b name ih =>
    rw [code, run_append, ih, ← put_normalise (Expr.evaluate_member b name), result,
      Expr.resolve]
    cases b.resolve env <;> rfl

/-! ## Errors of operands -/

/-- An error of the left operand is the error of the whole, whatever the right one comes to. -/
theorem evaluate_binary_left {l : Expr} {err : EvalError} (h : l.evaluate env = .error err)
    (op : BinaryOp) (r : Expr) : (Expr.binary l op r).evaluate env = .error err := by
  rw [Expr.evaluate, h]
  rfl

/-- No operator passes over an error of its right operand. -/
theorem evaluate_binary_right {l r : Expr} {v : Value} {err : EvalError}
    (hl : l.evaluate env = .ok v) (hr : r.evaluate env = .error err) (op : BinaryOp) :
    (Expr.binary l op r).evaluate env = .error err := by
  rw [Expr.evaluate, hl, hr]
  rfl

/--
**Evaluating is running the code until an instruction fails.**

An expression has a value just if all its code runs and leaves this value, and it has an error just
if this is the error of the first instruction that fails. An operator hides no error of an operand,
and an error of the left one counts before an error of the right one.
-/
theorem evaluate_eq_run (env : Environment) (e : Expr) :
    (∀ v, e.evaluate env = .ok v ↔ run env (code e .value) [] = .ok [.value v]) ∧
    (∀ err, e.evaluate env = .error err ↔ ∃ before i after s,
      code e .value = before ++ i :: after ∧ run env before [] = .ok s ∧
        step env i s = .error (.failed err)) ∧
    ∀ l op r, e = .binary l op r →
      (∀ err, l.evaluate env = .error err → e.evaluate env = .error err) ∧
      ∀ v err, l.evaluate env = .ok v → r.evaluate env = .error err →
        e.evaluate env = .error err := by
  have hrun : run env (code e .value) [] = put (e.evaluate env) .value [] := run_code e .value []
  refine ⟨fun v => ?_, fun err => ?_, ?_⟩
  · rw [hrun]
    cases e.evaluate env <;> simp [put]
  · rw [← run_eq_error_iff, hrun]
    cases e.evaluate env <;> simp [put]
  · rintro l op r rfl
    exact ⟨fun err hl => evaluate_binary_left hl op r, fun v err hl hr =>
      evaluate_binary_right hl hr op⟩

/-- The left operand of `false && 1 / 0` does not spare the right one. -/
theorem evaluate_eq_run_falseAnd :
    let quotient := Expr.binary (.literal ⟨.integer, "1", .integer 1⟩) (.arithmetic .div)
      (.literal ⟨.integer, "0", .integer 0⟩)
    let conjunction := Expr.binary (.literal ⟨.bool, "false", .bool false⟩) (.logical .and) quotient
    quotient.evaluate .empty = .error (.divisionByZero (.arithmetic .div)) ∧
      conjunction.evaluate .empty = .error (.divisionByZero (.arithmetic .div)) := by
  intro quotient conjunction
  have hquotient : quotient.evaluate .empty = .error (.divisionByZero (.arithmetic .div)) := rfl
  exact ⟨hquotient,
    ((evaluate_eq_run .empty conjunction).2.2 _ _ _ rfl).2 (.bool false) _ rfl hquotient⟩

end Reckon.Machine
