import Reckon.Evaluation.Basic
import Reckon.Proofs.Safety.Levels

/-!
# No operation outside of its domain

An evaluation in which an item that is not there and a remainder of a division by zero crash. A
place is checked before it is used, against the number of items of a list or of characters of a
string, and zero is refused as a divisor before anything is divided, so the evaluation does what
that of the library does (`Checked.evaluate_resolve_eq`), for every tree and not only for those
that are parsed.

With slices and levels this is everything that may crash between a source and its value, and in
reading the bindings of an environment (`Crash.unreachable`).
-/

namespace Reckon

namespace Checked

/-- A result of the evaluation, unless an operation crashes. -/
abbrev Result (α : Type) : Type := ExceptT EvalError (Except Crash) α

/-- A result without an operation that may crash. -/
def sure {α : Type} (x : Except EvalError α) : Result α := ExceptT.mk (.ok x)

section

variable {α β : Type}

theorem bind_eq {r : Result α} {x : Except EvalError α} {k : α → Result β}
    {f : α → Except EvalError β} (hr : r = sure x) (hk : ∀ a, k a = sure (f a)) :
    r >>= k = sure (x >>= f) := by
  rw [hr]
  cases x with
  | error e => rfl
  | ok a => exact hk a

/-! ## Items -/

/-- The place in a list of `n` items, if there is one. -/
def position (i : Int64) (n : Nat) : Except EvalError Nat :=
  if 0 ≤ i.toInt ∧ i.toInt.toNat < n then .ok i.toInt.toNat else .error (.indexOutOfBounds i n)

/-- The item at a place. -/
def nth (items : List α) (n : Nat) : Except Crash α :=
  match items[n]? with
  | some a => .ok a
  | none => .error (.item n)

/-- The item under an index that is checked first. -/
def itemAt (items : List α) (i : Int64) : Result α := do
  let n ← sure (position i items.length)
  ExceptT.lift (nth items n)

/-- A place that was checked has an item. -/
theorem itemAt_eq (items : List α) (i : Int64) : itemAt items i = sure (Datum.itemAt items i) := by
  unfold itemAt position Datum.itemAt
  by_cases hi : 0 ≤ i.toInt ∧ i.toInt.toNat < items.length
  · have hitem := List.getElem?_eq_getElem hi.2
    rw [if_pos hi, if_pos hi.1, hitem]
    show ExceptT.lift (nth items i.toInt.toNat) = _
    rw [nth, hitem]
    rfl
  · have hnone : (if 0 ≤ i.toInt then items[i.toInt.toNat]? else none) = none := by
      split
      next h => exact List.getElem?_eq_none (Nat.not_lt.mp fun hlt => hi ⟨h, hlt⟩)
      · rfl
    rw [if_neg hi, hnone]
    rfl

end

/-- An item of a list, or a character of a string. -/
def item (d : Datum) (i : Int64) : Result Datum :=
  match d with
  | .list items => itemAt items i
  | .string s => do
    let c ← itemAt s.toList i
    return .char c
  | d => sure (.error (.notIndexable d.kind))

/-- The item under an index, which has to be an integer. -/
def select (d : Datum) (i : Value) : Result Datum :=
  match i with
  | .integer n => item d n
  | v => sure (.error (.invalidIndex v.kind))

theorem item_eq (d : Datum) (i : Int64) : item d i = sure (d.item i) := by
  cases d with
  | list items => exact itemAt_eq items i
  | string s =>
    rw [item, itemAt_eq, Datum.item]
    cases Datum.itemAt s.toList i with
    | ok c => rfl
    | error e => rfl
  | _ => rfl

theorem select_eq (d : Datum) (i : Value) : select d i = sure (d.select i) := by
  cases i with
  | integer n => exact item_eq d n
  | _ => rfl

/-! ## Remainders -/

/-- The remainder of a division rounded toward zero. -/
def remainder (a b : Int64) : Except Crash Int64 :=
  if b = 0 then .error .remainder else .ok (Int64.ofInt (a.toInt.tmod b.toInt))

/-- The operations that only integers have. -/
def onIntegers (op : IntegerOp) (a b : Int64) : Result Value :=
  if op = .rem ∧ b = 0 then sure (.error (.divisionByZero (.integer op)))
  else
    match op with
    | .rem => do
      let r ← ExceptT.lift (remainder a b)
      return .integer r
    | op => sure (op.onIntegers a b)

/-- An operator between two values. -/
def apply : BinaryOp → Value → Value → Result Value
  | .integer op, .integer a, .integer b => onIntegers op a b
  | op, a, b => sure (op.apply a b)

/-- Where zero was refused as a divisor, there is a remainder. -/
theorem onIntegers_eq (op : IntegerOp) (a b : Int64) :
    onIntegers op a b = sure (op.onIntegers a b) := by
  unfold onIntegers
  split
  next h =>
    obtain ⟨rfl, hb⟩ := h
    rw [IntegerOp.onIntegers, if_pos hb]
  next h =>
    cases op with
    | rem =>
      have hb : b ≠ 0 := fun hb => h ⟨rfl, hb⟩
      rw [IntegerOp.onIntegers, if_neg hb]
      show ExceptT.lift (remainder a b) >>= _ = _
      rw [remainder, if_neg hb]
      rfl
    | _ => rfl

theorem apply_eq (op : BinaryOp) (a b : Value) : apply op a b = sure (op.apply a b) := by
  cases op with
  | integer op =>
    cases a with
    | integer n =>
      cases b with
      | integer m => exact onIntegers_eq op n m
      | _ => rfl
    | _ => rfl
  | _ => rfl

/-! ## Trees -/

mutual

/-- The value of an expression. -/
def evaluate (env : Environment) : Expr → Result Value
  | .literal l => sure (.ok l.value)
  | .identifier name => do
    let d ← sure (env.lookup name)
    sure (d.toValue name)
  | .paren e => evaluate env e
  | .unary op e => do
    let v ← evaluate env e
    sure (op.apply v)
  | .binary l op r => do
    let a ← evaluate env l
    let b ← evaluate env r
    apply op a b
  | .index base i => do
    let d ← resolve env base
    let v ← evaluate env i
    let m ← select d v
    sure (m.toValue Expr.itemName)
  | .member base name => do
    let d ← resolve env base
    let m ← sure (d.member name)
    sure (m.toValue name)

/-- The datum that an expression leads to as the base of an index or of a member. -/
def resolve (env : Environment) : Expr → Result Datum
  | .literal l => sure (.ok (.ofValue l.value))
  | .identifier name => sure (env.lookup name)
  | .paren e => resolve env e
  | .unary op e => do
    let v ← evaluate env e
    let w ← sure (op.apply v)
    return .ofValue w
  | .binary l op r => do
    let a ← evaluate env l
    let b ← evaluate env r
    let v ← apply op a b
    return .ofValue v
  | .index base i => do
    let d ← resolve env base
    let v ← evaluate env i
    select d v
  | .member base name => do
    let d ← resolve env base
    sure (d.member name)

end

/-- **The evaluation of a tree does not crash, and neither does that of a base.** -/
theorem evaluate_resolve_eq (env : Environment) (e : Expr) :
    evaluate env e = sure (e.evaluate env) ∧ resolve env e = sure (e.resolve env) := by
  induction e with
  | literal l => exact ⟨rfl, rfl⟩
  | identifier name =>
    rw [evaluate, Expr.evaluate]
    exact ⟨bind_eq rfl fun d => rfl, rfl⟩
  | paren e ih =>
    rw [evaluate, Expr.evaluate, resolve, Expr.resolve]
    exact ih
  | unary op e ih =>
    rw [evaluate, Expr.evaluate, resolve, Expr.resolve]
    exact ⟨bind_eq ih.1 fun v => rfl, bind_eq ih.1 fun v => bind_eq rfl fun w => rfl⟩
  | binary l op r ihl ihr =>
    rw [evaluate, Expr.evaluate, resolve, Expr.resolve]
    constructor
    · exact bind_eq ihl.1 fun a => bind_eq ihr.1 fun b => apply_eq op a b
    · exact bind_eq ihl.1 fun a => bind_eq ihr.1 fun b => bind_eq (apply_eq op a b) fun v => rfl
  | index base i ihb ihi =>
    rw [evaluate, Expr.evaluate, resolve, Expr.resolve]
    constructor
    · exact bind_eq ihb.2 fun d => bind_eq ihi.1 fun v => bind_eq (select_eq d v) fun m => rfl
    · exact bind_eq ihb.2 fun d => bind_eq ihi.1 fun v => select_eq d v
  | member base name ih =>
    rw [evaluate, Expr.evaluate, resolve, Expr.resolve]
    exact ⟨bind_eq ih.2 fun d => bind_eq rfl fun m => rfl, bind_eq ih.2 fun d => rfl⟩

end Checked

/--
**Nothing crashes between a source and its value.**

After any calls of a scanner of a source, and after any answers of a parser of a source with any
limit of the depth, the next one does not crash; nor do taking literals out of their quotes,
evaluating a tree in an environment and reading an argument as a binding. Each of them gives what
the library gives.
-/
theorem Crash.unreachable :
    (∀ source calls, Checked.scan source ((Scanner.ofSource source).afterCalls calls) =
        .ok ((Scanner.ofSource source).afterCalls calls).scan) ∧
      (∀ source, ∀ t ∈ Token.tokens source, Checked.ofToken t = .ok (Expr.ofToken t)) ∧
      (∀ source limit, Checked.ofSource source limit = .ok (Parser.ofSource source limit) ∧
        ∀ n, Checked.parse ((Parser.ofSource source limit).after n) =
          .ok ((Parser.ofSource source limit).after n).parse) ∧
      (∀ e env, (Checked.evaluate env e).run = .ok (e.evaluate env)) ∧
      ∀ arg, Checked.ofArg arg = .ok (Binding.ofArg arg) := by
  refine ⟨fun source calls => ?_, fun source t ht => Checked.ofToken_tokens ht,
    fun source limit => ⟨Checked.ofSource_eq source limit, Checked.parse_after_eq source limit⟩,
    fun e env => ?_, Checked.ofArg_eq⟩
  · exact Checked.scan_eq (Scanner.inSource_afterCalls calls (Scanner.inSource_ofSource source))
  · exact congrArg ExceptT.run (Checked.evaluate_resolve_eq env e).1

/-- A character of two bytes is taken out of its apostrophes. -/
theorem Crash.unreachable_wideChar :
    (⟨.char, "'é'", 0⟩ : Token) ∈ Token.tokens "'é'" ∧
      Checked.ofToken ⟨.char, "'é'", 0⟩ = .ok (Expr.ofToken ⟨.char, "'é'", 0⟩) :=
  have h : (⟨.char, "'é'", 0⟩ : Token) ∈ Token.tokens "'é'" := by decide +kernel
  ⟨h, Crash.unreachable.2.1 _ _ h⟩

end Reckon
