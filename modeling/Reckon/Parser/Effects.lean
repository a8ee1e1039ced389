import Reckon.Expr.Basic
import Reckon.Parser.Basic

/-!
# What a parser does on its way

Besides going from state to state, a parser acts: it scans the tokens that it gets ahead, leaves
levels, and decodes the tokens that are operands. What this amounts to is left open. The rules of
the grammar are written once, over any monad that gives an account of the acts (`Effects`).

The parser of the library is the one in which they amount to nothing (`Effects.silent`). One that
writes a log, one that lists its acts and one in which they may go wrong have the same rules.
-/

namespace Reckon

/-! ## Tokens that are operands -/

namespace Expr

/-- The expression that a single token is: a literal or a name. -/
def ofToken (t : Token) : Except ParseError Expr :=
  match Kind.ofToken? t.kind t.lexeme with
  | none => .ok (identifier t.lexeme)
  | some k =>
    match Literal.decode? k t.lexeme with
    | some v => .ok (literal ⟨k, t.lexeme, v⟩)
    | none => .error (.invalidLiteral k t.lexeme)

end Expr

/-- A token that is an operand by itself. -/
def TokenKind.isOperand : TokenKind → Bool
  | .integer | .float | .char | .string | .identifier => true
  | _ => false

/-! ## Acts -/

/-- What a parser does besides going from state to state. -/
inductive Act
  /-- The token is scanned: it is ahead now. -/
  | scan (t : Token)
  /-- A level is left, in this state. -/
  | leave (p : Parser)

/-- What the acts of a parser amount to, and how it decodes operands. -/
structure Effects (m : Type → Type) where
  perform : Act → m Unit
  decode : Token → m (Except ParseError Expr)

/-! ## Reports -/

/-- A value, and what was reported on the way to it, in this order. -/
structure Reported (ε α : Type) where
  reports : List ε
  value : α

namespace Reported

variable {ε α β : Type}

instance : Monad (Reported ε) where
  pure a := ⟨[], a⟩
  bind x f := ⟨x.reports ++ (f x.value).reports, (f x.value).value⟩

instance : LawfulMonad (Reported ε) := LawfulMonad.mk' (Reported ε)
  (fun x => by simp [Functor.map])
  (fun a f => by simp [Bind.bind, Pure.pure])
  (fun x f g => by simp [Bind.bind])

/-- Reports one event. -/
def report (e : ε) : Reported ε Unit := ⟨[e], ()⟩

@[simp]
theorem reports_pure (a : α) : (pure a : Reported ε α).reports = [] := rfl

@[simp]
theorem value_pure (a : α) : (pure a : Reported ε α).value = a := rfl

@[simp]
theorem reports_bind (x : Reported ε α) (f : α → Reported ε β) :
    (x >>= f).reports = x.reports ++ (f x.value).reports := rfl

@[simp]
theorem value_bind (x : Reported ε α) (f : α → Reported ε β) :
    (x >>= f).value = (f x.value).value := rfl

@[simp]
theorem reports_map (f : α → β) (x : Reported ε α) : (f <$> x).reports = x.reports :=
  List.append_nil x.reports

@[simp]
theorem value_map (f : α → β) (x : Reported ε α) : (f <$> x).value = f x.value := rfl

@[simp]
theorem reports_report (e : ε) : (report e).reports = [e] := rfl

end Reported

/-! ## Parsers with effects -/

namespace Effects

/-- The acts amount to nothing. -/
def silent : Effects Id := ⟨fun _ => pure (), fun t => pure (Expr.ofToken t)⟩

/-- The acts are listed. -/
def recording : Effects (Reported Act) := ⟨Reported.report, fun t => pure (Expr.ofToken t)⟩

section

variable {m : Type → Type} [Monad m] {α β : Type} {n l : Nat}

/-- The next rule takes over after a result. -/
def andThen (s : m (Step α n)) (k : α → (p : Parser) → p.tokens.length ≤ n → m (Step β l)) :
    m (Step β l) := do
  match ← s with
  | .fail e p => return .fail e p
  | .done a p le => k a p le

/-- A larger bound holds as well. -/
def weaken (h : n ≤ l) (s : m (Step α n)) : m (Step α l) := Step.weaken h <$> s

variable (fx : Effects m)

/-- A parser at the start of a source, which has its first token scanned. -/
def start (source : String) (limit : Nat) : m Parser := do
  let p := Parser.ofSource source limit
  fx.perform (.scan p.peek)
  return p

/-- Goes past the token ahead; the new token ahead is scanned. -/
def bump (p : Parser) : m (Step Token (p.tokens.length - 1)) := do
  fx.perform (.scan p.advance.peek)
  return p.bump

/-- Goes past a certain token. -/
def expect (p : Parser) (kind : TokenKind) (expected : Expected) :
    m (Step Token (p.tokens.length - 1)) :=
  if p.peek.kind = kind then fx.bump p
  else pure (.fail (.unexpectedToken expected p.peek.kind p.peek.offset) p)

/-- One level up. -/
def leave (p : Parser) : m (Step Unit p.tokens.length) := do
  fx.perform (.leave p)
  return .done () p.leave (Nat.le_refl _)

end

end Effects

end Reckon
