import Reckon.Parser.Grammar
import Reckon.Proofs.Lexical.Grammar

/-!
# The grammar of expressions

Which trees are expressions that can be written down, and how each of them is written. A tree is
written as a list of words (`Expr.flatten`); a word is a token without its place. Well-formedness
(`Expr.WellFormed`) says where the ranks of the operators allow a tree to go without parentheses.
Neither looks at a parser.
-/

namespace Reckon

/-- A token without its place. -/
abbrev Word := TokenKind × String

def Token.word (t : Token) : Word := (t.kind, t.lexeme)

def Symbol.word (s : Symbol) : Word := (.symbol s, s.text)

/-- The kind of token that a literal of this kind is. -/
def Kind.token : Kind → TokenKind
  | integer => .integer
  | float => .float
  | string => .string
  | bool => .identifier
  | char => .char

theorem Kind.token_ne_illegal (k : Kind) : k.token ≠ .illegal := by
  cases k <;> decide

/-- A token is a literal if it is of the right kind and, for a truth value, one of two words. -/
theorem Kind.ofToken?_eq_some_iff {t : TokenKind} {lexeme : String} {k : Kind} :
    Kind.ofToken? t lexeme = some k ↔
      t = k.token ∧ (k = .bool → lexeme = "true" ∨ lexeme = "false") := by
  cases k <;> cases t <;> simp [Kind.ofToken?, Kind.token, Decidable.or_iff_not_imp_left]

theorem BinaryOp.rank_pos (op : BinaryOp) : 0 < op.rank := by
  rcases op with (_ | _ | _ | _) | (_ | _ | _ | _ | _ | _) | (_ | _) | (_ | _ | _ | _ | _ | _) | _
    <;> decide

namespace Expr

/-- The words of an expression, from left to right. -/
def flatten : Expr → List Word
  | literal l => [(l.kind.token, l.raw)]
  | identifier name => [(.identifier, name)]
  | unary op e => op.symbol.word :: e.flatten
  | binary l op r => l.flatten ++ op.symbol.word :: r.flatten
  | paren e => Symbol.leftParen.word :: (e.flatten ++ [Symbol.rightParen.word])
  | index b i => b.flatten ++ Symbol.leftBracket.word :: (i.flatten ++ [Symbol.rightBracket.word])
  | member b name => b.flatten ++ [Symbol.dot.word, (.identifier, name)]

/-- The rank of the binary operator at the root, and 0 if there is none at the root. -/
def rank : Expr → Nat
  | binary _ op _ => op.rank
  | _ => 0

/-- An expression that an index or a member may stand behind. -/
def isPrimary : Expr → Bool
  | literal _ | identifier _ | paren _ => true
  | _ => false

theorem rank_lt_loosest (e : Expr) : e.rank < BinaryOp.loosest := by
  cases e with
  | binary l op r => exact op.rank_lt_loosest
  | _ => exact Nat.zero_lt_succ _

theorem rank_of_isPrimary {e : Expr} (h : e.isPrimary = true) : e.rank = 0 := by
  cases e with
  | binary l op r => cases h
  | _ => rfl

/-- The expression can be written down as it is. -/
inductive WellFormed : Expr → Prop
  /-- A literal is what its text denotes. -/
  | literal {l : Literal} (hs : Lexeme.Spells l.kind.token l.raw.toList)
      (hl : ofToken ⟨l.kind.token, l.raw, 0⟩ = .ok (literal l)) : WellFormed (literal l)
  | identifier {name : String} (hs : Lexeme.Spells .identifier name.toList) (ht : name ≠ "true")
      (hf : name ≠ "false") : WellFormed (identifier name)
  /-- No operator in front takes a whole binary expression. -/
  | unary {op : UnaryOp} {e : Expr} (he : WellFormed e) (hr : e.rank = 0) : WellFormed (unary op e)
  /-- Operators of one rank group to the left. -/
  | binary {l r : Expr} {op : BinaryOp} (hl : WellFormed l) (hr : WellFormed r)
      (hlop : l.rank ≤ op.rank) (hrop : r.rank < op.rank) : WellFormed (binary l op r)
  | paren {e : Expr} (he : WellFormed e) : WellFormed (paren e)
  | index {b i : Expr} (hb : WellFormed b) (hp : b.isPrimary = true) (hi : WellFormed i) :
      WellFormed (index b i)
  | member {b : Expr} {name : String} (hb : WellFormed b) (hp : b.isPrimary = true)
      (hs : Lexeme.Spells .identifier name.toList) : WellFormed (member b name)

/-- A name of one letter. -/
theorem wellFormed_letter {c : Char} (h : Lexeme.isNameStart c = true) :
    (identifier (String.ofList [c])).WellFormed := by
  -- a name of one letter is no truth value
  have hne : ∀ {x : String}, x.toList.length ≠ 1 → String.ofList [c] ≠ x := by
    rintro x hx rfl
    exact hx (by simp)
  exact .identifier ⟨c, [], String.toList_ofList, h, by simp⟩ (hne (by decide)) (hne (by decide))

/-- No word of an expression is illegal. -/
theorem flatten_legal (e : Expr) : ∀ w ∈ e.flatten, w.1 ≠ .illegal := by
  induction e with
  | literal l => simpa [flatten] using l.kind.token_ne_illegal
  | identifier name => simp [flatten]
  | unary op e ih => simpa [flatten, Symbol.word] using ih
  | binary l op r ihl ihr =>
    rw [flatten, List.forall_mem_append, List.forall_mem_cons]
    exact ⟨ihl, TokenKind.noConfusion, ihr⟩
  | paren e ih =>
    rw [flatten, List.forall_mem_cons, List.forall_mem_append, List.forall_mem_singleton]
    exact ⟨TokenKind.noConfusion, ih, TokenKind.noConfusion⟩
  | index b i ihb ihi =>
    rw [flatten, List.forall_mem_append, List.forall_mem_cons, List.forall_mem_append,
      List.forall_mem_singleton]
    exact ⟨ihb, TokenKind.noConfusion, ihi, TokenKind.noConfusion⟩
  | member b name ih =>
    rw [flatten, List.forall_mem_append, List.forall_mem_cons, List.forall_mem_singleton]
    exact ⟨ih, TokenKind.noConfusion, TokenKind.noConfusion⟩

/-- The words of a well-formed expression are texts of their kinds. -/
theorem WellFormed.spells {e : Expr} (h : e.WellFormed) :
    ∀ w ∈ e.flatten, Lexeme.Spells w.1 w.2.toList := by
  have hsymbol : ∀ s : Symbol, Lexeme.Spells s.word.1 s.word.2.toList := fun _ => rfl
  induction h with
  | literal hs hl => simpa [flatten] using hs
  | identifier hs ht hf => simpa [flatten] using hs
  | unary he hr ih =>
    rw [flatten, List.forall_mem_cons]
    exact ⟨hsymbol _, ih⟩
  | binary hl hr hlop hrop ihl ihr =>
    rw [flatten, List.forall_mem_append, List.forall_mem_cons]
    exact ⟨ihl, hsymbol _, ihr⟩
  | paren he ih =>
    rw [flatten, List.forall_mem_cons, List.forall_mem_append, List.forall_mem_singleton]
    exact ⟨hsymbol _, ih, hsymbol _⟩
  | index hb hp hi ihb ihi =>
    rw [flatten, List.forall_mem_append, List.forall_mem_cons, List.forall_mem_append,
      List.forall_mem_singleton]
    exact ⟨ihb, hsymbol _, ihi, hsymbol _⟩
  | member hb hp hs ih =>
    rw [flatten, List.forall_mem_append, List.forall_mem_cons, List.forall_mem_singleton]
    exact ⟨ih, hsymbol _, hs⟩

end Expr

end Reckon
