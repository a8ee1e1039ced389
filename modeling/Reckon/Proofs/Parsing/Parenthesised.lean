import Reckon.Proofs.Evaluation.Modes
import Reckon.Proofs.Parsing.Language

/-!
# Parentheses mean nothing

Parentheses are nodes of a tree, and an evaluation goes through them: as a value and as a base, for
every answer and every error (`Expr.evaluate_congr_bare`). Their only use is in the text, where they
say what belongs together. They are enough for that. With parentheses around every operator, index
and member, any tree can be written down, whatever the ranks of its operators and whatever its
indices and members stand behind (`Expr.Writable.wellFormed_full`), and what is read back differs
from the tree in parentheses only (`Expr.parseWithin_render`).
-/

namespace Reckon

namespace Word

/-! ## Words with one space between them -/

theorem spaced_eq_cons (w : Word) (ws : List Word) :
    spaced (w :: ws) = ' ' :: (" ".intercalate ((w :: ws).map Prod.snd)).toList := by
  rw [String.toList_intercalate]
  induction ws generalizing w with
  | nil => simp [spaced]
  | cons v ws ih =>
    have hrest := ih v
    rw [spaced, List.flatMap_cons, ← spaced, hrest]
    simp [List.intercalate]

/-- Words with one space between them are read back. -/
theorem scan_intercalate {ws : List Word} (h : ∀ w ∈ ws, Lexeme.Spells w.1 w.2.toList) :
    scan (" ".intercalate (ws.map Prod.snd)).toList = ws := by
  cases ws with
  | nil => exact scan_nil
  | cons w ws =>
    have hspaced := scan_spaced h
    rwa [spaced_eq_cons, ← List.singleton_append, scan_blanks forall_mem_space] at hspaced

end Word

namespace Expr

/-! ## Without parentheses -/

/-- The expression without its parentheses. -/
def bare : Expr → Expr
  | literal l => literal l
  | identifier name => identifier name
  | unary op e => unary op e.bare
  | binary l op r => binary l.bare op r.bare
  | paren e => e.bare
  | index b i => index b.bare i.bare
  | member b name => member b.bare name

/-- An evaluation goes through parentheses, in both ways. -/
theorem evaluate_bare (env : Environment) (e : Expr) :
    e.bare.evaluate env = e.evaluate env ∧ e.bare.resolve env = e.resolve env := by
  induction e with
  | literal l => exact ⟨rfl, rfl⟩
  | identifier name => exact ⟨rfl, rfl⟩
  | unary op e ih =>
    rw [bare, evaluate, evaluate, resolve, resolve, ih.1]
    exact ⟨rfl, rfl⟩
  | binary l op r ihl ihr =>
    rw [bare, evaluate, evaluate, resolve, resolve, ihl.1, ihr.1]
    exact ⟨rfl, rfl⟩
  | paren e ih =>
    rw [bare, evaluate, resolve]
    exact ih
  | index b i ihb ihi =>
    rw [bare, evaluate, evaluate, resolve, resolve, ihb.2, ihi.1]
    exact ⟨rfl, rfl⟩
  | member b name ih =>
    rw [bare, evaluate, evaluate, resolve, resolve, ih.2]
    exact ⟨rfl, rfl⟩

/-- **Expressions that differ in parentheses only mean the same.** -/
theorem evaluate_congr_bare {t u : Expr} (h : t.bare = u.bare) (env : Environment) :
    t.evaluate env = u.evaluate env ∧ t.resolve env = u.resolve env := by
  obtain ⟨ht, ht'⟩ := t.evaluate_bare env
  obtain ⟨hu, hu'⟩ := u.evaluate_bare env
  rw [← ht, ← ht', h]
  exact ⟨hu, hu'⟩

/-! ## With all parentheses -/

/-- The expression with parentheses around every operator, index and member. -/
def full : Expr → Expr
  | literal l => literal l
  | identifier name => identifier name
  | unary op e => paren (unary op e.full)
  | binary l op r => paren (binary l.full op r.full)
  | paren e => paren e.full
  | index b i => paren (index b.full i.full)
  | member b name => paren (member b.full name)

theorem bare_full (e : Expr) : e.full.bare = e.bare := by
  induction e with
  | literal l => rfl
  | identifier name => rfl
  | unary op e ih => simp only [full, bare, ih]
  | binary l op r ihl ihr => simp only [full, bare, ihl, ihr]
  | paren e ih => simp only [full, bare, ih]
  | index b i ihb ihi => simp only [full, bare, ihb, ihi]
  | member b name ih => simp only [full, bare, ih]

theorem isPrimary_full (e : Expr) : e.full.isPrimary = true := by
  cases e <;> rfl

/-- The leaves of the expression can be written down: a literal is what its text denotes, and a
name is one. -/
inductive Writable : Expr → Prop
  | literal {l : Literal} (hs : Lexeme.Spells l.kind.token l.raw.toList)
      (hl : ofToken ⟨l.kind.token, l.raw, 0⟩ = .ok (literal l)) : Writable (literal l)
  | identifier {name : String} (hs : Lexeme.Spells .identifier name.toList) (ht : name ≠ "true")
      (hf : name ≠ "false") : Writable (identifier name)
  | unary {op : UnaryOp} {e : Expr} (he : Writable e) : Writable (unary op e)
  | binary {l r : Expr} {op : BinaryOp} (hl : Writable l) (hr : Writable r) :
      Writable (binary l op r)
  | paren {e : Expr} (he : Writable e) : Writable (paren e)
  | index {b i : Expr} (hb : Writable b) (hi : Writable i) : Writable (index b i)
  | member {b : Expr} {name : String} (hb : Writable b)
      (hs : Lexeme.Spells .identifier name.toList) : Writable (member b name)

/-- With all parentheses, ranks and bases do not matter. -/
theorem Writable.wellFormed_full {e : Expr} (h : e.Writable) : e.full.WellFormed := by
  have hrank : ∀ e : Expr, e.full.rank = 0 := fun e => rank_of_isPrimary e.isPrimary_full
  induction h with
  | literal hs hl => exact .literal hs hl
  | identifier hs ht hf => exact .identifier hs ht hf
  | unary he ih => exact .paren (.unary ih (hrank _))
  | @binary l r op hl hr ihl ihr =>
    refine .paren (.binary ihl ihr ?_ ?_)
    · exact hrank l ▸ Nat.zero_le _
    · exact hrank r ▸ op.rank_pos
  | paren he ih => exact .paren ih
  | @index b i hb hi ihb ihi => exact .paren (.index ihb b.isPrimary_full ihi)
  | @member b name hb hs ih => exact .paren (.member ih b.isPrimary_full hs)

/-! ## The text -/

/-- The words of the text with all parentheses. -/
def parenthesised : Expr → List String
  | literal l => [l.raw]
  | identifier name => [name]
  | unary op e => "(" :: op.text :: (e.parenthesised ++ [")"])
  | binary l op r => "(" :: (l.parenthesised ++ op.text :: (r.parenthesised ++ [")"]))
  | paren e => "(" :: (e.parenthesised ++ [")"])
  | index b i => "(" :: (b.parenthesised ++ "[" :: (i.parenthesised ++ ["]", ")"]))
  | member b name => "(" :: (b.parenthesised ++ [".", name, ")"])

/-- The text with all parentheses, with one space between two words. -/
def render (e : Expr) : String := " ".intercalate e.parenthesised

theorem parenthesised_eq (e : Expr) : e.parenthesised = e.full.flatten.map Prod.snd := by
  induction e with
  | literal l => rfl
  | identifier name => rfl
  | unary op e ih =>
    simp only [parenthesised, full, flatten, ih, List.map_append, List.map_cons, List.cons_append]
    rfl
  | binary l op r ihl ihr =>
    simp only [parenthesised, full, flatten, ihl, ihr, List.map_append, List.map_cons,
      List.cons_append, List.append_assoc]
    rfl
  | paren e ih =>
    simp only [parenthesised, full, flatten, ih, List.map_append, List.map_cons]
    rfl
  | index b i ihb ihi =>
    simp only [parenthesised, full, flatten, ihb, ihi, List.map_append, List.map_cons,
      List.cons_append, List.append_assoc]
    rfl
  | member b name ih =>
    simp only [parenthesised, full, flatten, ih, List.map_append, List.map_cons, List.append_assoc]
    rfl

/--
**Every tree has a text with all parentheses that means the same.**

Expressions that differ in parentheses only have the same value or the same error in every
environment, and lead to the same datum as a base. If the leaves of a tree can be written down, the
text with parentheses around every operator, index and member is accepted with every limit that is
large enough. What is read differs from the tree in parentheses only, so it means the same.
-/
theorem parseWithin_render :
    (∀ t u : Expr, t.bare = u.bare →
      ∀ env, t.evaluate env = u.evaluate env ∧ t.resolve env = u.resolve env) ∧
    ∀ t : Expr, t.Writable → ∃ n t', (∀ limit, n ≤ limit → parseWithin limit t.render = .ok t') ∧
      t'.bare = t.bare ∧ ∀ env, t'.evaluate env = t.evaluate env := by
  refine ⟨fun t u h env => evaluate_congr_bare h env, fun t ht => ?_⟩
  have hwords : (Token.tokens t.render).map Token.word = t.full.flatten := by
    have hscan := Word.scan_intercalate ht.wellFormed_full.spells
    rw [← parenthesised_eq] at hscan
    exact (Scanner.map_word_tokens _).trans hscan
  refine ⟨(Token.tokens t.render).length, t.full, fun limit hlimit => ?_, t.bare_full,
    fun env => ?_⟩
  · exact parseWithin_of_wellFormed hlimit ht.wellFormed_full hwords
  · exact (evaluate_congr_bare t.bare_full env).1

/-- A member of a sum and an index behind that member, which no text without parentheses has. -/
theorem parseWithin_render_compoundBase :
    let sum : Expr := .binary (.identifier "a") (.arithmetic .add) (.identifier "b")
    let t : Expr := .index (.member sum "c") (.unary .minus (.literal ⟨.integer, "1", .integer 1⟩))
    t.render = "( ( ( a + b ) . c ) [ ( - 1 ) ] )" ∧ t.Writable ∧
      (∃ n t', (∀ limit, n ≤ limit → parseWithin limit t.render = .ok t') ∧ t'.bare = t.bare ∧
        ∀ env, t'.evaluate env = t.evaluate env) ∧
      (Expr.member (.paren sum) "c").bare = (Expr.member sum "c").bare ∧
      ∀ env, (Expr.member (.paren sum) "c").evaluate env = (Expr.member sum "c").evaluate env ∧
        (Expr.member (.paren sum) "c").resolve env = (Expr.member sum "c").resolve env := by
  intro sum t
  have hname : ∀ c : Char, Lexeme.isNameStart c = true →
      (Expr.identifier (String.ofList [c])).Writable := fun c hc => by
    cases wellFormed_letter hc with
    | identifier hs ht hf => exact .identifier hs ht hf
  have hsum : sum.Writable := .binary (hname 'a' rfl) (hname 'b' rfl)
  have hone : (Expr.literal ⟨.integer, "1", .integer 1⟩).Writable := .literal rfl rfl
  have ht : t.Writable := .index (.member hsum ⟨'c', [], rfl, rfl, by simp⟩) (.unary hone)
  exact ⟨rfl, ht, parseWithin_render.2 t ht, rfl, parseWithin_render.1 _ _ rfl⟩

end Expr

end Reckon
