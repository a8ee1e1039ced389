import Reckon.Proofs.Lexical.Words
import Reckon.Proofs.Parsing.Language

/-!
# Operator-first notation is read back

An expression that was parsed can be told from the text that shows it with its operators in front
(`Expr.display`), and this module has a reader that does so (`Expr.ofDisplay?`).

The text of a literal is shown as it was written, so it may hold spaces, parentheses and quotation
marks. But a text that is shown is scanned by the same rules as a source: in front of a space or a
closing parenthesis every word ends, and so the words come back as they were
(`Expr.WellFormed.shows_display`). Then only parentheses and words are left, and these are put
together from the right to the left: an opening parenthesis finds behind it all that belongs to its
group. The number of operands says which operator a symbol is, and the words `group` and `index` are
no names where they open a group.
-/

namespace Reckon

/-! ## The words of a text that is shown -/

namespace Lexeme

/-- A space and a closing parenthesis end every word. -/
theorem closes_of_parted {d : Char} (h : d = ' ' ∨ d = ')') (k : TokenKind) (w : List Char) :
    closes k w d = true := by
  rcases h with rfl | rfl
  · exact closes_blank rfl k w
  · have hpair : ∀ c, Symbol.ofPair? c ')' = none := by
      intro c
      unfold Symbol.ofPair?
      split <;> first | rfl | exact absurd ‹_› (by decide)
    unfold closes
    split
    · rw [hpair]; rfl
    · rfl
    · rfl
    · rfl
    · rfl

end Lexeme

namespace Word

/-- In front of a space or a closing parenthesis, the text is scanned into these words. -/
def Shows (cs : List Char) (ws : List Word) : Prop :=
  ∀ r : List Char, (∀ d ∈ r.head?, d = ' ' ∨ d = ')') → scan (cs ++ r) = ws ++ scan r

/-- The words of a group in parentheses. -/
def grouped (ws : List Word) : List Word :=
  Symbol.leftParen.word :: (ws ++ [Symbol.rightParen.word])

theorem shows_word {k : TokenKind} {x : String} (h : Lexeme.Spells k x.toList) :
    Shows x.toList [(k, x)] := by
  intro r hr
  rw [scan_word h fun d hd => Lexeme.closes_of_parted (hr d hd) _ _, String.ofList_toList]
  rfl

theorem shows_symbol (s : Symbol) : Shows s.text.toList [s.word] := shows_word rfl

/-- Parts with one space between them are scanned one after the other. -/
theorem shows_intercalate {parts : List String} {wss : List (List Word)}
    (h : List.Forall₂ (fun x ws => Shows x.toList ws) parts wss) :
    Shows (" ".intercalate parts).toList wss.flatten := by
  rw [String.toList_intercalate]
  induction h with
  | nil => exact fun r _ => rfl
  | @cons x ws parts wss hx h ih =>
    cases h with
    | nil => simpa [List.intercalate] using hx
    | @cons y vs parts wss hy h =>
      intro r hr
      have hsplit : " ".toList.intercalate ((x :: y :: parts).map String.toList) ++ r =
          x.toList ++ ([' '] ++ (" ".toList.intercalate ((y :: parts).map String.toList) ++ r)) := by
        simp [List.intercalate]
      rw [hsplit, hx _ (by simp), scan_blanks forall_mem_space, ih r hr, List.flatten_cons (l := ws),
        List.append_assoc]

theorem shows_group {parts : List String} {wss : List (List Word)}
    (h : List.Forall₂ (fun x ws => Shows x.toList ws) parts wss) :
    Shows (Expr.group parts).toList (grouped wss.flatten) := by
  intro r hr
  have hopen : ∀ cs, scan (['('] ++ cs) = Symbol.leftParen.word :: scan cs := fun cs =>
    scan_word (k := .symbol .leftParen) rfl fun d _ => by simp [Lexeme.closes, Symbol.ofPair?]
  have hclose : scan ([')'] ++ r) = Symbol.rightParen.word :: scan r :=
    scan_word (k := .symbol .rightParen) rfl fun d _ => by simp [Lexeme.closes, Symbol.ofPair?]
  have hsplit : (Expr.group parts).toList ++ r =
      ['('] ++ ((" ".intercalate parts).toList ++ ([')'] ++ r)) := by
    simp [Expr.group]
  rw [hsplit, hopen, shows_intercalate h _ (by simp), hclose, grouped, List.cons_append,
    List.append_assoc]
  rfl

end Word

namespace Expr

open Word

/-- The words of an expression with each operator in front of its operands. -/
def operatorFirst : Expr → List Word
  | literal l => [(l.kind.token, l.raw)]
  | identifier name => [(.identifier, name)]
  | unary op e => grouped (op.symbol.word :: e.operatorFirst)
  | binary l op r => grouped (op.symbol.word :: (l.operatorFirst ++ r.operatorFirst))
  | paren e => grouped ((.identifier, "group") :: e.operatorFirst)
  | index b i => grouped ((.identifier, "index") :: (b.operatorFirst ++ i.operatorFirst))
  | member b name => grouped (Symbol.dot.word :: (b.operatorFirst ++ [(.identifier, name)]))

/-- **What is shown of a well-formed expression is scanned into its words.** -/
theorem WellFormed.shows_display {e : Expr} (h : e.WellFormed) :
    Shows e.display.toList e.operatorFirst := by
  have hgroup : Shows "group".toList [(.identifier, "group")] :=
    shows_word ⟨'g', "roup".toList, rfl, rfl, List.all_eq_true.mp rfl⟩
  have hindex : Shows "index".toList [(.identifier, "index")] :=
    shows_word ⟨'i', "ndex".toList, rfl, rfl, List.all_eq_true.mp rfl⟩
  induction h with
  | literal hs hl => exact shows_word hs
  | identifier hs ht hf => exact shows_word hs
  | @unary op e he hr ih =>
    simpa [operatorFirst, display, UnaryOp.text] using
      shows_group (.cons (shows_symbol op.symbol) (.cons ih .nil))
  | @binary l r op hl hr hlop hrop ihl ihr =>
    simpa [operatorFirst, display, BinaryOp.text] using
      shows_group (.cons (shows_symbol op.symbol) (.cons ihl (.cons ihr .nil)))
  | paren he ih =>
    simpa [operatorFirst, display] using shows_group (.cons hgroup (.cons ih .nil))
  | index hb hp hi ihb ihi =>
    simpa [operatorFirst, display] using shows_group (.cons hindex (.cons ihb (.cons ihi .nil)))
  | member hb hp hs ih =>
    simpa [operatorFirst, display, Symbol.text] using
      shows_group (.cons (shows_symbol .dot) (.cons ih (.cons (shows_word hs) .nil)))

theorem WellFormed.scan_display {e : Expr} (h : e.WellFormed) :
    scan e.display.toList = e.operatorFirst := by
  simpa using h.shows_display [] (by simp)

/-! ## Reading from the right to the left -/

/-- Something that a reader has behind it and has not put together yet. -/
inductive Piece
  /-- A word: a literal, a name, an operator or a closing parenthesis. -/
  | word (w : Word)
  /-- A group that has been put together. -/
  | tree (e : Expr)

namespace Piece

/-- The expression that the piece is as an operand. -/
def expr? : Piece → Option Expr
  | word w => (ofToken ⟨w.1, w.2, 0⟩).toOption
  | tree e => some e

/-- The piece is the end of a group. -/
def isClose : Piece → Bool
  | word w => w = Symbol.rightParen.word
  | tree _ => false

/-- The name that the piece is as a member. -/
def name? : Piece → Option String
  | word w => some w.2
  | tree _ => none

/-- The group that starts with the word `w` and has one operand. -/
def one? (w : Word) (e : Expr) : Option Expr :=
  if w = (.identifier, "group") then some (paren e)
  else (UnaryOp.ofKind? w.1).map fun op => unary op e

/-- The group that starts with the word `w` and has two operands, or an operand and a name. -/
def two? (w : Word) (e : Expr) (p : Piece) : Option Expr :=
  if w = Symbol.dot.word then p.name?.map (member e)
  else if w = (.identifier, "index") then p.expr?.map (index e)
  else p.expr?.bind fun f => (BinaryOp.ofKind? w.1).map fun op => binary e op f

/-- The group of these pieces. -/
def build? : List Piece → Option Expr
  | [word w, p] => p.expr?.bind (one? w)
  | [word w, p, q] => p.expr?.bind fun e => two? w e q
  | _ => none

/-- One more word in front of the pieces `ps`. In front of a group they are put together up to its
end. -/
def push? (w : Word) (ps : List Piece) : Option (List Piece) :=
  if w = Symbol.leftParen.word then
    (build? (ps.takeWhile (!isClose ·))).map fun e =>
      tree e :: (ps.dropWhile (!isClose ·)).tail
  else some (word w :: ps)

/-- The words in front of the pieces that have been read. -/
def read? (ws : List Word) (ps : Option (List Piece)) : Option (List Piece) :=
  ws.foldr (fun w ps => ps.bind (push? w)) ps

theorem read?_append (vs ws : List Word) (ps : Option (List Piece)) :
    read? (vs ++ ws) ps = read? vs (read? ws ps) := List.foldr_append

/-- The words are read into these pieces, none of which ends a group. -/
structure Reads (ws : List Word) (ps : List Piece) : Prop where
  read : ∀ qs, read? ws (some qs) = some (ps ++ qs)
  inside : ∀ p ∈ ps, p.isClose = false

theorem Reads.append {vs ws : List Word} {ps qs : List Piece} (hv : Reads vs ps)
    (hw : Reads ws qs) : Reads (vs ++ ws) (ps ++ qs) := by
  refine ⟨fun rs => ?_, fun p hp => ?_⟩
  · rw [read?_append, hw.read, hv.read, List.append_assoc]
  · exact (List.mem_append.mp hp).elim (hv.inside p) (hw.inside p)

/-- A word that is no parenthesis stays what it is. -/
theorem reads_word {w : Word} (ho : w ≠ Symbol.leftParen.word) (hc : w ≠ Symbol.rightParen.word) :
    Reads [w] [word w] :=
  ⟨fun _ => if_neg ho, List.forall_mem_singleton.mpr (decide_eq_false hc)⟩

theorem reads_name (x : String) : Reads [(.identifier, x)] [word (.identifier, x)] :=
  reads_word (fun h => by cases congrArg Prod.fst h) (fun h => by cases congrArg Prod.fst h)

/-- A group is put together as soon as it has been read. -/
theorem reads_grouped {ws : List Word} {ps : List Piece} {e : Expr} (h : Reads ws ps)
    (he : build? ps = some e) : Reads (grouped ws) [tree e] := by
  have hps : ∀ p ∈ ps, (!p.isClose) = true := fun p hp => by rw [h.inside p hp]; rfl
  refine ⟨fun qs => ?_, List.forall_mem_singleton.mpr rfl⟩
  have hread : read? (ws ++ [Symbol.rightParen.word]) (some qs) =
      some (ps ++ word Symbol.rightParen.word :: qs) := by
    rw [read?_append]
    exact h.read _
  calc read? (grouped ws) (some qs)
      = (read? (ws ++ [Symbol.rightParen.word]) (some qs)).bind (push? Symbol.leftParen.word) := rfl
    _ = push? Symbol.leftParen.word (ps ++ word Symbol.rightParen.word :: qs) := by
      rw [hread, Option.bind_some]
    _ = some ([tree e] ++ qs) := by
      rw [push?, if_pos rfl, List.takeWhile_append_of_pos hps, List.dropWhile_append_of_pos hps]
      simp [isClose, he]

end Piece

/-- The expression that a text in operator-first notation shows. -/
def ofDisplay? (s : String) : Option Expr :=
  match Piece.read? (scan s.toList) (some []) with
  | some [p] => p.expr?
  | _ => none

open Piece

/-- **The words of a well-formed expression are read into it.** -/
theorem WellFormed.exists_reads {e : Expr} (h : e.WellFormed) :
    ∃ p : Piece, Reads e.operatorFirst [p] ∧ p.expr? = some e := by
  induction h with
  | @literal l hs hl =>
    have hne : ∀ s : Symbol, (l.kind.token, l.raw) ≠ s.word := fun s hs => by
      have hkind := congrArg Prod.fst hs
      revert hkind
      cases l.kind <;> exact TokenKind.noConfusion
    exact ⟨word (l.kind.token, l.raw), reads_word (hne _) (hne _), by rw [expr?, hl]; rfl⟩
  | @identifier name hs ht hf =>
    exact ⟨word (.identifier, name), reads_name name, by
      rw [expr?, Parser.ofToken_identifier ht hf]; rfl⟩
  | @unary op e he hr ih =>
    obtain ⟨p, hp, hexpr⟩ := ih
    have hop : UnaryOp.ofKind? op.symbol.word.1 = some op :=
      Parser.unary_ofKind?_eq_some_iff.mpr rfl
    have hword : Reads [op.symbol.word] [word op.symbol.word] :=
      reads_word (fun h => by rw [h] at hop; cases hop) (fun h => by rw [h] at hop; cases hop)
    refine ⟨tree _, reads_grouped (hword.append hp) ?_, rfl⟩
    show p.expr?.bind (one? op.symbol.word) = _
    rw [hexpr, Option.bind_some, one?, if_neg (fun h => by rw [h] at hop; cases hop), hop]
    rfl
  | @binary l r op hl hr hlop hrop ihl ihr =>
    obtain ⟨p, hp, hleft⟩ := ihl
    obtain ⟨q, hq, hright⟩ := ihr
    have hop : BinaryOp.ofKind? op.symbol.word.1 = some op := Parser.ofKind?_eq_some_iff.mpr rfl
    have hword : Reads [op.symbol.word] [word op.symbol.word] :=
      reads_word (fun h => by rw [h] at hop; cases hop) (fun h => by rw [h] at hop; cases hop)
    refine ⟨tree _, reads_grouped (hword.append (hp.append hq)) ?_, rfl⟩
    show (p.expr?.bind fun e => two? op.symbol.word e q) = _
    rw [hleft, Option.bind_some, two?, if_neg (fun h => by rw [h] at hop; cases hop),
      if_neg (fun h => by rw [h] at hop; cases hop), hright, hop]
    rfl
  | paren he ih =>
    obtain ⟨p, hp, hexpr⟩ := ih
    refine ⟨tree _, reads_grouped ((reads_name "group").append hp) ?_, rfl⟩
    show p.expr?.bind (one? (.identifier, "group")) = _
    rw [hexpr]
    rfl
  | index hb hp hi ihb ihi =>
    obtain ⟨p, hp, hbase⟩ := ihb
    obtain ⟨q, hq, hindex⟩ := ihi
    refine ⟨tree _, reads_grouped ((reads_name "index").append (hp.append hq)) ?_, rfl⟩
    show (p.expr?.bind fun e => two? (.identifier, "index") e q) = _
    rw [hbase, Option.bind_some, two?, if_neg (by decide), if_pos rfl, hindex]
    rfl
  | @member b name hb hp hs ih =>
    obtain ⟨p, hp, hbase⟩ := ih
    have hdot : Reads [Symbol.dot.word] [word Symbol.dot.word] :=
      reads_word (by decide) (by decide)
    refine ⟨tree _, reads_grouped (hdot.append (hp.append (reads_name name))) ?_, rfl⟩
    show (p.expr?.bind fun e => two? Symbol.dot.word e (word (.identifier, name))) = _
    rw [hbase]
    rfl

theorem WellFormed.ofDisplay?_display {e : Expr} (h : e.WellFormed) :
    ofDisplay? e.display = some e := by
  obtain ⟨p, hp, hexpr⟩ := h.exists_reads
  have hread : read? (scan e.display.toList) (some []) = some [p] := by
    rw [h.scan_display]
    exact hp.read []
  rw [ofDisplay?, hread]
  exact hexpr

/--
**Operator-first notation determines the expression.**

What is shown of an expression that was parsed, with whatever limit, is read back as this
expression: its shape, its operators and names, and its literals with their kinds, texts and values.
So two expressions that were parsed and are shown alike are one expression.
-/
theorem display_injective {source source' : String} {limit limit' : Nat} {t t' : Expr}
    (h : parseWithin limit source = .ok t) (h' : parseWithin limit' source' = .ok t') :
    ofDisplay? t.display = some t ∧ (t.display = t'.display → t = t') := by
  have ht : ofDisplay? t.display = some t := (wellFormed_of_parseWithin h).ofDisplay?_display
  have ht' : ofDisplay? t'.display = some t' := (wellFormed_of_parseWithin h').ofDisplay?_display
  refine ⟨ht, fun hdisplay => ?_⟩
  rw [hdisplay] at ht
  exact Option.some.inj (ht.symm.trans ht')

/-- The name of a group as a name, and a parenthesis in a literal. -/
theorem display_injective_index :
    ∃ t t', parseWithin 5 "-index[')']" = .ok t ∧ parseWithin 256 " - index [ ')' ] " = .ok t' ∧
      t.display = "(- (index index ')'))" ∧ t'.display = "(- (index index ')'))" ∧
      ofDisplay? "(- (index index ')'))" = some t ∧ t = t' := by
  let t : Expr := .unary .minus (.index (.identifier "index") (.literal ⟨.char, "')'", .char ')'⟩))
  have hname : (identifier "index").WellFormed :=
    .identifier ⟨'i', "ndex".toList, rfl, rfl, List.all_eq_true.mp rfl⟩ (by decide) (by decide)
  have hchar : (literal ⟨.char, "')'", .char ')'⟩).WellFormed :=
    .literal ⟨[')'], rfl, .plain (by decide) (by decide)⟩ rfl
  have ht : t.WellFormed := .unary (.index hname rfl hchar) rfl
  have hparse : parseWithin 5 "-index[')']" = .ok t :=
    parseWithin_of_wellFormed (by decide +kernel) ht (by decide +kernel)
  have hparse' : parseWithin 256 " - index [ ')' ] " = .ok t :=
    parseWithin_of_wellFormed (by decide +kernel) ht (by decide +kernel)
  have hdisplay : t.display = "(- (index index ')'))" := by decide +kernel
  obtain ⟨hread, hinjective⟩ := display_injective hparse hparse'
  exact ⟨t, t, hparse, hparse', hdisplay, hdisplay, hdisplay ▸ hread, hinjective rfl⟩

end Expr

end Reckon
