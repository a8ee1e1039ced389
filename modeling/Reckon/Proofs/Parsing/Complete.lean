import Reckon.Proofs.Parsing.Sound

/-!
# The parser accepts all of the grammar

A well-formed expression is read off its words, whatever follows, as long as what follows does not
belong to it (`Parser.Stops`) and there is room for one level for each word (`Parser.Roomy`).

How an expression is read depends on its root (`Parser.Readable`):

* a primary one is read up to where an index or a member may follow
* one with no binary operator at its root is an operand
* any other is met in a row: the parser reads the leftmost operand first and then folds operators
  until the expression stands in front of the rest of the row. The induction is on the tree, so it
  speaks of every row that goes on behind the expression.
-/

namespace Reckon.Parser

/-! ## What may follow -/

/-- None of the words `ws` belongs to an expression in front of them that is read up to operators
of the rank `bound`. -/
def Stops (bound : Nat) (ws : List Word) : Prop :=
  ∀ w ∈ ws.head?, w.1 ≠ .symbol .leftBracket ∧ w.1 ≠ .symbol .dot ∧
    ∀ op : BinaryOp, w.1 = .symbol op.symbol → bound ≤ op.rank

theorem Stops.mono {m n : Nat} {ws : List Word} (h : Stops n ws) (hmn : m ≤ n) : Stops m ws := by
  intro w hw
  obtain ⟨hb, hd, hop⟩ := h w hw
  exact ⟨hb, hd, fun op ho => Nat.le_trans hmn (hop op ho)⟩

theorem stops_nil (bound : Nat) : Stops bound [] := fun _ h => by cases h

theorem stops_operator {op : BinaryOp} {bound : Nat} (h : bound ≤ op.rank) (ws : List Word) :
    Stops bound (op.symbol.word :: ws) := by
  intro w hw
  cases hw
  have hsymbol : op.symbol ≠ .leftBracket ∧ op.symbol ≠ .dot := by
    rcases op with (_ | _ | _ | _) | (_ | _ | _ | _ | _ | _) | (_ | _) | (_ | _ | _ | _ | _ | _) | _
      <;> decide
  refine ⟨fun hs => hsymbol.1 (TokenKind.symbol.inj hs), fun hs => hsymbol.2 (TokenKind.symbol.inj hs),
    fun o ho => ?_⟩
  have hsome := BinaryOp.ofSymbol?_eq_some_iff.mpr (TokenKind.symbol.inj ho)
  rw [BinaryOp.ofSymbol?_eq_some_iff.mpr rfl] at hsome
  cases hsome
  exact h

/-- A closing symbol belongs to no expression. -/
theorem stops_closing {s : Symbol} (hs : s = .rightParen ∨ s = .rightBracket) (bound : Nat)
    (ws : List Word) : Stops bound (s.word :: ws) := by
  intro w hw
  cases hw
  refine ⟨?_, ?_, fun op ho => ?_⟩
  · rcases hs with rfl | rfl <;> decide
  · rcases hs with rfl | rfl <;> decide
  · have hsome := BinaryOp.ofSymbol?_eq_some_iff.mpr (TokenKind.symbol.inj ho)
    rcases hs with rfl | rfl <;> cases hsome

/-! ## States with room -/

/-- No word that is left is illegal, and there is a level for each of them. -/
structure Roomy (p : Parser) : Prop where
  legal : ∀ w ∈ p.words, w.1 ≠ .illegal
  room : p.depth + p.words.length ≤ p.limit

/-- The state `q` is behind some words of `p`, at the depth of `p`; the words `ws` are left. -/
structure Behind (p : Parser) (ws : List Word) (q : Parser) : Prop where
  words : q.words = ws
  depth : q.depth = p.depth
  limit : q.limit = p.limit

theorem words_advance {p : Parser} {w : Word} {ws : List Word} (h : p.words = w :: ws) :
    p.peek.word = w ∧ p.advance.words = ws := by
  cases ht : p.tokens with
  | nil => simp [words, ht] at h
  | cons t ts => simpa [words, peek, advance, ht] using h

theorem words_deeper_advance {p : Parser} {w : Word} {ws : List Word} (h : p.words = w :: ws) :
    p.deeper.advance.words = ws := (words_advance h).2

theorem kind_of_words {p : Parser} {w : Word} {ws : List Word} (h : p.words = w :: ws) :
    p.peek.kind = w.1 := congrArg Prod.fst (words_advance h).1

theorem kind_of_words_nil {p : Parser} (h : p.words = []) : p.peek.kind = .eof := by
  rw [words, List.map_eq_nil_iff] at h
  rw [peek, h]
  rfl

theorem peek_legal {p : Parser} (h : ∀ w ∈ p.words, w.1 ≠ .illegal) : p.peek.kind ≠ .illegal := by
  cases hw : p.words with
  | nil => rw [kind_of_words_nil hw]; decide
  | cons w ws =>
    rw [kind_of_words hw]
    exact h w (hw ▸ List.mem_cons_self)

theorem Roomy.advance {p : Parser} {w : Word} {ws : List Word} (hp : p.Roomy)
    (h : p.words = w :: ws) : p.advance.Roomy := by
  have hws := (words_advance h).2
  refine ⟨fun v hv => hp.legal v ?_, ?_⟩
  · rw [h]
    exact List.mem_cons_of_mem _ (hws ▸ hv)
  · have hroom := hp.room
    rw [h, List.length_cons] at hroom
    rw [hws]
    show p.depth + ws.length ≤ p.limit
    omega

theorem Roomy.deeper_advance {p : Parser} {w : Word} {ws : List Word} (hp : p.Roomy)
    (h : p.words = w :: ws) : p.deeper.advance.Roomy := by
  have hws := (words_advance h).2
  refine ⟨(hp.advance h).legal, ?_⟩
  have hroom := hp.room
  rw [h, List.length_cons] at hroom
  show p.depth + 1 + p.advance.words.length ≤ p.limit
  rw [hws]
  omega

theorem Roomy.canAdvance {p : Parser} {w : Word} {ws : List Word} (hp : p.Roomy)
    (h : p.words = w :: ws) : p.CanAdvance := peek_legal (hp.advance h).legal

theorem Roomy.canOpen {p : Parser} {w : Word} {ws : List Word} (hp : p.Roomy)
    (h : p.words = w :: ws) : p.CanOpen := by
  refine ⟨?_, hp.canAdvance h⟩
  have hroom := hp.room
  rw [h, List.length_cons] at hroom
  omega

theorem Behind.roomy {p q : Parser} {us ws : List Word} (h : Behind p ws q) (hp : p.Roomy)
    (hw : p.words = us ++ ws) : q.Roomy := by
  refine ⟨fun w hm => hp.legal w ?_, ?_⟩
  · rw [hw]
    exact List.mem_append_right _ (h.words ▸ hm)
  · have hroom := hp.room
    rw [hw, List.length_append] at hroom
    rw [h.words, h.depth, h.limit]
    omega

/-! ## Reading -/

theorem rowEnd_of_stops {p : Parser} {bound : Nat} {ws : List Word} (h : p.words = ws)
    (hs : Stops bound ws) : p.binaryAhead? bound = none := by
  refine binaryAhead?_eq_none_iff.mpr fun op hop => ?_
  cases ws with
  | nil => rw [kind_of_words_nil h] at hop; cases hop
  | cons w ws => exact (hs w rfl).2.2 op (kind_of_words h ▸ hop)

theorem bare_of_stops {p : Parser} {ws : List Word} (h : p.words = ws) (hs : Stops 0 ws)
    (b : Expr) : Parses (.behind b) p b p := by
  cases ws with
  | nil => exact .bare (by rw [kind_of_words_nil h]; decide) (by rw [kind_of_words_nil h]; decide)
  | cons w ws =>
    obtain ⟨hb, hd, -⟩ := hs w rfl
    exact .bare (kind_of_words h ▸ hb) (kind_of_words h ▸ hd)

/-- The expression is read off its words, in the way that its root asks for. -/
structure Readable (t : Expr) : Prop where
  primary : t.isPrimary = true → ∀ {p : Parser} {ws : List Word}, p.words = t.flatten ++ ws →
    p.Roomy → p.unaryAhead? = none ∧
      ∃ q, Behind p ws q ∧ ∀ {e s}, Parses (.behind t) q e s → Parses .operand p e s
  unary : t.rank = 0 → ∀ {p : Parser} {ws : List Word}, p.words = t.flatten ++ ws →
    p.Roomy → Stops 0 ws → ∃ q, Behind p ws q ∧ Parses .unary p t q
  row : ∀ {p : Parser} {ws : List Word}, p.words = t.flatten ++ ws → p.Roomy → Stops t.rank ws →
    ∃ u q r, Parses .unary p u q ∧ r.words = ws ∧ r.Roomy ∧ r.limit = p.limit ∧
      ∀ {bound e s}, t.rank < bound → Parses (.row bound t) r e s → Parses (.row bound u) q e s

/-- A whole expression, read up to operators of a rank that it stays below. -/
theorem Readable.binary {t : Expr} (ht : Readable t) {p : Parser} {ws : List Word} {bound : Nat}
    (hw : p.words = t.flatten ++ ws) (hp : p.Roomy) (hlt : t.rank < bound) (hs : Stops bound ws) :
    ∃ q, Behind p ws q ∧ Parses (.binary bound) p t q := by
  obtain ⟨u, q, r, hu, hr, -, hlimit, hrow⟩ := ht.row hw hp (hs.mono (Nat.le_of_lt hlt))
  exact ⟨{ r with depth := p.depth }, ⟨hr, rfl, hlimit⟩,
    .binary hu (hrow hlt (.rowEnd (rowEnd_of_stops hr hs)))⟩

/-- An operand is in front of its row at once. -/
theorem Readable.of_unary {t : Expr} (hr : t.rank = 0)
    (hprimary : t.isPrimary = true → ∀ {p : Parser} {ws : List Word}, p.words = t.flatten ++ ws →
      p.Roomy → p.unaryAhead? = none ∧
        ∃ q, Behind p ws q ∧ ∀ {e s}, Parses (.behind t) q e s → Parses .operand p e s)
    (hunary : ∀ {p : Parser} {ws : List Word}, p.words = t.flatten ++ ws → p.Roomy → Stops 0 ws →
      ∃ q, Behind p ws q ∧ Parses .unary p t q) : Readable t where
  primary := hprimary
  unary := fun _ => hunary
  row := by
    intro p ws hw hp hs
    obtain ⟨q, hq, hu⟩ := hunary hw hp (hr ▸ hs)
    exact ⟨t, q, q, hu, hq.words, hq.roomy hp hw, hq.limit, fun _ h => h⟩

/-- A primary expression with nothing behind it is an operand. -/
theorem Readable.of_primary {t : Expr} (ht : t.isPrimary = true)
    (hprimary : ∀ {p : Parser} {ws : List Word}, p.words = t.flatten ++ ws → p.Roomy →
      p.unaryAhead? = none ∧
        ∃ q, Behind p ws q ∧ ∀ {e s}, Parses (.behind t) q e s → Parses .operand p e s) :
    Readable t :=
  .of_unary (Expr.rank_of_isPrimary ht) (fun _ => hprimary) fun hw hp hs => by
    obtain ⟨hnone, q, hq, hbehind⟩ := hprimary hw hp
    exact ⟨q, hq, .plain hnone (hbehind (bare_of_stops hq.words hs t))⟩

/-! ### Operands of one token -/

theorem ofToken_of_word {t u : Token} (h : t.word = u.word) : Expr.ofToken t = Expr.ofToken u := by
  have hkind : t.kind = u.kind := congrArg Prod.fst h
  have hlexeme : t.lexeme = u.lexeme := congrArg Prod.snd h
  unfold Expr.ofToken
  rw [hkind, hlexeme]

theorem ofToken_identifier {name : String} (ht : name ≠ "true") (hf : name ≠ "false") :
    Expr.ofToken ⟨.identifier, name, 0⟩ = .ok (.identifier name) := by
  have hnone : Kind.ofToken? .identifier name = none := if_neg (by simp [ht, hf])
  unfold Expr.ofToken
  rw [hnone]

/-- A single token that is an operand is read as such. -/
theorem readable_token {t : Expr} {k : TokenKind} {x : String} (ht : t.isPrimary = true)
    (hflatten : t.flatten = [(k, x)]) (hk : k.isOperand = true)
    (hof : Expr.ofToken ⟨k, x, 0⟩ = .ok t) : Readable t := by
  refine .of_primary ht fun {p ws} hw hp => ?_
  rw [hflatten] at hw
  obtain ⟨hword, hws⟩ := words_advance hw
  have hkind : p.peek.kind = k := kind_of_words hw
  refine ⟨?_, p.advance, ⟨hws, rfl, rfl⟩, fun h => .token (hkind ▸ hk) (hp.canAdvance hw) ?_ h⟩
  · rw [unaryAhead?, hkind]
    cases k with
    | symbol s => cases hk
    | _ => rfl
  · rw [ofToken_of_word (u := ⟨k, x, 0⟩) hword]
    exact hof

/-! ### Compound expressions -/

theorem readable_paren {e : Expr} (he : Readable e) : Readable (.paren e) := by
  refine .of_primary rfl fun {p ws} hw hp => ?_
  rw [Expr.flatten, List.cons_append, List.append_assoc] at hw
  have hkind := kind_of_words hw
  refine ⟨by rw [unaryAhead?, hkind]; rfl, ?_⟩
  obtain ⟨q, hq, hinner⟩ := he.binary (words_deeper_advance hw) (hp.deeper_advance hw)
    (Expr.rank_lt_loosest e) (stops_closing (.inl rfl) _ _)
  have hroomy := hq.roomy (hp.deeper_advance hw) (words_deeper_advance hw)
  refine ⟨q.advance.leave, ⟨(words_advance hq.words).2, ?_, hq.limit⟩, fun h => ?_⟩
  · show q.depth - 1 = p.depth
    rw [hq.depth]
    exact Nat.add_sub_cancel _ _
  · exact .paren hkind (hp.canOpen hw) hinner (kind_of_words hq.words)
      (hroomy.canAdvance hq.words) h

theorem readable_index {b i : Expr} (hb : Readable b) (hprimary : b.isPrimary = true)
    (hi : Readable i) : Readable (.index b i) := by
  refine .of_unary rfl (fun h => Bool.noConfusion h) fun {p ws} hw hp _ => ?_
  rw [Expr.flatten, List.append_assoc, List.cons_append, List.append_assoc] at hw
  obtain ⟨hnone, r, hr, hbehind⟩ := hb.primary hprimary hw hp
  have hroomy := hr.roomy hp hw
  obtain ⟨q, hq, hinner⟩ := hi.binary (words_deeper_advance hr.words)
    (hroomy.deeper_advance hr.words)
    (Expr.rank_lt_loosest i) (stops_closing (.inr rfl) _ _)
  have hroomy' := hq.roomy (hroomy.deeper_advance hr.words) (words_deeper_advance hr.words)
  refine ⟨q.advance.leave, ⟨(words_advance hq.words).2, ?_, hq.limit.trans hr.limit⟩, ?_⟩
  · show q.depth - 1 = p.depth
    rw [hq.depth, ← hr.depth]
    exact Nat.add_sub_cancel _ _
  · exact .plain hnone (hbehind (.index (kind_of_words hr.words) (hroomy.canOpen hr.words) hinner
      (kind_of_words hq.words) (hroomy'.canAdvance hq.words)))

theorem readable_member {b : Expr} {name : String} (hb : Readable b) (hprimary : b.isPrimary = true) :
    Readable (.member b name) := by
  refine .of_unary rfl (fun h => Bool.noConfusion h) fun {p ws} hw hp _ => ?_
  rw [Expr.flatten, List.append_assoc] at hw
  obtain ⟨hnone, r, hr, hbehind⟩ := hb.primary hprimary hw hp
  have hroomy := hr.roomy hp hw
  have hdot := (words_advance hr.words).2
  obtain ⟨hname, hrest⟩ := words_advance hdot
  refine ⟨r.advance.advance, ⟨hrest, hr.depth, hr.limit⟩, .plain hnone (hbehind ?_)⟩
  have hmember := Parses.member (b := b) (kind_of_words hr.words) (hroomy.canAdvance hr.words)
    (kind_of_words hdot) ((hroomy.advance hr.words).canAdvance hdot)
  rwa [show r.advance.peek.lexeme = name from congrArg Prod.snd hname] at hmember

theorem readable_unary {op : UnaryOp} {e : Expr} (he : Readable e) (hr : e.rank = 0) :
    Readable (.unary op e) := by
  refine .of_unary rfl (fun h => Bool.noConfusion h) fun {p ws} hw hp hs => ?_
  rw [Expr.flatten, List.cons_append] at hw
  obtain ⟨q, hq, hinner⟩ := he.unary hr (words_deeper_advance hw)
    (hp.deeper_advance hw) hs
  refine ⟨q.leave, ⟨hq.words, ?_, hq.limit⟩, .unary ?_ (hp.canOpen hw) hinner⟩
  · show q.depth - 1 = p.depth
    rw [hq.depth]
    exact Nat.add_sub_cancel _ _
  · exact unary_ofKind?_eq_some_iff.mpr (kind_of_words hw)

theorem readable_binary {l r : Expr} {op : BinaryOp} (hl : Readable l) (hr : Readable r)
    (hlop : l.rank ≤ op.rank) (hrop : r.rank < op.rank) : Readable (.binary l op r) where
  primary := fun h => Bool.noConfusion h
  unary := fun h => absurd h (Nat.ne_of_gt op.rank_pos)
  row := by
    intro p ws hw hp hs
    rw [Expr.flatten, List.append_assoc, List.cons_append] at hw
    obtain ⟨u, q, s, hu, hswords, hsroomy, hslimit, hrow⟩ := hl.row hw hp (stops_operator hlop _)
    obtain ⟨t, ht, hright⟩ := hr.binary (words_deeper_advance hswords)
      (hsroomy.deeper_advance hswords) hrop hs
    have htroomy := ht.roomy (hsroomy.deeper_advance hswords) (words_deeper_advance hswords)
    refine ⟨u, q, t, hu, ht.words, htroomy, ht.limit.trans hslimit, fun hlt h => ?_⟩
    -- the row in front of the operator folds it and goes on with the whole expression
    have hahead := binaryAhead?_eq_some_iff.mpr ⟨kind_of_words hswords, hlt⟩
    exact hrow (Nat.lt_of_le_of_lt hlop hlt)
      (.rowFold hahead (hsroomy.canOpen hswords) hright h)

theorem readable {t : Expr} (h : t.WellFormed) : Readable t := by
  induction h with
  | @literal l hs hl =>
    refine readable_token rfl rfl ?_ hl
    cases l.kind <;> rfl
  | identifier hs ht hf => exact readable_token rfl rfl rfl (ofToken_identifier ht hf)
  | unary he hr ih => exact readable_unary ih hr
  | binary hl hr hlop hrop ihl ihr => exact readable_binary ihl ihr hlop hrop
  | paren he ih => exact readable_paren ih
  | index hb hp hi ihb ihi => exact readable_index ihb hp ihi
  | member hb hp hs ih => exact readable_member ih hp

end Reckon.Parser
