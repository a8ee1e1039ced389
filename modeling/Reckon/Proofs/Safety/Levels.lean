import Reckon.Proofs.Parsing.Acts
import Reckon.Proofs.Parsing.Prefix
import Reckon.Proofs.Parsing.Resume
import Reckon.Proofs.Safety.Slices

/-!
# Levels are never given back twice

The parser in which leaving a level at depth 0 crashes, and taking the text of a literal out of its
quotes may: it is the parser of the library with the effects `Checked.effects`. It ends as the one
without effects (`Checked.parse_eq`). Every level that is left is deeper than the depth at the
start, so there is one to leave, and literals that were scanned stand between quotes.

This does not depend on the depth at the start, so it holds of a parser that an error has left
anywhere.
-/

namespace Reckon.Checked

/-- Leaving a level at depth 0 crashes, and taking a literal out of its quotes may. -/
def effects : Effects (Except Crash) where
  perform
    | .scan _ => .ok ()
    | .leave p => if p.depth = 0 then .error .level else .ok ()
  decode := ofToken

/-- Parses one whole expression and leaves the parser behind, after an error too. -/
def parse (p : Parser) : Except Crash (Except ParseError Expr × Parser) := effects.parse p

variable {p q : Parser}

/-- Literals that were scanned are decoded as they are. -/
theorem decodesFrom_effects (hp : p.Scanned) : effects.DecodesFrom p := by
  intro t ht hoperand
  refine ofToken_eq (hp t.word (List.mem_map_of_mem ht) fun hillegal => ?_)
  have hkind : t.kind = .illegal := hillegal
  rw [hkind] at hoperand
  cases hoperand

/-- There is a level to leave above another depth. -/
theorem perform_leave {d : Nat} (h : d < q.depth) : effects.perform (.leave q) = pure () :=
  if_neg (Nat.ne_of_gt (Nat.lt_of_le_of_lt (Nat.zero_le d) h))

/-- **A parser in front of scanned tokens does not crash, whatever its depth.** -/
theorem parse_eq (hp : p.Scanned) : parse p = .ok p.parse := by
  rw [parse, Effects.parse_eq_replay (decodesFrom_effects hp)]
  refine Effects.replay_eq_pure effects p.parse fun act hact => ?_
  cases act with
  | scan t => rfl
  | leave q => exact perform_leave (Parser.lt_depth_of_leave hact)

/-- Nor does it crash after any number of answers. -/
theorem parse_after_eq (source : String) (limit n : Nat) :
    parse ((Parser.ofSource source limit).after n) =
      .ok ((Parser.ofSource source limit).after n).parse :=
  parse_eq ((Parser.after_onward n _).scanned (Parser.ofSource_scanned source limit))

end Reckon.Checked
