import Reckon.Proofs.Evaluation.Modes

/-!
# Paths into data

A name with indices and members behind it is a path: it starts at the datum of the name, and each
step leads from a datum to one inside it (`Path.Step.Yields`). A path is walked over the data as
they are bound, and the first step that fails is the answer (`Path.Walk`). Only the datum at its end
has to be a value (`Path.Answers`, `Expr.evaluate_path`).
-/

namespace Reckon

namespace Path

/-- A step of a path. -/
inductive Step
  | index (i : Expr)
  | member (name : String)

/-- What the end of a path is called in messages, if this is its last step. -/
def Step.label : Step → String
  | index _ => Expr.itemName
  | member name => name

end Path

/-- A name and the steps behind it. -/
structure Path where
  root : String
  /-- The steps in the order in which they are taken. -/
  steps : List Path.Step

/-! ## Walks -/

namespace Path

/-- What the end of a path is called in messages. -/
def label (p : Path) : String := (p.steps.getLast?.map Step.label).getD p.root

/-- The path with a step more. -/
def snoc (p : Path) (s : Step) : Path := ⟨p.root, p.steps ++ [s]⟩

/-- A step leads from the datum to another one, or it fails. -/
inductive Step.Yields (env : Environment) : Step → Datum → Except EvalError Datum → Prop
  /-- The index is evaluated whatever the datum is. -/
  | indexFails {i : Expr} {d : Datum} {err : EvalError} (h : i.evaluate env = .error err) :
      Yields env (index i) d (.error err)
  | invalidIndex {i : Expr} {d : Datum} {v : Value} (h : i.evaluate env = .ok v)
      (hv : ∀ n, v ≠ .integer n) : Yields env (index i) d (.error (.invalidIndex v.kind))
  | item {i : Expr} {items : List Datum} {n : Int64} {k : Nat}
      (h : i.evaluate env = .ok (.integer n)) (hn : n.toInt = k) (hk : k < items.length) :
      Yields env (index i) (.list items) (.ok items[k])
  | noItem {i : Expr} {items : List Datum} {n : Int64} (h : i.evaluate env = .ok (.integer n))
      (hn : ¬ (0 ≤ n.toInt ∧ n.toInt < items.length)) :
      Yields env (index i) (.list items) (.error (.indexOutOfBounds n items.length))
  | character {i : Expr} {s : String} {n : Int64} {k : Nat}
      (h : i.evaluate env = .ok (.integer n)) (hn : n.toInt = k) (hk : k < s.toList.length) :
      Yields env (index i) (.string s) (.ok (.char s.toList[k]))
  | noCharacter {i : Expr} {s : String} {n : Int64} (h : i.evaluate env = .ok (.integer n))
      (hn : ¬ (0 ≤ n.toInt ∧ n.toInt < s.toList.length)) :
      Yields env (index i) (.string s) (.error (.indexOutOfBounds n s.toList.length))
  | notIndexable {i : Expr} {d : Datum} {n : Int64} (h : i.evaluate env = .ok (.integer n))
      (hlist : ∀ items, d ≠ .list items) (hstring : ∀ s, d ≠ .string s) :
      Yields env (index i) d (.error (.notIndexable d.kind))
  | field {name : String} {fields : List (String × Datum)} {d : Datum}
      (h : Fields.find? name fields = some d) : Yields env (member name) (.record fields) (.ok d)
  | noField {name : String} {fields : List (String × Datum)}
      (h : Fields.find? name fields = none) :
      Yields env (member name) (.record fields) (.error (.undefinedMember name))
  | notARecord {name : String} {d : Datum} (h : ∀ fields, d ≠ .record fields) :
      Yields env (member name) d (.error (.notARecord name d.kind))

/-- The steps lead from the datum to another one, or the first step that fails is the answer. -/
inductive Walk (env : Environment) : Datum → List Step → Except EvalError Datum → Prop
  | done (d : Datum) : Walk env d [] (.ok d)
  | next {s : Step} {d d' : Datum} {steps : List Step} {r : Except EvalError Datum}
      (hs : s.Yields env d (.ok d')) (h : Walk env d' steps r) : Walk env d (s :: steps) r
  | stop {s : Step} {d : Datum} {steps : List Step} {err : EvalError}
      (hs : s.Yields env d (.error err)) : Walk env d (s :: steps) (.error err)

/-- The value at the end of a path, or why there is none. -/
inductive Answers (env : Environment) (p : Path) : Except EvalError Value → Prop
  | unbound (h : env.find? p.root = none) : Answers env p (.error (.undefinedIdentifier p.root))
  | lost {d : Datum} {err : EvalError} (h : env.find? p.root = some d)
      (hwalk : Walk env d p.steps (.error err)) : Answers env p (.error err)
  | value {d d' : Datum} {v : Value} (h : env.find? p.root = some d)
      (hwalk : Walk env d p.steps (.ok d')) (hv : d'.toValue? = some v) : Answers env p (.ok v)
  | unsupported {d d' : Datum} (h : env.find? p.root = some d)
      (hwalk : Walk env d p.steps (.ok d')) (hv : d'.toValue? = none) :
      Answers env p (.error (.unsupportedValue p.label d'.kind))

end Path

/-- The path that an expression is, up to parentheses. -/
def Expr.path? : Expr → Option Path
  | identifier name => some ⟨name, []⟩
  | paren e => e.path?
  | index b i => b.path?.map (·.snoc (.index i))
  | member b name => b.path?.map (·.snoc (.member name))
  | _ => none

/-! ## Steps -/

namespace Datum

/-- An index is in bounds just if an item stands there. -/
theorem itemAt_eq {α : Type} {items : List α} {n : Int64} {k : Nat} (hn : n.toInt = k)
    (hk : k < items.length) : itemAt items n = .ok items[k] := by
  have hnonneg : 0 ≤ n.toInt := hn ▸ Int.natCast_nonneg k
  rw [itemAt, if_pos hnonneg, hn, Int.toNat_natCast, List.getElem?_eq_getElem hk]

theorem itemAt_eq_error {α : Type} {items : List α} {n : Int64}
    (hn : ¬ (0 ≤ n.toInt ∧ n.toInt < items.length)) :
    itemAt items n = .error (.indexOutOfBounds n items.length) := by
  rw [itemAt]
  by_cases hnonneg : 0 ≤ n.toInt
  · have hlen : items.length ≤ n.toInt.toNat := by
      have hlt : ¬ n.toInt < items.length := fun hlt => hn ⟨hnonneg, hlt⟩
      omega
    rw [if_pos hnonneg, List.getElem?_eq_none hlen]
  · rw [if_neg hnonneg]

end Datum

namespace Path

variable {env : Environment}

/-- A step is taken. -/
def Step.take (env : Environment) (d : Datum) : Step → Except EvalError Datum
  | index i => do
    let v ← i.evaluate env
    d.select v
  | member name => d.member name

theorem Step.Yields.take_eq {s : Step} {d : Datum} {r : Except EvalError Datum}
    (h : s.Yields env d r) : s.take env d = r := by
  cases h with
  | indexFails h =>
    rw [take, h]
    rfl
  | @invalidIndex i d v h hv =>
    rw [take, h]
    cases v with
    | integer n => exact absurd rfl (hv n)
    | _ => rfl
  | item h hn hk =>
    rw [take, h]
    exact Datum.itemAt_eq hn hk
  | noItem h hn =>
    rw [take, h]
    exact Datum.itemAt_eq_error hn
  | character h hn hk =>
    rw [take, h]
    exact congrArg (Except.map Datum.char) (Datum.itemAt_eq hn hk)
  | noCharacter h hn =>
    rw [take, h]
    exact congrArg (Except.map Datum.char) (Datum.itemAt_eq_error hn)
  | @notIndexable i d n h hlist hstring =>
    rw [take, h]
    cases d with
    | list items => exact absurd rfl (hlist items)
    | string s => exact absurd rfl (hstring s)
    | _ => rfl
  | field h => rw [take, Datum.member, h]
  | noField h => rw [take, Datum.member, h]
  | @notARecord name d h =>
    cases d with
    | record fields => exact absurd rfl (h fields)
    | _ => rfl

/-- An index into a list or a string is in bounds or not. -/
theorem Step.yields_select {i : Expr} {n : Int64} (h : i.evaluate env = .ok (.integer n))
    (d : Datum) : (index i).Yields env d (d.item n) := by
  cases d with
  | list items =>
    by_cases hn : 0 ≤ n.toInt ∧ n.toInt < items.length
    · obtain ⟨k, hk⟩ := Int.eq_ofNat_of_zero_le hn.1
      have hlt : k < items.length := by omega
      rw [Datum.item, Datum.itemAt_eq hk hlt]
      exact .item h hk hlt
    · rw [Datum.item, Datum.itemAt_eq_error hn]
      exact .noItem h hn
  | string s =>
    by_cases hn : 0 ≤ n.toInt ∧ n.toInt < s.toList.length
    · obtain ⟨k, hk⟩ := Int.eq_ofNat_of_zero_le hn.1
      have hlt : k < s.toList.length := by omega
      rw [Datum.item, Datum.itemAt_eq hk hlt]
      exact .character h hk hlt
    · rw [Datum.item, Datum.itemAt_eq_error hn]
      exact .noCharacter h hn
  | _ => exact .notIndexable h nofun nofun

theorem Step.yields_take (s : Step) (d : Datum) : s.Yields env d (s.take env d) := by
  cases s with
  | index i =>
    rw [take]
    cases hi : i.evaluate env with
    | error err => exact .indexFails hi
    | ok v =>
      cases v with
      | integer n => exact yields_select hi d
      | _ => exact .invalidIndex hi nofun
  | member name =>
    rw [take]
    cases d with
    | record fields =>
      rw [Datum.member]
      split
      next m hm => exact .field hm
      next hm => exact .noField hm
    | _ => exact .notARecord nofun

/-- Every step has one outcome. -/
theorem Step.yields_iff {s : Step} {d : Datum} {r : Except EvalError Datum} :
    s.Yields env d r ↔ s.take env d = r := by
  refine ⟨Yields.take_eq, ?_⟩
  rintro rfl
  exact s.yields_take d

/-! ## Whole paths -/

theorem walk_iff {d : Datum} {steps : List Step} {r : Except EvalError Datum} :
    Walk env d steps r ↔ steps.foldlM (Step.take env) d = r := by
  constructor
  · intro h
    induction h with
    | done d => rfl
    | next hs _ ih => rw [List.foldlM_cons, hs.take_eq, ← ih]; rfl
    | stop hs => rw [List.foldlM_cons, hs.take_eq]; rfl
  · rintro rfl
    induction steps generalizing d with
    | nil => exact .done d
    | cons s steps ih =>
      rw [List.foldlM_cons]
      cases hs : s.take env d with
      | error err => exact .stop (Step.yields_iff.mpr hs)
      | ok d' => exact .next (Step.yields_iff.mpr hs) ih

/-- A walk from the root of a path to its end. -/
def follow (env : Environment) (p : Path) : Except EvalError Datum := do
  let d ← env.lookup p.root
  p.steps.foldlM (Step.take env) d

theorem follow_snoc (p : Path) (s : Step) :
    (p.snoc s).follow env = p.follow env >>= (s.take env ·) := by
  simp only [follow, snoc, List.foldlM_append, List.foldlM_cons, List.foldlM_nil, bind_pure,
    bind_assoc]

theorem label_snoc (p : Path) (s : Step) : (p.snoc s).label = s.label := by
  rw [label, snoc, List.getLast?_concat]
  rfl

theorem follow_unbound {p : Path} (h : env.find? p.root = none) :
    p.follow env = .error (.undefinedIdentifier p.root) := by
  rw [follow, Environment.lookup, h]
  rfl

theorem follow_bound {p : Path} {d : Datum} (h : env.find? p.root = some d) :
    p.follow env = p.steps.foldlM (Step.take env) d := by
  rw [follow, Environment.lookup, h]
  rfl

/-- What is at the end of a path is its answer if it is a value. -/
theorem answers_iff {p : Path} {r : Except EvalError Value} :
    p.Answers env r ↔ (p.follow env >>= (·.toValue p.label)) = r := by
  constructor
  · intro h
    cases h with
    | unbound h =>
      rw [follow_unbound h]
      rfl
    | lost h hwalk =>
      rw [follow_bound h, walk_iff.mp hwalk]
      rfl
    | @value d d' v h hwalk hv =>
      rw [follow_bound h, walk_iff.mp hwalk]
      change d'.toValue p.label = .ok v
      rw [Datum.toValue, hv]
    | @unsupported d d' h hwalk hv =>
      rw [follow_bound h, walk_iff.mp hwalk]
      change d'.toValue p.label = .error _
      rw [Datum.toValue, hv]
  · rintro rfl
    cases h : env.find? p.root with
    | none =>
      rw [follow_unbound h]
      exact .unbound h
    | some d =>
      rw [follow_bound h]
      cases hwalk : p.steps.foldlM (Step.take env) d with
      | error err => exact .lost h (walk_iff.mpr hwalk)
      | ok d' =>
        change p.Answers env (d'.toValue p.label)
        rw [Datum.toValue]
        split
        next v hv => exact .value h (walk_iff.mpr hwalk) hv
        next hv => exact .unsupported h (walk_iff.mpr hwalk) hv

end Path

namespace Expr

variable {env : Environment}

/-- An index behind a path is a step more. -/
theorem path?_index {b i : Expr} {p : Path} (h : (index b i).path? = some p) :
    ∃ q, b.path? = some q ∧ p = q.snoc (.index i) := by
  obtain ⟨q, hq, rfl⟩ := Option.map_eq_some_iff.mp h
  exact ⟨q, hq, rfl⟩

theorem path?_member {b : Expr} {name : String} {p : Path} (h : (member b name).path? = some p) :
    ∃ q, b.path? = some q ∧ p = q.snoc (.member name) := by
  obtain ⟨q, hq, rfl⟩ := Option.map_eq_some_iff.mp h
  exact ⟨q, hq, rfl⟩

/-- By induction on the expression: its datum is the one at the end of its path. -/
theorem resolve_path {e : Expr} {p : Path} (h : e.path? = some p) :
    e.resolve env = p.follow env := by
  induction e generalizing p with
  | identifier name =>
    cases h
    rw [resolve, Path.follow]
    exact (bind_pure _).symm
  | paren e ih =>
    rw [resolve]
    exact ih h
  | index b i ihb =>
    obtain ⟨q, hq, rfl⟩ := path?_index h
    rw [resolve, ihb hq, Path.follow_snoc]
    rfl
  | member b name ihb =>
    obtain ⟨q, hq, rfl⟩ := path?_member h
    rw [resolve, ihb hq, Path.follow_snoc]
    rfl
  | literal l => cases h
  | unary op e => cases h
  | binary l op r => cases h

theorem evaluate_follow {e : Expr} {p : Path} (h : e.path? = some p) :
    e.evaluate env = p.follow env >>= (·.toValue p.label) := by
  induction e generalizing p with
  | identifier name =>
    rw [evaluate_identifier, resolve_path h]
    cases h
    rfl
  | paren e ih =>
    rw [evaluate]
    exact ih h
  | index b i =>
    rw [evaluate_index, resolve_path h]
    obtain ⟨q, hq, rfl⟩ := path?_index h
    rw [Path.label_snoc]
    rfl
  | member b name =>
    rw [evaluate_member, resolve_path h]
    obtain ⟨q, hq, rfl⟩ := path?_member h
    rw [Path.label_snoc]
    rfl
  | literal l => cases h
  | unary op e => cases h
  | binary l op r => cases h

/--
**A path is followed through the data as they are bound.**

An expression that is a path is evaluated to what a walk from its name leads to: the steps are taken
from the innermost one outwards, the first step that fails is the answer, and only the datum at the
end is turned into a value. If it is none, the message calls it by the last step of the path.
-/
theorem evaluate_path {e : Expr} {p : Path} (h : e.path? = some p) (r : Except EvalError Value) :
    e.evaluate env = r ↔ p.Answers env r := by
  rw [evaluate_follow h, Path.answers_iff]

/-- Of `(r.names[0])[i]` a list in a record is passed on the way to a character of one of its
items. -/
theorem evaluate_path_character :
    let names := index (member (identifier "r") "names") (literal ⟨.integer, "0", .integer 0⟩)
    let data := Datum.record [("names", .list [.string "añb", .list []])]
    let env := (Environment.empty.insert "r" data).insert "i" (.int 1)
    (index (paren names) (identifier "i")).evaluate env = .ok (.char 'ñ') := by
  intro names data env
  have hi : (identifier "i").evaluate env = .ok (.integer 1) := by
    rw [evaluate, Environment.lookup, Environment.find?_insert_self]
    rfl
  have hzero : (literal ⟨.integer, "0", .integer 0⟩).evaluate env = .ok (.integer 0) := by
    rw [evaluate]
  have hr : env.find? "r" = some data := by
    rw [Environment.find?_insert_of_ne _ (by decide), Environment.find?_insert_self]
  have hfield : Fields.find? "names" [("names", Datum.list [.string "añb", .list []])] =
      some (.list [.string "añb", .list []]) := by
    simp [Fields.find?]
  have hlast : Path.Walk env (.string "añb") [.index (identifier "i")] (.ok (.char 'ñ')) :=
    .next (.character (k := 1) hi rfl (by decide)) (.done _)
  have hwalk : Path.Walk env data [.member "names", .index (literal ⟨.integer, "0", .integer 0⟩),
      .index (identifier "i")] (.ok (.char 'ñ')) :=
    .next (.field hfield) (.next (.item (k := 0) hzero rfl (by simp)) hlast)
  exact (evaluate_path rfl _).mpr (.value hr hwalk rfl)

end Expr

end Reckon
