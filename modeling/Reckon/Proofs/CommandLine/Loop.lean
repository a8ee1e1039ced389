import Reckon.CommandLine.Prompt
import Reckon.Proofs.Parsing.Trailing

/-!
# The loop of the prompt

The transcript of the prompt is made line by line from a whole input. The program has no whole
input: it shows the prompt, reads one line, and goes on until there is none (`Prompt.turn`). The
outputs are the same (`Prompt.runs_iff`): a turn of the loop takes one line of the input away and
adds what is shown for it, whatever was shown before.

The white space that is trimmed from a line is more than what an expression may have behind it. Yet
trimming changes no line that is an expression.
-/

namespace Reckon

namespace Text

theorem dropTrailing_eq_nil_iff {cs : List Char} :
    dropTrailing cs = [] ↔ ∀ c ∈ cs, isSpace c = true := by
  constructor
  · intro h c hc
    have hdrop := List.reverse_eq_nil_iff.mp h
    have hsplit := List.takeWhile_append_dropWhile (p := isSpace) (l := cs.reverse)
    rw [hdrop, List.append_nil] at hsplit
    rw [← List.mem_reverse, ← hsplit] at hc
    exact Lexeme.mem_takeWhile c hc
  · intro h
    exact @dropTrailing_append [] cs h

/-- Nothing is left of a text that is trimmed if it is white space alone. -/
theorem trim_eq_empty_iff (s : String) : trim s = "" ↔ isBlank s = true := by
  have hsplit := List.takeWhile_append_dropWhile (p := isSpace) (l := s.toList)
  rw [trim, String.ofList_eq_empty_iff, dropTrailing_eq_nil_iff, isBlank, List.all_eq_true]
  constructor
  · intro h c hc
    rw [← hsplit] at hc
    exact (List.mem_append.mp hc).elim (Lexeme.mem_takeWhile c) (h c)
  · exact fun h c hc => h c ((List.dropWhile_suffix isSpace).subset hc)

end Text

namespace Prompt

/-! ## Lines -/

/-- The lines of a text. Each ends with its line break, but the last one may have none. -/
inductive Lines : (cs : List Char) → (lines : List (List Char)) → Prop
  | nil : Lines [] []
  | last {w : List Char} (hne : w ≠ []) (hw : '\n' ∉ w) : Lines w [w]
  | cons {w rest : List Char} {lines : List (List Char)} (hw : '\n' ∉ w) (h : Lines rest lines) :
    Lines (w ++ '\n' :: rest) ((w ++ ['\n']) :: lines)

theorem exists_lines (cs : List Char) : ∃ lines, Lines cs lines := by
  induction cs with
  | nil => exact ⟨[], .nil⟩
  | cons c r ih =>
    obtain ⟨lines, h⟩ := ih
    by_cases hc : c = '\n'
    · subst hc
      exact ⟨_, .cons (w := []) List.not_mem_nil h⟩
    · have hmem {w : List Char} (hw : '\n' ∉ w) : '\n' ∉ c :: w :=
        List.not_mem_cons_of_ne_of_not_mem (Ne.symm hc) hw
      cases h with
      | nil => exact ⟨_, .last (List.cons_ne_nil c []) (hmem List.not_mem_nil)⟩
      | last hne hw => exact ⟨_, .last (List.cons_ne_nil c r) (hmem hw)⟩
      | @cons w rest _ hw h => exact ⟨_, .cons (w := c :: w) (hmem hw) h⟩

theorem splitLines_of_not_mem {w : List Char} (hne : w ≠ []) (hw : '\n' ∉ w) :
    splitLines w = [w] := by
  induction w with
  | nil => exact absurd rfl hne
  | cons c w ih =>
    rw [splitLines, if_neg (List.ne_of_not_mem_cons hw).symm]
    cases w with
    | nil => rfl
    | cons d w => rw [ih (List.cons_ne_nil _ _) (List.not_mem_of_not_mem_cons hw)]

theorem splitLines_append {w : List Char} (hw : '\n' ∉ w) (rest : List Char) :
    splitLines (w ++ '\n' :: rest) = (w ++ ['\n']) :: splitLines rest := by
  induction w with
  | nil => rw [List.nil_append, splitLines, if_pos rfl]; rfl
  | cons c w ih =>
    rw [List.cons_append, splitLines, if_neg (List.ne_of_not_mem_cons hw).symm,
      ih (List.not_mem_of_not_mem_cons hw)]
    rfl

/-- **A text has lines in one way only.** -/
theorem lines_iff {cs : List Char} {lines : List (List Char)} :
    Lines cs lines ↔ lines = splitLines cs := by
  have heq {lines : List (List Char)} (h : Lines cs lines) : lines = splitLines cs := by
    induction h with
    | nil => rfl
    | last hne hw => rw [splitLines_of_not_mem hne hw]
    | cons hw h ih => rw [splitLines_append hw, ih]
  refine ⟨heq, ?_⟩
  rintro rfl
  obtain ⟨lines, h⟩ := exists_lines cs
  rwa [← heq h]

/-- What is behind a line break has its own lines. -/
theorem Lines.append {cs ds : List Char} {lines lines' : List (List Char)} (h : Lines cs lines)
    (h' : Lines ds lines') (hend : ∀ c ∈ cs.getLast?, c = '\n') :
    Lines (cs ++ ds) (lines ++ lines') := by
  induction h with
  | nil => exact h'
  | @last w hne hw =>
    have hlast := hend _ (List.getLast?_eq_some_getLast hne)
    exact absurd (hlast ▸ List.getLast_mem hne) hw
  | @cons w rest lines hw h ih =>
    rw [List.append_assoc, List.cons_append, List.cons_append]
    refine .cons hw (ih fun c hc => hend c ?_)
    rw [List.getLast?_append, List.getLast?_cons, show rest.getLast? = some c from hc]
    rfl

/-! ## The loop -/

/-- One line is read, with its line break. At the end of the input nothing is. -/
def readLine : List Char → List Char × List Char
  | [] => ([], [])
  | c :: r =>
    if c = '\n' then ([c], r)
    else
      let (line, rest) := readLine r
      (c :: line, rest)

/-- The input that is left, and what has been shown. -/
structure State where
  rest : List Char
  stdout : String
  stderr : String

/-- One turn of the loop, and whether it goes on. -/
def turn (a : Arguments) (s : State) : Bool × State :=
  let s := { s with stdout := s.stdout ++ sign }
  let (line, rest) := readLine s.rest
  let s := { s with rest := rest }
  let line := String.ofList line
  if line = "" then (false, s)
  else if Text.trim line = "" then (true, s)
  else
    match run (Text.trimEnd line) a.environment a.limit a.tree with
    | .ok text => (true, { s with stdout := s.stdout ++ (text ++ "\n") })
    | .error e => (true, { s with stderr := s.stderr ++ (e.line ++ "\n") })

/-- The loop, started in the first state, ends in the other one. -/
inductive Runs (a : Arguments) : State → State → Prop
  | stop {s t : State} (h : turn a s = (false, t)) : Runs a s t
  | next {s t u : State} (h : turn a s = (true, t)) (hr : Runs a t u) : Runs a s u

variable {a : Arguments}

theorem Runs.unique {s t u : State} (h : Runs a s t) (h' : Runs a s u) : t = u := by
  induction h with
  | stop h =>
    cases h' with
    | stop h' => exact congrArg Prod.snd (h.symm.trans h')
    | next h' hr => cases h.symm.trans h'
  | next h hr ih =>
    cases h' with
    | stop h' => cases h.symm.trans h'
    | next h' hr' =>
      cases h.symm.trans h'
      exact ih hr'

/-- A turn without a line is the last one. -/
theorem turn_nil (a : Arguments) (out err : String) :
    turn a ⟨[], out, err⟩ = (false, ⟨[], out ++ sign, err⟩) := rfl

/-- **A turn shows what there is to show for its line.** -/
theorem turn_line {cs line rest : List Char} (h : readLine cs = (line, rest)) (hne : line ≠ [])
    (out err : String) :
    turn a ⟨cs, out, err⟩ =
      (true, ⟨rest, out ++ (sign ++ shown (answer a (String.ofList line))),
        err ++ reported (answer a (String.ofList line))⟩) := by
  have hline : String.ofList line ≠ "" := fun hempty => hne (String.ofList_eq_empty_iff.mp hempty)
  simp only [turn, h, if_neg hline, Text.trim_eq_empty_iff]
  by_cases hblank : Text.isBlank (String.ofList line) = true
  · simp [answer, hblank, shown, reported]
  · cases hrun : run (Text.trimEnd (String.ofList line)) a.environment a.limit a.tree <;>
      simp [answer, hblank, hrun, shown, reported, String.append_assoc]

theorem readLine_of_not_mem {w : List Char} (hw : '\n' ∉ w) : readLine w = (w, []) := by
  induction w with
  | nil => rfl
  | cons c w ih =>
    rw [readLine, if_neg (List.ne_of_not_mem_cons hw).symm, ih (List.not_mem_of_not_mem_cons hw)]

theorem readLine_append {w : List Char} (hw : '\n' ∉ w) (rest : List Char) :
    readLine (w ++ '\n' :: rest) = (w ++ ['\n'], rest) := by
  induction w with
  | nil => rw [List.nil_append, readLine, if_pos rfl]; rfl
  | cons c w ih =>
    rw [List.cons_append, readLine, if_neg (List.ne_of_not_mem_cons hw).symm,
      ih (List.not_mem_of_not_mem_cons hw)]
    rfl

/-- What the lines add to the standard output, each behind a prompt. -/
def shownAll (a : Arguments) (lines : List (List Char)) : String :=
  String.join (lines.map fun line => sign ++ shown (answer a (String.ofList line)))

/-- What the lines add to the standard error. -/
def reportedAll (a : Arguments) (lines : List (List Char)) : String :=
  String.join (lines.map fun line => reported (answer a (String.ofList line)))

theorem Lines.runs {cs : List Char} {lines : List (List Char)} (h : Lines cs lines)
    (out err : String) :
    Runs a ⟨cs, out, err⟩ ⟨[], out ++ (shownAll a lines ++ sign), err ++ reportedAll a lines⟩ := by
  induction h generalizing out err with
  | nil =>
    refine .stop ?_
    rw [turn_nil]
    simp [shownAll, reportedAll]
  | @last w hne hw =>
    refine .next (turn_line (readLine_of_not_mem hw) hne out err) (.stop ?_)
    rw [turn_nil]
    simp [shownAll, reportedAll, String.append_assoc]
  | @cons w rest lines hw h ih =>
    refine .next (turn_line (readLine_append hw rest) (by simp) out err) ?_
    have hrest := ih (out ++ (sign ++ shown (answer a (String.ofList (w ++ ['\n'])))))
      (err ++ reported (answer a (String.ofList (w ++ ['\n']))))
    simpa [shownAll, reportedAll, String.append_assoc] using hrest

/-! ## Whole inputs -/

theorem transcript_of_lines {input : String} {lines : List (List Char)}
    (h : Lines input.toList lines) :
    transcript a input = ⟨0, shownAll a lines ++ sign, reportedAll a lines⟩ := by
  rw [lines_iff.mp h, transcript, shownAll, reportedAll, List.map_map, List.map_map]
  rfl

/-- **The loop ends, and leaves the transcript behind.** -/
theorem runs_iff {input : String} {s : State} :
    Runs a ⟨input.toList, "", ""⟩ s ↔
      s = ⟨[], (transcript a input).stdout, (transcript a input).stderr⟩ := by
  obtain ⟨lines, h⟩ := exists_lines input.toList
  have hruns := h.runs (a := a) "" ""
  rw [String.empty_append, String.empty_append] at hruns
  rw [transcript_of_lines h]
  exact ⟨fun hs => hs.unique hruns, fun hs => hs ▸ hruns⟩

/-- An input that goes on behind a line break is answered as its two parts are. -/
theorem transcript_append {x : String} (hend : x.toList.getLast? = some '\n') (y : String) :
    ∃ s, (transcript a x).stdout = s ++ sign ∧
      (transcript a (x ++ y)).stdout = s ++ (transcript a y).stdout ∧
      (transcript a (x ++ y)).stderr = (transcript a x).stderr ++ (transcript a y).stderr := by
  obtain ⟨xs, hx⟩ := exists_lines x.toList
  obtain ⟨ys, hy⟩ := exists_lines y.toList
  have hxy : Lines (x ++ y).toList (xs ++ ys) := by
    rw [String.toList_append]
    exact hx.append hy fun c hc => by rw [hend] at hc; cases hc; rfl
  rw [transcript_of_lines hx, transcript_of_lines hy, transcript_of_lines hxy]
  refine ⟨shownAll a xs, rfl, ?_, ?_⟩
  · rw [shownAll, List.map_append, String.join_append, String.append_assoc]
    rfl
  · rw [reportedAll, List.map_append, String.join_append]
    rfl

/-- Trimming a source that is answered does not change the answer. -/
theorem run_trimEnd {source out : String} {env : Environment} {limit : Nat} {tree : Bool}
    (h : run source env limit tree = .ok out) :
    run (Text.trimEnd source) env limit tree = .ok out ∧ Text.isBlank source = false := by
  cases hparse : Expr.parseWithin limit source with
  | error e =>
    rw [run, hparse] at h
    cases h
  | ok e =>
    rw [run, hparse] at h
    refine ⟨?_, Expr.isBlank_of_parseWithin hparse⟩
    rw [run, Expr.parseWithin_trimEnd hparse]
    dsimp only at h ⊢
    cases tree with
    | true => exact h
    | false =>
      cases hvalue : e.evaluate env with
      | error err =>
        rw [hvalue] at h
        cases h
      | ok v =>
        rw [hvalue] at h
        exact h

/-- The line break is trimmed with the white space in front of it. -/
theorem answer_of_run {line w : List Char} {out : String} (hline : line = w ∨ line = w ++ ['\n'])
    (h : run (String.ofList w) a.environment a.limit a.tree = .ok out) :
    answer a (String.ofList line) = some (.ok out) := by
  obtain ⟨hrun, hblank⟩ := run_trimEnd h
  have hspace : ∀ c ∈ ['\n'], Text.isSpace c = true :=
    List.forall_mem_singleton.mpr (by decide)
  have htrim : Text.trimEnd (String.ofList line) = Text.trimEnd (String.ofList w) := by
    rcases hline with rfl | rfl
    · rfl
    · rw [Text.trimEnd, Text.trimEnd, String.toList_ofList, String.toList_ofList,
        Text.dropTrailing_append hspace]
  have hnot : Text.isBlank (String.ofList line) = false := by
    rcases hline with rfl | rfl
    · exact hblank
    · simp only [Text.isBlank, String.toList_ofList, List.all_append] at hblank ⊢
      rw [hblank, Bool.false_and]
  rw [answer, hnot, htrim, hrun]
  rfl

/--
**The prompt answers line by line.**

The loop of the program ends for every input, whatever the errors on the way, and its outputs are
those of the transcript. The input is cut into lines. For each of them the prompt is shown, then
what the line adds, and at the end the prompt is shown once more. What a line adds to either output
depends on nothing but the line: an input that goes on behind a line break is answered as the two
parts are. If a line without its line break is answered, it is answered in the same way where its
white space is trimmed.
-/
theorem transcript_lines (a : Arguments) (input : String) :
    let t := transcript a input
    (∀ s, Runs a ⟨input.toList, "", ""⟩ s ↔ s = ⟨[], t.stdout, t.stderr⟩) ∧ t.code = 0 ∧
      (∃ lines, Lines input.toList lines ∧
        t.stdout = String.join (lines.map fun line =>
          "> " ++ shown (answer a (String.ofList line))) ++ "> " ∧
        t.stderr = String.join (lines.map fun line => reported (answer a (String.ofList line))) ∧
        ∀ line ∈ lines, ∀ w out, line = w ∨ line = w ++ ['\n'] →
          run (String.ofList w) a.environment a.limit a.tree = .ok out →
            answer a (String.ofList line) = some (.ok out)) ∧
      ∀ x y, input = x ++ y → x.toList.getLast? = some '\n' →
        ∃ s, (transcript a x).stdout = s ++ "> " ∧ t.stdout = s ++ (transcript a y).stdout ∧
          t.stderr = (transcript a x).stderr ++ (transcript a y).stderr := by
  intro t
  obtain ⟨lines, h⟩ := exists_lines input.toList
  have ht : t = ⟨0, shownAll a lines ++ sign, reportedAll a lines⟩ := transcript_of_lines h
  refine ⟨fun s => runs_iff, by rw [ht], ⟨lines, h, by rw [ht]; rfl, by rw [ht]; rfl,
    fun line _ w out hline hrun => answer_of_run hline hrun⟩, ?_⟩
  rintro x y rfl hend
  exact transcript_append hend y

end Prompt

end Reckon
