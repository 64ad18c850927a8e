import FirmwareReport.Log
import FirmwareReport.Proofs.Text.Blank
import FirmwareReport.Proofs.Text.Search

/-!
# Reading a result as it is printed

The recognisers of `FirmwareReport.Log.Result` look for the shortest runs in front of what they
accept. This file follows them over a result that is written out, whatever stands behind it:

* a run is found whole, if what is accepted behind it is accepted nowhere inside
  (`FirmwareReport.Text.shortestRun?_append`);
* the closing clause is read back from its digits (`FirmwareReport.Log.clause?_clauseText`);
* the algorithm ends where its `: ` was printed and the operation where its clause was printed
  (`FirmwareReport.Log.Printout.IsReadable.untagged?_body`).

What is delicate is the place where a name meets the literal behind it. `: ` cannot begin inside
the algorithm and end in the printed `: `, but ` took ` can: an operation may end in ` took`, and
then the first ` took ` of the line is not that of the clause. The clause is still the first, as
no digit stands behind that first ` took `.
-/

namespace FirmwareReport

/-! ### Runs in front of what is accepted -/

namespace Text

/-- **A run is found whole** if nothing is accepted at any character of it. -/
theorem shortestRun?_append {α : Type} {accept : List Char → Option α} {run rest : List Char}
    {a : α} (hrun : '\n' ∉ run) (hrest : accept rest = some a)
    (hnone : ∀ back, back <:+ run → back ≠ [] → accept (back ++ rest) = none) :
    shortestRun? accept (run ++ rest) = some (run, a) := by
  induction run with
  | nil =>
    cases rest with
    | nil => simp [shortestRun?, hrest]
    | cons c rest => simp [shortestRun?, hrest]
  | cons c run ih =>
    obtain ⟨hc, hrun⟩ : '\n' ≠ c ∧ '\n' ∉ run := by simpa using hrun
    have hfront := hnone (c :: run) List.suffix_rfl (List.cons_ne_nil c run)
    have ih := ih hrun fun back hback => hnone back (hback.trans (List.suffix_cons c run))
    rw [List.cons_append] at hfront ⊢
    rw [shortestRun?, hfront, ih]
    simp [hc.symm]

/-- A literal that begins in front of a copy of itself ends in front of it, or it overlaps the copy
in a **border**: an end of the literal that is also its beginning. -/
theorem isPrefix_append_self {literal back rest : List Char}
    (h : literal <+: back ++ (literal ++ rest)) :
    literal <+: back ∨
      ∃ k < literal.length, back = literal.take k ∧ literal.drop k <+: literal := by
  -- If the literal is longer than what stands in front of its copy, it reaches into the copy.
  rcases Nat.lt_or_ge back.length literal.length with hlt | hle
  · have hback : back <+: literal :=
      List.prefix_of_prefix_length_le (List.prefix_append back _) h hlt.le
    obtain ⟨overlap, rfl⟩ := hback
    have hoverlap : overlap <+: (back ++ overlap) ++ rest := (List.prefix_append_right_inj back).1 h
    refine Or.inr ⟨back.length, hlt, by simp, ?_⟩
    rw [List.drop_left]
    exact List.prefix_of_prefix_length_le hoverlap (List.prefix_append _ rest) (by simp)
  · exact Or.inl (List.prefix_of_prefix_length_le h (List.prefix_append back _) hle)

end Text

namespace Log

open Text

/-! ### The closing clause -/

/-- **Digits that write a number**: decimal ones, one at least, with a value below the word limit.
Zeros may stand in front. -/
structure Writes (digits : List Char) (n : Nat) : Prop where
  ne_nil : digits ≠ []
  all_isDigitOf : digits.all (isDigitOf 10) = true
  word?_eq : word? 10 digits = some n

variable {cycles stack rest : List Char} {n m : Nat}

theorem Writes.digits?_append {digits : List Char} (h : Writes digits n)
    (hrest : StopsAt (isDigitOf 10) rest) : digits? (digits ++ rest) = some (digits, rest) := by
  obtain ⟨htake, hdrop⟩ := span_iff.2 ⟨rfl, h.all_isDigitOf, hrest⟩
  rw [digits?, htake, hdrop]
  simp [h.ne_nil]

/-- **A clause is read back** from its digits. -/
theorem clause?_clauseText (hcycles : Writes cycles n) (hstack : Writes stack m) :
    clause? (clauseText cycles stack ++ rest) = some (cycles, stack, rest) := by
  have hlabel : StopsAt (isDigitOf 10)
      (" cycles, Stack: ".toList ++ (stack ++ (" bytes".toList ++ rest))) :=
    stopsAt_cons.2 (by decide)
  have hunit : StopsAt (isDigitOf 10) (" bytes".toList ++ rest) := stopsAt_cons.2 (by decide)
  rw [clause?, clauseText]
  simp only [List.append_assoc, after?_append, hcycles.digits?_append hlabel,
    hstack.digits?_append hunit, Option.bind_eq_bind, Option.bind_some, Option.pure_def]

/-- **No clause stands inside the operation.** The first ` took ` may begin there, if the operation
ends in ` took`, but what follows it is not a digit. -/
theorem clause?_append_clauseText {back : List Char} (hback : back ≠ [])
    (htook : ¬" took ".toList <:+: back) :
    clause? (back ++ (clauseText cycles stack ++ rest)) = none := by
  have hborder : ∀ k < " took ".toList.length, " took ".toList.drop k <+: " took ".toList →
      k = 0 ∨ k = 5 := by decide
  rw [clause?, clauseText, List.append_assoc]
  cases hafter : after? " took ".toList (back ++ (" took ".toList ++ _)) with
  | none => rfl
  | some s =>
    have hs := after?_eq_some_iff.1 hafter
    rcases isPrefix_append_self ⟨s, hs.symm⟩ with hpre | ⟨k, hk, rfl, hdrop⟩
    · exact absurd hpre.isInfix htook
    · rcases hborder k hk hdrop with rfl | rfl
      · exact absurd rfl hback
      · -- The operation ends in ` took`, and `took` follows where a digit should.
        obtain rfl : "took ".toList ++ _ = s := by simpa using hs
        rfl

/-! ### A printed result -/

/-- **A result as it is printed**: the record, and everything a reader has to look past. -/
structure Printout where
  record : Record
  /-- What stands behind each copy of the tag. -/
  gaps : List (List Char)
  /-- The digits of the cycle count. -/
  cycles : List Char
  /-- The digits of the stack size. -/
  stack : List Char
  /-- What stands behind the clause. -/
  trailing : List Char

namespace Printout

/-- The text behind the tags. -/
def body (printout : Printout) : List Char :=
  printout.record.algorithm.toList ++ (": ".toList ++ (printout.record.operation.toList ++
    (clauseText printout.cycles printout.stack ++ printout.trailing)))

/-- Copies of the tag, with a gap behind each. -/
def tags (tag : Tag) (gaps : List (List Char)) : List Char :=
  gaps.flatMap (tag.text ++ ·)

/-- **The text of a line**: the tags and what stands behind them. -/
def text (tag : Tag) (printout : Printout) : List Char :=
  tags tag printout.gaps ++ printout.body

/-- The result as it stands in the text. -/
def result (printout : Printout) : Result where
  algorithm := printout.record.algorithm.toList
  operation := printout.record.operation.toList
  cycles := printout.cycles
  stack := printout.stack

/-- **What makes a result readable.** One copy of the tag at least stands in front, with white
space behind each copy; neither name holds the literal that ends it, a line break, or white space
at its ends; the digits write the numbers; and the tag does not stand in the rest of the line.
Nothing more is asked of what trails. -/
structure IsReadable (tag : Tag) (printout : Printout) : Prop where
  gaps_ne_nil : printout.gaps ≠ []
  isAllBlank_of_mem_gaps : ∀ gap ∈ printout.gaps, isAllBlank gap = true
  newline_notMem_algorithm : '\n' ∉ printout.record.algorithm.toList
  newline_notMem_operation : '\n' ∉ printout.record.operation.toList
  trim_algorithm : trim printout.record.algorithm.toList = printout.record.algorithm.toList
  trim_operation : trim printout.record.operation.toList = printout.record.operation.toList
  colon_not_isInfix : ¬": ".toList <:+: printout.record.algorithm.toList
  took_not_isInfix : ¬" took ".toList <:+: printout.record.operation.toList
  cycles_writes : Writes printout.cycles printout.record.cycles
  stack_writes : Writes printout.stack printout.record.stack
  tag_not_isInfix_body : ¬tag.text <:+: printout.body

namespace IsReadable

variable {tag : Tag} {printout : Printout}

/-- The names and numbers of the result are those of the record. -/
theorem record?_result (h : printout.IsReadable tag) :
    printout.result.record? = some printout.record := by
  simp only [Result.record?, result, h.cycles_writes.word?_eq, h.stack_writes.word?_eq,
    h.trim_algorithm, h.trim_operation, String.ofList_toList, Option.bind_eq_bind,
    Option.bind_some, Option.pure_def]

/-- The operation ends where its clause was printed. -/
theorem shortestRun?_operation (h : printout.IsReadable tag) (rest : List Char) :
    shortestRun? clause? (printout.record.operation.toList ++
      (clauseText printout.cycles printout.stack ++ rest)) =
        some (printout.record.operation.toList, printout.cycles, printout.stack, rest) := by
  refine shortestRun?_append h.newline_notMem_operation
    (clause?_clauseText h.cycles_writes h.stack_writes) fun back hback hne => ?_
  exact clause?_append_clauseText hne fun htook =>
    h.took_not_isInfix (htook.trans hback.isInfix)

/-- The algorithm ends where its `: ` was printed. -/
theorem shortestRun?_algorithm (h : printout.IsReadable tag) (rest : List Char) :
    shortestRun? (after? ": ".toList) (printout.record.algorithm.toList ++ (": ".toList ++ rest)) =
      some (printout.record.algorithm.toList, rest) := by
  have hborder : ∀ k < ": ".toList.length, ": ".toList.drop k <+: ": ".toList → k = 0 := by decide
  refine shortestRun?_append h.newline_notMem_algorithm (after?_append _ rest)
    fun back hback hne => after?_eq_none_iff.2 fun hpre => ?_
  rcases isPrefix_append_self hpre with hpre | ⟨k, hk, rfl, hdrop⟩
  · exact h.colon_not_isInfix (hpre.isInfix.trans hback.isInfix)
  · obtain rfl := hborder k hk hdrop
    exact hne rfl

/-- **A printed result is read back**, whatever follows the line. -/
theorem untagged?_body (h : printout.IsReadable tag) (rest : List Char) :
    untagged? (printout.body ++ rest) = some (printout.result, printout.trailing ++ rest) := by
  simp only [untagged?, body, List.append_assoc, h.shortestRun?_algorithm,
    h.shortestRun?_operation, Option.bind_eq_bind, Option.bind_some, Option.pure_def, result]

/-- The text behind the tags begins with no white space: with an algorithm without white space
at its ends, or with a colon. -/
theorem stopsAt_body (h : printout.IsReadable tag) (rest : List Char) :
    StopsAt isBlank (printout.body ++ rest) := by
  have halgorithm := stopsAt_of_trim_eq h.trim_algorithm
  rw [body]
  cases hname : printout.record.algorithm.toList with
  | nil => exact stopsAt_cons.2 (by decide)
  | cons c name =>
    rw [hname] at halgorithm
    exact stopsAt_cons.2 (stopsAt_cons.1 halgorithm)

end IsReadable

end Printout

end Log

end FirmwareReport
