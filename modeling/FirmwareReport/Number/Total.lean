/-!
# Sums

Bytes and cycles are added up without a limit; what a total may not exceed is said where
it is used.
-/

namespace FirmwareReport

/-- The sum of some numbers. -/
def total (numbers : List Nat) : Nat :=
  numbers.foldr (· + ·) 0

@[simp] theorem total_nil : total [] = 0 := rfl

@[simp] theorem total_cons (n : Nat) (numbers : List Nat) :
    total (n :: numbers) = n + total numbers := rfl

@[simp] theorem total_append (numbers more : List Nat) :
    total (numbers ++ more) = total numbers + total more := by
  induction numbers with
  | nil => simp
  | cons n numbers ih => simp [ih, Nat.add_assoc]

/-- The order in which numbers are added up is of no account. -/
theorem total_eq_of_perm {numbers others : List Nat} (h : numbers.Perm others) :
    total numbers = total others := by
  induction h with
  | nil => rfl
  | cons n _ ih => rw [total_cons, total_cons, ih]
  | swap n m numbers =>
    simp only [total_cons]
    exact Nat.add_left_comm m n _
  | trans _ _ ih ih' => exact ih.trans ih'

end FirmwareReport
