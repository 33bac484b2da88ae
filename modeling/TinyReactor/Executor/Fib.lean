import Mathlib.Data.Nat.Fib.Basic
import TinyReactor.Wire.JsonForm

/-!
# The built-in function

The constructor of `TaskExecutor` registers `fib`, a loop over two variables of type `int`. An addition whose result
an `int` cannot hold is undefined behaviour. The loop adds what it returns and nothing beyond, so that the first sum
that is too large is the first Fibonacci number that is.
-/

namespace TinyReactor.Executor

open Wire

/-- How a call of `fib` goes on: it is in its loop, it has ended, or its behaviour is undefined. -/
inductive FibState
  | running
  | returns (result : Json)
  | throws (what : String)
  | undefined

/-- `left + right` for values of type `int`, unless it overflows. -/
def addInt? (left right : ℤ) : Option ℤ :=
  if IntegerType.int32.Fits (left + right) then some (left + right) else none

def resultOf (value : Json) : Json := .object [("result", value)]

/-- At most `fuel` passes of the loop; `cancelled` is what the load of the flag gives in each pass. -/
def fibLoop (cancelled : ℤ → Bool) (n : ℤ) : ℕ → ℤ → ℤ → ℤ → FibState
  | 0, _, _, _ => .running
  | fuel + 1, a, b, i =>
      if i ≤ n then
        if cancelled i then .returns (resultOf (.string "cancelled"))
        else
          match addInt? a b, addInt? i 1 with
          | some c, some i' => fibLoop cancelled n fuel b c i'
          | _, _ => .undefined
      else .returns (resultOf (.integer (Int64.ofInt b)))

/-- `params.value("n", 0)`. -/
def fibParam : Json → Except Failure Int32
  | .object members => (members.lookup "n").elim (.ok 0) getInt32
  | other => .error (.typeError ("[json.exception.type_error.306] cannot use value() with " ++ other.typeName))

/-- The function registered as `fib`. -/
def fib (params : Json) (cancelled : ℤ → Bool) (fuel : ℕ) : FibState :=
  match fibParam params with
  | .error (.outOfRange what) => .throws what
  | .error (.typeError what) => .throws what
  | .error .undefined => .undefined
  | .ok n =>
      if n < 0 then .throws "Negative input for fib"
      else if n ≤ 1 then .returns (resultOf (.integer (Int64.ofInt n.toInt)))
      else fibLoop cancelled n.toInt fuel 0 1 2

/-! ## The loop -/

section

variable {n : ℤ} {k fuel : ℕ}

theorem fits_int32_iff {value : ℤ} :
    IntegerType.int32.Fits value ↔ -2147483648 ≤ value ∧ value < 2147483648 := by
  simp only [IntegerType.Fits, IntegerType.int32]
  omega

/-- The last Fibonacci number that an `int` holds is the 46th. -/
theorem fits_fib_iff : IntegerType.int32.Fits (Nat.fib k) ↔ k ≤ 46 := by
  have hlast : Nat.fib 46 = 1836311903 := by decide +kernel
  have hnext : Nat.fib 47 = 2971215073 := by decide +kernel
  rw [fits_int32_iff]
  constructor
  · intro hfits
    by_contra hlarge
    have hle : Nat.fib 47 ≤ Nat.fib k := Nat.fib_mono (Nat.lt_of_not_le hlarge)
    omega
  · intro hk
    have hle : Nat.fib k ≤ Nat.fib 46 := Nat.fib_mono hk
    omega

theorem addInt?_fib :
    addInt? (Nat.fib k) (Nat.fib (k + 1)) = if k + 2 ≤ 46 then some (Nat.fib (k + 2) : ℤ) else none := by
  have hadd : (Nat.fib k : ℤ) + Nat.fib (k + 1) = Nat.fib (k + 2) := by
    exact_mod_cast Nat.fib_add_two.symm
  rw [addInt?, hadd]
  exact if_congr fits_fib_iff rfl rfl

/-- A pass adds the next Fibonacci number, as long as an `int` holds it. -/
theorem fibLoop_step (hn : (k + 2 : ℤ) ≤ n) (hk : k + 2 ≤ 46) :
    fibLoop (fun _ ↦ false) n (fuel + 1) (Nat.fib k) (Nat.fib (k + 1)) (k + 2) =
      fibLoop (fun _ ↦ false) n fuel (Nat.fib (k + 1)) (Nat.fib (k + 2)) (k + 2 + 1) := by
  have hcounter : addInt? (k + 2) 1 = some (k + 2 + 1 : ℤ) := if_pos (fits_int32_iff.mpr (by omega))
  rw [fibLoop, if_pos hn, addInt?_fib, if_pos hk, hcounter]
  rfl

/-- The passes up to the one in which the counter is `k + 2`. -/
theorem fibLoop_advance (hn : (k + 1 : ℤ) ≤ n) (hk : k + 1 ≤ 46) :
    fibLoop (fun _ ↦ false) n (fuel + k) 0 1 2 =
      fibLoop (fun _ ↦ false) n fuel (Nat.fib k) (Nat.fib (k + 1)) (k + 2) := by
  induction k generalizing fuel with
  | zero => rfl
  | succ k ih =>
    have hnext : ((k + 1 : ℕ) : ℤ) = k + 1 := Int.natCast_succ k
    rw [hnext] at hn
    calc
      fibLoop (fun _ ↦ false) n (fuel + (k + 1)) 0 1 2 = fibLoop (fun _ ↦ false) n (fuel + 1 + k) 0 1 2 := by
        rw [Nat.add_assoc, Nat.add_comm 1 k]
      _ = fibLoop (fun _ ↦ false) n (fuel + 1) (Nat.fib k) (Nat.fib (k + 1)) (k + 2) := ih (by omega) (by omega)
      _ = fibLoop (fun _ ↦ false) n fuel (Nat.fib (k + 1)) (Nat.fib (k + 2)) (k + 2 + 1) :=
        fibLoop_step (by omega) (by omega)
      _ = fibLoop (fun _ ↦ false) n fuel (Nat.fib (k + 1)) (Nat.fib (k + 1 + 1)) ((k + 1 : ℕ) + 2) := by
        rw [hnext, Int.add_right_comm]

/-- What the loop returns, if no sum is too large. -/
theorem fibLoop_eq_returns (hn : 2 ≤ n) (hsmall : n ≤ 46) (hfuel : n ≤ fuel) :
    fibLoop (fun _ ↦ false) n fuel 0 1 2 = .returns (resultOf (.integer (Int64.ofInt (Nat.fib n.toNat)))) := by
  obtain ⟨k, rfl⟩ : ∃ k : ℕ, n = k + 1 := ⟨(n - 1).toNat, by omega⟩
  obtain ⟨rest, rfl⟩ : ∃ rest, fuel = rest + 1 + k := ⟨fuel - 1 - k, by omega⟩
  have hnat : ((k : ℤ) + 1).toNat = k + 1 := by omega
  rw [fibLoop_advance (by omega) (by omega), fibLoop, if_neg (by omega), hnat]

/-- Otherwise it reaches a sum that is. -/
theorem fibLoop_eq_undefined (hn : 47 ≤ n) :
    fibLoop (fun _ ↦ false) n fuel 0 1 2 = if fuel ≤ 45 then .running else .undefined := by
  split
  · rename_i hfuel
    have hadvance := @fibLoop_advance n fuel 0 (by omega) (by omega)
    rw [Nat.zero_add] at hadvance
    rw [hadvance, fibLoop]
  · rename_i hfuel
    obtain ⟨rest, rfl⟩ : ∃ rest, fuel = rest + 1 + 45 := ⟨fuel - 46, by omega⟩
    rw [fibLoop_advance (by omega) (by omega), fibLoop, if_pos (by exact hn), addInt?_fib, if_neg (by decide)]
    rfl

end

theorem fib_of_param {params : Json} {n : Int32} (hparam : fibParam params = .ok n) (hn : 0 ≤ n.toInt)
    (cancelled : ℤ → Bool) (fuel : ℕ) :
    fib params cancelled fuel =
      if n.toInt ≤ 1 then .returns (resultOf (.integer (Int64.ofInt n.toInt)))
      else fibLoop cancelled n.toInt fuel 0 1 2 := by
  have hnegative : ¬n < 0 := by
    rw [Int32.lt_iff_toInt_lt]
    exact Int.not_lt.mpr hn
  simp only [fib, hparam, if_neg hnegative]
  exact if_congr Int32.le_iff_toInt_le rfl rfl

theorem natCast_fib_toNat {n : ℤ} (hn : 0 ≤ n) (hsmall : n ≤ 1) : (Nat.fib n.toNat : ℤ) = n := by
  obtain rfl | rfl : n = 0 ∨ n = 1 := by omega
  · rfl
  · rfl

/-- For every `n` that is not negative the function ends, unless its behaviour is undefined. It returns the `n`-th
Fibonacci number exactly for `n` up to 46, and from 47 on a sum overflows. -/
theorem fib_correct_iff (params : Json) (n : Int32) (hparam : fibParam params = .ok n) (hn : 0 ≤ n.toInt) :
    (∀ fuel : ℕ, n.toInt ≤ fuel → fib params (fun _ ↦ false) fuel ≠ .running) ∧
      ((∃ fuel, fib params (fun _ ↦ false) fuel =
          .returns (resultOf (.integer (Int64.ofInt (Nat.fib n.toInt.toNat))))) ↔ n.toInt ≤ 46) := by
  simp only [fib_of_param hparam hn]
  by_cases hfirst : n.toInt ≤ 1
  · simp only [if_pos hfirst, natCast_fib_toNat hn hfirst]
    exact ⟨fun _ _ ↦ by rintro ⟨⟩, iff_of_true ⟨0, trivial⟩ (by omega)⟩
  · simp only [if_neg hfirst]
    rcases Int.lt_or_le 46 n.toInt with hlarge | hsmall
    · simp only [fibLoop_eq_undefined (show 47 ≤ n.toInt by omega)]
      constructor
      · intro fuel hfuel
        rw [if_neg (by omega)]
        rintro ⟨⟩
      · refine iff_of_false ?_ (by omega)
        rintro ⟨fuel, hreturns⟩
        split at hreturns <;> cases hreturns
    · have hreturns {fuel : ℕ} (hfuel : n.toInt ≤ fuel) := fibLoop_eq_returns (by omega) hsmall hfuel
      refine ⟨fun fuel hfuel ↦ ?_, iff_of_true ⟨n.toInt.toNat, hreturns (by omega)⟩ hsmall⟩
      rw [hreturns hfuel]
      rintro ⟨⟩

theorem fib_correct_iff_ten :
    fibParam (.object [("n", .integer 10)]) = .ok 10 ∧ 0 ≤ (10 : Int32).toInt ∧
      ∃ fuel, fib (.object [("n", .integer 10)]) (fun _ ↦ false) fuel = .returns (resultOf (.integer 55)) := by
  have hparam : fibParam (.object [("n", .integer 10)]) = .ok 10 := rfl
  have hn : 0 ≤ (10 : Int32).toInt := by decide
  exact ⟨hparam, hn, (fib_correct_iff _ 10 hparam hn).2.mpr (by decide)⟩

/-- The 47th Fibonacci number does not fit: whatever the number of passes, the function never returns it. -/
theorem fib_overflows :
    fib (.object [("n", .integer 47)]) (fun _ ↦ false) 47 = .undefined ∧
      ∀ fuel result, fib (.object [("n", .integer 47)]) (fun _ ↦ false) fuel ≠ .returns result := by
  have hparam : fibParam (.object [("n", .integer 47)]) = .ok 47 := rfl
  have hfib (fuel : ℕ) : fib (.object [("n", .integer 47)]) (fun _ ↦ false) fuel =
      if fuel ≤ 45 then .running else .undefined := by
    rw [fib_of_param hparam (by decide), if_neg (by decide)]
    exact fibLoop_eq_undefined (by decide)
  refine ⟨hfib 47, fun fuel result hreturns ↦ ?_⟩
  rw [hfib] at hreturns
  split at hreturns <;> cases hreturns

end TinyReactor.Executor
