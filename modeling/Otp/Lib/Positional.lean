import Mathlib

/-!
# Positional notation

The value of a list of digits, most significant digit first, and the value of a list of
segments, least significant segment first.  A digit string has the value of its segments
in the radix that belongs to their length, and segments may be put together in pairs if the
radix is squared (`eval_pairs`).
-/

namespace Otp.Lib.Positional

/-! ## Digits, most significant first -/

/-- Reads further digits after a number. -/
def readFrom (b n : ℕ) (ds : List ℕ) : ℕ := ds.foldl (fun n d => n * b + d) n

def value (b : ℕ) (ds : List ℕ) : ℕ := readFrom b 0 ds

variable {b : ℕ}

theorem readFrom_eq (n : ℕ) (ds : List ℕ) : readFrom b n ds = n * b ^ ds.length + value b ds := by
  induction ds generalizing n with
  | nil => simp [readFrom, value]
  | cons d ds ih =>
    have hstep : ∀ n, readFrom b n (d :: ds) = readFrom b (n * b + d) ds := fun _ => rfl
    rw [value, hstep, hstep, ih, ih (0 * b + d), List.length_cons]
    ring

theorem value_append (xs ys : List ℕ) :
    value b (xs ++ ys) = value b xs * b ^ ys.length + value b ys := by
  rw [← readFrom_eq, value, readFrom, List.foldl_append]
  rfl

theorem value_cons (d : ℕ) (ds : List ℕ) : value b (d :: ds) = d * b ^ ds.length + value b ds := by
  rw [← List.singleton_append, value_append]
  simp [value, readFrom]

theorem value_zero_cons (ds : List ℕ) : value b (0 :: ds) = value b ds := by
  rw [value_cons, zero_mul, zero_add]

theorem value_lt {ds : List ℕ} (h : ∀ d ∈ ds, d < b) : value b ds < b ^ ds.length := by
  induction ds with
  | nil => simp [value, readFrom]
  | cons d ds ih =>
    obtain ⟨hd, hds⟩ := List.forall_mem_cons.1 h
    rw [value_cons, List.length_cons]
    calc d * b ^ ds.length + value b ds < d * b ^ ds.length + b ^ ds.length :=
          Nat.add_lt_add_left (ih hds) _
      _ = (d + 1) * b ^ ds.length := by ring
      _ ≤ b * b ^ ds.length := Nat.mul_le_mul_right _ hd
      _ = b ^ ds.length * b := Nat.mul_comm _ _

/-! ## Segments, least significant first -/

/-- The value of segments in a radix. -/
def eval (r : ℤ) : List ℤ → ℤ
  | [] => 0
  | s :: l => s + r * eval r l

theorem eval_append (r : ℤ) (l l' : List ℤ) :
    eval r (l ++ l') = eval r l + r ^ l.length * eval r l' := by
  induction l with
  | nil => simp [eval]
  | cons s l ih =>
    rw [List.cons_append, eval, ih, eval, List.length_cons]
    ring

/-- Neighbours put together. -/
def pairs (r : ℤ) : List ℤ → List ℤ
  | s :: t :: l => (t * r + s) :: pairs r l
  | l => l

theorem eval_pairs (r : ℤ) (l : List ℤ) : eval (r * r) (pairs r l) = eval r l := by
  induction l using pairs.induct with
  | case1 s t l ih =>
    rw [pairs, eval, eval, eval, ih]
    ring
  | case2 l h =>
    match l with
    | [] => rfl
    | [s] => simp [pairs, eval]
    | s :: t :: l => exact absurd rfl (h s t l)

theorem length_pairs (r : ℤ) (l : List ℤ) : (pairs r l).length = (l.length + 1) / 2 := by
  induction l using pairs.induct with
  | case1 s t l ih =>
    rw [pairs, List.length_cons, List.length_cons, List.length_cons]
    omega
  | case2 l h =>
    match l with
    | [] => rfl
    | [s] => simp [pairs]
    | s :: t :: l => exact absurd rfl (h s t l)

/-- The sum of the magnitudes, segment by segment. -/
def size (r : ℤ) (l : List ℤ) : ℤ := eval r (l.map fun s => |s|)

variable {r : ℤ}

theorem size_nonneg (hr : 0 ≤ r) (l : List ℤ) : 0 ≤ size r l := by
  induction l with
  | nil => exact le_rfl
  | cons s l ih => exact add_nonneg (abs_nonneg s) (mul_nonneg hr ih)

theorem size_append (l l' : List ℤ) : size r (l ++ l') = size r l + r ^ l.length * size r l' := by
  rw [size, List.map_append, eval_append, List.length_map]
  rfl

theorem size_cons (s : ℤ) (l : List ℤ) : size r (s :: l) = |s| + r * size r l := rfl

theorem abs_eval_le (hr : 0 ≤ r) (l : List ℤ) : |eval r l| ≤ size r l := by
  induction l with
  | nil => simp [eval, size]
  | cons s l ih =>
    refine (abs_add_le _ _).trans (add_le_add_right ?_ _)
    rw [abs_mul, abs_of_nonneg hr]
    exact mul_le_mul_of_nonneg_left ih hr

/-- Putting neighbours together does not add to the magnitudes. -/
theorem size_pairs_le (hr : 0 ≤ r) (l : List ℤ) : size (r * r) (pairs r l) ≤ size r l := by
  induction l using pairs.induct with
  | case1 s t l ih =>
    rw [pairs, size_cons, size_cons, size_cons]
    have habs : |t * r + s| ≤ |s| + r * |t| := by
      refine (abs_add_le _ _).trans ?_
      rw [abs_mul, abs_of_nonneg hr]
      linarith [mul_comm |t| r]
    have hrest := mul_le_mul_of_nonneg_left ih (mul_nonneg hr hr)
    linarith [mul_assoc r r (size r l)]
  | case2 l h =>
    match l with
    | [] => exact le_rfl
    | [s] => simp [pairs, size, eval]
    | s :: t :: l => exact absurd rfl (h s t l)

end Otp.Lib.Positional
