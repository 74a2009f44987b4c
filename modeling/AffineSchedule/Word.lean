import AffineSchedule.Fault

namespace AffineSchedule

namespace Word

def least : Int := -9223372036854775808

def greatest : Int := 9223372036854775807

def Fits (value : Int) : Prop :=
  least ≤ value ∧ value ≤ greatest

instance (value : Int) : Decidable (Fits value) :=
  inferInstanceAs (Decidable (_ ∧ _))

def checked (value : Int) : Checked Int :=
  if Fits value then .ok value else .error .overflow

def add (a b : Int) : Checked Int := checked (a + b)

def sub (a b : Int) : Checked Int := checked (a - b)

def mul (a b : Int) : Checked Int := checked (a * b)

def neg (a : Int) : Checked Int := checked (-a)

def abs (a : Int) : Checked Int := checked a.natAbs

/-- The quotient rounded toward zero. -/
def quot (a b : Int) : Checked Int := checked (a.tdiv b)

/-- The remainder of the division toward zero. It is refused when the quotient does not fit, although
    the remainder itself would. -/
def rem (a b : Int) : Checked Int := do
  let _ ← quot a b
  return a.tmod b

/-- The representable integer that agrees with a value up to a multiple of the number of words. -/
def wrap (value : Int) : Int := value.bmod 18446744073709551616

theorem checked_ok_iff {value result : Int} :
    checked value = .ok result ↔ Fits value ∧ result = value := by
  unfold checked
  by_cases fits : Fits value
  · simp [fits, eq_comm]
  · simp [fits]

theorem wrap_of_fits {value : Int} (fits : Fits value) : wrap value = value := by
  obtain ⟨lower, upper⟩ := fits
  unfold least at lower
  unfold greatest at upper
  unfold wrap
  exact Int.bmod_eq_of_le (by omega) (by omega)

end Word

namespace Size

/-- The least number that is no word. -/
def limit : Nat := 18446744073709551616

/-- A length that no list reaches. -/
def unreachable : Nat := 1099511627776

def checked (value : Nat) : Checked Nat :=
  if value < limit then .ok value else .error .overflow

def add (a b : Nat) : Checked Nat := checked (a + b)

/-- The `count` positions from `start` on, if all of them are words. -/
def consecutive (start count : Nat) : Checked (List Nat) := (List.range count).mapM (add start)

/-- Succeeds if there can be a list of this length. -/
def reserve (count : Nat) : Checked Unit :=
  if count < unreachable then .ok () else .error .precondition

/-- Makes something with as many parts as `count` tells. -/
def make {α : Type} (build : Nat → α) (count : Nat) : Checked α := do
  reserve count
  return build count

/-- Makes something with two kinds of parts. -/
def makeWith {α : Type} (build : Nat → Nat → α) (first second : Nat) : Checked α := do
  reserve first
  reserve second
  return build first second

/-- A successful check delivers the value that was checked, and that value is a word. -/
theorem checked_ok_iff {value result : Nat} :
    checked value = .ok result ↔ value < limit ∧ result = value := by
  unfold checked
  by_cases fits : value < limit
  · simp [fits, eq_comm]
  · simp [fits]

theorem add_ok_iff {a b result : Nat} : add a b = .ok result ↔ a + b < limit ∧ result = a + b :=
  checked_ok_iff

theorem reserve_ok_iff {count : Nat} : reserve count = .ok () ↔ count < unreachable := by
  unfold reserve
  by_cases fits : count < unreachable <;> simp [fits]

/-- What is made is what the count alone would give. -/
theorem make_ok_iff {α : Type} {build : Nat → α} {count : Nat} {result : α} :
    make build count = .ok result ↔ count < unreachable ∧ result = build count := by
  unfold make reserve
  by_cases fits : count < unreachable
  · simp [fits, bind, Except.bind, pure, Except.pure, eq_comm]
  · simp [fits, bind, Except.bind]

end Size

namespace Word

def gcd (a b : Int) : Checked Int := checked (Int.gcd a b)

/-- The non-negative least common multiple. The divisor is formed on the way, so it has to fit too. -/
def lcm (a b : Int) : Checked Int := do
  let _ ← gcd a b
  checked (Int.lcm a b)

def gcdAll (values : List Int) : Checked Int := values.foldlM gcd 0

def lcmAll (values : List Int) : Checked Int := values.foldlM lcm 1

end Word

/-- A common divisor written as an integer combination: `a * left + b * right = gcd`. -/
structure Bezout where
  gcd : Int
  left : Int
  right : Int
deriving DecidableEq, Repr

/-- The extended Euclidean algorithm on `a` and `b`, with remainders toward zero. -/
def Bezout.compute (a b : Int) : Checked Bezout :=
  if b = 0 then do
    return { gcd := ← Word.abs a, left := a.sign, right := 0 }
  else do
    let _ ← Word.rem a b
    let inner ← Bezout.compute b (a.tmod b)
    let quotient ← Word.quot a b
    let correction ← Word.mul quotient inner.right
    return { gcd := inner.gcd, left := inner.right, right := ← Word.sub inner.left correction }
termination_by b.natAbs
decreasing_by
  -- the remainder is smaller than the divisor in absolute value
  rw [Int.natAbs_tmod]
  exact Nat.mod_lt _ (Int.natAbs_pos.mpr ‹¬b = 0›)

end AffineSchedule
