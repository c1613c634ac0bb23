import Mathlib.Tactic

/-! The arithmetic macros of the kernel on 64-bit unsigned words. Values are natural
numbers; only the sums that the macros themselves form are reduced modulo the word size. -/
namespace PiggyOs

def pageSize : ℕ := 0x1000
def bigpageSize : ℕ := 0x200000

def divCeil (value div : ℕ) : ℕ := (value + (div - 1)) % 2 ^ 64 / div

def alignUp (value align : ℕ) : ℕ := divCeil value align * align % 2 ^ 64

def alignDown (value align : ℕ) : ℕ := value / align * align

theorem divCeil_eq {value div : ℕ} (h : value + (div - 1) < 2 ^ 64) :
    divCeil value div = (value + (div - 1)) / div := by
  rw [divCeil, Nat.mod_eq_of_lt h]

/-- Two ranges `(start, length)` share no address. -/
def Apart (x y : ℕ × ℕ) : Prop := x.1 + x.2 ≤ y.1 ∨ y.1 + y.2 ≤ x.1

instance (x y : ℕ × ℕ) : Decidable (Apart x y) := inferInstanceAs (Decidable (_ ∨ _))

lemma Apart.symm {x y : ℕ × ℕ} (h : Apart x y) : Apart y x := Or.symm h

end PiggyOs
