import Mathlib.Algebra.Ring.Nat
import Mathlib.Data.List.Basic

/-!
# Bytes, strings and counters

The data every part of the cache shares. A `std::string` is a byte list; where its capacity
counts, it is a `Str`. A `size_t` counter is a natural number: the sizes it adds up are those of
objects that live in one address space, so their sums stay below `2 ^ 64`. Its subtractions are
the machine's, since only a slip in the bookkeeping could make one wrap.
-/

namespace PolyCache

abbrev Bytes := List UInt8

/-- The bytes of a string literal. -/
def ascii (s : String) : Bytes := s.toList.map fun c => UInt8.ofNat c.toNat

abbrev CR : UInt8 := 13
abbrev LF : UInt8 := 10
abbrev CRLF : Bytes := [CR, LF]

/-- A string with the capacity of its buffer. -/
structure Str where
  bytes : Bytes
  capacity : Nat
  size_le : bytes.length ≤ capacity
  deriving DecidableEq

def Str.size (s : Str) : Nat := s.bytes.length

/-- A `size_t` counter. `wrapped` is a ghost: some subtraction took away more than was there. -/
structure Counter where
  val : Nat := 0
  wrapped : Bool := false
  deriving DecidableEq, Repr

namespace Counter

def add (c : Counter) (n : Nat) : Counter := { c with val := c.val + n }

def sub (c : Counter) (n : Nat) : Counter :=
  if n ≤ c.val then { c with val := c.val - n }
  else { val := c.val + 2 ^ 64 - n, wrapped := true }

/-- A counter that holds `n` and never wrapped. -/
def exact (n : Nat) : Counter := { val := n }

@[simp] theorem exact_val (n : Nat) : (exact n).val = n := rfl
@[simp] theorem exact_wrapped (n : Nat) : (exact n).wrapped = false := rfl
@[simp] theorem exact_add (n m : Nat) : (exact n).add m = exact (n + m) := rfl

theorem exact_sub {n m : Nat} (h : m ≤ n) : (exact n).sub m = exact (n - m) := by
  simp [sub, exact, h]

end Counter

end PolyCache
