/-!
Byte ranges into a text.
-/

namespace Formulae

/-- The bytes from `start` up to and without `stop`. -/
structure Span where
  start : Nat
  stop : Nat
  deriving DecidableEq, Repr, Inhabited

namespace Span

/-- The empty range at `offset`. -/
def point (offset : Nat) : Span := ⟨offset, offset⟩

/-- The smallest range over both. -/
def merge (a b : Span) : Span := ⟨min a.start b.start, max a.stop b.stop⟩

def size (s : Span) : Nat := s.stop - s.start

def isEmpty (s : Span) : Bool := s.start == s.stop

/-- The range moved `offset` bytes to the right. -/
def shift (offset : Nat) (s : Span) : Span := ⟨s.start + offset, s.stop + offset⟩

def text (s : Span) : String := toString s.start ++ ".." ++ toString s.stop

@[simp] theorem merge_self (s : Span) : s.merge s = s := by simp [merge]

theorem merge_comm (a b : Span) : a.merge b = b.merge a := by
  simp [merge, Nat.min_comm, Nat.max_comm]

theorem merge_assoc (a b c : Span) : (a.merge b).merge c = a.merge (b.merge c) := by
  simp [merge, Nat.min_assoc, Nat.max_assoc]

theorem shift_merge (offset : Nat) (a b : Span) :
    (a.merge b).shift offset = (a.shift offset).merge (b.shift offset) := by
  simp [merge, shift, Nat.add_min_add_right, Nat.add_max_add_right]

end Span

end Formulae
