import Mathlib.Data.List.Basic

/-!
A stack of unlimited depth of which only the most recent entries are retained, as many as a
capacity allows. Entries that were forgotten stay in the stack: they are popped in their turn, with
no answer.
-/

set_option autoImplicit false
set_option relaxedAutoImplicit false

namespace Emu68.Lib

/-- The entries from the top on, and how many of them are retained. -/
structure RecentEntries (α : Type*) where
  all : List α
  retained : ℕ
  retained_le : retained ≤ all.length

namespace RecentEntries

variable {α : Type*} {capacity : ℕ}

def reset : RecentEntries α := ⟨[], 0, Nat.le_refl _⟩

def push (capacity : ℕ) (s : RecentEntries α) (x : α) : RecentEntries α :=
  ⟨x :: s.all, min capacity (s.retained + 1),
    Nat.le_trans (Nat.min_le_right _ _) (Nat.succ_le_succ s.retained_le)⟩

/-- The last entry that was not popped yet, if it is retained, and the stack without it. -/
def pop (s : RecentEntries α) : Option α × RecentEntries α :=
  (if 0 < s.retained then s.all.head? else none,
    ⟨s.all.tail, s.retained - 1, by
      rw [List.length_tail]
      exact Nat.sub_le_sub_right s.retained_le 1⟩)

def contents (s : RecentEntries α) : List α := s.all.take s.retained

theorem contents_reset : (reset : RecentEntries α).contents = [] := rfl

/-- Pushing forgets the oldest retained entry when there is no room left. -/
theorem contents_push (h : 0 < capacity) (s : RecentEntries α) (x : α) :
    (s.push capacity x).contents = (x :: s.contents).take capacity := by
  obtain ⟨k, rfl⟩ : ∃ k, capacity = k + 1 := ⟨capacity - 1, by omega⟩
  simp only [contents, push, Nat.add_min_add_right, List.take_succ_cons, List.take_take]

theorem pop_fst (s : RecentEntries α) : s.pop.1 = s.contents.head? := by
  obtain ⟨all, retained, hle⟩ := s
  cases retained with
  | zero => rfl
  | succ k =>
    cases all with
    | nil => rfl
    | cons x rest => rfl

theorem contents_pop (s : RecentEntries α) : s.pop.2.contents = s.contents.tail := by
  obtain ⟨all, retained, hle⟩ := s
  cases retained with
  | zero => rfl
  | succ k =>
    cases all with
    | nil => exact absurd hle (Nat.not_succ_le_zero k)
    | cons x rest => rfl

end RecentEntries

end Emu68.Lib
