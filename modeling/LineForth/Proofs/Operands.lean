import Mathlib.Data.List.Basic
import LineForth.Language.Primitive

/-!
# Operands

A primitive has a fixed number of operands (`Primitive.arity`), and it underflows exactly when the
stack has fewer cells than that.

What an underflow leaves of the stack depends on when the cells are counted (`Primitive.Demands`).
The words that move cells about count them first, and leave them where they are.  The words that
compute from two operands pop one and then the other (`Primitive.popsInTurn`): a cell that is alone
on the stack is gone by the time that the other is found to be missing.
-/

namespace LineForth

namespace Stack

/-- The stack without its cells. -/
def emptied (s : Stack) : Stack := { s with cells := [] }

@[simp]
theorem values_push (s : Stack) (c : Cell) : (s.push c).values = s.values ++ [c] := by
  simp [values, push]

@[simp]
theorem values_pushAll (cs : List Cell) (s : Stack) : (s.pushAll cs).values = s.values ++ cs := by
  unfold pushAll
  induction cs generalizing s with
  | nil => exact (List.append_nil _).symm
  | cons c cs ih => rw [List.foldl_cons, ih, values_push, List.append_assoc, List.singleton_append]

theorem emptied_of_depth {s : Stack} (h : s.depth = 0) : s.emptied = s := by
  rw [emptied, ← List.length_eq_zero_iff.1 h]

end Stack

namespace Primitive

/-- How many cells a primitive takes from the stack. -/
def arity : Primitive → Nat
  | .dotS => 0
  | .dot | .emit | .dup | .drop | .spaces => 1
  | .add | .mul | .div | .divMod | .mod | .eq | .lt | .gt | .swap | .over => 2
  | .rot => 3

/-- Whether a primitive pops its operands without counting them first. -/
def popsInTurn : Primitive → Bool
  | .add | .mul | .div | .divMod | .mod | .eq | .lt | .gt => true
  | _ => false

/-- The word underflows on the stacks that are not `n` cells deep, and on no others; `left` is what
it makes of them. -/
def Demands (n : Nat) (left : Stack → Stack) (run : Stack → Effect) : Prop :=
  ∀ s, ((run s).2 = .error .stackUnderflow ↔ s.depth < n) ∧ (s.depth < n → (run s).1 = left s)

section Shapes

theorem unary_demands {op : Cell → Except Failure Text}
    (hop : ∀ c, op c ≠ .error .stackUnderflow) : Demands 1 id (unary op) := by
  rintro ⟨_ | ⟨c, cs⟩, touched⟩
  · simp [unary, Stack.pop?, Stack.depth]
  · simp [unary, Stack.pop?, Stack.depth, hop c]

/-- The first operand is popped before the second is missed. -/
theorem binary_demands {op : Cell → Cell → Except Failure (List Cell)}
    (hop : ∀ a b, op a b ≠ .error .stackUnderflow) : Demands 2 Stack.emptied (binary op) := by
  rintro ⟨_ | ⟨b, _ | ⟨a, cs⟩⟩, touched⟩
  · simp [binary, Stack.pop?, Stack.depth, Stack.emptied]
  · simp [binary, Stack.pop?, Stack.depth, Stack.emptied]
  · have hdeep : ¬ cs.length + 1 + 1 < 2 := by omega
    have hne := hop a b
    rcases hr : op a b with f | results
    · rw [hr] at hne
      simpa [binary, Stack.pop?, Stack.depth, hr, hdeep] using hne
    · simp [binary, Stack.pop?, Stack.depth, hr, hdeep]

theorem rearrange_demands {n : Nat} {op : List Cell → Option (List Cell)}
    (hop : ∀ cs, op cs = none ↔ cs.length < n) : Demands n id (rearrange op) := by
  intro s
  rw [Stack.depth, ← hop s.cells]
  rcases hc : op s.cells with _ | cs <;> simp [rearrange, hc]

theorem compute_demands (op : Cell → Cell → Cell) : Demands 2 Stack.emptied (compute op) :=
  binary_demands fun a b => by simp

theorem relate_demands (op : Cell → Cell → Bool) : Demands 2 Stack.emptied (relate op) :=
  binary_demands fun a b => by simp

theorem divide_demands (op : Cell → Cell → List Cell) : Demands 2 Stack.emptied (divide op) :=
  binary_demands fun a b => by split_ifs <;> simp

theorem spacesText_ne (c : Cell) : spacesText c ≠ .error .stackUnderflow := by
  unfold spacesText
  split_ifs <;> simp

end Shapes

/-- What an underflow of the word makes of a stack. -/
def afterUnderflow (p : Primitive) : Stack → Stack := if p.popsInTurn then Stack.emptied else id

theorem run_demands : ∀ p : Primitive, Demands p.arity p.afterUnderflow p.run
  | .dotS => fun s => by simp [run, arity]
  | .dot => unary_demands fun c => by simp
  | .emit => unary_demands fun c => by simp
  | .spaces => unary_demands spacesText_ne
  | .add => compute_demands _
  | .mul => compute_demands _
  | .eq => relate_demands _
  | .lt => relate_demands _
  | .gt => relate_demands _
  | .div => divide_demands _
  | .divMod => divide_demands _
  | .mod => divide_demands _
  | .dup => rearrange_demands fun cs => by
    rcases cs with _ | ⟨a, cs⟩ <;> simp [arity]
  | .drop => rearrange_demands fun cs => by
    rcases cs with _ | ⟨a, cs⟩ <;> simp [arity]
  | .swap => rearrange_demands fun cs => by
    rcases cs with _ | ⟨b, _ | ⟨a, cs⟩⟩ <;> simp [arity]
  | .over => rearrange_demands fun cs => by
    rcases cs with _ | ⟨b, _ | ⟨a, cs⟩⟩ <;> simp [arity]
  | .rot => rearrange_demands fun cs => by
    rcases cs with _ | ⟨c, _ | ⟨b, _ | ⟨a, cs⟩⟩⟩ <;> simp [arity]

theorem arity_of_popsInTurn {p : Primitive} (h : p.popsInTurn) : p.arity = 2 := by
  revert h
  cases p <;> decide

/-- A primitive underflows exactly when it has too few operands.  It leaves the stack as it was,
unless it pops its operands in turn and there is a single cell: then that cell is lost. -/
theorem underflow_effect (p : Primitive) (s : Stack) :
    ((p.run s).2 = .error .stackUnderflow ↔ s.depth < p.arity)
      ∧ ((p.run s).2 = .error .stackUnderflow → p.popsInTurn = false ∨ s.depth ≠ 1 →
        (p.run s).1 = s)
      ∧ (p.popsInTurn → s.depth = 1 →
        (p.run s).2 = .error .stackUnderflow ∧ (p.run s).1.values = []) := by
  obtain ⟨hunderflow, hstack⟩ := run_demands p s
  refine ⟨hunderflow, fun hunder hkeep => ?_, fun hturn hone => ?_⟩
  · have hfew := hunderflow.1 hunder
    rw [hstack hfew, afterUnderflow]
    split_ifs with hturn
    · have hone : s.depth ≠ 1 := by simpa [hturn] using hkeep
      rw [arity_of_popsInTurn hturn] at hfew
      exact Stack.emptied_of_depth (by omega)
    · rfl
  · have hfew : s.depth < p.arity := by
      rw [arity_of_popsInTurn hturn]
      omega
    refine ⟨hunderflow.2 hfew, ?_⟩
    rw [hstack hfew, afterUnderflow, if_pos hturn]
    rfl

/-- The only cell on the stack does not survive a sum that cannot be made. -/
theorem lone_operand_lost :
    let s : Stack := { cells := [5], touched := true }
    s.depth < arity .add ∧ (run .add s).2 = .error .stackUnderflow
      ∧ (run .add s).1.values = [] ∧ (run .add s).1 ≠ s := by
  exact ⟨by decide, rfl, rfl, by decide⟩

end Primitive

end LineForth
