/-!
What code costs: machine cycles and the clock cycles (T-states) they take. Costs
only add up, so they are natural numbers.
-/

namespace Z80

structure Cost where
  machine : Nat
  clock : Nat
  deriving DecidableEq

namespace Cost

instance : Add Cost := ⟨fun a b => ⟨a.machine + b.machine, a.clock + b.clock⟩⟩

instance : Zero Cost := ⟨⟨0, 0⟩⟩

instance : Inhabited Cost := ⟨0⟩

/-- Every machine cycle of the Game Boy takes four clock cycles. -/
def ofMachine (cycles : Nat) : Cost :=
  ⟨cycles, 4 * cycles⟩

def isZero (c : Cost) : Bool :=
  c.machine == 0 && c.clock == 0

@[simp] theorem machine_add (a b : Cost) : (a + b).machine = a.machine + b.machine := rfl

@[simp] theorem clock_add (a b : Cost) : (a + b).clock = a.clock + b.clock := rfl

@[simp] theorem machine_zero : (0 : Cost).machine = 0 := rfl

@[simp] theorem clock_zero : (0 : Cost).clock = 0 := rfl

theorem add_assoc (a b c : Cost) : a + b + c = a + (b + c) := by
  change Cost.mk _ _ = Cost.mk _ _
  rw [machine_add, clock_add, Nat.add_assoc, Nat.add_assoc]
  rfl

theorem zero_add (a : Cost) : 0 + a = a := by
  change Cost.mk _ _ = a
  rw [machine_zero, clock_zero, Nat.zero_add, Nat.zero_add]

end Cost
end Z80
