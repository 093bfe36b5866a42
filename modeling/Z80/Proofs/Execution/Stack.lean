import Z80.Machine
import Z80.Proofs.Memory.Flat
import Z80.Snapshot

/-!
The stack lies below the address at which SP starts, and it wraps with it. Where these bytes
are plain memory, each pop gives the word that was pushed last and is still on the stack, and
no other byte changes; borders of segments, odd addresses and the top of memory make no
difference.
-/

namespace Z80

theorem Segment.IsRam.local {s : Segment} (h : s.IsRam) : s.Local := by
  obtain ⟨-, contents, hs⟩ := h
  rw [Local, hs]
  trivial

namespace Memory

variable {m : Memory} {a b : Word}

theorem readByte_writeByte_of_isRam (h : (m.owner a).IsRam) (hne : b ≠ a) (value : Byte) :
    (m.writeByte a value).readByte b = m.readByte b := by
  rw [readByte, writeByte, owner_modify]
  split
  · rename_i hc
    rw [owner_eq (m.owner_mem b) hc] at h
    exact Segment.readByte_writeByte_of_ne h.local hne value
  · rfl

/-- A segment that is not plain memory keeps what is stored in it, readable or not. -/
theorem owner_writeByte_of_isRam (h : (m.owner a).IsRam) (hb : ¬ (m.owner b).IsRam)
    (value : Byte) : (m.writeByte a value).owner b = m.owner b := by
  rw [writeByte, owner_modify]
  split
  · rename_i hc
    rw [owner_eq (m.owner_mem b) hc] at h
    exact absurd h hb
  · rfl

/-- Both bytes of the word at the address are plain memory. -/
def IsRamWord (m : Memory) (a : Word) : Prop :=
  (m.owner a).IsRam ∧ (m.owner (a + 1)).IsRam

theorem isRam_owner_writeWord (h : (m.owner b).IsRam) (a value : Word) :
    ((m.writeWord a value).owner b).IsRam := by
  rw [writeWord_eq]
  exact isRam_owner_writeByte (isRam_owner_writeByte h _ _) _ _

theorem readByte_writeWord_of_ne (h : m.IsRamWord a) (h0 : b ≠ a) (h1 : b ≠ a + 1)
    (value : Word) : (m.writeWord a value).readByte b = m.readByte b := by
  rw [writeWord_eq, readByte_writeByte_of_isRam (isRam_owner_writeByte h.2 _ _) h1,
    readByte_writeByte_of_isRam h.1 h0]

theorem owner_writeWord_of_isRam (h : m.IsRamWord a) (hb : ¬ (m.owner b).IsRam) (value : Word) :
    (m.writeWord a value).owner b = m.owner b := by
  have ho := owner_writeByte_of_isRam h.1 hb (Word.low value)
  rw [writeWord_eq, owner_writeByte_of_isRam (isRam_owner_writeByte h.2 _ _) (ho ▸ hb), ho]

theorem readWord_writeWord_self (h : m.IsRamWord a) (value : Word) :
    (m.writeWord a value).readWord a = value := by
  have hne : a ≠ a + 1 := by grind
  have h1 := isRam_owner_writeByte h.2 a (Word.low value)
  rw [readWord_eq, writeWord_eq, readByte_writeByte_self h1, readByte_writeByte_of_isRam h1 hne,
    readByte_writeByte_self h.1, Word.ofBytes_low_high]

end Memory

/-- The address is one of so many below the base. -/
def Word.IsBelow (base : Word) (count : Nat) (a : Word) : Prop :=
  ∃ i < count, a = base - .ofNat (i + 1)

/-- Where a stack that begins at the base has its word number `n`, counted from the bottom. -/
def stackSlot (base : Word) (n : Nat) : Word :=
  base - .ofNat (2 * (n + 1))

section Slots

variable {base : Word} {n k room : Nat}

theorem stackSlot_eq_sub (base : Word) (n : Nat) :
    stackSlot base n = base - .ofNat (2 * n) - 2 := by
  rw [stackSlot, Nat.mul_add, UInt16.ofNat_add]
  grind

theorem stackSlot_add_two (base : Word) (n : Nat) :
    stackSlot base n + 2 = base - .ofNat (2 * n) := by
  rw [stackSlot_eq_sub]
  grind

theorem stackSlot_isBelow (h : n < room) : base.IsBelow (2 * room) (stackSlot base n) :=
  ⟨2 * n + 1, by omega, rfl⟩

theorem stackSlot_succ_isBelow (h : n < room) :
    base.IsBelow (2 * room) (stackSlot base n + 1) := by
  refine ⟨2 * n, by omega, ?_⟩
  rw [stackSlot_eq_sub, UInt16.ofNat_add]
  grind

/-- Memory has room for 0x8000 words, so that no two of them meet around its top. -/
theorem ne_stackSlot (base : Word) (h : n < k) (hk : k < 0x8000) :
    stackSlot base n ≠ stackSlot base k ∧ stackSlot base n ≠ stackSlot base k + 1 ∧
      stackSlot base n + 1 ≠ stackSlot base k ∧ stackSlot base n + 1 ≠ stackSlot base k + 1 := by
  have := base.toNat_lt
  refine ⟨?_, ?_, ?_, ?_⟩ <;>
  · rw [Ne, ← UInt16.toNat_inj]
    simp only [stackSlot, UInt16.toNat_sub, UInt16.toNat_add, UInt16.toNat_ofNat',
      UInt16.toNat_one]
    omega

end Slots

namespace Memory

variable {m : Memory} {base : Word}

/-- The words of a stack, the top one first, lie in memory below the base. -/
def HoldsStack (m : Memory) (base : Word) : List Word → Prop
  | [] => True
  | value :: rest => m.readWord (stackSlot base rest.length) = value ∧ m.HoldsStack base rest

/-- A word that is written further up the stack leaves the words below it. -/
theorem HoldsStack.writeWord {stack : List Word} (h : m.HoldsStack base stack) {n : Nat}
    (hn : stack.length ≤ n) (hm : n < 0x8000) (hr : m.IsRamWord (stackSlot base n))
    (value : Word) : (m.writeWord (stackSlot base n) value).HoldsStack base stack := by
  induction stack with
  | nil => trivial
  | cons top rest ih =>
      obtain ⟨ht, hrest⟩ := h
      rw [List.length_cons] at hn
      obtain ⟨h0, h1, h2, h3⟩ := ne_stackSlot base hn hm
      refine ⟨?_, ih hrest (Nat.le_of_succ_le hn)⟩
      rw [readWord_eq] at ht
      rw [readWord_eq, readByte_writeWord_of_ne hr h0 h1, readByte_writeWord_of_ne hr h2 h3, ht]

end Memory

inductive StackUse where
  | push (value : Word)
  | pop
  deriving DecidableEq

namespace StackUse

/-- A stack that holds these words, the top one first, and takes up to `room` of them: the
words that come off it and those that are left. None if it overflows or is popped while it is
empty. -/
def ideal (room : Nat) : List Word → List StackUse → Option (List Word × List Word)
  | stack, [] => some ([], stack)
  | stack, push value :: rest =>
      if stack.length < room then ideal room (value :: stack) rest else none
  | [], pop :: _ => none
  | value :: stack, pop :: rest =>
      (ideal room stack rest).map fun (popped, left) => (value :: popped, left)

/-- All the words, and then as many pops. -/
def roundTrip (words : List Word) : List StackUse :=
  words.map push ++ List.replicate words.length pop

theorem ideal_pops (room : Nat) (words stack : List Word) :
    ideal room (words ++ stack) (List.replicate words.length pop) = some (words, stack) := by
  induction words with
  | nil => rfl
  | cons value rest ih =>
      rw [List.cons_append, List.length_cons, List.replicate_succ, ideal, ih]
      rfl

theorem ideal_pushes {room : Nat} {words stack : List Word} (uses : List StackUse)
    (h : words.length + stack.length ≤ room) :
    ideal room stack (words.map push ++ uses) = ideal room (words.reverse ++ stack) uses := by
  induction words generalizing stack with
  | nil => rfl
  | cons value rest ih =>
      rw [List.length_cons] at h
      have hs : rest.length + (value :: stack).length ≤ room := by
        rw [List.length_cons]
        omega
      rw [List.map_cons, List.cons_append, ideal, if_pos (by omega), ih hs]
      simp only [List.reverse_cons, List.append_assoc, List.singleton_append]

theorem ideal_roundTrip {room : Nat} {words : List Word} (h : words.length ≤ room) :
    ideal room [] (roundTrip words) = some (words.reverse, []) := by
  rw [roundTrip, ideal_pushes _ h, ← List.length_reverse, ideal_pops]

end StackUse

namespace Machine

variable {ω η : Type}

/-- A machine whose stack holds these words and has grown from where it started. -/
structure Stacks (start : Machine ω η) (room : Nat) (stack : List Word) (m : Machine ω η) :
    Prop where
  registers_eq : m.registers =
    { start.registers with sp := start.registers.sp - .ofNat (2 * stack.length) }
  holds : m.bus.memory.HoldsStack start.registers.sp stack
  isRam {a} : start.registers.sp.IsBelow (2 * room) a → (m.bus.memory.owner a).IsRam
  readByte_eq {a} : ¬ start.registers.sp.IsBelow (2 * room) a → m.readByte a = start.readByte a
  owner_eq {a} : ¬ (start.bus.memory.owner a).IsRam →
    m.bus.memory.owner a = start.bus.memory.owner a

namespace Stacks

variable {start m : Machine ω η} {room : Nat} {stack : List Word} {value : Word}

theorem refl (h : ∀ a, start.registers.sp.IsBelow (2 * room) a →
    (start.bus.memory.owner a).IsRam) : Stacks start room [] start where
  registers_eq := by
    have hs : start.registers.sp - .ofNat (2 * ([] : List Word).length) = start.registers.sp :=
      UInt16.sub_zero _
    rw [hs]
  holds := trivial
  isRam := h _
  readByte_eq _ := rfl
  owner_eq _ := rfl

theorem sp_eq (h : Stacks start room stack m) :
    m.registers.sp = start.registers.sp - .ofNat (2 * stack.length) :=
  congrArg (·.sp) h.registers_eq

theorem isRamWord (h : Stacks start room stack m) {n : Nat} (hn : n < room) :
    m.bus.memory.IsRamWord (stackSlot start.registers.sp n) :=
  ⟨h.isRam (stackSlot_isBelow hn), h.isRam (stackSlot_succ_isBelow hn)⟩

theorem pop (h : Stacks start room (value :: stack) m) :
    m.pop.1 = value ∧ Stacks start room stack m.pop.2 := by
  have hsp : m.registers.sp = stackSlot start.registers.sp stack.length := h.sp_eq
  refine ⟨?_, ?_, h.holds.2, h.isRam, h.readByte_eq, h.owner_eq⟩
  · change m.bus.memory.readWord m.registers.sp = value
    rw [hsp, h.holds.1]
  · change { m.registers with sp := m.registers.sp + 2 } = _
    rw [hsp, stackSlot_add_two, h.registers_eq]

variable [Observer ω]

theorem push (h : Stacks start room stack m) (hs : stack.length < room) (hr : room ≤ 0x8000)
    (value : Word) : Stacks start room (value :: stack) (m.push value) := by
  let slot := stackSlot start.registers.sp stack.length
  have hsp : m.registers.sp - 2 = slot := by
    rw [h.sp_eq, ← stackSlot_eq_sub]
  have hw : m.bus.memory.IsRamWord slot := h.isRamWord hs
  have hm : (m.push value).bus.memory = m.bus.memory.writeWord slot value := by
    rw [← hsp]
    rfl
  constructor
  · change { m.registers with sp := m.registers.sp - 2 } = _
    rw [hsp, h.registers_eq]
    rfl
  · rw [hm]
    exact ⟨Memory.readWord_writeWord_self hw value,
      h.holds.writeWord (Nat.le_refl _) (Nat.lt_of_lt_of_le hs hr) hw value⟩
  · intro a ha
    rw [hm]
    exact Memory.isRam_owner_writeWord (h.isRam ha) slot value
  · intro a ha
    have h0 : a ≠ slot := fun he => ha (he ▸ stackSlot_isBelow hs)
    have h1 : a ≠ slot + 1 := fun he => ha (he ▸ stackSlot_succ_isBelow hs)
    rw [← h.readByte_eq ha]
    change (m.push value).bus.memory.readByte a = _
    rw [hm, Memory.readByte_writeWord_of_ne hw h0 h1]
    rfl
  · intro a ha
    have ho := h.owner_eq ha
    rw [hm, Memory.owner_writeWord_of_isRam hw (ho ▸ ha), ho]

end Stacks

variable [Observer ω]

/-- Pushes and pops in turn; the words that were popped, the first one first. -/
def useStack (m : Machine ω η) : List StackUse → List Word × Machine ω η
  | [] => ([], m)
  | .push value :: rest => (m.push value).useStack rest
  | .pop :: rest =>
      let (value, m) := m.pop
      let (popped, m) := m.useStack rest
      (value :: popped, m)

theorem Stacks.useStack {start m : Machine ω η} {room : Nat} {stack : List Word}
    (h : Stacks start room stack m) (hr : room ≤ 0x8000) {uses : List StackUse}
    {popped left : List Word} (hu : StackUse.ideal room stack uses = some (popped, left)) :
    (m.useStack uses).1 = popped ∧ Stacks start room left (m.useStack uses).2 := by
  -- along the ideal stack: an overflow and a pop of nothing are none of its runs
  fun_induction StackUse.ideal room stack uses generalizing m popped with
  | case1 stack =>
      cases hu
      exact ⟨rfl, h⟩
  | case2 stack value rest hs ih => exact ih (h.push hs hr value) hu
  | case3 => cases hu
  | case4 => cases hu
  | case5 value stack rest ih =>
      obtain ⟨⟨popped, left⟩, hi, he⟩ := Option.map_eq_some_iff.mp hu
      cases he
      obtain ⟨hv, hp⟩ := h.pop
      obtain ⟨hl, hn⟩ := ih hp hi
      exact ⟨List.cons_eq_cons.mpr ⟨hv, hl⟩, hn⟩

/-- Where the bytes below SP are plain memory, at whatever borders and whichever way around
they lie, the stack in memory is the ideal one. -/
theorem stack_is_lifo (m : Machine ω η) {room : Nat} (hr : room ≤ 0x8000)
    (hm : ∀ a, m.registers.sp.IsBelow (2 * room) a → (m.bus.memory.owner a).IsRam) :
    (∀ words, words.length = room →
      let n := (m.useStack (StackUse.roundTrip words)).2
      (m.useStack (StackUse.roundTrip words)).1 = words.reverse ∧ n.registers = m.registers ∧
      (∀ a, ¬ m.registers.sp.IsBelow (2 * words.length) a → n.readByte a = m.readByte a) ∧
      ∀ a, ¬ (m.bus.memory.owner a).IsRam → n.bus.memory.owner a = m.bus.memory.owner a) ∧
    ∀ uses popped left, StackUse.ideal room [] uses = some (popped, left) →
      (m.useStack uses).1 = popped ∧ m.Stacks room left (m.useStack uses).2 := by
  have hu {uses popped left} (h : StackUse.ideal room [] uses = some (popped, left)) :=
    (Stacks.refl hm).useStack hr h
  refine ⟨?_, fun uses popped left h => hu h⟩
  rintro words rfl
  obtain ⟨hp, hn⟩ := hu (StackUse.ideal_roundTrip (Nat.le_refl words.length))
  refine ⟨hp, ?_, fun a => hn.readByte_eq, fun a => hn.owner_eq⟩
  exact hn.registers_eq.trans (Stacks.refl hm).registers_eq.symm

/-- Both words lie across a border, the lower one at an odd address and the upper one around
the top of memory. -/
theorem stack_across_the_top :
    let segments := [Segment.ram 0 1 #[], .rom 1 0x7FFF #[0x12], .ram 0x8000 0x7FFE #[],
      .ram 0xFFFE 2 #[]]
    let uses := [StackUse.push 0x1234, .push 0xABCD, .pop, .push 0x5678, .pop]
    ∃ memory, Memory.ofSegments segments = .ok memory ∧
      let m : Machine (Listeners (List (Word × Nat))) NoPorts :=
        ⟨({ sp := 1 } : Snapshot).toRegisters .z80, ⟨memory, ⟨[], [fun log a n => (a, n) :: log]⟩⟩,
          {}, .idle⟩
      2 ≤ 0x8000 ∧
      (∀ a, m.registers.sp.IsBelow (2 * 2) a → (m.bus.memory.owner a).IsRam) ∧
      (m.useStack (StackUse.roundTrip [0x1234, 0xABCD])).1 = [0xABCD, 0x1234] ∧
      (m.useStack (StackUse.roundTrip [0x1234, 0xABCD])).2.registers = m.registers ∧
      StackUse.ideal 2 [] uses = some ([0xABCD, 0x5678], [0x1234]) ∧
      (m.useStack uses).1 = [0xABCD, 0x5678] ∧ m.Stacks 2 [0x1234] (m.useStack uses).2 := by
  intro segments uses
  have ht : Tiles 0 segments := by
    refine ⟨rfl, ?_, ?_, ?_, ?_, ?_, ?_, ?_, ?_⟩
    · rw [Segment.length_ram]; decide
    · rw [Segment.stop_ram]; rfl
    · rw [Segment.length_rom]; decide
    · rw [Segment.stop_rom]; rfl
    · rw [Segment.length_ram]; decide
    · rw [Segment.stop_ram]; rfl
    · rw [Segment.length_ram]; decide
    · rw [Tiles, Segment.stop_ram]; rfl
  obtain ⟨memory, hmem⟩ := Memory.exists_ofSegments ht
  refine ⟨memory, hmem, ?_⟩
  intro m
  have hram (base : Word) (length : Nat) (hs : Segment.ram base length #[] ∈ segments) {a : Word}
      (ha : base.toNat ≤ a.toNat ∧ a.toNat < base.toNat + length) : (memory.owner a).IsRam := by
    have hc : (Segment.ram base length #[]).covers a = true := by
      rw [Segment.covers_iff, Segment.stop_ram]
      exact ha
    rw [Memory.owner_of_ofSegments hmem hs hc]
    exact ⟨rfl, _, rfl⟩
  have hm : ∀ a, Word.IsBelow 1 (2 * 2) a → (memory.owner a).IsRam := by
    rintro _ ⟨i, hi, rfl⟩
    match i, hi with
    | 0, _ => exact hram 0 1 (by simp [segments]) (by decide)
    | 1, _ => exact hram 0xFFFE 2 (by simp [segments]) (by decide)
    | 2, _ => exact hram 0xFFFE 2 (by simp [segments]) (by decide)
    | 3, _ => exact hram 0x8000 0x7FFE (by simp [segments]) (by decide)
  obtain ⟨hwords, huses⟩ := m.stack_is_lifo (by decide : 2 ≤ 0x8000) hm
  obtain ⟨hp, hreg, _⟩ := hwords [0x1234, 0xABCD] rfl
  exact ⟨by decide, hm, hp, hreg, rfl, huses uses _ _ rfl⟩

end Machine
end Z80
