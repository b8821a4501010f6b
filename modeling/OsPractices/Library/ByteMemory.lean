import Mathlib.Algebra.Group.Int.Defs
import Mathlib.Algebra.Group.Nat.Defs
import Mathlib.Logic.Function.Basic

/-!
# Byte memory

A memory gives every address a byte. Words are four or eight bytes, the least
significant first.
-/

set_option autoImplicit false

namespace OsPractices.Library

abbrev Memory := Nat → UInt8

namespace Memory

def load32 (memory : Memory) (address : Nat) : Nat :=
  (memory address).toNat + 2 ^ 8 * (memory (address + 1)).toNat +
    2 ^ 16 * (memory (address + 2)).toNat + 2 ^ 24 * (memory (address + 3)).toNat

/-- Store the low 32 bits of `value`. -/
def store32 (memory : Memory) (address value : Nat) : Memory := fun target =>
  if address ≤ target ∧ target < address + 4 then
    UInt8.ofNat (value / 2 ^ (8 * (target - address)))
  else memory target

def load64 (memory : Memory) (address : Nat) : Nat :=
  memory.load32 address + 2 ^ 32 * memory.load32 (address + 4)

/-- Store the low 64 bits of `value`. -/
def store64 (memory : Memory) (address value : Nat) : Memory :=
  (memory.store32 address value).store32 (address + 4) (value / 2 ^ 32)

/-- The order in which a byte-by-byte copy visits its range. -/
inductive CopyDirection where
  | ascending
  | descending
  deriving DecidableEq, Repr

def copyAscending : Nat → Memory → Nat → Nat → Memory
  | 0, memory, _, _ => memory
  | length + 1, memory, target, source =>
      copyAscending length (Function.update memory target (memory source))
        (target + 1) (source + 1)

def copyDescending : Nat → Memory → Nat → Nat → Memory
  | 0, memory, _, _ => memory
  | length + 1, memory, target, source =>
      copyDescending length
        (Function.update memory (target + length) (memory (source + length))) target source

def copy (direction : CopyDirection) (memory : Memory) (target source length : Nat) : Memory :=
  match direction with
  | .ascending => copyAscending length memory target source
  | .descending => copyDescending length memory target source

def fill (memory : Memory) (target : Nat) (byte : UInt8) (length : Nat) : Memory :=
  fun address => if target ≤ address ∧ address < target + length then byte else memory address

theorem load32_congr {memory other : Memory} {address : Nat}
    (same : ∀ target, address ≤ target → target < address + 4 → other target = memory target) :
    other.load32 address = memory.load32 address := by
  unfold load32
  rw [same address (by omega) (by omega), same (address + 1) (by omega) (by omega),
    same (address + 2) (by omega) (by omega), same (address + 3) (by omega) (by omega)]

theorem store32_of_outside {memory : Memory} {address value target : Nat}
    (outside : target < address ∨ address + 4 ≤ target) :
    memory.store32 address value target = memory target := by
  unfold store32
  rw [if_neg (by omega)]

theorem load32_store32_same (memory : Memory) (address value : Nat) :
    (memory.store32 address value).load32 address = value % 2 ^ 32 := by
  have bytes : ∀ index < 4, (memory.store32 address value (address + index)).toNat =
      value / 2 ^ (8 * index) % 2 ^ 8 := by
    intro index small
    unfold store32
    rw [if_pos (by omega), Nat.add_sub_cancel_left, UInt8.toNat_ofNat']
  have first := bytes 0 (by decide)
  have second := bytes 1 (by decide)
  have third := bytes 2 (by decide)
  have fourth := bytes 3 (by decide)
  simp only [Nat.add_zero] at first
  unfold load32
  rw [first, second, third, fourth]
  omega

/-- Only the low 32 bits are stored. -/
theorem store32_mod (memory : Memory) (address value : Nat) :
    memory.store32 address (value % 2 ^ 32) = memory.store32 address value := by
  funext target
  unfold store32
  split
  case isTrue inside =>
    obtain ⟨index, small, place⟩ : ∃ index, index < 4 ∧ target - address = index :=
      ⟨_, by omega, rfl⟩
    rw [place]
    apply UInt8.toNat_inj.mp
    rw [UInt8.toNat_ofNat', UInt8.toNat_ofNat']
    match index, small with
    | 0, _ => simp only [Nat.mul_zero, Nat.pow_zero, Nat.div_one]; omega
    | 1, _ => omega
    | 2, _ => omega
    | 3, _ => omega
  case isFalse => rfl

theorem load32_store32_apart {memory : Memory} {address value target : Nat}
    (apart : target + 4 ≤ address ∨ address + 4 ≤ target) :
    (memory.store32 address value).load32 target = memory.load32 target :=
  load32_congr fun byte above below => store32_of_outside (by omega)

theorem load64_congr {memory other : Memory} {address : Nat}
    (same : ∀ target, address ≤ target → target < address + 8 → other target = memory target) :
    other.load64 address = memory.load64 address := by
  unfold load64
  rw [load32_congr fun target above below => same target above (by omega),
    load32_congr fun target above below => same target (by omega) (by omega)]

theorem store64_of_outside {memory : Memory} {address value target : Nat}
    (outside : target < address ∨ address + 8 ≤ target) :
    memory.store64 address value target = memory target := by
  unfold store64
  rw [store32_of_outside (by omega), store32_of_outside (by omega)]

theorem load64_store64_same (memory : Memory) (address value : Nat) :
    (memory.store64 address value).load64 address = value % 2 ^ 64 := by
  unfold load64 store64
  rw [load32_store32_apart (by omega), load32_store32_same, load32_store32_same]
  omega

theorem load64_store64_apart {memory : Memory} {address value target : Nat}
    (apart : target + 8 ≤ address ∨ address + 8 ≤ target) :
    (memory.store64 address value).load64 target = memory.load64 target :=
  load64_congr fun byte above below => store64_of_outside (by omega)

/-- A copy writes its target range only. -/
theorem copy_of_outside {direction : CopyDirection} {memory : Memory}
    {target source length address : Nat}
    (outside : address < target ∨ target + length ≤ address) :
    memory.copy direction target source length address = memory address := by
  cases direction with
  | ascending =>
      change memory.copyAscending length target source address = memory address
      induction length generalizing memory target source with
      | zero => rfl
      | succ length ih =>
          rw [copyAscending, ih (by omega), Function.update_of_ne (by omega)]
  | descending =>
      change memory.copyDescending length target source address = memory address
      induction length generalizing memory with
      | zero => rfl
      | succ length ih =>
          rw [copyDescending, ih (by omega), Function.update_of_ne (by omega)]

/-- A byte whose source the copy does not write is copied, in either direction. -/
theorem copy_of_inside {direction : CopyDirection} {memory : Memory}
    {target source length index : Nat} (inside : index < length)
    (stays : source + index < target ∨ target + length ≤ source + index) :
    memory.copy direction target source length (target + index) = memory (source + index) := by
  cases direction with
  | ascending =>
      change memory.copyAscending length target source (target + index) = _
      induction length generalizing memory target source index with
      | zero => cases inside
      | succ length ih =>
          rw [copyAscending]
          cases index with
          | zero =>
              have first : copyAscending length (Function.update memory target (memory source))
                  (target + 1) (source + 1) target = memory source := by
                have out := @copy_of_outside .ascending
                  (Function.update memory target (memory source)) (target + 1) (source + 1) length
                  target (by omega)
                exact out.trans (Function.update_self _ _ _)
              exact first
          | succ index =>
              have rest := @ih (Function.update memory target (memory source)) (target + 1)
                (source + 1) index (by omega) (by omega)
              rw [Nat.add_right_comm target 1, Nat.add_assoc] at rest
              rw [rest, Nat.add_right_comm source 1, Nat.add_assoc,
                Function.update_of_ne (by omega)]
  | descending =>
      change memory.copyDescending length target source (target + index) = _
      induction length generalizing memory index with
      | zero => cases inside
      | succ length ih =>
          rw [copyDescending]
          cases decEq index length with
          | isTrue same =>
              subst same
              have out := @copy_of_outside .descending
                (Function.update memory (target + index) (memory (source + index))) target source
                index (target + index) (by omega)
              exact out.trans (Function.update_self _ _ _)
          | isFalse different =>
              rw [ih (by omega) (by omega), Function.update_of_ne (by omega)]

theorem fill_of_outside {memory : Memory} {target length address : Nat} {byte : UInt8}
    (outside : address < target ∨ target + length ≤ address) :
    memory.fill target byte length address = memory address := by
  unfold fill
  rw [if_neg (by omega)]

end Memory

end OsPractices.Library
