import Mathlib.Algebra.Group.Nat.Defs
import Mathlib.Data.Nat.Basic
import Mathlib.Logic.Function.Basic

/- Little-endian words, halfwords and bits inside a block of bytes. A block is
indexed by byte position; a caller that has a fixed block size reads below it. -/
namespace Bytes

open Function

variable {index other half : Nat}

abbrev Block := Nat → UInt8

def zero : Block := fun _ => 0

def fill (value : UInt8) : Block := fun _ => value

/-- The 32-bit word at word index `index`. -/
def getWord (block : Block) (index : Nat) : Nat :=
  (block (4 * index)).toNat + 256 * (block (4 * index + 1)).toNat +
    65536 * (block (4 * index + 2)).toNat + 16777216 * (block (4 * index + 3)).toNat

def setWord (block : Block) (index value : Nat) : Block := fun k =>
  if k / 4 = index then UInt8.ofNat (value / 256 ^ (k % 4)) else block k

/-- The 16-bit halfword at halfword index `index`. -/
def getHalf (block : Block) (index : Nat) : Nat :=
  (block (2 * index)).toNat + 256 * (block (2 * index + 1)).toNat

def setHalf (block : Block) (index value : Nat) : Block := fun k =>
  if k / 2 = index then UInt8.ofNat (value / 256 ^ (k % 2)) else block k

/-- Consecutive words from word index `base` on. -/
def setWords (block : Block) (base count : Nat) (values : Nat → Nat) : Block :=
  (List.range count).foldl (fun block i => setWord block (i + base) (values i)) block

/-- Copy `count` bytes to byte position `start`. -/
def splice (block : Block) (start count : Nat) (bytes : Nat → UInt8) : Block := fun k =>
  if start ≤ k ∧ k < start + count then bytes (k - start) else block k

/-- The mask `1 << (index % 8)` of a bit in its byte. -/
def mask (index : Nat) : UInt8 := 1 <<< UInt8.ofNat (index % 8)

def getBit (block : Block) (index : Nat) : Bool := block (index / 8) &&& mask index != 0

def setBit (block : Block) (index : Nat) : Block :=
  update block (index / 8) (block (index / 8) ||| mask index)

def clearBit (block : Block) (index : Nat) : Block :=
  update block (index / 8) (block (index / 8) &&& ~~~ mask index)

theorem toNat_ofNat_byte (value : Nat) : (UInt8.ofNat value).toNat = value % 256 := by
  simp

theorem getWord_lt (block : Block) (index : Nat) : getWord block index < 2 ^ 32 := by
  have h0 := (block (4 * index)).toNat_lt
  have h1 := (block (4 * index + 1)).toNat_lt
  have h2 := (block (4 * index + 2)).toNat_lt
  have h3 := (block (4 * index + 3)).toNat_lt
  unfold getWord
  omega

theorem getWord_congr {left right : Block} (same : ∀ k, k / 4 = index → left k = right k) :
    getWord left index = getWord right index := by
  unfold getWord
  rw [same (4 * index) (by omega), same (4 * index + 1) (by omega),
    same (4 * index + 2) (by omega), same (4 * index + 3) (by omega)]

theorem getWord_setWord_self (block : Block) (index value : Nat) (small : value < 2 ^ 32) :
    getWord (setWord block index value) index = value := by
  have q0 : (4 * index) / 4 = index := by omega
  have q1 : (4 * index + 1) / 4 = index := by omega
  have q2 : (4 * index + 2) / 4 = index := by omega
  have q3 : (4 * index + 3) / 4 = index := by omega
  have r0 : (4 * index) % 4 = 0 := by omega
  have r1 : (4 * index + 1) % 4 = 1 := by omega
  have r2 : (4 * index + 2) % 4 = 2 := by omega
  have r3 : (4 * index + 3) % 4 = 3 := by omega
  simp only [getWord, setWord, q0, q1, q2, q3, r0, r1, r2, r3, ↓reduceIte, toNat_ofNat_byte]
  omega

theorem getWord_setWord_ne (block : Block) (value : Nat) (apart : other ≠ index) :
    getWord (setWord block index value) other = getWord block other := by
  apply getWord_congr
  intro k place
  have outside : ¬ k / 4 = index := by omega
  simp only [setWord, outside, ↓reduceIte]

theorem getWord_setWord (block : Block) (index other value : Nat) (small : value < 2 ^ 32) :
    getWord (setWord block index value) other = if other = index then value
      else getWord block other := by
  split
  · rename_i same
    rw [same]
    exact getWord_setWord_self block index value small
  · rename_i apart
    exact getWord_setWord_ne block value apart

@[simp] theorem getWord_zero (index : Nat) : getWord zero index = 0 := rfl

theorem getHalf_lt (block : Block) (index : Nat) : getHalf block index < 2 ^ 16 := by
  have h0 := (block (2 * index)).toNat_lt
  have h1 := (block (2 * index + 1)).toNat_lt
  unfold getHalf
  omega

theorem getHalf_congr {left right : Block} (same : ∀ k, k / 2 = index → left k = right k) :
    getHalf left index = getHalf right index := by
  unfold getHalf
  rw [same (2 * index) (by omega), same (2 * index + 1) (by omega)]

theorem getHalf_setHalf_self (block : Block) (index value : Nat) (small : value < 2 ^ 16) :
    getHalf (setHalf block index value) index = value := by
  have q0 : (2 * index) / 2 = index := by omega
  have q1 : (2 * index + 1) / 2 = index := by omega
  have r0 : (2 * index) % 2 = 0 := by omega
  have r1 : (2 * index + 1) % 2 = 1 := by omega
  simp only [getHalf, setHalf, q0, q1, r0, r1, ↓reduceIte, toNat_ofNat_byte]
  omega

theorem getHalf_setHalf_ne (block : Block) (value : Nat) (apart : other ≠ index) :
    getHalf (setHalf block index value) other = getHalf block other := by
  apply getHalf_congr
  intro k place
  have outside : ¬ k / 2 = index := by omega
  simp only [setHalf, outside, ↓reduceIte]

theorem getHalf_setWord (block : Block) (value : Nat) (apart : half / 2 ≠ index) :
    getHalf (setWord block index value) half = getHalf block half := by
  apply getHalf_congr
  intro k place
  have outside : ¬ k / 4 = index := by omega
  simp only [setWord, outside, ↓reduceIte]

section

variable (block : Block) (base count : Nat) (values : Nat → Nat)
include block base count values

theorem setWords_succ :
    setWords block base (count + 1) values =
      setWord (setWords block base count values) (count + base) (values count) := by
  simp only [setWords, List.range_succ, List.foldl_append, List.foldl_cons, List.foldl_nil]

theorem setWords_outside {k : Nat} (outside : k / 4 < base ∨ base + count ≤ k / 4) :
    setWords block base count values k = block k := by
  induction count with
  | zero => rfl
  | succ count ih =>
    have apart : ¬ k / 4 = count + base := by omega
    rw [setWords_succ, setWord, if_neg apart, ih (by omega)]

theorem getWord_setWords_outside {word : Nat} (outside : word < base ∨ base + count ≤ word) :
    getWord (setWords block base count values) word = getWord block word :=
  getWord_congr fun _ place => setWords_outside _ _ _ _ (by omega)

theorem getWord_setWords (small : ∀ i < count, values i < 2 ^ 32) {i : Nat} (inside : i < count) :
    getWord (setWords block base count values) (i + base) = values i := by
  induction count with
  | zero => omega
  | succ count ih =>
    rw [setWords_succ, getWord_setWord _ _ _ _ (small count (by omega))]
    split
    · congr 1
      omega
    · exact ih (fun j bound => small j (by omega)) (by omega)

theorem getHalf_setWords (outside : half / 2 < base ∨ base + count ≤ half / 2) :
    getHalf (setWords block base count values) half = getHalf block half :=
  getHalf_congr fun _ place => setWords_outside _ _ _ _ (by omega)

end

section Bits

set_option maxRecDepth 4096 in
theorem masked_ne_zero (byte : UInt8) (k : Fin 8) :
    (byte &&& 1 <<< UInt8.ofNat k.val != 0) = byte.toBitVec.getLsbD k.val := by
  cases byte with
  | ofBitVec bits =>
    cases bits with
    | ofFin bits =>
      revert bits k
      decide

theorem mask_getLsbD (i j : Fin 8) :
    (1 <<< UInt8.ofNat i.val : UInt8).toBitVec.getLsbD j.val = decide (i = j) := by
  revert i j
  decide

theorem getBit_eq (block : Block) (index : Nat) :
    getBit block index = (block (index / 8)).toBitVec.getLsbD (index % 8) :=
  masked_ne_zero _ ⟨index % 8, Nat.mod_lt _ (by decide)⟩

theorem mask_bit (i j : Nat) : (mask i).toBitVec.getLsbD (j % 8) = decide (i % 8 = j % 8) := by
  have bits := mask_getLsbD ⟨i % 8, Nat.mod_lt _ (by decide)⟩ ⟨j % 8, Nat.mod_lt _ (by decide)⟩
  simpa [mask] using bits

theorem getBit_setBit (block : Block) (i j : Nat) :
    getBit (setBit block i) j = (decide (j = i) || getBit block j) := by
  rw [getBit_eq, getBit_eq, setBit]
  by_cases same : j / 8 = i / 8
  · rw [same, update_self, UInt8.toBitVec_or, BitVec.getLsbD_or, mask_bit, Bool.or_comm]
    congr 1
    exact decide_eq_decide.mpr (by omega)
  · have apart : j ≠ i := fun equal => same (by rw [equal])
    rw [update_of_ne same]
    simp [apart]

theorem getBit_clearBit (block : Block) (i j : Nat) :
    getBit (clearBit block i) j = (decide (j ≠ i) && getBit block j) := by
  rw [getBit_eq, getBit_eq, clearBit]
  by_cases same : j / 8 = i / 8
  · rw [same, update_self, UInt8.toBitVec_and, UInt8.toBitVec_not, BitVec.getLsbD_and,
      BitVec.getLsbD_not, mask_bit, Bool.and_comm]
    congr 1
    have inByte : j % 8 < 8 := Nat.mod_lt _ (by decide)
    simp only [inByte, decide_true, Bool.true_and]
    rw [← decide_not]
    exact decide_eq_decide.mpr (by omega)
  · have apart : j ≠ i := fun equal => same (by rw [equal])
    rw [update_of_ne same]
    simp [apart]

end Bits

end Bytes
