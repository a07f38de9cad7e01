import Mathlib

/-!
# Locators and the `u32` primitives

`nonuniform.rs` computes on `type Locator = u32` (and `type Plan = Locator`),
modelled here as `BitVec 32`; `usize` quantities are `Nat` with the width
checked where the code can overflow. This file fixes the vocabulary of every
later one:

- `Fault`: how a run of the code stops without a result — a panic of a debug
  build (an overflow, an index out of bounds, a failed assertion,
  `unreachable!`) or a `DecodeError` returned by a decoder;
- the checked arithmetic of a debug build, and the integer methods the code
  calls (`count_ones`, `trailing_zeros`, `leading_zeros`), with the two
  helpers `high_bit` and `floor_power_of_2`.

Every statement about plans is phrased over `setBits x`, the set bits of `x`
in ascending order; the integer methods are read off it. The two bit tricks the
code plays on plans are characterized there once: `x & (x-1)` drops the lowest
set bit (`setBits_and_sub_one`), `(x-1) & !x` is the mask below it
(`sub_one_and_not`), and `x ^ (1 << high_bit(x))` drops the highest
(`setBits_xor_highBit`).
-/

namespace FrayedCascade

/-- How a run stops without a result, with the text the code prints. -/
inductive Fault where
  | panic (msg : String)
  | decodeError (msg : String)
  deriving DecidableEq, Repr

abbrev Locator := BitVec 32

abbrev Plan := Locator

/-! ## Checked arithmetic of a debug build -/

def subOverflow : Fault := .panic "attempt to subtract with overflow"

def addOverflow : Fault := .panic "attempt to add with overflow"

/-- `a - b` on an unsigned integer, of any width. -/
def checkedSub (a b : Nat) : Except Fault Nat :=
  if b ≤ a then .ok (a - b) else .error subOverflow

/-- `a + b` on a `usize`. -/
def usizeAdd (a b : Nat) : Except Fault Nat :=
  if a + b < 2 ^ 64 then .ok (a + b) else .error addOverflow

/-- `a - b` on a `u32`. -/
def subU32 (a b : Locator) : Except Fault Locator :=
  if b ≤ a then .ok (a - b) else .error subOverflow

/-- `a + b` on a `u32`. -/
def addU32 (a b : Locator) : Except Fault Locator :=
  if a.toNat + b.toNat < 2 ^ 32 then .ok (a + b) else .error addOverflow

/-- `x << s` on a `u32`: the shift amount must be below the width. -/
def shlU32 (x : Locator) (s : Nat) : Except Fault Locator :=
  if s < 32 then .ok (x <<< s) else .error (.panic "attempt to shift left with overflow")

/-- `v[i]` on a `Vec`: panics out of bounds. -/
def index {α : Type} (l : List α) (i : Nat) : Except Fault α :=
  match l[i]? with
  | some a => .ok a
  | none => .error (.panic "index out of bounds")

@[simp] theorem index_of_lt {α : Type} {l : List α} {i : Nat} (h : i < l.length) :
    index l i = .ok l[i] := by
  simp [index, List.getElem?_eq_getElem h]

@[simp] theorem checkedSub_of_le {a b : Nat} (h : b ≤ a) : checkedSub a b = .ok (a - b) :=
  if_pos h

@[simp] theorem usizeAdd_of_lt {a b : Nat} (h : a + b < 2 ^ 64) : usizeAdd a b = .ok (a + b) :=
  if_pos h

@[simp] theorem subU32_of_le {a b : Locator} (h : b ≤ a) : subU32 a b = .ok (a - b) :=
  if_pos h

@[simp] theorem addU32_of_lt {a b : Locator} (h : a.toNat + b.toNat < 2 ^ 32) :
    addU32 a b = .ok (a + b) :=
  if_pos h

@[simp] theorem shlU32_of_lt {x : Locator} {s : Nat} (h : s < 32) : shlU32 x s = .ok (x <<< s) :=
  if_pos h

/-! ## Set bits and the integer methods -/

/-- The set bits of `x`, ascending. -/
def setBits (x : Locator) : List Nat := (List.range 32).filter (x.getLsbD ·)

/-- `x.count_ones()`. -/
def countOnes (x : Locator) : Nat := (setBits x).length

/-- `x.trailing_zeros()`: the lowest set bit, and 32 for 0. -/
def trailingZeros (x : Locator) : Nat := (setBits x).headD 32

/-- `x.leading_zeros()`: 31 minus the highest set bit, and 32 for 0. -/
def leadingZeros (x : Locator) : Nat :=
  match (setBits x).getLast? with
  | some h => 31 - h
  | none => 32

/-- `high_bit`: `Locator::BITS - 1 - x.leading_zeros()`, which panics on 0. -/
def highBit (x : Locator) : Except Fault Nat := checkedSub (32 - 1) (leadingZeros x)

/-- `floor_power_of_2`: "Next power of 2 that's less than x; minimum 1". -/
def floorPowerOf2 (x : Locator) : Except Fault Locator :=
  if x = 0 then .ok 1 else do shlU32 1 (← highBit x)

@[simp] theorem mem_setBits {x : Locator} {i : Nat} :
    i ∈ setBits x ↔ i < 32 ∧ x.getLsbD i = true := by
  simp [setBits]

theorem sorted_setBits (x : Locator) : (setBits x).Sorted (· < ·) :=
  (List.sorted_lt_range 32).filter _

theorem lt_of_mem_setBits {x : Locator} {i : Nat} (h : i ∈ setBits x) : i < 32 :=
  (mem_setBits.1 h).1

/-- Two ascending lists with the same members are equal. -/
theorem eq_of_sorted_of_mem_iff {l₁ l₂ : List Nat} (h₁ : l₁.Sorted (· < ·))
    (h₂ : l₂.Sorted (· < ·)) (h : ∀ a, a ∈ l₁ ↔ a ∈ l₂) : l₁ = l₂ :=
  List.eq_of_perm_of_sorted ((List.perm_ext_iff_of_nodup h₁.nodup h₂.nodup).2 h) h₁ h₂

/-- `setBits x` is the ascending list of exactly the bits `x` has. -/
theorem setBits_eq {x : Locator} {l : List Nat} (hl : l.Sorted (· < ·))
    (h : ∀ i, i ∈ l ↔ i < 32 ∧ x.getLsbD i = true) : setBits x = l :=
  eq_of_sorted_of_mem_iff (sorted_setBits x) hl fun i => by rw [mem_setBits, h]

theorem setBits_eq_nil {x : Locator} : setBits x = [] ↔ x = 0 := by
  constructor
  · intro h
    ext i
    have := mt (@mem_setBits x i).2
    simp_all
  · rintro rfl
    simp [setBits]

@[simp] theorem setBits_zero : setBits 0#32 = [] := by decide

theorem setBits_ne_nil {x : Locator} (hx : x ≠ 0) : setBits x ≠ [] :=
  mt setBits_eq_nil.1 hx

/-- A power of two has exactly one set bit. -/
theorem setBits_of_toNat_eq_two_pow {x : Locator} {k : Nat} (h : x.toNat = 2 ^ k) :
    setBits x = [k] := by
  have hk : k < 32 := by
    have := x.isLt; rw [h] at this; exact (Nat.pow_lt_pow_iff_right (by decide)).1 this
  refine setBits_eq (List.sorted_singleton k) fun i => ?_
  rw [List.mem_singleton, ← BitVec.testBit_toNat, h, Nat.testBit_two_pow]
  constructor
  · rintro rfl; exact ⟨hk, by simp⟩
  · rintro ⟨-, h⟩; simpa [eq_comm] using h

theorem leadingZeros_of_toNat_eq_two_pow {x : Locator} {k : Nat} (h : x.toNat = 2 ^ k) :
    leadingZeros x = 31 - k := by
  simp [leadingZeros, setBits_of_toNat_eq_two_pow h]

/-! ## Masks -/

/-- The mask of the bits `[0, t)`. -/
def lowMask (t : Nat) : Locator := .ofNat 32 (2 ^ t - 1)

/-- The mask of the bits `[lo, hi)`. -/
def rangeMask (lo hi : Nat) : Locator := .ofNat 32 (2 ^ hi - 2 ^ lo)

@[simp] theorem getLsbD_lowMask (t i : Nat) :
    (lowMask t).getLsbD i = (decide (i < 32) && decide (i < t)) := by
  simp [lowMask, BitVec.getLsbD_ofNat]

theorem two_pow_sub_two_pow {lo hi : Nat} (h : lo ≤ hi) :
    2 ^ hi - 2 ^ lo = 2 ^ lo * (2 ^ (hi - lo) - 1) := by
  rw [Nat.mul_sub_one, ← Nat.pow_add, Nat.add_sub_cancel' h]

@[simp] theorem getLsbD_rangeMask {lo hi : Nat} (h : lo ≤ hi) (i : Nat) :
    (rangeMask lo hi).getLsbD i = (decide (i < 32) && decide (lo ≤ i) && decide (i < hi)) := by
  rw [rangeMask, BitVec.getLsbD_ofNat, two_pow_sub_two_pow h, Nat.testBit_mul_pow_two,
    Nat.testBit_two_pow_sub_one]
  by_cases h₁ : lo ≤ i <;> by_cases h₂ : i < hi <;> simp [h₁, h₂]
  all_goals omega

theorem setBits_rangeMask {lo hi : Nat} (h : lo ≤ hi) (hhi : hi ≤ 32) :
    setBits (rangeMask lo hi) = List.range' lo (hi - lo) :=
  setBits_eq (List.pairwise_lt_range' lo (hi - lo)) fun i => by
    simp only [List.mem_range'_1, getLsbD_rangeMask h, Bool.and_eq_true, decide_eq_true_eq]
    omega

theorem lowMask_and_not {lo hi : Nat} (h : lo ≤ hi) :
    lowMask hi &&& ~~~lowMask lo = rangeMask lo hi := by
  ext i
  simp only [BitVec.getLsbD_and, BitVec.getLsbD_not, getLsbD_lowMask, getLsbD_rangeMask h]
  by_cases h₁ : lo ≤ i <;> by_cases h₂ : i < hi <;> simp [h₁, h₂, i.isLt]
  all_goals omega

/-! ## The lowest set bit -/

theorem setBits_eq_cons {x : Locator} (hx : x ≠ 0) :
    setBits x = trailingZeros x :: (setBits x).tail := by
  rw [trailingZeros]
  cases h : setBits x with
  | nil => exact absurd h (setBits_ne_nil hx)
  | cons t rest => rfl

theorem trailingZeros_mem {x : Locator} (hx : x ≠ 0) : trailingZeros x ∈ setBits x := by
  rw [setBits_eq_cons hx]; exact List.mem_cons_self _ _

theorem trailingZeros_le {x : Locator} {i : Nat} (hi : i ∈ setBits x) : trailingZeros x ≤ i := by
  have hx : x ≠ 0 := fun h => by simp [h, setBits_eq_nil.2 rfl] at hi
  have hs := sorted_setBits x
  rw [setBits_eq_cons hx] at hs hi
  rcases List.mem_cons.1 hi with rfl | hi
  · exact le_rfl
  · exact le_of_lt (List.rel_of_sorted_cons hs i hi)

theorem trailingZeros_zero : trailingZeros 0 = 32 := by
  rw [trailingZeros, setBits_eq_nil.2 rfl]; rfl

/-- The bits of `n - 1` when `t` is the lowest set bit of `n`: ones below `t`,
a zero at `t`, and the bits of `n` above. -/
theorem testBit_sub_one {n t : Nat} (hlow : ∀ i < t, n.testBit i = false)
    (ht : n.testBit t = true) (i : Nat) :
    (n - 1).testBit i = (decide (i < t) || (decide (t < i) && n.testBit i)) := by
  have hmod : n % 2 ^ t = 0 := Nat.eq_of_testBit_eq fun i => by
    rw [Nat.testBit_mod_two_pow]
    by_cases h : i < t <;> simp [h, hlow]
  obtain ⟨q, hn⟩ : ∃ q, n = 2 ^ t * q := ⟨n / 2 ^ t, by have := Nat.div_add_mod n (2 ^ t); omega⟩
  have hbit : ∀ j, n.testBit j = (decide (j ≥ t) && q.testBit (j - t)) := fun j => by
    rw [hn, Nat.testBit_mul_pow_two]
  have hq : q % 2 = 1 := by
    have := hbit t; simp_all [Nat.testBit_zero]
  have hpos : 2 ^ t ≤ 2 ^ t * q := Nat.le_mul_of_pos_right _ (by omega)
  have hsub : n - 1 = 2 ^ t * (q - 1) + (2 ^ t - 1) := by
    rw [Nat.mul_sub_one]; have := Nat.two_pow_pos t; omega
  rw [hsub, Nat.testBit_mul_pow_two_add _ (Nat.sub_lt (Nat.two_pow_pos t) Nat.one_pos)]
  rcases Nat.lt_trichotomy i t with h | rfl | h
  · simp [h]
  · simp [Nat.testBit_zero]; omega
  · obtain ⟨k, hk⟩ : ∃ k, i - t = k + 1 := ⟨i - t - 1, by omega⟩
    have hq2 : (q - 1) / 2 = q / 2 := by omega
    simp [show ¬ i < t from by omega, hk, Nat.testBit_add_one, hq2, hbit i, h,
      show t ≤ i from by omega]

theorem toNat_sub_one {x : Locator} (hx : x ≠ 0) : (x - 1).toNat = x.toNat - 1 := by
  have h0 : x.toNat ≠ 0 := fun h => hx (BitVec.eq_of_toNat_eq (by simpa using h))
  have := x.isLt
  simp only [BitVec.toNat_sub]
  simp
  omega

theorem getLsbD_sub_one {x : Locator} (hx : x ≠ 0) (i : Nat) :
    (x - 1).getLsbD i = (decide (i < 32) &&
      (decide (i < trailingZeros x) || (decide (trailingZeros x < i) && x.getLsbD i))) := by
  by_cases hi : i < 32
  · have hlow : ∀ j < trailingZeros x, x.toNat.testBit j = false := fun j hj => by
      by_contra hb
      have hm : j ∈ setBits x := mem_setBits.2 ⟨by
        have := lt_of_mem_setBits (trailingZeros_mem hx); omega, by simpa using hb⟩
      exact absurd (trailingZeros_le hm) (by omega)
    have ht := (mem_setBits.1 (trailingZeros_mem hx)).2
    simp only [BitVec.getLsbD, toNat_sub_one hx, testBit_sub_one hlow ht, decide_eq_true hi,
      Bool.true_and]
  · simp [BitVec.getLsbD_ge _ _ (by omega : 32 ≤ i), hi]

/-- `x & (x-1)` drops the lowest set bit. -/
theorem setBits_and_sub_one (x : Locator) : setBits (x &&& (x - 1)) = (setBits x).tail := by
  by_cases hx : x = 0
  · subst hx; simp
  have hs := sorted_setBits x
  rw [setBits_eq_cons hx] at hs
  refine setBits_eq hs.of_cons fun i => ?_
  have hcons := setBits_eq_cons hx
  constructor
  · intro hi
    have hm : i ∈ setBits x := by rw [hcons]; exact List.mem_cons_of_mem _ hi
    have hlt := List.rel_of_sorted_cons hs i hi
    obtain ⟨h32, hb⟩ := mem_setBits.1 hm
    rw [BitVec.getLsbD_and, getLsbD_sub_one hx]
    simp [h32, hb, hlt]
  · rintro ⟨h32, hb⟩
    rw [BitVec.getLsbD_and, getLsbD_sub_one hx] at hb
    simp only [Bool.and_eq_true, Bool.or_eq_true, decide_eq_true_eq] at hb
    have hm : i ∈ setBits x := mem_setBits.2 ⟨h32, hb.1⟩
    have hle := trailingZeros_le hm
    rw [hcons] at hm
    rcases List.mem_cons.1 hm with rfl | hm
    · omega
    · exact hm

/-- `(x-1) & !x` is the mask of the bits below the lowest set bit (all ones
for 0, where the subtraction wraps). -/
theorem sub_one_and_not (x : Locator) : (x - 1) &&& ~~~x = lowMask (trailingZeros x) := by
  by_cases hx : x = 0
  · subst hx; rw [trailingZeros_zero]; decide
  ext i
  have hb : x.getLsbD i = true → trailingZeros x ≤ i := fun h =>
    trailingZeros_le (mem_setBits.2 ⟨i.isLt, h⟩)
  rw [BitVec.getLsbD_and, BitVec.getLsbD_not, getLsbD_sub_one hx, getLsbD_lowMask]
  cases h : x.getLsbD i <;> simp [h, i.isLt, hb]

/-! ## The highest set bit -/

theorem getLsbD_one_shiftLeft {h i : Nat} (hh : h < 32) :
    ((1 : Locator) <<< h).getLsbD i = decide (i = h) := by
  rw [BitVec.getLsbD_shiftLeft]
  by_cases h₁ : i = h <;> simp [h₁, hh]
  omega

theorem lt_getLast_of_mem_dropLast {l : List Nat} (hl : l.Sorted (· < ·)) (hne : l ≠ [])
    {a : Nat} (ha : a ∈ l.dropLast) : a < l.getLast hne := by
  have hs := hl
  rw [← List.dropLast_append_getLast hne, List.Sorted, List.pairwise_append] at hs
  exact hs.2.2 a ha _ (List.mem_singleton_self _)

theorem mem_dropLast_iff {l : List Nat} (hl : l.Sorted (· < ·)) (hne : l ≠ []) {a : Nat} :
    a ∈ l.dropLast ↔ a ∈ l ∧ a ≠ l.getLast hne := by
  constructor
  · intro ha
    exact ⟨List.dropLast_subset l ha, (lt_getLast_of_mem_dropLast hl hne ha).ne⟩
  · rintro ⟨ha, hne'⟩
    rw [← List.dropLast_append_getLast hne, List.mem_append, List.mem_singleton] at ha
    exact ha.resolve_right hne'

theorem highBit_eq {x : Locator} (hx : x ≠ 0) :
    highBit x = .ok ((setBits x).getLast (setBits_ne_nil hx)) := by
  have hlt := lt_of_mem_setBits (List.getLast_mem (setBits_ne_nil hx))
  simp only [highBit, leadingZeros, List.getLast?_eq_getLast _ (setBits_ne_nil hx)]
  rw [checkedSub_of_le (by omega)]
  congr 1; omega

theorem highBit_lt {x : Locator} (hx : x ≠ 0) :
    (setBits x).getLast (setBits_ne_nil hx) < 32 :=
  lt_of_mem_setBits (List.getLast_mem _)

/-- `x ^ (1 << h)`, with `h` the highest set bit, drops that bit. -/
theorem setBits_xor_highBit {x : Locator} (hx : x ≠ 0) :
    setBits (x ^^^ ((1 : Locator) <<< (setBits x).getLast (setBits_ne_nil hx))) =
      (setBits x).dropLast := by
  have hs := sorted_setBits x
  refine setBits_eq (hs.sublist (List.dropLast_sublist _)) fun i => ?_
  rw [mem_dropLast_iff hs (setBits_ne_nil hx), mem_setBits, BitVec.getLsbD_xor, getLsbD_one_shiftLeft (highBit_lt hx)]
  have htop := (mem_setBits.1 (List.getLast_mem (setBits_ne_nil hx))).2
  by_cases h : i = (setBits x).getLast (setBits_ne_nil hx)
  · subst h; simp [htop]
  · simp [h]

/-! ## Powers of two -/

theorem toNat_eq_two_pow_of_setBits {x : Locator} {k : Nat} (h : setBits x = [k]) :
    x.toNat = 2 ^ k := by
  apply Nat.eq_of_testBit_eq
  intro i
  rw [Nat.testBit_two_pow, BitVec.testBit_toNat]
  by_cases hi : i < 32
  · have := @mem_setBits x i
    rw [h, List.mem_singleton] at this
    by_cases hik : k = i
    · subst hik; simpa using (this.1 rfl).2
    · have : x.getLsbD i ≠ true := fun hx => hik (this.2 ⟨hi, hx⟩).symm
      simpa [hik] using this
  · have hk : k < 32 := lt_of_mem_setBits (by rw [h]; exact List.mem_singleton_self k)
    rw [BitVec.getLsbD_ge _ _ (by omega)]; simp; omega

/-- `count_ones() == 1` exactly for the powers of two. -/
theorem countOnes_eq_one_iff {x : Locator} : countOnes x = 1 ↔ ∃ k, x.toNat = 2 ^ k := by
  constructor
  · intro h
    obtain ⟨k, hk⟩ := List.length_eq_one.1 h
    exact ⟨k, toNat_eq_two_pow_of_setBits hk⟩
  · rintro ⟨k, hk⟩
    rw [countOnes, setBits_of_toNat_eq_two_pow hk]; rfl

/-- The highest set bit is `Nat.log2`. -/
theorem getLast_setBits {x : Locator} (hx : x ≠ 0) :
    (setBits x).getLast (setBits_ne_nil hx) = Nat.log2 x.toNat := by
  have hs := sorted_setBits x
  set h := (setBits x).getLast (setBits_ne_nil hx)
  have hmem := mem_setBits.1 (List.getLast_mem (setBits_ne_nil hx))
  have hx0 : x.toNat ≠ 0 := fun h0 => hx (BitVec.eq_of_toNat_eq (by simpa using h0))
  have hlo : 2 ^ h ≤ x.toNat := Nat.testBit_implies_ge (by rw [BitVec.testBit_toNat]; exact hmem.2)
  have hhi : x.toNat < 2 ^ (h + 1) := Nat.lt_pow_two_of_testBit _ fun i hi => by
    rw [BitVec.testBit_toNat]
    by_contra hc
    have hi32 : i < 32 := by
      by_contra h32; exact hc (by rw [BitVec.getLsbD_ge _ _ (by omega)])
    have himem : i ∈ setBits x := mem_setBits.2 ⟨hi32, by simpa using hc⟩
    rw [← List.dropLast_append_getLast (setBits_ne_nil hx), List.mem_append,
      List.mem_singleton] at himem
    rcases himem with himem | himem
    · have := lt_getLast_of_mem_dropLast hs (setBits_ne_nil hx) himem; omega
    · omega
  exact le_antisymm ((Nat.le_log2 hx0).2 hlo) (Nat.lt_succ_iff.1 ((Nat.log2_lt hx0).2 hhi))

theorem highBit_eq_log2 {x : Locator} (hx : x ≠ 0) : highBit x = .ok (Nat.log2 x.toNat) := by
  rw [highBit_eq hx, getLast_setBits hx]

theorem log2_toNat_lt {x : Locator} : Nat.log2 x.toNat < 32 := by
  by_cases hx : x.toNat = 0
  · simp [hx]
  · exact (Nat.log2_lt hx).2 x.isLt

/-- `x & (x-1) == 0` tests for a power of two. -/
theorem and_sub_one_eq_zero_iff {x : Locator} (hx : x ≠ 0) :
    x &&& (x - 1) = 0 ↔ ∃ k, x.toNat = 2 ^ k := by
  rw [← setBits_eq_nil, setBits_and_sub_one, ← countOnes_eq_one_iff, countOnes,
    ← List.length_eq_zero, List.length_tail]
  have := List.length_pos.2 (setBits_ne_nil hx)
  omega

end FrayedCascade
