import FrayedCascade.Locator

/-!
# Phases of a plan

A plan's set bits `b₀ < … < b_{m-1}` mark where phases start; phase `j` owns
the locator bits `[b_j, b_{j+1})`, the top one ending at 32 (`phaseBounds`).
Three places of `nonuniform.rs` cut a plan into these phases, each with its own
bit tricks:

- `build`'s `while plan_tmp != 0` loop, which pushes one mask per phase
  (`phaseBits`);
- `borrow_decode`'s loop, which recomputes each phase's `bits_per_value` from
  the trailing zeros of successive plans (`decodePlanStep`);
- `query`, which peels the plan from the top with `high_bit` (`popHigh`) and
  grows its known-bit mask by `(1<<h1) - (1<<h2)` (`penultimateMask`) and
  `((1 as Locator)<<h).wrapping_neg()` (`aboveMask`).

Each is characterized here against `phaseBounds (setBits plan)`; the agreement
of the three is assembled in `Query`, once the query loop is modelled.
-/

namespace FrayedCascade

/-- The phase ranges `[b_j, b_{j+1})` of a plan with set bits `bs`. -/
def phaseBounds : List Nat → List (Nat × Nat)
  | [] => []
  | b :: bs => (b, bs.headD 32) :: phaseBounds bs

@[simp] theorem phaseBounds_nil : phaseBounds [] = [] := rfl

@[simp] theorem phaseBounds_cons (b : Nat) (bs : List Nat) :
    phaseBounds (b :: bs) = (b, bs.headD 32) :: phaseBounds bs := rfl

@[simp] theorem length_phaseBounds (bs : List Nat) : (phaseBounds bs).length = bs.length := by
  induction bs <;> simp [*]

@[simp] theorem map_fst_phaseBounds (bs : List Nat) : (phaseBounds bs).map Prod.fst = bs := by
  induction bs <;> simp [*]

/-- A list of bits below 32, ascending. -/
def BitList (bs : List Nat) : Prop := bs.Sorted (· < ·) ∧ ∀ b ∈ bs, b < 32

theorem bitList_setBits (x : Locator) : BitList (setBits x) :=
  ⟨sorted_setBits x, fun _ => lt_of_mem_setBits⟩

theorem BitList.tail {b : Nat} {bs : List Nat} (h : BitList (b :: bs)) : BitList bs :=
  ⟨h.1.of_cons, fun c hc => h.2 c (List.mem_cons_of_mem _ hc)⟩

theorem BitList.lt_headD {b : Nat} {bs : List Nat} (h : BitList (b :: bs)) : b < bs.headD 32 := by
  cases bs with
  | nil => exact h.2 b (List.mem_singleton_self _)
  | cons c cs => exact List.rel_of_sorted_cons h.1 c (List.mem_cons_self _ _)

theorem BitList.headD_le {bs : List Nat} (h : BitList bs) : bs.headD 32 ≤ 32 := by
  cases bs with
  | nil => exact le_rfl
  | cons c cs => exact (h.2 c (List.mem_cons_self _ _)).le

/-- Every phase range is non-empty and ends by bit 32. -/
theorem lt_of_mem_phaseBounds {bs : List Nat} (h : BitList bs) {p : Nat × Nat}
    (hp : p ∈ phaseBounds bs) : p.1 < p.2 ∧ p.2 ≤ 32 := by
  induction bs with
  | nil => simp at hp
  | cons b bs ih =>
    rcases List.mem_cons.1 hp with rfl | hp
    · exact ⟨h.lt_headD, h.tail.headD_le⟩
    · exact ih h.tail hp

/-- The phase ranges cover `[b₀, 32)`. -/
theorem mem_phaseBounds_cover {b : Nat} {bs : List Nat} (h : BitList (b :: bs)) {i : Nat} :
    (b ≤ i ∧ i < 32) ↔ ∃ p ∈ phaseBounds (b :: bs), p.1 ≤ i ∧ i < p.2 := by
  induction bs generalizing b with
  | nil => simp
  | cons c cs ih =>
    have hbc := h.lt_headD
    simp only [List.headD_cons] at hbc
    have hc := h.2 c (by simp)
    rw [phaseBounds_cons b (c :: cs)]
    simp only [List.mem_cons, exists_eq_or_imp, List.headD_cons]
    rw [← ih h.tail]
    omega

/-! ## `build`: the `phase_bits` loop -/

/-- One pass of `build`'s `while plan_tmp != 0` body. The loop guard makes
`plan_tmp-1` safe; `plan_tmp_2.wrapping_sub(1)` wraps by design. -/
def phaseBitsStep (planTmp : Plan) : Locator × Plan :=
  let planTmp2 := planTmp &&& (planTmp - 1)
  let beforePlan := (planTmp - 1) &&& ~~~planTmp
  let beforePlan2 := (planTmp2 - 1) &&& ~~~planTmp2
  (beforePlan2 &&& ~~~beforePlan, planTmp2)

/-- The loop, on fuel; it runs once per set bit, so 32 always suffices. -/
def phaseBitsLoop : Nat → Plan → List Locator
  | 0, _ => []
  | fuel + 1, planTmp =>
    if planTmp = 0 then [] else (phaseBitsStep planTmp).1 :: phaseBitsLoop fuel (phaseBitsStep planTmp).2

/-- `build`'s `phase_bits`. -/
def phaseBits (plan : Plan) : List Locator := phaseBitsLoop 32 plan

theorem trailingZeros_eq_headD (x : Locator) : trailingZeros x = (setBits x).headD 32 := rfl

theorem phaseBitsStep_eq {x : Locator} (hx : x ≠ 0) :
    phaseBitsStep x = (rangeMask (trailingZeros x) ((setBits x).tail.headD 32), x &&& (x - 1)) := by
  have hb := bitList_setBits x
  rw [setBits_eq_cons hx] at hb
  simp only [phaseBitsStep, sub_one_and_not, trailingZeros_eq_headD (x &&& (x - 1)),
    setBits_and_sub_one]
  rw [lowMask_and_not hb.lt_headD.le]

theorem phaseBitsLoop_eq : ∀ (fuel : Nat) (x : Locator), (setBits x).length ≤ fuel →
    phaseBitsLoop fuel x = (phaseBounds (setBits x)).map fun p => rangeMask p.1 p.2
  | 0, x, h => by
    rw [List.length_eq_zero.1 (Nat.le_zero.1 h)]; rfl
  | fuel + 1, x, h => by
    by_cases hx : x = 0
    · subst hx; simp [phaseBitsLoop]
    have hcons := setBits_eq_cons hx
    have ih := phaseBitsLoop_eq fuel (x &&& (x - 1)) (by
      rw [setBits_and_sub_one, List.length_tail]; omega)
    rw [phaseBitsLoop, if_neg hx, phaseBitsStep_eq hx, ih, setBits_and_sub_one, hcons]
    simp

theorem phaseBits_eq (plan : Plan) :
    phaseBits plan = (phaseBounds (setBits plan)).map fun p => rangeMask p.1 p.2 :=
  phaseBitsLoop_eq 32 plan (by
    have := List.length_filter_le (plan.getLsbD ·) (List.range 32)
    simpa [setBits] using this)

theorem trailingZeros_rangeMask {lo hi : Nat} (h : lo < hi) (hhi : hi ≤ 32) :
    trailingZeros (rangeMask lo hi) = lo := by
  rw [trailingZeros_eq_headD, setBits_rangeMask h.le hhi,
    show hi - lo = (hi - lo - 1) + 1 by omega, List.range'_succ]
  rfl

theorem countOnes_rangeMask {lo hi : Nat} (h : lo ≤ hi) (hhi : hi ≤ 32) :
    countOnes (rangeMask lo hi) = hi - lo := by
  rw [countOnes, setBits_rangeMask h hhi, List.length_range']

/-! ## `borrow_decode`: the per-phase `bits_per_value` -/

/-- `borrow_decode`'s `next_plan` and `bpv` for one phase. -/
def decodePlanStep (curPlan : Plan) : Except Fault (Plan × Nat) := do
  let nextPlan := curPlan &&& (← subU32 curPlan 1)
  let bpv ← checkedSub (trailingZeros nextPlan) (trailingZeros curPlan)
  pure (nextPlan, bpv)

theorem one_le_of_ne_zero {x : Locator} (hx : x ≠ 0) : (1 : Locator) ≤ x := by
  rw [BitVec.le_def]
  have : x.toNat ≠ 0 := fun h => hx (BitVec.eq_of_toNat_eq (by simpa using h))
  simp
  omega

theorem decodePlanStep_eq {x : Locator} (hx : x ≠ 0) :
    decodePlanStep x =
      .ok (x &&& (x - 1), (setBits x).tail.headD 32 - trailingZeros x) := by
  have hb := bitList_setBits x
  rw [setBits_eq_cons hx] at hb
  have hlt := hb.lt_headD
  simp only [decodePlanStep, subU32_of_le (one_le_of_ne_zero hx), bind, Except.bind,
    trailingZeros_eq_headD (x &&& (x - 1)), setBits_and_sub_one,
    checkedSub_of_le (show trailingZeros x ≤ (setBits x).tail.headD 32 from hlt.le)]
  rfl

/-! ## `query`: peeling the plan from the top -/

/-- `query`'s `let h = high_bit(plan); plan ^= 1<<h;`. -/
def popHigh (plan : Plan) : Except Fault (Nat × Plan) := do
  let h ← highBit plan
  pure (h, plan ^^^ (← shlU32 1 h))

/-- `query`'s penultimate known-mask increment `(1<<h1) - (1<<h2)`. -/
def penultimateMask (h1 h2 : Nat) : Except Fault Locator := do
  subU32 (← shlU32 1 h1) (← shlU32 1 h2)

/-- `query`'s later known-mask increment `((1 as Locator)<<h).wrapping_neg()`. -/
def aboveMask (h : Nat) : Except Fault Locator := do
  pure (-(← shlU32 1 h))

theorem popHigh_eq {x : Locator} (hx : x ≠ 0) :
    popHigh x = .ok ((setBits x).getLast (setBits_ne_nil hx),
      x ^^^ ((1 : Locator) <<< (setBits x).getLast (setBits_ne_nil hx))) := by
  simp only [popHigh, highBit_eq hx, bind, Except.bind, shlU32_of_lt (highBit_lt hx)]
  rfl

theorem toNat_one_shiftLeft {h : Nat} (hh : h < 32) : ((1 : Locator) <<< h).toNat = 2 ^ h := by
  have := Nat.pow_lt_pow_of_lt (show 1 < 2 by decide) hh
  simp [Nat.one_shiftLeft, Nat.mod_eq_of_lt this]

theorem penultimateMask_eq {h1 h2 : Nat} (h : h2 < h1) (h1lt : h1 < 32) :
    penultimateMask h1 h2 = .ok (rangeMask h2 h1) := by
  have hp : 2 ^ h2 < 2 ^ h1 := Nat.pow_lt_pow_of_lt (show 1 < 2 by decide) h
  have hq : 2 ^ h1 < 2 ^ 32 := Nat.pow_lt_pow_of_lt (show 1 < 2 by decide) h1lt
  have hle : (1 : Locator) <<< h2 ≤ (1 : Locator) <<< h1 := by
    rw [BitVec.le_def, toNat_one_shiftLeft (by omega), toNat_one_shiftLeft h1lt]; omega
  simp only [penultimateMask, shlU32_of_lt h1lt, shlU32_of_lt (show h2 < 32 by omega), bind,
    Except.bind, subU32_of_le hle]
  congr 1
  apply BitVec.eq_of_toNat_eq
  rw [BitVec.toNat_sub, toNat_one_shiftLeft h1lt, toNat_one_shiftLeft (by omega), rangeMask,
    BitVec.toNat_ofNat]
  omega

theorem aboveMask_eq {h : Nat} (hh : h < 32) : aboveMask h = .ok (rangeMask h 32) := by
  have hq : 2 ^ h < 2 ^ 32 := Nat.pow_lt_pow_of_lt (show 1 < 2 by decide) hh
  have hp := Nat.two_pow_pos h
  simp only [aboveMask, shlU32_of_lt hh, bind, Except.bind, pure, Except.pure]
  congr 1
  apply BitVec.eq_of_toNat_eq
  rw [BitVec.toNat_neg, toNat_one_shiftLeft hh, rangeMask, BitVec.toNat_ofNat]

end FrayedCascade
