import FrayedCascade.Map

/-!
# Query

`query` turns a key into a locator one phase at a time and bisects the
response table after each phase, stopping as soon as the answer is pinned.
This file models it (`bsearch`, `queryPenultimate`, `queryLoop`, `query`) and
proves that each early exit agrees with the lookup of the fully assembled
locator (`query_eq_lookup_fullLocator`).

After every phase the accumulated `locator` is the full locator `L` masked to
`known_mask` (`Tracks`). So `L` lies in `[locator, locator | !known_mask]`,
and an answer `bsearch` gives for that range is `L`'s answer. The mask only
grows, and once it covers all 32 bits the range is the single point `L`, where
`bsearch` always answers: `unreachable!` is never reached.

The step lemmas `queryPenultimate_eq` and `queryLoop_cons_eq` say which phase
each step reads, at which shift, and which bits it marks known; with the
`phase_bits` and `borrow_decode` facts of `Phases` they give `phases_agree`
(in `Codec`).
-/

namespace FrayedCascade

variable {K V : Type}

/-! ## Bisection -/

/-- `response_map.partition_point(|(begin,_v)| *begin <= low)`: the length of
the longest prefix whose lower bounds are at most `low`. This is what `std`
returns on a slice that the predicate partitions, as every table `build` or
`borrow_decode` produces is; elsewhere `std` leaves the result unspecified. -/
def partitionPoint : List (Locator × V) → Locator → Nat
  | [], _ => 0
  | e :: rest, low => if e.1 ≤ low then partitionPoint rest low + 1 else 0

/-- `bsearch`: the response, if the locator range `[low, high]` pins one. -/
def bsearch (resp : List (Locator × V)) (low high : Locator) : Except Fault (Option V) := do
  let plow ← checkedSub (partitionPoint resp low) 1
  if plow = (← checkedSub resp.length 1) then
    return some (← index resp plow).2
  if (← index resp (plow + 1)).1 > high then
    return some (← index resp plow).2
  return none

/-- The tables `build` and `borrow_decode` produce: non-empty, starting at 0,
strictly increasing. -/
structure Ascending (resp : List (Locator × V)) : Prop where
  head_zero : resp.head?.map Prod.fst = some 0
  sorted : resp.Pairwise fun a b => a.1.toNat < b.1.toNat

/-- `p` is the greatest index whose lower bound is at most `x`. -/
def IsLookup (resp : List (Locator × V)) (x : Nat) (p : Nat) : Prop :=
  ∃ hp : p < resp.length, resp[p].1.toNat ≤ x ∧
    ∀ q (hq : q < resp.length), resp[q].1.toNat ≤ x → q ≤ p

theorem Ascending.ne_nil {resp : List (Locator × V)} (h : Ascending resp) : resp ≠ [] := by
  rintro rfl; exact absurd h.head_zero (by simp)

theorem lt_partitionPoint_iff {resp : List (Locator × V)}
    (hs : resp.Pairwise fun a b => a.1.toNat < b.1.toNat) (x : Locator) {q : Nat}
    (hq : q < resp.length) : q < partitionPoint resp x ↔ resp[q].1.toNat ≤ x.toNat := by
  induction resp generalizing q with
  | nil => simp at hq
  | cons e rest ih =>
    have hrest := List.pairwise_cons.1 hs
    by_cases he : e.1 ≤ x
    · cases q with
      | zero => simpa [partitionPoint, he] using BitVec.le_def.1 he
      | succ q => simp [partitionPoint, he, ih hrest.2 (by simpa using hq)]
    · rw [BitVec.le_def] at he
      simp only [partitionPoint, BitVec.le_def, he, if_false, Nat.not_lt_zero, false_iff]
      cases q with
      | zero => exact he
      | succ q =>
        have := hrest.1 _ (List.getElem_mem (by simpa using hq))
        simp only [List.getElem_cons_succ]
        omega

theorem partitionPoint_le (resp : List (Locator × V)) (x : Locator) :
    partitionPoint resp x ≤ resp.length := by
  induction resp with
  | nil => rfl
  | cons e rest ih => simp only [partitionPoint]; split <;> simp [ih]

theorem one_le_partitionPoint {resp : List (Locator × V)} (h : Ascending resp) (x : Locator) :
    1 ≤ partitionPoint resp x := by
  cases resp with
  | nil => exact absurd rfl h.ne_nil
  | cons e rest =>
    have : e.1 = 0 := by simpa using h.head_zero
    simp [partitionPoint, this, BitVec.le_def]

theorem isLookup_partitionPoint {resp : List (Locator × V)} (h : Ascending resp) (x : Locator) :
    IsLookup resp x.toNat (partitionPoint resp x - 1) := by
  have h1 := one_le_partitionPoint h x
  have hle := partitionPoint_le resp x
  refine ⟨by omega, ?_, fun q hq hqx => ?_⟩
  · exact (lt_partitionPoint_iff h.sorted x (by omega)).1 (by omega)
  · have := (lt_partitionPoint_iff h.sorted x hq).2 hqx; omega

theorem IsLookup.unique {resp : List (Locator × V)} {x p p' : Nat} (h : IsLookup resp x p)
    (h' : IsLookup resp x p') : p = p' := by
  obtain ⟨hp, hpx, hmax⟩ := h
  obtain ⟨hp', hpx', hmax'⟩ := h'
  exact le_antisymm (hmax' p hp hpx) (hmax p' hp' hpx')

/-- `bsearch` never panics on an ascending table, and an answer it gives for
`[low, high]` is the lookup of every point of the range. -/
theorem bsearch_spec {resp : List (Locator × V)} (h : Ascending resp) (low high : Locator) :
    ∃ r, bsearch resp low high = .ok r ∧ ∀ v, r = some v → ∀ x, low.toNat ≤ x → x ≤ high.toNat →
      ∃ p, IsLookup resp x p ∧ ∃ hp : p < resp.length, resp[p].2 = v := by
  have h1 := one_le_partitionPoint h low
  have hle := partitionPoint_le resp low
  have hpl := isLookup_partitionPoint h low
  set plow := partitionPoint resp low - 1 with hplow
  have hlen : plow < resp.length := by omega
  have hanswer : ∀ x, low.toNat ≤ x → (plow + 1 < resp.length → ∀ hq : plow + 1 < resp.length,
      x < resp[plow + 1].1.toNat) → IsLookup resp x plow := by
    intro x hx hnext
    obtain ⟨_, hpx, _⟩ := hpl
    refine ⟨hlen, by omega, fun q hq hqx => ?_⟩
    by_contra hgt
    have hlt : resp[plow + 1].1.toNat ≤ resp[q].1.toNat := by
      rcases Nat.lt_or_ge (plow + 1) q with hq' | hq'
      · exact le_of_lt (List.pairwise_iff_getElem.1 h.sorted _ _ (by omega) hq hq')
      · simp only [show q = plow + 1 by omega, le_refl]
    have := hnext (by omega) (by omega)
    omega
  simp only [bsearch, checkedSub_of_le h1, checkedSub_of_le (show 1 ≤ resp.length by omega),
    bind, Except.bind, pure, Except.pure]
  by_cases hlast : plow = resp.length - 1
  · simp only [← hplow, hlast, if_true, index_of_lt (show resp.length - 1 < resp.length by omega)]
    refine ⟨_, rfl, fun v hv x hx _ => ⟨plow, hanswer x hx (by omega), hlen, ?_⟩⟩
    cases hv; simp [hlast]
  · simp only [← hplow, hlast, if_false, index_of_lt (show plow + 1 < resp.length by omega),
      index_of_lt hlen]
    by_cases hhigh : resp[plow + 1].1 > high
    · simp only [hhigh, if_true]
      refine ⟨_, rfl, fun v hv x hx hxh => ⟨plow, hanswer x hx fun _ _ => ?_, hlen, ?_⟩⟩
      · rw [gt_iff_lt, BitVec.lt_def] at hhigh; omega
      · cases hv; rfl
    · simp only [hhigh, if_false]
      exact ⟨_, rfl, fun v hv => by cases hv⟩

/-- At a single point `bsearch` always answers. -/
theorem bsearch_self {resp : List (Locator × V)} (h : Ascending resp) (x : Locator) :
    ∃ v, bsearch resp x x = .ok (some v) := by
  have h1 := one_le_partitionPoint h x
  have hle := partitionPoint_le resp x
  simp only [bsearch, checkedSub_of_le h1, checkedSub_of_le (show 1 ≤ resp.length by omega),
    bind, Except.bind, pure, Except.pure]
  by_cases hlast : partitionPoint resp x - 1 = resp.length - 1
  · simp only [hlast, if_true, index_of_lt (show resp.length - 1 < resp.length by omega)]
    exact ⟨_, rfl⟩
  · have hnext : ¬ (partitionPoint resp x - 1 + 1 < partitionPoint resp x) := by omega
    rw [lt_partitionPoint_iff h.sorted x (by omega)] at hnext
    have hgt : resp[partitionPoint resp x - 1 + 1].1 > x := by
      rw [gt_iff_lt, BitVec.lt_def]; omega
    simp only [hlast, if_false, index_of_lt (show partitionPoint resp x - 1 + 1 < resp.length by omega),
      index_of_lt (show partitionPoint resp x - 1 < resp.length by omega), hgt, if_true]
    exact ⟨_, rfl⟩


/-! ## The assembled locator -/

/-- Bound `j` of a plan with set bits `bs`: `b_j`, and 32 past the last. Phase
`j` owns `[bnd bs j, bnd bs (j + 1))`. -/
def bnd (bs : List Nat) (j : Nat) : Nat := bs.getD j 32

/-- `Σ_j o_j · 2^{b_j}`: per-phase outputs `os` placed at the shifts `bs`. -/
def chunkSum : List Nat → List Nat → Nat
  | b :: bs, o :: os => o * 2 ^ b + chunkSum bs os
  | _, _ => 0

@[simp] theorem bnd_cons_zero (b : Nat) (bs : List Nat) : bnd (b :: bs) 0 = b := rfl

@[simp] theorem bnd_cons_succ (b : Nat) (bs : List Nat) (j : Nat) :
    bnd (b :: bs) (j + 1) = bnd bs j := rfl

theorem bnd_zero (bs : List Nat) : bnd bs 0 = bs.headD 32 := by cases bs <;> rfl

theorem bnd_of_lt {bs : List Nat} {j : Nat} (h : j < bs.length) : bnd bs j = bs[j] := by
  simp [bnd, List.getElem?_eq_getElem h]

theorem BitList.le_bnd {bs : List Nat} (h : BitList bs) (j : Nat) : bs.headD 32 ≤ bnd bs j := by
  induction bs generalizing j with
  | nil => exact le_rfl
  | cons b bs ih =>
    cases j with
    | zero => exact le_rfl
    | succ j => exact h.lt_headD.le.trans (ih h.tail j)

theorem BitList.bnd_le {bs : List Nat} (h : BitList bs) (j : Nat) : bnd bs j ≤ 32 := by
  induction bs generalizing j with
  | nil => exact le_rfl
  | cons b bs ih =>
    cases j with
    | zero => exact (h.2 b (List.mem_cons_self _ _)).le
    | succ j => exact ih h.tail j

theorem BitList.bnd_lt_succ {bs : List Nat} (h : BitList bs) {j : Nat} (hj : j < bs.length) :
    bnd bs j < bnd bs (j + 1) := by
  induction bs generalizing j with
  | nil => simp at hj
  | cons b bs ih =>
    cases j with
    | zero => exact (bnd_zero bs).symm ▸ h.lt_headD
    | succ j => exact ih h.tail (by simpa using hj)

theorem testBit_add_of_dvd {x y h : Nat} (hx : x < 2 ^ h) (hy : 2 ^ h ∣ y) (i : Nat) :
    (x + y).testBit i = if i < h then x.testBit i else y.testBit i := by
  obtain ⟨t, rfl⟩ := hy
  rw [Nat.add_comm, Nat.testBit_mul_pow_two_add _ hx, Nat.testBit_mul_pow_two]
  split <;> simp_all

/-- A bit of `chunkSum` is set exactly when it lies in some phase range and the
phase's output has it. -/
theorem testBit_chunkSum {bs : List Nat} (hb : BitList bs) {os : List Nat}
    (hlen : os.length = bs.length)
    (hos : ∀ j < os.length, os.getD j 0 < 2 ^ (bnd bs (j + 1) - bnd bs j)) (i : Nat) :
    (chunkSum bs os).testBit i = true ↔ ∃ j < bs.length, bnd bs j ≤ i ∧ i < bnd bs (j + 1) ∧
      (os.getD j 0).testBit (i - bnd bs j) = true := by
  induction bs generalizing os i with
  | nil => cases os <;> simp [chunkSum]
  | cons b bs ih =>
    obtain _ | ⟨o, os⟩ := os
    · simp at hlen
    have hh := hb.lt_headD
    have ih' := ih hb.tail (by simpa using hlen) fun j hj => by simpa using hos (j + 1) (by simpa using hj)
    have ho : o * 2 ^ b < 2 ^ bs.headD 32 := by
      have := hos 0 (by simp)
      simp only [List.getD_cons_zero, bnd_cons_succ, bnd_zero, bnd_cons_zero] at this
      calc o * 2 ^ b < 2 ^ (bs.headD 32 - b) * 2 ^ b := Nat.mul_lt_mul_of_pos_right this (Nat.two_pow_pos b)
        _ = 2 ^ bs.headD 32 := by rw [← Nat.pow_add, Nat.sub_add_cancel hh.le]
    have hdvd : 2 ^ bs.headD 32 ∣ chunkSum bs os := by
      apply Nat.dvd_of_mod_eq_zero
      apply Nat.eq_of_testBit_eq
      intro k
      rw [Nat.testBit_mod_two_pow, Nat.zero_testBit]
      by_cases hk : k < bs.headD 32
      · simp only [hk, decide_True, Bool.true_and]
        by_contra hc
        obtain ⟨j, -, hj, -⟩ := (ih' k).1 (by simpa using hc)
        exact absurd (hb.tail.le_bnd j) (by omega)
      · simp only [hk, decide_False, Bool.false_and]
    simp only [chunkSum, testBit_add_of_dvd ho hdvd, List.length_cons]
    by_cases hi : i < bs.headD 32
    · rw [if_pos hi, Nat.mul_comm, Nat.testBit_mul_pow_two]
      constructor
      · intro h
        simp only [Bool.and_eq_true, decide_eq_true_eq] at h
        exact ⟨0, by simp, by simpa using h.1, by simpa [bnd_zero] using hi, by simpa using h.2⟩
      · rintro ⟨j, hj, hlo, hhi, ho'⟩
        cases j with
        | zero => simp_all
        | succ j => exact absurd (hb.tail.le_bnd j) (by simp at hlo; omega)
    · rw [if_neg hi, ih']
      constructor
      · rintro ⟨j, hj, hlo, hhi, ho'⟩
        exact ⟨j + 1, by simpa using hj, by simpa using hlo, by simpa using hhi, by simpa using ho'⟩
      · rintro ⟨j, hj, hlo, hhi, ho'⟩
        cases j with
        | zero => simp only [Nat.zero_add, bnd_cons_succ, bnd_zero] at hhi; omega
        | succ j => exact ⟨j, by simpa using hj, by simpa using hlo, by simpa using hhi, by simpa using ho'⟩

/-! ## Tracking the locator -/

/-- The bits read so far are the known ones: `locator` is `L` masked to `known`. -/
def Tracks (L locator known : Locator) : Prop := locator = L &&& known

theorem testBit_eq_false_of_lt {o n i : Nat} (ho : o < 2 ^ n) (hi : n ≤ i) : o.testBit i = false :=
  Nat.testBit_lt_two_pow (lt_of_lt_of_le ho (Nat.pow_le_pow_right (by decide) hi))

theorem getLsbD_ofNat_shiftLeft {o lo hi : Nat} (ho : o < 2 ^ (hi - lo)) (hhi : hi ≤ 32)
    (i : Nat) : (BitVec.ofNat 32 o <<< lo).getLsbD i =
      (decide (lo ≤ i) && decide (i < hi) && o.testBit (i - lo)) := by
  rw [BitVec.getLsbD_shiftLeft, BitVec.getLsbD_ofNat]
  by_cases h₁ : lo ≤ i <;> by_cases h₂ : i < hi
  · simp [h₁, h₂, show i < 32 by omega, show i - lo < 32 by omega]
  · simp [h₁, h₂, testBit_eq_false_of_lt ho (show hi - lo ≤ i - lo by omega)]
  all_goals simp [h₁, h₂]

/-- Reading one phase keeps `Tracks`: its output lands on the bits `[lo, hi)`,
and `[hi, hi')` must already be known. -/
theorem Tracks.step {L loc known : Locator} (ht : Tracks L loc known) {o lo hi hi' : Nat}
    (ho : o < 2 ^ (hi - lo)) (hlo : lo ≤ hi) (hhi : hi ≤ hi') (hhi' : hi' ≤ 32)
    (hL : ∀ i, lo ≤ i → i < hi → L.getLsbD i = o.testBit (i - lo))
    (hk : ∀ i, hi ≤ i → i < hi' → known.getLsbD i = true) :
    Tracks L (loc ||| (BitVec.ofNat 32 o <<< lo)) (known ||| rangeMask lo hi') := by
  rw [Tracks] at ht ⊢
  subst ht
  ext i
  simp only [BitVec.getLsbD_or, BitVec.getLsbD_and, getLsbD_ofNat_shiftLeft ho (hhi.trans hhi'),
    getLsbD_rangeMask (hlo.trans hhi), i.isLt, decide_True, Bool.true_and]
  by_cases h₁ : lo ≤ i.val <;> by_cases h₂ : i.val < hi
  · rw [← hL i h₁ h₂]; cases L.getLsbD i <;> simp [h₁, h₂, show i.val < hi' by omega]
  · by_cases h₃ : i.val < hi'
    · simp [h₁, h₂, h₃, hk i (by omega) h₃]
    · simp [h₁, h₂, h₃]
  · simp [h₁]
  · omega

theorem Tracks.le_toNat {L loc known : Locator} (ht : Tracks L loc known) :
    loc.toNat ≤ L.toNat ∧ L.toNat ≤ (loc ||| ~~~known).toNat := by
  rw [Tracks] at ht
  subst ht
  refine ⟨by rw [BitVec.toNat_and]; exact Nat.and_le_left, Nat.le_of_testBit fun i hi => ?_⟩
  have hi' : i < 32 := by
    by_contra h; rw [← BitVec.getLsbD, BitVec.getLsbD_ge _ _ (by omega)] at hi; cases hi
  change (_ ||| _ : Locator).getLsbD i = true
  change L.getLsbD i = true at hi
  simp [hi, hi']

theorem Tracks.eq_of_full {L loc known : Locator} (ht : Tracks L loc known)
    (hk : ∀ i < 32, known.getLsbD i = true) : loc = L ∧ loc ||| ~~~known = L := by
  rw [Tracks] at ht
  subst ht
  constructor <;> ext i <;> simp [hk i i.isLt]

/-! ## The query loop -/

/-- What a step of `query` leaves: the response, or the state to go on from. -/
inductive Lookup (V : Type) where
  | found (v : V)
  | more (locator knownMask : Locator)

def unreachableFault : Fault :=
  .panic ("internal error: entered unreachable code: CompressedRandomMap must have been " ++
    "constructed wrong; we should have a response by now")

/-- The `nphases >= 2` block: the second-highest phase first, as it usually
has the most bits. -/
def queryPenultimate (rt : Retrieval K) (m : CompressedMap V) (key : K) (knownMask : Locator) :
    Except Fault (Lookup V) := do
  let (h1, plan) ← popHigh m.plan
  let h2 ← highBit plan
  let thisphase : Locator := .ofNat 32 (rt.queryHash (← index m.core (m.core.length - 2)) key)
  let knownMask := knownMask ||| (← penultimateMask h1 h2)
  let locator := (0 : Locator) ||| (← shlU32 thisphase h2)
  match ← bsearch m.responseMap locator (locator ||| ~~~knownMask) with
  | some r => pure (.found r)
  | none => pure (.more locator knownMask)

/-- `for phase in (0..nphases).rev()`, which skips the phase already read. -/
def queryLoop (rt : Retrieval K) (m : CompressedMap V) (key : K) :
    List Nat → Plan → Locator → Locator → Except Fault V
  | [], _, _, _ => .error unreachableFault
  | phase :: rest, plan, locator, knownMask => do
    let (h, plan) ← popHigh plan
    if phase + 2 ≠ m.core.length then
      let thisphase : Locator := .ofNat 32 (rt.queryHash (← index m.core phase) key)
      let locator := locator ||| (← shlU32 thisphase h)
      let knownMask := knownMask ||| (← aboveMask h)
      match ← bsearch m.responseMap locator (locator ||| ~~~knownMask) with
      | some r => pure r
      | none => queryLoop rt m key rest plan locator knownMask
    else queryLoop rt m key rest plan locator knownMask

/-- `CompressedMap::query` (and `map[key]`). -/
def query (rt : Retrieval K) (m : CompressedMap V) (key : K) : Except Fault V := do
  if m.plan = 0 then return (← index m.responseMap 0).2
  let knownMask := (← subU32 m.plan 1) &&& ~~~m.plan
  let start ← if 2 ≤ m.core.length then queryPenultimate rt m key knownMask
    else pure (.more 0 knownMask)
  match start with
  | .found v => pure v
  | .more locator knownMask =>
    queryLoop rt m key (List.range m.core.length).reverse m.plan locator knownMask

theorem ne_zero_of_setBits_ne_nil {p : Plan} (h : setBits p ≠ []) : p ≠ 0 := by
  rintro rfl; exact h (by simp)

theorem popHigh_take {p : Plan} {bs : List Nat} {j : Nat} (hj : j < bs.length)
    (hp : setBits p = bs.take (j + 1)) :
    ∃ p', setBits p' = bs.take j ∧ popHigh p = .ok (bnd bs j, p') := by
  have htake : bs.take (j + 1) = bs.take j ++ [bnd bs j] := by
    rw [List.take_succ, List.getElem?_eq_getElem hj, bnd_of_lt hj]; rfl
  have hne : setBits p ≠ [] := by rw [hp, htake]; simp
  have hp0 := ne_zero_of_setBits_ne_nil hne
  have hlast : (setBits p).getLast (setBits_ne_nil hp0) = bnd bs j := by
    simp only [hp, htake, List.getLast_append_singleton]
  refine ⟨_, ?_, by rw [popHigh_eq hp0, hlast]⟩
  rw [← hlast, setBits_xor_highBit hp0, hp, htake, List.dropLast_concat]

/-- One pass of the loop: phase `j` is read at shift `b_j` and marks `[b_j, 32)`
known, unless it is the penultimate phase, which is skipped. -/
theorem queryLoop_cons_eq (rt : Retrieval K) (m : CompressedMap V) (key : K) {j : Nat}
    (rest : List Nat) (locator known p : Locator) (hj : j < m.core.length)
    (hlen : m.core.length = (setBits m.plan).length)
    (hp : setBits p = (setBits m.plan).take (j + 1)) :
    ∃ p', setBits p' = (setBits m.plan).take j ∧
      queryLoop rt m key (j :: rest) p locator known =
        if j + 2 ≠ m.core.length then
          bsearch m.responseMap
              (locator ||| BitVec.ofNat 32 (rt.queryHash m.core[j] key) <<< bnd (setBits m.plan) j)
              ((locator ||| BitVec.ofNat 32 (rt.queryHash m.core[j] key) <<< bnd (setBits m.plan) j) |||
                ~~~(known ||| rangeMask (bnd (setBits m.plan) j) 32)) >>= fun
            | some r => pure r
            | none => queryLoop rt m key rest p'
                (locator ||| BitVec.ofNat 32 (rt.queryHash m.core[j] key) <<< bnd (setBits m.plan) j)
                (known ||| rangeMask (bnd (setBits m.plan) j) 32)
        else queryLoop rt m key rest p' locator known := by
  have hjb : j < (setBits m.plan).length := hlen ▸ hj
  obtain ⟨p', hp', hpop⟩ := popHigh_take hjb hp
  have hb32 : bnd (setBits m.plan) j < 32 := by
    rw [bnd_of_lt hjb]; exact lt_of_mem_setBits (List.getElem_mem _)
  refine ⟨p', hp', ?_⟩
  simp only [queryLoop, hpop, bind, Except.bind, index_of_lt hj, shlU32_of_lt hb32, aboveMask_eq hb32]

theorem highBit_of_popHigh {p p' : Plan} {h : Nat} (hpop : popHigh p = .ok (h, p')) :
    highBit p = .ok h := by
  unfold popHigh at hpop
  cases hh : highBit p with
  | error e => simp only [hh, bind, Except.bind] at hpop; cases hpop
  | ok h' =>
    cases hs : shlU32 1 h' <;> simp only [hh, hs, bind, Except.bind, pure, Except.pure] at hpop
    · cases hpop
    · cases hpop; rfl

theorem bnd_lt_32 {p : Plan} {j : Nat} (hj : j < (setBits p).length) : bnd (setBits p) j < 32 := by
  rw [bnd_of_lt hj]; exact lt_of_mem_setBits (List.getElem_mem _)

/-- The penultimate step reads phase `m-2` at shift `b_{m-2}` and marks exactly
`[b_{m-2}, b_{m-1})` known. -/
theorem queryPenultimate_eq (rt : Retrieval K) (m : CompressedMap V) (key : K) (known : Locator)
    (h2 : 2 ≤ m.core.length) (hlen : m.core.length = (setBits m.plan).length) :
    queryPenultimate rt m key known =
      bsearch m.responseMap
          (BitVec.ofNat 32 (rt.queryHash m.core[m.core.length - 2] key) <<<
            bnd (setBits m.plan) (m.core.length - 2))
          ((BitVec.ofNat 32 (rt.queryHash m.core[m.core.length - 2] key) <<<
            bnd (setBits m.plan) (m.core.length - 2)) |||
            ~~~(known ||| rangeMask (bnd (setBits m.plan) (m.core.length - 2))
              (bnd (setBits m.plan) (m.core.length - 1)))) >>= fun
        | some r => pure (.found r)
        | none => pure (.more
            (BitVec.ofNat 32 (rt.queryHash m.core[m.core.length - 2] key) <<<
              bnd (setBits m.plan) (m.core.length - 2))
            (known ||| rangeMask (bnd (setBits m.plan) (m.core.length - 2))
              (bnd (setBits m.plan) (m.core.length - 1)))) := by
  have hb := bitList_setBits m.plan
  obtain ⟨p1, hp1, hpop⟩ := @popHigh_take m.plan (setBits m.plan) (m.core.length - 1)
    (by omega) (by rw [show m.core.length - 1 + 1 = (setBits m.plan).length by omega, List.take_length])
  obtain ⟨p2, -, hpop2⟩ := @popHigh_take p1 (setBits m.plan) (m.core.length - 2)
    (by omega) (by rw [hp1, show m.core.length - 2 + 1 = m.core.length - 1 by omega])
  have hlt := hb.bnd_lt_succ (show m.core.length - 2 < _ by omega)
  rw [show m.core.length - 2 + 1 = m.core.length - 1 by omega] at hlt
  have h32 := bnd_lt_32 (show m.core.length - 1 < (setBits m.plan).length by omega)
  simp only [queryPenultimate, hpop, highBit_of_popHigh hpop2, bind, Except.bind,
    index_of_lt (show m.core.length - 2 < m.core.length by omega), penultimateMask_eq hlt h32,
    shlU32_of_lt (show bnd (setBits m.plan) (m.core.length - 2) < 32 by omega),
    BitVec.ofNat_eq_ofNat, BitVec.zero_or]

/-! ## Early exits agree with the full lookup -/

/-- `v` is the response the table gives the point `x`. -/
def Answers (resp : List (Locator × V)) (x : Nat) (v : V) : Prop :=
  ∃ p, IsLookup resp x p ∧ ∃ hp : p < resp.length, resp[p].2 = v

/-- `L`'s bits in phase `j` are phase `j`'s output `o j`, and it has none below
`b₀`. -/
structure Assembled (bs : List Nat) (o : Nat → Nat) (L : Locator) : Prop where
  low : ∀ i < bnd bs 0, L.getLsbD i = false
  phase : ∀ j < bs.length, ∀ i, bnd bs j ≤ i → i < bnd bs (j + 1) →
    L.getLsbD i = (o j).testBit (i - bnd bs j)

theorem BitList.bnd_mono {bs : List Nat} (h : BitList bs) {j j' : Nat} (hjj : j ≤ j')
    (hj' : j' ≤ bs.length) : bnd bs j ≤ bnd bs j' := by
  induction j' with
  | zero => rw [Nat.le_zero.1 hjj]
  | succ j' ih =>
    rcases Nat.lt_or_ge j (j' + 1) with hlt | hge
    · exact (ih (by omega) (by omega)).trans (h.bnd_lt_succ (by omega)).le
    · rw [show j = j' + 1 by omega]

theorem assembled_chunkSum {bs os : List Nat} (hb : BitList bs) (hlen : os.length = bs.length)
    (hos : ∀ j < os.length, os.getD j 0 < 2 ^ (bnd bs (j + 1) - bnd bs j)) :
    chunkSum bs os < 2 ^ 32 ∧
      Assembled bs (os.getD · 0) (BitVec.ofNat 32 (chunkSum bs os)) := by
  have hbit := testBit_chunkSum hb hlen hos
  have hlt : chunkSum bs os < 2 ^ 32 := Nat.lt_pow_two_of_testBit _ fun i hi => by
    by_contra hc
    obtain ⟨j, hj, -, hhi, -⟩ := (hbit i).1 (by simpa using hc)
    have := hb.bnd_le (j + 1); omega
  refine ⟨hlt, ⟨fun i hi => ?_, fun j hj i hlo hhi => ?_⟩⟩
  · rw [BitVec.getLsbD_ofNat]
    by_contra hc
    obtain ⟨j, hj, hlo, -, -⟩ := (hbit i).1 (by simp_all)
    have := hb.bnd_mono (Nat.zero_le j) (by omega); omega
  · rw [BitVec.getLsbD_ofNat, show decide (i < 32) = true from
      decide_eq_true (lt_of_lt_of_le hhi (hb.bnd_le _)), Bool.true_and]
    apply Bool.eq_iff_iff.2
    rw [hbit]
    constructor
    · rintro ⟨j', hj', hlo', hhi', ho'⟩
      rcases Nat.lt_trichotomy j j' with h | rfl | h
      · have := hb.bnd_mono (show j + 1 ≤ j' by omega) (by omega); omega
      · exact ho'
      · have := hb.bnd_mono (show j' + 1 ≤ j by omega) (by omega); omega
    · exact fun ho => ⟨j, hj, hlo, hhi, ho⟩

theorem getD_map_core (rt : Retrieval K) (key : K) {core : List MapCore} {j : Nat}
    (hj : j < core.length) : (core.map (rt.queryHash · key)).getD j 0 = rt.queryHash core[j] key := by
  simp [List.getElem?_eq_getElem hj]

/-- The search over the range a tracked state leaves open answers `L`'s
response whenever it answers, and it answers once every bit is known. -/
theorem Tracks.lookup {L loc known : Locator} (ht : Tracks L loc known)
    {resp : List (Locator × V)} (hresp : Ascending resp) :
    ∃ r, bsearch resp loc (loc ||| ~~~known) = .ok r ∧
      (∀ v, r = some v → Answers resp L.toNat v) ∧
      (r = none → ¬ ∀ i < 32, known.getLsbD i = true) := by
  obtain ⟨r, hr, hans⟩ := bsearch_spec hresp loc (loc ||| ~~~known)
  refine ⟨r, hr, fun v hv => hans v hv L.toNat ht.le_toNat.1 ht.le_toNat.2, ?_⟩
  rintro rfl hfull
  obtain ⟨hl, hh⟩ := ht.eq_of_full hfull
  obtain ⟨v, hv⟩ := bsearch_self hresp L
  rw [hh, hl, hv] at hr
  cases hr

/-- A phase the loop reads keeps `Tracks`; the loop then either answers `L`'s
response, or goes on with a known mask that is not yet full. -/
theorem queryLoop_step (rt : Retrieval K) (m : CompressedMap V) (key : K) {L : Locator}
    (hlen : m.core.length = (setBits m.plan).length) (hresp : Ascending m.responseMap)
    (hA : Assembled (setBits m.plan) (fun j => (m.core.map (rt.queryHash · key)).getD j 0) L)
    {j : Nat} (hj : j < m.core.length) (hproc : j + 2 ≠ m.core.length)
    (ho : rt.queryHash m.core[j] key < 2 ^ (bnd (setBits m.plan) (j + 1) - bnd (setBits m.plan) j))
    (rest : List Nat) {p locator known : Locator} (hp : setBits p = (setBits m.plan).take (j + 1))
    (ht : Tracks L locator known)
    (hk : ∀ i, bnd (setBits m.plan) (j + 1) ≤ i → i < 32 → known.getLsbD i = true) :
    ∃ p', setBits p' = (setBits m.plan).take j ∧
      Tracks L (locator ||| BitVec.ofNat 32 (rt.queryHash m.core[j] key) <<< bnd (setBits m.plan) j)
        (known ||| rangeMask (bnd (setBits m.plan) j) 32) ∧
      ((∃ v, queryLoop rt m key (j :: rest) p locator known = .ok v ∧
          Answers m.responseMap L.toNat v) ∨
       (queryLoop rt m key (j :: rest) p locator known = queryLoop rt m key rest p'
          (locator ||| BitVec.ofNat 32 (rt.queryHash m.core[j] key) <<< bnd (setBits m.plan) j)
          (known ||| rangeMask (bnd (setBits m.plan) j) 32) ∧
        ¬ ∀ i < 32, (known ||| rangeMask (bnd (setBits m.plan) j) 32).getLsbD i = true)) := by
  have hb := bitList_setBits m.plan
  have hjb : j < (setBits m.plan).length := hlen ▸ hj
  obtain ⟨p', hp', heq⟩ := queryLoop_cons_eq rt m key rest locator known p hj hlen hp
  rw [if_pos hproc] at heq
  have ht' := ht.step ho (hb.bnd_lt_succ hjb).le (hb.bnd_le _) le_rfl
    (fun i hlo hhi => by rw [hA.phase j hjb i hlo hhi, getD_map_core rt key hj]) hk
  refine ⟨p', hp', ht', ?_⟩
  obtain ⟨r, hr, hans, hnone⟩ := ht'.lookup hresp
  rw [heq, hr]
  cases r with
  | some v => exact .inl ⟨v, rfl, hans v rfl⟩
  | none => exact .inr ⟨rfl, hnone rfl⟩

/-- The loop below the penultimate phase: from a state that tracks `L` and knows
every bit below `b₀` and above phase `j`, it answers `L`'s response. -/
theorem queryLoop_below (rt : Retrieval K) (m : CompressedMap V) (key : K) {L : Locator}
    (hlen : m.core.length = (setBits m.plan).length) (hresp : Ascending m.responseMap)
    (hA : Assembled (setBits m.plan) (fun j => (m.core.map (rt.queryHash · key)).getD j 0) L)
    (hout : ∀ j (hj : j < m.core.length), rt.queryHash m.core[j] key <
      2 ^ (bnd (setBits m.plan) (j + 1) - bnd (setBits m.plan) j)) :
    ∀ j, j < m.core.length → (j + 2 < m.core.length ∨ m.core.length < 2) →
      ∀ p locator known, setBits p = (setBits m.plan).take (j + 1) → Tracks L locator known →
      (∀ i < 32, (i < bnd (setBits m.plan) 0 ∨ bnd (setBits m.plan) (j + 1) ≤ i) →
        known.getLsbD i = true) →
      ∃ v, queryLoop rt m key (List.range (j + 1)).reverse p locator known = .ok v ∧
        Answers m.responseMap L.toNat v := by
  have hb := bitList_setBits m.plan
  intro j
  induction j with
  | zero =>
    intro hj hskip p locator known hp ht hk
    obtain ⟨p', -, -, hans | ⟨-, hfull⟩⟩ := queryLoop_step rt m key hlen hresp hA hj (by omega)
      (hout 0 hj) [] hp ht fun i hi h32 => hk i h32 (.inr hi)
    · exact hans
    · refine absurd (fun i hi => ?_) hfull
      rw [BitVec.getLsbD_or, getLsbD_rangeMask (hb.bnd_le 0)]
      by_cases h0 : i < bnd (setBits m.plan) 0
      · simp [hk i hi (.inl h0)]
      · simp [hi, show bnd (setBits m.plan) 0 ≤ i by omega]
  | succ j ih =>
    intro hj hskip p locator known hp ht hk
    rw [List.range_succ, List.reverse_append, List.reverse_singleton, List.singleton_append]
    obtain ⟨p', hp', ht', hans | ⟨heq, -⟩⟩ := queryLoop_step rt m key hlen hresp hA hj (by omega)
      (hout _ hj) _ hp ht fun i hi h32 => hk i h32 (.inr hi)
    · exact hans
    · rw [heq]
      refine ih (by omega) (by omega) p' _ _ hp' ht' fun i hi hcase => ?_
      rw [BitVec.getLsbD_or, getLsbD_rangeMask (hb.bnd_le _)]
      rcases hcase with h0 | hup
      · simp [hk i hi (.inl h0)]
      · simp [hi, hup]

/-- The locator all phases of `m` assemble for `key`: `Σ_j o_j · 2^{b_j}`, with
`o_j = core[j].query_hash(key)` and `b_j` the plan's `j`-th set bit. -/
def fullLocator (rt : Retrieval K) (m : CompressedMap V) (key : K) : Nat :=
  (List.zipWith (fun b c => rt.queryHash c key * 2 ^ b) (setBits m.plan) m.core).sum

theorem sum_zipWith_eq_chunkSum (f : MapCore → Nat) :
    ∀ (bs : List Nat) (cs : List MapCore),
      (List.zipWith (fun b c => f c * 2 ^ b) bs cs).sum = chunkSum bs (cs.map f)
  | [], _ => by simp [chunkSum]
  | _ :: _, [] => by simp [chunkSum]
  | b :: bs, c :: cs => by simp [chunkSum, sum_zipWith_eq_chunkSum f bs cs]

theorem bnd_length (bs : List Nat) : bnd bs bs.length = 32 := by
  simp [bnd]

/-- From any `L` whose bits are the phase outputs, `query` answers `L`'s response:
the penultimate phase first, then the phases from the top down, skipping the
penultimate one. -/
theorem query_answers (rt : Retrieval K) (m : CompressedMap V) (key : K) {L : Locator}
    (hplan : m.plan ≠ 0) (hlen : m.core.length = (setBits m.plan).length)
    (hresp : Ascending m.responseMap)
    (hA : Assembled (setBits m.plan) (fun j => (m.core.map (rt.queryHash · key)).getD j 0) L)
    (hout : ∀ j (hj : j < m.core.length), rt.queryHash m.core[j] key <
      2 ^ (bnd (setBits m.plan) (j + 1) - bnd (setBits m.plan) j)) :
    ∃ v, query rt m key = .ok v ∧ Answers m.responseMap L.toNat v := by
  have hb := bitList_setBits m.plan
  have hn1 : 1 ≤ m.core.length := by
    rw [hlen]; exact List.length_pos.2 (setBits_ne_nil hplan)
  have htop : bnd (setBits m.plan) m.core.length = 32 := by rw [hlen, bnd_length]
  have ht0 : Tracks L 0 (lowMask (bnd (setBits m.plan) 0)) := by
    rw [Tracks]; ext i
    by_cases h0 : i.val < bnd (setBits m.plan) 0
    · simp [hA.low i h0]
    · simp [h0]
  have hstart : (m.plan - 1) &&& ~~~m.plan = lowMask (bnd (setBits m.plan) 0) := by
    rw [sub_one_and_not, trailingZeros_eq_headD, bnd_zero]
  have hrange : ∀ n, (List.range (n + 1)).reverse = n :: (List.range n).reverse := fun n => by
    rw [List.range_succ, List.reverse_append, List.reverse_singleton, List.singleton_append]
  simp only [query, hplan, if_false, subU32_of_le (one_le_of_ne_zero hplan), bind, Except.bind,
    hstart, pure, Except.pure]
  rcases Nat.lt_or_ge m.core.length 2 with h1 | h2
  · -- a single phase: the loop alone
    rw [if_neg (by omega)]
    have := queryLoop_below rt m key hlen hresp hA hout 0 (by omega) (.inr h1) m.plan 0 _
      (by rw [show 0 + 1 = (setBits m.plan).length by omega, List.take_length]) ht0
      fun i hi hc => by
        rw [show 0 + 1 = m.core.length by omega, htop] at hc
        simp only [getLsbD_lowMask, hi, decide_True, Bool.true_and, decide_eq_true_eq]; omega
    rwa [show 0 + 1 = m.core.length by omega] at this
  · -- the penultimate phase, then the top one
    rw [if_pos h2, queryPenultimate_eq rt m key _ h2 hlen]
    have hpen : m.core.length - 2 < (setBits m.plan).length := by omega
    have hsucc : m.core.length - 2 + 1 = m.core.length - 1 := by omega
    have hlt := hb.bnd_lt_succ hpen
    have ho := hout (m.core.length - 2) (by omega)
    rw [hsucc] at hlt
    simp only [hsucc] at ho
    have ht1 := ht0.step ho hlt.le le_rfl (hb.bnd_le _)
      (fun i hlo hhi => by
        rw [hA.phase _ hpen i hlo (by rwa [hsucc]), getD_map_core rt key (by omega)])
      (fun i h h' => by omega)
    simp only [BitVec.ofNat_eq_ofNat, BitVec.zero_or] at ht1
    obtain ⟨r, hr, hans, -⟩ := ht1.lookup hresp
    rw [hr]
    cases r with
    | some v => exact ⟨v, rfl, hans v rfl⟩
    | none =>
      simp only [bind, Except.bind, pure, Except.pure]
      have hr1 := hrange (m.core.length - 1)
      rw [Nat.sub_add_cancel hn1] at hr1
      rw [hr1]
      obtain ⟨p', hp', ht2, hans2 | ⟨heq, hfull⟩⟩ := queryLoop_step rt m key hlen hresp hA
        (j := m.core.length - 1) (by omega) (by omega) (hout _ (by omega)) _
        (by rw [show m.core.length - 1 + 1 = (setBits m.plan).length by omega, List.take_length])
        ht1 (fun i hi h32 => by rw [show m.core.length - 1 + 1 = m.core.length by omega, htop] at hi; omega)
      · exact hans2
      · rw [heq]
        have hknown : ∀ i < 32, (i < bnd (setBits m.plan) 0 ∨
            bnd (setBits m.plan) (m.core.length - 2) ≤ i) →
            (lowMask (bnd (setBits m.plan) 0) ||| rangeMask (bnd (setBits m.plan) (m.core.length - 2))
              (bnd (setBits m.plan) (m.core.length - 1)) |||
              rangeMask (bnd (setBits m.plan) (m.core.length - 1)) 32).getLsbD i = true := by
          intro i hi hc
          simp only [BitVec.getLsbD_or, getLsbD_lowMask, getLsbD_rangeMask hlt.le,
            getLsbD_rangeMask (hb.bnd_le _), hi, decide_True, Bool.true_and, Bool.or_eq_true,
            decide_eq_true_eq, Bool.and_true, Bool.and_eq_true]
          omega
        rcases Nat.lt_or_ge m.core.length 3 with h3 | h3
        · -- two phases: the top step leaves every bit known
          exact absurd (fun i hi => hknown i hi (by rw [show m.core.length - 2 = 0 by omega]; omega))
            hfull
        · -- the penultimate phase is skipped, then the loop reads the rest
          have hr2 := hrange (m.core.length - 2)
          rw [hsucc] at hr2
          rw [hr2]
          obtain ⟨p'', hp'', heq'⟩ := queryLoop_cons_eq rt m key _ _ _ p' (j := m.core.length - 2)
            (by omega) hlen (by rwa [hsucc])
          have h3' : m.core.length - 3 + 1 = m.core.length - 2 := by omega
          rw [heq', if_neg (by omega)]
          have := queryLoop_below rt m key hlen hresp hA hout (m.core.length - 3) (by omega)
            (.inl (by omega)) p'' _ _ (by rwa [h3']) ht2
            fun i hi hc => hknown i hi (by rwa [h3'] at hc)
          simpa only [h3'] using this
/-- On every map of the shape `build` and `borrow_decode` produce, `query` neither
panics nor reaches `unreachable!`, and its early exits agree with the lookup of
the fully assembled locator `Σ_j o_j · 2^{b_j}`. -/
theorem query_eq_lookup_fullLocator (rt : Retrieval K) (m : CompressedMap V) (key : K)
    (hplan : m.plan ≠ 0) (hcore : m.core.length = countOnes m.plan)
    (hresp : Ascending m.responseMap)
    (hout : ∀ j (hj : j < m.core.length), rt.queryHash m.core[j] key <
      2 ^ (bnd (setBits m.plan) (j + 1) - bnd (setBits m.plan) j)) :
    ∃ p, IsLookup m.responseMap (fullLocator rt m key) p ∧
      ∃ hp : p < m.responseMap.length, query rt m key = .ok m.responseMap[p].2 := by
  have hos : ∀ j < (m.core.map (rt.queryHash · key)).length,
      (m.core.map (rt.queryHash · key)).getD j 0 <
        2 ^ (bnd (setBits m.plan) (j + 1) - bnd (setBits m.plan) j) := fun j hj => by
    rw [List.length_map] at hj; rw [getD_map_core rt key hj]; exact hout j hj
  obtain ⟨hlt, hA⟩ := assembled_chunkSum (bitList_setBits m.plan)
    (by rw [List.length_map]; exact hcore) hos
  obtain ⟨v, hq, p, hp, hpl, rfl⟩ := query_answers rt m key hplan hcore hresp hA hout
  rw [BitVec.toNat_ofNat, Nat.mod_eq_of_lt hlt, ← sum_zipWith_eq_chunkSum] at hp
  exact ⟨p, hp, hpl, hq⟩

/-- Two phases `[0, 31)` and `[31, 32)` that both answer `1` assemble the locator
`2^31 + 1`, which lies in the second interval. -/
theorem query_two_phases_second_interval :
    let rt : Retrieval Unit := ⟨fun _ _ => 1, fun _ _ => none⟩
    let c : MapCore := ⟨zeroKey, 31, 2, []⟩
    let m : CompressedMap Nat := ⟨0x80000001#32, [(0#32, 5), (0x80000000#32, 6)], [], [c, ⟨zeroKey, 1, 2, []⟩]⟩
    m.plan ≠ 0 ∧ m.core.length = countOnes m.plan ∧ Ascending m.responseMap ∧
      (∀ j (hj : j < m.core.length), rt.queryHash m.core[j] () <
        2 ^ (bnd (setBits m.plan) (j + 1) - bnd (setBits m.plan) j)) ∧
      ∃ p, IsLookup m.responseMap (fullLocator rt m ()) p ∧
        ∃ hp : p < m.responseMap.length, query rt m () = .ok m.responseMap[p].2 := by
  intro rt c m
  have h1 : m.plan ≠ 0 := by decide
  have h2 : m.core.length = countOnes m.plan := by decide
  have h3 : Ascending m.responseMap := ⟨rfl, by decide⟩
  have h4 : ∀ j (hj : j < m.core.length), rt.queryHash m.core[j] () <
      2 ^ (bnd (setBits m.plan) (j + 1) - bnd (setBits m.plan) j) := by decide
  exact ⟨h1, h2, h3, h4, query_eq_lookup_fullLocator rt m () h1 h2 h3 h4⟩

end FrayedCascade
