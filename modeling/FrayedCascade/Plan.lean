import FrayedCascade.Codec

/-!
# `formulate_plan`: the response table and the plan

`formulate_plan` turns the count of keys per value into the table of locator
intervals. Each value `v` with `c` keys out of `total` first gets the width
`floor_power_of_2(c · 2^32 / total)`. When the widths leave part of the locator
space uncovered, they are doubled in the order of `compare_fit` (the values
whose width falls shortest of their share first) until the gap is used up; the
last doubling may stop short, and that width is the one that need not be a
power of two (the "odd man out"). The values are then laid out by decreasing
width, the odd one last, and the plan collects the phase boundaries: every
power-of-two width, and the high bit of the odd one.

The counts are passed in `HashMap` order (`counts` is a list in that order).
Rust's two sorts are stable, so they are modelled by `List.insertionSort`,
which is stable too.

The results proved about it:

- `formulatePlan_ok`: every table it returns is `formulated l` for a list `l`
  of the values in the canonical order, with one odd width at most;
- `formulatePlan_spec`: when every value's share of the keys is at least
  `2^-32`, the widths tile the locator space exactly, all but the last are
  decreasing powers of two, the plan collects them, and no arithmetic
  overflows;
- `formulatePlan_skewedCounts`: below that share, on `2^33` keys, the minimum
  width `1` of `floor_power_of_2` makes the widths sum past `2^32`, and the
  expansion loop overflows; `formulatePlan_perm_skewedCounts`: in every order of
  those counts, since `compare_fit` sorts positive counts by a key
  (`map_fitKey_insertionSort`);
- `formulatePlan_order_dependent`: values that tie in `compare_fit` are laid
  out in `HashMap` order, so two orders of the same counts give two tables.
-/

namespace FrayedCascade

variable {V : Type}

/-! ## The code -/

/-- An entry `(k, width, count)` of `items`. -/
abbrev Item (V : Type) := V × Locator × Nat

/-- What `formulate_plan` returns: the plan, `value_map` (each value's index),
`interval_vec` (each index's count and locator interval `(c, lo, hi)`) and the
response table. -/
structure Formulated (V : Type) where
  plan : Plan
  valueMap : List (V × Nat)
  intervalVec : List (Nat × Locator × Locator)
  responseMap : List (Locator × V)
  deriving DecidableEq, Repr

/-- `for v in counts.values() { total += v; }`. -/
def sumCounts : List (V × Nat) → Nat → Except Fault Nat
  | [], total => pure total
  | (_, v) :: rest, total => do sumCounts rest (← usizeAdd total v)

/-- The loop over `counts.iter()` that gives each value its initial width and
adds the widths up, wrapping. `count << 32` cannot lose bits in a `u128`, since
`count` is a `usize`. -/
def itemsLoop (total : Nat) : List (V × Nat) → Locator → Except Fault (List (Item V) × Locator)
  | [], totalWidth => pure ([], totalWidth)
  | (k, v) :: rest, totalWidth => do
    let ratio := v * 2 ^ 32 / total
    let width ← floorPowerOf2 (BitVec.ofNat 32 ratio)
    let (items, totalWidth) ← itemsLoop total rest (totalWidth + width)
    return ((k, width, v) :: items, totalWidth)

/-- `compare_fit`: by `w1 · c2` against `w2 · c1`, that is by width per key, and
then by `(w, c)`. -/
def compareFit (a1 a2 : Item V) : Ordering :=
  let score1 := a1.2.1.toNat * a2.2.2
  let score2 := a2.2.1.toNat * a1.2.2
  if score1 ≠ score2 then compare score1 score2
  else (compare a1.2.1.toNat a2.2.1.toNat).then (compare a1.2.2 a2.2.2)

/-- The order `items.sort_by(compare_fit)` sorts by. -/
def FitLe (a1 a2 : Item V) : Prop := compareFit a1 a2 ≠ .gt

instance : DecidableRel (FitLe (V := V)) := fun _ _ => inferInstanceAs (Decidable (_ ≠ _))

/-- The loop that extends the widths in priority order until
`remaining_width` is used up. -/
def expandLoop : Locator → List (Item V) → Except Fault (List (Item V))
  | _, [] => pure []
  | remainingWidth, (k, w, c) :: rest =>
    if remainingWidth = 0 then pure ((k, w, c) :: rest) else do
    let expand := if w < remainingWidth then w else remainingWidth
    let remainingWidth ← subU32 remainingWidth expand
    let w ← addU32 w expand
    return (k, w, c) :: (← expandLoop remainingWidth rest)

/-- The key of `items.sort_by_key`: `(w.count_ones(), -(w.trailing_zeros() as i32), *k)`,
compared lexicographically. -/
def sortKey [LinearOrder V] (a : Item V) : Lex (Nat × Lex (Int × V)) :=
  toLex (countOnes a.2.1, toLex (-(trailingZeros a.2.1 : Int), a.1))

def KeyLe [LinearOrder V] (a1 a2 : Item V) : Prop := sortKey a1 ≤ sortKey a2

instance [LinearOrder V] : DecidableRel (KeyLe (V := V)) :=
  fun _ _ => inferInstanceAs (Decidable (_ ≤ _))

/-- The final loop over `items`: each value's interval starts at `total`, its
index is `count`, and its width adds a bit to the plan: the width itself when it
is a power of two, its high bit otherwise. -/
def planLoop : List (Item V) → Locator → Nat → Plan →
    Except Fault (Plan × List (V × Nat) × List (Nat × Locator × Locator) × List (Locator × V))
  | [], _, _, plan => pure (plan, [], [], [])
  | (k, w, c) :: rest, total, count, plan => do
    let hi ← addU32 total (← subU32 w 1)
    let plan ← if w &&& (← subU32 w 1) = 0 then pure (plan ||| w) else do
      pure (plan ||| (1 : Locator) <<< ((← highBit w) % 32))
    let (plan, valueMap, intervalVec, resp) ← planLoop rest (total + w) (count + 1) plan
    return (plan, (k, count) :: valueMap, (c, total, hi) :: intervalVec, (total, k) :: resp)

def totalZero : Fault := .panic "assertion failed: total > 0"

/-- `formulate_plan`, on the counts in `HashMap` order. -/
def formulatePlan [LinearOrder V] (counts : List (V × Nat)) : Except Fault (Formulated V) :=
  if counts.length ≤ 1 then
    pure ⟨0, counts.map fun x => (x.1, 0), counts.map fun x => (x.2, 0, -1),
      counts.map fun x => (0, x.1)⟩
  else do
    let total ← sumCounts counts 0
    if ¬ total > 0 then throw totalZero
    let (items, totalWidth) ← itemsLoop total counts 0
    let items := items.insertionSort FitLe
    let items ← expandLoop (-totalWidth) items
    let items := items.insertionSort KeyLe
    let (plan, valueMap, intervalVec, resp) ← planLoop items 0 0 0
    return ⟨plan, valueMap, intervalVec, resp⟩

/-! ## Powers of two and the initial widths -/

/-- `n` is a power of two. -/
def IsPow2 (n : Nat) : Prop := ∃ k, n = 2 ^ k

instance : DecidablePred IsPow2 := fun n =>
  decidable_of_iff (n = 2 ^ Nat.log2 n)
    ⟨fun h => ⟨_, h⟩, by rintro ⟨k, rfl⟩; rw [Nat.log2_two_pow]⟩

theorem IsPow2.one_le {n : Nat} (h : IsPow2 n) : 1 ≤ n := by
  obtain ⟨k, rfl⟩ := h; exact Nat.one_le_two_pow

/-- `floor_power_of_2` never panics: it returns `2^⌊log₂ x⌋`, which is `1` for `0`. -/
theorem floorPowerOf2_eq (x : Locator) :
    floorPowerOf2 x = .ok (BitVec.ofNat 32 (2 ^ Nat.log2 x.toNat)) := by
  by_cases hx : x = 0
  · subst hx; rw [floorPowerOf2, if_pos rfl, show (0 : Locator).toNat = 0 from rfl, Nat.log2_zero]; rfl
  · simp only [floorPowerOf2, hx, if_false, highBit_eq_log2 hx, bind, Except.bind,
      shlU32_of_lt log2_toNat_lt]
    congr 1
    apply BitVec.eq_of_toNat_eq
    rw [toNat_one_shiftLeft log2_toNat_lt, BitVec.toNat_ofNat,
      Nat.mod_eq_of_lt (Nat.pow_lt_pow_right (by decide) log2_toNat_lt)]

theorem toNat_ofNat_two_pow_log2 (x : Locator) :
    (BitVec.ofNat 32 (2 ^ Nat.log2 x.toNat)).toNat = 2 ^ Nat.log2 x.toNat := by
  rw [BitVec.toNat_ofNat, Nat.mod_eq_of_lt (Nat.pow_lt_pow_right (by decide) log2_toNat_lt)]

/-- The initial width of a value with `c` of the `total` keys:
`floor_power_of_2((c << 32) / total)`. -/
def initialWidth (total c : Nat) : Locator :=
  BitVec.ofNat 32 (2 ^ Nat.log2 (BitVec.ofNat 32 (c * 2 ^ 32 / total)).toNat)

theorem sumCounts_eq : ∀ (counts : List (V × Nat)) (acc : Nat),
    acc + (counts.map Prod.snd).sum < 2 ^ 64 →
      sumCounts counts acc = .ok (acc + (counts.map Prod.snd).sum)
  | [], acc, _ => by simp [sumCounts]; rfl
  | (_, v) :: rest, acc, h => by
    simp only [List.map_cons, List.sum_cons] at h ⊢
    simp only [sumCounts, usizeAdd_of_lt (by omega : acc + v < 2 ^ 64), bind, Except.bind]
    rw [sumCounts_eq rest (acc + v) (by omega), Nat.add_assoc]

theorem itemsLoop_eq (total : Nat) : ∀ (counts : List (V × Nat)) (tw : Locator),
    itemsLoop total counts tw = .ok (counts.map (fun x => (x.1, initialWidth total x.2, x.2)),
      tw + BitVec.ofNat 32 ((counts.map fun x => (initialWidth total x.2).toNat).sum))
  | [], tw => by simp [itemsLoop]; rfl
  | (k, v) :: rest, tw => by
    simp only [itemsLoop, floorPowerOf2_eq, bind, Except.bind, itemsLoop_eq total rest, pure,
      Except.pure, List.map_cons, List.sum_cons]
    rw [BitVec.ofNat_add, BitVec.ofNat_toNat, BitVec.setWidth_eq, BitVec.add_assoc]; rfl

theorem isPow2_initialWidth (total c : Nat) : IsPow2 (initialWidth total c).toNat :=
  ⟨_, toNat_ofNat_two_pow_log2 _⟩

/-! ## The initial widths leave less than half of the locator space -/

section Shares

variable {total : Nat}

/-- Euclidean division of each `c · M` by `total`, summed. -/
theorem sum_div_add_sum_mod (M : Nat) (cs : List Nat) :
    total * (cs.map fun c => c * M / total).sum + (cs.map fun c => c * M % total).sum
      = cs.sum * M := by
  induction cs with
  | nil => simp
  | cons c cs ih =>
    simp only [List.map_cons, List.sum_cons, Nat.mul_add, Nat.add_mul]
    have := Nat.div_add_mod (c * M) total
    omega

theorem sum_mod_lt (M : Nat) (ht : 0 < total) :
    ∀ {cs : List Nat}, cs ≠ [] → (cs.map fun c => c * M % total).sum < cs.length * total
  | [], h => absurd rfl h
  | [c], _ => by simpa using Nat.mod_lt (c * M) ht
  | c :: d :: cs, _ => by
    have ih := sum_mod_lt M ht (List.cons_ne_nil d cs)
    have := Nat.mod_lt (c * M) ht
    simp only [List.map_cons, List.sum_cons, List.length_cons, Nat.succ_mul] at ih ⊢
    omega

/-- In a list of at least two positive numbers, each is below the sum. -/
theorem lt_sum_of_mem {cs : List Nat} (hcs : 2 ≤ cs.length) (hpos : ∀ c ∈ cs, 0 < c) {c : Nat}
    (hc : c ∈ cs) : c < cs.sum := by
  match cs, hcs with
  | a :: b :: rest, _ =>
    have ha := hpos a (by simp)
    have hb := hpos b (by simp)
    rcases List.mem_cons.1 hc with rfl | hc
    · simp only [List.sum_cons]; omega
    · have := List.le_sum_of_mem hc
      simp only [List.sum_cons] at this ⊢; omega

theorem initialWidth_toNat {c : Nat} (hc : c < total) :
    (initialWidth total c).toNat = 2 ^ Nat.log2 (c * 2 ^ 32 / total) := by
  have hr : c * 2 ^ 32 / total < 2 ^ 32 :=
    Nat.div_lt_of_lt_mul (Nat.mul_lt_mul_of_pos_right hc (Nat.two_pow_pos 32))
  rw [initialWidth, toNat_ofNat_two_pow_log2, BitVec.toNat_ofNat, Nat.mod_eq_of_lt hr]

/-- A share of at least `2^-32` of the keys gets a ratio of at least `1`, and the
initial width is within a factor of two below the ratio. -/
theorem initialWidth_bounds {c : Nat} (hc : c < total) (hshare : total ≤ c * 2 ^ 32) :
    (initialWidth total c).toNat ≤ c * 2 ^ 32 / total ∧
      c * 2 ^ 32 / total + 1 ≤ 2 * (initialWidth total c).toNat := by
  have hr : c * 2 ^ 32 / total ≠ 0 := (Nat.div_pos hshare (by omega)).ne'
  rw [initialWidth_toNat hc, ← Nat.pow_succ']
  exact ⟨Nat.log2_self_le hr, Nat.lt_log2_self⟩

/-- When every count is a share of at least `2^-32` of `total = Σ c`, the initial
widths add up to at most `2^32` and to more than half of it. -/
theorem sum_initialWidth_bounds {cs : List Nat} (hcs : 2 ≤ cs.length) (htotal : cs.sum = total)
    (hshare : ∀ c ∈ cs, 0 < c ∧ total ≤ c * 2 ^ 32) :
    (cs.map fun c => (initialWidth total c).toNat).sum ≤ 2 ^ 32 ∧
      2 ^ 32 < 2 * (cs.map fun c => (initialWidth total c).toNat).sum := by
  have hne : cs ≠ [] := List.ne_nil_of_length_pos (by omega)
  have hlt : ∀ c ∈ cs, c < total := fun c hc =>
    htotal ▸ lt_sum_of_mem hcs (fun c hc => (hshare c hc).1) hc
  have ht : 0 < total := by
    obtain ⟨c, hc⟩ := List.exists_mem_of_ne_nil cs hne
    have := hlt c hc; omega
  have hle : (cs.map fun c => (initialWidth total c).toNat).sum ≤
      (cs.map fun c => c * 2 ^ 32 / total).sum :=
    List.sum_le_sum fun c hc => (initialWidth_bounds (hlt c hc) (hshare c hc).2).1
  have hge : (cs.map fun c => c * 2 ^ 32 / total + 1).sum ≤
      (cs.map fun c => 2 * (initialWidth total c).toNat).sum :=
    List.sum_le_sum fun c hc => (initialWidth_bounds (hlt c hc) (hshare c hc).2).2
  simp only [List.sum_map_add, List.sum_map_mul_left, List.map_const', List.sum_replicate,
    smul_eq_mul, Nat.mul_one] at hge
  have hdiv := @sum_div_add_sum_mod total (2 ^ 32) cs
  have hmod := sum_mod_lt (2 ^ 32) ht hne
  rw [htotal] at hdiv
  constructor
  · refine hle.trans (Nat.le_of_mul_le_mul_left ?_ ht)
    rw [Nat.mul_comm total (2 ^ 32)]; omega
  · refine lt_of_lt_of_le (@Nat.lt_of_mul_lt_mul_left total _ _ ?_) hge
    rw [Nat.mul_add, Nat.mul_comm total cs.length]; rw [Nat.mul_comm total (2 ^ 32)] at hdiv; omega

end Shares

/-! ## The expansion loop -/

/-- The width of an item, as a number. -/
def widthOf (x : Item V) : Nat := x.2.1.toNat

/-- An item without its width: the value and its count. -/
def keyCount (x : Item V) : V × Nat := (x.1, x.2.2)

theorem length_le_sum_widthOf {l : List (Item V)} (hpos : ∀ x ∈ l, 1 ≤ widthOf x) :
    l.length ≤ (l.map widthOf).sum := by
  have := List.length_le_sum_of_one_le (l.map widthOf) fun w hw => by
    obtain ⟨x, hx, rfl⟩ := List.mem_map.1 hw; exact hpos x hx
  rwa [List.length_map] at this

/-- One round of the expansion loop: with `remaining_width ≠ 0` the head grows by
`expand = min(remaining_width, w)`. -/
theorem expandLoop_cons {rem w : Locator} {k : V} {c : Nat} {rest : List (Item V)}
    (h0 : rem ≠ 0) (hadd : w.toNat + (if w < rem then w else rem).toNat < 2 ^ 32) :
    expandLoop rem ((k, w, c) :: rest) =
      (expandLoop (rem - if w < rem then w else rem) rest).map
        ((k, w + if w < rem then w else rem, c) :: ·) := by
  have hle : (if w < rem then w else rem) ≤ rem := by
    split <;> rename_i h <;> simp only [BitVec.le_def, BitVec.lt_def] at h ⊢ <;> omega
  simp only [expandLoop, h0, if_false, subU32_of_le hle, addU32_of_lt hadd, bind, Except.bind]
  cases expandLoop (rem - if w < rem then w else rem) rest <;> rfl

theorem expandLoop_zero : ∀ l : List (Item V), expandLoop 0 l = .ok l
  | [] => rfl
  | (_, _, _) :: _ => by rw [expandLoop, if_pos rfl]; rfl

/-- A round with `remaining_width ≠ 0` that returns did not overflow. -/
theorem expandLoop_cons_ok {rem w : Locator} {k : V} {c : Nat} {rest l' : List (Item V)}
    (h0 : rem ≠ 0) (h : expandLoop rem ((k, w, c) :: rest) = .ok l') :
    w.toNat + (if w < rem then w else rem).toNat < 2 ^ 32 ∧ ∃ l'',
      expandLoop (rem - if w < rem then w else rem) rest = .ok l'' ∧
        l' = (k, w + if w < rem then w else rem, c) :: l'' := by
  by_cases hadd : w.toNat + (if w < rem then w else rem).toNat < 2 ^ 32
  · rw [expandLoop_cons h0 hadd] at h
    cases hr : expandLoop (rem - if w < rem then w else rem) rest <;> rw [hr] at h <;> cases h
    exact ⟨hadd, _, rfl, rfl⟩
  · have hle : (if w < rem then w else rem) ≤ rem := by
      split <;> rename_i h <;> simp only [BitVec.le_def, BitVec.lt_def] at h ⊢ <;> omega
    simp only [expandLoop, h0, if_false, subU32_of_le hle, addU32, if_neg hadd, bind,
      Except.bind] at h
    cases h

/-- What a run of the expansion loop does: it keeps every value and count, only
widens widths, and leaves at most one width that is not a power of two (none
when nothing remained to hand out). -/
theorem expandLoop_ok : ∀ {l l' : List (Item V)} {rem : Locator}, expandLoop rem l = .ok l' →
    l'.map keyCount = l.map keyCount ∧ ((∀ x ∈ l, 1 ≤ widthOf x) → ∀ x ∈ l', 1 ≤ widthOf x) ∧
      ((∀ x ∈ l, IsPow2 (widthOf x)) →
        (l'.map widthOf).countP (fun w => ¬ IsPow2 w) ≤ if rem = 0 then 0 else 1)
  | [], l', _, h => by cases h; simp
  | (k, w, c) :: rest, l', rem, h => by
    by_cases h0 : rem = 0
    · subst h0
      rw [expandLoop_zero] at h
      cases h
      refine ⟨rfl, id, fun hp => ?_⟩
      rw [if_pos rfl, Nat.le_zero, List.countP_eq_zero]
      intro w hw
      obtain ⟨x, hx, rfl⟩ := List.mem_map.1 hw
      simpa using hp x hx
    obtain ⟨hadd, l'', hl'', rfl⟩ := expandLoop_cons_ok h0 h
    obtain ⟨hkc, hpos, hshape⟩ := expandLoop_ok hl''
    have he : (if w < rem then w else rem).toNat = min w.toNat rem.toNat := by
      split <;> rename_i h <;> rw [BitVec.lt_def] at h <;> omega
    have hw' : (w + if w < rem then w else rem).toNat = w.toNat + min w.toNat rem.toNat := by
      rw [BitVec.toNat_add, he]; omega
    refine ⟨by simp [keyCount, hkc], fun hp => ?_, fun hp => ?_⟩
    · have hw := hp _ (List.mem_cons_self _ _)
      change 1 ≤ w.toNat at hw
      exact List.forall_mem_cons.2 ⟨show 1 ≤ (w + _).toNat by rw [hw']; omega,
        hpos fun x hx => hp x (List.mem_cons_of_mem _ hx)⟩
    have hrp := hshape fun x hx => hp x (List.mem_cons_of_mem _ hx)
    simp only [h0, if_false, List.map_cons, List.countP_cons]
    by_cases hlt : w < rem
    · have hmin : min w.toNat rem.toNat = w.toNat := Nat.min_eq_left (BitVec.lt_def.1 hlt).le
      obtain ⟨j, hj⟩ := hp _ (List.mem_cons_self _ _)
      change w.toNat = 2 ^ j at hj
      have : IsPow2 (widthOf (k, w + if w < rem then w else rem, c)) :=
        ⟨j + 1, by rw [widthOf, hw', hmin, hj, Nat.pow_succ]; omega⟩
      rw [if_neg (by simpa using this)]
      exact hrp.trans (by split_ifs <;> decide)
    · have : rem - (if w < rem then w else rem) = 0 := by simp [hlt]
      rw [this, if_pos rfl] at hrp
      split_ifs <;> omega

/-- The expansion loop, from a state where `E` of the locator space is already
placed, `rem` remains and the items cover the rest: it never overflows and makes
the widths cover the space exactly. -/
theorem expandLoop_spec : ∀ (l : List (Item V)) (rem : Locator) (E : Nat),
    (∀ x ∈ l, 1 ≤ widthOf x) → E + rem.toNat + (l.map widthOf).sum = 2 ^ 32 →
    rem.toNat ≤ (l.map widthOf).sum → 1 ≤ E ∨ 2 ≤ l.length →
    ∃ l', expandLoop rem l = .ok l' ∧ E + (l'.map widthOf).sum = 2 ^ 32
  | [], rem, E, _, hsum, hle, _ => by
    obtain rfl : rem = 0 := BitVec.eq_of_toNat_eq (by simpa using hle)
    exact ⟨[], rfl, by simpa using hsum⟩
  | (k, w, c) :: rest, rem, E, hpos, hsum, hle, hE => by
    by_cases h0 : rem = 0
    · subst h0
      exact ⟨_, expandLoop_zero _, by simpa using hsum⟩
    have hw : 1 ≤ w.toNat := hpos _ (List.mem_cons_self _ _)
    have hrest : ∀ x ∈ rest, 1 ≤ widthOf x := fun x hx => hpos x (List.mem_cons_of_mem _ hx)
    have hlen := length_le_sum_widthOf hrest
    have hrem : rem.toNat ≠ 0 := fun h => h0 (BitVec.eq_of_toNat_eq h)
    simp only [List.map_cons, List.sum_cons, List.length_cons, widthOf] at hsum hle hE hlen
    have he : (if w < rem then w else rem).toNat = min w.toNat rem.toNat := by
      split <;> rename_i h <;> rw [BitVec.lt_def] at h <;> omega
    have hadd : w.toNat + (if w < rem then w else rem).toNat < 2 ^ 32 := by omega
    have hsub : (rem - if w < rem then w else rem).toNat = rem.toNat - min w.toNat rem.toNat := by
      rw [BitVec.toNat_sub, he]; omega
    have hw' : (w + if w < rem then w else rem).toNat = w.toNat + min w.toNat rem.toNat := by
      rw [BitVec.toNat_add, he]; omega
    obtain ⟨l', hl', hsum'⟩ :=
      expandLoop_spec rest _ (E + (w + if w < rem then w else rem).toNat) hrest
        (by rw [hsub, hw']; omega) (by rw [hsub]; omega) (.inl (by omega))
    exact ⟨_ :: l', by rw [expandLoop_cons h0 hadd, hl']; rfl,
      by simp only [List.map_cons, List.sum_cons, widthOf]; omega⟩

/-! ## The canonical order -/

section Canonical

variable [LinearOrder V]

instance : IsTotal (Item V) KeyLe := ⟨fun a b => le_total (sortKey a) (sortKey b)⟩

instance : IsTrans (Item V) KeyLe := ⟨fun _ _ _ => le_trans⟩

theorem countOnes_pos {x : Locator} (hx : 1 ≤ x.toNat) : 1 ≤ countOnes x :=
  List.length_pos.2 (setBits_ne_nil fun h => by simp [h] at hx)

theorem trailingZeros_of_toNat_eq_two_pow {x : Locator} {k : Nat} (h : x.toNat = 2 ^ k) :
    trailingZeros x = k := by
  rw [trailingZeros, setBits_of_toNat_eq_two_pow h]; rfl

/-- Before a power-of-two width in the canonical order come only power-of-two
widths, none of them smaller. -/
theorem KeyLe.pow2 {x y : Item V} (hxy : KeyLe x y) (hx : 1 ≤ widthOf x)
    (hy : IsPow2 (widthOf y)) : IsPow2 (widthOf x) ∧ widthOf y ≤ widthOf x := by
  obtain ⟨b, hb⟩ := hy
  change y.2.1.toNat = 2 ^ b at hb
  have hcy : countOnes y.2.1 = 1 := countOnes_eq_one_iff.2 ⟨b, hb⟩
  have hcx := countOnes_pos hx
  rcases (Prod.Lex.le_iff _ _).1 hxy with h | ⟨h, h'⟩
  · change countOnes x.2.1 < countOnes y.2.1 at h
    omega
  · change countOnes x.2.1 = countOnes y.2.1 at h
    obtain ⟨a, ha⟩ := countOnes_eq_one_iff.1 (h.trans hcy)
    have htz : -(trailingZeros x.2.1 : Int) ≤ -(trailingZeros y.2.1 : Int) := by
      rcases (Prod.Lex.le_iff _ _).1 h' with h' | ⟨h', -⟩
      · exact h'.le
      · exact h'.le
    rw [trailingZeros_of_toNat_eq_two_pow ha, trailingZeros_of_toNat_eq_two_pow hb] at htz
    exact ⟨⟨a, ha⟩, by
      change y.2.1.toNat ≤ x.2.1.toNat
      rw [ha, hb]; exact Nat.pow_le_pow_right (by decide) (by omega)⟩

/-- In the canonical order, a width that is not a power of two can only come last. -/
theorem pow2_of_mem_dropLast {l : List (Item V)} (hs : l.Sorted KeyLe)
    (hpos : ∀ x ∈ l, 1 ≤ widthOf x) (hodd : (l.map widthOf).countP (fun w => ¬ IsPow2 w) ≤ 1) :
    ∀ w ∈ (l.map widthOf).dropLast, IsPow2 w := by
  rcases List.eq_nil_or_concat l with rfl | ⟨L, z, rfl⟩
  · simp
  rw [List.concat_eq_append] at hs hpos hodd
  intro w hw
  rw [List.concat_eq_append, List.map_append, List.map_singleton, List.dropLast_concat] at hw
  obtain ⟨x, hx, rfl⟩ := List.mem_map.1 hw
  by_contra hnx
  have hz : IsPow2 (widthOf z) := by
    by_contra hnz
    have h1 : 0 < (L.map widthOf).countP (fun w => ¬ IsPow2 w) :=
      List.countP_pos_iff.2 ⟨_, List.mem_map_of_mem _ hx, by simpa using hnx⟩
    rw [List.map_append, List.countP_append, List.map_singleton,
      List.countP_cons_of_pos _ _ (by simpa using hnz), List.countP_nil] at hodd
    omega
  have hxz : KeyLe x z := (List.pairwise_append.1 hs).2.2 x hx z (List.mem_singleton_self z)
  exact hnx (hxz.pow2 (hpos x (by simp [hx])) hz).1

theorem pairwise_widthOf {l : List (Item V)} (hs : l.Sorted KeyLe) (hpos : ∀ x ∈ l, 1 ≤ widthOf x) :
    (l.map widthOf).Pairwise fun a b => IsPow2 b → IsPow2 a ∧ b ≤ a :=
  List.pairwise_map.2 (hs.imp_of_mem fun hx _ hxy hy => hxy.pow2 (hpos _ hx) hy)

end Canonical

/-! ## The table laid out by the final loop -/

/-- The lower bounds `t, t + w₀, t + w₀ + w₁, …` of intervals of widths `ws`
laid end to end from `t`. -/
def starts : Nat → List Nat → List Nat
  | _, [] => []
  | t, w :: ws => t :: starts (t + w) ws

/-- The widths of a response table with lower bounds `bs`: `L_{i+1} - L_i`, and
`2^32 - L_{n-1}` for the last. -/
def tableWidths : List Nat → List Nat
  | [] => []
  | [L] => [2 ^ 32 - L]
  | L :: L' :: rest => (L' - L) :: tableWidths (L' :: rest)

/-- A width's bit in the plan: its highest set bit, which is the width itself
when it is a power of two. -/
def planBit (w : Nat) : Locator := BitVec.ofNat 32 (2 ^ Nat.log2 w)

theorem IsPow2.dvd_of_le {a b : Nat} (ha : IsPow2 a) (hb : IsPow2 b) (h : b ≤ a) : b ∣ a := by
  obtain ⟨i, rfl⟩ := ha
  obtain ⟨j, rfl⟩ := hb
  exact Nat.pow_dvd_pow 2 ((Nat.pow_le_pow_iff_right (by decide)).1 h)

@[simp] theorem length_starts : ∀ {ws : List Nat} {t : Nat}, (starts t ws).length = ws.length
  | [], _ => rfl
  | _ :: _, _ => congrArg Nat.succ length_starts

theorem add_le_of_mem_zip_starts : ∀ {ws : List Nat} {t L w : Nat},
    (L, w) ∈ (starts t ws).zip ws → L + w ≤ t + ws.sum
  | [], _, _, _, h => absurd h (List.not_mem_nil _)
  | v :: ws, t, L, w, h => by
    rcases List.mem_cons.1 h with h | h
    · obtain ⟨rfl, rfl⟩ := Prod.mk.inj h
      simp only [List.sum_cons]; omega
    · have := add_le_of_mem_zip_starts h
      simp only [List.sum_cons]; omega

theorem mem_zip_starts_map {l : List (Item V)} {t L : Nat} {x : Item V}
    (h : (L, x) ∈ (starts t (l.map widthOf)).zip l) :
    (L, widthOf x) ∈ (starts t (l.map widthOf)).zip (l.map widthOf) := by
  rw [List.zip_map_right]; exact List.mem_map_of_mem _ h

theorem tableWidths_starts : ∀ {ws : List Nat} {t : Nat}, t + ws.sum = 2 ^ 32 →
    tableWidths (starts t ws) = ws
  | [], _, _ => rfl
  | [w], t, h => by simp only [List.sum_cons, List.sum_nil] at h; simp [starts, tableWidths]; omega
  | w :: w' :: ws, t, h => by
    simp only [List.sum_cons] at h
    have := @tableWidths_starts (w' :: ws) (t + w) (by simp only [List.sum_cons]; omega)
    simp only [starts, tableWidths] at this ⊢
    rw [this, Nat.add_sub_cancel_left]

/-- Laid out in the canonical order, every power-of-two interval starts at a
multiple of its width. -/
theorem dvd_of_mem_zip_starts : ∀ {ws : List Nat} {t : Nat},
    ws.Pairwise (fun a b => IsPow2 b → IsPow2 a ∧ b ≤ a) → (∀ w ∈ ws, IsPow2 w → w ∣ t) →
    ∀ {L w}, (L, w) ∈ (starts t ws).zip ws → IsPow2 w → w ∣ L
  | [], _, _, _, _, _, h, _ => absurd h (List.not_mem_nil _)
  | v :: ws, t, hpw, ht, L, w, h, hw => by
    have hrest := List.pairwise_cons.1 hpw
    rcases List.mem_cons.1 h with h | h
    · obtain ⟨rfl, rfl⟩ := Prod.mk.inj h
      exact ht _ (List.mem_cons_self _ _) hw
    · refine dvd_of_mem_zip_starts hrest.2 (fun u hu hpu => ?_) h hw
      have ⟨hpv, huv⟩ := hrest.1 u hu hpu
      exact Nat.dvd_add (ht u (List.mem_cons_of_mem _ hu) hpu) (hpv.dvd_of_le hpu huv)

/-- The plan update of the final loop adds the width's plan bit, in both of its
branches: a power of two is its own plan bit, and otherwise the high bit is. -/
theorem planBit_of_and_sub_one {w : Locator} (hw : w ≠ 0) (h : w &&& (w - 1) = 0) :
    planBit w.toNat = w := by
  obtain ⟨k, hk⟩ := (and_sub_one_eq_zero_iff hw).1 h
  apply BitVec.eq_of_toNat_eq
  rw [planBit, toNat_ofNat_two_pow_log2, hk, Nat.log2_two_pow]

theorem one_shiftLeft_log2 (w : Locator) :
    (1 : Locator) <<< (Nat.log2 w.toNat % 32) = planBit w.toNat := by
  apply BitVec.eq_of_toNat_eq
  rw [Nat.mod_eq_of_lt log2_toNat_lt, toNat_one_shiftLeft log2_toNat_lt, planBit,
    toNat_ofNat_two_pow_log2]

/-- The final loop's arithmetic does not overflow on items `l` laid out from `t`:
every width is at least one, and each interval's `hi = total + (w - 1)` fits. -/
def PlanFits : Nat → List (Item V) → Prop
  | _, [] => True
  | t, x :: rest => 1 ≤ widthOf x ∧ t % 2 ^ 32 + (widthOf x - 1) < 2 ^ 32 ∧
    PlanFits (t + widthOf x) rest

theorem planFits_of_sum : ∀ {l : List (Item V)} {t : Nat}, (∀ x ∈ l, 1 ≤ widthOf x) →
    t + (l.map widthOf).sum ≤ 2 ^ 32 → PlanFits t l
  | [], _, _, _ => trivial
  | x :: rest, t, hpos, hsum => by
    have hw := hpos x (List.mem_cons_self _ _)
    simp only [List.map_cons, List.sum_cons] at hsum
    refine ⟨hw, by rw [Nat.mod_eq_of_lt (by omega)]; omega, planFits_of_sum
      (fun y hy => hpos y (List.mem_cons_of_mem _ hy)) (by omega)⟩

section FinalLoop

variable {k : V} {w : Locator} {c t : Nat}

theorem toNat_sub_one_of_le (hw : 1 ≤ w.toNat) : (w - 1).toNat = w.toNat - 1 := by
  rw [BitVec.toNat_sub]; simp; omega

theorem ofNat_add_sub_one (hw : 1 ≤ w.toNat) :
    BitVec.ofNat 32 t + (w - 1) = BitVec.ofNat 32 (t + w.toNat - 1) := by
  apply BitVec.eq_of_toNat_eq
  rw [BitVec.toNat_add, toNat_sub_one_of_le hw, BitVec.toNat_ofNat, BitVec.toNat_ofNat]; omega

theorem ofNat_add_toNat : BitVec.ofNat 32 t + w = BitVec.ofNat 32 (t + w.toNat) := by
  rw [BitVec.ofNat_add, BitVec.ofNat_toNat, BitVec.setWidth_eq]

end FinalLoop

/-- The final loop, on items whose arithmetic fits: the intervals are laid end to
end from `t` (wrapping), the indices count up from `count`, and the plan collects
the plan bits of the widths. -/
theorem planLoop_eq : ∀ (l : List (Item V)) (t count : Nat) (plan : Plan), PlanFits t l →
    planLoop l (BitVec.ofNat 32 t) count plan = .ok
      ((l.map fun x => planBit (widthOf x)).foldl (· ||| ·) plan,
        (l.map Prod.fst).zip (List.range' count l.length),
        ((starts t (l.map widthOf)).zip l).map
          (fun p => (p.2.2.2, BitVec.ofNat 32 p.1, BitVec.ofNat 32 (p.1 + widthOf p.2 - 1))),
        ((starts t (l.map widthOf)).zip l).map fun p => (BitVec.ofNat 32 p.1, p.2.1))
  | [], _, _, _, _ => rfl
  | (k, w, c) :: rest, t, count, plan, ⟨hw, hfit, hrest⟩ => by
    change 1 ≤ w.toNat at hw
    have hw0 : w ≠ 0 := fun h => by simp [h] at hw
    have h1 : (1 : Locator) ≤ w := by rw [BitVec.le_def]; exact hw
    have hlt : (BitVec.ofNat 32 t).toNat + (w - 1).toNat < 2 ^ 32 := by
      rw [toNat_sub_one_of_le hw, BitVec.toNat_ofNat]; exact hfit
    have ih := fun p => planLoop_eq rest (t + w.toNat) (count + 1) p hrest
    simp only [planLoop, subU32_of_le h1, addU32_of_lt hlt, ofNat_add_sub_one hw, ofNat_add_toNat,
      ih, bind, Except.bind, pure, Except.pure]
    simp only [List.map_cons, List.foldl_cons]
    split
    · rw [show planBit (widthOf (k, w, c)) = w from planBit_of_and_sub_one hw0 ‹_›]; rfl
    · rw [highBit_eq_log2 hw0]
      show Except.ok (_, _) = _
      rw [one_shiftLeft_log2]; rfl

/-- Conversely, a run of the final loop that returns did not overflow. -/
theorem planFits_of_planLoop : ∀ {l : List (Item V)} {t count : Nat} {plan : Plan} {out},
    planLoop l (BitVec.ofNat 32 t) count plan = .ok out → PlanFits t l
  | [], _, _, _, _, _ => trivial
  | (k, w, c) :: rest, t, count, plan, out, h => by
    have hw : 1 ≤ w.toNat := by
      by_contra hw
      have : ¬ (1 : Locator) ≤ w := by rw [BitVec.le_def]; simpa using hw
      simp only [planLoop, subU32, if_neg this, bind, Except.bind] at h
      cases h
    have hw0 : w ≠ 0 := fun h => by simp [h] at hw
    have h1 : (1 : Locator) ≤ w := by rw [BitVec.le_def]; exact hw
    have hlt : t % 2 ^ 32 + (w.toNat - 1) < 2 ^ 32 := by
      by_contra hlt
      have : ¬ (BitVec.ofNat 32 t).toNat + (w - 1).toNat < 2 ^ 32 := by
        rwa [toNat_sub_one_of_le hw, BitVec.toNat_ofNat]
      simp only [planLoop, subU32_of_le h1, addU32, if_neg this, bind, Except.bind] at h
      cases h
    refine ⟨hw, hlt, ?_⟩
    have hlt' : (BitVec.ofNat 32 t).toNat + (w - 1).toNat < 2 ^ 32 := by
      rw [toNat_sub_one_of_le hw, BitVec.toNat_ofNat]; exact hlt
    simp only [planLoop, subU32_of_le h1, addU32_of_lt hlt', ofNat_add_toNat, bind,
      Except.bind, pure, Except.pure] at h
    split at h
    · cases hr : planLoop rest (BitVec.ofNat 32 (t + w.toNat)) (count + 1) (plan ||| w) <;>
        rw [hr] at h
      · cases h
      · exact planFits_of_planLoop hr
    · simp only [highBit_eq_log2 hw0] at h
      cases hr : planLoop rest (BitVec.ofNat 32 (t + w.toNat)) (count + 1)
          (plan ||| (1 : Locator) <<< (Nat.log2 w.toNat % 32)) <;> rw [hr] at h
      · cases h
      · exact planFits_of_planLoop hr

/-- What `formulate_plan` returns for the items `l` of its final loop. -/
def formulated (l : List (Item V)) : Formulated V :=
  ⟨(l.map fun x => planBit (widthOf x)).foldl (· ||| ·) 0,
    (l.map Prod.fst).zip (List.range' 0 l.length),
    ((starts 0 (l.map widthOf)).zip l).map
      (fun p => (p.2.2.2, BitVec.ofNat 32 p.1, BitVec.ofNat 32 (p.1 + widthOf p.2 - 1))),
    ((starts 0 (l.map widthOf)).zip l).map fun p => (BitVec.ofNat 32 p.1, p.2.1)⟩

theorem sumCounts_ok : ∀ {counts : List (V × Nat)} {acc total : Nat},
    sumCounts counts acc = .ok total → total = acc + (counts.map Prod.snd).sum
  | [], _, _, h => by cases h; rfl
  | (_, v) :: rest, acc, total, h => by
    by_cases hv : acc + v < 2 ^ 64
    · simp only [sumCounts, usizeAdd_of_lt hv, bind, Except.bind] at h
      rw [sumCounts_ok h, List.map_cons, List.sum_cons, Nat.add_assoc]
    · simp only [sumCounts, usizeAdd, if_neg hv, bind, Except.bind] at h
      cases h

/-- Every run of `formulate_plan` on two or more values that returns, returns the
table of some items in the canonical order that carry the values and counts, with
at most one width not a power of two and no overflow in the final loop; when each
value holds at least `2^-32` of the keys, the widths tile the locator space. -/
theorem formulatePlan_ok [LinearOrder V] {counts : List (V × Nat)} (hlen : 2 ≤ counts.length)
    {r : Formulated V} (h : formulatePlan counts = .ok r) :
    ∃ l : List (Item V), r = formulated l ∧ (l.map keyCount).Perm counts ∧ l.Sorted KeyLe ∧
      (l.map widthOf).countP (fun w => ¬ IsPow2 w) ≤ 1 ∧ PlanFits 0 l ∧
      ((∀ x ∈ counts, 0 < x.2 ∧ (counts.map Prod.snd).sum ≤ x.2 * 2 ^ 32) →
        (∀ x ∈ l, 1 ≤ widthOf x) ∧ (l.map widthOf).sum = 2 ^ 32) := by
  simp only [formulatePlan, if_neg (by omega : ¬ counts.length ≤ 1), bind, Except.bind] at h
  cases hs : sumCounts counts 0 <;> rw [hs] at h
  · cases h
  rename_i total
  by_cases ht : total > 0
  swap
  · simp only [if_pos ht, throw, throwThe, MonadExceptOf.throw, Except.error] at h
    cases h
  let items := counts.map fun x => (x.1, initialWidth total x.2, x.2)
  have hperm1 := List.perm_insertionSort FitLe items
  simp only [if_neg (not_not.2 ht), pure, Except.pure, itemsLoop_eq] at h
  cases he : expandLoop (-(0 + BitVec.ofNat 32 (counts.map fun x => (initialWidth total x.2).toNat).sum))
    (items.insertionSort FitLe) <;> simp only [he] at h
  · cases h
  rename_i items2
  cases hp : planLoop (items2.insertionSort KeyLe) 0 0 0 <;> simp only [hp] at h
  · cases h
  cases h
  obtain ⟨hkc2, -, hodd2⟩ := expandLoop_ok he
  have hperm3 := List.perm_insertionSort KeyLe items2
  have hfits := planFits_of_planLoop (t := 0) hp
  have hpl := planLoop_eq (items2.insertionSort KeyLe) 0 0 0 hfits
  rw [show (BitVec.ofNat 32 0 : Locator) = 0 from rfl, hp] at hpl
  cases hpl
  have hmem1 : ∀ x ∈ items.insertionSort FitLe, IsPow2 (widthOf x) := fun x hx => by
    obtain ⟨y, -, rfl⟩ := List.mem_map.1 (hperm1.mem_iff.1 hx); exact isPow2_initialWidth _ _
  refine ⟨items2.insertionSort KeyLe, rfl, ?_, List.sorted_insertionSort _ _,
    (hperm3.map widthOf).countP_eq _ ▸ (hodd2 hmem1).trans (by split <;> omega), hfits,
    fun hshare => ?_⟩
  · refine (hperm3.map keyCount).trans ?_
    rw [hkc2]
    refine (hperm1.map keyCount).trans ?_
    simp only [items, List.map_map]; exact (List.map_id _).symm ▸ List.Perm.refl _
  · -- the expansion fills the space the initial widths leave
    obtain rfl := (sumCounts_ok hs).trans (Nat.zero_add _)
    obtain ⟨hle, hgt⟩ := sum_initialWidth_bounds
      (by simpa using hlen : 2 ≤ (counts.map Prod.snd).length) rfl
      (fun c hc => by obtain ⟨x, hx, rfl⟩ := List.mem_map.1 hc; exact hshare x hx)
    simp only [List.map_map, Function.comp_def] at hle hgt
    set S := (counts.map fun x => (initialWidth (counts.map Prod.snd).sum x.2).toNat).sum
    have hsum1 : ((items.insertionSort FitLe).map widthOf).sum = S := by
      rw [(hperm1.map widthOf).sum_eq]; simp only [items, List.map_map]; rfl
    have hrem : (-(0 + BitVec.ofNat 32 S)).toNat = (2 ^ 32 - S) % 2 ^ 32 := by
      rw [BitVec.toNat_neg, BitVec.toNat_add, BitVec.toNat_ofNat, show (0 : Locator).toNat = 0 from rfl]
      rcases Nat.lt_or_ge S (2 ^ 32) with h | h
      · rw [Nat.zero_add, Nat.mod_mod, Nat.mod_eq_of_lt h]
      · rw [show S = 2 ^ 32 by omega]; rfl
    obtain ⟨l', hl', hsum'⟩ :=
      expandLoop_spec (items.insertionSort FitLe) (-(0 + BitVec.ofNat 32 S)) 0
        (fun x hx => (hmem1 x hx).one_le) (by rw [hrem, hsum1]; omega) (by rw [hrem, hsum1]; omega)
        (.inr (by rw [hperm1.length_eq]; simpa [items] using hlen))
    rw [he] at hl'
    cases hl'
    obtain ⟨-, hpos2, -⟩ := expandLoop_ok he
    exact ⟨fun x hx => hpos2 (fun x hx => (hmem1 x hx).one_le) x (hperm3.mem_iff.1 hx),
      by rw [(hperm3.map widthOf).sum_eq]; omega⟩

/-! ## What `formulate_plan` promises -/

/-- The lower bounds of a response table, as numbers. -/
def bounds (r : Formulated V) : List Nat := r.responseMap.map fun e => e.1.toNat

/-- The response table tiles the locator space: widths of at least one that add
up to exactly `2^32` (so the bounds increase and no interval wraps), all but the
last a power of two, decreasing, each power-of-two interval aligned to its
width; the plan collects the plan bits of the widths; `value_map` gives each
value its index, and `interval_vec` its count and interval. -/
structure PlanSpec (counts : List (V × Nat)) (r : Formulated V) : Prop where
  counts_perm : ((r.responseMap.map Prod.snd).zip (r.intervalVec.map Prod.fst)).Perm counts
  length_intervalVec : r.intervalVec.length = r.responseMap.length
  head_bounds : (bounds r).head? = some 0
  widths_pos : ∀ w ∈ tableWidths (bounds r), 1 ≤ w
  sum_widths : (tableWidths (bounds r)).sum = 2 ^ 32
  pow2_dropLast : ∀ w ∈ (tableWidths (bounds r)).dropLast, IsPow2 w
  decreasing : (tableWidths (bounds r)).Pairwise fun a b => IsPow2 b → b ≤ a
  aligned : ∀ L w, (L, w) ∈ (bounds r).zip (tableWidths (bounds r)) → IsPow2 w → w ∣ L
  plan_eq : r.plan = ((tableWidths (bounds r)).map planBit).foldl (· ||| ·) 0
  valueMap_eq : r.valueMap = (r.responseMap.map Prod.snd).zip (List.range r.responseMap.length)
  intervals : r.intervalVec.map (fun x => (x.2.1.toNat, x.2.2.toNat)) =
    ((bounds r).zip (tableWidths (bounds r))).map fun p => (p.1, p.1 + p.2 - 1)

/-- What the final loop makes of items in the canonical order whose widths tile
the space, with at most one width not a power of two. -/
theorem planSpec_of_sorted [LinearOrder V] {counts : List (V × Nat)} {l : List (Item V)}
    (hs : l.Sorted KeyLe) (hpos : ∀ x ∈ l, 1 ≤ widthOf x) (hsum : (l.map widthOf).sum = 2 ^ 32)
    (hodd : (l.map widthOf).countP (fun w => ¬ IsPow2 w) ≤ 1) (hkc : (l.map keyCount).Perm counts) :
    PlanSpec counts (formulated l) := by
  have hlen : (starts 0 (l.map widthOf)).length = l.length := by simp
  have hfit : ∀ p ∈ (starts 0 (l.map widthOf)).zip l, p.1 + widthOf p.2 ≤ 2 ^ 32 := fun p hp =>
    hsum ▸ Nat.zero_add (l.map widthOf).sum ▸ add_le_of_mem_zip_starts (mem_zip_starts_map hp)
  have hposp : ∀ p ∈ (starts 0 (l.map widthOf)).zip l, 1 ≤ widthOf p.2 := fun p hp =>
    hpos _ (List.of_mem_zip hp).2
  have hbounds : ((((starts 0 (l.map widthOf)).zip l).map fun p => (BitVec.ofNat 32 p.1, p.2.1)).map
      fun e => e.1.toNat) = starts 0 (l.map widthOf) := by
    rw [List.map_map]
    refine (List.map_congr_left fun p hp => ?_).trans (List.map_fst_zip _ _ hlen.le)
    have := hfit p hp; have := hposp p hp
    simp only [Function.comp, BitVec.toNat_ofNat]; omega
  have hwidths := @tableWidths_starts (l.map widthOf) 0 (by omega)
  have hsnd : ((starts 0 (l.map widthOf)).zip l).map Prod.snd = l := List.map_snd_zip _ _ hlen.ge
  have hvalues : ((((starts 0 (l.map widthOf)).zip l).map fun p => (BitVec.ofNat 32 p.1, p.2.1)).map
      Prod.snd) = l.map Prod.fst := by
    conv_rhs => rw [← hsnd]
    simp only [List.map_map]; rfl
  refine ⟨?_, by simp [formulated], ?_, ?_, ?_, ?_, ?_, ?_, ?_, ?_, ?_⟩ <;>
    simp only [formulated, bounds, hbounds, hwidths]
  · have hcounts : (((starts 0 (l.map widthOf)).zip l).map fun p =>
        (p.2.2.2, BitVec.ofNat 32 p.1, BitVec.ofNat 32 (p.1 + widthOf p.2 - 1))).map Prod.fst =
        l.map fun x => x.2.2 := by
      conv_rhs => rw [← hsnd]
      simp only [List.map_map]; rfl
    rw [hvalues, hcounts, List.zip_map']
    exact hkc
  · cases l with
    | nil => simp at hsum
    | cons => rfl
  · intro w hw
    obtain ⟨x, hx, rfl⟩ := List.mem_map.1 hw; exact hpos x hx
  · exact hsum
  · exact pow2_of_mem_dropLast hs hpos hodd
  · exact (pairwise_widthOf hs hpos).imp fun h hb => (h hb).2
  · exact fun L w h hw => dvd_of_mem_zip_starts (pairwise_widthOf hs hpos) (fun _ _ _ => dvd_zero _) h hw
  · simp only [List.map_map]; rfl
  · rw [hvalues, List.range_eq_range']; simp
  · rw [List.zip_map_right, List.map_map, List.map_map]
    refine List.map_congr_left fun p hp => ?_
    have := hfit p hp; have := hposp p hp
    simp only [Function.comp, Prod.map, id, BitVec.toNat_ofNat]
    rw [Nat.mod_eq_of_lt (by omega), Nat.mod_eq_of_lt (by omega)]

/-- `formulate_plan` on at least two values, each holding at least `2^-32` of the
keys (as every value does when there are at most `2^32` keys), with fewer than
`2^64` keys in all: nothing overflows, and the table meets `PlanSpec`. -/
theorem formulatePlan_spec [LinearOrder V] (counts : List (V × Nat)) (hlen : 2 ≤ counts.length)
    (htotal : (counts.map Prod.snd).sum < 2 ^ 64)
    (hshare : ∀ x ∈ counts, 0 < x.2 ∧ (counts.map Prod.snd).sum ≤ x.2 * 2 ^ 32) :
    ∃ r, formulatePlan counts = .ok r ∧ PlanSpec counts r := by
  obtain ⟨hle, hgt⟩ := sum_initialWidth_bounds
    (by simpa using hlen : 2 ≤ (counts.map Prod.snd).length) rfl
    (fun c hc => by obtain ⟨x, hx, rfl⟩ := List.mem_map.1 hc; exact hshare x hx)
  simp only [List.map_map, Function.comp_def] at hle hgt
  have ht : 0 < (counts.map Prod.snd).sum := by
    obtain ⟨x, hx⟩ := List.exists_mem_of_length_pos (by omega : 0 < counts.length)
    have := List.le_sum_of_mem (List.mem_map_of_mem Prod.snd hx); have := (hshare x hx).1; omega
  -- the initial widths, in `compare_fit` order
  let items := counts.map fun x => (x.1, initialWidth (counts.map Prod.snd).sum x.2, x.2)
  have hperm1 := List.perm_insertionSort FitLe items
  have hmem1 : ∀ x ∈ items.insertionSort FitLe, IsPow2 (widthOf x) := fun x hx => by
    obtain ⟨y, -, rfl⟩ := List.mem_map.1 (hperm1.mem_iff.1 hx); exact isPow2_initialWidth _ _
  -- the expansion
  set S := (counts.map fun x => (initialWidth (counts.map Prod.snd).sum x.2).toNat).sum
  have hsum1 : ((items.insertionSort FitLe).map widthOf).sum = S := by
    rw [(hperm1.map widthOf).sum_eq]; simp only [items, List.map_map]; rfl
  have hrem : (-(0 + BitVec.ofNat 32 S)).toNat = (2 ^ 32 - S) % 2 ^ 32 := by
    rw [BitVec.toNat_neg, BitVec.toNat_add, BitVec.toNat_ofNat, show (0 : Locator).toNat = 0 from rfl]
    rcases Nat.lt_or_ge S (2 ^ 32) with h | h
    · rw [Nat.zero_add, Nat.mod_mod, Nat.mod_eq_of_lt h]
    · rw [show S = 2 ^ 32 by omega]; rfl
  obtain ⟨items2, hexp, hsum2⟩ :=
    expandLoop_spec (items.insertionSort FitLe) (-(0 + BitVec.ofNat 32 S)) 0
      (fun x hx => (hmem1 x hx).one_le) (by rw [hrem, hsum1]; omega) (by rw [hrem, hsum1]; omega)
      (.inr (by rw [hperm1.length_eq]; simpa [items] using hlen))
  obtain ⟨hkc2, hpos2, hodd2⟩ := expandLoop_ok hexp
  replace hpos2 := hpos2 fun x hx => (hmem1 x hx).one_le
  -- the canonical order
  have hperm3 := List.perm_insertionSort KeyLe items2
  have hkc3 : ((items2.insertionSort KeyLe).map keyCount).Perm counts := by
    refine (hperm3.map keyCount).trans ?_
    rw [hkc2]
    refine (hperm1.map keyCount).trans ?_
    simp only [items, List.map_map]; exact (List.map_id _).symm ▸ List.Perm.refl _
  have hpos3 : ∀ x ∈ items2.insertionSort KeyLe, 1 ≤ widthOf x := fun x hx =>
    hpos2 x (hperm3.mem_iff.1 hx)
  have hsum3 := (hperm3.map widthOf).sum_eq
  have hpl : planLoop (items2.insertionSort KeyLe) 0 0 0 = _ :=
    planLoop_eq (items2.insertionSort KeyLe) 0 0 0 (planFits_of_sum hpos3 (by omega))
  refine ⟨_, ?_, planSpec_of_sorted (List.sorted_insertionSort _ _) hpos3 (by omega)
    ((hperm3.map widthOf).countP_eq _ ▸ (hodd2 hmem1).trans (by split <;> omega)) hkc3⟩
  simp only [formulatePlan, if_neg (by omega : ¬ counts.length ≤ 1),
    sumCounts_eq counts 0 (by omega), Nat.zero_add, bind, Except.bind, gt_iff_lt, ht, not_true,
    if_false, itemsLoop_eq, hexp, hpl, pure, Except.pure, formulated]

/-! ## Below a share of `2^-32` -/

/-- `compare_fit`'s order as a key in a linear order, for positive counts: the
width per key, then `(w, c)`. -/
def fitKey (x : Item V) : Lex (ℚ × Lex (Nat × Nat)) :=
  toLex ((x.2.1.toNat : ℚ) / x.2.2, toLex (x.2.1.toNat, x.2.2))

/-- For positive counts, `compare_fit` orders items as their keys do. -/
theorem fitLe_iff {a b : Item V} (ha : 0 < a.2.2) (hb : 0 < b.2.2) :
    FitLe a b ↔ fitKey a ≤ fitKey b := by
  have hqa : (0 : ℚ) < a.2.2 := by exact_mod_cast ha
  have hqb : (0 : ℚ) < b.2.2 := by exact_mod_cast hb
  rw [fitKey, fitKey, Prod.Lex.le_iff, Prod.Lex.le_iff, div_lt_div_iff₀ hqa hqb,
    div_eq_div_iff hqa.ne' hqb.ne']
  simp only [FitLe, compareFit, ne_eq]
  norm_cast
  by_cases hs : a.2.1.toNat * b.2.2 = b.2.1.toNat * a.2.2
  · simp only [hs, not_true, if_false, lt_irrefl, false_or, true_and, Ordering.then_eq_gt,
      not_or, not_and, compare_gt_iff_gt, compare_eq_iff_eq]
    omega
  · simp only [hs, not_false_eq_true, if_true, compare_gt_iff_gt, false_and, or_false]
    omega

/-- Sorted by `compare_fit`, two orders of the same items with positive counts
give the same widths and counts, in the same order. -/
theorem map_fitKey_insertionSort {l₁ l₂ : List (Item V)} (hp : l₁.Perm l₂)
    (hpos : ∀ x ∈ l₁, 0 < x.2.2) :
    (l₁.insertionSort FitLe).map fitKey = (l₂.insertionSort FitLe).map fitKey := by
  have hpos₂ : ∀ x ∈ l₂, 0 < x.2.2 := fun x hx => hpos x (hp.mem_iff.2 hx)
  rw [List.map_insertionSort FitLe (· ≤ ·) fitKey l₁ fun a ha b hb =>
      fitLe_iff (hpos a ha) (hpos b hb),
    List.map_insertionSort FitLe (· ≤ ·) fitKey l₂ fun a ha b hb =>
      fitLe_iff (hpos₂ a ha) (hpos₂ b hb)]
  exact List.eq_of_perm_of_sorted
    ((List.perm_insertionSort _ _).trans ((hp.map _).trans (List.perm_insertionSort _ _).symm))
    (List.sorted_insertionSort _ _) (List.sorted_insertionSort _ _)

/-- The expansion loop reads only the widths and counts: on items with the same
ones, it fails as it fails on the other. -/
theorem expandLoop_error_of_fitKey : ∀ {l₁ l₂ : List (Item V)} {rem : Locator} {e : Fault},
    l₁.map fitKey = l₂.map fitKey → expandLoop rem l₂ = .error e → expandLoop rem l₁ = .error e
  | [], [], _, _, _, he => by cases he
  | (k, w, c) :: r₁, (k', w', c') :: r₂, rem, e, hm, he => by
    rw [List.map_cons, List.map_cons, List.cons.injEq] at hm
    obtain ⟨hk, hr⟩ := hm
    have hwc : (w.toNat, c) = (w'.toNat, c') := congrArg (fun x => ofLex (ofLex x).2) hk
    obtain ⟨hw, rfl⟩ := Prod.mk.inj hwc
    obtain rfl : w = w' := BitVec.eq_of_toNat_eq hw
    by_cases h0 : rem = 0
    · rw [expandLoop, if_pos h0] at he; cases he
    rw [expandLoop, if_neg h0] at he ⊢
    simp only [bind, Except.bind] at he ⊢
    cases hs : subU32 rem (if w < rem then w else rem) <;> simp only [hs] at he ⊢
    · exact he
    cases ha : addU32 w (if w < rem then w else rem) <;> simp only [ha] at he ⊢
    · exact he
    cases hx : expandLoop _ r₂ <;> rw [hx] at he
    · rw [expandLoop_error_of_fitKey hr hx]; exact he
    · cases he

/-- `2^33` keys: counts `2^32, 2^31, …, 2` and two values with a single key each,
whose share is below `2^-32`. -/
def skewedCounts : List (Nat × Nat) :=
  (List.range 32).map (fun i => (i, 2 ^ (32 - i))) ++ [(32, 1), (33, 1)]

/-- In whatever order `HashMap` yields `skewedCounts`, `formulate_plan`
overflows: sorting by `compare_fit` lines the same widths up for the expansion
loop. -/
theorem formulatePlan_perm_skewedCounts {p : List (Nat × Nat)} (hp : p.Perm skewedCounts) :
    formulatePlan p = .error addOverflow := by
  have hlen : ¬ p.length ≤ 1 := by rw [hp.length_eq]; decide
  have hsum : (p.map Prod.snd).sum = 2 ^ 33 := by rw [(hp.map _).sum_eq]; decide
  have hexp : (itemsLoop (2 ^ 33) skewedCounts 0 >>= fun r =>
      expandLoop (-r.2) (r.1.insertionSort FitLe)) = .error addOverflow := by rfl
  simp only [itemsLoop_eq, bind, Except.bind] at hexp
  have hpos : ∀ x ∈ skewedCounts, 0 < x.2 := by decide
  have hsort := map_fitKey_insertionSort (hp.map fun x => (x.1, initialWidth (2 ^ 33) x.2, x.2))
    (by simp only [List.forall_mem_map]; exact fun x hx => hpos x (hp.mem_iff.1 hx))
  rw [formulatePlan, if_neg hlen]
  simp only [sumCounts_eq p 0 (by omega), Nat.zero_add, hsum, bind, Except.bind, itemsLoop_eq]
  rw [if_neg (by norm_num), (hp.map fun x => (initialWidth (2 ^ 33) x.2).toNat).sum_eq,
    expandLoop_error_of_fitKey hsort hexp]
  rfl

/-- On `skewedCounts` the two smallest values get the minimum width 1, so the
initial widths add up to `2^32 + 1` and the remaining width wraps around to
`2^32 - 1`; the expansion loop overflows when it doubles the width `2^31`. -/
theorem formulatePlan_skewedCounts :
    2 ≤ skewedCounts.length ∧ (∀ x ∈ skewedCounts, 1 ≤ x.2) ∧
      formulatePlan skewedCounts = .error addOverflow :=
  ⟨by decide, by decide, formulatePlan_perm_skewedCounts (List.Perm.refl _)⟩

/-! ## The order of the counts -/

/-- The three values of `[(0,1), (1,1), (2,1)]` tie in `compare_fit` and its
tie-break on `(w, c)`, so the stable sort keeps the `HashMap` order and the first
value is the one whose width is doubled: two orders of the same counts give
different response tables and value maps (the plan and the intervals agree). -/
theorem formulatePlan_order_dependent :
    [((0 : Nat), 1), (1, 1), (2, 1)].Perm [(1, 1), (0, 1), (2, 1)] ∧
      formulatePlan [((0 : Nat), 1), (1, 1), (2, 1)] = .ok ⟨0xc0000000#32,
        [(0, 0), (1, 1), (2, 2)],
        [(1, 0#32, 0x7fffffff#32), (1, 0x80000000#32, 0xbfffffff#32),
          (1, 0xc0000000#32, 0xffffffff#32)],
        [(0#32, 0), (0x80000000#32, 1), (0xc0000000#32, 2)]⟩ ∧
      formulatePlan [((1 : Nat), 1), (0, 1), (2, 1)] = .ok ⟨0xc0000000#32,
        [(1, 0), (0, 1), (2, 2)],
        [(1, 0#32, 0x7fffffff#32), (1, 0x80000000#32, 0xbfffffff#32),
          (1, 0xc0000000#32, 0xffffffff#32)],
        [(0#32, 1), (0x80000000#32, 0), (0xc0000000#32, 2)]⟩ :=
  ⟨by decide, by rfl, by rfl⟩

end FrayedCascade
