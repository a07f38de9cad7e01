import FrayedCascade.PhaseLoop

/-!
# Where a key's locator lands

After the phase loop, each key's answers in the phases assemble a locator, and
`query` answers the response of the interval that locator falls in
(`query_answers`). This file shows that for every pair `(k, v)` of the
collection the locator falls in `v`'s interval, so `query` returns `v`
(`query_of_phasesDone`).

A value whose width is a power of two `2^b` is resolved in the phase that starts
at bit `b`: from that phase up, every phase answers `k` with the bits of the
interval's last point `hi`, so the locator agrees with `hi` from bit `b` up, and
the interval is aligned to `2^b` (`Assembled.div_eq`, `mem_of_div_eq_aligned`).
The odd man out has the last interval, `[lo_omo, 2^32)`, so only its lower bound
matters. Phases above `phase_omo` answer its keys with all ones. At `phase_omo`
itself, a key whose current value is already at least `lo_omo` is left free, and
every bit of that value is a bit of the locator, so the locator is at least
`lo_omo`. A key whose current value is below is answered with all ones from
`phase_omo` up, and `phase_omo`'s bit is in the width (`le_of_div_eq`).

- `ascending_formulated`, `answers_formulated`: a table whose widths tile the
  space is ascending, and answers each point of interval `i` with item `i`'s value;
- `PhasesDone.output`: after the loop, what each phase answers;
- `omoPhases_fst`: `phase_omo` is a phase whose bits meet the width;
- `PhasesDone.query_eq_answer`: `query` answers every key with the table's
  answer at its assembled locator;
- `query_of_phasesDone`: `query` answers every pair of the collection.
-/

namespace FrayedCascade

variable {K V : Type}

/-! ## The response table of a tiling -/

section Table

variable {l : List (Item V)}

@[simp] theorem length_responseMap : (formulated l).responseMap.length = l.length := by
  simp [formulated]

theorem getElem?_responseMap {i : Nat} (hi : i < l.length) :
    (formulated l).responseMap[i]? =
      some (BitVec.ofNat 32 ((l.map widthOf).take i).sum, l[i].1) := by
  have := @getD_starts (l.map widthOf) 0 i (by simpa using hi)
  rw [List.getD_eq_getElem _ _ (by simpa using hi), Nat.zero_add] at this
  simp [formulated, hi, this]

theorem getElem_responseMap {i : Nat} (hi : i < l.length)
    (hi' : i < (formulated l).responseMap.length) :
    (formulated l).responseMap[i] = (BitVec.ofNat 32 ((l.map widthOf).take i).sum, l[i].1) :=
  Option.some.inj ((List.getElem?_eq_getElem hi').symm.trans (getElem?_responseMap hi))

theorem sum_take_succ_widthOf {i : Nat} (hi : i < l.length) :
    ((l.map widthOf).take (i + 1)).sum = ((l.map widthOf).take i).sum + widthOf l[i] := by
  rw [List.sum_take_succ _ _ (by simpa using hi), List.getElem_map]

/-- Interval `i` ends where every later one starts. -/
theorem start_add_width_le_start {i j : Nat} (hi : i < l.length) (hij : i < j) :
    ((l.map widthOf).take i).sum + widthOf l[i] ≤ ((l.map widthOf).take j).sum := by
  rw [← sum_take_succ_widthOf hi]; exact List.monotone_sum_take _ hij

variable (hpos : ∀ x ∈ l, 1 ≤ widthOf x) (hsum : (l.map widthOf).sum = 2 ^ 32)
include hsum

/-- Interval `i` ends within the space. -/
theorem start_add_width_le {i : Nat} (hi : i < l.length) :
    ((l.map widthOf).take i).sum + widthOf l[i] ≤ 2 ^ 32 := by
  have := List.sum_take_add_sum_drop (l.map widthOf) (i + 1)
  rw [sum_take_succ_widthOf hi] at this
  omega

include hpos

theorem toNat_start {i : Nat} (hi : i < l.length) :
    (BitVec.ofNat 32 ((l.map widthOf).take i).sum).toNat = ((l.map widthOf).take i).sum := by
  have := start_add_width_le hsum hi
  have := hpos _ (List.getElem_mem hi)
  rw [BitVec.toNat_ofNat, Nat.mod_eq_of_lt (by omega)]

/-- A table whose widths tile the space is ascending. -/
theorem ascending_formulated : Ascending (formulated l).responseMap := by
  refine ⟨?_, List.pairwise_iff_getElem.2 fun i j hi hj hij => ?_⟩
  · cases l with
    | nil => simp at hsum
    | cons => rfl
  · have hi' : i < l.length := by simpa using hi
    have hj' : j < l.length := by simpa using hj
    rw [getElem_responseMap hi' hi, getElem_responseMap hj' hj, toNat_start hpos hsum hi',
      toNat_start hpos hsum hj']
    have := start_add_width_le_start hi' hij
    have := hpos _ (List.getElem_mem hi')
    omega

/-- Each point of interval `i` is answered with item `i`'s value. -/
theorem answers_formulated {i : Nat} (hi : i < l.length) {x : Nat}
    (hlo : ((l.map widthOf).take i).sum ≤ x) (hhi : x < ((l.map widthOf).take i).sum + widthOf l[i]) :
    Answers (formulated l).responseMap x l[i].1 := by
  have hi' : i < (formulated l).responseMap.length := by simpa using hi
  refine ⟨i, ⟨hi', ?_, fun q hq hqx => ?_⟩, hi', by rw [getElem_responseMap hi hi']⟩
  · rwa [getElem_responseMap hi hi', toNat_start hpos hsum hi]
  · have hq' : q < l.length := by simpa using hq
    rw [getElem_responseMap hq' hq, toNat_start hpos hsum hq'] at hqx
    by_contra hlt
    have := start_add_width_le_start hi (show i < q by omega)
    omega

/-- A tiling has an item, so the plan has its width's bit. -/
theorem plan_ne_zero_of_tiling : (formulated l).plan ≠ 0 := by
  obtain ⟨x, hx⟩ := List.exists_mem_of_ne_nil l (by rintro rfl; simp at hsum)
  exact ne_zero_of_setBits_ne_nil (List.ne_nil_of_mem (log2_mem_setBits_plan hx))

omit hpos hsum in
theorem map_snd_responseMap : (formulated l).responseMap.map Prod.snd = l.map Prod.fst := by
  refine List.ext_getElem (by simp) fun i h₁ h₂ => ?_
  rw [List.getElem_map, getElem_responseMap (by simpa using h₂) (by simpa using h₁), List.getElem_map]

end Table

theorem Answers.unique {resp : List (Locator × V)} {x : Nat} {v v' : V} (h : Answers resp x v)
    (h' : Answers resp x v') : v = v' := by
  obtain ⟨p, hp, hlt, rfl⟩ := h
  obtain ⟨p', hp', hlt', rfl⟩ := h'
  obtain rfl := hp.unique hp'
  rfl

theorem Answers.mem {resp : List (Locator × V)} {x : Nat} {v : V} (h : Answers resp x v) :
    v ∈ resp.map Prod.snd := by
  obtain ⟨p, -, hp, rfl⟩ := h
  exact List.mem_map_of_mem _ (List.getElem_mem hp)

/-! ## Where the assembled locator lands -/

/-- Every bit from `b_{j₀}` up to 32 lies in a phase at or above `j₀`. -/
theorem BitList.exists_phase {bs : List Nat} (hb : BitList bs) :
    ∀ {m j₀ i : Nat}, j₀ + m = bs.length → bnd bs j₀ ≤ i → i < 32 →
      ∃ j, j₀ ≤ j ∧ j < bs.length ∧ bnd bs j ≤ i ∧ i < bnd bs (j + 1)
  | 0, j₀, i, hm, hlo, hi => by rw [Nat.add_zero] at hm; rw [hm, bnd_length] at hlo; omega
  | m + 1, j₀, i, hm, hlo, hi => by
    by_cases hnext : i < bnd bs (j₀ + 1)
    · exact ⟨j₀, le_rfl, by omega, hlo, hnext⟩
    · obtain ⟨j, hj, hjl, h1, h2⟩ :=
        hb.exists_phase (show j₀ + 1 + m = bs.length by omega) (Nat.le_of_not_lt hnext) hi
      exact ⟨j, by omega, hjl, h1, h2⟩

/-- When the phases from `j₀` up answer with the bits of `x` at their places, the
locator they assemble agrees with `x` from bit `b_{j₀}` up. -/
theorem Assembled.div_eq {bs : List Nat} (hb : BitList bs) {o : Nat → Nat} {L x : Locator}
    (hA : Assembled bs o L) {j₀ : Nat} (hj₀ : j₀ ≤ bs.length)
    (ho : ∀ j, j₀ ≤ j → j < bs.length →
      o j = (x.toNat >>> bnd bs j) % 2 ^ (bnd bs (j + 1) - bnd bs j)) :
    L.toNat / 2 ^ bnd bs j₀ = x.toNat / 2 ^ bnd bs j₀ := by
  rw [← Nat.shiftRight_eq_div_pow, ← Nat.shiftRight_eq_div_pow]
  refine Nat.eq_of_testBit_eq fun i => ?_
  rw [Nat.testBit_shiftRight, Nat.testBit_shiftRight, BitVec.testBit_toNat, BitVec.testBit_toNat]
  by_cases hi : bnd bs j₀ + i < 32
  · obtain ⟨j, hj, hjl, hlo, hhi⟩ :=
      hb.exists_phase (Nat.add_sub_cancel' hj₀) (Nat.le_add_right _ _) hi
    rw [hA.phase j hjl _ hlo hhi, ho j hj hjl, Nat.testBit_mod_two_pow, Nat.testBit_shiftRight,
      Nat.add_sub_cancel' hlo, BitVec.testBit_toNat]
    simp [show bnd bs j₀ + i - bnd bs j < bnd bs (j + 1) - bnd bs j by omega]
  · rw [BitVec.getLsbD_ge _ _ (by omega), BitVec.getLsbD_ge _ _ (by omega)]

/-- A number that agrees from bit `b` up with the last point of an interval
`[lo, lo + 2^b)` aligned to `2^b` lies in it. -/
theorem mem_of_div_eq_aligned {y lo b : Nat} (hdvd : 2 ^ b ∣ lo)
    (h : y / 2 ^ b = (lo + 2 ^ b - 1) / 2 ^ b) : lo ≤ y ∧ y < lo + 2 ^ b := by
  obtain ⟨t, rfl⟩ := hdvd
  have hp := Nat.two_pow_pos b
  have ht : (2 ^ b * t + 2 ^ b - 1) / 2 ^ b = t := by
    rw [Nat.add_sub_assoc hp, Nat.mul_add_div hp, Nat.div_eq_of_lt (Nat.sub_lt hp Nat.one_pos),
      Nat.add_zero]
  have h1 := Nat.div_mul_le_self y (2 ^ b)
  have h2 : y < y / 2 ^ b * 2 ^ b + 2 ^ b := Nat.lt_div_mul_add hp
  rw [h, ht, Nat.mul_comm] at h1 h2
  omega

/-- A number that agrees from bit `b` up with the last point of an interval
`[lo, lo + w)` with `2^b ≤ w` is at least `lo`. -/
theorem le_of_div_eq {y lo w b : Nat} (hw : 2 ^ b ≤ w) (h : y / 2 ^ b = (lo + w - 1) / 2 ^ b) :
    lo ≤ y := by
  have hp := Nat.two_pow_pos b
  have h1 := Nat.div_mul_le_self y (2 ^ b)
  have h2 : lo + w - 1 < (lo + w - 1) / 2 ^ b * 2 ^ b + 2 ^ b := Nat.lt_div_mul_add hp
  rw [h] at h1
  omega

/-- Every bit of a value made of phase outputs below `j` is a bit of the locator
those phases assemble, so the value is at most the locator. -/
theorem FromOutputs.le {rt : Retrieval K} {plan : Plan} {cores : List MapCore} {j : Nat} {k : K}
    {c L : Locator} (h : FromOutputs rt plan cores j k c) (hj : j ≤ (setBits plan).length)
    (hA : Assembled (setBits plan) (phaseOut rt cores · k) L) : c.toNat ≤ L.toNat :=
  Nat.le_of_testBit fun x hx => by
    rw [BitVec.testBit_toNat] at hx ⊢
    obtain ⟨j', hj', hlo, hhi, hb⟩ := h x hx
    rwa [hA.phase j' (by omega) x hlo hhi]

/-! ## What the phases answer -/

section Outputs

variable {sb : SubBuilder K} {rt : Retrieval K} {options : BuildOptions} {plan : Plan}
  {asg : Assignment} {omo : List (K × Locator)} {blocks : List (List (K × Locator))}
  {st : PhaseState}

theorem phaseOut_of_getElem? {cores : List MapCore} {j : Nat} {core : MapCore}
    (h : cores[j]? = some core) (k : K) : phaseOut rt cores j k = rt.queryHash core k := by
  simp [phaseOut, List.getD_eq_getElem?_getD, h]

/-- After the phase loop, phase `j` answers every key below `2^{w_j}`, and each
pair its filter selected with the pair's locator's bits at the phase's place. -/
theorem PhasesDone.output (hsb : sb.Sound rt) {n : Nat}
    (h : PhasesDone sb rt options plan asg omo blocks n st) {j : Nat} (hj : j < n) :
    (∀ k, phaseOut rt st.core j k < 2 ^ (bnd (setBits plan) (j + 1) - bnd (setBits plan) j)) ∧
    ∃ cv : List Locator, cv.length = omo.length ∧
      (∀ i (hi : i < omo.length),
        FromOutputs rt plan st.core (min j asg.phaseOmo) omo[i].1 (cv.getD i 0)) ∧
      ∀ kx ∈ phaseItems asg omo blocks cv j, phaseOut rt st.core j kx.1 =
        (kx.2.toNat >>> bnd (setBits plan) j) %
          2 ^ (bnd (setBits plan) (j + 1) - bnd (setBits plan) j) := by
  obtain ⟨cv, tries, t, core, hlen, hfrom, hcore, -, hcall⟩ := h.call j hj
  refine ⟨fun k => ?_, cv, hlen, hfrom, fun kx hkx => ?_⟩
  · rw [phaseOut_of_getElem? hcore]; exact hsb.queryHash_lt hcall k
  · rw [phaseOut_of_getElem? hcore]; exact hsb.queryHash_eq hcall kx hkx

/-- The locator all phases assemble for `k`, with its bits in each phase the
phase's answer. -/
theorem PhasesDone.assembled (hsb : sb.Sound rt)
    (h : PhasesDone sb rt options plan asg omo blocks (countOnes plan) st) (k : K) :
    Assembled (setBits plan) (phaseOut rt st.core · k)
      (BitVec.ofNat 32 (chunkSum (setBits plan) (st.core.map (rt.queryHash · k)))) :=
  (assembled_chunkSum (bitList_setBits plan) (by rw [List.length_map, h.length_core]; rfl)
    fun j hj => (h.output hsb (by simpa [h.length_core] using hj)).1 k).2

end Outputs

/-! ## The odd man out's phase -/

theorem omoPhases_of_forall {w : Locator} : ∀ {bits : List Locator} (phase : Nat) (acc : Nat × Nat),
    (∀ b ∈ bits, b &&& w = 0) → omoPhases w bits phase acc = acc
  | [], _, _, _ => rfl
  | b :: bits, phase, (a, c), h => by
    rw [omoPhases, if_neg (not_not.2 (h b (List.mem_cons_self _ _)))]
    exact omoPhases_of_forall _ _ fun b' hb' => h b' (List.mem_cons_of_mem _ hb')

/-- `phase_omo` is the last phase whose bits meet the width, when one does. -/
theorem omoPhases_fst {w : Locator} : ∀ {bits : List Locator} (phase : Nat) (acc : Nat × Nat),
    (∃ b ∈ bits, b &&& w ≠ 0) →
    ∃ j, ∃ hj : j < bits.length, (omoPhases w bits phase acc).1 = phase + j ∧ bits[j] &&& w ≠ 0
  | [], _, _, ⟨_, hb, _⟩ => absurd hb (List.not_mem_nil _)
  | b :: bits, phase, (a, c), hex => by
    rw [omoPhases]
    by_cases hrest : ∃ b' ∈ bits, b' &&& w ≠ 0
    · obtain ⟨j, hj, heq, hm⟩ := omoPhases_fst (phase + 1) _ hrest
      exact ⟨j + 1, by simpa using hj, by rw [heq]; omega, hm⟩
    · push_neg at hrest
      obtain ⟨b', hb', hne⟩ := hex
      have hb : b &&& w ≠ 0 := by
        rcases List.mem_cons.1 hb' with rfl | hb'
        · exact hne
        · exact absurd (hrest b' hb') hne
      rw [omoPhases_of_forall _ _ hrest, if_pos hb]
      exact ⟨0, by simp, rfl, hb⟩

/-! ## Every pair is answered -/

section Query

variable [LinearOrder V] {sb : SubBuilder K} {rt : Retrieval K} {options : BuildOptions}
  {l : List (Item V)} {map : List (K × V)} {asg : Assignment} {st : PhaseState}

/-- The odd man out's pairs `(k, hi)`, in the collection's order: the first block
of `values_by_phase`. -/
def omoPairs (l : List (Item V)) (map : List (K × V)) : List (K × Locator) :=
  (map.filter (stageClass l · = none)).map (stageTarget l)

/-- The blocks of the phases, each the pairs `(k, hi)` its phase resolves. -/
def phaseBlocks (l : List (Item V)) (map : List (K × V)) : List (List (K × Locator)) :=
  (List.range (countOnes (formulated l).plan)).map fun j =>
    (map.filter (stageClass l · = some j)).map (stageTarget l)

theorem getElem_starts {cs : List Nat} {t i : Nat} (hi : i < (starts t cs).length) :
    (starts t cs)[i] = t + (cs.take i).sum := by
  rw [← List.getD_eq_getElem _ 0 hi, getD_starts (by simpa using hi)]

/-- The last point of item `i`'s interval, as staging reads it. -/
theorem StageSetup.hiOf_getElem (h : StageSetup l map asg) {i : Nat} (hi : i < l.length) :
    hiOf (formulated l) l[i].1 =
      BitVec.ofNat 32 (((l.map widthOf).take i).sum + widthOf l[i] - 1) := by
  rw [hiOf, lookup_valueMap h.nodup hi, Option.some_bind, getElem?_intervalVec hi,
    getD_starts (by simpa using hi), Nat.zero_add]
  rfl

/-- Laid out in the canonical order, a power-of-two interval starts at a multiple
of its width. -/
theorem dvd_start (hs : l.Sorted KeyLe) (hpos : ∀ x ∈ l, 1 ≤ widthOf x) {i : Nat}
    (hi : i < l.length) (hp : IsPow2 (widthOf l[i])) :
    widthOf l[i] ∣ ((l.map widthOf).take i).sum := by
  refine dvd_of_mem_zip_starts (pairwise_widthOf hs hpos) (fun _ _ _ => dvd_zero _)
    (List.mem_iff_getElem.2 ⟨i, by simpa using hi, ?_⟩) hp
  rw [List.getElem_zip, getElem_starts, Nat.zero_add, List.getElem_map]

/-- The width that is not a power of two belongs to the last item. -/
theorem succ_eq_length_of_not_pow2 (hs : l.Sorted KeyLe) (hpos : ∀ x ∈ l, 1 ≤ widthOf x)
    (hodd : (l.map widthOf).countP (fun w => ¬ IsPow2 w) ≤ 1) {i : Nat} (hi : i < l.length)
    (hnp : ¬ IsPow2 (widthOf l[i])) : i + 1 = l.length := by
  by_contra hne
  have hi' : i < (l.map widthOf).dropLast.length := by simp; omega
  refine hnp ?_
  have := pow2_of_mem_dropLast hs hpos hodd _ (List.getElem_mem hi')
  rwa [List.getElem_dropLast, List.getElem_map] at this


variable (hsb : sb.Sound rt) (hpos : ∀ x ∈ l, 1 ≤ widthOf x) (hsum : (l.map widthOf).sum = 2 ^ 32)
  (h : StageSetup l map asg)
  (hd : PhasesDone sb rt options (formulated l).plan asg (omoPairs l map) (phaseBlocks l map)
    (countOnes (formulated l).plan) st)
include hsb hpos hsum h hd

/-- A key of a power-of-two value: from the value's phase up, every phase answers
it with the bits of the interval's last point, so its locator lies in the interval. -/
theorem PhasesDone.mem_interval_of_pow2 (hs : l.Sorted KeyLe) {kv : K × V} (hkv : kv ∈ map)
    {i : Nat} (hi : i < l.length) (hv : l[i].1 = kv.2) (hp : IsPow2 (widthOf l[i])) {L : Locator}
    (hA : Assembled (setBits (formulated l).plan) (phaseOut rt st.core · kv.1) L) :
    ((l.map widthOf).take i).sum ≤ L.toNat ∧
      L.toNat < ((l.map widthOf).take i).sum + widthOf l[i] := by
  obtain ⟨j₀, hj₀, hj₀n, hbj₀⟩ := resolveOf_formulated (List.getElem_mem hi) hp
  have hcls : stageClass l kv = some j₀ := by rw [h.stageClass_eq hi hv, hj₀]
  obtain ⟨b, hW⟩ := hp
  rw [hW, Nat.log2_two_pow] at hbj₀
  -- the pair is selected in every phase from `j₀` up
  have hmem : ∀ j, j₀ ≤ j → j < countOnes (formulated l).plan → ∀ cv,
      stageTarget l kv ∈ phaseItems asg (omoPairs l map) (phaseBlocks l map) cv j :=
    fun j hj hjn cv => by
      refine List.mem_append_right _ (List.mem_flatten.2
        ⟨(map.filter (stageClass l · = some j₀)).map (stageTarget l), ?_,
          List.mem_map_of_mem _ (List.mem_filter.2 ⟨hkv, by simp [hcls]⟩)⟩)
      rw [phaseBlocks, ← List.map_take, List.take_range]
      exact List.mem_map_of_mem _ (List.mem_range.2 (by omega))
  have hdiv := Assembled.div_eq (bitList_setBits _) hA hj₀n.le fun j hj hjn => by
    obtain ⟨-, cv, -, -, hout⟩ := hd.output hsb hjn
    exact hout _ (hmem j hj hjn cv)
  have hend := start_add_width_le hsum hi
  have hw1 := hpos _ (List.getElem_mem hi)
  rw [hbj₀, stageTarget, ← hv, h.hiOf_getElem hi, BitVec.toNat_ofNat,
    Nat.mod_eq_of_lt (by omega), hW] at hdiv
  rw [hW]
  exact mem_of_div_eq_aligned (hW ▸ dvd_start hs hpos hi ⟨b, hW⟩) hdiv

omit hsb hd in
/-- The odd man out's `lo_omo` is its interval's start, and its `phase_omo` is a
phase whose lowest bit fits in its width. -/
theorem StageSetup.omo_phase {i : Nat} (hi : i < l.length) (hnp : ¬ IsPow2 (widthOf l[i])) :
    asg.loOmo.toNat = ((l.map widthOf).take i).sum ∧
      asg.phaseOmo < countOnes (formulated l).plan ∧
      2 ^ bnd (setBits (formulated l).plan) asg.phaseOmo ≤ widthOf l[i] := by
  have hw1 := hpos _ (List.getElem_mem hi)
  obtain ⟨-, -, hlo, hpo⟩ := h.assigned.omo i hi hnp
  have hw0 : l[i].2.1 ≠ 0 := fun h0 => by simp [widthOf, h0] at hw1
  obtain ⟨j, hj, hmeet⟩ := exists_phaseBits_and_ne_zero hw0 (log2_mem_setBits_plan (List.getElem_mem hi))
  obtain ⟨po, hpo', hpoeq, hpomeet⟩ :=
    omoPhases_fst 0 (usizeMax, usizeMax) ⟨_, List.getElem_mem hj, hmeet⟩
  obtain rfl : asg.phaseOmo = po := (congrArg Prod.fst hpo).trans (hpoeq.trans (Nat.zero_add po))
  refine ⟨by rw [hlo, List.map_take, toNat_start hpos hsum hi], by rwa [length_phaseBits] at hpo', ?_⟩
  exact (Nat.pow_le_pow_right (by decide) (bnd_le_log2_of_and_ne_zero hpo' hpomeet)).trans
    (Nat.log2_self_le (Nat.one_le_iff_ne_zero.1 hw1))

/-- A key of the odd man out: its interval is the last, and at `phase_omo` the key
either already has a current value of at least `lo_omo`, whose bits are bits of
the locator, or is answered with all ones from `phase_omo` up. -/
theorem PhasesDone.mem_interval_of_omo (hs : l.Sorted KeyLe)
    (hodd : (l.map widthOf).countP (fun w => ¬ IsPow2 w) ≤ 1) {kv : K × V} (hkv : kv ∈ map)
    {i : Nat} (hi : i < l.length) (hv : l[i].1 = kv.2) (hnp : ¬ IsPow2 (widthOf l[i]))
    {L : Locator} (hA : Assembled (setBits (formulated l).plan) (phaseOut rt st.core · kv.1) L) :
    ((l.map widthOf).take i).sum ≤ L.toNat ∧
      L.toNat < ((l.map widthOf).take i).sum + widthOf l[i] := by
  have hlast := succ_eq_length_of_not_pow2 hs hpos hodd hi hnp
  have hend : ((l.map widthOf).take i).sum + widthOf l[i] = 2 ^ 32 := by
    rw [← sum_take_succ_widthOf hi, hlast, ← List.length_map l widthOf, List.take_length, hsum]
  refine ⟨?_, hend ▸ L.isLt⟩
  have hw1 := hpos _ (List.getElem_mem hi)
  have hcls : stageClass l kv = none := by rw [h.stageClass_eq hi hv, resolveOf, if_neg hnp]
  obtain ⟨hloN, hpon, hbw⟩ := h.omo_phase hpos hsum hi hnp
  -- the key's place among the odd man out's pairs, and its current value at `phase_omo`
  have hmemo : stageTarget l kv ∈ omoPairs l map :=
    List.mem_map_of_mem _ (List.mem_filter.2 ⟨hkv, by simp [hcls]⟩)
  obtain ⟨i', hi', hio⟩ := List.getElem_of_mem hmemo
  obtain ⟨-, cv, hcvlen, hfrom, hout⟩ := hd.output hsb hpon
  have hi'c : i' < cv.length := hcvlen ▸ hi'
  by_cases hc : cv.getD i' 0 < asg.loOmo
  · -- answered with all ones from `phase_omo` up
    have hdiv := Assembled.div_eq (bitList_setBits _) hA hpon.le fun j hj hjn => by
      rcases Nat.lt_or_eq_of_le hj with hj | rfl
      · obtain ⟨-, cv', -, -, hout'⟩ := hd.output hsb hjn
        refine hout' (stageTarget l kv) (List.mem_append_left _ ?_)
        rw [omoSelected, if_neg (by omega), if_pos hj]
        exact hmemo
      · refine hout (stageTarget l kv) (List.mem_append_left _ ?_)
        rw [omoSelected, if_pos rfl, ← hio]
        refine List.mem_map.2 ⟨_, List.mem_filter.2 ⟨List.mem_iff_getElem.2
          ⟨i', by simp [hi', hi'c], List.getElem_zip⟩, ?_⟩, rfl⟩
        exact decide_eq_true (by rwa [List.getD_eq_getElem _ _ hi'c] at hc)
    rw [stageTarget, ← hv, h.hiOf_getElem hi, BitVec.toNat_ofNat, Nat.mod_eq_of_lt (by omega)] at hdiv
    exact le_of_div_eq hbw hdiv
  · -- the current value is already at least `lo_omo`
    have hk : (omoPairs l map)[i'].1 = kv.1 := by rw [hio]; rfl
    have hle := (hk ▸ hfrom i' hi').le ((min_le_left _ _).trans hpon.le) hA
    rw [BitVec.lt_def, not_lt] at hc
    omega

omit h in
/-- On the map the phases make, `query` answers every key with the response of the
locator its answers in the phases assemble. -/
theorem PhasesDone.query_eq_answer (salt : List UInt8) (k : K) :
    ∃ v, query rt ⟨(formulated l).plan, (formulated l).responseMap, salt, st.core⟩ k = .ok v ∧
      Answers (formulated l).responseMap (BitVec.ofNat 32
        (chunkSum (setBits (formulated l).plan) (st.core.map (rt.queryHash · k)))).toNat v :=
  query_answers rt _ k (plan_ne_zero_of_tiling hpos hsum) hd.length_core
    (ascending_formulated hpos hsum) (hd.assembled hsb k) fun j hj => by
      have := (hd.output hsb (hd.length_core ▸ hj)).1 k
      rwa [phaseOut_of_getElem? (List.getElem?_eq_getElem hj)] at this

/-- After a phase loop that finished over the staged pairs of a table whose widths
tile the space, `query` answers every pair of the collection with its value. -/
theorem query_of_phasesDone (hs : l.Sorted KeyLe)
    (hodd : (l.map widthOf).countP (fun w => ¬ IsPow2 w) ≤ 1) (salt : List UInt8) {kv : K × V}
    (hkv : kv ∈ map) :
    query rt ⟨(formulated l).plan, (formulated l).responseMap, salt, st.core⟩ kv.1 = .ok kv.2 := by
  obtain ⟨i, hi, hv⟩ := h.exists_getElem hkv
  have hA := hd.assembled hsb kv.1
  have hL := if hp : IsPow2 (widthOf l[i]) then
      hd.mem_interval_of_pow2 hsb hpos hsum h hs hkv hi hv hp hA
    else hd.mem_interval_of_omo hsb hpos hsum h hs hodd hkv hi hv hp hA
  obtain ⟨v, hq, hans⟩ := hd.query_eq_answer hsb hpos hsum salt kv.1
  rw [hq, hans.unique (hv ▸ answers_formulated hpos hsum hi hL.1 hL.2)]

end Query

end FrayedCascade
