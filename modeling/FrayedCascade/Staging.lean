import FrayedCascade.Build

/-!
# Counting, assignment and staging

The part of `build` before the sub-builds, on every input whose plan
`formulate_plan` returns:

- `countValues_tally`: `counts` holds every value once, with its number of keys;
- `assignLoop_formulated`: the assignment loop never fails its `debug_assert`.
  Every value whose width is a power of two gets the first phase whose bits
  meet the width; that phase starts at the width's bit. The odd man out, if
  there is one, is the last value, and `phase_omo` is a phase its width meets
  (`Assigned`);
- `stageLoop_layout`: staging writes every pair once, at in-range indices, and
  `values_by_phase` ends as the concatenation of the blocks `(k, L_hi(v))` of
  the odd man out and of each phase, each in the collection's order;
- `phaseCare_blocks`: what each phase's filter selects from that layout.
-/

namespace FrayedCascade

variable {K V : Type}

/-! ## Counting -/

section Counting

variable [DecidableEq V]

/-- `counts` after the values `vs`: each value of `vs` once, with the number of
times it occurs. -/
structure Tally (vs : List V) (counts : List (V × Nat)) : Prop where
  nodup : (counts.map Prod.fst).Nodup
  mem : ∀ v, v ∈ counts.map Prod.fst ↔ v ∈ vs
  count : ∀ x ∈ counts, x.2 = vs.count x.1

theorem bumpCount_append_cons {v : V} {c : Nat} {B : List (V × Nat)} (hc : c + 1 < 2 ^ 64) :
    ∀ {A : List (V × Nat)}, v ∉ A.map Prod.fst →
      bumpCount v (A ++ (v, c) :: B) = .ok (A ++ (v, c + 1) :: B)
  | [], _ => by simp only [List.nil_append, bumpCount, if_pos rfl, usizeAdd_of_lt hc]; rfl
  | (u, d) :: A, hA => by
    have hu : u ≠ v := fun h => hA (by simp [h])
    have ih : bumpCount v (A ++ (v, c) :: B) = .ok (A ++ (v, c + 1) :: B) :=
      bumpCount_append_cons hc fun h => hA (List.mem_cons_of_mem _ h)
    show bumpCount v ((u, d) :: (A ++ (v, c) :: B)) = _
    rw [bumpCount, if_neg hu, ih]; rfl

theorem bumpCount_of_not_mem {v : V} : ∀ {counts : List (V × Nat)}, v ∉ counts.map Prod.fst →
    bumpCount v counts = .ok (counts ++ [(v, 1)])
  | [], _ => rfl
  | (u, d) :: rest, h => by
    have hu : u ≠ v := fun h' => h (by simp [h'])
    have ih : bumpCount v rest = .ok (rest ++ [(v, 1)]) :=
      bumpCount_of_not_mem fun h' => h (List.mem_cons_of_mem _ h')
    simp only [bumpCount, if_neg hu, ih]; rfl

/-- One key more: `bumpCount` keeps the tally. -/
theorem Tally.bump {vs : List V} {counts : List (V × Nat)} (h : Tally vs counts) (v : V)
    (hlen : vs.length + 1 < 2 ^ 64) :
    ∃ counts', bumpCount v counts = .ok counts' ∧ Tally (vs ++ [v]) counts' := by
  have hcount : ∀ y ∈ counts, y.1 ≠ v → y.2 = (vs ++ [v]).count y.1 := fun y hy hne => by
    rw [List.count_append, h.count y hy,
      List.count_eq_zero.2 (show y.1 ∉ [v] by simpa using hne), Nat.add_zero]
  by_cases hv : v ∈ counts.map Prod.fst
  · obtain ⟨c, hx⟩ : ∃ c, (v, c) ∈ counts := by simpa using hv
    obtain ⟨A, B, rfl⟩ := List.append_of_mem hx
    have hnd := h.nodup
    simp only [List.map_append, List.map_cons, List.nodup_append, List.nodup_cons] at hnd
    have hA : v ∉ A.map Prod.fst := fun hA => hnd.2.2 hA (List.mem_cons_self _ _)
    have hc : c = vs.count v := h.count _ hx
    have hcv : c ≤ vs.length := hc ▸ List.count_le_length _ _
    have hkeys : (A ++ (v, c + 1) :: B).map Prod.fst = (A ++ (v, c) :: B).map Prod.fst := by simp
    refine ⟨_, bumpCount_append_cons (by omega) hA, ⟨hkeys ▸ h.nodup, fun u => ?_,
      fun y hy => ?_⟩⟩
    · rw [hkeys, h.mem, List.mem_append, List.mem_singleton]
      exact ⟨.inl, fun h' => h'.elim id fun he => he ▸ (h.mem v).1 hv⟩
    · rcases List.mem_append.1 hy with hy | hy
      · exact hcount y (by simp [hy]) fun he => hA (he ▸ List.mem_map_of_mem _ hy)
      rcases List.mem_cons.1 hy with rfl | hy
      · rw [List.count_append, ← hc]; simp
      · exact hcount y (by simp [hy]) fun he => hnd.2.1.1 (he ▸ List.mem_map_of_mem _ hy)
  · refine ⟨_, bumpCount_of_not_mem hv, ⟨?_, fun u => ?_, fun y hy => ?_⟩⟩
    · rw [List.map_append, List.nodup_append]
      exact ⟨h.nodup, List.nodup_singleton _, by simpa using hv⟩
    · rw [List.map_append, List.mem_append, h.mem, List.mem_append]; simp
    · rcases List.mem_append.1 hy with hy | hy
      · exact hcount y hy fun he => hv (he ▸ List.mem_map_of_mem _ hy)
      · rw [List.mem_singleton.1 hy, List.count_append, List.count_eq_zero.2 (mt (h.mem v).2 hv)]
        simp

/-- `countValues` on the keys of `map`, from a tally of `vs`: nothing overflows,
and the result tallies `vs` and then the values of `map`. -/
theorem countValues_tally : ∀ (map : List (K × V)) {vs : List V} {counts : List (V × Nat)},
    Tally vs counts → vs.length + map.length < 2 ^ 64 →
      ∃ counts', countValues map counts = .ok counts' ∧ Tally (vs ++ map.map Prod.snd) counts'
  | [], _, _, h, _ => ⟨_, rfl, by simpa using h⟩
  | (_, v) :: rest, vs, counts, h, hlen => by
    simp only [List.length_cons] at hlen
    obtain ⟨c', hc', hT⟩ := h.bump v (by omega)
    obtain ⟨c'', hc'', hT'⟩ := countValues_tally rest hT (by simp; omega)
    refine ⟨c'', by simp only [countValues, hc', bind, Except.bind]; exact hc'', ?_⟩
    simpa using hT'

theorem Tally.perm {vs : List V} {counts counts' : List (V × Nat)} (h : Tally vs counts)
    (hp : counts'.Perm counts) : Tally vs counts' :=
  ⟨(hp.map Prod.fst).nodup_iff.2 h.nodup, fun v => ((hp.map Prod.fst).mem_iff).trans (h.mem v),
    fun x hx => h.count x (hp.mem_iff.1 hx)⟩

/-- The counts of the values of a tally that satisfy `p` add up to the number of
those values. -/
theorem Tally.sum_filter {vs : List V} {counts : List (V × Nat)} (h : Tally vs counts)
    (p : V → Bool) : ((counts.filter (p ·.1)).map Prod.snd).sum = vs.countP p := by
  have hp : (counts.map Prod.fst).Perm vs.dedup :=
    (List.perm_ext_iff_of_nodup h.nodup (List.nodup_dedup vs)).2 fun v => by
      rw [h.mem, List.mem_dedup]
  rw [← List.sum_map_count_dedup_filter_eq_countP, ← ((hp.filter p).map (vs.count ·)).sum_eq,
    List.filter_map, List.map_map]
  exact congrArg List.sum (List.map_congr_left fun x hx => h.count x (List.mem_of_mem_filter hx))

/-- The counts of a tally add up to the number of values. -/
theorem Tally.sum_eq {vs : List V} {counts : List (V × Nat)} (h : Tally vs counts) :
    (counts.map Prod.snd).sum = vs.length := by
  simpa using h.sum_filter fun _ => true

theorem count_flatMap_replicate {l : List (V × Nat)} (hnd : (l.map Prod.fst).Nodup)
    {x : V × Nat} (hx : x ∈ l) : (l.flatMap fun y => List.replicate y.2 y.1).count x.1 = x.2 := by
  induction l with
  | nil => cases hx
  | cons y l ih =>
    rw [List.map_cons, List.nodup_cons] at hnd
    rw [List.flatMap_cons, List.count_append, List.count_replicate]
    rcases List.mem_cons.1 hx with rfl | hx
    · have hz : (l.flatMap fun y => List.replicate y.2 y.1).count x.1 = 0 :=
        List.count_eq_zero.2 fun hm => hnd.1 <| by
          obtain ⟨z, hz, hm⟩ := List.mem_flatMap.1 hm
          rw [List.eq_of_mem_replicate hm]; exact List.mem_map_of_mem _ hz
      simp [hz]
    · have hne : y.1 ≠ x.1 := fun he => hnd.1 (he ▸ List.mem_map_of_mem _ hx)
      simp [ih hnd.2 hx, hne]

/-- A tally of values laid out in blocks, `c` copies of `v` for each `(v, c)` of
`l`, holds the blocks' counts. -/
theorem Tally.perm_of_flatMap {l counts : List (V × Nat)} (hnd : (l.map Prod.fst).Nodup)
    (hpos : ∀ x ∈ l, 0 < x.2) (h : Tally (l.flatMap fun y => List.replicate y.2 y.1) counts) :
    counts.Perm l := by
  refine (List.perm_ext_iff_of_nodup h.nodup.of_map hnd.of_map).2 fun x =>
    ⟨fun hx => ?_, fun hx => ?_⟩
  · obtain ⟨y, hy, hm⟩ := List.mem_flatMap.1 ((h.mem x.1).1 (List.mem_map_of_mem _ hx))
    have h1 : x.1 = y.1 := List.eq_of_mem_replicate hm
    have h2 : x.2 = y.2 := (h.count x hx).trans (h1 ▸ count_flatMap_replicate hnd hy)
    exact (Prod.ext h1 h2) ▸ hy
  · obtain ⟨z, hz, hzx⟩ := List.mem_map.1 ((h.mem x.1).2
      (List.mem_flatMap.2 ⟨x, hx, List.mem_replicate.2 ⟨(hpos x hx).ne', rfl⟩⟩))
    have h2 : z.2 = x.2 := (h.count z hz).trans (hzx ▸ count_flatMap_replicate hnd hx)
    exact (Prod.ext hzx h2) ▸ hz

end Counting

/-! ## Phases meeting a width -/

theorem and_ne_zero_iff {x y : Locator} : x &&& y ≠ 0 ↔ ∃ i, x.getLsbD i ∧ y.getLsbD i := by
  constructor
  · intro h
    by_contra hn
    refine h (BitVec.eq_of_getLsbD_eq fun i => ?_)
    rw [BitVec.getLsbD_and, show (0 : Locator).getLsbD i = false from BitVec.getLsbD_zero]
    cases hx : x.getLsbD i <;> cases hy : y.getLsbD i <;> simp_all
  · rintro ⟨i, hx, hy⟩ h
    have := congrArg (·.getLsbD i) h
    simp [BitVec.getLsbD_and, hx, hy] at this

theorem getLsbD_of_toNat_eq_two_pow {w : Locator} {b : Nat} (hw : w.toNat = 2 ^ b) (i : Nat) :
    w.getLsbD i = decide (b = i) := by
  rw [← BitVec.testBit_toNat, hw, Nat.testBit_two_pow]

theorem le_log2_of_getLsbD {w : Locator} {i : Nat} (h : w.getLsbD i) : i ≤ Nat.log2 w.toNat := by
  rw [← BitVec.testBit_toNat] at h
  exact (Nat.le_log2 fun h0 => by simp [h0] at h).2 (Nat.testBit_implies_ge h)

theorem length_phaseBits (plan : Plan) : (phaseBits plan).length = countOnes plan := by
  rw [phaseBits_eq, List.length_map, length_phaseBounds, countOnes]

theorem getElem_phaseBits (plan : Plan) {j : Nat} (hj : j < (phaseBits plan).length) :
    (phaseBits plan)[j] = rangeMask (bnd (setBits plan) j) (bnd (setBits plan) (j + 1)) := by
  simp only [phaseBits_eq, List.getElem_map, getElem_phaseBounds]

/-- Phase `j`'s bits meet a width exactly when the width has a bit in
`[b_j, b_{j+1})`. -/
theorem phaseBits_and_ne_zero (plan : Plan) {j : Nat} (hj : j < (phaseBits plan).length)
    {w : Locator} : (phaseBits plan)[j] &&& w ≠ 0 ↔
      ∃ i, bnd (setBits plan) j ≤ i ∧ i < bnd (setBits plan) (j + 1) ∧ w.getLsbD i := by
  have hlt := (bitList_setBits plan).bnd_lt_succ (j := j) (by rwa [length_phaseBits] at hj)
  rw [getElem_phaseBits, and_ne_zero_iff]
  simp only [getLsbD_rangeMask hlt.le, Bool.and_eq_true, decide_eq_true_eq]
  exact ⟨fun ⟨i, ⟨⟨_, h1⟩, h2⟩, h3⟩ => ⟨i, h1, h2, h3⟩,
    fun ⟨i, h1, h2, h3⟩ => ⟨i, ⟨⟨BitVec.lt_of_getLsbD h3, h1⟩, h2⟩, h3⟩⟩

/-- A power-of-two width `2^b` with `b` a bit of the plan is resolved by the phase
that starts at `b`. -/
theorem findIdx_phaseBits {plan : Plan} {w : Locator} {b : Nat} (hw : w.toNat = 2 ^ b)
    (hb : b ∈ setBits plan) :
    ∃ j, (phaseBits plan).findIdx? (fun bits => bits &&& w ≠ 0) = some j ∧
      j < countOnes plan ∧ bnd (setBits plan) j = b := by
  obtain ⟨j, hj, rfl⟩ := List.getElem_of_mem hb
  have hbl := bitList_setBits plan
  have hj' : j < (phaseBits plan).length := by rwa [length_phaseBits]
  have hwb : ∀ i, w.getLsbD i ↔ (setBits plan)[j] = i := fun i => by
    simp [getLsbD_of_toNat_eq_two_pow hw]
  refine ⟨j, List.findIdx?_eq_some_iff_getElem.2 ⟨hj', ?_, fun j' hj'' => ?_⟩, hj, bnd_of_lt hj⟩
  · rw [decide_eq_true_iff, phaseBits_and_ne_zero plan hj']
    have := hbl.bnd_lt_succ hj
    rw [bnd_of_lt hj] at this ⊢
    exact ⟨_, le_rfl, this, (hwb _).2 rfl⟩
  · have hmono := hbl.bnd_mono (show j' + 1 ≤ j by omega) hj.le
    rw [bnd_of_lt hj] at hmono
    rw [decide_eq_true_iff, phaseBits_and_ne_zero plan (hj''.trans hj')]
    rintro ⟨i, -, hi, hw'⟩
    have := (hwb i).1 hw'
    omega

/-- A phase whose bits meet a width starts at or below the width's high bit. -/
theorem bnd_le_log2_of_and_ne_zero {plan : Plan} {j : Nat} (hj : j < (phaseBits plan).length)
    {w : Locator} (h : (phaseBits plan)[j] &&& w ≠ 0) :
    bnd (setBits plan) j ≤ Nat.log2 w.toNat := by
  obtain ⟨i, hi, -, hw⟩ := (phaseBits_and_ne_zero plan hj).1 h
  exact hi.trans (le_log2_of_getLsbD hw)

/-- The phase holding a width's high bit meets it. -/
theorem exists_phaseBits_and_ne_zero {plan : Plan} {w : Locator} (hw : w ≠ 0)
    (hb : Nat.log2 w.toNat ∈ setBits plan) :
    ∃ j, ∃ hj : j < (phaseBits plan).length, (phaseBits plan)[j] &&& w ≠ 0 := by
  obtain ⟨j, hj, hbj⟩ := List.getElem_of_mem hb
  have hj' : j < (phaseBits plan).length := by rwa [length_phaseBits]
  have hbl := bitList_setBits plan
  refine ⟨j, hj', (phaseBits_and_ne_zero plan hj').2 ⟨_, (bnd_of_lt hj).symm ▸ hbj.le, ?_, ?_⟩⟩
  · have := hbl.bnd_lt_succ hj; rw [bnd_of_lt hj] at this; omega
  · have := List.getLast_mem (setBits_ne_nil hw)
    rw [getLast_setBits hw] at this
    exact (mem_setBits.1 this).2

theorem getLsbD_foldl_or : ∀ (l : List Locator) (acc : Locator) (i : Nat),
    (l.foldl (· ||| ·) acc).getLsbD i = (acc.getLsbD i || l.any (·.getLsbD i))
  | [], acc, i => by simp
  | x :: l, acc, i => by
    rw [List.foldl_cons, getLsbD_foldl_or, BitVec.getLsbD_or, List.any_cons, Bool.or_assoc]

/-- The plan has the high bit of every width. -/
theorem log2_mem_setBits_plan {l : List (Item V)} {x : Item V} (hx : x ∈ l) :
    Nat.log2 (widthOf x) ∈ setBits (formulated l).plan := by
  refine mem_setBits.2 ⟨log2_toNat_lt, ?_⟩
  simp only [formulated, getLsbD_foldl_or, Bool.or_eq_true, List.any_eq_true, List.mem_map]
  refine Or.inr ⟨_, ⟨x, hx, rfl⟩, ?_⟩
  rw [planBit, widthOf, getLsbD_of_toNat_eq_two_pow (toNat_ofNat_two_pow_log2 x.2.1)]
  exact decide_eq_true rfl

/-! ## Assignment -/

/-- The phase that resolves an item: for a power-of-two width, the first phase
whose bits meet it; none for the odd man out. -/
def resolveOf (bits : List Locator) (x : Item V) : Option Nat :=
  if IsPow2 (widthOf x) then bits.findIdx? (fun b => b &&& x.2.1 ≠ 0) else none

/-- The entry of `phase_to_resolve` for an item. -/
def ptrOf (bits : List Locator) (x : Item V) : Nat := ((resolveOf bits x).map (· % 256)).getD 255

/-- The row of `interval_vec` for an item laid out from `L`. -/
def intervalRow (p : Nat × Item V) : Nat × Locator × Locator :=
  (p.2.2.2, BitVec.ofNat 32 p.1, BitVec.ofNat 32 (p.1 + widthOf p.2 - 1))

theorem formulated_intervalVec (l : List (Item V)) :
    (formulated l).intervalVec = ((starts 0 (l.map widthOf)).zip l).map intervalRow := rfl

/-- A row that did not overflow gives back its width: `(hi - lo).wrapping_add(1) = w`. -/
theorem subU32_intervalRow {L : Nat} {x : Item V} (hw : 1 ≤ widthOf x)
    (hfit : L % 2 ^ 32 + (widthOf x - 1) < 2 ^ 32) :
    subU32 (intervalRow (L, x)).2.2 (intervalRow (L, x)).2.1 = .ok (x.2.1 - 1) := by
  simp only [intervalRow, widthOf] at hw hfit ⊢
  have hmod : (L + x.2.1.toNat - 1) % 2 ^ 32 = L % 2 ^ 32 + (x.2.1.toNat - 1) := by omega
  have hle : BitVec.ofNat 32 L ≤ BitVec.ofNat 32 (L + x.2.1.toNat - 1) := by
    rw [BitVec.le_def, BitVec.toNat_ofNat, BitVec.toNat_ofNat, hmod]; omega
  rw [subU32_of_le hle]
  congr 1
  apply BitVec.eq_of_toNat_eq
  rw [BitVec.toNat_sub, BitVec.toNat_sub, BitVec.toNat_ofNat, BitVec.toNat_ofNat, hmod,
    show (1 : Locator).toNat = 1 from rfl]
  omega

/-- What the assignment loop has recorded after the rows of the items `pre`. -/
structure Assigned (bits : List Locator) (pre : List (Item V)) (st : Assignment) : Prop where
  ptr : st.phaseToResolve = pre.map (ptrOf bits)
  length_counts : st.phaseItemCounts.length = bits.length
  counts : ∀ j < bits.length, st.phaseItemCounts.getD j 0 =
    ((pre.filter fun x => resolveOf bits x = some j).map (·.2.2)).sum
  pow2 : (∀ x ∈ pre, IsPow2 (widthOf x)) → st.oddManOut = usizeMax ∧ st.nOmo = 0 ∧
    st.loOmo = 0 ∧ st.phaseOmo = usizeMax ∧ st.minPhaseAffectingOmo = usizeMax
  omo : ∀ i (hi : i < pre.length), ¬ IsPow2 (widthOf pre[i]) → st.oddManOut = i ∧
    st.nOmo = pre[i].2.2 ∧ st.loOmo = BitVec.ofNat 32 ((pre.take i).map widthOf).sum ∧
    (st.phaseOmo, st.minPhaseAffectingOmo) = omoPhases pre[i].2.1 bits 0 (usizeMax, usizeMax)

theorem assigned_init (bits : List Locator) :
    Assigned bits ([] : List (Item V)) (.init bits.length) :=
  ⟨rfl, List.length_replicate _ _, fun j hj => by simp [Assignment.init, hj],
    fun _ => ⟨rfl, rfl, rfl, rfl, rfl⟩, fun i hi => absurd hi (Nat.not_lt_zero _)⟩

theorem sum_le_of_filter (p : Item V → Bool) (l : List (Item V)) :
    ((l.filter p).map (·.2.2)).sum ≤ (l.map (·.2.2)).sum := by
  induction l with
  | nil => simp
  | cons x l ih => by_cases hp : p x <;> simp [List.filter_cons, hp] <;> omega

/-- One round of the assignment loop, on an item whose row fits and which, if its
width is a power of two, has a resolve phase. -/
theorem Assigned.step {bits : List Locator} {pre : List (Item V)} {st : Assignment}
    {x : Item V} (h : Assigned bits pre st) (hw : 1 ≤ widthOf x)
    (hfit : (pre.map widthOf).sum % 2 ^ 32 + (widthOf x - 1) < 2 ^ 32)
    (hodd : ((pre ++ [x]).map widthOf).countP (fun w => ¬ IsPow2 w) ≤ 1)
    (hres : IsPow2 (widthOf x) → resolveOf bits x ≠ none)
    (hsum : ((pre ++ [x]).map (·.2.2)).sum < 2 ^ 64) :
    ∃ st', assignStep bits pre.length st (intervalRow ((pre.map widthOf).sum, x)) = .ok st' ∧
      Assigned bits (pre ++ [x]) st' := by
  obtain ⟨k, w, c⟩ := x
  have hsub := subU32_intervalRow hw hfit
  change 1 ≤ w.toNat at hw
  have hw0 : w ≠ 0 := fun h => by simp [h] at hw
  simp only [assignStep, hsub, bind, Except.bind, pure, Except.pure, BitVec.sub_add_cancel]
  simp only [intervalRow]
  simp only [List.map_append, List.map_cons, List.map_nil, List.sum_append, List.sum_cons,
    List.sum_nil, Nat.add_zero] at hsum
  by_cases hp : IsPow2 (widthOf (k, w, c))
  · have hz : w &&& (w - 1) = 0 := (and_sub_one_eq_zero_iff hw0).2 hp
    obtain ⟨j, hj⟩ := Option.ne_none_iff_exists'.1 (hres hp)
    have hfind : bits.findIdx? (fun b => b &&& w ≠ 0) = some j := by
      simpa [resolveOf, hp] using hj
    have hjlt : j < bits.length := (List.findIdx?_eq_some_iff_getElem.1 hfind).1
    have hjc : j < st.phaseItemCounts.length := h.length_counts ▸ hjlt
    have hcnt := h.counts j hjlt
    rw [List.getD_eq_getElem _ _ hjc] at hcnt
    have hle := sum_le_of_filter (fun x => resolveOf bits x = some j) pre
    rw [← hcnt] at hle
    simp only [hz, ne_eq, not_true_eq_false, if_false, hfind, index_of_lt hjc,
      usizeAdd_of_lt (show st.phaseItemCounts[j] + c < 2 ^ 64 by omega)]
    refine ⟨{ st with
      phaseToResolve := st.phaseToResolve ++ [j % 256]
      phaseItemCounts := st.phaseItemCounts.set j (st.phaseItemCounts[j] + c) },
      by rw [if_neg (by simp [h.ptr])], ⟨?_, by simp [h.length_counts], fun j' hj' => ?_,
      fun hall => h.pow2 fun y hy => hall y (List.mem_append_left _ hy), fun i hi hnp => ?_⟩⟩
    · simp [h.ptr, ptrOf, hj]
    · have hj'c : j' < st.phaseItemCounts.length := h.length_counts ▸ hj'
      rw [List.filter_append, List.map_append, List.sum_append, ← h.counts j' hj',
        List.getD_eq_getElem _ _ (by simpa using hj'c), List.getElem_set,
        List.getD_eq_getElem _ _ hj'c]
      by_cases hjj : j = j' <;> simp [hjj, hj]
    · rw [List.length_append, List.length_singleton] at hi
      rcases Nat.lt_succ_iff_lt_or_eq.1 hi with hi | rfl
      · rw [List.getElem_append_left hi] at hnp ⊢
        rw [List.take_append_of_le_length hi.le]
        exact h.omo i hi hnp
      · simp at hnp; exact absurd hp hnp
  · have hnz : w &&& (w - 1) ≠ 0 := fun hz => hp ((and_sub_one_eq_zero_iff hw0).1 hz)
    have hpre : ∀ y ∈ pre, IsPow2 (widthOf y) := by
      intro y hy
      by_contra hy'
      have h2 : 2 ≤ ((pre ++ [(k, w, c)]).map widthOf).countP (fun w => ¬ IsPow2 w) := by
        rw [List.map_append, List.countP_append, List.map_singleton, List.countP_singleton,
          decide_eq_true hp, if_pos rfl]
        have : 0 < (pre.map widthOf).countP (fun w => ¬ IsPow2 w) :=
          List.countP_pos_iff.2 ⟨_, List.mem_map_of_mem widthOf hy, decide_eq_true hy'⟩
        omega
      omega
    obtain ⟨-, -, -, hpo, hmin⟩ := h.pow2 hpre
    have hnone : resolveOf bits (k, w, c) = none := if_neg hp
    simp only [hnz, ne_eq, not_false_eq_true, if_true, hpo, hmin]
    refine ⟨{ st with
      oddManOut := pre.length
      nOmo := c
      loOmo := BitVec.ofNat 32 (pre.map widthOf).sum
      phaseToResolve := st.phaseToResolve ++ [255]
      phaseOmo := (omoPhases w bits 0 (usizeMax, usizeMax)).1
      minPhaseAffectingOmo := (omoPhases w bits 0 (usizeMax, usizeMax)).2 },
      by rw [if_neg (by simp [h.ptr])], ⟨?_, h.length_counts, fun j hj => ?_,
      fun hall => absurd (hall _ (List.mem_append_right _ (List.mem_singleton_self _))) hp,
      fun i hi hnp => ?_⟩⟩
    · simp [h.ptr, ptrOf, hnone]
    · simp only [List.filter_append, List.filter_singleton, hnone, List.map_append, List.sum_append]
      simpa using h.counts j hj
    · rw [List.length_append, List.length_singleton] at hi
      rcases Nat.lt_succ_iff_lt_or_eq.1 hi with hi | rfl
      · rw [List.getElem_append_left hi] at hnp
        exact absurd (hpre _ (List.getElem_mem hi)) hnp
      · simp

/-- The assignment loop over the rows of the items `rest`, laid out after `pre`. -/
theorem Assigned.loop {bits : List Locator} : ∀ {rest pre : List (Item V)} {st : Assignment},
    Assigned bits pre st → PlanFits (pre.map widthOf).sum rest →
    ((pre ++ rest).map widthOf).countP (fun w => ¬ IsPow2 w) ≤ 1 →
    (∀ x ∈ rest, IsPow2 (widthOf x) → resolveOf bits x ≠ none) →
    ((pre ++ rest).map (·.2.2)).sum < 2 ^ 64 →
    ∃ st', assignLoop bits pre.length st
      (((starts (pre.map widthOf).sum (rest.map widthOf)).zip rest).map intervalRow) = .ok st' ∧
      Assigned bits (pre ++ rest) st'
  | [], pre, st, h, _, _, _, _ => ⟨st, rfl, by simpa using h⟩
  | x :: rest, pre, st, h, ⟨hw, hfit, hfits⟩, hodd, hres, hsum => by
    have hsub : List.Sublist (pre ++ [x]) (pre ++ x :: rest) :=
      (List.sublist_append_left [x] rest).append_left pre
    obtain ⟨st₁, h₁, hst₁⟩ := h.step hw hfit ((hsub.map widthOf).countP_le _ |>.trans hodd)
      (hres x (List.mem_cons_self _ _))
      (lt_of_le_of_lt ((hsub.map (·.2.2)).sum_le_sum fun _ _ => Nat.zero_le _) hsum)
    have hassoc : pre ++ [x] ++ rest = pre ++ x :: rest := by simp
    obtain ⟨st', h', hst'⟩ := @Assigned.loop bits rest (pre ++ [x]) st₁ hst₁
      (by simpa using hfits) (hassoc ▸ hodd)
      (fun y hy => hres y (List.mem_cons_of_mem _ hy)) (hassoc ▸ hsum)
    refine ⟨st', ?_, hassoc ▸ hst'⟩
    simp only [List.map_cons, starts, List.zip_cons_cons, assignLoop, bind, Except.bind, h₁]
    simpa using h'

/-- Every item of a formulated table whose width is a power of two has a resolve
phase: the one starting at the width's bit. -/
theorem resolveOf_formulated {l : List (Item V)} {x : Item V} (hx : x ∈ l)
    (hp : IsPow2 (widthOf x)) : ∃ j, resolveOf (phaseBits (formulated l).plan) x = some j ∧
      j < countOnes (formulated l).plan ∧
      bnd (setBits (formulated l).plan) j = Nat.log2 (widthOf x) := by
  obtain ⟨b, hb⟩ := hp
  have hlog : Nat.log2 (widthOf x) = b := by rw [hb, Nat.log2_two_pow]
  obtain ⟨j, hj, hlt, hbj⟩ := findIdx_phaseBits (hb : x.2.1.toNat = 2 ^ b)
    (hlog ▸ log2_mem_setBits_plan hx)
  exact ⟨j, by rw [resolveOf, if_pos ⟨b, hb⟩, hj], hlt, hlog ▸ hbj⟩

/-- The assignment loop of build succeeds on a formulated table, with every
power-of-two value given a resolve phase. -/
theorem assignLoop_formulated {l : List (Item V)} (hfits : PlanFits 0 l)
    (hodd : (l.map widthOf).countP (fun w => ¬ IsPow2 w) ≤ 1)
    (hsum : (l.map (·.2.2)).sum < 2 ^ 64) :
    ∃ asg, assignLoop (phaseBits (formulated l).plan) 0 (.init (countOnes (formulated l).plan))
      (formulated l).intervalVec = .ok asg ∧ Assigned (phaseBits (formulated l).plan) l asg := by
  have h := @Assigned.loop V (phaseBits (formulated l).plan) l [] _
    (assigned_init _) hfits hodd (fun x hx hp => by
      obtain ⟨j, hj, -⟩ := resolveOf_formulated hx hp
      simp [hj]) hsum
  simpa [formulated_intervalVec, length_phaseBits] using h

/-! ## Block layouts

The staging loop is a counting sort: each pair goes to the next free slot of its
block. After a prefix `pre` of the pairs `all`, block `b` holds the pairs of `pre`
in block `b`, then the filler the vector was created with. -/

section Layout

variable {α β γ : Type} [DecidableEq β] (cls : α → β) (tgt : α → γ) (junk : γ) (all : List α)

/-- Block `b` after the pairs `pre`. -/
def fillBlock (pre : List α) (b : β) : List γ :=
  (pre.filter (cls · = b)).map tgt ++
    List.replicate ((all.filter (cls · = b)).length - (pre.filter (cls · = b)).length) junk

/-- The blocks `bs`, one after the other, after the pairs `pre`. -/
def blockLayout (bs : List β) (pre : List α) : List γ := bs.flatMap (fillBlock cls tgt junk all pre)

theorem length_filter_le_of_prefix {pre : List α} (h : pre <+: all) (b : β) :
    (pre.filter (cls · = b)).length ≤ (all.filter (cls · = b)).length :=
  (h.filter _).length_le

variable {cls tgt junk all}

theorem length_fillBlock {pre : List α} (h : pre <+: all) (b : β) :
    (fillBlock cls tgt junk all pre b).length = (all.filter (cls · = b)).length := by
  have := length_filter_le_of_prefix cls all h b
  simp only [fillBlock, List.length_append, List.length_map, List.length_replicate]
  omega

theorem length_blockLayout {pre : List α} (h : pre <+: all) (bs : List β) :
    (blockLayout cls tgt junk all bs pre).length =
      (bs.map fun b => (all.filter (cls · = b)).length).sum := by
  simp only [blockLayout, List.length_flatMap, Function.comp_def, length_fillBlock h]

theorem blockLayout_nil (bs : List β) :
    blockLayout cls tgt junk all bs [] =
      List.replicate (bs.map fun b => (all.filter (cls · = b)).length).sum junk := by
  refine List.eq_replicate_iff.2 ⟨length_blockLayout (List.nil_prefix) bs, fun c hc => ?_⟩
  simp only [blockLayout, fillBlock, List.mem_flatMap, List.filter_nil, List.map_nil,
    List.nil_append, List.length_nil, Nat.sub_zero] at hc
  obtain ⟨_, -, hc⟩ := hc
  exact List.eq_of_mem_replicate hc

theorem blockLayout_all (bs : List β) :
    blockLayout cls tgt junk all bs all = bs.flatMap fun b => (all.filter (cls · = b)).map tgt :=
  List.flatMap_congr fun b _ => by simp [fillBlock]

theorem fillBlock_append_of_ne {pre : List α} {a : α} {b : β} (h : cls a ≠ b) :
    fillBlock cls tgt junk all (pre ++ [a]) b = fillBlock cls tgt junk all pre b := by
  simp [fillBlock, List.filter_append, h]

theorem blockLayout_append_of_not_mem {pre : List α} {a : α} {bs : List β} (h : cls a ∉ bs) :
    blockLayout cls tgt junk all bs (pre ++ [a]) = blockLayout cls tgt junk all bs pre :=
  List.flatMap_congr fun _ hb => fillBlock_append_of_ne fun he => h (he ▸ hb)

/-- Staging a pair writes the first free slot of its block. -/
theorem set_fillBlock {pre : List α} {a : α} (h : pre ++ [a] <+: all) :
    (fillBlock cls tgt junk all pre (cls a)).set (pre.filter (cls · = cls a)).length (tgt a) =
      fillBlock cls tgt junk all (pre ++ [a]) (cls a) := by
  have hlt := length_filter_le_of_prefix cls all h (cls a)
  simp only [List.filter_append, List.filter_singleton, decide_True, cond_true,
    List.length_append, List.length_singleton] at hlt
  obtain ⟨m, hm⟩ : ∃ m, (all.filter (cls · = cls a)).length -
      (pre.filter (cls · = cls a)).length = m + 1 := ⟨_, (Nat.succ_pred_eq_of_pos (by omega)).symm⟩
  have hm' : (all.filter (cls · = cls a)).length -
      ((pre.filter (cls · = cls a)).length + 1) = m := by omega
  simp only [fillBlock, List.filter_append, List.filter_singleton, decide_True, cond_true,
    List.map_append, List.length_append, List.length_singleton, hm, hm',
    List.replicate_succ, List.map_singleton, List.append_assoc, List.singleton_append]
  rw [List.set_append_right _ _ (List.length_map _ _).le, List.length_map, Nat.sub_self,
    List.set_cons_zero]

/-- Staging a pair of block `bs[i]` writes the slot after the blocks before it and the
pairs of its block staged so far. -/
theorem set_blockLayout {pre : List α} {a : α} (h : pre ++ [a] <+: all) :
    ∀ {bs : List β} {i : Nat} (hi : i < bs.length), bs.Nodup → cls a = bs[i] →
    (blockLayout cls tgt junk all bs pre).set
        (((bs.take i).map fun b => (all.filter (cls · = b)).length).sum +
          (pre.filter (cls · = cls a)).length) (tgt a) =
      blockLayout cls tgt junk all bs (pre ++ [a])
  | b :: bs, 0, _, hnd, hb => by
    have hlen := length_filter_le_of_prefix cls all h (cls a)
    simp only [List.filter_append, List.filter_singleton, decide_True, cond_true,
      List.length_append, List.length_singleton] at hlen
    obtain rfl : b = cls a := hb.symm
    simp only [blockLayout, List.flatMap_cons, List.take_zero, List.map_nil, List.sum_nil,
      Nat.zero_add]
    rw [List.set_append_left _ _ (by rw [length_fillBlock ((List.prefix_append _ _).trans h)]; omega),
      set_fillBlock h]
    exact congrArg _ (blockLayout_append_of_not_mem (List.nodup_cons.1 hnd).1).symm
  | b :: bs, i + 1, hi, hnd, hb => by
    have hne : cls a ≠ b := fun he => (List.nodup_cons.1 hnd).1 (he ▸ hb ▸ List.getElem_mem _)
    simp only [blockLayout, List.flatMap_cons, List.take_succ_cons, List.map_cons, List.sum_cons]
    have hpre := (List.prefix_append pre [a]).trans h
    rw [List.set_append_right _ _ (by rw [length_fillBlock hpre]; omega),
      length_fillBlock hpre, Nat.add_assoc, Nat.add_sub_cancel_left,
      fillBlock_append_of_ne hne]
    exact congrArg _ (set_blockLayout h (Nat.lt_of_succ_lt_succ hi) (List.nodup_cons.1 hnd).2 hb)

omit [DecidableEq β] in
theorem sum_take_add_le {f : β → Nat} : ∀ {bs : List β} {i : Nat} (hi : i < bs.length),
    ((bs.take i).map f).sum + f bs[i] ≤ (bs.map f).sum
  | _ :: _, 0, _ => by simp
  | b :: bs, i + 1, hi => by
    have := sum_take_add_le (f := f) (Nat.lt_of_succ_lt_succ hi)
    simp only [List.take_succ_cons, List.map_cons, List.sum_cons, List.getElem_cons_succ]
    omega

/-- Once every pair is staged, the blocks hold a permutation of the pairs. -/
theorem flatMap_filter_perm {bs : List β} (hnd : bs.Nodup) :
    ∀ {all : List α}, (∀ a ∈ all, cls a ∈ bs) →
      (bs.flatMap fun b => (all.filter (cls · = b)).map tgt).Perm (all.map tgt)
  | [], _ => by simp
  | a :: all, hall => by
    obtain ⟨s, t, hst⟩ := List.append_of_mem (hall a (List.mem_cons_self _ _))
    subst hst
    have hst := (List.nodup_cons.1 (List.nodup_middle.1 hnd)).1
    have hs : cls a ∉ s := hst ∘ List.mem_append_left t
    have ht : cls a ∉ t := hst ∘ List.mem_append_right s
    have ih := flatMap_filter_perm hnd fun a' ha' => hall a' (List.mem_cons_of_mem _ ha')
    have hcons : ∀ u : List β, cls a ∉ u → (u.flatMap fun b => ((a :: all).filter (cls · = b)).map tgt) =
        u.flatMap fun b => (all.filter (cls · = b)).map tgt := fun u hu =>
      List.flatMap_congr fun b hb => by
        rw [List.filter_cons, if_neg (by simpa using fun he : cls a = b => hu (he ▸ hb))]
    rw [List.flatMap_append, List.flatMap_cons, hcons s hs, hcons t ht, List.filter_cons,
      if_pos (by simp), List.map_cons, List.cons_append, List.map_cons]
    refine List.perm_middle.trans (List.Perm.cons _ ?_)
    simpa [List.flatMap_append, List.flatMap_cons] using ih

end Layout

/-! ## Values and their rows -/

section Values

variable [LinearOrder V]

theorem lookup_zip_range' : ∀ {vs : List V} {s i : Nat}, vs.Nodup → (hi : i < vs.length) →
    (vs.zip (List.range' s vs.length)).lookup vs[i] = some (s + i)
  | _ :: _, _, 0, _, _ => by simp [List.range'_succ]
  | v :: vs, s, i + 1, hnd, hi => by
    have hi' : i < vs.length := Nat.lt_of_succ_lt_succ hi
    have hne : vs[i] ≠ v := fun he => (List.nodup_cons.1 hnd).1 (he ▸ List.getElem_mem _)
    rw [List.getElem_cons_succ, List.length_cons, List.range'_succ, List.zip_cons_cons,
      List.lookup_cons, beq_false_of_ne hne]
    simpa [Nat.add_assoc, Nat.add_comm 1] using lookup_zip_range' (s := s + 1) (List.nodup_cons.1 hnd).2 hi'

/-- `value_map[v]` is the index of `v`'s row. -/
theorem lookup_valueMap {l : List (Item V)} (hnd : (l.map Prod.fst).Nodup) {i : Nat}
    (hi : i < l.length) : (formulated l).valueMap.lookup l[i].1 = some i := by
  have := lookup_zip_range' (s := 0) hnd (by simpa using hi)
  simpa [formulated] using this

theorem find?_fst {l : List (Item V)} (hnd : (l.map Prod.fst).Nodup) {i : Nat}
    (hi : i < l.length) : l.find? (·.1 = l[i].1) = some l[i] := by
  induction l generalizing i with
  | nil => exact absurd hi (Nat.not_lt_zero _)
  | cons x l ih =>
    rw [List.map_cons, List.nodup_cons] at hnd
    cases i with
    | zero => simp
    | succ i =>
      have hi' : i < l.length := Nat.lt_of_succ_lt_succ hi
      have hne : x.1 ≠ l[i].1 := fun he => hnd.1 (he ▸ List.mem_map_of_mem _ (List.getElem_mem _))
      rw [List.find?_cons_of_neg _ (by simpa using hne)]
      exact ih hnd.2 _

/-- The hi of a value's interval, as the staging loop reads it:
`interval_vec[value_map[v]].2`. -/
def hiOf (r : Formulated V) (v : V) : Locator :=
  (((r.valueMap.lookup v).bind fun vi => r.intervalVec[vi]?).map fun row => row.2.2).getD 0

/-- The phase that resolves a value: that of its item. -/
def resolveVal (bits : List Locator) (l : List (Item V)) (v : V) : Option Nat :=
  (l.find? (·.1 = v)).bind (resolveOf bits)

theorem resolveVal_getElem {bits : List Locator} {l : List (Item V)}
    (hnd : (l.map Prod.fst).Nodup) {i : Nat} (hi : i < l.length) :
    resolveVal bits l l[i].1 = resolveOf bits l[i] := by
  rw [resolveVal, find?_fst hnd hi, Option.some_bind]

end Values

theorem getElem?_intervalVec {l : List (Item V)} {i : Nat} (hi : i < l.length) :
    (formulated l).intervalVec[i]? = some (intervalRow ((starts 0 (l.map widthOf)).getD i 0, l[i])) := by
  simp [formulated_intervalVec, hi, List.getD_eq_getElem?_getD]

/-- `phase_offsets`: the running sums of the phase counts, from `n_omo`. -/
theorem offsetsLoop_eq : ∀ (cs : List Nat) (t : Nat), t + cs.sum < 2 ^ 64 →
    offsetsLoop cs t = .ok (starts t cs, t + cs.sum)
  | [], t, _ => rfl
  | c :: cs, t, h => by
    rw [List.sum_cons] at h
    simp only [offsetsLoop, usizeAdd_of_lt (show t + c < 2 ^ 64 by omega), bind, Except.bind,
      offsetsLoop_eq cs (t + c) (by omega), pure, Except.pure, starts, List.sum_cons, Nat.add_assoc]

theorem getD_starts : ∀ {cs : List Nat} {t j : Nat}, j < cs.length →
    (starts t cs).getD j 0 = t + (cs.take j).sum
  | _ :: _, _, 0, _ => by simp [starts]
  | c :: cs, t, j + 1, h => by
    simp only [starts, List.getD_cons_succ, List.take_succ_cons, List.sum_cons]
    rw [getD_starts (Nat.lt_of_succ_lt_succ h), Nat.add_assoc]

theorem countOnes_le (x : Locator) : countOnes x ≤ 32 := by
  simpa using (List.filter_sublist (List.range 32)).length_le

/-! ## Staging -/

section Stage

variable [LinearOrder V] {l : List (Item V)} {map : List (K × V)} {asg : Assignment}

/-- The block a pair is staged in: the phase its value resolves in, none for the
odd man out. -/
def stageClass (l : List (Item V)) (kv : K × V) : Option Nat :=
  resolveVal (phaseBits (formulated l).plan) l kv.2

/-- What staging writes for a pair: `(k, hi)`. -/
def stageTarget (l : List (Item V)) (kv : K × V) : K × Locator := (kv.1, hiOf (formulated l) kv.2)

/-- The blocks of `values_by_phase` in order: the odd man out's, then each phase's. -/
def stageBlocks (n : Nat) : List (Option Nat) := none :: (List.range n).map some

theorem nodup_stageBlocks (n : Nat) : (stageBlocks n).Nodup :=
  List.nodup_cons.2 ⟨by simp, (List.nodup_range n).map (Option.some_injective _)⟩

theorem take_stageBlocks {n j : Nat} (hj : j ≤ n) :
    (stageBlocks n).take (j + 1) = none :: (List.range j).map some := by
  rw [stageBlocks, List.take_succ_cons, ← List.map_take, List.take_range, Nat.min_eq_left hj]

/-- What staging relies on: the table `l` formulated for the collection `map`, and
the assignment made from it. -/
structure StageSetup (l : List (Item V)) (map : List (K × V)) (asg : Assignment) : Prop where
  tally : Tally (map.map Prod.snd) (l.map keyCount)
  length_lt : map.length < 2 ^ 64
  odd : (l.map widthOf).countP (fun w => ¬ IsPow2 w) ≤ 1
  assigned : Assigned (phaseBits (formulated l).plan) l asg

theorem StageSetup.nodup (h : StageSetup l map asg) : (l.map Prod.fst).Nodup := by
  simpa [List.map_map, Function.comp_def, keyCount] using h.tally.nodup

theorem StageSetup.mem_iff (h : StageSetup l map asg) (v : V) :
    v ∈ l.map Prod.fst ↔ v ∈ map.map Prod.snd := by
  simpa [List.map_map, Function.comp_def, keyCount] using h.tally.mem v

theorem StageSetup.length_le (h : StageSetup l map asg) : l.length ≤ map.length := by
  simpa using (h.nodup.subperm fun v hv => (h.mem_iff v).1 hv).length_le

theorem StageSetup.exists_getElem (h : StageSetup l map asg) {kv : K × V} (hkv : kv ∈ map) :
    ∃ i, ∃ hi : i < l.length, l[i].1 = kv.2 := by
  obtain ⟨x, hx, hxv⟩ := List.mem_map.1 ((h.mem_iff kv.2).2 (List.mem_map_of_mem _ hkv))
  obtain ⟨i, hi, rfl⟩ := List.getElem_of_mem hx
  exact ⟨i, hi, hxv⟩

theorem StageSetup.resolveVal_of_mem (h : StageSetup l map asg) {bits : List Locator}
    {x : Item V} (hx : x ∈ l) : resolveVal bits l x.1 = resolveOf bits x := by
  obtain ⟨i, hi, rfl⟩ := List.getElem_of_mem hx
  exact resolveVal_getElem h.nodup hi

/-- The pairs whose value satisfies `p` are as many as the counts of those values. -/
theorem StageSetup.length_filter (h : StageSetup l map asg) (p : V → Bool) :
    (map.filter (p ·.2)).length = ((l.filter (p ·.1)).map (·.2.2)).sum := by
  have := h.tally.sum_filter p
  simp only [List.filter_map, List.map_map, List.countP_map, List.countP_eq_length_filter] at this
  simpa [Function.comp_def, keyCount] using this.symm

/-- The value at index `i` is the odd man out exactly when its width is not a power
of two. -/
theorem StageSetup.oddManOut_eq_iff (h : StageSetup l map asg) {i : Nat} (hi : i < l.length) :
    i = asg.oddManOut ↔ ¬ IsPow2 (widthOf l[i]) := by
  refine ⟨fun hio hp => ?_, fun hnp => (h.assigned.omo i hi hnp).1.symm⟩
  by_cases hall : ∀ x ∈ l, IsPow2 (widthOf x)
  · have hmax := (h.assigned.pow2 hall).1
    have := h.length_le
    have := h.length_lt
    simp only [usizeMax] at hmax
    omega
  · push_neg at hall
    obtain ⟨x, hx, hnx⟩ := hall
    obtain ⟨i', hi', rfl⟩ := List.getElem_of_mem hx
    have := (h.assigned.omo i' hi' hnx).1
    obtain rfl : i' = i := by omega
    exact hnx hp

omit [LinearOrder V] in
theorem resolveOf_formulated_eq_none_iff {x : Item V} (hx : x ∈ l) :
    resolveOf (phaseBits (formulated l).plan) x = none ↔ ¬ IsPow2 (widthOf x) := by
  refine ⟨fun hn hp => ?_, fun hnp => if_neg hnp⟩
  obtain ⟨j, hj, -⟩ := resolveOf_formulated hx hp
  simp [hj] at hn

theorem StageSetup.stageClass_eq (h : StageSetup l map asg) {kv : K × V} {i : Nat}
    (hi : i < l.length) (hv : l[i].1 = kv.2) :
    stageClass l kv = resolveOf (phaseBits (formulated l).plan) l[i] := by
  rw [stageClass, ← hv, resolveVal_getElem h.nodup hi]

theorem StageSetup.stageClass_mem (h : StageSetup l map asg) {kv : K × V} (hkv : kv ∈ map) :
    stageClass l kv ∈ stageBlocks (countOnes (formulated l).plan) := by
  obtain ⟨i, hi, hv⟩ := h.exists_getElem hkv
  rw [h.stageClass_eq hi hv]
  by_cases hp : IsPow2 (widthOf l[i])
  · obtain ⟨j, hj, hjn, -⟩ := resolveOf_formulated (List.getElem_mem hi) hp
    rw [hj]
    exact List.mem_cons_of_mem _ (List.mem_map_of_mem _ (List.mem_range.2 hjn))
  · rw [resolveOf, if_neg hp]
    exact List.mem_cons_self _ _

/-- The odd man out's block is as long as `n_omo`. -/
theorem StageSetup.nOmo_eq (h : StageSetup l map asg) :
    asg.nOmo = (map.filter (stageClass l · = none)).length := by
  have hlen := h.length_filter fun v => resolveVal (phaseBits (formulated l).plan) l v = none
  have hf : l.filter (fun x => resolveVal (phaseBits (formulated l).plan) l x.1 = none) =
      l.filter (fun x => ¬ IsPow2 (widthOf x)) := List.filter_congr fun x hx => by
    simp only [h.resolveVal_of_mem hx, resolveOf_formulated_eq_none_iff hx]
  simp only [stageClass]
  rw [hlen, hf]
  by_cases hall : ∀ x ∈ l, IsPow2 (widthOf x)
  · rw [List.filter_eq_nil_iff.2 (by simpa using hall)]
    exact (h.assigned.pow2 hall).2.1
  · push_neg at hall
    obtain ⟨x, hx, hnx⟩ := hall
    obtain ⟨i, hi, rfl⟩ := List.getElem_of_mem hx
    have hone : l.filter (fun x => decide ¬ IsPow2 (widthOf x)) = [l[i]] := by
      have hmem : l[i] ∈ l.filter (fun x => decide ¬ IsPow2 (widthOf x)) :=
        List.mem_filter.2 ⟨hx, decide_eq_true hnx⟩
      have hle : (l.filter (fun x => decide ¬ IsPow2 (widthOf x))).length ≤ 1 := by
        have := h.odd
        rw [List.countP_map, List.countP_eq_length_filter] at this
        exact this
      obtain ⟨y, hy⟩ := List.length_eq_one.1 (le_antisymm hle (List.length_pos_of_mem hmem))
      rw [hy, List.mem_singleton] at hmem
      rw [hy, hmem]
    rw [hone, List.map_singleton, List.sum_singleton]
    exact (h.assigned.omo i hi hnx).2.1

/-- Phase `j`'s count is as long as its block. -/
theorem StageSetup.phaseItemCounts_eq (h : StageSetup l map asg) :
    asg.phaseItemCounts = (List.range (countOnes (formulated l).plan)).map
      fun j => (map.filter (stageClass l · = some j)).length := by
  have hlen : asg.phaseItemCounts.length = countOnes (formulated l).plan := by
    rw [h.assigned.length_counts, length_phaseBits]
  refine List.ext_getElem (by simpa using hlen) fun j hj _ => ?_
  have hjn : j < (phaseBits (formulated l).plan).length := by rw [length_phaseBits]; omega
  have hc := h.assigned.counts j hjn
  rw [List.getD_eq_getElem _ _ hj] at hc
  rw [hc, List.getElem_map, List.getElem_range]
  simp only [stageClass]
  rw [h.length_filter fun v => resolveVal (phaseBits (formulated l).plan) l v = some j]
  exact congrArg _ (congrArg _ (List.filter_congr fun x hx => by simp only [h.resolveVal_of_mem hx]))

/-- The blocks together are as long as the collection. -/
theorem StageSetup.sum_sizes (h : StageSetup l map asg) :
    ((stageBlocks (countOnes (formulated l).plan)).map
      fun b => (map.filter (stageClass l · = b)).length).sum = map.length := by
  have := (@flatMap_filter_perm _ _ _ _ _ id _ (nodup_stageBlocks _) _
    fun a ha => h.stageClass_mem ha).length_eq
  simpa [List.length_flatMap, Function.comp_def] using this

/-- `values_by_phase` and the cursors after the pairs `pre` of `map`: the blocks of
the odd man out and of each phase hold the pairs of `pre` they get, then the filler
`junk`, and each cursor points after them. -/
structure Staged (l : List (Item V)) (map pre : List (K × V)) (junk : K × Locator)
    (stg : Staging K) : Prop where
  vec : stg.valuesByPhase = blockLayout (stageClass l) (stageTarget l) junk map
    (stageBlocks (countOnes (formulated l).plan)) pre
  omoOffset : stg.omoOffset = (pre.filter (stageClass l · = none)).length
  length_cur : stg.phaseOffsetsCur.length = countOnes (formulated l).plan
  cur : ∀ j < countOnes (formulated l).plan, stg.phaseOffsetsCur.getD j 0 =
    (((stageBlocks (countOnes (formulated l).plan)).take (j + 1)).map
      fun b => (map.filter (stageClass l · = b)).length).sum +
      (pre.filter (stageClass l · = some j)).length

/-- One round of the staging loop writes the pair at its block's cursor and
advances that cursor. -/
theorem Staged.step (h : StageSetup l map asg) {pre : List (K × V)} {kv : K × V}
    {junk : K × Locator} {stg : Staging K} (total : Nat) (hst : Staged l map pre junk stg)
    (hpre : pre ++ [kv] <+: map) :
    ∃ stg', stageStep (formulated l).valueMap (formulated l).intervalVec asg total stg kv =
      .ok stg' ∧ Staged l map (pre ++ [kv]) junk stg' := by
  obtain ⟨k, v⟩ := kv
  have hkv : (k, v) ∈ map := hpre.subset (List.mem_append_right _ (List.mem_singleton_self _))
  obtain ⟨i, hi, hv⟩ := h.exists_getElem hkv
  have hlook : (formulated l).valueMap.lookup v = some i := by
    rw [← show l[i].1 = v from hv]; exact lookup_valueMap h.nodup hi
  have hrow := getElem?_intervalVec hi
  have hidx : index (formulated l).intervalVec i =
      .ok (intervalRow ((starts 0 (l.map widthOf)).getD i 0, l[i])) := by
    simp only [index, hrow]
  have hhi : stageTarget l (k, v) = (k, (intervalRow ((starts 0 (l.map widthOf)).getD i 0, l[i])).2.2) := by
    simp only [stageTarget, hiOf, hlook, Option.some_bind, hrow, Option.map_some', Option.getD_some]
  have hlen : stg.valuesByPhase.length = map.length := by
    rw [hst.vec, length_blockLayout ((List.prefix_append _ _).trans hpre), h.sum_sizes]
  have hpos : 0 < map.length := List.length_pos_of_mem hkv
  have hmap := h.length_lt
  have hsz := length_filter_le_of_prefix (stageClass l) map hpre (stageClass l (k, v))
  simp only [List.filter_append, List.filter_singleton, decide_True, cond_true,
    List.length_append, List.length_singleton] at hsz
  simp only [stageStep, if_neg (show stg.valuesByPhase.length ≠ 0 by omega), hlook, okOr_some,
    hidx, bind, Except.bind, pure, Except.pure]
  by_cases ho : i = asg.oddManOut
  · have hcls : stageClass l (k, v) = none := by
      rw [h.stageClass_eq hi hv, resolveOf, if_neg ((h.oddManOut_eq_iff hi).1 ho)]
    have hle := sum_take_add_le (f := fun b => (map.filter (stageClass l · = b)).length)
      (show 0 < (stageBlocks (countOnes (formulated l).plan)).length from Nat.succ_pos _)
    rw [h.sum_sizes] at hle
    change _ + (map.filter (stageClass l · = none)).length ≤ _ at hle
    rw [hcls] at hsz
    have hlt : stg.omoOffset < stg.valuesByPhase.length := by
      rw [hlen, hst.omoOffset]; simp only [List.take_zero, List.map_nil, List.sum_nil] at hle; omega
    simp only [if_pos ho, setIndex_of_lt _ hlt,
      usizeAdd_of_lt (show stg.omoOffset + 1 < 2 ^ 64 by omega)]
    refine ⟨_, rfl, ⟨?_, ?_, hst.length_cur, fun j hj => ?_⟩⟩
    · rw [hst.vec, hst.omoOffset, ← set_blockLayout hpre
        (show 0 < (stageBlocks (countOnes (formulated l).plan)).length from Nat.succ_pos _)
        (nodup_stageBlocks _) hcls, hhi, hcls]
      simp
    · rw [hst.omoOffset]; simp [List.filter_append, hcls]
    · rw [hst.cur j hj]; simp [List.filter_append, hcls]
  · have hp : IsPow2 (widthOf l[i]) :=
      Classical.not_not.1 fun hnp => ho ((h.oddManOut_eq_iff hi).2 hnp)
    obtain ⟨j, hj, hjn, -⟩ := resolveOf_formulated (List.getElem_mem hi) hp
    have hcls : stageClass l (k, v) = some j := by rw [h.stageClass_eq hi hv, hj]
    rw [hcls] at hsz
    have hjb : j + 1 < (stageBlocks (countOnes (formulated l).plan)).length := by
      simpa [stageBlocks] using hjn
    have hle := sum_take_add_le (f := fun b => (map.filter (stageClass l · = b)).length) hjb
    rw [h.sum_sizes] at hle
    simp only [stageBlocks, List.getElem_cons_succ, List.getElem_map, List.getElem_range] at hle
    have hptr : index asg.phaseToResolve i = .ok j := by
      rw [h.assigned.ptr, index_of_lt (by simpa using hi), List.getElem_map, ptrOf, hj,
        Option.map_some', Option.getD_some,
        Nat.mod_eq_of_lt (by have := countOnes_le (formulated l).plan; omega)]
    have hcj : j < stg.phaseOffsetsCur.length := hst.length_cur ▸ hjn
    have hcur := hst.cur j hjn
    rw [List.getD_eq_getElem _ _ hcj] at hcur
    have hcur0 := hcur
    simp only [stageBlocks] at hcur
    have hposlt : stg.phaseOffsetsCur[j] < stg.valuesByPhase.length := by rw [hlen, hcur]; omega
    have hpos1 : stg.phaseOffsetsCur[j] + 1 < 2 ^ 64 := by rw [hcur]; omega
    simp only [if_neg ho, hptr, index_of_lt hcj, setIndex_of_lt _ hposlt, usizeAdd_of_lt hpos1]
    refine ⟨_, rfl, ⟨?_, ?_, by rw [List.length_set, hst.length_cur], fun j' hj' => ?_⟩⟩
    · rw [hst.vec, hcur, ← hcls, ← hhi]
      exact set_blockLayout hpre hjb (nodup_stageBlocks _) (by rw [hcls]; simp [stageBlocks])
    · rw [hst.omoOffset]; simp [List.filter_append, hcls]
    · by_cases hjj : j = j'
      · subst hjj
        rw [List.getD_eq_getElem _ _ (by simpa using hcj), List.getElem_set_self, hcur0,
          List.filter_append, List.length_append]
        simp [hcls, Nat.add_assoc]
      · rw [List.getD_eq_getElem?_getD, List.getElem?_set_ne hjj, ← List.getD_eq_getElem?_getD,
          hst.cur j' hj']
        simp [List.filter_append, hcls, hjj]

/-- The staging loop over the pairs `rest` that follow `pre` in `map`. -/
theorem Staged.loop (h : StageSetup l map asg) {junk : K × Locator} (total : Nat) :
    ∀ {rest pre : List (K × V)} {stg : Staging K}, Staged l map pre junk stg → pre ++ rest = map →
      ∃ stg', stageLoop (formulated l).valueMap (formulated l).intervalVec asg total rest stg =
        .ok stg' ∧ Staged l map map junk stg'
  | [], pre, stg, hst, hpm => ⟨stg, rfl, by simpa [← hpm] using hst⟩
  | kv :: rest, pre, stg, hst, hpm => by
    obtain ⟨stg₁, h₁, hst₁⟩ := hst.step h total ⟨rest, by simpa using hpm⟩
    obtain ⟨stg', h', hst'⟩ := Staged.loop h total hst₁ (by simpa using hpm)
    exact ⟨stg', by simp only [stageLoop, bind, Except.bind, h₁]; exact h', hst'⟩

omit [LinearOrder V] in
/-- The first round creates `values_by_phase` filled with the first key. -/
theorem stageStep_nil [DecidableEq V] (valueMap : List (V × Nat))
    (intervalVec : List (Nat × Locator × Locator)) (total omoOffset : Nat) (cur : List Nat)
    (k : K) (v : V) :
    stageStep valueMap intervalVec asg total ⟨[], omoOffset, cur⟩ (k, v) =
      stageStep valueMap intervalVec asg total ⟨List.replicate total (k, 0), omoOffset, cur⟩ (k, v) := by
  simp only [stageStep, List.length_nil, List.length_replicate, if_pos, ite_self]

/-- The phase offsets are where the blocks of the phases start. -/
theorem StageSetup.getD_offsets (h : StageSetup l map asg) {j : Nat}
    (hj : j < countOnes (formulated l).plan) :
    (starts asg.nOmo asg.phaseItemCounts).getD j 0 =
      (((stageBlocks (countOnes (formulated l).plan)).take (j + 1)).map
        fun b => (map.filter (stageClass l · = b)).length).sum := by
  rw [getD_starts (by rw [h.phaseItemCounts_eq]; simpa using hj), take_stageBlocks hj.le,
    h.phaseItemCounts_eq, h.nOmo_eq, ← List.map_take, List.take_range, Nat.min_eq_left hj.le]
  simp [Function.comp_def]

/-- `values_by_phase` has a slot for every pair. -/
theorem StageSetup.total_eq (h : StageSetup l map asg) :
    asg.nOmo + asg.phaseItemCounts.sum = map.length := by
  rw [← h.sum_sizes, h.nOmo_eq, h.phaseItemCounts_eq]
  simp [stageBlocks, Function.comp_def]

/-- Staging writes every pair once: `values_by_phase` ends as the pairs `(k, hi)` of
the odd man out, then those of each phase, each block in the collection's order; the
cursors end at the ends of their blocks. -/
theorem stageLoop_layout (h : StageSetup l map asg) (hne : map ≠ []) :
    ∃ stg, stageLoop (formulated l).valueMap (formulated l).intervalVec asg
        (asg.nOmo + asg.phaseItemCounts.sum) map
        ⟨[], 0, starts asg.nOmo asg.phaseItemCounts⟩ = .ok stg ∧
      stg.valuesByPhase = (map.filter (stageClass l · = none)).map (stageTarget l) ++
        (List.range (countOnes (formulated l).plan)).flatMap
          (fun j => (map.filter (stageClass l · = some j)).map (stageTarget l)) ∧
      stg.omoOffset = asg.nOmo ∧
      stg.phaseOffsetsCur = List.zipWith (· + ·) (starts asg.nOmo asg.phaseItemCounts)
        asg.phaseItemCounts := by
  obtain ⟨⟨k, v⟩, rest, rfl⟩ := List.exists_cons_of_ne_nil hne
  have htotal := h.total_eq
  have hlenc : asg.phaseItemCounts.length = countOnes (formulated l).plan := by
    rw [h.phaseItemCounts_eq, List.length_map, List.length_range]
  have h₀ : Staged l ((k, v) :: rest) [] (k, 0) ⟨List.replicate (asg.nOmo + asg.phaseItemCounts.sum) (k, 0), 0,
      starts asg.nOmo asg.phaseItemCounts⟩ :=
    ⟨by rw [blockLayout_nil, h.sum_sizes, htotal], rfl, by simpa using hlenc,
      fun j hj => by rw [h.getD_offsets hj]; rfl⟩
  obtain ⟨stg, hrun, hst⟩ := Staged.loop h _ h₀ (List.nil_append _)
  refine ⟨stg, by rw [stageLoop, stageStep_nil]; exact hrun, ?_, ?_, ?_⟩
  · rw [hst.vec, blockLayout_all, stageBlocks, List.flatMap_cons, List.flatMap_map]
  · rw [hst.omoOffset, h.nOmo_eq]
  · refine List.ext_getElem (by simp [hst.length_cur, hlenc]) fun j hj _ => ?_
    have hjn : j < countOnes (formulated l).plan := by rw [← hst.length_cur]; exact hj
    have hc := hst.cur j hjn
    rw [List.getD_eq_getElem _ _ hj, ← h.getD_offsets hjn] at hc
    rw [hc, List.getElem_zipWith, List.getD_eq_getElem _ _ (by simpa [hlenc] using hjn)]
    congr 1
    simp [h.phaseItemCounts_eq]

end Stage

/-! ## What each phase's filter selects -/

section PhaseCare

variable {γ δ : Type}

theorem mapM_index_eq {l : List γ} : ∀ {is : List Nat}, (∀ i ∈ is, i < l.length) →
    is.mapM (index l) = .ok (is.filterMap fun i => l[i]?)
  | [], _ => rfl
  | i :: is, h => by
    have hi := h i (List.mem_cons_self _ _)
    rw [List.mapM_cons, index_of_lt hi, mapM_index_eq fun i' hi' => h i' (List.mem_cons_of_mem _ hi'),
      List.filterMap_cons, List.getElem?_eq_getElem hi]
    rfl

theorem filterMap_range' {l : List γ} : ∀ {s m : Nat}, s + m ≤ l.length →
    (List.range' s m).filterMap (fun i => l[i]?) = (l.drop s).take m
  | _, 0, _ => by simp
  | s, m + 1, h => by
    rw [List.range'_succ, List.filterMap_cons, List.getElem?_eq_getElem (show s < l.length by omega),
      filterMap_range' (show s + 1 + m ≤ l.length by omega),
      List.drop_eq_getElem_cons (show s < l.length by omega), List.take_succ_cons]

theorem mapM_range'_index (g : γ → δ) {l : List γ} : ∀ {s m : Nat}, s + m ≤ l.length →
    (List.range' s m).mapM (fun i => do pure (g (← index l i))) = .ok (((l.drop s).take m).map g)
  | _, 0, _ => rfl
  | s, m + 1, h => by
    rw [List.range'_succ, List.mapM_cons, index_of_lt (show s < l.length by omega),
      mapM_range'_index g (show s + 1 + m ≤ l.length by omega),
      List.drop_eq_getElem_cons (show s < l.length by omega), List.take_succ_cons]
    rfl

theorem filterMap_filter_range : ∀ {A : List γ} {bs : List Bool}, A.length = bs.length →
    ((List.range A.length).filter (bs.getD · false)).filterMap (fun i => A[i]?) =
      ((A.zip bs).filter (·.2)).map (·.1)
  | [], _, _ => rfl
  | a :: A, b :: bs, h => by
    have ih := @filterMap_filter_range A bs (by simpa using h)
    rw [List.length_cons, List.range_succ_eq_map, List.filter_cons, List.filter_map,
      List.zip_cons_cons, List.filter_cons]
    cases b <;> simpa [List.filterMap_map, Function.comp_def] using ih

/-- The odd man out's pairs that phase `j`'s filter selects: at `phase_omo` those
whose current value is below `lo_omo`, above it all of them. -/
def omoSelected (asg : Assignment) (omo : List (K × Locator)) (cv : List Locator) (j : Nat) :
    List (K × Locator) :=
  if j = asg.phaseOmo then ((omo.zip cv).filter (·.2 < asg.loOmo)).map Prod.fst
  else if asg.phaseOmo < j then omo else []

/-- The pairs phase `j` is solved over, when `values_by_phase` holds the odd man
out's pairs `omo` and then the phases' blocks. -/
def phaseItems (asg : Assignment) (omo : List (K × Locator)) (blocks : List (List (K × Locator)))
    (cv : List Locator) (j : Nat) : List (K × Locator) :=
  omoSelected asg omo cv j ++ (blocks.take (j + 1)).flatten

theorem map_fst_zip_sublist {α β : Type} : ∀ (l₁ : List α) (l₂ : List β),
    ((l₁.zip l₂).map Prod.fst).Sublist l₁
  | [], _ => List.Sublist.slnil
  | _ :: _, [] => List.nil_sublist _
  | a :: l₁, _ :: l₂ => (map_fst_zip_sublist l₁ l₂).cons₂ a

/-- The pairs a phase is solved over are drawn from `values_by_phase` in order. -/
theorem phaseItems_sublist (asg : Assignment) (omo : List (K × Locator))
    (blocks : List (List (K × Locator))) (cv : List Locator) (j : Nat) :
    (phaseItems asg omo blocks cv j).Sublist (omo ++ blocks.flatten) := by
  refine List.Sublist.append ?_ ?_
  · rw [omoSelected]
    split_ifs
    · exact ((List.filter_sublist _).map _).trans (map_fst_zip_sublist _ _)
    · exact List.Sublist.refl _
    · exact List.nil_sublist _
  · conv_rhs => rw [← List.take_append_drop (j + 1) blocks, List.flatten_append]
    exact List.sublist_append_left _ _

/-- Phase `j`'s filter over `values_by_phase` laid out as the odd man out's pairs
`omo` and then the phases' blocks: the odd man out's pairs it takes, then every
block up to `j`. -/
theorem phaseCare_blocks (asg : Assignment) (omo : List (K × Locator))
    (blocks : List (List (K × Locator))) {cur : List Nat} {cv : List Locator} {j : Nat}
    (hcj : j < cur.length)
    (hcur : cur.getD j 0 = omo.length + (blocks.take (j + 1)).flatten.length)
    (hcv : cv.length = omo.length) :
    phaseCare asg (omo ++ blocks.flatten) omo.length cur cv j =
      .ok (phaseItems asg omo blocks cv j) := by
  rw [phaseItems, omoSelected]
  set F := (blocks.take (j + 1)).flatten with hF
  have hflat : blocks.flatten = F ++ (blocks.drop (j + 1)).flatten := by
    rw [hF, ← List.flatten_append, List.take_append_drop]
  have hlen : (omo ++ blocks.flatten).length = omo.length + F.length + (blocks.drop (j + 1)).flatten.length := by
    rw [List.length_append, hflat, List.length_append, Nat.add_assoc]
  rw [List.getD_eq_getElem _ _ hcj] at hcur
  have hrange : List.range (max omo.length cur[j]) =
      List.range' 0 omo.length ++ List.range' omo.length F.length := by
    rw [Nat.max_eq_right (by omega), List.range_eq_range', hcur, Nat.add_comm,
      ← List.range'_append_1, Nat.zero_add]
  let q : Nat → Bool := fun i =>
    if j = asg.phaseOmo then (cv.map (decide <| · < asg.loOmo)).getD i false else asg.phaseOmo < j
  have hsel : ((List.range' 0 omo.length).filter q).filterMap (fun i => (omo ++ blocks.flatten)[i]?) =
      if j = asg.phaseOmo then ((omo.zip cv).filter (·.2 < asg.loOmo)).map Prod.fst
      else if asg.phaseOmo < j then omo else [] := by
    have hleft : ∀ is : List Nat, (∀ i ∈ is, i < omo.length) →
        is.filterMap (fun i => (omo ++ blocks.flatten)[i]?) = is.filterMap (fun i => omo[i]?) :=
      fun is h => List.filterMap_congr fun i hi => List.getElem?_append_left (h i hi)
    rw [hleft _ fun i hi => by have := (List.mem_range'_1.1 (List.mem_filter.1 hi).1).2; omega]
    by_cases hpo : j = asg.phaseOmo
    · simp only [q, if_pos hpo]
      rw [← List.range_eq_range', filterMap_filter_range (by simpa using hcv.symm),
        List.zip_map_right, List.filter_map, List.map_map]
      rfl
    · by_cases hlt : asg.phaseOmo < j
      · simp only [q, if_neg hpo, if_pos hlt, hlt, decide_True, List.filter_true]
        rw [filterMap_range' (by simp)]
        simp
      · simp [q, hpo, hlt]
  have hitems : ∀ below : List Bool, (j = asg.phaseOmo → below = cv.map (decide <| · < asg.loOmo)) →
      ((List.range (max omo.length cur[j])).filter
        (phaseFilter asg omo.length cur[j] j below)).mapM (index (omo ++ blocks.flatten)) =
      .ok ((if j = asg.phaseOmo then ((omo.zip cv).filter (·.2 < asg.loOmo)).map Prod.fst
        else if asg.phaseOmo < j then omo else []) ++ F) := fun below hbel => by
    have hf1 : (List.range' 0 omo.length).filter (phaseFilter asg omo.length cur[j] j below) =
        (List.range' 0 omo.length).filter q := List.filter_congr fun i hi => by
      have := (List.mem_range'_1.1 hi).2
      by_cases hpo : j = asg.phaseOmo
      · simp [phaseFilter, q, hpo, hbel hpo, show i < omo.length by omega]
      · simp [phaseFilter, q, hpo, show i < omo.length by omega]
    have hf2 : (List.range' omo.length F.length).filter (phaseFilter asg omo.length cur[j] j below) =
        List.range' omo.length F.length := List.filter_eq_self.2 fun i hi => by
      have := List.mem_range'_1.1 hi
      simp [phaseFilter, show omo.length ≤ i by omega, show i < cur[j] by omega]
    rw [hrange, List.filter_append, hf1, hf2, List.mapM_append,
      mapM_index_eq fun i hi => by have := (List.mem_range'_1.1 (List.mem_filter.1 hi).1).2; omega,
      mapM_index_eq fun i hi => by have := List.mem_range'_1.1 hi; omega, hsel,
      filterMap_range' (by omega), hflat, List.drop_left, List.take_left]
    rfl
  have hb : ((List.range omo.length).mapM fun i => do pure (decide ((← index cv i) < asg.loOmo))) =
      .ok (cv.map (decide <| · < asg.loOmo)) := by
    have := mapM_range'_index (decide <| · < asg.loOmo) (show 0 + omo.length ≤ cv.length by omega)
    rwa [List.drop_zero, List.take_of_length_le (by omega), ← List.range_eq_range'] at this
  rw [phaseCare, index_of_lt hcj, hb]
  by_cases hpo : j = asg.phaseOmo
  · have := hitems _ fun _ => rfl
    simp only [if_pos hpo] at this ⊢
    exact this
  · have := hitems [] fun h => absurd h hpo
    simp only [if_neg hpo] at this ⊢
    exact this

end PhaseCare

end FrayedCascade
