import FrayedCascade.Staging

/-!
# The phase loop of `build`

`build`'s last loop solves one phase at a time, each over the pairs its filter
selects, and ORs the odd man out's keys' answers into `current_values` while the
phase is below `phase_omo`. What a phase's sub-build promises is its retrieval
contract, `SubBuilder.Sound`; `uniform.rs` is not part of this development, so every
result here holds for every sub-builder that meets it.

- `SubBuilder.Fits`: the layout of the cores a sub-build returns, which encoding
  relies on;
- `tableBuilder_sound`, `tableBuilder_fits`: both contracts can be met, by a
  sub-builder for small keys that stores each key's answer in a byte;
- `currentValuesLoop_getD`: the loop over `0..omo_offset` ORs each odd-man-out
  key's answer, shifted into place, into its current value;
- `PhasesDone`: after the first `j` phases, the cores, the salt, the tries and the
  current values, and for each phase the sub-build call that made its core: the
  pairs it was given and its options;
- `GivesUp`: a phase's sub-build, called on the pairs and options the loop
  passes it from a state, returns nothing;
- `PhasesDone.step` and `phaseLoop_done`: a round keeps `PhasesDone` and never
  panics, and the loop reaches the last phase unless a sub-build gives up, in
  which case it stops at a phase where `GivesUp` holds.
-/

namespace FrayedCascade

variable {K : Type}

/-- The uniform sub-builder's retrieval contract. A core it returns answers each
pair it was given with the bits `[shift, shift + bits_per_value)` of the pair's
locator, and any other key with some `bits_per_value`-bit answer; `try_query`
agrees with `query_hash`; and the `try_num` it reports is at most `max_tries`. -/
structure SubBuilder.Sound (sb : SubBuilder K) (rt : Retrieval K) : Prop where
  tries_le : ∀ {items opts core t}, sb.build items opts = some (core, t) → t ≤ opts.maxTries
  queryHash_eq : ∀ {items opts core t}, sb.build items opts = some (core, t) →
    ∀ kx ∈ items, rt.queryHash core kx.1 = (kx.2.toNat >>> opts.shift) % 2 ^ opts.bitsPerValue.getD 0
  queryHash_lt : ∀ {items opts core t}, sb.build items opts = some (core, t) →
    ∀ k, rt.queryHash core k < 2 ^ opts.bitsPerValue.getD 0
  tryQuery_eq : ∀ {items opts core t}, sb.build items opts = some (core, t) →
    ∀ k, rt.tryQuery core k = some (BitVec.ofNat 32 (rt.queryHash core k))

/-- The layout contract of a sub-build, against the constants `u` of `uniform.rs`:
the core it returns has the phase's `bits_per_value`, at least two blocks,
`nblocks · BLOCKSIZE · bits_per_value` bytes of blocks, and the hash key
`choose_key(key_gen, try_num)` of the try it reports. -/
structure SubBuilder.Fits (sb : SubBuilder K) (u : Uniform) : Prop where
  bitsPerValue : ∀ {items opts core t}, sb.build items opts = some (core, t) →
    core.bitsPerValue = opts.bitsPerValue.getD 0
  nblocks : ∀ {items opts core t}, sb.build items opts = some (core, t) → 2 ≤ core.nblocks
  blocks : ∀ {items opts core t}, sb.build items opts = some (core, t) →
    core.blocks.length = core.nblocks * u.blocksize * core.bitsPerValue
  blocks_lt : ∀ {items opts core t}, sb.build items opts = some (core, t) →
    core.blocks.length < 2 ^ 64
  hashKey : ∀ {items opts core t}, sb.build items opts = some (core, t) →
    core.hashKey = u.chooseKey opts.keyGen t

/-- A sub-builder for small keys `0, 1, …` that meets both contracts: a core's
`blocks` hold each key's answer in one byte, which `query_hash` reads back. -/
def tableRetrieval : Retrieval Nat where
  queryHash c k := (c.blocks.getD k 0).toNat % 2 ^ c.bitsPerValue
  tryQuery c k := some (BitVec.ofNat 32 ((c.blocks.getD k 0).toNat % 2 ^ c.bitsPerValue))

/-- The core that holds, for each key up to the largest, its first pair's answer,
in `nblocks · bits_per_value` bytes. -/
def tableCore (items : List (Nat × Locator)) (opts : BuildOptions) : MapCore where
  hashKey := zeroKey
  bitsPerValue := opts.bitsPerValue.getD 0
  nblocks := (items.map (·.1)).foldr max 0 + 2
  blocks := (List.range (((items.map (·.1)).foldr max 0 + 2) * opts.bitsPerValue.getD 0)).map
    fun k => UInt8.ofNat (((items.find? (·.1 = k)).map fun kx =>
      (kx.2.toNat >>> opts.shift) % 2 ^ opts.bitsPerValue.getD 0).getD 0)

/-- Gives up unless the table answers every pair (two pairs of a key disagree, or
an answer does not fit in a byte) and its blocks have a `usize` length. -/
def tableBuilder : SubBuilder Nat where
  build items opts :=
    if (items.all fun kx => tableRetrieval.queryHash (tableCore items opts) kx.1 =
        (kx.2.toNat >>> opts.shift) % 2 ^ opts.bitsPerValue.getD 0) ∧
      (tableCore items opts).blocks.length < 2 ^ 64
    then some (tableCore items opts, 0) else none

theorem tableBuilder_build {items : List (Nat × Locator)} {opts : BuildOptions}
    {core : MapCore} {t : Nat} (h : tableBuilder.build items opts = some (core, t)) :
    core = tableCore items opts ∧ t = 0 ∧ core.blocks.length < 2 ^ 64 ∧ ∀ kx ∈ items,
      tableRetrieval.queryHash core kx.1 = (kx.2.toNat >>> opts.shift) % 2 ^ opts.bitsPerValue.getD 0 := by
  simp only [tableBuilder] at h
  split at h
  · cases h
    rename_i hc
    exact ⟨rfl, rfl, hc.2, fun kx hkx => of_decide_eq_true (List.all_eq_true.1 hc.1 kx hkx)⟩
  · cases h

theorem tableBuilder_sound : tableBuilder.Sound tableRetrieval where
  tries_le h := by rw [(tableBuilder_build h).2.1]; exact Nat.zero_le _
  queryHash_eq h := (tableBuilder_build h).2.2.2
  queryHash_lt h k := by
    rw [(tableBuilder_build h).1]; exact Nat.mod_lt _ (Nat.two_pow_pos _)
  tryQuery_eq _ _ := rfl

/-- With one-byte blocks and a constant `choose_key`, the table cores fit. -/
theorem tableBuilder_fits : tableBuilder.Fits byteUniform where
  bitsPerValue h := by rw [(tableBuilder_build h).1]; rfl
  nblocks h := by rw [(tableBuilder_build h).1]; exact Nat.le_add_left _ _
  blocks h := by rw [(tableBuilder_build h).1]; simp [tableCore, byteUniform]
  blocks_lt h := (tableBuilder_build h).2.2.1
  hashKey h := by rw [(tableBuilder_build h).1]; rfl

theorem le_foldr_max : ∀ {l : List Nat} {x : Nat}, x ∈ l → x ≤ l.foldr max 0
  | _ :: _, _, .head _ => le_max_left _ _
  | _ :: _, _, .tail _ h => (le_foldr_max h).trans (le_max_right _ _)

theorem foldr_max_lt {l : List Nat} {B : Nat} (hB : 0 < B) (h : ∀ x ∈ l, x < B) :
    l.foldr max 0 < B := by
  induction l with
  | nil => exact hB
  | cons x l ih =>
    exact max_lt (h x (List.mem_cons_self _ _)) (ih fun y hy => h y (List.mem_cons_of_mem _ hy))

theorem find?_fst_of_mem {α β : Type} [DecidableEq α] :
    ∀ {l : List (α × β)}, (l.map Prod.fst).Nodup → ∀ {x : α × β}, x ∈ l →
      l.find? (·.1 = x.1) = some x
  | y :: l, hnd, x, hx => by
    rw [List.map_cons, List.nodup_cons] at hnd
    rcases List.mem_cons.1 hx with rfl | hx
    · simp
    · have hne : ¬ y.1 = x.1 := fun he => hnd.1 (he ▸ List.mem_map_of_mem _ hx)
      rw [List.find?_cons_of_neg _ (by simpa using hne)]
      exact find?_fst_of_mem hnd.2 hx

/-- The table sub-builder succeeds on pairs with distinct keys whose answers fit
in a byte, when its blocks have a `usize` length. -/
theorem tableBuilder_build_of_nodup {items : List (Nat × Locator)} {opts : BuildOptions}
    (hnd : (items.map Prod.fst).Nodup) (hpos : 1 ≤ opts.bitsPerValue.getD 0)
    (hbyte : opts.bitsPerValue.getD 0 ≤ 8)
    (hlen : ((items.map Prod.fst).foldr max 0 + 2) * opts.bitsPerValue.getD 0 < 2 ^ 64) :
    tableBuilder.build items opts = some (tableCore items opts, 0) := by
  have hq : ∀ kx ∈ items, tableRetrieval.queryHash (tableCore items opts) kx.1 =
      (kx.2.toNat >>> opts.shift) % 2 ^ opts.bitsPerValue.getD 0 := fun kx hkx => by
    have hm : kx.1 ≤ _ := le_foldr_max (List.mem_map_of_mem (·.1) hkx)
    have hk : kx.1 < ((items.map (·.1)).foldr max 0 + 2) * opts.bitsPerValue.getD 0 :=
      calc kx.1 < (items.map (·.1)).foldr max 0 + 2 := by omega
        _ ≤ _ := Nat.le_mul_of_pos_right _ hpos
    have hlt : (kx.2.toNat >>> opts.shift) % 2 ^ opts.bitsPerValue.getD 0 < 2 ^ 8 :=
      (Nat.mod_lt _ (Nat.two_pow_pos _)).trans_le (Nat.pow_le_pow_right (by decide) hbyte)
    simp only [tableRetrieval, tableCore, List.getD_eq_getElem?_getD, List.getElem?_map,
      List.getElem?_range hk, Option.map_some', Option.getD_some, find?_fst_of_mem hnd hkx,
      UInt8.toNat_ofNat_of_lt hlt, Nat.mod_mod]
  simp only [tableBuilder]
  rw [if_pos ⟨List.all_eq_true.2 fun kx hkx => decide_eq_true (hq kx hkx),
    by simpa [tableCore] using hlen⟩]
/-! ## Current values -/

/-- The loop `for i in 0..omo_offset` (over any indices, each once): each index's
current value gains the key's answer shifted into place. -/
theorem currentValuesLoop_getD (rt : Retrieval K) (core : MapCore) (vec : List (K × Locator))
    {shift : Nat} (hshift : shift < 32) (f : K → Locator)
    (hf : ∀ k, rt.tryQuery core k = some (f k)) :
    ∀ {is : List Nat} (cv : List Locator), is.Nodup → (∀ i ∈ is, i < vec.length ∧ i < cv.length) →
      ∃ cv', currentValuesLoop rt core vec shift is cv = .ok cv' ∧ cv'.length = cv.length ∧
        ∀ i, cv'.getD i 0 = if i ∈ is then
          cv.getD i 0 ||| ((vec[i]?.map fun kx => f kx.1 <<< shift).getD 0) else cv.getD i 0
  | [], cv, _, _ => ⟨cv, rfl, rfl, fun _ => by simp⟩
  | i :: is, cv, hnd, hin => by
    obtain ⟨hv, hc⟩ := hin i (List.mem_cons_self _ _)
    have hi : i ∉ is := (List.nodup_cons.1 hnd).1
    obtain ⟨cv', h', hlen', hget'⟩ := currentValuesLoop_getD rt core vec hshift f hf
      (cv.set i (cv[i] ||| f vec[i].1 <<< shift)) (List.nodup_cons.1 hnd).2 fun j hj => by
        rw [List.length_set]; exact hin j (List.mem_cons_of_mem _ hj)
    refine ⟨cv', ?_, by rw [hlen', List.length_set], fun j => ?_⟩
    · simp only [currentValuesLoop, index_of_lt hv, hf, okOr_some, shlU32_of_lt hshift,
        index_of_lt hc, setIndex_of_lt _ hc, bind, Except.bind, pure, Except.pure]
      exact h'
    · rw [hget' j]
      by_cases hji : j = i
      · subst hji
        simp [hi, List.getElem?_eq_getElem hv, List.getElem?_eq_getElem hc, hc]
      · simp [hji, Ne.symm hji, List.getElem?_set_ne]

/-! ## The bits phases leave in a current value -/

/-- Phase `j`'s answer for `k`, from the cores. -/
def phaseOut (rt : Retrieval K) (cores : List MapCore) (j : Nat) (k : K) : Nat :=
  (cores.map (rt.queryHash · k)).getD j 0

/-- Every bit of `c` is a bit of `k`'s answer in one of the phases below `j`, at
that phase's place. -/
def FromOutputs (rt : Retrieval K) (plan : Plan) (cores : List MapCore) (j : Nat) (k : K)
    (c : Locator) : Prop :=
  ∀ x, c.getLsbD x = true → ∃ j' < j, bnd (setBits plan) j' ≤ x ∧
    x < bnd (setBits plan) (j' + 1) ∧ (phaseOut rt cores j' k).testBit (x - bnd (setBits plan) j')

theorem phaseOut_append {cores : List MapCore} {j : Nat} (hj : j < cores.length) (c : MapCore)
    (k : K) : phaseOut rt (cores ++ [c]) j k = phaseOut rt cores j k := by
  rw [phaseOut, phaseOut, List.map_append, List.getD_append _ _ _ _ (by simpa using hj)]

theorem phaseOut_concat {cores : List MapCore} {j : Nat} (hj : cores.length = j) (c : MapCore)
    (k : K) : phaseOut rt (cores ++ [c]) j k = rt.queryHash c k := by
  subst hj; simp [phaseOut]

theorem FromOutputs.mono {plan : Plan} {cores : List MapCore} {j j' : Nat} {k : K} {c : Locator}
    (h : FromOutputs rt plan cores j k c) (hj : j ≤ j') : FromOutputs rt plan cores j' k c :=
  fun x hx => let ⟨i, hi, rest⟩ := h x hx; ⟨i, lt_of_lt_of_le hi hj, rest⟩

theorem FromOutputs.append {plan : Plan} {cores : List MapCore} {j : Nat} {k : K} {c : Locator}
    (h : FromOutputs rt plan cores j k c) (hj : j ≤ cores.length) (core : MapCore) :
    FromOutputs rt plan (cores ++ [core]) j k c := fun x hx => by
  obtain ⟨i, hi, hlo, hhi, hb⟩ := h x hx
  exact ⟨i, hi, hlo, hhi, by rwa [phaseOut_append (by omega)]⟩

theorem fromOutputs_zero (plan : Plan) (cores : List MapCore) (j : Nat) (k : K) :
    FromOutputs rt plan cores j k 0 := fun x hx => by
  rw [show (0 : Locator).getLsbD x = false from BitVec.getLsbD_zero] at hx
  cases hx

theorem FromOutputs.or {plan : Plan} {cores : List MapCore} {j : Nat} {k : K} {a b : Locator}
    (ha : FromOutputs rt plan cores j k a) (hb : FromOutputs rt plan cores j k b) :
    FromOutputs rt plan cores j k (a ||| b) := fun x hx => by
  rw [BitVec.getLsbD_or, Bool.or_eq_true] at hx
  exact hx.elim (ha x) (hb x)

/-- Phase `j`'s answer, shifted to the phase's place, has only bits of phase `j`. -/
theorem fromOutputs_shiftLeft {plan : Plan} {cores : List MapCore} {j : Nat} {k : K}
    (ho : phaseOut rt cores j k < 2 ^ (bnd (setBits plan) (j + 1) - bnd (setBits plan) j)) :
    FromOutputs rt plan cores (j + 1) k
      (BitVec.ofNat 32 (phaseOut rt cores j k) <<< bnd (setBits plan) j) := fun x hx => by
  simp only [BitVec.getLsbD_shiftLeft, BitVec.getLsbD_ofNat, Bool.and_eq_true, decide_eq_true_eq,
    Bool.not_eq_true', decide_eq_false_iff_not, Nat.not_lt] at hx
  obtain ⟨⟨-, hlo⟩, -, hbit⟩ := hx
  refine ⟨j, Nat.lt_succ_self j, hlo, ?_, hbit⟩
  by_contra hhi
  rw [testBit_eq_false_of_lt ho (by omega)] at hbit
  cases hbit

/-! ## One phase -/

/-- The options `build` gives phase `j`'s sub-build: at most `255` tries and what is
left of `max_tries`, the parent's key, and the phase's width and shift. -/
def phaseOptionsAt (options : BuildOptions) (plan : Plan) (j : Nat) (parent : Option HashKey)
    (tries : Nat) : BuildOptions where
  maxTries := min (options.maxTries - tries) 255
  tryNum := 0
  keyGen := parent
  bitsPerValue := some (bnd (setBits plan) (j + 1) - bnd (setBits plan) j)
  shift := bnd (setBits plan) j
  maxThreads := options.maxThreads

/-- Where `values_by_phase` and the cursors stand when the phase loop starts: the
odd man out's pairs, then one block per phase, each cursor at the end of its block. -/
structure PhaseLayout (plan : Plan) (omo : List (K × Locator)) (blocks : List (List (K × Locator)))
    (cur : List Nat) : Prop where
  length_blocks : blocks.length = countOnes plan
  length_cur : cur.length = countOnes plan
  getD_cur : ∀ j < countOnes plan, cur.getD j 0 = omo.length + (blocks.take (j + 1)).flatten.length

/-- The parent key of phase `j`: `key_gen` for the first phase, else the previous
core's hash key. -/
def parentKey (options : BuildOptions) (cores : List MapCore) (j : Nat) : Option HashKey :=
  if j = 0 then options.keyGen else (cores[j - 1]?).map (·.hashKey)

theorem parentKey_append (options : BuildOptions) {cores : List MapCore} {j : Nat}
    (hj : j ≤ cores.length) (c : MapCore) :
    parentKey options (cores ++ [c]) j = parentKey options cores j := by
  unfold parentKey
  split
  · rfl
  · rw [List.getElem?_append_left (by omega)]

variable {sb : SubBuilder K} {rt : Retrieval K} {options : BuildOptions} {plan : Plan}
  {asg : Assignment} {omo : List (K × Locator)} {blocks : List (List (K × Locator))}
  {cur : List Nat}

/-- One round of the phase loop, once its inputs are in range: the sub-build call
on the pairs the filter selects, then the bookkeeping. -/
theorem phaseStep_eq (hlay : PhaseLayout plan omo blocks cur) {j : Nat} (hj : j < countOnes plan)
    {st : PhaseState} (hcore : st.core.length = j) (htries : st.tries ≤ options.maxTries)
    (hcv : st.currentValues.length = omo.length) :
    phaseStep sb rt options (phaseBits plan) asg (omo ++ blocks.flatten) omo.length cur j st =
      (match sb.build (phaseItems asg omo blocks st.currentValues j)
        (phaseOptionsAt options plan j (parentKey options st.core j) st.tries) with
      | none => .ok none
      | some (core, t) => do
        let tries ← usizeAdd st.tries t
        let cv ← if asg.minPhaseAffectingOmo ≤ j ∧ j < asg.phaseOmo then
            currentValuesLoop rt core (omo ++ blocks.flatten) (bnd (setBits plan) j)
              (List.range omo.length) st.currentValues
          else pure st.currentValues
        pure (some ⟨st.salt ++ [UInt8.ofNat t], st.core ++ [core], tries, cv⟩)) := by
  have hb := bitList_setBits plan
  have hjb : j < (setBits plan).length := hj
  have hlt := hb.bnd_lt_succ hjb
  have h32 := hb.bnd_le (j + 1)
  have hpj : j < (phaseBits plan).length := by rwa [length_phaseBits]
  have hidx := phaseCare_blocks asg omo blocks (hlay.length_cur ▸ hj) (hlay.getD_cur j hj) hcv
  by_cases hj0 : j = 0
  · simp only [phaseStep, index_of_lt hpj, getElem_phaseBits, trailingZeros_rangeMask hlt h32,
      countOnes_rangeMask hlt.le h32, if_pos hj0, checkedSub_of_le htries, hidx, bind,
      Except.bind, pure, Except.pure, parentKey,
      Nat.mod_eq_of_lt (show bnd (setBits plan) j < 256 by omega),
      Nat.mod_eq_of_lt (show bnd (setBits plan) (j + 1) - bnd (setBits plan) j < 256 by omega)]
    rfl
  · simp only [phaseStep, index_of_lt hpj, getElem_phaseBits, trailingZeros_rangeMask hlt h32,
      countOnes_rangeMask hlt.le h32, if_neg hj0, index_of_lt (show j - 1 < st.core.length by omega),
      checkedSub_of_le htries, hidx, bind, Except.bind, pure, Except.pure, parentKey,
      List.getElem?_eq_getElem (show j - 1 < st.core.length by omega), Option.map_some',
      Nat.mod_eq_of_lt (show bnd (setBits plan) j < 256 by omega),
      Nat.mod_eq_of_lt (show bnd (setBits plan) (j + 1) - bnd (setBits plan) j < 256 by omega)]
    rfl

/-! ## The loop -/

variable (sb rt options plan asg omo blocks) in
/-- The phase loop after its first `j` phases: one core and one salt byte per phase,
the tries counted within `max_tries`, the current values holding only answers of
phases below `phase_omo`, and for each phase the sub-build call that made its core,
over the pairs its filter selected from that phase's current values. -/
structure PhasesDone (j : Nat) (st : PhaseState) : Prop where
  length_core : st.core.length = j
  length_salt : st.salt.length = j
  tryNum_le : options.tryNum ≤ st.tries
  tries_le : st.tries ≤ options.maxTries
  length_cv : st.currentValues.length = omo.length
  cv : ∀ i (hi : i < omo.length),
    FromOutputs rt plan st.core (min j asg.phaseOmo) omo[i].1 (st.currentValues.getD i 0)
  call : ∀ j' < j, ∃ (cv : List Locator) (tries t : Nat) (core : MapCore),
    cv.length = omo.length ∧
    (∀ i (hi : i < omo.length),
      FromOutputs rt plan st.core (min j' asg.phaseOmo) omo[i].1 (cv.getD i 0)) ∧
    st.core[j']? = some core ∧ st.salt[j']? = some (UInt8.ofNat t) ∧
    sb.build (phaseItems asg omo blocks cv j')
      (phaseOptionsAt options plan j' (parentKey options st.core j') tries) = some (core, t)

variable (sb options plan asg omo blocks) in
/-- Phase `j`'s sub-build, called as the loop calls it from the state `st`, gives
up: on the pairs its filter selects with `st`'s current values, with the
phase's options, the parent key of `st`'s cores and the tries `st` has used. -/
def GivesUp (j : Nat) (st : PhaseState) : Prop :=
  sb.build (phaseItems asg omo blocks st.currentValues j)
    (phaseOptionsAt options plan j (parentKey options st.core j) st.tries) = none

theorem phasesDone_init (htries : options.tryNum ≤ options.maxTries) :
    PhasesDone sb rt options plan asg omo blocks 0
      ⟨[], [], options.tryNum, List.replicate omo.length 0⟩ :=
  ⟨rfl, rfl, le_rfl, htries, List.length_replicate _ _,
    fun i hi => by simpa [hi] using fromOutputs_zero plan [] _ omo[i].1,
    fun _ hj => absurd hj (Nat.not_lt_zero _)⟩

/-- The current values after phase `j`'s core: updated from its `try_query`
when `j` is a phase that affects the odd man out, kept otherwise; either way they
hold only answers of the phases below `phase_omo` read so far. -/
theorem PhasesDone.currentValues_next (hsb : sb.Sound rt) {j : Nat} (hj : j < countOnes plan)
    {st : PhaseState} (h : PhasesDone sb rt options plan asg omo blocks j st) {core : MapCore}
    {t : Nat} (hbuild : sb.build (phaseItems asg omo blocks st.currentValues j)
      (phaseOptionsAt options plan j (parentKey options st.core j) st.tries) = some (core, t)) :
    ∃ cv', (if asg.minPhaseAffectingOmo ≤ j ∧ j < asg.phaseOmo then
        currentValuesLoop rt core (omo ++ blocks.flatten) (bnd (setBits plan) j)
          (List.range omo.length) st.currentValues
      else pure st.currentValues) = .ok cv' ∧ cv'.length = omo.length ∧
      ∀ i (hi : i < omo.length), FromOutputs rt plan (st.core ++ [core]) (min (j + 1) asg.phaseOmo)
        omo[i].1 (cv'.getD i 0) := by
  have hlt := (bitList_setBits plan).bnd_lt_succ (show j < (setBits plan).length from hj)
  have h32 := (bitList_setBits plan).bnd_le (j + 1)
  have hold : ∀ i (hi : i < omo.length), FromOutputs rt plan (st.core ++ [core])
      (min j asg.phaseOmo) omo[i].1 (st.currentValues.getD i 0) := fun i hi =>
    (h.cv i hi).append (by rw [h.length_core]; omega) core
  by_cases hupd : asg.minPhaseAffectingOmo ≤ j ∧ j < asg.phaseOmo
  · -- a phase that affects the odd man out: or in the new bits
    obtain ⟨cv', hrun, hlen, hget⟩ := currentValuesLoop_getD rt core (omo ++ blocks.flatten)
      (show bnd (setBits plan) j < 32 by omega) _ (hsb.tryQuery_eq hbuild) st.currentValues
      (List.nodup_range _) fun i (hi : i ∈ List.range omo.length) => by
        have := List.mem_range.1 hi
        exact ⟨by rw [List.length_append]; omega, by rw [h.length_cv]; exact this⟩
    refine ⟨cv', by rw [if_pos hupd, hrun], hlen.trans h.length_cv, fun i hi => ?_⟩
    have hgi := hget i
    rw [if_pos (List.mem_range.2 hi), List.getElem?_append_left hi,
      List.getElem?_eq_getElem hi, Option.map_some', Option.getD_some] at hgi
    rw [hgi]
    refine FromOutputs.or ((hold i hi).mono (by omega)) ?_
    have := fromOutputs_shiftLeft (show phaseOut rt (st.core ++ [core]) j omo[i].1 <
        2 ^ (bnd (setBits plan) (j + 1) - bnd (setBits plan) j) by
      rw [phaseOut_concat h.length_core]; exact hsb.queryHash_lt hbuild _)
    rw [phaseOut_concat h.length_core] at this
    exact this.mono (by omega)
  · -- any other phase: kept
    exact ⟨st.currentValues, by rw [if_neg hupd]; rfl, h.length_cv,
      fun i hi => (hold i hi).mono (by omega)⟩

/-- One round of the phase loop never panics; it stops only when the sub-build
gives up, and otherwise keeps `PhasesDone`. -/
theorem PhasesDone.step (hsb : sb.Sound rt) (hlay : PhaseLayout plan omo blocks cur)
    (hmax : options.maxTries < 2 ^ 64) {j : Nat} (hj : j < countOnes plan) {st : PhaseState}
    (h : PhasesDone sb rt options plan asg omo blocks j st) :
    ∃ r, phaseStep sb rt options (phaseBits plan) asg (omo ++ blocks.flatten) omo.length cur j st =
      .ok r ∧ (r = none → GivesUp sb options plan asg omo blocks j st) ∧
      ∀ st', r = some st' → PhasesDone sb rt options plan asg omo blocks (j + 1) st' := by
  rw [phaseStep_eq hlay hj h.length_core h.tries_le h.length_cv]
  cases hbuild : sb.build (phaseItems asg omo blocks st.currentValues j)
    (phaseOptionsAt options plan j (parentKey options st.core j) st.tries) with
  | none => exact ⟨none, rfl, fun _ => hbuild, fun _ h => by cases h⟩
  | some ct =>
    obtain ⟨core, t⟩ := ct
    have ht := hsb.tries_le hbuild
    have hmaxt : st.tries + t ≤ options.maxTries := by
      have := h.tries_le; simp only [phaseOptionsAt] at ht; omega
    obtain ⟨cv', hcv', hlen', hbits'⟩ := h.currentValues_next hsb hj hbuild
    refine ⟨some ⟨st.salt ++ [UInt8.ofNat t], st.core ++ [core], st.tries + t, cv'⟩, ?_,
      fun h => (by cases h), fun st' hst' => ?_⟩
    · simp only [usizeAdd_of_lt (show st.tries + t < 2 ^ 64 by omega), bind, Except.bind]
      by_cases hupd : asg.minPhaseAffectingOmo ≤ j ∧ j < asg.phaseOmo
      · rw [if_pos hupd] at hcv' ⊢; rw [hcv']; rfl
      · rw [if_neg hupd] at hcv' ⊢; cases hcv'; rfl
    cases hst'
    have hc := h.length_core
    have hs := h.length_salt
    refine ⟨by simp [hc], by simp [hs], le_add_right h.tryNum_le, hmaxt, hlen', hbits',
      fun j' hj' => ?_⟩
    rcases Nat.lt_succ_iff_lt_or_eq.1 hj' with hj' | rfl
    · -- an earlier phase: its call, read in the longer lists
      obtain ⟨cv, tries, t', core', hlen, hfrom, hcore, hsalt, hcall⟩ := h.call j' hj'
      refine ⟨cv, tries, t', core', hlen, fun i hi => (hfrom i hi).append (by omega) core,
        ?_, ?_, ?_⟩
      · rwa [List.getElem?_append_left (by omega)]
      · rwa [List.getElem?_append_left (by omega)]
      · rwa [parentKey_append _ (by omega)]
    · -- this phase: the call just made
      refine ⟨st.currentValues, st.tries, t, core, h.length_cv,
        fun i hi => (h.cv i hi).append (by omega) core, ?_, ?_, ?_⟩
      · simp [← hc]
      · simp [← hs]
      · rwa [parentKey_append _ (by omega)]

/-- The loop over phases `j..j + m` never panics: from `PhasesDone` after `j` phases it
either stops at a phase `j'` of the range whose sub-build, called from a state
with `PhasesDone` after `j'` phases, gives up, or reaches `PhasesDone` after
`j + m`. -/
theorem phaseLoop_done (hsb : sb.Sound rt) (hlay : PhaseLayout plan omo blocks cur)
    (hmax : options.maxTries < 2 ^ 64) :
    ∀ {m j : Nat} {st : PhaseState}, j + m ≤ countOnes plan →
      PhasesDone sb rt options plan asg omo blocks j st →
      ∃ r, phaseLoop sb rt options (phaseBits plan) asg (omo ++ blocks.flatten) omo.length cur
          (List.range' j m) st = .ok r ∧
        (r = none → ∃ j' st', j ≤ j' ∧ j' < j + m ∧
          PhasesDone sb rt options plan asg omo blocks j' st' ∧
          GivesUp sb options plan asg omo blocks j' st') ∧
        ∀ st', r = some st' → PhasesDone sb rt options plan asg omo blocks (j + m) st'
  | 0, _, st, _, h => ⟨some st, rfl, fun h => (by cases h), fun _ h' => by cases h'; exact h⟩
  | m + 1, j, st, hjm, h => by
    obtain ⟨r, hr, hnone, hsome⟩ := h.step hsb hlay hmax (show j < countOnes plan by omega)
    cases r with
    | none =>
      -- this phase gives up
      exact ⟨none, by simp only [List.range'_succ, phaseLoop, hr]; rfl,
        fun _ => ⟨j, st, le_rfl, by omega, h, hnone rfl⟩, fun _ h => (by cases h)⟩
    | some st₁ =>
      -- a later phase gives up, or the loop finishes
      obtain ⟨r', hr', hnone', hsome'⟩ := phaseLoop_done hsb hlay hmax (show j + 1 + m ≤ _ by omega)
        (hsome st₁ rfl)
      refine ⟨r', by simp only [List.range'_succ, phaseLoop, hr]; exact hr', fun hn => ?_, ?_⟩
      · obtain ⟨j', st', hj', hj'm, hd, hg⟩ := hnone' hn
        exact ⟨j', st', by omega, by omega, hd, hg⟩
      · rw [show j + (m + 1) = j + 1 + m by omega]
        exact hsome'

end FrayedCascade
