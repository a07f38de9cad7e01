import FrayedCascade.Plan

/-!
# `CompressedMap::build`

`build` runs in five stages:

- **counting**: the `counts` map from each value to its number of keys;
- **planning**: `formulate_plan` on the counts, in `HashMap` order, and the
  phase masks `phase_bits` of the plan;
- **assignment**: the loop over `interval_vec` that gives every value whose
  width is a power of two the phase that *resolves* it (the one holding the
  width's bit), and records the odd man out: its index, count, lower bound, the
  highest phase its width meets (`phase_omo`) and the lowest;
- **staging**: `values_by_phase`, the pairs `(k, L_hi(v))` laid out by phase:
  the odd man out's keys first, then the keys each phase resolves;
- **the phase loop**: one uniform sub-build per phase, on the keys its filter
  selects, with the bits of the phase as values. The keys of the odd man out
  join at `phase_omo` unless the bits they already got from the phases below
  (`current_values`) put them at or above `lo_omo`, and join every phase above.

The collection is a list of pairs iterated in a fixed order (both loops over
`map` see it in the same order). `HashMap` iteration order is a parameter
(`HashOrder`). `usize` additions are checked, as in a debug build. The
uniform sub-build and the sub-map's lookups are the parameters of `Map.lean`;
what `build` needs from them is `SubBuilder.Sound` (every key gets its bits)
and `SubBuilder.Fits` (the cores have the shape `borrow_decode` checks).
-/

namespace FrayedCascade

variable {K V : Type}

/-! ## Counting -/

/-- `*counts.entry(v).or_insert(0) += 1`, with the entries in insertion order. -/
def bumpCount [DecidableEq V] (v : V) : List (V × Nat) → Except Fault (List (V × Nat))
  | [] => pure [(v, 1)]
  | (u, c) :: rest =>
    if u = v then do pure ((u, ← usizeAdd c 1) :: rest)
    else do pure ((u, c) :: (← bumpCount v rest))

/-- The `counts` map of `build`, in insertion order. -/
def countValues [DecidableEq V] : List (K × V) → List (V × Nat) → Except Fault (List (V × Nat))
  | [], counts => pure counts
  | (_, v) :: rest, counts => do countValues rest (← bumpCount v counts)

/-- The order in which `HashMap::iter` yields a map's entries: some permutation
of them, which varies with the map's `RandomState`. -/
structure HashOrder (α : Type) where
  enum : List α → List α
  perm : ∀ l, (enum l).Perm l

/-! ## Assignment -/

def usizeMax : Nat := 2 ^ 64 - 1

/-- The loop variables of the assignment loop. `phase_to_resolve` holds `u8`s,
`u8::MAX` for the odd man out. -/
structure Assignment where
  loOmo : Locator
  oddManOut : Nat
  phaseOmo : Nat
  minPhaseAffectingOmo : Nat
  nOmo : Nat
  phaseToResolve : List Nat
  phaseItemCounts : List Nat
  deriving DecidableEq, Repr

/-- Before the loop: no odd man out, no phase, `nphases` empty phases. -/
def Assignment.init (nphases : Nat) : Assignment :=
  ⟨0, usizeMax, usizeMax, usizeMax, 0, [], List.replicate nphases 0⟩

/-- The odd man out's inner loop over the phases: `phase_omo` becomes the last
phase whose bits meet the width, `min_phase_affecting_omo` the least. -/
def omoPhases (width : Locator) : List Locator → Nat → Nat × Nat → Nat × Nat
  | [], _, acc => acc
  | bits :: rest, phase, (phaseOmo, minPhase) =>
    omoPhases width rest (phase + 1)
      (if bits &&& width ≠ 0 then (phase, min minPhase phase) else (phaseOmo, minPhase))

def assignAssertion : Fault := .panic "assertion failed: phase_to_resolve.len() == i+1"

/-- One round of the assignment loop, on `interval_vec[i] = (c, lo, hi)`. A
power-of-two width goes to the first phase whose bits meet it. -/
def assignStep (phaseBits : List Locator) (i : Nat) (st : Assignment)
    (interval : Nat × Locator × Locator) : Except Fault Assignment := do
  let (c, lo, hi) := interval
  let width := (← subU32 hi lo) + 1
  let st ← if width &&& (width - 1) ≠ 0 then
      let (phaseOmo, minPhase) :=
        omoPhases width phaseBits 0 (st.phaseOmo, st.minPhaseAffectingOmo)
      pure { st with
        oddManOut := i
        nOmo := c
        loOmo := lo
        phaseToResolve := st.phaseToResolve ++ [255]
        phaseOmo := phaseOmo
        minPhaseAffectingOmo := minPhase }
    else
      match phaseBits.findIdx? (fun bits => bits &&& width ≠ 0) with
      | some phase => do
        let n ← usizeAdd (← index st.phaseItemCounts phase) c
        pure { st with
          phaseToResolve := st.phaseToResolve ++ [phase % 256]
          phaseItemCounts := st.phaseItemCounts.set phase n }
      | none => pure st
  if st.phaseToResolve.length ≠ i + 1 then throw assignAssertion
  pure st

/-- The loop `for i in 0..interval_vec.len()`. -/
def assignLoop (phaseBits : List Locator) : Nat → Assignment → List (Nat × Locator × Locator) →
    Except Fault Assignment
  | _, st, [] => pure st
  | i, st, interval :: rest => do assignLoop phaseBits (i + 1) (← assignStep phaseBits i st interval) rest

/-- `phase_offsets`, and the `total` after the loop that computes them. -/
def offsetsLoop : List Nat → Nat → Except Fault (List Nat × Nat)
  | [], total => pure ([], total)
  | count :: rest, total => do
    let (offsets, total') ← offsetsLoop rest (← usizeAdd total count)
    pure (total :: offsets, total')

/-! ## Staging -/

/-- `values[i] = x` on a `Vec`: panics out of bounds. -/
def setIndex {α : Type} (l : List α) (i : Nat) (x : α) : Except Fault (List α) :=
  if i < l.length then .ok (l.set i x) else .error (.panic "index out of bounds")

@[simp] theorem setIndex_of_lt {α : Type} {l : List α} {i : Nat} (x : α) (h : i < l.length) :
    setIndex l i x = .ok (l.set i x) :=
  if_pos h

def noEntry : Fault := .panic "no entry found for key"

/-- The loop variables of the staging loop. -/
structure Staging (K : Type) where
  valuesByPhase : List (K × Locator)
  omoOffset : Nat
  phaseOffsetsCur : List Nat

/-- One round of the staging loop, on the pair `(k, v)`: the pair `(k, hi)` goes
to the next free slot of the odd man out or of the phase resolving `v`. -/
def stageStep [DecidableEq V] (valueMap : List (V × Nat))
    (intervalVec : List (Nat × Locator × Locator)) (asg : Assignment) (total : Nat)
    (st : Staging K) (kv : K × V) : Except Fault (Staging K) := do
  let (k, v) := kv
  let vec := if st.valuesByPhase.length = 0 then List.replicate total (k, 0) else st.valuesByPhase
  let vi ← okOr (valueMap.lookup v) noEntry
  let (_, _, hi) ← index intervalVec vi
  if vi = asg.oddManOut then do
    let vec ← setIndex vec st.omoOffset (k, hi)
    pure ⟨vec, ← usizeAdd st.omoOffset 1, st.phaseOffsetsCur⟩
  else do
    let ph ← index asg.phaseToResolve vi
    let pos ← index st.phaseOffsetsCur ph
    let vec ← setIndex vec pos (k, hi)
    pure ⟨vec, st.omoOffset, st.phaseOffsetsCur.set ph (← usizeAdd pos 1)⟩

/-- `map.into_iter().for_each(...)`. -/
def stageLoop [DecidableEq V] (valueMap : List (V × Nat))
    (intervalVec : List (Nat × Locator × Locator)) (asg : Assignment) (total : Nat) :
    List (K × V) → Staging K → Except Fault (Staging K)
  | [], st => pure st
  | kv :: rest, st => do
    stageLoop valueMap intervalVec asg total rest (← stageStep valueMap intervalVec asg total st kv)

/-! ## The phase loop -/

/-- The loop variables of the phase loop. -/
structure PhaseState where
  salt : List UInt8
  core : List MapCore
  tries : Nat
  currentValues : List Locator

def unwrapNone : Fault := .panic "called `Option::unwrap()` on a `None` value"

/-- Which indices of `values_by_phase` phase `phase`'s filter holds, given
`current_values` below `lo_omo` for the odd man out's keys (`below`):
`omo_offset..phase_offsets_cur[phase]`, and the odd man out's keys at
`phase_omo` (those in `below`) and above (all). -/
def phaseFilter (asg : Assignment) (omoOffset hiCur phase : Nat) (below : List Bool)
    (i : Nat) : Bool :=
  (decide (omoOffset ≤ i) && decide (i < hiCur)) ||
    (if phase = asg.phaseOmo then decide (i < omoOffset) && below.getD i false
     else decide (asg.phaseOmo < phase) && decide (i < omoOffset))

/-- The pairs of `phase_care` in phase `phase`: its filter is set to
`omo_offset..phase_offsets_cur[phase]`, plus at `phase_omo` the odd man out's keys
whose current value is below `lo_omo`, and above `phase_omo` all of them. -/
def phaseCare (asg : Assignment) (vec : List (K × Locator)) (omoOffset : Nat) (cur : List Nat)
    (currentValues : List Locator) (phase : Nat) : Except Fault (List (K × Locator)) := do
  let hiCur ← index cur phase
  let below ← if phase = asg.phaseOmo then
      (List.range omoOffset).mapM fun i => do pure (decide ((← index currentValues i) < asg.loOmo))
    else pure []
  ((List.range (max omoOffset hiCur)).filter (phaseFilter asg omoOffset hiCur phase below)).mapM
    (index vec)

/-- The loop `for i in 0..omo_offset` that ORs a phase's bits into
`current_values[i]`, with `phase_map.try_query(k).unwrap() << phase_shift`. -/
def currentValuesLoop (rt : Retrieval K) (core : MapCore) (vec : List (K × Locator))
    (phaseShift : Nat) : List Nat → List Locator → Except Fault (List Locator)
  | [], cv => pure cv
  | i :: rest, cv => do
    let (k, _) ← index vec i
    let bits ← shlU32 (← okOr (rt.tryQuery core k) unwrapNone) phaseShift
    let cv ← setIndex cv i ((← index cv i) ||| bits)
    currentValuesLoop rt core vec phaseShift rest cv

/-- One round of the phase loop. `none` is the sub-build giving up, which
`build` passes on with `?`. -/
def phaseStep (sb : SubBuilder K) (rt : Retrieval K) (options : BuildOptions)
    (phaseBits : List Locator) (asg : Assignment) (vec : List (K × Locator)) (omoOffset : Nat)
    (cur : List Nat) (phase : Nat) (st : PhaseState) : Except Fault (Option PhaseState) := do
  let bitsThisPhase ← index phaseBits phase
  let phaseShift := trailingZeros bitsThisPhase
  let phaseNbits := countOnes bitsThisPhase
  let parentKey ← if phase = 0 then pure options.keyGen else do
    pure (some (← index st.core (phase - 1)).hashKey)
  let phaseOptions : BuildOptions :=
    { maxTries := min (← checkedSub options.maxTries st.tries) 255
      tryNum := 0
      keyGen := parentKey
      bitsPerValue := some (phaseNbits % 256)
      shift := phaseShift % 256
      maxThreads := options.maxThreads }
  let items ← phaseCare asg vec omoOffset cur st.currentValues phase
  match sb.build items phaseOptions with
  | none => pure none
  | some (core, tryNum) => do
    let tries ← usizeAdd st.tries tryNum
    let cv ← if asg.minPhaseAffectingOmo ≤ phase ∧ phase < asg.phaseOmo then
        currentValuesLoop rt core vec phaseShift (List.range omoOffset) st.currentValues
      else pure st.currentValues
    pure (some ⟨st.salt ++ [UInt8.ofNat tryNum], st.core ++ [core], tries, cv⟩)

/-- The loop `for phase in 0..nphases`. -/
def phaseLoop (sb : SubBuilder K) (rt : Retrieval K) (options : BuildOptions)
    (phaseBits : List Locator) (asg : Assignment) (vec : List (K × Locator)) (omoOffset : Nat)
    (cur : List Nat) : List Nat → PhaseState → Except Fault (Option PhaseState)
  | [], st => pure (some st)
  | phase :: rest, st => do
    match ← phaseStep sb rt options phaseBits asg vec omoOffset cur phase st with
    | none => pure none
    | some st => phaseLoop sb rt options phaseBits asg vec omoOffset cur rest st

/-- `v[lo..hi].to_vec()`. -/
def slice {α : Type} (l : List α) (lo hi : Nat) : Except Fault (List α) :=
  if hi < lo then .error (.panic s!"slice index starts at {lo} but ends at {hi}")
  else if l.length < hi then .error (.panic "range end index out of range for slice")
  else .ok ((l.drop lo).take (hi - lo))

@[simp] theorem slice_of_le {α : Type} {l : List α} {lo hi : Nat} (hlo : lo ≤ hi)
    (hhi : hi ≤ l.length) : slice l lo hi = .ok ((l.drop lo).take (hi - lo)) := by
  rw [slice, if_neg (by omega), if_neg (by omega)]

/-! ## `build` -/

/-- `CompressedMap::build`: `none` for an empty collection or when a sub-build
gives up; with the map, the options with `try_num` advanced by the tries the
sub-builds used. -/
def build [LinearOrder V] (ord : HashOrder (V × Nat)) (sb : SubBuilder K) (rt : Retrieval K)
    (map : List (K × V)) (options : BuildOptions) :
    Except Fault (Option (CompressedMap V) × BuildOptions) := do
  let counts := ord.enum (← countValues map [])
  match counts with
  | [] => pure (none, options)
  | [(v, _)] => pure (some ⟨0, [(0, v)], [], []⟩, options)
  | _ :: _ :: _ =>
  let r ← formulatePlan counts
  let nphases := countOnes r.plan
  let phaseBits := phaseBits r.plan
  let asg ← assignLoop phaseBits 0 (.init nphases) r.intervalVec
  let (phaseOffsets, total) ← offsetsLoop asg.phaseItemCounts asg.nOmo
  let staged ← stageLoop r.valueMap r.intervalVec asg total map ⟨[], 0, phaseOffsets⟩
  match ← phaseLoop sb rt options phaseBits asg staged.valuesByPhase staged.omoOffset
      staged.phaseOffsetsCur (List.range nphases)
      ⟨[], [], options.tryNum, List.replicate asg.nOmo 0⟩ with
  | none => pure (none, options)
  | some st =>
    pure (some ⟨r.plan, r.responseMap, ← slice st.salt 1 nphases, st.core⟩,
      { options with tryNum := st.tries })

end FrayedCascade
