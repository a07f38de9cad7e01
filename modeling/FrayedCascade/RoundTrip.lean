import FrayedCascade.Locate

/-!
# Build, then query; build, then encode

`build` followed by `query` is the identity on the collection: for every
sub-builder that meets its retrieval contract, `query` on the map `build` returns
answers every pair `(k, v)` of the collection with `v` (`build_query_eq`), and
every other key with one of the collection's values (`build_query_mem`).

`build_run` assembles the stages proved elsewhere: the counting loop
(`countValues_tally`), `formulate_plan` (`formulatePlan_ok`), the assignment loop
(`assignLoop_formulated`), the staging loop (`stageLoop_layout`) and the phase
loop (`phaseLoop_done`), and says what `build` returns; `build_some_cases` names
the two shapes of a built map. `query_of_phasesDone` then reads every pair back.
The same run shows what `build` never does (`build_outcome`): it adds no failure
of its own to `formulate_plan`'s, it returns `None` only for an empty collection
or a sub-build that gives up, and the tries it reports stay within `max_tries`.

A key with two values gets no map (`build_conflict`), and staging writes every
pair once (`build_staging`); with it, each phase's filter selects the pairs its
value resolves by then (`build_stages`).

Past `2^32` pairs a value's share can fall below `2^-32`, and `formulate_plan`'s
minimum width breaks the tiling: on `skewedMap` `build` panics whatever order
the counts come in (`build_skewedMap`), and on `wrappedMap` it returns a map whose
table wraps around, which `encode` then panics on (`build_encode_wrappedMap`).

When the sub-builder also meets its layout contract, every built map is
`WellFormed` (`build_wellFormed`), so it goes through the byte format: `encode`
succeeds and `borrow_decode` and `read_from_file` read it back
(`build_encode_decode`). `read_from_file` accepts those bytes and nothing around
them (`readFromFile_exact`), and every map `borrow_decode` accepts answers every
key with a value of its table (`borrowDecode_query_mem`).
-/

namespace FrayedCascade

variable {K V : Type}

/-! ## After staging -/

section Layout

variable [LinearOrder V] {l : List (Item V)} {map : List (K × V)} {asg : Assignment}

theorem StageSetup.length_omoPairs (h : StageSetup l map asg) :
    (omoPairs l map).length = asg.nOmo := by
  rw [omoPairs, List.length_map, h.nOmo_eq]

theorem StageSetup.map_length_phaseBlocks (h : StageSetup l map asg) :
    (phaseBlocks l map).map List.length = asg.phaseItemCounts := by
  rw [h.phaseItemCounts_eq, phaseBlocks, List.map_map]
  simp [Function.comp_def]

/-- The blocks staging fills hold every pair of the collection once. -/
theorem StageSetup.staged_perm (h : StageSetup l map asg) :
    (omoPairs l map ++ (phaseBlocks l map).flatten).Perm (map.map (stageTarget l)) := by
  have hp : ((stageBlocks (countOnes (formulated l).plan)).flatMap fun b =>
      (map.filter (stageClass l · = b)).map (stageTarget l)).Perm (map.map (stageTarget l)) :=
    flatMap_filter_perm (nodup_stageBlocks _) fun _ ha => h.stageClass_mem ha
  rwa [stageBlocks, List.flatMap_cons, List.flatMap, List.map_map] at hp

/-- The cursors staging leaves stand at the ends of the blocks. -/
theorem StageSetup.phaseLayout (h : StageSetup l map asg) :
    PhaseLayout (formulated l).plan (omoPairs l map) (phaseBlocks l map)
      (List.zipWith (· + ·) (starts asg.nOmo asg.phaseItemCounts) asg.phaseItemCounts) := by
  have hlen : asg.phaseItemCounts.length = countOnes (formulated l).plan := by
    rw [h.phaseItemCounts_eq, List.length_map, List.length_range]
  refine ⟨by simp [phaseBlocks], by simp [hlen], fun j hj => ?_⟩
  have hj' : j < asg.phaseItemCounts.length := hlen ▸ hj
  rw [List.getD_eq_getElem _ _ (by simpa [hlen] using hj), List.getElem_zipWith, getElem_starts,
    h.length_omoPairs, List.length_flatten, List.map_take, h.map_length_phaseBlocks,
    List.sum_take_succ _ _ hj', Nat.add_assoc]

/-- Block `j` of a list of blocks, read off their concatenation. -/
theorem take_drop_flatten {α : Type} (xs : List (List α)) {j : Nat} (hj : j < xs.length) :
    (xs.flatten.drop (xs.take j).flatten.length).take xs[j].length = xs[j] := by
  have hsplit : xs.flatten = (xs.take j).flatten ++ (xs[j] ++ (xs.drop (j + 1)).flatten) := by
    rw [← List.flatten_cons, ← List.drop_eq_getElem_cons hj, ← List.flatten_append,
      List.take_append_drop]
  rw [hsplit, List.drop_left, List.take_left]

/-- The blocks of the phases up to `j` hold the pairs whose value resolves in a
phase up to `j`. -/
theorem take_phaseBlocks_perm {j : Nat} (hj : j < countOnes (formulated l).plan) :
    ((phaseBlocks l map).take (j + 1)).flatten.Perm
      ((map.filter fun kv => (stageClass l kv).any (· ≤ j)).map (stageTarget l)) := by
  have hall : ∀ kv ∈ map.filter (fun kv => (stageClass l kv).any (· ≤ j)),
      stageClass l kv ∈ (List.range (j + 1)).map some := fun kv hkv => by
    have hk := (List.mem_filter.1 hkv).2
    cases hc : stageClass l kv with
    | none => simp [hc] at hk
    | some i => simp only [hc, Option.any_some, decide_eq_true_eq] at hk; simp; omega
  refine List.Perm.trans (List.Perm.of_eq ?_) (@flatMap_filter_perm _ _ _ _ (stageClass l)
    (stageTarget l) _ ((List.nodup_range (j + 1)).map (Option.some_injective _)) _ hall)
  rw [phaseBlocks, ← List.map_take, List.take_range, Nat.min_eq_left (by omega)]
  simp only [List.flatMap, List.map_map, List.filter_filter]
  refine congrArg _ (List.map_congr_left fun i hi => congrArg _ (List.filter_congr fun kv _ => ?_))
  by_cases hc : stageClass l kv = some i <;> simp [hc, Nat.lt_succ_iff.1 (List.mem_range.1 hi)]

end Layout

/-! ## A run of `build` -/

section Run

variable [LinearOrder V] {ord : HashOrder (V × Nat)} {sb : SubBuilder K} {rt : Retrieval K}
  {options : BuildOptions} {l : List (Item V)} {map : List (K × V)}

/-- The assignment, the offsets and the staging of `build` on the table of the
items `l`: each succeeds, and staging lays the pairs out in blocks, the odd man
out's first, with the cursors at the blocks' ends. -/
theorem stage_run (hlen : map.length < 2 ^ 64) (hT : Tally (map.map Prod.snd) (l.map keyCount))
    (hfits : PlanFits 0 l) (hodd : (l.map widthOf).countP (fun w => ¬ IsPow2 w) ≤ 1)
    (hne : map ≠ []) :
    ∃ asg, StageSetup l map asg ∧
      assignLoop (phaseBits (formulated l).plan) 0 (.init (countOnes (formulated l).plan))
        (formulated l).intervalVec = .ok asg ∧
      offsetsLoop asg.phaseItemCounts asg.nOmo =
        .ok (starts asg.nOmo asg.phaseItemCounts, map.length) ∧
      ∃ stg, stageLoop (formulated l).valueMap (formulated l).intervalVec asg map.length map
          ⟨[], 0, starts asg.nOmo asg.phaseItemCounts⟩ = .ok stg ∧
        stg.valuesByPhase = omoPairs l map ++ (phaseBlocks l map).flatten ∧
        stg.omoOffset = asg.nOmo ∧
        stg.phaseOffsetsCur = List.zipWith (· + ·) (starts asg.nOmo asg.phaseItemCounts)
          asg.phaseItemCounts := by
  have hsum : (l.map (·.2.2)).sum < 2 ^ 64 := by
    rw [show (l.map (·.2.2)).sum = map.length by
      simpa [List.map_map, Function.comp_def, keyCount] using hT.sum_eq]
    exact hlen
  obtain ⟨asg, hasg, hA⟩ := assignLoop_formulated hfits hodd hsum
  have h : StageSetup l map asg := ⟨hT, hlen, hodd, hA⟩
  obtain ⟨stg, hstg, hvec, homo, hcur⟩ := stageLoop_layout h hne
  have htotal := h.total_eq
  rw [htotal] at hstg
  refine ⟨asg, h, hasg, ?_, stg, hstg, hvec, homo, hcur⟩
  rw [← htotal]; exact offsetsLoop_eq _ _ (by rw [htotal]; exact hlen)

/-- `build` on a collection of two or more values, once `formulate_plan` has
returned the table of the items `l`: the assignment and the staging succeed, and
the phase loop either stops on a sub-build that gives up, and `build` returns
`None` with the options unchanged, or finishes every phase, and `build` returns
the cores with the table and reports the tries. -/
theorem build_run (hsb : sb.Sound rt) (htries : options.tryNum ≤ options.maxTries)
    (hmax : options.maxTries < 2 ^ 64) (hlen : map.length < 2 ^ 64) {counts : List (V × Nat)}
    (hc : countValues map [] = .ok counts) (h2 : 2 ≤ counts.length)
    (hf : formulatePlan (ord.enum counts) = .ok (formulated l))
    (hT : Tally (map.map Prod.snd) (l.map keyCount)) (hfits : PlanFits 0 l)
    (hodd : (l.map widthOf).countP (fun w => ¬ IsPow2 w) ≤ 1) :
    ∃ asg, StageSetup l map asg ∧
      assignLoop (phaseBits (formulated l).plan) 0 (.init (countOnes (formulated l).plan))
        (formulated l).intervalVec = .ok asg ∧ ∃ r, build ord sb rt map options = .ok r ∧
      (r.1 = none → r.2 = options ∧ ∃ j st, j < countOnes (formulated l).plan ∧
        PhasesDone sb rt options (formulated l).plan asg (omoPairs l map) (phaseBlocks l map) j st ∧
        GivesUp sb options (formulated l).plan asg (omoPairs l map) (phaseBlocks l map) j st) ∧
      ∀ m, r.1 = some m → ∃ st, PhasesDone sb rt options (formulated l).plan asg (omoPairs l map)
          (phaseBlocks l map) (countOnes (formulated l).plan) st ∧
        m = ⟨(formulated l).plan, (formulated l).responseMap,
          (st.salt.drop 1).take (countOnes (formulated l).plan - 1), st.core⟩ ∧
        r.2 = { options with tryNum := st.tries } := by
  have hne : map ≠ [] := by rintro rfl; cases hc; simp at h2
  obtain ⟨a, b, rest, hab⟩ : ∃ a b rest, ord.enum counts = a :: b :: rest := by
    have := (ord.perm counts).length_eq
    rcases hm : ord.enum counts with _ | ⟨a, _ | ⟨b, rest⟩⟩ <;> rw [hm] at this
    · simp at this; omega
    · simp at this; omega
    · exact ⟨a, b, rest, rfl⟩
  obtain ⟨asg, h, hasg, hoff, stg, hstg, hvec, homo, hcur⟩ := stage_run hlen hT hfits hodd hne
  -- the phase loop
  obtain ⟨r, hr, hnone, hsome⟩ := phaseLoop_done hsb (hcur ▸ h.phaseLayout) hmax
    (show 0 + countOnes (formulated l).plan ≤ countOnes (formulated l).plan by omega)
    (phasesDone_init htries : PhasesDone sb rt options (formulated l).plan asg (omoPairs l map)
      (phaseBlocks l map) 0 _)
  rw [h.length_omoPairs, ← List.range_eq_range'] at hr
  have hrun : phaseLoop sb rt options (phaseBits (formulated l).plan) asg stg.valuesByPhase
      stg.omoOffset stg.phaseOffsetsCur (List.range (countOnes (formulated l).plan))
      ⟨[], [], options.tryNum, List.replicate asg.nOmo 0⟩ = .ok r := by
    rw [hvec, homo]; exact hr
  have hf' : formulatePlan (a :: b :: rest) = .ok (formulated l) := hab ▸ hf
  refine ⟨asg, h, hasg, ?_⟩
  cases r with
  | none =>
    obtain ⟨j, st, -, hj, hd, hg⟩ := hnone rfl
    refine ⟨(none, options), ?_, fun _ => ⟨rfl, j, st, by omega, hd, hg⟩, fun _ h => by cases h⟩
    simp only [build, hc, hab, bind, Except.bind, hf', hasg, hoff, hstg, hrun]; rfl
  | some st =>
    have hd := hsome st rfl
    rw [Nat.zero_add] at hd
    have hn : 1 ≤ countOnes (formulated l).plan := by
      obtain ⟨kv, hkv⟩ := List.exists_mem_of_ne_nil map hne
      obtain ⟨i, hi, -⟩ := h.exists_getElem hkv
      exact List.length_pos_of_mem (log2_mem_setBits_plan (List.getElem_mem hi))
    refine ⟨(some ⟨(formulated l).plan, (formulated l).responseMap,
      (st.salt.drop 1).take (countOnes (formulated l).plan - 1), st.core⟩,
      { options with tryNum := st.tries }), ?_, fun h => (by cases h),
      fun m hm => ⟨st, hd, (Option.some.inj hm).symm, rfl⟩⟩
    simp only [build, hc, hab, bind, Except.bind, hf', hasg, hoff, hstg, hrun,
      slice_of_le hn hd.length_salt.ge]
    rfl

end Run

/-! ## Every pair comes back -/

section RoundTrip

variable [LinearOrder V] {ord : HashOrder (V × Nat)} {sb : SubBuilder K} {rt : Retrieval K}
  {options : BuildOptions} {map : List (K × V)}

/-- The counting loop tallies the values of a collection of fewer than `2^64` pairs. -/
theorem countValues_ok (hlen : map.length < 2 ^ 64) :
    ∃ counts, countValues map [] = .ok counts ∧ Tally (map.map Prod.snd) counts := by
  simpa using countValues_tally map (⟨List.nodup_nil, by simp, by simp⟩ : Tally ([] : List V) [])
    (by simpa using hlen)

/-- A value holding at least `2^-32` of the pairs gets a count that does. -/
theorem Tally.share {vs : List V} {counts : List (V × Nat)} (h : Tally vs counts)
    (hshare : ∀ v ∈ vs, vs.length ≤ vs.count v * 2 ^ 32) :
    ∀ x ∈ counts, 0 < x.2 ∧ (counts.map Prod.snd).sum ≤ x.2 * 2 ^ 32 := fun x hx => by
  have hmem := (h.mem x.1).1 (List.mem_map_of_mem _ hx)
  rw [h.count x hx, h.sum_eq]
  exact ⟨List.count_pos_iff.2 hmem, hshare _ hmem⟩

/-- The two shapes of a map `build` returns: for a single value, the map with no
phases; for two or more, the table of items `l` whose widths tile the space, with
the cores of a finished phase loop over the staged pairs. -/
theorem build_some_cases (hsb : sb.Sound rt) (hlen : map.length < 2 ^ 64)
    (hshare : ∀ v ∈ map.map Prod.snd, map.length ≤ (map.map Prod.snd).count v * 2 ^ 32)
    (htries : options.tryNum ≤ options.maxTries) (hmax : options.maxTries < 2 ^ 64)
    {m : CompressedMap V} {options' : BuildOptions}
    (hb : build ord sb rt map options = .ok (some m, options')) :
    (∃ v, v ∈ map.map Prod.snd ∧ (∀ kv ∈ map, kv.2 = v) ∧ m = ⟨0, [(0, v)], [], []⟩) ∨
    ∃ l asg st, l.Sorted KeyLe ∧ (l.map widthOf).countP (fun w => ¬ IsPow2 w) ≤ 1 ∧
      (∀ x ∈ l, 1 ≤ widthOf x) ∧ (l.map widthOf).sum = 2 ^ 32 ∧ StageSetup l map asg ∧
      PhasesDone sb rt options (formulated l).plan asg (omoPairs l map) (phaseBlocks l map)
        (countOnes (formulated l).plan) st ∧
      m = ⟨(formulated l).plan, (formulated l).responseMap,
        (st.salt.drop 1).take (countOnes (formulated l).plan - 1), st.core⟩ := by
  obtain ⟨counts, hc, hT⟩ := countValues_ok hlen
  have hTe := hT.perm (ord.perm counts)
  rcases hm : ord.enum counts with _ | ⟨⟨v, c⟩, _ | ⟨b, rest⟩⟩
  · -- no values: no map
    simp only [build, hc, hm, bind, Except.bind] at hb
    cases hb
  · -- a single value: the map with no phases
    simp only [build, hc, hm, bind, Except.bind] at hb
    cases hb
    have hv : ∀ v', v' ∈ map.map Prod.snd ↔ v' = v := fun v' => by
      rw [← hTe.mem v', hm, List.map_singleton, List.mem_singleton]
    exact .inl ⟨v, (hv v).2 rfl, fun kv hkv => (hv _).1 (List.mem_map_of_mem _ hkv), rfl⟩
  · -- two or more values: the run of `build`
    have h2 : 2 ≤ counts.length := by
      have := (ord.perm counts).length_eq; rw [hm] at this; simp at this; omega
    cases hf : formulatePlan (ord.enum counts) with
    | error e =>
      rw [hm] at hf
      simp only [build, hc, hm, bind, Except.bind, hf] at hb
      cases hb
    | ok r =>
      obtain ⟨l, rfl, hkc, hs, hodd, hfits, htile⟩ :=
        formulatePlan_ok (by rw [hm]; simp) hf
      obtain ⟨hpos, hsum⟩ := htile (hTe.share (by simpa using hshare))
      obtain ⟨asg, h, -, r', hbuild, -, hsome⟩ :=
        build_run hsb htries hmax hlen hc h2 hf (hTe.perm hkc) hfits hodd
      rw [hb] at hbuild
      cases hbuild
      obtain ⟨st, hd, rfl, -⟩ := hsome m rfl
      exact .inr ⟨l, asg, st, hs, hodd, hpos, hsum, h, hd, rfl⟩

/-- `query` on the map `build` returns answers every pair of the collection with
its value: for every sub-builder that meets its retrieval contract, every
collection of fewer than `2^64` pairs in which each value holds at least `2^-32`
of the pairs (as every value does when there are at most `2^32` pairs), and
options with `try_num ≤ max_tries`. -/
theorem build_query_eq (hsb : sb.Sound rt) (hlen : map.length < 2 ^ 64)
    (hshare : ∀ v ∈ map.map Prod.snd, map.length ≤ (map.map Prod.snd).count v * 2 ^ 32)
    (htries : options.tryNum ≤ options.maxTries) (hmax : options.maxTries < 2 ^ 64)
    {m : CompressedMap V} {options' : BuildOptions}
    (hb : build ord sb rt map options = .ok (some m, options')) :
    ∀ kv ∈ map, query rt m kv.1 = .ok kv.2 := by
  intro kv hkv
  rcases build_some_cases hsb hlen hshare htries hmax hb with
    ⟨v, -, hv, rfl⟩ | ⟨l, asg, st, hs, hodd, hpos, hsum, h, hd, rfl⟩
  · rw [hv kv hkv]; rfl
  · exact query_of_phasesDone hsb hpos hsum h hd hs hodd _ hkv

/-- The order of a map that iterates in insertion order. -/
def insertionOrder (α : Type) : HashOrder α := ⟨id, List.Perm.refl⟩

/-- Options with room for ten tries. -/
def testOptions : BuildOptions := ⟨10, 0, none, none, 0, 1⟩

/-- Three keys of the value `7`, whose width `3·2^30` is the odd man out, and a key
of the value `8`, of width `2^30`. -/
def oddManOutMap : List (Nat × Nat) := [(0, 7), (1, 7), (2, 7), (3, 8)]

/-- What `build` makes of `oddManOutMap` with `tableBuilder`: two phases, the
first of which leaves the odd man out's current values below `lo_omo`, so the
second answers its keys with ones. -/
def oddManOutBuilt : CompressedMap Nat :=
  ⟨0xc0000000#32, [(0#32, 8), (0x40000000#32, 7)], [0],
    [⟨zeroKey, 1, 5, [0, 0, 0, 0, 0]⟩, ⟨zeroKey, 1, 5, [1, 1, 1, 0, 0]⟩]⟩

theorem build_query_eq_oddManOutMap :
    build (insertionOrder _) tableBuilder tableRetrieval oddManOutMap testOptions =
      .ok (some oddManOutBuilt, testOptions) ∧
      ∀ kv ∈ oddManOutMap, query tableRetrieval oddManOutBuilt kv.1 = .ok kv.2 := by
  have hb : build (insertionOrder _) tableBuilder tableRetrieval oddManOutMap testOptions =
      .ok (some oddManOutBuilt, testOptions) := by rfl
  exact ⟨hb, build_query_eq tableBuilder_sound (by decide) (by decide) (by decide) (by decide) hb⟩

/-- On a map `build` returns, `query` never panics: every key, of the collection
or not, is answered with one of the collection's values. -/
theorem build_query_mem (hsb : sb.Sound rt) (hlen : map.length < 2 ^ 64)
    (hshare : ∀ v ∈ map.map Prod.snd, map.length ≤ (map.map Prod.snd).count v * 2 ^ 32)
    (htries : options.tryNum ≤ options.maxTries) (hmax : options.maxTries < 2 ^ 64)
    {m : CompressedMap V} {options' : BuildOptions}
    (hb : build ord sb rt map options = .ok (some m, options')) (k : K) :
    ∃ v ∈ map.map Prod.snd, query rt m k = .ok v := by
  rcases build_some_cases hsb hlen hshare htries hmax hb with
    ⟨v, hv, -, rfl⟩ | ⟨l, asg, st, -, -, hpos, hsum, h, hd, rfl⟩
  · exact ⟨v, hv, rfl⟩
  · obtain ⟨v, hq, hans⟩ := hd.query_eq_answer hsb hpos hsum _ k
    have hmem := hans.mem
    rw [map_snd_responseMap, h.mem_iff] at hmem
    exact ⟨v, hmem, hq⟩

/-- A key outside `oddManOutMap` gets one of its values. -/
theorem build_query_mem_oddManOutMap :
    build (insertionOrder _) tableBuilder tableRetrieval oddManOutMap testOptions =
      .ok (some oddManOutBuilt, testOptions) ∧
      ∃ v ∈ oddManOutMap.map Prod.snd, query tableRetrieval oddManOutBuilt 9 = .ok v := by
  have hb : build (insertionOrder _) tableBuilder tableRetrieval oddManOutMap testOptions =
      .ok (some oddManOutBuilt, testOptions) := by rfl
  exact ⟨hb, build_query_mem tableBuilder_sound (by decide) (by decide) (by decide) (by decide)
    hb 9⟩

/-- `build` never returns a map for a collection in which one key has two
values: with a sub-builder that meets its contract it gives up instead, as the
source warns for collections with duplicate keys. -/
theorem build_conflict (hsb : sb.Sound rt) (hlen : map.length < 2 ^ 64)
    (hshare : ∀ v ∈ map.map Prod.snd, map.length ≤ (map.map Prod.snd).count v * 2 ^ 32)
    (htries : options.tryNum ≤ options.maxTries) (hmax : options.maxTries < 2 ^ 64)
    {k : K} {v₁ v₂ : V} (h₁ : (k, v₁) ∈ map) (h₂ : (k, v₂) ∈ map) (hne : v₁ ≠ v₂)
    {r : Option (CompressedMap V) × BuildOptions} (hb : build ord sb rt map options = .ok r) :
    r.1 = none := by
  obtain ⟨_ | m, o⟩ := r
  · rfl
  exfalso
  rcases build_some_cases hsb hlen hshare htries hmax hb with
    ⟨v, -, hv, -⟩ | ⟨l, asg, st, hs, hodd, hpos, hsum, h, hd, rfl⟩
  · exact hne ((hv _ h₁).trans (hv _ h₂).symm)
  · have hq := fun kv (hkv : kv ∈ map) => query_of_phasesDone hsb hpos hsum h hd hs hodd
      ((st.salt.drop 1).take (countOnes (formulated l).plan - 1)) hkv
    exact hne (Except.ok.inj ((hq _ h₁).symm.trans (hq _ h₂)))

/-- The key `0` with the values `7` and `8` gets no map: the table sub-builder
gives up. -/
theorem build_conflict_sameKey :
    build (insertionOrder _) tableBuilder tableRetrieval ([(0, 7), (0, 8)] : List (Nat × Nat))
      testOptions = .ok (none, testOptions) ∧
    ((none, testOptions) : Option (CompressedMap Nat) × BuildOptions).1 = none := by
  have hb : build (insertionOrder _) tableBuilder tableRetrieval ([(0, 7), (0, 8)] : List (Nat × Nat))
      testOptions = .ok (none, testOptions) := by rfl
  exact ⟨hb, build_conflict tableBuilder_sound (by decide) (by decide) (by decide) (by decide)
    (List.mem_cons_self (0, 7) _) (List.mem_cons_of_mem _ (List.mem_singleton_self (0, 8)))
    (by decide) hb⟩

/-- `2^33` pairs with the distinct keys `0, 1, …`, whose values have the counts
`skewedCounts`: `2^(32 - i)` pairs of the value `i` for each `i < 32`, then one
pair of `32` and one of `33`. -/
def skewedMap : List (Nat × Nat) :=
  (skewedCounts.flatMap fun x => List.replicate x.2 x.1).enum

/-- `build` panics on `skewedMap`, in whatever order `HashMap` yields its counts
and with every sub-builder and options: `formulate_plan` overflows before a phase
is solved. -/
theorem build_skewedMap (ord : HashOrder (Nat × Nat)) (sb : SubBuilder Nat)
    (rt : Retrieval Nat) (options : BuildOptions) :
    skewedMap.length = 2 ^ 33 ∧ (skewedMap.map Prod.fst).Nodup ∧
      build ord sb rt skewedMap options = .error addOverflow := by
  have hlen : skewedMap.length = 2 ^ 33 := by
    rw [skewedMap, List.enum_length, List.length_flatMap]
    simp only [Function.comp_def, List.length_replicate]
    decide
  obtain ⟨counts, hc, hT⟩ := countValues_ok (by rw [hlen]; norm_num : skewedMap.length < 2 ^ 64)
  rw [skewedMap, List.enum_map_snd] at hT
  have hp := (ord.perm counts).trans (hT.perm_of_flatMap (by decide) (by decide))
  obtain ⟨a, b, rest, hab⟩ : ∃ a b rest, ord.enum counts = a :: b :: rest := by
    rcases hm : ord.enum counts with _ | ⟨a, _ | ⟨b, rest⟩⟩ <;> rw [hm] at hp
    · exact absurd hp.length_eq (by decide)
    · exact absurd hp.length_eq (by rw [List.length_singleton]; decide)
    · exact ⟨a, b, rest, rfl⟩
  refine ⟨hlen, by rw [skewedMap, List.enum_map_fst]; exact List.nodup_range _, ?_⟩
  unfold build
  rw [hc]
  simp only [bind, Except.bind]
  rw [hab, formulatePlan_perm_skewedCounts (hab ▸ hp)]

/-- The stages before the phase loop, once `formulate_plan` has returned on the
counts of a collection of two or more values: the table is that of items `l`
carrying the counts, and assignment, offsets and staging succeed on it. -/
theorem stage_formulated (hlen : map.length < 2 ^ 64) {counts : List (V × Nat)}
    (hc : countValues map [] = .ok counts) (h2 : 2 ≤ counts.length) {r : Formulated V}
    (hf : formulatePlan (ord.enum counts) = .ok r) :
    ∃ l, r = formulated l ∧ (l.map keyCount).Perm (ord.enum counts) ∧ ∃ asg, StageSetup l map asg ∧
      assignLoop (phaseBits r.plan) 0 (.init (countOnes r.plan)) r.intervalVec = .ok asg ∧
      offsetsLoop asg.phaseItemCounts asg.nOmo =
        .ok (starts asg.nOmo asg.phaseItemCounts, map.length) ∧
      ∃ stg, stageLoop r.valueMap r.intervalVec asg map.length map
          ⟨[], 0, starts asg.nOmo asg.phaseItemCounts⟩ = .ok stg ∧
        stg.valuesByPhase = omoPairs l map ++ (phaseBlocks l map).flatten ∧
        stg.omoOffset = asg.nOmo ∧
        stg.phaseOffsetsCur = List.zipWith (· + ·) (starts asg.nOmo asg.phaseItemCounts)
          asg.phaseItemCounts := by
  obtain ⟨counts', hc', hT⟩ := countValues_ok hlen
  obtain rfl : counts = counts' := Except.ok.inj (hc.symm.trans hc')
  have hne : map ≠ [] := by rintro rfl; cases hc; simp at h2
  obtain ⟨l, rfl, hkc, -, hodd, hfits, -⟩ :=
    formulatePlan_ok (by rw [(ord.perm counts).length_eq]; exact h2) hf
  obtain ⟨asg, h, hasg, hoff, hst⟩ :=
    stage_run hlen ((hT.perm (ord.perm counts)).perm hkc) hfits hodd hne
  exact ⟨l, rfl, hkc, asg, h, hasg, hoff, hst⟩

/-- Staging in `build` writes every pair of the collection once: for a
collection of two or more values, `values_by_phase` ends as a permutation of the
pairs `(k, hi(v))`, laid out as the odd man out's block of `n_omo` pairs, then one
block of `phase_item_counts[j]` pairs per phase, each cursor at its block's end. -/
theorem build_staging (hlen : map.length < 2 ^ 64) {counts : List (V × Nat)}
    (hc : countValues map [] = .ok counts) (h2 : 2 ≤ counts.length) {r : Formulated V}
    (hf : formulatePlan (ord.enum counts) = .ok r) :
    ∃ l, r = formulated l ∧ ∃ asg,
      assignLoop (phaseBits r.plan) 0 (.init (countOnes r.plan)) r.intervalVec = .ok asg ∧
      offsetsLoop asg.phaseItemCounts asg.nOmo =
        .ok (starts asg.nOmo asg.phaseItemCounts, map.length) ∧
      ∃ stg, stageLoop r.valueMap r.intervalVec asg map.length map
          ⟨[], 0, starts asg.nOmo asg.phaseItemCounts⟩ = .ok stg ∧
        stg.valuesByPhase.Perm (map.map fun kv => (kv.1, hiOf r kv.2)) ∧
        stg.valuesByPhase = omoPairs l map ++ (phaseBlocks l map).flatten ∧
        (omoPairs l map).length = asg.nOmo ∧
        (phaseBlocks l map).map List.length = asg.phaseItemCounts ∧
        stg.omoOffset = asg.nOmo ∧
        stg.phaseOffsetsCur = List.zipWith (· + ·) (starts asg.nOmo asg.phaseItemCounts)
          asg.phaseItemCounts := by
  obtain ⟨l, rfl, -, asg, h, hasg, hoff, stg, hstg, hvec, homo, hcur⟩ :=
    stage_formulated hlen hc h2 hf
  refine ⟨l, rfl, asg, hasg, hoff, stg, hstg, ?_, hvec, h.length_omoPairs,
    h.map_length_phaseBlocks, homo, hcur⟩
  rw [hvec]; exact h.staged_perm

/-- What `formulate_plan` returns for `oddManOutMap`'s counts. -/
def oddManOutPlan : Formulated Nat :=
  ⟨0xc0000000#32, [(8, 0), (7, 1)], [(1, 0#32, 0x3fffffff#32), (3, 0x40000000#32, 0xffffffff#32)],
    [(0#32, 8), (0x40000000#32, 7)]⟩

/-- Staging `oddManOutMap` writes the three pairs of the odd man out `7` and the
pair of `8` once each. -/
theorem build_staging_oddManOutMap :
    oddManOutMap.length < 2 ^ 64 ∧ countValues oddManOutMap [] = .ok [(7, 3), (8, 1)] ∧
      2 ≤ [(7, 3), (8, 1)].length ∧
      formulatePlan ((insertionOrder _).enum [(7, 3), (8, 1)]) = .ok oddManOutPlan ∧
      ∃ l, oddManOutPlan = formulated l ∧ ∃ asg,
        assignLoop (phaseBits oddManOutPlan.plan) 0 (.init (countOnes oddManOutPlan.plan))
          oddManOutPlan.intervalVec = .ok asg ∧
        offsetsLoop asg.phaseItemCounts asg.nOmo =
          .ok (starts asg.nOmo asg.phaseItemCounts, oddManOutMap.length) ∧
        ∃ stg, stageLoop oddManOutPlan.valueMap oddManOutPlan.intervalVec asg oddManOutMap.length
            oddManOutMap ⟨[], 0, starts asg.nOmo asg.phaseItemCounts⟩ = .ok stg ∧
          stg.valuesByPhase.Perm (oddManOutMap.map fun kv => (kv.1, hiOf oddManOutPlan kv.2)) ∧
          stg.valuesByPhase = omoPairs l oddManOutMap ++ (phaseBlocks l oddManOutMap).flatten ∧
          (omoPairs l oddManOutMap).length = asg.nOmo ∧
          (phaseBlocks l oddManOutMap).map List.length = asg.phaseItemCounts ∧
          stg.omoOffset = asg.nOmo ∧
          stg.phaseOffsetsCur = List.zipWith (· + ·) (starts asg.nOmo asg.phaseItemCounts)
            asg.phaseItemCounts := by
  have hc : countValues oddManOutMap [] = .ok [(7, 3), (8, 1)] := by rfl
  have hf : formulatePlan ((insertionOrder _).enum [(7, 3), (8, 1)]) = .ok oddManOutPlan := by rfl
  exact ⟨by decide, hc, by decide, hf, build_staging (by decide) hc (by decide) hf⟩

/-- The stages of `build` before the phase loop, on a collection of two or more
values once `formulate_plan` has returned. The assignment gives every
power-of-two value a resolve phase, so `phase_to_resolve` gets one entry per value
and its assertion holds. Staging writes every pair once, at an index in range: the
odd man out's pairs fill `[0, n_omo)`, the pairs phase `j` resolves fill
`[phase_offsets[j], phase_offsets[j] + phase_item_counts[j])`, and the cursors end
at the blocks' ends. Phase `j`'s filter then selects the odd man out's pairs by
`omoSelected` (those below `lo_omo` at `phase_omo`, all of them after it) and the
pairs whose value resolves in a phase up to `j`. -/
theorem build_stages (hlen : map.length < 2 ^ 64) {counts : List (V × Nat)}
    (hc : countValues map [] = .ok counts) (h2 : 2 ≤ counts.length) {r : Formulated V}
    (hf : formulatePlan (ord.enum counts) = .ok r) :
    ∃ l, r = formulated l ∧ (l.map keyCount).Perm (ord.enum counts) ∧ ∃ asg,
      assignLoop (phaseBits r.plan) 0 (.init (countOnes r.plan)) r.intervalVec = .ok asg ∧
      asg.phaseToResolve = l.map (ptrOf (phaseBits r.plan)) ∧
      (∀ x ∈ l, IsPow2 (widthOf x) →
        ∃ j < countOnes r.plan, resolveOf (phaseBits r.plan) x = some j) ∧
      offsetsLoop asg.phaseItemCounts asg.nOmo =
        .ok (starts asg.nOmo asg.phaseItemCounts, map.length) ∧
      ∃ stg, stageLoop r.valueMap r.intervalVec asg map.length map
          ⟨[], 0, starts asg.nOmo asg.phaseItemCounts⟩ = .ok stg ∧
        stg.valuesByPhase.Perm (map.map fun kv => (kv.1, hiOf r kv.2)) ∧
        stg.valuesByPhase.take asg.nOmo = omoPairs l map ∧
        (∀ j < countOnes r.plan,
          (stg.valuesByPhase.drop ((starts asg.nOmo asg.phaseItemCounts).getD j 0)).take
            (asg.phaseItemCounts.getD j 0) = (map.filter (stageClass l · = some j)).map (stageTarget l)) ∧
        stg.omoOffset = asg.nOmo ∧
        stg.phaseOffsetsCur = List.zipWith (· + ·) (starts asg.nOmo asg.phaseItemCounts)
          asg.phaseItemCounts ∧
        ∀ j < countOnes r.plan, ∀ cv : List Locator, cv.length = asg.nOmo →
          phaseCare asg stg.valuesByPhase stg.omoOffset stg.phaseOffsetsCur cv j =
            .ok (omoSelected asg (omoPairs l map) cv j ++
              ((phaseBlocks l map).take (j + 1)).flatten) ∧
          ((phaseBlocks l map).take (j + 1)).flatten.Perm
            ((map.filter fun kv => (stageClass l kv).any (· ≤ j)).map (stageTarget l)) := by
  obtain ⟨l, rfl, hkc, asg, h, hasg, hoff, stg, hstg, hvec, homo, hcur⟩ :=
    stage_formulated hlen hc h2 hf
  have hlay := h.phaseLayout
  have hblen := h.map_length_phaseBlocks
  refine ⟨l, rfl, hkc, asg, hasg, h.assigned.ptr, fun x hx hp => ?_, hoff, stg, hstg,
    hvec ▸ h.staged_perm, ?_, fun j hj => ?_, homo, hcur,
    fun j hj cv hcv => ⟨?_, take_phaseBlocks_perm hj⟩⟩
  · obtain ⟨j, hj, hjn, -⟩ := resolveOf_formulated hx hp
    exact ⟨j, hjn, hj⟩
  · rw [hvec, ← h.length_omoPairs, List.take_left]
  · -- phase `j`'s block, at its offset
    have hjb : j < (phaseBlocks l map).length := by rw [hlay.length_blocks]; exact hj
    have hjc : j < asg.phaseItemCounts.length := by rw [← hblen, List.length_map]; exact hjb
    have hstart : (starts asg.nOmo asg.phaseItemCounts).getD j 0 =
        (omoPairs l map).length + ((phaseBlocks l map).take j).flatten.length := by
      rw [getD_starts hjc, h.length_omoPairs, List.length_flatten, List.map_take, hblen]
    have hcount : asg.phaseItemCounts.getD j 0 = (phaseBlocks l map)[j].length := by
      rw [List.getD_eq_getElem _ _ hjc]; simp only [← hblen, List.getElem_map]
    rw [hvec, hstart, hcount, List.drop_append, take_drop_flatten _ hjb]
    simp [phaseBlocks]
  · -- phase `j`'s filter
    have hp := phaseCare_blocks asg _ _ (by rw [hlay.length_cur]; exact hj) (hlay.getD_cur j hj)
      (by rw [hcv, h.length_omoPairs])
    rwa [h.length_omoPairs, ← hvec, ← hcur, ← homo] at hp

/-- The stages before the phases of `oddManOutMap`, whose odd man out is `7`. -/
theorem build_stages_oddManOutMap :
    oddManOutMap.length < 2 ^ 64 ∧ countValues oddManOutMap [] = .ok [(7, 3), (8, 1)] ∧
      2 ≤ [(7, 3), (8, 1)].length ∧
      formulatePlan ((insertionOrder _).enum [(7, 3), (8, 1)]) = .ok oddManOutPlan ∧
      ∃ l, oddManOutPlan = formulated l ∧
        (l.map keyCount).Perm ((insertionOrder _).enum [(7, 3), (8, 1)]) ∧ ∃ asg,
        assignLoop (phaseBits oddManOutPlan.plan) 0 (.init (countOnes oddManOutPlan.plan))
          oddManOutPlan.intervalVec = .ok asg ∧
        asg.phaseToResolve = l.map (ptrOf (phaseBits oddManOutPlan.plan)) ∧
        (∀ x ∈ l, IsPow2 (widthOf x) → ∃ j < countOnes oddManOutPlan.plan,
          resolveOf (phaseBits oddManOutPlan.plan) x = some j) ∧
        offsetsLoop asg.phaseItemCounts asg.nOmo =
          .ok (starts asg.nOmo asg.phaseItemCounts, oddManOutMap.length) ∧
        ∃ stg, stageLoop oddManOutPlan.valueMap oddManOutPlan.intervalVec asg
            oddManOutMap.length oddManOutMap ⟨[], 0, starts asg.nOmo asg.phaseItemCounts⟩ = .ok stg ∧
          stg.valuesByPhase.Perm (oddManOutMap.map fun kv => (kv.1, hiOf oddManOutPlan kv.2)) ∧
          stg.valuesByPhase.take asg.nOmo = omoPairs l oddManOutMap ∧
          (∀ j < countOnes oddManOutPlan.plan,
            (stg.valuesByPhase.drop ((starts asg.nOmo asg.phaseItemCounts).getD j 0)).take
              (asg.phaseItemCounts.getD j 0) =
                (oddManOutMap.filter (stageClass l · = some j)).map (stageTarget l)) ∧
          stg.omoOffset = asg.nOmo ∧
          stg.phaseOffsetsCur = List.zipWith (· + ·) (starts asg.nOmo asg.phaseItemCounts)
            asg.phaseItemCounts ∧
          ∀ j < countOnes oddManOutPlan.plan, ∀ cv : List Locator, cv.length = asg.nOmo →
            phaseCare asg stg.valuesByPhase stg.omoOffset stg.phaseOffsetsCur cv j =
              .ok (omoSelected asg (omoPairs l oddManOutMap) cv j ++
                ((phaseBlocks l oddManOutMap).take (j + 1)).flatten) ∧
            ((phaseBlocks l oddManOutMap).take (j + 1)).flatten.Perm
              ((oddManOutMap.filter fun kv => (stageClass l kv).any (· ≤ j)).map (stageTarget l)) := by
  have hc : countValues oddManOutMap [] = .ok [(7, 3), (8, 1)] := by rfl
  have hf : formulatePlan ((insertionOrder _).enum [(7, 3), (8, 1)]) = .ok oddManOutPlan := by rfl
  exact ⟨by decide, hc, by decide, hf, build_stages (by decide) hc (by decide) hf⟩

end RoundTrip

/-! ## A built map goes through the byte format -/

section Encode

variable {sb : SubBuilder K} {rt : Retrieval K} {u : Uniform} {options : BuildOptions}
  {plan : Plan} {asg : Assignment} {omo : List (K × Locator)} {blocks : List (List (K × Locator))}
  {st : PhaseState}

/-- Each core of the phase loop is the sub-build's answer for its phase, and the
salt byte beside it records that call's try. -/
theorem PhasesDone.core_built {j : Nat} (h : PhasesDone sb rt options plan asg omo blocks j st)
    {i : Nat} (hi : i < st.core.length) :
    ∃ items tries t, st.salt[i]? = some (UInt8.ofNat t) ∧
      sb.build items (phaseOptionsAt options plan i (parentKey options st.core i) tries) =
        some (st.core[i], t) := by
  obtain ⟨cv, tries, t, core, -, -, hcore, hsalt, hb⟩ := h.call i (h.length_core ▸ hi)
  rw [List.getElem?_eq_getElem hi, Option.some.injEq] at hcore
  exact ⟨_, tries, t, hsalt, hcore ▸ hb⟩

/-- A finished phase loop's cores are laid out as `encode` writes them, with the
salt `build` keeps (the bytes after the first phase's): each later hash key is
chosen from its parent's key and the try its salt byte records, a try below `256`. -/
theorem PhasesDone.coresFit (hsb : sb.Sound rt) (hfit : sb.Fits u)
    (h : PhasesDone sb rt options plan asg omo blocks (countOnes plan) st) :
    CoresFit u ((st.salt.drop 1).take (countOnes plan - 1)) 0 plan st.core := by
  have hmem : ∀ c ∈ st.core, ∃ items opts t, sb.build items opts = some (c, t) := fun c hc => by
    obtain ⟨i, hi, rfl⟩ := List.mem_iff_getElem.1 hc
    obtain ⟨items, tries, t, -, hb⟩ := h.core_built hi
    exact ⟨items, _, t, hb⟩
  refine ⟨h.length_core, fun j hj => ?_, fun c hc => ?_, fun c hc => ?_, fun c hc => ?_,
    fun j hj => ?_⟩
  · obtain ⟨items, tries, t, -, hb⟩ := h.core_built hj
    rw [hfit.bitsPerValue hb]; rfl
  · obtain ⟨items, opts, t, hb⟩ := hmem c hc; exact hfit.nblocks hb
  · obtain ⟨items, opts, t, hb⟩ := hmem c hc; exact hfit.blocks hb
  · obtain ⟨items, opts, t, hb⟩ := hmem c hc; exact hfit.blocks_lt hb
  · obtain ⟨items, tries, t, hsalt, hb⟩ := h.core_built hj
    have hn := h.length_core
    have hs := h.length_salt
    have ht : t < 256 := by
      have := hsb.tries_le hb; simp only [phaseOptionsAt] at this; omega
    have hsj : 0 + j < ((st.salt.drop 1).take (countOnes plan - 1)).length := by simp; omega
    have hbyte : ((st.salt.drop 1).take (countOnes plan - 1))[0 + j] = UInt8.ofNat t := by
      rw [← Option.some_inj, ← List.getElem?_eq_getElem hsj, ← hsalt, List.getElem?_take,
        if_pos (by omega), List.getElem?_drop, Nat.zero_add, Nat.add_comm]
    have hkey : parentKey options st.core (j + 1) = some st.core[j].hashKey := by
      simp [parentKey, List.getElem?_eq_getElem (show j < st.core.length by omega)]
    refine ⟨hsj, ?_⟩
    rw [hfit.hashKey hb, hbyte, UInt8.toNat_ofNat_of_lt (by simpa [UInt8.size] using ht)]
    simp only [phaseOptionsAt, hkey]

variable [LinearOrder V] {l : List (Item V)}

/-- Laid out in the canonical order, each lower bound of the table is the one
before plus a power of two: the steps `encode` writes as logs. -/
theorem chain_powStep_formulated (hs : l.Sorted KeyLe) (hpos : ∀ x ∈ l, 1 ≤ widthOf x)
    (hsum : (l.map widthOf).sum = 2 ^ 32)
    (hodd : (l.map widthOf).countP (fun w => ¬ IsPow2 w) ≤ 1) :
    (formulated l).responseMap.Chain' PowStep := by
  refine List.chain'_iff_get.2 fun i hi => ?_
  have hi' : i + 1 < l.length := by simp at hi; omega
  obtain ⟨k, hk⟩ : IsPow2 (widthOf l[i]) := by
    by_contra hnp
    have := succ_eq_length_of_not_pow2 hs hpos hodd (by omega) hnp
    omega
  refine ⟨k, ?_⟩
  simp only [List.get_eq_getElem]
  have hi0 : i < l.length := by omega
  rw [getElem_responseMap hi0 (by simpa using hi0), getElem_responseMap hi' (by simpa using hi'),
    toNat_start hpos hsum hi0, toNat_start hpos hsum hi', sum_take_succ_widthOf hi0, hk]

variable {ord : HashOrder (V × Nat)} {map : List (K × V)}

/-- Every map `build` returns is well-formed, under the conditions of its round
trip: the sub-builder meets both contracts, so its cores fit the layout. -/
theorem build_wellFormed (hsb : sb.Sound rt) (hfit : sb.Fits u) (hlen : map.length < 2 ^ 64)
    (hshare : ∀ v ∈ map.map Prod.snd, map.length ≤ (map.map Prod.snd).count v * 2 ^ 32)
    (htries : options.tryNum ≤ options.maxTries) (hmax : options.maxTries < 2 ^ 64)
    {m : CompressedMap V} {options' : BuildOptions}
    (hb : build ord sb rt map options = .ok (some m, options')) : WellFormed u m := by
  rcases build_some_cases hsb hlen hshare htries hmax hb with
    ⟨v, -, -, rfl⟩ | ⟨l, asg, st, hs, hodd, hpos, hsum, h, hd, rfl⟩
  · have h0 : countOnes 0 = 0 := by decide
    exact ⟨rfl, List.chain'_singleton _, by rw [h0]; rfl,
      ⟨h0.symm, fun _ hj => absurd hj (by simp), fun _ hc => absurd hc (by simp),
        fun _ hc => absurd hc (by simp), fun _ hc => absurd hc (by simp),
        fun _ hj => absurd hj (by simp)⟩⟩
  · have hn := hd.length_salt
    exact ⟨(ascending_formulated hpos hsum).head_zero, chain_powStep_formulated hs hpos hsum hodd,
      by simp only [List.length_take, List.length_drop, hn]; omega, hd.coresFit hsb hfit⟩

/-- A map `build` returns goes through the byte format: `encode` succeeds,
`borrow_decode` reads its bytes back as the map, and so does `read_from_file` on
the bytes `write_to_file` writes. -/
theorem build_encode_decode {b : Bincode V} (hbin : b.Lawful) (hsb : sb.Sound rt)
    (hfit : sb.Fits u) (hlen : map.length < 2 ^ 64)
    (hshare : ∀ v ∈ map.map Prod.snd, map.length ≤ (map.map Prod.snd).count v * 2 ^ 32)
    (htries : options.tryNum ≤ options.maxTries) (hmax : options.maxTries < 2 ^ 64)
    {m : CompressedMap V} {options' : BuildOptions}
    (hb : build ord sb rt map options = .ok (some m, options')) :
    ∃ bytes, encode b m = .ok bytes ∧ Reads (borrowDecode b u) bytes m ∧
      readFromFile b u bytes = .ok m := by
  have hm := build_wellFormed hsb hfit hlen hshare htries hmax hb
  obtain ⟨bytes, henc, hreads⟩ := reads_borrowDecode hbin u hm
  obtain ⟨bytes', henc', hfile⟩ := readFromFile_encode hbin u hm
  rw [henc, Except.ok.injEq] at henc'
  exact ⟨bytes, henc, hreads, henc' ▸ hfile⟩

/-- `oddManOutMap`'s map goes through the byte format of the one-byte layout. -/
theorem build_encode_decode_oddManOutMap :
    build (insertionOrder _) tableBuilder tableRetrieval oddManOutMap testOptions =
      .ok (some oddManOutBuilt, testOptions) ∧
    ∃ bytes, encode unaryBincode oddManOutBuilt = .ok bytes ∧
      Reads (borrowDecode unaryBincode byteUniform) bytes oddManOutBuilt ∧
      readFromFile unaryBincode byteUniform bytes = .ok oddManOutBuilt := by
  have hb : build (insertionOrder _) tableBuilder tableRetrieval oddManOutMap testOptions =
      .ok (some oddManOutBuilt, testOptions) := by rfl
  exact ⟨hb, build_encode_decode unaryBincode_lawful tableBuilder_sound tableBuilder_fits
    (by decide) (by decide) (by decide) (by decide) hb⟩

end Encode

/-! ## Past `2^32` keys the table wraps -/

/-- Every phase of the plan with all 32 bits set has one bit. -/
theorem bnd_allOnes : ∀ j < 32,
    bnd (setBits 0xffffffff#32) (j + 1) - bnd (setBits 0xffffffff#32) j = 1 := by
  decide

/-- `2^34` keys: counts `4, 8, …, 2^33` and four values with a single key each,
whose share is below `2^-32`. -/
def wrappedCounts : List (Nat × Nat) :=
  (List.range 32).map (fun i => (i, 2 ^ (i + 2))) ++ [(32, 1), (33, 1), (34, 1), (35, 1)]

/-- `2^34` pairs with the distinct keys `0, 1, …`, whose values have the counts
`wrappedCounts`. -/
def wrappedMap : List (Nat × Nat) :=
  (wrappedCounts.flatMap fun x => List.replicate x.2 x.1).enum

/-- The order of a map that yields its entries by value. -/
def valueOrder : HashOrder (Nat × Nat) :=
  ⟨fun l => l.insertionSort fun a b => a.1 ≤ b.1, fun l => List.perm_insertionSort _ l⟩

/-- Sorted by value, the counts come out in the one order that is strictly
ascending. -/
theorem valueOrder_enum {p q : List (Nat × Nat)} (hp : p.Perm q)
    (hq : q.Sorted fun a b => a.1 < b.1) : valueOrder.enum p = q := by
  let r := fun a b : Nat × Nat => a.1 ≤ b.1
  haveI : IsTotal (Nat × Nat) r := ⟨fun a b => le_total a.1 b.1⟩
  haveI : IsTrans (Nat × Nat) r := ⟨fun _ _ _ => le_trans⟩
  haveI : IsAntisymm (Nat × Nat) fun a b => a.1 < b.1 :=
    ⟨fun _ _ h₁ h₂ => absurd (h₁.trans h₂) (lt_irrefl _)⟩
  have hps := (List.perm_insertionSort r p).trans hp
  have hnd : ((p.insertionSort r).map Prod.fst).Nodup :=
    (hps.map Prod.fst).nodup_iff.2 (List.pairwise_map.2 (hq.imp ne_of_lt))
  exact List.eq_of_perm_of_sorted hps (((List.sorted_insertionSort r p).and
    (List.pairwise_map.1 hnd)).imp fun h => lt_of_le_of_ne h.1 h.2) hq

set_option maxRecDepth 4000 in
/-- Past `2^32` keys a built map need not encode. On `wrappedMap` the four
single-key values get the minimum width `1`, the widths add up to `2^32 + 3`, and
the table `formulate_plan` lays out runs past `2^32 - 1` and wraps around to `0`.
`build` with the table sub-builder, which meets both of its contracts, still
returns a map, and `encode` panics on it when it subtracts a lower bound from the
smaller one that follows. -/
theorem build_encode_wrappedMap :
    wrappedMap.length = 2 ^ 34 ∧ (wrappedMap.map Prod.fst).Nodup ∧
      tableBuilder.Sound tableRetrieval ∧ tableBuilder.Fits byteUniform ∧ unaryBincode.Lawful ∧
      ∃ m o, build valueOrder tableBuilder tableRetrieval wrappedMap testOptions = .ok (some m, o) ∧
        ∀ b : Bincode Nat, encode b m = .error subOverflow := by
  have hlen : wrappedMap.length = 2 ^ 34 := by
    rw [wrappedMap, List.enum_length, List.length_flatMap]
    simp only [Function.comp_def, List.length_replicate]
    decide
  have hkeys : wrappedMap.map Prod.fst = List.range (2 ^ 34) := by
    rw [← hlen, wrappedMap, List.enum_map_fst, List.enum_length]
  obtain ⟨counts, hc, hT⟩ := countValues_ok (by rw [hlen]; norm_num : wrappedMap.length < 2 ^ 64)
  have hperm : counts.Perm wrappedCounts := by
    have h := hT
    rw [wrappedMap, List.enum_map_snd] at h
    exact h.perm_of_flatMap (by decide) (by decide)
  have hord : valueOrder.enum counts = wrappedCounts := valueOrder_enum hperm (by decide)
  -- the table, and the encoder's first step on it
  have hrun : (formulatePlan wrappedCounts).map (fun r => (r.plan, logResponses r.responseMap)) =
      .ok (0xffffffff#32, .error subOverflow) := by rfl
  cases hf : formulatePlan wrappedCounts with
  | error e => rw [hf] at hrun; cases hrun
  | ok r =>
  simp only [hf, Except.map, Except.ok.injEq, Prod.mk.injEq] at hrun
  obtain ⟨hplan, hlog⟩ := hrun
  rw [← hord] at hf
  obtain ⟨l, rfl, hkc, -, hodd, hfits, -⟩ := formulatePlan_ok (by rw [hord]; decide) hf
  obtain ⟨asg, h, -, r', hbuild, hnone, hsome⟩ := build_run tableBuilder_sound
    (by decide : testOptions.tryNum ≤ testOptions.maxTries)
    (by decide : testOptions.maxTries < 2 ^ 64) (by rw [hlen]; norm_num) hc (by rw [hperm.length_eq]; decide) hf
    ((hT.perm (valueOrder.perm counts)).perm hkc) hfits hodd
  have hkeys' : ((omoPairs l wrappedMap ++ (phaseBlocks l wrappedMap).flatten).map Prod.fst).Perm
      (List.range (2 ^ 34)) := by
    rw [← hkeys]; exact (h.staged_perm.map Prod.fst).trans (by rw [List.map_map]; rfl)
  cases hr : r'.1 with
  | none =>
    obtain ⟨-, j, st, hj, -, hg⟩ := hnone hr
    have hsub := phaseItems_sublist asg (omoPairs l wrappedMap) (phaseBlocks l wrappedMap)
      st.currentValues j
    have hnd := (hkeys'.nodup_iff.2 (List.nodup_range _)).sublist (hsub.map Prod.fst)
    have hM := foldr_max_lt (by norm_num : 0 < 2 ^ 34) fun x hx =>
      List.mem_range.1 (hkeys'.mem_iff.1 ((hsub.map Prod.fst).subset hx))
    have hw : bnd (setBits (formulated l).plan) (j + 1) - bnd (setBits (formulated l).plan) j = 1 := by
      rw [hplan] at hj ⊢; exact bnd_allOnes j hj
    rw [GivesUp, tableBuilder_build_of_nodup hnd (by simp [phaseOptionsAt, hw])
      (by simp [phaseOptionsAt, hw]) (by simp only [phaseOptionsAt, hw, Option.getD_some]; omega)] at hg
    cases hg
  | some m =>
    obtain ⟨st, -, hm, -⟩ := hsome m hr
    have hne : 1 ≤ (formulated l).responseMap.length := by
      cases hrm : (formulated l).responseMap with
      | nil => rw [hrm] at hlog; cases hlog
      | cons => simp
    refine ⟨hlen, by rw [hkeys]; exact List.nodup_range _, tableBuilder_sound, tableBuilder_fits,
      unaryBincode_lawful, m, r'.2, by rw [hbuild, ← hr], fun b => ?_⟩
    rw [hm]
    simp only [encode, hne, hlog, not_true_eq_false, if_false]
    rfl

/-! ## A decoded map answers every key -/

section Decode

/-- A table starting at `0` whose lower bounds rise by a power of two at each
step is ascending. -/
theorem WellFormed.ascending {u : Uniform} {m : CompressedMap V} (hm : WellFormed u m) :
    Ascending m.responseMap := by
  have hc : (m.responseMap.map (·.1.toNat)).Chain' (· < ·) :=
    (List.chain'_map _).2 (hm.steps.imp fun _ _ ⟨k, hk⟩ => by
      rw [hk]; exact Nat.lt_add_of_pos_right (Nat.two_pow_pos k))
  exact ⟨hm.head_zero, List.pairwise_map.1 (List.chain'_iff_pairwise.1 hc)⟩

theorem wellFormed_of_borrowDecode {b : Bincode V} (hb : b.Consumes) (u : Uniform)
    {bytes : List UInt8} (hlen : bytes.length < 2 ^ 63) {m : CompressedMap V} {rest : List UInt8}
    (hd : (borrowDecode b u).run bytes = .ok (m, rest)) : WellFormed u m := by
  obtain ⟨e, he⟩ | ⟨m', rest', h', -, hm⟩ := safe_borrowDecode hb u hlen bytes le_rfl
  · rw [hd] at he; cases he
  obtain ⟨rfl, -⟩ := Prod.mk.inj (Except.ok.inj (hd.symm.trans h'))
  exact hm

/-- A map `borrow_decode` reads from fewer than `2^63` bytes answers every key,
with no panic, with one of the values of its table, whatever its cores' lookups
return within their `bits_per_value`. -/
theorem borrowDecode_query_mem {b : Bincode V} (hb : b.Consumes) (u : Uniform) (rt : Retrieval K)
    (hq : ∀ c k, rt.queryHash c k < 2 ^ c.bitsPerValue) {bytes : List UInt8}
    (hlen : bytes.length < 2 ^ 63) {m : CompressedMap V} {rest : List UInt8}
    (hd : (borrowDecode b u).run bytes = .ok (m, rest)) (k : K) :
    ∃ v ∈ m.responseMap.map Prod.snd, query rt m k = .ok v := by
  have hm := wellFormed_of_borrowDecode hb u hlen hd
  by_cases hplan : m.plan = 0
  · -- no phases: the first response
    obtain ⟨a, rm, hr⟩ := List.exists_cons_of_ne_nil hm.ascending.ne_nil
    refine ⟨a.2, by simp [hr], ?_⟩
    simp [query, hplan, hr, index, bind, Except.bind, pure, Except.pure]
  · -- the table's answer at the assembled locator
    have hout : ∀ j (hj : j < m.core.length), rt.queryHash m.core[j] k <
        2 ^ (bnd (setBits m.plan) (j + 1) - bnd (setBits m.plan) j) := fun j hj => by
      rw [← hm.cores.bitsPerValue j hj]; exact hq _ k
    have hos : ∀ j < (m.core.map (rt.queryHash · k)).length, (m.core.map (rt.queryHash · k)).getD j 0 <
        2 ^ (bnd (setBits m.plan) (j + 1) - bnd (setBits m.plan) j) := fun j hj => by
      rw [List.length_map] at hj; rw [getD_map_core rt k hj]; exact hout j hj
    obtain ⟨-, hA⟩ := assembled_chunkSum (bitList_setBits m.plan)
      (by rw [List.length_map]; exact hm.cores.length) hos
    obtain ⟨v, hqv, hans⟩ := query_answers rt m k hplan hm.cores.length hm.ascending hA hout
    exact ⟨v, hans.mem, hqv⟩

/-- `onePhaseBytes` decode, and every key gets `5` or `6`. -/
theorem borrowDecode_query_mem_onePhase :
    (∀ c k, tableRetrieval.queryHash c k < 2 ^ c.bitsPerValue) ∧ onePhaseBytes.length < 2 ^ 63 ∧
      (borrowDecode unaryBincode byteUniform).run onePhaseBytes = .ok (onePhaseMap, []) ∧
      ∃ v ∈ onePhaseMap.responseMap.map Prod.snd, query tableRetrieval onePhaseMap 3 = .ok v := by
  have hq : ∀ c k, tableRetrieval.queryHash c k < 2 ^ c.bitsPerValue := fun _ _ => Nat.mod_lt _ (by positivity)
  have hd : (borrowDecode unaryBincode byteUniform).run onePhaseBytes = .ok (onePhaseMap, []) := by rfl
  exact ⟨hq, by decide, hd,
    borrowDecode_query_mem unaryBincode_consumes byteUniform tableRetrieval hq (by decide) hd 3⟩

/-- `read_from_file` accepts the encoding of a well-formed map and nothing
around it: it returns the map on the bytes `write_to_file` writes, fails on each
strict prefix of them, and refuses them with bytes appended. -/
theorem readFromFile_exact {b : Bincode V} (hb : b.Lawful) (u : Uniform) {m : CompressedMap V}
    (hm : WellFormed u m) :
    ∃ bytes, encode b m = .ok bytes ∧ readFromFile b u bytes = .ok m ∧
      (∀ s, s <+: bytes → s ≠ bytes → ∃ e, readFromFile b u s = .error e) ∧
      ∀ rest, rest ≠ [] →
        readFromFile b u (bytes ++ rest) = .error (.decodeError "bytes left over on read_from_file") := by
  obtain ⟨bytes, henc, hreads⟩ := reads_borrowDecode hb u hm
  obtain ⟨bytes', henc', hfile⟩ := readFromFile_encode hb u hm
  obtain rfl : bytes = bytes' := Except.ok.inj (henc.symm.trans henc')
  refine ⟨bytes, henc, hfile, fun s hs hne => ?_, fun rest hrest => ?_⟩
  · obtain ⟨f, hf⟩ := hreads.short s hs hne
    exact ⟨f, by simp [readFromFile, hf]⟩
  · simp [readFromFile, hreads.run rest, List.length_pos.2 hrest]

/-- The encoding of `onePhaseMap` is all `read_from_file` accepts around it. -/
theorem readFromFile_exact_onePhase :
    WellFormed byteUniform onePhaseMap ∧
    ∃ bytes, encode unaryBincode onePhaseMap = .ok bytes ∧
      readFromFile unaryBincode byteUniform bytes = .ok onePhaseMap ∧
      (∀ s, s <+: bytes → s ≠ bytes → ∃ e, readFromFile unaryBincode byteUniform s = .error e) ∧
      ∀ rest, rest ≠ [] → readFromFile unaryBincode byteUniform (bytes ++ rest) =
        .error (.decodeError "bytes left over on read_from_file") := by
  have hd : (borrowDecode unaryBincode byteUniform).run onePhaseBytes = .ok (onePhaseMap, []) := by
    rfl
  have hm := wellFormed_of_borrowDecode unaryBincode_consumes byteUniform (by decide) hd
  exact ⟨hm, readFromFile_exact unaryBincode_lawful byteUniform hm⟩

end Decode

end FrayedCascade
