import FrayedCascade.RoundTrip

/-!
# Decode, then encode

The other direction of the byte format's round trip: `borrow_decode` accepts
nothing but encodings. When bincode's primitive codecs read only their own
encodings (`Codec.Canonical`), the bytes `borrow_decode` consumes for a map with
at least one phase are exactly the bytes `encode` writes for that map
(`borrowDecode_reencode`), so a file `read_from_file` accepts is the file
`write_to_file` writes back. A map without phases is the exception: its stored
hash key is read and dropped, and `encode` writes `[0u8;16]` in its place.

One judgement organizes the proof. `Emits d E` says that whatever `d` returns
as `a`, it read it from bytes `e` with `E a e`. `Emits.bind` composes it field by
field, as `Reads.bind` does for the other direction, and the table loop gives
its logs back to `encode` (`logResponses_responseMapLoop`).
-/

namespace FrayedCascade

/-! ## What a decoder consumed -/

section Emits

variable {α β : Type}

/-- Whatever `d` returns as `a`, it read it from bytes `e` with `E a e`, off the
front of its input. -/
def Emits (d : Decoder α) (E : α → List UInt8 → Prop) : Prop :=
  ∀ s a rest, d.run s = .ok (a, rest) → ∃ e, E a e ∧ s = e ++ rest

/-- Two fields in a row were read from their bytes in a row. -/
theorem Emits.bind {x : Decoder α} {f : α → Decoder β} {E₁ : α → List UInt8 → Prop}
    {E : β → List UInt8 → Prop} (hx : Emits x E₁)
    (hf : ∀ a e₁, E₁ a e₁ → Emits (f a) fun b e₂ => E b (e₁ ++ e₂)) : Emits (x >>= f) E :=
  fun s b rest h => by
    obtain ⟨a, s', hxa, hfb⟩ := run_bind_eq_ok h
    obtain ⟨e₁, hE₁, rfl⟩ := hx s a s' hxa
    obtain ⟨e₂, hE, rfl⟩ := hf a e₁ hE₁ s' b rest hfb
    exact ⟨e₁ ++ e₂, hE, (List.append_assoc _ _ _).symm⟩

theorem Emits.pure {E : α → List UInt8 → Prop} {a : α} (h : E a []) : Emits (Pure.pure a) E :=
  fun _ _ _ hr => by cases hr; exact ⟨[], h, rfl⟩

theorem emits_err {E : α → List UInt8 → Prop} (descr : String) : Emits (err descr) E :=
  fun _ _ _ h => by cases h

theorem emits_liftM {x : Except Fault α} {E : α → List UInt8 → Prop}
    (h : ∀ a, x = .ok a → E a []) : Emits (liftM x) E := fun _ _ _ hr => by
  cases x with
  | error => cases hr
  | ok => cases hr; exact ⟨[], h _ rfl, rfl⟩

theorem emits_takeBytes (n : Nat) : Emits (takeBytes n) fun bytes e => e = bytes.val :=
  fun s _ _ h => by
    simp only [takeBytes, StateT.run] at h
    split at h
    · cases h; exact ⟨_, rfl, (List.take_append_drop n s).symm⟩
    · cases h

end Emits

/-! ## Canonical codecs -/

/-- What is asked of a bincode codec in this direction: it reads nothing but
encodings, so whatever it decodes, it decoded from the value's own bytes. -/
def Codec.Canonical {α : Type} (c : Codec α) : Prop :=
  ∀ s a rest, c.dec s = .ok (a, rest) → s = c.enc a ++ rest

/-- The codecs of a map's fields are canonical. -/
structure Bincode.Canonical {V : Type} (b : Bincode V) : Prop where
  usize : b.usize.Canonical
  u32 : b.u32.Canonical
  value : b.value.Canonical

theorem Codec.Canonical.emits {α : Type} {c : Codec α} (hc : c.Canonical) :
    Emits c.decode fun a e => e = c.enc a := fun s _ _ h => by
  simp only [Codec.decode, StateT.run] at h
  split at h
  · rename_i r hr
    cases h; exact ⟨_, rfl, hc s _ _ hr⟩
  · cases h

/-! ## The fields -/

theorem emits_decodeByteVec {usize : Codec Nat} (hu : usize.Canonical) :
    Emits (decodeByteVec usize) fun bytes e => e = encodeByteVec usize bytes :=
  hu.emits.bind fun n _ he₁ => (emits_takeBytes n).bind fun bytes _ he₂ =>
    Emits.pure (by subst he₁ he₂; simp [encodeByteVec, bytes.property])

theorem emits_decodeResponses {V : Type} {value : Codec V} (hv : value.Canonical) :
    ∀ n, Emits (decodeResponses value n) fun vs e => e = (vs.map value.enc).flatten ∧ vs.length = n
  | 0 => Emits.pure ⟨rfl, rfl⟩
  | n + 1 => hv.emits.bind fun _ _ he₁ => (emits_decodeResponses hv n).bind
      fun _ _ ⟨he₂, hl⟩ => Emits.pure ⟨by simp [he₁, he₂], by simp [hl]⟩

theorem emits_decodeNblocks {usize : Codec Nat} (hu : usize.Canonical) :
    ∀ n, Emits (decodeNblocks usize n) fun ns e => e = (ns.map usize.enc).flatten ∧ ns.length = n
  | 0 => Emits.pure ⟨rfl, rfl⟩
  | n + 1 => hu.emits.bind fun nblocks _ he₁ => by
    dsimp only
    by_cases h : nblocks < 2
    · rw [if_pos h]; exact (emits_err (E := fun _ _ => False) _).bind fun _ _ h => h.elim
    · rw [if_neg h]
      exact (Emits.pure (E := fun _ e => e = []) rfl).bind fun _ _ he₂ =>
        (emits_decodeNblocks hu n).bind fun _ _ ⟨he₃, hl⟩ =>
          Emits.pure ⟨by simp [he₁, he₂, he₃], by simp [hl]⟩

/-- The phases' loop read each core's blocks, in order, and nothing else; the
first core has the hash key it was given. -/
theorem emits_decodeCores (u : Uniform) (salt : List UInt8) :
    ∀ (ns : List Nat) (phase : Nat) (p : Plan) (hashcur : HashKey),
      Emits (decodeCores u salt phase ns p hashcur) fun cs e =>
        e = (cs.map (·.blocks)).flatten ∧ cs.map (·.nblocks) = ns ∧
          ∀ c ∈ cs.head?, c.hashKey = hashcur
  | [], _, _, _ => Emits.pure ⟨rfl, rfl, by simp⟩
  | nblocks :: ns, phase, p, hashcur =>
    (emits_liftM (E := fun _ e => e = []) fun _ _ => rfl).bind fun r _ he₁ => by
      obtain ⟨nextPlan, bpv⟩ := r
      exact (emits_liftM (E := fun _ e => e = []) fun _ _ => rfl).bind fun _ _ he₂ =>
        (emits_liftM (E := fun _ e => e = []) fun _ _ => rfl).bind fun mul2 _ he₃ =>
        (emits_takeBytes mul2).bind fun _ _ he₄ =>
        (emits_decodeCores u salt ns (phase + 1) nextPlan _).bind fun _ _ ⟨he₅, hns, _⟩ =>
        Emits.pure ⟨by simp [he₁, he₂, he₃, he₄, he₅], by simp [hns],
          fun c hc => by cases hc; rfl⟩

/-- The table `borrow_decode` builds from the widths' logs gives `encode` those
logs back: the log it writes for a width `2^(32 - logr)` is `logr`. -/
theorem logResponses_responseMapLoop {V : Type} :
    ∀ (logs : List UInt8) (vs : List V) (total : Locator) (rm : List (Locator × V)),
      vs.length = logs.length + 1 → responseMapLoop logs vs total = .ok rm →
      logResponses rm = .ok logs ∧ rm.map Prod.snd = vs ∧ ∀ x ∈ rm.head?, x.1 = total
  | [], [_], _, _, _, h => by cases h; exact ⟨rfl, rfl, by simp⟩
  | [], [], _, _, h, _ => absurd h (by simp)
  | [], _ :: _ :: _, _, _, h, _ => absurd h (by simp)
  | _ :: _, [], _, _, h, _ => absurd h (by simp)
  | logr :: logs, v :: vs, total, rm, hlen, h => by
    by_cases hbad : logr.toNat = 0 ∨ logr.toNat > 32
    · simp only [responseMapLoop, hbad, if_true] at h; cases h
    have hk : 32 - logr.toNat < 32 := by omega
    have hr := toNat_one_shiftLeft hk
    by_cases hfit : total.toNat + ((1 : Locator) <<< (32 - logr.toNat)).toNat < 2 ^ 32
    · simp only [responseMapLoop, hbad, if_false, checkedSub_of_le (by omega : logr.toNat ≤ 32),
        shlU32_of_lt hk, checkedAddU32, hfit, if_true, okOr, bind, Except.bind, pure,
        Except.pure] at h
      split at h
      · cases h
      rename_i rm' hrm'
      cases h
      obtain ⟨hlog, hsnd, hhead⟩ :=
        logResponses_responseMapLoop logs vs _ rm' (by simpa using hlen) hrm'
      refine ⟨?_, by simp [hsnd], by simp⟩
      obtain ⟨y, rm', rfl⟩ : ∃ y rm'', rm' = y :: rm'' := by
        cases rm' with
        | nil => simp at hsnd; subst hsnd; simp at hlen
        | cons y rm'' => exact ⟨y, rm'', rfl⟩
      have hy : y.1 = total + (1 : Locator) <<< (32 - logr.toNat) := hhead y rfl
      have hle : total ≤ y.1 := by
        rw [BitVec.le_def, hy, BitVec.toNat_add, Nat.mod_eq_of_lt hfit]; omega
      have hdelta : (y.1 - total).toNat = 2 ^ (32 - logr.toNat) := by
        rw [BitVec.toNat_sub_of_le hle, hy, BitVec.toNat_add, Nat.mod_eq_of_lt hfit, hr]; omega
      have hbyte : UInt8.ofNat (31 - (32 - logr.toNat) + 1) = logr := by
        rw [show 31 - (32 - logr.toNat) + 1 = logr.toNat by omega]
        exact UInt8.toNat.inj (UInt8.toNat_ofNat_of_lt logr.toNat_lt)
      simp only [logResponses, subU32_of_le hle, leadingZeros_of_toNat_eq_two_pow hdelta, hbyte,
        hlog, bind, Except.bind, pure, Except.pure]
    · simp only [responseMapLoop, hbad, if_false, checkedSub_of_le (by omega : logr.toNat ≤ 32),
        shlU32_of_lt hk, checkedAddU32, hfit, if_false, okOr, bind, Except.bind] at h
      cases h

/-! ## The map -/

/-- With canonical codecs, `borrow_decode` consumed the fields of the map it
returns in `encode`'s layout: the magic, the logs `encode` computes from the
table, the responses, the stored hash key `key`, the plan, the salt, the
`nblocks` and the blocks; the first core carries `key`. -/
theorem emits_borrowDecode {V : Type} {b : Bincode V} (hc : b.Canonical) (u : Uniform) :
    Emits (borrowDecode b u) fun m e => ∃ logs, ∃ key : HashKey,
      logResponses m.responseMap = .ok logs ∧ m.responseMap ≠ [] ∧
      m.core.length = countOnes m.plan ∧ (∀ c ∈ m.core.head?, c.hashKey = key) ∧
      e = magic ++ encodeByteVec b.usize logs ++ (m.responseMap.map fun r => b.value.enc r.2).flatten ++
        key.val ++ b.u32.enc m.plan ++ m.salt ++ (m.core.map fun c => b.usize.enc c.nblocks).flatten ++
        (m.core.map (·.blocks)).flatten := by
  simp only [borrowDecode]
  refine (emits_takeBytes 4).bind fun magicRead e₁ he₁ => ?_
  by_cases hmagic : magicRead.val ≠ magic
  · rw [if_pos hmagic]; exact (emits_err (E := fun _ _ => False) _).bind fun _ _ h => h.elim
  rw [if_neg hmagic]
  refine (Emits.pure (E := fun _ e => e = []) rfl).bind fun _ e₂ he₂ => ?_
  refine (emits_decodeByteVec hc.usize).bind fun logs e₃ he₃ => ?_
  refine (emits_liftM (E := fun n e => e = [] ∧ usizeAdd logs.length 1 = .ok n)
    fun _ h => ⟨rfl, h⟩).bind fun n e₄ ⟨he₄, hn⟩ => ?_
  refine (emits_decodeResponses hc.value n).bind fun responses e₅ ⟨he₅, hresp⟩ => ?_
  refine (emits_liftM (E := fun rm e => e = [] ∧ responseMapLoop logs responses 0 = .ok rm)
    fun _ h => ⟨rfl, h⟩).bind fun rm e₆ ⟨he₆, hrm⟩ => ?_
  refine (emits_takeBytes 16).bind fun hashKey e₇ he₇ => ?_
  refine hc.u32.emits.bind fun plan e₈ he₈ => ?_
  refine (emits_takeBytes _).bind fun salt e₉ he₉ => ?_
  refine (emits_decodeNblocks hc.usize _).bind fun ns e₁₀ ⟨he₁₀, hnl⟩ => ?_
  by_cases hs : countOnes plan > 0 ∧ countOnes plan ≠ salt.val.length + 1
  · rw [if_pos hs]; exact (emits_err (E := fun _ _ => False) _).bind fun _ _ h => h.elim
  rw [if_neg hs]
  refine (Emits.pure (E := fun _ e => e = []) rfl).bind fun _ e₁₁ he₁₁ => ?_
  refine (emits_decodeCores u salt.val ns 0 plan hashKey).bind
    fun core e₁₂ ⟨he₁₂, hns, hhead⟩ => Emits.pure ?_
  -- the table gives its logs back
  have hn' : n = logs.length + 1 := by
    unfold usizeAdd at hn; split at hn <;> cases hn; rfl
  obtain ⟨hlogs, hsnd, -⟩ := logResponses_responseMapLoop logs responses 0 rm (by omega) hrm
  have hne : rm ≠ [] := by rintro rfl; simp at hsnd; subst hsnd; simp at hresp; omega
  subst he₁ he₂ he₃ he₄ he₅ he₆ he₇ he₈ he₉ he₁₀ he₁₁ he₁₂ hsnd hns
  refine ⟨logs, hashKey, hlogs, hne, (List.length_map _ _).symm.trans hnl, hhead, ?_⟩
  rw [not_not.1 hmagic]
  simp [List.map_map, Function.comp_def]

/-- With canonical codecs, every byte string from which `borrow_decode` reads a
map with at least one phase starts with exactly that map's encoding: re-encoding
what was decoded gives back the bytes consumed. -/
theorem borrowDecode_reencode {V : Type} {b : Bincode V} (hc : b.Canonical) (u : Uniform)
    {s rest : List UInt8} {m : CompressedMap V} (hd : (borrowDecode b u).run s = .ok (m, rest))
    (hp : m.plan ≠ 0) : ∃ bytes, encode b m = .ok bytes ∧ s = bytes ++ rest := by
  obtain ⟨e, ⟨logs, key, hlogs, hne, hlen, hhead, rfl⟩, rfl⟩ := emits_borrowDecode hc u s m rest hd
  obtain ⟨c, cs, hcore⟩ : ∃ c cs, m.core = c :: cs := by
    cases h : m.core with
    | nil =>
      have : (setBits m.plan).length = 0 := by rw [← countOnes, ← hlen, h]; rfl
      exact absurd (List.length_eq_zero.1 this) (setBits_ne_nil hp)
    | cons c cs => exact ⟨c, cs, rfl⟩
  refine ⟨_, encode_eq b hne hlogs, ?_⟩
  rw [← hhead c (by rw [hcore]; rfl)]
  simp [encoding, hcore]

/-- With canonical codecs, a map without phases that `borrow_decode` read was
read from the magic, the table's logs and responses, a stored hash key `key`,
the plan and the salt; `encode` writes the same fields with `[0u8;16]` in the
key's place: the key is read, and then dropped. -/
theorem borrowDecode_reencode_noPhase {V : Type} {b : Bincode V} (hc : b.Canonical)
    (u : Uniform) {s rest : List UInt8} {m : CompressedMap V}
    (hd : (borrowDecode b u).run s = .ok (m, rest)) (hp : m.plan = 0) :
    ∃ logs, ∃ key : HashKey, logResponses m.responseMap = .ok logs ∧
      s = magic ++ encodeByteVec b.usize logs ++ (m.responseMap.map fun r => b.value.enc r.2).flatten ++
        key.val ++ b.u32.enc m.plan ++ m.salt ++ rest ∧
      encode b m = .ok (magic ++ encodeByteVec b.usize logs ++
        (m.responseMap.map fun r => b.value.enc r.2).flatten ++ zeroKey.val ++ b.u32.enc m.plan ++
        m.salt) := by
  obtain ⟨e, ⟨logs, key, hlogs, hne, hlen, -, rfl⟩, rfl⟩ := emits_borrowDecode hc u s m rest hd
  have hcore : m.core = [] := List.length_eq_zero.1 (by rw [hlen, hp]; decide)
  refine ⟨logs, key, hlogs, by simp [hcore], ?_⟩
  rw [encode_eq b hne hlogs]
  simp [encoding, hcore]

/-! ## A canonical instance -/

/-- Unary that reads only its own encodings: a run of ones ended by a zero, and
any other byte refused. -/
def strictUnaryDec : List UInt8 → Except String (Nat × List UInt8)
  | [] => .error "UnexpectedEnd"
  | x :: rest =>
    if x = 0 then .ok (0, rest) else if x = 1 then
      match strictUnaryDec rest with
      | .ok (n, r) => .ok (n + 1, r)
      | .error e => .error e
    else .error "not unary"

def strictUnary : Codec Nat := ⟨unaryEnc, strictUnaryDec⟩

/-- `strictUnary` read as a `u32`, refusing values of `2^32` and more. -/
def strictU32 : Codec Locator :=
  ⟨fun x => unaryEnc x.toNat, fun s => match strictUnaryDec s with
    | .ok (n, rest) => if n < 2 ^ 32 then .ok (BitVec.ofNat 32 n, rest) else .error "u32 out of range"
    | .error e => .error e⟩

/-- The codecs of a map of `Nat` values, all strict unary. -/
def strictBincode : Bincode Nat := ⟨strictUnary, strictU32, strictUnary⟩

theorem strictUnary_canonical : strictUnary.Canonical := by
  intro s
  induction s with
  | nil => intro _ _ h; cases h
  | cons x s ih =>
    intro n rest h
    simp only [strictUnary, strictUnaryDec] at h ⊢
    by_cases h0 : x = 0
    · rw [if_pos h0] at h; cases h; subst h0; rfl
    rw [if_neg h0] at h
    by_cases h1 : x = 1
    · rw [if_pos h1] at h
      split at h
      · rename_i m r hm
        cases h; subst h1
        rw [ih m rest hm]; simp [strictUnary, unaryEnc, List.replicate_succ]
      · cases h
    · rw [if_neg h1] at h; cases h

theorem strictBincode_canonical : strictBincode.Canonical where
  usize := strictUnary_canonical
  u32 s a rest h := by
    simp only [strictBincode, strictU32] at h ⊢
    split at h
    · rename_i n r hn
      split at h
      · cases h
        rw [strictUnary_canonical s n rest hn, BitVec.toNat_ofNat, Nat.mod_eq_of_lt ‹_›]; rfl
      · cases h
    · cases h
  value := strictUnary_canonical

/-- With strict unary codecs, `onePhaseBytes` are the encoding of the map read
from them. -/
theorem borrowDecode_reencode_onePhase :
    strictBincode.Canonical ∧
      (borrowDecode strictBincode byteUniform).run onePhaseBytes = .ok (onePhaseMap, []) ∧
      onePhaseMap.plan ≠ 0 ∧
      ∃ bytes, encode strictBincode onePhaseMap = .ok bytes ∧ onePhaseBytes = bytes ++ [] := by
  have hd : (borrowDecode strictBincode byteUniform).run onePhaseBytes = .ok (onePhaseMap, []) := by
    rfl
  have hp : onePhaseMap.plan ≠ 0 := by decide
  exact ⟨strictBincode_canonical, hd, hp,
    borrowDecode_reencode strictBincode_canonical byteUniform hd hp⟩

/-- The bytes of a map with no phases, the table `[(0, 1)]`, and a stored hash
key of sixteen `5`s. -/
def keyedNoPhaseBytes : List UInt8 :=
  magic ++ [0] ++ [1, 0] ++ List.replicate 16 5 ++ [0]

/-- The map `borrow_decode` reads from `keyedNoPhaseBytes`. -/
def keyedNoPhaseMap : CompressedMap Nat := ⟨0#32, [(0#32, 1)], [], []⟩

/-- `keyedNoPhaseBytes` re-encode with zeros where their key was, so not to
themselves. -/
theorem borrowDecode_reencode_noPhase_keyed :
    (borrowDecode strictBincode byteUniform).run keyedNoPhaseBytes = .ok (keyedNoPhaseMap, []) ∧
      keyedNoPhaseMap.plan = 0 ∧
      (∃ logs, ∃ key : HashKey, logResponses keyedNoPhaseMap.responseMap = .ok logs ∧
        keyedNoPhaseBytes = magic ++ encodeByteVec strictBincode.usize logs ++
          (keyedNoPhaseMap.responseMap.map fun r => strictBincode.value.enc r.2).flatten ++
          key.val ++ strictBincode.u32.enc keyedNoPhaseMap.plan ++ keyedNoPhaseMap.salt ++ [] ∧
        encode strictBincode keyedNoPhaseMap = .ok (magic ++ encodeByteVec strictBincode.usize logs ++
          (keyedNoPhaseMap.responseMap.map fun r => strictBincode.value.enc r.2).flatten ++
          zeroKey.val ++ strictBincode.u32.enc keyedNoPhaseMap.plan ++ keyedNoPhaseMap.salt)) ∧
      encode strictBincode keyedNoPhaseMap ≠ .ok keyedNoPhaseBytes := by
  have hd : (borrowDecode strictBincode byteUniform).run keyedNoPhaseBytes =
      .ok (keyedNoPhaseMap, []) := by rfl
  have hp : keyedNoPhaseMap.plan = 0 := rfl
  refine ⟨hd, hp, borrowDecode_reencode_noPhase strictBincode_canonical byteUniform hd hp, ?_⟩
  intro h
  have := Except.ok.inj ((show encode strictBincode keyedNoPhaseMap =
    .ok (magic ++ [0] ++ [1, 0] ++ zeroKey.val ++ [0]) by rfl).symm.trans h)
  exact absurd this (by decide)

end FrayedCascade
