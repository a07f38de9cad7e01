import FrayedCascade.Query

/-!
# The byte format: `encode` and `borrow_decode`

`Encode for CompressedMap` writes, in order: the magic `"cnm1"`, the logarithms
of the response widths as a `Vec<u8>`, the responses, the first phase's hash
key, the plan, the raw salt, every phase's `nblocks`, and every phase's raw
blocks. `BorrowDecode for CompressedMap` reads the fields back in the same
order, validating as it goes, and rebuilds what was not written: the lower
bounds from the widths, each phase's `bits_per_value` from the plan, and each
later phase's hash key from the salt chain.

bincode's own codecs for `usize`, `u32` and `V` are outside the repository;
they are parameters (`Bincode`), and what is assumed of them is stated as
`Codec.Lawful`. Byte arrays and raw reads have bincode's fixed layout and are
modelled directly.

A decoder passes the unread input along (`Decoder`). Two judgements organize
the proofs:

- `Reads d e a`: `d` reads exactly the bytes `e` as `a`. On `e ++ rest` it
  returns `a` and leaves `rest`, and on every strict prefix of `e` it fails.
  `Reads.bind` composes them field by field, and `reads_borrowDecode` shows
  that `borrow_decode` reads the encoding of every well-formed map
  (`WellFormed`) back;
- `Safe N d Q`: on an input of at most `N` bytes, `d` fails only with a decode
  error, never with a panic, and a success satisfies `Q`.
  `safe_borrowDecode` shows that every map `borrow_decode` accepts is
  well-formed.
-/

namespace FrayedCascade

/-! ## Decoders and bincode's codecs -/

/-- A decoder reads from the front of the unread input and returns the rest. -/
abbrev Decoder (α : Type) := StateT (List UInt8) (Except Fault) α

/-- A primitive bincode codec: the bytes of a value, and the decoder that reads
one value off the front of the input or fails with bincode's error text. -/
structure Codec (α : Type) where
  enc : α → List UInt8
  dec : List UInt8 → Except String (α × List UInt8)

/-- The codecs of the fields a map is made of: `usize` (lengths and `nblocks`),
`u32` (the plan) and `V`. -/
structure Bincode (V : Type) where
  usize : Codec Nat
  u32 : Codec Locator
  value : Codec V

/-- bincode's `DecodeError::UnexpectedEnd`: the input ends inside a field. -/
def unexpectedEnd : Fault := .decodeError "UnexpectedEnd"

/-- `err(descr)` of `borrow_decode`: `DecodeError::OtherString(descr)`. -/
def err {α : Type} (descr : String) : Decoder α := throw (.decodeError descr)

/-- Reads `n` raw bytes, as bincode reads a `[u8; n]`, and as `read` and
`take_bytes` do. -/
def takeBytes (n : Nat) : Decoder { bytes : List UInt8 // bytes.length = n } := fun s =>
  if h : n ≤ s.length then .ok (⟨s.take n, by simp [h]⟩, s.drop n) else .error unexpectedEnd

/-- Runs a primitive decoder; what it reports is a decode error. -/
def Codec.decode {α : Type} (c : Codec α) : Decoder α := fun s =>
  match c.dec s with
  | .ok r => .ok r
  | .error e => .error (.decodeError e)

/-- bincode's `Vec<u8>`: the length as a `usize`, then the bytes. -/
def encodeByteVec (usize : Codec Nat) (bytes : List UInt8) : List UInt8 :=
  usize.enc bytes.length ++ bytes

def decodeByteVec (usize : Codec Nat) : Decoder (List UInt8) := do
  let n ← usize.decode
  return (← takeBytes n).val

/-- `Option::ok_or`. -/
def okOr {α : Type} (o : Option α) (e : Fault) : Except Fault α :=
  match o with
  | some a => .ok a
  | none => .error e

@[simp] theorem okOr_some {α : Type} (a : α) (e : Fault) : okOr (some a) e = .ok a := rfl

/-- `usize::checked_mul`. -/
def checkedMul (a b : Nat) : Option Nat := if a * b < 2 ^ 64 then some (a * b) else none

/-- `u32::checked_add`. -/
def checkedAddU32 (a b : Locator) : Option Locator :=
  if a.toNat + b.toNat < 2 ^ 32 then some (a + b) else none

/-! ## Encoding -/

/-- `MAGIC`, `b"cnm1"`. -/
def magic : List UInt8 := [99, 110, 109, 49]

/-- The loop over `0..response_map.len()-1`: the width `delta` of each interval
but the last is written as `delta.leading_zeros() + 1`, which is at most 33, so
neither the cast to `u8` nor the addition wraps. -/
def logResponses {V : Type} : List (Locator × V) → Except Fault (List UInt8)
  | a :: b :: rest => do
    let delta ← subU32 b.1 a.1
    return .ofNat (leadingZeros delta + 1) :: (← logResponses (b :: rest))
  | _ => pure []

def assertionFailed : Fault := .panic "assertion failed: self.response_map.len() >= 1"

/-- `Encode for CompressedMap`, writing to a byte vector (which cannot fail). -/
def encode {V : Type} (b : Bincode V) (m : CompressedMap V) : Except Fault (List UInt8) := do
  if ¬ m.responseMap.length ≥ 1 then throw assertionFailed
  let logs ← logResponses m.responseMap
  let hashKey : HashKey := match m.core with
    | [] => zeroKey
    | c :: _ => c.hashKey
  return magic ++ encodeByteVec b.usize logs ++ (m.responseMap.map fun r => b.value.enc r.2).flatten ++
    hashKey.val ++ b.u32.enc m.plan ++ m.salt ++ (m.core.map fun c => b.usize.enc c.nblocks).flatten ++
    (m.core.map (·.blocks)).flatten

/-! ## Decoding -/

/-- The loop reading `log_responses.len()+1` responses. -/
def decodeResponses {V : Type} (value : Codec V) : Nat → Decoder (List V)
  | 0 => pure []
  | n + 1 => do
    let response ← value.decode
    return response :: (← decodeResponses value n)

/-- The loop over `responses.into_iter().enumerate()`: the `i`-th response
starts at `total`, and while `i < log_responses.len()` the width
`1 << (32 - logr)` is added to `total`. -/
def responseMapLoop {V : Type} : List UInt8 → List V → Locator → Except Fault (List (Locator × V))
  | _, [], _ => pure []
  | [], response :: responses, total => do
    return (total, response) :: (← responseMapLoop [] responses total)
  | logr :: logs, response :: responses, total => do
    if logr.toNat = 0 ∨ logr.toNat > 32 then throw (.decodeError "invalid logr")
    let r ← shlU32 1 (← checkedSub 32 logr.toNat)
    let total' ← okOr (checkedAddU32 total r) (.decodeError "responses must sum to < Locator::BITS")
    return (total, response) :: (← responseMapLoop logs responses total')

/-- The loop reading one `nblocks` per phase. -/
def decodeNblocks (usize : Codec Nat) : Nat → Decoder (List Nat)
  | 0 => pure []
  | n + 1 => do
    let nblocks ← usize.decode
    if nblocks < 2 then err "must have at least 2 nblocks"
    return nblocks :: (← decodeNblocks usize n)

/-- The loop over the phases that reads the cores. Phase `phase` takes its
`bits_per_value` from the plan, reads `nblocks · BLOCKSIZE · bpv` bytes of
blocks, and passes on the hash key the salt derives. It walks
`nblocks_per_phase`, which holds one entry per phase. -/
def decodeCores (u : Uniform) (salt : List UInt8) :
    Nat → List Nat → Plan → HashKey → Decoder (List MapCore)
  | _, [], _, _ => pure []
  | phase, nblocks :: rest, curPlan, hashcur => do
    let (nextPlan, bpv) ← decodePlanStep curPlan
    let mul1 ← okOr (checkedMul nblocks u.blocksize) (.decodeError "overflow on multiply")
    let mul2 ← okOr (checkedMul mul1 bpv) (.decodeError "overflow on multiply")
    let borrowed ← takeBytes mul2
    let hashnext :=
      if h : phase < salt.length then u.chooseKey (some hashcur) salt[phase].toNat else hashcur
    return ⟨hashcur, bpv, nblocks, borrowed.val⟩ ::
      (← decodeCores u salt (phase + 1) rest nextPlan hashnext)

/-- `BorrowDecode for CompressedMap`. -/
def borrowDecode {V : Type} (b : Bincode V) (u : Uniform) : Decoder (CompressedMap V) := do
  let magicRead ← takeBytes 4
  if magicRead.val ≠ magic then err "magic value mismatch"
  let logs ← decodeByteVec b.usize
  let responses ← decodeResponses b.value (← usizeAdd logs.length 1)
  let responseMap ← responseMapLoop logs responses 0
  let hashKey ← takeBytes 16
  let plan ← b.u32.decode
  let nphases := countOnes plan
  -- `max(1, nphases) - 1` cannot underflow
  let salt ← takeBytes (max 1 nphases - 1)
  let nblocksPerPhase ← decodeNblocks b.usize nphases
  if nphases > 0 ∧ nphases ≠ salt.val.length + 1 then err "salt has the wrong length"
  let core ← decodeCores u salt.val 0 nblocksPerPhase plan hashKey
  return ⟨plan, responseMap, salt.val, core⟩

/-- What `read_from_file` does with the bytes of the file: decode, and refuse
bytes left over. -/
def readFromFile {V : Type} (b : Bincode V) (u : Uniform) (buf : List UInt8) :
    Except Fault (CompressedMap V) :=
  match (borrowDecode b u).run buf with
  | .ok (m, rest) =>
    if rest.length > 0 then .error (.decodeError "bytes left over on read_from_file") else .ok m
  | .error e => .error e

/-! ## Reading an encoding back -/

section Reads

variable {α β : Type}

theorem run_bind_ok {x : Decoder α} {f : α → Decoder β} {s s' : List UInt8} {a : α}
    (h : x.run s = .ok (a, s')) : (x >>= f).run s = (f a).run s' := by
  rw [StateT.run_bind, h]; rfl

theorem run_bind_error {x : Decoder α} {f : α → Decoder β} {s : List UInt8} {e : Fault}
    (h : x.run s = .error e) : (x >>= f).run s = .error e := by
  rw [StateT.run_bind, h]; rfl

theorem run_bind_eq_ok {x : Decoder α} {f : α → Decoder β} {s s'' : List UInt8} {b : β}
    (h : (x >>= f).run s = .ok (b, s'')) : ∃ a s', x.run s = .ok (a, s') ∧ (f a).run s' = .ok (b, s'') := by
  cases hx : x.run s with
  | error e => rw [run_bind_error hx] at h; cases h
  | ok r => exact ⟨r.1, r.2, rfl, by rw [run_bind_ok hx] at h; exact h⟩

theorem run_liftM {x : Except Fault α} {s : List UInt8} :
    (liftM x : Decoder α).run s = x.map fun a => (a, s) := by
  cases x <;> rfl

/-- `d` reads exactly the bytes `e` as `a`: it returns `a` and leaves whatever
follows `e`, and it fails on every input that stops inside `e`. -/
structure Reads (d : Decoder α) (e : List UInt8) (a : α) : Prop where
  run : ∀ rest, d.run (e ++ rest) = .ok (a, rest)
  short : ∀ s, s <+: e → s ≠ e → ∃ f, d.run s = .error f

theorem Reads.pure (a : α) : Reads (pure a : Decoder α) [] a :=
  ⟨fun _ => rfl, fun _ hs hne => absurd (List.prefix_nil.1 hs) hne⟩

/-- Reading two fields in a row reads their bytes in a row. -/
theorem Reads.bind {x : Decoder α} {f : α → Decoder β} {e₁ e₂ : List UInt8} {a : α} {b : β}
    (hx : Reads x e₁ a) (hf : Reads (f a) e₂ b) : Reads (x >>= f) (e₁ ++ e₂) b := by
  have tail : ∀ c, c <+: e₂ → c ≠ e₂ → ∃ g, (x >>= f).run (e₁ ++ c) = .error g := fun c hc hne => by
    obtain ⟨g, hg⟩ := hf.short c hc hne
    exact ⟨g, by rw [run_bind_ok (hx.run c), hg]⟩
  refine ⟨fun rest => by rw [List.append_assoc, run_bind_ok (hx.run _), hf.run], fun s hs hne => ?_⟩
  obtain ⟨t, ht⟩ := hs
  rcases List.append_eq_append_iff.1 ht with ⟨a', he, -⟩ | ⟨c, rfl, he⟩
  · cases a' with
    | nil =>
      rw [List.append_nil] at he; subst he
      simpa using tail [] (List.nil_prefix) fun h => hne (by simp [← h])
    | cons y ys =>
      obtain ⟨g, hg⟩ := hx.short s ⟨y :: ys, he.symm⟩ fun h => by
        subst h; simpa using congrArg List.length he
      exact ⟨g, run_bind_error hg⟩
  · exact tail c ⟨t, he.symm⟩ fun h => hne (by rw [h])

theorem Reads.bind_nil {x : Decoder α} {f : α → Decoder β} {e : List UInt8} {a : α} {b : β}
    (hx : Reads x [] a) (hf : Reads (f a) e b) : Reads (x >>= f) e b :=
  List.nil_append e ▸ hx.bind hf

theorem Reads.map {x : Decoder α} {e : List UInt8} {a : α} (g : α → β) (hx : Reads x e a) :
    Reads (x >>= fun a => Pure.pure (g a)) e (g a) :=
  List.append_nil e ▸ hx.bind (Reads.pure _)

theorem reads_liftM {x : Except Fault α} {a : α} (h : x = .ok a) : Reads (liftM x : Decoder α) [] a :=
  ⟨fun _ => by subst h; rfl, fun _ hs hne => absurd (List.prefix_nil.1 hs) hne⟩

theorem reads_takeBytes {bytes : List UInt8} {n : Nat} (h : bytes.length = n) :
    Reads (takeBytes n) bytes ⟨bytes, h⟩ := by
  subst h
  refine ⟨fun rest => by simp [takeBytes, StateT.run], fun s hs hne => ⟨unexpectedEnd, ?_⟩⟩
  have hlt : s.length < bytes.length :=
    lt_of_le_of_ne hs.length_le fun h => hne (hs.eq_of_length h)
  simp [takeBytes, StateT.run, Nat.not_le.2 hlt]

end Reads

/-! ## The fields -/

/-- What is assumed of a bincode codec on the values `dom` admits: decoding reads
back what was encoded, whatever follows, and fails on truncated input. -/
structure Codec.Lawful {α : Type} (c : Codec α) (dom : α → Prop) : Prop where
  dec_enc : ∀ x, dom x → ∀ rest, c.dec (c.enc x ++ rest) = .ok (x, rest)
  dec_short : ∀ x, dom x → ∀ s, s <+: c.enc x → s ≠ c.enc x → ∃ e, c.dec s = .error e

/-- The codecs of a map's fields are lawful: `usize` on the values below `2^64`,
the others on all values. -/
structure Bincode.Lawful {V : Type} (b : Bincode V) : Prop where
  usize : b.usize.Lawful (· < 2 ^ 64)
  u32 : b.u32.Lawful fun _ => True
  value : b.value.Lawful fun _ => True

theorem Codec.Lawful.reads {α : Type} {c : Codec α} {dom : α → Prop} (hc : c.Lawful dom) {x : α}
    (hx : dom x) : Reads c.decode (c.enc x) x where
  run rest := by simp [Codec.decode, StateT.run, hc.dec_enc x hx rest]
  short s hs hne := by
    obtain ⟨e, he⟩ := hc.dec_short x hx s hs hne
    exact ⟨.decodeError e, by simp [Codec.decode, StateT.run, he]⟩

theorem reads_decodeByteVec {usize : Codec Nat} (hu : usize.Lawful (· < 2 ^ 64))
    {bytes : List UInt8} (h : bytes.length < 2 ^ 64) :
    Reads (decodeByteVec usize) (encodeByteVec usize bytes) bytes :=
  (hu.reads h).bind ((reads_takeBytes rfl).map Subtype.val)

theorem reads_decodeResponses {V : Type} {value : Codec V} (hv : value.Lawful fun _ => True) :
    ∀ (vs : List V) {n : Nat}, vs.length = n →
      Reads (decodeResponses value n) (vs.map value.enc).flatten vs
  | [], _, rfl => Reads.pure _
  | v :: vs, _, rfl => by
    simp only [List.length_cons, decodeResponses, List.map_cons, List.flatten_cons]
    exact (hv.reads trivial).bind ((reads_decodeResponses hv vs rfl).map _)

theorem reads_decodeNblocks {usize : Codec Nat} (hu : usize.Lawful (· < 2 ^ 64)) :
    ∀ (ns : List Nat), (∀ n ∈ ns, 2 ≤ n ∧ n < 2 ^ 64) → ∀ {k : Nat}, ns.length = k →
      Reads (decodeNblocks usize k) (ns.map usize.enc).flatten ns
  | [], _, _, rfl => Reads.pure _
  | n :: ns, h, _, rfl => by
    simp only [List.length_cons, decodeNblocks, List.map_cons, List.flatten_cons]
    have hn := h n (List.mem_cons_self _ _)
    refine (hu.reads hn.2).bind ?_
    simp only [Nat.not_lt.2 hn.1, if_false]
    exact (Reads.pure _).bind_nil
      ((reads_decodeNblocks hu ns (fun n' hn' => h n' (List.mem_cons_of_mem _ hn')) rfl).map _)

/-! ## The response table -/

/-- Consecutive lower bounds differ by a power of two. -/
def PowStep {V : Type} (a b : Locator × V) : Prop := ∃ k, b.1.toNat = a.1.toNat + 2 ^ k

theorem PowStep.lt_32 {V : Type} {a b : Locator × V} {k : Nat}
    (hk : b.1.toNat = a.1.toNat + 2 ^ k) : k < 32 := by
  have hb := b.1.isLt
  have : 2 ^ k < 2 ^ 32 := by omega
  exact (Nat.pow_lt_pow_iff_right (by decide)).1 this

/-- Bounds that rise at every step leave room for at most `2^32` of them. -/
theorem add_length_lt_of_chain {V : Type} :
    ∀ (a : Locator × V) (rm : List (Locator × V)), (a :: rm).Chain' PowStep →
      a.1.toNat + rm.length < 2 ^ 32
  | a, [], _ => a.1.isLt
  | a, b :: rm, h => by
    obtain ⟨⟨k, hk⟩, h'⟩ := List.chain'_cons.1 h
    have := add_length_lt_of_chain b rm h'
    have := Nat.two_pow_pos k
    simp only [List.length_cons]; omega

/-- A table whose steps are powers of two is written as the logs of its widths,
and `borrow_decode`'s loop rebuilds it from them. -/
theorem responseMapLoop_logResponses {V : Type} :
    ∀ (a : Locator × V) (rm : List (Locator × V)), (a :: rm).Chain' PowStep →
      ∃ logs, logResponses (a :: rm) = .ok logs ∧ logs.length = rm.length ∧
        responseMapLoop logs ((a :: rm).map Prod.snd) a.1 = .ok (a :: rm)
  | a, [], _ => ⟨[], rfl, rfl, rfl⟩
  | a, b :: rm, h => by
    obtain ⟨⟨k, hk⟩, h'⟩ := List.chain'_cons.1 h
    obtain ⟨logs, henc, hlen, hdec⟩ := responseMapLoop_logResponses b rm h'
    have hk32 := PowStep.lt_32 hk
    have h2k := Nat.two_pow_pos k
    have hle : a.1 ≤ b.1 := by rw [BitVec.le_def]; omega
    have hdelta : (b.1 - a.1).toNat = 2 ^ k := by rw [BitVec.toNat_sub_of_le hle]; omega
    have hlog : (UInt8.ofNat (31 - k + 1)).toNat = 32 - k :=
      (UInt8.toNat_ofNat_of_lt (by simp [UInt8.size]; omega)).trans (by omega)
    have hsum : a.1.toNat + ((1 : Locator) <<< k).toNat < 2 ^ 32 := by
      rw [toNat_one_shiftLeft hk32]; omega
    have hadd : a.1 + (1 : Locator) <<< k = b.1 := by
      apply BitVec.eq_of_toNat_eq
      rw [BitVec.toNat_add, toNat_one_shiftLeft hk32, Nat.mod_eq_of_lt (by omega)]; omega
    refine ⟨.ofNat (31 - k + 1) :: logs, ?_, by simp [hlen], ?_⟩
    · simp only [logResponses, subU32_of_le hle, leadingZeros_of_toNat_eq_two_pow hdelta, henc,
        bind, Except.bind, pure, Except.pure]
    · simp only [List.map_cons, responseMapLoop, hlog, checkedSub_of_le (by omega : 32 - k ≤ 32),
        show 32 - (32 - k) = k by omega, shlU32_of_lt hk32, checkedAddU32, hsum, if_true, hadd,
        okOr, bind, Except.bind, pure, Except.pure]
      rw [if_neg (by omega)]
      simpa only [List.map_cons] using congrArg (fun r => Except.map (List.cons a) r) hdec

/-! ## The cores -/

/-- The cores from phase `phase` on, against the plan bits `p` not yet read: one
core per bit, each with the width of its phase as `bits_per_value`, at least two
blocks, `nblocks · BLOCKSIZE · bits_per_value` bytes of blocks, and each later
hash key derived from the one before by the salt. -/
structure CoresFit (u : Uniform) (salt : List UInt8) (phase : Nat) (p : Plan)
    (cs : List MapCore) : Prop where
  length : cs.length = countOnes p
  bitsPerValue : ∀ j (hj : j < cs.length),
    cs[j].bitsPerValue = bnd (setBits p) (j + 1) - bnd (setBits p) j
  nblocks : ∀ c ∈ cs, 2 ≤ c.nblocks
  blocks : ∀ c ∈ cs, c.blocks.length = c.nblocks * u.blocksize * c.bitsPerValue
  blocks_lt : ∀ c ∈ cs, c.blocks.length < 2 ^ 64
  hashKey : ∀ j (hj : j + 1 < cs.length), ∃ hs : phase + j < salt.length,
    cs[j + 1].hashKey = u.chooseKey (some cs[j].hashKey) salt[phase + j].toNat

theorem ne_zero_of_countOnes_pos {p : Plan} (h : 0 < countOnes p) : p ≠ 0 := by
  rintro rfl; simp [countOnes] at h

theorem bnd_one_sub_bnd_zero {p : Plan} (hp : p ≠ 0) :
    bnd (setBits p) 1 - bnd (setBits p) 0 = (setBits p).tail.headD 32 - trailingZeros p := by
  rw [trailingZeros_eq_headD, setBits_eq_cons hp]; simp [bnd_zero]

theorem CoresFit.bitsPerValue_pos {u : Uniform} {salt : List UInt8} {phase : Nat} {p : Plan}
    {cs : List MapCore} (h : CoresFit u salt phase p cs) {c : MapCore} (hc : c ∈ cs) :
    0 < c.bitsPerValue := by
  obtain ⟨j, hj, rfl⟩ := List.getElem_of_mem hc
  have := (bitList_setBits p).bnd_lt_succ (j := j) (by rw [← countOnes, ← h.length]; exact hj)
  rw [h.bitsPerValue j hj]; omega

theorem CoresFit.nblocks_lt {u : Uniform} {salt : List UInt8} {phase : Nat} {p : Plan}
    {cs : List MapCore} (h : CoresFit u salt phase p cs) {c : MapCore} (hc : c ∈ cs) :
    c.nblocks < 2 ^ 64 := by
  have hle : c.nblocks ≤ c.nblocks * u.blocksize * c.bitsPerValue :=
    Nat.le_mul_of_pos_right _ (h.bitsPerValue_pos hc) |>.trans' (Nat.le_mul_of_pos_right _ u.blocksize_pos)
  rw [← h.blocks c hc] at hle
  exact lt_of_le_of_lt hle (h.blocks_lt c hc)

/-- Reading a core consumes the lowest bit of the plan. -/
theorem CoresFit.tail {u : Uniform} {salt : List UInt8} {phase : Nat} {p : Plan} {c : MapCore}
    {cs : List MapCore} (h : CoresFit u salt phase p (c :: cs)) :
    CoresFit u salt (phase + 1) (p &&& (p - 1)) cs := by
  have hp := ne_zero_of_countOnes_pos (by rw [← h.length]; simp)
  have hbits : setBits p = trailingZeros p :: setBits (p &&& (p - 1)) := by
    rw [setBits_and_sub_one, ← setBits_eq_cons hp]
  refine ⟨?_, fun j hj => ?_, fun c' hc' => h.nblocks c' (List.mem_cons_of_mem _ hc'),
    fun c' hc' => h.blocks c' (List.mem_cons_of_mem _ hc'),
    fun c' hc' => h.blocks_lt c' (List.mem_cons_of_mem _ hc'), fun j hj => ?_⟩
  · have := h.length; rw [countOnes, hbits] at this; simpa [countOnes] using this
  · have := h.bitsPerValue (j + 1) (by simp [hj]); rw [hbits] at this; simpa using this
  · obtain ⟨hs, hk⟩ := h.hashKey (j + 1) (by simp; omega)
    exact ⟨by omega, by simpa [Nat.add_assoc, Nat.add_comm 1 j] using hk⟩

/-- `borrow_decode`'s loop over the phases reads every fitting run of cores back. -/
theorem reads_decodeCores (u : Uniform) (salt : List UInt8) :
    ∀ (cs : List MapCore) (phase : Nat) (p : Plan) (hashcur : HashKey),
      CoresFit u salt phase p cs → (∀ c ∈ cs.head?, c.hashKey = hashcur) →
      Reads (decodeCores u salt phase (cs.map (·.nblocks)) p hashcur)
        (cs.map (·.blocks)).flatten cs
  | [], _, _, _, _, _ => Reads.pure _
  | ⟨key, bpv, nblocks, blocks⟩ :: cs, phase, p, hashcur, h, hk => by
    have hp := ne_zero_of_countOnes_pos (by rw [← h.length]; simp)
    have hmem := List.mem_cons_self (⟨key, bpv, nblocks, blocks⟩ : MapCore) cs
    have hbpv : bpv = (setBits p).tail.headD 32 - trailingZeros p := by
      rw [← bnd_one_sub_bnd_zero hp]; exact h.bitsPerValue 0 (by simp)
    have hpos : 0 < bpv := by
      have := (bitList_setBits p).bnd_lt_succ (j := 0) (by rw [← countOnes, ← h.length]; simp)
      rw [Nat.zero_add] at this
      rw [hbpv, ← bnd_one_sub_bnd_zero hp]; omega
    have hblocks : blocks.length = nblocks * u.blocksize * bpv := h.blocks _ hmem
    have hlt : blocks.length < 2 ^ 64 := h.blocks_lt _ hmem
    have hmul1 : nblocks * u.blocksize < 2 ^ 64 :=
      lt_of_le_of_lt (Nat.le_mul_of_pos_right _ hpos) (hblocks ▸ hlt)
    obtain rfl : key = hashcur := hk _ rfl
    subst hbpv
    simp only [List.map_cons, List.flatten_cons, decodeCores]
    refine (reads_liftM (decodePlanStep_eq hp)).bind_nil ?_
    refine (reads_liftM (show okOr (checkedMul nblocks u.blocksize) _ =
      .ok (nblocks * u.blocksize) by rw [checkedMul, if_pos hmul1]; rfl)).bind_nil ?_
    refine (reads_liftM (show okOr (checkedMul (nblocks * u.blocksize) _) _ = .ok blocks.length by
      rw [checkedMul, ← hblocks, if_pos hlt]; rfl)).bind_nil ?_
    refine (reads_takeBytes rfl).bind ?_
    refine (reads_decodeCores u salt cs (phase + 1) _ _ h.tail fun c hc => ?_).map _
    cases cs with
    | nil => cases hc
    | cons c' cs =>
      obtain ⟨hs, hkey⟩ := h.hashKey 0 (by simp)
      cases hc
      rw [dif_pos (by simpa using hs)]
      simpa using hkey

/-! ## Well-formed maps round-trip -/

/-- The maps `encode` writes and `borrow_decode` reads back: a table starting at
`0` whose lower bounds rise by a power of two at each step, `popcount(plan) - 1`
bytes of salt, and one fitting core per phase. -/
structure WellFormed {V : Type} (u : Uniform) (m : CompressedMap V) : Prop where
  head_zero : m.responseMap.head?.map Prod.fst = some 0
  steps : m.responseMap.Chain' PowStep
  salt_length : m.salt.length = max 1 (countOnes m.plan) - 1
  cores : CoresFit u m.salt 0 m.plan m.core

/-- The bytes `encode` writes for a map with a table `a :: rm` whose widths have
the logs `logs`. -/
def encoding {V : Type} (b : Bincode V) (m : CompressedMap V) (logs : List UInt8) : List UInt8 :=
  magic ++ (encodeByteVec b.usize logs ++ ((m.responseMap.map fun r => b.value.enc r.2).flatten ++
    ((match m.core with
      | [] => zeroKey
      | c :: _ => c.hashKey).val ++ (b.u32.enc m.plan ++ (m.salt ++
      ((m.core.map fun c => b.usize.enc c.nblocks).flatten ++ (m.core.map (·.blocks)).flatten))))))

theorem encode_eq {V : Type} (b : Bincode V) {m : CompressedMap V} {logs : List UInt8}
    (hne : m.responseMap ≠ []) (hlogs : logResponses m.responseMap = .ok logs) :
    encode b m = .ok (encoding b m logs) := by
  have : m.responseMap.length ≥ 1 := List.length_pos.2 hne
  simp only [encode, this, not_true_eq_false, if_false, hlogs, encoding, List.append_assoc]
  rfl

/-- `borrow_decode` reads the encoding of every well-formed map back: it returns
the map and leaves what follows, and it fails on every strict prefix. -/
theorem reads_borrowDecode {V : Type} {b : Bincode V} (hb : b.Lawful) (u : Uniform)
    {m : CompressedMap V} (hm : WellFormed u m) :
    ∃ bytes, encode b m = .ok bytes ∧ Reads (borrowDecode b u) bytes m := by
  obtain ⟨plan, responseMap, salt, core⟩ := m
  obtain ⟨a, rm, rfl⟩ : ∃ a rm, responseMap = a :: rm := by
    cases responseMap with
    | nil => exact absurd hm.head_zero (by simp)
    | cons a rm => exact ⟨a, rm, rfl⟩
  have ha : a.1 = 0 := by simpa using hm.head_zero
  obtain ⟨logs, henc, hlen, hdec⟩ := responseMapLoop_logResponses a rm hm.steps
  have hrm := add_length_lt_of_chain a rm hm.steps
  have hn : ∀ c ∈ core, 2 ≤ c.nblocks ∧ c.nblocks < 2 ^ 64 := fun c hc =>
    ⟨hm.cores.nblocks c hc, hm.cores.nblocks_lt hc⟩
  refine ⟨_, encode_eq b (List.cons_ne_nil a rm) henc, ?_⟩
  simp only [borrowDecode, encoding]
  generalize hkey : (match core with
    | [] => zeroKey
    | c :: _ => c.hashKey) = key
  refine (reads_takeBytes (show magic.length = 4 from rfl)).bind ?_
  rw [if_neg (by simp)]
  refine (Reads.pure _).bind_nil ?_
  refine (reads_decodeByteVec hb.usize (by omega : logs.length < 2 ^ 64)).bind ?_
  refine (reads_liftM (usizeAdd_of_lt (by omega : logs.length + 1 < 2 ^ 64))).bind_nil ?_
  rw [show ((a :: rm).map fun r => b.value.enc r.2) = ((a :: rm).map Prod.snd).map b.value.enc by
    rw [List.map_map]; rfl]
  refine (reads_decodeResponses hb.value ((a :: rm).map Prod.snd) (by simp [hlen])).bind ?_
  refine (reads_liftM (ha ▸ hdec)).bind_nil ?_
  refine (reads_takeBytes key.property).bind ?_
  refine (hb.u32.reads trivial).bind ?_
  refine (reads_takeBytes hm.salt_length).bind ?_
  rw [show (core.map fun c => b.usize.enc c.nblocks) = (core.map (·.nblocks)).map b.usize.enc by
    rw [List.map_map]; rfl]
  refine (reads_decodeNblocks hb.usize (core.map (·.nblocks)) (by simpa using hn)
    (by rw [List.length_map, hm.cores.length])).bind ?_
  rw [if_neg (by have := hm.salt_length; simp only at this ⊢; omega)]
  refine (Reads.pure _).bind_nil ((reads_decodeCores u salt core 0 plan key hm.cores ?_).map _)
  subst hkey
  cases core with
  | nil => intro c hc; cases hc
  | cons c cs => intro c' hc; cases hc; rfl

/-- `read_from_file` on the bytes `write_to_file` writes for a well-formed map
returns the map: decoding consumes every byte. -/
theorem readFromFile_encode {V : Type} {b : Bincode V} (hb : b.Lawful) (u : Uniform)
    {m : CompressedMap V} (hm : WellFormed u m) :
    ∃ bytes, encode b m = .ok bytes ∧ readFromFile b u bytes = .ok m := by
  obtain ⟨bytes, henc, hreads⟩ := reads_borrowDecode hb u hm
  refine ⟨bytes, henc, ?_⟩
  have := hreads.run []
  rw [List.append_nil] at this
  simp [readFromFile, this]

/-! ## Every map `borrow_decode` accepts is well-formed -/

section Safe

variable {α β : Type} {N : Nat}

/-- On inputs of at most `N` bytes, `d` fails only with a decode error, never
with a panic, and a success leaves at most `N` bytes and a value satisfying
`Q`. -/
def Safe (N : Nat) (d : Decoder α) (Q : α → Prop) : Prop :=
  ∀ s, s.length ≤ N → (∃ e, d.run s = .error (.decodeError e)) ∨
    ∃ a s', d.run s = .ok (a, s') ∧ s'.length ≤ N ∧ Q a

theorem Safe.bind {x : Decoder α} {f : α → Decoder β} {R : α → Prop} {Q : β → Prop}
    (hx : Safe N x R) (hf : ∀ a, R a → Safe N (f a) Q) : Safe N (x >>= f) Q := fun s hs => by
  rcases hx s hs with ⟨e, he⟩ | ⟨a, s', h, hs', hR⟩
  · exact .inl ⟨e, run_bind_error he⟩
  · rw [run_bind_ok h]; exact hf a hR s' hs'

theorem Safe.pure {Q : α → Prop} {a : α} (h : Q a) : Safe N (Pure.pure a) Q :=
  fun s hs => .inr ⟨a, s, rfl, hs, h⟩

theorem Safe.map {x : Decoder α} {R : α → Prop} {Q : β → Prop} (g : α → β) (hx : Safe N x R)
    (hg : ∀ a, R a → Q (g a)) : Safe N (x >>= fun a => Pure.pure (g a)) Q :=
  hx.bind fun a ha => Safe.pure (hg a ha)

theorem safe_err {Q : α → Prop} (descr : String) : Safe N (err descr) Q :=
  fun _ _ => .inl ⟨descr, rfl⟩

/-- A computation that fails only with a decode error is a safe step. -/
theorem safe_liftM {x : Except Fault α} {Q : α → Prop}
    (h : (∃ e, x = .error (.decodeError e)) ∨ ∃ a, x = .ok a ∧ Q a) : Safe N (liftM x) Q :=
  fun s hs => by
    rcases h with ⟨e, rfl⟩ | ⟨a, rfl, ha⟩
    · exact .inl ⟨e, rfl⟩
    · exact .inr ⟨a, s, rfl, hs, ha⟩

theorem safe_okOr {o : Option α} {msg : String} :
    Safe N (liftM (okOr o (.decodeError msg))) fun a => o = some a :=
  safe_liftM <| by
    cases o with
    | none => exact .inl ⟨msg, rfl⟩
    | some a => exact .inr ⟨a, rfl, rfl⟩

theorem safe_takeBytes (n : Nat) : Safe N (takeBytes n) fun bytes => bytes.val.length ≤ N :=
  fun s hs => by
    by_cases h : n ≤ s.length
    · exact .inr ⟨⟨s.take n, by simp [h]⟩, s.drop n, by simp [takeBytes, StateT.run, h],
        by simp; omega, by simp; omega⟩
    · exact .inl ⟨_, by simp [takeBytes, StateT.run, h]; rfl⟩

end Safe

/-- A primitive decoder consumes input: what it leaves is no longer than what it
was given. -/
def Codec.Consumes {α : Type} (c : Codec α) : Prop :=
  ∀ s a rest, c.dec s = .ok (a, rest) → rest.length ≤ s.length

/-- The codecs of a map's fields all consume input. -/
structure Bincode.Consumes {V : Type} (b : Bincode V) : Prop where
  usize : b.usize.Consumes
  u32 : b.u32.Consumes
  value : b.value.Consumes

theorem safe_decode {α : Type} {N : Nat} {c : Codec α} (hc : c.Consumes) :
    Safe N c.decode fun _ => True := fun s hs => by
  cases h : c.dec s with
  | error e => exact .inl ⟨e, by simp [Codec.decode, StateT.run, h]⟩
  | ok r => exact .inr ⟨r.1, r.2, by simp [Codec.decode, StateT.run, h],
      (hc s r.1 r.2 h).trans hs, trivial⟩

theorem safe_decodeByteVec {N : Nat} {usize : Codec Nat} (hu : usize.Consumes) :
    Safe N (decodeByteVec usize) fun bytes => bytes.length ≤ N :=
  (safe_decode hu).bind fun n _ => (safe_takeBytes n).map _ fun _ h => h

theorem safe_decodeResponses {V : Type} {N : Nat} {value : Codec V} (hv : value.Consumes) :
    ∀ n, Safe N (decodeResponses value n) fun vs => vs.length = n
  | 0 => Safe.pure rfl
  | n + 1 => (safe_decode hv).bind fun _ _ =>
      (safe_decodeResponses hv n).map _ fun _ h => by simp [h]

theorem safe_decodeNblocks {N : Nat} {usize : Codec Nat} (hu : usize.Consumes) :
    ∀ n, Safe N (decodeNblocks usize n) fun ns => ns.length = n ∧ ∀ x ∈ ns, 2 ≤ x
  | 0 => Safe.pure ⟨rfl, by simp⟩
  | n + 1 => (safe_decode hu).bind fun nblocks _ => by
    dsimp only
    by_cases h : nblocks < 2
    · rw [if_pos h]; exact (safe_err (Q := fun _ => False) _).bind fun _ h => h.elim
    · rw [if_neg h]
      exact (Safe.pure (Q := fun _ => True) trivial).bind fun _ _ => (safe_decodeNblocks hu n).map _
        fun ns ⟨hl, hx⟩ => ⟨by simp [hl], by simpa using ⟨Nat.not_lt.1 h, hx⟩⟩


/-- `borrow_decode`'s table loop never panics. What it builds from one more
response than logs carries the responses in order, starts at `total`, and rises
by a power of two at each step. -/
theorem responseMapLoop_spec {V : Type} :
    ∀ (logs : List UInt8) (vs : List V) (total : Locator), vs.length ≤ logs.length + 1 →
      (∃ e, responseMapLoop logs vs total = .error (.decodeError e)) ∨
      ∃ rm, responseMapLoop logs vs total = .ok rm ∧
        (rm.map Prod.snd = vs ∧ (∀ x ∈ rm.head?, x.1 = total) ∧ rm.Chain' PowStep)
  | logs, [], _, _ => .inr ⟨[], by cases logs <;> rfl, rfl, by simp, List.chain'_nil⟩
  | [], [v], total, _ => .inr ⟨[(total, v)], rfl, rfl, by simp, List.chain'_singleton _⟩
  | [], _ :: _ :: _, _, h => absurd h (by simp)
  | logr :: logs, v :: vs, total, h => by
    by_cases hbad : logr.toNat = 0 ∨ logr.toNat > 32
    · exact .inl ⟨"invalid logr", by simp only [responseMapLoop, hbad, if_true]; rfl⟩
    have hk : 32 - logr.toNat < 32 := by omega
    have hr := toNat_one_shiftLeft hk
    by_cases hfit : total.toNat + ((1 : Locator) <<< (32 - logr.toNat)).toNat < 2 ^ 32
    · have hstep : (total + (1 : Locator) <<< (32 - logr.toNat)).toNat =
          total.toNat + 2 ^ (32 - logr.toNat) := by
        rw [BitVec.toNat_add, Nat.mod_eq_of_lt hfit, hr]
      rcases responseMapLoop_spec logs vs (total + (1 : Locator) <<< (32 - logr.toNat))
        (by simp only [List.length_cons] at h; omega) with ⟨e, he⟩ | ⟨rm, hrm, hsnd, hhead, hchain⟩
      · refine .inl ⟨e, ?_⟩
        simp only [responseMapLoop, hbad, if_false, checkedSub_of_le (by omega : logr.toNat ≤ 32),
          shlU32_of_lt hk, checkedAddU32, hfit, if_true, okOr, he, bind, Except.bind, pure,
          Except.pure]
      · refine .inr ⟨(total, v) :: rm, ?_, by simp [hsnd], by simp, ?_⟩
        · simp only [responseMapLoop, hbad, if_false, checkedSub_of_le (by omega : logr.toNat ≤ 32),
            shlU32_of_lt hk, checkedAddU32, hfit, if_true, okOr, hrm, bind, Except.bind, pure,
            Except.pure]
        · refine List.chain'_cons'.2 ⟨fun y hy => ⟨32 - logr.toNat, ?_⟩, hchain⟩
          rw [hhead y hy, hstep]
    · refine .inl ⟨"responses must sum to < Locator::BITS", ?_⟩
      simp only [responseMapLoop, hbad, if_false, checkedSub_of_le (by omega : logr.toNat ≤ 32),
        shlU32_of_lt hk, checkedAddU32, hfit, if_false, okOr, bind, Except.bind, pure, Except.pure]

theorem checkedMul_eq_some {a b c : Nat} (h : checkedMul a b = some c) : c = a * b ∧ c < 2 ^ 64 := by
  unfold checkedMul at h
  split at h
  · cases h; exact ⟨rfl, by assumption⟩
  · cases h

/-- Reading a core in front of a fitting run of cores gives a fitting run. -/
theorem CoresFit.cons {u : Uniform} {salt : List UInt8} {phase : Nat} {p : Plan} {c : MapCore}
    {cs : List MapCore} (hp : p ≠ 0)
    (hbpv : c.bitsPerValue = bnd (setBits p) 1 - bnd (setBits p) 0) (hn : 2 ≤ c.nblocks)
    (hb : c.blocks.length = c.nblocks * u.blocksize * c.bitsPerValue) (hlt : c.blocks.length < 2 ^ 64)
    (hk : ∀ c' ∈ cs.head?, ∃ hs : phase < salt.length,
      c'.hashKey = u.chooseKey (some c.hashKey) salt[phase].toNat)
    (h : CoresFit u salt (phase + 1) (p &&& (p - 1)) cs) : CoresFit u salt phase p (c :: cs) := by
  have hbits : setBits p = trailingZeros p :: setBits (p &&& (p - 1)) := by
    rw [setBits_and_sub_one, ← setBits_eq_cons hp]
  refine ⟨?_, fun j hj => ?_, ?_, ?_, ?_, fun j hj => ?_⟩
  · have := h.length
    simp only [countOnes] at this ⊢
    rw [hbits, List.length_cons, List.length_cons, this]
  · cases j with
    | zero => exact hbpv
    | succ j =>
      have := h.bitsPerValue j (by simpa using hj)
      rw [hbits]; simpa using this
  · exact List.forall_mem_cons.2 ⟨hn, h.nblocks⟩
  · exact List.forall_mem_cons.2 ⟨hb, h.blocks⟩
  · exact List.forall_mem_cons.2 ⟨hlt, h.blocks_lt⟩
  · cases j with
    | zero =>
      cases cs with
      | nil => simp at hj
      | cons c' cs =>
        obtain ⟨hs, hkey⟩ := hk c' rfl
        exact ⟨by simpa using hs, by simpa using hkey⟩
    | succ j =>
      obtain ⟨hs, hkey⟩ := h.hashKey j (by simpa using hj)
      exact ⟨by omega, by simpa [Nat.add_assoc, Nat.add_comm 1 j] using hkey⟩

/-- `borrow_decode`'s loop over the phases never panics on a plan with a bit per
phase, and the cores it reads fit the plan, starting from the hash key it was
given. -/
theorem safe_decodeCores {N : Nat} (u : Uniform) (salt : List UInt8) :
    ∀ (ns : List Nat) (phase : Nat) (p : Plan) (hashcur : HashKey), ns.length = countOnes p →
      (∀ x ∈ ns, 2 ≤ x) → phase + ns.length ≤ salt.length + 1 →
      Safe N (decodeCores u salt phase ns p hashcur) fun cs =>
        CoresFit u salt phase p cs ∧ ∀ c ∈ cs.head?, c.hashKey = hashcur
  | [], _, p, _, hlen, _, _ => Safe.pure ⟨⟨by simpa using hlen, by simp, by simp, by simp, by simp,
      by simp⟩, by simp⟩
  | nblocks :: ns, phase, p, hashcur, hlen, hn, hsalt => by
    have hp : p ≠ 0 := ne_zero_of_countOnes_pos (by rw [← hlen]; simp)
    have hlen' : ns.length = countOnes (p &&& (p - 1)) := by
      rw [countOnes, setBits_and_sub_one, List.length_tail, ← countOnes, ← hlen, List.length_cons,
        Nat.add_sub_cancel]
    refine (safe_liftM (Q := fun r => r = (p &&& (p - 1), (setBits p).tail.headD 32 - trailingZeros p))
      (.inr ⟨_, decodePlanStep_eq hp, rfl⟩)).bind fun r hr => ?_
    subst hr
    refine safe_okOr.bind fun mul1 hmul1 => safe_okOr.bind fun mul2 hmul2 => ?_
    obtain ⟨rfl, -⟩ := checkedMul_eq_some hmul1
    obtain ⟨rfl, hlt⟩ := checkedMul_eq_some hmul2
    refine (safe_takeBytes _).bind fun borrowed _ => ?_
    refine (safe_decodeCores u salt ns (phase + 1) _ _ hlen'
      (fun x hx => hn x (List.mem_cons_of_mem _ hx)) (by simp at hsalt; omega)).map _
      fun cs hcs => ?_
    obtain ⟨hfit, hhead⟩ := hcs
    refine ⟨hfit.cons hp (bnd_one_sub_bnd_zero hp).symm (hn _ (List.mem_cons_self _ _))
      borrowed.property (by rw [borrowed.property]; exact hlt) fun c' hc' => ?_,
      fun c hc => by cases hc; rfl⟩
    have hs : phase < salt.length := by
      cases ns with
      | nil =>
        have : cs = [] := List.length_eq_zero.1 (by rw [hfit.length, ← hlen']; rfl)
        subst this; cases hc'
      | cons _ _ => simp at hsalt; omega
    exact ⟨hs, by rw [hhead c' hc', dif_pos hs]⟩

/-- `borrow_decode` never panics on an input of fewer than `2^63` bytes, and
every map it returns is well-formed. -/
theorem safe_borrowDecode {V : Type} {b : Bincode V} (hb : b.Consumes) (u : Uniform) {N : Nat}
    (hN : N < 2 ^ 63) : Safe N (borrowDecode b u) (WellFormed u) := by
  simp only [borrowDecode]
  refine (safe_takeBytes 4).bind fun magicRead _ => ?_
  by_cases hmagic : magicRead.val ≠ magic
  · rw [if_pos hmagic]; exact (safe_err (Q := fun _ => False) _).bind fun _ h => h.elim
  rw [if_neg hmagic]
  refine (Safe.pure (Q := fun _ => True) trivial).bind fun _ _ => ?_
  refine (safe_decodeByteVec hb.usize).bind fun logs hlogs => ?_
  refine (safe_liftM (Q := fun n => n = logs.length + 1)
    (.inr ⟨_, usizeAdd_of_lt (by omega), rfl⟩)).bind fun n hn => ?_
  refine (safe_decodeResponses hb.value n).bind fun responses hresp => ?_
  refine (safe_liftM (responseMapLoop_spec logs responses 0 (by omega))).bind
    fun rm ⟨hsnd, hhead, hchain⟩ => ?_
  refine (safe_takeBytes 16).bind fun hashKey _ => ?_
  refine (safe_decode hb.u32).bind fun plan _ => ?_
  refine (safe_takeBytes _).bind fun salt _ => ?_
  refine (safe_decodeNblocks hb.usize _).bind fun ns ⟨hnl, hn2⟩ => ?_
  by_cases hs : countOnes plan > 0 ∧ countOnes plan ≠ salt.val.length + 1
  · rw [if_pos hs]; exact (safe_err (Q := fun _ => False) _).bind fun _ h => h.elim
  rw [if_neg hs]
  have hsalt := salt.property
  refine (Safe.pure (Q := fun _ => True) trivial).bind fun _ _ => ?_
  refine (safe_decodeCores u salt.val ns 0 plan hashKey hnl hn2 (by omega)).map _
    fun core ⟨hfit, _⟩ => ⟨?_, hchain, hsalt, hfit⟩
  cases rm with
  | nil => simp at hsnd; subst hsnd; simp at hresp; omega
  | cons a rm => simp [hhead a rfl]

/-- For every byte string a Rust slice can hold, `borrow_decode` either fails
with a decode error or returns a well-formed map: it never panics. -/
theorem borrowDecode_wellFormed_or_error {V : Type} (b : Bincode V) (u : Uniform) (hb : b.Consumes)
    (bytes : List UInt8) (hlen : bytes.length < 2 ^ 63) :
    (∃ e, (borrowDecode b u).run bytes = .error (.decodeError e)) ∨
      ∃ m rest, (borrowDecode b u).run bytes = .ok (m, rest) ∧ WellFormed u m :=
  (safe_borrowDecode hb u hlen bytes le_rfl).imp id fun ⟨m, rest, h, _, hm⟩ => ⟨m, rest, h, hm⟩

/-- Whatever `borrow_decode`'s loop over the phases returns, core `j` has the
width of phase `j` as its `bits_per_value`. -/
theorem decodeCores_bitsPerValue (u : Uniform) (salt : List UInt8) :
    ∀ (ns : List Nat) (phase : Nat) (p : Plan) (hashcur : HashKey) (s rest : List UInt8)
      (cs : List MapCore), ns.length ≤ countOnes p →
      (decodeCores u salt phase ns p hashcur).run s = .ok (cs, rest) →
      cs.length = ns.length ∧
        ∀ j (hj : j < cs.length), cs[j].bitsPerValue = bnd (setBits p) (j + 1) - bnd (setBits p) j
  | [], _, _, _, _, _, _, _, h => by cases h; simp
  | nblocks :: ns, phase, p, hashcur, s, rest, cs, hlen, h => by
    have hp : p ≠ 0 := ne_zero_of_countOnes_pos (by simp at hlen; omega)
    have hlen' : ns.length ≤ countOnes (p &&& (p - 1)) := by
      rw [countOnes, setBits_and_sub_one, List.length_tail, ← countOnes]; simp at hlen; omega
    simp only [decodeCores] at h
    obtain ⟨r, s1, h1, h⟩ := run_bind_eq_ok h
    rw [run_liftM, decodePlanStep_eq hp] at h1
    cases h1
    obtain ⟨mul1, s2, -, h⟩ := run_bind_eq_ok h
    obtain ⟨mul2, s3, -, h⟩ := run_bind_eq_ok h
    obtain ⟨borrowed, s4, -, h⟩ := run_bind_eq_ok h
    obtain ⟨cs', s5, h5, h⟩ := run_bind_eq_ok h
    cases h
    obtain ⟨hl, hj⟩ := decodeCores_bitsPerValue u salt ns _ _ _ _ _ _ hlen' h5
    have hbits : setBits p = trailingZeros p :: setBits (p &&& (p - 1)) := by
      rw [setBits_and_sub_one, ← setBits_eq_cons hp]
    refine ⟨by simp [hl], fun j hj' => ?_⟩
    cases j with
    | zero => exact (bnd_one_sub_bnd_zero hp).symm
    | succ j =>
      have := hj j (by simpa using hj')
      rw [hbits]; simpa using this

/-! ## The three readings of a plan -/

theorem getElem_phaseBounds : ∀ (bs : List Nat) (j : Nat) (hj : j < (phaseBounds bs).length),
    (phaseBounds bs)[j] = (bnd bs j, bnd bs (j + 1))
  | [], _, hj => by simp at hj
  | b :: bs, 0, _ => by simp [bnd_zero]
  | b :: bs, j + 1, hj => by simpa using getElem_phaseBounds bs j (by simpa using hj)

/-- How the code splits `plan` into phases, with `b_j` its `j`-th set bit and
`b_m = 32`: `build`'s loop gives phase `j` the mask of `[b_j, b_{j+1})`, so its
shift is `b_j` and its width `b_{j+1} - b_j`; `borrow_decode`'s loop gives core
`j` that width as `bits_per_value`; `query` reads the penultimate core at shift
`b_{m-2}` and marks `[b_{m-2}, b_{m-1})` known, then reads every other core `j`
from the top down at shift `b_j` and marks `[b_j, 32)` known; and the ranges are
disjoint and cover `[b_0, 32)`. -/
structure PhasesAgree (plan : Plan) : Prop where
  build_length : (phaseBits plan).length = countOnes plan
  build_mask : ∀ j (hj : j < (phaseBits plan).length),
    (phaseBits plan)[j] = rangeMask (bnd (setBits plan) j) (bnd (setBits plan) (j + 1)) ∧
    trailingZeros (phaseBits plan)[j] = bnd (setBits plan) j ∧
    countOnes (phaseBits plan)[j] = bnd (setBits plan) (j + 1) - bnd (setBits plan) j
  decode : ∀ (u : Uniform) (salt : List UInt8) (ns : List Nat) (hashKey : HashKey)
    (s rest : List UInt8) (cs : List MapCore), ns.length = countOnes plan →
    (decodeCores u salt 0 ns plan hashKey).run s = .ok (cs, rest) →
    cs.length = countOnes plan ∧ ∀ j (hj : j < cs.length),
      cs[j].bitsPerValue = bnd (setBits plan) (j + 1) - bnd (setBits plan) j
  penultimate : ∀ {K V : Type} (rt : Retrieval K) (m : CompressedMap V) (key : K)
    (known : Locator) (_ : m.plan = plan) (_ : m.core.length = countOnes plan)
    (h2 : 2 ≤ m.core.length), queryPenultimate rt m key known =
      bsearch m.responseMap
          (BitVec.ofNat 32 (rt.queryHash m.core[m.core.length - 2] key) <<<
            bnd (setBits plan) (m.core.length - 2))
          ((BitVec.ofNat 32 (rt.queryHash m.core[m.core.length - 2] key) <<<
            bnd (setBits plan) (m.core.length - 2)) |||
            ~~~(known ||| rangeMask (bnd (setBits plan) (m.core.length - 2))
              (bnd (setBits plan) (m.core.length - 1)))) >>= fun
        | some r => pure (.found r)
        | none => pure (.more
            (BitVec.ofNat 32 (rt.queryHash m.core[m.core.length - 2] key) <<<
              bnd (setBits plan) (m.core.length - 2))
            (known ||| rangeMask (bnd (setBits plan) (m.core.length - 2))
              (bnd (setBits plan) (m.core.length - 1))))
  loop : ∀ {K V : Type} (rt : Retrieval K) (m : CompressedMap V) (key : K) (j : Nat)
    (rest : List Nat) (locator known p : Locator) (hj : j < m.core.length),
    m.plan = plan → m.core.length = countOnes plan → setBits p = (setBits plan).take (j + 1) →
    ∃ p', setBits p' = (setBits plan).take j ∧
      queryLoop rt m key (j :: rest) p locator known =
        if j + 2 ≠ m.core.length then
          bsearch m.responseMap
              (locator ||| BitVec.ofNat 32 (rt.queryHash m.core[j] key) <<< bnd (setBits plan) j)
              ((locator ||| BitVec.ofNat 32 (rt.queryHash m.core[j] key) <<< bnd (setBits plan) j) |||
                ~~~(known ||| rangeMask (bnd (setBits plan) j) 32)) >>= fun
            | some r => pure r
            | none => queryLoop rt m key rest p'
                (locator ||| BitVec.ofNat 32 (rt.queryHash m.core[j] key) <<< bnd (setBits plan) j)
                (known ||| rangeMask (bnd (setBits plan) j) 32)
        else queryLoop rt m key rest p' locator known
  cover : ∀ i, (bnd (setBits plan) 0 ≤ i ∧ i < 32) ↔
    ∃ j < countOnes plan, bnd (setBits plan) j ≤ i ∧ i < bnd (setBits plan) (j + 1)
  disjoint : ∀ j j', j < j' → j' < countOnes plan →
    bnd (setBits plan) (j + 1) ≤ bnd (setBits plan) j'

theorem phases_agree (plan : Plan) (hplan : plan ≠ 0) : PhasesAgree plan := by
  have hb := bitList_setBits plan
  have hlen : (phaseBits plan).length = countOnes plan := by
    rw [phaseBits_eq, List.length_map, length_phaseBounds, countOnes]
  refine ⟨hlen, fun j hj => ?_, fun u salt ns hashKey s rest cs hns h => ?_,
    fun rt m key known hp hcore h2 => ?_, fun rt m key j rest locator known p hj hp hcore hpj => ?_,
    fun i => ?_, fun j j' hjj hj' => ?_⟩
  · have hj' : j < (setBits plan).length := by rw [← countOnes, ← hlen]; exact hj
    have hlt := hb.bnd_lt_succ hj'
    have hmask : (phaseBits plan)[j] =
        rangeMask (bnd (setBits plan) j) (bnd (setBits plan) (j + 1)) := by
      simp only [phaseBits_eq, List.getElem_map, getElem_phaseBounds]
    rw [hmask, trailingZeros_rangeMask hlt (hb.bnd_le _), countOnes_rangeMask hlt.le (hb.bnd_le _)]
    exact ⟨rfl, rfl, rfl⟩
  · obtain ⟨hl, hbpv⟩ := decodeCores_bitsPerValue u salt ns 0 plan hashKey s rest cs hns.le h
    exact ⟨hl.trans hns, hbpv⟩
  · subst hp; exact queryPenultimate_eq rt m key known h2 hcore
  · subst hp; exact queryLoop_cons_eq rt m key rest locator known p hj hcore hpj
  · obtain ⟨b, bs, hbs⟩ : ∃ b bs, setBits plan = b :: bs :=
      ⟨_, _, setBits_eq_cons hplan⟩
    have hcov := mem_phaseBounds_cover (hbs ▸ hb) (i := i)
    rw [← hbs] at hcov
    rw [hbs, bnd_cons_zero, hcov, ← hbs]
    simp only [List.mem_iff_getElem]
    constructor
    · rintro ⟨_, ⟨j, hj, rfl⟩, hlo, hhi⟩
      rw [getElem_phaseBounds] at hlo hhi
      exact ⟨j, by simpa [countOnes] using hj, hlo, hhi⟩
    · rintro ⟨j, hj, hlo, hhi⟩
      refine ⟨_, ⟨j, by simpa [countOnes] using hj, rfl⟩, ?_⟩
      rw [getElem_phaseBounds]; exact ⟨hlo, hhi⟩
  · exact hb.bnd_mono (by omega) (by rw [← countOnes]; omega)

/-- The plan with bits 0 and 31 splits into `[0, 31)` and `[31, 32)` in the same
way everywhere. -/
theorem phases_agree_bits_0_31 : (0x80000001#32 : Plan) ≠ 0 ∧ PhasesAgree 0x80000001#32 :=
  ⟨by decide, phases_agree _ (by decide)⟩

/-! ## A lawful codec

The laws asked of bincode's codecs can be met: `unary` writes `n` as `n` ones
and a zero, satisfies them on every value, and consumes its input. -/

def unaryEnc (n : Nat) : List UInt8 := List.replicate n 1 ++ [0]

def unaryDec : List UInt8 → Except String (Nat × List UInt8)
  | [] => .error "UnexpectedEnd"
  | x :: rest =>
    if x = 0 then .ok (0, rest) else
    match unaryDec rest with
    | .ok (n, r) => .ok (n + 1, r)
    | .error e => .error e

def unary : Codec Nat := ⟨unaryEnc, unaryDec⟩

/-- `unary` read as a `u32`. -/
def unaryU32 : Codec Locator :=
  ⟨fun x => unaryEnc x.toNat, fun s => (unaryDec s).map fun r => (BitVec.ofNat 32 r.1, r.2)⟩

theorem unaryDec_enc (n : Nat) (rest : List UInt8) : unaryDec (unaryEnc n ++ rest) = .ok (n, rest) := by
  induction n with
  | zero => rfl
  | succ n ih =>
    simp only [unaryEnc, List.replicate_succ, List.cons_append, List.append_assoc,
      List.singleton_append, List.nil_append] at ih ⊢
    simp [unaryDec, ih]

theorem unaryDec_short : ∀ (n : Nat) (s : List UInt8), s <+: unaryEnc n → s ≠ unaryEnc n →
    ∃ e, unaryDec s = .error e
  | _, [], _, _ => ⟨_, rfl⟩
  | 0, x :: s, hs, hne => by
    obtain ⟨rfl, hs'⟩ := List.cons_prefix_cons.1 hs
    exact absurd (by rw [List.prefix_nil.1 hs']; rfl) hne
  | n + 1, x :: s, hs, hne => by
    obtain ⟨rfl, hs'⟩ := List.cons_prefix_cons.1 hs
    obtain ⟨e, he⟩ := unaryDec_short n s hs' fun h => hne (by rw [h]; rfl)
    exact ⟨e, by simp [unaryDec, he]⟩

theorem unaryDec_consumes (s : List UInt8) (n : Nat) (rest : List UInt8)
    (h : unaryDec s = .ok (n, rest)) : rest.length ≤ s.length := by
  induction s generalizing n with
  | nil => cases h
  | cons x s ih =>
    simp only [unaryDec] at h
    split at h
    · cases h; simp
    · split at h
      · cases h; have := ih _ ‹_›; simp; omega
      · cases h


/-- The codecs of a map of `Nat` values, all unary. -/
def unaryBincode : Bincode Nat := ⟨unary, unaryU32, unary⟩

theorem unaryDec_lawful {dom : Nat → Prop} : unary.Lawful dom :=
  ⟨fun n _ rest => unaryDec_enc n rest, fun n _ s hs hne => unaryDec_short n s hs hne⟩

theorem unaryBincode_lawful : unaryBincode.Lawful where
  usize := unaryDec_lawful
  u32 := ⟨fun x _ rest => by simp [unaryBincode, unaryU32, unary, unaryDec_enc, Except.map],
    fun x _ s hs hne => by
      obtain ⟨e, he⟩ := unaryDec_short _ s hs hne
      exact ⟨e, by simp [unaryBincode, unaryU32, he, Except.map]⟩⟩
  value := unaryDec_lawful

theorem unaryBincode_consumes : unaryBincode.Consumes where
  usize := unaryDec_consumes
  u32 s a rest h := by
    simp only [unaryBincode, unaryU32, Except.map] at h
    split at h
    · cases h
    · rename_i v hv
      cases h; exact unaryDec_consumes s v.1 v.2 hv
  value := unaryDec_consumes

/-- A uniform map with blocks of one byte, deriving every key as `[0u8;16]`. -/
def byteUniform : Uniform := ⟨1, Nat.one_pos, fun _ _ => zeroKey⟩

/-- The bytes of a map with the table `[(0, 5), (2^31, 6)]` and one phase of all
32 bits, in two blocks. -/
def onePhaseBytes : List UInt8 :=
  magic ++ [1, 0, 1] ++ [1, 1, 1, 1, 1, 0] ++ [1, 1, 1, 1, 1, 1, 0] ++ zeroKey.val ++ [1, 0] ++
    [1, 1, 0] ++ List.replicate 64 7

/-- The map `borrow_decode` reads from `onePhaseBytes`. -/
def onePhaseMap : CompressedMap Nat :=
  ⟨1#32, [(0#32, 5), (0x80000000#32, 6)], [], [⟨zeroKey, 32, 2, List.replicate 64 7⟩]⟩

/-- With unary codecs, `onePhaseBytes` decode, so to a well-formed map. -/
theorem borrowDecode_wellFormed_onePhase :
    unaryBincode.Consumes ∧ onePhaseBytes.length < 2 ^ 63 ∧
      (borrowDecode unaryBincode byteUniform).run onePhaseBytes = .ok (onePhaseMap, []) ∧
      ∃ m rest, (borrowDecode unaryBincode byteUniform).run onePhaseBytes = .ok (m, rest) ∧
        WellFormed byteUniform m := by
  have hd : (borrowDecode unaryBincode byteUniform).run onePhaseBytes = .ok (onePhaseMap, []) := by
    rfl
  exact ⟨unaryBincode_consumes, by decide, hd,
    (borrowDecode_wellFormed_or_error unaryBincode byteUniform unaryBincode_consumes onePhaseBytes
      (by decide)).resolve_left fun ⟨_, he⟩ => by rw [hd] at he; cases he⟩

end FrayedCascade
