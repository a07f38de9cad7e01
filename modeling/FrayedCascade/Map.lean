import FrayedCascade.Phases

/-!
# The map and its collaborators

The state of a `CompressedMap`, and the parts of `uniform.rs` it is built from.
`uniform.rs` is not part of this development, so each collaborator is a
parameter with exactly the interface `nonuniform.rs` uses: the fields of
`MapCore` it reads and writes, the `BuildOptions` it passes down, the
sub-map's two lookups (`Retrieval`) and the sub-build (`SubBuilder`). What a
sub-build promises (`SubBuilder.Sound`) is stated where it is used.
-/

namespace FrayedCascade

/-- A phase's hash key, `[u8;16]`: exactly sixteen bytes. -/
abbrev HashKey := { key : List UInt8 // key.length = 16 }

/-- `[0u8;16]`. -/
def zeroKey : HashKey := ⟨List.replicate 16 0, rfl⟩

/-- The fields of a uniform sub-map's `MapCore` that `nonuniform.rs` touches. -/
structure MapCore where
  hashKey : HashKey
  bitsPerValue : Nat
  nblocks : Nat
  blocks : List UInt8
  deriving DecidableEq, Repr

/-- `CompressedMap<'a,K,V>`; its `PhantomData<K>` carries nothing. -/
structure CompressedMap (V : Type) where
  plan : Plan
  responseMap : List (Locator × V)
  salt : List UInt8
  core : List MapCore
  deriving DecidableEq, Repr

/-- `BuildOptions`; `shift` and `bits_per_value` matter only to sub-builds. -/
structure BuildOptions where
  maxTries : Nat
  tryNum : Nat
  keyGen : Option HashKey
  bitsPerValue : Option Nat
  shift : Nat
  maxThreads : Nat
  deriving DecidableEq, Repr

/-- The constants of `uniform.rs` the code uses: the block size of a core's
`blocks`, and `choose_key`, which derives a phase's hash key from its parent's
and a try number. -/
structure Uniform where
  blocksize : Nat
  blocksize_pos : 0 < blocksize
  chooseKey : Option HashKey → Nat → HashKey

/-- The uniform map's lookups: `MapCore::query_hash`, and
`CompressedRandomMap::try_query` of the sub-map a core belongs to. -/
structure Retrieval (K : Type) where
  queryHash : MapCore → K → Nat
  tryQuery : MapCore → K → Option Locator

/-- `CompressedRandomMap::<K,Locator>::build`, as `build` calls it: the pairs the
filtered vector yields and the phase's options in; the sub-map's core and the
`try_num` it leaves in the options out, or `None` when it gives up. -/
structure SubBuilder (K : Type) where
  build : List (K × Locator) → BuildOptions → Option (MapCore × Nat)

end FrayedCascade
