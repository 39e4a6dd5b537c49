import DynLocks.Lib.Critical
import DynLocks.Layout
import Mathlib.Data.Int.Order.Basic
import Mathlib.Data.Set.Insert

/-!
# DynLocks.Adapter.Object

`AdapterImpl`, the set of keys that the benchmark drives: one cell of an array
for each key, every operation in one call of `WriteQuery`.  A value is a
pointer, `no_value` the null pointer; `some i` points to `stored_keys_[i]`.

Each access of a function to the arrays is a step of its own.

* `toIndex_injective` — two keys between the bounds have two cells;
* `members` — the set that the arrays stand for.
-/

namespace DynLocks
namespace AdapterImpl

open Interleaving

/-! ## keys and cells -/

/-- The arguments of the constructor; the size of the array does not overflow `K`, an `int64_t`. -/
structure Config where
  keyMin : ℤ
  keyMax : ℤ
  numThreads : ℤ
  fits : keyMax - keyMin + 1 < 2 ^ 63

/-- `static_cast<size_t>` -/
def castSize (z : ℤ) : ℕ := (z % 2 ^ 64).toNat

namespace Config

variable (cfg : Config)

/-- A key that the benchmark inserts and deletes: one between the bounds. -/
abbrev Key : Type := {key : ℤ // cfg.keyMin < key ∧ key < cfg.keyMax}

/-- `ComputeArraySize` -/
def arraySize : ℕ :=
  if cfg.keyMax ≤ cfg.keyMin then 1 else castSize (cfg.keyMax - cfg.keyMin + 1)

/-- `ToIndex` -/
def toIndex (key : ℤ) : ℕ :=
  if key ≤ cfg.keyMin then 0
  else if key ≥ cfg.keyMax then cfg.arraySize - 1
  else castSize (key - cfg.keyMin)

/-- The size of `thread_checksums_`. -/
def checksums : ℤ := max cfg.numThreads 1

variable {cfg}

/-- The cell of a key is its distance from the lower bound. -/
theorem toIndex_key (key : cfg.Key) : (cfg.toIndex key : ℤ) = key - cfg.keyMin := by
  have hlo : cfg.keyMin < (key : ℤ) := key.property.1
  have hhi : (key : ℤ) < cfg.keyMax := key.property.2
  have hfits := cfg.fits
  have hsmall : ((key : ℤ) - cfg.keyMin) % 2 ^ 64 = key - cfg.keyMin :=
    Int.emod_eq_of_lt (by omega) (by omega)
  rw [toIndex, if_neg (by omega), if_neg (by omega), castSize, hsmall]
  exact Int.toNat_of_nonneg (by omega)

/-- **Cells of their own**: two keys have two cells. -/
theorem toIndex_injective {key key' : cfg.Key} (h : cfg.toIndex key = cfg.toIndex key') :
    key = key' := by
  have hkey := toIndex_key key
  have hkey' := toIndex_key key'
  apply Subtype.ext
  omega

theorem arraySize_pos (cfg : Config) : 0 < cfg.arraySize := by
  have hfits := cfg.fits
  unfold arraySize
  split
  · exact Nat.one_pos
  · have hsmall : (cfg.keyMax - cfg.keyMin + 1) % 2 ^ 64 = cfg.keyMax - cfg.keyMin + 1 :=
      Int.emod_eq_of_lt (by omega) (by omega)
    rw [castSize, hsmall]
    omega

/-- The cell of a key is one of the array. -/
theorem toIndex_lt (key : cfg.Key) : cfg.toIndex key < cfg.arraySize := by
  have hkey := toIndex_key key
  have hlo : cfg.keyMin < (key : ℤ) := key.property.1
  have hhi : (key : ℤ) < cfg.keyMax := key.property.2
  have hfits := cfg.fits
  have hsmall : (cfg.keyMax - cfg.keyMin + 1) % 2 ^ 64 = cfg.keyMax - cfg.keyMin + 1 :=
    Int.emod_eq_of_lt (by omega) (by omega)
  rw [arraySize, if_neg (by omega), castSize, hsmall]
  omega

end Config

/-! ## the arrays -/

/-- The members that the operations change. -/
structure Data where
  data : ℕ → UInt64
  present : ℕ → UInt8
  storedKeys : ℕ → ℤ
  threadChecksums : ℕ → UInt64
  rangeQueries : UInt64

/-- The members as the constructor leaves them. -/
def Data.init (cfg : Config) : Data where
  data _ := 0
  present _ := 0
  storedKeys _ := cfg.keyMin
  threadChecksums _ := 0
  rangeQueries := 0

/-- What an operation returns: a pointer, a truth value, or the `0` of `rangeQuery`. -/
inductive Result
  | value (v : Option ℕ)
  | member (b : Bool)
  | zero
  deriving DecidableEq

/-- The operations; `insert` and `insertIfAbsent` do not use the value they are given. -/
inductive Op (cfg : Config)
  | insert (key : cfg.Key)
  | insertIfAbsent (key : cfg.Key)
  | erase (key : cfg.Key)
  | find (key : cfg.Key)
  | contains (key : cfg.Key)
  | rangeQuery (tid lo hi : ℤ)

/-- The key of a point operation. -/
def Op.key? {cfg : Config} : Op cfg → Option cfg.Key
  | .insert key => some key
  | .insertIfAbsent key => some key
  | .erase key => some key
  | .find key => some key
  | .contains key => some key
  | .rangeQuery _ _ _ => none

/-- Where a thread stands in an operation, and its local variables; `out` is past the last access. -/
inductive Pc
  | test
  | setPresent (previous : Option ℕ)
  | storeKey (previous : Option ℕ)
  | storeData (previous : Option ℕ)
  | clearPresent (previous : Option ℕ)
  | clearData (previous : Option ℕ)
  | count (left right : ℕ)
  | loadUpdate (left right update : ℕ)
  | storeUpdate (left right update : ℕ) (value : UInt64)
  | loadLeft (left right update : ℕ)
  | loadRight (right update : ℕ) (checksum : UInt64)
  | loadAgain (update : ℕ) (checksum : UInt64)
  | loadChecksum (checksum : UInt64)
  | storeChecksum (sum : UInt64)
  | out (result : Result)

/-! ## the functions -/

section Functions

variable (cfg : Config) (d : Data)

/-- `ValueForIndex` if the cell is present, else `no_value_`. -/
def Data.valueAt (i : ℕ) : Option ℕ := if d.present i ≠ 0 then some i else none

/-- The three stores of the two inserts. -/
def storeFunc (key : cfg.Key) : Pc → Option (Data × Pc)
  | .setPresent previous =>
      some ({ d with present := Function.update d.present (cfg.toIndex key) 1 },
        .storeKey previous)
  | .storeKey previous =>
      some ({ d with storedKeys := Function.update d.storedKeys (cfg.toIndex key) key },
        .storeData previous)
  | .storeData previous =>
      some ({ d with data := Function.update d.data (cfg.toIndex key) (UInt64.ofInt key) },
        .out (.value previous))
  | _ => none

/-- The function of `insert`. -/
def insertFunc (key : cfg.Key) : Pc → Option (Data × Pc)
  | .test => some (d, .setPresent (d.valueAt (cfg.toIndex key)))
  | pc => storeFunc cfg d key pc

/-- The function of `insertIfAbsent`. -/
def insertIfAbsentFunc (key : cfg.Key) : Pc → Option (Data × Pc)
  | .test =>
      some (d, if d.present (cfg.toIndex key) ≠ 0 then .out (.value (some (cfg.toIndex key)))
        else .setPresent none)
  | pc => storeFunc cfg d key pc

/-- The function of `erase`. -/
def eraseFunc (key : cfg.Key) : Pc → Option (Data × Pc)
  | .test =>
      some (d, if d.present (cfg.toIndex key) = 0 then .out (.value none)
        else .clearPresent (some (cfg.toIndex key)))
  | .clearPresent previous =>
      some ({ d with present := Function.update d.present (cfg.toIndex key) 0 },
        .clearData previous)
  | .clearData previous =>
      some ({ d with data := Function.update d.data (cfg.toIndex key) 0 }, .out (.value previous))
  | _ => none

/-- The function of `find`. -/
def findFunc (key : cfg.Key) : Pc → Option (Data × Pc)
  | .test => some (d, .out (.value (d.valueAt (cfg.toIndex key))))
  | _ => none

/-- The function of `contains`. -/
def containsFunc (key : cfg.Key) : Pc → Option (Data × Pc)
  | .test => some (d, .out (.member (d.present (cfg.toIndex key) != 0)))
  | _ => none

/-- The function of `rangeQuery`. -/
def rangeQueryFunc : Pc → Option (Data × Pc)
  | .count left right =>
      some ({ d with rangeQueries := d.rangeQueries + 1 },
        .loadUpdate left right (left + d.rangeQueries.toNat % (right - left + 1)))
  | .loadUpdate left right update => some (d, .storeUpdate left right update (d.data update))
  | .storeUpdate left right update value =>
      some ({ d with data := Function.update d.data update (value + 1) },
        .loadLeft left right update)
  | .loadLeft left right update => some (d, .loadRight right update (d.data left))
  | .loadRight right update checksum =>
      some (d, .loadAgain update (checksum ^^^ (d.data right <<< 1)))
  | .loadAgain update checksum => some (d, .loadChecksum (checksum ^^^ d.data update))
  | _ => none

/-- What `rangeQuery` does after the call of the lock. -/
def rangeQueryRest (tid : ℤ) : Pc → Option (Data × Pc)
  | .loadChecksum checksum =>
      some (d, if 0 ≤ tid ∧ tid < cfg.checksums then
          .storeChecksum (d.threadChecksums tid.toNat + checksum)
        else .out .zero)
  | .storeChecksum sum =>
      some ({ d with threadChecksums := Function.update d.threadChecksums tid.toNat sum },
        .out .zero)
  | _ => none

end Functions

variable {cfg : Config}

/-- The range that an operation asks the lock for. -/
def Op.args : Op cfg → ℕ × ℕ
  | .insert key => (cfg.toIndex key, cfg.toIndex key)
  | .insertIfAbsent key => (cfg.toIndex key, cfg.toIndex key)
  | .erase key => (cfg.toIndex key, cfg.toIndex key)
  | .find key => (cfg.toIndex key, cfg.toIndex key)
  | .contains key => (cfg.toIndex key, cfg.toIndex key)
  | .rangeQuery _ lo hi =>
      if cfg.toIndex lo > cfg.toIndex hi then (cfg.toIndex hi, cfg.toIndex lo)
      else (cfg.toIndex lo, cfg.toIndex hi)

/-- Where the function of an operation begins. -/
def Op.begins : Op cfg → ℕ × ℕ → Pc
  | .rangeQuery _ _ _, range => .count range.1 range.2
  | _, _ => .test

/-- One step of the function of an operation. -/
def Op.func : Op cfg → Data → Pc → Option (Data × Pc)
  | .insert key, d, pc => insertFunc cfg d key pc
  | .insertIfAbsent key, d, pc => insertIfAbsentFunc cfg d key pc
  | .erase key, d, pc => eraseFunc cfg d key pc
  | .find key, d, pc => findFunc cfg d key pc
  | .contains key, d, pc => containsFunc cfg d key pc
  | .rangeQuery _ _ _, d, pc => rangeQueryFunc d pc

/-- One step of what follows the call of the lock. -/
def Op.rest : Op cfg → Data → Pc → Option (Data × Pc)
  | .rangeQuery tid _ _, d, pc => rangeQueryRest cfg d tid pc
  | _, _, _ => none

/-- What an operation returns. -/
def Pc.result : Pc → Option Result
  | .out result => some result
  | _ => none

variable (cfg) in
/-- The set as an object under a lock for ranges. -/
def object : Object (Op cfg) Data Pc Result where
  data := .init cfg
  args := Op.args
  begins := Op.begins
  func := Op.func
  rest := Op.rest
  result := Pc.result

/-! ## the set -/

variable (cfg) in
/-- The keys whose cells are present. -/
def members (d : Data) : Set cfg.Key := {key | d.present (cfg.toIndex key) ≠ 0}

/-- What the operations do to the set, and what they return: the null pointer exactly if the key
was absent. -/
def Spec : Op cfg → Set cfg.Key → Result → Set cfg.Key → Prop
  | .insert key, keys, r, keys' =>
      (∃ v, r = .value v ∧ (v = none ↔ key ∉ keys)) ∧ keys' = insert key keys
  | .insertIfAbsent key, keys, r, keys' =>
      (∃ v, r = .value v ∧ (v = none ↔ key ∉ keys)) ∧ keys' = insert key keys
  | .erase key, keys, r, keys' =>
      (∃ v, r = .value v ∧ (v = none ↔ key ∉ keys)) ∧ keys' = keys \ {key}
  | .find key, keys, r, keys' => (∃ v, r = .value v ∧ (v = none ↔ key ∉ keys)) ∧ keys' = keys
  | .contains key, keys, r, keys' => (∃ b, r = .member b ∧ (b = true ↔ key ∈ keys)) ∧ keys' = keys
  | .rangeQuery _ _ _, keys, r, keys' => r = .zero ∧ keys' = keys

end AdapterImpl
end DynLocks
