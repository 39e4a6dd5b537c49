import DynLocks.Adapter.Object
import DynLocks.Dynamic.RangeLock
import DynLocks.Naive.RangeLock

/-!
# DynLocks.Adapter.Linearizable

The operations of `AdapterImpl` take effect one after the other.

* `protects` — a cell that is present holds its own key unless a function is at
  work on it, and what each function knows of its cell;
* `rules` — each operation changes the set in one step of its function;
* `linearizable_of_sound` — so they do over every lock for ranges, and over
  `DynamicLock` and `NaiveLock` (`linearizable`).
-/

namespace DynLocks
namespace AdapterImpl

open Interleaving

variable {cfg : Config}

/-! ## what is known of a cell -/

variable (cfg) in
/-- A cell that is present holds its own key. -/
def Cell (i : ℕ) (d : Data) : Prop := d.present i ≠ 0 → d.storedKeys i = cfg.keyMin + i

/-- A pointer that is not null points to the cell of the key, which holds the key. -/
def PointsTo (d : Data) (key : cfg.Key) (v : Option ℕ) : Prop :=
  ∀ i, v = some i → i = cfg.toIndex key ∧ d.storedKeys i = key

/-- What is known past the last access to the cell. -/
def OutKnown (d : Data) (key : cfg.Key) (r : Result) : Prop :=
  Cell cfg (cfg.toIndex key) d ∧ ∀ v, r = .value v → PointsTo d key v

/-- What the two inserts know of their cell. -/
def InsertKnown (d : Data) (key : cfg.Key) : Pc → Prop
  | .test => Cell cfg (cfg.toIndex key) d
  | .setPresent previous =>
      previous = d.valueAt (cfg.toIndex key) ∧ Cell cfg (cfg.toIndex key) d
  | .storeKey previous => PointsTo d key previous
  | .storeData previous => PointsTo d key previous ∧ Cell cfg (cfg.toIndex key) d
  | .out r => OutKnown d key r
  | _ => False

/-- What `erase` knows of its cell. -/
def EraseKnown (d : Data) (key : cfg.Key) : Pc → Prop
  | .test => Cell cfg (cfg.toIndex key) d
  | .clearPresent previous =>
      previous = some (cfg.toIndex key) ∧ d.present (cfg.toIndex key) ≠ 0 ∧
        Cell cfg (cfg.toIndex key) d
  | .clearData previous => PointsTo d key previous ∧ Cell cfg (cfg.toIndex key) d
  | .out r => OutKnown d key r
  | _ => False

/-- What `find` and `contains` know of their cell. -/
def LookupKnown (d : Data) (key : cfg.Key) : Pc → Prop
  | .test => Cell cfg (cfg.toIndex key) d
  | .out r => OutKnown d key r
  | _ => False

/-- Where `rangeQuery` may stand in its function. -/
def Pc.Counting : Pc → Prop
  | .count _ _ => True
  | .loadUpdate _ _ _ => True
  | .storeUpdate _ _ _ _ => True
  | .loadLeft _ _ _ => True
  | .loadRight _ _ _ => True
  | .loadAgain _ _ => True
  | .loadChecksum _ => True
  | _ => False

/-- The range on which the function of an operation runs. -/
def Op.range (op : Op cfg) : ℕ × ℕ := (object cfg).range (clampRange cfg.arraySize) op

/-- What an operation knows inside its function. -/
def Known : Op cfg → Data → Pc → Prop
  | .insert key, d, pc => InsertKnown d key pc
  | .insertIfAbsent key, d, pc => InsertKnown d key pc
  | .erase key, d, pc => EraseKnown d key pc
  | .find key, d, pc => LookupKnown d key pc
  | .contains key, d, pc => LookupKnown d key pc
  | .rangeQuery tid lo hi, d, pc =>
      pc.Counting ∧ ∀ i, Object.Covers (Op.range (.rangeQuery tid lo hi : Op cfg)) i →
        Cell cfg i d

/-- A point operation runs on the cell of its key. -/
theorem covers_iff {op : Op cfg} {key : cfg.Key} (h : op.key? = some key) {i : ℕ} :
    Object.Covers op.range i ↔ i = cfg.toIndex key := by
  have hself : clampRange cfg.arraySize (cfg.toIndex key) (cfg.toIndex key) =
      (cfg.toIndex key, cfg.toIndex key) := clampRange_eq_self le_rfl (Config.toIndex_lt key)
  have hrange : op.range = (cfg.toIndex key, cfg.toIndex key) := by
    cases op with
    | rangeQuery => contradiction
    | _ => cases h; exact hself
  rw [hrange, Object.Covers]
  exact ⟨fun h => Nat.le_antisymm h.2 h.1, fun h => ⟨h.ge, h.le⟩⟩

/-- The data agree on the presence and the key of a cell. -/
def Same (d d' : Data) (i : ℕ) : Prop :=
  d'.present i = d.present i ∧ d'.storedKeys i = d.storedKeys i

/-- What is known of a cell is known of one that looks the same. -/
theorem Cell.congr {d d' : Data} {i : ℕ} (hsame : Same d d' i) (h : Cell cfg i d) :
    Cell cfg i d' := by
  rw [Cell, hsame.1, hsame.2]
  exact h

theorem PointsTo.congr {d d' : Data} {key : cfg.Key} {v : Option ℕ}
    (hsame : Same d d' (cfg.toIndex key)) (h : PointsTo d key v) : PointsTo d' key v := by
  intro i hi
  obtain ⟨rfl, hkey⟩ := h i hi
  exact ⟨rfl, hsame.2.trans hkey⟩

theorem OutKnown.congr {d d' : Data} {key : cfg.Key} {r : Result}
    (hsame : Same d d' (cfg.toIndex key)) (h : OutKnown d key r) : OutKnown d' key r :=
  ⟨h.1.congr hsame, fun v hv => (h.2 v hv).congr hsame⟩

theorem Data.valueAt_congr {d d' : Data} {i : ℕ} (hsame : Same d d' i) :
    d'.valueAt i = d.valueAt i := by
  rw [Data.valueAt, Data.valueAt, hsame.1]

theorem InsertKnown.congr {d d' : Data} {key : cfg.Key} {pc : Pc}
    (hsame : Same d d' (cfg.toIndex key)) (h : InsertKnown d key pc) : InsertKnown d' key pc := by
  cases pc with
  | test => exact Cell.congr hsame h
  | setPresent => exact ⟨h.1.trans (Data.valueAt_congr hsame).symm, h.2.congr hsame⟩
  | storeKey => exact PointsTo.congr hsame h
  | storeData => exact ⟨h.1.congr hsame, h.2.congr hsame⟩
  | out => exact OutKnown.congr hsame h
  | _ => exact h

theorem EraseKnown.congr {d d' : Data} {key : cfg.Key} {pc : Pc}
    (hsame : Same d d' (cfg.toIndex key)) (h : EraseKnown d key pc) : EraseKnown d' key pc := by
  cases pc with
  | test => exact Cell.congr hsame h
  | clearPresent => exact ⟨h.1, by rw [hsame.1]; exact h.2.1, h.2.2.congr hsame⟩
  | clearData => exact ⟨h.1.congr hsame, h.2.congr hsame⟩
  | out => exact OutKnown.congr hsame h
  | _ => exact h

theorem LookupKnown.congr {d d' : Data} {key : cfg.Key} {pc : Pc}
    (hsame : Same d d' (cfg.toIndex key)) (h : LookupKnown d key pc) : LookupKnown d' key pc := by
  cases pc with
  | test => exact Cell.congr hsame h
  | out => exact OutKnown.congr hsame h
  | _ => exact h

/-- What an operation knows depends on its own cells only. -/
theorem Known.congr {op : Op cfg} {d d' : Data} {pc : Pc}
    (hsame : ∀ i, Object.Covers op.range i → Same d d' i) (h : Known op d pc) :
    Known op d' pc := by
  have hown : ∀ key : cfg.Key, op.key? = some key → Same d d' (cfg.toIndex key) := by
    intro key hkey
    exact hsame _ ((covers_iff hkey).mpr rfl)
  cases op with
  | insert key => exact InsertKnown.congr (hown key rfl) h
  | insertIfAbsent key => exact InsertKnown.congr (hown key rfl) h
  | erase key => exact EraseKnown.congr (hown key rfl) h
  | find key => exact LookupKnown.congr (hown key rfl) h
  | contains key => exact LookupKnown.congr (hown key rfl) h
  | rangeQuery => exact ⟨h.1, fun i hi => (h.2 i hi).congr (hsame i hi)⟩

/-! ## what a step of a function does to the cells -/

/-- A step of a point operation leaves the cells of all other keys alone, and a step of `rangeQuery`
all cells. -/
theorem same_of_func {op : Op cfg} {d d' : Data} {pc pc' : Pc}
    (h : op.func d pc = some (d', pc')) {i : ℕ}
    (hi : ∀ key : cfg.Key, op.key? = some key → i ≠ cfg.toIndex key) : Same d d' i := by
  have hstore : ∀ key : cfg.Key, i ≠ cfg.toIndex key →
      storeFunc cfg d key pc = some (d', pc') → Same d d' i := by
    intro key hne hstep
    cases pc with
    | setPresent => cases hstep; exact ⟨Function.update_of_ne hne _ _, rfl⟩
    | storeKey => cases hstep; exact ⟨rfl, Function.update_of_ne hne _ _⟩
    | storeData => cases hstep; exact ⟨rfl, rfl⟩
    | _ => contradiction
  cases op with
  | insert key =>
      have hne := hi key rfl
      cases pc with
      | test => cases h; exact ⟨rfl, rfl⟩
      | _ => exact hstore key hne h
  | insertIfAbsent key =>
      have hne := hi key rfl
      cases pc with
      | test => cases h; exact ⟨rfl, rfl⟩
      | _ => exact hstore key hne h
  | erase key =>
      have hne := hi key rfl
      cases pc with
      | test => cases h; exact ⟨rfl, rfl⟩
      | clearPresent => cases h; exact ⟨Function.update_of_ne hne _ _, rfl⟩
      | clearData => cases h; exact ⟨rfl, rfl⟩
      | _ => contradiction
  | find key =>
      cases pc with
      | test => cases h; exact ⟨rfl, rfl⟩
      | _ => contradiction
  | contains key =>
      cases pc with
      | test => cases h; exact ⟨rfl, rfl⟩
      | _ => contradiction
  | rangeQuery => cases pc <;> cases h <;> exact ⟨rfl, rfl⟩

/-- What follows the call of the lock leaves all cells alone. -/
theorem same_of_rest {op : Op cfg} {d d' : Data} {pc pc' : Pc}
    (h : op.rest d pc = some (d', pc')) (i : ℕ) : Same d d' i := by
  cases op with
  | rangeQuery => cases pc <;> cases h <;> exact ⟨rfl, rfl⟩
  | _ => contradiction

/-- The pointer to the value of a cell points to its key. -/
theorem pointsTo_valueAt {d : Data} {key : cfg.Key} (h : Cell cfg (cfg.toIndex key) d) :
    PointsTo d key (d.valueAt (cfg.toIndex key)) := by
  intro i hi
  rw [Data.valueAt] at hi
  split at hi
  · next hpresent =>
      cases hi
      have hkey := Config.toIndex_key key
      exact ⟨rfl, by rw [h hpresent]; omega⟩
  · contradiction

theorem pointsTo_none {d : Data} {key : cfg.Key} : PointsTo d key none := by
  intro i hi
  contradiction

/-- What is known at the end of a function that returns what the cell holds. -/
theorem outKnown_value {d : Data} {key : cfg.Key} {v : Option ℕ}
    (hcell : Cell cfg (cfg.toIndex key) d) (hpoints : PointsTo d key v) :
    OutKnown d key (.value v) := by
  refine ⟨hcell, fun v' hv => ?_⟩
  cases hv
  exact hpoints

/-- The three stores of an insert. -/
theorem insertKnown_store {d d' : Data} {key : cfg.Key} {pc pc' : Pc} (h : InsertKnown d key pc)
    (hstep : storeFunc cfg d key pc = some (d', pc')) : InsertKnown d' key pc' := by
  cases pc with
  | setPresent previous =>
      cases hstep
      have hpoints := pointsTo_valueAt h.2
      rw [← h.1] at hpoints
      exact hpoints
  | storeKey previous =>
      cases hstep
      have hkey := Config.toIndex_key key
      have hstored : Function.update d.storedKeys (cfg.toIndex key) (key : ℤ) (cfg.toIndex key) =
          key := Function.update_self ..
      refine ⟨fun i hi => ⟨(h i hi).1, ?_⟩, fun _ => ?_⟩
      · rw [(h i hi).1]
        exact hstored
      · exact hstored.trans (by omega)
  | storeData previous =>
      cases hstep
      exact outKnown_value h.2 h.1
  | _ => contradiction

/-- A step of a function keeps what the function knows. -/
theorem known_of_func {op : Op cfg} {d d' : Data} {pc pc' : Pc} (h : Known op d pc)
    (hstep : op.func d pc = some (d', pc')) : Known op d' pc' := by
  cases op with
  | insert key =>
      have hknown : InsertKnown d key pc := h
      cases pc with
      | test => cases hstep; exact ⟨rfl, h⟩
      | _ => exact insertKnown_store hknown hstep
  | insertIfAbsent key =>
      have hknown : InsertKnown d key pc := h
      cases pc with
      | test =>
          have hcell : Cell cfg (cfg.toIndex key) d := h
          have hpoints := pointsTo_valueAt hcell
          cases hstep
          by_cases hpresent : d.present (cfg.toIndex key) ≠ 0
          · rw [if_pos hpresent]
            rw [Data.valueAt, if_pos hpresent] at hpoints
            exact outKnown_value hcell hpoints
          · rw [if_neg hpresent]
            exact ⟨by rw [Data.valueAt, if_neg hpresent], hcell⟩
      | _ => exact insertKnown_store hknown hstep
  | erase key =>
      cases pc with
      | test =>
          have hcell : Cell cfg (cfg.toIndex key) d := h
          cases hstep
          by_cases hpresent : d.present (cfg.toIndex key) = 0
          · rw [if_pos hpresent]
            exact outKnown_value hcell pointsTo_none
          · rw [if_neg hpresent]
            exact ⟨rfl, hpresent, hcell⟩
      | clearPresent previous =>
          obtain ⟨rfl, hpresent, hcell⟩ := h
          cases hstep
          have hpoints := pointsTo_valueAt hcell
          rw [Data.valueAt, if_pos hpresent] at hpoints
          refine ⟨hpoints, fun hset => absurd ?_ hset⟩
          exact Function.update_self ..
      | clearData previous => cases hstep; exact outKnown_value h.2 h.1
      | _ => contradiction
  | find key =>
      cases pc with
      | test => cases hstep; exact outKnown_value h (pointsTo_valueAt h)
      | _ => contradiction
  | contains key =>
      cases pc with
      | test => cases hstep; exact ⟨h, fun v hv => by contradiction⟩
      | _ => contradiction
  | rangeQuery tid lo hi =>
      have hsame : ∀ i, Same d d' i := fun i => same_of_func hstep fun key hkey => by contradiction
      refine ⟨?_, fun i hi => (h.2 i hi).congr (hsame i)⟩
      cases pc <;> cases hstep <;> trivial

/-- A function that returns leaves its cells in order. -/
theorem cell_of_func_none {op : Op cfg} {d : Data} {pc : Pc} (h : Known op d pc)
    (hstep : op.func d pc = none) {i : ℕ} (hi : Object.Covers op.range i) : Cell cfg i d := by
  have hlookup : ∀ key : cfg.Key, LookupKnown d key pc → Cell cfg (cfg.toIndex key) d := by
    intro key hknown
    cases pc with
    | test => exact hknown
    | out => exact hknown.1
    | _ => exact hknown.elim
  have hinsert : ∀ key : cfg.Key, storeFunc cfg d key pc = none → InsertKnown d key pc →
      Cell cfg (cfg.toIndex key) d := by
    intro key hnone hknown
    cases pc with
    | test => exact hknown
    | setPresent => exact hknown.2
    | storeKey => contradiction
    | storeData => exact hknown.2
    | out => exact hknown.1
    | _ => exact hknown.elim
  cases op with
  | insert key =>
      rw [(covers_iff rfl).mp hi]
      cases pc with
      | test => contradiction
      | _ => exact hinsert key hstep h
  | insertIfAbsent key =>
      rw [(covers_iff rfl).mp hi]
      cases pc with
      | test => contradiction
      | _ => exact hinsert key hstep h
  | erase key =>
      rw [(covers_iff rfl).mp hi]
      cases pc with
      | test => exact h
      | clearPresent => exact h.2.2
      | clearData => exact h.2
      | out => exact h.1
      | _ => exact h.elim
  | find key => rw [(covers_iff rfl).mp hi]; exact hlookup key h
  | contains key => rw [(covers_iff rfl).mp hi]; exact hlookup key h
  | rangeQuery => exact h.2 i hi

variable (cfg) in
/-- **What the lock protects**: a present cell holds its key unless a function is at work on it. -/
theorem protects :
    (object cfg).Protects (clampRange cfg.arraySize) (Cell cfg) Known where
  init i h := absurd rfl h
  begins {op d} h := by
    cases op with
    | rangeQuery => exact ⟨trivial, h⟩
    | insert key => exact h _ ((covers_iff rfl).mpr rfl)
    | insertIfAbsent key => exact h _ ((covers_iff rfl).mpr rfl)
    | erase key => exact h _ ((covers_iff rfl).mpr rfl)
    | find key => exact h _ ((covers_iff rfl).mpr rfl)
    | contains key => exact h _ ((covers_iff rfl).mpr rfl)
  func := known_of_func
  returns h hstep i hi := cell_of_func_none h hstep hi
  frameCell hstep i hi h := h.congr (same_of_func hstep fun key hkey heq =>
    hi ((covers_iff hkey).mpr heq))
  frameKnown hstep op' pc' hapart h := h.congr fun i hi =>
    same_of_func hstep fun key hkey heq => hapart i ((covers_iff hkey).mpr heq) hi
  rest hstep :=
    ⟨fun i h => h.congr (same_of_rest hstep i), fun op' pc' h =>
      h.congr fun i _ => same_of_rest hstep i⟩

/-! ## when an operation takes effect -/

/-- What the operation will return, once that is settled: with the last access to `present_`, or at
once in `rangeQuery`. -/
def Pc.effect : Pc → Option Result
  | .test => none
  | .setPresent _ => none
  | .storeKey previous => some (.value previous)
  | .storeData previous => some (.value previous)
  | .clearPresent _ => none
  | .clearData previous => some (.value previous)
  | .count _ _ => none
  | .out r => some r
  | _ => some .zero

theorem members_congr {d d' : Data} (h : d'.present = d.present) : members cfg d' = members cfg d := by
  rw [members, members, h]

/-- A key is in the set while its cell is marked. -/
theorem mem_members {d : Data} {key : cfg.Key} :
    key ∈ members cfg d ↔ d.present (cfg.toIndex key) ≠ 0 := Iff.rfl

/-- A cell that is not marked gives no pointer. -/
theorem valueAt_eq_none {d : Data} {key : cfg.Key} :
    d.valueAt (cfg.toIndex key) = none ↔ key ∉ members cfg d := by
  rw [mem_members, Data.valueAt]
  split <;> simp [*]

/-- A store to one cell of `present_` adds its key or removes it. -/
theorem mem_members_update {d : Data} {key key' : cfg.Key} {b : UInt8} :
    key' ∈ members cfg { d with present := Function.update d.present (cfg.toIndex key) b } ↔
      if key' = key then b ≠ 0 else key' ∈ members cfg d := by
  rw [mem_members]
  dsimp only
  by_cases heq : key' = key
  · rw [if_pos heq, heq, Function.update_self]
  · rw [if_neg heq, Function.update_of_ne fun hindex => heq (Config.toIndex_injective hindex)]
    exact Iff.rfl

/-- Marking a cell inserts its key. -/
theorem members_set {d : Data} {key : cfg.Key} :
    members cfg { d with present := Function.update d.present (cfg.toIndex key) 1 } =
      insert key (members cfg d) := by
  ext key'
  rw [mem_members_update, Set.mem_insert_iff]
  split <;> simp [*]

/-- Clearing the mark erases it. -/
theorem members_clear {d : Data} {key : cfg.Key} :
    members cfg { d with present := Function.update d.present (cfg.toIndex key) 0 } =
      members cfg d \ {key} := by
  ext key'
  rw [mem_members_update, Set.mem_sdiff, Set.mem_singleton_iff]
  split <;> simp [*]

/-- A step of the three stores of an insert. -/
theorem storeFunc_effect {d d' : Data} {key : cfg.Key} {pc pc' : Pc} (h : InsertKnown d key pc)
    (hstep : storeFunc cfg d key pc = some (d', pc')) :
    (members cfg d' = members cfg d ∧ pc'.effect = pc.effect) ∨
      (pc.effect = none ∧ ∃ r, pc'.effect = some r ∧
        (∃ v, r = .value v ∧ (v = none ↔ key ∉ members cfg d)) ∧
          members cfg d' = insert key (members cfg d)) := by
  cases pc with
  | setPresent previous =>
      obtain ⟨rfl, -⟩ := h
      cases hstep
      exact Or.inr ⟨rfl, _, rfl, ⟨_, rfl, valueAt_eq_none⟩, members_set⟩
  | storeKey => cases hstep; exact Or.inl ⟨rfl, rfl⟩
  | storeData => cases hstep; exact Or.inl ⟨rfl, rfl⟩
  | _ => contradiction

/-- A step of a function changes nothing, or lets the operation take effect. -/
theorem func_effect {op : Op cfg} {d d' : Data} {pc pc' : Pc} (h : Known op d pc)
    (hstep : op.func d pc = some (d', pc')) :
    (members cfg d' = members cfg d ∧ pc'.effect = pc.effect) ∨
      (pc.effect = none ∧ ∃ r, pc'.effect = some r ∧
        Spec op (members cfg d) r (members cfg d')) := by
  cases op with
  | insert key =>
      have hknown : InsertKnown d key pc := h
      cases pc with
      | test => cases hstep; exact Or.inl ⟨rfl, rfl⟩
      | _ => exact storeFunc_effect hknown hstep
  | insertIfAbsent key =>
      have hknown : InsertKnown d key pc := h
      cases pc with
      | test =>
          cases hstep
          by_cases hpresent : d.present (cfg.toIndex key) ≠ 0
          · have hmem : key ∈ members cfg d := hpresent
            rw [if_pos hpresent]
            refine Or.inr ⟨rfl, _, rfl, ⟨_, rfl, by simp [hmem]⟩, ?_⟩
            exact (Set.insert_eq_of_mem hmem).symm
          · rw [if_neg hpresent]
            exact Or.inl ⟨rfl, rfl⟩
      | _ => exact storeFunc_effect hknown hstep
  | erase key =>
      cases pc with
      | test =>
          cases hstep
          by_cases hpresent : d.present (cfg.toIndex key) = 0
          · have hmem : key ∉ members cfg d := fun hmem => hmem hpresent
            rw [if_pos hpresent]
            refine Or.inr ⟨rfl, _, rfl, ⟨_, rfl, by simp [hmem]⟩, ?_⟩
            exact (Set.sdiff_singleton_eq_self hmem).symm
          · rw [if_neg hpresent]
            exact Or.inl ⟨rfl, rfl⟩
      | clearPresent previous =>
          obtain ⟨rfl, hpresent, -⟩ := h
          have hmem : key ∈ members cfg d := hpresent
          cases hstep
          exact Or.inr ⟨rfl, _, rfl, ⟨_, rfl, by simp [hmem]⟩, members_clear⟩
      | clearData => cases hstep; exact Or.inl ⟨rfl, rfl⟩
      | _ => contradiction
  | find key =>
      cases pc with
      | test => cases hstep; exact Or.inr ⟨rfl, _, rfl, ⟨_, rfl, valueAt_eq_none⟩, rfl⟩
      | _ => contradiction
  | contains key =>
      cases pc with
      | test =>
          cases hstep
          refine Or.inr ⟨rfl, _, rfl, ⟨_, rfl, ?_⟩, rfl⟩
          rw [mem_members, bne_iff_ne]
      | _ => contradiction
  | rangeQuery =>
      cases pc with
      | count => cases hstep; exact Or.inr ⟨rfl, _, rfl, rfl, rfl⟩
      | _ => cases hstep <;> exact Or.inl ⟨rfl, rfl⟩

/-- Where an operation may stand behind its function: with its result, and `rangeQuery` on the way
to it. -/
def Behind : Op cfg → Pc → Prop
  | .rangeQuery _ _ _, .loadChecksum _ => True
  | .rangeQuery _ _ _, .storeChecksum _ => True
  | _, .out _ => True
  | _, _ => False

/-- A function that returns is past its last access. -/
theorem behind_of_func_none {op : Op cfg} {d : Data} {pc : Pc} (h : Known op d pc)
    (hstep : op.func d pc = none) : Behind op pc := by
  cases op with
  | rangeQuery =>
      cases pc with
      | loadChecksum => trivial
      | _ => first | contradiction | exact h.1.elim
  | _ =>
      cases pc with
      | out => trivial
      | _ => contradiction

/-- What follows the call of the lock ends with a result. -/
theorem exists_result {op : Op cfg} {d : Data} {pc : Pc} (h : Behind op pc)
    (hstep : op.rest d pc = none) : ∃ r, pc.result = some r := by
  cases op with
  | rangeQuery =>
      cases pc with
      | out r => exact ⟨r, rfl⟩
      | _ => contradiction
  | _ =>
      cases pc with
      | out r => exact ⟨r, rfl⟩
      | _ => exact False.elim h

variable (cfg) in
/-- **One step each**: every operation changes the set as it should, in one step of its function,
and has a result when it returns. -/
theorem rules : (object cfg).Rules (members cfg) Pc.effect Spec Known Behind where
  begins op range := by
    cases op <;> rfl
  func := func_effect
  rest {op d pc d' pc'} hstep := by
    have hpresent : d'.present = d.present := funext fun i => (same_of_rest hstep i).1
    refine ⟨members_congr hpresent, ?_⟩
    cases op with
    | rangeQuery tid lo hi =>
        cases pc with
        | loadChecksum checksum =>
            cases hstep
            split <;> rfl
        | storeChecksum => cases hstep; rfl
        | _ => contradiction
    | _ => contradiction
  result {pc v} h := by
    cases pc with
    | out => exact h
    | _ => contradiction
  leaves := behind_of_func_none
  behind {op d pc d' pc'} h hstep := by
    cases op with
    | rangeQuery tid lo hi =>
        cases pc with
        | loadChecksum checksum =>
            cases hstep
            split <;> trivial
        | storeChecksum => cases hstep; trivial
        | _ => contradiction
    | _ => contradiction
  returns := exists_result

/-! ## the pointers -/

/-- A pointer among the results points to the cell of the operation's key, which holds the key. -/
def Settled (d : Data) (op : Op cfg) (r : Result) : Prop :=
  ∀ i, r = .value (some i) → ∃ key : cfg.Key, op.key? = some key ∧ i = cfg.toIndex key ∧
    d.storedKeys i = key

/-- A cell that holds its key keeps it. -/
theorem storedKeys_of_func {op : Op cfg} {d d' : Data} {pc pc' : Pc} {key : cfg.Key}
    (h : d.storedKeys (cfg.toIndex key) = key) (hstep : op.func d pc = some (d', pc')) :
    d'.storedKeys (cfg.toIndex key) = key := by
  by_cases hkey : op.key? = some key
  · have hstore : storeFunc cfg d key pc = some (d', pc') →
        d'.storedKeys (cfg.toIndex key) = key := by
      intro hstep
      cases pc with
      | setPresent => cases hstep; exact h
      | storeKey => cases hstep; exact Function.update_self ..
      | storeData => cases hstep; exact h
      | _ => contradiction
    cases op with
    | insert key' =>
        cases hkey
        cases pc with
        | test => cases hstep; exact h
        | _ => exact hstore hstep
    | insertIfAbsent key' =>
        cases hkey
        cases pc with
        | test => cases hstep; exact h
        | _ => exact hstore hstep
    | erase key' => cases pc <;> cases hstep <;> exact h
    | find key' =>
        cases pc with
        | test => cases hstep; exact h
        | _ => contradiction
    | contains key' =>
        cases pc with
        | test => cases hstep; exact h
        | _ => contradiction
    | rangeQuery => contradiction
  · have hsame : Same d d' (cfg.toIndex key) := same_of_func hstep fun key' hkey' hindex =>
      hkey (hkey'.trans (congrArg some (Config.toIndex_injective hindex).symm))
    exact hsame.2.trans h

/-- What a function that returns has settled. -/
theorem settled_of_func_none {op : Op cfg} {d : Data} {pc : Pc} (h : Known op d pc)
    (hstep : op.func d pc = none) {r : Result} (hr : pc.effect = some r) : Settled d op r := by
  have hout : ∀ key : cfg.Key, op.key? = some key → OutKnown d key r → Settled d op r := by
    rintro key hkey hknown i rfl
    obtain ⟨hindex, hstored⟩ := hknown.2 _ rfl i rfl
    exact ⟨key, hkey, hindex, hstored⟩
  cases op with
  | insert key =>
      cases pc with
      | out => cases hr; exact hout key rfl h
      | _ => contradiction
  | insertIfAbsent key =>
      cases pc with
      | out => cases hr; exact hout key rfl h
      | _ => contradiction
  | erase key =>
      cases pc with
      | out => cases hr; exact hout key rfl h
      | _ => contradiction
  | find key =>
      cases pc with
      | out => cases hr; exact hout key rfl h
      | _ => contradiction
  | contains key =>
      cases pc with
      | out => cases hr; exact hout key rfl h
      | _ => contradiction
  | rangeQuery =>
      cases pc with
      | loadChecksum =>
          cases hr
          intro i hi
          contradiction
      | _ => first | contradiction | exact h.1.elim

section Lock

variable {Tid Act Mem Loc : Type} {L : RangeLock Tid Act Mem Loc} {t : Tid}

/-- A step of a thread that uses the set lets a cell that holds its key keep it. -/
theorem storedKeys_of_move {m m' : ObjMem Mem Data} {l l' : ObjLoc Loc (Op cfg) Pc} {key : cfg.Key}
    (hmove : (object cfg).Move L t m l m' l')
    (h : m.data.storedKeys (cfg.toIndex key) = key) :
    m'.data.storedKeys (cfg.toIndex key) = key := by
  cases hmove with
  | func hstep => exact storedKeys_of_func h hstep
  | rest _ hstep => exact (same_of_rest hstep _).2.trans h
  | _ => exact h

/-- Once a call has its result, no step of its thread takes it back. -/
theorem Settled.move {m m' : ObjMem Mem Data} {l l' : ObjLoc Loc (Op cfg) Pc} {op : Op cfg}
    {r : Result} (h : Settled m.data op r) (hmove : (object cfg).Move L t m l m' l') :
    Settled m'.data op r := by
  intro i hi
  obtain ⟨key, hkey, rfl, hstored⟩ := h i hi
  exact ⟨key, hkey, rfl, storedKeys_of_move hmove hstored⟩

variable [DecidableEq Tid] {asks : Loc → Option (ℕ × ℕ)}
  (hsound : L.Sound (clampRange cfg.arraySize) asks)

include hsound

/-- Behind its function an operation has a result that points where it should. -/
theorem settled_of_reachable {s : State Tid (ObjMem Mem Data) (ObjLoc Loc (Op cfg) Pc)}
    (hs : ((object cfg).program L).Reachable s) (t : Tid) (op : Op cfg) (pc : Pc)
    (hjob : (s.loc t).job = some (op, .after pc)) (r : Result) (hr : pc.effect = some r) :
    Settled s.mem.data op r := by
  refine hs.localInvariant (P := (object cfg).program L)
    (Q := fun _ m l => ∀ op pc, l.job = some (op, .after pc) → ∀ r, pc.effect = some r →
      Settled m.data op r) ?_ ?_ ?_ t op pc hjob r hr
  · intro t op pc hjob
    contradiction
  · intro s t a m' l' hreach hsettled h op pc hjob r hr
    have hmove := Object.move_of_advance h
    have hknown := ((protects cfg).invariant hsound hreach).known t
    generalize s.loc t = l at hmove hsettled hknown
    generalize s.mem = m at hmove hsettled hknown
    cases hmove with
    | leave hnone =>
        cases hjob
        exact settled_of_func_none (hknown op pc rfl) hnone hr
    | release =>
        cases hjob
        exact hsettled op pc rfl r hr
    | rest hidle hstep =>
        cases hjob
        have heffect := ((rules cfg).rest hstep).2
        have hbefore := hsettled op _ rfl r (heffect ▸ hr)
        exact hbefore.move (L := L) (t := t) (.rest hidle hstep)
    | _ => cases hjob
  · intro s t u a m' l' _ _ hsettled h op pc hjob r hr
    exact (hsettled op pc hjob r hr).move (Object.move_of_advance h)

/-! ## linearizability -/

omit hsound in
/-- The operations of a run take effect one after the other on a set that is empty at the start,
each one that returns with what it returns, and the pointers among the results point to cells that
hold, then and ever after, the key of the call. -/
def LinearizableSet (r : Program.Run ((object cfg).program L)) : Prop :=
  ∃ point : ℕ → Option (Tid × Op cfg × Result),
    Object.Linearized L (members cfg) Spec r point ∧
      Object.Serial Spec ∅ ((List.range r.length).filterMap point)
        (members cfg (r.states r.length).mem.data) ∧
      ∀ t i j op index, Object.Completed r t i j op →
        (object cfg).HasResult (r.states j) t op (.value (some index)) →
          ∃ key : cfg.Key, op.key? = some key ∧ ∀ n, j ≤ n → n ≤ r.length →
            (r.states n).mem.data.storedKeys index = key

/-- Over every lock for ranges the set is linearizable. -/
theorem linearizable_of_sound (r : Program.Run ((object cfg).program L)) : LinearizableSet r := by
  have hlinearized := (rules cfg).linearized
    (fun hs => ((protects cfg).invariant hsound hs).known) r
  have hempty : members cfg (object cfg).data = ∅ := by
    ext key
    simp [members, object, Data.init]
  refine ⟨_, hlinearized, ?_, fun t i j op index hcall hreturns => ?_⟩
  · rw [← hempty]
    exact hlinearized.serial le_rfl
  · obtain ⟨pc, hjob, hresult⟩ := hreturns
    obtain ⟨key, hkey, rfl, hstored⟩ := settled_of_reachable hsound (r.reachable hcall.length) t op
      pc hjob _ ((rules cfg).result hresult) index rfl
    refine ⟨key, hkey, fun n hjn hn => ?_⟩
    induction n, hjn using Nat.le_induction with
    | base => exact hstored
    | succ n hjn ih =>
        obtain ⟨⟨a, ha⟩, -⟩ := (r.step n hn).elim
        exact storedKeys_of_move (Object.move_of_advance ha) (ih (Nat.le_of_lt hn))

end Lock

/-! ## over the two locks -/

variable (cfg)

theorem kLockCnt_traits_pos : 0 < 64 := by decide

theorem kLockCnt_traits_lt : 64 < 2 ^ 64 := by decide

/-- The lock that `LockTraits<DynamicTag>::Create` makes. -/
def dynamicLock : DynamicLock.Config where
  kLockCnt := 64
  arraySize := cfg.arraySize
  statsSampleRate := 64
  minRebuildGain := 1
  minRebuildSkew := 4
  kLockCnt_pos := kLockCnt_traits_pos
  kLockCnt_lt := kLockCnt_traits_lt
  kBlocks_pos := kBlocks_default_pos

/-- The lock that `LockTraits<NaiveTag>::Create` makes. -/
def naiveLock : NaiveLock.Config where
  kLockCnt := 64
  arraySize := cfg.arraySize
  kLockCnt_pos := kLockCnt_traits_pos

/-- **The adapter is a linearizable set**: over `DynamicLock` and over `NaiveLock`, with any number
of threads, in every run of the operations and of whatever else is called on the lock. -/
theorem linearizable (Client : Type) [DecidableEq Client] :
    (∀ r : Program.Run ((object cfg).program (DynamicLock.rangeLock (dynamicLock cfg) Client)),
        LinearizableSet r) ∧
      ∀ r : Program.Run ((object cfg).program (NaiveLock.rangeLock (naiveLock cfg) Client)),
        LinearizableSet r := by
  have hdynamic : (dynamicLock cfg).arraySize ≠ 0 := Nat.ne_of_gt (Config.arraySize_pos cfg)
  have hnaive : (naiveLock cfg).arraySize ≠ 0 := Nat.ne_of_gt (Config.arraySize_pos cfg)
  exact ⟨linearizable_of_sound (DynamicLock.rangeLock_sound hdynamic),
    linearizable_of_sound (NaiveLock.rangeLock_sound hnaive)⟩

/-! ## an insert and a lookup -/

/-- Adapters for one key. -/
def oneKey : Config where
  keyMin := 0
  keyMax := 2
  numThreads := 2
  fits := by decide

def one : oneKey.Key := ⟨1, by decide⟩

/-- Thread `t` makes the whole of an operation, `after` steps of it with the duration measured. -/
def operation {Tid Act : Type} (step elapsed : Act) (t : Tid) (op : Op oneKey)
    (before after : ℕ) : List (Tid × ObjAct Act (Op oneKey)) :=
  (t, .call op) :: List.replicate before (t, .lock step) ++
    (t, .lock elapsed) :: List.replicate after (t, .lock step)

/-- Thread `t` inserts the key, then thread `u` looks it up. -/
def insertContains {Tid Act : Type} (step elapsed : Act) (t u : Tid) (before after : ℕ) :
    List (Tid × ObjAct Act (Op oneKey)) :=
  operation step elapsed t (.insert one) before (after + 3) ++
    operation step elapsed u (.contains one) before after

abbrev naiveSet := (object oneKey).program (NaiveLock.rangeLock (naiveLock oneKey) Bool)

abbrev dynamicSet := (object oneKey).program (DynamicLock.rangeLock (dynamicLock oneKey) Bool)

theorem isSome_exec_naiveSet : (naiveSet.exec
    (insertContains .step (.elapsed 0 false) true false 2 6) naiveSet.initial).isSome := by
  decide

theorem isSome_exec_dynamicSet : (dynamicSet.exec
    (insertContains .step (.elapsed 0 false) (.client true) (.client false) 7 7)
      dynamicSet.initial).isSome := by
  decide +kernel

def naiveSetRun : Program.Run naiveSet :=
  .ofSchedule _ (insertContains .step (.elapsed 0 false) true false 2 6) true isSome_exec_naiveSet

def dynamicSetRun : Program.Run dynamicSet :=
  .ofSchedule _ (insertContains .step (.elapsed 0 false) (.client true) (.client false) 7 7)
    (.client true) isSome_exec_dynamicSet

section Lookup

variable {Tid Act Mem Loc : Type} [DecidableEq Tid] {L : RangeLock Tid Act Mem Loc}

/-- An insert that finds the key absent and a later lookup that finds it present, each made by one
thread. -/
structure InsertedAndFound (r : Program.Run ((object oneKey).program L)) (t u : Tid)
    (j k : ℕ) : Prop where
  insert : Object.Completed r t 0 j (.insert one)
  absent : (object oneKey).HasResult (r.states j) t (.insert one) (.value none)
  lookup : Object.Completed r u (j + 1) k (.contains one)
  found : (object oneKey).HasResult (r.states k) u (.contains one) (.member true)

end Lookup

/-- Over a `NaiveLock` the second client finds the key. -/
theorem insertedAndFound_naive : InsertedAndFound naiveSetRun true false 12 22 where
  insert := .of_tests (by decide) (by decide) rfl rfl (by decide) rfl rfl rfl
  absent := ⟨_, rfl, rfl⟩
  lookup := .of_tests (by decide) (by decide) rfl rfl (by decide) rfl rfl rfl
  found := ⟨_, rfl, rfl⟩

set_option maxRecDepth 8000 in
/-- Over a `DynamicLock` it does as well. -/
theorem insertedAndFound_dynamic :
    InsertedAndFound dynamicSetRun (.client true) (.client false) 18 34 where
  insert := .of_tests (by decide) (by decide) rfl rfl (by decide +kernel) rfl rfl rfl
  absent := ⟨_, rfl, rfl⟩
  lookup := .of_tests (by decide) (by decide) rfl rfl (by decide +kernel) rfl rfl rfl
  found := ⟨_, rfl, rfl⟩

/-- Over both locks the insert returns the null pointer, and the lookup finds the key. -/
theorem linearizable_insert_contains :
    (LinearizableSet naiveSetRun ∧ InsertedAndFound naiveSetRun true false 12 22) ∧
      LinearizableSet dynamicSetRun ∧
        InsertedAndFound dynamicSetRun (.client true) (.client false) 18 34 := by
  obtain ⟨hdynamic, hnaive⟩ := linearizable oneKey Bool
  exact ⟨⟨hnaive naiveSetRun, insertedAndFound_naive⟩, hdynamic dynamicSetRun,
    insertedAndFound_dynamic⟩

end AdapterImpl
end DynLocks
