import Mathlib.Data.List.Nodup
import Mathlib.Logic.Function.Basic

/-
  Hash tables of chains through a store.

  Every bucket has a link to the first location of its chain,
  and every location a link to the next one.  The locations
  of a bucket have different keys that hash to it, so a table
  is a partial map from keys to locations.  A new location is
  put in front of its chain.

  Key definitions include:
    * `ChainTable.Chained`
    * `ChainTable.Table`
    * `ChainTable.lookup`

  Key theorems include:
    * `ChainTable.Table.lookup_eq_some_iff`
    * `ChainTable.Table.insert`
    * `ChainTable.Table.lookup_insert`
-/

------------------------------------------------------------
-- Chains
------------------------------------------------------------

namespace ChainTable

variable {Loc Key Bucket : Type}

/- The links lead from `head` through the locations to null. -/
def Chained (next : Loc → Option Loc) :
    Option Loc → List Loc → Prop
| head, [] => head = none
| head, loc :: rest =>
    head = some loc ∧ Chained next (next loc) rest

variable {next next' : Loc → Option Loc}
variable {head : Option Loc} {chain : List Loc}

/- Only the links of the chain matter. -/
theorem Chained.congr
    (hChained : Chained next head chain)
    (hSame : ∀ loc ∈ chain, next' loc = next loc) :
    Chained next' head chain := by
  induction chain generalizing head with
  | nil => exact hChained
  | cons loc rest ih =>
      refine ⟨hChained.1, ?_⟩
      rw [hSame loc List.mem_cons_self]
      exact ih hChained.2 fun other hOther =>
        hSame other (List.mem_cons_of_mem _ hOther)

------------------------------------------------------------
-- Tables
------------------------------------------------------------

/-
  The chains of a table: each is linked from its bucket, and
  holds locations with different keys that hash to it.
-/
structure Table
    (hash : Key → Bucket)
    (heads : Bucket → Option Loc)
    (next : Loc → Option Loc)
    (key : Loc → Key)
    (chains : Bucket → List Loc) : Prop where
  chained : ∀ b, Chained next (heads b) (chains b)
  hashed : ∀ b, ∀ loc ∈ chains b, hash (key loc) = b
  distinct : ∀ b, ((chains b).map key).Nodup

/- The location of a key. -/
def lookup [DecidableEq Key]
    (hash : Key → Bucket)
    (key : Loc → Key)
    (chains : Bucket → List Loc)
    (k : Key) : Option Loc :=
  (chains (hash k)).find? fun loc => decide (key loc = k)

variable {hash : Key → Bucket}
variable {heads : Bucket → Option Loc}
variable {key : Loc → Key} {chains : Bucket → List Loc}
variable {loc fresh : Loc} {k other : Key}

/- A table with empty buckets. -/
theorem table_empty :
    Table hash (fun _ => none) next key fun _ => [] where
  chained := fun _ => rfl
  hashed := by simp
  distinct := by simp

theorem Table.nodup
    (hTable : Table hash heads next key chains)
    (b : Bucket) :
    (chains b).Nodup :=
  (hTable.distinct b).of_map

variable [DecidableEq Key]

theorem lookup_empty :
    lookup hash key (fun _ => []) k = none := rfl

/- The location of a key is the one that has it. -/
theorem Table.lookup_eq_some_iff
    (hTable : Table hash heads next key chains) :
    lookup hash key chains k = some loc ↔
      loc ∈ chains (hash k) ∧ key loc = k := by
  unfold lookup
  constructor
  · intro hFind
    exact ⟨List.mem_of_find?_eq_some hFind,
      by simpa using List.find?_some hFind⟩
  · rintro ⟨hMember, hKey⟩
    cases hFind :
        (chains (hash k)).find? fun loc =>
          decide (key loc = k) with
    | none =>
        have hNone := List.find?_eq_none.mp hFind loc hMember
        exact absurd (decide_eq_true hKey) hNone
    | some found =>
        have hFound := List.mem_of_find?_eq_some hFind
        have hSame : key found = k := by
          simpa using List.find?_some hFind
        congr 1
        exact List.inj_on_of_nodup_map
          (hTable.distinct (hash k)) hFound hMember
          (hSame.trans hKey.symm)

theorem lookup_eq_none_iff :
    lookup hash key chains k = none ↔
      ∀ loc ∈ chains (hash k), key loc ≠ k := by
  simp [lookup]

/- Different keys have different locations. -/
theorem Table.lookup_inj
    (hTable : Table hash heads next key chains)
    (hLoc : lookup hash key chains k = some loc)
    (hOther : lookup hash key chains other = some loc) :
    k = other := by
  rw [← (hTable.lookup_eq_some_iff.mp hLoc).2,
    (hTable.lookup_eq_some_iff.mp hOther).2]

------------------------------------------------------------
-- Insertion
------------------------------------------------------------

variable [DecidableEq Loc] [DecidableEq Bucket]

/- A new location in front of its chain. -/
theorem Table.insert
    (hTable : Table hash heads next key chains)
    (hFresh : ∀ b, fresh ∉ chains b)
    (hMissing : lookup hash key chains k = none) :
    Table hash
      (Function.update heads (hash k) (some fresh))
      (Function.update next fresh (heads (hash k)))
      (Function.update key fresh k)
      (Function.update chains (hash k)
        (fresh :: chains (hash k))) := by
  have hOld :
      ∀ b, ∀ loc ∈ chains b, loc ≠ fresh := by
    rintro b loc hMember rfl
    exact hFresh b hMember
  have hKeys :
      ∀ b,
        (chains b).map (Function.update key fresh k) =
          (chains b).map key := by
    intro b
    refine List.map_congr_left fun loc hMember => ?_
    rw [Function.update_of_ne (hOld b loc hMember)]
  have hChained :
      ∀ b,
        Chained (Function.update next fresh (heads (hash k)))
          (heads b) (chains b) := by
    intro b
    refine (hTable.chained b).congr fun loc hMember => ?_
    rw [Function.update_of_ne (hOld b loc hMember)]
  constructor
  · intro b
    by_cases hBucket : b = hash k
    · rw [hBucket, Function.update_self,
        Function.update_self]
      refine ⟨rfl, ?_⟩
      rw [Function.update_self]
      exact hChained (hash k)
    · rw [Function.update_of_ne hBucket,
        Function.update_of_ne hBucket]
      exact hChained b
  · intro b loc hMember
    by_cases hBucket : b = hash k
    · rw [hBucket, Function.update_self] at hMember
      rcases List.mem_cons.mp hMember with rfl | hRest
      · rw [Function.update_self, hBucket]
      · rw [Function.update_of_ne (hOld _ loc hRest),
          hBucket]
        exact hTable.hashed _ loc hRest
    · rw [Function.update_of_ne hBucket] at hMember
      rw [Function.update_of_ne (hOld b loc hMember)]
      exact hTable.hashed b loc hMember
  · intro b
    by_cases hBucket : b = hash k
    · rw [hBucket, Function.update_self, List.map_cons,
        Function.update_self, hKeys, List.nodup_cons]
      refine ⟨?_, hTable.distinct (hash k)⟩
      intro hMember
      rcases List.mem_map.mp hMember with ⟨loc, hLoc, hKey⟩
      exact lookup_eq_none_iff.mp hMissing loc hLoc hKey
    · rw [Function.update_of_ne hBucket, hKeys]
      exact hTable.distinct b

/- The new location has its key; the others are as before. -/
theorem Table.lookup_insert
    (hTable : Table hash heads next key chains)
    (hFresh : ∀ b, fresh ∉ chains b)
    (hMissing : lookup hash key chains k = none) :
    lookup hash (Function.update key fresh k)
        (Function.update chains (hash k)
          (fresh :: chains (hash k))) =
      Function.update (lookup hash key chains) k
        (some fresh) := by
  have hInsert := hTable.insert hFresh hMissing
  funext other
  by_cases hKey : other = k
  · rw [hKey, Function.update_self,
      hInsert.lookup_eq_some_iff]
    simp
  · rw [Function.update_of_ne hKey]
    apply Option.ext
    intro loc
    rw [hInsert.lookup_eq_some_iff,
      hTable.lookup_eq_some_iff]
    by_cases hLoc : loc = fresh
    · rw [hLoc, Function.update_self]
      exact iff_of_false (fun hBoth => hKey hBoth.2.symm)
        fun hBoth => hFresh _ hBoth.1
    · rw [Function.update_of_ne hLoc]
      by_cases hBucket : hash other = hash k
      · rw [hBucket, Function.update_self, List.mem_cons,
          or_iff_right hLoc]
      · rw [Function.update_of_ne hBucket]

end ChainTable
