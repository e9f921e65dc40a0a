import Mathlib.Algebra.Group.Nat.Defs
import SpoolIndex.Proofs.Slice
import SpoolIndex.View.Browse

/-!
# The order of a browse

A browse visits the partitions of a queue slice by slice and bucket by bucket.
`View.rank` numbers the places in this order, without gaps
(`View.rank_following`), so that places can be compared as numbers. `View.spot`
numbers the items of a queue in the same way (`View.precedes_of_spot`).
-/

namespace SpoolIndex

namespace View

def rank (v : View) (slice : Slice) (bucket : UInt32) : Nat :=
  (slice.index - Slice.lowest).toNat * v.allocator.bucketCount.toNat + bucket.toNat

def places (v : View) : Nat := 2 ^ 64 * v.allocator.bucketCount.toNat

variable {v : View} {slice slice' : Slice} {bucket bucket' : UInt32}

theorem rank_lt_places (hb : bucket < v.allocator.bucketCount) :
    v.rank slice bucket < v.places := by
  have hh := slice.le_highest
  have hl := slice.lowest_le
  have hs : (slice.index - Slice.lowest).toNat + 1 ≤ 2 ^ 64 := by
    simp only [Slice.lowest, Slice.highest] at hh hl ⊢
    omega
  rw [UInt32.lt_iff_toNat_lt] at hb
  calc v.rank slice bucket
      < ((slice.index - Slice.lowest).toNat + 1) * v.allocator.bucketCount.toNat := by
        rw [rank, Nat.add_mul, Nat.one_mul]
        exact Nat.add_lt_add_left hb _
    _ ≤ v.places := Nat.mul_le_mul_right _ hs

theorem rank_lt_of_slice (hb : bucket < v.allocator.bucketCount) (h : slice < slice') :
    v.rank slice bucket < v.rank slice' bucket' := by
  have hl := slice.lowest_le
  rw [Slice.lt_def] at h
  rw [UInt32.lt_iff_toNat_lt] at hb
  have hs : (slice.index - Slice.lowest).toNat + 1 ≤ (slice'.index - Slice.lowest).toNat := by omega
  calc v.rank slice bucket
      < ((slice.index - Slice.lowest).toNat + 1) * v.allocator.bucketCount.toNat := by
        rw [rank, Nat.add_mul, Nat.one_mul]
        exact Nat.add_lt_add_left hb _
    _ ≤ (slice'.index - Slice.lowest).toNat * v.allocator.bucketCount.toNat :=
        Nat.mul_le_mul_right _ hs
    _ ≤ v.rank slice' bucket' := Nat.le_add_right _ _

theorem slice_le_of_rank (hb' : bucket' < v.allocator.bucketCount)
    (h : v.rank slice bucket ≤ v.rank slice' bucket') : slice ≤ slice' := by
  by_cases hle : slice ≤ slice'
  · exact hle
  · exact absurd h (Nat.not_le.mpr (rank_lt_of_slice hb' (Slice.not_le.mp hle)))

theorem rank_inj (hb : bucket < v.allocator.bucketCount) (hb' : bucket' < v.allocator.bucketCount)
    (h : v.rank slice bucket = v.rank slice' bucket') : slice = slice' ∧ bucket = bucket' := by
  have hs : slice = slice' := by
    have hle := slice_le_of_rank hb' (Nat.le_of_eq h)
    have hge := slice_le_of_rank hb (Nat.le_of_eq h.symm)
    exact Slice.ext_index (Int.le_antisymm hle hge)
  subst hs
  exact ⟨rfl, UInt32.toNat_inj.mp (Nat.add_left_cancel h)⟩

theorem rank_first_le (h : slice ≤ slice') : v.rank slice 0 ≤ v.rank slice' bucket := by
  rw [Slice.le_def] at h
  refine Nat.le_trans ?_ (Nat.le_add_right _ _)
  simp only [rank, UInt32.toNat_zero, Nat.add_zero]
  exact Nat.mul_le_mul_right _ (by omega)

theorem rank_following {place : Slice × UInt32} (hb : bucket < v.allocator.bucketCount)
    (h : Browse.following v slice bucket = some place) :
    place.2 < v.allocator.bucketCount ∧ v.rank place.1 place.2 = v.rank slice bucket + 1 := by
  have hcount := v.allocator.bucketCount.toNat_lt
  rw [UInt32.lt_iff_toNat_lt] at hb ⊢
  unfold Browse.following at h
  split at h
  · rename_i hlt
    cases h
    have hnext : (bucket + 1).toNat = bucket.toNat + 1 := by
      rw [UInt32.toNat_add, UInt32.toNat_one]
      omega
    simp only [rank, hnext]
    omega
  · rename_i hlt
    split at h
    · rename_i hmax
      cases h
      have hl := slice.lowest_le
      have hidx : (slice.next.index - Slice.lowest).toNat =
          (slice.index - Slice.lowest).toNat + 1 := by
        rw [Slice.index_next hmax]
        omega
      simp only [rank, hidx, UInt32.toNat_zero, Nat.add_mul, Nat.one_mul]
      have hpos := UInt32.lt_iff_toNat_lt.mp v.allocator.bucketCount_pos
      rw [UInt32.toNat_zero] at hpos
      omega
    · cases h

theorem following_ne_none (hb' : bucket' < v.allocator.bucketCount)
    (h : v.rank slice bucket < v.rank slice' bucket') :
    Browse.following v slice bucket ≠ none := by
  intro hn
  unfold Browse.following at hn
  split at hn
  · cases hn
  · split at hn
    · cases hn
    · rename_i hlast hmax
      have hle := slice_le_of_rank hb' (Nat.le_of_lt h)
      have hhigh := slice'.le_highest
      rw [UInt32.lt_iff_toNat_lt] at hb'
      rw [Slice.le_def] at hle
      rw [Slice.lt_def, Slice.index_max] at hmax
      have hidx : slice.index = slice'.index := by omega
      simp only [rank, hidx] at h
      omega

end View

def Partition.rank (v : View) (p : Partition) : Nat := v.rank p.slice p.bucket.id

/-- The numbers that a partition takes up in the order of a browse: one for each key, one for its
beginning and one for its end. -/
def Partition.span : Nat := Key.count + 2

def View.spot (v : View) (x : Item) : Nat :=
  v.rank x.slice x.bucket.id * Partition.span + 1 + x.key.bits

def Item.Precedes (x y : Item) : Prop :=
  x.slice < y.slice ∨
    x.slice = y.slice ∧ (x.bucket.id < y.bucket.id ∨ x.bucket = y.bucket ∧ x.key < y.key)

namespace View

variable {v : View} {x y : Item}

theorem spot_lt_of_rank (h : x.partition.rank v < y.partition.rank v) : v.spot x < v.spot y := by
  have hle : (x.partition.rank v + 1) * Partition.span ≤ y.partition.rank v * Partition.span :=
    Nat.mul_le_mul_right _ h
  have hspot (z : Item) : v.spot z = z.partition.rank v * Partition.span + 1 + z.key.bits := rfl
  have hspan : Partition.span = Key.count + 2 := rfl
  have hkey : x.key.bits < Key.count := x.key.bits_lt
  rw [Nat.add_mul, Nat.one_mul] at hle
  rw [hspot, hspot]
  omega

theorem le_spot_iff : n * Partition.span ≤ v.spot x ↔ n ≤ x.partition.rank v := by
  have hspot : v.spot x = x.partition.rank v * Partition.span + 1 + x.key.bits := rfl
  have hkey : x.key.bits < Key.count := x.key.bits_lt
  have hspan : Partition.span = Key.count + 2 := rfl
  constructor
  · intro h
    refine Nat.not_lt.mp fun hlt => ?_
    have hle : (x.partition.rank v + 1) * Partition.span ≤ n * Partition.span :=
      Nat.mul_le_mul_right _ hlt
    rw [Nat.add_mul, Nat.one_mul] at hle
    omega
  · intro h
    have hle : n * Partition.span ≤ x.partition.rank v * Partition.span := Nat.mul_le_mul_right _ h
    omega

/-- Items in buckets of the view are numbered in the order of slice, bucket and key. -/
theorem precedes_of_spot (hy : y.bucket.id < v.allocator.bucketCount) (h : v.spot x < v.spot y) :
    x.Precedes y := by
  have hrank : x.partition.rank v ≤ y.partition.rank v := by
    by_cases hle : x.partition.rank v ≤ y.partition.rank v
    · exact hle
    · exact absurd h (Nat.lt_asymm (spot_lt_of_rank (Nat.not_le.mp hle)))
  have hs : x.slice ≤ y.slice := slice_le_of_rank hy hrank
  by_cases he : x.slice = y.slice
  · refine .inr ⟨he, ?_⟩
    simp only [Partition.rank, Item.partition, rank, he] at hrank
    have hb : x.bucket.id.toNat ≤ y.bucket.id.toNat := Nat.le_of_add_le_add_left hrank
    by_cases heq : x.bucket.id = y.bucket.id
    · have hk : x.key.bits < y.key.bits := by
        simp only [spot, he, heq] at h
        omega
      exact .inr ⟨congrArg Bucket.mk heq, hk⟩
    · have hne : x.bucket.id.toNat ≠ y.bucket.id.toNat := fun h => heq (UInt32.toNat_inj.mp h)
      exact .inl (UInt32.lt_iff_toNat_lt.mpr (Nat.lt_of_le_of_ne hb hne))
  · exact .inl (Slice.lt_of_le_of_ne hs he)

end View

end SpoolIndex
