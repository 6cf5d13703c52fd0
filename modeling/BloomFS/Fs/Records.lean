/-
Contents as records.

A write at an offset replaces the bytes of one range and extends the contents with
zeros when the range lies past their end.  Each new record is either the old one
or the old one merged with its part of the range.
-/
import BloomFS.Fs.Ops

namespace BloomFS
namespace Fs

open Bytes

/-! ## Cutting contents into records -/

theorem lt_divCeil_iff {i n rs : Nat} (h : 0 < rs) : i < divCeil n rs ↔ i * rs < n := by
  unfold divCeil
  rw [Nat.lt_div_iff_mul_lt h]
  omega

theorem divCeil_zero (rs : Nat) : divCeil 0 rs = 0 := by
  unfold divCeil
  cases rs with
  | zero => rfl
  | succ rs => exact Nat.div_eq_of_lt (by omega)

theorem divCeil_pos {n rs : Nat} (h : 0 < rs) (hn : 0 < n) : 0 < divCeil n rs :=
  (lt_divCeil_iff h).mpr (by omega)

theorem le_divCeil_mul {n rs : Nat} (h : 0 < rs) : n ≤ divCeil n rs * rs := by
  by_contra hlt
  have := (lt_divCeil_iff (i := divCeil n rs) (n := n) h).mpr (by omega)
  omega

@[simp] theorem length_splitRecords (blob : Bytes) (rs : Nat) :
    (splitRecords blob rs).length = divCeil blob.length rs := by
  simp [splitRecords]

theorem getElem?_splitRecords {blob : Bytes} {rs i : Nat} (h : i < divCeil blob.length rs) :
    (splitRecords blob rs)[i]? = some (slice blob (i * rs) rs) := by
  rw [splitRecords, List.getElem?_map, List.getElem?_range h]
  rfl

theorem splitRecords_nil (rs : Nat) : splitRecords [] rs = [] := by
  rw [splitRecords, List.length_nil, divCeil_zero]
  rfl

theorem flatten_splitRecords {blob : Bytes} {rs : Nat} (h : 0 < rs) :
    (splitRecords blob rs).flatten = blob := by
  rw [splitRecords, ← List.flatMap_def, flatMap_slice_range]
  exact List.take_of_length_le (le_divCeil_mul h)

theorem length_le_of_mem_splitRecords {blob b : Bytes} {rs : Nat} (h : b ∈ splitRecords blob rs) :
    b.length ≤ rs := by
  obtain ⟨i, -, rfl⟩ := List.mem_map.mp h
  rw [length_slice]
  exact Nat.min_le_left _ _

/-! ## Writing a range -/

/-- The contents after `data` is written at `off`. -/
def overwrite (blob : Bytes) (off : Nat) (data : Bytes) : Bytes :=
  patch (blob ++ List.replicate (off + data.length - blob.length) 0) off data

@[simp] theorem length_overwrite (blob : Bytes) (off : Nat) (data : Bytes) :
    (overwrite blob off data).length = max blob.length (off + data.length) := by
  rw [overwrite, length_patch] <;> rw [List.length_append, List.length_replicate] <;> omega

theorem getD_extend (blob : Bytes) (n i : Nat) :
    (blob ++ List.replicate n 0).getD i 0 = blob.getD i 0 := by
  by_cases h : i < blob.length
  · exact getD_append_left h
  · rw [getD_append_right (by omega), getD_replicate_zero, getD_of_length_le (by omega)]

theorem getD_overwrite (blob : Bytes) (off : Nat) (data : Bytes) (i : Nat) :
    (overwrite blob off data).getD i 0 =
      if off ≤ i ∧ i < off + data.length then data.getD (i - off) 0 else blob.getD i 0 := by
  rw [overwrite, getD_patch (by rw [List.length_append, List.length_replicate]; omega), getD_extend]

theorem slice_overwrite_of_disjoint {blob data : Bytes} {off start rs stop : Nat}
    (hstop : stop = min (start + rs) (max blob.length (off + data.length)))
    (hdis : ¬ (start < off + data.length ∧ off < stop)) (hle : stop ≤ blob.length) :
    slice (overwrite blob off data) start rs = slice blob start rs := by
  refine ext_getD ?_ (fun i hi => ?_)
  · rw [length_slice, length_slice, length_overwrite]
    omega
  · rw [length_slice, length_overwrite] at hi
    rw [getD_slice, getD_slice, if_pos (by omega), if_pos (by omega), getD_overwrite,
      if_neg (by omega)]

theorem getD_base {old : Bytes} {n i : Nat} (h : old.length ≤ n) :
    (patch (List.replicate n 0) 0 (old.take
      (min old.length (List.replicate n (0 : UInt8)).length))).getD i 0 = old.getD i 0 := by
  rw [List.length_replicate, Nat.min_eq_left h, List.take_length,
    getD_patch (by rw [List.length_replicate]; omega), getD_replicate_zero, Nat.sub_zero]
  by_cases hi : i < old.length
  · rw [if_pos (by omega)]
  · rw [if_neg (by omega), getD_of_length_le (by omega)]

theorem length_base {old : Bytes} {n : Nat} (h : old.length ≤ n) :
    (patch (List.replicate n 0) 0
      (old.take (min old.length (List.replicate n (0 : UInt8)).length))).length = n := by
  rw [List.length_replicate, Nat.min_eq_left h, List.take_length,
    length_patch (by rw [List.length_replicate]; omega), List.length_replicate]

theorem mergeRecord_eq {blob data : Bytes} {off start rs stop : Nat}
    (hstop : stop = min (start + rs) (max blob.length (off + data.length)))
    (hstart : start ≤ stop) :
    mergeRecord (slice blob start rs) start stop off data =
      slice (overwrite blob off data) start rs := by
  have hold : (slice blob start rs).length ≤ stop - start := by
    rw [length_slice]
    omega
  have hbase := length_base hold
  have hlen : (slice data (max off start - off)
      (min (off + data.length) stop - max off start)).length =
      min (off + data.length) stop - max off start := by
    rw [length_slice]
    omega
  have hnew : (slice (overwrite blob off data) start rs).length = stop - start := by
    rw [length_slice, length_overwrite]
    omega
  unfold mergeRecord
  refine ext_getD ?_ (fun i hi => ?_)
  · dsimp only
    split
    · rw [length_patch (by rw [hlen, hbase]; omega), hbase, hnew]
    · rw [hbase, hnew]
  · dsimp only at hi ⊢
    rw [getD_slice, getD_overwrite]
    split
    · next hlo =>
      rw [if_pos hlo, length_patch (by rw [hlen, hbase]; omega), hbase] at hi
      rw [getD_patch (by rw [hlen, hbase]; omega), hlen, getD_base hold, getD_slice, getD_slice,
        if_pos (show i < rs by omega), if_pos (show i < rs by omega)]
      by_cases hin : off ≤ start + i ∧ start + i < off + data.length
      · rw [if_pos (by omega), if_pos hin, if_pos (by omega)]
        congr 1
        omega
      · rw [if_neg (by omega), if_neg hin]
    · next hlo =>
      rw [if_neg hlo, hbase] at hi
      rw [getD_base hold, getD_slice, if_pos (show i < rs by omega), if_pos (show i < rs by omega),
        if_neg (by omega)]

theorem slice_eq_nil {blob : Bytes} {start rs : Nat} (h : blob.length ≤ start) :
    slice blob start rs = [] := by
  rw [slice, List.drop_of_length_le h, List.take_nil]

/-! ## Reading a range -/

theorem flatMap_pieces (blob : Bytes) (rs off stop : Nat) (hrs : 0 < rs) (n : Nat) :
    (List.range' (off / rs) n).flatMap (fun i =>
        slice blob (max off (i * rs)) (min stop ((i + 1) * rs) - max off (i * rs))) =
      slice blob off (min stop ((off / rs + n) * rs) - off) := by
  have hle : off / rs * rs ≤ off := Nat.div_mul_le_self off rs
  induction n with
  | zero =>
    rw [Nat.add_zero, Nat.sub_eq_zero_of_le (by omega)]
    rfl
  | succ n ih =>
    have hlt : off < (off / rs + 1) * rs := by
      rw [Nat.mul_comm]
      exact Nat.lt_mul_div_succ off hrs
    rw [List.range'_concat, List.flatMap_append, ih, Nat.one_mul]
    simp only [List.flatMap_cons, List.flatMap_nil, List.append_nil]
    have hmul : (off / rs + n + 1) * rs = (off / rs + n) * rs + rs := Nat.succ_mul _ _
    have hassoc : off / rs + (n + 1) = off / rs + n + 1 := rfl
    rw [hassoc]
    cases n with
    | zero =>
      rw [Nat.add_zero, Nat.max_eq_left hle, Nat.sub_eq_zero_of_le (by omega)]
      rfl
    | succ n =>
      have hge : off ≤ (off / rs + (n + 1)) * rs := by
        have : (off / rs + 1) * rs ≤ (off / rs + (n + 1)) * rs := Nat.mul_le_mul_right _ (by omega)
        omega
      rw [Nat.max_eq_right hge]
      by_cases hstop : stop ≤ (off / rs + (n + 1)) * rs
      · have h0 : min stop ((off / rs + (n + 1) + 1) * rs) - (off / rs + (n + 1)) * rs = 0 :=
          by omega
        rw [h0, Nat.min_eq_left hstop, Nat.min_eq_left (by omega)]
        exact List.append_nil _
      · have hjoin := slice_append_slice blob off ((off / rs + (n + 1)) * rs - off)
          (min stop ((off / rs + (n + 1) + 1) * rs) - (off / rs + (n + 1)) * rs)
        rw [Nat.add_sub_cancel' hge] at hjoin
        rw [Nat.min_eq_right (by omega), hjoin]
        congr 1
        omega

end Fs
end BloomFS
