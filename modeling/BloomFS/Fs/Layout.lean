/-
How files and directories are laid out in records.

A file is cut into records of a size chosen from its length.  The refs of a file
of several records are serialized into a block map.  A directory is a sequence of
4 KiB pages, each with a count and then its entries.
-/
import BloomFS.Dir.Directory
import BloomFS.Store.BlockStore
import Mathlib.Algebra.Order.BigOperators.Group.List

namespace BloomFS
namespace Fs

open Bytes Store Dir

/-- Record size and its logarithm for a file of the given size. -/
def recordSizeFor (size : Nat) : Nat × UInt8 :=
  if size < 32 * 1024 then (4 * 1024, 12)
  else if size < 256 * 1024 then (8 * 1024, 13)
  else if size < 2 * 1024 * 1024 then (16 * 1024, 14)
  else (32 * 1024, 15)

/-- Number of records of size `rs` that cover `n` bytes. -/
def divCeil (n rs : Nat) : Nat := (n + (rs - 1)) / rs

/-- Cut `blob` into records of `rs` bytes, the last one possibly shorter. -/
def splitRecords (blob : Bytes) (rs : Nat) : List Bytes :=
  (List.range (divCeil blob.length rs)).map fun i => slice blob (i * rs) rs

/-- Serialize a ref list: a 32-bit count and the refs. -/
def encodeRefs (refs : List Ref) : Bytes := leBytes 4 refs.length ++ refs.flatMap Ref.marshal

/-- `none` is the error for corrupt data. -/
def decodeRefs (b : Bytes) : Option (List Ref) :=
  if b.length < 4 then none
  else
    let n := leNat (slice b 0 4)
    if b.length < 4 + n * refSize then none
    else some ((List.range n).map fun i => Ref.unmarshal (b.drop (4 + i * refSize)))

/-! ## Directory pages -/

def dirPageSize : Nat := 4096

/-- Encoded size of one directory entry. -/
def entryBytes (name : String) : Nat := 10 + (Utf8.encode name).length

def encodeEntry (e : DirEntry) : Bytes :=
  leBytes 2 (Utf8.encode e.name).length ++ leBytes 8 e.inode ++ Utf8.encode e.name

/-- Bytes a page with these entries occupies, header included. -/
def pageUsed (entries : List DirEntry) : Nat := 4 + (entries.map fun e => entryBytes e.name).sum

/-- The bytes of a page, before the zero padding. -/
def pageBody (entries : List DirEntry) : Bytes :=
  leBytes 4 entries.length ++ entries.flatMap encodeEntry

/-- `none` is the panic of a page that overflows its buffer. -/
def encodeDirPage (entries : List DirEntry) : Option Bytes :=
  if dirPageSize < pageUsed entries then none
  else some (pageBody entries ++ List.replicate (dirPageSize - pageUsed entries) 0)

def decodeEntries (b : Bytes) : (n off : Nat) → Option (List DirEntry × Nat)
  | 0, off => some ([], off)
  | n + 1, off =>
      if b.length < off + 10 then none
      else
        let nl := leNat (slice b off 2)
        let id := leNat (slice b (off + 2) 8)
        if b.length < off + 10 + nl then none
        else
          let name := Utf8.fromUtf8Lossy (slice b (off + 10) nl)
          (decodeEntries b n (off + 10 + nl)).map fun r => (⟨name, id⟩ :: r.1, r.2)

/-- The entries of a page and the bytes they occupy; `none` is the error for
corrupt data. -/
def decodeDirPage (b : Bytes) : Option (List DirEntry × Nat) :=
  if b.length < 4 then none else decodeEntries b (leNat (slice b 0 4)) 4

/-- The pages of a directory's contents. -/
def splitPages (blob : Bytes) : List Bytes := splitRecords blob dirPageSize

/-! ## Round trips -/

theorem length_encodeRefs (refs : List Ref) :
    (encodeRefs refs).length = 4 + refs.length * refSize := by
  rw [encodeRefs, List.length_append, length_leBytes,
    length_flatMap_width (fun r _ => Ref.length_marshal r)]

theorem decodeRefs_encodeRefs {refs : List Ref} (h : refs.length < 2 ^ 32) :
    decodeRefs (encodeRefs refs) = some refs := by
  have hlen := length_encodeRefs refs
  have hn : leNat (slice (encodeRefs refs) 0 4) = refs.length := by
    rw [encodeRefs, slice_zero_append (length_leBytes _ _)]
    exact leNat_leBytes_of_lt (by omega)
  have hget : ∀ i (hi : i < refs.length),
      Ref.unmarshal ((encodeRefs refs).drop (4 + i * refSize)) = refs.get ⟨i, hi⟩ := by
    intro i hi
    have hdrop : (encodeRefs refs).drop (4 + i * refSize) =
        (refs.get ⟨i, hi⟩).marshal ++ (refs.drop (i + 1)).flatMap Ref.marshal := by
      conv_lhs => rw [encodeRefs, ← List.take_append_drop i refs, List.flatMap_append]
      have h1 : ((refs.take i).flatMap Ref.marshal).length = i * refSize := by
        rw [length_flatMap_width (fun r _ => Ref.length_marshal r), List.length_take,
          Nat.min_eq_left (Nat.le_of_lt hi)]
      rw [← List.append_assoc, List.take_append_drop, List.drop_append_of_le_length (by simp [h1]),
        List.drop_of_length_le (by simp [h1]), List.nil_append, List.drop_eq_getElem_cons hi,
        List.flatMap_cons]
      rfl
    rw [hdrop, Ref.unmarshal_marshal_append]
  unfold decodeRefs
  rw [if_neg (by omega)]
  simp only [hn]
  rw [if_neg (by omega)]
  congr 1
  apply List.ext_getElem
  · simp
  · intro i h1 h2
    simpa using hget i h2

@[simp] theorem length_encodeEntry (e : DirEntry) : (encodeEntry e).length = entryBytes e.name := by
  simp [encodeEntry, entryBytes]
  omega

theorem length_pageBody (entries : List DirEntry) :
    (pageBody entries).length = pageUsed entries := by
  simp [pageBody, pageUsed, List.length_flatMap]

theorem decodeEntries_encoded (rest : Bytes) :
    ∀ (todo : List DirEntry), (∀ e ∈ todo, e.inode < 2 ^ 64 ∧
      (Utf8.encode e.name).length < 2 ^ 16) →
      ∀ (pre : Bytes), decodeEntries (pre ++ todo.flatMap encodeEntry ++ rest)
        todo.length pre.length = some (todo, pre.length + (todo.flatMap encodeEntry).length)
  | [], _, pre => by simp [decodeEntries]
  | e :: todo, h, pre => by
    obtain ⟨hid, hname⟩ := h e List.mem_cons_self
    have ih := decodeEntries_encoded rest todo (fun x hx => h x (List.mem_cons_of_mem _ hx))
      (pre ++ encodeEntry e)
    have hsplit : pre ++ (e :: todo).flatMap encodeEntry ++ rest =
        List.flatten [pre, leBytes 2 (Utf8.encode e.name).length, leBytes 8 e.inode,
          Utf8.encode e.name, todo.flatMap encodeEntry ++ rest] := by
      simp [encodeEntry]
    have hnl : slice (pre ++ (e :: todo).flatMap encodeEntry ++ rest) pre.length 2 =
        leBytes 2 (Utf8.encode e.name).length := by
      rw [hsplit]
      exact slice_field (p := [pre]) (by simp) (by simp)
    have hino : slice (pre ++ (e :: todo).flatMap encodeEntry ++ rest) (pre.length + 2) 8 =
        leBytes 8 e.inode := by
      rw [hsplit]
      exact slice_field (p := [pre, _]) (by simp) (by simp)
    have hstr : slice (pre ++ (e :: todo).flatMap encodeEntry ++ rest) (pre.length + 10)
        (Utf8.encode e.name).length = Utf8.encode e.name := by
      rw [hsplit]
      exact slice_field (p := [pre, _, _]) (by simp) (by simp)
    have hlen : (pre ++ (e :: todo).flatMap encodeEntry ++ rest).length =
        pre.length + 10 + (Utf8.encode e.name).length + (todo.flatMap encodeEntry).length +
          rest.length := by
      simp [encodeEntry]
      omega
    have hnat : leNat (leBytes 2 (Utf8.encode e.name).length) = (Utf8.encode e.name).length :=
      leNat_leBytes_of_lt (by omega)
    have hnid : leNat (leBytes 8 e.inode) = e.inode := leNat_leBytes_of_lt (by omega)
    have hpre : (pre ++ encodeEntry e).length = pre.length + 10 + (Utf8.encode e.name).length := by
      simp [entryBytes]
      omega
    rw [hpre] at ih
    have hjoin : pre ++ encodeEntry e ++ todo.flatMap encodeEntry ++ rest =
        pre ++ (e :: todo).flatMap encodeEntry ++ rest := by
      simp
    rw [hjoin] at ih
    rw [List.length_cons, decodeEntries, if_neg (by omega)]
    simp only [hnl, hnat, hino, hnid, hstr, Utf8.fromUtf8Lossy_encode]
    rw [if_neg (by omega), ih]
    simp [entryBytes]
    omega

theorem entryBytes_le_pageUsed {entries : List DirEntry} {e : DirEntry} (he : e ∈ entries) :
    4 + entryBytes e.name ≤ pageUsed entries := by
  have hmem : entryBytes e.name ∈ entries.map fun e => entryBytes e.name :=
    List.mem_map.mpr ⟨e, he, rfl⟩
  exact Nat.add_le_add_left (List.le_sum_of_mem hmem) 4

theorem length_le_pageUsed (entries : List DirEntry) : entries.length ≤ pageUsed entries := by
  have h : entries.length ≤ (entries.map fun e => entryBytes e.name).sum := by
    induction entries with
    | nil => simp
    | cons e l ih =>
      have : 10 ≤ entryBytes e.name := Nat.le_add_right _ _
      simp only [List.length_cons, List.map_cons, List.sum_cons]
      omega
  exact h.trans (Nat.le_add_left _ _)

theorem decodeDirPage_encodeDirPage {entries : List DirEntry} {b : Bytes}
    (hid : ∀ e ∈ entries, e.inode < 2 ^ 64) (h : encodeDirPage entries = some b) :
    decodeDirPage b = some (entries, pageUsed entries) := by
  unfold encodeDirPage at h
  split at h
  · cases h
  · rename_i hfit
    rw [not_lt] at hfit
    cases h
    have hsmall : dirPageSize < 2 ^ 16 := by decide
    have hlen := length_pageBody entries
    have hcount : entries.length < 256 ^ 4 := by
      have := length_le_pageUsed entries
      omega
    have hnames : ∀ e ∈ entries, e.inode < 2 ^ 64 ∧ (Utf8.encode e.name).length < 2 ^ 16 := by
      intro e he
      have : 4 + entryBytes e.name ≤ pageUsed entries := entryBytes_le_pageUsed he
      exact ⟨hid e he, by unfold entryBytes at this; omega⟩
    have hn : slice (pageBody entries ++ List.replicate (dirPageSize - pageUsed entries) 0) 0 4 =
        leBytes 4 entries.length := by
      rw [pageBody, List.append_assoc]
      exact slice_zero_append (length_leBytes _ _)
    have hdec := decodeEntries_encoded (List.replicate (dirPageSize - pageUsed entries) 0)
      entries hnames (leBytes 4 entries.length)
    have hused : 4 + (entries.flatMap encodeEntry).length = pageUsed entries := by
      simp [pageUsed, List.length_flatMap]
    have h4 : 4 ≤ pageUsed entries := Nat.le_add_right _ _
    rw [length_leBytes, hused] at hdec
    unfold decodeDirPage
    rw [if_neg (by rw [List.length_append, hlen]; omega), hn, leNat_leBytes_of_lt hcount]
    exact hdec

theorem length_encodeDirPage {entries : List DirEntry} {b : Bytes}
    (h : encodeDirPage entries = some b) : b.length = dirPageSize := by
  unfold encodeDirPage at h
  split at h
  · cases h
  · rename_i hfit
    cases h
    rw [List.length_append, length_pageBody, List.length_replicate]
    omega

end Fs
end BloomFS
