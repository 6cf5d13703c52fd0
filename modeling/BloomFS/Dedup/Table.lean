/-
The deduplication table: a content hash maps to the one stored copy of a block
and the number of references to it.

The hash map is an association list without repeated keys, and its order stands
for the iteration order of `marshal`.  An overflow of the reference count is
`none`, since unsigned arithmetic in the source panics on it.
-/
import BloomFS.Lib.Bytes
import Mathlib.Data.List.AList

namespace BloomFS
namespace Dedup

open Bytes

/-- Content hash of an uncompressed block. -/
abbrev Key := Vector UInt8 32

inductive Error where
  | short
  deriving Repr, DecidableEq

structure Entry where
  start : UInt64
  count : UInt32
  payload : UInt32
  logical : UInt32
  raw : Bool
  refs : UInt32
  deriving Repr, DecidableEq

structure Table where
  m : AList (fun _ : Key => Entry)

namespace Table

def new : Table := ⟨∅⟩

def lookup (t : Table) (k : Key) : Option Entry := t.m.lookup k

def add (t : Table) (k : Key) (e : Entry) : Table := ⟨t.m.insert k { e with refs := 1 }⟩

def incr (t : Table) (k : Key) : Option (Bool × Table) :=
  match t.lookup k with
  | some e =>
      if e.refs.toNat + 1 < 2 ^ 32 then
        some (true, ⟨t.m.insert k { e with refs := UInt32.ofNat (e.refs.toNat + 1) }⟩)
      else none
  | none => some (false, t)

/-- Drop one reference, returning the entry when it was the last one. -/
def decr (t : Table) (k : Key) : Option (Option Entry × Table) :=
  match t.lookup k with
  | some e =>
      if e.refs = 0 then none
      else
        let e := { e with refs := UInt32.ofNat (e.refs.toNat - 1) }
        if e.refs = 0 then some (some e, ⟨t.m.erase k⟩) else some (none, ⟨t.m.insert k e⟩)
  | none => some (none, t)

def len (t : Table) : Nat := t.m.entries.length

def recSize : Nat := 57

def marshalLen (t : Table) : Nat := 8 + t.len * recSize

def encodeEntry (k : Key) (e : Entry) : Bytes :=
  List.flatten
    [k.toList, leBytes 8 e.start.toNat, leBytes 4 e.count.toNat, leBytes 4 e.payload.toNat,
     leBytes 4 e.logical.toNat, [if e.raw then 1 else 0], leBytes 4 e.refs.toNat]

def marshal (t : Table) : Bytes :=
  leBytes 8 t.len ++ t.m.entries.flatMap (fun p => encodeEntry p.1 p.2)

def decodeKey (b : Bytes) : Key := toVec 32 (slice b 0 32)

def decodeEntry (b : Bytes) : Entry where
  start := UInt64.ofNat (leNat (slice b 32 8))
  count := UInt32.ofNat (leNat (slice b 40 4))
  payload := UInt32.ofNat (leNat (slice b 44 4))
  logical := UInt32.ofNat (leNat (slice b 48 4))
  raw := b.getD 52 0 == 1
  refs := UInt32.ofNat (leNat (slice b 53 4))

def unmarshalLoop (data : Bytes) : (n off : Nat) → Table → Except Error Table
  | 0, _, t => .ok t
  | n + 1, off, t =>
      if data.length < off + recSize then .error .short
      else
        let rec_ := slice data off recSize
        unmarshalLoop data n (off + recSize) ⟨t.m.insert (decodeKey rec_) (decodeEntry rec_)⟩

def unmarshal (data : Bytes) : Except Error Table :=
  if data.length < 8 then .error .short
  else unmarshalLoop data (leNat (slice data 0 8)) 8 new

/-! ## Reference counts -/

/-- References to `k`, zero when the table does not track it. -/
def refs (t : Table) (k : Key) : Nat :=
  match t.lookup k with
  | some e => e.refs.toNat
  | none => 0

theorem refs_of_lookup {t : Table} {k : Key} {e : Entry} (h : t.lookup k = some e) :
    t.refs k = e.refs.toNat := by
  rw [refs, h]

/-- Every tracked block has at least one reference. -/
def Positive (t : Table) : Prop := ∀ k e, t.lookup k = some e → e.refs ≠ 0

/-- Two entries describe the same stored copy. -/
def Entry.SamePlace (e e' : Entry) : Prop :=
  e'.start = e.start ∧ e'.count = e.count ∧ e'.payload = e.payload ∧ e'.logical = e.logical ∧
    e'.raw = e.raw

@[simp] theorem lookup_new (k : Key) : new.lookup k = none := rfl

theorem lookup_add (t : Table) (k : Key) (e : Entry) :
    (t.add k e).lookup k = some { e with refs := 1 } := AList.lookup_insert _

theorem lookup_add_of_ne {t : Table} {k k' : Key} {e : Entry} (h : k' ≠ k) :
    (t.add k e).lookup k' = t.lookup k' := AList.lookup_insert_ne h

theorem toNat_ofNat_succ {r : UInt32} (h : r.toNat + 1 < 2 ^ 32) :
    (UInt32.ofNat (r.toNat + 1)).toNat = r.toNat + 1 := by
  rw [UInt32.toNat_ofNat', Nat.mod_eq_of_lt h]

theorem toNat_ofNat_pred (r : UInt32) :
    (UInt32.ofNat (r.toNat - 1)).toNat = r.toNat - 1 := by
  have := r.toNat_lt
  rw [UInt32.toNat_ofNat', Nat.mod_eq_of_lt (by omega)]

/-- A hit adds one reference to its entry and touches no other. -/
theorem incr_spec {t t' : Table} {k : Key} {e : Entry} {b : Bool} (he : t.lookup k = some e)
    (h : t.incr k = some (b, t')) :
    (∃ e', t'.lookup k = some e' ∧ e'.refs.toNat = e.refs.toNat + 1 ∧ Entry.SamePlace e e') ∧
      ∀ k', k' ≠ k → t'.lookup k' = t.lookup k' := by
  rw [incr, he] at h
  by_cases hlt : e.refs.toNat + 1 < 2 ^ 32
  · simp only [hlt, if_true, Option.some.injEq, Prod.mk.injEq] at h
    obtain ⟨-, rfl⟩ := h
    exact ⟨⟨_, AList.lookup_insert _, toNat_ofNat_succ hlt, rfl, rfl, rfl, rfl, rfl⟩,
      fun k' hk => AList.lookup_insert_ne hk⟩
  · simp only [hlt, if_false] at h
    cases h

/-- Dropping a reference either lowers the count of the entry by one or, at the
last one, removes the entry and returns it. -/
theorem decr_spec {t t' : Table} {k : Key} {r : Option Entry} (h : t.decr k = some (r, t')) :
    (∀ k', k' ≠ k → t'.lookup k' = t.lookup k') ∧
      (t.lookup k = none ∧ r = none ∧ t' = t ∨
       ∃ e, t.lookup k = some e ∧ e.refs ≠ 0 ∧
        ((e.refs.toNat = 1 ∧ t'.lookup k = none ∧ t' = ⟨t.m.erase k⟩ ∧
            ∃ e', r = some e' ∧ Entry.SamePlace e e') ∨
         (e.refs.toNat ≠ 1 ∧ r = none ∧ ∃ e', t'.lookup k = some e' ∧ t' = ⟨t.m.insert k e'⟩ ∧
            e'.refs.toNat + 1 = e.refs.toNat ∧ Entry.SamePlace e e'))) := by
  rw [decr] at h
  cases he : t.lookup k with
  | none =>
    rw [he] at h
    cases h
    exact ⟨fun _ _ => rfl, Or.inl ⟨rfl, rfl, rfl⟩⟩
  | some e =>
    rw [he] at h
    by_cases h0 : e.refs = 0
    · simp only [h0, if_true] at h
      cases h
    · have hpos : e.refs.toNat ≠ 0 := fun hz => h0 (UInt32.toNat_inj.mp hz)
      simp only [h0, if_false] at h
      by_cases h1 : UInt32.ofNat (e.refs.toNat - 1) = 0
      · have hone : e.refs.toNat = 1 := by
          have hz := congrArg UInt32.toNat h1
          rw [toNat_ofNat_pred] at hz
          have : (0 : UInt32).toNat = 0 := rfl
          omega
        rw [if_pos h1] at h
        simp only [Option.some.injEq, Prod.mk.injEq] at h
        obtain ⟨rfl, rfl⟩ := h
        exact ⟨fun k' hk => AList.lookup_erase_ne hk,
          Or.inr ⟨e, rfl, h0, Or.inl ⟨hone, AList.lookup_erase _ _, rfl, _, rfl,
            rfl, rfl, rfl, rfl, rfl⟩⟩⟩
      · have hne : e.refs.toNat ≠ 1 := by
          intro hone
          apply h1
          rw [hone]
          rfl
        rw [if_neg h1] at h
        simp only [Option.some.injEq, Prod.mk.injEq] at h
        obtain ⟨rfl, rfl⟩ := h
        refine ⟨fun k' hk => AList.lookup_insert_ne hk,
          Or.inr ⟨e, rfl, h0, Or.inr ⟨hne, rfl, _, AList.lookup_insert _, rfl, ?_,
            rfl, rfl, rfl, rfl, rfl⟩⟩⟩
        show (UInt32.ofNat (e.refs.toNat - 1)).toNat + 1 = _
        rw [toNat_ofNat_pred]
        omega

/-! ## Serialization -/

@[simp] theorem length_encodeEntry (k : Key) (e : Entry) : (encodeEntry k e).length = recSize := by
  simp [encodeEntry, recSize]

@[simp] theorem length_marshal (t : Table) : t.marshal.length = t.marshalLen := by
  rw [marshal, List.length_append, length_leBytes,
    length_flatMap_width (w := recSize) (fun p _ => length_encodeEntry _ _)]
  rfl

theorem decodeKey_encodeEntry (k : Key) (e : Entry) : decodeKey (encodeEntry k e) = k := by
  have hs : slice (encodeEntry k e) 0 32 = k.toList :=
    slice_field (p := []) rfl Vector.length_toList
  rw [decodeKey, hs, toVec_toList]

theorem decodeEntry_encodeEntry (k : Key) (e : Entry) : decodeEntry (encodeEntry k e) = e := by
  have hstart : slice (encodeEntry k e) 32 8 = leBytes 8 e.start.toNat :=
    slice_field (p := [_]) (by simp) (by simp)
  have hcount : slice (encodeEntry k e) 40 4 = leBytes 4 e.count.toNat :=
    slice_field (p := [_, _]) (by simp) (by simp)
  have hpayload : slice (encodeEntry k e) 44 4 = leBytes 4 e.payload.toNat :=
    slice_field (p := [_, _, _]) (by simp) (by simp)
  have hlogical : slice (encodeEntry k e) 48 4 = leBytes 4 e.logical.toNat :=
    slice_field (p := [_, _, _, _]) (by simp) (by simp)
  have hraw : (encodeEntry k e).getD 52 0 = if e.raw then 1 else 0 :=
    getD_field (p := [_, _, _, _, _]) (by simp)
  have hrefs : slice (encodeEntry k e) 53 4 = leBytes 4 e.refs.toNat :=
    slice_field (p := [_, _, _, _, _, _]) (by simp) (by simp)
  rw [decodeEntry, hstart, hcount, hpayload, hlogical, hraw, hrefs]
  obtain ⟨start, count, payload, logical, raw, refs⟩ := e
  cases raw <;> simp

/-- Insert a list of entries in order. -/
def insertAll (t : Table) (l : List (Sigma fun _ : Key => Entry)) : Table :=
  l.foldl (fun t p => ⟨t.m.insert p.1 p.2⟩) t

theorem lookup_insertAll (k : Key) :
    ∀ (l : List (Sigma fun _ : Key => Entry)), l.NodupKeys → ∀ t : Table,
      (t.insertAll l).lookup k = (l.dlookup k).or (t.lookup k)
  | [], _, t => by simp [insertAll]
  | p :: l, h, t => by
    obtain ⟨hp, hl⟩ := List.nodupKeys_cons.mp h
    have ih := lookup_insertAll k l hl ⟨t.m.insert p.1 p.2⟩
    rw [show t.insertAll (p :: l) = insertAll ⟨t.m.insert p.1 p.2⟩ l from rfl, ih]
    obtain ⟨a, b⟩ := p
    by_cases hk : k = a
    · subst hk
      have hnone : l.dlookup k = none := List.dlookup_eq_none.mpr hp
      rw [hnone, List.dlookup_cons_eq]
      exact AList.lookup_insert _
    · rw [List.dlookup_cons_ne _ _ hk]
      congr 1
      exact AList.lookup_insert_ne hk

theorem unmarshalLoop_encoded (hd : Bytes) (todo : List (Sigma fun _ : Key => Entry)) :
    ∀ (done : List (Sigma fun _ : Key => Entry)) (t : Table),
      unmarshalLoop (hd ++ (done ++ todo).flatMap (fun p => encodeEntry p.1 p.2)) todo.length
        (hd.length + done.length * recSize) t = .ok (t.insertAll todo) := by
  induction todo with
  | nil => intro done t; rfl
  | cons p todo ih =>
    intro done t
    have hw : ∀ q ∈ done ++ p :: todo, (encodeEntry q.1 q.2).length = recSize :=
      fun q _ => length_encodeEntry _ _
    have hlen : (hd ++ (done ++ p :: todo).flatMap (fun q => encodeEntry q.1 q.2)).length =
        hd.length + (done.length + (todo.length + 1)) * recSize := by
      rw [List.length_append, length_flatMap_width hw, List.length_append, List.length_cons]
    have hrec : slice (hd ++ (done ++ p :: todo).flatMap (fun q => encodeEntry q.1 q.2))
        (hd.length + done.length * recSize) recSize = encodeEntry p.1 p.2 := by
      rw [slice_append_right (by omega), Nat.add_sub_cancel_left,
        slice_flatMap hw (j := done.length) (by simp)]
      simp
    rw [List.length_cons, unmarshalLoop, if_neg (by rw [hlen, recSize]; omega)]
    simp only [hrec, decodeKey_encodeEntry, decodeEntry_encodeEntry]
    have hstep := ih (done ++ [p]) ⟨t.m.insert p.1 p.2⟩
    rw [List.append_assoc, List.length_append, Nat.add_mul, ← Nat.add_assoc] at hstep
    rw [show t.insertAll (p :: todo) = insertAll ⟨t.m.insert p.1 p.2⟩ todo from rfl]
    simpa using hstep

theorem unmarshal_marshal {t : Table} (h : t.len < 2 ^ 64) :
    ∃ t', unmarshal t.marshal = .ok t' ∧ ∀ k, t'.lookup k = t.lookup k := by
  have hlen : t.marshal.length = 8 + t.len * recSize := length_marshal t
  have hn : leNat (slice t.marshal 0 8) = t.len := by
    rw [marshal, slice_zero_append (length_leBytes 8 _), leNat_leBytes_of_lt]
    exact Nat.lt_of_lt_of_le h (by decide)
  refine ⟨new.insertAll t.m.entries, ?_, fun k => ?_⟩
  · rw [unmarshal, if_neg (by omega), hn, marshal]
    have hloop := unmarshalLoop_encoded (leBytes 8 t.len) t.m.entries [] new
    simpa [len] using hloop
  · rw [lookup_insertAll k _ t.m.nodupKeys, lookup_new, Option.or_none]
    rfl

end Table

end Dedup
end BloomFS
