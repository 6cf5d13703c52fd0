/-
The membership gate and its snapshots.

The gate is a filter over the names of the whole tree and a set of tombstones, without
the directories.  A lookup in a directory that is not resident asks it first, so a name
that the gate misses would be reported absent.  A snapshot of the gate is stamped with the
sequence number of the last commit and loaded by a mount that finds the same number.

`Complete` says that a gate lets a set of names pass.  The order in which the runtime visits
the tombstones is any order.
-/
import BloomFS.Go.GlobalFilter
import BloomFS.Lib.Bytes
import BloomFS.Lib.Exec

namespace BloomFS
namespace Go

open Bytes Exec

structure Gate (L : Lib) where
  filter : L.Filter
  deleted : Finset UInt64
  live : Int
  capacity : Int

def minGateCapacity : Int := 1024

def tombstoneFraction : Int := 4

namespace Gate

variable {L : Lib}

def new (L : Lib) (expectedLive : Int) : Gate L :=
  let capacity := if expectedLive * 2 < minGateCapacity then minGateCapacity else expectedLive * 2
  { filter := L.newBlockedTuned capacity.toNat, deleted := ∅, live := 0, capacity := capacity }

def needsRebuild (g : Gate L) : Bool :=
  g.capacity < g.live || g.capacity < g.deleted.card * tombstoneFraction

def add (g : Gate L) (dirIno : Nat) (name : String) : Gate L :=
  { g with
    deleted := g.deleted.erase (L.key dirIno name).2
    filter := L.addHash g.filter (L.key dirIno name)
    live := g.live + 1 }

def remove (g : Gate L) (dirIno : Nat) (name : String) : Gate L :=
  { g with deleted := insert (L.key dirIno name).2 g.deleted, live := g.live - 1 }

def test (g : Gate L) (dirIno : Nat) (name : String) : Bool :=
  let k := L.key dirIno name
  if L.testHash g.filter k = false then false else k.2 ∉ g.deleted

end Gate

/-! ## Snapshots -/

/-- The byte format of the filter. -/
structure Codec (L : Lib) where
  marshal : L.Filter → Except String Bytes
  unmarshal : Bytes → Except String L.Filter

def Codec.Lawful {L : Lib} (C : Codec L) : Prop :=
  ∀ f b, C.marshal f = .ok b → C.unmarshal b = .ok f

/-- The tag of a serialized gate, `GATE` and a version. -/
def gateSnapMagic : Nat := 0x4741544500000001

/-- Go's `uint64(x)` for a signed `x`. -/
def toUint64 (x : Int) : Nat := (x % 2 ^ 64).toNat

/-- Go's `int(n)` for an unsigned `n`. -/
def ofUint64 (n : Nat) : Int := if n < 2 ^ 63 then n else n - 2 ^ 64

/-- `n` tombstones from offset `off` on, and the offset behind them. -/
def readTombstones (data : Bytes) : Nat → Nat → Finset UInt64 → Except String (Finset UInt64 × Nat)
  | 0, off, deleted => .ok (deleted, off)
  | n + 1, off, deleted =>
      if data.length < off + 8 then .error "globalfilter: truncated gate snapshot"
      else readTombstones data n (off + 8)
        (insert (UInt64.ofNat (leNat (slice data off 8))) deleted)

namespace Gate

variable {L : Lib} (C : Codec L)

/-- `order` is the order in which the runtime visits the tombstones. -/
def marshalBinary (g : Gate L) (order : List UInt64) : Except String Bytes := do
  let fb ← C.marshal g.filter
  return [leBytes 8 gateSnapMagic, leBytes 8 (toUint64 g.capacity), leBytes 8 (toUint64 g.live),
    leBytes 8 g.deleted.card, order.flatMap fun k => leBytes 8 k.toNat, fb].flatten

def unmarshalGate (data : Bytes) : Except String (Gate L) :=
  if data.length < 32 ∨ leNat (slice data 0 8) ≠ gateSnapMagic then
    .error "globalfilter: not a gate snapshot"
  else do
    let capacity := ofUint64 (leNat (slice data 8 8))
    let live := ofUint64 (leNat (slice data 16 8))
    let tombN := ofUint64 (leNat (slice data 24 8))
    let x ← readTombstones data tombN.toNat 32 ∅
    let f ← C.unmarshal (data.drop x.2)
    return { filter := f, deleted := x.1, live := live, capacity := capacity }

/-- `FS.SnapshotGate` with the sequence number of the uberblock. -/
def snapshotGate (g : Gate L) (order : List UInt64) (seq : UInt64) : Except String Bytes := do
  let gb ← g.marshalBinary C order
  return leBytes 8 seq.toNat ++ gb

end Gate

theorem readTombstones_flatMap (ks : List UInt64) (front rest : Bytes) (deleted : Finset UInt64) :
    readTombstones (front ++ (ks.flatMap (fun k => leBytes 8 k.toNat) ++ rest)) ks.length
      front.length deleted = .ok (deleted ∪ ks.toFinset, front.length + ks.length * 8) := by
  induction ks generalizing front deleted with
  | nil => simp [readTombstones]
  | cons k ks ih =>
    have hlen : (front ++ leBytes 8 k.toNat).length = front.length + 8 := by
      rw [List.length_append, length_leBytes]
    rw [List.flatMap_cons, List.append_assoc, List.length_cons, readTombstones, if_neg,
      slice_append_right le_rfl, Nat.sub_self, slice_zero_append (length_leBytes 8 _),
      leNat_leBytes_u64, UInt64.ofNat_toNat, ← List.append_assoc, ← hlen, ih, hlen,
      List.toFinset_cons, Finset.insert_union_comm, Nat.succ_mul, Nat.add_assoc, Nat.add_comm 8]
    rw [List.length_append, List.length_append, length_leBytes]
    omega

namespace Gate

variable {L : Lib} {C : Codec L} {g : Gate L}

/-- The numbers of the gate are Go integers. -/
structure Fits (g : Gate L) : Prop where
  deleted : g.deleted.card < 2 ^ 63
  live : -2 ^ 63 ≤ g.live ∧ g.live < 2 ^ 63
  capacity : -2 ^ 63 ≤ g.capacity ∧ g.capacity < 2 ^ 63

theorem ofUint64_toUint64 {x : Int} (hx : -2 ^ 63 ≤ x ∧ x < 2 ^ 63) :
    ofUint64 (leNat (leBytes 8 (toUint64 x))) = x := by
  rw [leNat_leBytes_of_lt (by unfold toUint64; omega)]
  unfold ofUint64 toUint64
  split <;> omega

/-- Whatever order the tombstones were visited in, the gate that is read is the gate that
was written. -/
theorem unmarshalGate_marshalBinary (hC : C.Lawful) (hg : g.Fits) {order : List UInt64}
    (hn : order.Nodup) (ho : order.toFinset = g.deleted) {b : Bytes}
    (hb : g.marshalBinary C order = .ok b) : unmarshalGate C b = .ok g := by
  obtain ⟨fb, hfb, hb⟩ := bind_eq_ok.mp hb
  have hb := (Except.ok.inj hb).symm
  have hmagic : slice b 0 8 = leBytes 8 gateSnapMagic := by
    rw [hb]
    exact slice_field (p := []) rfl (by simp)
  have hcapacity : slice b 8 8 = leBytes 8 (toUint64 g.capacity) := by
    rw [hb]
    exact slice_field (p := [_]) (by simp) (by simp)
  have hlive : slice b 16 8 = leBytes 8 (toUint64 g.live) := by
    rw [hb]
    exact slice_field (p := [_, _]) (by simp) (by simp)
  have hcount : slice b 24 8 = leBytes 8 order.length := by
    rw [hb, ← List.toFinset_card_of_nodup hn, ho]
    exact slice_field (p := [_, _, _]) (by simp) (by simp)
  obtain ⟨head, hlen, htail⟩ : ∃ head : Bytes, head.length = 32 ∧
      b = head ++ (order.flatMap (fun k => leBytes 8 k.toNat) ++ fb) := by
    refine ⟨[leBytes 8 gateSnapMagic, leBytes 8 (toUint64 g.capacity),
      leBytes 8 (toUint64 g.live), leBytes 8 g.deleted.card].flatten, by simp, ?_⟩
    rw [hb]
    simp
  have hfew : order.length < 2 ^ 63 := by
    rw [← List.toFinset_card_of_nodup hn, ho]
    exact hg.deleted
  have hnumber : (ofUint64 (leNat (leBytes 8 order.length))).toNat = order.length := by
    rw [leNat_leBytes_of_lt (hfew.trans (by decide)), ofUint64, if_pos hfew]
    rfl
  have hread := readTombstones_flatMap order head fb ∅
  have hrest : b.drop (32 + order.length * 8) = fb := by
    rw [htail, ← List.append_assoc, List.drop_left']
    rw [List.length_append, hlen, length_flatMap_width fun _ _ => length_leBytes 8 _]
  rw [← htail, hlen, Finset.empty_union, ho] at hread
  unfold unmarshalGate
  rw [if_neg, hcapacity, hlive, hcount, ofUint64_toUint64 hg.capacity, ofUint64_toUint64 hg.live]
  · dsimp only
    rw [hnumber, hread]
    show (C.unmarshal (b.drop (32 + order.length * 8)) >>= _) = _
    rw [hrest, hC _ _ hfb]
    rfl
  · rw [hmagic, leNat_leBytes_of_lt (by decide), htail, List.length_append, hlen]
    omega

/-! ## What the gate lets pass -/

/-- The gate lets every name pass. -/
structure Complete (g : Gate L) (named : Nat → String → Prop) : Prop where
  known : ∀ d name, named d name → L.testHash g.filter (L.key d name) = true
  unmasked : ∀ d name, named d name → (L.key d name).2 ∉ g.deleted

variable {named named' : Nat → String → Prop} {d : Nat} {name : String}

theorem Complete.test (h : Complete g named) (hp : named d name) : g.test d name = true := by
  unfold Gate.test
  dsimp only
  rw [if_neg (by rw [h.known d name hp]; decide)]
  exact decide_eq_true (h.unmasked d name hp)

theorem Complete.mono (h : Complete g named) (hsub : ∀ d name, named' d name → named d name) :
    Complete g named' :=
  ⟨fun d name hp => h.known d name (hsub d name hp),
    fun d name hp => h.unmasked d name (hsub d name hp)⟩

theorem Complete.add (hL : L.Lawful) (h : Complete g named)
    (hsub : ∀ d' name', named' d' name' → named d' name' ∨ (d', name') = (d, name)) :
    Complete (g.add d name) named' := by
  refine ⟨fun d' name' hp => ?_, fun d' name' hp => ?_⟩
  · rcases hsub d' name' hp with hp | heq
    · exact hL.test_add _ _ _ (h.known d' name' hp)
    · cases heq
      exact hL.test_add_self _ _
  · show _ ∉ g.deleted.erase _
    rw [Finset.mem_erase, not_and]
    intro hne
    rcases hsub d' name' hp with hp | heq
    · exact h.unmasked d' name' hp
    · cases heq
      exact absurd rfl hne

/-- A removal hides nobody else, if nobody else has the low word. -/
theorem Complete.remove (h : Complete g named)
    (hapart : ∀ d' name', named' d' name' → (L.key d' name').2 ≠ (L.key d name).2)
    (hsub : ∀ d' name', named' d' name' → named d' name') : Complete (g.remove d name) named' := by
  refine ⟨fun d' name' hp => h.known d' name' (hsub d' name' hp), fun d' name' hp => ?_⟩
  show _ ∉ insert _ g.deleted
  rw [Finset.mem_insert, not_or]
  exact ⟨hapart d' name' hp, h.unmasked d' name' (hsub d' name' hp)⟩

/-- A name that is removed and added again is as if it were only added. -/
theorem Complete.readd (hL : L.Lawful) (h : Complete g named)
    (hsub : ∀ d' name', named' d' name' → named d' name' ∨ (d', name') = (d, name)) :
    Complete ((g.remove d name).add d name) named' := by
  have hadd := h.add hL hsub
  refine ⟨hadd.known, fun d' name' hp => ?_⟩
  have hnot := hadd.unmasked d' name' hp
  change _ ∉ g.deleted.erase _ at hnot
  show _ ∉ (insert _ g.deleted).erase _
  rw [Finset.mem_erase, not_and] at hnot ⊢
  intro hne hmem
  exact hnot hne ((Finset.mem_insert.mp hmem).resolve_left hne)

theorem complete_foldl (hL : L.Lawful) (l : List (Nat × String)) (h : Complete g named) :
    Complete (l.foldl (fun g p => g.add p.1 p.2) g)
      (fun d name => named d name ∨ (d, name) ∈ l) := by
  induction l generalizing g named with
  | nil => exact h.mono fun d name hp => hp.resolve_right List.not_mem_nil
  | cons p l ih =>
    have hadd : Complete (g.add p.1 p.2) (fun d name => named d name ∨ (d, name) = p) :=
      h.add hL fun d' name' hp => hp
    refine (ih hadd).mono fun d' name' hp => ?_
    rw [List.mem_cons, ← or_assoc] at hp
    exact hp

theorem complete_new (L : Lib) (expectedLive : Int) :
    Complete (new L expectedLive) fun _ _ => False :=
  ⟨nofun, nofun⟩

end Gate

end Go
end BloomFS
