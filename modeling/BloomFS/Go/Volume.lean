/-
Volumes with a membership gate.

A volume is formatted, takes calls, commits, and is mounted again after a clean end or a
crash, with a snapshot of the gate that was kept or without one.  A mount finds the state of
the last commit: the clusters that a commit refers to are not given out before the next one.

Where the root leads, lookups hide nothing as long as no write fails and no tombstone has the
low word of another name.  A directory that a rename replaces is no longer led to, and the walk
of the next mount leaves its names out.
-/
import BloomFS.Go.Walk
import BloomFS.Lib.Sim

namespace BloomFS
namespace Go

open Bytes Dir Exec

/-! ## Calls -/

inductive Call where
  | mkdir (parent : Nat) (name : String)
  | create (parent : Nat) (name : String)
  | symlink (parent : Nat) (name target : String)
  | link (parent : Nat) (name : String) (targetID : Nat)
  | unlink (parent : Nat) (name : String)
  | rmdir (parent : Nat) (name : String)
  | rename (fuel srcParent : Nat) (srcName : String) (dstParent : Nat) (dstName : String)
  | openFile (id : Nat)
  | close (id : Nat)
  | lookup (parent : Nat) (name : String)
  | readdir (id : Nat)

variable {L : Lib}

def Call.run : Call → Act L Unit
  | .mkdir parent name => discard (Go.mkdir parent name)
  | .create parent name => discard (Go.create parent name)
  | .symlink parent name target => discard (Go.symlink parent name target)
  | .link parent name targetID => Go.link parent name targetID
  | .unlink parent name => Go.unlink parent name
  | .rmdir parent name => Go.rmdir parent name
  | .rename fuel srcParent srcName dstParent dstName =>
      Go.rename fuel srcParent srcName dstParent dstName
  | .openFile id => Go.openFile id
  | .close id => Go.close id
  | .lookup parent name => discard (Go.lookup parent name)
  | .readdir id => discard (Go.readdir id)

/-- The inode table hands out no directory that is still there, and no other name has the low
word of one that goes. -/
def Call.Careful (f : FS L) : Call → Prop
  | .mkdir _ _ | .create _ _ | .symlink _ _ _ => ∀ id, f.nextId = some id → f.isDir id = false
  | .unlink parent name | .rmdir parent name => f.Apart parent name
  | .rename _ srcParent srcName dstParent dstName => f.Movable srcParent srcName dstParent dstName
  | .link _ _ _ | .openFile _ | .close _ | .lookup _ _ | .readdir _ => True

theorem Call.run_safe (hL : L.Lawful) {f : FS L} (hh : Held f) {c : Call} (hc : c.Careful f) :
    Safe c.run f := by
  cases c with
  | mkdir parent name => exact sat_map (createLocked_safe hL hh hc parent name .dir)
  | create parent name => exact sat_map (createLocked_safe hL hh hc parent name .regular)
  | symlink parent name target =>
    exact sat_map (sat_ite (fun _ => sat_fail hh) fun _ =>
      createLocked_safe hL hh hc parent name .link)
  | link parent name targetID => exact link_safe hL hh parent name targetID
  | unlink parent name => exact unlink_safe hh parent name hc
  | rmdir parent name => exact rmdir_safe hh parent name hc
  | rename fuel srcParent srcName dstParent dstName => exact rename_safe hL hh hc fuel
  | openFile id => exact openFile_safe hh id
  | close id => exact close_safe hh id
  | lookup parent name => exact sat_map (lookup_safe hh parent name)
  | readdir id => exact sat_map (readdir_safe hh id)

/-! ## Commits and mounts -/

/-- The slots without links, the last one on top. -/
def rebuildFreeInodes (m : Image) : List Nat :=
  ((List.range m.count).filter fun id => (m.inodes id).nlink = 0).reverse

/-- The state that a mount reads, before it has a gate. -/
def Image.load (m : Image) (w : Faults) : FS L :=
  { m with
    freeInodes := rebuildFreeInodes m
    openCount := fun _ => 0
    dcache := fun _ => none
    gate := Gate.new L 0
    flushes := 0
    faults := w }

/-- A volume: the state in memory, the sequence number and the state of the last commit, and
the snapshots of the gate that were kept. -/
structure Volume (L : Lib) where
  fs : FS L
  seq : UInt64
  disk : Image
  saved : List Bytes

/-- The root directory of a new volume, put after the mount built a gate without names. -/
def formatted (cap : Nat) : Image where
  root := 0
  cap := cap
  nextInode := 1
  count := 1
  inodes := Function.update (fun _ => ⟨.regular, 0⟩) 0 ⟨.dir, 2⟩
  stored _ := some []

/-- The runs of a volume on a store with the errors `w`, with calls that satisfy `P`. -/
inductive Volume.Reached (C : Codec L) (w : Faults) (P : FS L → Call → Prop) : Volume L → Prop
  | format (cap : Nat) (hcap : 0 < cap) (seq : UInt64) :
      Reached C w P ⟨(formatted cap).load w, seq, formatted cap, []⟩
  | call {v : Volume L} (h : Reached C w P v) (c : Call) (hc : P v.fs c) :
      Reached C w P { v with fs := final (c.run v.fs) }
  | evict {v : Volume L} (h : Reached C w P v) (id : Nat) :
      Reached C w P { v with fs := v.fs.evict id }
  | commit {v : Volume L} (h : Reached C w P v) (hseq : v.seq.toNat + 1 < 2 ^ 64) :
      Reached C w P
        { v with fs := v.fs.maybeRebuildGate, seq := v.seq + 1, disk := v.fs.toImage }
  | snapshot {v : Volume L} (h : Reached C w P v) (hclean : v.fs.toImage = v.disk)
      (hfits : v.fs.gate.Fits) {order : List UInt64} (hn : order.Nodup)
      (ho : order.toFinset = v.fs.gate.deleted) {b : Bytes}
      (hb : v.fs.gate.snapshotGate C order v.seq = .ok b) :
      Reached C w P { v with saved := b :: v.saved }
  | mount {v : Volume L} (h : Reached C w P v) {b : Bytes} (hb : b ∈ v.saved ∨ b = []) :
      Reached C w P { v with fs := (v.disk.load w).installGate C v.seq b }

section Volume

variable {C : Codec L} {v : Volume L} {f : FS L}

/-- The bytes are a snapshot of `g`, which a mount loads that finds number `q`, and no other. -/
def Loads (C : Codec L) (b : Bytes) (q : UInt64) (g : Gate L) : Prop :=
  ∀ (f : FS L) (seq : UInt64), f.installGate C seq b =
    { f with gate := if q = seq then g else f.walkBuildGate }

theorem loads_of_snapshot (hC : C.Lawful) {g : Gate L} (hg : g.Fits) {order : List UInt64}
    (hn : order.Nodup) (ho : order.toFinset = g.deleted) {q : UInt64} {b : Bytes}
    (hb : g.snapshotGate C order q = .ok b) : Loads C b q g := by
  obtain ⟨gb, hgb, hb⟩ := bind_eq_ok.mp hb
  have hb := (Except.ok.inj hb).symm
  have hlen : (leBytes 8 q.toNat).length = 8 := length_leBytes 8 _
  have hlong : 8 ≤ b.length := by
    rw [hb, List.length_append, hlen]
    exact Nat.le_add_right ..
  have hstamp : leNat (slice b 0 8) = q.toNat := by
    rw [hb, slice_zero_append hlen, leNat_leBytes_u64]
  have hgate : Gate.unmarshalGate C (b.drop 8) = .ok g := by
    rw [hb, List.drop_left' hlen]
    exact Gate.unmarshalGate_marshalBinary hC hg hn ho hgb
  intro f seq
  unfold FS.installGate
  rw [hstamp, hgate]
  by_cases hq : q = seq
  · rw [if_pos ⟨hlong, congrArg UInt64.toNat hq⟩, if_pos hq]
  · rw [if_neg fun hload => hq (UInt64.toNat_inj.mp hload.2), if_neg hq]

theorem Held.rebuilt (hL : L.Lawful) (hh : Held f) : Held f.maybeRebuildGate := by
  unfold FS.maybeRebuildGate
  split
  · exact held_walkBuildGate hL hh.choose_spec.coherent
  · exact hh

/-- What every reachable volume keeps.  What was committed can be mounted, by a walk and with
a snapshot that carries the current number. -/
structure Volume.Sound (C : Codec L) (v : Volume L) : Prop where
  held : Held v.fs
  disk : Coherent (v.disk.load .none : FS L)
  saved : ∀ b ∈ v.saved, ∃ q g, Loads C b q g ∧ q ≤ v.seq ∧
    (q = v.seq → Held { (v.disk.load .none : FS L) with gate := g })

theorem Volume.Sound.mount (hL : L.Lawful) (h : v.Sound C) {b : Bytes}
    (hb : b ∈ v.saved ∨ b = []) : Held ((v.disk.load .none).installGate C v.seq b) := by
  rcases hb with hb | rfl
  · obtain ⟨q, g, hloads, -, hheld⟩ := h.saved b hb
    rw [hloads]
    split
    · exact hheld ‹_›
    · exact held_walkBuildGate hL h.disk
  · exact held_walkBuildGate hL h.disk

theorem Volume.Reached.sound (hL : L.Lawful) (hC : C.Lawful)
    (h : Reached C .none Call.Careful v) : v.Sound C := by
  induction h with
  | format cap hcap seq =>
    have hempty : ∀ a e, e ∉ FS.entries ((formatted cap).load .none : FS L) a := fun a e he => by
      change e ∈ (if _ then [] else []) at he
      rw [ite_self] at he
      cases he
    have hc : Coherent ((formatted cap).load .none : FS L) := ⟨rfl, nofun, nofun⟩
    refine ⟨⟨{0}, hc, rfl, fun a _ e he => absurd he (hempty a e), ?_⟩, hc, nofun⟩
    refine (Gate.complete_new L 0).mono fun a n hn => ?_
    obtain ⟨-, e, he, -⟩ := hn
    exact hempty a e he
  | @call v _ c hc ih =>
    refine ⟨?_, ih.disk, ih.saved⟩
    have hrun := sat_iff.mp (c.run_safe hL ih.held hc)
    cases hres : c.run v.fs with
    | ok a f' => exact hrun.1 a f' hres
    | error e f' => exact hrun.2 e f' hres
  | evict _ id ih =>
    obtain ⟨S, hh⟩ := ih.held
    exact ⟨⟨S, hh.evict id⟩, ih.disk, ih.saved⟩
  | @commit v _ hseq ih =>
    have hnext : (v.seq + 1).toNat = v.seq.toNat + 1 := by
      rw [UInt64.toNat_add]
      exact Nat.mod_eq_of_lt hseq
    refine ⟨ih.held.rebuilt hL, ⟨rfl, nofun, ih.held.choose_spec.coherent.readable⟩, fun b hb => ?_⟩
    obtain ⟨q, g, hloads, hle, -⟩ := ih.saved b hb
    have hlt : q < v.seq + 1 := by
      rw [UInt64.lt_iff_toNat_lt, hnext]
      exact Nat.lt_succ_of_le hle
    exact ⟨q, g, hloads, UInt64.le_of_lt hlt, fun heq => absurd heq (UInt64.ne_of_lt hlt)⟩
  | @snapshot v _ hclean hfits order hn ho b hb ih =>
    refine ⟨ih.held, ih.disk, fun b' hb' => ?_⟩
    rcases List.mem_cons.mp hb' with rfl | hb'
    · refine ⟨v.seq, v.fs.gate, loads_of_snapshot hC hfits hn ho hb, UInt64.le_refl _, fun _ => ?_⟩
      obtain ⟨S, hh⟩ := ih.held
      rw [← hclean]
      exact ⟨S, ⟨rfl, nofun, hh.coherent.readable⟩, hh.root, hh.closed, hh.gate⟩
    · exact ih.saved b' hb'
  | mount _ hb ih => exact ⟨ih.mount hL hb, ih.disk, ih.saved⟩

end Volume

/-- A format that writes no filter but `f`. -/
def Codec.only (f : List (UInt64 × UInt64)) : Codec Lib.plain where
  marshal f' := if (show List (UInt64 × UInt64) from f') = f then .ok [] else .error "other filter"
  unmarshal _ := .ok f

/-- A directory is replaced, and with it the name in it leaves the tree.  After the next mount
a lookup misses the name, which the directory still lists. -/
theorem replaced_directory_hidden (C : Codec Lib.plain) : ∃ (v : Volume Lib.plain)
    (dir : CachedDir) (f' f'' : FS Lib.plain), v.Reached C .none (fun _ _ => True) ∧
      openDir 1 v.fs = .ok dir f' ∧ dir.find "x" = some 2 ∧ lookup 1 "x" v.fs = .ok none f'' := by
  have h : Volume.Reached C .none (fun _ _ => True) _ :=
    .mount (.commit (.call (.call (.call (.call (.format (L := Lib.plain) 4 (by decide) 0)
      (.mkdir 0 "d") trivial) (.create 1 "x") trivial) (.mkdir 0 "e") trivial)
      (.rename 5 0 "e" 0 "d") trivial) (by decide)) (.inr rfl)
  exact ⟨_, _, _, _, h, rfl, rfl, rfl⟩

end Go
end BloomFS
