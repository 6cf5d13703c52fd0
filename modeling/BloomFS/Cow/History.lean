/-
Histories of commits and crashes.

A history starts with `format`, goes on with commits that each extend the
uberblock of the latest commit or mount, and may crash inside any of them.  A
crash keeps a prefix of the block writes of that commit and leaves the block in
flight old, new or torn.  `flip_safe` says that mounting always finds the commit
whose uberblock was written last, for tables that are each recorded in fewer than
4 GiB.  The three lengths of a snapshot are 32-bit fields of the uberblock, so a
larger table is recorded with a wrong length: `format_unmountable` formats such a
device and cannot mount it.
-/
import BloomFS.Cow.Root

namespace BloomFS
namespace Cow

open Bytes Exec Block

/-- What a crash leaves in the block being written: the old block, the new one,
or a mixture of the two, which for an uberblock fails its checksum. -/
def Leaves (env : Env) (o : Origin) (old new left : Bytes) : Prop :=
  left = old ∨ left = new ∨ (o = .uber → ∃ e, parseUber env left = .error e)

/-- The images a crash can leave, with whether the uberblock write completed.
`es` are the calls of the interrupted commit. -/
inductive Crash (env : Env) (image : Nat → Bytes) (es : List Event) : (Nat → Bytes) → Prop → Prop
  | between (j : Nat) :
      Crash env image es (replay image (es.take j)) (∃ n b, .write .uber n b ∈ es.take j)
  | within (j : Nat) (o : Origin) (n : Nat) (b left : Bytes) (hj : es[j]? = some (.write o n b))
      (hleft : Leaves env o (replay image (es.take j) n) b left) :
      Crash env image es (Function.update (replay image (es.take j)) n left)
        ((∃ n b, .write .uber n b ∈ es.take j) ∨ o = .uber ∧ left = b)

/-- A successful commit of the given tables on `d` after the uberblock `u`, and
the calls it makes. -/
structure Commits (env : Env) (d : Disk) (u : Uberblock) (c' : Commit) (d' : Disk)
    (es : List Event) : Prop where
  run : ∃ root next scratch s', commit env u c'.ddt c'.tbl root next ⟨d, c'.bm, scratch⟩ =
    .ok c'.ub s' ∧ s'.dev = d'
  trace : d'.trace = d.trace ++ es

/-- `History env P d u c`: on the disk `d`, the latest commit or mount returned
`u`, and `c` is the latest commit whose uberblock write completed.  Every
recorded triple of tables meets `P`. -/
inductive History (env : Env) (P : Alloc.Bitmap → Dedup.Table → Inode.Table → Prop) :
    Disk → Uberblock → Commit → Prop
  | format {n : Nat} (h : n < 2 ^ 64) {inodes reserve : Nat} {u : Uberblock} {d : Disk}
      (run : format env inodes reserve (Disk.zeroed n h) = .ok u d)
      (hP : P ((Alloc.Bitmap.new n).reserve 0 u.dataStart.toNat) .new (.new u.inodeCount.toNat)) :
      History env P d u
        ⟨u, (Alloc.Bitmap.new n).reserve 0 u.dataStart.toNat, .new, .new u.inodeCount.toNat⟩
  | commit {d d' : Disk} {u : Uberblock} {c c' : Commit} {es : List Event}
      (hist : History env P d u c) (hcap : c'.tbl.cap = c.ub.inodeCount.toNat)
      (hP : P c'.bm c'.ddt c'.tbl) (run : Commits env d u c' d' es) :
      History env P d' c'.ub c'
  | crash {d d' : Disk} {u u' : Uberblock} {c c' c'' : Commit} {es : List Event}
      {image : Nat → Bytes} {flipped : Prop}
      (hist : History env P d u c) (hcap : c'.tbl.cap = c.ub.inodeCount.toNat)
      (hP : P c'.bm c'.ddt c'.tbl) (run : Commits env d u c' d' es)
      (hcrash : Crash env d.image es image flipped)
      (hlast : flipped ∧ c'' = c' ∨ ¬ flipped ∧ c'' = c)
      (hmount : ∃ bm ddt tbl, mount env { d with image := image } = .ok (u', bm, ddt, tbl)) :
      History env P { d with image := image } u' c''

/-! ## A crash inside a commit -/

section Step

variable {env : Env} {d d' : Disk} {c c' : Commit} {es : List Event}

/-- The calls `es` record `c'` after `c`. -/
structure Follows (env : Env) (c c' : Commit) (root next : UInt64) (tail : Bytes)
    (es : List Event) : Prop where
  advance : c.ub.CanAdvance
  ub : c'.ub = withLens (c.ub.successor root next) c'.bm c'.ddt c'.tbl
  fits : Fits c.ub c'.bm c'.ddt c'.tbl
  length : c.ub.metaBlocks.toNat * blk ≤ (tables c'.bm c'.ddt c'.tbl ++ tail).length
  events : es = commitEvents env c'.ub (tables c'.bm c'.ddt c'.tbl ++ tail)

theorem Commits.spec (hrun : Commits env d c.ub c' d' es) :
    ∃ root next tail, Follows env c c' root next tail es ∧ Disk.Extends d d' es := by
  obtain ⟨root, next, scratch, s', hok, hdev⟩ := hrun.run
  obtain ⟨hadv, hub, hfits, -, tail, hlen, hx⟩ :=
    (commit_sat env c.ub c'.ddt c'.tbl root next _).ok hok
  rw [hdev] at hx
  have hes : es = commitEvents env c'.ub (tables c'.bm c'.ddt c'.tbl ++ tail) := by
    have h1 := hx.trace
    rw [hrun.trace] at h1
    exact List.append_cancel_left h1
  exact ⟨root, next, tail, ⟨hadv, hub, hfits, hlen, hes⟩, hes ▸ hx⟩

theorem exists_commits (env : Env) {root next : UInt64} (hd : MetaSound d)
    (hplaced : c.ub.Placed d.blocks) (hadv : c.ub.CanAdvance)
    (hfits : Fits c.ub c'.bm c'.ddt c'.tbl)
    (hub : c'.ub = withLens (c.ub.successor root next) c'.bm c'.ddt c'.tbl) :
    ∃ d' tail es, Commits env d c.ub c' d' es ∧ Follows env c c' root next tail es ∧
      Disk.Extends d d' es := by
  have hend := (hplaced.successor hadv root next).metaEnd_le.trans hplaced.room.le
  obtain ⟨s', hrun⟩ := commit_completes env root next (s := ⟨d, c'.bm, none⟩) hd hplaced.two_le hend
    hadv hfits
  obtain ⟨-, -, -, -, tail, hlen, hx⟩ := (commit_sat env c.ub c'.ddt c'.tbl root next _).ok hrun
  rw [← hub] at hrun hx
  exact ⟨s'.dev, tail, _, ⟨⟨root, next, none, s', hrun, rfl⟩, hx.trace⟩,
    ⟨hadv, hub, hfits, hlen, rfl⟩, hx⟩

/-- The commit on disk survives any writes its successor may issue before the
flip. -/
theorem Root.of_writes (hroot : Root env d c) (hadv : c.ub.CanAdvance) {root next : UInt64}
    {fs : List Event} (hfs : ∀ e ∈ fs, Allowed (c.ub.successor root next) e)
    (hno : ∀ n b, .write .uber n b ∉ fs) : Root env { d with image := replay d.image fs } c := by
  have hkeep (n : Nat) (hn : ∀ o b, Allowed (c.ub.successor root next) (.write o n b) → o = .uber) :
      replay d.image fs n = d.image n := by
    refine replay_of_not_written (fun o b hm => ?_) d.image
    have ho := hn o b (hfs _ hm)
    rw [ho] at hm
    exact hno n b hm
  have hdis (o : Origin) (n : Nat) (b : Bytes) (ha : Allowed (c.ub.successor root next)
      (.write o n b)) :=
    hroot.placed.allowed_disjoint hadv ha
  have hother := hkeep ((c.ub.seq.toNat + 1) % 2) (fun o b ha => by
    obtain ⟨-, -, -, hsnap⟩ := hdis o _ b ha
    cases o with
    | data => exact ha.elim
    | snapshot => exact (hsnap rfl rfl).elim
    | uber => rfl)
  refine hroot.of_agree rfl ?_ ?_ ?_
  · exact hkeep _ (fun o b ha => ((hdis o _ b ha).1 rfl).elim)
  · intro i hi
    exact hkeep _ (fun o b ha => ((hdis o _ b ha).2.1 i hi rfl).elim)
  · intro u hu
    exact hroot.other u (by rw [← hother]; exact hu)

/-- The calls of a commit before its flip. -/
def beforeFlip (u : Uberblock) (buf : Bytes) : List Event :=
  snapshotEvents u.metaStart u.metaBlocks.toNat buf ++ [.sync]

theorem beforeFlip_allowed (u : Uberblock) (buf : Bytes) : ∀ e ∈ beforeFlip u buf, Allowed u e := by
  intro e he
  rcases List.mem_append.mp he with he | he
  · exact snapshotEvents_allowed u buf e he
  · rw [List.mem_singleton.mp he]
    trivial

theorem uber_notMem_beforeFlip (u : Uberblock) (buf : Bytes) (n : Nat) (b : Bytes) :
    .write .uber n b ∉ beforeFlip u buf := by
  intro he
  rcases List.mem_append.mp he with he | he
  · obtain ⟨i, -, hi⟩ := List.mem_map.mp he
    cases hi
  · cases List.mem_singleton.mp he

theorem commitEvents_eq (env : Env) (u : Uberblock) (buf : Bytes) : commitEvents env u buf =
    beforeFlip u buf ++ [.write .uber (u.seq.toNat % 2) (u.marshalBinary env), .sync] := rfl

/-- What a crash inside a commit amounts to.  Some writes to the inactive
metadata slot were made, or the whole commit was, or the uberblock was torn. -/
inductive Outcome (env : Env) (image : Nat → Bytes) (u : Uberblock) (buf : Bytes) :
    (Nat → Bytes) → Prop → Prop
  | before {flipped : Prop} (fs : List Event) (hfs : ∀ e ∈ fs, Allowed u e)
      (hno : ∀ n b, .write .uber n b ∉ fs) (hf : ¬ flipped) :
      Outcome env image u buf (replay image fs) flipped
  | after {flipped : Prop} (hf : flipped) :
      Outcome env image u buf (replay image (commitEvents env u buf)) flipped
  | torn {flipped : Prop} (left : Bytes) (e : Error) (he : parseUber env left = .error e)
      (hf : ¬ flipped) :
      Outcome env image u buf
        (Function.update (replay image (beforeFlip u buf)) (u.seq.toNat % 2) left) flipped

variable {image : Nat → Bytes} {u : Uberblock} {buf : Bytes}

theorem outcome_between (j : Nat) :
    Outcome env image u buf (replay image ((commitEvents env u buf).take j))
      (∃ n b, .write .uber n b ∈ (commitEvents env u buf).take j) := by
  have hsub := List.take_subset j (beforeFlip u buf)
  rw [commitEvents_eq]
  by_cases hj : j ≤ (beforeFlip u buf).length
  · rw [List.take_append_of_le_length hj]
    exact .before _ (fun e he => beforeFlip_allowed u buf e (hsub he))
      (fun n b hm => uber_notMem_beforeFlip u buf n b (hsub hm))
      (fun ⟨n, b, hm⟩ => uber_notMem_beforeFlip u buf n b (hsub hm))
  · obtain ⟨k, hk⟩ : ∃ k, j = (beforeFlip u buf).length + (k + 1) :=
      ⟨j - (beforeFlip u buf).length - 1, by omega⟩
    have hall : replay image ((beforeFlip u buf ++ [Event.write .uber (u.seq.toNat % 2)
        (u.marshalBinary env), Event.sync]).take j) = replay image (commitEvents env u buf) := by
      rw [hk, List.take_length_add_append, List.take_succ_cons, commitEvents_eq, replay_append,
        replay_append]
      cases k with
      | zero => rfl
      | succ k => simp [replay]
    rw [hall]
    refine .after ⟨u.seq.toNat % 2, u.marshalBinary env, ?_⟩
    rw [hk, List.take_length_add_append, List.take_succ_cons]
    simp

theorem outcome_within_snapshot {j : Nat} {o : Origin} {n : Nat} {b left : Bytes} {flipped : Prop}
    (hj : (beforeFlip u buf)[j]? = some (.write o n b))
    (hf : flipped → (∃ n b, .write .uber n b ∈ (beforeFlip u buf).take j) ∨ o = .uber) :
    Outcome env image u buf
      (Function.update (replay image ((beforeFlip u buf).take j)) n left) flipped := by
  have hin : Event.write o n b ∈ beforeFlip u buf := List.mem_of_getElem? hj
  have ho : o ≠ .uber := by
    rintro rfl
    exact uber_notMem_beforeFlip u buf n b hin
  have hsub := List.take_subset j (beforeFlip u buf)
  have himg : Function.update (replay image ((beforeFlip u buf).take j)) n left =
      replay image ((beforeFlip u buf).take j ++ [.write o n left]) := by
    rw [replay_append]
    rfl
  rw [himg]
  refine .before _ (fun e he => ?_) (fun m e he => ?_) (fun h => ?_)
  · rcases List.mem_append.mp he with he | he
    · exact beforeFlip_allowed u buf e (hsub he)
    · have ha := beforeFlip_allowed u buf _ hin
      rw [List.mem_singleton.mp he]
      cases o with
      | data => exact ha.elim
      | snapshot => exact ha
      | uber => exact (ho rfl).elim
  · rcases List.mem_append.mp he with he | he
    · exact uber_notMem_beforeFlip u buf m e (hsub he)
    · cases List.mem_singleton.mp he
      exact ho rfl
  · rcases hf h with ⟨m, e, hm⟩ | hu
    · exact uber_notMem_beforeFlip u buf m e (hsub hm)
    · exact ho hu

theorem outcome_within_uber {left : Bytes} {flipped : Prop}
    (hleft : Leaves env .uber (replay image (beforeFlip u buf) (u.seq.toNat % 2))
      (u.marshalBinary env) left)
    (hf : flipped ↔ left = u.marshalBinary env) :
    Outcome env image u buf
      (Function.update (replay image (beforeFlip u buf)) (u.seq.toNat % 2) left) flipped := by
  by_cases hfull : left = u.marshalBinary env
  · have himg : Function.update (replay image (beforeFlip u buf)) (u.seq.toNat % 2) left =
        replay image (commitEvents env u buf) := by
      rw [commitEvents_eq, replay_append, hfull]
      rfl
    rw [himg]
    exact .after (hf.mpr hfull)
  · have hnf : ¬ flipped := fun h => hfull (hf.mp h)
    rcases hleft with hold | hnew | htorn
    · rw [hold, Function.update_eq_self]
      exact .before _ (beforeFlip_allowed u buf) (uber_notMem_beforeFlip u buf) hnf
    · exact (hfull hnew).elim
    · obtain ⟨e, he⟩ := htorn rfl
      exact .torn left e he hnf

theorem Crash.outcome {image' : Nat → Bytes} {flipped : Prop}
    (h : Crash env image (commitEvents env u buf) image' flipped) :
    Outcome env image u buf image' flipped := by
  cases h with
  | between j => exact outcome_between j
  | within j o n b left hj hleft =>
    by_cases hlt : j < (beforeFlip u buf).length
    · rw [commitEvents_eq, List.take_append_of_le_length (by omega)]
      rw [commitEvents_eq, List.getElem?_append_left hlt] at hj
      exact outcome_within_snapshot hj (Or.imp_right And.left)
    · obtain ⟨k, rfl⟩ : ∃ k, j = (beforeFlip u buf).length + k :=
        ⟨j - (beforeFlip u buf).length, by omega⟩
      rw [commitEvents_eq, List.getElem?_append_right (by omega), Nat.add_sub_cancel_left] at hj
      have hk : k = 0 := by
        rcases k with _ | _ | k
        · rfl
        · simp at hj
        · simp at hj
      subst hk
      obtain ⟨rfl, rfl, rfl⟩ : o = .uber ∧ n = u.seq.toNat % 2 ∧ b = u.marshalBinary env := by
        simpa [eq_comm] using hj
      have htake : (commitEvents env u buf).take ((beforeFlip u buf).length + 0) =
          beforeFlip u buf := by
        rw [commitEvents_eq, List.take_length_add_append]
        simp
      rw [htake] at hleft ⊢
      refine outcome_within_uber hleft ⟨?_, fun h => .inr ⟨rfl, h⟩⟩
      rintro (⟨m, e, hm⟩ | ⟨-, h⟩)
      · exact (uber_notMem_beforeFlip u buf m e hm).elim
      · exact h

variable {rt nx : UInt64} {tail : Bytes}

theorem Follows.seq (h : Follows env c c' rt nx tail es) :
    c'.ub.seq.toNat = c.ub.seq.toNat + 1 := by
  rw [h.ub]
  exact h.advance.seq rt nx

/-- A commit writes only the slots that are not in use. -/
theorem Follows.allowed (h : Follows env c c' rt nx tail es) {o : Origin} {n : Nat} {b : Bytes}
    (hm : .write o n b ∈ es) : Allowed (c.ub.successor rt nx) (.write o n b) := by
  have hall := commitEvents_allowed (h.events ▸ hm)
  rw [h.ub] at hall
  exact hall

/-- The flip replaces the commit on disk. -/
theorem Follows.root (hroot : Root env d c) (hcap : c'.tbl.cap = c.ub.inodeCount.toNat)
    (hsmall : Small c'.bm c'.ddt c'.tbl) (hfol : Follows env c c' rt nx tail es) {d'' : Disk}
    (hblocks : d''.blocks = d.blocks) (himage : d''.image = replay d.image es) :
        Root env d'' c' := by
  obtain ⟨hadv, hub, hfits, hlen, hes⟩ := hfol
  obtain ⟨ub', bm, ddt, tbl⟩ := c'
  dsimp only at hub
  subst hub
  have hp := (hroot.placed.successor hadv rt nx).withLens bm ddt tbl
  refine ⟨OnDisk.of_flip hp hfits hlen ?_ hblocks (himage.trans (by rw [hes])), hsmall.lens _, hcap⟩
  -- the other slot is the one of the commit being replaced
  intro v hv
  have hpar : (c.ub.seq.toNat + 1 + 1) % 2 = c.ub.seq.toNat % 2 := by omega
  rw [hadv.seq, hpar, hroot.slot, parseUber_marshalBinary env hroot.placed.magic] at hv
  cases hv
  rw [hadv.seq]
  omega

/-- A torn uberblock in the other slot leaves the commit on disk. -/
theorem Root.of_torn {img : Nat → Bytes} {left : Bytes} {e : Error}
    (hroot : Root env { d with image := img } c) (he : parseUber env left = .error e) :
    Root env { d with image := Function.update img ((c.ub.seq.toNat + 1) % 2) left } c := by
  have hge := hroot.placed.metaStart_ge
  refine hroot.of_agree rfl (Function.update_of_ne (by omega) _ _)
    (fun i _ => Function.update_of_ne (by omega) _ _) (fun u hu => ?_)
  have hslot : Function.update img ((c.ub.seq.toNat + 1) % 2) left ((c.ub.seq.toNat + 1) % 2) =
      left := Function.update_self ..
  have hu' : parseUber env left = .ok u := by
    rw [← hslot]
    exact hu
  rw [he] at hu'
  cases hu'

/-- After a crash the image holds the new commit if its uberblock write
completed, and the old one otherwise. -/
theorem Follows.root_of_crash (hroot : Root env d c) (hcap : c'.tbl.cap = c.ub.inodeCount.toNat)
    (hsmall : Small c'.bm c'.ddt c'.tbl) (hfol : Follows env c c' rt nx tail es)
    {image' : Nat → Bytes} {flipped : Prop} (hcrash : Crash env d.image es image' flipped) :
    (flipped → Root env { d with image := image' } c') ∧
      (¬ flipped → Root env { d with image := image' } c) := by
  obtain ⟨hadv, hub, -, -, hes⟩ := id hfol
  have hsucc (e : Event) (he : Allowed c'.ub e) : Allowed (c.ub.successor rt nx) e := by
    rw [hub] at he
    exact he
  rw [hes] at hcrash
  cases hcrash.outcome with
  | before fs hfs hno hf =>
    exact ⟨fun h => (hf h).elim,
      fun _ => hroot.of_writes hadv (fun e he => hsucc e (hfs e he)) hno⟩
  | after hf =>
    exact ⟨fun _ => hfol.root hroot hcap hsmall rfl (by rw [hes]), fun h => (h hf).elim⟩
  | torn left e he hf =>
    have hbefore := hroot.of_writes hadv (fun e he => hsucc e (beforeFlip_allowed c'.ub _ e he))
      (uber_notMem_beforeFlip c'.ub (tables c'.bm c'.ddt c'.tbl ++ tail))
    refine ⟨fun h => (hf h).elim, fun _ => ?_⟩
    rw [hfol.seq]
    exact hbefore.of_torn he

/-- So the mount after the crash reads one of the two whole. -/
theorem Follows.mount_of_crash (hroot : Root env d c) (hcap : c'.tbl.cap = c.ub.inodeCount.toNat)
    (hsmall : Small c'.bm c'.ddt c'.tbl) (hfol : Follows env c c' rt nx tail es)
    {image' : Nat → Bytes} {flipped : Prop} (hcrash : Crash env d.image es image' flipped) :
    ∃ a, (flipped ∧ a = c' ∨ ¬ flipped ∧ a = c) ∧
      ∃ r, mount env { d with image := image' } = .ok r ∧ Reads a r := by
  obtain ⟨hyes, hno⟩ := hfol.root_of_crash hroot hcap hsmall hcrash
  by_cases hf : flipped
  · exact ⟨c', .inl ⟨hf, rfl⟩, mount_of_root (hyes hf)⟩
  · exact ⟨c, .inr ⟨hf, rfl⟩, mount_of_root (hno hf)⟩

end Step

/-! ## Whole histories -/

theorem parseUber_zeroBlock (env : Env) : parseUber env zeroBlock = .error .badUber := by
  have hmagic : leNat (slice zeroBlock 0 8) = 0 := by decide
  rw [parseUber, if_neg (by simp [zeroBlock]), if_pos (by rw [hmagic]; decide)]

theorem capacity_toNat {n inodes reserve : Nat} (h : Formattable n (capacity inodes) reserve) :
    (UInt64.ofNat (capacity inodes)).toNat = capacity inodes := by
  have h1 := h.1
  unfold Inode.inodeSize at h1
  exact UInt64.toNat_ofNat_of_lt' (by show _ < 2 ^ 64; omega)

/-- The uberblock slot that `format` leaves alone holds no valid uberblock with a
sequence number above zero. -/
def NothingNewer (env : Env) (d : Disk) : Prop :=
  ∀ u, parseUber env (d.image 0) = .ok u → u.seq.toNat < 1

theorem nothingNewer_of_zero {env : Env} {d : Disk} (h : d.image 0 = zeroBlock) :
    NothingNewer env d := by
  intro u hu
  rw [h, parseUber_zeroBlock] at hu
  cases hu

/-- `format` puts its first commit on disk, with the lengths cut to 32 bits. -/
theorem onDisk_of_format {env : Env} {inodes reserve : Nat} {u : Uberblock} {d₀ d : Disk}
    (hold : NothingNewer env d₀) (run : format env inodes reserve d₀ = .ok u d) :
    OnDisk env d ⟨u, (Alloc.Bitmap.new d₀.blocks).reserve 0 u.dataStart.toNat, .new,
        .new u.inodeCount.toNat⟩ ∧
      ∃ v, u = withLens v ((Alloc.Bitmap.new d₀.blocks).reserve 0 u.dataStart.toNat) .new
        (.new u.inodeCount.toNat) := by
  obtain ⟨mb, bm, tail, hmb, hform, hbm, hu, hlen, hx⟩ := (format_sat env inodes reserve _).ok run
  have hplaced := fresh_placed d₀.blocks_lt hform
  have hfits := fresh_fits d₀.blocks_lt hform
  have hroom := hform.2
  rw [← hmb] at hplaced hfits hroom
  have hds : u.dataStart.toNat = 2 + mb + mb := by
    rw [hu]
    have := d₀.blocks_lt
    exact UInt64.toNat_ofNat_of_lt' (by show _ < 2 ^ 64; omega)
  have hcap : u.inodeCount.toNat = capacity inodes := by
    rw [hu]
    exact capacity_toNat hform
  have hbm' : (Alloc.Bitmap.new d₀.blocks).reserve 0 u.dataStart.toNat = bm := by
    rw [hds, hbm]
    rfl
  rw [hbm', hcap]
  subst hbm hu
  refine ⟨OnDisk.of_flip (d := d₀) (hplaced.withLens _ _ _) hfits hlen
    (fun v hv => hold v ?_) hx.blocks hx.image, _, rfl⟩
  -- the first commit has sequence number 1, so the other slot is block 0
  have hslot : ((freshUber d₀.blocks (capacity inodes) mb).seq.toNat + 1) % 2 = 0 := by
    show ((1 : UInt64).toNat + 1) % 2 = 0
    decide
  rw [hslot] at hv
  exact hv

theorem root_of_format {env : Env} {inodes reserve : Nat} {u : Uberblock} {d₀ d : Disk}
    (hold : NothingNewer env d₀) (run : format env inodes reserve d₀ = .ok u d)
    (hsmall : Small ((Alloc.Bitmap.new d₀.blocks).reserve 0 u.dataStart.toNat) .new
      (.new u.inodeCount.toNat)) :
    Root env d ⟨u, (Alloc.Bitmap.new d₀.blocks).reserve 0 u.dataStart.toNat, .new,
      .new u.inodeCount.toNat⟩ := by
  obtain ⟨hdisk, v, hv⟩ := onDisk_of_format hold run
  refine ⟨hdisk, ?_, rfl⟩
  have hlens := hsmall.lens v
  rw [← hv] at hlens
  exact hlens

/-- Every history of small tables leaves its latest flipped commit on disk, and
the latest commit or mount returned that commit's uberblock. -/
theorem History.root {env : Env} {d : Disk} {u : Uberblock} {c : Commit}
    (h : History env Small d u c) : u = c.ub ∧ Root env d c := by
  induction h with
  | format hn run hP => exact ⟨rfl, root_of_format (nothingNewer_of_zero rfl) run hP⟩
  | commit hist hcap hP run ih =>
    obtain ⟨rfl, hroot⟩ := ih
    obtain ⟨root, next, tail, hfol, hx⟩ := run.spec
    exact ⟨rfl, hfol.root hroot hcap hP hx.blocks hx.image⟩
  | @crash d d' u u' c c' c'' es image flipped hist hcap hP run hcrash hlast hmount ih =>
    obtain ⟨rfl, hroot⟩ := ih
    obtain ⟨root, next, tail, hfol, -⟩ := run.spec
    have hcases := hfol.root_of_crash hroot hcap hP hcrash
    have hnew : Root env { d with image := image } c'' := by
      rcases hlast with ⟨hf, rfl⟩ | ⟨hf, rfl⟩
      · exact hcases.1 hf
      · exact hcases.2 hf
    obtain ⟨r, hr, hreads⟩ := mount_of_root hnew
    obtain ⟨bm, ddt, tbl, hm⟩ := hmount
    rw [hm] at hr
    cases hr
    exact ⟨hreads.ub, hnew⟩

/-- Whatever the history of commits and crashes, mounting finds the commit whose
uberblock was written last; a crash inside the next commit exposes that commit or
the next one, by whether its uberblock write completed; and the next commit
writes neither the uberblock slot nor the metadata slot of the current one. -/
theorem flip_safe {env : Env} {d : Disk} {u : Uberblock} {c : Commit}
    (h : History env Small d u c) :
    u = c.ub ∧ (∃ r, mount env d = .ok r ∧ Reads c r) ∧
      ∀ (c' : Commit) (d' : Disk) (es : List Event), c'.tbl.cap = c.ub.inodeCount.toNat →
        Small c'.bm c'.ddt c'.tbl → Commits env d u c' d' es →
        c'.ub.seq.toNat = c.ub.seq.toNat + 1 ∧
        (∀ o n b, .write o n b ∈ es → n ≠ c.ub.seq.toNat % 2 ∧
          ¬ (c.ub.metaStart ≤ n ∧ n < c.ub.metaStart + c.ub.metaBlocks.toNat)) ∧
        ∀ image flipped, Crash env d.image es image flipped →
          ∃ r, mount env { d with image := image } = .ok r ∧
            (flipped → Reads c' r) ∧ (¬ flipped → Reads c r) := by
  obtain ⟨rfl, hroot⟩ := h.root
  refine ⟨rfl, mount_of_root hroot, fun c' d' es hcap hsmall hrun => ?_⟩
  obtain ⟨root, next, tail, hfol, -⟩ := hrun.spec
  refine ⟨hfol.seq, fun o n b hm => ?_, fun image flipped hcrash => ?_⟩
  · obtain ⟨h1, h2, -⟩ := hroot.placed.allowed_disjoint hfol.advance (hfol.allowed hm)
    refine ⟨h1, fun ⟨h3, h4⟩ => h2 (n - c.ub.metaStart) (by omega) (by omega)⟩
  · obtain ⟨a, hside, r, hr, hreads⟩ := hfol.mount_of_crash hroot hcap hsmall hcrash
    rcases hside with ⟨hf, rfl⟩ | ⟨hf, rfl⟩
    · exact ⟨r, hr, fun _ => hreads, fun hn => (hn hf).elim⟩
    · exact ⟨r, hr, fun hy => (hf hy).elim, fun _ => hreads⟩

theorem exists_formatted : ∃ (n inodes : Nat) (h : n < 2 ^ 64) (u : Uberblock) (d : Disk),
    format Env.plain inodes inodes (Disk.zeroed n h) = .ok u d ∧
      Small ((Alloc.Bitmap.new n).reserve 0 u.dataStart.toNat) .new (.new u.inodeCount.toNat) ∧
      u.seq.toNat = 1 ∧ d.blocks = n ∧ MetaSound d ∧ 0 < u.inodeCount.toNat ∧
      ((Alloc.Bitmap.new n).reserve 0 u.dataStart.toNat).marshalLen = 16 := by
  obtain ⟨n, hn⟩ : ∃ n : Nat, n = 64 := ⟨_, rfl⟩
  obtain ⟨inodes, hi⟩ : ∃ inodes : Nat, inodes = 1 := ⟨_, rfl⟩
  have hn64 : n < 2 ^ 64 := by omega
  have hform : Formattable n (capacity inodes) inodes := by
    simp only [Formattable, slotBlocks, capacity, Inode.inodeSize, blk, Block.size,
      if_neg (show inodes ≠ 0 by omega)]
    omega
  have hsound : MetaSound (Disk.zeroed n hn64) := ⟨fun _ => rfl, fun _ => rfl, fun _ => rfl⟩
  have hsat := format_sat Env.plain inodes inodes (Disk.zeroed n hn64)
  cases hrun : format Env.plain inodes inodes (Disk.zeroed n hn64) with
  | error e d => exact (hsat.error hrun hsound hform).elim
  | ok u d =>
    have hlen : ((Alloc.Bitmap.new n).reserve 0 u.dataStart.toNat).marshalLen = 16 := by
      have htotal := (Alloc.Bitmap.reserve_spec (Alloc.Bitmap.new_counted n) 0 u.dataStart.toNat).1
      rw [Alloc.Bitmap.marshalLen, Alloc.Bitmap.words, htotal]
      show 8 + (n + 63) / 64 * 8 = 16
      omega
    obtain ⟨mb, bm, tail, -, -, -, hu, -, hx⟩ := hsat.ok hrun
    have hcap : u.inodeCount.toNat = capacity inodes := by
      rw [hu]
      exact capacity_toNat hform
    refine ⟨n, inodes, hn64, u, d, hrun,
      ⟨by rw [hlen]; decide, show 8 + 0 * _ < 2 ^ 32 by omega, show 0 * _ < 2 ^ 32 by omega⟩, ?_,
      hx.blocks, hsound.of_extends hx, ?_, hlen⟩
    · rw [hu]
      rfl
    · rw [hcap, capacity, if_neg (by omega)]
      omega

def twoBlocks : Dedup.Table :=
  (Dedup.Table.new.add (Vector.replicate 32 7) ⟨40, 1, 5, 5, true, 0⟩).add (Vector.replicate 32 9)
    ⟨41, 2, 5000, 8192, false, 0⟩

def someInode : Inode :=
  { Inode.default with size := 5, nlink := 1, uid := 7, recordSizeLog2 := 12 }

/-- A device of 64 blocks is formatted, and a commit records two blocks and an inode.  The
next commit, of empty tables, stops with its uberblock torn to zeros.  The mount finds the
two blocks and the inode. -/
theorem flip_safe_torn : ∃ d c c' d' es image flipped, History Env.plain Small d c.ub c ∧
    c.ub.seq.toNat = 2 ∧ c.ddt = twoBlocks ∧ c.tbl.slots 0 = someInode ∧
    Commits Env.plain d c.ub c' d' es ∧ c'.ddt = .new ∧
    Crash Env.plain d.image es image flipped ∧ image (c'.ub.seq.toNat % 2) = zeroBlock ∧
    ∃ r, mount Env.plain { d with image := image } = .ok r ∧ Reads c r := by
  obtain ⟨n, inodes, hn, u, d₀, hrun, hsmall, hseq, -, hsound, hcap, hlen⟩ := exists_formatted
  have hist₀ := History.format hn hrun hsmall
  have hroot₀ := hist₀.root.2
  generalize (Alloc.Bitmap.new n).reserve 0 u.dataStart.toNat = bm at hist₀ hroot₀ hsmall hlen
  have hactive₀ : u.activeMeta.toNat = (u.seq.toNat + 1) % 2 := hroot₀.placed.active
  have hadv₀ : u.CanAdvance := ⟨by omega, by omega⟩
  have hblk : blk = 4096 := rfl
  have hroom : 4096 ≤ u.metaBlocks.toNat * blk := by
    have hfits := hroot₀.fits
    simp only [Fits, hlen] at hfits
    rw [hblk] at hfits ⊢
    omega
  have htwo : twoBlocks.marshalLen = 122 := by decide
  -- the first commit
  obtain ⟨tbl, htbl⟩ : ∃ tbl, tbl = (Inode.Table.new u.inodeCount.toNat).store 0 hcap someInode :=
    ⟨_, rfl⟩
  have hone : tbl.marshalLen = 128 := by
    rw [htbl]
    rfl
  obtain ⟨c, hc⟩ : ∃ c : Commit,
      c = ⟨withLens (u.successor 0 5) bm twoBlocks tbl, bm, twoBlocks, tbl⟩ := ⟨_, rfl⟩
  have hsmall₁ : Small c.bm c.ddt c.tbl := by
    rw [hc]
    exact ⟨hsmall.1, by rw [htwo]; decide, by rw [hone]; decide⟩
  have hcap₁ : c.tbl.cap = u.inodeCount.toNat := by
    rw [hc, htbl]
    rfl
  have hfits₁ : Fits u c.bm c.ddt c.tbl := by
    rw [hc]
    simp only [Fits, hlen, htwo, hone]
    omega
  obtain ⟨d₁, -, es₁, hcommits₁, -, hx₁⟩ :=
    exists_commits Env.plain hsound hroot₀.placed hadv₀ hfits₁ (by rw [hc])
  have hist₁ := hist₀.commit hcap₁ hsmall₁ hcommits₁
  have hroot₁ := hist₁.root.2
  have hseq₁ : c.ub.seq.toNat = 2 := by
    rw [hc]
    exact (hadv₀.seq 0 5).trans (by omega)
  have hactive₁ := hroot₁.placed.active
  -- the second one, and the crash inside it
  obtain ⟨c', hc'⟩ : ∃ c' : Commit, c' = ⟨withLens (c.ub.successor 0 6) bm .new
      (.new u.inodeCount.toNat), bm, .new, .new u.inodeCount.toNat⟩ := ⟨_, rfl⟩
  have hub₁ : c.ub.inodeCount = u.inodeCount ∧ c.ub.metaBlocks = u.metaBlocks := by
    rw [hc]
    exact ⟨rfl, rfl⟩
  have hsmall₂ : Small c'.bm c'.ddt c'.tbl := by
    rw [hc']
    exact hsmall
  have hcap₂ : c'.tbl.cap = c.ub.inodeCount.toNat := by
    rw [hc', hub₁.1]
    rfl
  have hfits₂ : Fits c.ub c'.bm c'.ddt c'.tbl := by
    have hfits := hroot₀.fits
    rw [hc']
    simp only [Fits, hub₁.2] at hfits ⊢
    exact hfits
  obtain ⟨d₂, tail, es, hcommits₂, hfol, -⟩ := exists_commits (c := c) Env.plain
    (hsound.of_extends hx₁) hroot₁.placed ⟨by omega, by omega⟩ hfits₂ (by rw [hc'])
  have hmagic : c'.ub.magic = uberMagic := by
    rw [hc']
    exact hroot₁.placed.magic
  obtain ⟨buf, hbuf⟩ : ∃ buf, es = beforeFlip c'.ub buf ++
      [.write .uber (c'.ub.seq.toNat % 2) (c'.ub.marshalBinary Env.plain), .sync] :=
    ⟨_, hfol.events⟩
  have hflip : es[(beforeFlip c'.ub buf).length]? =
      some (.write .uber (c'.ub.seq.toNat % 2) (c'.ub.marshalBinary Env.plain)) := by
    rw [hbuf, List.getElem?_append_right le_rfl, Nat.sub_self]
    rfl
  have htake : es.take (beforeFlip c'.ub buf).length = beforeFlip c'.ub buf := by
    rw [hbuf, List.take_left]
  have hcrash : Crash Env.plain d₁.image es _ _ := .within (beforeFlip c'.ub buf).length .uber
    (c'.ub.seq.toNat % 2) (c'.ub.marshalBinary Env.plain) zeroBlock hflip
    (.inr (.inr fun _ => ⟨_, parseUber_zeroBlock Env.plain⟩))
  obtain ⟨r, hr, -, hreads⟩ :=
    ((flip_safe hist₁).2.2 c' d₂ es hcap₂ hsmall₂ hcommits₂).2.2 _ _ hcrash
  refine ⟨d₁, c, c', d₂, es, _, _, hist₁, hseq₁, by rw [hc], ?_, hcommits₂, by rw [hc'], hcrash,
    Function.update_self .., r, hr, hreads ?_⟩
  · rw [hc, htbl]
    rfl
  · rintro (⟨m, b, hm⟩ | ⟨-, hzero⟩)
    · rw [htake] at hm
      exact uber_notMem_beforeFlip _ _ m b hm
    · have hparse := parseUber_marshalBinary Env.plain hmagic
      rw [← hzero, parseUber_zeroBlock] at hparse
      cases hparse

/-- A bitmap whose encoding reaches 4 GiB does not survive its own commit: the
recorded length is cut to 32 bits, and mounting reads a truncated table. -/
theorem mount_short {env : Env} {d : Disk} {v : Uberblock} {bm : Alloc.Bitmap} {ddt : Dedup.Table}
    {tbl : Inode.Table} (hdisk : OnDisk env d ⟨withLens v bm ddt tbl, bm, ddt, tbl⟩)
    (ht : bm.total < 2 ^ 64) (hbig : 2 ^ 32 ≤ bm.marshalLen) :
    mount env d = .error (.err (.alloc .short)) := by
  obtain ⟨m, hm⟩ : ∃ m, m = (withLens v bm ddt tbl).bitmapLen.toNat := ⟨_, rfl⟩
  have hlt : m < bm.marshalLen := by
    rw [hm]
    show (UInt32.ofNat bm.marshalLen).toNat < _
    rw [UInt32.toNat_ofNat']
    exact (Nat.mod_lt _ (by decide)).trans_le hbig
  obtain ⟨blocks, rest, hmap, hflat⟩ := hdisk.written.reads_snapshot
  have hflat : blocks.flatten = bm.marshal ++ (ddt.marshal ++ (tbl.marshal ++ rest)) := hflat
  have hbest := better_slots hdisk.placed.magic hdisk.slot hdisk.other
  have htwo := hdisk.placed.two_le
  have hcut : cut blocks.flatten 0 (withLens v bm ddt tbl).bitmapLen.toNat =
      .ok (bm.marshal.take m) := by
    have hlen : m ≤ bm.marshal.length := by
      rw [Alloc.Bitmap.length_marshal]
      exact Nat.le_of_lt hlt
    rw [cut, ← hm, hflat, if_neg (by rw [List.length_append]; omega), slice_append_left (by omega)]
    rfl
  have hshort : Alloc.Bitmap.unmarshal (bm.marshal.take m) = .error .short := by
    have hlen : (bm.marshal.take m).length = m := by
      rw [List.length_take, Alloc.Bitmap.length_marshal]
      omega
    unfold Alloc.Bitmap.unmarshal
    by_cases h8 : m < 8
    · rw [if_pos (by omega)]
    · -- the cluster count is there, the words are not
      have htot : leNat (slice (bm.marshal.take m) 0 8) = bm.total := by
        have htake : slice (bm.marshal.take m) 0 8 = leBytes 8 bm.total := by
          rw [slice, List.drop_zero, List.take_take, Nat.min_eq_left (by omega),
            Alloc.Bitmap.marshal]
          exact slice_zero_append (length_leBytes 8 _)
        rw [htake, leNat_leBytes_of_lt (by omega)]
      rw [if_neg (by omega), htot, if_pos]
      rw [List.length_drop, hlen]
      have : bm.marshalLen = 8 + bm.words * 8 := rfl
      show m - 8 < bm.words * 8
      omega
  unfold mount
  rw [show uberSlot0 = 0 from rfl, show uberSlot1 = 1 from rfl, readBlock_of_lt (by omega),
    readBlock_of_lt (by omega)]
  simp only [ok_bind, mapError_ok, hbest, hmap, hcut, hshort]
  rfl

/-- Formatting a device of 2^35 clusters leaves an image that does not mount. -/
theorem unmountable_of_large (env : Env) : ∃ d u c,
    History env (fun _ _ _ => True) d u c ∧ mount env d = .error (.err (.alloc .short)) := by
  obtain ⟨n, hn35⟩ : ∃ n : Nat, n = 2 ^ 35 := ⟨_, rfl⟩
  obtain ⟨inodes, hi⟩ : ∃ inodes : Nat, inodes = 1 := ⟨_, rfl⟩
  have hn : n < 2 ^ 64 := by omega
  have hform : Formattable n (capacity inodes) inodes := by
    simp only [Formattable, slotBlocks, capacity, Inode.inodeSize, blk, Block.size,
      if_neg (show inodes ≠ 0 by omega)]
    omega
  have hsat := format_sat env inodes inodes (Disk.zeroed n hn)
  cases hrun : format env inodes inodes (Disk.zeroed n hn) with
  | error e d =>
    exact (hsat.error hrun ⟨fun _ => rfl, fun _ => rfl, fun _ => rfl⟩ hform).elim
  | ok u d =>
    refine ⟨d, u, _, .format hn hrun trivial, ?_⟩
    obtain ⟨hdisk, v, hv⟩ := onDisk_of_format (nothingNewer_of_zero rfl) hrun
    generalize hbm : (Alloc.Bitmap.new (Disk.zeroed n hn).blocks).reserve 0 u.dataStart.toNat = bm
      at hdisk hv
    have htotal : bm.total = n := by
      rw [← hbm]
      exact (Alloc.Bitmap.reserve_spec (Alloc.Bitmap.new_counted _) 0 _).1
    generalize Inode.Table.new u.inodeCount.toNat = tbl at hdisk hv
    rw [hv] at hdisk
    refine mount_short hdisk (by omega) ?_
    rw [Alloc.Bitmap.marshalLen, Alloc.Bitmap.words, htotal]
    omega

theorem format_unmountable : ∃ d u c, History Env.plain (fun _ _ _ => True) d u c ∧
    mount Env.plain d = .error (.err (.alloc .short)) := unmountable_of_large Env.plain

end Cow
end BloomFS
