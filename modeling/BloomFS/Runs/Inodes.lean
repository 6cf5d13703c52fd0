/-
The supply of inodes.

Along calls and crashes no inode id is lost: an id that is not in use can be handed out.
The count of free inodes in the capacity report is the number of such ids, and a creation
fails for want of an inode exactly when there is none.
-/
import BloomFS.Runs.Crashes
import BloomFS.Runs.Unseen
import BloomFS.Spec.Errors

namespace BloomFS
namespace Spec

open Bytes Exec Dir Fs Store

variable {env : Env} {t : State} {parent : Nat} {name : String}

/-- A new name could be added to the directory, but no id is left for its inode. -/
structure Exhausted (t : State) (parent : Nat) (name : String) : Prop where
  lt : parent < t.cap
  dir : (t.node parent).isDir
  new : Work.find ⟨t.node parent, (t.node parent).pages, []⟩ name = none
  free : t.free = []
  full : t.cap ≤ t.next

theorem noInodes_rare : Rare .noInodes := ⟨nofun, nofun⟩

theorem checkout_noInodes (parent : Nat) :
    Sat (checkout parent).1 t
      (fun w t' => t' = t ∧ (parent < t.cap ∧ (t.node parent).isDir) ∧
        w = ⟨t.node parent, (t.node parent).pages, []⟩)
      (fun f _ => f ≠ .err .noInodes ∧ ¬ (parent < t.cap ∧ (t.node parent).isDir)) := by
  unfold Sat
  rw [run_checkout]
  by_cases hid : t.cap ≤ parent
  · rw [if_pos hid]
    exact ⟨nofun, fun h => absurd h.1 (Nat.not_lt.mpr hid)⟩
  · rw [if_neg hid]
    by_cases hd : (t.node parent).isDir
    · rw [if_pos hd]
      exact ⟨rfl, ⟨Nat.not_le.mp hid, hd⟩, rfl⟩
    · rw [if_neg hd]
      exact ⟨nofun, fun h => hd h.2⟩

theorem allocInode_noInodes :
    Sat allocInode.1 t (fun _ _ => ¬ (t.free = [] ∧ t.cap ≤ t.next))
      (fun f _ => f = .err .noInodes ∧ t.free = [] ∧ t.cap ≤ t.next) := by
  unfold Sat
  rw [allocInode, Within.get_bind_run]
  cases hf : t.free with
  | cons id rest => exact fun h => absurd h.1 (List.cons_ne_nil _ _)
  | nil =>
    dsimp only
    by_cases hfull : t.cap ≤ t.next
    · rw [if_pos hfull]
      exact ⟨rfl, rfl, hfull⟩
    · rw [if_neg hfull]
      exact fun h => hfull h.2

/-- A creation fails for want of an inode exactly when it gets that far and there is none. -/
theorem createNode_exhausted (kind : UInt8) (mode : UInt16) :
    Sat (createNode env parent name kind mode).1 t (fun _ _ => ¬ Exhausted t parent name)
      (fun f _ => f = .err .noInodes ↔ Exhausted t parent name) := by
  refine sat_bind (checkout_noInodes parent) ?_ fun f _ h => ?_
  swap
  · exact iff_of_false h.1 fun he => h.2 ⟨he.lt, he.dir⟩
  rintro w t ⟨rfl, ⟨hlt, hdir⟩, rfl⟩
  refine Within.sat_ite (fun hsome => sat_fail (iff_of_false nofun fun he => ?_)) fun hnone => ?_
  · rw [he.new] at hsome
    exact absurd hsome Bool.false_ne_true
  refine sat_bind allocInode_noInodes (fun id t₁ hroom => ?_) fun f _ h => ?_
  swap
  · exact iff_of_true h.1 ⟨hlt, hdir, Option.not_isSome_iff_eq_none.mp hnone, h.2.1, h.2.2⟩
  have hno : ¬ Exhausted t parent name := fun he => hroom ⟨he.free, he.full⟩
  have hr := noInodes_rare
  refine Sat.mono (Q := fun _ _ => True) (E := fun f _ => f ≠ .err .noInodes) ?_ (fun _ _ _ => hno)
    fun f _ hf => iff_of_false hf hno
  exact avoids_bind (getNode_avoids hr id) (fun _ => avoids_bind (now_avoids env) fun _ =>
    avoids_bind (avoids_bind (getNode_avoids hr id) fun _ => avoids_bind avoids_modify fun _ =>
      putNode_avoids hr id _) fun _ => avoids_ite
        (avoids_bind (avoids_ite (avoids_pure _) avoids_panic) fun _ =>
          avoids_bind (flush_avoids hr env parent _) fun _ => avoids_pure _)
        (avoids_bind (avoids_pure _) fun _ =>
          avoids_bind (flush_avoids hr env parent _) fun _ => avoids_pure _)) t₁

end Spec

namespace Runs

open Bytes Exec Block Dir Fs Store Spec Refine

variable {env : Env} {s s' : Session} {t : State}

instance (s : FS) (id : Nat) : Decidable (s.InUse id) := inferInstanceAs (Decidable (_ ∧ _))

/-- How many ids are not in use. -/
def unused (s : FS) : Nat := ((Finset.range s.inodes.cap).filter fun id => ¬ s.InUse id).card

/-- The ids that are not in use are those above the high-water mark and those on the free
list. -/
theorem unused_eq (hrep : Rep env s.fs t) (hs : Slots t.view s.handles) :
    unused s.fs = t.cap - t.next + t.free.length := by
  have hnodup : t.free.Nodup := hs.nodup
  have hlt : ∀ id ∈ t.free, id < t.next := hs.free_lt
  have hle : t.next ≤ t.cap := hs.next_le
  have hset : ((Finset.range s.fs.inodes.cap).filter fun id => ¬ s.fs.InUse id) =
      Finset.Ico t.next t.cap ∪ t.free.toFinset := by
    ext id
    have hid := hlt id
    simp only [Finset.mem_filter, Finset.mem_range, Finset.mem_union, Finset.mem_Ico,
      List.mem_toFinset, FS.InUse, ← hrep.cap, ← hrep.next, ← hrep.free, not_and, not_not]
    constructor
    · rintro ⟨h₁, h₂⟩
      by_cases h : id < t.next
      · exact .inr (h₂ h)
      · exact .inl ⟨Nat.le_of_not_lt h, h₁⟩
    · rintro (⟨h₁, h₂⟩ | h)
      · exact ⟨h₂, fun h => absurd h (Nat.not_lt.mpr h₁)⟩
      · exact ⟨Nat.lt_of_lt_of_le (hid h) hle, fun _ => h⟩
  have hdisj : Disjoint (Finset.Ico t.next t.cap) t.free.toFinset := by
    rw [Finset.disjoint_left]
    intro id h₁ h₂
    exact Nat.lt_irrefl _ (Nat.lt_of_lt_of_le (hlt id (List.mem_toFinset.mp h₂))
      (Finset.mem_Ico.mp h₁).1)
  unfold unused
  rw [hset, Finset.card_union_of_disjoint hdisj, Nat.card_Ico, List.toFinset_card_of_nodup hnodup]

theorem free_length_le {handles : List Handle} (hs : Slots t.view handles) :
    t.free.length ≤ t.next := by
  have hnodup : t.free.Nodup := hs.nodup
  have hsub : t.free.toFinset ⊆ Finset.range t.next := fun id hid =>
    Finset.mem_range.mpr (hs.free_lt id (List.mem_toFinset.mp hid))
  have hcard := Finset.card_le_card hsub
  rwa [List.toFinset_card_of_nodup hnodup, Finset.card_range] at hcard

theorem used_le_of_rep (hrep : Rep env s.fs t) : s.fs.bm.used ≤ s.fs.bm.total := by
  obtain ⟨refs, lost, hf, -⟩ := hrep.filled
  obtain ⟨L, hspace⟩ := hf.stocked.stock.space
  have hcount : s.fs.bm.used = Alloc.Bitmap.setBits s.fs.bm.bits s.fs.bm.total := hspace.counted
  rw [hcount]
  exact Alloc.Bitmap.setBits_le _ _

/-- The machine is out of inodes when every id is in use. -/
theorem exhausted_iff (hl : env.Lawful) (hrep : Rep env s.fs t) (ho : Orderly t.view s.handles)
    (d : Nat) (name : String) :
    Exhausted t d name ↔ s.fs.IsDir d ∧ (∀ e ∈ s.fs.entriesOf env d, e.name ≠ name) ∧
        unused s.fs = 0 := by
  have hle : t.next ≤ t.cap := ho.1.next_le
  have hnew : s.fs.IsDir d → ((∀ e ∈ s.fs.entriesOf env d, e.name ≠ name) ↔
      Work.find ⟨t.node d, (t.node d).pages, []⟩ name = none) := by
    intro hd
    rw [hrep.entriesOf hl ho.ready.neat,
      if_pos (show d < t.cap ∧ (t.node d).isDir from hrep.isDir.mp hd)]
    unfold Work.find
    rw [Option.map_eq_none_iff, List.find?_eq_none]
    simp only [decide_eq_true_eq]
    rfl
  rw [unused_eq hrep ho.1]
  constructor
  · intro h
    have hd : s.fs.IsDir d := hrep.isDir.mpr ⟨h.lt, h.dir⟩
    refine ⟨hd, (hnew hd).mpr h.new, ?_⟩
    have hfull := h.full
    rw [h.free, List.length_nil]
    omega
  · rintro ⟨hd, hfresh, hzero⟩
    obtain ⟨hlt, hdir⟩ := hrep.isDir.mp hd
    exact ⟨hlt, hdir, (hnew hd).mp hfresh, List.eq_nil_of_length_eq_zero (by omega), by omega⟩

/-- The calls that make a file or a directory. -/
def Populates (op : Op) (d : Nat) (name : String) : Prop := op = .mkdir d name ∨ op = .create d name

theorem planOf_exhausted {op : Op} {d : Nat} {name : String} (hop : Populates op d name)
    (handles : List Handle) : Sat (planOf env handles op).1 t (fun _ _ => ¬ Exhausted t d name)
      (fun f _ => f = .err .noInodes ↔ Exhausted t d name) := by
  rcases hop with rfl | rfl
  · exact sat_map (createNode_exhausted _ _)
  · exact sat_map (createNode_exhausted _ _)

/-- No inode is lost.  After any prompt calls and any crashes to a commit with every directory
linked, on a device that refuses no write of metadata, the capacity report answers, its free
inodes are the ids that are not in use, and a creation that is not stopped by the store fails
for want of an inode exactly when it adds a new name to a directory and every id is in use. -/
theorem inodes_never_lost (hl : env.Lawful) (h : Recorded env () (fun _ _ _ => ()) s ())
    (hplay : InPlay env s.fs.dev.trace) :
    (∃ st, s.fs.statfs = .ok st ∧ st.files = s.fs.inodes.cap ∧ st.filesFree = unused s.fs) ∧
      ∀ op d name out s', Populates op d name → Ordinary env s op out →
      perform env op s = (out, s') →
        InPlay env s'.fs.dev.trace →
          (out = .error (.err .noInodes) ↔
            s.fs.IsDir d ∧ (∀ e ∈ s.fs.entriesOf env d, e.name ≠ name) ∧ unused s.fs = 0) := by
  obtain ⟨t, hrep, ho, -⟩ := Recorded.machine hl (J := fun _ _ => True)
    trivial (fun _ _ _ _ _ _ _ _ _ _ => trivial)
    (fun _ _ _ _ _ _ _ _ _ _ _ => trivial) (fun _ _ _ _ _ _ => trivial) h hplay
  refine ⟨?_, fun op d name out s' hop hp does hplay' => ?_⟩
  · have hlen : t.free.length ≤ t.next := free_length_le ho.1
    have hle : t.next ≤ t.cap := ho.1.next_le
    rw [hrep.next, hrep.free] at hlen
    rw [hrep.next, hrep.cap] at hle
    refine ⟨_, FS.statfs_ok_iff.mpr ⟨hlen, used_le_of_rep hrep, by omega, rfl⟩, rfl, ?_⟩
    rw [unused_eq hrep ho.1, hrep.cap, hrep.next, hrep.free]
    show s.fs.inodes.cap - _ = _
    omega
  · have hfair : Fair t.view op := (hrep.fair hl ho.ready.neat).mpr ⟨hp.current, hp.aside⟩
    obtain ⟨t', hran, -⟩ := perform_change hl hrep ho.ready hp.session (apart_of_fair hfair) hplay'
      (ordinary_calls.returns s op out _ hp hplay') does
    rw [← exhausted_iff hl hrep ho]
    cases hran with
    | answered _ hrun => exact iff_of_false nofun ((planOf_exhausted hop s.handles).ok hrun)
    | @failed e _ _ hrun =>
      rw [← (planOf_exhausted hop s.handles).error hrun]
      constructor
      · intro h
        cases h
        rfl
      · intro h
        cases h
        rfl
    | beside hno =>
      rcases hop with rfl | rfl
      · exact absurd trivial hno
      · exact absurd trivial hno

/-- A file is made and removed beside a directory, and the volume is mounted again.  The id
of the removed file counts as free, and a file in the directory gets it. -/
theorem inodes_never_lost_removed : ∃ s s' st r, Recorded Env.plain () (fun _ _ _ => ()) s () ∧
    InPlay Env.plain s.fs.dev.trace ∧ s.fs.statfs = .ok st ∧ st.filesFree = 4094 ∧
    perform Env.plain (.create 2 "b") s = (.ok r, s') ∧ unused s.fs ≠ 0 ∧
      s'.fs.entriesOf Env.plain 2 = [⟨"b", 1⟩] := by
  have htrail : ∃ x ∈ trail Env.plain Tended [.create 0 "a", .mkdir 0 "d", .unlink 0 "a"]
      (fresh Env.plain) [],
      ∃ y ∈ script Env.plain Fair [.create 2 "b"] x.1.reopen [],
        (x.1.reopen.cap - x.1.reopen.next + x.1.reopen.free.length = 4094 ∧ 2 < x.1.reopen.cap ∧
          (x.1.reopen.node 2).isDir ∧ (x.1.reopen.node 2).entries = []) ∧
        (2 < y.1.cap ∧ (y.1.node 2).isDir) ∧ (y.1.node 2).entries = [⟨"b", 1⟩] ∧
        (∀ id < x.1.next, id ∉ x.1.free → (x.1.node id).nlink ≠ 0) ∧ x.1.count = x.1.next ∧
        Sketched y.1.paid ∧ y.1.paid.length ≤ 256 := by
    decide
  obtain ⟨⟨t, handles, b⟩, hx, ⟨t', handles'⟩, hy, ⟨hfree, hcap, hdir, hempty⟩, hdir', hmade,
    hlinks, hlev, hsketch, hfew⟩ := htrail
  obtain ⟨hclear, hblank, fs₀, hfs₀, htrack⟩ := start_format hsketch hfew
  have hpre : t.reopen.log <+: t'.log := script_grows hy
  obtain ⟨s₀, h, hhandles, htrack₀, ho⟩ :=
    trail_exact (k := 1) (b := []) (P := Prompt Env.plain)
    (R := fun _ s => Recorded Env.plain () (fun _ _ _ => ()) s ())
    (J := fun t handles => Orderly t.view handles) hclear
    (fun _ _ _ _ _ hr does hop hp => hr.call does hop hp)
    (fun _ _ => Orderly.ready) (fun _ _ _ _ _ hj hC => hj.step hC.1)
    (fun _ s t op r _ hop hrep hj hC =>
      ⟨apart_of_fair hC.1, prompt_of_tended Env.plain_lawful s t op r hop hrep hj hC⟩)
    (by simp [Plays, Answers]) (.start hblank metaSound_smallDisk hfs₀)
    (htrack.mono (by decide)) (orderly_fresh _) hx hpre
  -- the mount is a crash right after the commit
  have hdirs : DirsLinked s₀ := by
    intro id hid hd
    rw [(htrack₀.rep.nodes id hd.1).nlink]
    obtain ⟨hlt, hnot⟩ := htrack₀.rep.inUse.mp hid
    exact hlinks id hlt hnot
  obtain ⟨s₁, s, commits, mounts, hnone, htrack₁⟩ := htrack₀.reopened h.held
  obtain ⟨hmount, -⟩ := perform_remount mounts
  have hstops : Stops Env.plain s₀ s₁ [] :=
    ⟨commits, ⟨s₁, .refl s₁, by rw [List.append_nil]⟩,
      fun _ _ => List.not_mem_nil⟩
  have hback : s₁.fs.dev.restart [] s₁.fs.dev.calls = s₁.fs.dev := by
    unfold Disk.restart
    rw [List.filter_nil, List.append_nil]
    rfl
  have hrec : Recorded Env.plain () (fun _ _ _ => ()) s () := by
    have hmount' : mount Env.plain s₀.fs.bs.key s₁.fs.ticks s₁.fs.orders
        (s₁.fs.dev.restart [] s₁.fs.dev.calls) = .ok s.fs := hback.symm ▸ hmount
    have hcrash := h.crash hstops hdirs hmount'
    rw [← hnone] at hcrash
    exact hcrash
  have ho' : Orderly t.reopen.view s.handles := by
    rw [hnone]
    exact ho.reopen (fun id hd => hlinks id (ho.1.used_of_dir hd).1 (ho.1.used_of_dir hd).2) hlev
  obtain ⟨hfair, r, t₁, hrun, hrest⟩ := script_cons hy
  cases hrest
  rw [← hnone] at hrun
  have hans : Answers (.create 2 "b") := trivial
  obtain ⟨s', does, hh', htrack'⟩ := htrack₁.act hclear ho'.ready hans (apart_of_fair hfair) hrun
    (List.prefix_refl _)
  have hord : Ordinary Env.plain s (.create 2 "b") (.ok r) :=
    ⟨trivial, .inl ⟨r, rfl⟩, fun _ he => (by cases he), trivial, trivial⟩
  have hplay := (htrack₁.undisturbed hclear).1
  obtain ⟨⟨st, hst, -, hcount⟩, hiff⟩ := inodes_never_lost Env.plain_lawful hrec hplay
  rw [unused_eq htrack₁.rep ho'.1, hfree] at hcount
  have hiff := hiff (.create 2 "b") 2 "b" _ s' (.inr rfl) hord does (htrack'.undisturbed hclear).1
  refine ⟨s, s', st, r, hrec, hplay, hst, hcount, does, fun hzero => ?_, ?_⟩
  · have hnew : ∀ e ∈ s.fs.entriesOf Env.plain 2, e.name ≠ "b" := by
      rw [htrack₁.rep.entriesOf Env.plain_lawful ho'.ready.neat, if_pos ⟨hcap, hdir⟩, hempty]
      exact fun e he => absurd he List.not_mem_nil
    cases hiff.mpr ⟨htrack₁.rep.isDir.mpr ⟨hcap, hdir⟩, hnew, hzero⟩
  · have hready := (ho'.step hfair ((planOf_change hclear.lawful ho'.ready hans).ok hrun)).ready
    rw [htrack'.rep.entriesOf Env.plain_lawful hready.neat, if_pos hdir', hmade]

end Runs
end BloomFS
