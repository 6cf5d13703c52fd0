/-
What a commit makes durable.

A device that stops at any later point, in the middle of an operation or of the next
commit, mounts again with the files, the directories and the links as they were at the
last commit, until the next uberblock is written.
-/
import BloomFS.Runs.Failed
import BloomFS.Runs.Mounts

namespace BloomFS
namespace Fs

open Bytes Exec Block Store

variable {env : Env}

/-- Until the next uberblock write, a crash falls back to the same commit. -/
theorem Chain.commit_kept {d : Disk} {k₀ i : Nat} {C : Nat → Cow.Commit} (h : Chain env d k₀ C)
    (hi : k₀ ≤ i) (j : Nat) (hno : ∀ k m b, i ≤ k → k < i + j →
      d.trace[k]? ≠ some (.write .uber m b))
    (hle : i + j ≤ d.trace.length) : C (i + j) = C i := by
  induction j with
  | zero => rfl
  | succ j ih =>
    have hC := ih (fun k m b h1 h2 => hno k m b h1 (by omega)) (by omega)
    have hlt : i + j < d.trace.length := by omega
    obtain ⟨ev, hev⟩ : ∃ ev, d.trace[i + j]? = some ev := ⟨_, List.getElem?_eq_getElem hlt⟩
    have hstep := h.step (i + j) ev (by omega) hev
    rw [← hC, ← Nat.add_assoc]
    cases ev with
    | write o m b =>
      cases o with
      | uber => exact (hno (i + j) m b (by omega) (by omega) hev).elim
      | data => exact hstep.1
      | snapshot => exact hstep.1
    | _ => exact hstep

/-- A device with a commit on it mounts with the tables of that commit. -/
theorem mount_of_root {d : Disk} {c : Cow.Commit} (h : Cow.Root env d c)
    (hslot : c.ub.metaBlocks.toNat * Cow.blk < c.bm.marshalLen + 2 ^ 32) (bs : BlockStore)
    (ticks orders : Nat) :
    ∃ r, Cow.Reads c r ∧ mount env bs.key ticks orders d = .ok (mounted d bs ticks orders r) := by
  obtain ⟨r, hr, hreads⟩ := Cow.mount_of_root h
  have hlen : c.bm.marshalLen < 2 ^ 32 := by
    rw [← h.lens.bm]
    exact UInt32.toNat_lt _
  have hblk : Block.size = Cow.blk := rfl
  refine ⟨r, hreads, mount_eq ticks orders hr (new_of_key bs) ?_⟩
  rw [hreads.ub, hblk]
  omega

/-! ## The device of a later state -/

/-- The device has the history of `d`, and went on from there. -/
def Later (d : Disk) (s : FS) : Prop := s.dev.blocks = d.blocks ∧ d.trace <+: s.dev.trace

theorem Later.of_extends {d : Disk} {s s' : FS} {es : List Event} (h : Later d s)
    (hx : Disk.Extends s.dev s'.dev es) : Later d s' :=
  ⟨hx.blocks.trans h.1, h.2.trans (after_of_extends hx)⟩

theorem later_commit (d : Disk) : Keeps (Later d) (commit env) := fun s hs =>
  (commit_sat s).mono
    (fun _ s' h => by
      obtain ⟨_, -, hx⟩ := h.dev
      exact hs.of_extends hx)
    (fun _ s' h => by
      obtain ⟨_, hx, -⟩ := h.dev
      exact hs.of_extends hx)

theorem later_closed (d : Disk) : Closed env (Later d) := by
  refine closed_of_extends (fun s s' h hs => ?_) (fun s s' es hx _ _ hs => hs.of_extends hx)
    (keeps_bind (keeps_modify fun s hs => hs.of_extends (refuse_extends s)) fun _ => later_commit d)
  unfold Later
  rw [h.dev]
  exact hs

theorem Later.crashAt {d : Disk} {s : FS} (h : Later d s) (hd : d.Consistent) :
    (s.dev.crashAt d.trace.length).image = d.image := by
  obtain ⟨es, hes⟩ := h.2
  show replay _ (s.dev.trace.take _) = _
  rw [← hes, List.take_left]
  exact hd.symm

/-- Without a refused block only an explicit commit writes an uberblock. -/
def Unflipped (n : Nat) (s : FS) : Prop :=
  .refused ∈ s.dev.trace ∨ ∀ k m b, n ≤ k → s.dev.trace[k]? ≠ some (.write .uber m b)

theorem Unflipped.of_extends {n : Nat} {s s' : FS} {es : List Event} (h : Unflipped n s)
    (hx : Disk.Extends s.dev s'.dev es) (hes : ∀ m b, .write .uber m b ∉ es) : Unflipped n s' := by
  rcases h with h | h
  · exact .inl ((after_of_extends hx).subset h)
  · refine .inr fun k m b hk hev => ?_
    rw [hx.trace] at hev
    by_cases hlt : k < s.dev.trace.length
    · rw [List.getElem?_append_left hlt] at hev
      exact h k m b hk hev
    · rw [List.getElem?_append_right (Nat.le_of_not_lt hlt)] at hev
      exact hes m b (List.mem_of_getElem? hev)

theorem uber_notMem_of_intoFree {bm : Alloc.Bitmap} {p : Bytes} {es : List Event}
    (h : ∀ ev ∈ es, IntoFree bm ev) (m : Nat) (b : Bytes) :
    .write .uber m b ∉ Event.hash p :: es := by
  intro hm
  rcases List.mem_cons.mp hm with h1 | h1
  · cases h1
  · obtain ⟨_, _, heq, -⟩ := h _ h1
    cases heq

theorem unflipped_closed (n : Nat) : Closed env (Unflipped n) where
  other s s' h hs := by
    unfold Unflipped
    rw [h.dev]
    exact hs
  write b s hs := (storeWrite_sat b s).mono
    (fun _ s' h => by
      obtain ⟨es, hx, hes⟩ := h.2.extends
      exact hs.of_extends hx (uber_notMem_of_intoFree hes))
    (fun _ s' h => by
      obtain ⟨-, _, -, hw⟩ := h
      obtain ⟨es, hx, hes⟩ := hw.extends
      exact hs.of_extends hx (uber_notMem_of_intoFree hes))
  release r s hs := (storeRelease_sat r s).mono
    (fun _ s' h => by
      have hdev : s'.dev = s.dev := h.2.dev_eq
      unfold Unflipped
      rw [hdev]
      exact hs)
    (fun _ s' h => h.2.1 ▸ hs)
  autoCommit s _ := by
    refine sat_modify_bind ((lasting_commit refused_lasting (refuse s) (mem_refuse s)).mono ?_ ?_)
    · exact fun _ s' h => .inl h
    · exact fun _ s' h => .inl h
  refuse s hs := hs.of_extends (refuse_extends s) (by simp)

end Fs

namespace Runs

open Bytes Exec Block Dir Fs Store Spec Refine

variable {env : Env} {s s₁ s₂ : Session}

/-- Calls of any kind, with any outcome, and mounts with any key. -/
inductive Onward (env : Env) : Session → Session → Prop
  | refl (s : Session) : Onward env s s
  | step {s₀ s s' : Session} {op : Op} {out : Outcome} (h : Onward env s₀ s)
      (does : perform env op s = (out, s')) : Onward env s₀ s'

/-- What every call keeps is kept onward. -/
theorem Onward.keeps {I : FS → Prop} (hI : Closed env I) (hc : Keeps I (commit env))
    (hm : ∀ s fs key ticks orders, I s → mount env key ticks orders s.dev = .ok fs → I fs)
    (h : Onward env s₁ s₂) (hs : I s₁.fs) : I s₂.fs := by
  induction h with
  | refl => exact hs
  | step _ does ih => exact hI.of_perform_mount hc hm does ih

theorem Onward.later (h : Onward env s₁ s₂) : Later s₁.fs.dev s₂.fs := by
  refine h.keeps (later_closed _) (later_commit _) (fun s fs key ticks orders hs hm => ?_)
    ⟨rfl, List.prefix_refl _⟩
  obtain ⟨r, bs, -, -, rfl⟩ := mount_ok hm
  exact hs

/-- `fs` has the inodes of `s`, and reads the same files, directories and links. -/
structure Restores (env : Env) (s fs : FS) : Prop where
  inodes : fs.inodes = s.inodes
  readFile : ∀ id, fs.readFile env id = s.readFile env id
  readAt : ∀ id off length, fs.readAt env id off length = s.readAt env id off length
  readDirPages : ∀ id, fs.readDirPages env id = s.readDirPages env id
  readlink : ∀ id, fs.readlink env id = s.readlink env id

/-- A query of one inode, on two states with the same inodes. -/
theorem query_congr {s fs : FS} {α : Type} (hin : fs.inodes = s.inodes) {id : Nat}
    {f g : Inode → Except (Fault Fs.Error) α}
    (hfg : id < s.inodes.cap → f (s.inodes.slots id) = g (s.inodes.slots id)) :
    (fs.getInode id >>= f) = (s.getInode id >>= g) := by
  have hget : fs.getInode id = s.getInode id := by
    unfold FS.getInode
    rw [hin]
  rw [hget]
  unfold FS.getInode Inode.Table.get
  by_cases hid : s.inodes.cap ≤ id
  · rw [if_pos hid]
    rfl
  · rw [if_neg hid]
    exact hfg (Nat.lt_of_not_le hid)

theorem readPiece_congr {s fs : FS} {refs : List Ref}
    (h : ∀ r ∈ refs, fs.bsRead env r = s.bsRead env r)
    (rs off stop i : Nat) : fs.readPiece env refs rs off stop i =
        s.readPiece env refs rs off stop i := by
  unfold FS.readPiece
  cases hr : refs[i]? with
  | none => rfl
  | some r =>
    dsimp only
    rw [h r (List.mem_of_getElem? hr)]

/-- The readers see the blocks that the inodes name, and no others. -/
theorem restores_of_names (hl : env.Lawful) {s fs : FS} (hin : fs.inodes = s.inodes)
    (hlaid : ∀ id, id < s.inodes.cap → ∃ refs blob,
      Laid (Names env s) (s.inodes.slots id) refs blob)
    (hnames : ∀ r b, Names env s r b → Names env fs r b) : Restores env s fs := by
  have hlaid' : ∀ id, id < s.inodes.cap → ∃ refs blob,
    Laid (Names env s) (s.inodes.slots id) refs blob ∧
      Laid (Names env fs) (s.inodes.slots id) refs blob := by
    intro id hid
    obtain ⟨refs, blob, h⟩ := hlaid id hid
    exact ⟨refs, blob, h, h.mono fun r b _ hr => hnames r b hr⟩
  have hdata : ∀ id, id < s.inodes.cap →
      fs.getData env (s.inodes.slots id) = s.getData env (s.inodes.slots id) := by
    intro id hid
    obtain ⟨refs, blob, h, h'⟩ := hlaid' id hid
    rw [h.getData hl, h'.getData hl]
  refine ⟨hin, fun id => ?_, fun id off length => ?_, fun id => ?_, fun id => ?_⟩
  · unfold FS.readFile FS.regular
    rw [bind_assoc, bind_assoc]
    refine query_congr hin fun hid => ?_
    by_cases hk : (s.inodes.slots id).kind ≠ Inode.typeRegular
    · rw [if_pos hk]
      rfl
    · rw [if_neg hk]
      exact hdata id hid
  · unfold FS.readAt FS.regular
    rw [bind_assoc, bind_assoc]
    refine query_congr hin fun hid => ?_
    obtain ⟨refs, blob, h, h'⟩ := hlaid' id hid
    have hread : ∀ r ∈ refs, fs.bsRead env r = s.bsRead env r := by
      intro r hr
      obtain ⟨b, hb, -⟩ := h.good_of_mem (List.mem_append_left _ hr)
      rw [hb.read hl, (hnames r b hb).read hl]
    by_cases hk : (s.inodes.slots id).kind ≠ Inode.typeRegular
    · rw [if_pos hk]
      rfl
    · rw [if_neg hk]
      simp only [pure_bind, h.loadRefs hl, h'.loadRefs hl, ok_bind,
        funext (readPiece_congr hread _ _ _)]
  · unfold FS.readDirPages FS.dirData
    rw [bind_assoc, bind_assoc]
    refine query_congr hin fun hid => ?_
    rw [hdata id hid]
  · unfold FS.readlink
    refine query_congr hin fun hid => ?_
    rw [hdata id hid]

/-- A block of the commit is found on the device at the crash. -/
theorem names_of_crash {s₁ s₂ fs : FS} {c : Cow.Commit} {j : Nat} (hlater : Later s₁.dev s₂)
    (hdev : fs.dev = s₂.dev.crashAt j) (hbs : fs.bs = s₁.bs)
    (hddt : ∀ k, fs.ddt.lookup k = c.ddt.lookup k) (hsame : c.ddt = s₁.ddt)
    (hkept : ∀ n, Owned c.ddt n → (s₂.dev.crashAt j).image n = s₁.dev.image n) {r : Ref} {b : Bytes}
    (h : Names env s₁ r b) : Names env fs r b := by
  obtain ⟨e, he, hr, hst⟩ := h
  have he' : c.ddt.lookup r.hash = some e := by
    rw [hsame]
    exact he
  refine ⟨e, (hddt r.hash).trans he', hr, ?_⟩
  rw [hbs]
  refine hst.of_image ?_ fun n hn => ?_
  · show fs.dev.blocks = s₁.dev.blocks
    rw [hdev]
    exact hlater.1
  · show fs.dev.image n = s₁.dev.image n
    rw [hdev]
    exact hkept n ⟨r.hash, e, he', hn⟩

/-- What a commit made durable stays.  The history before the commit is one of prompt calls
and of mounts after a commit with every directory linked, on a device that refuses no write
of metadata, and no stored blocks collide.  After the commit, whatever calls follow, with any
outcome, and wherever the device stops before the next uberblock write, a mount succeeds
and finds the inodes, the contents of the files, the directories and the links as they were
at the commit. -/
theorem commit_survives (hl : env.Lawful) {born : List (Nat × Nat)}
    (life : Life env Cow.MetaSound (Prompt env) DirsLinked born s)
    (hplay : InPlay env s.fs.dev.trace)
    (commits : perform env .commit s = (.ok .unit, s₁)) (later : Onward env s₁ s₂) {j : Nat}
    (hj : s₁.fs.dev.trace.length ≤ j) (hle : j ≤ s₂.fs.dev.trace.length)
    (hno : ∀ k m b, s₁.fs.dev.trace.length ≤ k → k < j →
      s₂.fs.dev.trace[k]? ≠ some (.write .uber m b))
    (ticks orders : Nat) :
    ∃ fs, mount env s.fs.bs.key ticks orders (s₂.fs.dev.crashAt j) = .ok fs ∧
        Restores env s.fs fs := by
  obtain ⟨t, hrep, -⟩ := prompt_rep hl life hplay
  obtain ⟨hrun, -⟩ := perform_commit commits ⟨_, rfl⟩
  have hc : Committed env s.fs s₁.fs := (commit_sat s.fs).ok hrun
  -- the chain of the commit goes on in the later state
  obtain ⟨k₀, C, hchain₁, hlast, ht⟩ := (life.held fun _ h => h).commit_chain hc
  have hfrom₁ : HeldFrom env k₀ s₁.fs.dev.trace.length C s₁.fs :=
    ⟨le_rfl, C, fun _ _ => rfl, hchain₁, ht⟩
  obtain ⟨-, C₂, hC₂, hchain₂, -⟩ := later.keeps heldFrom_closed heldFrom_commit
    (fun _ _ _ _ _ h hm => h.mount hm) hfrom₁
  have hat := (hC₂ _ le_rfl).trans hlast
  obtain ⟨i, rfl⟩ := Nat.exists_eq_add_of_le hj
  have hroot := hchain₂.root _ (hchain₁.start.trans hj) hle
  rw [hchain₂.commit_kept hchain₁.start i hno hle, hat] at hroot
  rw [hlast] at ht
  obtain ⟨r, hreads, hmount⟩ := mount_of_root hroot ht.slot s.fs.bs ticks orders
  refine ⟨_, hmount, ?_⟩
  obtain ⟨refs, lost, hf, -⟩ := hrep.filled
  obtain ⟨hkept, -⟩ := (commit_stocked hf.stocked hrep.logged).ok hrun
  have hsame : s.fs.ddt = s₁.fs.ddt := by rw [hc.rest]
  have hbs : (mounted (s₂.fs.dev.crashAt (s₁.fs.dev.trace.length + i)) s.fs.bs ticks orders r).bs =
      s₁.fs.bs := by
    rw [hc.rest]
    rfl
  refine restores_of_names hl hreads.tbl (fun id hid => ⟨_, _, hf.laid id hid⟩) fun q b hq => ?_
  refine names_of_crash later.later rfl hbs hreads.ddt hsame (fun n hn => ?_) (hkept.names q b hq)
  rw [(hchain₂.bytes_kept hchain₁.start (by rw [hat]; exact hn) i hno hle).2]
  exact congrFun (later.later.crashAt hchain₁.consistent) n

/-- A call that the machine answers commits only after a refused block. -/
theorem unflipped_of_perform {op : Op} (hop : Answers op) {s s' : Session} {out : Outcome}
    (does : perform env op s = (out, s')) : Unflipped s.fs.dev.trace.length s'.fs := by
  have hstart : Unflipped s.fs.dev.trace.length s.fs := by
    refine .inr fun k m b hk hev => ?_
    rw [List.getElem?_eq_none hk] at hev
    cases hev
  have hkeep := (actOf env s.handles op).2 _ (unflipped_closed s.fs.dev.trace.length)
  rw [perform_eq_call (inSession_of_answers hop), call, execOf_eq_actOf hop] at does
  cases hr : (actOf env s.handles op).1 s.fs with
  | ok r fs =>
    rw [hr] at does
    cases does
    exact hkeep.ok hstart hr
  | error f fs =>
    rw [hr] at does
    cases does
    exact hkeep.error hstart hr

theorem regular_of_rep {s : FS} {t : State} (h : Rep env s t) {id : Nat} (hid : id < t.cap)
    (hk : (t.node id).kind = Inode.typeRegular) : s.regular id = .ok (s.inodes.slots id) := by
  unfold FS.regular
  rw [h.getInode_of_lt (Nat.not_le_of_lt hid), ok_bind, (h.nodes id (h.cap ▸ hid)).kind,
    if_neg (not_not.mpr hk)]
  rfl

theorem readFile_of_rep (hl : env.Lawful) {s : FS} {t : State} (h : Rep env s t) {id : Nat}
    (hid : id < t.cap)
    (hk : (t.node id).kind = Inode.typeRegular) : s.readFile env id = .ok (t.node id).blob := by
  unfold FS.readFile
  rw [regular_of_rep h hid hk, ok_bind]
  exact h.getData hl (h.cap ▸ hid)

/-- A file that is overwritten after the commit: the device stops after the overwrite, and
the mount finds the committed contents. -/
theorem commit_survives_overwrite : ∃ born s s₁ s₂ r fs,
    Life Env.plain Cow.MetaSound (Prompt Env.plain) DirsLinked born s ∧
      perform Env.plain .commit s = (.ok .unit, s₁) ∧
      perform Env.plain (.writeFile 1 [8]) s₁ = (.ok r, s₂) ∧ s₂.fs.readFile Env.plain 1 = .ok [8] ∧
      mount Env.plain s.fs.bs.key 0 0 (s₂.fs.dev.crashAt s₂.fs.dev.trace.length) = .ok fs ∧
      fs.readFile Env.plain 1 = .ok [7] := by
  have htrail : ∃ x ∈ trail Env.plain Tended [.create 0 "a", .writeFile 1 [7]] (fresh Env.plain) [],
      ∃ y ∈ script Env.plain Fair [.writeFile 1 [8]] x.1 x.2.1,
        (1 < x.1.cap ∧ (x.1.node 1).kind = Inode.typeRegular ∧ (x.1.node 1).blob = [7]) ∧
        (1 < y.1.cap ∧ (y.1.node 1).kind = Inode.typeRegular ∧ (y.1.node 1).blob = [8]) ∧
        Sketched y.1.paid ∧ y.1.paid.length ≤ 256 := by
    decide
  obtain ⟨⟨t, handles, b⟩, hx, ⟨t₂, handles₂⟩, hy, hold, hnew, hsketch, hfew⟩ := htrail
  obtain ⟨hclear, fs₀, life, htrack⟩ :=
    start_life (P := Prompt Env.plain) (R := DirsLinked) hsketch hfew metaSound_smallDisk
  obtain ⟨s, life₁, hhandles, htrack₁, ho⟩ := life_exact (k := 2) hclear (fun _ _ h => h.1)
    (fun _ s t op r _ => prompt_of_tended Env.plain_lawful s t op r) (by simp [Plays, Answers]) life
    (htrack.mono (by decide)) (orderly_fresh _) hx (script_grows hy)
  obtain ⟨s₁, commits, hh₁, htrack₂⟩ := htrack₁.committed
  obtain ⟨hfair, r, t₃, hrun, hrest⟩ := script_cons hy
  cases hrest
  rw [← hhandles, ← hh₁] at hrun ho
  have hans : Answers (.writeFile 1 [8]) := trivial
  obtain ⟨s₂, does, -, htrack₃⟩ := htrack₂.act hclear ho.ready hans (apart_of_fair hfair) hrun
    (List.prefix_refl _)
  have hplay : InPlay Env.plain s.fs.dev.trace := (htrack₁.undisturbed hclear).1
  have hno : ∀ k m b, s₁.fs.dev.trace.length ≤ k → k < s₂.fs.dev.trace.length →
      s₂.fs.dev.trace[k]? ≠ some (.write .uber m b) := by
    intro k m b hk _
    rcases unflipped_of_perform hans does with h | h
    · exact absurd h (htrack₃.undisturbed hclear).2
    · exact h k m b hk
  have hgrow := (trace_grows (inSession_of_answers hans) does).length_le
  obtain ⟨fs, hmount, hres⟩ := commit_survives Env.plain_lawful life₁ hplay commits
    (.step (.refl s₁) does) hgrow le_rfl hno 0 0
  refine ⟨_, s, s₁, s₂, r, fs, life₁, commits, does, ?_, hmount, ?_⟩
  · rw [readFile_of_rep Env.plain_lawful htrack₃.rep hnew.1 hnew.2.1, hnew.2.2]
  · rw [hres.readFile, readFile_of_rep Env.plain_lawful htrack₁.rep hold.1 hold.2.1, hold.2.2]

end Runs
end BloomFS
