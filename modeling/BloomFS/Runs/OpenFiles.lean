/-
Files that are held open.

A file keeps its id and its contents as long as some handle on it is open, whatever happens to
its names.  After the last handle and the last name its slot is blank and its id is on the free
list.
-/
import BloomFS.Runs.Oversize

namespace BloomFS
namespace Runs

open Bytes Exec Block Dir Fs Store Spec Refine

variable {env : Env} {D : Disk → Prop} {past : List Session} {s s' : Session} {v v' v₁ v₂ v₃ : View}
  {handles : List Handle}

/-! ## What is open is a file -/

/-- What is open was open, and no file became something else. -/
def KeptOpen (v v' : View) : Prop :=
  ∀ id, v'.opens id ≠ 0 → v.opens id ≠ 0 ∧
    ((v.node id).kind = Inode.typeRegular → (v'.node id).kind = Inode.typeRegular)

theorem KeptOpen.refl (v : View) : KeptOpen v v := fun _ h => ⟨h, fun hk => hk⟩

theorem KeptOpen.trans (h : KeptOpen v₁ v₂) (h' : KeptOpen v₂ v₃) : KeptOpen v₁ v₃ :=
    fun id ho => by
  obtain ⟨ho₂, hk₂⟩ := h' id ho
  obtain ⟨ho₁, hk₁⟩ := h id ho₂
  exact ⟨ho₁, fun hk => hk₂ (hk₁ hk)⟩

/-- A slot that is not open is changed, or keeps its kind. -/
theorem KeptOpen.set {d : Nat} {o : Outline} (h : v.opens d = 0 ∨ o.kind = (v.node d).kind) :
    KeptOpen v (v.set d o) := by
  intro id ho
  refine ⟨ho, fun hk => ?_⟩
  show (Function.update v.node d o id).kind = _
  by_cases hid : id = d
  · subst hid
    rw [Function.update_self]
    rcases h with h0 | hkind
    · exact absurd h0 ho
    · rw [hkind]
      exact hk
  · rw [Function.update_of_ne hid]
    exact hk

theorem KeptOpen.reclaim {d : Nat} (h : v.opens d = 0) : KeptOpen v (v.reclaim d) :=
  KeptOpen.set (.inl h)

theorem KeptOpen.drop (v : View) (d : Nat) : KeptOpen v (v.drop d) := by
  unfold View.drop
  dsimp only
  split
  · next h => exact .reclaim h.2
  · exact .set (.inr rfl)

theorem opens_drop (v : View) (d : Nat) : (v.drop d).opens = v.opens := by
  unfold View.drop
  dsimp only
  split <;> rfl

theorem KeptOpen.close (v : View) (d : Nat) : KeptOpen v (v.close d) := by
  have hopens : KeptOpen v { v with opens := Function.update v.opens d (pred32 (v.opens d)) } := by
    intro id ho
    change Function.update v.opens d _ id ≠ 0 at ho
    refine ⟨fun h0 => ho ?_, fun hk => hk⟩
    by_cases hid : id = d
    · subst hid
      rw [Function.update_self, h0]
      rfl
    · rw [Function.update_of_ne hid]
      exact h0
  unfold View.close
  dsimp only
  split
  · next h => exact hopens.trans (.reclaim ((Function.update_self _ _ _).trans h.1))
  · exact hopens

theorem KeptOpen.replaced {dst id : Nat} {dn : String} {old : List DirEntry}
    (h : Replaced v dst dn id old v₁) : KeptOpen v v₁ ∧ v₁.opens = v.opens := by
  cases h with
  | absent => exact ⟨.refl v, rfl⟩
  | dropped => exact ⟨.drop v _, opens_drop v _⟩

theorem opens_of_dir {d : Nat} (hs : Slots v handles) (hd : (v.node d).isDir) : v.opens d = 0 := by
  by_contra ho
  exact (hs.opened d ho).2 hd

/-- What is open is a file. -/
def OpenFiles (v : View) : Prop := ∀ id, v.opens id ≠ 0 → (v.node id).kind = Inode.typeRegular

theorem OpenFiles.kept (h : OpenFiles v) (hk : KeptOpen v v') : OpenFiles v' := fun id ho =>
  (hk id ho).2 (h id (hk id ho).1)

theorem opens_of_created {parent id : Nat} {name : String} {kind : UInt8} {data : Bytes}
    (hs : Slots v handles) (hnew : Created v parent name kind data id v') : v.opens id = 0 := by
  cases hnew with
  | mk hp hd ha =>
    by_contra ho
    obtain ⟨⟨hlt, hfree⟩, -⟩ := hs.opened id ho
    rcases View.alloc_cases ha with ⟨rest, hf, -⟩ | ⟨-, rfl, -, -⟩
    · exact hfree (hf ▸ List.mem_cons_self)
    · exact absurd hlt (Nat.lt_irrefl _)

theorem OpenFiles.created {parent id : Nat} {name : String} {kind : UInt8} {data : Bytes}
    (h : OpenFiles v) (hs : Slots v handles) (hnew : Created v parent name kind data id v') :
    OpenFiles v' := by
  have hopen := opens_of_created hs hnew
  cases hnew with
  | @mk v₁ nlink o' hp hd ha hid hn hs' habs he =>
    have hsame : v₁.opens = v.opens := by
      rcases View.alloc_cases ha with ⟨rest, -, rfl⟩ | ⟨-, -, -, rfl⟩ <;> rfl
    have hv₁ : OpenFiles v₁ := fun i ho => by
      rw [node_of_alloc ha]
      exact h i (hsame ▸ ho)
    have hkept := (KeptOpen.set (v := v₁) (d := id) (o := born kind data (v.node id).generation)
      (.inl (hsame ▸ hopen))).trans (.set (d := parent) (o := o') (.inl
        (show v₁.opens parent = 0 from hsame ▸ opens_of_dir hs hd)))
    exact hv₁.kept hkept

theorem OpenFiles.step {op : Op} {r : Reply} (h : OpenFiles v) (hs : Slots v handles)
    (hc : Change handles v op r v') : OpenFiles v' := by
  cases hc with
  | quiet => exact h
  | write hw hid hk => exact h.kept (.set (.inr rfl))
  | create hcr hnew => exact h.created hs hnew
  | unlink hp hd hm hid hf he =>
    exact h.kept ((KeptOpen.set (.inl (opens_of_dir hs hd))).trans (.drop _ _))
  | @rmdir parent id name o' hp hd hm hid hcd hempty he =>
    have hkept : KeptOpen (v.set parent o') ((v.set parent o').reclaim id) :=
      .reclaim (show v.opens id = 0 from opens_of_dir hs hcd)
    exact h.kept ((KeptOpen.set (.inl (opens_of_dir hs hd))).trans hkept)
  | @link parent target name o' hp hd ht hf hs' habs he =>
    have hlink : KeptOpen v (v.set target { v.node target with nlink := (v.node target).nlink +
        1 }) :=
      .set (.inr rfl)
    exact h.kept (hlink.trans (.set (.inl (show v.opens parent = 0 from opens_of_dir hs hd))))
  | stay => exact h
  | within hp hd hm hr he =>
    obtain ⟨hk, ho⟩ := KeptOpen.replaced hr
    exact h.kept (hk.trans (.set (.inl (ho ▸ opens_of_dir hs hd))))
  | across hne hp hsd hq hdd hm hloop hr hed hes =>
    obtain ⟨hk, ho⟩ := KeptOpen.replaced hr
    exact h.kept ((hk.trans (.set (.inl (ho ▸ opens_of_dir hs hdd)))).trans
      (.set (.inl (show View.opens _ _ = 0 from ho ▸ opens_of_dir hs hsd))))
  | @openFile id hid hk hs' =>
    intro i ho
    change Function.update v.opens id _ i ≠ 0 at ho
    by_cases hi : i = id
    · rw [hi]
      exact hk
    · rw [Function.update_of_ne hi] at ho
      exact h i ho
  | close => exact h.kept (.close v _)

/-! ## Whole runs -/

theorem open_of_run (hl : env.Lawful) (run : Run env D (Proper env) past s)
    (hplay : InPlay env s.fs.dev.trace) :
    ∃ t, Rep env s.fs t ∧ Arranged t.view s.handles ∧ OpenFiles t.view := by
  induction run with
  | start blank hd run =>
    exact ⟨fresh env, rep_of_formatted (formatted_of_ok blank run), arranged_fresh env,
      fun id ho => absurd rfl ho⟩
  | @step past s s' op out run does hp ih =>
    obtain ⟨t, hrep, ha, hopen⟩ := ih (hplay.of_subset (trace_grows hp.1.1 does).subset)
    obtain ⟨r, rfl⟩ := hp.1.2
    obtain ⟨hfair, hsp, t', hrep', ⟨hchange, hhandles⟩ | ⟨hview, hhandles, -⟩⟩ :=
      proper_change hl run hrep ha hp hplay does
    · refine ⟨t', hrep', ?_, hopen.step ha.slots hchange⟩
      rw [hhandles]
      exact ha.step hfair hsp hchange
    · rw [← hview] at ha hopen
      rw [hhandles]
      exact ⟨t', hrep', ha, hopen⟩

/-- An id with an open handle is counted as open. -/
theorem opens_of_handle {h : Handle} (hs : Slots v handles) (hh : h ∈ handles)
    (ho : h.closed = false) : v.opens h.id ≠ 0 := by
  intro h0
  have hcount := hs.held h.id
  rw [h0] at hcount
  have hnone := List.countP_eq_zero.mp hcount.symm h hh
  simp [ho] at hnone

/-- As long as a handle is open its file reads as the list its writes made, the blocks of
the file are counted, and no new inode gets its id.  A file with no name and no open handle
holds no reference and is on the free list once, and there are no references but those the
inodes hold.  Closing a handle twice does nothing. -/
theorem open_files_kept (hl : env.Lawful) {c : Contents} (h : Filed env D past s c)
    (hplay : InPlay env s.fs.dev.trace) :
    (∀ hd ∈ s.handles, hd.closed = false →
      s.fs.handleRead env hd = .ok (c hd.id) ∧
      (∃ refs, s.fs.loadRefs env (s.fs.inodes.slots hd.id) = .ok refs ∧
        ∀ r ∈ refs, s.fs.ddt.lookup r.hash ≠ none) ∧
      ∀ op id s', (creates op).isSome → Proper env s op (.ok (.id id)) →
        perform env op s = (.ok (.id id), s') → InPlay env s'.fs.dev.trace → id ≠ hd.id) ∧
    (∀ id < s.fs.ub.nextInode.toNat, ¬ s.fs.IsDir id → s.fs.nameCount env id = 0 →
      (∀ hd ∈ s.handles, hd.id = id → hd.closed = true) →
      s.fs.freeInodes.count id = 1 ∧ s.fs.refsOf env id = []) ∧
    (∀ k, s.fs.ddt.refs k = owned env s.fs k) ∧
    ∀ hd : Handle, hd.closed = true → (Fs.close hd : Act env Unit).1 s.fs = .ok () s.fs := by
  obtain ⟨t, hrep, ha, htidy, hag⟩ := h.agrees hl hplay
  obtain ⟨t₁, hrep₁, ha₁, hopen₁⟩ := open_of_run hl h.run hplay
  refine ⟨fun hd hh ho => ?_, fun id hmade hfile hnames hclosed => ?_,
    refs_eq_owned hl hrep htidy, fun hd ho => ?_⟩
  · have hopen := opens_of_handle ha.slots hh ho
    obtain ⟨hused, hnd⟩ := ha.slots.opened hd.id hopen
    have hlt : hd.id < s.fs.inodes.cap := hrep.cap ▸ hused.lt ha.slots
    have hkind : (t.node hd.id).kind = Inode.typeRegular := by
      have hk₁ : (t₁.node hd.id).kind = Inode.typeRegular :=
        hopen₁ hd.id (opens_of_handle ha₁.slots hh ho)
      rw [← (hrep.nodes hd.id hlt).kind, (hrep₁.nodes hd.id hlt).kind]
      exact hk₁
    refine ⟨?_, ?_, fun op id s' hcr hp does hplay' he => ?_⟩
    · unfold FS.handleRead
      rw [hrep.getInode_of_lt (by rw [hrep.cap]; omega), ok_bind, hrep.getData hl hlt,
        Node.blob_of_file (not_isDir_of_regular hkind)]
      exact congrArg Except.ok (hag hd.id hused hkind)
    · obtain ⟨refs, lost, hf, -⟩ := hrep.filled
      have hlaid := hf.laid hd.id hlt
      refine ⟨refs hd.id, hlaid.loadRefs hl, fun r hr => ?_⟩
      by_cases h0 : (s.fs.inodes.slots hd.id).size = 0
      · rw [hlaid.empty h0] at hr
        cases hr
      · obtain ⟨i, hi, rfl⟩ := List.getElem_of_mem hr
        have hrec := hlaid.records h0
        obtain ⟨e, he, -⟩ := hrec.get hi (hrec.length_eq ▸ hi)
        intro hnone
        cases hnone.symm.trans he
    · obtain ⟨x, hx⟩ := Option.isSome_iff_exists.mp hcr
      obtain ⟨-, -, t', -, ⟨hchange, -⟩ | ⟨-, -, hno⟩⟩ :=
        proper_change hl h.run hrep ha hp hplay' does
      · obtain ⟨id', hid, hnew⟩ := hchange.created hx
        cases hid
        exact hopen (he ▸ opens_of_created ha.slots hnew)
      · refine hno ?_
        cases op with
        | mkdir | create | symlink => trivial
        | _ => cases hx
  · have hlt : id < s.fs.inodes.cap := by
      rw [← hrep.next] at hmade
      rw [← hrep.cap]
      exact Nat.lt_of_lt_of_le hmade ha.slots.next_le
    have hf : ¬ (t.view.node id).isDir := (isDir_iff hrep ha.slots).not.mp hfile
    rw [hrep.nameCount hl ha.ready.neat] at hnames
    obtain ⟨hcount, h0⟩ :=
      given_back hrep ha htidy hmade hlt hf ((ha.linked.files id hf).trans hnames) hclosed
    obtain ⟨refs, lost, hfill, -⟩ := hrep.filled
    have hlaid := hfill.laid id hlt
    refine ⟨hcount, ?_⟩
    rw [hlaid.refsOf hl, holdings, hlaid.empty h0, oldContainer, if_neg (fun hne => hne.1 h0)]
    rfl
  · unfold Fs.close
    rw [if_pos ho]
    rfl

/-- A file that is written and loses its name while it is open. -/
theorem open_files_kept_unlinked : ∃ past s c, Filed Env.plain Disk.Reliable past s c ∧
    InPlay Env.plain s.fs.dev.trace ∧ s.handles = [⟨1, false⟩] ∧
      s.fs.handleRead Env.plain ⟨1, false⟩ = .ok (c 1) := by
  have hscript : ∃ x ∈ script Env.plain (fun v op => Fair v op ∧ Yields v op ∧ Rooted v op)
      [.create 0 "a", .openFile 1, .writeFile 1 [7, 8], .unlink 0 "a"] (fresh Env.plain) [],
      x.2 = [⟨1, false⟩] ∧ Sketched x.1.paid ∧ x.1.paid.length ≤ 256 := by
    decide
  obtain ⟨⟨t, handles⟩, hscript, hopen, hsketch, hfew⟩ := hscript
  obtain ⟨hclear, past, s, run, hhandles, htrack, -⟩ := run_script (D := Disk.Reliable)
    (P := Proper Env.plain) (reliable_zeroed _ _)
    (fun _ _ h => h.1) (proper_of_fair Env.plain_lawful)
    (by simp [Plays, Answers]) (by decide) hscript hsketch hfew
  have hplay : InPlay Env.plain s.fs.dev.trace := (htrack.undisturbed hclear).1
  have hone : s.handles = [⟨1, false⟩] := hhandles.trans hopen
  obtain ⟨c, hc⟩ := Filed.of_run run
  refine ⟨past, s, c, hc, hplay, hone, ?_⟩
  exact ((open_files_kept Env.plain_lawful hc hplay).1 ⟨1, false⟩
    (hone ▸ List.mem_singleton_self _) rfl).1

/-- Whatever the codec, there are contents of `2^28` records that are written and not read
through the handle, although no two blocks collide. -/
theorem open_file_lost : ∃ blocks records, ∀ z : FrameCodec, ∃ y past s c,
    Filed (Env.coded z.toCodec) Disk.Reliable past s c ∧ s.fs.dev.blocks = blocks ∧
    (∀ b b', .hash b ∈ s.fs.dev.trace → .hash b' ∈ s.fs.dev.trace →
      (Env.coded z.toCodec).blake3 b = (Env.coded z.toCodec).blake3 b' → b = b') ∧
    s.handles = [⟨1, false⟩] ∧ s.fs.regular 1 = .ok (s.fs.inodes.slots 1) ∧
    c 1 = contents (tagged y) records ∧
    s.fs.handleRead (Env.coded z.toCodec) ⟨1, false⟩ ≠ .ok (c 1) := by
  obtain ⟨blocks, records, hlost⟩ := oversize
  refine ⟨blocks, records, fun z => ?_⟩
  obtain ⟨y, past, s, s', run, h⟩ := hlost z
  obtain ⟨past', c, hc, hdata⟩ := h.filed run
  refine ⟨y, past', s', c, hc, h.blocks, h.apart, h.handles, h.regular, hdata, ?_⟩
  have hget : s'.fs.getInode 1 = .ok (s'.fs.inodes.slots 1) := by
    have hreg := h.regular
    unfold FS.regular at hreg
    cases hx : s'.fs.getInode 1 with
    | error f =>
      rw [hx] at hreg
      cases hreg
    | ok in_ =>
      rw [hx, ok_bind] at hreg
      split at hreg
      · cases hreg
      · exact hreg
  unfold FS.handleRead
  rw [hget, ok_bind]
  exact h.data _

end Runs
end BloomFS
