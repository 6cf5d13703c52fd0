/-
The tree of directories over whole sessions.

As long as renames replace no directory, every directory has exactly one name and is
found from the root.  As long as they also move none to another directory, the link
counts of directories are right.  Either kind of rename breaks the statement.
-/
import BloomFS.Refine.Plain
import BloomFS.Spec.Tree

namespace BloomFS
namespace Runs

open Bytes Exec Block Dir Fs Store Spec Refine
open Relation (ReflTransGen)

variable {env : Env}

/-- Successful calls that link and open ids that are handed out, and replace no
directory. -/
def Gentle (env : Env) (s : Session) (op : Op) (out : Outcome) : Prop :=
  Smooth s op out ∧ op.Current s.fs ∧ op.Sparing env s.fs

theorem tree_fresh (env : Env) : Tree (fresh env).view := by
  intro id hid
  have h0 : id = 0 := by
    by_contra hne
    refine absurd hid ?_
    show ¬ ((fresh env).node id).outline.isDir
    rw [fresh_node_of_ne hne]
    decide
  rw [h0]

theorem arranged_fresh (env : Env) : Arranged (fresh env).view [] :=
  ⟨slots_fresh env, linked_fresh env, tree_fresh env⟩

/-! ## What the caller sees of the tree -/

section Observe

variable {s : FS} {t : State} {handles : List Handle}

theorem isDir_iff (hrep : Rep env s t) (hs : Slots t.view handles) {id : Nat} :
    s.IsDir id ↔ (t.view.node id).isDir :=
  hrep.isDir.trans ⟨fun h => h.2, fun h => ⟨(hs.used_of_dir h).lt hs, h⟩⟩

theorem mem_entries_iff (hl : env.Lawful) (hrep : Rep env s t) (ha : Arranged t.view handles)
    {d : Nat} (hd : s.IsDir d) {e : DirEntry} :
    e ∈ s.entriesOf env d ↔ e ∈ (t.view.node d).entries := by
  rw [hrep.mem_entriesOf hl ha.ready.neat]
  exact ⟨fun h => h.2.2, fun h => ⟨(hrep.isDir.mp hd).1, (hrep.isDir.mp hd).2, h⟩⟩

theorem sub_iff (hl : env.Lawful) (hrep : Rep env s t) (ha : Arranged t.view handles) {d c : Nat} :
    s.Sub env d c ↔ t.view.Sub d c := by
  unfold FS.Sub View.Sub
  rw [isDir_iff hrep ha.slots, isDir_iff hrep ha.slots]
  refine and_congr_right fun hd => and_congr_right fun _ => ?_
  simp only [mem_entries_iff hl hrep ha ((isDir_iff hrep ha.slots).mpr hd)]

theorem used_of_known (hl : env.Lawful) (hrep : Rep env s t) (hs : Slots t.view handles)
    {gone : Nat → Nat} (hn : Linked t.view gone) (hroot : s.ub.rootInode = 0) {id : Nat}
    (h : s.Known env id) : t.view.Used id := by
  rcases h with h | h | h
  · rw [h, hroot]
    exact hs.root.1
  · rw [hrep.nameCount hl (ready_of hs hn).neat] at h
    exact hn.named id (by omega)
  · rw [← hrep.opens id] at h
    exact (hs.opened id h).1

/-- A rename that replaces no directory does not replace the one it takes from. -/
theorem fair_of_spares (hrep : Rep env s t) (ha : Arranged t.view handles) {op : Op}
    (hcur : op.Current s) (hsp : Spares t.view op) : Fair t.view op := by
  cases op with
  | link parent name target => exact hrep.inUse.mp hcur
  | openFile id => exact hrep.inUse.mp hcur
  | rename src sn dst dn =>
    intro hp hsd hq hdd old hold heq
    subst heq
    exact hsp hq hdd old hold (fun hm => ha.linked.ne_of_mem hsd hm rfl) hsd
  | _ => exact trivial

end Observe

/-- What is known may be linked and opened. -/
theorem current_of_known (hl : env.Lawful) {s : FS} {t : State} {handles : List Handle}
    (hrep : Rep env s t) (ha : Arranged t.view handles) (hroot : s.ub.rootInode = 0) {op : Op}
    (hop : op.Known env s) : op.Current s := by
  have hused : ∀ id ∈ op.ids, s.InUse id := fun id hid =>
    hrep.inUse.mpr (used_of_known hl hrep ha.slots ha.linked hroot (hop id hid))
  cases op with
  | link parent name target => exact hused target (by simp [Op.ids])
  | openFile id => exact hused id (by simp [Op.ids])
  | _ => exact trivial

/-- A gentle session keeps the machine's tree. -/
theorem gentle_arranged (hl : env.Lawful) {D : Disk → Prop} {past : List Session} {s : Session}
    (run : Run env D (Gentle env) past s) (hplay : InPlay env s.fs.dev.trace) :
    ∃ t, Rep env s.fs t ∧ Arranged t.view s.handles := by
  have hcalls : Calls env (Gentle env) (InPlay env) := calls_succeed fun _ _ _ hp => hp.1
  refine lift (J := Arranged) hl hcalls (arranged_fresh env) (fun _ _ => Arranged.ready)
    (fun _ s t op out _ hp hrep ha => ?_) run hplay
  have hsp := hrep.spares hl ha.ready.neat ha.slots hp.2.2
  have hfair := fair_of_spares hrep ha hp.2.1 hsp
  exact ⟨apart_of_fair hfair, fun r v' => ha.step hfair hsp⟩

/-- In a gentle session every directory is found from the root, and under one name;
a file that has a name has one in such a directory; and a directory stays until
`rmdir` takes it. -/
theorem dirs_form_tree (hl : env.Lawful) {D : Disk → Prop} {past : List Session} {s : Session}
    (run : Run env D (Gentle env) past s) (hplay : InPlay env s.fs.dev.trace) :
    (∀ id, s.fs.IsDir id → s.fs.Reached env id ∧
      (id ≠ s.fs.ub.rootInode.toNat → s.fs.nameCount env id = 1)) ∧
    (∀ id, s.fs.InUse id → ¬ s.fs.IsDir id → (s.fs.inodes.slots id).nlink ≠ 0 →
      ∃ d, s.fs.Reached env d ∧ ∃ e ∈ s.fs.entriesOf env d, e.inode = id) ∧
    ∀ op out s' id, Gentle env s op out → perform env op s = (out, s') →
      InPlay env s'.fs.dev.trace → (∀ parent name, op ≠ .rmdir parent name) → s.fs.IsDir id →
        s'.fs.IsDir id := by
  obtain ⟨t, hrep, ha⟩ := gentle_arranged hl run hplay
  have hroot : s.fs.ub.rootInode = 0 := root_of_run (fun _ _ _ hp => hp.1.1) run
  have hreach : ∀ id, (t.view.node id).isDir → s.fs.Reached env id := by
    intro id hid
    unfold FS.Reached
    rw [hroot]
    exact ReflTransGen.mono (fun _ _ => (sub_iff hl hrep ha).mpr) _ _ (ha.tree id hid)
  refine ⟨fun id hid => ?_, fun id hu hf hlinks => ?_,
    fun op out s' id hp does hplay' hop hid => ?_⟩
  · have hdir := (isDir_iff hrep ha.slots).mp hid
    refine ⟨hreach id hdir, fun hne => ?_⟩
    rw [hroot] at hne
    rw [hrep.nameCount hl ha.ready.neat]
    -- the last step of the path from the root is the one name
    have hpos : 0 < t.view.names id := by
      rcases ReflTransGen.cases_tail (ha.tree id hdir) with heq | ⟨d, -, hd⟩
      · exact absurd heq hne
      · exact View.names_pos.mpr ⟨d, (ha.slots.used_of_dir hd.1).lt ha.slots,
          Outline.naming_pos.mpr ⟨hd.1, hd.2.2⟩⟩
    have hone := ha.linked.dirs id hdir
    omega
  · have hlt : id < s.fs.inodes.cap := hrep.cap ▸ (hrep.inUse.mp hu).lt ha.slots
    have hf' : ¬ (t.view.node id).isDir := (isDir_iff hrep ha.slots).not.mp hf
    have hcount := ha.linked.files id hf'
    have hnlink : (t.view.node id).nlink = (s.fs.inodes.slots id).nlink :=
      (hrep.nodes id hlt).nlink.symm
    rw [hnlink] at hcount
    have hpos : 0 < t.view.names id := by
      have hne : (s.fs.inodes.slots id).nlink.toNat ≠ 0 := fun h0 => hlinks (UInt32.toNat_inj.mp h0)
      omega
    obtain ⟨d, hd, hnaming⟩ := View.names_pos.mp hpos
    obtain ⟨hdir, e, he, heq⟩ := Outline.naming_pos.mp hnaming
    exact ⟨d, hreach d hdir, e,
      (mem_entries_iff hl hrep ha ((isDir_iff hrep ha.slots).mpr hdir)).mpr he, heq⟩
  · have hsp := hrep.spares hl ha.ready.neat ha.slots hp.2.2
    have hfair := fair_of_spares hrep ha hp.2.1 hsp
    obtain ⟨r, rfl⟩ := hp.1.2
    obtain ⟨-, ⟨t', hran, hrep'⟩ | ⟨f, hf, -⟩⟩ :=
      perform_rep hl hrep ha.ready hp.1.1 (apart_of_fair hfair) hplay' does
    · have hdir := (isDir_iff hrep ha.slots).mp hid
      cases hran with
      | answered hans hrun =>
        have hc := (planOf_change hl ha.ready hans).ok hrun
        have hdir' := hc.isDir_of_isDir ha.slots ha.linked hsp hop hdir
        exact (isDir_iff hrep' (ha.step hfair hsp hc).slots).mpr hdir'
      | beside => exact (isDir_iff hrep' ha.slots).mpr hdir
    · cases hf

/-- The destination of a rename names no directory. -/
def Yields (v : View) : Op → Prop
  | .rename _ _ dst dn => ∀ e ∈ (v.node dst).entries, e.name = dn → ¬ (v.node e.inode).isDir
  | _ => True

instance (v : View) (op : Op) : Decidable (Yields v op) :=
  match op with
  | .rename _ _ dst dn => inferInstanceAs
      (Decidable (∀ e ∈ (v.node dst).entries, e.name = dn → ¬ (v.node e.inode).isDir))
  | .lookup .. | .readdir .. | .readdirents .. | .openDirStream .. | .stat .. | .statfs
  | .fallocate .. | .access .. | .mkdir .. | .create .. | .symlink .. | .readlink ..
  | .writeFile .. | .readFile .. | .readAt .. | .writeAt .. | .append .. | .truncate ..
  | .unlink .. | .rmdir .. | .chmod .. | .chown .. | .utimes .. | .link .. | .openFile ..
  | .handleRead .. | .close .. | .commit | .setDirCache .. | .remount .. => .isTrue trivial

theorem sparing_of_yields (hl : env.Lawful) {s : FS} {t : State} (hrep : Rep env s t) (hn : Neat t)
    {op : Op} (h : Yields t.view op) : op.Sparing env s := by
  cases op with
  | rename src sn dst dn =>
    intro e he hname _ hdir
    exact h e ((hrep.mem_entriesOf hl hn).mp he).2.2 hname (hrep.isDir.mp hdir).2
  | _ => exact trivial

/-- The operation is given the root, what the root names, and what is open. -/
def Rooted (v : View) (op : Op) : Prop :=
  ∀ id ∈ op.ids, id = 0 ∨ (∃ e ∈ (v.node 0).entries, e.inode = id) ∨ v.opens id ≠ 0

instance (v : View) (op : Op) : Decidable (Rooted v op) :=
  inferInstanceAs (Decidable (∀ id ∈ op.ids, _ ∨ _ ∨ _))

theorem known_of_rooted (hl : env.Lawful) {s : FS} {t : State} {handles : List Handle}
    (hrep : Rep env s t) (hj : Orderly t.view handles) (hroot : s.ub.rootInode = 0) {op : Op}
    (h : Rooted t.view op) : op.Known env s := by
  intro id hid
  rcases h id hid with rfl | ⟨e, he, heq⟩ | hopen
  · exact .inl (by rw [hroot]; rfl)
  · refine .inr (.inl ?_)
    rw [hrep.nameCount hl hj.ready.neat]
    exact View.names_pos.mpr ⟨0, hj.1.root.1.lt hj.1,
      Outline.naming_pos.mpr ⟨hj.1.root.2, e, he, heq⟩⟩
  · exact .inr (.inr ((hrep.opens id) ▸ hopen))

theorem gentle_of_fair (hl : env.Lawful) (s : Session) (t : State) (op : Op) (r : Reply)
    (hop : Plays op) (hrep : Rep env s.fs t) (hj : Orderly t.view s.handles)
    (hf : Fair t.view op ∧ Yields t.view op) : Gentle env s op (.ok r) :=
  ⟨⟨hop.inSession, r, rfl⟩, ((hrep.fair hl hj.ready.neat).mp hf.1).1,
    sparing_of_yields hl hrep hj.ready.neat hf.2⟩

/-- A directory that is moved into another is found there. -/
theorem dirs_form_tree_after_move : ∃ past s,
    Run Env.plain Disk.Reliable (Gentle Env.plain) past s ∧ InPlay Env.plain s.fs.dev.trace ∧
      s.fs.IsDir 1 ∧ s.fs.Reached Env.plain 1 ∧ s.fs.nameCount Env.plain 1 = 1 := by
  have hscript : ∃ x ∈ script Env.plain (fun v op => Fair v op ∧ Yields v op)
      [.mkdir 0 "a", .mkdir 0 "b", .rename 0 "a" 2 "c"] (fresh Env.plain) [],
      (x.1.view.node 1).isDir ∧ Sketched x.1.paid ∧ x.1.paid.length ≤ 256 := by
    decide
  obtain ⟨⟨t, handles⟩, hscript, hdir, hsketch, hfew⟩ := hscript
  obtain ⟨hclear, past, s, run, rfl, htrack, hs, -⟩ := run_script (D := Disk.Reliable)
    (P := Gentle Env.plain) (reliable_zeroed _ _) (fun _ _ h => h.1)
    (fun _ s t op r _ => gentle_of_fair Env.plain_lawful s t op r) (by simp [Plays, Answers])
      (by decide) hscript hsketch hfew
  have hplay : InPlay Env.plain s.fs.dev.trace := (htrack.undisturbed hclear).1
  have hone : s.fs.IsDir 1 := (isDir_iff htrack.rep hs).mpr hdir
  have hroot : s.fs.ub.rootInode = 0 := root_of_run (fun _ _ _ hp => hp.1.1) run
  obtain ⟨hreach, hname⟩ := (dirs_form_tree Env.plain_lawful run hplay).1 1 hone
  exact ⟨past, s, run, hplay, hone, hreach, hname (by rw [hroot]; decide)⟩

/-- Renaming a directory over another one leaves the other without a name. -/
theorem rename_loses_directory : ∃ past s,
    Run Env.plain Disk.Reliable Smooth past s ∧ Undisturbed Env.plain s ∧
      s.fs.IsDir 2 ∧ ¬ s.fs.Reached Env.plain 2 := by
  have hscript : ∃ x ∈ script Env.plain Fair [.mkdir 0 "a", .mkdir 0 "b", .rename 0 "a" 0 "b"]
      (fresh Env.plain) [], ((x.1.view.node 2).isDir ∧ (x.1.view.node 0).entries = [⟨"b", 1⟩] ∧
        (x.1.view.node 1).entries = []) ∧ Sketched x.1.paid ∧ x.1.paid.length ≤ 256 := by
    decide
  obtain ⟨⟨t, handles⟩, hscript, ⟨hdir, hroot, hone⟩, hsketch, hfew⟩ := hscript
  obtain ⟨hclear, past, s, run, rfl, htrack, hj⟩ := run_script (D := Disk.Reliable)
    (P := Smooth) (reliable_zeroed _ _) (fun _ _ h => h)
    (fun _ _ _ _ r _ hop _ _ _ => ⟨hop.inSession, r, rfl⟩)
    (by simp [Plays, Answers]) (by decide) hscript hsketch hfew
  refine ⟨past, s, run, htrack.undisturbed hclear, (isDir_iff htrack.rep hj.1).mpr hdir,
    fun hreach => ?_⟩
  unfold FS.Reached at hreach
  rw [root_of_run (fun _ _ _ hp => hp.1) run] at hreach
  -- the root leads to the directory that moved, and that one leads nowhere
  have hin : ∀ d e, e ∈ s.fs.entriesOf Env.plain d → e ∈ (t.view.node d).entries := fun d e he =>
    ((htrack.rep.mem_entriesOf Env.plain_lawful hj.ready.neat).mp he).2.2
  have hclosed : ∀ c, ReflTransGen (s.fs.Sub Env.plain) 0 c → c = 0 ∨ c = 1 := by
    intro c hpath
    induction hpath with
    | refl => exact .inl rfl
    | tail _ hsub ih =>
      obtain ⟨-, -, e, he, rfl⟩ := hsub
      rcases ih with rfl | rfl
      · have := hin _ _ he
        rw [hroot] at this
        exact .inr (by rw [List.mem_singleton.mp this])
      · have := hin _ _ he
        rw [hone] at this
        cases this
  rcases hclosed 2 hreach with h | h <;> cases h

/-! ## Link counts of directories -/

/-- Gentle calls that move no directory to another one. -/
def Settled (env : Env) (s : Session) (op : Op) (out : Outcome) : Prop :=
  Gentle env s op out ∧ op.Local env s.fs

theorem local_view (hl : env.Lawful) {s : FS} {t : State} {handles : List Handle}
    (hrep : Rep env s t)
    (ha : Arranged t.view handles) {op : Op} (h : op.Local env s) : Local t.view op := by
  cases op with
  | rename src sn dst dn =>
    intro hne hp hd id hm hdir
    exact h hne _ ((hrep.mem_entriesOf hl ha.ready.neat).mpr ⟨hp, hd, hm⟩) rfl
      ((isDir_iff hrep ha.slots).mpr hdir)
  | _ => exact trivial

theorem counted_fresh (env : Env) : Spec.Counted (fresh env).view := by
  intro d hd
  have h0 : d = 0 := by
    by_contra hne
    refine absurd hd ?_
    show ¬ ((fresh env).node d).outline.isDir
    rw [fresh_node_of_ne hne]
    decide
  subst h0
  rfl

theorem settled_counted (hl : env.Lawful) {D : Disk → Prop} {past : List Session} {s : Session}
    (run : Run env D (Settled env) past s) (hplay : InPlay env s.fs.dev.trace) :
    ∃ t, Rep env s.fs t ∧ Arranged t.view s.handles ∧ Spec.Counted t.view := by
  have hcalls : Calls env (Settled env) (InPlay env) := calls_succeed fun _ _ _ hp => hp.1.1
  refine lift (J := fun v handles => Arranged v handles ∧ Spec.Counted v) hl hcalls
    ⟨arranged_fresh env, counted_fresh env⟩ (fun _ _ h => h.1.ready)
    (fun _ s t op out _ hp hrep hj => ?_) run hplay
  obtain ⟨ha, hcount⟩ := hj
  have hsp := hrep.spares hl ha.ready.neat ha.slots hp.1.2.2
  have hfair := fair_of_spares hrep ha hp.1.2.1 hsp
  refine ⟨apart_of_fair hfair, fun r v' hc => ⟨ha.step hfair hsp hc, ?_⟩⟩
  exact hc.counted ha.slots ha.linked hcount hsp (local_view hl hrep ha hp.2)

/-- In a settled session a directory has two links and one for each directory in
it. -/
theorem dir_links_counted (hl : env.Lawful) {D : Disk → Prop} {past : List Session} {s : Session}
    (run : Run env D (Settled env) past s) (hplay : InPlay env s.fs.dev.trace) (d : Nat)
    (hd : s.fs.IsDir d) : (s.fs.inodes.slots d).nlink.toNat =
      2 + (s.fs.entriesOf env d).countP fun e => s.fs.IsDir e.inode := by
  obtain ⟨t, hrep, ha, hcount⟩ := settled_counted hl run hplay
  obtain ⟨hlt, hdir⟩ := hrep.isDir.mp hd
  have hnlink : (s.fs.inodes.slots d).nlink = (t.view.node d).nlink :=
    (hrep.nodes d (hrep.cap ▸ hlt)).nlink
  have hents : s.fs.entriesOf env d = (t.view.node d).entries := by
    rw [hrep.entriesOf hl ha.ready.neat, if_pos ⟨hlt, hdir⟩]
    rfl
  rw [hnlink, hents, hcount d hdir]
  unfold View.dirsIn
  simp only [isDir_iff hrep ha.slots]

/-- A rename stays in its directory. -/
def Stays : Op → Bool
  | .rename src _ dst _ => src == dst
  | _ => true

theorem settled_of_fair (hl : env.Lawful) (s : Session) (t : State) (op : Op) (r : Reply)
    (hop : Plays op) (hrep : Rep env s.fs t) (hj : Orderly t.view s.handles)
    (hf : Fair t.view op ∧ Yields t.view op ∧ Stays op) : Settled env s op (.ok r) := by
  refine ⟨gentle_of_fair hl s t op r hop hrep hj ⟨hf.1, hf.2.1⟩, ?_⟩
  cases op with
  | rename src sn dst dn => exact fun hne => absurd (beq_iff_eq.mp hf.2.2) hne
  | _ => exact trivial

/-- A root with one directory in it has three links. -/
theorem dir_links_counted_root : ∃ past s,
    Run Env.plain Disk.Reliable (Settled Env.plain) past s ∧ InPlay Env.plain s.fs.dev.trace ∧
      s.fs.IsDir 0 ∧ (s.fs.inodes.slots 0).nlink.toNat =
        2 + (s.fs.entriesOf Env.plain 0).countP fun e => s.fs.IsDir e.inode := by
  have hscript : ∃ x ∈ script Env.plain (fun v op => Fair v op ∧ Yields v op ∧ Stays op)
      [.mkdir 0 "a", .create 0 "b", .rename 0 "a" 0 "c"] (fresh Env.plain) [],
      (x.1.view.node 0).isDir ∧ Sketched x.1.paid ∧ x.1.paid.length ≤ 256 := by
    decide
  obtain ⟨⟨t, handles⟩, hscript, hdir, hsketch, hfew⟩ := hscript
  obtain ⟨hclear, past, s, run, rfl, htrack, hs, -⟩ := run_script (D := Disk.Reliable)
    (P := Settled Env.plain) (reliable_zeroed _ _) (fun _ _ h => h.1)
    (fun _ s t op r _ => settled_of_fair Env.plain_lawful s t op r) (by simp [Plays, Answers])
      (by decide) hscript hsketch hfew
  have hplay : InPlay Env.plain s.fs.dev.trace := (htrack.undisturbed hclear).1
  have hroot : s.fs.IsDir 0 := (isDir_iff htrack.rep hs).mpr hdir
  exact ⟨past, s, run, hplay, hroot, dir_links_counted Env.plain_lawful run hplay 0 hroot⟩

/-- Moving a directory from the root to another directory leaves its link in the
root's count. -/
theorem move_keeps_link : ∃ past s,
    Run Env.plain Disk.Reliable Smooth past s ∧ Undisturbed Env.plain s ∧ s.fs.IsDir 0 ∧
      (s.fs.inodes.slots 0).nlink = 4 ∧ (s.fs.entriesOf Env.plain 0).length = 1 := by
  have hscript : ∃ x ∈ script Env.plain Fair [.mkdir 0 "a", .mkdir 0 "b", .rename 0 "a" 2 "a"]
      (fresh Env.plain) [], ((x.1.view.node 0).isDir ∧ (x.1.view.node 0).nlink = 4 ∧
        (x.1.view.node 0).entries.length = 1) ∧ Sketched x.1.paid ∧ x.1.paid.length ≤ 256 := by
    decide
  obtain ⟨⟨t, handles⟩, hscript, ⟨hdir, hlinks, hlen⟩, hsketch, hfew⟩ := hscript
  obtain ⟨hclear, past, s, run, rfl, htrack, hj⟩ := run_script (D := Disk.Reliable)
    (P := Smooth) (reliable_zeroed _ _) (fun _ _ h => h)
    (fun _ _ _ _ r _ hop _ _ _ => ⟨hop.inSession, r, rfl⟩)
    (by simp [Plays, Answers]) (by decide) hscript hsketch hfew
  have hroot := (isDir_iff htrack.rep hj.1).mpr hdir
  obtain ⟨hlt, -⟩ := htrack.rep.isDir.mp hroot
  refine ⟨past, s, run, htrack.undisturbed hclear, hroot, ?_, ?_⟩
  · rw [(htrack.rep.nodes 0 (htrack.rep.cap ▸ hlt)).nlink]
    exact hlinks
  · rw [htrack.rep.entriesOf Env.plain_lawful hj.ready.neat, if_pos ⟨hlt, hdir⟩]
    exact hlen

end Runs
end BloomFS
