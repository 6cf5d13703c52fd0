/-
Directories as maps along runs.

Over calls that succeed and calls that fail, and over mounts, each directory is the map
from names to inodes that its calls made of it.  The lookups and the listings answer from
that map, through the resident directories or without them.
-/
import BloomFS.Runs.Durable
import BloomFS.Spec.Bindings

namespace BloomFS
namespace Refine

open Bytes Exec Block Dir Fs Store Spec

variable {env : Env} {s : FS} {t : State}

/-! ## Reading names returns -/

theorem run_loadDir (hl : env.Lawful) (h : Rep env s t) (hn : Neat t) {id : Nat} (hid : id < t.cap)
    (hd : (t.node id).isDir) :
    ∃ hnd, s.loadDir env id = .ok hnd ∧ hnd.dirty = [] ∧ Resident env hnd (t.node id).pages := by
  obtain ⟨hnd, hload, -, hdirty, hres⟩ := h.loadDir hl hn (Nat.not_le_of_lt hid) hd
  exact ⟨hnd, hload, hdirty, hres⟩

theorem run_cachePeek {α : Type} {f : CachedDir → α} {k : List DirEntry → α} {c : DirCache}
    (hf : ∀ hnd pages, Resident env hnd pages → f hnd = k pages.flatten) (hl : env.Lawful)
    (h : Rep env s t) (hn : Neat t) (hc : s.dirCache = some c) {id : Nat} (hid : id < t.cap)
    (hd : (t.node id).isDir) :
    ∃ s', (cachePeek id f : Act env (Option α)).1 s = .ok (some (k (t.node id).entries)) s' ∧
        Rep env s' t := by
  rw [cachePeek, Within.get_bind_run, hc]
  dsimp only
  cases hlook : c.entries.lookup id with
  | some hnd =>
    obtain ⟨-, -, hres, -⟩ := h.coherent hc id hnd hlook
    rw [← show f hnd = k (t.node id).entries from hf hnd _ hres]
    refine ⟨{ s with dirCache := some (c.touch id) }, rfl, h.withCache ?_⟩
    rintro d ⟨⟩
    exact (h.coherent hc).touch id
  | none =>
    obtain ⟨hnd, hload, hdirty, hres⟩ := run_loadDir hl h hn hid hd
    rw [← show f hnd = k (t.node id).entries from hf hnd _ hres]
    refine ⟨{ s with dirCache := some (c.insert id hnd) }, ?_, h.withCache ?_⟩
    · dsimp only
      rw [hload]
      rfl
    · rintro d ⟨⟩
      exact (h.coherent hc).insert (h.cap ▸ hid) hd hres hdirty

theorem run_readDirPages (hl : env.Lawful) (h : Rep env s t) (hn : Neat t) {id : Nat}
    (hid : id < t.cap)
    (hd : (t.node id).isDir) : s.readDirPages env id = .ok (t.node id).entries := by
  rw [h.readDirPages hl hn, if_neg (Nat.not_le_of_lt hid), if_neg (not_not.mpr hd)]

theorem run_lookup (hl : env.Lawful) (h : Rep env s t) (hn : Neat t) {id : Nat} (hid : id < t.cap)
    (hd : (t.node id).isDir) (name : String) :
    ∃ s', (Fs.lookup id name : Act env (Option Nat)).1 s =
        .ok (((t.node id).entries.find? (·.name = name)).map (·.inode)) s' ∧ Rep env s' t := by
  unfold Fs.lookup
  cases hc : s.dirCache with
  | some c =>
    obtain ⟨s', hrun, hrep⟩ := run_cachePeek (k := fun l => (l.find? (·.name = name)).map (·.inode))
      (fun _ _ hr => hr.find name) hl h hn hc hid hd
    exact ⟨s', bind_of_ok hrun, hrep⟩
  | none =>
    refine ⟨s, (bind_of_ok (run_cachePeek_off hc)).trans ?_, h⟩
    dsimp only
    rw [Within.get_bind_run, run_readDirPages hl h hn hid hd]
    rfl

theorem run_listDir (hl : env.Lawful) (h : Rep env s t) (hn : Neat t) {id : Nat} (hid : id < t.cap)
    (hd : (t.node id).isDir) :
    ∃ s', (Fs.listDir id : Act env (List DirEntry)).1 s = .ok (t.node id).entries s' ∧
        Rep env s' t := by
  unfold Fs.listDir
  cases hc : s.dirCache with
  | some c =>
    obtain ⟨s', hrun, hrep⟩ := run_cachePeek (k := fun l => l)
      (fun _ _ hr => hr.entries) hl h hn hc hid hd
    exact ⟨s', bind_of_ok hrun, hrep⟩
  | none =>
    refine ⟨s, (bind_of_ok (run_cachePeek_off hc)).trans ?_, h⟩
    dsimp only
    rw [Within.get_bind_run, run_readDirPages hl h hn hid hd]
    rfl

/-- The entries of a directory with the kinds of their inodes. -/
def direntOf (t : State) (e : DirEntry) : Dirent := ⟨e.name, e.inode, (t.node e.inode).kind⟩

theorem run_direntOf (h : Rep env s t) {l : List DirEntry} (hl : ∀ e ∈ l, e.inode < t.cap) :
    (l.mapM fun e => do
      let in_ ← getInode e.inode
      return ({ name := e.name, ino := e.inode, kind := in_.kind } : Dirent) :
        Act env (List Dirent)).1 s =
      .ok (l.map (direntOf t)) s := by
  induction l with
  | nil => rfl
  | cons e l ih =>
    have hlt := hl e List.mem_cons_self
    rw [List.mapM_cons, List.map_cons]
    have hget : (getInode e.inode : Act env Inode).1 s = .ok (s.inodes.slots e.inode) s := by
      unfold Fs.getInode
      rw [Within.get_bind_run, h.getInode_of_lt (Nat.not_le_of_lt hlt)]
      rfl
    have hone : (do
        let in_ ← getInode e.inode
        return ({ name := e.name, ino := e.inode, kind := in_.kind } : Dirent) :
          Act env Dirent).1 s =
        .ok (direntOf t e) s := by
      unfold direntOf
      rw [← (h.nodes _ (h.cap ▸ hlt)).kind]
      exact bind_of_ok hget
    exact (bind_of_ok hone).trans (bind_of_ok (ih fun e he => hl e (List.mem_cons_of_mem _ he)))

end Refine

namespace Runs

open Bytes Exec Block Dir Fs Store Spec Refine
open Dir.Segment (Distinct)

variable {env : Env} {D : Disk → Prop} {P : Session → Op → Outcome → Prop} {R : Session → Prop}
    {m : Bindings}
  {s s' : Session}

/-- Sessions with calls and mounts as in a `Life`, and the map of their names. -/
inductive Charted (env : Env) (D : Disk → Prop) (P : Session → Op → Outcome → Prop)
    (R : Session → Prop) : Bindings → Session → Prop
  | start {key : Option Bytes} {d : Disk} {fs : FS} (blank : Blank d) (hd : D d)
      (run : format env key d = .ok fs) : Charted env D P R (fun _ _ => none) ⟨fs, []⟩
  | call {m : Bindings} {s s' : Session} {op : Op} {out : Outcome} (h : Charted env D P R m s)
      (does : perform env op s = (out, s')) (hop : op.InSession) (hp : P s op out) :
      Charted env D P R (m.after op out) s'
  | reopen {m : Bindings} {s s₁ s₂ : Session} (h : Charted env D P R m s)
      (commits : perform env .commit s = (.ok .unit, s₁))
      (mounts : perform env (.remount s.fs.bs.key) s₁ = (.ok .unit, s₂)) (hr : R s) :
        Charted env D P R m s₂

theorem Charted.life (h : Charted env D P R m s) : ∃ born, Life env D P R born s := by
  induction h with
  | start blank hd run => exact ⟨_, .start blank hd run⟩
  | call _ does hop hp ih =>
    obtain ⟨born, life⟩ := ih
    exact ⟨_, life.call does hop hp⟩
  | reopen _ commits mounts hr ih =>
    obtain ⟨born, life⟩ := ih
    exact ⟨_, life.reopen commits mounts hr⟩

/-- What the machine does for a call is a change, or leaves what it sees. -/
theorem ran_moves (hl : env.Lawful) {t t' : State} {handles : List Handle} {op : Op} {out : Outcome}
    (hr : Ready t handles) (h : Ran env handles t op out t') :
    (∃ r, out = .ok r ∧ Change handles t.view op r t'.view ∧
      (planOf env handles op).1 t = .ok r t') ∨
      t'.view = t.view ∧ (¬ Answers op ∨ ∃ f, out = .error f) ∧
        (t'.node = t.node ∨ ∃ f, (planOf env handles op).1 t = .error f t') := by
  cases h with
  | answered hans hrun => exact .inl ⟨_, rfl, (planOf_change hl hr hans).ok hrun, hrun⟩
  | failed hans hrun => exact .inr ⟨(planOf_error hl hr hans hrun).1, .inr ⟨_, rfl⟩, .inr ⟨_, hrun⟩⟩
  | beside hno => exact .inr ⟨rfl, .inl hno, .inl rfl⟩

/-- A prompt call is a step of the machine, or leaves what it sees. -/
theorem prompt_change (hl : env.Lawful) {t : State} {op : Op} {out : Outcome}
    (hrep : Rep env s.fs t)
    (ho : Orderly t.view s.handles) (hlev : t.count = t.next) (hop : op.InSession)
      (hp : Prompt env s op out)
    (hplay : InPlay env s'.fs.dev.trace) (does : perform env op s = (out, s')) :
    ∃ t', Rep env s'.fs t' ∧ Orderly t'.view s'.handles ∧ t'.count = t'.next ∧
      ((∃ r, out = .ok r ∧ Change s.handles t.view op r t'.view ∧
        (planOf env s.handles op).1 t = .ok r t') ∨
        t'.view = t.view ∧ (¬ Answers op ∨ ∃ f, out = .error f) ∧
          (t'.node = t.node ∨ ∃ f, (planOf env s.handles op).1 t = .error f t')) := by
  obtain ⟨hreturns, hrefused, hlive, haside⟩ := hp
  have hfair := (hrep.fair hl ho.ready.neat).mpr ⟨Op.current_of_subjects hlive, haside⟩
  by_cases hstore : ∃ e, out = .error (.err e) ∧ e.Storage
  · -- the store refuses the first block
    obtain ⟨e, rfl, hkind⟩ := hstore
    obtain ⟨b, hfirst, hb⟩ := hrefused e rfl hkind
    obtain ⟨hrep', hhandles, -⟩ := refused_rep hl hrep hop hfirst hb does
    rw [hhandles]
    exact ⟨_, hrep', ho, hlev, .inr ⟨rfl, .inr ⟨_, rfl⟩, .inl rfl⟩⟩
  · have hgo : ¬ Stopped out s'.fs := by
      rintro ⟨f, rfl, hstop | ⟨-, e, rfl, hkind⟩⟩
      · rcases hreturns with ⟨r, hr⟩ | ⟨e, he⟩
        · cases hr
        · cases he
          exact hstop e rfl
      · exact hstore ⟨e, rfl, hkind⟩
    obtain ⟨t', hran, hrep', hwhat⟩ :=
      perform_change hl hrep ho.ready hop (apart_of_fair hfair) hplay hgo does
    have hsub : ∀ id ∈ op.subjects, id < t.next := fun id hid => (hrep.inUse.mp (hlive id hid)).1
    refine ⟨t', hrep', ?_, hran.level hl ho hsub hlev, ran_moves hl ho.ready hran⟩
    rcases hwhat with ⟨r, -, hchange, hhandles⟩ | ⟨hview, hhandles, -⟩
    · rw [hhandles]
      exact ho.step hfair hchange
    · rw [hview, hhandles]
      exact ho

theorem bindings_of_quiet {op : Op} {out : Outcome} (h : ¬ Answers op ∨ ∃ f, out = .error f)
    (m : Bindings) : m.after op out = m := by
  rcases h with h | ⟨f, rfl⟩
  · cases op with
    | commit | remount | statfs | fallocate => rfl
    | _ => exact absurd trivial h
  · cases op <;> rfl

theorem DirsLinked.links (h : DirsLinked s) {t : State} (hrep : Rep env s.fs t)
    (ho : Orderly t.view s.handles)
    (id : Nat) (hdir : (t.view.node id).isDir) : (t.view.node id).nlink ≠ 0 := by
  have hused := ho.1.used_of_dir hdir
  have hlt : id < t.cap := Nat.lt_of_lt_of_le hused.1 ho.1.next_le
  have hlinks := h id (hrep.inUse.mpr hused) (hrep.isDir.mpr ⟨hlt, hdir⟩)
  rw [(hrep.nodes id (hrep.cap ▸ hlt)).nlink] at hlinks
  exact hlinks

theorem named_fresh (env : Env) : Named (fresh env).view (fun _ _ => none) := by
  intro d
  by_cases hd : d = 0
  · subst hd
    exact ⟨fun _ => Graph.nil, fun _ => rfl⟩
  · have hnode : ((fresh env).view.node d) = blank 0 := by
      show ((fresh env).node d).outline = _
      rw [fresh_node_of_ne hd]
      rfl
    rw [hnode]
    exact names_blank _ _

/-- Along the sessions the directories of the machine have the names of the map. -/
theorem Charted.named (hl : env.Lawful) (h : Charted env Cow.MetaSound (Prompt env) DirsLinked m s)
    (hplay : InPlay env s.fs.dev.trace) :
    ∃ t, Rep env s.fs t ∧ Orderly t.view s.handles ∧ t.count = t.next ∧ Named t.view m := by
  induction h with
  | start blank _ run =>
    exact ⟨fresh env, rep_of_formatted (formatted_of_ok blank run), orderly_fresh env, rfl,
      named_fresh env⟩
  | @call m s s' op out _ does hop hp ih =>
    obtain ⟨t, hrep, ho, hlev, hnamed⟩ := ih (hplay.of_subset (trace_grows hop does).subset)
    obtain ⟨t', hrep', ho', hlev', ⟨r, rfl, hchange, -⟩ | ⟨hview, hno, -⟩⟩ :=
      prompt_change hl hrep ho hlev hop hp hplay does
    · obtain ⟨hs, gone, hn⟩ := ho
      exact ⟨t', hrep', ho', hlev', hnamed.step hs hn hchange⟩
    · rw [bindings_of_quiet hno]
      exact ⟨t', hrep', ho', hlev', hview ▸ hnamed⟩
  | @reopen m s s₁ s₂ h commits mounts hr ih =>
    obtain ⟨t, hrep, ho, hlev, hnamed⟩ :=
      ih (hplay.of_subset (trace_grows_remount commits mounts).subset)
    obtain ⟨born, life⟩ := h.life
    obtain ⟨hrep', hhandles⟩ := hrep.remount (life.held fun _ h => h) commits mounts
    rw [hhandles]
    exact ⟨t.reopen, hrep', ho.reopen (hr.links hrep ho) hlev, hlev, hnamed⟩

theorem perform_of_ok {op : Op} (hop : op.InSession) {r : Reply} {fs : FS}
    (h : execOf env s.handles op s.fs = .ok r fs) :
    perform env op s = (.ok r, ⟨fs, handlesAfter op true s.handles⟩) := by
  rw [perform_eq_call hop, call, h]

theorem perform_of_error {op : Op} (hop : op.InSession) {e : Fault Fs.Error} {fs : FS}
    (h : execOf env s.handles op s.fs = .error e fs) :
    perform env op s = (.error e, ⟨fs, handlesAfter op false s.handles⟩) := by
  rw [perform_eq_call hop, call, h]

/-- A call that the machine answers, from its run. -/
theorem perform_of_run (op : Op) (hop : Answers op) {r : Reply} {fs : FS}
    (h : (actOf env s.handles op).1 s.fs = .ok r fs) :
    perform env op s = (.ok r, ⟨fs, handlesAfter op true s.handles⟩) := by
  apply perform_of_ok (inSession_of_answers hop)
  rw [execOf_eq_actOf hop, h]

/-- Directory `d` answers every lookup from `f`, and its listings give each name of `f`
once, with the inode and its kind. -/
structure Answered (env : Env) (s : Session) (d : Nat) (f : String → Option Nat) : Prop where
  lookup : ∀ name, ∃ s', perform env (.lookup d name) s = (.ok (.found (f name)), s')
  readdir : ∃ names s', perform env (.readdir d) s = (.ok (.names names), s') ∧ names.Nodup ∧
    ∀ name, name ∈ names ↔ (f name).isSome
  readdirents : ∃ dirents s', perform env (.readdirents d) s = (.ok (.dirents dirents), s') ∧
    (dirents.map (·.name)).Nodup ∧
      ∀ name id kind, ⟨name, id, kind⟩ ∈ dirents ↔ f name = some id ∧
      kind = (s.fs.inodes.slots id).kind

theorem answered_of_named (hl : env.Lawful) {t : State} (hrep : Rep env s.fs t)
    (ho : Orderly t.view s.handles)
    (hnamed : Named t.view m) {d : Nat} (hd : s.fs.IsDir d) : Answered env s d (m d) := by
  obtain ⟨hs, gone, hn⟩ := ho
  obtain ⟨hlt, hdir⟩ := hrep.isDir.mp hd
  have hneat : Neat t := (ready_of hs hn).neat
  have hg : Graph (m d) (t.node d).entries := (hnamed d).graph hdir
  have hdist : Distinct (t.node d).entries := (hn.paged d hlt hdir).distinct
  have hids : ∀ e ∈ (t.node d).entries, e.inode < t.cap := by
    intro e he
    have hpos : 0 < t.view.names e.inode + gone e.inode :=
      Nat.add_pos_left (View.names_pos.mpr ⟨d, hlt, Outline.naming_pos.mpr ⟨hdir, e, he, rfl⟩⟩) _
    exact (hn.named _ hpos).lt hs
  obtain ⟨fs, hlist, hrep'⟩ := run_listDir hl hrep hneat hlt hdir
  refine ⟨fun name => ?_, ⟨(t.node d).entries.map (·.name), ⟨fs, s.handles⟩, ?_, ?_,
    fun name => ?_⟩,
    ⟨(t.node d).entries.map (direntOf t), ⟨fs, s.handles⟩, ?_, ?_, fun name id kind => ?_⟩⟩
  · obtain ⟨fs, hrun, -⟩ := run_lookup hl hrep hneat hlt hdir name
    rw [hg.find hdist] at hrun
    exact ⟨⟨fs, s.handles⟩, perform_of_run (.lookup d name) trivial (bind_of_ok hrun)⟩
  · exact perform_of_run (.readdir d) trivial (bind_of_ok (bind_of_ok hlist))
  · exact hdist
  · rw [Option.isSome_iff_exists, List.mem_map]
    constructor
    · rintro ⟨⟨n, id⟩, he, rfl⟩
      exact ⟨id, (hg n id).mp he⟩
    · rintro ⟨id, hm⟩
      exact ⟨_, (hg name id).mpr hm, rfl⟩
  · have hrun : (Fs.readdirents d : Act env (List Dirent)).1 s.fs =
      .ok ((t.node d).entries.map (direntOf t)) fs :=
      (bind_of_ok hlist).trans (run_direntOf hrep' hids)
    exact perform_of_run (.readdirents d) trivial (bind_of_ok hrun)
  · rw [List.map_map]
    exact hdist
  · have hkind : ∀ e ∈ (t.node d).entries, (t.node e.inode).kind =
      (s.fs.inodes.slots e.inode).kind :=
      fun e he => (hrep.nodes _ (hrep.cap ▸ hids e he)).kind.symm
    rw [List.mem_map]
    constructor
    · rintro ⟨⟨n, i⟩, he, heq⟩
      cases heq
      exact ⟨(hg n i).mp he, hkind _ he⟩
    · rintro ⟨hm, rfl⟩
      have he := (hg name id).mpr hm
      refine ⟨_, he, ?_⟩
      unfold direntOf
      rw [hkind _ he]

/-- Directories are maps.  After any sessions of prompt calls, whether they succeed or fail,
and of mounts after a commit with every directory linked, on a device that refuses no write of
metadata, each directory answers from the map that the calls made of it.  A call that fails
in the store after its first block is not prompt: a symlink can leave its name and still
fail. -/
theorem directories_are_maps (hl : env.Lawful)
    (h : Charted env Cow.MetaSound (Prompt env) DirsLinked m s)
    (hplay : InPlay env s.fs.dev.trace) {d : Nat} (hd : s.fs.IsDir d) : Answered env s d (m d) := by
  obtain ⟨t, hrep, ho, -, hnamed⟩ := h.named hl hplay
  exact answered_of_named hl hrep ho hnamed hd

/-- What a directory holds on the device is the graph of its map. -/
theorem Charted.graph (hl : env.Lawful) (h : Charted env Cow.MetaSound (Prompt env) DirsLinked m s)
    (hplay : InPlay env s.fs.dev.trace) {d : Nat} (hd : s.fs.IsDir d) {l : List DirEntry}
    (hread : s.fs.readDirPages env d = .ok l) : Graph (m d) l := by
  obtain ⟨t, hrep, ⟨hs, gone, hn⟩, -, hnamed⟩ := h.named hl hplay
  obtain ⟨hlt, hdir⟩ := hrep.isDir.mp hd
  have hentries := run_readDirPages hl hrep (ready_of hs hn).neat hlt hdir
  rw [hread] at hentries
  cases hentries
  exact (hnamed d).graph hdir

/-- A file that is moved to another directory is found there after a mount, and not where
it was. -/
theorem directories_are_maps_moved : ∃ m s,
    Charted Env.plain Cow.MetaSound (Prompt Env.plain) DirsLinked m s ∧
    InPlay Env.plain s.fs.dev.trace ∧
      s.fs.IsDir 0 ∧ s.fs.IsDir 1 ∧ (∃ s', perform Env.plain (.lookup 1 "b") s =
        (.ok (.found (some 2)), s')) ∧
      ∃ s', perform Env.plain (.lookup 0 "a") s = (.ok (.found none), s') := by
  have htrail : ∃ x ∈ trail Env.plain Tended [.mkdir 0 "d", .create 0 "a", .rename 0 "a" 1 "b"]
      (fresh Env.plain) [],
      (∀ id < x.1.next, (x.1.node id).nlink ≠ 0) ∧ 1 < x.1.cap ∧ (x.1.node 0).isDir ∧
        (x.1.node 1).isDir ∧
        (x.1.node 0).entries = [⟨"d", 1⟩] ∧ (x.1.node 1).entries = [⟨"b", 2⟩] ∧ Sketched x.1.paid ∧
        x.1.paid.length ≤ 256 := by
    decide
  obtain ⟨⟨t, handles, b⟩, hx, hlinks, hcap, hdir₀, hdir₁, hroot, hsub, hsketch, hfew⟩ := htrail
  obtain ⟨hclear, hblank, fs, hfs, htrack⟩ := start_format hsketch hfew
  obtain ⟨s, ⟨m, hchart⟩, -, htrack₁, ho⟩ := trail_exact (k := 1) (b := []) (P := Prompt Env.plain)
    (R := fun _ s => ∃ m, Charted Env.plain Cow.MetaSound (Prompt Env.plain) DirsLinked m s)
    (J := fun t handles => Orderly t.view handles) hclear
    (fun _ _ _ _ _ hr does hop hp => hr.elim fun _ h => ⟨_, h.call does hop hp⟩)
      (fun _ _ => Orderly.ready)
    (fun _ _ _ _ _ hj hC => hj.step hC.1)
    (fun _ s t op r _ hop hrep hj hC =>
      ⟨apart_of_fair hC.1, prompt_of_tended Env.plain_lawful s t op r hop hrep hj hC⟩)
    (by simp [Plays, Answers]) ⟨_, .start hblank metaSound_smallDisk hfs⟩ (htrack.mono (by decide))
    (orderly_fresh _) hx (List.prefix_refl _)
  have hused : DirsLinked s := by
    intro id hid hdir
    have hlt := (htrack₁.rep.inUse.mp hid).1
    rw [(htrack₁.rep.nodes id hdir.1).nlink]
    exact hlinks id hlt
  obtain ⟨born, life⟩ := hchart.life
  obtain ⟨s₁, s₂, commits, mounts, -, htrack₂⟩ := htrack₁.reopened (life.held fun _ h => h)
  have hchart₂ := hchart.reopen commits mounts hused
  have hplay := (htrack₂.undisturbed hclear).1
  have h₀ : s₂.fs.IsDir 0 := htrack₂.rep.isDir.mpr ⟨Nat.lt_of_succ_lt hcap, hdir₀⟩
  have h₁ : s₂.fs.IsDir 1 := htrack₂.rep.isDir.mpr ⟨hcap, hdir₁⟩
  have hneat : Neat t.reopen := fun id hid hd => ho.ready.neat id hid hd
  have hg₀ := hchart₂.graph Env.plain_lawful hplay h₀
    (run_readDirPages Env.plain_lawful htrack₂.rep hneat (Nat.lt_of_succ_lt hcap) hdir₀)
  have hg₁ := hchart₂.graph Env.plain_lawful hplay h₁
    (run_readDirPages Env.plain_lawful htrack₂.rep hneat hcap hdir₁)
  have hgone : m 0 "a" = none := hg₀.none_iff.mpr
    (by rw [show (t.reopen.node 0).entries = _ from hroot]; simp)
  have hmoved : m 1 "b" = some 2 :=
    (hg₁ "b" 2).mp (by rw [show (t.reopen.node 1).entries = _ from hsub]; simp)
  refine ⟨m, s₂, hchart₂, hplay, h₀, h₁, ?_, ?_⟩
  · rw [← hmoved]
    exact (directories_are_maps Env.plain_lawful hchart₂ hplay h₁).1 "b"
  · rw [← hgone]
    exact (directories_are_maps Env.plain_lawful hchart₂ hplay h₀).1 "a"

end Runs
end BloomFS
