/-
Link counts of files and reference counts of blocks over whole sessions.

While callers write, link and open only ids that are handed out, a slot that is not
handed out is blank.  An id then comes back exactly when its last name and its last
handle are gone, and every reference of the block store belongs to an inode.
-/
import BloomFS.Runs.Tree
import BloomFS.Spec.Tidy

namespace BloomFS
namespace Runs

open Bytes Exec Block Dir Fs Store Spec Refine

variable {env : Env} {D : Disk → Prop} {past : List Session} {s : Session} {t : State}

theorem tidy_fresh (env : Env) : Tidy (fresh env).view where
  blank id hid := by
    have hne : id ≠ 0 := by
      rintro rfl
      exact hid (slots_fresh env).root.1
    refine ⟨0, ?_⟩
    show ((fresh env).node id).outline = blank 0
    rw [fresh_node_of_ne hne]
    rfl
  clean := rfl

theorem mem_targets_of_writes {op : Op} {id : Nat} {f : Bytes → Bytes}
    (h : writes op = some (id, f)) : id ∈ op.targets ∧ id ∈ op.ids := by
  cases op with
  | writeFile | writeAt | append | truncate =>
    cases h
    exact ⟨List.mem_singleton_self _, List.mem_singleton_self _⟩
  | _ => cases h

/-- What a session of successful calls has to meet for its slots to stay in order. -/
structure Orders (env : Env) (s : Session) (t : State) (op : Op) : Prop where
  current : op.Current s.fs
  sparing : op.Sparing env s.fs
  writes : ∀ id f, writes op = some (id, f) → t.view.Used id

theorem ordered_tidy {P : Session → Op → Outcome → Prop} (hl : env.Lawful)
    (hsmooth : ∀ s op out, P s op out → Smooth s op out)
    (hP : ∀ past s t op out, Run env D P past s → P s op out → Rep env s.fs t →
      Arranged t.view s.handles → Orders env s t op)
    (run : Run env D P past s) (hplay : InPlay env s.fs.dev.trace) :
    ∃ t, Rep env s.fs t ∧ Arranged t.view s.handles ∧ Tidy t.view := by
  refine lift (J := fun v handles => Arranged v handles ∧ Tidy v) hl (calls_succeed hsmooth)
    ⟨arranged_fresh env, tidy_fresh env⟩ (fun _ _ h => h.1.ready)
    (fun past s t op out run hp hrep hj => ?_) run hplay
  obtain ⟨ha, htidy⟩ := hj
  have ho := hP past s t op out run hp hrep ha
  have hsp := hrep.spares hl ha.ready.neat ha.slots ho.sparing
  have hfair := fair_of_spares hrep ha ho.current hsp
  exact ⟨apart_of_fair hfair, fun r v' hc =>
    ⟨ha.step hfair hsp hc, hc.tidy ha.slots ha.linked hfair ho.writes htidy⟩⟩

/-! ## Link counts of files -/

/-- Successful calls on known ids that replace no directory. -/
def Proper (env : Env) (s : Session) (op : Op) (out : Outcome) : Prop :=
  Smooth s op out ∧ op.Known env s.fs ∧ op.Sparing env s.fs

theorem proper_tidy (hl : env.Lawful) (run : Run env D (Proper env) past s)
    (hplay : InPlay env s.fs.dev.trace) :
    ∃ t, Rep env s.fs t ∧ Arranged t.view s.handles ∧ Tidy t.view := by
  refine ordered_tidy hl (fun _ _ _ hp => hp.1) (fun _ s t op out run hp hrep ha => ?_) run hplay
  have hroot := root_of_run (fun _ _ _ hp => hp.1.1) run
  refine ⟨current_of_known hl hrep ha hroot hp.2.1, hp.2.2, fun id f hw => ?_⟩
  exact used_of_known hl hrep ha.slots ha.linked hroot (hp.2.1 id (mem_targets_of_writes hw).2)

/-- A file without names whose handles are closed is blank and on the free list. -/
theorem given_back {t : State} (hrep : Rep env s.fs t) (ha : Arranged t.view s.handles)
    (htidy : Tidy t.view)
    {id : Nat} (hmade : id < s.fs.ub.nextInode.toNat) (hlt : id < s.fs.inodes.cap)
    (hf : ¬ (t.view.node id).isDir) (hlinks : (t.view.node id).nlink.toNat = 0)
    (hclosed : ∀ h ∈ s.handles, h.id = id → h.closed = true) :
    s.fs.freeInodes.count id = 1 ∧ (s.fs.inodes.slots id).size = 0 := by
  have hopen : t.view.opens id = 0 := by
    refine UInt32.toNat_inj.mp ?_
    rw [ha.slots.held]
    refine List.countP_eq_zero.mpr fun h hh => ?_
    simp only [decide_eq_true_eq, not_and, not_not]
    exact hclosed h hh
  have hunused : ¬ t.view.Used id := fun hu =>
    ha.linked.kept id hu hf (UInt32.toNat_inj.mp hlinks) hopen
  have hmem : id ∈ s.fs.freeInodes := by
    by_contra hno
    exact hunused (hrep.inUse.mp ⟨hmade, hno⟩)
  have hfree : t.view.free = s.fs.freeInodes := hrep.free
  refine ⟨List.count_eq_one_of_mem (hfree ▸ ha.slots.nodup) hmem, UInt64.toNat_inj.mp ?_⟩
  rw [hrep.size hlt]
  show (t.view.node id).blob.length = 0
  obtain ⟨g, hblank⟩ := htidy.blank id hunused
  rw [hblank]
  rfl

/-- A file has as many links as names, and once its last name and its last handle are
gone its id is on the free list once, and its slot is empty. -/
theorem file_links_counted (hl : env.Lawful) (run : Run env D (Proper env) past s)
    (hplay : InPlay env s.fs.dev.trace) (id : Nat) (hmade : id < s.fs.ub.nextInode.toNat)
    (hfile : ¬ s.fs.IsDir id) :
    (s.fs.InUse id → (s.fs.inodes.slots id).nlink.toNat = s.fs.nameCount env id) ∧
    (s.fs.nameCount env id = 0 → (∀ h ∈ s.handles, h.id = id → h.closed = true) →
      s.fs.freeInodes.count id = 1 ∧ (s.fs.inodes.slots id).size = 0) := by
  obtain ⟨t, hrep, ha, htidy⟩ := proper_tidy hl run hplay
  have hlt : id < s.fs.inodes.cap := by
    rw [← hrep.next] at hmade
    rw [← hrep.cap]
    exact Nat.lt_of_lt_of_le hmade ha.slots.next_le
  have hf : ¬ (t.view.node id).isDir := (isDir_iff hrep ha.slots).not.mp hfile
  have hlinks : (t.view.node id).nlink.toNat = t.view.names id := ha.linked.files id hf
  rw [hrep.nameCount hl ha.ready.neat]
  refine ⟨fun _ => ?_, fun hnames hclosed => ?_⟩
  · rw [(hrep.nodes id hlt).nlink]
    exact hlinks
  · exact given_back hrep ha htidy hmade hlt hf (hlinks.trans hnames) hclosed

theorem proper_of_fair (hl : env.Lawful) (past : List Session) (s : Session) (t : State) (op : Op)
    (r : Reply) (run : Run env D (Proper env) past s) (hop : Plays op) (hrep : Rep env s.fs t)
    (hj : Orderly t.view s.handles) (hf : Fair t.view op ∧ Yields t.view op ∧ Rooted t.view op) :
    Proper env s op (.ok r) :=
  ⟨⟨hop.inSession, r, rfl⟩,
    known_of_rooted hl hrep hj (root_of_run (fun _ _ _ hp => hp.1.1) run) hf.2.2,
    sparing_of_yields hl hrep hj.ready.neat hf.2.1⟩

/-- A file that loses one of its two names keeps one link, and the file it replaced in
a rename is given back. -/
theorem file_links_counted_churn : ∃ past s,
    Run Env.plain Disk.Reliable (Proper Env.plain) past s ∧ InPlay Env.plain s.fs.dev.trace ∧
      (s.fs.inodes.slots 1).nlink.toNat = s.fs.nameCount Env.plain 1 ∧
      s.fs.freeInodes.count 2 = 1 ∧ (s.fs.inodes.slots 2).size = 0 := by
  have hscript : ∃ x ∈ script Env.plain (fun v op => Fair v op ∧ Yields v op ∧ Rooted v op)
      [.create 0 "a", .link 0 "b" 1, .create 0 "c", .rename 0 "a" 0 "c", .unlink 0 "b"]
      (fresh Env.plain) [], (x.1.next = 3 ∧ x.1.free = [2] ∧ ¬ (x.1.view.node 1).isDir ∧
        ¬ (x.1.view.node 2).isDir ∧ x.2 = []) ∧ Sketched x.1.paid ∧ x.1.paid.length ≤ 256 := by
    decide
  obtain ⟨⟨t, handles⟩, hscript, ⟨hnext, hfree, hone, htwo, hnone⟩, hsketch, hfew⟩ := hscript
  obtain ⟨hclear, past, s, run, hhandles, htrack, hj⟩ := run_script (D := Disk.Reliable)
    (P := Proper Env.plain) (reliable_zeroed _ _)
    (fun _ _ h => h.1) (proper_of_fair Env.plain_lawful)
    (by simp [Plays, Answers]) (by decide) hscript hsketch hfew
  have hrep := htrack.rep
  have hplay : InPlay Env.plain s.fs.dev.trace := (htrack.undisturbed hclear).1
  have hmade : s.fs.ub.nextInode.toNat = 3 := hrep.next.symm.trans hnext
  have hids : s.fs.freeInodes = [2] := hrep.free.symm.trans hfree
  have hfile : ∀ id, ¬ (t.view.node id).isDir → ¬ s.fs.IsDir id :=
    fun id => (isDir_iff hrep hj.1).not.mpr
  have hcount := file_links_counted Env.plain_lawful run hplay
  have hunnamed : s.fs.nameCount Env.plain 2 = 0 := by
    rw [hrep.nameCount Env.plain_lawful hj.ready.neat]
    by_contra hpos
    obtain ⟨gone, hn⟩ := hj.2
    refine (hn.named 2 (by omega)).2 ?_
    rw [show t.view.free = [2] from hfree]
    exact List.mem_singleton_self 2
  refine ⟨past, s, run, hplay, ?_, ?_⟩
  · exact (hcount 1 (by rw [hmade]; decide) (hfile 1 hone)).1
      ⟨by rw [hmade]; decide, by rw [hids]; decide⟩
  · exact (hcount 2 (by rw [hmade]; decide) (hfile 2 htwo)).2 hunnamed fun h hh => by
      rw [hhandles.trans hnone] at hh
      cases hh

/-! ## Reference counts of blocks -/

/-- Successful calls that write and link known ids, open ids that are handed out, and
replace no directory. -/
def Accounted (env : Env) (s : Session) (op : Op) (out : Outcome) : Prop :=
  Smooth s op out ∧ op.Current s.fs ∧ (∀ id ∈ op.targets, s.fs.Known env id) ∧ op.Sparing env s.fs

theorem accounted_tidy (hl : env.Lawful) (run : Run env D (Accounted env) past s)
    (hplay : InPlay env s.fs.dev.trace) :
    ∃ t, Rep env s.fs t ∧ Arranged t.view s.handles ∧ Tidy t.view := by
  refine ordered_tidy hl (fun _ _ _ hp => hp.1) (fun _ s t op out run hp hrep ha => ?_) run hplay
  have hroot := root_of_run (fun _ _ _ hp => hp.1.1) run
  refine ⟨hp.2.1, hp.2.2.2, fun id f hw => ?_⟩
  exact used_of_known hl hrep ha.slots ha.linked hroot (hp.2.2.1 id (mem_targets_of_writes hw).1)

/-- The references to `k` over all inodes. -/
def owned (env : Env) (s : FS) (k : Dedup.Key) : Nat :=
  ∑ id ∈ Finset.range s.inodes.cap, (s.refsOf env id).countP (·.hash = k)

/-- The references that the inodes hold, read from the device. -/
theorem Filled.owned_eq (hl : env.Lawful) {s : FS} {blob : Nat → Bytes} {refs : Nat → List Ref}
    {lost : Multiset Dedup.Key} (h : Filled env s blob refs lost) (k : Dedup.Key) :
    owned env s k = (total s.inodes refs).count k := by
  unfold owned total
  rw [Multiset.count_sum']
  refine Finset.sum_congr rfl fun id hid => ?_
  rw [(h.laid id (Finset.mem_range.mp hid)).refsOf hl, tokens, Multiset.count, Multiset.coe_countP,
    List.countP_map]
  exact List.countP_congr fun r _ => by simp [eq_comm]

theorem refs_eq_owned (hl : env.Lawful) {s : FS} {t : State} (hrep : Rep env s t)
    (htidy : Tidy t.view) (k : Dedup.Key) : s.ddt.refs k = owned env s k := by
  obtain ⟨refs, lost, hf, hclean⟩ := hrep.filled
  have hlost : lost = 0 := hclean.mp htidy.clean
  rw [Filled.owned_eq hl hf, ← add_zero (total _ _), ← hlost]
  exact hf.stocked.stock.refs k

/-- Every reference of the store belongs to an inode, every ref of an inode agrees
with its entry, and there are no other entries. -/
theorem references_exact (hl : env.Lawful) (run : Run env D (Accounted env) past s)
    (hplay : InPlay env s.fs.dev.trace) :
    (∀ k, s.fs.ddt.refs k = owned env s.fs k) ∧
    (∀ k, (∃ e, s.fs.ddt.lookup k = some e) ↔
      ∃ id < s.fs.inodes.cap, ∃ r ∈ s.fs.refsOf env id, r.hash = k) ∧
    ∀ id < s.fs.inodes.cap, ∀ r ∈ s.fs.refsOf env id, ∃ e, s.fs.ddt.lookup r.hash = some e ∧
      r = refFrom r.hash e := by
  obtain ⟨t, hrep, -, htidy⟩ := accounted_tidy hl run hplay
  obtain ⟨refs, lost, hf, -⟩ := hrep.filled
  have hcount := refs_eq_owned hl hrep htidy
  have hagree : ∀ id < s.fs.inodes.cap, ∀ r ∈ s.fs.refsOf env id, ∃ e,
    s.fs.ddt.lookup r.hash = some e ∧ r = refFrom r.hash e := by
    intro id hid r hr
    rw [(hf.laid id hid).refsOf hl] at hr
    obtain ⟨b, ⟨e, he, hr, -⟩, -⟩ := (hf.laid id hid).good_of_mem hr
    exact ⟨e, he, hr⟩
  refine ⟨hcount, fun k => ⟨?_, ?_⟩, hagree⟩
  · rintro ⟨e, he⟩
    have hpos : 0 < owned env s.fs k := by
      rw [← hcount, Dedup.Table.refs, he]
      have hne : e.refs ≠ 0 := hf.stocked.stock.positive k e he
      exact Nat.pos_of_ne_zero fun h0 => hne (UInt32.toNat_inj.mp h0)
    obtain ⟨id, hid, hk⟩ := Finset.sum_pos_iff.mp hpos
    obtain ⟨r, hr, heq⟩ := List.countP_pos_iff.mp hk
    exact ⟨id, Finset.mem_range.mp hid, r, hr, of_decide_eq_true heq⟩
  · rintro ⟨id, hid, r, hr, rfl⟩
    obtain ⟨e, he, -⟩ := hagree id hid r hr
    exact ⟨e, he⟩

theorem accounted_of_fair (hl : env.Lawful) (past : List Session) (s : Session)
    (t : State) (op : Op)
    (r : Reply) (run : Run env D (Accounted env) past s) (hop : Plays op) (hrep : Rep env s.fs t)
    (hj : Orderly t.view s.handles) (hf : Fair t.view op ∧ Yields t.view op ∧ Rooted t.view op) :
    Accounted env s op (.ok r) := by
  have hknown := known_of_rooted hl hrep hj (root_of_run (fun _ _ _ hp => hp.1.1) run) hf.2.2
  refine ⟨⟨hop.inSession, r, rfl⟩, ((hrep.fair hl hj.ready.neat).mp hf.1).1, fun id hid => ?_,
    sparing_of_yields hl hrep hj.ready.neat hf.2.1⟩
  exact hknown id (Op.targets_subset op hid)

/-- Two files with one record of the same bytes hold two references to it. -/
theorem references_exact_shared : ∃ past s,
    Run Env.plain Disk.Reliable (Accounted Env.plain) past s ∧ InPlay Env.plain s.fs.dev.trace ∧
      ∀ k, s.fs.ddt.refs k = owned Env.plain s.fs k := by
  have hscript : ∃ x ∈ script Env.plain (fun v op => Fair v op ∧ Yields v op ∧ Rooted v op)
      [.create 0 "a", .create 0 "b", .writeFile 1 [7], .writeFile 2 [7]] (fresh Env.plain) [],
      Sketched x.1.paid ∧ x.1.paid.length ≤ 256 := by
    decide
  obtain ⟨⟨t, handles⟩, hscript, hsketch, hfew⟩ := hscript
  obtain ⟨hclear, past, s, run, -, htrack, -⟩ := run_script (D := Disk.Reliable)
    (P := Accounted Env.plain) (reliable_zeroed _ _)
    (fun _ _ h => h.1) (accounted_of_fair Env.plain_lawful)
    (by simp [Plays, Answers]) (by decide) hscript hsketch hfew
  have hplay : InPlay Env.plain s.fs.dev.trace := (htrack.undisturbed hclear).1
  exact ⟨past, s, run, hplay, (references_exact Env.plain_lawful run hplay).1⟩

theorem sparing_of_mild {s : FS} {op : Op} (h : mild op) : op.Sparing env s := by
  cases op with
  | rename => cases h
  | _ => exact trivial

/-- What was written through a stale handle loses its owner when its id is handed
out. -/
theorem stale_write_loses_reference : ∃ past s,
    Run Env.plain Disk.Reliable (fun s op out => Smooth s op out ∧
      (∀ id ∈ op.targets, s.fs.Known Env.plain id) ∧ op.Sparing Env.plain s.fs) past s ∧
      Undisturbed Env.plain s ∧ ∃ k, s.fs.ddt.refs k ≠ owned Env.plain s.fs k := by
  have hscript : ∃ x ∈ script Env.plain (fun v op => Fair v op ∧ Yields v op ∧ op.targets = [])
      [.create 0 "a", .unlink 0 "a"] (fresh Env.plain) [],
      ∃ y ∈ script Env.plain (fun v op => mild op ∧ ∀ id ∈ op.targets, v.opens id ≠ 0)
        [.openFile 1, .writeFile 1 [7]] x.1 x.2,
      ∃ z ∈ script Env.plain (fun _ _ => True) [.create 0 "b"] y.1 y.2,
        z.1.clean = false ∧ Sketched z.1.paid ∧ z.1.paid.length ≤ 256 := by
    decide
  obtain ⟨⟨t₁, h₁⟩, hx, ⟨t₂, h₂⟩, hy, ⟨t₃, h₃⟩, hz, hlost, hsketch, hfew⟩ := hscript
  have hpre₂ : t₂.log <+: t₃.log := script_grows hz
  have hpre₁ : t₁.log <+: t₃.log := (script_grows hy).trans hpre₂
  obtain ⟨hclear, fs, run, h⟩ := start_track (P := fun s op out => Smooth s op out ∧
    (∀ id ∈ op.targets, s.fs.Known Env.plain id) ∧ op.Sparing Env.plain s.fs) hsketch hfew
    (reliable_zeroed _ _)
  obtain ⟨past₁, s₁, run₁, rfl, h, hj⟩ := fair_exact (k := 2) hclear (fun _ _ h => h.1)
    (fun _ s t op r _ hop hrep hj hC => ⟨⟨hop.inSession, r, rfl⟩, by simp [hC.2.2],
      sparing_of_yields Env.plain_lawful hrep hj.ready.neat hC.2.1⟩)
    (by simp [Plays, Answers]) run (h.mono (by decide)) (orderly_fresh _) hx hpre₁
  obtain ⟨past₂, s₂, run₂, rfl, h, hj⟩ := mild_exact (k := 0) hclear (fun _ _ h => h.1)
    (fun _ s t op r _ hop hrep hj hC => ⟨⟨hop.inSession, r, rfl⟩,
      fun id hid => .inr (.inr (hrep.opens id ▸ hC.2 id hid)), sparing_of_mild hC.1⟩)
    (by simp [Plays, Answers]) run₁ (h.mono (by decide)) hj.ready hy hpre₂
  have hcreate : Answers (.create 0 "b") := trivial
  obtain ⟨past₃, s₃, run₃, -, h⟩ := last_exact hclear
    (fun r => ⟨⟨inSession_of_answers hcreate, r, rfl⟩, by simp [Op.targets], trivial⟩)
    hcreate trivial
    run₂ h hj hz (List.prefix_refl _)
  refine ⟨past₃, s₃, run₃, h.undisturbed hclear, ?_⟩
  obtain ⟨refs, lost, hf, hclean⟩ := h.rep.filled
  have hne : lost ≠ 0 := fun h0 => by
    have := hclean.mpr h0
    rw [show t₃.clean = false from hlost] at this
    cases this
  obtain ⟨k, hk⟩ := Multiset.exists_mem_of_ne_zero hne
  refine ⟨k, ?_⟩
  have hrefs : s₃.fs.ddt.refs k = (total s₃.fs.inodes refs + lost).count k :=
    hf.stocked.stock.refs k
  have hpos := Multiset.count_pos.mpr hk
  rw [hrefs, Filled.owned_eq Env.plain_lawful hf, Multiset.count_add]
  omega

end Runs
end BloomFS
