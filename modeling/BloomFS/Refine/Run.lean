/-
Whole runs of the file system against the machine.

`fresh` is the machine for a formatted device.  Along a run without a remount the
file system stays related to a state of the machine, as long as no two blocks in
play collide and no block was refused by a call that failed.
-/
import BloomFS.Fs.Fresh
import BloomFS.Fs.Namespace
import BloomFS.Fs.Steady
import BloomFS.Refine.Step
import BloomFS.Spec.Orderly

namespace BloomFS
namespace Refine

open Bytes Exec Block Dir Fs Store Spec

variable {env : Env} {s s' : FS} {t t' : State}

/-! ## The start of a run -/

def rootNode (c : UInt64) : Node :=
  { kind := Inode.typeDir, nlink := 2, mode := 0o755, atime := c, mtime := c, ctime := c }

/-- The machine on a formatted device. -/
def fresh (env : Env) : State where
  node := Function.update (fun _ => {}) 0 (rootNode (env.clock 0))
  cap := defaultInodeCount
  count := 1
  next := 1
  free := []
  opens _ := 0
  ticks := 1
  orders := 0
  paid := []
  clean := true

theorem fresh_node_of_ne {id : Nat} (h : id ≠ 0) : (fresh env).node id = {} := by
  show Function.update (fun _ => ({} : Node)) 0 (rootNode (env.clock 0)) id = {}
  exact Function.update_of_ne h ..

theorem blob_fresh (env : Env) (id : Nat) : ((fresh env).node id).blob = [] := by
  by_cases h : id = 0
  · subst h
    rfl
  · rw [fresh_node_of_ne h]
    rfl

theorem stocked_of_formatted {key : Option Bytes} {d : Disk} (h : Formatted env key d s) :
    Stocked env s 0 where
  stock := by
    refine ⟨⟨_, Space.of_fresh h.counted ?_ ?_ h.ddt h.deferred ?_⟩, ?_, ?_, ?_⟩
    · rw [show s.pool.bm.total = d.blocks from h.total]
      exact h.room.le
    · rw [show s.pool.bm.total = d.blocks from h.total]
      exact d.blocks_lt
    · rw [show s.pool.bm.total = d.blocks from h.total]
      exact h.bits
    · intro k
      unfold Dedup.Table.refs
      rw [show s.pool.ddt.lookup k = none from h.ddt k]
      rfl
    · intro k e he
      rw [show s.pool.ddt.lookup k = none from h.ddt k] at he
      cases he
    · intro k e he
      rw [show s.pool.ddt.lookup k = none from h.ddt k] at he
      cases he
  placed := h.placed
  total := h.total.trans h.blocks.symm
  card := Nat.zero_le _
  below i hi hb := by
    rw [h.total] at hi
    exact Nat.lt_of_lt_of_le ((h.bits i hi).mp hb) (Nat.le_add_right _ _)
  refused hr := by
    rcases h.events _ hr with ⟨_, _, he⟩ | ⟨_, _, he⟩ | he <;> cases he

theorem rep_of_formatted {key : Option Bytes} {d : Disk} (h : Formatted env key d s) :
    Rep env s (fresh env) := by
  have hslot : ∀ id, id ≠ 0 → s.inodes.slots id = Inode.default := by
    intro id hid
    rw [h.slots, Function.update_of_ne hid]
  have hsize : ∀ id, (s.inodes.slots id).size = 0 := by
    intro id
    by_cases hid : id = 0
    · subst hid
      rw [h.slots, Function.update_self]
      rfl
    · rw [hslot id hid]
      rfl
  have hlaid : ∀ id, id < s.inodes.cap →
      Laid (Names env s) (s.inodes.slots id) [] ((fresh env).node id).blob := by
    intro id _
    rw [blob_fresh]
    exact laid_empty (hsize id)
  have htotal : total s.inodes (fun _ => []) = 0 :=
    Finset.sum_eq_zero fun id hid => (hlaid id (Finset.mem_range.mp hid)).tokens_empty (hsize id)
  have hquiet : ∀ b, .hash b ∉ s.dev.trace := by
    intro b hb
    rcases h.events _ hb with ⟨_, _, he⟩ | ⟨_, _, he⟩ | he <;> cases he
  refine ⟨⟨fun _ => [], 0, ⟨hlaid, ?_⟩, iff_of_true rfl rfl⟩, ?_, h.cap.symm, h.count.symm, ?_, ?_,
    h.freeInodes.symm, ?_, h.ticks.symm, h.orders.symm, ⟨?_, ?_⟩, ?_⟩
  · rw [htotal]
    exact stocked_of_formatted h
  · intro id _
    by_cases hid : id = 0
    · subst hid
      rw [h.slots, Function.update_self]
      exact ⟨rfl, rfl, rfl, rfl, rfl, rfl, rfl, rfl, rfl, fun _ h0 => absurd rfl h0⟩
    · rw [hslot id hid, fresh_node_of_ne hid]
      exact ⟨rfl, rfl, rfl, rfl, rfl, rfl, rfl, rfl, rfl, fun _ h0 => absurd rfl h0⟩
  · rw [h.cap]
    decide
  · rw [h.nextInode]
    rfl
  · intro id
    unfold FS.openCountOf
    rw [h.openCount]
    rfl
  · intro b hb
    exact absurd hb (hquiet b)
  · rw [cost_eq_zero hquiet]
    rfl
  · intro c hc id hd hlook
    rw [h.dirCache] at hc
    cases hc
    cases hlook

theorem Rep.of_kept (h : Rep env s t)
    (hk : ∀ T, Stocked env s T → Kept env s s' ∧ Stocked env s' T ∧ Logged t.log 0 s'.dev.trace) :
    Rep env s' t := by
  obtain ⟨refs, lost, hf, hclean⟩ := h.filled
  obtain ⟨hkept, hst, hlog⟩ := hk _ hf.stocked
  have hb := hkept.beside
  refine ⟨⟨refs, lost, ⟨?_, ?_⟩, hclean⟩, ?_, ?_, ?_, ?_, ?_, ?_, ?_, ?_, ?_, hlog, ?_⟩
  · rw [hb.inodes]
    exact fun id hid => (hf.laid id hid).mono fun r b _ hr => hkept.names r b hr
  · rw [hb.inodes]
    exact hst
  · rw [hb.inodes]
    exact h.nodes
  · rw [hb.inodes]
    exact h.cap
  · rw [hb.inodes]
    exact h.count
  · rw [hb.inodes]
    exact h.cap_lt
  · rw [hb.nextInode]
    exact h.next
  · rw [hb.freeInodes]
    exact h.free
  · intro id
    rw [h.opens, FS.openCountOf, FS.openCountOf, hb.openCount]
  · rw [hb.ticks]
    exact h.ticks
  · rw [hb.orders]
    exact h.orders
  · rw [hb.dirCache, hb.inodes]
    exact h.cache

theorem commit_rep (h : Rep env s t) :
    Sat (commit env) s (fun _ s' => Rep env s' t) (fun _ s' => Rep env s' t) := by
  rw [sat_iff]
  refine ⟨fun _ s' hrun => ?_, fun _ s' hrun => ?_⟩
  · exact h.of_kept fun T hst => (commit_stocked hst h.logged).ok hrun
  · exact h.of_kept fun T hst => ((commit_stocked hst h.logged).error hrun).1

/-! ## One call -/

/-- What the machine does for a call of a session.  The calls it does not answer
leave it where it is. -/
inductive Ran (env : Env) (handles : List Handle) (t : State) (op : Op) : Outcome → State → Prop
  | answered {r : Reply} {t' : State} (hop : Answers op)
      (h : (planOf env handles op).1 t = .ok r t') : Ran env handles t op (.ok r) t'
  | failed {e : Fs.Error} {t' : State} (hop : Answers op)
      (h : (planOf env handles op).1 t = .error (.err e) t') :
      Ran env handles t op (.error (.err e)) t'
  | beside {out : Outcome} (hop : ¬ Answers op) : Ran env handles t op out t

/-- The call did not return, or the store refused a block and gave up. -/
def Stopped (out : Outcome) (s : FS) : Prop :=
  ∃ f, out = .error f ∧
    ((∀ e, f ≠ .err e) ∨ .refused ∈ s.dev.trace ∧ ∃ e, f = .err e ∧ e.Storage)

theorem query_state {α : Type} {f : FS → Except (Fault Fs.Error) α} {g : α → Reply} :
    Sat (g <$> query env f : Act env Reply).1 s (fun _ s' => s' = s) (fun _ s' => s' = s) :=
  sat_map (sat_get_bind (sat_ofExcept (fun _ _ => rfl) (fun _ _ => rfl)))

theorem exec_rep (hl : env.Lawful) (h : Rep env s t) {handles : List Handle} (hr : Ready t handles)
    {op : Op} (hop : op.InSession) (hap : Apart t op) :
    Sat (execOf env handles op) s
      (fun r s' => InPlay env s'.dev.trace → ∃ t', Ran env handles t op (.ok r) t' ∧ Rep env s' t')
      (fun f s' => InPlay env s'.dev.trace →
        (∃ t', Ran env handles t op (.error f) t' ∧ Rep env s' t') ∨ Stopped (.error f) s') := by
  have hact : Answers op → Sat (actOf env handles op).1 s
      (fun r s' => InPlay env s'.dev.trace → ∃ t', Ran env handles t op (.ok r) t' ∧ Rep env s' t')
      (fun f s' => InPlay env s'.dev.trace →
        (∃ t', Ran env handles t op (.error f) t' ∧ Rep env s' t') ∨ Stopped (.error f) s') := by
    intro hans
    refine Sat.mono (act_sim (B := .unbounded) hl h hr.toSane handles hans hap trivial) ?_ ?_
    · intro r s' hq hplay
      obtain ⟨b, t', hrun, rfl, hrep⟩ := hq (Budget.not_broken_of_inPlay hplay)
      exact ⟨t', .answered hans hrun, hrep⟩
    · intro f s' hq hplay
      cases hq (Budget.not_broken_of_inPlay hplay) with
      | same t' hrun hrel =>
        cases f with
        | err e => exact .inl ⟨t', .failed hans hrun, hrel ⟨e, rfl⟩⟩
        | panic => exact .inr ⟨_, rfl, .inl fun _ h => by cases h⟩
        | hang => exact .inr ⟨_, rfl, .inl fun _ h => by cases h⟩
      | halt hh =>
        cases hh with
        | refused l _ href _ hkind =>
          refine .inr ⟨_, rfl, ?_⟩
          cases f with
          | err e => exact .inr ⟨href, e, rfl, hkind e rfl⟩
          | panic => exact .inl fun _ h => by cases h
          | hang => exact .inl fun _ h => by cases h
        | saturated => exact .inr ⟨_, rfl, .inl fun _ h => by cases h⟩
  cases op with
  | remount => exact hop.elim
  | commit =>
    refine sat_map ((commit_rep h).mono ?_ ?_)
    · exact fun _ s' hrep _ => ⟨t, .beside fun h => h, hrep⟩
    · exact fun _ s' hrep _ => .inl ⟨t, .beside fun h => h, hrep⟩
  | statfs =>
    refine query_state.mono ?_ ?_
    · rintro r _ rfl _
      exact ⟨t, .beside fun h => h, h⟩
    · rintro r _ rfl _
      exact .inl ⟨t, .beside fun h => h, h⟩
  | fallocate id length =>
    refine query_state.mono ?_ ?_
    · rintro r _ rfl _
      exact ⟨t, .beside fun h => h, h⟩
    · rintro r _ rfl _
      exact .inl ⟨t, .beside fun h => h, h⟩
  | _ => exact hact trivial

def succeeded : Outcome → Bool
  | .ok _ => true
  | .error _ => false

theorem perform_rep (hl : env.Lawful) {s s' : Session} {op : Op} {out : Outcome}
    (h : Rep env s.fs t) (hr : Ready t s.handles) (hop : op.InSession) (hap : Apart t op)
    (hplay : InPlay env s'.fs.dev.trace) (does : perform env op s = (out, s')) :
    s'.handles = handlesAfter op (succeeded out) s.handles ∧
      ((∃ t', Ran env s.handles t op out t' ∧ Rep env s'.fs t') ∨ Stopped out s'.fs) := by
  have hexec := exec_rep hl h hr hop hap
  rw [perform_eq_call hop, call] at does
  cases hx : execOf env s.handles op s.fs with
  | ok r fs =>
    rw [hx] at does
    cases does
    exact ⟨rfl, .inl (hexec.ok hx hplay)⟩
  | error f fs =>
    rw [hx] at does
    cases does
    exact ⟨rfl, hexec.error hx hplay⟩

/-! ## What the caller sees -/

section Observe

variable {handles : List Handle} {gone : Nat → Nat}

theorem Rep.entriesOf (hl : env.Lawful) (h : Rep env s t) (hn : Neat t) (id : Nat) :
    s.entriesOf env id = if id < t.cap ∧ (t.node id).isDir then (t.node id).entries else [] := by
  unfold FS.entriesOf
  rw [h.readDirPages hl hn]
  by_cases hid : t.cap ≤ id
  · rw [if_pos hid, if_neg (fun hand => absurd hand.1 (Nat.not_lt.mpr hid))]
    rfl
  · rw [if_neg hid]
    by_cases hd : (t.node id).isDir
    · rw [if_neg (not_not.mpr hd), if_pos ⟨Nat.not_le.mp hid, hd⟩]
      rfl
    · rw [if_pos hd, if_neg (fun hand => hd hand.2)]
      rfl

theorem Rep.mem_entriesOf (hl : env.Lawful) (h : Rep env s t) (hn : Neat t) {id : Nat}
    {e : DirEntry} :
    e ∈ s.entriesOf env id ↔ id < t.cap ∧ (t.view.node id).isDir ∧
        e ∈ (t.view.node id).entries := by
  rw [h.entriesOf hl hn]
  by_cases hd : id < t.cap ∧ (t.node id).isDir
  · rw [if_pos hd]
    exact ⟨fun he => ⟨hd.1, hd.2, he⟩, fun he => he.2.2⟩
  · rw [if_neg hd]
    exact ⟨fun he => absurd he List.not_mem_nil, fun he => absurd ⟨he.1, he.2.1⟩ hd⟩

theorem Rep.inUse (h : Rep env s t) {id : Nat} : s.InUse id ↔ t.view.Used id := by
  unfold FS.InUse View.Used
  rw [show t.view.next = s.ub.nextInode.toNat from h.next,
    show t.view.free = s.freeInodes from h.free]

theorem Rep.isDir (h : Rep env s t) {id : Nat} :
    s.IsDir id ↔ id < t.cap ∧ (t.view.node id).isDir := by
  unfold FS.IsDir
  rw [h.cap]
  refine and_congr_right fun hid => ?_
  rw [(h.nodes id hid).kind]
  rfl

theorem Rep.nameCount (hl : env.Lawful) (h : Rep env s t) (hn : Neat t) (id : Nat) :
    s.nameCount env id = t.view.names id := by
  unfold FS.nameCount View.names
  rw [← h.cap]
  refine Finset.sum_congr rfl fun d hd => ?_
  have hd := Finset.mem_range.mp hd
  rw [h.entriesOf hl hn]
  by_cases hdir : (t.node d).isDir
  · rw [if_pos ⟨hd, hdir⟩]
    exact (Outline.naming_of_dir (o := t.view.node d) hdir id).symm
  · rw [if_neg fun hand => hdir hand.2]
    exact (Outline.naming_of_file (o := t.view.node d) hdir id).symm

theorem Rep.fair (hl : env.Lawful) (h : Rep env s t) (hn : Neat t) {op : Op} :
    Fair t.view op ↔ op.Current s ∧ op.Aside env s := by
  cases op with
  | link parent name target => exact h.inUse.symm.trans (and_iff_left trivial).symm
  | openFile id => exact h.inUse.symm.trans (and_iff_left trivial).symm
  | rename src sn dst dn =>
    refine ⟨fun hf => ⟨trivial, fun hsrc e he hname => ?_⟩, fun ha hp hs hq hd old hold => ?_⟩
    · obtain ⟨hq, hd, he⟩ := (h.mem_entriesOf hl hn).mp he
      obtain ⟨hp, hs⟩ := h.isDir.mp hsrc
      subst hname
      exact hf hp hs hq hd e.inode he
    · exact ha.2 (h.isDir.mpr ⟨hp, hs⟩) _ ((h.mem_entriesOf hl hn).mpr ⟨hq, hd, hold⟩) rfl
  | _ => exact ⟨fun _ => ⟨trivial, trivial⟩, fun _ => trivial⟩

theorem Rep.spares (hl : env.Lawful) (h : Rep env s t) (hn : Neat t) (hs : Slots t.view handles)
    {op : Op} (hop : op.Sparing env s) : Spares t.view op := by
  cases op with
  | rename src sn dst dn =>
    intro hq hd old hold hsrc hdir
    refine hop _ ((h.mem_entriesOf hl hn).mpr ⟨hq, hd, hold⟩) rfl (fun hmem => ?_)
      (h.isDir.mpr ⟨(hs.used_of_dir hdir).lt hs, hdir⟩)
    exact hsrc ((h.mem_entriesOf hl hn).mp hmem).2.2
  | _ => exact trivial

end Observe

/-! ## Runs -/

/-- The histories a statement is about: no collision in them, and no call that was
stopped. -/
structure Calls (env : Env) (P : Session → Op → Outcome → Prop) (G : List Event → Prop) : Prop where
  play : ∀ tr, G tr → InPlay env tr
  of_prefix : ∀ tr tr', tr <+: tr' → G tr' → G tr
  returns : ∀ s op out fs, P s op out → G fs.dev.trace → ¬ Stopped out fs
  session : ∀ s op out, P s op out → op.InSession

theorem calls_succeed {P : Session → Op → Outcome → Prop}
    (hP : ∀ s op out, P s op out → op.InSession ∧ Succeeds out) : Calls env P (InPlay env) where
  play _ h := h
  of_prefix _ _ hpre h := h.of_subset hpre.subset
  returns s op out fs hp _ := by
    rintro ⟨f, rfl, -⟩
    obtain ⟨r, hr⟩ := (hP s op _ hp).2
    cases hr
  session s op out hp := (hP s op out hp).1

theorem calls_return {P : Session → Op → Outcome → Prop}
    (hP : ∀ s op out, P s op out → op.InSession ∧ Returns out) :
    Calls env P (fun tr => InPlay env tr ∧ .refused ∉ tr) where
  play _ h := h.1
  of_prefix _ _ hpre h := ⟨h.1.of_subset hpre.subset, fun hm => h.2 (hpre.subset hm)⟩
  returns s op out fs hp hg := by
    rintro ⟨f, rfl, hstop⟩
    rcases (hP s op _ hp).2 with ⟨r, hr⟩ | ⟨e, he⟩
    · cases hr
    · cases he
      rcases hstop with hstop | hstop
      · exact hstop e rfl
      · exact hg.2 hstop.1
  session s op out hp := (hP s op out hp).1

/-- Runs of calls that return and do not fail in the store. -/
theorem calls_stored {P : Session → Op → Outcome → Prop}
    (hP : ∀ s op out, P s op out → op.InSession ∧ Returns out ∧
      ∀ e, out = .error (.err e) → ¬ e.Storage) : Calls env P (InPlay env) where
  play _ h := h
  of_prefix _ _ hpre h := h.of_subset hpre.subset
  returns s op out fs hp _ := by
    rintro ⟨f, rfl, hstop⟩
    rcases hstop with hstop | ⟨-, e, rfl, hkind⟩
    · rcases (hP s op _ hp).2.1 with ⟨r, hr⟩ | ⟨e, he⟩
      · cases hr
      · cases he
        exact hstop e rfl
    · exact (hP s op _ hp).2.2 e rfl hkind
  session s op out hp := (hP s op out hp).1

theorem trace_grows {op : Op} (hop : op.InSession) {s s' : Session} {out : Outcome}
    (does : perform env op s = (out, s')) : s.fs.dev.trace <+: s'.fs.dev.trace := by
  have hlast : Lasting (s.fs.dev.trace <+: ·) := fun _ _ hpre h => h.trans hpre
  exact (lasting_closed hlast).of_perform (lasting_commit hlast) hop does (List.prefix_refl _)

theorem root_of_run {D : Disk → Prop} {P : Session → Op → Outcome → Prop}
    (hP : ∀ s op out, P s op out → op.InSession) {past : List Session} {s : Session}
    (run : Run env D P past s) : s.fs.ub.rootInode = 0 := by
  induction run with
  | start blank _ run => exact (formatted_of_ok blank run).rootId
  | @step past s s' op out _ does hp ih =>
    have hsteady := (steady_closed s.fs).of_perform (steady_commit s.fs)
      (hP s op out hp) does (.refl _)
    exact hsteady.root.trans ih

theorem creates_of_makes {op : Op} (h : op.Makes) :
    Answers op ∧ op.InSession ∧ ∃ x, creates op = some x := by
  cases op with
  | mkdir | create | symlink => exact ⟨trivial, trivial, _, rfl⟩
  | _ => exact h.elim

/-- A call changes the view by one step of the machine, or leaves it alone. -/
theorem perform_change (hl : env.Lawful) {s s' : Session} {op : Op} {out : Outcome}
    (h : Rep env s.fs t)
    (hr : Ready t s.handles) (hop : op.InSession) (hap : Apart t op)
      (hplay : InPlay env s'.fs.dev.trace)
    (hgo : ¬ Stopped out s'.fs) (does : perform env op s = (out, s')) :
    ∃ t', Ran env s.handles t op out t' ∧ Rep env s'.fs t' ∧
      ((∃ r, out = .ok r ∧ Change s.handles t.view op r t'.view ∧
        s'.handles = handlesAfter op true s.handles) ∨
      t'.view = t.view ∧ s'.handles = s.handles ∧ (¬ Answers op ∨ ∃ f, out = .error f)) := by
  obtain ⟨hhandles, ⟨t', hran, hrep'⟩ | hstop⟩ := perform_rep hl h hr hop hap hplay does
  · refine ⟨t', hran, hrep', ?_⟩
    cases hran with
    | answered hans hrun => exact .inl ⟨_, rfl, (planOf_change hl hr hans).ok hrun, hhandles⟩
    | failed hans hrun =>
      obtain ⟨hview, hsame⟩ := planOf_error hl hr hans hrun
      exact .inr ⟨hview, hhandles.trans hsame, .inr ⟨_, rfl⟩⟩
    | beside hno =>
      refine .inr ⟨rfl, hhandles.trans ?_, .inl hno⟩
      cases op with
      | openFile => exact absurd trivial hno
      | close => exact absurd trivial hno
      | _ => rfl
  · exact absurd hstop hgo

/-- An invariant of the view that every permitted change keeps holds along every
run. -/
theorem lift {D : Disk → Prop} {P : Session → Op → Outcome → Prop} {G : List Event → Prop}
    {J : View → List Handle → Prop} (hl : env.Lawful) (hc : Calls env P G)
    (hstart : J (fresh env).view []) (hready : ∀ t handles, J t.view handles → Ready t handles)
    (hstep : ∀ past s t op out, Run env D P past s → P s op out → Rep env s.fs t →
      J t.view s.handles → Apart t op ∧
        ∀ r v', Change s.handles t.view op r v' → J v' (handlesAfter op true s.handles))
    {past : List Session} {s : Session} (run : Run env D P past s) (hg : G s.fs.dev.trace) :
    ∃ t, Rep env s.fs t ∧ J t.view s.handles := by
  induction run with
  | start blank _ run => exact ⟨fresh env, rep_of_formatted (formatted_of_ok blank run), hstart⟩
  | @step past s s' op out run does hp ih =>
    have hop := hc.session s op out hp
    obtain ⟨t, hrep, hj⟩ := ih (hc.of_prefix _ _ (trace_grows hop does) hg)
    obtain ⟨hap, hkeep⟩ := hstep past s t op out run hp hrep hj
    obtain ⟨t', -, hrep', hchange | ⟨hview, hhandles, -⟩⟩ :=
      perform_change hl hrep (hready t _ hj) hop hap
      (hc.play _ hg) (hc.returns s op out _ hp hg) does
    · obtain ⟨r, -, hchange, hhandles⟩ := hchange
      refine ⟨t', hrep', ?_⟩
      rw [hhandles]
      exact hkeep r _ hchange
    · refine ⟨t', hrep', ?_⟩
      rw [hview, hhandles]
      exact hj

end Refine
end BloomFS
