/-
Mounts after a commit.

What a mount reads back is what was committed, so the machine goes on with the same
nodes.  It has no handles, and its free list is made from the slots without links.
-/
import BloomFS.Fs.Life
import BloomFS.Refine.Run
import BloomFS.Spec.Count
import BloomFS.Spec.Generations

namespace BloomFS
namespace Refine

open Bytes Exec Block Dir Fs Store Spec

variable {env : Env} {s s₁ s₂ : FS} {t : State}

/-- The blocks after a mount: the same entries on the same device, under a bitmap that
has not applied the deferred frees. -/
theorem stocked_of_reload {r : Cow.Uberblock × Alloc.Bitmap × Dedup.Table × Inode.Table}
    {ticks orders : Nat} {T : Multiset Dedup.Key} (hc : Committed env s s₁)
    (hr : Cow.Reads ⟨s.nextUber, s.bm, s.ddt, s.inodes⟩ r) (hs : Stocked env s T)
    (hs₁ : Stocked env s₁ T) : Stocked env (mounted s₁.dev s.bs ticks orders r) T := by
  have hub : r.1 = s₁.ub := hr.ub.trans hc.ub.symm
  have hds : s₁.ub.dataStart = s.ub.dataStart := by
    rw [hc.ub]
    rfl
  have hddt : ∀ k, r.2.2.1.lookup k = s₁.pool.ddt.lookup k := by
    intro k
    rw [hr.ddt, show s₁.pool.ddt = s.ddt by unfold FS.pool; rw [hc.rest]]
  have hbs : s₁.bs = s.bs := by rw [hc.rest]
  obtain ⟨tail, -, hx⟩ := hc.dev
  refine ⟨⟨?_, fun k => ?_, fun k e he => ?_, fun k e he => ?_⟩, ?_, hs₁.card, fun i hi hb => ?_,
    fun hm => ?_, ?_⟩
  · obtain ⟨L, hsp⟩ := hs.stock.space
    show ∃ L, Space r.1.dataStart.toNat L _
    rw [hub, hds]
    exact ⟨_, hsp.of_reload hr.counted hr.total hr.deferred hr.bits hr.ddt⟩
  · rw [← hs₁.stock.refs k]
    unfold Dedup.Table.refs
    rw [show (mounted s₁.dev s.bs ticks orders r).pool.ddt.lookup k = _ from hddt k]
  · exact hs₁.stock.positive k e ((hddt k).symm.trans he)
  · rw [← hbs]
    exact hs₁.stock.stored k e ((hddt k).symm.trans he)
  · show r.1.Placed _
    rw [hub]
    exact hs₁.placed
  · have hi : i < s.bm.total := hr.total ▸ hi
    have hlt := hs.below i hi ((hr.bits i hi).symm.trans hb)
    show i < r.1.dataStart.toNat + cost s₁.dev.trace
    rw [hub, hds, hx.trace, cost_append]
    omega
  · intro hl hst hd
    have := hs₁.refused hm hl hst hd
    show s₁.dev.blocks < r.1.dataStart.toNat + _
    rw [hub]
    exact this
  · exact hr.total.trans (hs.total.trans hx.blocks.symm)

theorem rebuild_eq (h : Rep env s t) : rebuildFreeInodes s.inodes = t.reopen.free := by
  unfold rebuildFreeInodes State.reopen
  dsimp only
  rw [h.count]
  congr 1
  refine List.filter_congr fun id hid => ?_
  have hlt : id < s.inodes.cap := (List.mem_range.mp hid).trans_le s.inodes.count_le
  rw [(h.nodes id hlt).nlink]

/-- A mount that reads back what was committed goes on where the machine was. -/
theorem Rep.reload (h : Rep env s t) (hrun : commit env s = .ok () s₁)
    {r : Cow.Uberblock × Alloc.Bitmap × Dedup.Table × Inode.Table}
    (hreads : Cow.Reads ⟨s.nextUber, s.bm, s.ddt, s.inodes⟩ r) (ticks orders : Nat) :
    Rep env (mounted s₁.dev s.bs ticks orders r)
      { t.reopen with ticks := ticks, orders := orders } := by
  have hc : Committed env s s₁ := (commit_sat s).ok hrun
  have h₁ : Rep env s₁ t := (commit_rep h).ok hrun
  have htbl : r.2.2.2 = s.inodes := hreads.tbl
  have hub : r.1 = s₁.ub := hreads.ub.trans hc.ub.symm
  obtain ⟨refs, lost, hf, hclean⟩ := h.filled
  have hnames : ∀ q b, Names env s₁ q b → Names env (mounted s₁.dev s.bs ticks orders r) q b := by
    rintro q b ⟨e, he, hq, hst⟩
    refine ⟨e, ?_, hq, ?_⟩
    · show r.2.2.1.lookup q.hash = some e
      rw [hreads.ddt, ← he]
      show s.ddt.lookup _ = s₁.ddt.lookup _
      rw [hc.rest]
    · have hbs₁ : s₁.bs = s.bs := by rw [hc.rest]
      rw [← hbs₁]
      exact hst
  obtain ⟨hkept, hst₁, -⟩ := (commit_stocked hf.stocked h.logged).ok hrun
  refine ⟨⟨refs, lost, ⟨fun id hid => ?_, ?_⟩, hclean⟩, ?_, ?_, ?_, ?_, ?_, ?_,
    fun _ => rfl, rfl, rfl, h₁.logged, ?_⟩
  · show Laid _ (r.2.2.2.slots id) _ _
    have hid : id < r.2.2.2.cap := hid
    rw [htbl] at hid ⊢
    exact (hf.laid id hid).mono fun q b _ hq => hnames q b (hkept.names q b hq)
  · show Stocked env _ (total r.2.2.2 refs + lost)
    rw [htbl]
    exact stocked_of_reload hc hreads hf.stocked hst₁
  · show ∀ id, id < r.2.2.2.cap → Mirrors (r.2.2.2.slots id) (t.node id)
    rw [htbl]
    exact h.nodes
  · exact h.cap.trans (congrArg Inode.Table.cap htbl.symm)
  · exact h.count.trans (congrArg Inode.Table.count htbl.symm)
  · show r.2.2.2.cap < 2 ^ 64
    rw [htbl]
    exact h.cap_lt
  · show t.next = r.1.nextInode.toNat
    rw [hub]
    exact h₁.next
  · show t.reopen.free = rebuildFreeInodes r.2.2.2
    rw [htbl, rebuild_eq h]
  · intro c hc id hd hlook
    cases hc
    cases hlook

/-- A mount after a commit goes on where the machine was. -/
theorem Rep.reopen (h : Rep env s t) (hheld : Fs.Held env s) (hrun : commit env s = .ok () s₁)
    (hm : mount env s.bs.key s₁.ticks s₁.orders s₁.dev = .ok s₂) : Rep env s₂ t.reopen := by
  have h₁ : Rep env s₁ t := (commit_rep h).ok hrun
  obtain ⟨r, bs, hbs, rfl, hreads⟩ := hheld.reload ((commit_sat s).ok hrun) hm
  rw [new_of_key] at hbs
  cases hbs
  have hrep := h.reload hrun hreads s₁.ticks s₁.orders
  rw [← h₁.ticks, ← h₁.orders] at hrep ⊢
  exact hrep

/-! ## Runs over several sessions -/

/-- The inode that an operation made, with its generation. -/
def bornOf (op : Op) (r : Reply) (v' : View) : List (Nat × Nat) :=
  (op.made (.ok r)).toList.map fun id => (id, v'.generation id)

theorem births_eq {s' : Session} {t' : State} {handles : List Handle} {v : View}
    {op : Op} {r : Reply} (hrep : Rep env s'.fs t') (hc : Change handles v op r t'.view) :
    births op (.ok r) s' = bornOf op r t'.view := by
  unfold births bornOf
  refine List.map_congr_left fun id hid => ?_
  obtain ⟨hmakes, hr⟩ := makes_of_made (Option.mem_toList.mp hid)
  cases hr
  obtain ⟨-, -, x, hx⟩ := creates_of_makes hmakes
  obtain ⟨i, hi, hmade⟩ := hc.created hx
  cases hi
  have hlt : id < s'.fs.inodes.cap := by
    rw [← hrep.cap]
    exact hmade.id_lt
  rw [(hrep.nodes id hlt).generation]
  rfl

/-- Only an operation that the machine answers makes an inode. -/
theorem made_of_quiet {op : Op} {out : Outcome} (h : ¬ Answers op ∨ ∃ f, out = .error f) :
    op.made out = none := by
  rw [Option.eq_none_iff_forall_ne_some]
  intro id hid
  obtain ⟨hmakes, rfl⟩ := makes_of_made hid
  rcases h with h | ⟨f, hf⟩
  · exact h (creates_of_makes hmakes).1
  · cases hf

theorem dated_step {born : List (Nat × Nat)} {v v' : View} {handles : List Handle}
    {op : Op} {r : Reply}
    (h : Dated born v) (hc : Change handles v op r v') (ho : Orderly v handles) (hf : Fair v op) :
    Dated (born ++ bornOf op r v') v' := by
  obtain ⟨hs, gone, hn⟩ := ho
  unfold bornOf
  cases hmade : op.made (.ok r) with
  | none =>
    rw [Option.toList_none, List.map_nil, List.append_nil]
    exact h.mono (hc.ages hs hn hf)
  | some id =>
    obtain ⟨hmakes, hr⟩ := makes_of_made hmade
    cases hr
    obtain ⟨-, -, x, hx⟩ := creates_of_makes hmakes
    obtain ⟨i, hi, hcreated⟩ := hc.created hx
    cases hi
    exact h.create hcreated hs

variable {P : Session → Op → Outcome → Prop} {R : Session → Prop} {G : List Event → Prop}

theorem root_of_life {born : List (Nat × Nat)} {s : Session}
    (life : Life env Cow.MetaSound P R born s) : s.fs.ub.rootInode = 0 := by
  induction life with
  | start blank _ run => exact (formatted_of_ok blank run).rootId
  | @call born s s' op out _ does hop _ ih =>
    exact ((steady_closed s.fs).of_perform (steady_commit s.fs) hop does (.refl _)).root.trans ih
  | @reopen born s s₁ s₂ life commits mounts _ ih =>
    obtain ⟨hrun, -⟩ := perform_commit commits ⟨_, rfl⟩
    obtain ⟨hmount, -⟩ := perform_remount mounts
    obtain ⟨r, bs, -, hfs, hreads⟩ :=
      (life.held fun _ h => h).reload ((commit_sat s.fs).ok hrun) hmount
    rw [hfs]
    show r.1.rootInode = 0
    rw [hreads.ub]
    exact ih

theorem Ran.level {handles : List Handle} {t' : State} {op : Op} {out : Outcome} (hl : env.Lawful)
    (h : Ran env handles t op out t') (ho : Orderly t.view handles)
    (hsub : ∀ id ∈ op.subjects, id < t.next) (hlev : t.count = t.next) : t'.count = t'.next := by
  cases h with
  | answered _ hrun => exact (planOf_flat hl ho hlev hsub).ok hrun
  | failed _ hrun => exact (planOf_flat hl ho hlev hsub).error hrun _ rfl
  | beside => exact hlev

/-- A call that is not stopped, with the slots in step. -/
theorem Rep.call (hl : env.Lawful) {s s' : Session} {op : Op} {out : Outcome}
    (hrep : Rep env s.fs t)
    (ho : Orderly t.view s.handles) (hlev : t.count = t.next) (hop : op.InSession)
      (hap : Apart t op)
    (hlive : ∀ id ∈ op.subjects, s.fs.InUse id) (hplay : InPlay env s'.fs.dev.trace)
    (hgo : ¬ Stopped out s'.fs) (does : perform env op s = (out, s')) :
    ∃ t', Rep env s'.fs t' ∧ t'.count = t'.next ∧
      ((∃ r, out = .ok r ∧ Change s.handles t.view op r t'.view ∧
        s'.handles = handlesAfter op true s.handles) ∨
      t'.view = t.view ∧ s'.handles = s.handles ∧ (¬ Answers op ∨ ∃ f, out = .error f)) := by
  obtain ⟨t', hran, hrep', hwhat⟩ := perform_change hl hrep ho.ready hop hap hplay hgo does
  have hsub : ∀ id ∈ op.subjects, id < t.next := fun id hid => (hrep.inUse.mp (hlive id hid)).1
  exact ⟨t', hrep', hran.level hl ho hsub hlev, hwhat⟩

/-- The end of a session and the mount after it. -/
theorem Rep.remount {s s₁ s₂ : Session} (hrep : Rep env s.fs t) (held : Fs.Held env s.fs)
    (commits : perform env .commit s = (.ok .unit, s₁))
    (mounts : perform env (.remount s.fs.bs.key) s₁ = (.ok .unit, s₂)) :
    Rep env s₂.fs t.reopen ∧ s₂.handles = [] := by
  obtain ⟨hrun, -⟩ := perform_commit commits ⟨_, rfl⟩
  obtain ⟨hmount, hhandles⟩ := perform_remount mounts
  exact ⟨hrep.reopen held hrun hmount, hhandles⟩

theorem trace_grows_remount {s s₁ s₂ : Session} {key : Option Bytes}
    (commits : perform env .commit s = (.ok .unit, s₁))
    (mounts : perform env (.remount key) s₁ = (.ok .unit, s₂)) :
        s.fs.dev.trace <+: s₂.fs.dev.trace := by
  obtain ⟨hmount, -⟩ := perform_remount mounts
  obtain ⟨r, bs, -, -, hfs⟩ := mount_ok hmount
  have hdev : s₂.fs.dev = s₁.fs.dev := by
    rw [hfs]
    rfl
  rw [hdev]
  exact trace_grows (show Op.InSession .commit from trivial) commits

/-- An invariant of the view that every permitted change and every permitted remount
keep holds in every session, if the calls are given ids that are handed out. -/
theorem lift_life {J : List (Nat × Nat) → View → List Handle → Prop} (hl : env.Lawful)
    (hc : Calls env P G) (hlive : ∀ s op out, P s op out → ∀ id ∈ op.subjects, s.fs.InUse id)
    (hstart : J [] (fresh env).view []) (hord : ∀ born v handles, J born v handles →
      Orderly v handles)
    (hstep : ∀ born s t op out, Life env Cow.MetaSound P R born s → P s op out → Rep env s.fs t →
      J born t.view s.handles → Apart t op ∧ ∀ r v', Change s.handles t.view op r v' →
        J (born ++ bornOf op r v') v' (handlesAfter op true s.handles))
    (hreopen : ∀ born s t, Life env Cow.MetaSound P R born s → R s → Rep env s.fs t →
      J born t.view s.handles → t.count = t.next → J born t.reopen.view [])
    {born : List (Nat × Nat)} {s : Session} (life : Life env Cow.MetaSound P R born s)
    (hg : G s.fs.dev.trace) : ∃ t, Rep env s.fs t ∧ J born t.view s.handles ∧ t.count = t.next := by
  induction life with
  | start blank _ run =>
    exact ⟨fresh env, rep_of_formatted (formatted_of_ok blank run), hstart, rfl⟩
  | @call born s s' op out life does hop hp ih =>
    obtain ⟨t, hrep, hj, hlev⟩ := ih (hc.of_prefix _ _ (trace_grows hop does) hg)
    obtain ⟨hap, hkeep⟩ := hstep born s t op out life hp hrep hj
    obtain ⟨t', hrep', hlev', hwhat⟩ :=
      hrep.call hl (hord _ _ _ hj) hlev hop hap (hlive s op out hp)
      (hc.play _ hg) (hc.returns s op out _ hp hg) does
    refine ⟨t', hrep', ?_, hlev'⟩
    rcases hwhat with ⟨r, rfl, hchange, hhandles⟩ | ⟨hview, hhandles, hno⟩
    · rw [births_eq hrep' hchange, hhandles]
      exact hkeep r _ hchange
    · have hnone : births op out s' = [] := by
        unfold births
        rw [made_of_quiet hno]
        rfl
      rw [hnone, List.append_nil, hview, hhandles]
      exact hj
  | @reopen born s s₁ s₂ life commits mounts hr ih =>
    obtain ⟨t, hrep, hj, hlev⟩ := ih (hc.of_prefix _ _ (trace_grows_remount commits mounts) hg)
    obtain ⟨hrep', hhandles⟩ := hrep.remount (life.held fun _ h => h) commits mounts
    refine ⟨t.reopen, hrep', ?_, hlev⟩
    rw [hhandles]
    exact hreopen born s t life hr hrep hj hlev

end Refine
end BloomFS
