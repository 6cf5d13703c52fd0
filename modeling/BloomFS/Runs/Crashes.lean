/-
Runs with crashes.

The device may stop after any call that reaches it, in the middle of an operation or of a
commit, any number of times.  Until the next uberblock is written, a mount goes on from the
last commit: the directories and the files are what they were then, and the calls after
the mount go on from there.

A device that comes back is described by its image.  The history it is given is the one of
the last commit with the writes since: the blocks that were hashed since are forgotten with
the refs to them.
-/
import BloomFS.Runs.Names
import BloomFS.Runs.Contents
import BloomFS.Runs.Durable

namespace BloomFS
namespace Block

def Event.isWrite : Event → Bool
  | .write _ _ _ => true
  | _ => false

theorem replay_filter (image : Nat → Bytes) (es : List Event) :
    replay image (es.filter Event.isWrite) = replay image es := by
  induction es generalizing image with
  | nil => rfl
  | cons e es ih =>
    cases e with
    | write o n left => exact ih _
    | sync => exact ih image
    | hash p => exact ih image
    | refused => exact ih image

/-- The first writes are the writes among some first events. -/
theorem take_filter_write (es : List Event) (i : Nat) :
    ∃ j, j ≤ es.length ∧ (es.filter Event.isWrite).take i = (es.take j).filter Event.isWrite := by
  induction es generalizing i with
  | nil => exact ⟨0, le_rfl, List.take_nil⟩
  | cons e es ih =>
    cases hw : e.isWrite with
    | true =>
      rw [List.filter_cons_of_pos hw]
      cases i with
      | zero => exact ⟨0, Nat.zero_le _, rfl⟩
      | succ i =>
        obtain ⟨j, hj, heq⟩ := ih i
        refine ⟨j + 1, Nat.succ_le_succ hj, ?_⟩
        rw [List.take_succ_cons, List.take_succ_cons, List.filter_cons_of_pos hw, heq]
    | false =>
      have hneg : ¬ e.isWrite = true := by simp [hw]
      obtain ⟨j, hj, heq⟩ := ih i
      refine ⟨j + 1, Nat.succ_le_succ hj, ?_⟩
      rw [List.filter_cons_of_neg hneg, List.take_succ_cons, List.filter_cons_of_neg hneg, heq]

/-- The device `d` of a commit when it comes back, after the calls `es` reached it.  Its
next call has number `calls`. -/
def Disk.restart (d : Disk) (es : List Event) (calls : Nat) : Disk :=
  { d with image := replay d.image es, calls := calls, trace := d.trace ++ es.filter Event.isWrite }

theorem Disk.restart_extends (d : Disk) (es : List Event) (calls : Nat) :
    Disk.Extends d (d.restart es calls) (es.filter Event.isWrite) :=
  ⟨rfl, rfl, rfl, (replay_filter d.image es).symm⟩

end Block

namespace Fs

open Bytes Exec Block Store

variable {env : Env}

/-! ## The chain of commits -/

section Chain

variable {d d₂ : Disk} {k₀ : Nat} {C C₂ : Nat → Cow.Commit} {es : List Event}

/-- The events after a commit in the history of a later device. -/
theorem getElem?_since (hes : d.trace ++ es <+: d₂.trace) {j : Nat} (hj : j < es.length) :
    d₂.trace[d.trace.length + j]? = es[j]? := by
  obtain ⟨rest, hrest⟩ := hes
  rw [← hrest, List.append_assoc, List.getElem?_append_right (Nat.le_add_right _ _),
    Nat.add_sub_cancel_left, List.getElem?_append_left hj]

theorem notMem_uber_since (hes : d.trace ++ es <+: d₂.trace) (hno : ∀ m b, .write .uber m b ∉ es)
    {j : Nat}
    (hj : j ≤ es.length) (k m : Nat) (b : Bytes) (hk : d.trace.length ≤ k)
      (hlt : k < d.trace.length + j) :
    d₂.trace[k]? ≠ some (.write .uber m b) := by
  intro hev
  obtain ⟨i, rfl⟩ := Nat.exists_eq_add_of_le hk
  rw [getElem?_since hes (by omega)] at hev
  exact hno m b (List.mem_of_getElem? hev)

theorem image_since (hd : d.Consistent) (hes : d.trace ++ es <+: d₂.trace) {j : Nat}
    (hj : j ≤ es.length) :
    (d₂.crashAt (d.trace.length + j)).image = replay d.image (es.take j) := by
  obtain ⟨rest, hrest⟩ := hes
  show replay _ (d₂.trace.take (d.trace.length + j)) = _
  rw [← hrest, List.append_assoc, List.take_length_add_append, List.take_append_of_le_length hj,
    replay_append, ← hd]

/-- Without an uberblock write, every crash since the commit falls back to it. -/
theorem Chain.commit_since (h₂ : Chain env d₂ k₀ C₂) (hstart : k₀ ≤ d.trace.length)
    (hC : C₂ d.trace.length = C d.trace.length) (hes : d.trace ++ es <+: d₂.trace)
    (hno : ∀ m b, .write .uber m b ∉ es) {j : Nat} (hj : j ≤ es.length) :
    C₂ (d.trace.length + j) = C d.trace.length := by
  have hlen := hes.length_le
  rw [List.length_append] at hlen
  rw [← hC]
  exact h₂.commit_kept hstart j (notMem_uber_since hes hno hj) (by omega)

theorem Chain.block_since (h : Chain env d k₀ C) (h₂ : Chain env d₂ k₀ C₂)
    (hC : C₂ d.trace.length = C d.trace.length) (hes : d.trace ++ es <+: d₂.trace)
    (hno : ∀ m b, .write .uber m b ∉ es) {n : Nat} (hn : Owned (C d.trace.length).ddt n) :
    replay d.image es n = d.image n := by
  have hlen := hes.length_le
  rw [List.length_append] at hlen
  have hkept := (h₂.bytes_kept h.start (hC ▸ hn) es.length
    (notMem_uber_since hes hno le_rfl) hlen).2
  have hthen := image_since h.consistent hes (Nat.zero_le es.length)
  rw [image_since h.consistent hes le_rfl, List.take_length] at hkept
  rw [hkept]
  exact congrFun hthen n

/-- A device that comes back has the commits that it had, and the last one since. -/
theorem Chain.restart (h : Chain env d k₀ C) (h₂ : Chain env d₂ k₀ C₂)
    (hblocks : d₂.blocks = d.blocks)
    (hC : C₂ d.trace.length = C d.trace.length) (hes : d.trace ++ es <+: d₂.trace)
    (hno : ∀ m b, .write .uber m b ∉ es) (calls : Nat) :
    Chain env (d.restart es calls) k₀ fun k => C (min k d.trace.length) := by
  have hlen := hes.length_le
  rw [List.length_append] at hlen
  have hlast : ∀ j, C (min (d.trace.length + j) d.trace.length) = C d.trace.length := fun j => by
    rw [Nat.min_eq_right (Nat.le_add_right _ _)]
  refine h.append (Disk.restart_extends d es calls) (fun k hk => by rw [Nat.min_eq_left hk])
    (fun i _ => ?_) (fun i ev hev => ?_) fun i => ?_
  · obtain ⟨j, hj, heq⟩ := take_filter_write es i
    have hroot := h₂.root (d.trace.length + j) (Nat.le_add_right_of_le h.start) (by omega)
    rw [h₂.commit_since h.start hC hes hno hj] at hroot
    rw [hlast]
    refine root_congr hroot hblocks.symm ?_
    rw [image_since h.consistent hes hj, heq, replay_filter]
  · have hmem : ev ∈ es := List.mem_of_mem_filter (List.mem_of_getElem? hev)
    obtain ⟨j, hj⟩ := List.mem_iff_getElem?.mp hmem
    have hlt : j < es.length := (List.getElem?_eq_some_iff.mp hj).1
    have hstep := h₂.step (d.trace.length + j) ev (Nat.le_add_right_of_le h.start)
      ((getElem?_since hes hlt).trans hj)
    rw [Nat.add_assoc d.trace.length j 1, h₂.commit_since h.start hC hes hno hlt.le,
      h₂.commit_since h.start hC hes hno hlt, hblocks] at hstep
    rw [Nat.add_assoc d.trace.length i 1, hlast, hlast]
    exact hstep
  · rw [hlast]
    exact h.owns _ h.start le_rfl

end Chain

theorem Space.of_dev {ds : Nat} {L : Nat → Prop} {p : Pool} (h : Space ds L p) (d : Disk) :
    Space ds L { p with dev := d } :=
  ⟨h.counted, h.start_le, h.total_lt, h.entry_in, h.entries, h.deferred_in, h.deferred,
    h.apart, h.bits⟩

/-- The state in memory with the device that came back. -/
theorem Tied.restart {s : FS} {c : Cow.Commit} (h : Tied c s) (es : List Event) (calls : Nat) :
    Tied c { s with dev := s.dev.restart es calls } := by
  obtain ⟨L, hsnap⟩ := h.snapshot
  obtain ⟨L', hspace⟩ := h.space
  exact ⟨h.ub, h.cap, h.kept, ⟨L, Space.of_dev hsnap _⟩, ⟨L', Space.of_dev hspace _⟩, h.total,
    h.committed, h.sound, h.slot⟩

/-! ## The blocks of the store -/

/-- Another device in place of the one of `s`, with more writes in its history and the same
blocks under the entries. -/
theorem stocked_of_writes {s : FS} {T : Multiset Dedup.Key} {d : Disk} {ws : List Event}
    (h : Stocked env s T) (hx : Disk.Extends s.dev d ws) (hws : ∀ ev ∈ ws, ev.isWrite = true)
    (hkept : ∀ n, Owned s.ddt n → d.image n = s.dev.image n) :
    Kept env s { s with dev := d } ∧ Stocked env { s with dev := d } T := by
  have hhash : ∀ b, .hash b ∉ ws := fun b hb => absurd (hws _ hb) Bool.false_ne_true
  have hcost : cost d.trace = cost s.dev.trace :=
    by rw [hx.trace, cost_append, cost_eq_zero hhash, Nat.add_zero]
  have hstored : ∀ k e b, s.ddt.lookup k = some e → Stored env s.bs s.dev k e b →
      Stored env s.bs d k e b :=
    fun k e b he hst => hst.of_image hx.blocks fun n hn => hkept n ⟨k, e, he, hn⟩
  refine ⟨⟨⟨rfl, rfl, rfl, rfl, rfl, rfl, rfl, rfl, rfl, rfl, rfl⟩, hx.blocks, hx.fault, ?_⟩, ?_⟩
  · rintro r b ⟨e, he, hr, hst⟩
    exact ⟨e, he, hr, hstored _ e b he hst⟩
  · obtain ⟨L, hsp⟩ := h.stock.space
    refine ⟨⟨⟨L, Space.of_dev hsp d⟩, h.stock.refs, h.stock.positive, fun k e he => ?_⟩, ?_, ?_, ?_,
      fun hm => ?_, ?_⟩
    · obtain ⟨b, hb, hst⟩ := h.stock.stored k e he
      exact ⟨b, (after_of_extends hx).subset hb, hstored k e b he hst⟩
    · show s.ub.Placed d.blocks
      rw [hx.blocks]
      exact h.placed
    · exact h.card.trans hcost.ge
    · show Below (s.ub.dataStart.toNat + cost d.trace) s.bm
      rw [hcost]
      exact h.below
    · have hm : .refused ∈ d.trace := hm
      rw [hx.trace] at hm
      rcases List.mem_append.mp hm with hm | hm
      · exact (h.refused hm).of_extends hx rfl
      · exact absurd (hws _ hm) Bool.false_ne_true
    · exact h.total.trans hx.blocks.symm

end Fs

namespace Runs

open Bytes Exec Block Dir Fs Store Spec Refine

variable {env : Env} {s s' s₁ s₂ : Session} {m : Bindings} {c : Contents} {t : State}
    {es : List Event}
  {calls ticks orders : Nat}

/-! ## A crash -/

/-- The device stops after the calls `es` since the commit of `s`, in a later state. -/
structure Stops (env : Env) (s s₁ : Session) (es : List Event) : Prop where
  commits : perform env .commit s = (.ok .unit, s₁)
  later : ∃ s₂, Onward env s₁ s₂ ∧ s₁.fs.dev.trace ++ es <+: s₂.fs.dev.trace
  unflipped : ∀ m b, .write .uber m b ∉ es

/-- The device that comes back has the commit, mounts, and the blocks of the commit are as
they were. -/
theorem Stops.chain (hs : Stops env s s₁ es) (held : Fs.Held env s.fs) (calls : Nat) :
    ∃ k₀ C, Chain env (s₁.fs.dev.restart es calls) k₀ C ∧
      C (s₁.fs.dev.restart es calls).trace.length = ⟨s.fs.nextUber, s.fs.bm, s.fs.ddt,
        s.fs.inodes⟩ ∧
      Tied (C (s₁.fs.dev.restart es calls).trace.length)
        { s₁.fs with dev := s₁.fs.dev.restart es calls } ∧
      ∀ n, Owned s.fs.ddt n → (s₁.fs.dev.restart es calls).image n = s₁.fs.dev.image n := by
  obtain ⟨hrun, -⟩ := perform_commit hs.commits ⟨_, rfl⟩
  obtain ⟨s₂, onward, hes⟩ := hs.later
  obtain ⟨k₀, C, hchain, hlast, ht⟩ := held.commit_chain ((commit_sat s.fs).ok hrun)
  have hfrom : HeldFrom env k₀ s₁.fs.dev.trace.length C s₁.fs :=
    ⟨le_rfl, C, fun _ _ => rfl, hchain, ht⟩
  obtain ⟨-, C₂, hC₂, hchain₂, -⟩ := onward.keeps heldFrom_closed heldFrom_commit
    (fun _ _ _ _ _ h hm => h.mount hm) hfrom
  have hback := hchain.restart hchain₂ onward.later.1 (hC₂ _ le_rfl) hes hs.unflipped calls
  have hend : min (s₁.fs.dev.restart es calls).trace.length s₁.fs.dev.trace.length =
      s₁.fs.dev.trace.length :=
    Nat.min_eq_right (List.length_append ▸ Nat.le_add_right _ _)
  refine ⟨k₀, _, hback, ?_, ?_, fun n hn => ?_⟩
  · show C (min _ _) = _
    rw [hend, hlast]
  · show Tied (C (min _ _)) _
    rw [hend]
    exact ht.restart es calls
  · refine hchain.block_since hchain₂ (hC₂ _ le_rfl) hes hs.unflipped ?_
    rw [hlast]
    exact hn

theorem Stops.mounts (hs : Stops env s s₁ es) (held : Fs.Held env s.fs) (calls ticks orders : Nat) :
    ∃ fs, mount env s.fs.bs.key ticks orders (s₁.fs.dev.restart es calls) = .ok fs := by
  obtain ⟨k₀, C, hchain, -, htied, -⟩ := hs.chain held calls
  obtain ⟨r, -, hmount⟩ := mount_of_root hchain.last htied.slot s.fs.bs ticks orders
  exact ⟨_, hmount⟩

theorem Stops.held (hs : Stops env s s₁ es) (held : Fs.Held env s.fs) {fs : FS}
    (hm : mount env s.fs.bs.key ticks orders (s₁.fs.dev.restart es calls) = .ok fs) :
    Fs.Held env fs := by
  obtain ⟨k₀, C, hchain, -, htied, -⟩ := hs.chain held calls
  have hback : Fs.Held env { s₁.fs with dev := s₁.fs.dev.restart es calls } :=
    ⟨k₀, C, hchain, htied⟩
  exact hback.mount hm

theorem Stops.rep (hs : Stops env s s₁ es) (held : Fs.Held env s.fs) (hrep : Rep env s.fs t)
    {fs : FS} (hm : mount env s.fs.bs.key ticks orders (s₁.fs.dev.restart es calls) = .ok fs) :
    Rep env fs { t.reopen with ticks := ticks, orders := orders } := by
  obtain ⟨hrun, -⟩ := perform_commit hs.commits ⟨_, rfl⟩
  obtain ⟨k₀, C, hchain, hlast, -, hkept⟩ := hs.chain held calls
  obtain ⟨r, bs, hr, hbs, rfl⟩ := mount_ok hm
  rw [new_of_key] at hbs
  cases hbs
  obtain ⟨r', hr', hreads⟩ := Cow.mount_of_root hchain.last
  rw [hr] at hr'
  cases hr'
  rw [hlast] at hreads
  have hload := hrep.reload hrun hreads ticks orders
  refine hload.of_kept fun T hst => ?_
  have hws : ∀ ev ∈ es.filter Event.isWrite, ev.isWrite = true :=
    fun ev hev => List.of_mem_filter hev
  have hblocks : ∀ n, Owned r.2.2.1 n → (s₁.fs.dev.restart es calls).image n =
      s₁.fs.dev.image n := by
    rintro n ⟨k, e, he, hn⟩
    exact hkept n ⟨k, e, (hreads.ddt k).symm.trans he, hn⟩
  obtain ⟨hk, hst'⟩ := stocked_of_writes hst (Disk.restart_extends s₁.fs.dev es calls) hws hblocks
  exact ⟨hk, hst', hload.logged.quiet fun b hb => absurd (hws _ hb) Bool.false_ne_true⟩

/-! ## Runs -/

/-- What a call that returns does to the contents. -/
def Contents.follow (c : Contents) (op : Op) : Outcome → Contents
  | .ok r => c.after op r
  | .error _ => c

/-- Calls that return, and crashes, with a record that follows the calls.  A crash puts back
the record of the last commit.  A mount after a commit is a crash right after it. -/
inductive Recorded {M : Type} (env : Env) (init : M) (after : M → Op → Outcome → M) :
    Session → M → Prop
  | start {key : Option Bytes} {d : Disk} {fs : FS} (blank : Blank d) (hd : Cow.MetaSound d)
      (run : format env key d = .ok fs) : Recorded env init after ⟨fs, []⟩ init
  | call {s s' : Session} {x : M} {op : Op} {out : Outcome} (h : Recorded env init after s x)
      (does : perform env op s = (out, s')) (hop : op.InSession) (hp : Prompt env s op out) :
      Recorded env init after s' (after x op out)
  | crash {s s₁ : Session} {x : M} {es : List Event} {calls ticks orders : Nat} {fs : FS}
      (h : Recorded env init after s x) (stops : Stops env s s₁ es) (hr : DirsLinked s)
      (mounts : mount env s.fs.bs.key ticks orders (s₁.fs.dev.restart es calls) = .ok fs) :
      Recorded env init after ⟨fs, []⟩ x

section Recorded

variable {M : Type} {init x : M} {after : M → Op → Outcome → M}

theorem Recorded.held (h : Recorded env init after s x) : Fs.Held env s.fs := by
  induction h with
  | start blank hd run =>
    exact held_closed.of_format held_commit blank run fun s hs => hs.held blank hd
  | call _ does hop _ ih => exact held_closed.of_perform held_commit hop does ih
  | crash _ stops _ mounts ih => exact stops.held ih mounts

/-- What the machine keeps of the record, call by call and over a mount, it keeps along the
run. -/
theorem Recorded.machine (hl : env.Lawful) {J : State → M → Prop} (hstart : J (fresh env) init)
    (hstep : ∀ handles t t' op r x, Orderly t.view handles → Change handles t.view op r t'.view →
      (planOf env handles op).1 t = .ok r t' → J t x → J t' (after x op (.ok r)))
    (hstill : ∀ handles t t' op out x, Orderly t.view handles → t'.view = t.view →
      (¬ Answers op ∨ ∃ f, out = .error f) →
      (t'.node = t.node ∨ ∃ f, (planOf env handles op).1 t = .error f t') → J t x →
        J t' (after x op out))
    (hreopen : ∀ t t' x, t'.node = t.node → (∀ id, t'.view.Used id → t.view.Used id) →
      J t x → J t' x)
    (h : Recorded env init after s x) (hplay : InPlay env s.fs.dev.trace) :
    ∃ t, Rep env s.fs t ∧ Orderly t.view s.handles ∧ t.count = t.next ∧ J t x := by
  induction h with
  | start blank _ run =>
    exact ⟨fresh env, rep_of_formatted (formatted_of_ok blank run), orderly_fresh env, rfl, hstart⟩
  | @call s s' x op out _ does hop hp ih =>
    obtain ⟨t, hrep, ho, hlev, hj⟩ := ih (hplay.of_subset (trace_grows hop does).subset)
    obtain ⟨t', hrep', ho', hlev', ⟨r, rfl, hchange, hrun⟩ | ⟨hview, hno, hwhy⟩⟩ :=
      prompt_change hl hrep ho hlev hop hp hplay does
    · exact ⟨t', hrep', ho', hlev', hstep _ t t' op r x ho hchange hrun hj⟩
    · exact ⟨t', hrep', ho', hlev', hstill _ t t' op out x ho hview hno hwhy hj⟩
  | @crash s s₁ x es calls ticks orders fs h stops hr mounts ih =>
    obtain ⟨r, bs, -, -, hfs⟩ := mount_ok mounts
    have hsub : s.fs.dev.trace ⊆ fs.dev.trace := by
      rw [hfs]
      have hgrows := trace_grows (show Op.InSession .commit from trivial) stops.commits
      exact List.Subset.trans hgrows.subset (List.subset_append_left _ _)
    obtain ⟨t, hrep, ho, hlev, hj⟩ := ih (hplay.of_subset hsub)
    have hrep' := stops.rep h.held hrep mounts
    refine ⟨_, hrep', ho.reopen (hr.links hrep ho) hlev, hlev,
      hreopen t _ x rfl (fun id hu => ?_) hj⟩
    obtain ⟨hs, gone, hn⟩ := ho
    exact ((used_reopen hs hn hlev).mp hu).1

end Recorded

/-- Calls that return, and crashes, with the names and the contents. -/
abbrev Weathered (env : Env) (s : Session) (m : Bindings) (c : Contents) : Prop :=
  Recorded env ((fun _ _ => none, fun _ => []) : Bindings × Contents)
    (fun x op out => (x.1.after op out, x.2.follow op out)) s (m, c)

theorem follow_of_quiet {op : Op} {out : Outcome} (h : ¬ Answers op ∨ ∃ f, out = .error f)
    (c : Contents) : c.follow op out = c := by
  cases out with
  | error f => rfl
  | ok r => exact after_of_beside (h.resolve_right fun ⟨f, hf⟩ => by cases hf) c r

theorem agrees_fresh (env : Env) : Agrees (fresh env).view fun _ => [] := by
  rintro id ⟨hlt, -⟩ hk
  have hlt : id < 1 := hlt
  obtain rfl : id = 0 := by omega
  cases (show Inode.typeDir = Inode.typeRegular from hk)

/-- Along the run the machine has the names and the contents. -/
theorem Weathered.machine (hl : env.Lawful) (h : Weathered env s m c)
    (hplay : InPlay env s.fs.dev.trace) :
    ∃ t, Rep env s.fs t ∧ Orderly t.view s.handles ∧ t.count = t.next ∧ Named t.view m ∧
        Agrees t.view c := by
  refine Recorded.machine hl (J := fun t x => Named t.view x.1 ∧ Agrees t.view x.2)
    ⟨named_fresh env, agrees_fresh env⟩ ?_ ?_ ?_ h hplay
  · rintro handles t t' op r x ⟨hs, gone, hn⟩ hchange - ⟨hnamed, hag⟩
    exact ⟨hnamed.step hs hn hchange, hag.step hchange⟩
  · rintro handles t t' op out x - hview hno - ⟨hnamed, hag⟩
    rw [bindings_of_quiet hno, follow_of_quiet hno, hview]
    exact ⟨hnamed, hag⟩
  · rintro t t' x hnode hused ⟨hnamed, hag⟩
    have hsame : t'.view.node = t.view.node := by
      show (fun id => (t'.node id).outline) = fun id => (t.node id).outline
      rw [hnode]
    refine ⟨fun d => hsame ▸ hnamed d, fun id hu hk => ?_⟩
    rw [hsame] at hk ⊢
    exact hag id (hused id hu) hk

/-- File `id` reads as `b`, whole and in ranges. -/
structure ReadsAs (env : Env) (s : FS) (id : Nat) (b : Bytes) : Prop where
  whole : s.readFile env id = .ok b
  ranges : ∀ off length, off + length < 2 ^ 64 → s.readAt env id off length =
    .ok (slice b off length)

theorem readsAs_of_agrees (hl : env.Lawful) {fs : FS} (hrep : Rep env fs t) (hag : Agrees t.view c)
    {id : Nat}
    (hused : fs.InUse id) {in_ : Inode} (hreg : fs.regular id = .ok in_) :
        ReadsAs env fs id (c id) := by
  rcases regular_run hrep id with ⟨e, hx, -⟩ | ⟨hid, hk, hx, -⟩
  · cases hreg.symm.trans hx
  · have hnd := not_isDir_of_regular hk
    have hd : (t.node id).data = c id := hag id (hrep.inUse.mp hused) hk
    refine ⟨?_, fun off length hlen => ?_⟩
    · unfold FS.readFile
      rw [hx, ok_bind, hrep.getData hl hid, Node.blob_of_file hnd, hd]
    · rw [hrep.readAt hl hid hx hnd, hd]
      by_cases hempty : length = 0 ∨ (c id).length ≤ off
      · rw [if_pos hempty]
        refine congrArg Except.ok (Eq.symm ?_)
        unfold slice
        rcases hempty with h0 | hle
        · rw [h0, List.take_zero]
        · rw [List.drop_eq_nil_of_le hle, List.take_nil]
      · rw [if_neg hempty, if_neg (by omega)]

/-- Crashes fall back to the last commit and nothing else.  After any prompt calls and any
number of crashes, in the middle of an operation or of a commit, where the last commit has
every directory linked and the device refuses no write of metadata, every directory answers
from the map of its names and every file reads as the list of its bytes, where a crash puts
back the names and the bytes of the last commit.  Wherever the device stops next before an
uberblock is written, it mounts. -/
theorem crashes_fall_back (hl : env.Lawful) (h : Weathered env s m c)
    (hplay : InPlay env s.fs.dev.trace) : (∀ d, s.fs.IsDir d → Answered env s d (m d)) ∧
      (∀ id in_, s.fs.InUse id → s.fs.regular id = .ok in_ → ReadsAs env s.fs id (c id)) ∧
      ∀ s₁ es calls ticks orders, Stops env s s₁ es →
        ∃ fs, mount env s.fs.bs.key ticks orders (s₁.fs.dev.restart es calls) = .ok fs := by
  obtain ⟨t, hrep, ho, -, hnamed, hag⟩ := h.machine hl hplay
  exact ⟨fun d hd => answered_of_named hl hrep ho hnamed hd,
    fun id in_ hused hreg => readsAs_of_agrees hl hrep hag hused hreg,
    fun s₁ es calls ticks orders hs => hs.mounts h.held calls ticks orders⟩

/-- A file is overwritten after a commit, the device stops, and the mount goes on with the
committed contents. -/
theorem crashes_fall_back_overwrite : ∃ s m c s₁ s₂ es r fs,
    Weathered Env.plain s m c ∧ Stops Env.plain s s₁ es ∧
      perform Env.plain (.writeFile 1 [8]) s₁ = (.ok r, s₂) ∧ s₁.fs.dev.trace ++ es =
      s₂.fs.dev.trace ∧
      Weathered Env.plain ⟨fs, []⟩ m c ∧ fs.readFile Env.plain 1 = .ok [7] := by
  have htrail : ∃ x ∈ trail Env.plain Tended [.create 0 "a", .writeFile 1 [7]] (fresh Env.plain) [],
      ∃ y ∈ script Env.plain Fair [.writeFile 1 [8]] x.1 x.2.1,
        (1 < x.1.cap ∧ (x.1.node 1).kind = Inode.typeRegular ∧ (x.1.node 1).blob = [7]) ∧
        (∀ id < x.1.next, (x.1.node id).nlink ≠ 0) ∧ (1 < x.1.next ∧ 1 ∉ x.1.free) ∧
          x.1.count = x.1.next ∧
        Sketched y.1.paid ∧ y.1.paid.length ≤ 256 := by
    decide
  obtain ⟨⟨t, handles, b⟩, hx, ⟨t₂, handles₂⟩, hy, ⟨hcap, hkind, hblob⟩, hlinks, hused, hlev,
    hsketch, hfew⟩ := htrail
  obtain ⟨hclear, hblank, fs₀, hfs₀, htrack⟩ := start_format hsketch hfew
  obtain ⟨s, ⟨m, c, hw⟩, hhandles, htrack₁, ho⟩ :=
    trail_exact (k := 2) (b := []) (P := Prompt Env.plain)
    (R := fun _ s => ∃ m c, Weathered Env.plain s m c) (J := fun t handles =>
      Orderly t.view handles) hclear
    (fun _ _ _ _ _ hr does hop hp => hr.elim fun _ h => h.elim fun _ h =>
      ⟨_, _, h.call does hop hp⟩)
    (fun _ _ => Orderly.ready) (fun _ _ _ _ _ hj hC => hj.step hC.1)
    (fun _ s t op r _ hop hrep hj hC =>
      ⟨apart_of_fair hC.1, prompt_of_tended Env.plain_lawful s t op r hop hrep hj hC⟩)
    (by simp [Plays, Answers]) ⟨_, _, .start hblank metaSound_smallDisk hfs₀⟩
      (htrack.mono (by decide))
    (orderly_fresh _) hx (script_grows hy)
  have hrep := htrack₁.rep
  have hdirs : DirsLinked s := by
    intro id hid hdir
    rw [(hrep.nodes id hdir.1).nlink]
    exact hlinks id (hrep.inUse.mp hid).1
  obtain ⟨s₁, commits, hh₁, htrack₂⟩ := htrack₁.committed
  obtain ⟨hfair, r, t₃, hrun, hrest⟩ := script_cons hy
  cases hrest
  rw [← hhandles] at ho
  rw [← hhandles, ← hh₁] at hrun
  have hans : Answers (.writeFile 1 [8]) := trivial
  obtain ⟨s₂, does, -, htrack₃⟩ := htrack₂.act hclear (hh₁ ▸ ho.ready) hans
    (apart_of_fair hfair) hrun (List.prefix_refl _)
  obtain ⟨es, hes⟩ := trace_grows (inSession_of_answers hans) does
  obtain ⟨hplay₂, hquiet⟩ := htrack₃.undisturbed hclear
  have hstops : Stops Env.plain s s₁ es := by
    refine ⟨commits, ⟨s₂, .step (.refl s₁) does, hes ▸ List.prefix_refl _⟩, fun k b hmem => ?_⟩
    rcases unflipped_of_perform hans does with h | h
    · exact hquiet h
    · obtain ⟨i, hi⟩ := List.mem_iff_getElem?.mp hmem
      refine h (s₁.fs.dev.trace.length + i) k b (Nat.le_add_right _ _) ?_
      rw [← hes, List.getElem?_append_right (Nat.le_add_right _ _), Nat.add_sub_cancel_left]
      exact hi
  obtain ⟨fs, hmount⟩ := hstops.mounts hw.held 0 0 0
  have hw' := hw.crash hstops hdirs hmount
  have hrep' := hstops.rep hw.held hrep hmount
  have hplay : InPlay Env.plain fs.dev.trace := by
    obtain ⟨r', bs, -, -, hfs⟩ := mount_ok hmount
    refine hplay₂.of_subset ?_
    rw [hfs, ← hes]
    exact List.append_subset.mpr ⟨List.subset_append_left _ _, fun ev hev =>
      List.mem_append_right _ (List.mem_of_mem_filter hev)⟩
  -- the contents before the crash are those of the machine
  have hpre : InPlay Env.plain s.fs.dev.trace := (htrack₁.undisturbed hclear).1
  have hcontents : c 1 = [7] := by
    have hread := ((crashes_fall_back Env.plain_lawful hw hpre).2.1 1 _ (hrep.inUse.mpr hused)
      (regular_of_rep hrep hcap hkind)).whole
    rw [readFile_of_rep Env.plain_lawful hrep hcap hkind, hblob] at hread
    exact (Except.ok.inj hread).symm
  refine ⟨s, m, c, s₁, s₂, es, r, fs, hw, hstops, does, hes, hw', ?_⟩
  have hin : fs.InUse 1 := by
    obtain ⟨hs, gone, hn⟩ := ho
    exact hrep'.inUse.mpr ((used_reopen hs hn hlev).mpr ⟨hused, hlinks 1 hused.1⟩)
  rw [← hcontents]
  exact ((crashes_fall_back Env.plain_lawful hw' hplay).2.1 1 _ hin
    (regular_of_rep hrep' hcap hkind)).whole

end Runs
end BloomFS
