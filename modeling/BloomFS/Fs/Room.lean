/-
Room for a block.

On a device without errors the store takes a block unless its content is new and no
run of clusters would be long enough even if everything released were free.  A block
that does not fit at once is tried again after a commit, which frees what was released.
-/
import BloomFS.Fs.Pinned
import BloomFS.Store.Ledger

namespace BloomFS
namespace Fs

open Bytes Exec Block Store
open Alloc.Bitmap (FreeRun)

variable {env : Env} {s s' : FS} {b c : Bytes}

/-- A pool on a device without errors. -/
structure Working (s : FS) : Prop where
  reliable : s.dev.Reliable
  placed : s.ub.Placed s.dev.blocks
  total : s.bm.total = s.dev.blocks
  counted : s.bm.Counted

/-! ## Reachable states -/

theorem reliable_commit : Keeps (fun s : FS => s.dev.Reliable) (commit env) := fun s hs =>
  (commit_sat s).mono
    (fun _ s' h => by
      obtain ⟨_, -, hx⟩ := h.dev
      exact hx.reliable hs)
    (fun _ s' h => by
      obtain ⟨_, hx, -⟩ := h.dev
      exact hx.reliable hs)

theorem reliable_closed : Closed env (fun s => s.dev.Reliable) := by
  refine closed_of_extends (fun s s' h hs => ?_) (fun s s' es hx _ _ hs => hx.reliable hs)
    (keeps_bind (keeps_modify fun s hs => (refuse_extends s).reliable hs) fun _ => reliable_commit)
  rw [h.dev]
  exact hs

theorem metaSound_of_reliable {d : Disk} (h : d.Reliable) : Cow.MetaSound d := ⟨h _, h _, h _⟩

/-- A run stays one when less is asked of its device and of its steps. -/
theorem Run.mono {D D' : Disk → Prop} {P P' : Session → Op → Outcome → Prop} (hD : ∀ d, D d → D' d)
    (hP : ∀ s op out, P s op out → P' s op out) {past : List Session} {s : Session}
    (run : Run env D P past s) : Run env D' P' past s := by
  induction run with
  | start blank hd run => exact .start blank (hD _ hd) run
  | step _ does hp ih => exact .step ih does (hP _ _ _ hp)

theorem reliable_of_run {P : Session → Op → Outcome → Prop} {past : List Session} {s : Session}
    (run : Run env Disk.Reliable P past s) : s.fs.dev.Reliable := by
  induction run with
  | start blank hd run =>
    refine reliable_closed.of_format reliable_commit blank run fun s hs => ?_
    obtain ⟨_, hx⟩ := hs.dev
    exact hx.reliable hd
  | step _ does _ ih =>
    refine reliable_closed.of_perform_mount reliable_commit
      (fun s fs key ticks orders h hm => ?_) does ih
    obtain ⟨r, bs, -, -, rfl⟩ := mount_ok hm
    exact h

theorem Held.placed (h : Held env s) : s.ub.Placed s.dev.blocks := by
  obtain ⟨k₀, C, hchain, ht⟩ := h
  obtain ⟨n, hub⟩ := ht.ub
  have hp := hchain.last.placed
  rw [hub]
  exact ⟨hp.magic, hp.metaA, hp.metaB, hp.dataStart, hp.room, hp.active⟩

theorem working_of_run {P : Session → Op → Outcome → Prop} {past : List Session} {s : Session}
    (run : Run env Disk.Reliable P past s) : Working s.fs := by
  have hheld : Held env s.fs := held_of_run (run.mono (fun _ => metaSound_of_reliable)
    fun _ _ _ h => h)
  obtain ⟨k₀, C, hchain, ht⟩ := id hheld
  obtain ⟨L, hspace⟩ := ht.space
  exact ⟨reliable_of_run run, hheld.placed, ht.total, hspace.counted⟩

theorem Working.used_le (h : Working s) : s.bm.used ≤ s.bm.total := h.counted.used_le

theorem Working.extends {es : List Event} (h : Working s) (hx : Disk.Extends s.dev s'.dev es)
    (hub : s'.ub = s.ub) (hbm : s'.bm = s.bm) : Working s' where
  reliable := hx.reliable h.reliable
  placed := by
    rw [hub, hx.blocks]
    exact h.placed
  total := by
    rw [hbm, hx.blocks]
    exact h.total
  counted := by
    rw [hbm]
    exact h.counted

theorem Working.committed (h : Working s) (hc : Committed env s s') : Working s' := by
  obtain ⟨_, -, hx⟩ := hc.dev
  obtain ⟨htotal, -, hcounted, -⟩ := Alloc.Bitmap.applyDeferred_spec h.counted
  refine ⟨hx.reliable h.reliable, ?_, ?_, ?_⟩
  · rw [hc.ub, hx.blocks]
    exact (h.placed.successor hc.advance _ _).withLens _ _ _
  · rw [hc.bm, htotal, hx.blocks]
    exact h.total
  · rw [hc.bm]
    exact hcounted

/-! ## One attempt -/

/-- Known content is stored again without a cluster, or its count is at its limit. -/
theorem write_known {bs : BlockStore} {p : Pool} {e : Dedup.Entry}
    (hlook : p.ddt.lookup (env.blake3 b) = some e) :
    Sat (Store.write env bs b) p (fun _ _ => True) (fun f _ => f = .panic) := by
  unfold Store.write noteHash
  refine sat_modify_bind (sat_get_bind ?_)
  dsimp only
  rw [hlook]
  refine sat_get_bind ?_
  dsimp only
  cases p.ddt.incr (env.blake3 b) with
  | none => exact sat_panic rfl
  | some x => exact sat_modify_bind (sat_pure trivial)

/-- The clusters of the payload of `b`, which the codec turns into `c`. -/
def need (b c : Bytes) : Nat := clusters (payloadOf b c).1.length

theorem need_ne_zero : need b c ≠ 0 := by
  unfold need clusters
  omega

/-- One attempt to store new content goes through unless there is no run for it. -/
theorem storeWrite_new (hl : env.Lawful) (hw : Working s) (henc : env.encodeAll b = some c)
    (hlook : s.ddt.lookup (env.blake3 b) = none) :
    Sat (storeWrite env b) s
      (fun r s' => (s' = s.setPool s'.pool ∧ Wrote env s.bs b s.pool r s'.pool) ∧
        ∃ start, FreeRun s.bm.bits s.bm.total (need b c) start)
      (fun f s' => f = .err (.store (.alloc .noSpace)) ∧ s' = s.setPool s'.pool ∧ s'.bm = s.bm ∧
        s'.ddt = s.ddt ∧ Disk.Extends s.dev s'.dev [.hash b] ∧
        ∀ start, ¬ FreeRun s.bm.bits s.bm.total (need b c) start) := by
  refine (storeWrite_sat b s).mono (fun r s' h => ⟨h, ?_⟩) (fun f s' h => ?_)
  · obtain ⟨-, hwrote⟩ := h
    cases hwrote with
    | hit hlook' => cases hlook.symm.trans hlook'
    | miss _ henc' halloc =>
      cases henc.symm.trans henc'
      exact ⟨_, (Alloc.Bitmap.alloc_ok halloc).2.1⟩
  · obtain ⟨hrest, f', rfl, hfail⟩ := h
    cases hfail with
    | overflow hlook' => cases hlook.symm.trans hlook'
    | compress henc' => cases henc.symm.trans henc'
    | alloc henc' halloc hbm hddt hdev =>
      cases henc.symm.trans henc'
      obtain ⟨rfl, hno⟩ := Alloc.Bitmap.alloc_error need_ne_zero halloc
      exact ⟨rfl, hrest, hbm, hddt, hdev, hno⟩
    | device _ _ _ _ _ _ hfault =>
      exact (hfault (hw.reliable _) (Nat.le_of_eq hw.total) fun i hi => length_sector hl _ hi).elim

/-! ## With the commit that makes room -/

/-- The content is new, and no run is long enough for it even with everything that was
released. -/
def Unstorable (env : Env) (s : FS) (b : Bytes) : Prop :=
  s.ddt.lookup (env.blake3 b) = none ∧ ∀ c, env.encodeAll b = some c →
    ∀ start, ¬ FreeRun s.bm.applyDeferred.bits s.bm.applyDeferred.total (need b c) start

theorem FreeRun.applied {bm : Alloc.Bitmap} {n start : Nat} (hc : bm.Counted)
    (h : FreeRun bm.bits bm.total n start) :
    FreeRun bm.applyDeferred.bits bm.applyDeferred.total n start := by
  obtain ⟨htotal, -, -, hbits⟩ := Alloc.Bitmap.applyDeferred_spec hc
  refine ⟨by rw [htotal]; exact h.1, fun i hlo hhi => ?_⟩
  by_contra hset
  have hset : bm.bits i = true := ((hbits i).mp (by simpa using hset)).1
  rw [h.2 i hlo hhi] at hset
  cases hset

theorem bsWrite_sat (hl : env.Lawful) (hw : Working s) (henc : env.encodeAll b = some c)
    (hfits : Cow.Fits s.ub s.bm s.ddt s.inodes) (hadv : s.ub.CanAdvance) :
    Sat (bsWrite b : Act env Ref).1 s (fun _ _ => ¬ Unstorable env s b)
      (fun f _ => f = .panic ∧ ¬ Unstorable env s b ∨
        f = .err (.store (.alloc .noSpace)) ∧ Unstorable env s b) := by
  cases hlook : s.ddt.lookup (env.blake3 b) with
  | some e =>
    have hknown : ¬ Unstorable env s b := fun h => by cases hlook.symm.trans h.1
    have hwrite : Sat (storeWrite env b) s (fun _ _ => True) (fun f _ => f = .panic) :=
      sat_zoom (write_known hlook) (fun _ _ h => h) (fun f _ h => by rw [h]; rfl)
    refine sat_handle (E := fun f _ => f = .panic) (hwrite.mono (fun _ _ _ => hknown)
      (fun _ _ h => h))
      (fun e s' h => by cases h) (fun _ _ => .inl ⟨rfl, hknown⟩) (fun _ h => by cases h)
  | none =>
    have hstore : ∀ {start}, FreeRun s.bm.applyDeferred.bits s.bm.applyDeferred.total
      (need b c) start → ¬ Unstorable env s b := fun hrun h => h.2 c henc _ hrun
    refine sat_handle ((storeWrite_new hl hw henc hlook).mono (fun r s' h => ?_) (fun f s' h => h))
      ?_ (fun _ h => by cases h.1) (fun _ h => by cases h.1)
    · obtain ⟨-, start, hrun⟩ := h
      exact hstore (FreeRun.applied hw.counted hrun)
    · rintro e s₁ ⟨he, hrest, hbm, hddt, hx, hno⟩
      cases he
      refine sat_get_bind ?_
      have hub₁ : s₁.ub = s.ub := by rw [hrest]; rfl
      have hin₁ : s₁.inodes = s.inodes := by rw [hrest]; rfl
      have hw₁ : Working s₁ := hw.extends hx hub₁ hbm
      refine Within.sat_ite (fun hpend => ?_) (fun hpend => ?_)
      · -- the commit frees what was released, and the second attempt sees it all
        have hw₂ : Working (refuse s₁) := hw₁.extends (refuse_extends s₁) rfl rfl
        have hadv₂ : (refuse s₁).ub.CanAdvance := by
          show s₁.ub.CanAdvance
          rw [hub₁]
          exact hadv
        have hfits₂ : Cow.Fits (refuse s₁).ub (refuse s₁).bm (refuse s₁).ddt
            (refuse s₁).inodes := by
          show Cow.Fits s₁.ub s₁.bm s₁.ddt s₁.inodes
          rw [hub₁, hbm, hddt, hin₁]
          exact hfits
        obtain ⟨s₃, hrun, hcom⟩ : ∃ s₃, commit env (refuse s₁) = .ok () s₃ ∧
            Committed env (refuse s₁) s₃ :=
          commit_succeeds (metaSound_of_reliable hw₂.reliable) hw₂.placed hadv₂ hfits₂
        have hauto : Sat (autoCommit env) s₁ (fun _ s' => s' = s₃) (fun _ _ => False) := by
          unfold Sat
          rw [show autoCommit env s₁ = .ok () s₃ from hrun]
        have hw₃ : Working s₃ := hw₂.committed hcom
        have hbm₃ : s₃.bm = s.bm.applyDeferred := by
          rw [hcom.bm]
          exact congrArg _ hbm
        have hlook₃ : s₃.ddt.lookup (env.blake3 b) = none := by
          rw [hcom.rest]
          show s₁.ddt.lookup (env.blake3 b) = none
          rw [hddt]
          exact hlook
        refine sat_bind hauto ?_ (fun _ _ h => h.elim)
        rintro - s' rfl
        refine (storeWrite_new hl hw₃ henc hlook₃).mono (fun r s' h => ?_) (fun f s' h => ?_)
        · obtain ⟨-, start, hrun⟩ := h
          rw [hbm₃] at hrun
          exact hstore hrun
        · obtain ⟨rfl, -, -, -, -, hno⟩ := h
          rw [hbm₃] at hno
          refine .inr ⟨rfl, hlook, fun c' henc' => ?_⟩
          cases henc.symm.trans henc'
          exact hno
      · have hnil : s.bm.deferred = [] := by
          rw [← hbm]
          have hlen : s₁.bm.pending = 0 := by
            by_contra hpos
            exact hpend ⟨rfl, Nat.pos_of_ne_zero hpos⟩
          exact List.length_eq_zero_iff.mp hlen
        refine sat_modify_bind (sat_fail (.inr ⟨rfl, hlook, fun c' henc' => ?_⟩))
        cases henc.symm.trans henc'
        rw [Alloc.Bitmap.applyDeferred_nil hnil]
        exact hno

/-- A block is refused exactly when no run would be long enough for it. -/
theorem bsWrite_fails_iff (hl : env.Lawful) (hw : Working s) (henc : env.encodeAll b = some c)
    (hfits : Cow.Fits s.ub s.bm s.ddt s.inodes) (hadv : s.ub.CanAdvance) :
    (∃ e s', (bsWrite b : Act env Ref).1 s = .error (.err e) s') ↔ Unstorable env s b := by
  have hsat := bsWrite_sat hl hw henc hfits hadv
  constructor
  · rintro ⟨e, s', hrun⟩
    rcases hsat.error hrun with ⟨he, -⟩ | ⟨-, hno⟩
    · cases he
    · exact hno
  · intro hno
    cases hrun : (bsWrite b : Act env Ref).1 s with
    | ok r s' => exact absurd hno (hsat.ok hrun)
    | error f s' =>
      rcases hsat.error hrun with ⟨-, hyes⟩ | ⟨rfl, -⟩
      · exact absurd hno hyes
      · exact ⟨_, s', rfl⟩

end Fs
end BloomFS
