/-
The space partition.

`Partitioned` says that the set bits of the bitmap are the reserved clusters, the
clusters of the dedup entries and the deferred clusters, without overlap.  Every call
keeps it, also one that fails or meets a device that fails, as long as no block takes
2^32 clusters or more: the cluster count of an entry is a 32-bit field.
-/
import BloomFS.Fs.Start

namespace BloomFS
namespace Fs

open Bytes Exec Block Store

variable {env : Env}

/-- Every block handed to the store so far has a cluster count that its entry can
record. -/
def CountsFit (env : Env) (s : FS) : Prop := ∀ b, .hash b ∈ s.dev.trace → CountFits env b

def Partitioned (s : FS) : Prop := Space s.ub.dataStart.toNat (fun _ => False) s.pool

theorem CountsFit.of_prefix {s s' : FS} (h : CountsFit env s')
    (hpre : s.dev.trace <+: s'.dev.trace) : CountsFit env s := fun b hb => h b (hpre.subset hb)

theorem partitioned_of_wrote {b : Bytes} {r : Ref} {s s' : FS} (hrest : s' = s.setPool s'.pool)
    (hw : Wrote env s.bs b s.pool r s'.pool) (hfit : CountFits env b) (h : Partitioned s) :
    Partitioned s' := by
  obtain ⟨L', hsp, hL⟩ := hw.space h
  have hub : s'.ub = s.ub := by rw [hrest]; rfl
  unfold Partitioned
  rw [hub]
  exact hsp.of_lost (hL hfit)

theorem partition_commit : Keeps (fun s => CountsFit env s → Partitioned s) (commit env) :=
    fun s hs =>
  (commit_sat s).mono
    (fun _ s' h hfit => by
      obtain ⟨_, -, hx⟩ := h.dev
      have hsp : Space _ _ s'.pool :=
        (hs (hfit.of_prefix (after_of_extends hx))).of_commit h.bm (by rw [h.rest]; rfl)
      have hub : s'.ub.dataStart = s.ub.dataStart := by rw [h.ub]; rfl
      unfold Partitioned
      rw [hub]
      exact hsp.of_lost (fun i => ⟨fun hi => hi.1, False.elim⟩))
    (fun _ s' h hfit => by
      obtain ⟨_, hx, -⟩ := h.dev
      have hsp : Space _ _ s'.pool :=
        (hs (hfit.of_prefix (after_of_extends hx))).of_places (by rw [h.rest]; rfl)
          (fun k => by rw [h.rest]; rfl)
      have hub : s'.ub = s.ub := by rw [h.rest]
      unfold Partitioned
      rw [hub]
      exact hsp)

theorem partition_refuse {s : FS} (hs : CountsFit env s → Partitioned s)
    (hfit : CountsFit env (refuse s)) : Partitioned (refuse s) :=
  Store.Space.of_places (hs (hfit.of_prefix (after_of_extends (refuse_extends s))))
    rfl (fun _ => rfl)

theorem partition_closed : Closed env (fun s => CountsFit env s → Partitioned s) where
  other s s' h hs hfit := by
    obtain ⟨n, hub⟩ := h.ub
    have hp : s'.pool = s.pool := by simp only [FS.pool, h.dev, h.bm, h.ddt]
    unfold Partitioned
    rw [hub, hp]
    refine hs (fun b hb => hfit b ?_)
    rw [h.dev]
    exact hb
  write b s hs := (storeWrite_sat b s).mono
    (fun r s' ⟨hrest, hw⟩ hfit => by
      obtain ⟨es, hx, -⟩ := hw.extends
      have hb : CountFits env b := hfit b (by
        have htr : s'.dev.trace = s.dev.trace ++ .hash b :: es := hx.trace
        rw [htr]
        simp)
      exact partitioned_of_wrote hrest hw hb (hs (hfit.of_prefix (after_of_extends hx))))
    (fun e s' ⟨hrest, e', _, hw⟩ hfit => by
      obtain ⟨es, hx, -⟩ := hw.extends
      have hsp := WriteFailed.space hw (hs (hfit.of_prefix (after_of_extends hx)))
      have hub : s'.ub = s.ub := by rw [hrest]; rfl
      unfold Partitioned
      rw [hub]
      exact hsp)
  release r s hs := (storeRelease_sat r s).mono
    (fun _ s' ⟨hrest, hr⟩ hfit => by
      have hdev : s'.dev = s.dev := Released.dev_eq hr
      have hsp := Released.space hr (hs (fun b hb => hfit b (by rw [hdev]; exact hb)))
      have hub : s'.ub = s.ub := by rw [hrest]; rfl
      unfold Partitioned
      rw [hub]
      exact hsp)
    (fun _ s' h => h.2.1 ▸ hs)
  autoCommit := keeps_bind (keeps_modify fun _ hs => partition_refuse hs) fun _ => partition_commit
  refuse _ hs := partition_refuse hs

theorem Mounted.partitioned {key : Option Bytes} {d : Disk} {s : FS} (h : Mounted env key d s) :
    Partitioned s := by
  have hds : s.ub.dataStart.toNat < s.dev.blocks := h.root.placed.room
  obtain ⟨_, hx⟩ := h.dev
  have htot : s.pool.bm.total = d.blocks := h.total
  refine Space.of_fresh h.counted ?_ (htot ▸ d.blocks_lt) h.ddt h.deferred (htot ▸ h.bits)
  rw [htot, ← hx.blocks]
  exact Nat.le_of_lt hds

end Fs
end BloomFS
