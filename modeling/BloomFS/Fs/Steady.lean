/-
What never changes while a file system is mounted.
-/
import BloomFS.Fs.Stocked

namespace BloomFS
namespace Fs

open Bytes Exec Block Store

variable {env : Env}

/-- The device, and the layout on it, are those of `s₀`. -/
structure Steady (s₀ s : FS) : Prop where
  blocks : s.dev.blocks = s₀.dev.blocks
  fault : s.dev.fault = s₀.dev.fault
  dataStart : s.ub.dataStart = s₀.ub.dataStart
  metaBlocks : s.ub.metaBlocks = s₀.ub.metaBlocks
  cap : s.inodes.cap = s₀.inodes.cap
  root : s.ub.rootInode = s₀.ub.rootInode

theorem Steady.refl (s : FS) : Steady s s := ⟨rfl, rfl, rfl, rfl, rfl, rfl⟩

theorem Steady.of_extends {s₀ s s' : FS} {es : List Event} (h : Steady s₀ s)
    (hx : Disk.Extends s.dev s'.dev es) (hub : s'.ub = s.ub) (hin : s'.inodes = s.inodes) :
    Steady s₀ s' := by
  refine ⟨hx.blocks.trans h.blocks, hx.fault.trans h.fault, ?_, ?_, ?_, ?_⟩
  · rw [hub]
    exact h.dataStart
  · rw [hub]
    exact h.metaBlocks
  · rw [hin]
    exact h.cap
  · rw [hub]
    exact h.root

theorem steady_commit (s₀ : FS) : Keeps (Steady s₀) (commit env) := fun s hs =>
  (commit_sat s).mono
    (fun _ s' h => by
      obtain ⟨_, -, hx⟩ := h.dev
      refine ⟨hx.blocks.trans hs.blocks, hx.fault.trans hs.fault, ?_, ?_, ?_, ?_⟩
      · rw [h.ub]
        exact hs.dataStart
      · rw [h.ub]
        exact hs.metaBlocks
      · rw [h.rest]
        exact hs.cap
      · rw [h.ub]
        exact hs.root)
    (fun _ s' h => by
      obtain ⟨_, hx, -⟩ := h.dev
      exact hs.of_extends hx (by rw [h.rest]) (by rw [h.rest]))

theorem steady_closed (s₀ : FS) : Closed env (Steady s₀) := by
  refine closed_of_extends (fun s s' h hs => ?_)
    (fun s s' es hx hub hin hs => hs.of_extends hx hub hin)
    (keeps_bind (keeps_modify fun s hs => hs.of_extends (refuse_extends s) rfl rfl)
      fun _ => steady_commit s₀)
  obtain ⟨n, hub⟩ := h.ub
  refine ⟨?_, ?_, ?_, ?_, h.cap.trans hs.cap, ?_⟩
  · rw [h.dev]
    exact hs.blocks
  · rw [h.dev]
    exact hs.fault
  · rw [hub]
    exact hs.dataStart
  · rw [hub]
    exact hs.metaBlocks
  · rw [hub]
    exact hs.root

/-- Without a refused block only an explicit commit moves the sequence number. -/
def SeqAt (k : UInt64) (s : FS) : Prop := .refused ∈ s.dev.trace ∨ s.ub.seq = k

theorem seqAt_closed (k : UInt64) : Closed env (SeqAt k) := by
  refine closed_of_extends (fun s s' h hs => ?_) (fun s s' es hx hub _ hs => ?_) (fun s _ => ?_)
  · obtain ⟨n, hub⟩ := h.ub
    unfold SeqAt
    rw [h.dev, hub]
    exact hs
  · rcases hs with hs | hs
    · exact .inl ((after_of_extends hx).subset hs)
    · exact .inr (by rw [hub]; exact hs)
  · -- an automatic commit follows a refused block
    refine sat_modify_bind ((lasting_commit refused_lasting (refuse s) (mem_refuse s)).mono ?_ ?_)
    · exact fun _ s' h => .inl h
    · exact fun _ s' h => .inl h

end Fs
end BloomFS
