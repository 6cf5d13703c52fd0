/-
What the primitive calls of the file system do.

Every invariant that is `Closed` is proved from `storeWrite_sat`,
`storeRelease_sat` and `commit_sat`.
-/
import BloomFS.Cow.Root
import BloomFS.Fs.Run
import BloomFS.Store.Space

namespace BloomFS
namespace Fs

open Bytes Exec Block Store

variable {env : Env}

theorem storeWrite_sat (b : Bytes) (s : FS) :
    Sat (storeWrite env b) s
      (fun r s' => s' = s.setPool s'.pool ∧ Wrote env s.bs b s.pool r s'.pool)
      (fun e s' => s' = s.setPool s'.pool ∧
        ∃ e', e = e'.map .store ∧ WriteFailed env s.bs b s.pool e' s'.pool) :=
  sat_zoom (write_sat env s.bs b s.pool) (fun _ _ h => ⟨rfl, h⟩) (fun e _ h => ⟨rfl, e, rfl, h⟩)

theorem storeRelease_sat (r : Ref) (s : FS) :
    Sat (storeRelease r) s
      (fun _ s' => s' = s.setPool s'.pool ∧ Released r s.pool s'.pool)
      (fun e s' => e = .panic ∧ s' = s ∧ ∃ e, s.ddt.lookup r.hash = some e ∧ e.refs = 0) :=
  sat_zoom (release_sat r s.pool) (fun _ _ h => ⟨rfl, h⟩) fun e p h => by
    obtain ⟨rfl, rfl, h⟩ := h
    exact ⟨rfl, rfl, h⟩

/-- The uberblock the next commit of `s` records. -/
def FS.nextUber (s : FS) : Cow.Uberblock :=
  Cow.withLens (s.ub.successor s.ub.rootInode s.ub.nextInode) s.bm s.ddt s.inodes

/-- A commit that went through. -/
structure Committed (env : Env) (s s' : FS) : Prop where
  rest : s' = { s with dev := s'.dev, ub := s'.ub, bm := s'.bm, metaBuf := s'.metaBuf }
  advance : s.ub.CanAdvance
  ub : s'.ub = s.nextUber
  fits : Cow.Fits s.ub s.bm s.ddt s.inodes
  bm : s'.bm = s.bm.applyDeferred
  dev : ∃ tail, s.ub.metaBlocks.toNat * Cow.blk ≤ (Cow.tables s.bm s.ddt s.inodes ++ tail).length ∧
    Disk.Extends s.dev s'.dev
      (Cow.commitEvents env s.nextUber (Cow.tables s.bm s.ddt s.inodes ++ tail))

/-- A commit that failed, having written only the slots that are not in use. -/
structure CommitFailed (s : FS) (e : Fault Error) (s' : FS) : Prop where
  rest : s' = { s with dev := s'.dev, metaBuf := s'.metaBuf }
  dev : ∃ es, Disk.Extends s.dev s'.dev es ∧
    (∀ ev ∈ es, s.ub.CanAdvance ∧
      Cow.Allowed (s.ub.successor s.ub.rootInode s.ub.nextInode) ev) ∧
    (Cow.MetaSound s.dev → 2 ≤ s.dev.blocks →
      (s.ub.successor s.ub.rootInode s.ub.nextInode).metaStart + s.ub.metaBlocks.toNat ≤
        s.dev.blocks →
      es = [] ∧ (e = .panic ∧ ¬ s.ub.CanAdvance ∨
        e = .err (.cow .metaTooBig) ∧ ¬ Cow.Fits s.ub s.bm s.ddt s.inodes))
  kind : ∀ e', e = .err e' → e'.Storage

theorem commit_sat (s : FS) :
    Sat (commit env) s (fun _ s' => Committed env s s') (fun e s' => CommitFailed s e s') := by
  unfold commit
  refine sat_get_bind (sat_bind (Q := fun u s₁ => Committed env s { s₁ with ub := u })
    (sat_zoom (Cow.commit_sat env s.ub s.ddt s.inodes _ _ s.commitState) (fun u t h => ?_)
      (fun e t h => ?_)) (fun u s₁ h => sat_modify h) (fun _ _ h => h))
  · obtain ⟨hadv, rfl, hfit, hbm, hdev⟩ := h
    exact ⟨rfl, hadv, rfl, hfit, hbm, hdev⟩
  · obtain ⟨hbm, es, hx, hal, hfail⟩ := h
    refine ⟨?_, ⟨es, hx, hal, fun hm h2 hroom => ?_⟩, fun e' he => ?_⟩
    · have hbm : t.bm = s.bm := hbm
      simp only [FS.setCommitState, hbm]
    · obtain ⟨hes, ⟨rfl, hadv⟩ | ⟨rfl, hfit⟩⟩ := hfail hm h2 hroom
      · exact ⟨hes, .inl ⟨rfl, hadv⟩⟩
      · exact ⟨hes, .inr ⟨rfl, hfit⟩⟩
    · cases e with
      | err c =>
        cases he
        trivial
      | panic => cases he
      | hang => cases he

theorem nextSlot_le {u : Cow.Uberblock} {blocks : Nat} (h : u.Placed blocks) (rt nx : UInt64) :
    (u.successor rt nx).metaStart + u.metaBlocks.toNat ≤ blocks := by
  have hroom := h.room
  have hds := h.dataStart
  have hA := h.metaA
  have hB := h.metaB
  unfold Cow.Uberblock.metaStart
  split
  · show u.metaB.toNat + _ ≤ _
    omega
  · show u.metaA.toNat + _ ≤ _
    omega

/-- On a device that does not fail, a commit goes through unless the counters or
the metadata slot are exhausted. -/
theorem commit_succeeds {s : FS} (hd : Cow.MetaSound s.dev) (hp : s.ub.Placed s.dev.blocks)
    (hadv : s.ub.CanAdvance) (hfits : Cow.Fits s.ub s.bm s.ddt s.inodes) :
    ∃ s', commit env s = .ok () s' ∧ Committed env s s' := by
  cases hc : commit env s with
  | ok x s' => exact ⟨s', rfl, (commit_sat s).ok hc⟩
  | error e s' =>
    obtain ⟨es, -, -, hwhy⟩ := ((commit_sat s).error hc).dev
    obtain ⟨-, ⟨-, hno⟩ | ⟨-, hno⟩⟩ := hwhy hd hp.two_le (nextSlot_le hp _ _)
    · exact (hno hadv).elim
    · exact (hno hfits).elim

/-- No event of a commit is recorded by another part of the file system. -/
theorem commit_events {u : Cow.Uberblock} {buf : Bytes} {ev : Event}
    (h : ev ∈ Cow.commitEvents env u buf) :
    (∃ n b, ev = .write .snapshot n b) ∨ (∃ n b, ev = .write .uber n b) ∨ ev = .sync := by
  simp only [Cow.commitEvents, Cow.snapshotEvents, List.mem_append, List.mem_map, List.mem_range,
    List.mem_cons, List.not_mem_nil, or_false] at h
  rcases h with (⟨i, -, rfl⟩ | rfl) | rfl | rfl
  · exact .inl ⟨_, _, rfl⟩
  · exact .inr (.inr rfl)
  · exact .inr (.inl ⟨_, _, rfl⟩)
  · exact .inr (.inr rfl)

/-! ## Growth of the history -/

theorem after_of_extends {d d' : Disk} {es : List Event} (h : Disk.Extends d d' es) :
    d.trace <+: d'.trace := ⟨es, h.trace.symm⟩

theorem refuse_extends (s : FS) : Disk.Extends s.dev (refuse s).dev [.refused] :=
  Disk.note_extends _ _ (by simp)

/-- What never becomes false as the history grows. -/
def Lasting (R : List Event → Prop) : Prop := ∀ tr tr', tr <+: tr' → R tr → R tr'

theorem lasting_commit {R : List Event → Prop} (hR : Lasting R) :
    Keeps (fun s => R s.dev.trace) (commit env) := fun s hs =>
  (commit_sat s).mono
    (fun _ s' h => by
      obtain ⟨_, -, hx⟩ := h.dev
      exact hR _ _ (after_of_extends hx) hs)
    (fun _ s' h => by
      obtain ⟨_, hx, -⟩ := h.dev
      exact hR _ _ (after_of_extends hx) hs)

/-- The calls of the data path, seen from the device. -/
theorem closed_of_extends {I : FS → Prop} (hother : ∀ s s', SamePool s s' → I s → I s')
    (hx : ∀ s s' es, Disk.Extends s.dev s'.dev es → s'.ub = s.ub → s'.inodes = s.inodes → I s →
      I s')
    (hauto : Keeps I (autoCommit env)) : Closed env I where
  other := hother
  write b s hs := (storeWrite_sat b s).mono
    (fun r s' h => by
      obtain ⟨es, hes, -⟩ := h.2.extends
      exact hx s s' _ hes (by rw [h.1]; rfl) (by rw [h.1]; rfl) hs)
    (fun e s' h => by
      obtain ⟨hrest, e', -, h⟩ := h
      obtain ⟨es, hes, -⟩ := h.extends
      exact hx s s' _ hes (by rw [hrest]; rfl) (by rw [hrest]; rfl) hs)
  release r s hs := (storeRelease_sat r s).mono
    (fun _ s' h => by
      have hdev : s'.dev = s.dev := h.2.dev_eq
      refine hx s s' [] ?_ (by rw [h.1]; rfl) (by rw [h.1]; rfl) hs
      rw [hdev]
      exact .refl _)
    (fun _ s' h => h.2.1 ▸ hs)
  autoCommit := hauto
  refuse s hs := hx s _ _ (refuse_extends s) rfl rfl hs

theorem lasting_closed {R : List Event → Prop} (hR : Lasting R) :
    Closed env (fun s => R s.dev.trace) := by
  refine closed_of_extends (fun s s' h hs => ?_) (fun s s' es hx _ _ hs => ?_)
    (keeps_bind (keeps_modify fun s hs => ?_) fun _ => lasting_commit hR)
  · rw [h.dev]
    exact hs
  · exact hR _ _ (after_of_extends hx) hs
  · exact hR _ _ (after_of_extends (refuse_extends s)) hs

end Fs
end BloomFS
