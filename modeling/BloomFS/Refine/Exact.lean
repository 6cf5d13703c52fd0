/-
Runs that go through.

A run of the machine is followed by the file system step by step when the ledger
of the run is clear, that is when no two of its blocks collide and none is too
long, and when the device never fails and has room for the whole ledger.
-/
import BloomFS.Fs.Steady
import BloomFS.Refine.Run

namespace BloomFS
namespace Refine

open Bytes Exec Block Dir Fs Store Spec

variable {env : Env} {l l' : List Charge} {s s' : FS} {t t' : State}

/-- A block the ledger is about. -/
def Covering (l : List Charge) (b : Bytes) : Prop := ∃ c ∈ l, c.Covers b

/-- The blocks of the ledger can be stored side by side. -/
structure Clear (env : Env) (l : List Charge) : Prop where
  lawful : env.Lawful
  apart : ∀ b b', Covering l b → Covering l b' → env.blake3 b = env.blake3 b' → b = b'
  short : ∀ b, Covering l b → b.length < 2 ^ 32
  storable : ∀ b, Covering l b → Storable env b
  few : price l + 1 < 2 ^ 32

/-- The device never fails and has room for the ledger. -/
structure Roomy (l : List Charge) (s : FS) : Prop where
  reliable : s.dev.Reliable
  room : s.ub.dataStart.toNat + price l ≤ s.dev.blocks

theorem Roomy.of_steady (h : Roomy l s) (hs : Steady s s') : Roomy l s' where
  reliable c n := by
    rw [hs.fault]
    exact h.reliable c n
  room := by
    rw [hs.blocks, hs.dataStart]
    exact h.room

theorem price_mono (h : l <+: l') : price l ≤ price l' := by
  obtain ⟨l₂, rfl⟩ := h
  rw [price_append]
  omega

theorem Clear.not_broken (h : Clear env l) (tr : List Event) : ¬ (Budget.upTo l).Broken env tr := by
  rintro ⟨tr', -, hno, l', hpre, hcov⟩
  have hl : ∀ b, .hash b ∈ tr' → Covering l b := by
    intro b hb
    obtain ⟨c, hc, hcb⟩ := hcov b hb
    exact ⟨c, hpre.subset hc, hcb⟩
  exact hno ⟨fun b b' hb hb' => h.apart b b' (hl b hb) (hl b' hb'), fun b hb => h.short b (hl b hb)⟩

theorem Clear.inPlay (h : Clear env l) (hrep : Rep env s t) (hpre : t.log <+: l) :
    InPlay env s.dev.trace :=
  Budget.inPlay_of_not_broken (h.not_broken _) hrep.logged hpre

theorem Clear.not_halt (h : Clear env l) (hroom : Roomy l s) {f : Fault Fs.Error} :
    ¬ Halt env (Budget.upTo l) f s := by
  intro hh
  cases hh with
  | refused l' hfits _ hshort _ =>
    have hcov : ∀ b, (∃ c ∈ l', c.Covers b) → Storable env b := by
      rintro b ⟨c, hc, hcb⟩
      exact h.storable b ⟨c, hfits.subset hc, hcb⟩
    have := hshort h.lawful hcov (fun n => hroom.reliable _ n)
    have := price_mono hfits
    have := hroom.room
    omega
  | saturated l' hfits hmany =>
    have := price_mono hfits
    have := h.few
    omega

theorem Clear.not_refused (h : Clear env l) (hroom : Roomy l s) (hrep : Rep env s t)
    (hpre : t.log <+: l) : .refused ∉ s.dev.trace := by
  intro hr
  obtain ⟨refs, lost, hf, -⟩ := hrep.filled
  have hstor : ∀ b, (∃ c ∈ t.log, c.Covers b) → Storable env b := by
    rintro b ⟨c, hc, hcb⟩
    exact h.storable b ⟨c, hpre.subset hc, hcb⟩
  have := (hf.stocked.refused hr).starved hrep.logged h.lawful hstor fun n => hroom.reliable _ n
  have := price_mono hpre
  have := hroom.room
  omega

theorem act_exact (hc : Clear env l) (hroom : Roomy l s) (h : Rep env s t) {handles : List Handle}
    (hr : Ready t handles) {op : Op} (hop : Answers op) (hap : Apart t op) {r : Reply}
    (hrun : (planOf env handles op).1 t = .ok r t') (hpre : t'.log <+: l) :
    ∃ s', (actOf env handles op).1 s = .ok r s' ∧ Rep env s' t' ∧ Steady s s' := by
  have hfinal : (Budget.upTo l).fits (final ((planOf env handles op).1 t)).log := by
    rw [hrun]
    exact hpre
  have hunder := act_sim (B := .upTo l) hc.lawful h hr.toSane handles hop hap hfinal
  have hsteady := (actOf env handles op).2 _ (steady_closed s) s (.refl s)
  cases hx : (actOf env handles op).1 s with
  | ok a s' =>
    obtain ⟨b, t'', hrun', rfl, hrep⟩ := hunder.ok hx (hc.not_broken _)
    rw [hrun] at hrun'
    cases hrun'
    exact ⟨s', rfl, hrep, hsteady.ok hx⟩
  | error f s' =>
    cases hunder.error hx (hc.not_broken _) with
    | same t'' hrun' _ =>
      rw [hrun] at hrun'
      cases hrun'
    | halt hh => exact absurd hh (hc.not_halt (hroom.of_steady (hsteady.error hx)))

/-! ## Commits -/

/-- The metadata slot holds the bitmap, a full inode table and as many dedup entries
as the ledger can make. -/
def Slotted (l : List Charge) (s : FS) : Prop :=
  8 + (s.dev.blocks + 63) / 64 * 8 + (8 + price l * Dedup.Table.recSize) +
    s.inodes.cap * Inode.inodeSize ≤ s.ub.metaBlocks.toNat * Cow.blk

theorem Slotted.of_steady (h : Slotted l s) (hs : Steady s s') : Slotted l s' := by
  unfold Slotted
  rw [hs.blocks, hs.cap, hs.metaBlocks]
  exact h

theorem Slotted.fits (h : Slotted l s) (hrep : Rep env s t) (hpre : t.log <+: l) :
    Cow.Fits s.ub s.bm s.ddt s.inodes := by
  obtain ⟨refs, lost, hf, -⟩ := hrep.filled
  have hlen : s.ddt.len ≤ price l :=
    (hf.stocked.stock.len_le.trans hf.stocked.card).trans
      ((Nat.le_add_right _ _).trans (hrep.logged.paid.trans (price_mono hpre)))
  have htotal : s.bm.total = s.dev.blocks := hf.stocked.total
  have hddt := Nat.mul_le_mul_right Dedup.Table.recSize hlen
  have hin := Nat.mul_le_mul_right Inode.inodeSize s.inodes.count_le
  unfold Slotted at h
  unfold Cow.Fits Alloc.Bitmap.marshalLen Alloc.Bitmap.words Dedup.Table.marshalLen
    Inode.Table.marshalLen
  rw [htotal]
  omega

theorem commit_exact (hroom : Roomy l s) (hslot : Slotted l s) (h : Rep env s t)
    (hpre : t.log <+: l) (hseq : s.ub.seq.toNat + 1 < 2 ^ 64) :
    ∃ s', commit env s = .ok () s' ∧ Rep env s' t ∧ Steady s s' ∧
      s'.ub.seq.toNat = s.ub.seq.toNat + 1 := by
  obtain ⟨refs, lost, hf, -⟩ := h.filled
  have hplaced := hf.stocked.placed
  have hadv : s.ub.CanAdvance := ⟨hseq, hplaced.activeMeta_le⟩
  have hsound : Cow.MetaSound s.dev := ⟨hroom.reliable _, hroom.reliable _, hroom.reliable _⟩
  obtain ⟨s', hrun, hcom⟩ := commit_succeeds hsound hplaced hadv (hslot.fits h hpre)
  refine ⟨s', hrun, (commit_rep h).ok hrun, (steady_commit s).ok (.refl s) hrun, ?_⟩
  rw [hcom.ub]
  exact hadv.seq s.ub.rootInode s.ub.nextInode

end Refine
end BloomFS
