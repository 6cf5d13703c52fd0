/-
Out of space, as the kernel is told.

`bsWrite` refuses a block only when there is no run for it, but the error it passes on
is one of the store, which the errno table does not know.  The kernel is told `ENOSPC`
when the inodes run out and `EIO` when the clusters do.
-/
import BloomFS.Fuse.Binding
import BloomFS.Fs.Room
import BloomFS.Refine.Plain
import BloomFS.Spec.Errors
import BloomFS.Runs.OneFile

namespace BloomFS
namespace Fuse

open Bytes Exec Block Dir Fs Store Spec Refine

variable {env : Env}

/-- The file system wants space that it does not have. -/
def WantsSpace : Fs.Error → Prop
  | .noInodes => True
  | .noSpace => True
  | .store (.alloc .noSpace) => True
  | _ => False

/-- The first call that a request makes of the file system, for the requests that store
blocks. -/
inductive Asks : Call → Op → Prop
  | write {ino : UInt64} {id : Nat} (offset : Int64) (data : Bytes) (h : idOf ino = .ok id) :
      Asks (.write ino offset data) (.writeAt id offset.toUInt64.toNat data)
  | create {ino : UInt64} {id : Nat} (name : String) (mode : UInt32) (h : idOf ino = .ok id) :
      Asks (.create ino (Utf8.encode name) mode) (.create id name)
  | mkdir {ino : UInt64} {id : Nat} (name : String) (mode : UInt32) (h : idOf ino = .ok id) :
      Asks (.mkdir ino (Utf8.encode name) mode) (.mkdir id name)
  | symlink {ino : UInt64} {id : Nat} (name target : String) (h : idOf ino = .ok id) :
      Asks (.symlink ino (Utf8.encode name) (Utf8.encode target)) (.symlink id name target)
  | unlink {ino : UInt64} {id : Nat} (name : String) (h : idOf ino = .ok id) :
      Asks (.unlink ino (Utf8.encode name)) (.unlink id name)
  | rename {ino ino' : UInt64} {id id' : Nat} (name name' : String) (h : idOf ino = .ok id)
      (h' : idOf ino' = .ok id') :
      Asks (.rename ino (Utf8.encode name) ino' (Utf8.encode name')) (.rename id name id' name')

/-! ## The errno of a failed call -/

section Errno

variable {α β : Type} {f : BloomFuse} {fs : FS} {e : Fs.Error}

theorem map_error {g : α → β} {x : Act env α} {s : FS} (h : (g <$> x).1 s = .error (.err e) fs) :
    x.1 s = .error (.err e) fs := by
  change (g <$> x.1) s = _ at h
  rw [map_eq_pure_bind] at h
  cases hx : x.1 s with
  | ok a s' =>
    rw [bind_of_ok hx] at h
    cases h
  | error e' s' =>
    rw [bind_of_error hx] at h
    cases h
    rfl

theorem map_of_error {g : α → β} {x : Handler α} {n : Errno} {f' : BloomFuse}
    (h : x f = .error (.err n) f') : (g <$> x) f = .error (.err n) f' := by
  rw [map_eq_pure_bind, bind_of_error h]

theorem handler_of_error {req : Request} {c : Call} {op : Op} {handles : List Handle}
    (ha : Asks c op) (h : (actOf env handles op).1 f.fs = .error (.err e) fs) :
    handler env req c f = .error (.err (errno e)) { f with fs := fs } := by
  cases ha with
  | write offset data hid =>
    apply map_of_error
    unfold write
    rw [bind_of_ok (ofExcept_idOf hid), bind_of_error (onFs_error (map_error h))]
  | create name mode hid =>
    apply map_of_error
    unfold create
    rw [bind_of_ok (toStr_encode name), bind_of_ok (ofExcept_idOf hid),
      bind_of_error (onFs_error (map_error h))]
  | mkdir name mode hid =>
    apply map_of_error
    unfold mkdir
    rw [bind_of_ok (toStr_encode name), bind_of_ok (ofExcept_idOf hid),
      bind_of_error (onFs_error (map_error h))]
  | symlink name target hid =>
    apply map_of_error
    unfold symlink
    rw [bind_of_ok (toStr_encode name), bind_of_ok (toStr_encode target),
      bind_of_ok (ofExcept_idOf hid), bind_of_error (onFs_error (map_error h))]
  | unlink name hid =>
    apply map_of_error
    unfold unlink
    rw [bind_of_ok (toStr_encode name), bind_of_ok (ofExcept_idOf hid),
      onFs_error (map_error h)]
  | rename name name' hid hid' =>
    apply map_of_error
    unfold rename
    rw [bind_of_ok (toStr_encode name), bind_of_ok (toStr_encode name'),
      bind_of_ok (ofExcept_idOf hid), bind_of_ok (ofExcept_idOf hid'), onFs_error (map_error h)]

end Errno

/-! ## When there is room -/

theorem asks_answers {c : Call} {op : Op} (ha : Asks c op) : Answers op := by
  cases ha <;> trivial

/-- The machine does not run out of clusters. -/
theorem asks_avoids {c : Call} {op : Op} {handles : List Handle} {e : Fs.Error} (ha : Asks c op)
    (he : e.Storage) : Avoids e (planOf env handles op) := by
  have hmap : ∀ {α : Type} {g : α → Reply} {x : Step α}, Avoids e x → Avoids e (g <$> x) :=
    fun hx t => sat_map ((hx t).mono (fun _ _ h => h) (fun _ _ h => h))
  cases ha with
  | write offset data _ => exact hmap (writeAt_avoids he env _ _ data)
  | create name _ _ => exact hmap (createNode_avoids he env _ name _ _)
  | mkdir name _ _ => exact hmap (createNode_avoids he env _ name _ _)
  | symlink name target _ => exact hmap (symlink_avoids he env _ name target)
  | unlink name _ => exact hmap (unlink_avoids he env _ name)
  | rename name name' _ _ => exact hmap (rename_avoids he env _ name _ name')

/-- The data area is as large as all that was stored so far and all that `op` stores. -/
structure Ample (env : Env) (s : Session) (op : Op) (t : State) (l : List Charge) : Prop where
  rep : Rep env s.fs t
  ready : Ready t s.handles
  apart : Apart t op
  clear : Clear env l
  roomy : Roomy l s.fs
  ledger : (final ((planOf env s.handles op).1 t)).log <+: l

theorem Ample.not_refused {s : Session} {c : Call} {op : Op} {t : State} {l : List Charge} {fs : FS}
    (h : Ample env s op t l) (ha : Asks c op) :
    (actOf env s.handles op).1 s.fs ≠ .error (.err (.store (.alloc .noSpace))) fs := by
  intro hrun
  have he : Fs.Error.Storage (.store (.alloc .noSpace)) := trivial
  have hsim := act_sim (B := .upTo l) h.clear.lawful h.rep h.ready.toSane s.handles
    (asks_answers ha) h.apart h.ledger
  have hsteady := ((actOf env s.handles op).2 _ (steady_closed s.fs) s.fs (.refl _)).error hrun
  cases hsim.error hrun (h.clear.not_broken _) with
  | same t' hplan _ => exact ((asks_avoids ha he) t).error hplan rfl
  | halt hh => exact h.clear.not_halt (h.roomy.of_steady hsteady) hh

/-- The rule for `c`, whose first call is `op`: a failure for want of space is sent as
`ENOSPC`. -/
def SpaceRule (env : Env) (req : Request) (f : BloomFuse) (handles : List Handle)
    (c : Call) (op : Op) : Prop :=
  ∀ e fs, (actOf env handles op).1 f.fs = .error (.err e) fs → WantsSpace e →
    ∃ f', handler env req c f = .error (.err .enospc) f'

/-- The rule is kept by exactly the requests that are not refused a block. -/
theorem spaceRule_iff {req : Request} {f : BloomFuse} {handles : List Handle} {c : Call} {op : Op}
    (ha : Asks c op) : SpaceRule env req f handles c op ↔
      ∀ fs, (actOf env handles op).1 f.fs ≠ .error (.err (.store (.alloc .noSpace))) fs := by
  constructor
  · intro h fs hrun
    obtain ⟨f', hf'⟩ := h _ fs hrun trivial
    rw [handler_of_error ha hrun] at hf'
    cases hf'
  · intro h e fs hrun hwants
    have herrno : errno e = .enospc := by
      cases e with
      | noInodes => rfl
      | noSpace => rfl
      | store e =>
        cases e with
        | alloc e =>
          cases e with
          | noSpace => exact absurd hrun (h fs)
          | _ => exact hwants.elim
        | _ => exact hwants.elim
      | _ => exact hwants.elim
    rw [← herrno]
    exact ⟨_, handler_of_error ha hrun⟩

/-- In every state of a run on a device without errors, `bsWrite` fails exactly when no
run of clusters would do, whatever was released; and a request that is refused no block,
as when the data area is as large as all that is stored, is told `ENOSPC` whenever it
fails for want of space. -/
theorem space_reported (hl : env.Lawful) {past : List Session} {s : Session}
    (run : Run env Disk.Reliable (fun _ _ _ => True) past s) :
    (∀ b c, env.encodeAll b = some c → Cow.Fits s.fs.ub s.fs.bm s.fs.ddt s.fs.inodes →
      s.fs.ub.seq.toNat + 1 < 2 ^ 64 →
      ((∃ e fs, (bsWrite b : Act env Ref).1 s.fs = .error (.err e) fs) ↔ Unstorable env s.fs b)) ∧
    (∀ req f c op, f.fs = s.fs → Asks c op →
      (SpaceRule env req f s.handles c op ↔
        ∀ fs, (actOf env s.handles op).1 s.fs ≠ .error (.err (.store (.alloc .noSpace))) fs)) ∧
    ∀ req f c op t l, f.fs = s.fs → Asks c op → Ample env s op t l →
      SpaceRule env req f s.handles c op := by
  have hw := working_of_run run
  refine ⟨fun b c henc hfits hseq => ?_, fun req f c op hf ha => ?_,
    fun req f c op t l hf ha h => ?_⟩
  · exact bsWrite_fails_iff hl hw henc hfits ⟨hseq, hw.placed.activeMeta_le⟩
  · rw [← hf]
    exact spaceRule_iff ha
  · refine (spaceRule_iff ha).mpr fun fs => ?_
    rw [hf]
    exact h.not_refused ha

/-- A write to a new file on a device with room. -/
theorem space_reported_roomy : ∃ past s t l,
    Run Env.plain Disk.Reliable (fun _ _ _ => True) past s ∧
    Ample Env.plain s (.writeAt 1 0 [7]) t l ∧
      ∀ req f, f.fs = s.fs →
        SpaceRule Env.plain req f s.handles (.write 2 0 [7]) (.writeAt 1 0 [7]) := by
  have hscript : ∃ x ∈ script Env.plain Fair [.create 0 "a"] (fresh Env.plain) [],
      Sketched (final ((planOf Env.plain x.2 (.writeAt 1 0 [7])).1 x.1)).paid ∧
        (final ((planOf Env.plain x.2 (.writeAt 1 0 [7])).1 x.1)).paid.length ≤ 256 := by
    decide
  obtain ⟨⟨t, handles⟩, hx, hsketch, hfew⟩ := hscript
  dsimp only at hsketch hfew
  have hgrown : t.log <+: (final ((planOf Env.plain handles (.writeAt 1 0 [7])).1 t)).log :=
    (planOf Env.plain handles (.writeAt 1 0 [7])).le_final t
  obtain ⟨hclear, fs₀, run₀, htrack₀⟩ :=
    start_track (D := Disk.Reliable) (P := fun _ _ _ => True) hsketch hfew (reliable_zeroed _ _)
  obtain ⟨past, s, run, rfl, htrack, horder⟩ := fair_exact (k := 1) hclear (fun _ _ h => h)
    (fun _ _ _ _ _ _ _ _ _ _ => trivial) (by simp [Plays, Answers]) run₀ (htrack₀.mono (by decide))
    (orderly_fresh _) hx hgrown
  have hfair : Fair t.view (.writeAt 1 0 [7]) := trivial
  have hample : Ample Env.plain s (.writeAt 1 0 [7]) t _ :=
    ⟨htrack.rep, horder.ready, apart_of_fair hfair, hclear, htrack.roomy, List.prefix_refl _⟩
  exact ⟨past, s, t, _, run, hample, fun req f hf =>
    (space_reported Env.plain_lawful run).2.2 req f _ _ t _ hf (.write 0 [7] rfl) hample⟩

/-- On a device of 404 blocks, of which 15 are free, an empty file is written 64 records of
8 clusters each.  The call runs out of clusters, and the kernel is told of an I/O error. -/
theorem no_space_is_eio : ∃ past s data, Run Env.plain Disk.Reliable (fun _ _ _ => True) past s ∧
    Cow.Fits s.fs.ub s.fs.bm s.fs.ddt s.fs.inodes ∧
    ∃ fs, (actOf Env.plain s.handles (.writeAt 1 0 data)).1 s.fs =
        .error (.err (.store (.alloc .noSpace))) fs ∧
      ∀ req f, f.fs = s.fs →
        handler Env.plain req (.write 2 0 data) f = .error (.err .eio) { f with fs := fs } := by
  have hslot : Cow.slotBlocks 404 defaultInodeCount defaultDdtReserve = 193 := by decide
  obtain ⟨past, s, run, h, -⟩ := Runs.oneFile ground_plain (by decide) hslot (by decide)
  refine ⟨past, s, Runs.counting 64, run.mono (fun _ hd => hd) fun _ _ _ _ => trivial, h.fits, ?_⟩
  have hrefused := h.writeAt_refused ground_plain Runs.bulky_zeros (m := 64) (by decide) (by decide)
    (by decide)
  obtain ⟨fs, hrun⟩ : ∃ fs, (writeAt 1 0 (Runs.counting 64) : Act Env.plain Unit).1 s.fs =
      .error (.err (.store (.alloc .noSpace))) fs := by
    cases hr : (writeAt 1 0 (Runs.counting 64) : Act Env.plain Unit).1 s.fs with
    | ok a fs => exact (hrefused.ok hr).elim
    | error f fs =>
      rw [hrefused.error hr]
      exact ⟨fs, rfl⟩
  have hact : (actOf Env.plain s.handles (.writeAt 1 0 (Runs.counting 64))).1 s.fs =
      .error (.err (.store (.alloc .noSpace))) fs := bind_of_error hrun
  refine ⟨fs, hact, fun req f hf => ?_⟩
  rw [← hf] at hact
  exact handler_of_error (.write 0 _ rfl) hact

end Fuse
end BloomFS
