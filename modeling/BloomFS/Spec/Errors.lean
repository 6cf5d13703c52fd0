/-
Errors the machine does not raise.

Every call may find a slot out of range or a file where it wants a directory.  Any
other error comes from one place, and an error of the store from none.
-/
import BloomFS.Spec.Calls
import BloomFS.Spec.Effects

namespace BloomFS
namespace Spec

open Bytes Exec Dir Fs Store

/-- An error that is not raised by looking at a slot. -/
structure Rare (e : Fs.Error) : Prop where
  slot : e ≠ .inode .outOfRange
  dir : e ≠ .notDir

section Rare

variable {e : Fs.Error} (hr : Rare e) (env : Env)
include hr

theorem getNode_avoids (id : Nat) : Avoids e (getNode id) :=
  avoids_bind avoids_get fun _ => avoids_ite (avoids_fail hr.slot.symm) (avoids_pure _)

theorem putNode_avoids (id : Nat) (n : Node) : Avoids e (putNode id n) :=
  avoids_bind avoids_get fun _ => avoids_ite (avoids_fail hr.slot.symm) avoids_modify

omit hr in
theorem now_avoids : Avoids e (now env) :=
  avoids_bind avoids_get fun _ => avoids_bind avoids_modify fun _ => avoids_pure _

theorem checkout_avoids (id : Nat) : Avoids e (checkout id) :=
  avoids_bind (getNode_avoids hr id) fun _ => avoids_ite (avoids_pure _) (avoids_fail hr.dir.symm)

theorem reclaim_avoids (id : Nat) (n : Node) : Avoids e (reclaim id n) :=
  avoids_bind (avoids_ite (avoids_pure _) avoids_panic) fun _ =>
    avoids_bind (putNode_avoids hr id _) fun _ => avoids_modify

theorem dropLink_avoids (id : Nat) (n : Node) : Avoids e (dropLink env id n) :=
  avoids_bind avoids_get fun _ => avoids_ite (reclaim_avoids hr id _)
    (avoids_bind (now_avoids env) fun _ => putNode_avoids hr id _)

theorem flushPage_avoids (id : Nat) (pages : List (List DirEntry)) (n : Node) (p : Nat) :
    Avoids e (flushPage env id pages n p) := by
  unfold flushPage
  cases pages[p]? with
  | none => exact avoids_panic
  | some c =>
    exact avoids_ite avoids_panic (avoids_bind avoids_modify fun _ => avoids_bind (now_avoids env)
        fun _ =>
      avoids_bind (putNode_avoids hr id _) fun _ => avoids_pure _)

theorem flush_avoids (id : Nat) (w : Work) : Avoids e (flush env id w) :=
  avoids_bind (avoids_bind avoids_get fun _ => avoids_bind avoids_modify fun _ => avoids_pure _)
      fun _ =>
    avoids_bind (avoids_foldlM (flushPage_avoids hr env id w.pages) _ _) fun _ => avoids_pure _

theorem renameOverwrite_avoids (w : Work) (dn : String) (id : Nat) :
    Avoids e (renameOverwrite env w dn id) := by
  unfold renameOverwrite
  cases w.find dn with
  | none => exact avoids_pure _
  | some old =>
    exact avoids_ite (avoids_pure _) (avoids_bind (getNode_avoids hr old) fun n =>
      avoids_bind (dropLink_avoids hr env old n) fun _ => avoids_pure _)

theorem touchMoved_avoids (id : Nat) : Avoids e (touchMoved env id) :=
  avoids_bind avoids_get fun _ => avoids_ite (avoids_pure _)
    (avoids_bind (now_avoids env) fun _ => putNode_avoids hr id _)

omit env in
theorem subdirs_avoids (t : State) (l : List DirEntry) : subdirs t l ≠ .error (.err e) := by
  induction l with
  | nil => simp [subdirs]
  | cons d l ih =>
    unfold subdirs
    by_cases hd : t.cap ≤ d.inode
    · rw [if_pos hd]
      intro h
      exact hr.slot (Fault.err.inj (Except.error.inj h)).symm
    · rw [if_neg hd]
      cases hrest : subdirs t l with
      | error f =>
        intro h
        cases h
        exact ih hrest
      | ok rest =>
        intro h
        cases h

omit env in
theorem walk_avoids (t : State) (target fuel : Nat) (stack : List Nat) :
    walk t target fuel stack ≠ .error (.err e) := by
  induction fuel generalizing stack with
  | zero =>
    unfold walk
    simp
  | succ fuel ih =>
    cases stack with
    | nil => simp [walk]
    | cons d stack =>
      unfold walk
      by_cases htarget : d = target
      · simp [htarget]
      rw [if_neg htarget]
      by_cases hd : t.cap ≤ d
      · rw [if_pos hd]
        intro h
        exact hr.slot (Fault.err.inj (Except.error.inj h)).symm
      rw [if_neg hd]
      by_cases hdir : (t.node d).isDir
      · rw [if_neg (not_not.mpr hdir)]
        cases hsub : subdirs t (t.node d).entries with
        | error f =>
          intro h
          cases h
          exact subdirs_avoids hr t _ hsub
        | ok below => exact ih _
      · rw [if_pos hdir]
        intro h
        exact hr.dir (Fault.err.inj (Except.error.inj h)).symm

omit env in
theorem loops_avoids (t : State) (src dst id : Nat) : loops t src dst id ≠ .error (.err e) := by
  unfold loops
  by_cases hsame : src = dst
  · simp [hsame]
  rw [if_neg hsame]
  by_cases hid : t.cap ≤ id
  · rw [if_pos hid]
    intro h
    exact hr.slot (Fault.err.inj (Except.error.inj h)).symm
  rw [if_neg hid]
  by_cases hdir : (t.node id).isDir
  · rw [if_pos hdir]
    exact walk_avoids hr t dst _ _
  · simp [hdir]

end Rare

/-! ## No store, no error of it -/

section Storage

variable {e : Fs.Error} (he : e.Storage) (env : Env)
include he

theorem rare_of_storage : Rare e := by
  constructor
  · rintro rfl
    exact he
  · rintro rfl
    exact he

theorem ne_of_storage {e' : Fs.Error} (h : ¬ e'.Storage) : e' ≠ e := by
  rintro rfl
  exact h he

theorem setData_avoids (id : Nat) (n : Node) (blob : Bytes) : Avoids e (setData env id n blob) :=
  avoids_ite avoids_panic (avoids_bind avoids_modify fun _ => avoids_bind (now_avoids env) fun _ =>
    putNode_avoids (rare_of_storage he) id _)

theorem writeRange_avoids (id : Nat) (n : Node) (off : Nat) (data : Bytes) :
    Avoids e (writeRange env id n off data) :=
  avoids_ite (avoids_pure _) (avoids_ite avoids_panic (avoids_bind avoids_modify fun _ =>
    avoids_bind (now_avoids env) fun _ => putNode_avoids (rare_of_storage he) id _))

theorem regular_avoids (id : Nat) : Avoids e (regular id) :=
  avoids_bind (getNode_avoids (rare_of_storage he) id) fun _ =>
    avoids_ite (avoids_fail (ne_of_storage he fun h => h)) (avoids_pure _)

theorem allocInode_avoids : Avoids e allocInode := by
  refine avoids_bind avoids_get fun t => ?_
  cases t.free with
  | nil =>
    exact avoids_ite (avoids_fail (ne_of_storage he fun h => h)) (avoids_bind avoids_modify fun _ =>
      avoids_pure _)
  | cons id rest => exact avoids_bind avoids_modify fun _ => avoids_pure _

theorem createNode_avoids (parent : Nat) (name : String) (kind : UInt8) (mode : UInt16) :
    Avoids e (createNode env parent name kind mode) := by
  have hr := rare_of_storage he
  refine avoids_bind (checkout_avoids hr parent) fun w =>
    avoids_ite (avoids_fail (ne_of_storage he fun h => h)) ?_
  exact avoids_bind (allocInode_avoids he) fun id => avoids_bind (getNode_avoids hr id) fun _ =>
    avoids_bind (now_avoids env) fun _ =>
      avoids_bind (avoids_bind (getNode_avoids hr id) fun _ => avoids_bind avoids_modify fun _ =>
        putNode_avoids hr id _) fun _ => avoids_ite
          (avoids_bind (avoids_ite (avoids_pure _) avoids_panic) fun _ =>
            avoids_bind (flush_avoids hr env parent _) fun _ => avoids_pure _)
          (avoids_bind (avoids_pure _) fun _ =>
            avoids_bind (flush_avoids hr env parent _) fun _ => avoids_pure _)

theorem symlink_avoids (parent : Nat) (name target : String) :
    Avoids e (symlink env parent name target) :=
  avoids_ite (avoids_fail (ne_of_storage he fun h => h))
      (avoids_bind (createNode_avoids he env _ _ _ _) fun id =>
    avoids_bind (getNode_avoids (rare_of_storage he) id) fun _ =>
      avoids_bind (setData_avoids he env id _ _) fun _ => avoids_pure _)

theorem unlink_avoids (parent : Nat) (name : String) : Avoids e (unlink env parent name) := by
  have hr := rare_of_storage he
  refine avoids_bind (checkout_avoids hr parent) fun w => ?_
  cases w.find name with
  | none => exact avoids_fail (ne_of_storage he fun h => h)
  | some id =>
    exact avoids_bind (getNode_avoids hr id) fun n =>
      avoids_ite (avoids_fail (ne_of_storage he fun h => h))
        (avoids_bind (flush_avoids hr env parent _) fun _ => dropLink_avoids hr env id n)

theorem rename_avoids (src : Nat) (sn : String) (dst : Nat) (dn : String) :
    Avoids e (rename env src sn dst dn) := by
  have hr := rare_of_storage he
  refine avoids_bind (checkout_avoids hr src) fun sw => ?_
  cases sw.find sn with
  | none => exact avoids_fail (ne_of_storage he fun h => h)
  | some id =>
    refine avoids_ite (avoids_fail (ne_of_storage he fun h => h))
      (avoids_bind avoids_get fun t => ?_)
    have hloops : Avoids e (Within.ofExcept (loops t src dst id) : Step Bool) := fun t' =>
      sat_ofExcept (fun _ _ => trivial) (fun f hf heq => loops_avoids hr t src dst id
        (by rw [hf, heq]))
    refine avoids_bind hloops fun b => avoids_ite (avoids_fail (ne_of_storage he fun h => h))
      (avoids_ite ?_ ?_)
    · refine avoids_bind (renameOverwrite_avoids hr env sw dn id) fun o => ?_
      cases o with
      | none => exact avoids_pure _
      | some w =>
        exact avoids_bind (touchMoved_avoids hr env id) fun _ => flush_avoids hr env src _
    · refine avoids_bind (checkout_avoids hr dst) fun dw =>
        avoids_bind (renameOverwrite_avoids hr env dw dn id) fun o => ?_
      cases o with
      | none => exact avoids_pure _
      | some w =>
        exact avoids_bind (touchMoved_avoids hr env id) fun _ =>
          avoids_bind (flush_avoids hr env dst _) fun _ => flush_avoids hr env src _

theorem writeAt_avoids (id off : Nat) (data : Bytes) : Avoids e (writeAt env id off data) :=
  avoids_bind (regular_avoids he id) fun n => writeRange_avoids he env id n off data

end Storage

end Spec
end BloomFS
