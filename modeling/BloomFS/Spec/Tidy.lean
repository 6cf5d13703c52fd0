/-
Slots that are not handed out are blank.

As long as callers write only to ids that are handed out, an id on the free list has
an empty slot, and a new inode therefore replaces no contents.
-/
import BloomFS.Spec.Count
import BloomFS.Spec.Tree

namespace BloomFS
namespace Spec

open Bytes Exec Dir Fs Store

structure Tidy (v : View) : Prop where
  blank : ∀ id, ¬ v.Used id → ∃ g, v.node id = Spec.blank g
  clean : v.clean = true

variable {v v' : View} {handles : List Handle} {gone : Nat → Nat} {d id : Nat} {o : Outline}

theorem Tidy.set (h : Tidy v) (hd : v.Used d) : Tidy (v.set d o) where
  blank i hi := by
    have hne : i ≠ d := by
      rintro rfl
      exact hi hd
    rw [View.node_set_of_ne hne]
    exact h.blank i hi
  clean := h.clean

theorem Tidy.reclaim (h : Tidy v) : Tidy (v.reclaim id) where
  blank i hi := by
    by_cases heq : i = id
    · rw [heq, node_reclaim_self]
      exact ⟨_, rfl⟩
    · rw [node_reclaim_of_ne heq]
      exact h.blank i fun hu => hi (used_reclaim.mpr ⟨hu, heq⟩)
  clean := h.clean

theorem Tidy.drop (h : Tidy v) (hu : v.Used id) : Tidy (v.drop id) := by
  unfold View.drop
  dsimp only
  split
  · exact h.reclaim
  · exact h.set hu

theorem Tidy.withOpens (h : Tidy v) (opens : Nat → UInt32) : Tidy { v with opens := opens } :=
  ⟨h.blank, h.clean⟩

theorem Tidy.close (h : Tidy v) : Tidy (v.close id) := by
  unfold View.close
  dsimp only
  split
  · exact (h.withOpens _).reclaim
  · exact h.withOpens _

theorem used_drop_of_ne {i : Nat} (hne : i ≠ id) (hu : v.Used i) : (v.drop id).Used i := by
  unfold View.drop
  dsimp only
  split
  · exact used_reclaim.mpr ⟨hu, hne⟩
  · exact hu

theorem Created.tidy {parent : Nat} {name : String} {kind : UInt8} {data : Bytes}
    (hc : Created v parent name kind data id v') (hs : Slots v handles) (h : Tidy v) : Tidy v' := by
  cases hc with
  | @mk v₁ l o' hp hd ha hid hl hsucc habs he =>
    obtain ⟨g, hblank⟩ := h.blank id (not_used_of_alloc ha)
    obtain ⟨hnode, -, -, -⟩ := View.alloc_same ha
    have hused : ∀ i, v₁.Used i ↔ v.Used i ∨ i = id := fun _ => used_alloc hs ha
    refine ⟨fun i hi => ?_, ?_⟩
    · have hi : ¬ v₁.Used i := hi
      obtain ⟨hold, hnew⟩ := not_or.mp ((hused i).not.mp hi)
      have hne : i ≠ parent := by
        rintro rfl
        exact hold (hs.used_of_dir hd)
      show ∃ g, ((v₁.set id _).set parent o').node i = Spec.blank g
      rw [View.node_set_of_ne hne, View.node_set_of_ne hnew, hnode]
      exact h.blank i hold
    · show (v.clean && (v.node id).blob.isEmpty) = true
      rw [h.clean, hblank]
      rfl

/-- What a rename replaced is dropped, and its directories stay handed out. -/
theorem Replaced.tidy {dst : Nat} {dn : String} {old : List DirEntry} {v₁ : View}
    (hr : Replaced v dst dn id old v₁) (hn : Linked v gone) (hq : dst < v.cap)
    (hdd : (v.node dst).isDir) (h : Tidy v) :
    Tidy v₁ ∧ ∀ i, (∀ j, ⟨dn, j⟩ ∈ (v.node dst).entries → j ≠ i) → v.Used i → v₁.Used i := by
  cases hr with
  | absent => exact ⟨h, fun _ _ hu => hu⟩
  | dropped hm _ _ =>
    exact ⟨h.drop (hn.of_mem hq hdd hm).1, fun i hne hu => used_drop_of_ne (Ne.symm (hne _ hm)) hu⟩

/-- Slots stay blank over an operation that writes to an id in use. -/
theorem Change.tidy {op : Op} {r : Reply} (hc : Change handles v op r v') (hs : Slots v handles)
    (hn : Linked v gone) (hf : Fair v op) (hw : ∀ id f, writes op = some (id, f) → v.Used id)
    (h : Tidy v) :
    Tidy v' := by
  cases hc with
  | quiet => exact h
  | write hop hid hk => exact h.set (hw _ _ hop)
  | create _ hc => exact hc.tidy hs h
  | @unlink parent id name o' hp hd hm hid hfile he =>
    have h₁ : Tidy (v.set parent o') := h.set (hs.used_of_dir hd)
    exact h₁.drop (View.used_set.mpr (hn.of_mem hp hd hm).1)
  | @rmdir parent id name o' hp hd hm hid hdir hempty he =>
    have h₁ : Tidy (v.set parent o') := h.set (hs.used_of_dir hd)
    exact h₁.reclaim
  | link hp hd ht hfile hsucc habs he =>
    exact (h.set hf).set (View.used_set.mpr (hs.used_of_dir hd))
  | stay => exact h
  | @within src id sn dn old v₁ o' hp hd hm hr he =>
    obtain ⟨h₁, hkeep⟩ := hr.tidy hn hp hd h
    exact h₁.set (hkeep src (hf hp hd hp hd) (hs.used_of_dir hd))
  | @across src dst id sn dn old v₁ s' d' hne hp hsd hq hdd hm hloop hr hed hes =>
    obtain ⟨h₁, hkeep⟩ := hr.tidy hn hq hdd h
    have hdst := hkeep dst (fun _ hj => hn.ne_of_mem hdd hj) (hs.used_of_dir hdd)
    have hsrc := hkeep src (hf hp hsd hq hdd) (hs.used_of_dir hsd)
    exact (h₁.set hdst).set (View.used_set.mpr hsrc)
  | openFile => exact h.withOpens _
  | close => exact h.close

/-- Slots stay blank over a mount if no inode in use is without links. -/
theorem Tidy.reopen {t : State} (h : Tidy t.view) (hs : Slots t.view handles)
    (hn : Linked t.view gone)
    (hlinks : ∀ id, t.view.Used id → (t.view.node id).nlink ≠ 0) (hlev : t.count = t.next) :
    Tidy t.reopen.view where
  blank id hid := h.blank id fun hu => hid ((used_reopen hs hn hlev).mpr ⟨hu, hlinks id hu⟩)
  clean := h.clean

end Spec
end BloomFS
