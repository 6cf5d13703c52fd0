/-
The loop check of `rename`.

In a tree the search below the directory that moves ends, and finds the destination
exactly when it lies there.  No other part of a rename answers `invalid`.
-/
import BloomFS.Lib.Forest
import BloomFS.Spec.Errors
import BloomFS.Spec.Tree

namespace BloomFS
namespace Spec

open Bytes Exec Dir Fs Store
open Relation (ReflTransGen TransGen)

variable {v : View} {t : State} {handles : List Handle} {env : Env}

/-! ## The directories as a forest -/

/-- The directories in directory `d`, last first. -/
def View.subs (v : View) (d : Nat) : List Nat :=
  if (v.node d).isDir then
    (((v.node d).entries.filter fun e => (v.node e.inode).isDir).map (·.inode)).reverse
  else []

theorem mem_subs {d c : Nat} : c ∈ v.subs d ↔ v.Sub d c := by
  unfold View.subs View.Sub
  by_cases hd : (v.node d).isDir
  · rw [if_pos hd, List.mem_reverse, List.mem_map]
    constructor
    · rintro ⟨e, he, rfl⟩
      obtain ⟨hmem, hdir⟩ := List.mem_filter.mp he
      exact ⟨hd, of_decide_eq_true hdir, e, hmem, rfl⟩
    · rintro ⟨-, hc, e, he, rfl⟩
      exact ⟨e, List.mem_filter.mpr ⟨he, decide_eq_true hc⟩, rfl⟩
  · rw [if_neg hd]
    exact ⟨fun h => absurd h List.not_mem_nil, fun h => absurd h.1 hd⟩

theorem child_eq : Forest.Child v.subs = v.Sub := by
  funext d c
  exact propext mem_subs

theorem Arranged.subs_nodup (h : Arranged v handles) (d : Nat) : (v.subs d).Nodup := by
  unfold View.subs
  by_cases hd : (v.node d).isDir
  · rw [if_pos hd, List.nodup_reverse, List.nodup_iff_count_le_one]
    intro c
    by_cases hc : (v.node c).isDir
    · have hlt := (h.slots.used_of_dir hd).lt h.slots
      have hle : (v.node d).naming c ≤ v.names c := View.naming_le_names hlt
      have hone := h.linked.dirs c hc
      rw [Outline.naming_of_dir hd] at hle
      have hsub : (((v.node d).entries.filter fun e => (v.node e.inode).isDir).map (·.inode)).count
        c ≤ (v.node d).entries.countP (·.inode = c) := by
        rw [List.count_eq_countP, List.countP_map]
        refine (List.Sublist.countP_le List.filter_sublist).trans (le_of_eq ?_)
        exact List.countP_congr fun e _ => by simp
      omega
    · refine (List.count_eq_zero.mpr fun hm => ?_).trans_le (Nat.zero_le 1)
      obtain ⟨e, he, rfl⟩ := List.mem_map.mp hm
      exact hc (of_decide_eq_true (List.mem_filter.mp he).2)
  · rw [if_neg hd]
    exact List.nodup_nil

theorem Arranged.forest (h : Arranged v handles) : Forest.IsForest v.subs where
  nodup := h.subs_nodup
  parent hb hb' := h.parent_unique (mem_subs.mp hb) (mem_subs.mp hb')
  acyclic d := by
    rw [child_eq]
    exact h.acyclic d

/-! ## The search -/

theorem subdirs_eq {l : List DirEntry} (h : ∀ e ∈ l, e.inode < t.cap) :
    subdirs t l = .ok ((l.filter fun e => (t.view.node e.inode).isDir).map (·.inode)) := by
  induction l with
  | nil => rfl
  | cons e l ih =>
    have he : ¬ t.cap ≤ e.inode := Nat.not_le.mpr (h e List.mem_cons_self)
    rw [subdirs, if_neg he, ih fun e he => h e (List.mem_cons_of_mem _ he), ok_bind]
    by_cases hd : (t.node e.inode).isDir
    · have hdir : (t.view.node e.inode).isDir := hd
      rw [if_pos hd, List.filter_cons, if_pos (decide_eq_true hdir)]
      rfl
    · have hdir : ¬ (t.view.node e.inode).isDir := hd
      rw [if_neg hd, List.filter_cons, if_neg (by simpa using hdir)]
      rfl

/-- The walk is the search of the forest. -/
theorem walk_of_search (h : Arranged t.view handles) {target fuel : Nat}
    {stack : List Nat} {b : Bool} (hstack : ∀ d ∈ stack, (t.view.node d).isDir)
    (hsearch : Forest.search t.view.subs target fuel stack = some b) :
    walk t target fuel stack = .ok b := by
  induction fuel generalizing stack with
  | zero => cases hsearch
  | succ fuel ih =>
    cases stack with
    | nil =>
      cases hsearch
      rfl
    | cons d stack =>
      have hd := hstack d List.mem_cons_self
      have hlt : d < t.cap := (h.slots.used_of_dir hd).lt h.slots
      rw [Forest.search] at hsearch
      rw [walk]
      by_cases heq : d = target
      · rw [if_pos heq] at hsearch ⊢
        cases hsearch
        rfl
      · rw [if_neg heq] at hsearch
        have hin : ∀ e ∈ (t.node d).entries, e.inode < t.cap := fun e he =>
          (h.linked.of_mem hlt hd (show ⟨e.name, e.inode⟩ ∈ (t.view.node d).entries from he)).1.lt
            h.slots
        have hbelow : subdirs t (t.node d).entries = .ok (t.view.subs d).reverse := by
          rw [subdirs_eq hin]
          unfold View.subs
          rw [if_pos hd, List.reverse_reverse]
          rfl
        have hd' : (t.node d).isDir := hd
        rw [if_neg heq, if_neg (Nat.not_le.mpr hlt), if_neg (not_not.mpr hd'), hbelow, ok_bind,
          List.reverse_reverse]
        refine ih (fun x hx => ?_) hsearch
        rcases List.mem_append.mp hx with hx | hx
        · exact (mem_subs.mp hx).2.1
        · exact hstack x (List.mem_cons_of_mem _ hx)

theorem walk_exact (h : Arranged t.view handles) {root fuel : Nat}
    (hroot : (t.view.node root).isDir) (target : Nat) (hfuel : t.cap < fuel) :
    ∃ b, walk t target fuel [root] = .ok b ∧ (b = true ↔ ReflTransGen t.view.Sub root target) := by
  have hlt : ∀ d, (t.view.node d).isDir → d ∈ Finset.range t.cap := fun d hd =>
    Finset.mem_range.mpr ((h.slots.used_of_dir hd).lt h.slots)
  obtain ⟨b, hb, hiff⟩ := h.forest.search_from (fun a _ c hc => hlt c (mem_subs.mp hc).2.1)
    (hlt root hroot) target (by rw [Finset.card_range]; exact hfuel)
  refine ⟨b, walk_of_search h (by simpa using hroot) hb, ?_⟩
  rw [hiff, Forest.Below, child_eq]

theorem loops_exact (h : Arranged t.view handles) {src dst id : Nat} (hne : src ≠ dst)
    (hid : (t.view.node id).isDir) :
    ∃ b, loops t src dst id = .ok b ∧ (b = true ↔ ReflTransGen t.view.Sub id dst) := by
  have hlt : id < t.cap := (h.slots.used_of_dir hid).lt h.slots
  unfold loops
  rw [if_neg hne, if_neg (Nat.not_le.mpr hlt), if_pos (show (t.node id).isDir from hid)]
  exact walk_exact h hid dst h.slots.cap_lt

/-! ## Where `invalid` comes from -/

section Invalid

variable (env)

/-- A directory that moves to another parent is refused as invalid exactly when the
new parent is the directory or lies below it. -/
theorem rename_invalid (h : Arranged t.view handles) {src dst id : Nat} {sn dn : String}
    (hne : src ≠ dst) (hsrc : (t.view.node src).isDir) (hm : ⟨sn, id⟩ ∈ (t.view.node src).entries)
    (hid : (t.view.node id).isDir) :
    Sat (rename env src sn dst dn).1 t (fun _ _ => ¬ ReflTransGen t.view.Sub id dst)
      (fun f _ => f = .err .invalid ↔ ReflTransGen t.view.Sub id dst) := by
  have hlt : src < t.cap := (h.slots.used_of_dir hsrc).lt h.slots
  have hfind : Work.find ⟨t.node src, (t.node src).pages, []⟩ sn = some id :=
    (find_some_iff (h.linked.paged src hlt hsrc)).mpr hm
  obtain ⟨b, hloops, hb⟩ := loops_exact h hne hid
  have hrun := run_checkout t src
  rw [if_neg (Nat.not_le.mpr hlt), if_pos (show (t.node src).isDir from hsrc)] at hrun
  unfold rename
  refine sat_bind (Q := fun w t' => t' = t ∧ w = ⟨t.node src, (t.node src).pages, []⟩)
    (E := fun _ _ => False) ?_ ?_ (fun _ _ => False.elim)
  · unfold Sat
    rw [hrun]
    exact ⟨rfl, rfl⟩
  rintro w t' ⟨rfl, rfl⟩
  dsimp only
  rw [hfind]
  refine Within.sat_ite (fun heq => sat_fail ?_) (fun hdst => sat_get_bind ?_)
  · rw [heq]
    exact iff_of_true rfl .refl
  refine sat_bind (sat_ofExcept (Q := fun a t'' => a = b ∧ t'' = t') (E := fun _ _ => False)
    (fun a ha => ⟨?_, rfl⟩) (fun f hf => ?_)) ?_ (fun _ _ => False.elim)
  · rw [hloops] at ha
    exact (Except.ok.inj ha).symm
  · rw [hloops] at hf
    cases hf
  rintro a t'' ⟨rfl, rfl⟩
  refine Within.sat_ite (fun htrue => sat_fail (iff_of_true rfl (hb.mp htrue))) (fun hfalse => ?_)
  have hno : ¬ ReflTransGen t''.view.Sub id dst := fun hpath => hfalse (hb.mpr hpath)
  rw [if_neg hne]
  -- nothing after the check answers `invalid`
  refine Sat.mono (Q := fun _ _ => True) (E := fun f _ => f ≠ .err .invalid) ?_ (fun _ _ _ => hno)
    (fun f _ hf => iff_of_false hf hno)
  have hr : Rare .invalid := ⟨by simp, by simp⟩
  refine avoids_bind (checkout_avoids hr dst) (fun dw =>
    avoids_bind (renameOverwrite_avoids hr env dw dn id) fun o => ?_) t''
  cases o with
  | none => exact avoids_pure _
  | some dw =>
    exact avoids_bind (touchMoved_avoids hr env id) fun _ =>
      avoids_bind (flush_avoids hr env dst _) fun _ => flush_avoids hr env src _

end Invalid

end Spec
end BloomFS
