/-
Open counts along runs.

In every run, whatever the device refuses and whichever calls fail or panic, the open
count of an inode is the number of handles on it that are not closed.
-/
import BloomFS.Fs.OpenCounts
import BloomFS.Refine.Plain

namespace BloomFS
namespace Runs

open Bytes Exec Block Fs Spec Refine

variable {env : Env} {s s' : Session} {id : Nat}

/-- The open counts are the numbers of handles that are not closed. -/
def Tallied (s : Session) : Prop := ∀ id, (s.fs.openCountOf id).toNat = holding s.handles id

theorem holding_append (handles : List Handle) (h : Handle) (id : Nat) :
    holding (handles ++ [h]) id = holding handles id + if h.id = id ∧ ¬ h.closed then 1 else 0 := by
  unfold holding
  rw [List.countP_append, List.countP_singleton]
  simp only [decide_eq_true_eq]

/-- Marking a handle takes it from the count of its inode. -/
theorem holding_modify {handles : List Handle} {h : Handle} {i : Nat}
    (hi : handles[i]? = some h) (id : Nat) :
    holding (handles.modify i fun h => { h with closed := true }) id +
      (if h.id = id ∧ ¬ h.closed then 1 else 0) = holding handles id := by
  unfold holding
  induction handles generalizing i with
  | nil => cases hi
  | cons x handles ih =>
    cases i with
    | zero =>
      cases hi
      rw [List.modify_zero_cons, List.countP_cons, List.countP_cons]
      simp
    | succ i =>
      rw [List.modify_succ_cons, List.countP_cons, List.countP_cons, ← ih hi]
      omega

theorem toNat_pred32 (n : UInt32) (h : 0 < n.toNat) : (pred32 n).toNat + 1 = n.toNat := by
  have hpos : 0 < n := UInt32.lt_iff_toNat_lt.mpr h
  unfold pred32
  rw [if_pos hpos, UInt32.toNat_sub_of_le _ _ (by rw [UInt32.le_iff_toNat_le]; exact h)]
  exact Nat.sub_add_cancel h

/-- A call of a session, from what its computation leaves. -/
theorem tallied_call {op : Op} (handles : Bool → List Handle)
    (hh : ∀ b, handlesAfter op b s.handles = handles b)
    (hsat : Sat (execOf env s.handles op) s.fs (fun _ fs => Tallied ⟨fs, handles true⟩)
      (fun _ fs => Tallied ⟨fs, handles false⟩)) : Tallied (call env op s).2 := by
  unfold call
  cases hr : execOf env s.handles op s.fs with
  | ok r fs =>
    show Tallied ⟨fs, handlesAfter op true s.handles⟩
    rw [hh]
    exact hsat.ok hr
  | error f fs =>
    show Tallied ⟨fs, handlesAfter op false s.handles⟩
    rw [hh]
    exact hsat.error hr

theorem tallied_of_fixed (h : Tallied s) {fs : FS} (hfs : fs.openCount = s.fs.openCount) :
    Tallied ⟨fs, s.handles⟩ := fun id => by
  rw [openCountOf_congr hfs]
  exact h id

theorem tallied_uncounted (h : Tallied s) {op : Op} (hop : op.Uncounted) :
    Tallied (call env op s).2 := by
  refine tallied_call (fun _ => s.handles) (fun b => ?_) ?_
  · cases op with
    | openFile | close => exact hop.elim
    | _ => rfl
  · exact (openFixed_execOf s.handles hop s.fs.openCount s.fs rfl).mono
      (fun _ _ hfs => tallied_of_fixed h hfs) (fun _ _ hfs => tallied_of_fixed h hfs)

theorem tallied_openFile (h : Tallied s) (id : Nat) : Tallied (call env (.openFile id) s).2 := by
  refine tallied_call (fun b => if b then s.handles ++ [⟨id, false⟩] else s.handles)
    (fun _ => rfl) ?_
  refine sat_map ((openFile_counts id s.fs).mono (fun _ fs hfs i => ?_)
    (fun _ fs hfs => tallied_of_fixed h hfs))
  obtain ⟨hlt, hcount⟩ := hfs
  show (fs.openCountOf i).toNat = holding (s.handles ++ [⟨id, false⟩]) i
  rw [hcount, holding_append, ← h i]
  by_cases hi : i = id
  · subst hi
    rw [if_pos rfl, if_pos ⟨rfl, Bool.false_ne_true⟩, UInt32.toNat_add]
    exact Nat.mod_eq_of_lt hlt
  · rw [if_neg hi, if_neg fun hand => hi hand.1.symm, Nat.add_zero]

theorem tallied_close (h : Tallied s) (i : Nat) : Tallied (call env (.close i) s).2 := by
  refine tallied_call (fun _ => s.handles.modify i fun h => { h with closed := true })
    (fun _ => rfl) ?_
  cases hi : s.handles[i]? with
  | none =>
    have hexec : execOf env s.handles (.close i) = pure .unit :=
      by simp only [execOf, actOf, hi]; rfl
    rw [hexec, List.modify_eq_self (List.getElem?_eq_none_iff.mp hi)]
    exact sat_pure h
  | some x =>
    have hexec : execOf env s.handles (.close i) = (fun _ => Reply.unit) <$>
        (Fs.close x : Act env Unit).1 := by
      simp only [execOf, actOf, hi]
      rfl
    have hcount : ∀ fs : FS, (∀ j, fs.openCountOf j =
        if j = x.id ∧ ¬ x.closed then pred32 (s.fs.openCountOf j) else s.fs.openCountOf j) →
        Tallied ⟨fs, s.handles.modify i fun h => { h with closed := true }⟩ := by
      intro fs hfs j
      have hmod := holding_modify hi j
      show (fs.openCountOf j).toNat = holding (s.handles.modify i fun h =>
        { h with closed := true }) j
      rw [← h j] at hmod
      rw [hfs]
      by_cases hj : j = x.id ∧ ¬ x.closed
      · rw [if_pos hj]
        rw [if_pos ⟨hj.1.symm, hj.2⟩] at hmod
        have := toNat_pred32 (s.fs.openCountOf j) (by omega)
        omega
      · rw [if_neg hj]
        rw [if_neg fun hand => hj ⟨hand.1.symm, hand.2⟩] at hmod
        omega
    rw [hexec]
    exact sat_map ((close_counts x s.fs).mono (fun _ fs hfs => hcount fs hfs)
      (fun _ fs hfs => hcount fs hfs))

/-- Every call keeps the tally, whatever becomes of it. -/
theorem tallied_perform (h : Tallied s) {op : Op} {out : Outcome}
    (does : perform env op s = (out, s')) : Tallied s' := by
  have hcases : op.InSession ∨ ∃ key, op = .remount key := by
    cases op with
    | remount key => exact .inr ⟨key, rfl⟩
    | _ => exact .inl trivial
  rcases hcases with hop | ⟨key, rfl⟩
  · have hcall : Tallied (call env op s).2 := by
      cases op with
      | openFile id => exact tallied_openFile h id
      | close i => exact tallied_close h i
      | _ => exact tallied_uncounted h trivial
    rw [← perform_eq_call hop, does] at hcall
    exact hcall
  · simp only [perform] at does
    split at does
    · next fs hfs =>
      obtain ⟨r, bs, -, -, rfl⟩ := mount_ok hfs
      cases does
      exact fun _ => rfl
    · cases does
      exact h

variable {D : Disk → Prop} {P : Session → Op → Outcome → Prop} {past : List Session}

theorem tallied_of_run (run : Run env D P past s) : Tallied s := by
  induction run with
  | start blank _ run =>
    intro id
    show (FS.openCountOf _ id).toNat = 0
    unfold FS.openCountOf
    rw [(formatted_of_ok blank run).openCount]
    rfl
  | step _ does _ ih => exact tallied_perform ih does

/-- In every run the open count of an inode is the number of handles on it that are not
closed, whichever calls failed or panicked and whatever the device refused. -/
theorem open_counts_exact (run : Run env D P past s) (id : Nat) :
    (s.fs.openCountOf id).toNat = holding s.handles id := tallied_of_run run id

/-- A file that is opened twice and closed once. -/
theorem open_counts_exact_twice : ∃ past s, Run Env.plain Cow.MetaSound (fun _ _ _ => True) past s ∧
    holding s.handles 1 = 1 ∧ (s.fs.openCountOf 1).toNat = 1 := by
  have hscript : ∃ x ∈ script Env.plain Fair [.create 0 "a", .openFile 1, .openFile 1, .close 0]
      (fresh Env.plain) [], holding x.2 1 = 1 ∧ Sketched x.1.paid ∧ x.1.paid.length ≤ 256 := by
    decide
  obtain ⟨⟨t, handles⟩, hx, hheld, hsketch, hfew⟩ := hscript
  obtain ⟨-, past, s, run, hhandles, -⟩ := run_script (P := fun _ _ _ => True) metaSound_smallDisk
    (fun _ _ h => h) (fun _ _ _ _ _ _ _ _ _ _ => trivial) (by simp [Plays, Answers])
    (by decide) hx hsketch hfew
  have hone : holding s.handles 1 = 1 := by rw [hhandles]; exact hheld
  exact ⟨past, s, run, hone, (open_counts_exact run 1).trans hone⟩

end Runs
end BloomFS
