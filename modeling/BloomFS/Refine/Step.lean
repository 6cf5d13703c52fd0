/-
One call of the file system against one step of the machine.
-/
import BloomFS.Refine.Ops
import BloomFS.Spec.Calls

namespace BloomFS
namespace Refine

open Bytes Exec Dir Fs Store Spec

variable {env : Env} {B : Budget} {s : FS} {t : State}

theorem readdirents_sim (hl : env.Lawful) (h : Rep env s t) (hn : Neat t) (id : Nat) :
    Sim (bridge env B) (Fs.readdirents id) (Spec.readdirents id) s t
      (fun a s' b t' => a = b ∧ Rep env s' t') := by
  unfold Fs.readdirents Spec.readdirents
  refine sim_bind (listDir_sim hl h hn id) ?_
  rintro l s₁ l' t₁ - ⟨rfl, rfl, hrep⟩
  refine sim_mapM (fun e s t h => ?_) l s₁ t₁ hrep
  refine sim_bind (getInode_sim h e.inode) ?_
  rintro in_ s' n t' - ⟨rfl, rfl, hid, rfl, rfl⟩
  rw [(h.nodes _ hid).kind]
  exact sim_pure ⟨rfl, h⟩

theorem readdir_sim (hl : env.Lawful) (h : Rep env s t) (hn : Neat t) (id : Nat) :
    Sim (bridge env B) (Fs.readdir id) (Spec.readdir id) s t
      (fun a s' b t' => a = b ∧ Rep env s' t') := by
  unfold Fs.readdir Spec.readdir
  refine sim_bind (listDir_sim hl h hn id) ?_
  rintro l s₁ l' t₁ - ⟨rfl, rfl, hrep⟩
  exact sim_pure ⟨rfl, hrep⟩

theorem query_sim {α : Type} {f : FS → Except (Fault Fs.Error) α} {y : Step α} (h : Rep env s t)
    (hf : Sim (bridge env B) (Within.ofExcept (f s)) y s t
      (fun a s' b t' => a = b ∧ s' = s ∧ t' = t)) :
    Sim (bridge env B) (query env f) y s t (fun a s' b t' => a = b ∧ Rep env s' t') := by
  refine sim_get_left (hf.mono ?_)
  rintro a s' b t' ⟨rfl, rfl, rfl⟩
  exact ⟨rfl, h⟩

/-- What a rename drops is not the directory it takes from. -/
def Apart (t : State) : Op → Prop
  | .rename src _ dst dn => src < t.cap → (t.node src).isDir → dst < t.cap → (t.node dst).isDir →
      ∀ old, Work.find ⟨t.node dst, (t.node dst).pages, []⟩ dn = some old → old ≠ src
  | _ => True

/-- Every call that the machine answers does what the machine does. -/
theorem act_sim (hl : env.Lawful) (h : Rep env s t) (hs : Sane t) (handles : List Handle) {op : Op}
    (hop : Answers op) (hap : Apart t op) :
    Sim (bridge env B) (actOf env handles op) (planOf env handles op) s t
      (fun a s' b t' => a = b ∧ Rep env s' t') := by
  have same : ∀ {α : Type} {f : α → Reply} {x : Act env α} {y : Step α},
      Sim (bridge env B) x y s t (fun a s' b t' => a = b ∧ Rep env s' t') →
      Sim (bridge env B) (f <$> x) (f <$> y) s t (fun a s' b t' => a = b ∧ Rep env s' t') :=
    fun hx => sim_map hx fun a s' b t' hq => ⟨congrArg _ hq.1, hq.2⟩
  have unit : ∀ {α β : Type} {x : Act env α} {y : Step β},
      Sim (bridge env B) x y s t (fun _ s' _ t' => Rep env s' t') →
      Sim (bridge env B) ((fun _ => Reply.unit) <$> x) ((fun _ => Reply.unit) <$> y) s t
        (fun a s' b t' => a = b ∧ Rep env s' t') :=
    fun hx => sim_map hx fun _ _ _ _ hq => ⟨rfl, hq⟩
  cases op with
  | lookup parent name =>
    refine same ((lookup_sim hl h hs.neat parent name).mono ?_)
    rintro a s' b t' ⟨rfl, rfl, hrep⟩
    exact ⟨rfl, hrep⟩
  | readdir id => exact same (readdir_sim hl h hs.neat id)
  | readdirents id => exact same (readdirents_sim hl h hs.neat id)
  | openDirStream id => exact same (readdir_sim hl h hs.neat id)
  | stat id => exact same (query_sim h (stat_sim h id))
  | statfs => exact hop.elim
  | fallocate id length => exact hop.elim
  | access id mask uid gid gids =>
    refine sim_map (query_sim h (access_sim h id mask uid gid gids)) ?_
    rintro _ s' _ t' ⟨-, hrep⟩
    exact ⟨rfl, hrep⟩
  | mkdir parent name =>
    refine same ((createNode_sim hl h hs parent name _ _).mono ?_)
    rintro a s' b t' ⟨rfl, hrep, -⟩
    exact ⟨rfl, hrep⟩
  | create parent name =>
    refine same ((createNode_sim hl h hs parent name _ _).mono ?_)
    rintro a s' b t' ⟨rfl, hrep, -⟩
    exact ⟨rfl, hrep⟩
  | symlink parent name target => exact same (symlink_sim hl h hs parent name target)
  | readlink id => exact same (query_sim h (readlink_sim hl h id))
  | writeFile id data => exact unit (writeFile_sim hl h id data)
  | readFile id => exact same (query_sim h (readFile_sim hl h id))
  | readAt id off length => exact same (query_sim h (readAt_sim hl h id off length))
  | writeAt id off data => exact unit (writeAt_sim hl h id off data)
  | append id data => exact same (append_sim hl h id data)
  | truncate id newSize => exact unit (truncate_sim hl h id newSize)
  | unlink parent name => exact unit (unlink_sim hl h hs parent name)
  | rmdir parent name => exact unit (rmdir_sim hl h hs parent name)
  | chmod id mode => exact unit (chmod_sim h id mode)
  | chown id uid gid => exact unit (chown_sim h id uid gid)
  | utimes id atime mtime => exact unit (utimes_sim h id atime mtime)
  | link parent name target => exact unit (link_sim hl h hs parent name target)
  | rename src sn dst dn => exact unit (rename_sim hl h hs src sn dst dn hap)
  | openFile id => exact same (openFile_sim h id)
  | handleRead i =>
    rw [actOf, planOf]
    cases handles[i]? with
    | none => exact sim_pure ⟨rfl, h⟩
    | some hd => exact same (query_sim h (handleRead_sim hl h hd))
  | close i =>
    rw [actOf, planOf]
    cases handles[i]? with
    | none => exact sim_pure ⟨rfl, h⟩
    | some hd => exact unit (close_sim hl h hd)
  | commit => exact hop.elim
  | setDirCache on =>
    exact fun _ => under_of_run rfl ⟨.unit, t, rfl, rfl, setDirCache_rep h on⟩
  | remount key => exact hop.elim

end Refine
end BloomFS
