/-
The requests of the binding as calls of the file system.

Whatever the kernel asks, the file system behind the binding is in a state that a sequence
of calls of its interface leads to.  A file handle of the kernel stands for one handle of
the file system that is not closed, and no request leaves such a handle behind when it is
answered with an errno.
-/
import BloomFS.Fuse.Binding
import BloomFS.Runs.Names
import BloomFS.Runs.OpenCounts

namespace BloomFS
namespace Fuse

open Bytes Exec Block Fs Spec Refine Runs

variable {env : Env} {T : Session → Prop} {p : List Handle} {f : BloomFuse}

/-! ## Sessions behind the binding -/

/-- The session has the file system of the binding.  Its handles that are not closed are
those of the kernel and the pending ones. -/
structure Serves (p : List Handle) (f : BloomFuse) (s : Session) : Prop where
  fs : s.fs = f.fs
  held : (p ++ f.handles.entries.map (·.2)).Perm (s.handles.filter (!·.closed))
  lt : ∀ fh ∈ f.handles, fh.toNat < f.nextFh.toNat

/-- Some session of `T` is behind the binding. -/
def Backed (T : Session → Prop) (p : List Handle) (f : BloomFuse) : Prop := ∃ s, T s ∧ Serves p f s

/-- `T` goes on with every call of a session. -/
def Ongoing (env : Env) (T : Session → Prop) : Prop :=
  ∀ s op out s', T s → op.InSession → perform env op s = (out, s') → T s'

/-- The operation neither opens nor closes a handle. -/
def Flat : Op → Prop
  | .openFile _ => False
  | .close _ => False
  | .remount _ => False
  | .commit => False
  | _ => True

theorem Flat.inSession {op : Op} (h : Flat op) : op.InSession := by
  cases op with
  | remount => exact h.elim
  | _ => trivial

theorem Flat.handlesAfter {op : Op} (h : Flat op) (b : Bool) (handles : List Handle) :
    handlesAfter op b handles = handles := by
  cases op with
  | openFile | close => exact h.elim
  | _ => rfl

theorem Flat.execOf {op : Op} (h : Flat op) (handles : List Handle) :
    Fs.execOf env handles op = (actOf env handles op).1 := by
  cases op with
  | commit => exact h.elim
  | _ => rfl

/-- A call of the interface that neither opens nor closes a handle. -/
def Interface (env : Env) {α : Type} (x : Act env α) : Prop :=
  ∃ op, ∃ g : α → Reply, Flat op ∧ ∀ handles, actOf env handles op = g <$> x

theorem Serves.with_fs {s : Session} (h : Serves p f s) (fs : FS) :
    Serves p { f with fs := fs } ⟨fs, s.handles⟩ := ⟨rfl, h.held, h.lt⟩

/-- The streams play no part in it. -/
theorem Backed.with_dirs (h : Backed T p f) (d : AList fun _ : UInt64 => List DirEntrySnapshot) :
    Backed T p { f with dirHandles := d } := by
  obtain ⟨s, hs, hserves⟩ := h
  exact ⟨s, hs, hserves.fs, hserves.held, hserves.lt⟩

theorem sat_onFsExec {α : Type} {x : Exec Fs.Error FS α} {Q : α → BloomFuse → Prop}
    {E : Fault Errno → BloomFuse → Prop} (hok : ∀ a fs, x f.fs = .ok a fs → Q a { f with fs := fs })
    (herr : ∀ e fs, x f.fs = .error e fs → E (e.map errno) { f with fs := fs }) :
        Sat (onFsExec x) f Q E := by
  have hx : Sat x f.fs (fun a fs => x f.fs = .ok a fs) (fun e fs => x f.fs = .error e fs) := by
    rw [sat_iff]
    exact ⟨fun _ _ h => h, fun _ _ h => h⟩
  exact sat_zoom hx hok herr

theorem keeps_interface (hT : Ongoing env T) {α : Type} {x : Act env α} (hx : Interface env x) :
    Keeps (Backed T p) (onFs env x) := by
  rintro f ⟨s, hs, hserves⟩
  obtain ⟨op, g, hflat, hact⟩ := hx
  have hexec : execOf env s.handles op s.fs = (g <$> x).1 f.fs := by
    rw [hflat.execOf, hact, hserves.fs]
  refine sat_onFsExec (fun a fs h => ?_) (fun e fs h => ?_)
  · have hdoes := perform_of_ok hflat.inSession (hexec.trans (bind_of_ok h))
    rw [hflat.handlesAfter] at hdoes
    exact ⟨_, hT _ _ _ _ hs hflat.inSession hdoes, hserves.with_fs fs⟩
  · have hdoes := perform_of_error hflat.inSession (hexec.trans (bind_of_error h))
    rw [hflat.handlesAfter] at hdoes
    exact ⟨_, hT _ _ _ _ hs hflat.inSession hdoes, hserves.with_fs fs⟩

theorem fsync_backed (hT : Ongoing env T) : Keeps (Backed T p) (fsync env) := by
  rintro f ⟨s, hs, hserves⟩
  have hop : Op.InSession .commit := trivial
  have hexec : execOf env s.handles .commit s.fs =
      ((fun _ => Reply.unit) <$> Fs.commit env) f.fs := by
    rw [hserves.fs]
    rfl
  refine sat_onFsExec (fun a fs h => ?_) (fun e fs h => ?_)
  · have hdoes := perform_of_ok hop (hexec.trans (bind_of_ok h))
    exact ⟨_, hT _ _ _ _ hs hop hdoes, hserves.with_fs fs⟩
  · have hdoes := perform_of_error hop (hexec.trans (bind_of_error h))
    exact ⟨_, hT _ _ _ _ hs hop hdoes, hserves.with_fs fs⟩

/-! ## Opening and closing -/

theorem openFile_eq {id : Nat} {s s' : FS} {h : Handle}
    (hrun : (Fs.openFile id : Act env Handle).1 s = .ok h s') : h = ⟨id, false⟩ := by
  have hany : ∀ {α : Type} (x : Exec Fs.Error FS α) (s : FS), Sat x s (fun _ _ => True)
      (fun _ _ => True) :=
    fun x s => sat_iff.mpr ⟨fun _ _ _ => trivial, fun _ _ _ => trivial⟩
  have hsat : Sat (Fs.openFile id : Act env Handle).1 s (fun h _ => h = ⟨id, false⟩)
      (fun _ _ => True) := by
    refine sat_get_bind (sat_bind (hany _ _) (fun _ _ _ => ?_) fun _ _ h => h)
    refine sat_bind (hany _ _) (fun _ _ _ => ?_) fun _ _ h => h
    exact sat_bind (hany _ _) (fun _ _ _ => sat_pure rfl) fun _ _ h => h
  exact hsat.ok hrun

theorem openFile_sat (hT : Ongoing env T) (hf : Backed T p f) (id : Nat) :
    Sat (onFs env (Fs.openFile id)) f (fun h f' => Backed T (h :: p) f')
    (fun _ f' => Backed T p f') := by
  obtain ⟨s, hs, hserves⟩ := hf
  have hop : Op.InSession (.openFile id) := trivial
  have hexec : execOf env s.handles (.openFile id) s.fs =
      ((fun h : Handle => Reply.id h.id) <$> (Fs.openFile id : Act env Handle)).1 f.fs := by
    rw [hserves.fs]
    rfl
  refine sat_onFsExec (fun h fs hrun => ?_) (fun e fs hrun => ?_)
  · have hdoes := perform_of_ok hop (hexec.trans (bind_of_ok hrun))
    obtain rfl := openFile_eq hrun
    refine ⟨_, hT _ _ _ _ hs hop hdoes, rfl, ?_, hserves.lt⟩
    show (_ :: (p ++ _)).Perm ((s.handles ++ [(⟨id, false⟩ : Handle)]).filter (!·.closed))
    rw [List.filter_append]
    exact (hserves.held.cons _).trans (List.perm_append_singleton _ _).symm
  · have hdoes := perform_of_error hop (hexec.trans (bind_of_error hrun))
    exact ⟨_, hT _ _ _ _ hs hop hdoes, hserves.with_fs fs⟩

theorem perm_filter_close {l : List Handle} {h : Handle} {i : Nat}
    (hi : l[i]? = some h) (hh : h.closed = false) :
    (h :: (l.modify i fun h => { h with closed := true }).filter (!·.closed)).Perm
        (l.filter (!·.closed)) := by
  induction l generalizing i with
  | nil => cases hi
  | cons x l ih =>
    cases i with
    | zero =>
      cases hi
      simp [hh]
    | succ i =>
      rw [List.modify_succ_cons, List.filter_cons, List.filter_cons]
      have hrest := ih hi
      split
      · exact (List.Perm.swap _ _ _).trans (hrest.cons _)
      · exact hrest

theorem close_sat (hT : Ongoing env T) {h : Handle} (hf : Backed T (h :: p) f) :
    Sat (onFs env (Fs.close h)) f (fun _ f' => Backed T p f') (fun _ f' => Backed T p f') := by
  obtain ⟨s, hs, hserves⟩ := hf
  have hmem : h ∈ s.handles.filter (!·.closed) := hserves.held.mem_iff.mp List.mem_cons_self
  obtain ⟨hmem, hopen⟩ := List.mem_filter.mp hmem
  have hopen : h.closed = false := by simpa using hopen
  obtain ⟨i, hi⟩ := List.mem_iff_getElem?.mp hmem
  have hop : Op.InSession (.close i) := trivial
  have hexec : execOf env s.handles (.close i) s.fs =
      ((fun _ => Reply.unit) <$> (Fs.close h : Act env Unit)).1 f.fs := by
    simp only [execOf, actOf, hi, hserves.fs]
  have hheld : (p ++ f.handles.entries.map (·.2)).Perm
      ((s.handles.modify i fun h => { h with closed := true }).filter (!·.closed)) :=
    (List.perm_cons h).mp (hserves.held.trans (perm_filter_close hi hopen).symm)
  refine sat_onFsExec (fun a fs hrun => ?_) (fun e fs hrun => ?_)
  · have hdoes := perform_of_ok hop (hexec.trans (bind_of_ok hrun))
    exact ⟨_, hT _ _ _ _ hs hop hdoes, rfl, hheld, hserves.lt⟩
  · have hdoes := perform_of_error hop (hexec.trans (bind_of_error hrun))
    exact ⟨_, hT _ _ _ _ hs hop hdoes, rfl, hheld, hserves.lt⟩

/-- What a request may leave behind: on an errno as much as on an answer. -/
def Unless (T : Session → Prop) (p : List Handle) (e : Fault Errno) (f : BloomFuse) : Prop :=
  (∃ n, e = .err n) → Backed T p f

theorem takeFh_backed (hf : Backed T p f) :
    Sat takeFh f (fun fh f' => fh = f.nextFh ∧ fh ∉ f'.handles ∧ fh.toNat < f'.nextFh.toNat ∧
      Backed T p f') (fun e _ => e = .panic) := by
  obtain ⟨s, hs, hserves⟩ := hf
  apply sat_get_bind
  apply sat_ite
  · intro hlt
    have hnext : (f.nextFh + 1).toNat = f.nextFh.toNat + 1 := by
      rw [UInt64.toNat_add]
      exact Nat.mod_eq_of_lt hlt
    refine ⟨rfl, fun hmem => absurd (hserves.lt _ hmem) (Nat.lt_irrefl _), ?_, s, hs,
      hserves.fs, hserves.held, fun fh hfh => ?_⟩
    · show f.nextFh.toNat < (f.nextFh + 1).toNat
      omega
    · show fh.toNat < (f.nextFh + 1).toNat
      have := hserves.lt fh hfh
      omega
  · intro _
    exact sat_panic rfl

theorem insertHandle_sat {h : Handle} (hf : Backed T (h :: p) f) :
    Sat (insertHandle h) f (fun _ f' => Backed T p f') (fun e _ => e = .panic) := by
  refine sat_bind (takeFh_backed hf) (fun fh f' hf' => ?_) fun _ _ he => he
  obtain ⟨-, hnew, hlt, s, hs, hserves⟩ := hf'
  refine ⟨s, hs, hserves.fs, ?_, fun fh' hfh' => ?_⟩
  · show (p ++ (f'.handles.insert fh h).entries.map (·.2)).Perm _
    rw [AList.entries_insert_of_notMem hnew]
    exact List.perm_middle.trans hserves.held
  · rcases AList.mem_insert f'.handles |>.mp hfh' with rfl | hmem
    · exact hlt
    · exact hserves.lt fh' hmem

theorem closeQuietly_sat (hT : Ongoing env T) {h : Handle} (hf : Backed T (h :: p) f) :
    Sat (closeQuietly env h) f (fun _ f' => Backed T p f') (fun e _ => ∀ n, e ≠ .err n) :=
  sat_handle (close_sat hT hf) (fun _ _ h' => sat_pure h') (fun _ _ => nofun) (fun _ _ => nofun)

theorem interface_truncate (id size : Nat) : Interface env (Fs.truncate id size) :=
  ⟨.truncate id size, fun _ => .unit, trivial, fun _ => rfl⟩

theorem truncateOpened_sat (hT : Ongoing env T) {h : Handle} (hf : Backed T (h :: p) f) (id : Nat)
    (flags : Int32) :
    Sat (truncateOpened env id h flags) f (fun _ f' => Backed T (h :: p) f') (Unless T p) := by
  refine sat_ite (fun _ => ?_) fun _ => sat_pure hf
  refine sat_handle (keeps_interface hT (interface_truncate id 0) f hf) (fun e f' hf' => ?_)
    (fun _ _ hno => ?_) (fun _ _ hno => ?_)
  · exact sat_bind (closeQuietly_sat hT hf') (fun _ f'' hf'' => sat_fail fun _ => hf'')
      fun e f'' hne herr => herr.elim fun n hn => absurd hn (hne n)
  · obtain ⟨n, hn⟩ := hno
    cases hn
  · obtain ⟨n, hn⟩ := hno
    cases hn

/-- A handle of the kernel that is taken away becomes pending. -/
theorem erase_backed {fh : UInt64} {h : Handle} (hf : Backed T p f)
    (hl : f.handles.lookup fh = some h) :
    Backed T (h :: p) { f with handles := f.handles.erase fh } := by
  obtain ⟨s, hs, hserves⟩ := hf
  have hperm : f.handles.entries.Perm (⟨fh, h⟩ :: (f.handles.erase fh).entries) := by
    have hmem : fh ∈ f.handles.entries.keys := AList.lookup_isSome.mp (by rw [hl]; rfl)
    obtain ⟨b, l₁, l₂, -, hsplit, herase⟩ := List.exists_of_kerase hmem
    have hb : b = h := by
      have hin : (⟨fh, b⟩ : Sigma _) ∈ f.handles.entries := by
        rw [hsplit]
        exact List.mem_append_right _ List.mem_cons_self
      have hlook := AList.mem_lookup_iff.mpr hin
      rw [hl] at hlook
      exact (Option.some.inj hlook).symm
    subst hb
    show f.handles.entries.Perm (_ :: f.handles.entries.kerase fh)
    rw [herase, hsplit]
    exact List.perm_middle
  refine ⟨s, hs, hserves.fs, ?_, fun fh' hmem => hserves.lt fh' (AList.mem_erase.mp hmem).2⟩
  have hheld : (f.handles.entries.map (·.2)).Perm (h :: (f.handles.erase fh).entries.map (·.2)) :=
    hperm.map (·.2)
  exact (List.perm_middle.symm.trans (hheld.symm.append_left p)).trans hserves.held

/-! ## The requests -/

section Requests

variable (hT : Ongoing env T)
include hT

theorem statOf_backed (id : Nat) : Keeps (Backed T p) (statOf env id) :=
  keeps_interface hT ⟨.stat id, Reply.stat, trivial, fun _ => rfl⟩

theorem attrOf_backed (id : Nat) : Keeps (Backed T p) (attrOf env id) :=
  keeps_bind (statOf_backed hT id) fun _ => keeps_ofExcept _

theorem entryOf_backed (id : Nat) : Keeps (Backed T p) (entryOf env id) :=
  keeps_bind (statOf_backed hT id) fun _ => keeps_bind (keeps_ofExcept _) fun _ => keeps_pure _

theorem chmod_backed (id : Nat) (mode : UInt16) :
    Keeps (Backed T p) (onFs env (Fs.chmod id mode)) :=
  keeps_interface hT ⟨.chmod id mode, fun _ => .unit, trivial, fun _ => rfl⟩

theorem chown_backed (id : Nat) (uid gid : UInt32) :
    Keeps (Backed T p) (onFs env (Fs.chown id uid gid)) :=
  keeps_interface hT ⟨.chown id uid gid, fun _ => .unit, trivial, fun _ => rfl⟩

theorem adopt_backed (req : Request) (id : Nat) (mode : UInt32) :
    Keeps (Backed T p) (adopt env req id mode) :=
  keeps_bind (chmod_backed hT id _) fun _ => chown_backed hT id _ _

theorem setattr_backed (ino : UInt64) (mode uid gid : Option UInt32) (size : Option UInt64)
    (atime mtime : Option TimeOrNow) :
    Keeps (Backed T p) (setattr env ino mode uid gid size atime mtime) := by
  have hsize : ∀ id, Keeps (Backed T p) (setSize env id size) := by
    intro id
    cases size with
    | none => exact keeps_pure _
    | some sz => exact keeps_interface hT (interface_truncate id _)
  have hmode : ∀ id, Keeps (Backed T p) (setMode env id mode) := by
    intro id
    cases mode with
    | none => exact keeps_pure _
    | some m => exact chmod_backed hT id _
  have howner : ∀ id, Keeps (Backed T p) (setOwner env id uid gid) := fun id =>
    keeps_ite (keeps_bind (statOf_backed hT id) fun _ => chown_backed hT id _ _) (keeps_pure _)
  have htimes : ∀ id, Keeps (Backed T p) (setTimes env id atime mtime) := fun id =>
    keeps_ite (keeps_bind (statOf_backed hT id) fun _ =>
      keeps_interface hT ⟨.utimes id _ _, fun _ => .unit, trivial, fun _ => rfl⟩) (keeps_pure _)
  exact keeps_bind (keeps_ofExcept _) fun id => keeps_bind (hsize id) fun _ =>
    keeps_bind (hmode id) fun _ => keeps_bind (howner id) fun _ => keeps_bind (htimes id) fun _ =>
      attrOf_backed hT id

theorem release_backed (fh : UInt64) : Keeps (Backed T p) (release env fh) := by
  intro f hf
  apply sat_get_bind
  cases hl : f.handles.lookup fh with
  | none => exact sat_pure hf
  | some h => exact close_sat hT (erase_backed hf hl)

theorem snapshotDir_backed (ino : UInt64) : Keeps (Backed T p) (snapshotDir env ino) :=
  keeps_bind (keeps_ofExcept _) fun id =>
    keeps_bind (keeps_interface hT ⟨.readdirents id, Reply.dirents, trivial, fun _ => rfl⟩)
        fun ents =>
      keeps_ite keeps_panic (keeps_bind (keeps_mapM (fun _ => keeps_bind (keeps_ofExcept _) fun _ =>
        keeps_pure _) ents) fun _ => keeps_pure _)

theorem openedDir_backed (ino fh : UInt64) : Keeps (Backed T p) (openedDir env ino fh) := by
  intro f hf
  apply sat_get_bind
  cases f.dirHandles.lookup fh with
  | none => exact snapshotDir_backed hT ino f hf
  | some snap => exact sat_pure hf

/-- The requests that open nothing keep the sessions behind the binding, also when they
panic. -/
theorem handler_backed (req : Request) {c : Call} (hopen : ∀ ino flags, c ≠ .openFile ino flags)
    (hcreate : ∀ parent name mode, c ≠ .create parent name mode) (hdir : ∀ ino, c ≠ .opendir ino) :
    Keeps (Backed T p) (handler env req c) := by
  have named : ∀ {α : Type} (name : Bytes) (ino : UInt64) (x : String → Nat → Handler α),
      (∀ s id, Keeps (Backed T p) (x s id)) →
      Keeps (Backed T p) (do let s ← toStr name; let id ← Exec.ofExcept (idOf ino); x s id) :=
    fun name ino x hx => keeps_bind (keeps_ite (keeps_pure _) (keeps_fail _)) fun s =>
      keeps_bind (keeps_ofExcept _) fun id => hx s id
  cases c with
  | lookup parent name =>
    refine keeps_map (named name parent _ fun s id => keeps_bind
      (keeps_interface hT ⟨.lookup id s, Reply.found, trivial, fun _ => rfl⟩) fun found => ?_)
    cases found with
    | none => exact keeps_fail _
    | some id => exact entryOf_backed hT id
  | getattr ino => exact keeps_map (keeps_bind (keeps_ofExcept _) fun id => attrOf_backed hT id)
  | setattr ino mode uid gid size atime mtime =>
    exact keeps_map (setattr_backed hT ino mode uid gid size atime mtime)
  | readlink ino =>
    exact keeps_map (keeps_bind (keeps_ofExcept _) fun id =>
      keeps_interface hT ⟨.readlink id, Reply.text, trivial, fun _ => rfl⟩)
  | mkdir parent name mode =>
    exact keeps_map (named name parent _ fun s id => keeps_bind
      (keeps_interface hT ⟨.mkdir id s, Reply.id, trivial, fun _ => rfl⟩) fun new =>
        keeps_bind (adopt_backed hT req new mode) fun _ => entryOf_backed hT new)
  | unlink parent name =>
    exact keeps_map (named name parent _ fun s id =>
      keeps_interface hT ⟨.unlink id s, fun _ => .unit, trivial, fun _ => rfl⟩)
  | rmdir parent name =>
    exact keeps_map (named name parent _ fun s id =>
      keeps_interface hT ⟨.rmdir id s, fun _ => .unit, trivial, fun _ => rfl⟩)
  | symlink parent linkName target =>
    exact keeps_map (keeps_bind (keeps_ite (keeps_pure _) (keeps_fail _)) fun s =>
        named target parent _ fun t id =>
      keeps_bind (keeps_interface hT ⟨.symlink id s t, Reply.id, trivial, fun _ => rfl⟩) fun new =>
        keeps_bind (chown_backed hT new _ _) fun _ => entryOf_backed hT new)
  | rename parent name newparent newname =>
    exact keeps_map (keeps_bind (keeps_ite (keeps_pure _) (keeps_fail _)) fun s =>
        named newname parent _ fun t id =>
      keeps_bind (keeps_ofExcept _) fun id' =>
        keeps_interface hT ⟨.rename id s id' t, fun _ => .unit, trivial, fun _ => rfl⟩)
  | link ino newparent newname =>
    exact keeps_map (named newname ino _ fun s id => keeps_bind (keeps_ofExcept _) fun id' =>
      keeps_bind (keeps_interface hT ⟨.link id' s id, fun _ => .unit, trivial, fun _ => rfl⟩)
          fun _ =>
        entryOf_backed hT id)
  | create parent name mode => exact absurd rfl (hcreate parent name mode)
  | openFile ino flags => exact absurd rfl (hopen ino flags)
  | read ino offset size =>
    exact keeps_map (keeps_bind (keeps_ofExcept _) fun id =>
      keeps_interface hT ⟨.readAt id _ _, Reply.bytes, trivial, fun _ => rfl⟩)
  | write ino offset data =>
    exact keeps_map (keeps_bind (keeps_ofExcept _) fun id => keeps_bind
      (keeps_interface hT ⟨.writeAt id _ data, fun _ => .unit, trivial, fun _ => rfl⟩)
      fun _ => keeps_pure _)
  | flush => exact keeps_pure _
  | fsync => exact keeps_map (fsync_backed hT)
  | fallocate ino length mode =>
    exact keeps_map (keeps_ite (keeps_fail _) (keeps_ite (keeps_pure _)
      (keeps_bind (keeps_ofExcept _) fun id =>
        keeps_interface hT ⟨.fallocate id _, fun _ => .unit, trivial, fun _ => rfl⟩)))
  | release fh => exact keeps_map (release_backed hT fh)
  | opendir ino => exact absurd rfl (hdir ino)
  | readdir ino fh offset room =>
    exact keeps_map (keeps_bind (openedDir_backed hT ino fh) fun _ => keeps_pure _)
  | releasedir fh => exact keeps_map (keeps_modify fun f hf => hf.with_dirs _)
  | access ino mask =>
    exact keeps_map (keeps_bind (keeps_ofExcept _) fun id =>
      keeps_interface hT ⟨.access id _ _ _ _, fun _ => .unit, trivial, fun _ => rfl⟩)
  | statfs => exact keeps_map (keeps_interface hT ⟨.statfs, Reply.fsStat, trivial, fun _ => rfl⟩)

theorem openFile_backed (hf : Backed T p f) (ino : UInt64) (flags : Int32) :
    Sat (openFile env ino flags) f (fun _ f' => Backed T p f') (Unless T p) := by
  refine sat_bind (keeps_ofExcept _ f hf) (fun id f' hf' => ?_) fun _ _ h _ => h
  refine sat_bind (openFile_sat hT hf' id) (fun h f₁ hf₁ => ?_) fun _ _ h _ => h
  refine sat_bind (truncateOpened_sat hT hf₁ id flags) (fun _ f₂ hf₂ => ?_) fun _ _ h => h
  refine (insertHandle_sat hf₂).mono (fun _ _ h => h) fun e f' he herr => ?_
  obtain ⟨n, hn⟩ := herr
  exact absurd (hn.symm.trans he) nofun

theorem create_backed (req : Request) (hf : Backed T p f) (parent : UInt64) (name : Bytes)
    (mode : UInt32) :
    Sat (create env req parent name mode) f (fun _ f' => Backed T p f') (Unless T p) := by
  have htoStr : Keeps (Backed T p) (toStr name) := keeps_ite (keeps_pure _) (keeps_fail _)
  refine sat_bind (htoStr f hf) (fun s f₁ h₁ => ?_) fun _ _ h _ => h
  refine sat_bind (keeps_ofExcept _ f₁ h₁) (fun dir f₂ h₂ => ?_) fun _ _ h _ => h
  refine sat_bind (keeps_interface hT ⟨.create dir s, Reply.id, trivial, fun _ => rfl⟩ f₂ h₂)
    (fun id f₃ h₃ => ?_) fun _ _ h _ => h
  refine sat_bind (adopt_backed hT req id mode f₃ h₃) (fun _ f₄ h₄ => ?_) fun _ _ h _ => h
  refine sat_bind (statOf_backed hT id f₄ h₄) (fun st f₅ h₅ => ?_) fun _ _ h _ => h
  refine sat_bind (openFile_sat hT h₅ id) (fun h f₆ h₆ => ?_) fun _ _ h _ => h
  refine sat_bind (insertHandle_sat h₆) (fun fh f₇ h₇ => ?_) fun e f' he herr => ?_
  · exact sat_bind (keeps_ofExcept _ f₇ h₇) (fun _ f₈ h₈ => sat_pure h₈) fun _ _ h _ => h
  · obtain ⟨n, hn⟩ := herr
    exact absurd (hn.symm.trans he) nofun

theorem opendir_backed (hf : Backed T p f) (ino : UInt64) :
    Sat (opendir env ino) f (fun _ f' => Backed T p f') (Unless T p) := by
  refine sat_bind (snapshotDir_backed hT ino f hf) (fun snap f₁ h₁ => ?_) fun _ _ h _ => h
  refine sat_bind (takeFh_backed h₁) (fun fh f₂ h₂ => ?_) fun e f' he herr => ?_
  · exact h₂.2.2.2.with_dirs _
  · obtain ⟨n, hn⟩ := herr
    exact absurd (hn.symm.trans he) nofun

/-- A request that is answered, also with an errno, keeps the sessions behind the
binding. -/
theorem handler_sat (req : Request) (c : Call) (hf : Backed T p f) :
    Sat (handler env req c) f (fun _ f' => Backed T p f') (Unless T p) := by
  have hrest : ∀ c, (∀ ino flags, c ≠ .openFile ino flags) →
      (∀ parent name mode, c ≠ .create parent name mode) → (∀ ino, c ≠ .opendir ino) →
      Sat (handler env req c) f (fun _ f' => Backed T p f') (Unless T p) := fun c h1 h2 h3 =>
    (handler_backed hT req h1 h2 h3 f hf).mono (fun _ _ h => h) fun _ _ h _ => h
  cases c with
  | openFile ino flags => exact sat_map (openFile_backed hT hf ino flags)
  | create parent name mode => exact sat_map (create_backed hT req hf parent name mode)
  | opendir ino => exact sat_map (opendir_backed hT hf ino)
  | _ => exact hrest _ nofun nofun nofun

end Requests

/-- Requests that were answered one after the other, some of them with an errno. -/
inductive Served (env : Env) (fs : FS) : BloomFuse → Prop
  | start : Served env fs (.new fs)
  | answered {f f' : BloomFuse} {req : Request} {c : Call} {a : Answer} (h : Served env fs f)
      (does : handler env req c f = .ok a f') : Served env fs f'
  | refused {f f' : BloomFuse} {req : Request} {c : Call} {n : Errno} (h : Served env fs f)
      (does : handler env req c f = .error (.err n) f') : Served env fs f'

theorem Served.backed (hT : Ongoing env T) {fs : FS} (hs : T ⟨fs, []⟩) (h : Served env fs f) :
    Backed T [] f := by
  induction h with
  | start => exact ⟨_, hs, rfl, List.Perm.refl _, fun _ hmem => absurd hmem (AList.notMem_empty _)⟩
  | answered _ does ih => exact (handler_sat hT _ _ ih).ok does
  | refused _ does ih => exact (handler_sat hT _ _ ih).error does ⟨_, rfl⟩

/-- The requests of the kernel are calls of the file system.  After any requests on a
formatted device that were answered, some with an errno, the file system is in a state of a
run of calls of its interface, and the handles of that run that are not closed are the file
handles of the kernel, one each.  The open count of an inode is the number of file handles
the kernel has on it. -/
theorem requests_are_calls {D : Disk → Prop} {key : Option Bytes} {d : Disk} {fs : FS}
    (blank : Blank d) (hd : D d) (run : format env key d = .ok fs) (h : Served env fs f) :
    (∃ past s, Run env D (fun _ op _ => op.InSession) past s ∧ s.fs = f.fs ∧
      (f.handles.entries.map (·.2)).Perm (s.handles.filter (!·.closed))) ∧
      ∀ id, (f.fs.openCountOf id).toNat = (f.handles.entries.map (·.2)).countP (·.id = id) := by
  have hT : Ongoing env fun s => ∃ past, Run env D (fun _ op _ => op.InSession) past s := by
    rintro s op out s' ⟨past, hrun⟩ hop does
    exact ⟨_, hrun.step does hop⟩
  obtain ⟨s, ⟨past, hrun⟩, hserves⟩ := h.backed hT ⟨_, .start blank hd run⟩
  refine ⟨⟨past, s, hrun, hserves.fs, hserves.held⟩, fun id => ?_⟩
  have hheld : (f.handles.entries.map (·.2)).Perm (s.handles.filter (!·.closed)) := hserves.held
  rw [← hserves.fs, tallied_of_run hrun id, hheld.countP_eq, List.countP_filter]
  refine List.countP_congr fun h _ => ?_
  cases h.closed <;> simp

/-! ## Requests that are answered -/

section Answered

variable {f : BloomFuse} {ino fh : UInt64} {id : Nat}

theorem takeFh_ok (h : f.nextFh.toNat + 1 < 2 ^ 64) :
    takeFh f = .ok f.nextFh { f with nextFh := f.nextFh + 1 } := by
  show (if f.nextFh.toNat + 1 < 2 ^ 64 then _ else _ : Handler UInt64) f = _
  rw [if_pos h]
  rfl

theorem insertHandle_ok (h : f.nextFh.toNat + 1 < 2 ^ 64) (x : Handle) :
    insertHandle x f = .ok f.nextFh
      { f with handles := f.handles.insert f.nextFh x, nextFh := f.nextFh + 1 } :=
  bind_of_ok (takeFh_ok h)

theorem statOf_ok {st : Stat} (h : f.fs.stat id = .ok st) : statOf env id f = .ok st f := by
  have hquery : (query env (FS.stat · id)).1 f.fs = .ok st f.fs := by
    show (Exec.ofExcept (f.fs.stat id) : Exec Fs.Error FS Stat) f.fs = _
    rw [h]
    rfl
  exact onFs_ok hquery

theorem create_ok {req : Request} {parent : Nat} {name : String} {mode : UInt32}
    {fs₁ fs₂ fs₃ fs₄ : FS} {st : Stat} {attr : FileAttr} {x : Handle} (hid : idOf ino = .ok parent)
    (hmake : (Fs.create parent name : Act env Nat).1 f.fs = .ok id fs₁)
    (hmode : (Fs.chmod id (mode &&& 0o7777).toUInt16 : Act env Unit).1 fs₁ = .ok () fs₂)
    (howner : (Fs.chown id req.uid req.gid : Act env Unit).1 fs₂ = .ok () fs₃)
    (hstat : fs₃.stat id = .ok st) (hattr : fillAttr st = .ok attr)
    (hopen : (Fs.openFile id : Act env Handle).1 fs₃ = .ok x fs₄)
    (hfh : f.nextFh.toNat + 1 < 2 ^ 64) :
    handler env req (.create ino (Utf8.encode name) mode) f =
      .ok (.created attr st.generation f.nextFh)
        { f with fs := fs₄, handles := f.handles.insert f.nextFh x, nextFh := f.nextFh + 1 } := by
  have hadopt : adopt env req id mode { f with fs := fs₁ } = .ok () { f with fs := fs₃ } := by
    unfold adopt
    rw [bind_of_ok (onFs_ok hmode), onFs_ok howner]
  have hst : statOf env id { f with fs := fs₃ } = .ok st { f with fs := fs₃ } := statOf_ok hstat
  have hrun : create env req ino (Utf8.encode name) mode f =
      .ok ((attr, st.generation), f.nextFh)
        { f with fs := fs₄, handles := f.handles.insert f.nextFh x, nextFh := f.nextFh + 1 } := by
    have hinsert := insertHandle_ok (f := { f with fs := fs₄ }) hfh x
    unfold create
    rw [bind_of_ok (toStr_encode name), bind_of_ok (ofExcept_idOf hid), bind_of_ok (onFs_ok hmake),
      bind_of_ok hadopt, bind_of_ok hst, bind_of_ok (onFs_ok hopen)]
    refine (bind_of_ok hinsert).trans ?_
    rw [hattr]
    rfl
  exact bind_of_ok hrun

theorem openFile_ok {req : Request} {fs : FS} {x : Handle} (hid : idOf ino = .ok id)
    (hopen : (Fs.openFile id : Act env Handle).1 f.fs = .ok x fs)
    (hfh : f.nextFh.toNat + 1 < 2 ^ 64) :
    handler env req (.openFile ino 0) f = .ok (.opened f.nextFh)
        { f with fs := fs, handles := f.handles.insert f.nextFh x, nextFh := f.nextFh + 1 } := by
  have hrun : openFile env ino 0 f = .ok f.nextFh
      { f with fs := fs, handles := f.handles.insert f.nextFh x, nextFh := f.nextFh + 1 } := by
    have htrunc : truncateOpened env id x 0 { f with fs := fs } = .ok () { f with fs := fs } := by
      unfold truncateOpened
      rw [if_neg (by decide)]
      rfl
    unfold openFile
    rw [bind_of_ok (ofExcept_idOf hid), bind_of_ok (onFs_ok hopen), bind_of_ok htrunc]
    exact insertHandle_ok (f := { f with fs := fs }) hfh x
  exact bind_of_ok hrun

theorem openFile_refused {s : FS} {e : Fault Fs.Error} (h : s.regular id = .error e) :
    (Fs.openFile id : Act env Handle).1 s = .error e s := by
  show ((Exec.ofExcept (s.regular id) : Exec Fs.Error FS Inode) >>= _) s = _
  rw [h]
  rfl

theorem openFile_error {req : Request} {fs : FS} {e : Fs.Error} (hid : idOf ino = .ok id)
    (hopen : (Fs.openFile id : Act env Handle).1 f.fs = .error (.err e) fs) :
    handler env req (.openFile ino 0) f = .error (.err (errno e)) { f with fs := fs } := by
  have hrun : openFile env ino 0 f = .error (.err (errno e)) { f with fs := fs } := by
    unfold openFile
    rw [bind_of_ok (ofExcept_idOf hid), bind_of_error (onFs_error hopen)]
  exact bind_of_error hrun

theorem release_ok {req : Request} {fs : FS} {x : Handle} (hx : f.handles.lookup fh = some x)
    (hclose : (Fs.close x : Act env Unit).1 f.fs = .ok () fs) :
    handler env req (.release fh) f = .ok .ok
        { f with fs := fs, handles := f.handles.erase fh } := by
  have hrun : release env fh f = .ok () { f with fs := fs, handles := f.handles.erase fh } := by
    have hclose' := onFs_ok (f := { f with handles := f.handles.erase fh }) hclose
    unfold release
    rw [bind_of_ok (show (get : Handler BloomFuse) f = .ok f f from rfl), hx]
    exact hclose'
  exact bind_of_ok hrun

theorem write_ok {req : Request} {fs : FS} {offset : Int64} {data : Bytes} (hid : idOf ino = .ok id)
    (hwrite : (Fs.writeAt id offset.toUInt64.toNat data : Act env Unit).1 f.fs = .ok () fs) :
    handler env req (.write ino offset data) f = .ok (.written (UInt32.ofNat data.length))
        { f with fs := fs } := by
  have hrun : write env ino offset data f = .ok (UInt32.ofNat data.length) { f with fs := fs } := by
    unfold write
    rw [bind_of_ok (ofExcept_idOf hid), bind_of_ok (onFs_ok hwrite)]
    rfl
  exact bind_of_ok hrun

theorem stat_of_openFile {s s' : FS} {x : Handle} (hlt : id + 1 < 2 ^ 64)
    (h : (Fs.openFile id : Act env Handle).1 s = .ok x s') :
    ∃ st attr, s.stat id = .ok st ∧ fillAttr st = .ok attr := by
  unfold FS.stat
  cases hget : s.getInode id with
  | error e =>
    have hreg : s.regular id = .error e := by
      unfold FS.regular
      rw [hget]
      rfl
    rw [openFile_refused hreg] at h
    cases h
  | ok in_ =>
    have hino : inoOf id = .ok (UInt64.ofNat (id + 1)) := if_pos hlt
    refine ⟨_, ?_, rfl, ?_⟩
    rotate_left
    · unfold fillAttr
      rw [hino]
      rfl

theorem create_of_trail {l : List Store.Charge} {k g : Nat} {s : Session} {t t' : State}
    {handles' : List Handle} {parent : Nat} {name : String} {mode uid gid : UInt32} {m : UInt16}
    (hc : Clear env l) (h : Track env l k s t) (ho : Orderly t.view s.handles)
    (htrail : trail env Fair [.create parent name, .chmod id m, .chown id uid gid, .openFile id] t
      s.handles = some (t', handles', [(id, g)]))
    (hpre : t'.log <+: l) (hf : f.fs = s.fs) (hid : idOf ino = .ok parent)
    (hm : (mode &&& 0o7777).toUInt16 = m) (hlt : id + 1 < 2 ^ 64)
    (hfh : f.nextFh.toNat + 1 < 2 ^ 64) :
    ∃ a s', handler env ⟨uid, gid⟩ (.create ino (Utf8.encode name) mode) f = .ok a
        { f with fs := s'.fs, handles := f.handles.insert f.nextFh ⟨id, false⟩
                 nextFh := f.nextFh + 1 } ∧
      s'.handles = handles' ∧ Track env l k s' t' ∧ Orderly t'.view s'.handles := by
  have hfair : ∀ v op, Fair v op → Fair v op := fun _ _ h => h
  obtain ⟨r, s₁, t₁, b₁, does₁, -, htrack₁, ho₁, hrest₁, hborn⟩ :=
    trail_step hc hfair h ho htrail hpre trivial
  obtain ⟨r₂, s₂, t₂, b₂, does₂, -, htrack₂, ho₂, hrest₂, -⟩ :=
    trail_step hc hfair htrack₁ ho₁ hrest₁ hpre trivial
  obtain ⟨r₃, s₃, t₃, b₃, does₃, -, htrack₃, ho₃, hrest₃, -⟩ :=
    trail_step hc hfair htrack₂ ho₂ hrest₂ hpre trivial
  obtain ⟨r₄, s₄, t₄, b₄, does₄, -, htrack₄, ho₄, hrest₄, -⟩ :=
    trail_step hc hfair htrack₃ ho₃ hrest₃ hpre trivial
  cases hrest₄
  -- the id that was made is the one the next calls are about
  obtain ⟨id', hmake, rfl⟩ := act_of_perform does₁ trivial rfl
  obtain rfl : id = id' := congrArg Prod.fst (List.cons.inj hborn).1
  have hmode := ran_of_perform does₂ trivial (x := Fs.chmod id m) rfl
  have howner := ran_of_perform does₃ trivial (x := Fs.chown id uid gid) rfl
  obtain ⟨x, hopen, -⟩ := act_of_perform does₄ trivial (x := Fs.openFile id) rfl
  obtain rfl := openFile_eq hopen
  obtain ⟨st, attr, hstat, hattr⟩ := stat_of_openFile hlt hopen
  rw [← hf] at hmake
  rw [← hm] at hmode
  exact ⟨_, s₄, create_ok hid hmake hmode howner hstat hattr hopen hfh, rfl, htrack₄, ho₄⟩

end Answered

/-- A file is created and opened again, with the root in between, which is refused.  When
its first handle is released, the kernel has one handle on it. -/
theorem requests_are_calls_released : ∃ fs a f₁ f₂ f, format Env.plain none smallDisk = .ok fs ∧
    handler Env.plain ⟨7, 7⟩ (.create 1 (Utf8.encode "a") 0o640) (.new fs) = .ok a f₁ ∧
    handler Env.plain ⟨7, 7⟩ (.openFile 1 0) f₁ = .error (.err .einval) f₁ ∧
    handler Env.plain ⟨7, 7⟩ (.openFile 2 0) f₁ = .ok (.opened 2) f₂ ∧
    handler Env.plain ⟨7, 7⟩ (.release 1) f₂ = .ok .ok f ∧
    f.handles.entries.map (·.2) = [⟨1, false⟩] ∧ (f.fs.openCountOf 1).toNat = 1 ∧
    ∃ past s, Run Env.plain Cow.MetaSound (fun _ op _ => op.InSession) past s ∧
      s.fs = f.fs ∧ (f.handles.entries.map (·.2)).Perm (s.handles.filter (!·.closed)) := by
  have htrail : ∃ x ∈ trail Env.plain Fair [.create 0 "a", .chmod 1 0o640, .chown 1 7 7,
      .openFile 1] (fresh Env.plain) [],
      ∃ y ∈ trail Env.plain Fair [.openFile 1, .close 0] x.1 x.2.1,
        x.2.2 = [(1, 0)] ∧
        (0 < x.1.cap ∧ (x.1.node 0).kind ≠ Inode.typeRegular ∧ x.2.1 = [⟨1, false⟩]) ∧
        Sketched y.1.paid ∧ y.1.paid.length ≤ 256 := by
    decide
  obtain ⟨⟨t, handles, b⟩, hx, ⟨t', handles', b'⟩, hy, rfl, ⟨hroot, hkind, hheld⟩, hsketch, hfew⟩ :=
    htrail
  obtain ⟨hclear, hblank, fs, hfs, htrack⟩ := start_format hsketch hfew
  have hone : (1 : UInt64).toNat + 1 < 2 ^ 64 := by decide
  have htwo : (2 : UInt64).toNat + 1 < 2 ^ 64 := by decide
  obtain ⟨a, s₁, hcreate, rfl, htrack₁, ho₁⟩ :=
    create_of_trail (f := .new fs) hclear htrack (orderly_fresh _) hx (trail_grows hy) rfl
      (show idOf 1 = .ok 0 from rfl) (show ((0o640 : UInt32) &&& 0o7777).toUInt16 = 0o640 from rfl)
      (show 1 + 1 < 2 ^ 64 by decide) hone
  have hfair : ∀ v op, Fair v op → Fair v op := fun _ _ h => h
  obtain ⟨r₂, s₂, t₂, b₂, does₂, hh₂, htrack₂, ho₂, hy₁, -⟩ :=
    trail_step hclear hfair htrack₁ ho₁ hy (List.prefix_refl _) trivial
  obtain ⟨r₃, s₃, t₃, b₃, does₃, -, -, -, -, -⟩ :=
    trail_step hclear hfair htrack₂ ho₂ hy₁ (List.prefix_refl _) trivial
  obtain ⟨x, hopen, -⟩ := act_of_perform does₂ trivial (x := Fs.openFile 1) rfl
  obtain rfl := openFile_eq hopen
  have hclose : (Fs.close ⟨1, false⟩ : Act Env.plain Unit).1 s₂.fs = .ok () s₃.fs := by
    refine ran_of_perform does₃ trivial ?_
    rw [hh₂, show s₁.handles = [⟨1, false⟩] from hheld]
    rfl
  have hdir : s₁.fs.regular 0 = .error (.err .notFile) := by
    unfold FS.regular
    rw [htrack₁.rep.getInode_of_lt (Nat.not_le_of_lt hroot), ok_bind,
      (htrack₁.rep.nodes 0 (htrack₁.rep.cap ▸ hroot)).kind, if_pos hkind]
    rfl
  have hrefused : handler Env.plain ⟨7, 7⟩ (.openFile 1 0)
      ⟨s₁.fs, AList.insert 1 ⟨1, false⟩ ∅, ∅, 2⟩ = .error (.err .einval) _ :=
    openFile_error (e := .notFile) rfl (openFile_refused hdir)
  have hagain : handler Env.plain ⟨7, 7⟩ (.openFile 2 0)
      ⟨s₁.fs, AList.insert 1 ⟨1, false⟩ ∅, ∅, 2⟩ = .ok (.opened 2)
        ⟨s₂.fs, AList.insert 2 ⟨1, false⟩ (AList.insert 1 ⟨1, false⟩ ∅), ∅, 3⟩ :=
    openFile_ok rfl hopen htwo
  have hrelease : handler Env.plain ⟨7, 7⟩ (.release 1)
      ⟨s₂.fs, AList.insert 2 ⟨1, false⟩ (AList.insert 1 ⟨1, false⟩ ∅), ∅, 3⟩ = .ok .ok _ :=
    release_ok rfl hclose
  have hserved := (((Served.start.answered hcreate).refused hrefused).answered hagain).answered
    hrelease
  obtain ⟨hrun, hcount⟩ := requests_are_calls hblank metaSound_smallDisk hfs hserved
  exact ⟨fs, a, _, _, _, hfs, hcreate, hrefused, hagain, hrelease, rfl, hcount 1, hrun⟩

end Fuse
end BloomFS
