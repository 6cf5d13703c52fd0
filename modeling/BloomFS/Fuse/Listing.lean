/-
Paginated reading of a directory through the binding.

The listing is frozen at `opendir`.  A reply attaches to each entry the index of the
next one, and the kernel passes the index it got last.  `readdir_exact` says that over
any sequence of requests the entries accepted are the frozen listing from its start.
-/
import BloomFS.Fuse.Binding
import BloomFS.Runs.FreeList
import BloomFS.Refine.Plain

namespace BloomFS
namespace Fuse

open Bytes Exec Block Dir Fs Spec Refine Runs

variable {env : Env} {fh : UInt64} {snap : List DirEntrySnapshot} {f f' : BloomFuse}

/-! ## What keeps a listing -/

/-- The stream `fh` is open on the listing `snap`. -/
structure Frozen (fh : UInt64) (snap : List DirEntrySnapshot) (f : BloomFuse) : Prop where
  listing : f.dirHandles.lookup fh = some snap
  lt : fh.toNat < f.nextFh.toNat

theorem keeps_onFsExec {α : Type} (x : Exec Fs.Error FS α) :
    Keeps (Frozen fh snap) (onFsExec x) := by
  intro f h
  have hx : Sat x f.fs (fun _ _ => True) (fun _ _ => True) := by
    rw [sat_iff]
    exact ⟨fun _ _ _ => trivial, fun _ _ _ => trivial⟩
  exact sat_zoom hx (fun _ _ _ => ⟨h.listing, h.lt⟩) (fun _ _ _ => ⟨h.listing, h.lt⟩)

theorem keeps_onFs {α : Type} (x : Act env α) : Keeps (Frozen fh snap) (onFs env x) :=
  keeps_onFsExec x.1

theorem takeFh_sat (h : Frozen fh snap f) :
    Sat takeFh f (fun fh' f' => Frozen fh snap f' ∧ fh ≠ fh') (fun _ f' => Frozen fh snap f') := by
  apply sat_get_bind
  apply sat_ite
  · intro hlt
    have hnext : (f.nextFh + 1).toNat = f.nextFh.toNat + 1 := by
      rw [UInt64.toNat_add]
      exact Nat.mod_eq_of_lt hlt
    have hfh := h.lt
    refine ⟨⟨h.listing, ?_⟩, ?_⟩
    · show fh.toNat < (f.nextFh + 1).toNat
      omega
    · rintro rfl
      omega
  · intro _
    exact sat_panic h

theorem keeps_insertHandle (hd : Handle) : Keeps (Frozen fh snap) (insertHandle hd) := by
  intro f h
  refine sat_bind (takeFh_sat h) (fun fh' f' hf' => ?_) (fun _ _ hf' => hf')
  exact ⟨hf'.1.listing, hf'.1.lt⟩

theorem keeps_toStr (name : Bytes) : Keeps (Frozen fh snap) (toStr name) :=
  keeps_ite (keeps_pure _) (keeps_fail _)

theorem keeps_statOf (id : Nat) : Keeps (Frozen fh snap) (statOf env id) := keeps_onFs _

theorem keeps_attrOf (id : Nat) : Keeps (Frozen fh snap) (attrOf env id) :=
  keeps_bind (keeps_statOf id) fun _ => keeps_ofExcept _

theorem keeps_entryOf (id : Nat) : Keeps (Frozen fh snap) (entryOf env id) :=
  keeps_bind (keeps_statOf id) fun _ => keeps_bind (keeps_ofExcept _) fun _ => keeps_pure _

theorem keeps_setattr (ino : UInt64) (mode uid gid : Option UInt32) (size : Option UInt64)
    (atime mtime : Option TimeOrNow) :
    Keeps (Frozen fh snap) (setattr env ino mode uid gid size atime mtime) := by
  have hsize : ∀ id, Keeps (Frozen fh snap) (setSize env id size) := by
    intro id
    cases size with
    | none => exact keeps_pure _
    | some sz => exact keeps_onFs _
  have hmode : ∀ id, Keeps (Frozen fh snap) (setMode env id mode) := by
    intro id
    cases mode with
    | none => exact keeps_pure _
    | some m => exact keeps_onFs _
  have howner : ∀ id, Keeps (Frozen fh snap) (setOwner env id uid gid) := fun id =>
    keeps_ite (keeps_bind (keeps_statOf id) fun _ => keeps_onFs _) (keeps_pure _)
  have htimes : ∀ id, Keeps (Frozen fh snap) (setTimes env id atime mtime) := fun id =>
    keeps_ite (keeps_bind (keeps_statOf id) fun _ => keeps_onFs _) (keeps_pure _)
  exact keeps_bind (keeps_ofExcept _) fun id => keeps_bind (hsize id) fun _ =>
    keeps_bind (hmode id) fun _ => keeps_bind (howner id) fun _ => keeps_bind (htimes id) fun _ =>
      keeps_attrOf id

theorem keeps_adopt (req : Request) (id : Nat) (mode : UInt32) :
    Keeps (Frozen fh snap) (adopt env req id mode) :=
  keeps_bind (keeps_onFs _) fun _ => keeps_onFs _

theorem keeps_truncateOpened (id : Nat) (hd : Handle) (flags : Int32) :
    Keeps (Frozen fh snap) (truncateOpened env id hd flags) :=
  keeps_ite (keeps_handle (keeps_onFs _) fun e =>
    keeps_bind (keeps_handle (keeps_onFs _) fun _ => keeps_pure _) fun _ => keeps_fail e)
      (keeps_pure _)

theorem keeps_release (fh' : UInt64) : Keeps (Frozen fh snap) (release env fh') := by
  intro f h
  apply sat_get_bind
  cases f.handles.lookup fh' with
  | none => exact sat_pure h
  | some hd =>
    have hset : Frozen fh snap { f with handles := f.handles.erase fh' } := ⟨h.listing, h.lt⟩
    exact keeps_onFs (Fs.close hd) _ hset

theorem keeps_snapshotDir (ino : UInt64) : Keeps (Frozen fh snap) (snapshotDir env ino) :=
  keeps_bind (keeps_ofExcept _) fun _ => keeps_bind (keeps_onFs _) fun ents =>
    keeps_ite keeps_panic (keeps_bind (keeps_mapM (fun _ => keeps_bind (keeps_ofExcept _) fun _ =>
      keeps_pure _) ents) fun _ => keeps_pure _)

theorem keeps_opendir (ino : UInt64) : Keeps (Frozen fh snap) (opendir env ino) := by
  apply keeps_bind (keeps_snapshotDir ino)
  intro snap' f h
  refine sat_bind (takeFh_sat h) (fun fh' f' hf' => ?_) (fun _ _ hf' => hf')
  refine ⟨?_, hf'.1.lt⟩
  show (f'.dirHandles.insert fh' snap').lookup fh = some snap
  rw [AList.lookup_insert_ne hf'.2]
  exact hf'.1.listing

theorem keeps_openedDir (ino fh' : UInt64) : Keeps (Frozen fh snap) (openedDir env ino fh') := by
  intro f h
  apply sat_get_bind
  cases f.dirHandles.lookup fh' with
  | none => exact keeps_snapshotDir ino f h
  | some snap' => exact sat_pure h

/-- Only the release of a stream drops its listing. -/
theorem keeps_handler (req : Request) {c : Call} (hc : c ≠ .releasedir fh) :
    Keeps (Frozen fh snap) (handler env req c) := by
  -- the handlers that name a directory entry and make one call
  have named : ∀ {α : Type} (name : Bytes) (ino : UInt64) (x : String → Nat → Handler α),
      (∀ s id, Keeps (Frozen fh snap) (x s id)) →
      Keeps (Frozen fh snap) (do let s ← toStr name; let id ← Exec.ofExcept (idOf ino); x s id) :=
    fun name ino x hx => keeps_bind (keeps_toStr name) fun s =>
      keeps_bind (keeps_ofExcept _) fun id => hx s id
  cases c with
  | lookup parent name =>
    refine keeps_map (named name parent _ fun s id => keeps_bind (keeps_onFs _) fun found => ?_)
    cases found with
    | none => exact keeps_fail _
    | some id => exact keeps_entryOf id
  | getattr ino => exact keeps_map (keeps_bind (keeps_ofExcept _) fun id => keeps_attrOf id)
  | setattr ino mode uid gid size atime mtime =>
    exact keeps_map (keeps_setattr ino mode uid gid size atime mtime)
  | readlink ino => exact keeps_map (keeps_bind (keeps_ofExcept _) fun _ => keeps_onFs _)
  | mkdir parent name mode =>
    exact keeps_map (named name parent _ fun s id => keeps_bind (keeps_onFs _) fun new =>
      keeps_bind (keeps_adopt req new mode) fun _ => keeps_entryOf new)
  | unlink parent name => exact keeps_map (named name parent _ fun s id => keeps_onFs _)
  | rmdir parent name => exact keeps_map (named name parent _ fun s id => keeps_onFs _)
  | symlink parent linkName target =>
    exact keeps_map (keeps_bind (keeps_toStr _) fun s => named target parent _ fun t id =>
      keeps_bind (keeps_onFs _) fun new => keeps_bind (keeps_onFs _) fun _ => keeps_entryOf new)
  | rename parent name newparent newname =>
    exact keeps_map (keeps_bind (keeps_toStr _) fun s => named newname parent _ fun t id =>
      keeps_bind (keeps_ofExcept _) fun _ => keeps_onFs _)
  | link ino newparent newname =>
    exact keeps_map (named newname ino _ fun s id => keeps_bind (keeps_ofExcept _) fun _ =>
      keeps_bind (keeps_onFs _) fun _ => keeps_entryOf id)
  | create parent name mode =>
    exact keeps_map (named name parent _ fun s id => keeps_bind (keeps_onFs _) fun new =>
      keeps_bind (keeps_adopt req new mode) fun _ => keeps_bind (keeps_statOf new) fun st =>
        keeps_bind (keeps_onFs _) fun hd => keeps_bind (keeps_insertHandle hd) fun _ =>
          keeps_bind (keeps_ofExcept _) fun _ => keeps_pure _)
  | openFile ino flags =>
    exact keeps_map (keeps_bind (keeps_ofExcept _) fun id => keeps_bind (keeps_onFs _) fun hd =>
      keeps_bind (keeps_truncateOpened id hd flags) fun _ => keeps_insertHandle hd)
  | read ino offset size => exact keeps_map (keeps_bind (keeps_ofExcept _) fun _ => keeps_onFs _)
  | write ino offset data =>
    exact keeps_map (keeps_bind (keeps_ofExcept _) fun _ => keeps_bind (keeps_onFs _) fun _ =>
      keeps_pure _)
  | flush => exact keeps_pure _
  | fsync => exact keeps_map (keeps_onFsExec _)
  | fallocate ino length mode =>
    exact keeps_map (keeps_ite (keeps_fail _) (keeps_ite (keeps_pure _)
      (keeps_bind (keeps_ofExcept _) fun _ => keeps_onFs _)))
  | release fh' => exact keeps_map (keeps_release fh')
  | opendir ino => exact keeps_map (keeps_opendir ino)
  | readdir ino fh' offset room =>
    exact keeps_map (keeps_bind (keeps_openedDir ino fh') fun _ => keeps_pure _)
  | releasedir fh' =>
    refine keeps_map (keeps_modify fun f h => ⟨?_, h.lt⟩)
    have hne : fh ≠ fh' := fun he => hc (by rw [he])
    show (f.dirHandles.erase fh').lookup fh = some snap
    rw [AList.lookup_erase_ne hne]
    exact h.listing
  | access ino mask => exact keeps_map (keeps_bind (keeps_ofExcept _) fun _ => keeps_onFs _)
  | statfs => exact keeps_map (keeps_onFs _)

/-! ## The listing made at `opendir` -/

/-- The row of a directory entry. -/
def rowOf (e : Dirent) : DirEntrySnapshot :=
  ⟨UInt64.ofNat (e.ino + 1), fileType e.kind, e.name⟩

/-- The rows of the directory itself and its parent, then one row per entry. -/
def listing (ino : UInt64) (ents : List Dirent) : List DirEntrySnapshot :=
  ⟨ino, .directory, "."⟩ :: ⟨ino, .directory, ".."⟩ :: ents.map rowOf

theorem snapshotRow_sat (e : Dirent) :
    Sat (snapshotRow e) f (fun r f' => (r = rowOf e ∧ e.ino + 1 < 2 ^ 64) ∧ f' = f)
    (fun _ _ => True) := by
  unfold snapshotRow inoOf
  by_cases h : e.ino + 1 < 2 ^ 64
  · rw [if_pos h]
    exact ⟨⟨rfl, h⟩, rfl⟩
  · rw [if_neg h]
    trivial

theorem snapshotRows_sat (ents : List Dirent) :
    Sat (ents.mapM snapshotRow) f
      (fun rows f' => (rows = ents.map rowOf ∧ ∀ e ∈ ents, e.ino + 1 < 2 ^ 64) ∧ f' = f)
      (fun _ _ => True) := by
  induction ents generalizing f with
  | nil => exact ⟨⟨rfl, by simp⟩, rfl⟩
  | cons e ents ih =>
    rw [List.mapM_cons]
    refine sat_bind (snapshotRow_sat e) ?_ (fun _ _ _ => trivial)
    rintro r f' ⟨⟨rfl, hlt⟩, rfl⟩
    refine sat_bind ih ?_ (fun _ _ _ => trivial)
    rintro rows f'' ⟨⟨rfl, hall⟩, rfl⟩
    exact ⟨⟨rfl, List.forall_mem_cons.mpr ⟨hlt, hall⟩⟩, rfl⟩

/-- A stream was opened on directory `id`, whose entries were `ents`. -/
structure Opened (env : Env) (ino fh : UInt64) (f f' : BloomFuse) (id : Nat) (ents : List Dirent) :
    Prop where
  dir : idOf ino = .ok id
  entries : (Fs.readdirents id : Act env (List Dirent)).1 f.fs = .ok ents f'.fs
  inos : ∀ e ∈ ents, e.ino + 1 < 2 ^ 64
  short : (listing ino ents).length < 2 ^ 64
  frozen : Frozen fh (listing ino ents) f'

theorem onFs_sat {α : Type} (x : Act env α) :
    Sat (onFs env x) f (fun a f' => ∃ fs, x.1 f.fs = .ok a fs ∧ f' = { f with fs := fs })
      (fun _ _ => True) := by
  have hx : Sat x.1 f.fs (fun a fs => x.1 f.fs = .ok a fs) (fun _ _ => True) := by
    rw [sat_iff]
    exact ⟨fun _ _ h => h, fun _ _ _ => trivial⟩
  exact sat_zoom hx (fun a fs h => ⟨fs, h, rfl⟩) (fun _ _ _ => trivial)

theorem opendir_sat (ino : UInt64) :
    Sat (opendir env ino) f (fun fh f' => ∃ id ents, Opened env ino fh f f' id ents)
      (fun _ _ => True) := by
  have hsnap : Sat (snapshotDir env ino) f
      (fun snap f' => ∃ id ents fs, f' = { f with fs := fs } ∧ idOf ino = .ok id ∧
        (Fs.readdirents id : Act env (List Dirent)).1 f.fs = .ok ents fs ∧
        (∀ e ∈ ents, e.ino + 1 < 2 ^ 64) ∧ (listing ino ents).length < 2 ^ 64 ∧
        snap = listing ino ents) (fun _ _ => True) := by
    refine sat_bind (sat_ofExcept (Q := fun id f' => idOf ino = .ok id ∧ f' = f)
      (fun id h => ⟨h, rfl⟩) (fun _ _ => trivial)) ?_ (fun _ _ h => h)
    rintro id f' ⟨hid, rfl⟩
    refine sat_bind (onFs_sat (Fs.readdirents id)) ?_ (fun _ _ h => h)
    rintro ents f'' ⟨fs, hents, rfl⟩
    refine sat_ite (fun _ => sat_panic trivial) fun hroom => ?_
    refine sat_bind (snapshotRows_sat ents) ?_ (fun _ _ h => h)
    rintro rows f'' ⟨⟨rfl, hall⟩, rfl⟩
    refine ⟨id, ents, fs, rfl, hid, hents, hall, ?_, rfl⟩
    unfold maxAlloc snapshotBytes at hroom
    simp only [listing, List.length_cons, List.length_map]
    omega
  refine sat_bind hsnap ?_ (fun _ _ h => h)
  rintro snap f' ⟨id, ents, fs, rfl, hid, hents, hall, hshort, rfl⟩
  apply sat_bind (Q := fun fh f' => f' = { f with fs := fs, nextFh := f.nextFh + 1 } ∧
    fh = f.nextFh ∧ f.nextFh.toNat + 1 < 2 ^ 64) (E := fun _ _ => True)
  · apply sat_get_bind
    exact sat_ite (fun hlt => ⟨rfl, rfl, hlt⟩) (fun _ => sat_panic trivial)
  · rintro fh f' ⟨rfl, rfl, hlt⟩
    refine ⟨id, ents, hid, hents, hall, hshort, AList.lookup_insert _, ?_⟩
    show f.nextFh.toNat < (f.nextFh + 1).toNat
    rw [UInt64.toNat_add]
    exact Nat.lt_of_lt_of_eq (Nat.lt_succ_self _) (Nat.mod_eq_of_lt hlt).symm
  · exact fun _ _ h => h

/-! ## Replies -/

/-- The cookie that resumes at index `n`. -/
def cookieAt (n : Nat) : Int64 := (UInt64.ofNat n).toInt64

theorem toNat_cookieAt {n : Nat} (h : n < 2 ^ 64) : (cookieAt n).toUInt64.toNat = n := by
  unfold cookieAt
  rw [UInt64.toUInt64_toInt64]
  exact UInt64.toNat_ofNat_of_lt' h

theorem entries_addRows (l : List DirEntrySnapshot) (k room : Nat) :
    (addRows (l.zipIdx k) room).map (·.entry) = l.take room := by
  induction l generalizing k room with
  | nil => simp [addRows]
  | cons e l ih =>
    cases room with
    | zero => rfl
    | succ room =>
      rw [List.zipIdx_cons, addRows, List.map_cons, ih]
      rfl

theorem drop_zipIdx (l : List DirEntrySnapshot) (n k : Nat) :
    (l.zipIdx k).drop n = (l.drop n).zipIdx (k + min n l.length) := by
  induction l generalizing n k with
  | nil => simp
  | cons e l ih =>
    cases n with
    | zero => simp
    | succ n =>
      rw [List.zipIdx_cons, List.drop_succ_cons, ih, List.drop_succ_cons, List.length_cons]
      congr 1
      omega

/-- The last cookie of a reply resumes after its last entry. -/
theorem cookie_addRows (l : List DirEntrySnapshot) (k room : Nat) :
    (((addRows (l.zipIdx k) room).getLast?.map (·.cookie)).getD (cookieAt k)) =
      cookieAt (k + min room l.length) := by
  induction l generalizing k room with
  | nil => simp [addRows]
  | cons e l ih =>
    cases room with
    | zero => simp [addRows]
    | succ room =>
      have hnext : k + min (room + 1) (e :: l).length = k + 1 + min room l.length := by
        rw [List.length_cons]
        omega
      rw [List.zipIdx_cons, addRows, hnext, ← ih (k + 1) room]
      cases hl : addRows (l.zipIdx (k + 1)) room with
      | nil => rfl
      | cons r rows => rw [List.getLast?_cons_cons]; simp [List.getLast?_cons]

/-! ## Streams -/

/-- What happens while a stream is open: its reader asks for more, with room for some
entries, or another request is served. -/
inductive Turn where
  | scan (room : Nat)
  | other (req : Request) (c : Call)

namespace Turn

/-- The reader has room and the stream is not released. -/
def Allowed (fh : UInt64) : Turn → Prop
  | .scan room => 1 ≤ room
  | .other _ c => c ≠ .releasedir fh

def room : Turn → Nat
  | .scan room => room
  | .other .. => 0

end Turn

/-- A reader: the cookie it got last, the entries it accepted, and whether a reply was
empty. -/
structure Reader where
  f : BloomFuse
  cookie : Int64
  accepted : List DirEntrySnapshot
  ended : Bool

def Reader.start (f : BloomFuse) : Reader := ⟨f, 0, [], false⟩

/-- The reader takes what a reply holds. -/
def Reader.accept (x : Reader) : EStateM.Result (Fault Errno) BloomFuse (List Row) → Reader
  | .ok rows f =>
      { f := f, cookie := (rows.getLast?.map (·.cookie)).getD x.cookie
        accepted := x.accepted ++ rows.map (·.entry), ended := x.ended || rows.isEmpty }
  | .error _ f => { x with f := f }

/-- One turn of the stream `fh`. -/
def turn (env : Env) (ino fh : UInt64) (x : Reader) : Turn → Reader
  | .scan room => x.accept (readdir env ino fh x.cookie room x.f)
  | .other req c => { x with f := final (handler env req c x.f) }

/-- The reader has read `snap` as far as it had room. -/
structure Reads (fh : UInt64) (snap : List DirEntrySnapshot) (n : Nat) (x : Reader) : Prop where
  frozen : Frozen fh snap x.f
  cookie : x.cookie = cookieAt (min n snap.length)
  accepted : x.accepted = snap.take n
  ended : x.ended = true → x.accepted = snap

theorem readdir_frozen {ino : UInt64} {offset : Int64} {room : Nat} (h : Frozen fh snap f) :
    readdir env ino fh offset room f =
      .ok (addRows (snap.zipIdx.drop offset.toUInt64.toNat) room) f := by
  have hopened : openedDir env ino fh f = .ok snap f := by
    have hget : (get : Handler BloomFuse) f = .ok f f := rfl
    unfold openedDir
    rw [bind_of_ok hget, h.listing]
    rfl
  unfold readdir
  rw [bind_of_ok hopened]
  rfl

theorem Reads.after_turn (hshort : snap.length < 2 ^ 64) {ino : UInt64} {n : Nat}
    {x : Reader} {t : Turn} (h : Reads fh snap n x) (ht : t.Allowed fh) :
    Reads fh snap (n + t.room) (turn env ino fh x t) := by
  cases t with
  | other req c =>
    have hkeep : Keeps (Frozen fh snap) (handler env req c) := keeps_handler req ht
    refine ⟨?_, h.cookie, h.accepted, h.ended⟩
    show Frozen fh snap (final (handler env req c x.f))
    cases hrun : handler env req c x.f with
    | ok a f => exact hkeep.ok h.frozen hrun
    | error e f => exact hkeep.error h.frozen hrun
  | scan room =>
    have hoff : x.cookie.toUInt64.toNat = min n snap.length := by
      rw [h.cookie]
      exact toNat_cookieAt (by omega)
    have hdrop : snap.zipIdx.drop (min n snap.length) =
        (snap.drop n).zipIdx (min n snap.length) := by
      have hdrop' : snap.drop (min n snap.length) = snap.drop n := by
        by_cases hle : n ≤ snap.length
        · rw [Nat.min_eq_left hle]
        · rw [Nat.min_eq_right (by omega), List.drop_length, List.drop_eq_nil_of_le (by omega)]
      rw [drop_zipIdx, hdrop']
      congr 1
      omega
    have hlen : (snap.drop n).length = snap.length - n := List.length_drop
    have hmin : min n snap.length + min room (snap.length - n) = min (n + room) snap.length := by
      omega
    have htake : (snap.take n ++ (snap.drop n).take room) = snap.take (n + room) :=
      List.take_add.symm
    have hread : readdir env ino fh x.cookie room x.f = _ := readdir_frozen h.frozen
    rw [hoff, hdrop] at hread
    have hturn : turn env ino fh x (.scan room) = x.accept (.ok _ x.f) := congrArg x.accept hread
    rw [hturn]
    refine ⟨h.frozen, ?_, ?_, ?_⟩
    · show (((addRows _ room).getLast?.map (·.cookie)).getD x.cookie) = _
      rw [h.cookie, cookie_addRows, hlen, hmin]
      rfl
    · show x.accepted ++ (addRows _ room).map (·.entry) = _
      rw [entries_addRows, h.accepted, htake]
      rfl
    · intro hend
      change (x.ended || (addRows _ room).isEmpty) = true at hend
      show x.accepted ++ (addRows _ room).map (·.entry) = snap
      rw [entries_addRows]
      rcases Bool.or_eq_true_iff.mp hend with hend | hend
      · have hall : snap.length ≤ n := by
          have hself := congrArg List.length (h.accepted.symm.trans (h.ended hend))
          rw [List.length_take] at hself
          omega
        rw [h.ended hend, List.drop_eq_nil_of_le hall]
        simp
      · -- an empty reply with room for an entry is at the end
        have hnone : (snap.drop n).take room = [] := by
          rw [← entries_addRows, List.isEmpty_iff.mp hend]
          rfl
        have hroom : 1 ≤ room := ht
        have hdone : snap.drop n = [] := by
          rcases List.take_eq_nil_iff.mp hnone with h0 | h0
          · omega
          · exact h0
        rw [h.accepted, hdone, List.take_nil, List.append_nil]
        exact List.take_of_length_le (List.drop_eq_nil_iff.mp hdone)

theorem Reads.after_turns (hshort : snap.length < 2 ^ 64) {ino : UInt64} {n : Nat} {x : Reader}
    {turns : List Turn} (h : Reads fh snap n x) (ht : ∀ t ∈ turns, t.Allowed fh) :
    Reads fh snap (n + (turns.map Turn.room).sum) (turns.foldl (turn env ino fh) x) := by
  induction turns generalizing n x with
  | nil => exact h
  | cons t turns ih =>
    rw [List.map_cons, List.sum_cons, ← Nat.add_assoc, List.foldl_cons]
    exact ih (h.after_turn hshort (ht t List.mem_cons_self)) fun t' h' =>
      ht t' (List.mem_cons_of_mem _ h')

/-! ## The directory behind a listing -/

theorem dirents_sat (l : List DirEntry) (t : State) :
    Sat (l.mapM fun e => do
        let n ← Spec.getNode e.inode
        return ({ name := e.name, ino := e.inode, kind := n.kind } : Dirent) :
          Step (List Dirent)).1 t
      (fun ents t' => t' = t ∧
        ents.map (fun e => (e.name, e.ino)) = l.map fun e => (e.name, e.inode))
      (fun _ _ => True) := by
  induction l with
  | nil => exact sat_pure ⟨rfl, rfl⟩
  | cons e l ih =>
    rw [List.mapM_cons]
    have hrow : Sat (do
        let n ← Spec.getNode e.inode
        return ({ name := e.name, ino := e.inode, kind := n.kind } : Dirent) : Step Dirent).1 t
        (fun r t' => t' = t ∧ (r.name, r.ino) = (e.name, e.inode)) (fun _ _ => True) :=
      sat_bind (getNode_sat e.inode) (fun _ _ h => ⟨h.1, rfl⟩) (fun _ _ _ => trivial)
    refine sat_bind hrow ?_ (fun _ _ h => h)
    rintro r t' ⟨rfl, hr⟩
    refine sat_bind ih ?_ (fun _ _ h => h)
    rintro ents t'' ⟨rfl, hents⟩
    exact sat_pure ⟨rfl, by rw [List.map_cons, List.map_cons, hr, hents]⟩

theorem readdirents_lists (t : State) (id : Nat) :
    Sat (Spec.readdirents id).1 t
      (fun ents t' => t' = t ∧ id < t.cap ∧ (t.node id).isDir ∧
        ents.map (fun e => (e.name, e.ino)) = (t.node id).entries.map fun e => (e.name, e.inode))
      (fun _ _ => True) := by
  have hlist : Sat (Spec.listDir id).1 t
      (fun l t' => t' = t ∧ id < t.cap ∧ (t.node id).isDir ∧ l = (t.node id).entries)
      (fun _ _ => True) := by
    refine sat_bind (checkout_sat id) ?_ (fun _ _ _ => trivial)
    rintro w t' ⟨rfl, hid, hdir, rfl⟩
    exact sat_pure ⟨rfl, hid, hdir, rfl⟩
  refine sat_bind hlist ?_ (fun _ _ h => h)
  rintro l t' ⟨rfl, hid, hdir, rfl⟩
  exact (dirents_sat _ t').mono (fun _ _ h => ⟨h.1, hid, hdir, h.2⟩) (fun _ _ h => h)

theorem listed_entries {D : Disk → Prop} {past : List Session} {s : Session} {fs : FS} {id : Nat}
    {ents : List Dirent} (hl : env.Lawful) (run : Run env D (Careful env) past s)
    (hlist : (Fs.readdirents id : Act env (List Dirent)).1 s.fs = .ok ents fs)
    (hu : Undisturbed env ⟨fs, s.handles⟩) :
    ents.map (fun e => (e.name, e.ino)) = (s.fs.entriesOf env id).map (fun e => (e.name, e.inode)) ∧
      (ents.map (·.name)).Nodup := by
  have hop : Op.InSession (.readdirents id) := trivial
  have hact : (actOf env s.handles (.readdirents id)).1 s.fs = .ok (.dirents ents) fs := by
    show (Reply.dirents <$> (Fs.readdirents id : Act env (List Dirent)).1) s.fs = _
    rw [map_eq_pure_bind, bind_of_ok hlist]
    rfl
  have hdoes : perform env (.readdirents id) s = (.ok (.dirents ents), ⟨fs, s.handles⟩) := by
    rw [perform_eq_call hop, call, execOf_eq_actOf (show Answers (.readdirents id) from trivial),
      hact]
    rfl
  have hgrow := trace_grows hop hdoes
  obtain ⟨t, hrep, ho⟩ := careful_orderly hl run
    ⟨hu.1.of_subset hgrow.subset, fun hm => hu.2 (hgrow.subset hm)⟩
  obtain ⟨-, hran | hstop⟩ := perform_rep hl hrep ho.ready hop trivial hu.1 hdoes
  · obtain ⟨t', hran, -⟩ := hran
    cases hran with
    | beside hno => exact absurd trivial hno
    | answered _ hplan =>
      have hents := (sat_map (f := Reply.dirents) (R := fun r (_ : State) => ∀ l,
        r = .dirents l → id < t.cap ∧ (t.node id).isDir ∧
        l.map (fun e => (e.name, e.ino)) = (t.node id).entries.map fun e => (e.name, e.inode))
        ((readdirents_lists t id).mono (fun a s' h l hl => by cases hl; exact h.2)
          (fun _ _ h => h))).ok hplan
      obtain ⟨hid, hdir, heq⟩ := hents ents rfl
      have hneat := ho.ready.neat
      refine ⟨?_, ?_⟩
      · rw [hrep.entriesOf hl hneat, if_pos ⟨hid, hdir⟩]
        exact heq
      · have hnames : ents.map (·.name) = (t.node id).entries.map (·.name) := by
          have := congrArg (List.map Prod.fst) heq
          simpa [List.map_map, Function.comp_def] using this
        rw [hnames]
        exact (hneat id hid hdir).distinct
  · obtain ⟨f, hf, -⟩ := hstop
    cases hf

/-- Reading a directory stream is exact.  Whatever requests are served between the
calls, the entries accepted are those of the listing made at `opendir`, in order, as
many as there was room for, and a reply is empty only when all were accepted.  The
listing is the directory itself, its parent and every entry once. -/
theorem readdir_exact {ino : UInt64} (hopen : opendir env ino f = .ok fh f') :
    ∃ id ents, idOf ino = .ok id ∧
      (Fs.readdirents id : Act env (List Dirent)).1 f.fs = .ok ents f'.fs ∧
      (∀ turns : List Turn, (∀ t ∈ turns, t.Allowed fh) →
        (turns.foldl (turn env ino fh) (.start f')).accepted =
          (listing ino ents).take (turns.map Turn.room).sum ∧
        ((turns.foldl (turn env ino fh) (.start f')).ended = true →
          (turns.foldl (turn env ino fh) (.start f')).accepted = listing ino ents)) ∧
      (∀ e ∈ ents, (rowOf e).ino.toNat = e.ino + 1) ∧
      ∀ D past s, env.Lawful → Run env D (Careful env) past s → s.fs = f.fs →
        Undisturbed env ⟨f'.fs, s.handles⟩ →
        ents.map (fun e => (e.name, e.ino)) =
            (f.fs.entriesOf env id).map (fun e => (e.name, e.inode)) ∧
          (ents.map (·.name)).Nodup := by
  obtain ⟨id, ents, ho⟩ := (opendir_sat ino).ok hopen
  have hstart : Reads fh (listing ino ents) 0 (.start f') :=
    ⟨ho.frozen, rfl, rfl, by simp [Reader.start]⟩
  refine ⟨id, ents, ho.dir, ho.entries, fun turns hall => ?_, fun e he => ?_, ?_⟩
  · have h : Reads fh (listing ino ents) (0 + (turns.map Turn.room).sum)
        (turns.foldl (turn env ino fh) (.start f')) := hstart.after_turns ho.short hall
    rw [Nat.zero_add] at h
    exact ⟨h.accepted, h.ended⟩
  · exact UInt64.toNat_ofNat_of_lt' (ho.inos e he)
  · rintro D past s hl run hfs hu
    rw [← hfs]
    exact listed_entries hl run (by rw [hfs]; exact ho.entries) hu

/-- A file is removed while its directory is read. -/
theorem readdir_exact_removed : ∃ f f' fh, opendir Env.plain 1 f = .ok fh f' ∧
    (([.scan 1, .other ⟨0, 0⟩ (.unlink 1 (Utf8.encode "a")), .scan 2, .scan 9, .scan 9].foldl
      (turn Env.plain 1 fh) (.start f')).accepted.map (·.name)) = [".", "..", "a", "b"] := by
  have hscript : ∃ x ∈ script Env.plain Fair [.create 0 "a", .mkdir 0 "b"] (fresh Env.plain) [],
      Sketched x.1.paid ∧ x.1.paid.length ≤ 256 ∧
      (Spec.readdirents 0).1.run' x.1 = some [⟨"a", 1, 0⟩, ⟨"b", 2, 1⟩] := by
    decide
  obtain ⟨⟨t, handles⟩, hx, hsketch, hfew, hlist⟩ := hscript
  obtain ⟨hclear, past, s, run, rfl, htrack, ho⟩ := run_script (D := Disk.Reliable)
    (P := fun _ _ _ => True) (reliable_zeroed _ _) (fun _ _ h => h)
    (fun _ _ _ _ _ _ _ _ _ _ => trivial)
    (by simp [Plays, Answers]) (by decide) hx hsketch hfew
  obtain ⟨fs, hread⟩ : ∃ fs, (Fs.readdirents 0 : Act Env.plain (List Dirent)).1 s.fs =
      .ok [⟨"a", 1, 0⟩, ⟨"b", 2, 1⟩] fs := by
    have hplan : (Spec.readdirents 0).1 t = .ok [⟨"a", 1, 0⟩, ⟨"b", 2, 1⟩] t := by
      unfold EStateM.run' EStateM.run at hlist
      cases hrun : (Spec.readdirents 0).1 t with
      | error e t' => simp [hrun] at hlist
      | ok l t' =>
        have hsame := ((readdirents_lists t 0).ok hrun).1
        simp only [hrun, Option.some.injEq] at hlist
        rw [hlist, hsame]
    have hrun : (planOf Env.plain s.handles (.readdirents 0)).1 t =
        .ok (.dirents [⟨"a", 1, 0⟩, ⟨"b", 2, 1⟩]) t := by
      show (Reply.dirents <$> (Spec.readdirents 0).1) t = _
      rw [map_eq_pure_bind, bind_of_ok hplan]
      rfl
    obtain ⟨fs, hact, -⟩ := act_exact hclear htrack.roomy htrack.rep ho.ready
      (show Answers (.readdirents 0) from trivial) trivial hrun (List.prefix_refl _)
    refine ⟨fs, ?_⟩
    change (Reply.dirents <$> (Fs.readdirents 0 : Act Env.plain (List Dirent)).1) s.fs = _ at hact
    rw [map_eq_pure_bind] at hact
    cases hread : (Fs.readdirents 0 : Act Env.plain (List Dirent)).1 s.fs with
    | error e fs' =>
      rw [bind_of_error hread] at hact
      cases hact
    | ok l fs' =>
      rw [bind_of_ok hread] at hact
      cases hact
      rfl
  have hopen : opendir Env.plain 1 (.new s.fs) = .ok 1
      { BloomFuse.new fs with
        nextFh := 2
        dirHandles := AList.insert 1 (listing 1 [⟨"a", 1, 0⟩, ⟨"b", 2, 1⟩]) ∅ } := by
    have honfs : onFs Env.plain (Fs.readdirents 0) (.new s.fs) =
        .ok [⟨"a", 1, 0⟩, ⟨"b", 2, 1⟩] (.new fs) := by
      unfold onFs onFsExec zoom
      rw [show (BloomFuse.new s.fs).fs = s.fs from rfl, hread]
      rfl
    have hsnap : snapshotDir Env.plain 1 (.new s.fs) =
        .ok (listing 1 [⟨"a", 1, 0⟩, ⟨"b", 2, 1⟩]) (.new fs) := by
      unfold snapshotDir
      rw [bind_of_ok (show Exec.ofExcept (idOf 1) (BloomFuse.new s.fs) = .ok 0 _ from rfl),
        bind_of_ok honfs]
      rfl
    unfold opendir
    rw [bind_of_ok hsnap]
    rfl
  refine ⟨_, _, _, hopen, ?_⟩
  obtain ⟨id, ents, hid, hents, hturns, -⟩ := readdir_exact hopen
  cases hid
  have hents : (Fs.readdirents 0 : Act Env.plain (List Dirent)).1 s.fs = .ok ents fs := hents
  rw [hread] at hents
  cases hents
  rw [(hturns _ ?_).1]
  · rfl
  · simp [Turn.Allowed]

end Fuse
end BloomFS
