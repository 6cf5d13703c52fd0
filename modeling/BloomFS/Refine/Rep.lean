/-
The relation between the file system and the machine without a store.

`Rep env s t` says that the inode table of `s` lists the nodes of `t` with their
contents, that the references are those of the inodes and possibly lost ones, and
that every resident directory mirrors the pages of its node.
-/
import BloomFS.Spec.Effects
import Mathlib.Algebra.Order.BigOperators.Group.Finset
import Mathlib.Algebra.Order.Group.Multiset

namespace BloomFS
namespace Refine

open Bytes Exec Dir Fs Store Spec

/-- The fields of an inode besides its contents.  The records of a directory are its
pages. -/
structure Mirrors (in_ : Inode) (n : Node) : Prop where
  kind : in_.kind = n.kind
  nlink : in_.nlink = n.nlink
  generation : in_.generation = n.generation
  uid : in_.uid = n.uid
  gid : in_.gid = n.gid
  mode : in_.mode = n.mode
  atime : in_.atime = n.atime
  mtime : in_.mtime = n.mtime
  ctime : in_.ctime = n.ctime
  paged : n.isDir → in_.size ≠ 0 → in_.recordSizeLog2 = 12

/-- The references of all inodes. -/
def total (tbl : Inode.Table) (refs : Nat → List Ref) : Multiset Dedup.Key :=
  ∑ id ∈ Finset.range tbl.cap, tokens (tbl.slots id) (refs id)

def others (tbl : Inode.Table) (refs : Nat → List Ref) (id : Nat) : Multiset Dedup.Key :=
  ∑ i ∈ (Finset.range tbl.cap).erase id, tokens (tbl.slots i) (refs i)

theorem total_eq {tbl : Inode.Table} {id : Nat} (h : id < tbl.cap) (refs : Nat → List Ref) :
    total tbl refs = tokens (tbl.slots id) (refs id) + others tbl refs id :=
  (Finset.add_sum_erase _ _ (Finset.mem_range.mpr h)).symm

theorem others_congr {tbl tbl' : Inode.Table} {refs refs' : Nat → List Ref} {id : Nat}
    (hcap : tbl'.cap = tbl.cap) (hslots : ∀ i, i ≠ id → tbl'.slots i = tbl.slots i)
    (hrefs : ∀ i, i ≠ id → refs' i = refs i) : others tbl' refs' id = others tbl refs id := by
  unfold others
  rw [hcap]
  refine Finset.sum_congr rfl (fun i hi => ?_)
  have hne := (Finset.mem_erase.mp hi).1
  rw [hslots i hne, hrefs i hne]

theorem mem_others {tbl : Inode.Table} {refs : Nat → List Ref} {id i : Nat} (hi : i < tbl.cap)
    (hne : i ≠ id) {k : Dedup.Key} (hk : k ∈ tokens (tbl.slots i) (refs i)) :
    k ∈ others tbl refs id :=
  Multiset.mem_of_le (Finset.single_le_sum (fun _ _ => Multiset.zero_le _)
    (Finset.mem_erase.mpr ⟨hne, Finset.mem_range.mpr hi⟩)) hk

/-- Directory `id` is not resident. -/
def Uncached (s : FS) (id : Nat) : Prop :=
  ∀ c, s.dirCache = some c → c.entries.lookup id = none

/-- The contents of the inodes and who holds which reference. -/
structure Filled (env : Env) (s : FS) (blob : Nat → Bytes) (refs : Nat → List Ref)
    (lost : Multiset Dedup.Key) : Prop where
  laid : ∀ id, id < s.inodes.cap → Laid (Names env s) (s.inodes.slots id) (refs id) (blob id)
  stocked : Stocked env s (total s.inodes refs + lost)

structure Rep (env : Env) (s : FS) (t : State) : Prop where
  filled : ∃ refs lost, Filled env s (fun id => (t.node id).blob) refs lost ∧
    (t.clean = true ↔ lost = 0)
  nodes : ∀ id, id < s.inodes.cap → Mirrors (s.inodes.slots id) (t.node id)
  cap : t.cap = s.inodes.cap
  count : t.count = s.inodes.count
  cap_lt : s.inodes.cap < 2 ^ 64
  next : t.next = s.ub.nextInode.toNat
  free : t.free = s.freeInodes
  opens : ∀ id, t.opens id = s.openCountOf id
  ticks : t.ticks = s.ticks
  orders : t.orders = s.orders
  logged : Logged t.log 0 s.dev.trace
  cache : ∀ c, s.dirCache = some c → ∀ id h, c.entries.lookup id = some h →
    id < s.inodes.cap ∧ (t.node id).isDir ∧ Resident env h (t.node id).pages ∧ h.dirty = []

def bridge (env : Env) (B : Budget) : Bridge (Closed env) State.Le Fs.Error where
  assume := calm env B
  rel := Rep env
  fits t := B.fits t.log
  fits_of t t' h := B.of_prefix t.log t'.log h
  halt f s := Halt env B f s

variable {env : Env} {B : Budget} {s : FS} {t : State}

theorem Rep.lt (h : Rep env s t) {id : Nat} (hid : ¬ t.cap ≤ id) : id < s.inodes.cap := by
  rw [← h.cap]
  omega

theorem Rep.getInode_of_lt (h : Rep env s t) {id : Nat} (hid : ¬ t.cap ≤ id) :
    s.getInode id = .ok (s.inodes.slots id) := by
  unfold FS.getInode
  rw [Inode.Table.get_of_lt (h.lt hid)]
  rfl

theorem Rep.getInode_of_le (h : Rep env s t) {id : Nat} (hid : t.cap ≤ id) :
    s.getInode id = .error (.err (.inode .outOfRange)) := by
  unfold FS.getInode Inode.Table.get
  rw [if_pos (by rw [← h.cap]; exact hid)]
  rfl

theorem Rep.isDir_iff (h : Rep env s t) {id : Nat} (hid : id < s.inodes.cap) :
    (s.inodes.slots id).kind = Inode.typeDir ↔ (t.node id).isDir := by
  unfold Node.isDir
  rw [(h.nodes id hid).kind]

theorem Rep.uncached (h : Rep env s t) {id : Nat} (hno : ¬ (t.node id).isDir) : Uncached s id := by
  intro c hc
  cases hl : c.entries.lookup id with
  | none => rfl
  | some hd => exact absurd (h.cache c hc id hd hl).2.1 hno

theorem getInode_sim (h : Rep env s t) (id : Nat) :
    Sim (bridge env B) (getInode id) (getNode id) s t
      (fun in_ s' n t' => s' = s ∧ t' = t ∧ id < s.inodes.cap ∧ in_ = s.inodes.slots id ∧
        n = t.node id) := by
  unfold Fs.getInode getNode
  refine sim_get_left (sim_get_right ?_)
  by_cases hid : t.cap ≤ id
  · rw [if_pos hid, h.getInode_of_le hid]
    exact sim_fail h
  · rw [if_neg hid, h.getInode_of_lt hid]
    exact sim_pure ⟨rfl, rfl, h.lt hid, rfl, rfl⟩

/-- Changes outside the pool and the inode table. -/
theorem Filled.of_samePool {s' : FS} {blob : Nat → Bytes} {refs : Nat → List Ref}
    {lost : Multiset Dedup.Key} (h : Filled env s blob refs lost) (hp : SamePool s s')
    (hi : s'.inodes = s.inodes) : Filled env s' blob refs lost where
  laid := by
    rw [hi]
    exact fun id hid => (h.laid id hid).mono fun _ _ _ hn => hn.of_samePool hp
  stocked := by
    rw [hi]
    exact h.stocked.of_samePool hp

theorem Rep.filled_of {s' : FS} {t' : State} (h : Rep env s t) (hp : SamePool s s')
    (hi : s'.inodes = s.inodes) (hn : t'.node = t.node) (hc : t'.clean = t.clean) :
    ∃ refs lost, Filled env s' (fun id => (t'.node id).blob) refs lost ∧
      (t'.clean = true ↔ lost = 0) := by
  obtain ⟨refs, lost, hf, hclean⟩ := h.filled
  rw [hn, hc]
  exact ⟨refs, lost, hf.of_samePool hp hi, hclean⟩

theorem Rep.of_ticks (h : Rep env s t) :
    Rep env { s with ticks := s.ticks + 1 } { t with ticks := t.ticks + 1 } :=
  ⟨h.filled_of (ticks_samePool s) rfl rfl rfl, h.nodes, h.cap, h.count, h.cap_lt, h.next, h.free,
    h.opens, congrArg (· + 1) h.ticks, h.orders, h.logged, h.cache⟩

theorem now_sim (h : Rep env s t) :
    Sim (bridge env B) (Fs.now) (Spec.now env) s t
      (fun a s' b t' => a = b ∧ a = env.clock s.ticks ∧ s' = { s with ticks := s.ticks + 1 } ∧
        t' = { t with ticks := t.ticks + 1 }) := by
  refine fun _ => under_of_run rfl ⟨env.clock t.ticks, _, rfl, ?_, rfl, rfl, rfl⟩
  rw [h.ticks]

/-! ## The inode table -/

theorem slots_setInode {id : Nat} (hid : id < s.inodes.cap) (in_ : Inode) :
    (s.setInode id in_).inodes.slots = Function.update s.inodes.slots id in_ := by
  rw [setInode_of_lt hid]
  rfl

theorem count_setInode {id : Nat} (hid : id < s.inodes.cap) (in_ : Inode) :
    (s.setInode id in_).inodes.count = max s.inodes.count (id + 1) := by
  rw [setInode_of_lt hid]
  exact Inode.Table.count_store s.inodes hid in_

theorem cap_setInode (s : FS) (id : Nat) (in_ : Inode) :
    (s.setInode id in_).inodes.cap = s.inodes.cap :=
  (setInode_samePool s id in_).cap

theorem nodes_update {slots : Nat → Inode} {node : Nat → Node} {cap id : Nat}
    {in_ : Inode} {n : Node}
    (h : ∀ i, i < cap → Mirrors (slots i) (node i)) (hm : Mirrors in_ n) (i : Nat) (hi : i < cap) :
    Mirrors (Function.update slots id in_ i) (Function.update node id n i) := by
  by_cases hne : i = id
  · subst hne
    rw [Function.update_self, Function.update_self]
    exact hm
  · rw [Function.update_of_ne hne, Function.update_of_ne hne]
    exact h i hi

/-- The resident directories after a change to a node that keeps its pages, or
that is not resident. -/
theorem cache_update {s s' : FS} {id : Nat} {n : Node} (hcap : s'.inodes.cap = s.inodes.cap)
    (hcache : s'.dirCache = s.dirCache)
    (h : ∀ c, s.dirCache = some c → ∀ i hd, c.entries.lookup i = some hd →
      i < s.inodes.cap ∧ (t.node i).isDir ∧ Resident env hd (t.node i).pages ∧ hd.dirty = [])
    (hn : Uncached s id ∨ (n.isDir ↔ (t.node id).isDir) ∧ n.pages = (t.node id).pages) :
    ∀ c, s'.dirCache = some c → ∀ i hd, c.entries.lookup i = some hd →
      i < s'.inodes.cap ∧ (Function.update t.node id n i).isDir ∧
        Resident env hd (Function.update t.node id n i).pages ∧ hd.dirty = [] := by
  intro c hc i hd hl
  rw [hcache] at hc
  have hold := h c hc i hd hl
  rw [hcap]
  by_cases hne : i = id
  · subst hne
    rw [Function.update_self]
    rcases hn with hn | ⟨hk, hp⟩
    · rw [hn c hc] at hl
      cases hl
    · rw [hk, hp]
      exact hold
  · rw [Function.update_of_ne hne]
    exact hold

theorem blob_update {node : Nat → Node} {id : Nat} {n : Node} (i : Nat) :
    (Function.update node id n i).blob = Function.update (fun i => (node i).blob) id n.blob i := by
  by_cases hne : i = id
  · subst hne
    rw [Function.update_self, Function.update_self]
  · rw [Function.update_of_ne hne, Function.update_of_ne hne]

theorem Filled.update {s s' : FS} {blob : Nat → Bytes} {refs : Nat → List Ref}
    {lost lost' : Multiset Dedup.Key} {id : Nat} {in' : Inode} {refs' : List Ref} {new : Bytes}
    (h : Filled env s blob refs lost) (hcap : s'.inodes.cap = s.inodes.cap)
    (hslots : s'.inodes.slots = Function.update s.inodes.slots id in') (hid : id < s.inodes.cap)
    (hlaid : Laid (Names env s') in' refs' new)
    (hst : Stocked env s' (tokens in' refs' + (others s.inodes refs id + lost')))
    (hnames : ∀ r b, r.hash ∈ others s.inodes refs id + lost' → Names env s r b →
      Names env s' r b) :
    Filled env s' (Function.update blob id new) (Function.update refs id refs') lost' where
  laid i hi := by
    rw [hslots]
    by_cases hne : i = id
    · subst hne
      rw [Function.update_self, Function.update_self, Function.update_self]
      exact hlaid
    · rw [Function.update_of_ne hne, Function.update_of_ne hne, Function.update_of_ne hne]
      rw [hcap] at hi
      exact (h.laid i hi).mono fun r b hr hn =>
        hnames r b (Multiset.mem_add.mpr (.inl (mem_others hi hne hr))) hn
  stocked := by
    have hid' : id < s'.inodes.cap := by rw [hcap]; exact hid
    have hoth : others s'.inodes (Function.update refs id refs') id = others s.inodes refs id :=
      others_congr hcap (fun i hi => by rw [hslots, Function.update_of_ne hi])
        (fun i hi => Function.update_of_ne hi _ _)
    rw [total_eq hid', hoth, hslots, Function.update_self, Function.update_self, add_assoc]
    exact hst

/-- A change to the fields of an inode that leaves its contents. -/
theorem Rep.put (h : Rep env s t) {id : Nat} {in_ : Inode} {n : Node} (hid : id < s.inodes.cap)
    (hd : SameData (s.inodes.slots id) in_) (hm : Mirrors in_ n) (hblob : n.blob = (t.node id).blob)
    (hn : Uncached s id ∨ (n.isDir ↔ (t.node id).isDir) ∧ n.pages = (t.node id).pages) :
    Rep env (s.setInode id in_) (t.setNode id n) := by
  have hp := setInode_samePool s id in_
  have hslots := slots_setInode hid in_
  have hset := setInode_of_lt hid in_
  obtain ⟨refs, lost, hf, hclean⟩ := h.filled
  have hst := hf.stocked
  rw [total_eq hid, add_assoc, tokens_of_sameData hd] at hst
  have hfilled : Filled env (s.setInode id in_) _ _ lost := hf.update hp.cap hslots hid
    (((hf.laid id hid).of_sameData hd).mono fun r b _ hr => hr.of_samePool hp)
    (hst.of_samePool hp) (fun r b _ hr => hr.of_samePool hp)
  have hfun : (fun i => ((t.setNode id n).node i).blob) =
      Function.update (fun i => (t.node i).blob) id (t.node id).blob := by
    funext i
    rw [← hblob]
    exact blob_update i
  refine ⟨⟨_, lost, hfun ▸ hfilled, hclean⟩, ?_, ?_, ?_, ?_, ?_, ?_, ?_, ?_, ?_, ?_, ?_⟩
  · intro i hi
    rw [hp.cap] at hi
    rw [hslots]
    exact nodes_update h.nodes hm i hi
  · rw [hp.cap]
    exact h.cap
  · rw [count_setInode hid]
    exact congrArg (max · (id + 1)) h.count
  · rw [hp.cap]
    exact h.cap_lt
  · rw [hset]
    exact h.next
  · rw [hset]
    exact h.free
  · rw [hset]
    exact h.opens
  · rw [hset]
    exact h.ticks
  · rw [hset]
    exact h.orders
  · rw [hset]
    exact h.logged
  · exact cache_update hp.cap (by rw [hset]) h.cache hn

/-- The node after a change of the contents at time `c`. -/
theorem Mirrors.touched {in_ in' : Inode} {n n' : Node} {c : UInt64} (h : Mirrors in_ n)
    (ht : Touched c in_ in')
    (hn : n' = { n with mtime := c, ctime := c, data := n'.data, pages := n'.pages })
    (hp : n'.isDir → in'.size ≠ 0 → in'.recordSizeLog2 = 12) : Mirrors in' n' := by
  rw [hn] at hp ⊢
  exact ⟨ht.kind.trans h.kind, ht.nlink.trans h.nlink, ht.generation.trans h.generation,
    ht.uid.trans h.uid, ht.gid.trans h.gid, ht.mode.trans h.mode, ht.atime.trans h.atime, ht.mtime,
    ht.ctime, hp⟩

theorem putAt_spec {s' : FS} {id : Nat} {in' : Inode} (hid : id < s.inodes.cap)
    (hput : PutAt s id in' s') :
    s'.inodes.cap = s.inodes.cap ∧ s'.inodes.slots = Function.update s.inodes.slots id in' ∧
      s'.dirCache = s.dirCache := by
  have hb : Beside ({ s with ticks := s.ticks + 1 }.setInode id in') s' := hput
  rw [setInode_of_lt (s := { s with ticks := s.ticks + 1 }) hid] at hb
  exact ⟨by rw [hb.inodes]; rfl, by rw [hb.inodes]; rfl, hb.dirCache⟩

theorem Rep.rewrote {s' : FS} {id : Nat} {in_ in' : Inode} {n' : Node} {p : Payment}
    {refs : Nat → List Ref} {lost : Multiset Dedup.Key} (h : Rep env s t)
    (hf : Filled env s (fun id => (t.node id).blob) refs lost) (hclean : t.clean = true ↔ lost = 0)
    (hid : id < s.inodes.cap)
    (hr : Rewrote env (t.log ++ charge p.blob) 0 (others s.inodes refs id + lost) s id in_ p.blob
      in' s')
    (hm : Mirrors in' n') (hb : n'.blob = p.blob) (hc : Uncached s id) :
    Rep env s' ({ t with paid := t.paid ++ [p], ticks := t.ticks + 1 }.setNode id n') := by
  have hput : Beside ({ s with ticks := s.ticks + 1 }.setInode id in') s' := hr.put
  rw [setInode_of_lt (s := { s with ticks := s.ticks + 1 }) hid] at hput
  obtain ⟨hcap, hslots, -⟩ := putAt_spec hid hr.put
  obtain ⟨refs', hlaid, hst⟩ := hr.laid
  have hfilled := hf.update hcap hslots hid hlaid hst hr.names
  have hfun : (fun i => (Function.update t.node id n' i).blob) =
      Function.update (fun i => (t.node i).blob) id p.blob := by
    funext i
    rw [← hb]
    exact blob_update i
  refine ⟨⟨_, lost, hfun ▸ hfilled, hclean⟩, ?_, ?_, ?_, ?_, ?_, ?_, ?_, ?_, ?_, ?_, ?_⟩
  · intro i hi
    rw [hcap] at hi
    rw [hslots]
    exact nodes_update h.nodes hm i hi
  · rw [hcap]
    exact h.cap
  · rw [hput.inodes, Inode.Table.count_store]
    exact congrArg (max · (id + 1)) h.count
  · rw [hcap]
    exact h.cap_lt
  · rw [hput.nextInode]
    exact h.next
  · rw [hput.freeInodes]
    exact h.free
  · intro i
    rw [FS.openCountOf, hput.openCount]
    exact h.opens i
  · rw [hput.ticks]
    exact congrArg (· + 1) h.ticks
  · rw [hput.orders]
    exact h.orders
  · exact (State.log_paid t p).symm ▸ hr.logged
  · exact cache_update hcap hput.dirCache h.cache (.inl hc)

/-! ## Contents of files -/

theorem setData_sim (hl : env.Lawful) (h : Rep env s t) {id : Nat} (hid : id < s.inodes.cap)
    (hnd : ¬ (t.node id).isDir) (new : Bytes) :
    Sim (bridge env B) (Fs.setData id (s.inodes.slots id) new)
      (Spec.setData env id (t.node id) new) s t (fun _ s' _ t' => Rep env s' t') := by
  by_cases hlen : 2 ^ 64 ≤ new.length
  · unfold Fs.setData Spec.setData
    rw [if_pos hlen, if_pos hlen]
    exact sim_panic
  · intro hfits
    have hid' : id < t.cap := by rw [h.cap]; exact hid
    obtain ⟨refs, lost, hf, hclean⟩ := h.filled
    have hst := hf.stocked
    rw [total_eq hid, add_assoc] at hst
    have hrun : (Spec.setData env id (t.node id) new).1 t =
        .ok () ({ t with paid := t.paid ++ [Payment.data new], ticks := t.ticks + 1 }.setNode id
          { t.node id with
            data := new, mtime := env.clock t.ticks, ctime := env.clock t.ticks }) := by
      rw [Spec.setData, if_neg hlen]
      exact run_pay_put hid' (fun c => { t.node id with data := new, mtime := c, ctime := c }) rfl
    have hfits' : B.fits (t.log ++ charge new) := by
      have := hfits
      rw [hrun] at this
      exact (congrArg B.fits (State.log_paid t (.data new))).mp this
    refine Under.mono (setData_under hl hfits' hst (hf.laid id hid) h.logged hid (by omega)) ?_
      (fun f s' hh => .halt hh)
    rintro _ s' ⟨in', hr⟩
    refine ⟨(), _, hrun, ?_⟩
    have ht := hr.touched
    rw [← h.ticks] at ht
    refine h.rewrote (p := .data _) hf hclean hid hr
      ((h.nodes id hid).touched ht rfl fun hd => absurd hd hnd) ?_ (h.uncached hnd)
    exact Node.blob_of_file hnd

theorem writeRange_sim (hl : env.Lawful) (h : Rep env s t) {id : Nat} (hid : id < s.inodes.cap)
    (hnd : ¬ (t.node id).isDir) (off : Nat) (data : Bytes) :
    Sim (bridge env B) (writeAtLocked id (s.inodes.slots id) off data)
      (writeRange env id (t.node id) off data) s t (fun _ s' _ t' => Rep env s' t') := by
  have hblob := Node.blob_of_file hnd
  by_cases hempty : data = []
  · subst hempty
    exact sim_pure h
  by_cases hlen : 2 ^ 64 ≤ off + data.length
  · unfold writeAtLocked writeRange
    rw [if_neg (by simpa using hempty), if_neg (by simpa using hempty), if_pos hlen]
    obtain ⟨refs, lost, hf, hclean⟩ := h.filled
    refine sim_get_left (sim_left (R := fun _ _ => True)
      (under_ok ((hf.laid id hid).loadRefs hl) trivial) (fun _ _ _ _ => ?_))
    rw [if_pos hlen]
    exact sim_panic
  · intro hfits
    have hid' : id < t.cap := by rw [h.cap]; exact hid
    obtain ⟨refs, lost, hf, hclean⟩ := h.filled
    have hst := hf.stocked
    rw [total_eq hid, add_assoc] at hst
    have hlaid := hf.laid id hid
    rw [hblob] at hlaid
    have hrun : (writeRange env id (t.node id) off data).1 t =
        .ok () ({ t with paid := t.paid ++ [Payment.data (overwrite (t.node id).data off data)]
                         ticks := t.ticks + 1 }.setNode id
          { t.node id with
            data := overwrite (t.node id).data off data
            mtime := env.clock t.ticks, ctime := env.clock t.ticks }) := by
      rw [writeRange, if_neg (by simpa using hempty), if_neg hlen]
      exact run_pay_put hid' (fun c => { t.node id with
        data := overwrite (t.node id).data off data, mtime := c, ctime := c }) rfl
    have hfits' : B.fits (t.log ++ charge (overwrite (t.node id).data off data)) := by
      have := hfits
      rw [hrun] at this
      exact (congrArg B.fits (State.log_paid t (.data _))).mp this
    refine Under.mono (writeAtLocked_under hl hfits' hst hlaid h.logged hid hempty (by omega)) ?_
      (fun f s' hh => .halt hh)
    rintro in' s' ⟨hr, -⟩
    refine ⟨(), _, hrun, ?_⟩
    have ht := hr.touched
    rw [← h.ticks] at ht
    refine h.rewrote (p := .data _) hf hclean hid hr
      ((h.nodes id hid).touched ht rfl fun hd => absurd hd hnd) ?_ (h.uncached hnd)
    exact Node.blob_of_file hnd

end Refine
end BloomFS
