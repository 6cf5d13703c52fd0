/-
The operations simulate those of the machine without a store.

Each statement says that an operation from a state the machine describes returns
what the machine returns, or fails as it fails, and ends in a state the machine
describes.  The exceptions are the faults that the budget or the device explain.
-/
import BloomFS.Refine.Dirs

namespace BloomFS
namespace Refine

open Bytes Exec Dir Fs Store Spec

variable {env : Env} {B : Budget} {s : FS} {t : State}

/-! ## Inodes -/

theorem succ32_sim (n : UInt32) :
    Sim (bridge env B) (Fs.succ32 n) (Spec.succ32 n) s t
      (fun a s' b t' => a = b ∧ s' = s ∧ t' = t) := by
  unfold Fs.succ32 Spec.succ32
  exact sim_ite Iff.rfl (fun _ => sim_pure ⟨rfl, rfl, rfl⟩) (fun _ => sim_panic)

theorem put_sim (h : Rep env s t) {id : Nat} {in_ : Inode} {n : Node} (hid : id < s.inodes.cap)
    (hd : SameData (s.inodes.slots id) in_) (hm : Mirrors in_ n) (hblob : n.blob = (t.node id).blob)
    (hn : Uncached s id ∨ (n.isDir ↔ (t.node id).isDir) ∧ n.pages = (t.node id).pages) :
    Sim (bridge env B) (putInode id in_) (putNode id n) s t
      (fun _ s' _ t' => Rep env s' t' ∧ Aside id s s' t t' ∧ t' = t.setNode id n) := by
  have hrun : (putNode id n).1 t = .ok () (t.setNode id n) :=
    run_putNode (by rw [h.cap]; exact hid) n
  refine fun _ => under_of_run (putInode_of_lt hid in_) ⟨(), _, hrun, h.put hid hd hm hblob hn, ?_,
    rfl⟩
  refine ⟨fun i hi => ?_, fun i hi => node_setNode_ne hi, cap_setInode s id in_,
    fun i _ hu d hd' => ?_⟩
  · rw [slots_setInode hid, Function.update_of_ne hi]
  · rw [setInode_of_lt hid] at hd'
    exact hu d hd'

theorem touch_sim (h : Rep env s t) {id : Nat} {in_ : Inode} {n : Node} (hid : id < s.inodes.cap)
    (hd : SameData (s.inodes.slots id) in_) (hm : Mirrors in_ n) (hblob : n.blob = (t.node id).blob)
    (hn : (n.isDir ↔ (t.node id).isDir) ∧ n.pages = (t.node id).pages) :
    Sim (bridge env B) (do
        let in_ ← touchMeta in_
        putInode id in_)
      (do
        let c ← Spec.now env
        putNode id { n with ctime := c }) s t
      (fun _ s' _ t' => Rep env s' t' ∧ Aside id s s' t t' ∧
          t'.node id = { n with ctime := env.clock t.ticks }) := by
  unfold touchMeta
  rw [bind_assoc]
  refine sim_bind (now_sim h) ?_
  rintro c s' c' t' - ⟨rfl, hc, rfl, rfl⟩
  refine sim_run_left rfl (Sim.mono (put_sim h.of_ticks hid ?_ ?_ ?_ (.inr hn)) ?_)
  · exact ⟨hd.size, hd.log2, hd.flags, hd.blockMap⟩
  · exact ⟨hm.kind, hm.nlink, hm.generation, hm.uid, hm.gid, hm.mode, hm.atime, hm.mtime,
      rfl, hm.paged⟩
  · exact hblob
  · rintro _ s' _ t' ⟨hrep, ha, rfl⟩
    refine ⟨hrep, ⟨ha.slots, ha.nodes, ha.cap, ha.uncached⟩, ?_⟩
    rw [node_setNode_self, hc, h.ticks]

theorem Rep.blanked {s₁ : FS} {id : Nat} {in' : Inode} {n' : Node} {c : Bool}
    {refs : Nat → List Ref} {lost lost' : Multiset Dedup.Key} (h : Rep env s t)
    (hf : Filled env s (fun id => (t.node id).blob) refs lost) (hb : Beside s s₁)
    (hdev : s₁.dev = s.dev) (hid : id < s.inodes.cap)
    (hst : Stocked env s₁ (others s.inodes refs id + lost'))
    (hnames : ∀ r b, r.hash ∈ others s.inodes refs id + lost' → Names env s r b → Names env s₁ r b)
    (hsize : in'.size = 0) (hm : Mirrors in' n') (hblob : n'.blob = []) (hu : Uncached s id)
    (hclean : c = true ↔ lost' = 0) :
    Rep env (s₁.setInode id in') { t.setNode id n' with clean := c } := by
  have hid₁ : id < s₁.inodes.cap := by rw [hb.inodes]; exact hid
  have hp := setInode_samePool s₁ id in'
  have hset := setInode_of_lt hid₁ in'
  have hcap : (s₁.setInode id in').inodes.cap = s.inodes.cap := by rw [hp.cap, hb.inodes]
  have hslots : (s₁.setInode id in').inodes.slots = Function.update s.inodes.slots id in' := by
    rw [slots_setInode hid₁, hb.inodes]
  have hlaid : Laid (Names env (s₁.setInode id in')) in' [] [] := laid_empty hsize
  have hst' : Stocked env (s₁.setInode id in')
      (tokens in' [] + (others s.inodes refs id + lost')) := by
    rw [hlaid.tokens_empty hsize, zero_add]
    exact hst.of_samePool hp
  have hfilled := hf.update hcap hslots hid hlaid hst'
    (fun r b hr hn => (hnames r b hr hn).of_samePool hp)
  have hfun : (fun i => (Function.update t.node id n' i).blob) =
      Function.update (fun i => (t.node i).blob) id [] := by
    funext i
    rw [← hblob]
    exact blob_update i
  refine ⟨⟨_, lost', hfun ▸ hfilled, hclean⟩, ?_, ?_, ?_, ?_, ?_, ?_, ?_, ?_, ?_, ?_, ?_⟩
  · intro i hi
    rw [hcap] at hi
    rw [hslots]
    exact nodes_update h.nodes hm i hi
  · rw [hcap]
    exact h.cap
  · rw [count_setInode hid₁, hb.inodes]
    exact congrArg (max · (id + 1)) h.count
  · rw [hcap]
    exact h.cap_lt
  · rw [hset]
    exact h.next.trans (congrArg UInt64.toNat hb.nextInode.symm)
  · rw [hset]
    exact h.free.trans hb.freeInodes.symm
  · intro i
    rw [hset]
    show t.opens i = s₁.openCountOf i
    rw [h.opens, FS.openCountOf, FS.openCountOf, hb.openCount]
  · rw [hset]
    exact h.ticks.trans hb.ticks.symm
  · rw [hset]
    exact h.orders.trans hb.orders.symm
  · rw [hset]
    show Logged t.log 0 s₁.dev.trace
    rw [hdev]
    exact h.logged
  · refine cache_update hcap ?_ h.cache (.inl hu)
    rw [hset]
    exact hb.dirCache

theorem run_evictDir (env : Env) (s : FS) (id : Nat) : ∃ c, (evictDir id : Act env Unit).1 s =
      .ok () { s with dirCache := c } ∧ (∀ d, c = some d → ∃ d₀, s.dirCache = some d₀ ∧
        d = { d₀ with entries := d₀.entries.erase id }) := by
  rw [evictDir, Within.get_bind_run]
  cases hc : s.dirCache with
  | none =>
    refine ⟨none, ?_, fun d hd => by cases hd⟩
    show EStateM.Result.ok () s = _
    rw [← hc]
  | some d₀ =>
    refine ⟨_, rfl, ?_⟩
    rintro d ⟨⟩
    exact ⟨d₀, rfl, rfl⟩

theorem Rep.of_free (h : Rep env s t) (l : List Nat) :
    Rep env { s with freeInodes := l } { t with free := l } :=
  ⟨h.filled_of ⟨rfl, rfl, rfl, rfl, ⟨_, rfl⟩, rfl⟩ rfl rfl rfl, h.nodes, h.cap,
    h.count, h.cap_lt, h.next, rfl, h.opens, h.ticks, h.orders, h.logged, h.cache⟩

theorem reclaim_sim (hl : env.Lawful) (h : Rep env s t) {id : Nat} {in_ : Inode} {n : Node}
    (hid : id < s.inodes.cap) (hsame : SameData (s.inodes.slots id) in_) (hm : Mirrors in_ n) :
    Sim (bridge env B) (Fs.reclaim id in_) (Spec.reclaim id n) s t
      (fun _ s' _ t' => Rep env s' t' ∧ Aside id s s' t t') := by
  have hrun := run_reclaim n (show id < t.cap by rw [h.cap]; exact hid)
  obtain ⟨c, hevict, hc⟩ := run_evictDir env s id
  have hrep : Rep env { s with dirCache := c } t := by
    refine h.withCache fun d hd => ?_
    obtain ⟨d₀, hd₀, rfl⟩ := hc d hd
    exact (h.coherent hd₀).erase id
  have hu : Uncached { s with dirCache := c } id := by
    intro d hd
    obtain ⟨d₀, -, rfl⟩ := hc d hd
    exact AList.lookup_erase _ _
  obtain ⟨refs, lost, hf, hclean⟩ := hrep.filled
  have hst := hf.stocked
  rw [total_eq hid, add_assoc, tokens_of_sameData hsame] at hst
  intro _
  unfold Fs.reclaim
  refine under_run_bind hevict ?_
  refine under_bind (releaseData_under hl hst ((hf.laid id hid).of_sameData hsame)) ?_
    (fun _ _ h => h)
  rintro _ s₁ - ⟨hb, hdev, hst₁, hnames⟩
  unfold Fs.succ32
  by_cases hg : in_.generation.toNat + 1 < 2 ^ 32
  · rw [if_pos hg]
    rw [if_pos (by rw [← hm.generation]; exact hg)] at hrun
    have hid₁ : id < s₁.inodes.cap := by rw [hb.inodes]; exact hid
    refine under_run_bind rfl (under_run_bind (putInode_of_lt hid₁ _) ?_)
    refine under_get_bind (under_of_run rfl ⟨(), _, hrun, ?_, ?_⟩)
    · have hm' : Mirrors { Inode.default with generation := in_.generation + 1 }
          { generation := n.generation + 1 } :=
        ⟨rfl, rfl, congrArg (· + 1) hm.generation, rfl, rfl, rfl, rfl, rfl, rfl,
          fun _ h0 => absurd rfl h0⟩
      have hblank := hrep.blanked (c := t.clean) hf hb hdev hid hst₁ hnames rfl hm' rfl hu hclean
      have hfree : (s₁.setInode id { Inode.default with generation := in_.generation +
        1 }).freeInodes = t.free := hblank.free.symm
      rw [hfree]
      exact hblank.of_free (id :: t.free)
    · refine ⟨fun i hi => ?_, fun i hi => node_setNode_ne hi, ?_, fun i _ hu' d hd => ?_⟩
      · have hslots := slots_setInode hid₁ { Inode.default with generation := in_.generation + 1 }
        exact (congrFun hslots i).trans ((Function.update_of_ne hi _ _).trans (by rw [hb.inodes]))
      · exact (cap_setInode s₁ id _).trans (by rw [hb.inodes])
      · have hcache : d ∈ s₁.dirCache := by
          rw [setInode_of_lt hid₁] at hd
          exact hd
        rw [hb.dirCache] at hcache
        obtain ⟨d₀, hd₀, rfl⟩ := hc d hcache
        by_cases hi : i = id
        · rw [hi]
          exact AList.lookup_erase _ _
        · exact (AList.lookup_erase_ne hi).trans (hu' d₀ hd₀)
  · rw [if_neg hg]
    rw [if_neg (by rw [← hm.generation]; exact hg)] at hrun
    refine under_panic_bind (.same t hrun ?_)
    rintro ⟨_, h⟩
    cases h

theorem Rep.openCountOf (h : Rep env s t) (id : Nat) : s.openCountOf id = t.opens id :=
  (h.opens id).symm

theorem dropLink_sim (hl : env.Lawful) (h : Rep env s t) {id : Nat} (hid : id < s.inodes.cap) :
    Sim (bridge env B) (Fs.dropLink id (s.inodes.slots id)) (Spec.dropLink env id (t.node id)) s t
      (fun _ s' _ t' => Rep env s' t' ∧ Aside id s s' t t') := by
  have hm := h.nodes id hid
  unfold Fs.dropLink Spec.dropLink
  extract_lets in' n'
  have hm' : Mirrors in' n' :=
    ⟨hm.kind, congrArg pred32 hm.nlink, hm.generation, hm.uid, hm.gid, hm.mode, hm.atime, hm.mtime,
      hm.ctime, hm.paged⟩
  have hd : SameData (s.inodes.slots id) in' := ⟨rfl, rfl, rfl, rfl⟩
  have hblob : n'.blob = (t.node id).blob := rfl
  have hn : (n'.isDir ↔ (t.node id).isDir) ∧ n'.pages = (t.node id).pages := ⟨Iff.rfl, rfl⟩
  refine sim_get_left (sim_get_right (sim_ite ?_ (fun _ => ?_) (fun _ => ?_)))
  · rw [hm'.nlink, h.openCountOf]
  · exact reclaim_sim hl h hid hd hm'
  · refine Sim.mono (touch_sim h hid hd hm' hblob hn) ?_
    rintro _ s' _ t' ⟨hrep, ha, -⟩
    exact ⟨hrep, ha⟩

theorem renew_sim (h : Rep env s t) {id : Nat} {in' : Inode} {n' : Node} (hid : id < s.inodes.cap)
    (hnd : ¬ (t.node id).isDir) (hsize : in'.size = 0) (hm : Mirrors in' n')
    (hblob : n'.blob = []) :
    Sim (bridge env B) (putInode id in') (renew id n') s t
      (fun _ s' _ t' => Rep env s' t' ∧ Aside id s s' t t' ∧ t'.node id = n') := by
  have hid' : id < t.cap := by rw [h.cap]; exact hid
  have hrun := run_renew hid' n'
  obtain ⟨refs, lost, hf, hclean⟩ := h.filled
  have hst := hf.stocked
  -- the references of the old contents have no owner any more
  rw [total_eq hid, add_comm (tokens _ _), add_assoc, add_comm (tokens _ _)] at hst
  refine fun _ => under_of_run (putInode_of_lt hid in') ⟨(), _, hrun, ?_, ?_, node_setNode_self⟩
  · refine h.blanked hf (Beside.refl s) rfl hid hst (fun _ _ _ hn => hn) hsize hm hblob
      (h.uncached hnd) ?_
    rw [Bool.and_eq_true, List.isEmpty_iff, hclean, ← (hf.laid id hid).tokens_eq_zero_iff,
      add_eq_zero]
  · refine ⟨fun i hi => ?_, fun i hi => node_setNode_ne hi, cap_setInode s id in',
      fun i _ hu d hd' => ?_⟩
    · rw [slots_setInode hid, Function.update_of_ne hi]
    · rw [setInode_of_lt hid] at hd'
      exact hu d hd'

theorem allocInode_sim (h : Rep env s t) :
    Sim (bridge env B) Fs.allocInode Spec.allocInode s t
      (fun a s' b t' => a = b ∧ Rep env s' t' ∧ s'.inodes = s.inodes ∧ s'.dirCache = s.dirCache ∧
        t'.node = t.node ∧ (a ∈ t.free ∨ a = t.next)) := by
  unfold Fs.allocInode Spec.allocInode
  refine sim_get_left (sim_get_right ?_)
  rw [h.free]
  cases hfree : s.freeInodes with
  | cons id rest =>
    dsimp only
    refine sim_run_left rfl (sim_right rfl (sim_pure ?_))
    exact ⟨rfl, h.of_free rest, rfl, rfl, rfl, .inl List.mem_cons_self⟩
  | nil =>
    dsimp only
    refine sim_ite (by rw [h.cap, h.next]) (fun _ => sim_fail h) (fun hlt => ?_)
    refine sim_run_left rfl (sim_right rfl (sim_pure ?_))
    refine ⟨h.next.symm, ?_, rfl, rfl, rfl, .inr h.next.symm⟩
    have hnext : t.next + 1 = (s.ub.nextInode + 1).toNat := by
      have hcap := h.cap_lt
      rw [h.next, UInt64.toNat_add]
      exact (Nat.mod_eq_of_lt (show _ < 2 ^ 64 by omega)).symm
    exact ⟨h.filled_of ⟨rfl, rfl, rfl, rfl, ⟨_, rfl⟩, rfl⟩ rfl rfl rfl, h.nodes, h.cap,
      h.count, h.cap_lt, hnext, h.free, h.opens, h.ticks, h.orders, h.logged, h.cache⟩

theorem touchMoved_sim (h : Rep env s t) (id : Nat) :
    Sim (bridge env B) (Fs.touchMoved id) (Spec.touchMoved env id) s t
      (fun _ s' _ t' => Rep env s' t' ∧ Aside id s s' t t') := by
  unfold Fs.touchMoved Spec.touchMoved
  refine sim_get_left (sim_get_right ?_)
  by_cases hid : t.cap ≤ id
  · rw [if_pos hid, h.getInode_of_le hid]
    exact sim_pure ⟨h, fun _ _ => rfl, fun _ _ => rfl, rfl, fun _ _ hu => hu⟩
  · rw [if_neg hid, h.getInode_of_lt hid]
    dsimp only
    refine Sim.mono (touch_sim h (h.lt hid) (SameData.refl _) (h.nodes id (h.lt hid)) rfl
      ⟨Iff.rfl, rfl⟩) ?_
    rintro _ s' _ t' ⟨hrep, ha, -⟩
    exact ⟨hrep, ha⟩

/-! ## Names -/

theorem mirrors_child (kind : UInt8) (mode : UInt16) (generation : UInt32) (c : UInt64) :
    Mirrors (childInode kind mode generation c) (child kind mode generation c) :=
  ⟨rfl, rfl, rfl, rfl, rfl, rfl, rfl, rfl, rfl, fun _ h0 => absurd rfl h0⟩

theorem blob_child (kind : UInt8) (mode : UInt16) (generation : UInt32) (c : UInt64) :
    (child kind mode generation c).blob = [] := by
  unfold Node.blob
  split <;> rfl

theorem createNode_sim (hl : env.Lawful) (h : Rep env s t) (hs : Sane t) (parent : Nat)
    (name : String) (kind : UInt8) (mode : UInt16) :
    Sim (bridge env B) (Fs.createNode parent name kind mode)
      (Spec.createNode env parent name kind mode) s t
      (fun a s' b t' => a = b ∧ Rep env s' t' ∧ a < s'.inodes.cap ∧ (t'.node a).kind = kind) := by
  unfold Fs.createNode Spec.createNode
  refine sim_bind (checkout_sim hl h hs.neat parent) ?_
  rintro hnd s₁ w t₁ - ⟨rfl, rfl, hrep, -, -, hw⟩
  rw [hw.mirror.find]
  refine sim_ite Iff.rfl (fun _ => sim_fail hrep) (fun hnew => ?_)
  have hnew : Work.find ⟨t₁.node parent, (t₁.node parent).pages, []⟩ name = none := by
    simpa using hnew
  refine sim_bind (allocInode_sim hrep) ?_
  rintro id s₂ id' t₂ - ⟨rfl, hrep₂, hin₂, hcache₂, hnode₂, hfresh⟩
  have hno : ¬ (t₂.node id).isDir := by
    rw [hnode₂]
    rcases hfresh with hf | rfl
    · exact hs.free id hf
    · exact hs.fresh
  have hne : parent ≠ id := by
    rintro rfl
    rw [hnode₂] at hno
    exact hno hw.held.dir
  have hw₂ := hw.of_eq hin₂ hcache₂ hnode₂
  refine sim_bind (getInode_sim hrep₂ id) ?_
  rintro prev s₃ n₃ t₃ - ⟨rfl, rfl, hid, rfl, rfl⟩
  refine sim_bind (now_sim hrep₂) ?_
  rintro c s₄ c' t₄ - ⟨rfl, -, rfl, rfl⟩
  rw [(hrep₂.nodes id hid).generation]
  refine sim_bind (renew_sim hrep₂.of_ticks hid hno rfl (mirrors_child _ _ _ _)
    (blob_child _ _ _ _)) ?_
  rintro _ s₅ _ t₅ - ⟨hrep₅, ha₅, hnode₅⟩
  have hw₄ : Working env { s₃ with ticks := s₃.ticks + 1 } { t₃ with ticks := t₃.ticks + 1 } parent
    hnd _ := hw₂.of_eq rfl rfl rfl
  have hw₅ := (hw₄.aside ha₅ hne).add hnew id
  have hnl := hw₅.held.mirrors.nlink
  -- the directory is written last, with the link count that goes with the new entry
  have htail : ∀ k, Sim (bridge env B)
      (do
        commitDir parent { (hnd.add env name id).2 with
          in_ := { (hnd.add env name id).2.in_ with nlink := k } }
        pure id)
      (do
        flush env parent { (Work.add ⟨t₁.node parent, (t₁.node parent).pages, []⟩ name id) with
          node := { t₁.node parent with nlink := k } }
        pure id) s₅ t₅
      (fun a s' b t' => a = b ∧ Rep env s' t' ∧ a < s'.inodes.cap ∧ (t'.node a).kind = kind) := by
    intro k
    refine sim_bind (commitDir_sim hl hrep₅ (hw₅.withNlink k) ((Work.grown_checkout _).add name id))
      ?_
    rintro _ s₇ _ t₇ - ⟨hrep₇, ha₇⟩
    refine sim_pure ⟨rfl, hrep₇, ?_, ?_⟩
    · rw [ha₇.cap, ha₅.cap]
      exact hid
    · rw [ha₇.nodes id (Ne.symm hne), hnode₅]
      rfl
  dsimp only
  refine sim_ite Iff.rfl (fun _ => ?_) (fun _ => ?_)
  · rw [hnl]
    refine sim_bind (succ32_sim _) ?_
    rintro k s₆ k' t₆ - ⟨rfl, rfl, rfl⟩
    exact htail k
  · refine sim_run_left rfl (sim_right rfl ?_)
    rw [hnl]
    exact htail _

theorem symlink_sim (hl : env.Lawful) (h : Rep env s t) (hs : Sane t) (parent : Nat)
    (name target : String) :
    Sim (bridge env B) (Fs.symlink parent name target) (Spec.symlink env parent name target) s t
      (fun a s' b t' => a = b ∧ Rep env s' t') := by
  unfold Fs.symlink Spec.symlink
  refine sim_ite Iff.rfl (fun _ => sim_fail h) (fun _ => ?_)
  refine sim_bind (createNode_sim hl h hs parent name _ _) ?_
  rintro id s₁ id' t₁ - ⟨rfl, hrep, hid, hkind⟩
  refine sim_bind (getInode_sim hrep id) ?_
  rintro in_ s₂ n t₂ - ⟨rfl, rfl, -, rfl, rfl⟩
  have hnd : ¬ (t₂.node id).isDir := by
    unfold Node.isDir
    rw [hkind]
    decide
  refine sim_bind (setData_sim hl hrep hid hnd _) ?_
  rintro _ s₃ _ t₃ - hrep₃
  exact sim_pure ⟨rfl, hrep₃⟩

theorem unlink_sim (hl : env.Lawful) (h : Rep env s t) (hs : Sane t) (parent : Nat)
    (name : String) :
    Sim (bridge env B) (Fs.unlink parent name) (Spec.unlink env parent name) s t
      (fun _ s' _ t' => Rep env s' t') := by
  unfold Fs.unlink Spec.unlink
  refine sim_bind (checkout_sim hl h hs.neat parent) ?_
  rintro hnd s₁ w t₁ - ⟨rfl, rfl, hrep, -, -, hw⟩
  rw [hw.mirror.find]
  cases hfind : Work.find ⟨t₁.node parent, (t₁.node parent).pages, []⟩ name with
  | none => exact sim_fail hrep
  | some id =>
    dsimp only
    refine sim_bind (getInode_sim hrep id) ?_
    rintro child s₂ n t₂ - ⟨rfl, rfl, hid, rfl, rfl⟩
    refine sim_ite (hrep.isDir_iff hid) (fun _ => sim_fail hrep) (fun hk => ?_)
    have hnd : ¬ (t₂.node id).isDir := fun hd => hk ((hrep.isDir_iff hid).mpr hd)
    have hne : id ≠ parent := fun he => hnd (he ▸ hw.held.dir)
    obtain ⟨hnd', hdel, hw'⟩ := hw.del name
    refine sim_run_left hdel (sim_bind (commitDir_sim hl hrep hw'
      (((Work.grown_checkout _).del name).mono (by decide))) ?_)
    rintro _ s₃ _ t₃ - ⟨hrep₃, ha⟩
    rw [← ha.slots id hne, ← ha.nodes id hne]
    refine Sim.mono (dropLink_sim hl hrep₃ (by rw [ha.cap]; exact hid)) ?_
    rintro _ s₄ _ t₄ ⟨hrep₄, -⟩
    exact hrep₄

theorem link_sim (hl : env.Lawful) (h : Rep env s t) (hs : Sane t) (parent : Nat) (name : String)
    (target : Nat) :
    Sim (bridge env B) (Fs.link parent name target) (Spec.link env parent name target) s t
      (fun _ s' _ t' => Rep env s' t') := by
  unfold Fs.link Spec.link
  refine sim_bind (getInode_sim h target) ?_
  rintro in_ s₀ n t₀ - ⟨rfl, rfl, hid, rfl, rfl⟩
  refine sim_ite (h.isDir_iff hid) (fun _ => sim_fail h) (fun hk => ?_)
  have hnd : ¬ (t₀.node target).isDir := fun hd => hk ((h.isDir_iff hid).mpr hd)
  refine sim_bind (checkout_sim hl h hs.neat parent) ?_
  rintro hnd' s₁ w t₁ - ⟨rfl, rfl, hrep, hin, -, hw⟩
  rw [hw.mirror.find]
  refine sim_ite Iff.rfl (fun _ => sim_fail hrep) (fun hnew => ?_)
  have hnew : Work.find ⟨t₁.node parent, (t₁.node parent).pages, []⟩ name = none := by
    simpa using hnew
  have hne : parent ≠ target := fun he => hnd (he ▸ hw.held.dir)
  have hm := h.nodes target hid
  rw [hm.nlink]
  refine sim_bind (succ32_sim _) ?_
  rintro k s₂ k' t₂ - ⟨rfl, rfl, rfl⟩
  have hid' : target < s₂.inodes.cap := by rw [hin]; exact hid
  have htouch := touch_sim (B := B) hrep (n := { t₂.node target with nlink := k }) hid'
    (show SameData (s₂.inodes.slots target) { s₀.inodes.slots target with nlink := k } by
      rw [hin]; exact ⟨rfl, rfl, rfl, rfl⟩)
    ⟨hm.kind, rfl, hm.generation, hm.uid, hm.gid, hm.mode, hm.atime, hm.mtime,
      hm.ctime, hm.paged⟩ rfl
    ⟨Iff.rfl, rfl⟩
  refine Sim.of_eq (bind_assoc _ _ _).symm (bind_assoc _ _ _).symm (sim_bind htouch
    (f := fun _ => commitDir parent (hnd'.add env name target).2)
    (g := fun _ => flush env parent (Work.add ⟨t₂.node parent, (t₂.node parent).pages,
      []⟩ name target))
    ?_)
  · rintro _ s₃ _ t₃ - ⟨hrep₃, ha, -⟩
    refine Sim.mono (commitDir_sim hl hrep₃ ((hw.aside ha hne).add hnew target)
      ((Work.grown_checkout _).add name target)) ?_
    rintro _ s₄ _ t₄ ⟨hrep₄, -⟩
    exact hrep₄

theorem rmdir_sim (hl : env.Lawful) (h : Rep env s t) (hs : Sane t) (parent : Nat) (name : String) :
    Sim (bridge env B) (Fs.rmdir parent name) (Spec.rmdir env parent name) s t
      (fun _ s' _ t' => Rep env s' t') := by
  unfold Fs.rmdir Spec.rmdir
  refine sim_bind (checkout_sim hl h hs.neat parent) ?_
  rintro hnd s₁ w t₁ - ⟨rfl, rfl, hrep, -, -, hw⟩
  rw [hw.mirror.find]
  cases hfind : Work.find ⟨t₁.node parent, (t₁.node parent).pages, []⟩ name with
  | none => exact sim_fail hrep
  | some id =>
    dsimp only
    have hne := hs.ne_of_find hw.held.dir hfind
    refine sim_bind (getInode_sim hrep id) ?_
    rintro child s₂ n t₂ - ⟨rfl, rfl, hid, rfl, rfl⟩
    refine sim_ite (not_congr (hrep.isDir_iff hid)) (fun _ => sim_fail hrep) (fun hk => ?_)
    have hd : (t₂.node id).isDir := (hrep.isDir_iff hid).mp (not_not.mp hk)
    obtain ⟨ch, hload, -, -, hres⟩ := hrep.loadDir hl hs.neat (by rw [hrep.cap]; omega) hd
    refine sim_get_left (sim_left (R := fun c s' => c = ch ∧ s' = s₂)
      (under_ok hload ⟨rfl, rfl⟩) ?_)
    rintro c s' - ⟨rfl, rfl⟩
    have hempty : (¬ c.dir.isEmpty = true) ↔ ¬ (t₂.node id).entries.isEmpty = true := by
      rw [hres.index.isEmpty, List.isEmpty_iff]
      rfl
    refine sim_ite hempty (fun _ => sim_fail hrep) (fun _ => ?_)
    obtain ⟨hnd', hdel, hw'⟩ := hw.del name
    refine sim_run_left hdel ?_
    have hnl := hw'.held.mirrors.nlink
    rw [Work.del_node] at hnl
    have hw'' := hw'.withNlink (pred32 hnd'.in_.nlink)
    rw [Work.del_node, hnl] at hw''
    rw [hnl]
    have hgrown := ((Work.grown_checkout (t₂.node parent)).del name).mono (Nat.zero_le 1)
    unfold Work.Grown at hgrown
    rw [Work.del_node] at hgrown
    refine sim_bind (commitDir_sim hl hrep hw'' hgrown) ?_
    rintro _ s₃ _ t₃ - ⟨hrep₃, ha⟩
    rw [← ha.slots id hne, ← ha.nodes id hne]
    have hid₃ : id < s₃.inodes.cap := by rw [ha.cap]; exact hid
    refine Sim.mono (reclaim_sim hl hrep₃ hid₃ (SameData.refl _) (hrep₃.nodes id hid₃)) ?_
    rintro _ s₄ _ t₄ ⟨hrep₄, -⟩
    exact hrep₄

theorem renameOverwrite_sim (hl : env.Lawful) (h : Rep env s t) {dst : Nat} {hnd : CachedDir}
    {w : Work} (hw : Working env s t dst hnd w) (hgrown : w.Grown 0) (dn : String) (id : Nat)
    (hold : ∀ old, w.find dn = some old → old ≠ dst) :
    Sim (bridge env B) (Fs.renameOverwrite hnd dn id) (Spec.renameOverwrite env w dn id) s t
      (fun o s' o' t' => Rep env s' t' ∧
        (o = none ∧ o' = none ∨
          ∃ hnd' w' old, o = some hnd' ∧ o' = some w' ∧ Working env s' t' dst hnd' w' ∧
            w'.Grown 0 ∧ w'.find dn = none ∧ Aside old s s' t t' ∧
            (w.find dn = some old ∨ s' = s ∧ t' = t))) := by
  unfold Fs.renameOverwrite Spec.renameOverwrite
  rw [hw.mirror.find]
  cases hfind : w.find dn with
  | none =>
    exact sim_pure ⟨h, .inr ⟨hnd, w, dst, rfl, rfl, hw, hgrown, hfind,
      ⟨fun _ _ => rfl, fun _ _ => rfl, rfl, fun _ _ hu => hu⟩, .inr ⟨rfl, rfl⟩⟩⟩
  | some old =>
    dsimp only
    refine sim_ite Iff.rfl (fun _ => sim_pure ⟨h, .inl ⟨rfl, rfl⟩⟩) (fun _ => ?_)
    refine sim_bind (getInode_sim h old) ?_
    rintro in_ s₁ n t₁ - ⟨rfl, rfl, hid, rfl, rfl⟩
    refine sim_bind (dropLink_sim hl h hid) ?_
    rintro _ s₂ _ t₂ - ⟨hrep, ha⟩
    obtain ⟨hnd', hdel, hw'⟩ := (hw.aside ha (Ne.symm (hold old hfind))).del dn
    refine sim_run_left hdel (sim_pure ⟨hrep, .inr ⟨hnd', w.del dn, old, rfl, rfl, hw',
      hgrown.del dn, ?_, ha, .inl rfl⟩⟩)
    exact Work.find_del_self hw.mirror.resident.index.distinct dn

theorem rename_sim (hl : env.Lawful) (h : Rep env s t) (hs : Sane t) (src : Nat) (sn : String)
    (dst : Nat) (dn : String)
    (hold : src < t.cap → (t.node src).isDir → dst < t.cap → (t.node dst).isDir →
      ∀ old, Work.find ⟨t.node dst, (t.node dst).pages, []⟩ dn = some old → old ≠ src) :
    Sim (bridge env B) (Fs.rename src sn dst dn) (Spec.rename env src sn dst dn) s t
      (fun _ s' _ t' => Rep env s' t') := by
  unfold Fs.rename Spec.rename
  refine sim_bind (checkout_sim hl h hs.neat src) ?_
  rintro sh s₁ w t₁ - ⟨rfl, rfl, hrep, -, -, hw⟩
  rw [hw.mirror.find]
  cases hfind : Work.find ⟨t₁.node src, (t₁.node src).pages, []⟩ sn with
  | none => exact sim_fail hrep
  | some id =>
    dsimp only
    have hne := hs.ne_of_find hw.held.dir hfind
    refine sim_ite Iff.rfl (fun _ => sim_fail hrep) (fun hdst => ?_)
    refine sim_get_left (sim_get_right ?_)
    rw [hrep.loops hl hs.neat]
    refine sim_bind (Q := fun a s' b t' => a = b ∧ s' = s₁ ∧ t' = t₁) ?_ ?_
    · cases hloops : Spec.loops t₁ src dst id with
      | ok b => exact sim_pure ⟨rfl, rfl, rfl⟩
      | error f => exact sim_error rfl rfl hrep
    rintro b s' b' t' - ⟨rfl, rfl, rfl⟩
    refine sim_ite Iff.rfl (fun _ => sim_fail hrep) (fun _ => ?_)
    refine sim_ite Iff.rfl (fun hsd => ?_) (fun hsd => ?_)
    · -- both edits land on one working copy
      subst hsd
      refine sim_bind (renameOverwrite_sim hl hrep hw (Work.grown_checkout _) dn id
        (fun old ho => hs.ne_of_find hw.held.dir ho)) ?_
      rintro o s₂ o' t₂ - ⟨hrep₂, ⟨rfl, rfl⟩ | ⟨hnd', w', old, rfl, rfl, hw₂, hgrown, hnew, -, -⟩⟩
      · exact sim_pure hrep₂
      · dsimp only
        obtain ⟨hnd'', hdel, hw₃⟩ := (hw₂.add hnew id).del sn
        refine sim_run_left hdel (sim_bind (touchMoved_sim hrep₂ id) ?_)
        rintro _ s₃ _ t₃ - ⟨hrep₃, ha⟩
        refine Sim.mono (commitDir_sim hl hrep₃ (hw₃.aside ha (Ne.symm hne))
          ((hgrown.add dn id).del sn)) ?_
        rintro _ s₄ _ t₄ ⟨hrep₄, -⟩
        exact hrep₄
    · refine sim_bind (checkout_sim hl hrep hs.neat dst) ?_
      rintro dh s₂ dw t₂ - ⟨rfl, rfl, hrep₂, hin₂, hu₂, hdw⟩
      have hsw := hw.of_uncached hin₂ (hu₂ src) rfl
      refine sim_bind (renameOverwrite_sim hl hrep₂ hdw (Work.grown_checkout _) dn id
        (fun old ho => hs.ne_of_find hdw.held.dir ho)) ?_
      rintro o s₃ o' t₃ - ⟨hrep₃, ⟨rfl, rfl⟩ | ⟨dh', dw', old, rfl, rfl, hdw₃, hgrown,
        hnew, ha₃, hcase⟩⟩
      · exact sim_pure hrep₃
      · dsimp only
        have hsw₃ : Working env s₃ t₃ src sh ⟨t₂.node src, (t₂.node src).pages, []⟩ := by
          rcases hcase with ho | ⟨rfl, rfl⟩
          · exact hsw.aside ha₃ (Ne.symm (hold (hrep.cap ▸ hw.held.lt) hw.held.dir
              (hrep₂.cap ▸ hdw.held.lt) hdw.held.dir old ho))
          · exact hsw
        obtain ⟨sh', hdel, hsw₄⟩ := hsw₃.del sn
        refine sim_run_left hdel (sim_bind (touchMoved_sim hrep₃ id) ?_)
        rintro _ s₄ _ t₄ - ⟨hrep₄, ha₄⟩
        refine sim_bind (commitDir_sim hl hrep₄ ((hdw₃.aside ha₄ hdst).add hnew id)
          (hgrown.add dn id)) ?_
        rintro _ s₅ _ t₅ - ⟨hrep₅, ha₅⟩
        refine Sim.mono (commitDir_sim hl hrep₅ ((hsw₄.aside ha₄ (Ne.symm hne)).aside ha₅ hsd)
          (((Work.grown_checkout _).del sn).mono (by decide))) ?_
        rintro _ s₆ _ t₆ ⟨hrep₆, -⟩
        exact hrep₆

/-! ## Metadata and reading -/

theorem mutate_sim (h : Rep env s t) (id : Nat) {f : Inode → Inode} {g : Node → Node}
    (hd : ∀ in_, SameData in_ (f in_)) (hm : ∀ in_ n, Mirrors in_ n → Mirrors (f in_) (g n))
    (hg : ∀ n, (g n).blob = n.blob ∧ ((g n).isDir ↔ n.isDir) ∧ (g n).pages = n.pages) :
    Sim (bridge env B) (mutateInode id f) (mutate id g) s t (fun _ s' _ t' => Rep env s' t') := by
  unfold mutateInode mutate
  refine sim_bind (getInode_sim h id) ?_
  rintro in_ s₁ n t₁ - ⟨rfl, rfl, hid, rfl, rfl⟩
  refine Sim.mono (put_sim h hid (hd _) (hm _ _ (h.nodes id hid)) (hg _).1 (.inr (hg _).2)) ?_
  rintro _ s' _ t' ⟨hrep, -⟩
  exact hrep

theorem chmod_sim (h : Rep env s t) (id : Nat) (mode : UInt16) :
    Sim (bridge env B) (Fs.chmod id mode) (Spec.chmod env id mode) s t
      (fun _ s' _ t' => Rep env s' t') := by
  unfold Fs.chmod Spec.chmod
  refine sim_bind (now_sim h) ?_
  rintro c s₁ c' t₁ - ⟨rfl, -, rfl, rfl⟩
  exact mutate_sim h.of_ticks id (fun _ => ⟨rfl, rfl, rfl, rfl⟩)
    (fun _ _ hm => ⟨hm.kind, hm.nlink, hm.generation, hm.uid, hm.gid, rfl, hm.atime, hm.mtime, rfl,
      hm.paged⟩)
    (fun _ => ⟨rfl, Iff.rfl, rfl⟩)

theorem chown_sim (h : Rep env s t) (id : Nat) (uid gid : UInt32) :
    Sim (bridge env B) (Fs.chown id uid gid) (Spec.chown env id uid gid) s t
      (fun _ s' _ t' => Rep env s' t') := by
  unfold Fs.chown Spec.chown
  refine sim_bind (now_sim h) ?_
  rintro c s₁ c' t₁ - ⟨rfl, -, rfl, rfl⟩
  exact mutate_sim h.of_ticks id (fun _ => ⟨rfl, rfl, rfl, rfl⟩)
    (fun _ _ hm => ⟨hm.kind, hm.nlink, hm.generation, rfl, rfl, hm.mode, hm.atime, hm.mtime, rfl,
      hm.paged⟩)
    (fun _ => ⟨rfl, Iff.rfl, rfl⟩)

theorem utimes_sim (h : Rep env s t) (id : Nat) (atime mtime : UInt64) :
    Sim (bridge env B) (Fs.utimes id atime mtime) (Spec.utimes env id atime mtime) s t
      (fun _ s' _ t' => Rep env s' t') := by
  unfold Fs.utimes Spec.utimes
  refine sim_bind (now_sim h) ?_
  rintro c s₁ c' t₁ - ⟨rfl, -, rfl, rfl⟩
  exact mutate_sim h.of_ticks id (fun _ => ⟨rfl, rfl, rfl, rfl⟩)
    (fun _ _ hm => ⟨hm.kind, hm.nlink, hm.generation, hm.uid, hm.gid, hm.mode, rfl, rfl, rfl,
      hm.paged⟩)
    (fun _ => ⟨rfl, Iff.rfl, rfl⟩)

theorem Rep.size (h : Rep env s t) {id : Nat} (hid : id < s.inodes.cap) :
    (s.inodes.slots id).size.toNat = (t.node id).blob.length := by
  obtain ⟨refs, lost, hf, -⟩ := h.filled
  exact (hf.laid id hid).size

theorem getInode_query_sim (h : Rep env s t) (id : Nat) {α : Type}
    {f : Inode → Except (Fault Fs.Error) α} {g : Node → Step α}
    (hfg : id < s.inodes.cap → Sim (bridge env B) (Within.ofExcept (f (s.inodes.slots id)))
      (g (t.node id)) s t (fun a s' b t' => a = b ∧ s' = s ∧ t' = t)) :
    Sim (bridge env B) (Within.ofExcept (s.getInode id >>= f)) (getNode id >>= g) s t
      (fun a s' b t' => a = b ∧ s' = s ∧ t' = t) := by
  by_cases hid : t.cap ≤ id
  · rw [h.getInode_of_le hid]
    exact sim_error rfl (bind_of_error (run_getNode_of_le hid)) h
  · rw [h.getInode_of_lt hid, ok_bind]
    exact sim_right (run_getNode (Nat.not_le.mp hid)) (hfg (h.lt hid))

theorem stat_sim (h : Rep env s t) (id : Nat) :
    Sim (bridge env B) (Within.ofExcept (s.stat id)) (Spec.stat id) s t
      (fun a s' b t' => a = b ∧ s' = s ∧ t' = t) := by
  refine getInode_query_sim h id fun hid => sim_ok rfl rfl ⟨?_, rfl, rfl⟩
  have hm := h.nodes id hid
  have hsize : (s.inodes.slots id).size = UInt64.ofNat (t.node id).blob.length := by
    rw [← h.size hid, UInt64.ofNat_toNat]
  rw [hm.kind, hm.nlink, hm.generation, hm.uid, hm.gid, hm.mode, hm.atime, hm.mtime,
    hm.ctime, hsize]

theorem access_sim (h : Rep env s t) (id : Nat) (mask uid gid : UInt32) (gids : List UInt32) :
    Sim (bridge env B) (Within.ofExcept (s.access id mask uid gid gids))
      (Spec.access id mask uid gid gids) s t (fun a s' b t' => a = b ∧ s' = s ∧ t' = t) := by
  refine getInode_query_sim h id fun hid => ?_
  have hm := h.nodes id hid
  rw [hm.kind, hm.uid, hm.gid, hm.mode]
  by_cases hmask : mask = 0
  · rw [if_pos hmask, if_pos hmask]
    exact sim_ok rfl rfl ⟨rfl, rfl, rfl⟩
  · rw [if_neg hmask, if_neg hmask]
    by_cases hroot : uid = 0
    · rw [if_pos hroot, if_pos hroot]
      split
      · exact sim_error rfl rfl h
      · exact sim_ok rfl rfl ⟨rfl, rfl, rfl⟩
    · rw [if_neg hroot, if_neg hroot]
      dsimp only
      generalize (if uid = (t.node id).uid then (6 : UInt32)
        else if gid = (t.node id).gid ∨ (t.node id).gid ∈ gids then 3 else 0) = shift
      split
      · exact sim_error rfl rfl h
      · exact sim_ok rfl rfl ⟨rfl, rfl, rfl⟩

theorem regular_run (h : Rep env s t) (id : Nat) :
    (∃ e, s.regular id = .error (.err e) ∧ (Spec.regular id).1 t = .error (.err e) t) ∨
      (id < s.inodes.cap ∧ (t.node id).kind = Inode.typeRegular ∧
        s.regular id = .ok (s.inodes.slots id) ∧ (Spec.regular id).1 t = .ok (t.node id) t) := by
  unfold FS.regular Spec.regular
  by_cases hid : t.cap ≤ id
  · refine .inl ⟨_, ?_, bind_of_error (run_getNode_of_le hid)⟩
    rw [h.getInode_of_le hid]
    rfl
  · rw [h.getInode_of_lt hid, ok_bind, run_bind_of_ok (run_getNode (Nat.not_le.mp hid)),
      (h.nodes id (h.lt hid)).kind]
    by_cases hk : (t.node id).kind = Inode.typeRegular
    · rw [if_neg (not_not.mpr hk), if_neg (not_not.mpr hk)]
      exact .inr ⟨h.lt hid, hk, rfl, rfl⟩
    · rw [if_pos hk, if_pos hk]
      exact .inl ⟨_, rfl, rfl⟩

theorem not_isDir_of_regular {n : Node} (h : n.kind = Inode.typeRegular) : ¬ n.isDir := by
  unfold Node.isDir
  rw [h]
  decide

theorem regular_sim (h : Rep env s t) (id : Nat) :
    Sim (bridge env B) (Within.ofExcept (s.regular id)) (Spec.regular id) s t
      (fun in_ s' n t' => s' = s ∧ t' = t ∧ id < s.inodes.cap ∧ ¬ (t.node id).isDir ∧
        in_ = s.inodes.slots id ∧ n = t.node id) := by
  rcases regular_run h id with ⟨e, hx, hy⟩ | ⟨hid, hk, hx, hy⟩
  · exact sim_error hx hy h
  · exact sim_ok hx hy ⟨rfl, rfl, hid, not_isDir_of_regular hk, rfl, rfl⟩

theorem regular_query_sim (h : Rep env s t) (id : Nat) {α : Type}
    {f : Inode → Except (Fault Fs.Error) α} {g : Node → Step α}
    (hfg : id < s.inodes.cap → ¬ (t.node id).isDir →
      Sim (bridge env B) (Within.ofExcept (f (s.inodes.slots id))) (g (t.node id)) s t
        (fun a s' b t' => a = b ∧ s' = s ∧ t' = t)) :
    Sim (bridge env B) (Within.ofExcept (s.regular id >>= f)) (Spec.regular id >>= g) s t
      (fun a s' b t' => a = b ∧ s' = s ∧ t' = t) := by
  rcases regular_run h id with ⟨e, hx, hy⟩ | ⟨hid, hk, hx, hy⟩
  · rw [hx]
    exact sim_error rfl (bind_of_error hy) h
  · rw [hx, ok_bind]
    exact sim_right hy (hfg hid (not_isDir_of_regular hk))

theorem readFile_sim (hl : env.Lawful) (h : Rep env s t) (id : Nat) :
    Sim (bridge env B) (Within.ofExcept (s.readFile env id)) (Spec.readFile id) s t
      (fun a s' b t' => a = b ∧ s' = s ∧ t' = t) := by
  refine regular_query_sim h id fun hid hnd => ?_
  rw [h.getData hl hid, Node.blob_of_file hnd]
  exact sim_ok rfl rfl ⟨rfl, rfl, rfl⟩

theorem handleRead_sim (hl : env.Lawful) (h : Rep env s t) (hd : Handle) :
    Sim (bridge env B) (Within.ofExcept (s.handleRead env hd)) (Spec.handleRead hd) s t
      (fun a s' b t' => a = b ∧ s' = s ∧ t' = t) := by
  refine getInode_query_sim h hd.id fun hid => ?_
  rw [h.getData hl hid]
  exact sim_ok rfl rfl ⟨rfl, rfl, rfl⟩

theorem readlink_sim (hl : env.Lawful) (h : Rep env s t) (id : Nat) :
    Sim (bridge env B) (Within.ofExcept (s.readlink env id)) (Spec.readlink id) s t
      (fun a s' b t' => a = b ∧ s' = s ∧ t' = t) := by
  refine getInode_query_sim h id fun hid => ?_
  rw [(h.nodes id hid).kind]
  by_cases hk : (t.node id).kind = Inode.typeLink
  · have hnd : ¬ (t.node id).isDir := by
      unfold Node.isDir
      rw [hk]
      decide
    rw [if_neg (not_not.mpr hk), if_neg (not_not.mpr hk), h.getData hl hid, ok_bind,
      Node.blob_of_file hnd]
    exact sim_ok rfl rfl ⟨rfl, rfl, rfl⟩
  · rw [if_pos hk, if_pos hk]
    exact sim_error rfl rfl h

theorem Rep.readAt (hl : env.Lawful) (h : Rep env s t) {id off length : Nat}
    (hid : id < s.inodes.cap)
    (hreg : s.regular id = .ok (s.inodes.slots id)) (hnd : ¬ (t.node id).isDir) :
    s.readAt env id off length =
      if length = 0 ∨ (t.node id).data.length ≤ off then .ok []
      else if 2 ^ 64 ≤ off + length then .error .panic
      else .ok (slice (t.node id).data off length) := by
  have hsize := h.size hid
  obtain ⟨refs, lost, hf, -⟩ := h.filled
  have hlaid := hf.laid id hid
  rw [Node.blob_of_file hnd] at hsize hlaid
  unfold FS.readAt
  rw [hreg, ok_bind, hsize]
  by_cases hempty : length = 0 ∨ (t.node id).data.length ≤ off
  · rw [if_pos hempty, if_pos hempty]
    rfl
  rw [if_neg hempty, if_neg hempty]
  by_cases hlen : 2 ^ 64 ≤ off + length
  · rw [if_pos hlen, if_pos hlen]
    rfl
  rw [if_neg hlen, if_neg hlen]
  dsimp only
  rw [hlaid.loadRefs hl, ok_bind]
  have hsize0 : (s.inodes.slots id).size ≠ 0 := by
    intro h0
    rw [h0] at hsize
    have : (t.node id).data.length = 0 := hsize.symm
    omega
  have hlog := hlaid.log2 hsize0
  rw [if_neg (by omega), hlaid.readRange hl (by omega) (by omega), ok_bind]
  refine congrArg Except.ok ?_
  rw [← List.flatMap_def, flatMap_pieces _ _ _ _ hlaid.pow_pos]
  -- the last record reaches past the end of the range
  have hcover : min (off + length) (t.node id).data.length ≤
      (off / 2 ^ (s.inodes.slots id).recordSizeLog2.toNat +
        ((min (off + length) (t.node id).data.length - 1) / 2 ^ (s.inodes.slots
          id).recordSizeLog2.toNat + 1 - off / 2 ^ (s.inodes.slots id).recordSizeLog2.toNat)) *
        2 ^ (s.inodes.slots id).recordSizeLog2.toNat := by
    have hpos := hlaid.pow_pos
    generalize 2 ^ (s.inodes.slots id).recordSizeLog2.toNat = rs at hpos ⊢
    generalize hstop : min (off + length) (t.node id).data.length = stop at *
    have hdiv : off / rs ≤ (stop - 1) / rs := Nat.div_le_div_right (by omega)
    rw [show off / rs + ((stop - 1) / rs + 1 - off / rs) = (stop - 1) / rs + 1 by omega]
    have := Nat.lt_div_mul_add (a := stop - 1) hpos
    rw [Nat.add_mul, Nat.one_mul]
    omega
  rw [Nat.min_eq_left hcover]
  unfold slice
  rw [List.take_eq_take_iff, List.length_drop]
  omega

theorem readAt_sim (hl : env.Lawful) (h : Rep env s t) (id off length : Nat) :
    Sim (bridge env B) (Within.ofExcept (s.readAt env id off length))
    (Spec.readAt id off length) s t
      (fun a s' b t' => a = b ∧ s' = s ∧ t' = t) := by
  rcases regular_run h id with ⟨e, hx, hy⟩ | ⟨hid, hk, hx, hy⟩
  · have hread : s.readAt env id off length = .error (.err e) := by
      unfold FS.readAt
      rw [hx]
      rfl
    rw [hread]
    exact sim_error rfl (bind_of_error hy) h
  · rw [h.readAt hl hid hx (not_isDir_of_regular hk)]
    refine sim_right hy ?_
    by_cases hempty : length = 0 ∨ (t.node id).data.length ≤ off
    · rw [if_pos hempty, if_pos hempty]
      exact sim_ok rfl rfl ⟨rfl, rfl, rfl⟩
    rw [if_neg hempty, if_neg hempty]
    by_cases hlen : 2 ^ 64 ≤ off + length
    · rw [if_pos hlen, if_pos hlen]
      exact sim_error rfl rfl h
    · rw [if_neg hlen, if_neg hlen]
      exact sim_ok rfl rfl ⟨rfl, rfl, rfl⟩

/-! ## Contents -/

theorem writeFile_sim (hl : env.Lawful) (h : Rep env s t) (id : Nat) (data : Bytes) :
    Sim (bridge env B) (Fs.writeFile id data) (Spec.writeFile env id data) s t
      (fun _ s' _ t' => Rep env s' t') := by
  unfold Fs.writeFile Spec.writeFile
  refine sim_get_left (sim_bind (regular_sim h id) ?_)
  rintro in_ s₁ n t₁ - ⟨rfl, rfl, hid, hnd, rfl, rfl⟩
  exact setData_sim hl h hid hnd data

theorem writeAt_sim (hl : env.Lawful) (h : Rep env s t) (id off : Nat) (data : Bytes) :
    Sim (bridge env B) (Fs.writeAt id off data) (Spec.writeAt env id off data) s t
      (fun _ s' _ t' => Rep env s' t') := by
  unfold Fs.writeAt Spec.writeAt
  refine sim_get_left (sim_bind (regular_sim h id) ?_)
  rintro in_ s₁ n t₁ - ⟨rfl, rfl, hid, hnd, rfl, rfl⟩
  rw [← bind_pure (writeRange env id (t₁.node id) off data)]
  refine sim_bind (writeRange_sim hl h hid hnd off data) ?_
  rintro _ s₂ _ t₂ - hrep
  exact sim_pure hrep

theorem append_sim (hl : env.Lawful) (h : Rep env s t) (id : Nat) (data : Bytes) :
    Sim (bridge env B) (Fs.append id data) (Spec.append env id data) s t
      (fun a s' b t' => a = b ∧ Rep env s' t') := by
  unfold Fs.append Spec.append
  refine sim_get_left (sim_bind (regular_sim h id) ?_)
  rintro in_ s₁ n t₁ - ⟨rfl, rfl, hid, hnd, rfl, rfl⟩
  rw [h.size hid, Node.blob_of_file hnd]
  refine sim_bind (writeRange_sim hl h hid hnd _ data) ?_
  rintro _ s₂ _ t₂ - hrep
  exact sim_pure ⟨rfl, hrep⟩

theorem truncate_sim (hl : env.Lawful) (h : Rep env s t) (id newSize : Nat) :
    Sim (bridge env B) (Fs.truncate id newSize) (Spec.truncate env id newSize) s t
      (fun _ s' _ t' => Rep env s' t') := by
  unfold Fs.truncate Spec.truncate
  refine sim_get_left (sim_bind (regular_sim h id) ?_)
  rintro in_ s₁ n t₁ - ⟨rfl, rfl, hid, hnd, rfl, rfl⟩
  rw [h.size hid, Node.blob_of_file hnd]
  refine sim_ite Iff.rfl (fun _ => sim_pure h) (fun _ => ?_)
  have hget := h.getData hl hid
  rw [Node.blob_of_file hnd] at hget
  refine sim_left (R := fun b s' => b = (t₁.node id).data ∧ s' = s₁) (under_ok hget ⟨rfl, rfl⟩) ?_
  rintro b s' - ⟨rfl, rfl⟩
  exact setData_sim hl h hid hnd _

/-! ## Handles -/

theorem Rep.of_opens (h : Rep env s t) {m : AList (fun _ : Nat => UInt32)} {f : Nat → UInt32}
    (hf : ∀ id, f id = (m.lookup id).getD 0) :
    Rep env { s with openCount := m } { t with opens := f } :=
  ⟨h.filled_of ⟨rfl, rfl, rfl, rfl, ⟨_, rfl⟩, rfl⟩ rfl rfl rfl, h.nodes, h.cap,
    h.count, h.cap_lt, h.next, h.free, hf, h.ticks, h.orders, h.logged, h.cache⟩

theorem Rep.insert_open (h : Rep env s t) (id : Nat) (c : UInt32) :
    Rep env { s with openCount := s.openCount.insert id c }
      { t with opens := Function.update t.opens id c } := by
  refine h.of_opens fun i => ?_
  by_cases hi : i = id
  · subst hi
    rw [Function.update_self, AList.lookup_insert]
    rfl
  · rw [Function.update_of_ne hi, AList.lookup_insert_ne hi]
    exact h.opens i

theorem Rep.erase_open (h : Rep env s t) (id : Nat) :
    Rep env { s with openCount := s.openCount.erase id }
      { t with opens := Function.update t.opens id 0 } := by
  refine h.of_opens fun i => ?_
  by_cases hi : i = id
  · subst hi
    rw [Function.update_self, AList.lookup_erase]
    rfl
  · rw [Function.update_of_ne hi, AList.lookup_erase_ne hi]
    exact h.opens i

theorem openFile_sim (h : Rep env s t) (id : Nat) :
    Sim (bridge env B) (Fs.openFile id) (Spec.openFile id) s t
      (fun a s' b t' => a = b ∧ Rep env s' t') := by
  unfold Fs.openFile Spec.openFile
  refine sim_get_left (sim_bind (regular_sim h id) ?_)
  rintro in_ s₁ n t₁ - ⟨rfl, rfl, hid, hnd, rfl, rfl⟩
  refine sim_get_right ?_
  rw [h.openCountOf]
  refine sim_bind (succ32_sim _) ?_
  rintro c s₂ c' t₂ - ⟨rfl, rfl, rfl⟩
  exact sim_run_left rfl (sim_right rfl (sim_pure ⟨rfl, h.insert_open id c⟩))

theorem close_sim (hl : env.Lawful) (h : Rep env s t) (hd : Handle) :
    Sim (bridge env B) (Fs.close hd) (Spec.close hd) s t (fun _ s' _ t' => Rep env s' t') := by
  unfold Fs.close Spec.close
  refine sim_ite Iff.rfl (fun _ => sim_pure h) (fun _ => ?_)
  refine sim_get_left (sim_get_right ?_)
  dsimp only
  rw [h.openCountOf]
  by_cases hc : pred32 (t.opens hd.id) = 0
  · rw [if_pos hc]
    refine sim_run_left rfl (sim_right rfl ?_)
    rw [if_pos hc, hc]
    have hrep := h.erase_open hd.id
    refine sim_bind (getInode_sim hrep hd.id) ?_
    rintro in_ s₁ n t₁ - ⟨rfl, rfl, hid, rfl, rfl⟩
    refine sim_ite ?_ (fun _ => ?_) (fun _ => sim_pure hrep)
    · rw [(hrep.nodes hd.id hid).nlink]
    · refine Sim.mono (reclaim_sim hl hrep hid (SameData.refl _) (hrep.nodes hd.id hid)) ?_
      rintro _ s₂ _ t₂ ⟨hrep₂, -⟩
      exact hrep₂
  · rw [if_neg hc]
    refine sim_right rfl ?_
    rw [if_neg hc]
    exact fun _ => under_of_run rfl ⟨(), _, rfl, h.insert_open hd.id _⟩

theorem setDirCache_rep (h : Rep env s t) (on : Bool) :
    Rep env { s with dirCache := if on then some .new else none } t := by
  refine h.withCache fun d hd => ?_
  cases on with
  | false => cases hd
  | true =>
    cases hd
    intro id hnd hlook
    cases hlook

end Refine
end BloomFS
