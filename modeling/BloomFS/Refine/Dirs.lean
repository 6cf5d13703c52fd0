/-
Directories, with and without the cache.

A directory that is being edited is out of the cache, and its working copy mirrors
the one of the abstract machine.  Writing its changed pages brings the node up to
the working copy, and only then may it become resident again.
-/
import BloomFS.Refine.Rep

namespace BloomFS
namespace Refine

open Bytes Exec Dir Fs Store Spec

variable {env : Env} {B : Budget} {s : FS} {t : State}

/-! ## Loading -/

theorem Rep.getData (hl : env.Lawful) (h : Rep env s t) {id : Nat} (hid : id < s.inodes.cap) :
    s.getData env (s.inodes.slots id) = .ok (t.node id).blob := by
  obtain ⟨refs, lost, hf, -⟩ := h.filled
  exact (hf.laid id hid).getData hl

theorem Rep.dirData (hl : env.Lawful) (h : Rep env s t) (id : Nat) :
    s.dirData env id =
      if t.cap ≤ id then .error (.err (.inode .outOfRange))
      else if ¬ (t.node id).isDir then .error (.err .notDir)
      else .ok (s.inodes.slots id, dirBytes (t.node id).pages) := by
  unfold FS.dirData
  by_cases hid : t.cap ≤ id
  · rw [if_pos hid, h.getInode_of_le hid]
    rfl
  · rw [if_neg hid, h.getInode_of_lt hid, ok_bind]
    by_cases hd : (t.node id).isDir
    · rw [if_neg (not_not.mpr ((h.isDir_iff (h.lt hid)).mpr hd)), if_neg (not_not.mpr hd),
        h.getData hl (h.lt hid), ok_bind, Node.blob_of_dir hd]
      rfl
    · rw [if_pos (fun hk => hd ((h.isDir_iff (h.lt hid)).mp hk)), if_pos hd]
      rfl

theorem Rep.readDirPages (hl : env.Lawful) (h : Rep env s t) (hn : Neat t) (id : Nat) :
    s.readDirPages env id =
      if t.cap ≤ id then .error (.err (.inode .outOfRange))
      else if ¬ (t.node id).isDir then .error (.err .notDir)
      else .ok (t.node id).entries := by
  unfold FS.readDirPages
  rw [h.dirData hl]
  by_cases hid : t.cap ≤ id
  · rw [if_pos hid, if_pos hid]
    rfl
  · rw [if_neg hid, if_neg hid]
    by_cases hd : (t.node id).isDir
    · rw [if_neg (not_not.mpr hd), if_neg (not_not.mpr hd), ok_bind]
      dsimp only
      rw [decodePages_dirBytes (hn id (by omega) hd), ok_bind, List.flatMap_map, List.flatMap_def,
        List.map_id']
      rfl
    · rw [if_pos hd, if_pos hd]
      rfl

theorem Rep.loadDir (hl : env.Lawful) (h : Rep env s t) (hn : Neat t) {id : Nat}
    (hid : ¬ t.cap ≤ id) (hd : (t.node id).isDir) :
    ∃ hnd, s.loadDir env id = .ok hnd ∧ hnd.in_ = s.inodes.slots id ∧ hnd.dirty = [] ∧
      Resident env hnd (t.node id).pages := by
  have hp := hn id (by omega) hd
  unfold FS.loadDir
  rw [h.dirData hl, if_neg hid, if_neg (not_not.mpr hd), ok_bind]
  dsimp only
  rw [decodePages_dirBytes hp, ok_bind]
  refine ⟨_, rfl, rfl, rfl, rfl, ?_, fun name => locate_lookup hp.distinct name⟩
  rw [List.flatMap_map, List.flatMap_def, List.map_id']
  exact indexOf_holds hp.distinct

theorem loadDir_sim (hl : env.Lawful) (h : Rep env s t) (hn : Neat t) (id : Nat) :
    Sim (bridge env B) (Within.ofExcept (s.loadDir env id)) (checkout id) s t
      (fun hnd s' w t' => s' = s ∧ t' = t ∧ id < s.inodes.cap ∧ (t.node id).isDir ∧
        w = ⟨t.node id, (t.node id).pages, []⟩ ∧ hnd.in_ = s.inodes.slots id ∧ hnd.dirty = [] ∧
        Resident env hnd (t.node id).pages) := by
  have hrun := run_checkout t id
  by_cases hid : t.cap ≤ id
  · rw [if_pos hid] at hrun
    refine sim_error ?_ hrun h
    rw [FS.loadDir, h.dirData hl, if_pos hid]
    rfl
  · rw [if_neg hid] at hrun
    by_cases hd : (t.node id).isDir
    · rw [if_pos hd] at hrun
      obtain ⟨hnd, hload, hin, hdirty, hres⟩ := h.loadDir hl hn hid hd
      exact sim_ok hload hrun ⟨rfl, rfl, h.lt hid, hd, rfl, hin, hdirty, hres⟩
    · rw [if_neg hd] at hrun
      refine sim_error ?_ hrun h
      rw [FS.loadDir, h.dirData hl, if_neg hid, if_pos hd]
      rfl

/-! ## The cache -/

theorem setCache_under {C : Proviso (Closed env)} {c : Option DirCache} {Q : Unit → FS → Prop}
    {E : Fault Fs.Error → FS → Prop} (h : Q () { s with dirCache := c }) :
    Under C (setCache c) s Q E := under_of_run rfl h

/-- Every resident directory has the pages of its node. -/
def Coherent (env : Env) (cap : Nat) (t : State) (c : DirCache) : Prop :=
  ∀ id h, c.entries.lookup id = some h →
    id < cap ∧ (t.node id).isDir ∧ Resident env h (t.node id).pages ∧ h.dirty = []

theorem Coherent.erase {cap : Nat} {c : DirCache} (h : Coherent env cap t c) (v : Nat) :
    Coherent env cap t { c with entries := c.entries.erase v } := by
  intro id hnd hlook
  by_cases hv : id = v
  · subst hv
    rw [show ({ c with entries := c.entries.erase id } : DirCache).entries.lookup id = none from
      AList.lookup_erase _ _] at hlook
    cases hlook
  · exact h id hnd ((AList.lookup_erase_ne hv).symm.trans hlook)

theorem resident_withTick {hnd : CachedDir}
    {pages : List (List DirEntry)} (h : Resident env hnd pages)
    (k : Nat) : Resident env { hnd with lruTick := k } pages := ⟨h.same, h.index, h.pageOf⟩

theorem Coherent.put {cap : Nat} {c : DirCache} {m : AList (fun _ : Nat => CachedDir)} {k : Nat}
    (h : Coherent env cap t ⟨m, k⟩) {id : Nat} {hnd : CachedDir} (hid : id < cap)
    (hd : (t.node id).isDir) (hr : Resident env hnd (t.node id).pages) (hdirty : hnd.dirty = []) :
    Coherent env cap t ⟨m.insert id { hnd with lruTick := c.tick + 1 }, c.tick + 1⟩ := by
  intro i x hlook
  by_cases hi : i = id
  · subst hi
    have hx : (m.insert i { hnd with lruTick := c.tick + 1 }).lookup i = some x := hlook
    rw [AList.lookup_insert] at hx
    cases hx
    exact ⟨hid, hd, resident_withTick hr _, hdirty⟩
  · exact h i x ((AList.lookup_insert_ne hi).symm.trans hlook)

theorem Coherent.insert {cap : Nat} {c : DirCache} (h : Coherent env cap t c) {id : Nat}
    {hnd : CachedDir} (hid : id < cap) (hd : (t.node id).isDir)
    (hr : Resident env hnd (t.node id).pages) (hdirty : hnd.dirty = []) :
    Coherent env cap t (c.insert id hnd) := by
  unfold DirCache.insert
  split
  · cases c.victim with
    | some v => exact (h.erase v).put hid hd hr hdirty
    | none => exact Coherent.put (k := c.tick) h hid hd hr hdirty
  · exact Coherent.put (k := c.tick) h hid hd hr hdirty

theorem Coherent.touch {cap : Nat} {c : DirCache} (h : Coherent env cap t c) (id : Nat) :
    Coherent env cap t (c.touch id) := by
  unfold DirCache.touch
  cases hlook : c.entries.lookup id with
  | none => exact h
  | some hnd =>
    obtain ⟨hid, hd, hr, hdirty⟩ := h id hnd hlook
    exact Coherent.put (k := c.tick) h hid hd hr hdirty

theorem Rep.withCache (h : Rep env s t) {c : Option DirCache}
    (hc : ∀ d, c = some d → Coherent env s.inodes.cap t d) : Rep env { s with dirCache := c } t :=
  ⟨h.filled_of ⟨rfl, rfl, rfl, rfl, ⟨_, rfl⟩, rfl⟩ rfl rfl rfl, h.nodes, h.cap,
    h.count, h.cap_lt, h.next, h.free, h.opens, h.ticks, h.orders, h.logged, hc⟩

theorem Rep.coherent (h : Rep env s t) {c : DirCache} (hc : s.dirCache = some c) :
    Coherent env s.inodes.cap t c := h.cache c hc

/-! ## Working copies -/

/-- The inode `in_` of directory `id`, taken out for editing as `n`. -/
structure Held (s : FS) (t : State) (id : Nat) (in_ : Inode) (n : Node) : Prop where
  lt : id < s.inodes.cap
  dir : (t.node id).isDir
  held_dir : n.isDir
  uncached : Uncached s id
  same : SameData (s.inodes.slots id) in_
  mirrors : Mirrors in_ n
  pages : n.pages = (t.node id).pages
  fits : ∀ l ∈ n.pages, pageUsed l ≤ dirPageSize

structure Working (env : Env) (s : FS) (t : State) (id : Nat) (h : CachedDir) (w : Work) :
    Prop where
  held : Held s t id h.in_ w.node
  mirror : Mirror env h w
  tracked : w.Tracked

/-- Nothing but directory `id` changed, and at most `id` became resident. -/
structure Aside (id : Nat) (s s' : FS) (t t' : State) : Prop where
  slots : ∀ i, i ≠ id → s'.inodes.slots i = s.inodes.slots i
  nodes : ∀ i, i ≠ id → t'.node i = t.node i
  cap : s'.inodes.cap = s.inodes.cap
  uncached : ∀ i, i ≠ id → Uncached s i → Uncached s' i

theorem Aside.trans {id : Nat} {s₁ s₂ s₃ : FS} {t₁ t₂ t₃ : State} (h : Aside id s₁ s₂ t₁ t₂)
    (h' : Aside id s₂ s₃ t₂ t₃) : Aside id s₁ s₃ t₁ t₃ where
  slots i hi := (h'.slots i hi).trans (h.slots i hi)
  nodes i hi := (h'.nodes i hi).trans (h.nodes i hi)
  cap := h'.cap.trans h.cap
  uncached i hi hu := h'.uncached i hi (h.uncached i hi hu)

theorem Held.aside {id i : Nat} {s s' : FS} {t t' : State} {in_ : Inode} {n : Node}
    (h : Held s t id in_ n) (ha : Aside i s s' t t') (hi : id ≠ i) : Held s' t' id in_ n where
  lt := by rw [ha.cap]; exact h.lt
  dir := by rw [ha.nodes id hi]; exact h.dir
  held_dir := h.held_dir
  uncached := ha.uncached id hi h.uncached
  same := by rw [ha.slots id hi]; exact h.same
  mirrors := h.mirrors
  pages := by rw [ha.nodes id hi]; exact h.pages
  fits := h.fits

theorem Working.aside {id i : Nat} {s s' : FS} {t t' : State} {h : CachedDir} {w : Work}
    (hw : Working env s t id h w) (ha : Aside i s s' t t') (hi : id ≠ i) :
    Working env s' t' id h w :=
  ⟨hw.held.aside ha hi, hw.mirror, hw.tracked⟩

theorem Working.of_uncached {id : Nat} {s s' : FS} {t t' : State} {h : CachedDir} {w : Work}
    (hw : Working env s t id h w) (hi : s'.inodes = s.inodes) (hc : Uncached s id → Uncached s' id)
    (hn : t'.node = t.node) : Working env s' t' id h w := by
  refine ⟨⟨?_, ?_, hw.held.held_dir, ?_, ?_, hw.held.mirrors, ?_, hw.held.fits⟩,
    hw.mirror, hw.tracked⟩
  · rw [hi]
    exact hw.held.lt
  · rw [hn]
    exact hw.held.dir
  · exact hc hw.held.uncached
  · rw [hi]
    exact hw.held.same
  · rw [hn]
    exact hw.held.pages

theorem Working.of_eq {id : Nat} {s s' : FS} {t t' : State} {h : CachedDir} {w : Work}
    (hw : Working env s t id h w) (hi : s'.inodes = s.inodes) (hc : s'.dirCache = s.dirCache)
    (hn : t'.node = t.node) : Working env s' t' id h w :=
  hw.of_uncached hi (fun hu d hd => hu d (hc ▸ hd)) hn

theorem uncached_erase {c : DirCache} (id : Nat) :
    Uncached { s with dirCache := some { c with entries := c.entries.erase id } } id := by
  intro d hd
  cases hd
  exact AList.lookup_erase _ _

theorem Rep.checkoutDir (hl : env.Lawful) (h : Rep env s t) (hn : Neat t) {id : Nat}
    (hid : ¬ t.cap ≤ id) (hd : (t.node id).isDir) :
    ∃ hnd s', (Fs.checkoutDir id : Act env CachedDir).1 s = .ok hnd s' ∧ Rep env s' t ∧
      s'.inodes = s.inodes ∧ (∀ i, Uncached s i → Uncached s' i) ∧
      Working env s' t id hnd ⟨t.node id, (t.node id).pages, []⟩ := by
  have hlt := h.lt hid
  have hfits := (hn id (by omega) hd).fits
  -- on a miss, or without a cache, the directory is loaded and nothing changes
  have hload : Uncached s id → ∃ hnd s',
    (Within.ofExcept (s.loadDir env id) : Act env CachedDir).1 s =
      .ok hnd s' ∧ Rep env s' t ∧ s'.inodes = s.inodes ∧ (∀ i, Uncached s i → Uncached s' i) ∧
      Working env s' t id hnd ⟨t.node id, (t.node id).pages, []⟩ := by
    intro hu
    obtain ⟨hnd, hrun, hin, hdirty, hres⟩ := h.loadDir hl hn hid hd
    refine ⟨hnd, s, ?_, h, rfl, fun _ h => h, ?_, ⟨hres, hdirty⟩, Work.tracked_checkout _⟩
    · rw [hrun]
      rfl
    · rw [hin]
      exact ⟨hlt, hd, hd, hu, SameData.refl _, h.nodes id hlt, rfl, hfits⟩
  unfold Fs.checkoutDir
  rw [Within.get_bind_run]
  cases hc : s.dirCache with
  | none =>
    refine hload ?_
    intro c hc'
    rw [hc] at hc'
    cases hc'
  | some c =>
    dsimp only
    cases hlook : c.entries.lookup id with
    | none =>
      refine hload ?_
      intro c' hc'
      rw [hc] at hc'
      cases hc'
      exact hlook
    | some hnd =>
      dsimp only
      obtain ⟨-, -, hres, hdirty⟩ := h.coherent hc id hnd hlook
      have hrep : Rep env { s with dirCache := some { c with entries := c.entries.erase id } }
          t := by
        refine h.withCache ?_
        rintro d ⟨⟩
        exact (h.coherent hc).erase id
      have hget := hrep.getInode_of_lt hid
      refine ⟨{ hnd with in_ := s.inodes.slots id }, _, ?_, hrep, rfl, ?_, ?_⟩
      · refine (bind_of_ok (x := (setCache _ : Act env Unit).1) rfl).trans ?_
        refine (bind_of_ok (x := (getInode id : Act env Inode).1) (a := s.inodes.slots id) ?_).trans
          rfl
        rw [getInode, Within.get_bind_run, hget]
        rfl
      · intro i hu d hd
        cases hd
        by_cases hi : i = id
        · subst hi
          exact AList.lookup_erase _ _
        · exact (AList.lookup_erase_ne hi).trans (hu c hc)
      · exact ⟨⟨hlt, hd, hd, uncached_erase id, SameData.refl _, h.nodes id hlt, rfl, hfits⟩,
          ⟨⟨hres.same, hres.index, hres.pageOf⟩, hdirty⟩, Work.tracked_checkout _⟩

theorem checkout_sim (hl : env.Lawful) (h : Rep env s t) (hn : Neat t) (id : Nat) :
    Sim (bridge env B) (checkoutDir id) (checkout id) s t
      (fun hnd s' w t' => t' = t ∧ w = ⟨t.node id, (t.node id).pages, []⟩ ∧ Rep env s' t ∧
        s'.inodes = s.inodes ∧ (∀ i, Uncached s i → Uncached s' i) ∧
        Working env s' t id hnd w) := by
  by_cases hok : ¬ t.cap ≤ id ∧ (t.node id).isDir
  · obtain ⟨hid, hd⟩ := hok
    obtain ⟨hnd, s', hrun, hrep, hin, hu, hw⟩ := h.checkoutDir hl hn hid hd
    have hspec := run_checkout t id
    rw [if_neg hid, if_pos hd] at hspec
    exact fun _ => under_of_run hrun ⟨_, t, hspec, rfl, rfl, hrep, hin, hu, hw⟩
  · -- what is no directory is not resident, and loading it fails
    have hmiss : ∀ c, s.dirCache = some c → c.entries.lookup id = none := by
      intro c hc
      cases hlook : c.entries.lookup id with
      | none => rfl
      | some hnd =>
        obtain ⟨hid, hd, -⟩ := h.coherent hc id hnd hlook
        exact absurd ⟨by rw [h.cap]; omega, hd⟩ hok
    have hload : Sim (bridge env B) (Within.ofExcept (s.loadDir env id)) (checkout id) s t
        (fun hnd s' w t' => t' = t ∧ w = ⟨t.node id, (t.node id).pages, []⟩ ∧ Rep env s' t ∧
          s'.inodes = s.inodes ∧ (∀ i, Uncached s i → Uncached s' i) ∧
          Working env s' t id hnd w) := by
      refine (loadDir_sim hl h hn id).mono ?_
      rintro hnd s' w t' ⟨rfl, rfl, hid, hd, -⟩
      exact absurd ⟨by rw [h.cap]; omega, hd⟩ hok
    unfold checkoutDir
    refine sim_get_left ?_
    cases hc : s.dirCache with
    | none => exact hload
    | some c =>
      dsimp only
      rw [hmiss c hc]
      exact hload

/-! ## Edits -/

theorem Working.add {id : Nat} {h : CachedDir} {w : Work} (hw : Working env s t id h w)
    {name : String} (hnew : w.find name = none) (child : Nat) :
    Working env s t id (h.add env name child).2 (w.add name child) := by
  obtain ⟨hin, hm⟩ := hw.mirror.add hnew child
  refine ⟨?_, hm, hw.tracked.add name child⟩
  rw [hin]
  exact hw.held

theorem Working.del {id : Nat} {h : CachedDir} {w : Work} (hw : Working env s t id h w)
    (name : String) :
    ∃ h', (delName h name : Act env CachedDir).1 s = .ok h' s ∧
        Working env s t id h' (w.del name) := by
  obtain ⟨b, h', hdel, hin, hm⟩ := hw.mirror.del name
  refine ⟨h', ?_, ?_, hm, hw.tracked.del name⟩
  · unfold delName
    rw [hdel]
    rfl
  · rw [hin, Work.del_node]
    exact hw.held

theorem Working.withNlink {id : Nat} {h : CachedDir} {w : Work} (hw : Working env s t id h w)
    (k : UInt32) :
    Working env s t id { h with in_ := { h.in_ with nlink := k } }
      { w with node := { w.node with nlink := k } } := by
  obtain ⟨⟨hlt, hdir, hheld, hu, hsame, hm, hpages, hfits⟩, hmir, htr⟩ := hw
  exact ⟨⟨hlt, hdir, hheld, hu, ⟨hsame.size, hsame.log2, hsame.flags, hsame.blockMap⟩,
    ⟨hm.kind, rfl, hm.generation, hm.uid, hm.gid, hm.mode, hm.atime, hm.mtime, hm.ctime, hm.paged⟩,
    hpages,
    hfits⟩, ⟨⟨hmir.resident.same, hmir.resident.index, hmir.resident.pageOf⟩, hmir.dirty⟩,
    htr.withNode rfl⟩

/-! ## Writing the changed pages -/

theorem flushPage_sim (hl : env.Lawful) (h : Rep env s t) {id p : Nat} {in_ : Inode} {n : Node}
    {pages : List (List DirEntry)} (hh : Held s t id in_ n) (hp : p < pages.length)
    (hgrown : pages.length ≤ n.pages.length + 1) :
    Sim (bridge env B) (Fs.flushPage id (pages.map fun l => ⟨l, pageUsed l⟩) in_ p)
      (Spec.flushPage env id pages n p) s t
      (fun in' s' n' t' => Rep env s' t' ∧ Held s' t' id in' n' ∧ Aside id s s' t t' ∧
        ∃ c, pages[p]? = some c ∧ n'.pages = putPage n.pages p c) := by
  have hc := List.getElem?_eq_getElem hp
  generalize pages[p] = c at hc
  have henc : (((pages.map fun l => (⟨l, pageUsed l⟩ : Page))[p]?).bind fun pg =>
      encodeDirPage pg.entries) = if dirPageSize < pageUsed c then none else some
          (pageBytes c) := by
    rw [List.getElem?_map, hc]
    exact encodeDirPage_eq c
  by_cases hfit : dirPageSize < pageUsed c
  · unfold Fs.flushPage Spec.flushPage
    rw [henc, if_pos hfit, hc]
    dsimp only
    rw [if_pos (.inl hfit)]
    exact sim_panic
  have hfit : pageUsed c ≤ dirPageSize := by omega
  have hbytes : pageBytes c ≠ [] := by
    intro h0
    have := length_pageBytes hfit
    rw [h0] at this
    cases this
  obtain ⟨refs, lost, hf, hclean⟩ := h.filled
  have hlaid := (hf.laid id hh.lt).of_sameData hh.same
  rw [Node.blob_of_dir hh.dir, ← hh.pages] at hlaid
  unfold Fs.flushPage
  rw [henc, if_neg (Nat.not_lt.mpr hfit)]
  dsimp only
  by_cases hlen : 2 ^ 64 ≤ p * dirPageSize + dirPageSize
  · unfold Spec.flushPage writeAtLocked
    rw [hc]
    dsimp only
    rw [if_neg (by simpa using hbytes), if_pos (.inr hlen)]
    refine sim_get_left (sim_left (R := fun _ _ => True) (under_ok (hlaid.loadRefs hl) trivial)
      (fun _ _ _ _ => ?_))
    rw [length_pageBytes hfit, if_pos hlen]
    exact sim_panic
  · have hid' : id < t.cap := by rw [h.cap]; exact hh.lt
    obtain ⟨n', hn'⟩ : ∃ n' : Node, n' = { n with
      pages := putPage n.pages p c, mtime := env.clock t.ticks, ctime :=
        env.clock t.ticks } := ⟨_, rfl⟩
    have hrun := run_flushPage env n hid' hc hfit (by omega)
    rw [← hn'] at hrun
    have hst := hf.stocked
    rw [total_eq hh.lt, add_assoc, tokens_of_sameData hh.same] at hst
    have hnew := dirBytes_putPage hh.fits p hfit
    intro hfits
    have hfits' : B.fits (t.log ++ charge (overwrite (dirBytes n.pages) (p * dirPageSize)
        (pageBytes c))) := by
      have := hfits
      rw [hrun] at this
      rw [← hnew]
      exact (congrArg B.fits (State.log_paid t (.dir _))).mp this
    refine Under.mono (writeAtLocked_under hl hfits' hst hlaid h.logged hh.lt hbytes
      (by rw [length_pageBytes hfit]; omega)) ?_ (fun f s' hh => .halt hh)
    rintro in' s' ⟨hr, hcarried⟩
    have ht := hr.touched
    rw [← h.ticks] at ht
    have hmir : Mirrors in' n' := by
      refine hh.mirrors.touched ht (by rw [hn']) fun _ _ => ?_
      by_cases h0 : in_.size = 0
      · -- an empty directory gets its first page
        have hnil : n.pages.length = 0 := by
          have hblob := congrArg List.length (hlaid.blob_eq_nil_iff.mpr h0)
          rwa [length_dirBytes hh.fits, List.length_nil, Nat.mul_eq_zero,
            or_iff_left (by decide)] at hblob
        have hp0 : p = 0 := by omega
        rw [hcarried.first h0, hlaid.blob_eq_nil_iff.mpr h0, length_pageBytes hfit, hp0]
        rfl
      · rw [hcarried.log2 h0]
        exact hh.mirrors.paged hh.held_dir h0
    have hdir : n'.isDir := by rw [hn']; exact hh.held_dir
    have hpages : n'.pages = putPage n.pages p c := by rw [hn']
    rw [← hnew] at hr
    have hrep := h.rewrote (p := .dir (putPage n.pages p c)) hf hclean hh.lt hr hmir
      (by rw [Node.blob_of_dir hdir, hpages]; rfl) hh.uncached
    obtain ⟨hcap, hslots, hcache⟩ := putAt_spec hh.lt hr.put
    refine ⟨n', _, hrun, hrep, ?_, ?_, c, hc, hpages⟩
    · refine ⟨hcap ▸ hh.lt, ?_, hdir, ?_, ?_, hmir, ?_, ?_⟩
      · rw [node_setNode_self]
        exact hdir
      · intro d hd
        exact hh.uncached d (hcache ▸ hd)
      · rw [hslots, Function.update_self]
        exact SameData.refl _
      · rw [node_setNode_self]
      · rw [hpages]
        exact putPage_fits hh.fits hfit
    · refine ⟨fun i hi => ?_, fun i hi => node_setNode_ne hi, hcap, fun i _ hu d hd => ?_⟩
      · rw [hslots, Function.update_of_ne hi]
      · exact hu d (hcache ▸ hd)

theorem iterate_sim (h : Rep env s t) (l : List Nat) :
    Sim (bridge env B) (Fs.iterate l) (Spec.iterate env l) s t
      (fun a s' b t' => a = b ∧ a = env.order t.orders l ∧ s' = { s with orders := s.orders + 1 } ∧
        t' = { t with orders := t.orders + 1 }) := by
  refine fun _ => under_of_run rfl ⟨env.order t.orders l, _, rfl, ?_, ?_, rfl, rfl⟩
  · rw [h.orders]
  · rw [h.orders]

theorem Rep.of_orders (h : Rep env s t) :
    Rep env { s with orders := s.orders + 1 } { t with orders := t.orders + 1 } :=
  ⟨h.filled_of ⟨rfl, rfl, rfl, rfl, ⟨_, rfl⟩, rfl⟩ rfl rfl rfl, h.nodes, h.cap,
    h.count, h.cap_lt, h.next, h.free, h.opens, h.ticks, congrArg (· + 1) h.orders,
    h.logged, h.cache⟩

theorem flush_sim (hl : env.Lawful) (h : Rep env s t) {id : Nat} {hnd : CachedDir} {w : Work}
    (hw : Working env s t id hnd w) (hgrown : w.Grown 1) :
    Sim (bridge env B) (flushDir id hnd) (flush env id w) s t
      (fun hnd' s' _ t' => Rep env s' t' ∧ Aside id s s' t t' ∧ Uncached s' id ∧
        id < s'.inodes.cap ∧ (t'.node id).isDir ∧ Resident env hnd' (t'.node id).pages ∧
        hnd'.dirty = []) := by
  unfold flushDir flush
  rw [hw.mirror.dirty]
  refine sim_bind (iterate_sim h w.dirty) ?_
  rintro a s₁ b t₁ - ⟨rfl, ha, rfl, rfl⟩
  have hperm : ∀ p, p ∈ a ↔ p ∈ w.dirty := by
    intro p
    rw [ha]
    exact (hl.order_perm _ _).mem_iff
  -- the pages still to be written are the only ones that differ
  have hfold := sim_foldlM (B := bridge env B) (f := Fs.flushPage id hnd.pages)
    (g := Spec.flushPage env id w.pages)
    (fun todo in' s' n' t' => (∀ p ∈ todo, p < w.pages.length) ∧ Rep env s' t' ∧
      Held s' t' id in' n' ∧ Aside id s s' t t' ∧ w.pages.length ≤ n'.pages.length + 1 ∧
      ∀ i, i ∉ todo → n'.pages[i]? = w.pages[i]?)
    (fun p rest in' s' n' t' _ hI => by
      obtain ⟨hlt, hrep, hheld, haside, hgrown, hpages⟩ := hI
      rw [hw.mirror.resident.same]
      refine (flushPage_sim hl hrep hheld (hlt p List.mem_cons_self) hgrown).mono ?_
      rintro in'' s'' n'' t'' ⟨hrep', hheld', haside', c, hc, hput⟩
      refine ⟨fun q hq => hlt q (List.mem_cons_of_mem _ hq), hrep', hheld',
        haside.trans haside', ?_, ?_⟩
      · rw [hput]
        unfold putPage
        rw [List.length_set, List.length_append]
        omega
      · rw [hput]
        exact putPage_step hc hpages)
    a hnd.in_ _ w.node _ ⟨fun p hp => hw.tracked.lt p ((hperm p).mp hp), h.of_orders,
      ⟨hw.held.lt, hw.held.dir, hw.held.held_dir, hw.held.uncached, hw.held.same, hw.held.mirrors,
        hw.held.pages, hw.held.fits⟩,
      ⟨fun _ _ => rfl, fun _ _ => rfl, rfl, fun _ _ hu => hu⟩, hgrown,
      fun i hi => (hw.tracked.clean i (fun hd => hi ((hperm i).mpr hd))).symm⟩
  refine sim_bind hfold ?_
  rintro in' s' n' t' - ⟨-, hrep, hheld, haside, -, hpages⟩
  have hall : n'.pages = w.pages := List.ext_getElem? fun i => hpages i List.not_mem_nil
  refine sim_pure ⟨hrep, haside, hheld.uncached, hheld.lt, hheld.dir, ?_, rfl⟩
  rw [← hheld.pages, hall]
  exact ⟨hw.mirror.resident.same, hw.mirror.resident.index, hw.mirror.resident.pageOf⟩

theorem commitDir_sim (hl : env.Lawful) (h : Rep env s t) {id : Nat} {hnd : CachedDir} {w : Work}
    (hw : Working env s t id hnd w) (hgrown : w.Grown 1) :
    Sim (bridge env B) (commitDir id hnd) (flush env id w) s t
      (fun _ s' _ t' => Rep env s' t' ∧ Aside id s s' t t') := by
  intro hfits
  unfold commitDir
  refine under_bind (flush_sim hl h hw hgrown hfits) ?_ (fun _ _ h => h)
  rintro hnd' s' - ⟨u, t', hrun, hrep, haside, hu, hid, hd, hres, hdirty⟩
  refine under_get_bind ?_
  cases hc : s'.dirCache with
  | none => exact under_pure ⟨u, t', hrun, hrep, haside⟩
  | some c =>
    dsimp only
    refine setCache_under ⟨u, t', hrun, hrep.withCache ?_, haside.slots, haside.nodes,
      haside.cap, ?_⟩
    · rintro d ⟨⟩
      exact (hrep.coherent hc).insert hid hd hres hdirty
    · intro i hi hui d hd'
      cases hd'
      have hold := haside.uncached i hi hui c hc
      unfold DirCache.insert
      dsimp only
      rw [AList.lookup_insert_ne hi]
      split
      · cases c.victim with
        | none => exact hold
        | some v =>
          dsimp only
          by_cases hv : i = v
          · rw [hv]
            exact AList.lookup_erase _ _
          · rw [AList.lookup_erase_ne hv]
            exact hold
      · exact hold

/-! ## Reading names -/

theorem cachePeek_sim {α : Type} {f : CachedDir → α} {k : List DirEntry → α} {c : DirCache}
    (hf : ∀ hnd pages, Resident env hnd pages → f hnd = k pages.flatten) (hl : env.Lawful)
    (h : Rep env s t) (hn : Neat t) (hc : s.dirCache = some c) (id : Nat) :
    Sim (bridge env B) (cachePeek id f) (checkout id) s t
      (fun a s' w t' => a = some (k w.entries) ∧ t' = t ∧ Rep env s' t) := by
  unfold cachePeek
  refine sim_get_left ?_
  rw [hc]
  dsimp only
  cases hlook : c.entries.lookup id with
  | some hnd =>
    dsimp only
    obtain ⟨hid, hd, hres, -⟩ := h.coherent hc id hnd hlook
    have hrun := run_checkout t id
    rw [if_neg (by rw [h.cap]; omega), if_pos hd] at hrun
    intro _
    refine under_bind (Q := fun _ s' => Rep env s' t) (setCache_under (h.withCache ?_)) ?_
      (fun _ _ h => h)
    · rintro d ⟨⟩
      exact (h.coherent hc).touch id
    · rintro _ s' - hrep
      exact under_pure ⟨_, t, hrun, congrArg some (hf hnd _ hres), rfl, hrep⟩
  | none =>
    dsimp only
    intro hfits
    refine under_bind (loadDir_sim hl h hn id hfits) ?_ (fun _ _ h => h)
    rintro hnd s' - ⟨w, t', hrun, rfl, rfl, hid, hd, rfl, -, hdirty, hres⟩
    refine under_bind (Q := fun _ s' => Rep env s' t') (setCache_under (h.withCache ?_)) ?_
      (fun _ _ h => h)
    · rintro d ⟨⟩
      exact (h.coherent hc).insert hid hd hres hdirty
    · rintro _ s' - hrep
      exact under_pure ⟨_, t', hrun, congrArg some (hf hnd _ hres), rfl, hrep⟩

theorem run_cachePeek_off {α : Type} {f : CachedDir → α} {id : Nat} (hc : s.dirCache = none) :
    (cachePeek id f : Act env (Option α)).1 s = .ok none s := by
  rw [cachePeek, Within.get_bind_run, hc]
  rfl

theorem readDirPages_sim (hl : env.Lawful) (h : Rep env s t) (hn : Neat t) (id : Nat) :
    Sim (bridge env B) (Within.ofExcept (s.readDirPages env id)) (checkout id) s t
      (fun l s' w t' => l = w.entries ∧ t' = t ∧ s' = s) := by
  have hrun := run_checkout t id
  have hread := h.readDirPages hl hn id
  by_cases hid : t.cap ≤ id
  · rw [if_pos hid] at hrun hread
    exact sim_error hread hrun h
  · rw [if_neg hid] at hrun hread
    by_cases hd : (t.node id).isDir
    · rw [if_pos hd] at hrun
      rw [if_neg (not_not.mpr hd)] at hread
      exact sim_ok hread hrun ⟨rfl, rfl, rfl⟩
    · rw [if_neg hd] at hrun
      rw [if_pos hd] at hread
      exact sim_error hread hrun h

theorem listDir_sim (hl : env.Lawful) (h : Rep env s t) (hn : Neat t) (id : Nat) :
    Sim (bridge env B) (Fs.listDir id) (Spec.listDir id) s t
      (fun l s' l' t' => l = l' ∧ t' = t ∧ Rep env s' t) := by
  unfold Fs.listDir Spec.listDir
  cases hc : s.dirCache with
  | some c =>
    refine sim_bind (cachePeek_sim (k := fun l => l) (fun _ _ hr => hr.entries) hl h hn hc id) ?_
    rintro a s' w t' - ⟨rfl, rfl, hrep⟩
    exact sim_pure ⟨rfl, rfl, hrep⟩
  | none =>
    refine sim_left (R := fun o s' => o = none ∧ s' = s)
      (under_of_run (run_cachePeek_off hc) ⟨rfl, rfl⟩) ?_
    rintro o s' - ⟨rfl, rfl⟩
    dsimp only
    refine sim_get_left ?_
    rw [← bind_pure (Within.ofExcept _)]
    refine sim_bind (readDirPages_sim hl h hn id) ?_
    rintro l s' w t' - ⟨rfl, rfl, rfl⟩
    exact sim_pure ⟨rfl, rfl, h⟩

theorem lookup_sim (hl : env.Lawful) (h : Rep env s t) (hn : Neat t) (parent : Nat)
    (name : String) : Sim (bridge env B) (Fs.lookup parent name) (Spec.lookup parent name) s t
      (fun o s' o' t' => o = o' ∧ t' = t ∧ Rep env s' t) := by
  unfold Fs.lookup Spec.lookup
  cases hc : s.dirCache with
  | some c =>
    refine sim_bind (cachePeek_sim (k := fun l => (l.find? (·.name = name)).map (·.inode))
      (fun _ _ hr => hr.find name) hl h hn hc parent) ?_
    rintro a s' w t' - ⟨rfl, rfl, hrep⟩
    exact sim_pure ⟨rfl, rfl, hrep⟩
  | none =>
    refine sim_left (R := fun o s' => o = none ∧ s' = s)
      (under_of_run (run_cachePeek_off hc) ⟨rfl, rfl⟩) ?_
    rintro o s' - ⟨rfl, rfl⟩
    dsimp only
    refine sim_get_left (sim_bind (readDirPages_sim hl h hn parent) ?_)
    rintro l s' w t' - ⟨rfl, rfl, rfl⟩
    exact sim_pure ⟨rfl, rfl, h⟩

/-! ## The ancestry check -/

theorem Rep.subdirs (h : Rep env s t) (l : List DirEntry) : s.subdirs l = Spec.subdirs t l := by
  induction l with
  | nil => rfl
  | cons e l ih =>
    unfold FS.subdirs Spec.subdirs
    by_cases hid : t.cap ≤ e.inode
    · rw [if_pos hid, h.getInode_of_le hid]
      rfl
    · rw [if_neg hid, h.getInode_of_lt hid, ok_bind, ih]
      simp only [h.isDir_iff (h.lt hid)]

theorem Rep.walk (hl : env.Lawful) (h : Rep env s t) (hn : Neat t) (target fuel : Nat)
    (stack : List Nat) : s.walk env target fuel stack = Spec.walk t target fuel stack := by
  induction fuel generalizing stack with
  | zero => rfl
  | succ fuel ih =>
    cases stack with
    | nil => rfl
    | cons d stack =>
      unfold FS.walk Spec.walk
      by_cases hdt : d = target
      · rw [if_pos hdt, if_pos hdt]
      · rw [if_neg hdt, if_neg hdt, h.readDirPages hl hn]
        by_cases hid : t.cap ≤ d
        · rw [if_pos hid, if_pos hid]
          rfl
        · rw [if_neg hid, if_neg hid]
          by_cases hd : (t.node d).isDir
          · rw [if_neg (not_not.mpr hd), if_neg (not_not.mpr hd), ok_bind, h.subdirs]
            simp only [ih]
          · rw [if_pos hd, if_pos hd]
            rfl

theorem Rep.loops (hl : env.Lawful) (h : Rep env s t) (hn : Neat t) (src dst id : Nat) :
    Fs.loops s env src dst id = Spec.loops t src dst id := by
  unfold Fs.loops Spec.loops
  by_cases hsd : src = dst
  · rw [if_pos hsd, if_pos hsd]
  · rw [if_neg hsd, if_neg hsd]
    by_cases hid : t.cap ≤ id
    · rw [if_pos hid, h.getInode_of_le hid]
      rfl
    · rw [if_neg hid, h.getInode_of_lt hid, ok_bind]
      by_cases hd : (t.node id).isDir
      · rw [if_pos ((h.isDir_iff (h.lt hid)).mpr hd), if_pos hd]
        exact h.walk hl hn _ _ _
      · rw [if_neg (fun hk => hd ((h.isDir_iff (h.lt hid)).mp hk)), if_neg hd]
        rfl

end Refine
end BloomFS
