/-
A block map that is too long.

The entry of a stored block counts its bytes in 32 bits.  A block map whose payload has
`2^32` bytes or more is stored with its lengths cut, and is not read back: the file it
belongs to is lost while the write reports success.  No codec is safe from this, for the
map of enough records cannot always be compressed below that.
-/
import BloomFS.Runs.Contents
import BloomFS.Runs.OneFile

namespace BloomFS
namespace Runs

open Bytes Exec Block Fs Store Spec Refine

/-! ## What can be read back -/

section Reading

variable {z : FrameCodec} {bs : BlockStore} {p p' : Pool} {r : Ref} {b : Bytes}

/-- A payload that is longer than its entry can tell is cut, and what is left of it is not
the block. -/
theorem read_cut (hw : Wrote (Env.coded z.toCodec) bs b p r p')
    (hnew : p.ddt.lookup ((Env.coded z.toCodec).blake3 b) = none)
    (hbig : 2 ^ 32 ≤ b.length) (hcode : 2 ^ 32 ≤ (z.encode b).length) (h44 : b.length < 2 ^ 43)
    (b' : Bytes) : Store.read (Env.coded z.toCodec) bs p'.dev r ≠ .ok b' := by
  intro h
  have g := ground_coded z.toCodec
  have hpay := length_payloadOf_le b (z.encode b)
  have hcount : clusters (payloadOf b (z.encode b)).1.length < 2 ^ 32 := by
    unfold clusters
    rw [show blk = 4096 from rfl]
    omega
  obtain ⟨hunpack, hraw, hhash⟩ := hw.read_fresh g.lawful hnew rfl hcount h
  unfold unpack at hunpack
  rw [hraw] at hunpack
  -- the hash keeps the length, so it is enough that the result is shorter
  have hshort : b'.length < 2 ^ 32 := by
    unfold payloadOf at hunpack
    split at hunpack
    · dsimp only at hunpack
      rw [if_pos rfl] at hunpack
      cases hunpack
      rw [List.length_take]
      omega
    · dsimp only at hunpack
      rw [if_neg Bool.false_ne_true] at hunpack
      have hcut := z.cut b _ b' (Nat.lt_of_lt_of_le (Nat.mod_lt _ (by decide)) hcode) hunpack
      rw [hcut]
      decide
  have hlen := (g.apart (by omega) (by omega) hhash).1
  omega

theorem bsRead_cut {s : FS} {bs : BlockStore} (hbs : s.bs = bs)
    (hw : Wrote (Env.coded z.toCodec) bs b p r s.pool)
    (hnew : p.ddt.lookup ((Env.coded z.toCodec).blake3 b) = none)
    (hbig : 2 ^ 32 ≤ b.length) (hcode : 2 ^ 32 ≤ (z.encode b).length) (h44 : b.length < 2 ^ 43)
    (b' : Bytes) : s.bsRead (Env.coded z.toCodec) r ≠ .ok b' := by
  unfold FS.bsRead
  rw [hbs]
  cases hread : Store.read (Env.coded z.toCodec) bs s.dev r with
  | error f =>
    intro h
    cases h
  | ok c => exact absurd hread (read_cut hw hnew hbig hcode h44 c)

end Reading

/-- The refs of a file are not found again where its block map is not read. -/
theorem loadRefs_unread {env : Env} {s : FS} {kind : UInt8} {in_ : Inode} {size : UInt64}
    (h : Mapped kind in_ size) (hsize : size ≠ 0)
    (hmap : ∀ b, s.bsRead env (mapRef in_) ≠ .ok b) (l : List Ref) :
    s.loadRefs env in_ ≠ .ok l := by
  unfold FS.loadRefs
  rw [if_neg (h.size ▸ hsize), h.inline, if_neg Bool.false_ne_true, FS.readMap]
  cases hread : s.bsRead env (mapRef in_) with
  | error f =>
    intro hl
    cases hl
  | ok b => exact absurd hread (hmap b)

theorem getData_unread {env : Env} {s : FS} {kind : UInt8} {in_ : Inode} {size : UInt64}
    (h : Mapped kind in_ size) (hsize : size ≠ 0)
    (hmap : ∀ b, s.bsRead env (mapRef in_) ≠ .ok b) (b : Bytes) :
    s.getData env in_ ≠ .ok b := by
  unfold FS.getData
  rw [if_neg (h.size ▸ hsize)]
  cases hload : s.loadRefs env in_ with
  | error f =>
    intro hb
    cases hb
  | ok l => exact absurd hload (loadRefs_unread h hsize hmap l)

/-! ## Blocks that do not collide -/

/-- The blocks a write of records adds do not collide with each other or with those of a
one-file system. -/
theorem OneFile.apart {env : Env} (g : Ground env) {x : Nat → Bytes}
    (hx : ∀ i, (x i).length + 8 = 32768) {w n u m : Nat} {s s' : FS} {refs : List Ref}
    (h : OneFile env w n u s) (hm : m < 2 ^ 32) (hrefs : refs.length = m)
    (hadds : Adds env s s' ((List.range m).map (record x) ++ [encodeRefs refs])) :
    ∀ b b', .hash b ∈ s'.dev.trace → .hash b' ∈ s'.dev.trace →
      env.blake3 b = env.blake3 b' → b = b' := by
  have hbytes : (encodeRefs refs).length = 4 + m * 53 := by
    rw [length_encodeRefs, hrefs]
    rfl
  have hcases : ∀ b, .hash b ∈ s'.dev.trace → (.hash b ∈ s.dev.trace ∧ b.length = 4096) ∨
      (∃ i < m, b = record x i ∧ b.length = 32768) ∨
      b = encodeRefs refs ∧ b.length = 4 + m * 53 := fun b hb => by
    rcases hadds.hashed b hb with hb | hb
    · exact .inl ⟨hb, (h.hashed b hb).1⟩
    · rcases List.mem_append.mp hb with hb | hb
      · obtain ⟨i, hi, rfl⟩ := List.mem_map.mp hb
        exact .inr (.inl ⟨i, List.mem_range.mp hi, rfl, length_record hx i⟩)
      · rw [List.mem_singleton.mp hb]
        exact .inr (.inr ⟨rfl, hbytes⟩)
  have hshort : ∀ b, .hash b ∈ s'.dev.trace → b.length < 2 ^ 64 := fun b hb => by
    rcases hcases b hb with ⟨-, hb⟩ | ⟨i, -, -, hb⟩ | ⟨-, hb⟩ <;> omega
  intro b b' hb hb' heq
  have hlen := (g.apart (hshort b hb) (hshort b' hb') heq).1
  -- the three sorts of blocks differ in length
  rcases hcases b hb with ⟨hb, hle⟩ | ⟨i, hi, rfl, hle⟩ | ⟨rfl, hle⟩ <;>
    rcases hcases b' hb' with ⟨hb', hle'⟩ | ⟨j, hj, rfl, hle'⟩ | ⟨rfl, hle'⟩
  · exact h.play.inj b b' hb hb' heq
  · omega
  · omega
  · omega
  · rw [record_inj hx g (by decide) (by omega) (by omega) heq]
  · omega
  · omega
  · omega
  · rfl

theorem OneFile.lookup_map {env : Env} (g : Ground env) {x : Nat → Bytes}
    (hx : ∀ i, (x i).length + 8 = 32768) {w n u m : Nat} {s s' : FS} {refs : List Ref}
    (h : OneFile env w n u s) (hm : m < 2 ^ 32) (hrefs : refs.length = m)
    (hadds : Adds env s s' ((List.range m).map (record x))) :
    s'.ddt.lookup (env.blake3 (encodeRefs refs)) = none := by
  have hbytes : (encodeRefs refs).length = 4 + m * 53 := by
    rw [length_encodeRefs, hrefs]
    rfl
  by_contra hne
  rcases (hadds.known _).mp hne with hold | ⟨b, hb, heq⟩
  · obtain ⟨b, hb, heq⟩ := h.pages _ hold
    have hpage := hb.1
    have := (g.apart (by omega) (by omega) heq).1
    omega
  · obtain ⟨i, -, rfl⟩ := List.mem_map.mp hb
    have hrec := length_record hx i
    have := (g.apart (by omega) (by omega) heq).1
    omega

/-! ## A map that no codec shortens -/

/-- Records of 32 KiB with 16 bytes of `y` each. -/
def tagged (y : Bytes) (i : Nat) : Bytes :=
  (List.range 16).map (fun j => y.getD (16 * i + j) 0) ++ List.replicate 32744 0

theorem length_tagged (y : Bytes) (i : Nat) : (tagged y i).length + 8 = 32768 := by
  rw [tagged, List.length_append, List.length_map, List.length_range, List.length_replicate]

theorem getD_tagged (y : Bytes) {i j : Nat} (hj : j < 16) :
    (record (tagged y) i).getD (8 + j) 0 = y.getD (16 * i + j) 0 := by
  rw [record, getD_append_right (by rw [length_leBytes]; omega), length_leBytes,
    Nat.add_sub_cancel_left, tagged, getD_append_left (by simpa using hj),
    List.getD_eq_getElem?_getD, List.getElem?_map, List.getElem?_range hj]
  rfl

/-- The hashes of the records tell `y`. -/
theorem eq_of_hashes {env : Env} (g : Ground env) {m : Nat} {y y' : Bytes}
    (hy : y.length = 16 * m) (hy' : y'.length = 16 * m)
    (h : ∀ i < m, env.blake3 (record (tagged y) i) = env.blake3 (record (tagged y') i)) :
    y = y' := by
  refine ext_getD (by rw [hy, hy']) fun k hk => ?_
  have hget := getD_of_hash (length_tagged y) g (by decide)
    (by rw [length_record (length_tagged y')]; decide) (show 8 + k % 16 < 24 by omega)
    (h (k / 16) (by omega))
  rwa [getD_tagged y (by omega), getD_tagged y' (by omega), Nat.div_add_mod] at hget

theorem encodeRefs_inj {refs refs' : List Ref} (hlen : refs.length < 2 ^ 32)
    (hlen' : refs'.length < 2 ^ 32) (h : encodeRefs refs = encodeRefs refs') : refs = refs' := by
  have hdec := decodeRefs_encodeRefs hlen
  rw [h, decodeRefs_encodeRefs hlen'] at hdec
  exact (Option.some.inj hdec).symm

/-- Among the files of `m` tagged records there is one whose block map the codec leaves at
`16 * m` bytes or more. -/
theorem exists_long_map (z : Codec) {m : Nat} (hm : m < 2 ^ 32)
    {refs : Bytes → List Ref} (hrefs : ∀ y, (refs y).map Ref.hash =
      ((List.range m).map (record (tagged y))).map (Env.coded z).blake3) :
    ∃ y : Bytes, y.length = 16 * m ∧ 16 * m ≤ (z.encode (encodeRefs (refs y))).length := by
  have : Nontrivial UInt8 := ⟨0, 1, by decide⟩
  have hlen : ∀ y, (refs y).length = m := fun y => by
    have := congrArg List.length (hrefs y)
    simpa using this
  refine Counting.exists_long (f := fun y => z.encode (encodeRefs (refs y))) le_rfl
    fun y y' hy hy' heq => ?_
  have hsame : refs y = refs y' := encodeRefs_inj (by rw [hlen]; exact hm)
    (by rw [hlen]; exact hm) (z.encode_inj heq)
  have hhash := (hrefs y).symm.trans ((congrArg (List.map Ref.hash) hsame).trans (hrefs y'))
  refine eq_of_hashes (ground_coded z) hy hy' fun i hi => ?_
  have hget := congrArg (fun l => l[i]?) hhash
  simpa [List.getElem?_map, List.getElem?_range hi] using hget

/-! ## A file with such a map -/

/-- After `s` the file was written, and its block map cannot be read. -/
structure Lost (env : Env) (blocks : Nat) (data : Bytes) (s s' : Session) : Prop where
  blocks : s'.fs.dev.blocks = blocks
  proper : Proper env s (.writeFile 1 data) (.ok .unit)
  does : perform env (.writeFile 1 data) s = (.ok .unit, s')
  handles : s'.handles = [⟨1, false⟩]
  apart : ∀ b b', .hash b ∈ s'.fs.dev.trace → .hash b' ∈ s'.fs.dev.trace →
    env.blake3 b = env.blake3 b' → b = b'
  known : s'.fs.Known env 1
  regular : s'.fs.regular 1 = .ok (s'.fs.inodes.slots 1)
  size : (s'.fs.inodes.slots 1).size ≠ 0
  refs : ∀ l, s'.fs.loadRefs env (s'.fs.inodes.slots 1) ≠ .ok l
  data : ∀ b, s'.fs.getData env (s'.fs.inodes.slots 1) ≠ .ok b

/-- A file of `2^28` records of 32 KiB, on a device with room for it. -/
theorem oversize : ∃ blocks records, ∀ z : FrameCodec, ∃ y past s s',
    Run (Env.coded z.toCodec) Disk.Reliable (Proper (Env.coded z.toCodec)) past s ∧
      Lost (Env.coded z.toCodec) blocks (contents (tagged y) records) s s' := by
  refine ⟨2151200000, 268435456, fun z => ?_⟩
  have hslot : Cow.slotBlocks 2151200000 defaultInodeCount defaultDdtReserve = 65842 := by decide
  have g := ground_coded z.toCodec
  generalize henv : Env.coded z.toCodec = env at *
  obtain ⟨past, s, run, h, hhandles, hproper⟩ := oneFile g (by decide) hslot (by decide)
  have hroom : 18 + 2 * 65842 + (268435456 * 8 + clusters (4 + 268435456 * refSize)) ≤ 2151200000 :=
    by decide
  generalize hm : 268435456 = m at hroom ⊢
  -- what the write leaves, for every choice of the tags
  have hgoes : ∀ y, ∃ fs refs p, (writeFile 1 (contents (tagged y) m) : Act env Unit).1 s.fs =
      .ok () fs ∧ fs.openCount = s.fs.openCount ∧ MapWritten env 1 (contents (tagged y) m)
        ((List.range m).map (record (tagged y))) Inode.typeRegular s.fs fs refs p := fun y => by
    have hwrite := h.writeFile g (length_tagged y) (m := m) (by omega) (by omega) hroom
    cases hr : (writeFile 1 (contents (tagged y) m) : Act env Unit).1 s.fs with
    | error f fs => exact (hwrite.error hr).elim
    | ok a fs =>
      obtain ⟨-, hopens, refs, p, hwritten⟩ := hwrite.ok hr
      exact ⟨fs, refs, p, rfl, hopens, hwritten⟩
  choose fs refs p hr hopens hwritten using hgoes
  obtain ⟨y, hy, hlong⟩ := exists_long_map z.toCodec (show m < 2 ^ 32 by omega)
    fun y => henv ▸ (hwritten y).hashes
  have hwritten := hwritten y
  have hlen : (contents (tagged y) m).length = m * 32768 := length_contents (length_tagged y) m
  have hrefs : (refs y).length = m := by
    rw [hwritten.length, List.length_map, List.length_range]
  have hbytes : (encodeRefs (refs y)).length = 4 + m * 53 := by
    rw [length_encodeRefs, hrefs]
    rfl
  have hexec : execOf env s.handles (.writeFile 1 (contents (tagged y) m)) s.fs =
      .ok .unit (fs y) := bind_of_ok (hr y)
  have hdoes : perform env (.writeFile 1 (contents (tagged y) m)) s =
      (.ok .unit, ⟨fs y, s.handles⟩) := by
    show call env _ s = _
    rw [call, hexec]
    rfl
  have hsize : UInt64.ofNat (contents (tagged y) m).length ≠ 0 := by
    rw [hlen, ← hm]
    decide
  have hsteady : Steady s.fs (fs y) := (steady_closed s.fs).of_perform (steady_commit s.fs)
    (show Op.InSession (.writeFile 1 _) from trivial) hdoes (.refl _)
  have hnew := h.lookup_map g (length_tagged y) (by omega) hrefs hwritten.records
  have hunread : ∀ b, (fs y).bsRead env (mapRef ((fs y).inodes.slots 1)) ≠ .ok b := by
    have hmap := hwritten.map
    subst henv
    exact bsRead_cut hwritten.bs hmap hnew (by omega) (by omega) (by omega)
  refine ⟨y, past, s, ⟨fs y, s.handles⟩, run, hsteady.blocks.trans h.filling.blocks, hproper _ _,
    hdoes, hhandles, ?_, .inr (.inr ?_),
    regular_of_kind (hsteady.cap ▸ h.cap) hwritten.mapped.kind, ?_, ?_, ?_⟩
  · exact h.apart g (length_tagged y) (by omega) hrefs hwritten.adds
  · show ((fs y).openCount.lookup 1).getD 0 ≠ 0
    rw [hopens]
    exact h.opened
  · rw [hwritten.mapped.size]
    exact hsize
  · exact loadRefs_unread hwritten.mapped hsize hunread
  · exact getData_unread hwritten.mapped hsize hunread

theorem Lost.filed {env : Env} {blocks : Nat} {data : Bytes} {past : List Session}
    {s s' : Session} (run : Run env Disk.Reliable (Proper env) past s)
    (h : Lost env blocks data s s') :
    ∃ past' c, Filed env Disk.Reliable past' s' c ∧ c 1 = data := by
  obtain ⟨c, hc⟩ := Filed.of_run run
  have hafter : c.after (.writeFile 1 data) .unit 1 = data := by
    simp [Contents.after, creates, writes]
  exact ⟨_, _, hc.step h.does h.proper, hafter⟩

/-- Whatever the codec, there are contents of `2^28` records that are written and not read
back, although no two blocks collide. -/
theorem contents_lost : ∃ blocks records, ∀ z : FrameCodec, ∃ y past s c,
    Filed (Env.coded z.toCodec) Disk.Reliable past s c ∧ s.fs.dev.blocks = blocks ∧
    (∀ b b', .hash b ∈ s.fs.dev.trace → .hash b' ∈ s.fs.dev.trace →
      (Env.coded z.toCodec).blake3 b = (Env.coded z.toCodec).blake3 b' → b = b') ∧
    s.fs.Known (Env.coded z.toCodec) 1 ∧ s.fs.regular 1 = .ok (s.fs.inodes.slots 1) ∧
    c 1 = contents (tagged y) records ∧ s.fs.readFile (Env.coded z.toCodec) 1 ≠ .ok (c 1) := by
  obtain ⟨blocks, records, hlost⟩ := oversize
  refine ⟨blocks, records, fun z => ?_⟩
  obtain ⟨y, past, s, s', run, h⟩ := hlost z
  obtain ⟨past', c, hc, hdata⟩ := h.filed run
  refine ⟨y, past', s', c, hc, h.blocks, h.apart, h.known, h.regular, hdata, ?_⟩
  unfold FS.readFile
  rw [h.regular, ok_bind]
  exact h.data _

end Runs
end BloomFS
