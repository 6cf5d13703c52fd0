/-
The record layout.

In every state of a run the size and the record size of an inode say how many refs it has and
how long each record is; a write keeps the record size and the refs of the records it does not
reach.
-/
import BloomFS.Runs.Oversize

namespace BloomFS
namespace Runs

open Bytes Exec Block Fs Store Spec Refine

variable {env : Env} {D : Disk → Prop} {past : List Session} {s s' : Session}

/-- The layout of one inode. -/
structure LaidOut (env : Env) (s : FS) (in_ : Inode) : Prop where
  empty : in_.size = 0 → s.loadRefs env in_ = .ok []
  log2 : in_.size ≠ 0 → 12 ≤ in_.recordSizeLog2.toNat ∧ in_.recordSizeLog2.toNat ≤ 15
  refs : in_.size ≠ 0 → ∃ refs, s.loadRefs env in_ = .ok refs ∧
    refs.length = divCeil in_.size.toNat (2 ^ in_.recordSizeLog2.toNat) ∧
    (∀ i r, refs[i]? = some r → r.logical.toNat =
      min (2 ^ in_.recordSizeLog2.toNat) (in_.size.toNat - i * 2 ^ in_.recordSizeLog2.toNat)) ∧
    (isInline in_ = true ↔ refs.length = 1)
  dir : in_.kind = Inode.typeDir → (in_.size ≠ 0 → in_.recordSizeLog2 = 12) ∧ 4096 ∣ in_.size.toNat

theorem logical_of_names {s : FS} {r : Ref} {b : Bytes} (h : Names env s r b) :
    r.logical.toNat = b.length := by
  obtain ⟨e, -, hr, hstored⟩ := h
  obtain ⟨c, -, he, -⟩ := hstored.form
  have hshort := hstored.short
  rw [hr, he]
  show (UInt32.ofNat b.length).toNat = b.length
  rw [UInt32.toNat_ofNat', Nat.mod_eq_of_lt hshort]

theorem laidOut_of_rep (hl : env.Lawful) {s : FS} {t : State} (h : Rep env s t)
    (hn : Neat t) {id : Nat} (hid : id < s.inodes.cap) : LaidOut env s (s.inodes.slots id) := by
  obtain ⟨refs, lost, hf, -⟩ := h.filled
  have hlaid := hf.laid id hid
  have hm := h.nodes id hid
  have hsize := hlaid.size
  refine ⟨fun h0 => ?_, hlaid.log2, fun h0 => ⟨refs id, hlaid.loadRefs hl, ?_,
    fun i r hr => ?_, ?_⟩, fun hk => ?_⟩
  · rw [hlaid.loadRefs hl, hlaid.empty h0]
  · rw [(hlaid.records h0).length_eq, length_splitRecords, hsize]
  · obtain ⟨hlt, hget⟩ := List.getElem?_eq_some_iff.mp hr
    have hrec := hlaid.records h0
    have hlt' := hlt
    rw [hrec.length_eq] at hlt'
    have hnames := hrec.get hlt hlt'
    rw [List.get_eq_getElem, List.get_eq_getElem, hget] at hnames
    rw [logical_of_names hnames]
    rw [length_splitRecords] at hlt'
    have hsome := (List.getElem?_eq_some_iff.mp (getElem?_splitRecords hlt')).2
    rw [hsome, length_slice, hsize]
  · constructor
    · intro hin
      rw [hlaid.inline h0 hin]
      rfl
    · intro hone
      by_contra hin
      have := hlaid.several h0 (by simpa using hin)
      omega
  · have hd : (t.node id).isDir := hm.kind.symm.trans hk
    refine ⟨hm.paged hd, ?_⟩
    rw [hsize, Node.blob_of_dir hd, length_dirBytes (hn id (h.cap ▸ hid) hd).fits]
    exact Dvd.intro_left _ rfl

theorem readAt_ne_panic (hl : env.Lawful) {s : FS} {t : State} (h : Rep env s t)
    {id off length : Nat}
    (hlen : off + length < 2 ^ 64) : s.readAt env id off length ≠ .error .panic := by
  rcases regular_run h id with ⟨e, hreg, -⟩ | ⟨hid, hk, hreg, -⟩
  · unfold FS.readAt
    rw [hreg]
    intro hp
    cases hp
  · rw [h.readAt hl hid hreg (not_isDir_of_regular hk)]
    split
    · intro hp
      cases hp
    · rw [if_neg (by omega)]
      intro hp
      cases hp

/-- What a write leaves of the layout of its file. -/
theorem writeAt_carried (hl : env.Lawful) {s : FS} {t : State} (h : Rep env s t) {id off : Nat}
    {data : Bytes} (hdata : data ≠ []) :
    Under (calm env .unbounded) (writeAt id off data) s
      (fun _ s' => ∃ refs, s.loadRefs env (s.inodes.slots id) = .ok refs ∧
        Carried env s' (s.inodes.slots id) (s'.inodes.slots id) refs
        (s.inodes.slots id).size.toNat off
          data.length)
      (fun _ _ => True) := by
  unfold Fs.writeAt
  refine under_get_bind ?_
  rcases regular_run h id with ⟨e, hreg, -⟩ | ⟨hid, hk, hreg, -⟩
  · rw [hreg]
    exact under_bind (Q := fun _ _ => False) (under_ofExcept (fun _ ha => by cases ha)
      fun _ _ => trivial) (fun _ _ _ hf => hf.elim) fun _ _ he => he
  have hnd := not_isDir_of_regular hk
  obtain ⟨refs, lost, hf, hclean⟩ := h.filled
  have hlaid := hf.laid id hid
  have hload := hlaid.loadRefs hl
  have hst := hf.stocked
  rw [total_eq hid, add_assoc] at hst
  refine under_bind (Q := fun in_ s' => in_ = s.inodes.slots id ∧ s' = s) (E := fun _ _ => True)
    (under_ok hreg ⟨rfl, rfl⟩) ?_ fun _ _ he => he
  rintro _ _ - ⟨rfl, rfl⟩
  by_cases hlen : 2 ^ 64 ≤ off + data.length
  · refine under_bind (Q := fun _ _ => False) (E := fun _ _ => True) ?_ (fun _ _ _ hf => hf.elim)
      fun _ _ he => he
    unfold writeAtLocked
    rw [if_neg (by simpa using hdata)]
    refine under_get_bind (under_bind (Q := fun _ _ => True) (under_ok hload trivial) ?_
      fun _ _ he => he)
    intro _ _ _ _
    rw [if_pos hlen]
    exact under_panic trivial
  · refine under_bind ((writeAtLocked_under hl trivial hst hlaid h.logged hid hdata (by omega)).mono
      (fun new s' hq => hq) fun _ _ _ => trivial) ?_ fun _ _ he => he
    rintro new s' - ⟨hr, hcarried⟩
    obtain ⟨-, hslots, -⟩ := putAt_spec hid hr.put
    refine under_pure ⟨refs id, hload, ?_⟩
    rw [hslots, Function.update_self, hlaid.size]
    exact hcarried

/-- The slices that record `i` of a write takes of the new record and of the data. -/
def SlicesInRange (newSize rs off len i : Nat) : Prop :=
  i * rs < min (i * rs + rs) newSize ∧
    (max off (i * rs) < min (off + len) (min (i * rs + rs) newSize) →
      min (off + len) (min (i * rs + rs) newSize) - i * rs ≤ min (i * rs + rs) newSize - i * rs ∧
        min (off + len) (min (i * rs + rs) newSize) - off ≤ len)

theorem slicesInRange {newSize rs off len i : Nat} (hrs : 0 < rs) (hi : i < divCeil newSize rs) :
    SlicesInRange newSize rs off len i := by
  have hlt : i * rs < newSize := (lt_divCeil_iff hrs).mp hi
  exact ⟨by omega, fun _ => ⟨by omega, by omega⟩⟩

/-- In every state of a run each inode is laid out by its size and record size, no read goes
out of bounds, and a write to a file that is not empty keeps the record size and the refs of
the records it does not reach. -/
theorem layout_kept (hl : env.Lawful) (run : Run env D (Proper env) past s)
    (hplay : InPlay env s.fs.dev.trace) :
    (∀ id < s.fs.inodes.cap, LaidOut env s.fs (s.fs.inodes.slots id)) ∧
    (∀ id off length, off + length < 2 ^ 64 → s.fs.readAt env id off length ≠ .error .panic) ∧
    ∀ id off data r s', data ≠ [] → (s.fs.inodes.slots id).size ≠ 0 →
      perform env (.writeAt id off data) s = (.ok r, s') → InPlay env s'.fs.dev.trace →
      (s'.fs.inodes.slots id).recordSizeLog2 = (s.fs.inodes.slots id).recordSizeLog2 ∧
      (∀ i < divCeil (max (s.fs.inodes.slots id).size.toNat (off + data.length))
          (2 ^ (s.fs.inodes.slots id).recordSizeLog2.toNat),
        SlicesInRange (max (s.fs.inodes.slots id).size.toNat (off + data.length))
          (2 ^ (s.fs.inodes.slots id).recordSizeLog2.toNat) off data.length i) ∧
      ∃ refs refs', s.fs.loadRefs env (s.fs.inodes.slots id) = .ok refs ∧
        s'.fs.loadRefs env (s'.fs.inodes.slots id) = .ok refs' ∧
        ∀ i old, refs[i]? = some old →
          Beyond (s.fs.inodes.slots id).size.toNat
            (max (s.fs.inodes.slots id).size.toNat (off + data.length))
            (2 ^ (s.fs.inodes.slots id).recordSizeLog2.toNat) off data.length i →
          refs'[i]? = some old := by
  obtain ⟨t, hrep, ha, -⟩ := proper_tidy hl run hplay
  refine ⟨fun id hid => laidOut_of_rep hl hrep ha.ready.neat hid,
    fun id off length hlen => readAt_ne_panic hl hrep hlen,
    fun id off data r s' hdata hsize does hplay' => ?_⟩
  have hcall : call env (.writeAt id off data) s = (.ok r, s') := does
  unfold call at hcall
  cases hx : (writeAt id off data : Act env Unit).1 s.fs with
  | error f fs =>
    have hexec : execOf env s.handles (.writeAt id off data) s.fs = .error f fs := bind_of_error hx
    rw [hexec] at hcall
    cases hcall
  | ok a fs =>
    have hexec : execOf env s.handles (.writeAt id off data) s.fs = .ok .unit fs := bind_of_ok hx
    rw [hexec] at hcall
    cases hcall
    obtain ⟨refs, hload, hcarried⟩ :=
      (writeAt_carried hl hrep hdata).ok hx (Budget.not_broken_of_inPlay hplay')
    obtain ⟨refs', hload', hkept⟩ := hcarried.refs
    exact ⟨hcarried.log2 hsize, fun i hi => slicesInRange (Nat.two_pow_pos _) hi, refs, refs',
      hload, hload', hkept hsize⟩

/-- A file of 64 records with their block map, and a read that goes from one record to the
next. -/
theorem layout_kept_mapped : ∃ past s, Run Env.plain Disk.Reliable (Proper Env.plain) past s ∧
    InPlay Env.plain s.fs.dev.trace ∧ (s.fs.inodes.slots 1).size = 2097152 ∧
    isInline (s.fs.inodes.slots 1) = false ∧ LaidOut Env.plain s.fs (s.fs.inodes.slots 0) ∧
    LaidOut Env.plain s.fs (s.fs.inodes.slots 1) ∧
    s.fs.readAt Env.plain 1 32760 16 ≠ .error .panic := by
  have hslot : Cow.slotBlocks 8192 defaultInodeCount defaultDdtReserve = 193 := by decide
  obtain ⟨past, s, run, h, -, hproper⟩ := oneFile ground_plain (by decide) hslot (by decide)
  have hwrite := h.writeFile ground_plain length_zeros (m := 64) (by decide) (by decide) (by decide)
  cases hr : (writeFile 1 (contents zeros 64) : Act Env.plain Unit).1 s.fs with
  | error f fs => exact (hwrite.error hr).elim
  | ok a fs =>
    obtain ⟨-, -, refs, p, hwritten⟩ := hwrite.ok hr
    have hrefs : refs.length = 64 := by
      rw [hwritten.length, List.length_map, List.length_range]
    have hexec : execOf Env.plain s.handles (.writeFile 1 (contents zeros 64)) s.fs =
        .ok .unit fs := bind_of_ok hr
    have hdoes : perform Env.plain (.writeFile 1 (contents zeros 64)) s =
        (.ok .unit, ⟨fs, s.handles⟩) := by
      show call Env.plain _ s = _
      rw [call, hexec]
      rfl
    have run' := run.step hdoes (hproper _ _)
    have hplay : InPlay Env.plain fs.dev.trace := by
      refine ⟨h.apart ground_plain length_zeros (by decide) hrefs hwritten.adds, fun b hb => ?_⟩
      rcases hwritten.adds.hashed b hb with hb | hb
      · have := (h.hashed b hb).1
        omega
      · rcases List.mem_append.mp hb with hb | hb
        · obtain ⟨i, -, rfl⟩ := List.mem_map.mp hb
          rw [length_record length_zeros]
          decide
        · rw [List.mem_singleton.mp hb, length_encodeRefs, hrefs]
          decide
    have hcap : 1 < fs.inodes.cap := by
      have hsteady := (steady_closed s.fs).of_perform (steady_commit s.fs)
        (show Op.InSession (.writeFile 1 _) from trivial) hdoes (.refl _)
      exact hsteady.cap ▸ h.cap
    obtain ⟨hlaid, hreads, -⟩ := layout_kept Env.plain_lawful run' hplay
    refine ⟨_, ⟨fs, s.handles⟩, run', hplay, ?_, hwritten.mapped.inline,
      hlaid 0 (show 0 < fs.inodes.cap by omega), hlaid 1 hcap, hreads 1 32760 16 (by decide)⟩
    rw [hwritten.mapped.size, length_contents length_zeros]
    rfl

/-- Whatever the codec, there is a file of `2^28` records whose refs are not found, although no
two blocks collide. -/
theorem layout_lost : ∃ blocks records, ∀ z : FrameCodec, ∃ y past s s',
    Run (Env.coded z.toCodec) Disk.Reliable (Proper (Env.coded z.toCodec)) past s ∧
    s.fs.dev.blocks = blocks ∧
    perform (Env.coded z.toCodec) (.writeFile 1 (contents (tagged y) records)) s' = (.ok .unit, s) ∧
    (∀ b b', .hash b ∈ s.fs.dev.trace → .hash b' ∈ s.fs.dev.trace →
      (Env.coded z.toCodec).blake3 b = (Env.coded z.toCodec).blake3 b' → b = b') ∧
    s.fs.Known (Env.coded z.toCodec) 1 ∧ (s.fs.inodes.slots 1).size ≠ 0 ∧
    ∀ refs, s.fs.loadRefs (Env.coded z.toCodec) (s.fs.inodes.slots 1) ≠ .ok refs := by
  obtain ⟨blocks, records, hlost⟩ := oversize
  refine ⟨blocks, records, fun z => ?_⟩
  obtain ⟨y, past, s, s', run, h⟩ := hlost z
  exact ⟨y, _, s', s, run.step h.does h.proper, h.blocks, h.does, h.apart, h.known, h.size, h.refs⟩

end Runs
end BloomFS
