/-
Scripts in the plain environment.

The hash of `Env.plain` keeps the length and the first bytes of a block, so whether
the contents of a script collide is seen from their beginnings.  What a script does depends
on the clock and on the order of hash sets only, so it is the same whatever the codec.
-/
import BloomFS.Refine.Script

namespace BloomFS
namespace Refine

open Bytes Exec Block Dir Fs Store Spec

/-! ## Contents of one record -/

section Charges

variable {b : Bytes}

theorem splitRecords_small {rs : Nat} (hlen : b.length ≤ rs) (hne : b ≠ []) :
    splitRecords b rs = [b] := by
  have hpos := List.length_pos_of_ne_nil hne
  have hrs : 0 < rs := by omega
  have hone : (splitRecords b rs).length = 1 := by
    rw [length_splitRecords]
    have hge := divCeil_pos hrs hpos
    have hle : ¬ 1 < divCeil b.length rs := by
      rw [lt_divCeil_iff hrs]
      omega
    omega
  obtain ⟨x, hx⟩ := List.length_eq_one_iff.mp hone
  have hflat : (splitRecords b rs).flatten = b := flatten_splitRecords hrs
  rw [hx, List.flatten_cons, List.flatten_nil, List.append_nil] at hflat
  rw [hx, hflat]

theorem chargeAt_small {k : Nat} (hk : 12 ≤ k) (hlen : b.length ≤ 4096) (hne : b ≠ []) :
    chargeAt b k = [.record b] := by
  have hrs : 4096 ≤ 2 ^ k := Nat.pow_le_pow_right Nat.two_pos hk
  unfold chargeAt
  rw [splitRecords_small (hlen.trans hrs) hne]
  rfl

theorem charge_small (hlen : b.length ≤ 4096) :
    (∀ c ∈ charge b, c = .record b ∧ b ≠ []) ∧ price (charge b) ≤ 16 := by
  by_cases hne : b = []
  · subst hne
    have hcharge : charge [] = [] := by
      unfold charge chargeAt
      simp only [splitRecords_nil]
      rfl
    rw [hcharge]
    exact ⟨fun _ h => absurd h List.not_mem_nil, Nat.zero_le _⟩
  · have hcharge : charge b = List.replicate 4 (.record b) := by
      unfold charge
      rw [chargeAt_small (by decide) hlen hne, chargeAt_small (by decide) hlen hne,
        chargeAt_small (by decide) hlen hne, chargeAt_small (by decide) hlen hne]
      rfl
    have hclusters : clusters b.length ≤ 1 := clusters_mono hlen
    have hprice : Charge.price (.record b) ≤ 4 := by
      show 2 * (clusters b.length + 1) ≤ 4
      omega
    rw [hcharge]
    refine ⟨fun c hc => ⟨List.eq_of_mem_replicate hc, hne⟩, ?_⟩
    unfold price
    simp only [List.replicate, List.map_cons, List.map_nil, List.sum_cons, List.sum_nil]
    omega

/-- Short contents are stored whole, so a block that they write is one of them. -/
theorem paid_of_covering {t : State} (hsmall : ∀ p ∈ t.paid, p.blob.length ≤ 4096) {b : Bytes}
    (h : Covering t.log b) : ∃ p ∈ t.paid, p.blob = b ∧ b ≠ [] := by
  obtain ⟨c, hc, hb⟩ := h
  obtain ⟨p, hp, hc⟩ := List.mem_flatMap.mp hc
  obtain ⟨rfl, hne⟩ := (charge_small (hsmall p hp)).1 c hc
  cases hb
  exact ⟨p, hp, rfl, hne⟩

theorem price_small {l : List Payment} (h : ∀ p ∈ l, p.blob.length ≤ 4096) :
    price (l.flatMap fun p => charge p.blob) ≤ 16 * l.length := by
  induction l with
  | nil => exact Nat.zero_le _
  | cons p l ih =>
    have hhead := (charge_small (h p List.mem_cons_self)).2
    have htail := ih fun q hq => h q (List.mem_cons_of_mem _ hq)
    rw [List.flatMap_cons, price_append, List.length_cons]
    omega

/-- Short contents with different hashes can be stored side by side. -/
theorem clear_of_paid {env : Env} {t : State} (hl : env.Lawful)
    (hstor : ∀ b, b ≠ [] → Storable env b) (hsmall : ∀ p ∈ t.paid, p.blob.length ≤ 4096)
    (hapart : ∀ p ∈ t.paid, ∀ q ∈ t.paid, env.blake3 p.blob = env.blake3 q.blob → p.blob = q.blob)
    (hfew : t.paid.length < 2 ^ 27) : Clear env t.log ∧ price t.log ≤ 16 * t.paid.length := by
  have hle : price t.log ≤ 16 * t.paid.length := price_small hsmall
  refine ⟨⟨hl, ?_, ?_, ?_, ?_⟩, hle⟩
  · intro b b' hb hb' heq
    obtain ⟨p, hp, rfl, -⟩ := paid_of_covering hsmall hb
    obtain ⟨q, hq, rfl, -⟩ := paid_of_covering hsmall hb'
    exact hapart p hp q hq heq
  · intro b hb
    obtain ⟨p, hp, rfl, -⟩ := paid_of_covering hsmall hb
    exact Nat.lt_of_le_of_lt (hsmall p hp) (by decide)
  · intro b hb
    obtain ⟨-, -, -, hne⟩ := paid_of_covering hsmall hb
    exact hstor b hne
  · omega

end Charges

/-! ## Beginnings -/

/-- The first bytes of a block, zeros after its end. -/
def start (b : Bytes) : List UInt8 := (List.range 24).map (b.getD · 0)

theorem getD_start {b : Bytes} {k : Nat} (hk : k < 24) : (start b).getD k 0 = b.getD k 0 := by
  simp only [start, List.getD_eq_getElem?_getD, List.getElem?_map, List.getElem?_range hk,
    Option.map_some, Option.getD_some]

theorem plain_apart {b b' : Bytes} (hb : b.length < 2 ^ 64) (hb' : b'.length < 2 ^ 64)
    (h : Env.plain.blake3 b = Env.plain.blake3 b') : b.length = b'.length ∧ start b = start b' := by
  have hget : ∀ i, i < 32 →
      (leBytes 8 b.length ++ b).getD i 0 = (leBytes 8 b'.length ++ b').getD i 0 := by
    intro i hi
    have hv := congrArg (fun v : Vector UInt8 32 => v.toList.getD i 0) h
    simpa [Env.plain, toVec, hi] using hv
  have hlen : leBytes 8 b.length = leBytes 8 b'.length := by
    refine ext_getD (by rw [length_leBytes, length_leBytes]) fun i hi => ?_
    rw [length_leBytes] at hi
    have hi' := hget i (by omega)
    rwa [getD_append_left (by rw [length_leBytes]; exact hi),
      getD_append_left (by rw [length_leBytes]; exact hi)] at hi'
  refine ⟨?_, List.map_congr_left fun i hi => ?_⟩
  · exact leBytes_inj hb hb' hlen
  · have hi' := hget (8 + i) (by have := List.mem_range.mp hi; omega)
    rwa [getD_append_right (by rw [length_leBytes]; omega),
      getD_append_right (by rw [length_leBytes]; omega), length_leBytes, length_leBytes,
      Nat.add_sub_cancel_left] at hi'

/-- An environment that differs from the plain one in its codec at most. -/
structure Ground (env : Env) : Prop where
  lawful : env.Lawful
  blake3 : env.blake3 = Env.plain.blake3
  clock : env.clock = Env.plain.clock
  order : env.order = Env.plain.order
  encodes : ∀ b, ∃ c, env.encodeAll b = some c ∧ (b ≠ [] → c ≠ [])

theorem ground_plain : Ground Env.plain := ⟨Env.plain_lawful, rfl, rfl, rfl, fun b => ⟨b, rfl, id⟩⟩

theorem ground_coded (z : Codec) : Ground (Env.coded z) :=
  ⟨Env.coded_lawful z, rfl, rfl, rfl, fun b => ⟨z.encode b, rfl, z.encode_ne b⟩⟩

section Ground

variable {env : Env} (g : Ground env)

include g

theorem Ground.codec (b : Bytes) : ∃ c, env.encodeAll b = some c := by
  obtain ⟨c, hc, -⟩ := g.encodes b
  exact ⟨c, hc⟩

theorem Ground.storable {b : Bytes} (h : b ≠ []) : Storable env b := by
  obtain ⟨c, hc, hne⟩ := g.encodes b
  refine ⟨c, hc, ?_⟩
  unfold payloadOf
  split
  · exact h
  · exact hne h

theorem Ground.apart {b b' : Bytes} (hb : b.length < 2 ^ 64) (hb' : b'.length < 2 ^ 64)
    (h : env.blake3 b = env.blake3 b') : b.length = b'.length ∧ start b = start b' := by
  rw [g.blake3] at h
  exact plain_apart hb hb' h

theorem Ground.fresh : fresh env = fresh Env.plain := by
  unfold Refine.fresh
  rw [g.clock]

theorem Ground.script {C : View → Op → Prop} [∀ v op, Decidable (C v op)] (ops : List Op)
    (t : State) (handles : List Handle) :
    script env C ops t handles = script Env.plain C ops t handles :=
  script_congr (fun handles op => planOf_congr g.clock g.order handles op) ops t handles

end Ground

/-- What the hash of the contents depends on, without building them. -/
def sketch : Payment → Nat × List UInt8
  | .data b => (b.length, start b)
  | .dir pages => (pages.length * dirPageSize, start (pages.flatMap pageBody))

/-- The contents fit one record. -/
def Slight : Payment → Prop
  | .data b => b.length ≤ 4096
  | .dir pages => pages.length ≤ 1 ∧ ∀ c ∈ pages, pageUsed c ≤ dirPageSize

instance (p : Payment) : Decidable (Slight p) :=
  match p with
  | .data _ => inferInstanceAs (Decidable (_ ≤ _))
  | .dir _ => inferInstanceAs (Decidable (_ ∧ _))

theorem sketch_eq {p : Payment} (h : Slight p) : sketch p = (p.blob.length, start p.blob) := by
  cases p with
  | data b => rfl
  | dir pages =>
    obtain ⟨hone, hfits⟩ := h
    match pages, hone with
    | [], _ => rfl
    | [c], _ =>
      have hlen := length_pageBytes (hfits c List.mem_cons_self)
      have hstart : start (pageBody c) = start (pageBytes c) :=
        List.map_congr_left fun i _ => (getD_extend ..).symm
      show (1 * dirPageSize, start (pageBody c ++ [])) =
        ((pageBytes c ++ []).length, start (pageBytes c ++ []))
      rw [List.append_nil, List.append_nil, hlen, hstart, Nat.one_mul]

/-- All contents fit one record, and they differ in their sketches. -/
def Sketched (paid : List Payment) : Prop :=
  (∀ p ∈ paid, Slight p) ∧ ∀ p ∈ paid, ∀ q ∈ paid, sketch p = sketch q → p = q

instance (paid : List Payment) : Decidable (Sketched paid) := inferInstanceAs (Decidable (_ ∧ _))

theorem Slight.length_le {p : Payment} (h : Slight p) : p.blob.length ≤ 4096 := by
  cases p with
  | data b => exact h
  | dir pages =>
    have hlen : (sketch (.dir pages)).1 = (Payment.dir pages).blob.length := by rw [sketch_eq h]
    rw [← hlen]
    have := Nat.mul_le_mul_right dirPageSize h.1
    exact this

theorem Sketched.clear {env : Env} (g : Ground env) {t : State} (h : Sketched t.paid)
    (hfew : t.paid.length < 2 ^ 27) : Clear env t.log ∧ price t.log ≤ 16 * t.paid.length := by
  refine clear_of_paid g.lawful (fun b => g.storable) (fun p hp => (h.1 p hp).length_le)
    (fun p hp q hq heq => ?_) hfew
  have hp' := (h.1 p hp).length_le
  have hq' := (h.1 q hq).length_le
  obtain ⟨hlen, hstart⟩ := g.apart (by omega) (by omega) heq
  have hsame : sketch p = sketch q := by
    rw [sketch_eq (h.1 p hp), sketch_eq (h.1 q hq), hlen, hstart]
  rw [h.2 p hp q hq hsame]

/-! ## A device for scripts -/

/-- A device with room for a few hundred blocks. -/
def smallDisk : Disk := Disk.zeroed 8192 (by decide)

theorem metaSound_smallDisk : Cow.MetaSound smallDisk := ⟨fun _ => rfl, fun _ => rfl, fun _ => rfl⟩

theorem start_sized {env : Env} (g : Ground env) {t : State} {n w : Nat} (h64 : n < 2 ^ 64)
    (hn : n < 2 ^ 34) (hslot : Cow.slotBlocks n defaultInodeCount defaultDdtReserve = w)
    (hroom : 2 + 2 * w + 16 * t.paid.length ≤ n) (hpos : 2 + 2 * w < n) (hsketch : Sketched t.paid)
    (hfew : t.paid.length ≤ 256) : ∃ fs, format env none (Disk.zeroed n h64) = .ok fs ∧
      Clear env t.log ∧ Track env t.log (2 ^ 33) ⟨fs, []⟩ (fresh env) := by
  obtain ⟨hclear, hprice⟩ := hsketch.clear g (by omega)
  have hrec : Dedup.Table.recSize = 57 := rfl
  have hres : defaultDdtReserve = 262144 := rfl
  have hcap : defaultInodeCount * Inode.inodeSize = 524288 := rfl
  have hform : Cow.Formattable n defaultInodeCount defaultDdtReserve := by
    refine ⟨?_, ?_⟩
    · rw [hcap, hres]
      omega
    · rw [hslot]
      omega
  have hblank : Blank (Disk.zeroed n h64) := blank_zeroed _ _
  have hformat : ∃ fs, format env none (Disk.zeroed n h64) = .ok fs :=
    format_succeeds hblank.nothingNewer ⟨fun _ => rfl, fun _ => rfl, fun _ => rfl⟩ rfl hform hn
  obtain ⟨fs, hfs⟩ := hformat
  refine ⟨fs, hfs, hclear, ?_⟩
  refine Track.start (formatted_of_ok hblank hfs) (reliable_zeroed _ _) ?_ ?_ (by decide)
  · show 2 + 2 * Cow.slotBlocks n defaultInodeCount defaultDdtReserve + price t.log ≤ n
    rw [hslot]
    omega
  · rw [hrec, hres]
    omega

theorem start_format {t : State} (hsketch : Sketched t.paid) (hfew : t.paid.length ≤ 256) :
    Clear Env.plain t.log ∧ Blank smallDisk ∧ ∃ fs, format Env.plain none smallDisk = .ok fs ∧
      Track Env.plain t.log (2 ^ 33) ⟨fs, []⟩ (fresh Env.plain) := by
  have hslot : Cow.slotBlocks 8192 defaultInodeCount defaultDdtReserve = 193 := by decide
  obtain ⟨fs, hfs, hclear, htrack⟩ := start_sized ground_plain (by decide) (by decide) hslot
    (by omega) (by decide) hsketch hfew
  exact ⟨hclear, blank_zeroed _ _, fs, hfs, htrack⟩

theorem start_track {t : State} (hsketch : Sketched t.paid) (hfew : t.paid.length ≤ 256)
    {D : Disk → Prop} {P : Session → Op → Outcome → Prop} (hD : D smallDisk) :
    Clear Env.plain t.log ∧ ∃ fs, Run Env.plain D P [⟨fs, []⟩] ⟨fs, []⟩ ∧
      Track Env.plain t.log (2 ^ 33) ⟨fs, []⟩ (fresh Env.plain) := by
  obtain ⟨hclear, hblank, fs, hfs, htrack⟩ := start_format hsketch hfew
  exact ⟨hclear, fs, .start hblank hD hfs, htrack⟩

theorem start_life {t : State} (hsketch : Sketched t.paid) (hfew : t.paid.length ≤ 256)
    {D : Disk → Prop} {P : Session → Op → Outcome → Prop} {R : Session → Prop} (hD : D smallDisk) :
    Clear Env.plain t.log ∧ ∃ fs, Life Env.plain D P R [] ⟨fs, []⟩ ∧
      Track Env.plain t.log (2 ^ 33) ⟨fs, []⟩ (fresh Env.plain) := by
  obtain ⟨hclear, hblank, fs, hfs, htrack⟩ := start_format hsketch hfew
  exact ⟨hclear, fs, .start hblank hD hfs, htrack⟩

/-- A script of fair operations with short contents is run by the file system. -/
theorem run_script {C : View → Op → Prop} [∀ v op, Decidable (C v op)] {ops : List Op} {t : State}
    {handles : List Handle} {D : Disk → Prop} {P : Session → Op → Outcome → Prop} (hD : D smallDisk)
    (hC : ∀ v op, C v op → Fair v op)
    (hP : ∀ past s t op r, Run Env.plain D P past s → Plays op → Rep Env.plain s.fs t →
      Orderly t.view s.handles → C t.view op → P s op (.ok r))
    (hops : ∀ op ∈ ops, Plays op) (hshort : ops.length ≤ 2 ^ 32)
    (hscript : script Env.plain C ops (fresh Env.plain) [] = some (t, handles))
    (hsketch : Sketched t.paid) (hfew : t.paid.length ≤ 256) :
    Clear Env.plain t.log ∧ ∃ past s, Run Env.plain D P past s ∧ s.handles = handles ∧
      Track Env.plain t.log (2 ^ 32) s t ∧ Orderly t.view handles := by
  obtain ⟨hclear, fs, run, htrack⟩ := start_track hsketch hfew hD
  exact ⟨hclear, fair_exact hclear hC hP hops run (htrack.mono (by omega)) (orderly_fresh _) hscript
    (List.prefix_refl _)⟩

end Refine
end BloomFS
