/-
What each call of the data path does to a pool.

`Wrote` and `WriteFailed` list the outcomes of `write`, `Released` those of
`release`.  Every invariant of the store is proved from
these lists, without looking at the code again.
-/
import BloomFS.Store.BlockStore

namespace BloomFS
namespace Store

open Bytes Exec Block

variable (env : Env) (bs : BlockStore)

/-- The block writes that store `payload` at `start`. -/
def dataEvents (payload : Bytes) (start count : Nat) : List Event :=
  (List.range count).map fun i => .write .data (start + i) (sector env bs payload start i)

/-- The entry of a freshly stored block, its lengths cut to 32 bits. -/
def freshEntry (plaintext : Bytes) (stored : Bytes × Bool) (start : Nat) : Dedup.Entry where
  start := UInt64.ofNat start
  count := UInt32.ofNat (clusters stored.1.length)
  payload := UInt32.ofNat stored.1.length
  logical := UInt32.ofNat plaintext.length
  raw := stored.2
  refs := 0

/-- The two ways `write` succeeds. -/
inductive Wrote (b : Bytes) (p : Pool) : Ref → Pool → Prop
  | hit {e : Dedup.Entry} {ddt : Dedup.Table} {f : Bool} {p' : Pool}
      (hlook : p.ddt.lookup (env.blake3 b) = some e)
      (hincr : p.ddt.incr (env.blake3 b) = some (f, ddt))
      (hbm : p'.bm = p.bm) (hddt : p'.ddt = ddt) (hdev : Disk.Extends p.dev p'.dev [.hash b]) :
      Wrote b p (refFrom (env.blake3 b) e) p'
  | miss {c : Bytes} {start : Nat} {bm : Alloc.Bitmap} {p' : Pool}
      (hlook : p.ddt.lookup (env.blake3 b) = none)
      (henc : env.encodeAll b = some c)
      (halloc : p.bm.alloc (clusters (payloadOf b c).1.length) = .ok (start, bm))
      (hin : start + clusters (payloadOf b c).1.length ≤ p.dev.blocks)
      (hbm : p'.bm = bm)
      (hddt : p'.ddt = p.ddt.add (env.blake3 b) (freshEntry b (payloadOf b c) start))
      (hdev : Disk.Extends p.dev p'.dev (.hash b ::
        dataEvents env bs (payloadOf b c).1 start (clusters (payloadOf b c).1.length))) :
      Wrote b p (refFrom (env.blake3 b) (freshEntry b (payloadOf b c) start)) p'

/-- The ways `write` fails: before it touches the bitmap, or on a device write,
after which the clusters are free again. -/
inductive WriteFailed (b : Bytes) (p : Pool) : Fault Error → Pool → Prop
  | overflow {p' : Pool} {e : Dedup.Entry} (hlook : p.ddt.lookup (env.blake3 b) = some e)
      (hincr : p.ddt.incr (env.blake3 b) = none) (hbm : p'.bm = p.bm) (hddt : p'.ddt = p.ddt)
      (hdev : Disk.Extends p.dev p'.dev [.hash b]) : WriteFailed b p .panic p'
  | compress {p' : Pool} (henc : env.encodeAll b = none) (hbm : p'.bm = p.bm)
      (hddt : p'.ddt = p.ddt)
      (hdev : Disk.Extends p.dev p'.dev [.hash b]) : WriteFailed b p (.err .compress) p'
  | alloc {p' : Pool} {c : Bytes} {e : Alloc.Error} (henc : env.encodeAll b = some c)
      (halloc : p.bm.alloc (clusters (payloadOf b c).1.length) = .error e)
      (hbm : p'.bm = p.bm) (hddt : p'.ddt = p.ddt)
      (hdev : Disk.Extends p.dev p'.dev [.hash b]) : WriteFailed b p (.err (.alloc e)) p'
  | device {p' : Pool} {c : Bytes} {start : Nat} {bm : Alloc.Bitmap} {es : List Event}
      {e : Fault Error} (henc : env.encodeAll b = some c)
      (halloc : p.bm.alloc (clusters (payloadOf b c).1.length) = .ok (start, bm))
      (hbm : p'.bm = bm.free start (clusters (payloadOf b c).1.length)) (hddt : p'.ddt = p.ddt)
      (hdev : Disk.Extends p.dev p'.dev (.hash b :: es))
      (hes : ∀ ev ∈ es, ∃ i left, i < clusters (payloadOf b c).1.length ∧
        ev = .write .data (start + i) left)
      (hfault : p.dev.Sound (.write .data) → p.bm.total ≤ p.dev.blocks →
        (∀ i, i < clusters (payloadOf b c).1.length →
          (sector env bs (payloadOf b c).1 start i).length = Block.size) → False)
      (herr : ∃ e', e = .err (.block e')) : WriteFailed b p e p'

theorem noteHash_extends (d : Disk) (b : Bytes) : Disk.Extends d (d.note (.hash b)) [.hash b] :=
  Disk.note_extends d _ (by simp)

theorem onDev_writeBlock_sat (o : Origin) (num : Nat) (data : Bytes) (p : Pool) :
    Sat (onDev (Disk.writeBlock o num data)) p
      (fun _ p' => p'.bm = p.bm ∧ p'.ddt = p.ddt ∧ num < p.dev.blocks ∧
        Disk.Extends p.dev p'.dev [.write o num data])
      (fun e p' => p'.bm = p.bm ∧ p'.ddt = p.ddt ∧ (∃ e', e = .err (.block e')) ∧
        ∃ es, Disk.Extends p.dev p'.dev es ∧ (∀ ev ∈ es, ∃ left, ev = .write o num left) ∧
        (p.dev.Sound (.write o) → num < p.dev.blocks → data.length = Block.size → False)) := by
  have hwrite := Disk.writeBlock_sat o num data p.dev
  have hkind : Sat (Disk.writeBlock o num data) p.dev (fun _ _ => True)
      (fun e _ => ∃ e', e = .err e') := by
    unfold Sat Disk.writeBlock
    by_cases h1 : p.dev.blocks ≤ num
    · rw [if_pos h1]; exact ⟨_, rfl⟩
    rw [if_neg h1]
    by_cases h2 : data.length ≠ Block.size
    · rw [if_pos h2]; exact ⟨_, rfl⟩
    rw [if_neg h2]
    cases p.dev.fault (.write o) p.dev.calls with
    | none => trivial
    | some left => exact ⟨_, rfl⟩
  refine sat_zoom (hwrite.and hkind) ?_ ?_
  · rintro - d ⟨⟨hn, -, hx⟩, -⟩
    exact ⟨rfl, rfl, hn, hx⟩
  · rintro e d ⟨⟨hwhy, hx⟩, e', rfl⟩
    refine ⟨rfl, rfl, ⟨e', rfl⟩, ?_⟩
    have hno : p.dev.Sound (.write o) → num < p.dev.blocks → data.length = Block.size → False := by
      intro hs hn hl
      rcases hwhy with h | h | h
      · exact h hs
      · omega
      · exact h hl
    rcases hx with hx | ⟨-, left, hx⟩
    · exact ⟨[], hx, by simp, hno⟩
    · exact ⟨[.write o num left], hx, by simp, hno⟩

theorem writeClusters_sat (payload : Bytes) (start count : Nat) (p : Pool) :
    Sat ((List.range count).forM fun i =>
        onDev (Disk.writeBlock .data (start + i) (sector env bs payload start i))) p
      (fun _ p' => p'.bm = p.bm ∧ p'.ddt = p.ddt ∧ (∀ i < count, start + i < p.dev.blocks) ∧
        Disk.Extends p.dev p'.dev (dataEvents env bs payload start count))
      (fun e p' => p'.bm = p.bm ∧ p'.ddt = p.ddt ∧ (∃ e', e = .err (.block e')) ∧
        ∃ es, Disk.Extends p.dev p'.dev es ∧
        (∀ ev ∈ es, ∃ i left, i < count ∧ ev = .write .data (start + i) left) ∧
        (p.dev.Sound (.write .data) → start + count ≤ p.dev.blocks →
          (∀ i, i < count → (sector env bs payload start i).length = Block.size) → False)) := by
  refine Sat.mono (sat_forM (fun done p' => p'.bm = p.bm ∧ p'.ddt = p.ddt ∧
      (∀ i ∈ done, start + i < p.dev.blocks) ∧ Disk.Extends p.dev p'.dev
        (done.map fun i => .write .data (start + i) (sector env bs payload start i))) ?_
    ⟨rfl, rfl, by simp, Disk.Extends.refl _⟩) ?_ (fun _ _ h => h)
  · rintro done i rest p' hl ⟨hbm, hddt, hin, hx⟩
    have hmem : ∀ j ∈ done ++ i :: rest, j < count := fun j hj => List.mem_range.mp (hl ▸ hj)
    have hi : i < count := hmem i (by simp)
    refine Sat.mono (onDev_writeBlock_sat .data (start + i) _ p') ?_ ?_
    · rintro - p₁ ⟨hbm₁, hddt₁, hn, hx₁⟩
      refine ⟨hbm₁.trans hbm, hddt₁.trans hddt, ?_, ?_⟩
      · intro j hj
        rcases List.mem_append.mp hj with hj | hj
        · exact hin j hj
        · rw [List.mem_singleton.mp hj, ← hx.blocks]
          exact hn
      · rw [List.map_append]
        exact hx.trans hx₁
    · rintro e p₁ ⟨hbm₁, hddt₁, he, es, hx₁, hes, hno⟩
      refine ⟨hbm₁.trans hbm, hddt₁.trans hddt, he, _, hx.trans hx₁, ?_, ?_⟩
      · intro ev hev
        rcases List.mem_append.mp hev with hev | hev
        · obtain ⟨j, hj, rfl⟩ := List.mem_map.mp hev
          exact ⟨j, _, hmem j (List.mem_append_left _ hj), rfl⟩
        · obtain ⟨left, rfl⟩ := hes ev hev
          exact ⟨i, left, hi, rfl⟩
      · intro hsound hrange hlen
        exact hno (hx.sound hsound) (by rw [hx.blocks]; omega) (hlen i hi)
  · rintro - p' ⟨hbm, hddt, hin, hx⟩
    exact ⟨hbm, hddt, fun i hi => hin i (List.mem_range.mpr hi), hx⟩

theorem write_sat (b : Bytes) (p : Pool) :
    Sat (write env bs b) p (fun r p' => Wrote env bs b p r p')
      (fun e p' => WriteFailed env bs b p e p') := by
  have hnote := noteHash_extends p.dev b
  unfold write noteHash
  refine sat_modify_bind (sat_get_bind ?_)
  dsimp only
  cases hlook : p.ddt.lookup (env.blake3 b) with
  | some e =>
    refine sat_get_bind ?_
    dsimp only
    cases hincr : p.ddt.incr (env.blake3 b) with
    | none => exact sat_panic (.overflow hlook hincr rfl rfl hnote)
    | some r =>
      obtain ⟨f, ddt⟩ := r
      exact sat_modify_bind (sat_pure (.hit hlook hincr rfl rfl hnote))
  | none =>
    cases henc : env.encodeAll b with
    | none => exact sat_fail (.compress henc rfl rfl hnote)
    | some c =>
      refine sat_get_bind ?_
      dsimp only
      cases halloc : p.bm.alloc (clusters (payloadOf b c).1.length) with
      | error e => exact sat_fail (.alloc henc halloc rfl rfl hnote)
      | ok r =>
        obtain ⟨start, bm⟩ := r
        have hrun := (Alloc.Bitmap.alloc_ok halloc).2.1.1
        refine sat_modify_bind (sat_bind (sat_onFault
          (Sat.mono (writeClusters_sat env bs (payloadOf b c).1 start
            (clusters (payloadOf b c).1.length) _) (fun _ _ h => h) ?_)) ?_
          (fun _ _ h => h))
        · rintro e p₁ ⟨hbm₁, hddt₁, he, es, hx₁, hes, hno⟩
          refine .device henc halloc ?_ hddt₁ (hnote.trans hx₁) hes ?_ he
          · show p₁.bm.free _ _ = _
            rw [hbm₁]
          · intro hsound htotal hlen
            exact hno (hnote.sound hsound) (Nat.le_trans hrun htotal) hlen
        · rintro - p₁ ⟨hbm₁, hddt₁, hin, hx₁⟩
          have hpos : 0 < clusters (payloadOf b c).1.length :=
            Nat.lt_of_lt_of_le Nat.one_pos (le_max_right ..)
          have hlast := hin (clusters (payloadOf b c).1.length - 1) (by omega)
          have hroom : start + clusters (payloadOf b c).1.length ≤ p.dev.blocks := by
            rw [← hnote.blocks]
            show _ ≤ (p.dev.note (.hash b)).blocks
            dsimp only at hlast
            omega
          refine sat_modify_bind (sat_pure (.miss hlook henc halloc hroom hbm₁ ?_
            (hnote.trans hx₁)))
          show p₁.ddt.add _ _ = _
          rw [hddt₁]
          rfl

/-- The ways `release` succeeds: the block is not tracked, it has other
references, or this was the last one and its clusters are deferred. -/
inductive Released (r : Ref) (p : Pool) : Pool → Prop
  | absent (hlook : p.ddt.lookup r.hash = none) : Released r p p
  | shared {e e' : Dedup.Entry} (hlook : p.ddt.lookup r.hash = some e)
      (hrefs : e'.refs.toNat + 1 = e.refs.toNat) (hne : e'.refs.toNat ≠ 0)
      (hplace : Dedup.Table.Entry.SamePlace e e') :
      Released r p { p with ddt := ⟨p.ddt.m.insert r.hash e'⟩ }
  | last {e : Dedup.Entry} (hlook : p.ddt.lookup r.hash = some e) (hone : e.refs.toNat = 1) :
      Released r p { p with ddt := ⟨p.ddt.m.erase r.hash⟩,
                            bm := p.bm.defer e.start.toNat e.count.toNat }

theorem release_sat (r : Ref) (p : Pool) :
    Sat (release r) p (fun _ p' => Released r p p')
      (fun f p' => f = .panic ∧ p' = p ∧ ∃ e, p.ddt.lookup r.hash = some e ∧ e.refs = 0) := by
  unfold release
  refine sat_get_bind ?_
  cases hdecr : p.ddt.decr r.hash with
  | none =>
    refine sat_panic ⟨rfl, rfl, ?_⟩
    unfold Dedup.Table.decr at hdecr
    cases hlook : p.ddt.lookup r.hash with
    | none => rw [hlook] at hdecr; cases hdecr
    | some e =>
      refine ⟨e, rfl, ?_⟩
      rw [hlook] at hdecr
      by_cases h0 : e.refs = 0
      · exact h0
      · simp only [h0, if_false] at hdecr
        split at hdecr <;> cases hdecr
  | some x =>
    obtain ⟨freed, ddt⟩ := x
    obtain ⟨-, hcase⟩ := Dedup.Table.decr_spec hdecr
    refine sat_modify_bind ?_
    rcases hcase with ⟨hlook, rfl, rfl⟩ | ⟨e, hlook, h0, hcase⟩
    · exact sat_pure (.absent hlook)
    rcases hcase with ⟨hone, -, rfl, e', rfl, hplace⟩ | ⟨hne, rfl, e', -, rfl, hrefs, hplace⟩
    · have hlast := Released.last hlook hone
      rw [← hplace.1, ← hplace.2.1] at hlast
      exact sat_modify hlast
    · exact sat_pure (.shared hlook hrefs (by omega) hplace)

/-! ## The history -/

section History

variable {env : Env} {bs : BlockStore} {b : Bytes} {p p' : Pool} {r : Ref}

/-- A block write that was issued while cluster `n` was free. -/
def IntoFree (bm : Alloc.Bitmap) (ev : Event) : Prop :=
  ∃ n left, ev = .write .data n left ∧ n < bm.total ∧ bm.bits n = false

theorem intoFree_of_alloc {bm bm' : Alloc.Bitmap} {count start i : Nat} {left : Bytes}
    (h : bm.alloc count = .ok (start, bm')) (hi : i < count) :
    IntoFree bm (.write .data (start + i) left) := by
  obtain ⟨-, ⟨hle, hfree⟩, -⟩ := Alloc.Bitmap.alloc_ok h
  exact ⟨_, _, rfl, by omega, hfree _ (by omega) (by omega)⟩

theorem Wrote.extends (h : Wrote env bs b p r p') :
    ∃ es, Disk.Extends p.dev p'.dev (.hash b :: es) ∧ ∀ ev ∈ es, IntoFree p.bm ev := by
  cases h with
  | hit _ _ _ _ hdev => exact ⟨[], hdev, by simp⟩
  | miss _ _ halloc _ _ _ hdev =>
    refine ⟨_, hdev, fun ev hev => ?_⟩
    obtain ⟨i, hi, rfl⟩ := List.mem_map.mp hev
    exact intoFree_of_alloc halloc (List.mem_range.mp hi)

theorem WriteFailed.extends {e : Fault Error} (h : WriteFailed env bs b p e p') :
    ∃ es, Disk.Extends p.dev p'.dev (.hash b :: es) ∧ ∀ ev ∈ es, IntoFree p.bm ev := by
  cases h with
  | overflow _ _ _ _ hdev => exact ⟨[], hdev, by simp⟩
  | compress _ _ _ hdev => exact ⟨[], hdev, by simp⟩
  | alloc _ _ _ _ hdev => exact ⟨[], hdev, by simp⟩
  | device _ halloc _ _ hdev hes _ _ =>
    refine ⟨_, hdev, fun ev hev => ?_⟩
    obtain ⟨i, left, hi, rfl⟩ := hes ev hev
    exact intoFree_of_alloc halloc hi

theorem Released.dev_eq (h : Released r p p') : p'.dev = p.dev := by
  cases h <;> rfl

/-- No cluster in use becomes free. -/
structure Keeping (bm bm' : Alloc.Bitmap) : Prop where
  total : bm'.total = bm.total
  bits : ∀ i, bm.bits i = true → bm'.bits i = true

theorem Keeping.refl (bm : Alloc.Bitmap) : Keeping bm bm := ⟨rfl, fun _ h => h⟩

theorem Wrote.keeping (h : Wrote env bs b p r p') : Keeping p.bm p'.bm := by
  cases h with
  | hit _ _ hbm _ _ => rw [hbm]; exact .refl _
  | miss _ _ halloc _ hbm _ _ =>
    obtain ⟨-, -, -, htot, -, -, hbits⟩ := Alloc.Bitmap.alloc_ok halloc
    rw [hbm]
    exact ⟨htot, fun i hi => by rw [hbits, hi, Bool.true_or]⟩

theorem WriteFailed.keeping {e : Fault Error} (hc : p.bm.Counted)
    (h : WriteFailed env bs b p e p') : Keeping p.bm p'.bm := by
  cases h with
  | overflow _ _ hbm _ _ => rw [hbm]; exact .refl _
  | compress _ hbm _ _ => rw [hbm]; exact .refl _
  | alloc _ _ hbm _ _ => rw [hbm]; exact .refl _
  | device _ halloc hbm _ _ _ _ _ =>
    obtain ⟨-, ⟨-, hfree⟩, -, htot, -, -, hbits⟩ := Alloc.Bitmap.alloc_ok halloc
    obtain ⟨htot', -, -, hbits'⟩ :=
      Alloc.Bitmap.free_spec (Alloc.Bitmap.alloc_counted hc halloc) _ _
    rw [hbm]
    refine ⟨htot'.trans htot, fun i hi => ?_⟩
    -- the run that is given back was free, so a cluster in use is not in it
    rw [hbits', hbits, hi, Bool.true_or, Bool.true_and, Bool.not_eq_true', decide_eq_false_iff_not]
    rintro ⟨h1, h2, -⟩
    rw [hfree i h1 h2] at hi
    cases hi

theorem Released.keeping (h : Released r p p') : Keeping p.bm p'.bm := by
  cases h with
  | absent => exact .refl _
  | shared => exact .refl _
  | last => exact ⟨rfl, fun _ h => h⟩

end History

end Store
end BloomFS
